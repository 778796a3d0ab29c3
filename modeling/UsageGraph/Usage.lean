import UsageGraph.Id
import UsageGraph.Kind

/-! Usages, and sets of usages in the order in which they were recorded.

A usage names its target together with the target's kind and owning type. A set holds
one usage per target: recording a target again leaves the earlier record as it is.
-/

set_option autoImplicit false
namespace UsageGraph

structure Usage where
  target : NodeRef
  kind : NodeKind
  /-- The target itself if it is a type, the declaring type if it is a member. -/
  owner : TypeId
  deriving DecidableEq

namespace Usage

/-- Usages coincide when they name the same target. -/
def coincides (first second : Usage) : Bool := first.target = second.target

/-- The used method, for a usage that is recorded as one. -/
def method? (usage : Usage) : Option MemberId :=
  match usage.target, usage.kind with
  | .member id, .member .method => some id
  | _, _ => none

def type? (usage : Usage) : Option TypeId :=
  match usage.target with
  | .type id => some id
  | .member _ => none

def text (usage : Usage) : String :=
  usage.target.text ++ ":" ++ usage.kind.text ++ ":" ++ usage.owner.text

end Usage

structure UsageSet where
  toList : List Usage := []
  /-- The targets that have been recorded, for looking them up. -/
  index : List NodeRef := []
  deriving DecidableEq

namespace UsageSet

def empty : UsageSet := {}

def targets (set : UsageSet) : List NodeRef := set.toList.map Usage.target

def contains (set : UsageSet) (target : NodeRef) : Bool := set.index.contains target

def insert (set : UsageSet) (usage : Usage) : UsageSet :=
  if set.contains usage.target then set else ⟨set.toList ++ [usage], set.index ++ [usage.target]⟩

def insertNew (set : UsageSet) (usage : Usage) : Bool × UsageSet :=
  (!set.contains usage.target, set.insert usage)

def ofList (usages : List Usage) : UsageSet := usages.foldl insert empty

/-- The first set followed by what the second adds to it. -/
def union (first second : UsageSet) : UsageSet := second.toList.foldl insert first

/-- The usages that do not refer to a type or to one of its members. -/
def withoutOwner (set : UsageSet) (owner : TypeId) : UsageSet :=
  ofList (set.toList.filter fun usage => usage.owner ≠ owner)

def ofKind (set : UsageSet) (kind : NodeKind) : List Usage :=
  set.toList.filter fun usage => usage.kind = kind

def methods (set : UsageSet) : List MemberId := set.toList.filterMap Usage.method?

def types (set : UsageSet) : List TypeId := set.toList.filterMap Usage.type?

def size (set : UsageSet) : Nat := set.toList.length

def isEmpty (set : UsageSet) : Bool := set.toList.isEmpty

def subset (first second : UsageSet) : Bool := first.index.all second.contains

def equivalent (first second : UsageSet) : Bool := first.subset second && second.subset first

/-- What can be looked up are the targets of the usages. -/
def Indexed (set : UsageSet) : Prop := set.index = set.targets

theorem Indexed.empty : Indexed {} := rfl

theorem Indexed.ext {first second : UsageSet} (indexed : first.Indexed) (indexed' : second.Indexed)
    (same : first.toList = second.toList) : first = second := by
  obtain ⟨usages, index⟩ := first
  obtain ⟨usages', index'⟩ := second
  obtain rfl : usages = usages' := same
  exact congrArg (UsageSet.mk usages) (indexed.trans indexed'.symm)

section Indexed

variable {set : UsageSet} (indexed : set.Indexed)
include indexed

theorem Indexed.contains_iff (target : NodeRef) : set.contains target = true ↔ target ∈ set.targets := by
  simp [contains, show set.index = set.targets from indexed]

theorem Indexed.toList_insert (usage : Usage) :
    (set.insert usage).toList = if usage.target ∈ set.targets then set.toList else set.toList ++ [usage] := by
  simp only [UsageSet.insert, indexed.contains_iff]
  split <;> rfl

theorem Indexed.targets_insert (usage : Usage) :
    (set.insert usage).targets =
      if usage.target ∈ set.targets then set.targets else set.targets ++ [usage.target] := by
  rw [targets, indexed.toList_insert]
  split
  · rfl
  · simp [targets]

theorem Indexed.insert (usage : Usage) : (set.insert usage).Indexed := by
  rw [Indexed, indexed.targets_insert, UsageSet.insert]
  simp only [indexed.contains_iff]
  split
  · exact indexed
  · exact congrArg (· ++ [usage.target]) indexed

theorem Indexed.mem_targets_insert (usage : Usage) (target : NodeRef) :
    target ∈ (set.insert usage).targets ↔ target ∈ set.targets ∨ target = usage.target := by
  rw [indexed.targets_insert]
  split
  next present =>
    constructor
    · exact Or.inl
    · rintro (member | rfl)
      · exact member
      · exact present
  next => simp

theorem Indexed.foldl_insert (usages : List Usage) : (usages.foldl UsageSet.insert set).Indexed := by
  induction usages generalizing set with
  | nil => exact indexed
  | cons usage rest ih => exact ih (indexed.insert usage)

theorem Indexed.union (second : UsageSet) : (set.union second).Indexed := indexed.foldl_insert second.toList

end Indexed

theorem indexed_ofList (usages : List Usage) : (ofList usages).Indexed := Indexed.empty.foldl_insert usages

theorem indexed_withoutOwner (set : UsageSet) (owner : TypeId) : (set.withoutOwner owner).Indexed := indexed_ofList _

theorem subset_iff {first second : UsageSet} (indexed : first.Indexed) (indexed' : second.Indexed) :
    first.subset second = true ↔ ∀ target ∈ first.targets, target ∈ second.targets := by
  simp [subset, show first.index = first.targets from indexed, indexed'.contains_iff]

end UsageSet

end UsageGraph
