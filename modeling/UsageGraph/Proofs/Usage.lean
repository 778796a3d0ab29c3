import Mathlib.Data.List.Nodup
import UsageGraph.Usage

/-! Sets of usages as sets of targets with an order.

A set lists one usage for each of its targets and keeps the targets in an index beside the
list, where they are looked up. The two never come apart, so a set is told by its list:
recording usages appends those with new targets, and a union is the first set followed by
what the second adds. Removing the usages of a type passes through unions as long as the
sets name the same owner for a target. Otherwise a union could keep a usage that is to be
removed and drop another one of the same target that is to stay.
-/

set_option autoImplicit false
namespace UsageGraph.UsageSet

section Recording

variable {set : UsageSet} (indexed : set.Indexed)
include indexed

theorem Indexed.nodup_insert (distinct : set.targets.Nodup) (usage : Usage) : (set.insert usage).targets.Nodup := by
  rw [indexed.targets_insert]
  split
  · exact distinct
  next absent => simpa using distinct.concat absent

theorem Indexed.mem_targets_foldl_insert (usages : List Usage) (target : NodeRef) :
    target ∈ (usages.foldl UsageSet.insert set).targets ↔
      target ∈ set.targets ∨ target ∈ usages.map Usage.target := by
  induction usages generalizing set with
  | nil => simp
  | cons usage rest ih =>
    rw [List.foldl_cons, ih (indexed.insert usage), indexed.mem_targets_insert, List.map_cons, List.mem_cons, or_assoc]

theorem Indexed.nodup_foldl_insert (usages : List Usage) (distinct : set.targets.Nodup) :
    (usages.foldl UsageSet.insert set).targets.Nodup := by
  induction usages generalizing set with
  | nil => exact distinct
  | cons usage rest ih => exact ih (indexed.insert usage) (indexed.nodup_insert distinct usage)

/-- Usages are passed over if a usage that came before has the same target, in the set or among themselves. -/
theorem Indexed.toList_foldl_insert (usages : List Usage) :
    (usages.foldl UsageSet.insert set).toList =
      List.eraseDupsBy.loop Usage.coincides usages set.toList.reverse := by
  induction usages generalizing set with
  | nil => simp [List.eraseDupsBy.loop]
  | cons usage rest ih =>
    rw [List.foldl_cons, ih (indexed.insert usage), indexed.toList_insert, List.eraseDupsBy.loop]
    have looked : set.toList.reverse.any (usage.coincides ·) = decide (usage.target ∈ set.targets) := by
      rw [Bool.eq_iff_iff]
      simp [Usage.coincides, targets, eq_comm (a := usage.target)]
    rw [looked]
    by_cases known : usage.target ∈ set.targets
    · rw [if_pos known, decide_eq_true known]
    · rw [if_neg known, decide_eq_false known, List.reverse_append]
      rfl

theorem Indexed.toList_foldl_insert_of_nodup {usages : List Usage} (distinct : (usages.map Usage.target).Nodup) :
    (usages.foldl UsageSet.insert set).toList =
      set.toList ++ usages.filter fun usage => usage.target ∉ set.targets := by
  induction usages generalizing set with
  | nil => simp
  | cons usage rest ih =>
    rw [List.map_cons, List.nodup_cons] at distinct
    rw [List.foldl_cons, ih (indexed.insert usage) distinct.2, indexed.toList_insert, indexed.targets_insert]
    by_cases known : usage.target ∈ set.targets
    · rw [if_pos known, if_pos known, List.filter_cons_of_neg (by simpa using known)]
    · rw [if_neg known, if_neg known, List.filter_cons_of_pos (by simpa using known), List.append_assoc]
      -- none of the later usages has the target that has just been recorded
      have others : rest.filter (fun later => decide (later.target ∉ set.targets ++ [usage.target])) =
          rest.filter fun later => decide (later.target ∉ set.targets) := by
        refine List.filter_congr fun later member => ?_
        have differs : later.target ≠ usage.target := fun same => distinct.1 (same ▸ List.mem_map_of_mem member)
        simp [differs]
      rw [others]
      rfl

end Recording

theorem toList_ofList (usages : List Usage) : (ofList usages).toList = usages.eraseDupsBy Usage.coincides :=
  Indexed.empty.toList_foldl_insert usages

theorem nodup_ofList (usages : List Usage) : (ofList usages).targets.Nodup :=
  Indexed.empty.nodup_foldl_insert usages .nil

theorem toList_withoutOwner {set : UsageSet} (distinct : set.targets.Nodup) (owner : TypeId) :
    (set.withoutOwner owner).toList = set.toList.filter fun usage => usage.owner ≠ owner := by
  have kept : ((set.toList.filter fun usage => usage.owner ≠ owner).map Usage.target).Nodup :=
    distinct.sublist (List.filter_sublist.map _)
  rw [withoutOwner, ofList, empty, Indexed.empty.toList_foldl_insert_of_nodup kept]
  simp [targets]

theorem mem_targets_withoutOwner (set : UsageSet) (owner : TypeId) (target : NodeRef) :
    target ∈ (set.withoutOwner owner).targets ↔
      target ∈ (set.toList.filter fun usage => usage.owner ≠ owner).map Usage.target := by
  rw [withoutOwner, ofList, empty, Indexed.empty.mem_targets_foldl_insert]
  simp [targets]

/-! ## Sound sets -/

structure Sound (set : UsageSet) : Prop where
  indexed : set.Indexed
  distinct : set.targets.Nodup

namespace Sound

variable {first second third : UsageSet} (sound : first.Sound) (sound' : second.Sound) (sound'' : third.Sound)

theorem empty : Sound {} := ⟨.empty, .nil⟩

theorem ofList (usages : List Usage) : (ofList usages).Sound := ⟨indexed_ofList usages, nodup_ofList usages⟩

theorem withoutOwner (set : UsageSet) (owner : TypeId) : (set.withoutOwner owner).Sound := ofList _

include sound

theorem insert (usage : Usage) : (first.insert usage).Sound :=
  ⟨sound.indexed.insert usage, sound.indexed.nodup_insert sound.distinct usage⟩

theorem union (second : UsageSet) : (first.union second).Sound :=
  ⟨sound.indexed.union second, sound.indexed.nodup_foldl_insert second.toList sound.distinct⟩

theorem mem_targets_union (second : UsageSet) (target : NodeRef) :
    target ∈ (first.union second).targets ↔ target ∈ first.targets ∨ target ∈ second.targets :=
  sound.indexed.mem_targets_foldl_insert second.toList target

theorem union_self : first.union first = first := by
  refine (sound.union first).indexed.ext sound.indexed ?_
  have nothing : (first.toList.filter fun usage => usage.target ∉ first.targets) = [] := by
    rw [List.filter_eq_nil_iff]
    intro usage member
    have listed : usage.target ∈ first.targets := List.mem_map_of_mem member
    simpa using listed
  rw [UsageSet.union, sound.indexed.toList_foldl_insert_of_nodup sound.distinct, nothing, List.append_nil]

theorem withoutOwner_idem (owner : TypeId) :
    (first.withoutOwner owner).withoutOwner owner = first.withoutOwner owner := by
  refine (indexed_withoutOwner _ owner).ext (indexed_withoutOwner _ owner) ?_
  rw [toList_withoutOwner (withoutOwner first owner).distinct, toList_withoutOwner sound.distinct, List.filter_filter]
  simp

theorem withoutOwner_comm (owner other : TypeId) :
    (first.withoutOwner owner).withoutOwner other = (first.withoutOwner other).withoutOwner owner := by
  refine (indexed_withoutOwner _ other).ext (indexed_withoutOwner _ owner) ?_
  rw [toList_withoutOwner (withoutOwner first owner).distinct, toList_withoutOwner (withoutOwner first other).distinct,
    toList_withoutOwner sound.distinct, toList_withoutOwner sound.distinct, List.filter_filter, List.filter_filter]
  simp only [Bool.and_comm]

include sound'

theorem toList_union :
    (first.union second).toList = first.toList ++ second.toList.filter fun usage => usage.target ∉ first.targets :=
  sound.indexed.toList_foldl_insert_of_nodup sound'.distinct

theorem subset_iff : first.subset second = true ↔ first.targets ⊆ second.targets :=
  UsageSet.subset_iff sound.indexed sound'.indexed

theorem equivalent_iff :
    first.equivalent second = true ↔ ∀ target, target ∈ first.targets ↔ target ∈ second.targets := by
  rw [equivalent, Bool.and_eq_true, sound.subset_iff sound', sound'.subset_iff sound]
  constructor
  · exact fun within target => ⟨fun member => within.1 member, fun member => within.2 member⟩
  · exact fun same => ⟨fun target => (same target).mp, fun target => (same target).mpr⟩

theorem union_comm : (first.union second).equivalent (second.union first) = true := by
  rw [(sound.union second).equivalent_iff (sound'.union first)]
  intro target
  rw [sound.mem_targets_union, sound'.mem_targets_union, or_comm]

/-- Where both sets name the same owner for a target, what one of them drops is not missed. -/
theorem withoutOwner_union
    (agree : ∀ usage ∈ first.toList ++ second.toList, ∀ other ∈ first.toList ++ second.toList,
      usage.target = other.target → usage.owner = other.owner) (owner : TypeId) :
    (first.union second).withoutOwner owner = (first.withoutOwner owner).union (second.withoutOwner owner) := by
  have stripped := withoutOwner first owner
  have stripped' := withoutOwner second owner
  refine (indexed_withoutOwner _ owner).ext (stripped.union _).indexed ?_
  rw [toList_withoutOwner (sound.union second).distinct, sound.toList_union sound', stripped.toList_union stripped',
    toList_withoutOwner sound.distinct, toList_withoutOwner sound'.distinct, List.filter_append, List.filter_filter,
    List.filter_filter]
  congr 1
  refine List.filter_congr fun usage member => ?_
  -- a usage that stays is known to the first set with or without the usages that are removed
  have known : usage.owner ≠ owner →
      (usage.target ∈ (first.withoutOwner owner).targets ↔ usage.target ∈ first.targets) := by
    intro stays
    rw [mem_targets_withoutOwner]
    constructor
    · exact fun kept => (List.filter_sublist.map _).subset kept
    · intro listed
      obtain ⟨earlier, recorded, same⟩ := List.mem_map.mp listed
      have owned := agree earlier (List.mem_append_left _ recorded) usage (List.mem_append_right _ member) same
      exact List.mem_map.mpr ⟨earlier, List.mem_filter.mpr ⟨recorded, by simpa [owned] using stays⟩, same⟩
  by_cases stays : usage.owner = owner
  · simp [stays]
  · simp [stays, known stays]

include sound''

theorem union_assoc : (first.union second).union third = first.union (second.union third) := by
  have right := sound'.union third
  refine ((sound.union second).union third).indexed.ext (sound.union _).indexed ?_
  rw [(sound.union second).toList_union sound'', sound.toList_union sound', sound.toList_union right,
    sound'.toList_union sound'', List.filter_append, List.filter_filter, List.append_assoc]
  simp only [sound.mem_targets_union, not_or, Bool.decide_and]

end Sound

/-- The sets that come up when usages are recorded, collected, united and removed. -/
inductive Built : UsageSet → Prop
  | empty : Built empty
  | insert {set : UsageSet} (built : Built set) (usage : Usage) : Built (set.insert usage)
  | ofList (usages : List Usage) : Built (ofList usages)
  | union {first second : UsageSet} (built : Built first) (built' : Built second) : Built (first.union second)
  | withoutOwner {set : UsageSet} (built : Built set) (owner : TypeId) : Built (set.withoutOwner owner)

theorem Built.sound {set : UsageSet} (built : set.Built) : set.Sound := by
  induction built with
  | empty => exact .empty
  | insert _ usage sound => exact sound.insert usage
  | ofList usages => exact .ofList usages
  | union _ _ sound _ => exact sound.union _
  | withoutOwner _ owner _ => exact .withoutOwner _ owner

/-- What holds of any three sets that behave as sets of targets with an order. -/
structure Laws (first second third : UsageSet) : Prop where
  /-- A target is looked up in the index and found there if it is listed. -/
  found : ∀ target, target ∈ first.index ↔ target ∈ first.targets
  distinct : first.targets.Nodup
  union_assoc : (first.union second).union third = first.union (second.union third)
  union_self : first.union first = first
  /-- The order of a union depends on which set comes first, but nothing else does. -/
  union_comm : (first.union second).equivalent (second.union first) = true
  equivalent_iff : first.equivalent second = true ↔ ∀ target, target ∈ first.targets ↔ target ∈ second.targets
  subset_iff : first.subset second = true ↔ first.targets ⊆ second.targets
  withoutOwner_idem : ∀ owner, (first.withoutOwner owner).withoutOwner owner = first.withoutOwner owner
  withoutOwner_comm : ∀ owner other,
    (first.withoutOwner owner).withoutOwner other = (first.withoutOwner other).withoutOwner owner
  withoutOwner_union :
    (∀ usage ∈ first.toList ++ second.toList, ∀ other ∈ first.toList ++ second.toList,
      usage.target = other.target → usage.owner = other.owner) →
    ∀ owner, (first.union second).withoutOwner owner = (first.withoutOwner owner).union (second.withoutOwner owner)

/-- Collecting usages keeps the first one of each target, and sets obey the laws, however they were built. -/
theorem built_laws {first second third : UsageSet} (built : first.Built) (built' : second.Built)
    (built'' : third.Built) :
    (∀ usages, (ofList usages).toList = usages.eraseDupsBy Usage.coincides) ∧ Laws first second third := by
  have sound := built.sound
  have sound' := built'.sound
  refine ⟨toList_ofList, ?_⟩
  exact {
    found := fun target => by rw [show first.index = first.targets from sound.indexed]
    distinct := sound.distinct
    union_assoc := sound.union_assoc sound' built''.sound
    union_self := sound.union_self
    union_comm := sound.union_comm sound'
    equivalent_iff := sound.equivalent_iff sound'
    subset_iff := sound.subset_iff sound'
    withoutOwner_idem := sound.withoutOwner_idem
    withoutOwner_comm := sound.withoutOwner_comm
    withoutOwner_union := sound.withoutOwner_union sound' }

/-- A member is recorded as a field and then as a method; the sets share a type, in different places. -/
theorem built_laws_mixed :
    let field : Usage := ⟨.member ⟨4⟩, .member .field, ⟨1⟩⟩
    let call : Usage := { field with kind := .member .method }
    let type : Usage := ⟨.type ⟨2⟩, .type, ⟨2⟩⟩
    let raised : Usage := ⟨.member ⟨7⟩, .member .event, ⟨2⟩⟩
    let first := ofList [field, type, call]
    let second := (empty.insert raised).insert type
    first.toList = [field, type] ∧ (first.union second).toList = [field, type, raised] ∧
      (second.union first).toList = [raised, type, field] ∧
      (∀ usages, (ofList usages).toList = usages.eraseDupsBy Usage.coincides) ∧
      Laws first second (second.withoutOwner ⟨2⟩) := by
  intro field call type raised first second
  have built : first.Built := .ofList _
  have built' : second.Built := (Built.empty.insert raised).insert type
  exact ⟨by decide, by decide, by decide, built_laws built built' (built'.withoutOwner ⟨2⟩)⟩

-- without agreement on owners the union keeps the usage that is removed later
example :
    let first := ofList [⟨.member ⟨4⟩, .member .field, ⟨1⟩⟩]
    let second := ofList [⟨.member ⟨4⟩, .member .field, ⟨2⟩⟩]
    ((first.union second).withoutOwner ⟨1⟩).size = 0 ∧
      ((first.withoutOwner ⟨1⟩).union (second.withoutOwner ⟨1⟩)).size = 1 := by decide

end UsageGraph.UsageSet
