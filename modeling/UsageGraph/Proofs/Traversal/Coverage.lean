import Mathlib.Data.List.Nodup
import UsageGraph.Proofs.Traversal.Parts

/-! What a traversal covers.

A visit leads from a type to its supertypes in the module and to the types nested in it,
as far as the options allow. Types that are completed or in progress are passed over, so
each type that is led to is visited once, whatever the order of the phases.
-/

set_option autoImplicit false
namespace UsageGraph

namespace ModuleDecl

def successors (module : ModuleDecl) (type : TypeDecl) : List TypeDecl :=
  module.supertypesOf type.label ++ type.children

/-- The types that visits of some types come to, if all goes well. -/
inductive LeadsTo (module : ModuleDecl) (options : Options) (starts : List TypeDecl) : TypeDecl → Prop
  | start {type : TypeDecl} (member : type ∈ starts) (allowed : options.visitsType type.label.key = true) :
    LeadsTo module options starts type
  | next {type later : TypeDecl} (led : LeadsTo module options starts type) (member : later ∈ module.successors type)
    (allowed : options.visitsType later.label.key = true) : LeadsTo module options starts later

def Visited (module : ModuleDecl) (options : Options) (type : TypeDecl) : Prop :=
  module.LeadsTo options module.types type

variable {module : ModuleDecl} {options : Options} {starts others : List TypeDecl} {type : TypeDecl}

theorem LeadsTo.mono (led : module.LeadsTo options starts type) (within : ∀ start ∈ starts, start ∈ others) :
    module.LeadsTo options others type := by
  induction led with
  | start member allowed => exact .start (within _ member) allowed
  | next _ member allowed ih => exact .next ih member allowed

theorem LeadsTo.of_successors {first : TypeDecl} (led : module.LeadsTo options (module.successors first) type)
    (begun : module.LeadsTo options starts first) : module.LeadsTo options starts type := by
  induction led with
  | start member allowed => exact .next begun member allowed
  | next _ member allowed ih => exact .next ih member allowed

end ModuleDecl

/-! ## Covering -/

section Covers

variable (module : ModuleDecl) (options : Options) (order : Order)

/-- Visits of some types, from one walk to another, come to the given types and edits. -/
structure Covers (before : Walk) (starts : List TypeDecl) (after : Walk) (visited : List TypeDecl)
    (edits : List Edit) : Prop where
  definitions : after.definitions = before.definitions
  references : after.references = before.references
  completed : ∀ key, key ∈ after.completed ↔ key ∈ before.completed ∨ key ∈ visited.map fun type => type.label.key
  fresh : ∀ type ∈ visited, type.label.key ∉ before.completed ∧ type.label.key ∉ before.definitions.stack
  distinct : (visited.map fun type => type.label.key).Nodup
  led : ∀ type ∈ visited, module.LeadsTo options starts type
  /-- What is led to and not completed is in progress. -/
  started : ∀ type ∈ starts, options.visitsType type.label.key = true →
    type.label.key ∈ after.completed ∨ type.label.key ∈ before.definitions.stack
  closed : ∀ type ∈ visited, ∀ later ∈ module.successors type, options.visitsType later.label.key = true →
    later.label.key ∈ after.completed ∨ later.label.key ∈ before.definitions.stack
  fits : ∀ type ∈ visited, type.label.Fits module.key options
  mem_edits : ∀ edit, edit ∈ edits ↔ ∃ type ∈ visited, edit ∈ type.label.edits options order
  about : ∀ key, Edit.about key edits = visited.flatMap fun type => Edit.about key (type.label.edits options order)

variable {module options order} {before middle after : Walk} {starts others : List TypeDecl}
    {visited further : List TypeDecl}
  {edits more : List Edit}

theorem Covers.none (before : Walk) (idle : ∀ type ∈ starts, options.visitsType type.label.key = true →
    type.label.key ∈ before.completed ∨ type.label.key ∈ before.definitions.stack) :
    Covers module options order before starts before [] [] where
  definitions := rfl
  references := rfl
  completed := by simp
  fresh := by simp
  distinct := by simp
  led := by simp
  started := idle
  closed := by simp
  fits := by simp
  mem_edits := by simp
  about := by simp [Edit.about]

theorem Covers.append (first : Covers module options order before starts middle visited edits)
    (second : Covers module options order middle others after further more) :
    Covers module options order before (starts ++ others) after (visited ++ further) (edits ++ more) where
  definitions := second.definitions.trans first.definitions
  references := second.references.trans first.references
  completed key := by rw [second.completed, first.completed, List.map_append, List.mem_append, or_assoc]
  fresh type member := by
    rcases List.mem_append.mp member with member | member
    · exact first.fresh type member
    · -- what the first visits have completed is not visited again
      have fresh := second.fresh type member
      rw [first.definitions, first.completed] at fresh
      exact ⟨fun present => fresh.1 (.inl present), fresh.2⟩
  distinct := by
    rw [List.map_append]
    refine List.nodup_append.mpr ⟨first.distinct, second.distinct, ?_⟩
    intro key member other named same
    obtain ⟨type, member', rfl⟩ := List.mem_map.mp named
    exact (second.fresh type member').1 ((first.completed _).mpr (.inr (same ▸ member)))
  led type member := by
    rcases List.mem_append.mp member with member | member
    · exact (first.led type member).mono fun start named => List.mem_append_left _ named
    · exact (second.led type member).mono fun start named => List.mem_append_right _ named
  started type member allowed := by
    rcases List.mem_append.mp member with member | member
    · exact (first.started type member allowed).imp_left fun present => (second.completed _).mpr (.inl present)
    · exact first.definitions ▸ second.started type member allowed
  closed type member later next allowed := by
    rcases List.mem_append.mp member with member | member
    · exact (first.closed type member later next allowed).imp_left fun present =>
        (second.completed _).mpr (.inl present)
    · exact first.definitions ▸ second.closed type member later next allowed
  fits type member := (List.mem_append.mp member).elim (first.fits type) (second.fits type)
  mem_edits edit := by
    rw [List.mem_append, first.mem_edits, second.mem_edits]
    simp only [List.mem_append, or_and_right, exists_or]
  about key := by rw [Edit.about_append, first.about, second.about, List.flatMap_append]

variable (module options order)

/-- The phases of a type that is in progress, up to its completion, come to the given inner types and edits. -/
structure Finishes (type : TypeDecl) (parts : List Phase) (entered after : Walk) (inner : List TypeDecl)
    (edits : List Edit) :
    Prop where
  definitions : after.definitions = entered.definitions.leave
  references : after.references = entered.references
  completed : ∀ key, key ∈ after.completed ↔
    key ∈ entered.completed ∨ (key ∈ inner.map fun type => type.label.key) ∨ key = type.label.key
  fresh : ∀ type ∈ inner, type.label.key ∉ entered.completed ∧ type.label.key ∉ entered.definitions.stack
  distinct : (inner.map fun type => type.label.key).Nodup
  led : ∀ found ∈ inner, module.LeadsTo options (module.successors type) found
  supertypes : .supertypes ∈ parts → ∀ later ∈ module.supertypesOf type.label,
    options.visitsType later.label.key = true →
    later.label.key ∈ after.completed ∨ later.label.key ∈ entered.definitions.stack
  nested : .nested ∈ parts → ∀ later ∈ type.children, options.visitsType later.label.key = true →
    later.label.key ∈ after.completed ∨ later.label.key ∈ entered.definitions.stack
  closed : ∀ found ∈ inner, ∀ later ∈ module.successors found, options.visitsType later.label.key = true →
    later.label.key ∈ after.completed ∨ later.label.key ∈ entered.definitions.stack
  fits : ∀ found ∈ inner, found.label.Fits module.key options
  partFits : ∀ part ∈ parts, type.label.PhaseFits module.key options part
  mem_edits : ∀ edit, edit ∈ edits ↔ edit ∈ parts.flatMap (type.label.phaseEdits options) ∨
    ∃ found ∈ inner, edit ∈ found.label.edits options order
  about_self : Edit.about type.label.key edits =
    Edit.about type.label.key (parts.flatMap (type.label.phaseEdits options))
  about_other : ∀ key ≠ type.label.key,
    Edit.about key edits = inner.flatMap fun found => Edit.about key (found.label.edits options order)

variable {module options order} {type : TypeDecl} {parts : List Phase} {entered : Walk} {inner : List TypeDecl}

theorem Finishes.own (finishes : Finishes module options order type parts entered after inner edits) {part : Phase}
    (fits : type.label.PhaseFits module.key options part) (apart : part ≠ .supertypes ∧ part ≠ .nested) :
    Finishes module options order type (part :: parts) entered after inner
      (type.label.phaseEdits options part ++ edits) where
  definitions := finishes.definitions
  references := finishes.references
  completed := finishes.completed
  fresh := finishes.fresh
  distinct := finishes.distinct
  led := finishes.led
  supertypes member := finishes.supertypes ((List.mem_cons.mp member).resolve_left apart.1.symm)
  nested member := finishes.nested ((List.mem_cons.mp member).resolve_left apart.2.symm)
  closed := finishes.closed
  fits := finishes.fits
  partFits other member := by
    rcases List.mem_cons.mp member with rfl | member
    · exact fits
    · exact finishes.partFits other member
  mem_edits edit := by rw [List.mem_append, finishes.mem_edits, List.flatMap_cons, List.mem_append, or_assoc]
  about_self := by rw [Edit.about_append, finishes.about_self, List.flatMap_cons, Edit.about_append]
  about_other key differs := by
    have elsewhere := (Edit.Within.phaseEdits fits).about_eq_nil fun place here => here ▸ differs.symm
    rw [Edit.about_append, elsewhere, finishes.about_other key differs, List.nil_append]

theorem Finishes.visits (covers : Covers module options order entered starts middle visited more)
    (finishes : Finishes module options order type parts middle after inner edits)
    (active : type.label.key ∈ entered.definitions.stack) {part : Phase}
    (leads : part = .supertypes ∧ starts = module.supertypesOf type.label ∨ part = .nested ∧ starts = type.children) :
    Finishes module options order type (part :: parts) entered after (visited ++ inner) (more ++ edits) where
  definitions := by rw [finishes.definitions, covers.definitions]
  references := finishes.references.trans covers.references
  completed key := by
    rw [finishes.completed, covers.completed, List.map_append, List.mem_append, or_assoc, or_assoc]
  fresh found member := by
    rcases List.mem_append.mp member with member | member
    · exact covers.fresh found member
    · have fresh := finishes.fresh found member
      rw [covers.definitions, covers.completed] at fresh
      exact ⟨fun present => fresh.1 (.inl present), fresh.2⟩
  distinct := by
    rw [List.map_append]
    refine List.nodup_append.mpr ⟨covers.distinct, finishes.distinct, ?_⟩
    intro key member other named same
    obtain ⟨found, member', rfl⟩ := List.mem_map.mp named
    exact (finishes.fresh found member').1 ((covers.completed _).mpr (.inr (same ▸ member)))
  led found member := by
    rcases List.mem_append.mp member with member | member
    · refine (covers.led found member).mono fun start named => ?_
      rcases leads with ⟨_, rfl⟩ | ⟨_, rfl⟩
      · exact List.mem_append_left _ named
      · exact List.mem_append_right _ named
    · exact finishes.led found member
  supertypes member later named allowed := by
    rcases List.mem_cons.mp member with same | member
    · rcases leads with ⟨_, rfl⟩ | ⟨other, _⟩
      · exact (covers.started later named allowed).imp_left fun present => (finishes.completed _).mpr (.inl present)
      · exact absurd (same.trans other) nofun
    · exact covers.definitions ▸ finishes.supertypes member later named allowed
  nested member later named allowed := by
    rcases List.mem_cons.mp member with same | member
    · rcases leads with ⟨other, _⟩ | ⟨_, rfl⟩
      · exact absurd (same.trans other) nofun
      · exact (covers.started later named allowed).imp_left fun present => (finishes.completed _).mpr (.inl present)
    · exact covers.definitions ▸ finishes.nested member later named allowed
  closed found member later next allowed := by
    -- what was in progress for the earlier visits is so for the later ones too
    rcases List.mem_append.mp member with member | member
    · exact (covers.closed found member later next allowed).imp_left fun present =>
        (finishes.completed _).mpr (.inl present)
    · exact covers.definitions ▸ finishes.closed found member later next allowed
  fits found member := (List.mem_append.mp member).elim (covers.fits found) (finishes.fits found)
  partFits other member := by
    rcases List.mem_cons.mp member with rfl | member
    · rcases leads with ⟨rfl, _⟩ | ⟨rfl, _⟩
      · trivial
      · trivial
    · exact finishes.partFits other member
  mem_edits edit := by
    have nothing : type.label.phaseEdits options part = [] := by rcases leads with ⟨rfl, _⟩ | ⟨rfl, _⟩ <;> rfl
    rw [List.mem_append, covers.mem_edits, finishes.mem_edits, List.flatMap_cons, nothing, List.nil_append]
    simp only [List.mem_append, or_and_right, exists_or]
    exact or_left_comm
  about_self := by
    have nothing : type.label.phaseEdits options part = [] := by rcases leads with ⟨rfl, _⟩ | ⟨rfl, _⟩ <;> rfl
    rw [Edit.about_append, finishes.about_self, List.flatMap_cons, nothing, List.nil_append, covers.about]
    -- the types visited here are others, because the type itself is in progress
    rw [about_others covers.fits fun found member same => (covers.fresh found member).2 (same ▸ active),
      List.nil_append]
  about_other key differs := by
    rw [Edit.about_append, covers.about, finishes.about_other key differs, List.flatMap_append]

theorem Finishes.complete (type : TypeDecl) (entered : Walk) :
    Finishes module options order type [.complete] entered
      { entered with
        definitions := entered.definitions.leave, completed := entered.completed.insert type.label.key } [] [] where
  definitions := rfl
  references := rfl
  completed key := by simp [or_comm]
  fresh := by simp
  distinct := by simp
  led := by simp
  supertypes := by simp
  nested := by simp
  closed := by simp
  fits := by simp
  partFits := by simp [Definition.PhaseFits]
  mem_edits := by simp [Definition.phaseEdits]
  about_self := by simp [Definition.phaseEdits]
  about_other := by simp [Edit.about]

def Walk.begin (walk : Walk) (key : TypeKey) : Walk :=
  { walk with definitions := walk.definitions.hold key }

theorem Walk.stack_begin {walk : Walk} {key : TypeKey} (fresh : key ∉ walk.definitions.stack) :
    (walk.begin key).definitions.stack = key :: walk.definitions.stack := Guard.stack_hold fresh

theorem Walk.depth_begin {walk : Walk} {key : TypeKey} (fresh : key ∉ walk.definitions.stack) :
    (walk.begin key).definitions.depth = walk.definitions.depth + 1 := Guard.depth_hold fresh

theorem Walk.mem_begin (walk : Walk) (key : TypeKey) : key ∈ (walk.begin key).definitions.stack :=
  Guard.mem_hold.mpr (.inl rfl)

theorem Finishes.settled
    (finishes : Finishes module options order type parts (before.begin type.label.key) after inner edits)
    {key : TypeKey} (found : key ∈ after.completed ∨ key ∈ (before.begin type.label.key).definitions.stack) :
    key ∈ after.completed ∨ key ∈ before.definitions.stack := by
  -- at the end the type itself is no longer in progress, but completed
  rcases found with done | active
  · exact .inl done
  · rcases Guard.mem_hold.mp active with rfl | active
    · exact .inl ((finishes.completed _).mpr (.inr (.inr rfl)))
    · exact .inr active

theorem Finishes.fits_type (finishes : Finishes module options order type parts entered after inner edits)
    (whole : ∀ part, part ∈ Phase.claim :: parts) : type.label.Fits module.key options := by
  intro part
  rcases List.mem_cons.mp (whole part) with rfl | member
  · trivial
  · exact finishes.partFits part member

/-- A type that has gone through all phases is covered. -/
theorem Finishes.covers
    (finishes : Finishes module options (.claim :: parts) type parts (before.begin type.label.key) after inner edits)
    (whole : ∀ part, part ∈ Phase.claim :: parts) (allowed : options.visitsType type.label.key = true)
    (fresh : type.label.key ∉ before.completed ∧ type.label.key ∉ before.definitions.stack) :
    Covers module options (.claim :: parts) before [type] after (inner ++ [type]) edits := by
  have partOf : ∀ part, part ≠ .claim → part ∈ parts :=
    fun part other => (List.mem_cons.mp (whole part)).resolve_left other
  have fits := finishes.fits_type whole
  -- the type is in progress while the inner types are visited, so it is none of them
  have apart : ∀ found ∈ inner, found.label.key ≠ type.label.key := fun found member same =>
    (finishes.fresh found member).2 (Guard.mem_hold.mpr (.inl same))
  have own : type.label.edits options (.claim :: parts) = parts.flatMap (type.label.phaseEdits options) := rfl
  exact {
    definitions := finishes.definitions.trans (Guard.leave_hold fresh.2)
    references := finishes.references
    completed := fun key => by
      rw [finishes.completed]
      simp [Walk.begin]
    fresh := fun found member => by
      rcases List.mem_append.mp member with member | member
      · have fresh := finishes.fresh found member
        exact ⟨fresh.1, fun active => fresh.2 (Guard.mem_hold.mpr (.inr active))⟩
      · rw [List.mem_singleton.mp member]
        exact fresh
    distinct := by
      rw [List.map_append]
      refine List.nodup_append.mpr ⟨finishes.distinct, by simp, ?_⟩
      intro key member other named same
      obtain ⟨found, member', rfl⟩ := List.mem_map.mp member
      exact apart found member' (same.trans (by simpa using named))
    led := fun found member => by
      have begun : module.LeadsTo options [type] type := .start List.mem_cons_self allowed
      rcases List.mem_append.mp member with member | member
      · exact (finishes.led found member).of_successors begun
      · rw [List.mem_singleton.mp member]
        exact begun
    started := fun start member _ => by
      rw [List.mem_singleton.mp member]
      exact .inl ((finishes.completed _).mpr (.inr (.inr rfl)))
    closed := fun found member later next allowed => by
      rcases List.mem_append.mp member with member | member
      · exact finishes.settled (finishes.closed found member later next allowed)
      · rw [List.mem_singleton.mp member] at next
        rcases List.mem_append.mp next with next | next
        · exact finishes.settled (finishes.supertypes (partOf _ nofun) later next allowed)
        · exact finishes.settled (finishes.nested (partOf _ nofun) later next allowed)
    fits := fun found member => by
      rcases List.mem_append.mp member with member | member
      · exact finishes.fits found member
      · rw [List.mem_singleton.mp member]
        exact fits
    mem_edits := fun edit => by
      rw [finishes.mem_edits]
      simp [own, or_and_right, exists_or, or_comm]
    about := fun key => by
      rw [List.flatMap_append, List.flatMap_singleton]
      by_cases same : key = type.label.key
      · subst same
        rw [finishes.about_self, about_others finishes.fits apart, List.nil_append]
        rfl
      · rw [finishes.about_other key same, fits.about_eq_nil _ (Ne.symm same), List.append_nil] }

end Covers

end UsageGraph
