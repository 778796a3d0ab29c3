import Mathlib.Data.List.Infix
import UsageGraph.Proofs.Builder.Refine
import UsageGraph.Proofs.View.Edits

/-! Edits that say nothing new.

Some facts are set, and the last setting counts. Others are collected, each once and in
order, and a visitation only rises. A list of edits is subsumed by another one if it can be
made before it or after it without a difference to what the other one comes to.
-/

set_option autoImplicit false
namespace UsageGraph

section Folds

variable {φ π : Type} {put : φ → π → φ} {first second : List π}

/-- Entries absorb others that make no difference, whether they come after or before. -/
def Absorbs (put : φ → π → φ) (first second : List π) : Prop :=
  ∀ start, (first ++ second).foldl put start = first.foldl put start ∧
    (second ++ first).foldl put start = first.foldl put start

theorem foldl_eq_of_overwrites (overwrites : ∀ before before' entry, put before entry = put before' entry)
    {entries : List π} (some_entry : entries ≠ []) (start start' : φ) :
    entries.foldl put start = entries.foldl put start' := by
  cases entries with
  | nil => exact absurd rfl some_entry
  | cons entry rest => rw [List.foldl_cons, List.foldl_cons, overwrites start start']

theorem Absorbs.of_suffix (put : φ → π → φ) (overwrites : ∀ before before' entry, put before entry = put before' entry)
    (ends : second <:+ first) : Absorbs put first second := by
  intro start
  by_cases nothing : second = []
  · simp [nothing]
  · have something : first ≠ [] := fun none => nothing (List.suffix_nil.mp (none ▸ ends))
    constructor
    · obtain ⟨earlier, rfl⟩ := ends
      rw [List.foldl_append, List.foldl_append]
      exact foldl_eq_of_overwrites overwrites nothing _ _
    · rw [List.foldl_append]
      exact foldl_eq_of_overwrites overwrites something _ _

theorem Absorbs.of_constant (put : φ → π → φ) {value : φ} (constant : ∀ before entry, put before entry = value)
    (any : second ≠ [] → first ≠ []) : Absorbs put first second := by
  have comes : ∀ (entries : List π) start, entries.foldl put start = if entries = [] then start else value := by
    intro entries
    induction entries with
    | nil => simp
    | cons entry rest ih =>
      intro start
      rw [List.foldl_cons, ih, constant]
      simp
  intro start
  simp only [comes, List.append_eq_nil_iff]
  grind

end Folds

section Keys

variable {first second : List TypeKey}

theorem mem_addKeyOnce {keys : List TypeKey} {key other : TypeKey} :
    other ∈ addKeyOnce keys key ↔ other ∈ keys ∨ other = key := by
  unfold addKeyOnce
  split
  next present => grind
  next => simp

theorem mem_foldl_addKeyOnce {added keys : List TypeKey} {key : TypeKey} :
    key ∈ added.foldl addKeyOnce keys ↔ key ∈ keys ∨ key ∈ added := by
  induction added generalizing keys with
  | nil => simp
  | cons first rest ih => rw [List.foldl_cons, ih, mem_addKeyOnce, List.mem_cons, or_assoc]

theorem foldl_addKeyOnce_of_subset {added keys : List TypeKey} (present : ∀ key ∈ added, key ∈ keys) :
    added.foldl addKeyOnce keys = keys := by
  induction added with
  | nil => rfl
  | cons first rest ih =>
    rw [List.foldl_cons, addKeyOnce, if_pos (present first List.mem_cons_self)]
    exact ih fun key member => present key (List.mem_cons_of_mem _ member)

theorem absorbs_addKeyOnce (begins : second <+: first) : Absorbs addKeyOnce first second := by
  intro start
  constructor
  · rw [List.foldl_append]
    apply foldl_addKeyOnce_of_subset
    intro key member
    exact mem_foldl_addKeyOnce.mpr (.inr (begins.subset member))
  · obtain ⟨rest, rfl⟩ := begins
    rw [List.foldl_append, List.foldl_append, List.foldl_append]
    congr 1
    apply foldl_addKeyOnce_of_subset
    intro key member
    exact mem_foldl_addKeyOnce.mpr (.inr member)

end Keys

theorem absorbs_insert {first second : List NodeKey} (within : second ⊆ first) :
    Absorbs (fun (set : Set NodeKey) key => insert key set) first second := by
  have mem_foldl : ∀ (added : List NodeKey) (keys : Set NodeKey) key,
      key ∈ added.foldl (fun set key => insert key set) keys ↔ key ∈ keys ∨ key ∈ added := by
    intro added
    induction added with
    | nil => simp
    | cons first rest ih =>
      intro keys key
      rw [List.foldl_cons, ih, Set.mem_insert_iff, List.mem_cons]
      grind
  intro start
  constructor
  · ext key
    rw [mem_foldl, mem_foldl, List.mem_append]
    grind
  · ext key
    rw [mem_foldl, mem_foldl, List.mem_append]
    grind

/-- Each of the second openings is matched by one of the first that shows as much. -/
def Outdoes (first second : List Bool) : Prop :=
  ∀ signatureOnly ∈ second, ∃ opening ∈ first, opening = true → signatureOnly = true

theorem Outdoes.refl (openings : List Bool) : Outdoes openings openings := fun opening member => ⟨opening, member, id⟩

theorem Outdoes.nonempty {first second : List Bool} (outdoes : Outdoes first second) (any : second ≠ []) :
    first ≠ [] := by
  obtain ⟨signatureOnly, member⟩ := List.exists_mem_of_ne_nil second any
  obtain ⟨opening, member, _⟩ := outdoes signatureOnly member
  exact List.ne_nil_of_mem member

theorem Outdoes.mem_full {first second : List Bool} (outdoes : Outdoes first second) (full : false ∈ second) :
    false ∈ first := by
  obtain ⟨opening, member, weaker⟩ := outdoes false full
  cases opening with
  | false => exact member
  | true => exact absurd (weaker rfl) (by simp)

/-- A visitation rises to the highest that it is opened with, and stays there. -/
theorem foldl_opened (openings : List Bool) (start : Visitation) :
    openings.foldl (fun visitation signatureOnly => visitation.opened signatureOnly) start =
      if start = .full ∨ false ∈ openings then .full else if openings = [] then start else .signatureOnly := by
  induction openings generalizing start with
  | nil => cases start <;> simp
  | cons signatureOnly rest ih =>
    rw [List.foldl_cons, ih]
    cases start <;> cases signatureOnly <;> simp [Visitation.opened]

theorem absorbs_opened {first second : List Bool} (outdoes : Outdoes first second) :
    Absorbs (fun visitation signatureOnly => Visitation.opened signatureOnly visitation) first second := by
  have any := outdoes.nonempty
  have full := outdoes.mem_full
  intro start
  simp only [foldl_opened, List.mem_append, List.append_eq_nil_iff]
  grind

section Fields

variable {Facts Change φ π : Type} (apply : Facts → Change → Facts) (field : Facts → φ) {part? : Change → Option π}
  {put : φ → π → φ}

theorem foldl_field
    (step : ∀ facts change, field (apply facts change) = ((part? change).map (put (field facts))).getD (field facts))
    (changes : List Change) (facts : Facts) :
    field (changes.foldl apply facts) = (changes.filterMap part?).foldl put (field facts) := by
  induction changes generalizing facts with
  | nil => rfl
  | cons change rest ih =>
    rw [List.foldl_cons, ih, step]
    cases entry : part? change <;> simp [entry]

theorem Absorbs.of_part {first second : List Change}
    (absorbs : Absorbs put (first.filterMap part?) (second.filterMap part?))
    (step : ∀ facts change, field (apply facts change) = ((part? change).map (put (field facts))).getD (field facts))
    (facts : Facts) :
    field ((first ++ second).foldl apply facts) = field (first.foldl apply facts) ∧
      field ((second ++ first).foldl apply facts) = field (first.foldl apply facts) := by
  simp only [foldl_field apply field step, List.filterMap_append]
  exact absorbs (field facts)

theorem suffix_filterMap (sets : Change → Bool) (part? : Change → Option π) {first second : List Change}
    (silent : ∀ change, sets change = false → part? change = none) (ends : second.filter sets <:+ first.filter sets) :
    second.filterMap part? <:+ first.filterMap part? := by
  have only : ∀ changes : List Change, (changes.filter sets).filterMap part? = changes.filterMap part? := by
    intro changes
    rw [List.filterMap_filter]
    congr 1
    funext change
    cases set : sets change with
    | true => rfl
    | false => simp [silent change set]
  rw [← only first, ← only second]
  exact ends.filterMap part?

end Fields

attribute [ext] TypeFacts MemberFacts

namespace TypeChange

def opened? : TypeChange → Option Bool
  | .opened signatureOnly => some signatureOnly
  | _ => none

def flags? : TypeChange → Option (Bool × Bool)
  | .flags isInterface isAbstract => some (isInterface, isAbstract)
  | _ => none

def base? : TypeChange → Option TypeKey
  | .base key => some key
  | _ => none

def interface? : TypeChange → Option TypeKey
  | .interface key => some key
  | _ => none

def attribute? : TypeChange → Option TypeKey
  | .attributed key => some key
  | _ => none

def use? : TypeChange → Option NodeKey
  | .use key => some key
  | _ => none

def sets (change : TypeChange) : Bool := change.flags?.isSome || change.base?.isSome

/-- The second changes of a type say nothing that the first do not say. -/
structure Subsumes (first second : List TypeChange) : Prop where
  opened : Outdoes (first.filterMap opened?) (second.filterMap opened?)
  settings : second.filter sets <:+ first.filter sets
  interfaces : second.filterMap interface? <+: first.filterMap interface?
  attributes : second.filterMap attribute? <+: first.filterMap attribute?
  uses : second.filterMap use? ⊆ first.filterMap use?

theorem Subsumes.refl (changes : List TypeChange) : Subsumes changes changes where
  opened := .refl _
  settings := List.suffix_rfl
  interfaces := List.prefix_rfl
  attributes := List.prefix_rfl
  uses := List.Subset.refl _

abbrev run (facts : TypeFacts) (change : TypeChange) : TypeFacts := change.apply facts

theorem Subsumes.absorbs {first second : List TypeChange} (subsumes : Subsumes first second) :
    Absorbs run first second := by
  intro facts
  -- each field is written by some of the changes only, and what is said of it last is said by both
  have flags := suffix_filterMap sets flags? (fun change => by cases change <;> simp [sets, flags?]) subsumes.settings
  have bases := suffix_filterMap sets base? (fun change => by cases change <;> simp [sets, base?]) subsumes.settings
  have isInterface := (Absorbs.of_suffix (fun _ given => given.1) (fun _ _ _ => rfl) flags).of_part run
    TypeFacts.isInterface (fun _ change => by cases change <;> rfl) facts
  have isAbstract := (Absorbs.of_suffix (fun _ given => given.2) (fun _ _ _ => rfl) flags).of_part run
    TypeFacts.isAbstract (fun _ change => by cases change <;> rfl) facts
  have visitation := (absorbs_opened subsumes.opened).of_part run TypeFacts.visitation
    (fun _ change => by cases change <;> rfl) facts
  have isExternal := (Absorbs.of_constant (fun _ _ => false) (fun _ _ => rfl) subsumes.opened.nonempty).of_part run
    TypeFacts.isExternal (fun _ change => by cases change <;> rfl) facts
  have base := (Absorbs.of_suffix (fun _ key => some key) (fun _ _ _ => rfl) bases).of_part run TypeFacts.base
    (fun _ change => by cases change <;> rfl) facts
  have interfaces := (absorbs_addKeyOnce subsumes.interfaces).of_part run TypeFacts.interfaces
    (fun _ change => by cases change <;> rfl) facts
  have attributes := (absorbs_addKeyOnce subsumes.attributes).of_part run TypeFacts.attributes
    (fun _ change => by cases change <;> rfl) facts
  have uses := (absorbs_insert subsumes.uses).of_part run TypeFacts.uses (fun _ change => by cases change <;> rfl) facts
  constructor
  · exact TypeFacts.ext isInterface.1 isAbstract.1 visitation.1 isExternal.1 base.1 interfaces.1 attributes.1 uses.1
  · exact TypeFacts.ext isInterface.2 isAbstract.2 visitation.2 isExternal.2 base.2 interfaces.2 attributes.2 uses.2

end TypeChange

namespace MemberChange

def opened? : MemberChange → Option Bool
  | .opened signatureOnly => some signatureOnly
  | _ => none

def declaredType? : MemberChange → Option (Option TypeKey)
  | .prototype returns _ => some returns
  | .declaredType key => some (some key)
  | _ => none

def parameters? : MemberChange → Option (List TypeKey)
  | .prototype _ parameters => some parameters
  | _ => none

def flags? : MemberChange → Option MethodFlags
  | .flags given => some given
  | _ => none

def accessor? (slot : Slot) : MemberChange → Option MemberKey
  | .accessor linked key => if slot = linked then some key else none
  | _ => none

def attribute? : MemberChange → Option TypeKey
  | .attributed key => some key
  | _ => none

def use? : MemberChange → Option NodeKey
  | .use key => some key
  | _ => none

def sets : MemberChange → Bool
  | .prototype .. | .flags .. | .declaredType .. | .accessor .. => true
  | .opened .. | .attributed .. | .use .. => false

theorem accessor_apply (slot : Slot) (facts : MemberFacts) (change : MemberChange) :
    (change.apply facts).accessor slot = ((accessor? slot change).map some).getD (facts.accessor slot) := by
  cases change with
  | accessor linked key =>
    by_cases same : slot = linked
    · simp [apply, accessor?, same]
    · simp [apply, accessor?, same]
  | opened | prototype | flags | declaredType | attributed | use => rfl

structure Subsumes (first second : List MemberChange) : Prop where
  opened : Outdoes (first.filterMap opened?) (second.filterMap opened?)
  settings : second.filter sets <:+ first.filter sets
  attributes : second.filterMap attribute? <+: first.filterMap attribute?
  uses : second.filterMap use? ⊆ first.filterMap use?

theorem Subsumes.refl (changes : List MemberChange) : Subsumes changes changes where
  opened := .refl _
  settings := List.suffix_rfl
  attributes := List.prefix_rfl
  uses := List.Subset.refl _

abbrev run (facts : MemberFacts) (change : MemberChange) : MemberFacts := change.apply facts

theorem Subsumes.absorbs {first second : List MemberChange} (subsumes : Subsumes first second) :
    Absorbs run first second := by
  intro facts
  have entries : ∀ {π : Type} (part? : MemberChange → Option π), (∀ change, sets change = false → part? change = none) →
      second.filterMap part? <:+ first.filterMap part? :=
    fun part? silent => suffix_filterMap sets part? silent subsumes.settings
  have declaredTypes := entries declaredType? fun change => by cases change <;> simp [sets, declaredType?]
  have parameterLists := entries parameters? fun change => by cases change <;> simp [sets, parameters?]
  have flagSets := entries flags? fun change => by cases change <;> simp [sets, flags?]
  have links := fun slot => entries (accessor? slot) fun change => by cases change <;> simp [sets, accessor?]
  have declaredType := (Absorbs.of_suffix (fun _ declared => declared) (fun _ _ _ => rfl) declaredTypes).of_part run
    MemberFacts.declaredType (fun _ change => by cases change <;> rfl) facts
  have parameters := (Absorbs.of_suffix (fun _ given => given) (fun _ _ _ => rfl) parameterLists).of_part run
    MemberFacts.parameters (fun _ change => by cases change <;> rfl) facts
  have flags := (Absorbs.of_suffix (fun _ given => given) (fun _ _ _ => rfl) flagSets).of_part run MemberFacts.flags
    (fun _ change => by cases change <;> rfl) facts
  have accessor := fun slot => (Absorbs.of_suffix (fun _ key => some key) (fun _ _ _ => rfl) (links slot)).of_part run
    (fun facts => facts.accessor slot) (accessor_apply slot) facts
  have attributes := (absorbs_addKeyOnce subsumes.attributes).of_part run MemberFacts.attributes
    (fun _ change => by cases change <;> rfl) facts
  have visitation := (absorbs_opened subsumes.opened).of_part run MemberFacts.visitation
    (fun _ change => by cases change <;> rfl) facts
  have uses := (absorbs_insert subsumes.uses).of_part run MemberFacts.uses
    (fun _ change => by cases change <;> rfl) facts
  constructor
  · exact MemberFacts.ext declaredType.1 parameters.1 flags.1 (funext fun slot => (accessor slot).1) attributes.1
      visitation.1 uses.1
  · exact MemberFacts.ext declaredType.2 parameters.2 flags.2 (funext fun slot => (accessor slot).2) attributes.2
      visitation.2 uses.2

end MemberChange

/-! ## Edits -/

namespace Edit

/-- The second edits say nothing that the first do not say. -/
structure Subsumes (first second : List Edit) : Prop where
  ensured : ∀ edit ∈ second, edit.ensuredAssembly?.isSome → edit ∈ first
  opened : ∀ key, .openAssembly key false ∈ second → .openAssembly key false ∈ first
  types : ∀ key, TypeChange.Subsumes (typeChanges key first) (typeChanges key second)
  members : ∀ key, MemberChange.Subsumes (memberChanges key first) (memberChanges key second)

theorem Subsumes.refl (edits : List Edit) : Subsumes edits edits :=
  ⟨fun _ member _ => member, fun _ member => member, fun _ => .refl _, fun _ => .refl _⟩

end Edit

namespace View

variable {view : View} {first second : List Edit}

theorem admits_of_subsumes (subsumes : Edit.Subsumes first second) (admits : view.Admits first) :
    view.Admits (first ++ second) ∧ view.Admits (second ++ first) := by
  obtain ⟨kinds, known, ensured⟩ := admits_iff.mp admits
  have either : ∀ key kind, .ensureMember kind key ∈ first ∨ .ensureMember kind key ∈ second → kinds key = kind := by
    rintro key kind (member | member)
    · exact ensured key kind member
    · exact ensured key kind (subsumes.ensured _ member rfl)
  constructor
  · exact admits_iff.mpr ⟨kinds, known, fun key kind member => either key kind (List.mem_append.mp member)⟩
  · exact admits_iff.mpr ⟨kinds, known, fun key kind member => either key kind (List.mem_append.mp member).symm⟩

/-- Edits that are subsumed make no difference, neither after nor before those that subsume them. -/
theorem applyAll_of_subsumes (subsumes : Edit.Subsumes first second) (admits : view.Admits first) :
    view.applyAll (first ++ second) = view.applyAll first ∧ view.applyAll (second ++ first) = view.applyAll first := by
  obtain ⟨after, before⟩ := admits_of_subsumes subsumes admits
  constructor
  · refine applyAll_ext after admits ?_ ?_ ?_ ?_
    · intro edit ensures
      rw [List.mem_append, or_iff_left_iff_imp]
      exact fun member => subsumes.ensured edit member ensures
    · intro key
      rw [List.mem_append, or_iff_left_iff_imp]
      exact subsumes.opened key
    · intro key facts
      rw [Edit.typeChanges_append]
      exact ((subsumes.types key).absorbs facts).1
    · intro key facts
      rw [Edit.memberChanges_append]
      exact ((subsumes.members key).absorbs facts).1
  · refine applyAll_ext before admits ?_ ?_ ?_ ?_
    · intro edit ensures
      rw [List.mem_append, or_iff_right_iff_imp]
      exact fun member => subsumes.ensured edit member ensures
    · intro key
      rw [List.mem_append, or_iff_right_iff_imp]
      exact subsumes.opened key
    · intro key facts
      rw [Edit.typeChanges_append]
      exact ((subsumes.types key).absorbs facts).2
    · intro key facts
      rw [Edit.memberChanges_append]
      exact ((subsumes.members key).absorbs facts).2

end View

end UsageGraph
