import UsageGraph.Proofs.View

/-! What a list of edits comes to.

Which keys there are in the end, the kinds of members, and what is used depend only on
which edits are in the list. The other facts of a node come from the changes of this node
in their order, and the changes of a type and its members are those that are about it.
-/

set_option autoImplicit false
namespace UsageGraph

namespace Edit

def ensuredType? : Edit → Option TypeKey
  | .ensureType key => some key
  | .ensureMember _ key => some key.owner
  | _ => none

def ensuredSpace? : Edit → Option NamespaceKey
  | .ensureSpace key => some key
  | edit => edit.ensuredType?.map TypeKey.space

def ensuredAssembly? : Edit → Option AssemblyKey
  | .ensureAssembly key => some key
  | edit => edit.ensuredSpace?.map NamespaceKey.assembly

theorem isSome_ensuredAssembly?_of_space {edit : Edit} {key : NamespaceKey} (ensured : edit.ensuredSpace? = some key) :
    edit.ensuredAssembly?.isSome := by
  cases edit with
  | ensureAssembly | ensureSpace | ensureType | ensureMember => rfl
  | openAssembly | onType | onMember => cases ensured

theorem isSome_ensuredAssembly?_of_type {edit : Edit} {key : TypeKey} (ensured : edit.ensuredType? = some key) :
    edit.ensuredAssembly?.isSome := by
  cases edit with
  | ensureAssembly | ensureSpace | ensureType | ensureMember => rfl
  | openAssembly | onType | onMember => cases ensured

def typeChange? (key : TypeKey) : Edit → Option TypeChange
  | .onType changed change => if changed = key then some change else none
  | _ => none

def memberChange? (key : MemberKey) : Edit → Option MemberChange
  | .onMember changed change => if changed = key then some change else none
  | _ => none

def typeChanges (key : TypeKey) (edits : List Edit) : List TypeChange := edits.filterMap (typeChange? key)

def memberChanges (key : MemberKey) (edits : List Edit) : List MemberChange := edits.filterMap (memberChange? key)

theorem mem_typeChanges_iff {key : TypeKey} {edits : List Edit} {change : TypeChange} :
    change ∈ typeChanges key edits ↔ .onType key change ∈ edits := by
  unfold typeChanges
  rw [List.mem_filterMap]
  constructor
  · rintro ⟨edit, member, changed⟩
    cases edit with
    | onType other made =>
      obtain ⟨rfl, rfl⟩ : other = key ∧ made = change := by simpa [typeChange?] using changed
      exact member
    | ensureAssembly | ensureSpace | ensureType | ensureMember | openAssembly | onMember => cases changed
  · exact fun member => ⟨_, member, if_pos rfl⟩

theorem typeChanges_append (key : TypeKey) (first second : List Edit) :
    typeChanges key (first ++ second) = typeChanges key first ++ typeChanges key second :=
  List.filterMap_append ..

theorem memberChanges_append (key : MemberKey) (first second : List Edit) :
    memberChanges key (first ++ second) = memberChanges key first ++ memberChanges key second :=
  List.filterMap_append ..

end Edit

def TypeChange.applyAll (changes : List TypeChange) (facts : TypeFacts) : TypeFacts :=
  changes.foldl (fun facts change => change.apply facts) facts

def MemberChange.applyAll (changes : List MemberChange) (facts : MemberFacts) : MemberFacts :=
  changes.foldl (fun facts change => change.apply facts) facts

theorem Visitation.opened_ne_placeholder (visitation : Visitation) (signatureOnly : Bool) :
    visitation.opened signatureOnly ≠ .placeholder := by
  cases visitation <;> cases signatureOnly <;> decide

namespace View

variable {view : View} {edits first second : List Edit}

theorem kinds_apply {edit : Edit} (allowed : view.allows edit) (key : MemberKey) (kind : MemberKind) :
    (view.apply edit).kinds key = some kind ↔ view.kinds key = some kind ∨ edit = .ensureMember kind key := by
  cases edit with
  | ensureMember given changed =>
    show Function.update view.kinds changed ((view.kinds changed).or (some given)) key = some kind ↔ _
    by_cases here : key = changed
    · subst here
      rw [Function.update_self]
      cases found : view.kinds key with
      | none => simp
      | some before =>
        obtain rfl := allowed before found
        simp
    · have elsewhere : changed ≠ key := Ne.symm here
      simp [Function.update_of_ne here, elsewhere]
  | ensureAssembly | ensureSpace | ensureType | openAssembly | onType | onMember =>
    simp [apply, ensureAssembly, ensureSpace, ensureType]

theorem kinds_applyAll (admits : view.Admits edits) (key : MemberKey) (kind : MemberKind) :
    (view.applyAll edits).kinds key = some kind ↔ view.kinds key = some kind ∨ .ensureMember kind key ∈ edits := by
  induction edits generalizing view with
  | nil => simp [applyAll]
  | cons edit rest ih =>
    show ((view.apply edit).applyAll rest).kinds key = some kind ↔ _
    rw [ih admits.2, kinds_apply admits.1, List.mem_cons, or_assoc, @eq_comm _ edit]

/-- Edits are admitted if one kind can be given to each member key, so that the view and all edits agree with it. -/
theorem admits_iff : view.Admits edits ↔ ∃ kinds : MemberKey → MemberKind,
    (∀ key kind, view.kinds key = some kind → kinds key = kind) ∧
      ∀ key kind, .ensureMember kind key ∈ edits → kinds key = kind := by
  constructor
  · intro admits
    -- a key that is given no kind in the end may be given any
    refine ⟨fun key => ((view.applyAll edits).kinds key).getD .method, ?_, ?_⟩
    · intro key kind found
      simp [(kinds_applyAll admits key kind).mpr (.inl found)]
    · intro key kind ensured
      simp [(kinds_applyAll admits key kind).mpr (.inr ensured)]
  · rintro ⟨kinds, known, ensured⟩
    induction edits generalizing view with
    | nil => trivial
    | cons edit rest ih =>
      have allowed : view.allows edit := by
        cases edit with
        | ensureMember kind key =>
          intro found present
          rw [← known key found present, ensured key kind List.mem_cons_self]
        | ensureAssembly | ensureSpace | ensureType | openAssembly | onType | onMember => trivial
      refine ⟨allowed, ih ?_ fun key kind member => ensured key kind (List.mem_cons_of_mem _ member)⟩
      intro key kind found
      rcases (kinds_apply allowed key kind).mp found with before | rfl
      · exact known key kind before
      · exact ensured key kind List.mem_cons_self

/-- Whether edits are admitted does not depend on their order. -/
theorem admits_congr (same : ∀ edit, edit ∈ first ↔ edit ∈ second) : view.Admits first ↔ view.Admits second := by
  simp only [admits_iff, same]

theorem mem_applyAll_iff {κ : Type} (keys : View → Set κ) (adds : Edit → κ → Prop)
    (step : ∀ view edit key, key ∈ keys (view.apply edit) ↔ key ∈ keys view ∨ adds edit key) (view : View)
    (edits : List Edit)
    (key : κ) : key ∈ keys (view.applyAll edits) ↔ key ∈ keys view ∨ ∃ edit ∈ edits, adds edit key := by
  induction edits generalizing view with
  | nil => simp [applyAll]
  | cons edit rest ih =>
    show key ∈ keys ((view.apply edit).applyAll rest) ↔ _
    rw [ih, step, or_assoc]
    simp

section Sets

variable (view : View) (edits : List Edit)

theorem mem_assemblies_applyAll (key : AssemblyKey) :
    key ∈ (view.applyAll edits).assemblies ↔
      key ∈ view.assemblies ∨ ∃ edit ∈ edits, edit.ensuredAssembly? = some key := by
  refine mem_applyAll_iff assemblies (fun edit key => edit.ensuredAssembly? = some key) ?_ view edits key
  intro view edit key
  cases edit <;> simp [apply, ensureAssembly, ensureSpace, ensureType, ensureMember, Edit.ensuredAssembly?,
    Edit.ensuredSpace?, Edit.ensuredType?, or_comm, eq_comm]

theorem mem_spaces_applyAll (key : NamespaceKey) :
    key ∈ (view.applyAll edits).spaces ↔ key ∈ view.spaces ∨ ∃ edit ∈ edits, edit.ensuredSpace? = some key := by
  refine mem_applyAll_iff spaces (fun edit key => edit.ensuredSpace? = some key) ?_ view edits key
  intro view edit key
  cases edit <;> simp [apply, ensureAssembly, ensureSpace, ensureType, ensureMember, Edit.ensuredSpace?,
    Edit.ensuredType?, or_comm, eq_comm]

theorem mem_types_applyAll (key : TypeKey) :
    key ∈ (view.applyAll edits).types ↔ key ∈ view.types ∨ ∃ edit ∈ edits, edit.ensuredType? = some key := by
  refine mem_applyAll_iff types (fun edit key => edit.ensuredType? = some key) ?_ view edits key
  intro view edit key
  cases edit <;> simp [apply, ensureAssembly, ensureSpace, ensureType, ensureMember, Edit.ensuredType?, or_comm,
    eq_comm]

theorem mem_typeUses_applyAll (key : TypeKey) (target : NodeKey) :
    target ∈ ((view.applyAll edits).type key).uses ↔
      target ∈ (view.type key).uses ∨ .onType key (.use target) ∈ edits := by
  have run := mem_applyAll_iff (fun view => (view.type key).uses)
    (fun edit target => edit = .onType key (.use target)) ?_
    view edits target
  · simpa using run
  · intro view edit target
    cases edit with
    | onType changed change =>
      by_cases here : key = changed
      · subst here
        cases change <;> simp [apply, TypeChange.apply, or_comm, eq_comm]
      · simp [apply, Function.update_of_ne here, Ne.symm here]
    | ensureAssembly | ensureSpace | ensureType | ensureMember | openAssembly | onMember =>
      simp [apply, ensureAssembly, ensureSpace, ensureType, ensureMember]

theorem mem_memberUses_applyAll (key : MemberKey) (target : NodeKey) :
    target ∈ ((view.applyAll edits).member key).uses ↔
      target ∈ (view.member key).uses ∨ .onMember key (.use target) ∈ edits := by
  have run := mem_applyAll_iff (fun view => (view.member key).uses)
    (fun edit target => edit = .onMember key (.use target)) ?_
    view edits target
  · simpa using run
  · intro view edit target
    cases edit with
    | onMember changed change =>
      by_cases here : key = changed
      · subst here
        cases change <;> simp [apply, MemberChange.apply, or_comm, eq_comm]
      · simp [apply, Function.update_of_ne here, Ne.symm here]
    | ensureAssembly | ensureSpace | ensureType | ensureMember | openAssembly | onType =>
      simp [apply, ensureAssembly, ensureSpace, ensureType, ensureMember]

end Sets

/-! ## Facts -/

theorem isDependency_applyAll (view : View) (edits : List Edit) (key : AssemblyKey) :
    ((view.applyAll edits).assembly key).isDependency = false ↔
      (view.assembly key).isDependency = false ∨ .openAssembly key false ∈ edits := by
  have run := mem_applyAll_iff (fun view => {key | (view.assembly key).isDependency = false})
    (fun edit key => edit = .openAssembly key false) ?_ view edits key
  · simpa using run
  · intro view edit key
    cases edit with
    | openAssembly changed isDependency =>
      by_cases here : key = changed
      · subst here
        cases isDependency <;> simp [apply]
      · simp [apply, Function.update_of_ne here, Ne.symm here]
    | ensureAssembly | ensureSpace | ensureType | ensureMember | onType | onMember =>
      simp [apply, ensureAssembly, ensureSpace, ensureType, ensureMember]

theorem isOpened_applyAll (view : View) (edits : List Edit) (key : MemberKey) :
    ((view.applyAll edits).member key).visitation ≠ .placeholder ↔
      (view.member key).visitation ≠ .placeholder ∨ ∃ signatureOnly, .onMember key (.opened signatureOnly) ∈ edits := by
  have run := mem_applyAll_iff (fun view => {key | (view.member key).visitation ≠ .placeholder})
    (fun edit key => ∃ signatureOnly, edit = .onMember key (.opened signatureOnly)) ?_ view edits key
  · rw [Set.mem_ofPred_eq, Set.mem_ofPred_eq] at run
    rw [run]
    grind
  · intro view edit key
    cases edit with
    | onMember changed change =>
      by_cases here : key = changed
      · subst here
        cases change with
        | opened signatureOnly =>
          have opens := (view.member key).visitation.opened_ne_placeholder signatureOnly
          simp [apply, MemberChange.apply, opens]
        | prototype | flags | declaredType | accessor | attributed | use => simp [apply, MemberChange.apply]
      · simp [apply, Function.update_of_ne here, Ne.symm here]
    | ensureAssembly | ensureSpace | ensureType | ensureMember | openAssembly | onType =>
      simp [apply, ensureAssembly, ensureSpace, ensureType, ensureMember]

theorem decodeError_applyAll (view : View) (edits : List Edit) (key : AssemblyKey) :
    ((view.applyAll edits).assembly key).decodeError = (view.assembly key).decodeError := by
  induction edits generalizing view with
  | nil => rfl
  | cons edit rest ih =>
    refine (ih (view.apply edit)).trans ?_
    cases edit with
    | openAssembly changed isDependency =>
      by_cases here : key = changed
      · subst here
        simp [apply]
      · simp [apply, Function.update_of_ne here]
    | ensureAssembly | ensureSpace | ensureType | ensureMember | onType | onMember => rfl

theorem type_applyAll (view : View) (edits : List Edit) (key : TypeKey) :
    (view.applyAll edits).type key = TypeChange.applyAll (Edit.typeChanges key edits) (view.type key) := by
  induction edits generalizing view with
  | nil => rfl
  | cons edit rest ih =>
    refine (ih (view.apply edit)).trans ?_
    cases edit with
    | onType changed change =>
      by_cases here : key = changed
      · subst here
        simp [Edit.typeChanges, Edit.typeChange?, TypeChange.applyAll, apply]
      · simp [Edit.typeChanges, Edit.typeChange?, Ne.symm here, apply, Function.update_of_ne here]
    | ensureAssembly | ensureSpace | ensureType | ensureMember | openAssembly | onMember => rfl

theorem member_applyAll (view : View) (edits : List Edit) (key : MemberKey) :
    (view.applyAll edits).member key = MemberChange.applyAll (Edit.memberChanges key edits) (view.member key) := by
  induction edits generalizing view with
  | nil => rfl
  | cons edit rest ih =>
    refine (ih (view.apply edit)).trans ?_
    cases edit with
    | onMember changed change =>
      by_cases here : key = changed
      · subst here
        simp [Edit.memberChanges, Edit.memberChange?, MemberChange.applyAll, apply]
      · simp [Edit.memberChanges, Edit.memberChange?, Ne.symm here, apply, Function.update_of_ne here]
    | ensureAssembly | ensureSpace | ensureType | ensureMember | openAssembly | onType => rfl

/-- Two lists of edits lead to the same view, if they ensure the same keys, open the same assemblies as the program's
own, and agree on how the facts of each node are changed. -/
theorem applyAll_ext (admits : view.Admits first) (admits' : view.Admits second)
    (ensured : ∀ edit, edit.ensuredAssembly?.isSome → (edit ∈ first ↔ edit ∈ second))
    (opened : ∀ key, .openAssembly key false ∈ first ↔ .openAssembly key false ∈ second)
    (types : ∀ key facts, TypeChange.applyAll (Edit.typeChanges key first) facts =
      TypeChange.applyAll (Edit.typeChanges key second) facts)
    (members : ∀ key facts, MemberChange.applyAll (Edit.memberChanges key first) facts =
      MemberChange.applyAll (Edit.memberChanges key second) facts) :
    view.applyAll first = view.applyAll second := by
  -- a key of any level comes with that of its assembly
  have same : ∀ ensures : Edit → Prop, (∀ edit, ensures edit → edit.ensuredAssembly?.isSome) →
      ((∃ edit ∈ first, ensures edit) ↔ ∃ edit ∈ second, ensures edit) := by
    intro ensures owned
    constructor
    · rintro ⟨edit, member, made⟩
      exact ⟨edit, (ensured edit (owned edit made)).mp member, made⟩
    · rintro ⟨edit, member, made⟩
      exact ⟨edit, (ensured edit (owned edit made)).mpr member, made⟩
  apply View.ext
  · ext key
    rw [mem_assemblies_applyAll, mem_assemblies_applyAll, same _ fun edit made => by simp [made]]
  · ext key
    rw [mem_spaces_applyAll, mem_spaces_applyAll, same _ fun edit made => Edit.isSome_ensuredAssembly?_of_space made]
  · ext key
    rw [mem_types_applyAll, mem_types_applyAll, same _ fun edit made => Edit.isSome_ensuredAssembly?_of_type made]
  · funext key
    apply Option.ext
    intro kind
    rw [kinds_applyAll admits, kinds_applyAll admits', ensured _ rfl]
  · funext key
    have dependency : ((view.applyAll first).assembly key).isDependency =
      ((view.applyAll second).assembly key).isDependency := by
      rw [Bool.eq_iff_iff, ← Bool.not_eq_false, ← Bool.not_eq_false, isDependency_applyAll, isDependency_applyAll,
        opened]
    have error := (decodeError_applyAll view first key).trans (decodeError_applyAll view second key).symm
    cases at_first : (view.applyAll first).assembly key
    cases at_second : (view.applyAll second).assembly key
    simp_all
  · funext key
    rw [type_applyAll, type_applyAll, types]
  · funext key
    rw [member_applyAll, member_applyAll, members]

theorem applyAll_congr (admits : view.Admits first) (same : ∀ edit, edit ∈ first ↔ edit ∈ second)
    (types : ∀ key facts, TypeChange.applyAll (Edit.typeChanges key first) facts =
      TypeChange.applyAll (Edit.typeChanges key second) facts)
    (members : ∀ key, Edit.memberChanges key first = Edit.memberChanges key second) :
    view.applyAll first = view.applyAll second := by
  refine applyAll_ext admits ((admits_congr same).mp admits) (fun edit _ => same edit) (fun _ => same _) types ?_
  intro key facts
  rw [members]

end View

/-- A node whose facts edits can change. The key of a member tells which one it is, whatever its kind. -/
inductive Place where
  | type (key : TypeKey)
  | member (key : MemberKey)

def Place.typeKey : Place → TypeKey
  | .type key => key
  | .member key => key.owner

def Place.IsMemberOf (owner : TypeKey) : Place → Prop
  | .type _ => False
  | .member key => key.owner = owner

theorem Place.IsMemberOf.typeKey_eq {owner : TypeKey} {place : Place} (member : place.IsMemberOf owner) :
    place.typeKey = owner := by
  cases place with
  | type => exact member.elim
  | member => exact member

def NodeKey.place : NodeKey → Place
  | .type key => .type key
  | .member _ key => .member key

namespace Edit

def place? : Edit → Option Place
  | .onType key _ => some (.type key)
  | .onMember key _ => some (.member key)
  | _ => none

@[simp] theorem place?_use (holder target : NodeKey) : (use holder target).place? = some holder.place := by
  cases holder <;> rfl

@[simp] theorem place?_attributed (holder : NodeKey) (type : TypeKey) :
    (attributed holder type).place? = some holder.place := by
  cases holder <;> rfl

@[simp] theorem place?_ensureNode (key : NodeKey) : (ensureNode key).place? = none := by
  cases key <;> rfl

/-- The edits that change facts of a type or of its members, in their order. -/
def about (key : TypeKey) (edits : List Edit) : List Edit :=
  edits.filter fun edit => edit.place?.map Place.typeKey = some key

theorem about_append (key : TypeKey) (first second : List Edit) :
    about key (first ++ second) = about key first ++ about key second :=
  List.filter_append ..

theorem typeChanges_about (key : TypeKey) (edits : List Edit) :
    typeChanges key (about key edits) = typeChanges key edits := by
  unfold typeChanges about
  rw [List.filterMap_filter]
  congr 1
  funext edit
  cases edit with
  | onType changed change =>
    by_cases here : changed = key
    · simp [here, place?, Place.typeKey, typeChange?]
    · simp [here, typeChange?]
  | ensureAssembly | ensureSpace | ensureType | ensureMember | openAssembly | onMember => simp [typeChange?]

theorem memberChanges_about (key : MemberKey) (edits : List Edit) :
    memberChanges key (about key.owner edits) = memberChanges key edits := by
  unfold memberChanges about
  rw [List.filterMap_filter]
  congr 1
  funext edit
  cases edit with
  | onMember changed change =>
    by_cases here : changed = key
    · simp [here, place?, Place.typeKey, memberChange?]
    · simp [here, memberChange?]
  | ensureAssembly | ensureSpace | ensureType | ensureMember | openAssembly | onType => simp [memberChange?]

def Within (inside : Place → Prop) (edits : List Edit) : Prop :=
  ∀ edit ∈ edits, ∀ place, edit.place? = some place → inside place

namespace Within

variable {inside outside : Place → Prop} {first second : List Edit}

theorem nil : Within inside [] := nofun

theorem cons {edit : Edit} (here : ∀ place, edit.place? = some place → inside place) (rest : Within inside first) :
    Within inside (edit :: first) := by
  intro other member
  rcases List.mem_cons.mp member with rfl | member
  · exact here
  · exact rest other member

theorem ensure {edit : Edit} (free : edit.place? = none) (rest : Within inside first) : Within inside (edit :: first) :=
  cons (fun _ found => nomatch free.symm.trans found) rest

theorem change {edit : Edit} {place : Place} (placed : edit.place? = some place) (here : inside place)
    (rest : Within inside first) :
    Within inside (edit :: first) :=
  cons (fun _ found => Option.some.inj (placed.symm.trans found) ▸ here) rest

theorem append (left : Within inside first) (right : Within inside second) : Within inside (first ++ second) :=
  fun edit member => (List.mem_append.mp member).elim (left edit) (right edit)

theorem flatMap {α : Type} {items : List α} {edits : α → List Edit}
    (each : ∀ item ∈ items, Within inside (edits item)) :
    Within inside (items.flatMap edits) := by
  intro edit member
  obtain ⟨item, named, member⟩ := List.mem_flatMap.mp member
  exact each item named edit member

theorem map_ensureType (keys : List TypeKey) : Within inside (keys.map .ensureType) := by
  intro edit member
  obtain ⟨type, _, rfl⟩ := List.mem_map.mp member
  exact nofun

theorem mono (within : Within inside first) (wider : ∀ place, inside place → outside place) : Within outside first :=
  fun edit member place found => wider place (within edit member place found)

theorem about_eq_nil (within : Within inside first) {key : TypeKey}
    (elsewhere : ∀ place, inside place → place.typeKey ≠ key) :
    about key first = [] := by
  unfold about
  rw [List.filter_eq_nil_iff]
  intro edit member here
  obtain ⟨place, found, same⟩ := Option.map_eq_some_iff.mp (of_decide_eq_true here)
  exact elsewhere place (within edit member place found) same

theorem typeChanges_eq_nil (within : Within inside first) {key : TypeKey} (elsewhere : ¬ inside (.type key)) :
    typeChanges key first = [] := by
  unfold typeChanges
  rw [List.filterMap_eq_nil_iff]
  intro edit member
  cases edit with
  | onType changed change =>
    refine if_neg ?_
    rintro rfl
    exact elsewhere (within _ member _ rfl)
  | ensureAssembly | ensureSpace | ensureType | ensureMember | openAssembly | onMember => rfl

theorem memberChanges_eq_nil (within : Within inside first) {key : MemberKey} (elsewhere : ¬ inside (.member key)) :
    memberChanges key first = [] := by
  unfold memberChanges
  rw [List.filterMap_eq_nil_iff]
  intro edit member
  cases edit with
  | onMember changed change =>
    refine if_neg ?_
    rintro rfl
    exact elsewhere (within _ member _ rfl)
  | ensureAssembly | ensureSpace | ensureType | ensureMember | openAssembly | onType => rfl

end Within

end Edit

end UsageGraph
