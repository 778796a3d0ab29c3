import Mathlib.Data.List.Induction
import UsageGraph.Proofs.Traversal.Agreement
import UsageGraph.Proofs.Traversal.Usages

/-! The content that declarations give to nodes.

Openings and usages apart, a node says what it was filled in with: flags, types, attributes
and accessors. This is its content. A declaration of a type tells the content of the type,
and each declaration of a member tells the content of the member, and of the methods that
serve it. No two declarations tell of one member as long as their keys are distinct.
-/

set_option autoImplicit false
namespace UsageGraph

/-- What is known of a type apart from how it was visited and what it uses. -/
def TypeFacts.content (facts : TypeFacts) : TypeFacts :=
  { facts with visitation := .placeholder, isExternal := false, uses := ∅ }

def MemberFacts.content (facts : MemberFacts) : MemberFacts :=
  { facts with visitation := .placeholder, uses := ∅ }

def TypeChange.tells : TypeChange → Bool
  | .opened _ | .use _ => false
  | .flags .. | .base _ | .interface _ | .attributed _ => true

def MemberChange.tells : MemberChange → Bool
  | .opened _ | .use _ => false
  | .prototype .. | .flags _ | .declaredType _ | .accessor .. | .attributed _ => true

theorem TypeChange.content_applyAll (changes : List TypeChange) (facts : TypeFacts) :
    (applyAll changes facts).content = applyAll (changes.filter tells) facts.content := by
  induction changes generalizing facts with
  | nil => rfl
  | cons change rest ih =>
    refine (ih (change.apply facts)).trans ?_
    cases change <;> rfl

theorem MemberChange.content_applyAll (changes : List MemberChange) (facts : MemberFacts) :
    (applyAll changes facts).content = applyAll (changes.filter tells) facts.content := by
  induction changes generalizing facts with
  | nil => rfl
  | cons change rest ih =>
    refine (ih (change.apply facts)).trans ?_
    cases change <;> rfl

theorem foldl_addKeyOnce (keys : List TypeKey) : keys.foldl addKeyOnce [] = keys.eraseDups := by
  -- from the end, since whether a key is added depends on those before it
  induction keys using List.reverseRecOn with
  | nil => rfl
  | append_singleton keys key ih =>
    rw [List.foldl_append, ih, List.eraseDups_append]
    by_cases known : key ∈ keys
    · simp [addKeyOnce, known, List.removeAll]
    · simp [addKeyOnce, known, List.removeAll, List.eraseDups_cons]

theorem TypeChange.applyAll_attributed (keys : List TypeKey) (facts : TypeFacts) :
    applyAll (keys.map .attributed) facts = { facts with attributes := keys.foldl addKeyOnce facts.attributes } := by
  induction keys generalizing facts with
  | nil => rfl
  | cons key rest ih => exact ih _

theorem TypeChange.applyAll_interface (keys : List TypeKey) (facts : TypeFacts) :
    applyAll (keys.map .interface) facts = { facts with interfaces := keys.foldl addKeyOnce facts.interfaces } := by
  induction keys generalizing facts with
  | nil => rfl
  | cons key rest ih => exact ih _

theorem MemberChange.applyAll_append (first second : List MemberChange) (facts : MemberFacts) :
    applyAll (first ++ second) facts = applyAll second (applyAll first facts) :=
  List.foldl_append

theorem MemberChange.applyAll_attributed (keys : List TypeKey) (facts : MemberFacts) :
    applyAll (keys.map .attributed) facts = { facts with attributes := keys.foldl addKeyOnce facts.attributes } := by
  induction keys generalizing facts with
  | nil => rfl
  | cons key rest ih => exact ih _

/-! ## Content among edits -/

namespace Edit

def typeContent (key : TypeKey) (edits : List Edit) : List TypeChange := (typeChanges key edits).filter TypeChange.tells

def memberContent (key : MemberKey) (edits : List Edit) : List MemberChange :=
  (memberChanges key edits).filter MemberChange.tells

variable {α : Type} (options : Options) (first second : List Edit)

@[simp] theorem typeContent_append (key : TypeKey) :
    typeContent key (first ++ second) = typeContent key first ++ typeContent key second := by
  rw [typeContent, typeChanges_append, List.filter_append]
  rfl

@[simp] theorem memberContent_append (key : MemberKey) :
    memberContent key (first ++ second) = memberContent key first ++ memberContent key second := by
  rw [memberContent, memberChanges_append, List.filter_append]
  rfl

@[simp] theorem typeContent_nil (key : TypeKey) : typeContent key [] = [] := rfl

@[simp] theorem memberContent_nil (key : MemberKey) : memberContent key [] = [] := rfl

theorem typeContent_cons (key : TypeKey) (edit : Edit) (rest : List Edit) :
    typeContent key (edit :: rest) = (typeChange? key edit).toList.filter TypeChange.tells ++ typeContent key rest := by
  cases made : typeChange? key edit with
  | none => simp [typeContent, typeChanges, made]
  | some change =>
    rw [typeContent, typeChanges, List.filterMap_cons_some made, ← List.singleton_append, List.filter_append]
    rfl

theorem memberContent_cons (key : MemberKey) (edit : Edit) (rest : List Edit) :
    memberContent key (edit :: rest) =
      (memberChange? key edit).toList.filter MemberChange.tells ++ memberContent key rest := by
  cases made : memberChange? key edit with
  | none => simp [memberContent, memberChanges, made]
  | some change =>
    rw [memberContent, memberChanges, List.filterMap_cons_some made, ← List.singleton_append, List.filter_append]
    rfl

theorem typeContent_flatMap (key : TypeKey) (items : List α) (edits : α → List Edit) :
    typeContent key (items.flatMap edits) = items.flatMap fun item => typeContent key (edits item) := by
  rw [typeContent, typeChanges, List.filterMap_flatMap, List.filter_flatMap]
  rfl

theorem memberContent_flatMap (key : MemberKey) (items : List α) (edits : α → List Edit) :
    memberContent key (items.flatMap edits) = items.flatMap fun item => memberContent key (edits item) := by
  rw [memberContent, memberChanges, List.filterMap_flatMap, List.filter_flatMap]
  rfl

@[simp] theorem typeContent_usesOf (key : TypeKey) (holder : NodeKey) (keys : List TypeKey) :
    typeContent key (usesOf holder keys) = [] := by
  rw [typeContent, List.filter_eq_nil_iff]
  intro change made
  obtain ⟨target, rfl⟩ := Definition.change_usesOf (mem_typeChanges_iff.mp made)
  simp [TypeChange.tells]

@[simp] theorem typeContent_usesOfRefs (key : TypeKey) (holder : NodeKey) (references : List TypeRef) :
    typeContent key (usesOfRefs holder references) = [] := by
  simp [usesOfRefs, usesOfRef, typeContent_flatMap]

@[simp] theorem memberContent_usesOf (key : MemberKey) (holder : NodeKey) (keys : List TypeKey) :
    memberContent key (usesOf holder keys) = [] := by
  rw [usesOf, memberContent_flatMap, List.flatMap_eq_nil_iff]
  intro used _
  cases holder with
  | type => rfl
  | member kind held =>
    by_cases here : held = key
    · simp [memberContent, memberChanges, memberChange?, use, here, MemberChange.tells]
    · simp [memberContent, memberChanges, memberChange?, use, here]

@[simp] theorem memberContent_usesOfRefs (key : MemberKey) (holder : NodeKey) (references : List TypeRef) :
    memberContent key (usesOfRefs holder references) = [] := by
  simp [usesOfRefs, usesOfRef, memberContent_flatMap]

theorem typeContent_attributeEdits (key : TypeKey) (keys : List TypeKey) :
    typeContent key (options.attributeEdits (.type key) keys) = (options.visitedAttributes keys).map .attributed := by
  unfold Options.attributeEdits Options.visitedAttributes
  split
  · have said : ∀ carried : TypeKey, typeContent key [.ensureType carried, attributed (.type key) carried,
        .ensureType carried, use (.type key) (.type carried)] = [.attributed carried] := by
      simp [typeContent_cons, typeChange?, attributed, use, TypeChange.tells]
    rw [typeContent_flatMap, List.map_eq_flatMap]
    simp only [said]
  · rfl

theorem memberContent_attributeEdits (key : MemberKey) (kind : MemberKind) (keys : List TypeKey) :
    memberContent key (options.attributeEdits (.member kind key) keys) =
      (options.visitedAttributes keys).map .attributed := by
  unfold Options.attributeEdits Options.visitedAttributes
  split
  · have said : ∀ carried : TypeKey, memberContent key [.ensureType carried, attributed (.member kind key) carried,
        .ensureType carried, use (.member kind key) (.type carried)] = [.attributed carried] := by
      simp [memberContent_cons, memberChange?, attributed, use, MemberChange.tells]
    rw [memberContent_flatMap, List.map_eq_flatMap]
    simp only [said]
  · rfl

end Edit

namespace Definition

variable (options : Options) (definition : Definition)

def content : TypeFacts where
  isInterface := definition.isInterface
  isAbstract := definition.isAbstract
  base := definition.base.map Tree.label
  interfaces := (definition.interfaces.map Tree.label).eraseDups
  attributes := (options.visitedAttributes definition.attributes).eraseDups

theorem content_openType : Edit.typeContent definition.key (definition.phaseEdits options .openType) =
    [.flags definition.isInterface definition.isAbstract] := by
  simp [phaseEdits, Edit.typeContent_cons, Edit.typeChange?, TypeChange.tells]

theorem content_interfaces : Edit.typeContent definition.key (definition.phaseEdits options .interfaces) =
    (definition.interfaces.map Tree.label).map .interface := by
  have said : ∀ implemented : TypeRef, Edit.typeContent definition.key
      [.ensureType implemented.label, .onType definition.key (.interface implemented.label)] =
        [.interface implemented.label] := by
    simp [Edit.typeContent_cons, Edit.typeChange?, TypeChange.tells]
  rw [List.map_map, List.map_eq_flatMap]
  simp only [phaseEdits, Edit.typeContent_flatMap, Edit.typeContent_append, said, Edit.usesOfRef,
    Edit.typeContent_usesOf, List.append_nil, Function.comp_apply]

theorem content_generics : Edit.typeContent definition.key (definition.phaseEdits options .generics) = [] := by
  simp [phaseEdits, Edit.typeContent_flatMap]

theorem content_base : Edit.typeContent definition.key (definition.phaseEdits options .base) =
    (definition.base.map Tree.label).toList.map .base := by
  cases extended : definition.base with
  | none => simp [phaseEdits, extended]
  | some reference =>
    simp [phaseEdits, extended, Edit.usesOfRef, Edit.typeContent_cons, Edit.typeChange?, TypeChange.tells]

theorem content_attributes : Edit.typeContent definition.key (definition.phaseEdits options .attributes) =
    (options.visitedAttributes definition.attributes).map .attributed :=
  Edit.typeContent_attributeEdits options definition.key definition.attributes

theorem content_edits {assembly : AssemblyKey} (fits : definition.Fits assembly options) (traversal : Traversal) :
    (TypeChange.applyAll (Edit.typeChanges definition.key (definition.edits options traversal.order)) {}).content =
      definition.content options := by
  -- the traversals say the same of a type, so it is enough to follow one of them
  have same : TypeChange.applyAll (Edit.typeChanges definition.key (definition.edits options traversal.order)) {} =
      TypeChange.applyAll (Edit.typeChanges definition.key (definition.edits options Traversal.topDown.order)) {} := by
    cases traversal with
    | reflection => exact typeChanges_agree fits {}
    | topDown => rfl
  let told := fun part => Edit.typeContent definition.key (definition.phaseEdits options part)
  have phases : (Edit.typeChanges definition.key (definition.edits options Traversal.topDown.order)).filter
      TypeChange.tells = told .openType ++ (told .interfaces ++ (told .generics ++ (told .attributes ++ told .base))) := by
    rw [typeChanges_edits fits, List.filter_flatMap, ← List.append_nil (told .base)]
    rfl
  rw [same, TypeChange.content_applyAll, phases]
  simp only [told, content_openType, content_interfaces, content_generics, content_attributes, content_base,
    TypeChange.applyAll_append, TypeChange.applyAll_interface, TypeChange.applyAll_attributed]
  cases extended : definition.base with
  | none => simp [content, extended, TypeChange.applyAll, TypeChange.apply, TypeFacts.content, foldl_addKeyOnce]
  | some reference =>
    simp [content, extended, TypeChange.applyAll, TypeChange.apply, TypeFacts.content, foldl_addKeyOnce]

end Definition

namespace Edit

@[simp] theorem memberContent_map_ensureType (key : MemberKey) (keys : List TypeKey) :
    memberContent key (keys.map .ensureType) = [] := by
  induction keys with
  | nil => rfl
  | cons first rest ih => simpa [memberContent_cons, memberChange?] using ih

theorem Within.memberContent_eq_nil {inside : Place → Prop} {edits : List Edit} (within : Within inside edits)
    {key : MemberKey} (outside : ¬ inside (.member key)) : memberContent key edits = [] := by
  rw [memberContent, within.memberChanges_eq_nil outside]
  rfl

/-- Where each key belongs to one item, an item tells all that is told of its keys. -/
theorem memberContent_flatMap_of_mem {α : Type} {items : List α} {keys : α → List MemberKey} {edits : α → List Edit}
    (distinct : (items.flatMap keys).Nodup) {key : MemberKey}
    (silent : ∀ item ∈ items, key ∉ keys item → memberContent key (edits item) = [])
    {item : α} (member : item ∈ items) (named : key ∈ keys item) :
    memberContent key (items.flatMap edits) = memberContent key (edits item) := by
  induction items with
  | nil => cases member
  | cons first rest ih =>
    rw [List.flatMap_cons, List.nodup_append] at distinct
    obtain ⟨_, restDistinct, apart⟩ := distinct
    rw [List.flatMap_cons, memberContent_append]
    rcases List.mem_cons.mp member with rfl | later
    · -- the key is not among those of the later items
      have others : memberContent key (rest.flatMap edits) = [] := by
        rw [memberContent_flatMap, List.flatMap_eq_nil_iff]
        intro other among
        refine silent other (List.mem_cons_of_mem _ among) fun named' => ?_
        exact apart key named key (List.mem_flatMap.mpr ⟨other, among, named'⟩) rfl
      rw [others, List.append_nil]
    · have before : memberContent key (edits first) = [] := by
        refine silent first List.mem_cons_self fun named' => ?_
        exact apart key named' key (List.mem_flatMap.mpr ⟨item, later, named⟩) rfl
      rw [before, List.nil_append]
      exact ih restDistinct (fun other among => silent other (List.mem_cons_of_mem _ among)) later

end Edit

namespace MethodDecl

variable (options : Options) (method : MethodDecl)

def content : MemberFacts where
  declaredType := method.returns.map Tree.label
  parameters := method.parameters.map Tree.label
  flags := method.flags
  attributes := (options.visitedAttributes method.attributes).eraseDups

theorem content_bodyEdits (key : MemberKey) : Edit.memberContent key (method.bodyEdits options) = [] := by
  unfold bodyEdits
  split
  · rw [Edit.memberContent_flatMap, List.flatMap_eq_nil_iff]
    intro body _
    rw [Edit.memberContent_flatMap, List.flatMap_eq_nil_iff]
    intro target _
    by_cases here : method.key = key
    · cases target <;>
        simp [Edit.memberContent_cons, Edit.memberChange?, Edit.ensureNode, Edit.use, here, MemberChange.tells]
    · cases target <;> simp [Edit.memberContent_cons, Edit.memberChange?, Edit.ensureNode, Edit.use, here]
  · rfl

theorem content_ownEdits : Edit.memberContent method.key (method.ownEdits options) =
    [.prototype (method.returns.map Tree.label) (method.parameters.map Tree.label), .flags method.flags] ++
      (options.visitedAttributes method.attributes).map .attributed := by
  simp [ownEdits, Edit.memberContent_cons, Edit.memberChange?, MemberChange.tells, content_bodyEdits,
    Edit.memberContent_attributeEdits, List.filter_cons, -List.map_map]

theorem content_ownEdits_other {key : MemberKey} (other : key ≠ method.key) :
    Edit.memberContent key (method.ownEdits options) = [] :=
  (Edit.Within.ownEdits options method).memberContent_eq_nil fun same => other (Place.member.inj same)

theorem applyAll_content :
    MemberChange.applyAll (Edit.memberContent method.key (method.ownEdits options)) {} = method.content options := by
  rw [content_ownEdits, MemberChange.applyAll_append, MemberChange.applyAll_attributed]
  simp [MemberChange.applyAll, MemberChange.apply, content, foldl_addKeyOnce]

theorem content_edits_other {key : MemberKey} (other : key ≠ method.key) :
    Edit.memberContent key (method.edits options) = [] := by
  unfold edits
  split
  · exact content_ownEdits_other options method other
  · rfl

theorem content_accessorEdits (owner : MemberKey) (slot : Slot) (key : MemberKey) :
    Edit.memberContent key (method.accessorEdits options owner slot) =
      if options.visitsMethod method.key then
        Edit.memberContent key (method.ownEdits options) ++ if owner = key then [.accessor slot method.key] else []
      else [] := by
  unfold accessorEdits
  split
  · by_cases here : owner = key
    · simp [Edit.memberContent_cons, Edit.memberChange?, here, MemberChange.tells, List.filter_cons]
    · simp [Edit.memberContent_cons, Edit.memberChange?, here]
  · rfl

end MethodDecl

def Slot.all : List Slot := [.getter, .setter, .adder, .remover]

theorem Slot.mem_all (slot : Slot) : slot ∈ all := by
  cases slot <;> simp [all]

/-- A field, property or event with the methods that serve it. -/
structure DataDecl where
  kind : MemberKind
  key : MemberKey
  type : TypeRef
  attributes : List TypeKey
  accessor : Slot → Option MethodDecl := fun _ => none

def FieldDecl.data (field : FieldDecl) : DataDecl where
  kind := .field
  key := field.key
  type := field.type
  attributes := field.attributes

def PropertyDecl.data (property : PropertyDecl) : DataDecl where
  kind := .property
  key := property.key
  type := property.type
  attributes := property.attributes
  accessor
    | .getter => property.getter
    | .setter => property.setter
    | .adder | .remover => none

def EventDecl.data (event : EventDecl) : DataDecl where
  kind := .event
  key := event.key
  type := event.type
  attributes := event.attributes
  accessor
    | .adder => event.adder
    | .remover => event.remover
    | .getter | .setter => none

namespace DataDecl

variable (options : Options) (declared : DataDecl)

def accessorKeys (slot : Slot) : List MemberKey := (declared.accessor slot).toList.map MethodDecl.key

def keys : List MemberKey := declared.key :: Slot.all.flatMap declared.accessorKeys

theorem mem_keys {declared : DataDecl} {slot : Slot} {method : MethodDecl}
    (serves : declared.accessor slot = some method) : method.key ∈ declared.keys := by
  have named : method.key ∈ declared.accessorKeys slot := by simp [accessorKeys, serves]
  exact List.mem_cons_of_mem _ (List.mem_flatMap.mpr ⟨slot, slot.mem_all, named⟩)

def accessorEdits (slot : Slot) : List Edit :=
  (declared.accessor slot).toList.flatMap (MethodDecl.accessorEdits options declared.key slot)

def edits : List Edit :=
  dataEdits options declared.kind declared.key declared.type declared.attributes ++
    Slot.all.flatMap (declared.accessorEdits options)

def content : MemberFacts where
  declaredType := some declared.type.label
  attributes := (options.visitedAttributes declared.attributes).eraseDups
  accessor slot := ((declared.accessor slot).filter fun method => options.visitsMethod method.key).map MethodDecl.key

theorem content_dataEdits : Edit.memberContent declared.key
    (dataEdits options declared.kind declared.key declared.type declared.attributes) =
      .declaredType declared.type.label :: (options.visitedAttributes declared.attributes).map .attributed := by
  simp [dataEdits, Edit.memberContent_cons, Edit.memberChange?, MemberChange.tells, Edit.usesOfRef,
    Edit.memberContent_attributeEdits, List.filter_cons]

theorem content_dataEdits_other {key : MemberKey} (other : key ≠ declared.key) :
    Edit.memberContent key (dataEdits options declared.kind declared.key declared.type declared.attributes) = [] := by
  have attributes : Edit.memberContent key
      (options.attributeEdits (.member declared.kind declared.key) declared.attributes) = [] :=
    (Edit.Within.attributeEdits options _ _).memberContent_eq_nil fun same => other (Place.member.inj same)
  simp [dataEdits, Edit.memberContent_cons, Edit.memberChange?, Ne.symm other, Edit.usesOfRef, attributes]

theorem content_accessorEdits_other {slot : Slot} {key : MemberKey} (foreign : key ≠ declared.key)
    (other : key ∉ declared.accessorKeys slot) : Edit.memberContent key (declared.accessorEdits options slot) = [] := by
  rw [accessorEdits, Edit.memberContent_flatMap, List.flatMap_eq_nil_iff]
  intro method serves
  have apart : key ≠ method.key := fun same => other (same ▸ List.mem_map_of_mem serves)
  simp [MethodDecl.content_accessorEdits, MethodDecl.content_ownEdits_other options method apart, Ne.symm foreign]

theorem content_edits_other {key : MemberKey} (other : key ∉ declared.keys) :
    Edit.memberContent key (declared.edits options) = [] := by
  rw [keys, List.mem_cons, List.mem_flatMap, not_or] at other
  obtain ⟨foreign, other⟩ := other
  rw [edits, Edit.memberContent_append, content_dataEdits_other options declared foreign, List.nil_append,
    Edit.memberContent_flatMap, List.flatMap_eq_nil_iff]
  exact fun slot member => content_accessorEdits_other options declared foreign fun named => other ⟨slot, member, named⟩

theorem content_accessorEdits_own {slot : Slot} (apart : declared.key ∉ declared.accessorKeys slot) :
    Edit.memberContent declared.key (declared.accessorEdits options slot) =
      ((declared.content options).accessor slot).toList.map (.accessor slot) := by
  cases serves : declared.accessor slot with
  | none => simp [accessorEdits, content, serves]
  | some method =>
    have other : declared.key ≠ method.key := by simpa [accessorKeys, serves] using apart
    by_cases visited : options.visitsMethod method.key
    · simp [accessorEdits, content, serves, MethodDecl.content_accessorEdits, visited,
        MethodDecl.content_ownEdits_other options method other, Option.filter]
    · simp [accessorEdits, content, serves, MethodDecl.content_accessorEdits, visited, Option.filter]

end DataDecl

theorem MemberChange.applyAll_accessor (slot : Slot) (accessor : Option MemberKey) (facts : MemberFacts) :
    applyAll (accessor.toList.map (.accessor slot)) facts =
      { facts with accessor := Function.update facts.accessor slot (accessor.or (facts.accessor slot)) } := by
  cases accessor with
  | none => simp [applyAll]
  | some key => rfl

theorem MemberChange.applyAll_accessors (accessor : Slot → Option MemberKey) (facts : MemberFacts) :
    applyAll (Slot.all.flatMap fun slot => (accessor slot).toList.map (.accessor slot)) facts =
      { facts with accessor := fun slot => (accessor slot).or (facts.accessor slot) } := by
  simp only [Slot.all, List.flatMap_cons, List.flatMap_nil, List.append_nil, applyAll_append, applyAll_accessor]
  congr 1
  funext slot
  cases slot <;> rfl

namespace DataDecl

variable (options : Options) {declared : DataDecl} (distinct : declared.keys.Nodup)
include distinct

theorem content_edits_own :
    MemberChange.applyAll (Edit.memberContent declared.key (declared.edits options)) {} = declared.content options := by
  have apart : ∀ slot ∈ Slot.all, declared.key ∉ declared.accessorKeys slot :=
    fun slot member named => (List.nodup_cons.mp distinct).1 (List.mem_flatMap.mpr ⟨slot, member, named⟩)
  have links : Edit.memberContent declared.key (Slot.all.flatMap (declared.accessorEdits options)) =
      Slot.all.flatMap fun slot => ((declared.content options).accessor slot).toList.map (.accessor slot) := by
    rw [Edit.memberContent_flatMap]
    exact List.flatMap_congr fun slot member => content_accessorEdits_own options declared (apart slot member)
  rw [edits, Edit.memberContent_append, content_dataEdits, links, MemberChange.applyAll_append,
    MemberChange.applyAll_accessors, ← List.singleton_append, MemberChange.applyAll_append,
    MemberChange.applyAll_attributed]
  simp [MemberChange.applyAll, MemberChange.apply, content, foldl_addKeyOnce]

theorem content_edits_accessor {slot : Slot} {method : MethodDecl} (serves : declared.accessor slot = some method)
    (visited : options.visitsMethod method.key = true) :
    Edit.memberContent method.key (declared.edits options) = Edit.memberContent method.key (method.ownEdits options) := by
  obtain ⟨unserved, accessorsDistinct⟩ := List.nodup_cons.mp distinct
  have named : method.key ∈ declared.accessorKeys slot := by simp [accessorKeys, serves]
  have foreign : method.key ≠ declared.key :=
    fun same => unserved (same ▸ List.mem_flatMap.mpr ⟨slot, slot.mem_all, named⟩)
  rw [edits, Edit.memberContent_append, content_dataEdits_other options declared foreign, List.nil_append,
    Edit.memberContent_flatMap_of_mem accessorsDistinct
      (fun _ _ other => content_accessorEdits_other options declared foreign other) slot.mem_all named]
  simp [accessorEdits, serves, MethodDecl.content_accessorEdits, visited, Ne.symm foreign]

end DataDecl

/-! ## The members of a type -/

section Edits

variable (options : Options)

theorem FieldDecl.edits_eq (field : FieldDecl) : field.edits options = field.data.edits options := by
  simp [edits, data, DataDecl.edits, DataDecl.accessorEdits, Slot.all]

theorem PropertyDecl.edits_eq (property : PropertyDecl) : property.edits options = property.data.edits options := by
  simp [edits, data, DataDecl.edits, DataDecl.accessorEdits, Slot.all]

theorem EventDecl.edits_eq (event : EventDecl) : event.edits options = event.data.edits options := by
  simp [edits, data, DataDecl.edits, DataDecl.accessorEdits, Slot.all]

end Edits

namespace Definition

def dataMembers (definition : Definition) : List DataDecl :=
  definition.properties.map PropertyDecl.data ++
    (definition.fields.map FieldDecl.data ++ definition.events.map EventDecl.data)

/-- The constructors, marked as such, and the other methods, without accessors. -/
def ownMethods (definition : Definition) : List MethodDecl :=
  definition.constructors.map MethodDecl.asConstructor ++ definition.methods

def memberKeys (definition : Definition) : List MemberKey :=
  definition.dataMembers.flatMap DataDecl.keys ++ definition.ownMethods.map MethodDecl.key

variable (options : Options) {definition : Definition}

theorem phaseEdits_dataMembers (primary : options.primary = true) :
    definition.phaseEdits options .dataMembers = definition.dataMembers.flatMap (DataDecl.edits options) := by
  simp only [phaseEdits, primary, if_true, dataMembers, List.flatMap_append, List.flatMap_map,
    ← FieldDecl.edits_eq, ← PropertyDecl.edits_eq, ← EventDecl.edits_eq]

theorem phaseEdits_methods :
    definition.phaseEdits options .methods = definition.ownMethods.flatMap (MethodDecl.edits options) := by
  simp only [phaseEdits, ownMethods, List.flatMap_append, List.flatMap_map]

theorem memberContent_edits (traversal : Traversal) (key : MemberKey) :
    Edit.memberContent key (definition.edits options traversal.order) =
      Edit.memberContent key (definition.phaseEdits options .dataMembers) ++
        Edit.memberContent key (definition.phaseEdits options .methods) := by
  rw [Edit.memberContent, memberChanges_edits, List.filter_append]
  rfl

theorem content_methods_other {key : MemberKey} (other : key ∉ definition.ownMethods.map MethodDecl.key) :
    Edit.memberContent key (definition.phaseEdits options .methods) = [] := by
  rw [phaseEdits_methods, Edit.memberContent_flatMap, List.flatMap_eq_nil_iff]
  intro method member
  exact method.content_edits_other options fun same => other (same ▸ List.mem_map_of_mem member)

theorem content_dataMembers_other {key : MemberKey} (other : key ∉ definition.dataMembers.flatMap DataDecl.keys) :
    Edit.memberContent key (definition.phaseEdits options .dataMembers) = [] := by
  by_cases primary : options.primary = true
  · rw [phaseEdits_dataMembers options primary, Edit.memberContent_flatMap, List.flatMap_eq_nil_iff]
    intro declared member
    exact declared.content_edits_other options fun named => other (List.mem_flatMap.mpr ⟨declared, member, named⟩)
  · simp [phaseEdits, primary]

variable (distinct : definition.memberKeys.Nodup) (traversal : Traversal)
include distinct

theorem nodup_keys {declared : DataDecl} (member : declared ∈ definition.dataMembers) : declared.keys.Nodup :=
  (List.nodup_flatMap.mp (List.nodup_append.mp distinct).1).1 declared member

/-- What a visit tells of a property, field or event, and of its accessors, is what its declaration tells. -/
theorem memberContent_of_data (primary : options.primary = true) {declared : DataDecl}
    (member : declared ∈ definition.dataMembers) {key : MemberKey} (named : key ∈ declared.keys) :
    Edit.memberContent key (definition.edits options traversal.order) =
      Edit.memberContent key (declared.edits options) := by
  obtain ⟨dataDistinct, _, apart⟩ := List.nodup_append.mp distinct
  have unlisted : key ∉ definition.ownMethods.map MethodDecl.key :=
    fun listed => apart key (List.mem_flatMap.mpr ⟨declared, member, named⟩) key listed rfl
  rw [memberContent_edits, content_methods_other options unlisted, List.append_nil, phaseEdits_dataMembers options primary]
  exact Edit.memberContent_flatMap_of_mem dataDistinct (fun other _ => other.content_edits_other options) member named

theorem memberContent_of_method {method : MethodDecl} (member : method ∈ definition.ownMethods) :
    Edit.memberContent method.key (definition.edits options traversal.order) =
      Edit.memberContent method.key (method.edits options) := by
  obtain ⟨_, methodsDistinct, apart⟩ := List.nodup_append.mp distinct
  have unlisted : method.key ∉ definition.dataMembers.flatMap DataDecl.keys :=
    fun listed => apart method.key listed method.key (List.mem_map_of_mem member) rfl
  rw [List.map_eq_flatMap] at methodsDistinct
  rw [memberContent_edits, content_dataMembers_other options unlisted, List.nil_append, phaseEdits_methods]
  refine Edit.memberContent_flatMap_of_mem methodsDistinct (fun other _ foreign => ?_) member (List.mem_singleton_self _)
  exact other.content_edits_other options (by simpa using foreign)

theorem content_data (primary : options.primary = true) {declared : DataDecl}
    (member : declared ∈ definition.dataMembers) :
    MemberChange.applyAll (Edit.memberContent declared.key (definition.edits options traversal.order)) {} =
      declared.content options := by
  rw [memberContent_of_data options distinct traversal primary member List.mem_cons_self]
  exact DataDecl.content_edits_own options (nodup_keys distinct member)

theorem content_accessor (primary : options.primary = true) {declared : DataDecl}
    (member : declared ∈ definition.dataMembers) {slot : Slot} {method : MethodDecl}
    (serves : declared.accessor slot = some method) (visited : options.visitsMethod method.key = true) :
    MemberChange.applyAll (Edit.memberContent method.key (definition.edits options traversal.order)) {} =
      method.content options := by
  rw [memberContent_of_data options distinct traversal primary member (DataDecl.mem_keys serves),
    DataDecl.content_edits_accessor options (nodup_keys distinct member) serves visited, method.applyAll_content]

theorem content_method {method : MethodDecl} (member : method ∈ definition.ownMethods)
    (visited : options.visitsMethod method.key = true) :
    MemberChange.applyAll (Edit.memberContent method.key (definition.edits options traversal.order)) {} =
      method.content options := by
  rw [memberContent_of_method options distinct traversal member, MethodDecl.edits, if_pos visited,
    method.applyAll_content]

end Definition

end UsageGraph
