import Mathlib.Tactic.MkIffOfInductiveProp
import UsageGraph.Proofs.Traversal.Module

/-! Visits of coherent modules succeed.

A module is coherent with a model if its types belong to it and their members to them, and
if no member is taken for two kinds, be it by a declaration, by a body or by the model. As
long as the guards have room for all types and all generic arguments, its visits then keep
every rule of nesting, and the model admits all that they say.
-/

set_option autoImplicit false
namespace UsageGraph

def MethodDecl.references (method : MethodDecl) : List TypeRef := method.returns.toList ++ method.parameters

def MethodDecl.bodyTargets (method : MethodDecl) : List NodeKey := method.body.toList.flatten

namespace Definition

def accessors (definition : Definition) : List MethodDecl :=
  definition.properties.flatMap (fun property => property.getter.toList ++ property.setter.toList) ++
    definition.events.flatMap fun event => event.adder.toList ++ event.remover.toList

def allMethods (definition : Definition) : List MethodDecl :=
  definition.constructors ++ definition.methods ++ definition.accessors

def declaredMembers (definition : Definition) : List NodeKey :=
  definition.fields.map (fun field => .member .field field.key) ++
    definition.properties.map (fun property => .member .property property.key) ++
    definition.events.map (fun event => .member .event event.key) ++
    definition.allMethods.map fun method => .member .method method.key

/-- The members that a type declares and the nodes that its bodies refer to. -/
def namedNodes (definition : Definition) : List NodeKey :=
  definition.declaredMembers ++ definition.allMethods.flatMap MethodDecl.bodyTargets

def dataTypes (definition : Definition) : List TypeRef :=
  definition.fields.map FieldDecl.type ++ definition.properties.map PropertyDecl.type ++
    definition.events.map EventDecl.type

/-- The references in the declaration of a type that may have generic arguments. -/
def references (definition : Definition) : List TypeRef :=
  definition.supertypes ++ definition.generics.flatMap GenericParameter.constraints ++ definition.dataTypes ++
    definition.allMethods.flatMap MethodDecl.references

end Definition

def ModuleDecl.namedNodes (module : ModuleDecl) : List NodeKey :=
  module.declaredTypes.flatMap fun type => type.label.namedNodes

def Model.namedMembers (model : Model) : List NodeKey :=
  model.members.toList.map fun node => .member node.kind node.key

def NodeKey.Unambiguous (keys : List NodeKey) : Prop :=
  ∀ first ∈ keys, ∀ second ∈ keys, first.memberKey? = second.memberKey? → first.kind = second.kind

instance (keys : List NodeKey) : Decidable (NodeKey.Unambiguous keys) :=
  inferInstanceAs (Decidable (∀ first ∈ keys, ∀ second ∈ keys, first.memberKey? = second.memberKey? →
    first.kind = second.kind))

/-- A module can be visited into a model. -/
@[mk_iff] structure ModuleDecl.Coherent (module : ModuleDecl) (options : Options) (model : Model) : Prop where
  located : ∀ type ∈ module.declaredTypes, type.label.key.assembly = module.key
  owned : ∀ type ∈ module.declaredTypes, ∀ member ∈ type.label.declaredMembers, member.typeKey = type.label.key
  unambiguous : NodeKey.Unambiguous (module.namedNodes ++ model.namedMembers)
  types : module.declaredTypes.length ≤ options.maxDepth
  references : ∀ type ∈ module.declaredTypes, ∀ reference ∈ type.label.references,
    reference.nesting ≤ options.maxDepth

instance (module : ModuleDecl) (options : Options) (model : Model) : Decidable (module.Coherent options model) :=
  decidable_of_iff' _ (ModuleDecl.coherent_iff module options model)

namespace Definition

variable {definition : Definition}

section Members

variable {method : MethodDecl} {property : PropertyDecl} {event : EventDecl} {field : FieldDecl}

theorem mem_allMethods_of_property (member : property ∈ definition.properties)
    (named : method ∈ property.getter.toList ++ property.setter.toList) : method ∈ definition.allMethods :=
  List.mem_append_right _ (List.mem_append_left _ (List.mem_flatMap.mpr ⟨property, member, named⟩))

theorem mem_allMethods_of_event (member : event ∈ definition.events)
    (named : method ∈ event.adder.toList ++ event.remover.toList) : method ∈ definition.allMethods :=
  List.mem_append_right _ (List.mem_append_right _ (List.mem_flatMap.mpr ⟨event, member, named⟩))

theorem field_declared (member : field ∈ definition.fields) :
    .member .field field.key ∈ definition.declaredMembers := by
  simp only [declaredMembers, List.mem_append, List.mem_map]
  exact .inl (.inl (.inl ⟨field, member, rfl⟩))

theorem property_declared (member : property ∈ definition.properties) :
    .member .property property.key ∈ definition.declaredMembers := by
  simp only [declaredMembers, List.mem_append, List.mem_map]
  exact .inl (.inl (.inr ⟨property, member, rfl⟩))

theorem event_declared (member : event ∈ definition.events) :
    .member .event event.key ∈ definition.declaredMembers := by
  simp only [declaredMembers, List.mem_append, List.mem_map]
  exact .inl (.inr ⟨event, member, rfl⟩)

theorem method_declared (member : method ∈ definition.allMethods) :
    .member .method method.key ∈ definition.declaredMembers :=
  List.mem_append_right _ (List.mem_map_of_mem member)

end Members

theorem fits_of_coherent {assembly : AssemblyKey} {options : Options} (located : definition.key.assembly = assembly)
    (owned : ∀ member ∈ definition.declaredMembers, member.typeKey = definition.key)
    (room : ∀ reference ∈ definition.references, reference.nesting ≤ options.maxDepth) :
    definition.Fits assembly options := by
  have methods : ∀ method ∈ definition.allMethods, method.Fits options definition.key := by
    intro method member _
    have referred : ∀ reference ∈ method.references, reference.nesting ≤ options.maxDepth :=
      fun reference named => room reference (List.mem_append_right _ (List.mem_flatMap.mpr ⟨method, member, named⟩))
    exact ⟨owned _ (method_declared member), fun reference named => referred reference (List.mem_append_left _ named),
      fun reference named => referred reference (List.mem_append_right _ named)⟩
  have typed : ∀ reference ∈ definition.dataTypes, reference.nesting ≤ options.maxDepth :=
    fun reference member => room _ (by simp [references, member])
  -- every phase asks for some of the conditions, about the references or members that it visits
  intro part
  cases part with
  | openType => exact located
  | interfaces => exact fun implemented member => room _ (by simp [references, supertypes, member])
  | generics =>
    intro parameter member reference named
    have constraint : reference ∈ definition.generics.flatMap GenericParameter.constraints :=
      List.mem_flatMap.mpr ⟨parameter, member, named⟩
    exact room _ (by simp [references, constraint])
  | base => exact fun extended member => room _ (by simp [references, supertypes, member])
  | dataMembers =>
    intro _
    refine ⟨fun property member => ⟨?_, ?_, ?_⟩, fun field member => ?_, fun event member => ⟨?_, ?_, ?_⟩⟩
    · exact ⟨owned _ (property_declared member), typed _ (by simp [dataTypes, List.mem_map_of_mem member])⟩
    · exact fun method named => methods method (mem_allMethods_of_property member (List.mem_append_left _ named))
    · exact fun method named => methods method (mem_allMethods_of_property member (List.mem_append_right _ named))
    · exact ⟨owned _ (field_declared member), typed _ (by simp [dataTypes, List.mem_map_of_mem member])⟩
    · exact ⟨owned _ (event_declared member), typed _ (by simp [dataTypes, List.mem_map_of_mem member])⟩
    · exact fun method named => methods method (mem_allMethods_of_event member (List.mem_append_left _ named))
    · exact fun method named => methods method (mem_allMethods_of_event member (List.mem_append_right _ named))
  | methods =>
    refine ⟨fun method member => ?_, fun method member => ?_⟩
    · exact methods method (by simp [allMethods, member])
    · exact methods method (by simp [allMethods, member])
  | claim | supertypes | attributes | nested | closeType | complete => trivial

section Ensured

variable {options : Options} {kind : MemberKind} {key : MemberKey}

theorem not_ensured_usesOf (holder : NodeKey) (keys : List TypeKey) :
    .ensureMember kind key ∉ Edit.usesOf holder keys := by
  intro made
  obtain ⟨used, _, made⟩ := List.mem_flatMap.mp made
  cases holder <;> simp [Edit.use] at made

theorem not_ensured_usesOfRefs (holder : NodeKey) (references : List TypeRef) :
    .ensureMember kind key ∉ Edit.usesOfRefs holder references := by
  intro made
  obtain ⟨reference, _, made⟩ := List.mem_flatMap.mp made
  exact not_ensured_usesOf holder _ made

theorem not_ensured_attributeEdits (holder : NodeKey) (keys : List TypeKey) :
    .ensureMember kind key ∉ options.attributeEdits holder keys := by
  intro made
  unfold Options.attributeEdits at made
  split at made
  · obtain ⟨carried, _, made⟩ := List.mem_flatMap.mp made
    cases holder <;> simp [Edit.use, Edit.attributed] at made
  · cases made

theorem ensured_bodyEdits {method : MethodDecl} (made : .ensureMember kind key ∈ method.bodyEdits options) :
    .member kind key ∈ method.bodyTargets := by
  unfold MethodDecl.bodyEdits at made
  split at made
  · obtain ⟨body, found, made⟩ := List.mem_flatMap.mp made
    obtain ⟨target, referred, made⟩ := List.mem_flatMap.mp made
    refine List.mem_flatten.mpr ⟨body, found, ?_⟩
    cases target <;> simp_all [Edit.ensureNode, Edit.use]
  · cases made

theorem self_or_body_of_ensured {method : MethodDecl} (made : .ensureMember kind key ∈ method.ownEdits options) :
    (kind = .method ∧ key = method.key) ∨ .ensureMember kind key ∈ method.bodyEdits options := by
  simpa [MethodDecl.ownEdits, not_ensured_usesOfRefs, not_ensured_attributeEdits] using made

theorem ensured_ownEdits {method : MethodDecl} (made : .ensureMember kind key ∈ method.ownEdits options) :
    NodeKey.member kind key ∈ .member .method method.key :: method.bodyTargets := by
  rcases self_or_body_of_ensured made with ⟨rfl, rfl⟩ | referred
  · exact List.mem_cons_self
  · exact List.mem_cons_of_mem _ (ensured_bodyEdits referred)

theorem ensured_edits {method : MethodDecl} (made : .ensureMember kind key ∈ method.edits options) :
    NodeKey.member kind key ∈ .member .method method.key :: method.bodyTargets := by
  unfold MethodDecl.edits at made
  split at made
  · exact ensured_ownEdits made
  · cases made

theorem ensured_dataEdits {declared : MemberKind} {member : MemberKey} {type : TypeRef} {attributes : List TypeKey}
    (made : .ensureMember kind key ∈ dataEdits options declared member type attributes) :
    NodeKey.member kind key = .member declared member := by
  simpa [dataEdits, Edit.usesOfRef, not_ensured_usesOf, not_ensured_attributeEdits] using made

theorem named_of_method {method : MethodDecl} (member : method ∈ definition.allMethods) {node : NodeKey}
    (named : node ∈ .member .method method.key :: method.bodyTargets) : node ∈ definition.namedNodes := by
  rcases List.mem_cons.mp named with rfl | referred
  · exact List.mem_append_left _ (method_declared member)
  · exact List.mem_append_right _ (List.mem_flatMap.mpr ⟨method, member, referred⟩)

theorem ensured_accessorEdits {owner : MemberKey} {slot : Slot} {method : MethodDecl}
    (declared : .member slot.ownerKind owner ∈ definition.declaredMembers) (member : method ∈ definition.allMethods)
    (made : .ensureMember kind key ∈ method.accessorEdits options owner slot) :
    .member kind key ∈ definition.namedNodes := by
  unfold MethodDecl.accessorEdits at made
  split at made
  · rcases List.mem_append.mp made with made | made
    · exact named_of_method member (ensured_ownEdits made)
    · simp only [List.mem_cons, Edit.ensureMember.injEq, List.not_mem_nil, or_false, reduceCtorEq] at made
      rcases made with ⟨rfl, rfl⟩ | ⟨rfl, rfl⟩
      · exact List.mem_append_left _ declared
      · exact List.mem_append_left _ (method_declared member)
  · cases made

theorem ensured_dataMember {declared : MemberKind} {member : MemberKey} {type : TypeRef} {attributes : List TypeKey}
    (first second : Slot) {one two : Option MethodDecl}
    (fills : first.ownerKind = declared) (fills' : second.ownerKind = declared)
    (own : .member declared member ∈ definition.declaredMembers)
    (methods : ∀ method ∈ one.toList ++ two.toList, method ∈ definition.allMethods)
    (made : .ensureMember kind key ∈ dataEdits options declared member type attributes ++
      (one.toList.flatMap (MethodDecl.accessorEdits options member first) ++
        two.toList.flatMap (MethodDecl.accessorEdits options member second))) :
    .member kind key ∈ definition.namedNodes := by
  rcases List.mem_append.mp made with made | made
  · rw [ensured_dataEdits made]
    exact List.mem_append_left _ own
  · rcases List.mem_append.mp made with made | made
    · obtain ⟨method, named, made⟩ := List.mem_flatMap.mp made
      exact ensured_accessorEdits (fills ▸ own) (methods method (List.mem_append_left _ named)) made
    · obtain ⟨method, named, made⟩ := List.mem_flatMap.mp made
      exact ensured_accessorEdits (fills' ▸ own) (methods method (List.mem_append_right _ named)) made

theorem member_phase_of_ensured {part : Phase} (made : .ensureMember kind key ∈ definition.phaseEdits options part) :
    part = .dataMembers ∨ part = .methods := by
  cases part with
  | dataMembers => exact .inl rfl
  | methods => exact .inr rfl
  | openType => simp [phaseEdits] at made
  | interfaces | base =>
    obtain ⟨reference, _, made⟩ := List.mem_flatMap.mp made
    rcases List.mem_append.mp made with made | made
    · simp at made
    · exact absurd made (not_ensured_usesOf _ _)
  | generics =>
    obtain ⟨parameter, _, made⟩ := List.mem_flatMap.mp made
    rcases List.mem_append.mp made with made | made
    · exact absurd made (not_ensured_usesOf _ _)
    · exact absurd made (not_ensured_usesOfRefs _ _)
  | attributes => exact absurd made (not_ensured_attributeEdits _ _)
  | claim | supertypes | nested | closeType | complete => cases made

/-- A visit of a type ensures no members but those that the type declares or that its bodies refer to. -/
theorem ensured_phaseEdits {part : Phase} (made : .ensureMember kind key ∈ definition.phaseEdits options part) :
    .member kind key ∈ definition.namedNodes := by
  rcases member_phase_of_ensured made with rfl | rfl
  case inl =>
    simp only [phaseEdits] at made
    split at made
    · simp only [List.mem_append, List.mem_flatMap] at made
      rcases made with ⟨property, member, made⟩ | ⟨field, member, made⟩ | ⟨event, member, made⟩
      · exact ensured_dataMember .getter .setter rfl rfl (property_declared member)
          (fun _ named => mem_allMethods_of_property member named) made
      · rw [ensured_dataEdits made]
        exact List.mem_append_left _ (field_declared member)
      · exact ensured_dataMember .adder .remover rfl rfl (event_declared member)
          (fun _ named => mem_allMethods_of_event member named) made
    · cases made
  case inr =>
    simp only [phaseEdits, List.mem_append, List.mem_flatMap] at made
    rcases made with ⟨method, member, made⟩ | ⟨method, member, made⟩
    · have declared : method ∈ definition.allMethods := by simp [allMethods, member]
      -- the mark of a constructor changes neither key nor body
      have named := ensured_edits made
      exact named_of_method declared named
    · have declared : method ∈ definition.allMethods := by simp [allMethods, member]
      exact named_of_method declared (ensured_edits made)

end Ensured

end Definition

/-! ## Coherent modules -/

namespace View

variable {view : View} {edits : List Edit}

/-- The view, or one of the edits, takes a member for a kind. -/
def Assigns (view : View) (edits : List Edit) (key : MemberKey) (kind : MemberKind) : Prop :=
  view.kinds key = some kind ∨ .ensureMember kind key ∈ edits

open Classical in
noncomputable def assignedKind (view : View) (edits : List Edit) (key : MemberKey) : MemberKind :=
  -- a key that nothing takes for a member may get any kind
  if found : ∃ kind, view.Assigns edits key kind then found.choose else .method

theorem assigns_assignedKind {key : MemberKey} {kind : MemberKind} (assigned : view.Assigns edits key kind) :
    view.Assigns edits key (view.assignedKind edits key) := by
  have found : ∃ kind, view.Assigns edits key kind := ⟨kind, assigned⟩
  rw [assignedKind, dif_pos found]
  exact found.choose_spec

/-- Edits are admitted if no two of them, nor any of them and the view, take a member for different kinds. -/
theorem admits_of_unique
    (unique : ∀ key kind other, view.Assigns edits key kind → view.Assigns edits key other → kind = other) :
    view.Admits edits := by
  have agrees : ∀ key kind, view.Assigns edits key kind → view.assignedKind edits key = kind :=
    fun key kind assigned => unique key _ kind (assigns_assignedKind assigned) assigned
  exact admits_iff.mpr ⟨view.assignedKind edits, fun key kind known => agrees key kind (.inl known),
    fun key kind made => agrees key kind (.inr made)⟩

end View

namespace ModuleDecl.Coherent

variable {module : ModuleDecl} {options : Options} {model : Model} (coherent : module.Coherent options model)
include coherent

theorem fits {type : TypeDecl} (declared : type ∈ module.declaredTypes) : type.label.Fits module.key options :=
  Definition.fits_of_coherent (coherent.located type declared) (coherent.owned type declared)
    (coherent.references type declared)

theorem admits (formed : model.WellFormed) {edits : List Edit}
    (named : ∀ kind key, .ensureMember kind key ∈ edits → .member kind key ∈ module.namedNodes) :
    model.view.Admits edits := by
  apply View.admits_of_unique
  have among : ∀ key kind, model.view.Assigns edits key kind →
      .member kind key ∈ module.namedNodes ++ model.namedMembers := by
    rintro key kind (known | made)
    · obtain ⟨id, node, held, rfl, rfl⟩ := (formed.view_kinds_eq_some_iff key kind).mp known
      exact List.mem_append_right _ (List.mem_map_of_mem (Array.mem_toList_iff.mpr (Array.mem_of_getElem? held)))
    · exact List.mem_append_left _ (named kind key made)
  intro key kind other known known'
  have same := coherent.unambiguous _ (among key kind known) _ (among key other known') rfl
  exact NodeKind.member.inj same

end ModuleDecl.Coherent

theorem ModuleDecl.Coherent.outline {module : ModuleDecl} {options : Options} {model : Model} (formed : model.WellFormed)
    (coherent : module.Coherent options model) (traversal : Traversal) :
    ∃ course, (Visit.module module options traversal.order).outline (.start options.maxDepth) [] = some course ∧
      model.view.Admits course.edits := by
  obtain ⟨parts, order, whole⟩ := traversal.whole
  obtain ⟨course, outlined⟩ := Visit.module_goesOn whole coherent.types fun type visited => coherent.fits visited.declared
  -- types may share a key: whichever of them are visited, they are declared and name only what the module names
  obtain ⟨_, after, visited, edits, same, covers⟩ := Visit.module_covers whole outlined
  refine ⟨course, order ▸ outlined, coherent.admits formed ?_⟩
  intro kind key made
  rw [same] at made
  rcases List.mem_append.mp made with made | made
  · simp [openingEdits] at made
  · obtain ⟨type, member, made⟩ := (covers.mem_edits _).mp made
    obtain ⟨part, _, made⟩ := List.mem_flatMap.mp made
    have declared := Visited.declared (covers.led type member)
    exact List.mem_flatMap.mpr ⟨type, declared, Definition.ensured_phaseEdits made⟩

namespace Builder

def survey : Builder :=
  let run : MemberKey := { owner := { space := ⟨⟨"app"⟩, "main"⟩, name := "Survey" }, name := "run" }
  let shape : TypeKey := { space := ⟨⟨"shapes"⟩, "plane"⟩, name := "Shape" }
  replay [.startSpace run.owner.space, .startType run.owner false, .startMethod run false,
    .useNode (.member .method { owner := shape, name := "area" }), .close (.member .method), .close .type, .close .space]

theorem survey_reachable : survey.Reachable := reachable_replay _

theorem survey_visits {module : ModuleDecl} {options : Options} (coherent : module.Coherent options survey.model)
    (traversal : Traversal) : (survey.visit module options traversal .references).result = .ok () := by
  obtain ⟨course, outlined, admits⟩ := coherent.outline survey_reachable.good.formed traversal
  exact (visitInOrder_of_outline survey_reachable.good (by decide) outlined admits).1

/-- With no scope open, a visit of a module that is coherent with the model succeeds and leaves no scope open, so
that building can be finished. -/
theorem visit_of_coherent {builder : Builder} (reachable : builder.Reachable) (idle : builder.scopes = [])
    {module : ModuleDecl} {options : Options} (coherent : module.Coherent options builder.model)
    (traversal : Traversal) :
    (builder.visit module options traversal .references).result = .ok () ∧
      (builder.visit module options traversal .references).builder.scopes = [] ∧
      (builder.visit module options traversal .references).builder.finish = .ok () := by
  obtain ⟨course, outlined, admits⟩ := coherent.outline reachable.good.formed traversal
  obtain ⟨ok, left, _⟩ := visitInOrder_of_outline reachable.good idle outlined admits
  exact ⟨ok, left, (finish_eq_ok_iff _).mpr ((stack_eq_nil_iff _).mpr left)⟩

/-- The drafts take the area of a shape for a method too, and two levels are just enough for them. -/
theorem visit_of_coherent_drafts :
    (∃ member ∈ survey.model.namedMembers, member ∈ ModuleDecl.drafts.namedNodes) ∧
      ModuleDecl.drafts.Coherent { maxDepth := 2 } survey.model ∧
      (survey.visit .drafts { maxDepth := 2 } .reflection .references).result = .ok () ∧
      (survey.visit .drafts { maxDepth := 2 } .reflection .references).builder.scopes = [] ∧
      (survey.visit .drafts { maxDepth := 2 } .reflection .references).builder.finish = .ok () := by
  have coherent : ModuleDecl.drafts.Coherent { maxDepth := 2 } survey.model := by decide
  exact ⟨by decide, coherent, visit_of_coherent survey_reachable (by decide) coherent .reflection⟩

end Builder

end UsageGraph
