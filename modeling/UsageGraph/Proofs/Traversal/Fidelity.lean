import UsageGraph.Proofs.Traversal.Coherence
import UsageGraph.Proofs.Traversal.Content

/-! Nodes show what was declared.

When a module is visited into an empty model, the nodes of the types and members that the
visit comes to have the content of their declarations: nothing is lost, added or mixed up,
as long as neither two types nor two members of one type share a key. Fields, properties
and events belong to primary visits.
-/

set_option autoImplicit false
namespace UsageGraph

namespace Model

section Shows

variable (model : Model) (options : Options)

def NamesTypes (ids : List TypeId) (keys : List TypeKey) : Prop := ids.map model.typeKey? = keys.map some

structure ShowsType (definition : Definition) (node : TypeNode) : Prop where
  isInterface : node.isInterface = definition.isInterface
  isAbstract : node.isAbstract = definition.isAbstract
  base : model.NamesTypes node.base.toList (definition.base.map Tree.label).toList
  interfaces : model.NamesTypes node.interfaces (definition.interfaces.map Tree.label).eraseDups
  attributes : model.NamesTypes node.attributes (options.visitedAttributes definition.attributes).eraseDups

structure ShowsMethod (method : MethodDecl) (node : MemberNode) : Prop where
  kind : node.kind = .method
  returns : model.NamesTypes node.declaredType.toList (method.returns.map Tree.label).toList
  parameters : model.NamesTypes node.detail.parameters (method.parameters.map Tree.label)
  flags : node.detail.flags = method.flags
  attributes : model.NamesTypes node.attributes (options.visitedAttributes method.attributes).eraseDups

/-- The node of a field, property or event is as declared. Its slots hold the accessors that are visited. -/
structure ShowsData (declared : DataDecl) (node : MemberNode) : Prop where
  kind : node.kind = declared.kind
  declaredType : model.NamesTypes node.declaredType.toList [declared.type.label]
  attributes : model.NamesTypes node.attributes (options.visitedAttributes declared.attributes).eraseDups
  accessor : ∀ slot, node.detail.accessor? slot =
    ((declared.accessor slot).filter fun method => options.visitsMethod method.key).bind fun method =>
      (model.findMember? method.key).map MemberNode.id

end Shows

variable {model : Model} {options : Options}

theorem namesTypes_of_filterMap {ids : List TypeId} {keys : List TypeKey}
    (held : ∀ id ∈ ids, (model.type? id).isSome) (named : ids.filterMap model.typeKey? = keys) :
    model.NamesTypes ids keys := by
  subst named
  induction ids with
  | nil => rfl
  | cons id rest ih =>
    obtain ⟨node, found⟩ := Option.isSome_iff_exists.mp (held id List.mem_cons_self)
    have first : model.typeKey? id = some node.key := by simp [typeKey?, found]
    have later := ih fun other member => held other (List.mem_cons_of_mem _ member)
    rw [NamesTypes, List.map_cons, List.filterMap_cons_some first, List.map_cons, first, later]

theorem namesTypes_of_bind {id? : Option TypeId} {key? : Option TypeKey}
    (held : ∀ id ∈ id?, (model.type? id).isSome) (named : id?.bind model.typeKey? = key?) :
    model.NamesTypes id?.toList key?.toList := by
  refine namesTypes_of_filterMap (fun id member => held id (Option.mem_toList.mp member)) ?_
  subst named
  cases id? with
  | none => rfl
  | some id => cases key : model.typeKey? id <;> simp [key]

theorem BacksType.showsType {node : TypeNode} (backed : model.BacksType node) {definition : Definition}
    (told : (model.typeFacts node).content = definition.content options) : model.ShowsType options definition node where
  isInterface := congrArg TypeFacts.isInterface told
  isAbstract := congrArg TypeFacts.isAbstract told
  base := namesTypes_of_bind backed.base (congrArg TypeFacts.base told)
  interfaces := namesTypes_of_filterMap backed.interfaces (congrArg TypeFacts.interfaces told)
  attributes := namesTypes_of_filterMap backed.attributes (congrArg TypeFacts.attributes told)

theorem BacksMember.showsMethod {node : MemberNode} (backed : model.BacksMember node) {method : MethodDecl}
    (kind : node.kind = .method) (told : (model.memberFacts node).content = method.content options) :
    model.ShowsMethod options method node where
  kind := kind
  returns := namesTypes_of_bind backed.declaredType (congrArg MemberFacts.declaredType told)
  parameters := namesTypes_of_filterMap backed.parameters (congrArg MemberFacts.parameters told)
  flags := congrArg MemberFacts.flags told
  attributes := namesTypes_of_filterMap backed.attributes (congrArg MemberFacts.attributes told)

theorem WellFormed.accessor_found (formed : model.WellFormed) {node : MemberNode} (backed : model.BacksMember node)
    {slot : Slot} {accessor : Option MethodDecl}
    (named : (node.detail.accessor? slot).bind model.memberKey? = accessor.map MethodDecl.key) :
    node.detail.accessor? slot = accessor.bind fun method => (model.findMember? method.key).map MemberNode.id := by
  cases linked : node.detail.accessor? slot with
  | none =>
    rw [linked] at named
    rw [Option.map_eq_none_iff.mp named.symm]
    rfl
  | some id =>
    -- the slot is backed, so the key is that of a member, and no other member has it
    obtain ⟨served, held, _⟩ := backed.accessors slot id linked
    have key : accessor.map MethodDecl.key = some served.key := by
      rw [← named, linked]
      simp [memberKey?, held]
    obtain ⟨method, rfl, same⟩ := Option.map_eq_some_iff.mp key
    have found := formed.find_member held
    simp [same, found, formed.member_id held]

theorem WellFormed.showsData (formed : model.WellFormed) {node : MemberNode} (backed : model.BacksMember node)
    {declared : DataDecl} (kind : node.kind = declared.kind)
    (told : (model.memberFacts node).content = declared.content options) : model.ShowsData options declared node where
  kind := kind
  declaredType := namesTypes_of_bind backed.declaredType (congrArg MemberFacts.declaredType told)
  attributes := namesTypes_of_filterMap backed.attributes (congrArg MemberFacts.attributes told)
  accessor slot := formed.accessor_found backed (congrFun (congrArg MemberFacts.accessor told) slot)

end Model

/-! ## Visits -/

namespace Definition

variable {options : Options} {definition : Definition}

theorem Fits.data {assembly : AssemblyKey} (fits : definition.Fits assembly options) (primary : options.primary = true)
    {declared : DataDecl} (member : declared ∈ definition.dataMembers) :
    declared.key.owner = definition.key ∧
      ∀ slot, ∀ method ∈ declared.accessor slot, method.Fits options definition.key := by
  obtain ⟨properties, fields, events⟩ := fits .dataMembers primary
  simp only [dataMembers, List.mem_append, List.mem_map] at member
  rcases member with ⟨property, member, rfl⟩ | ⟨field, member, rfl⟩ | ⟨event, member, rfl⟩
  · obtain ⟨own, getter, setter⟩ := properties property member
    refine ⟨own.1, fun slot method serves => ?_⟩
    cases slot with
    | getter => exact getter method (Option.mem_toList.mpr serves)
    | setter => exact setter method (Option.mem_toList.mpr serves)
    | adder | remover => cases serves
  · refine ⟨(fields field member).1, fun slot method serves => ?_⟩
    cases serves
  · obtain ⟨own, adder, remover⟩ := events event member
    refine ⟨own.1, fun slot method serves => ?_⟩
    cases slot with
    | adder => exact adder method (Option.mem_toList.mpr serves)
    | remover => exact remover method (Option.mem_toList.mpr serves)
    | getter | setter => cases serves

theorem Fits.method {assembly : AssemblyKey} (fits : definition.Fits assembly options) {method : MethodDecl}
    (member : method ∈ definition.ownMethods) : method.Fits options definition.key := by
  obtain ⟨constructors, methods⟩ := fits .methods
  rcases List.mem_append.mp member with constructor | member
  · obtain ⟨declared, listed, rfl⟩ := List.mem_map.mp constructor
    exact constructors declared listed
  · exact methods method member

theorem ensured_ownMethod {method : MethodDecl} (member : method ∈ definition.ownMethods)
    (visited : options.visitsMethod method.key = true) :
    .ensureMember .method method.key ∈ definition.phaseEdits options .methods := by
  rw [phaseEdits_methods]
  exact List.mem_flatMap.mpr ⟨method, member, by simp [MethodDecl.edits, visited, MethodDecl.ownEdits]⟩

theorem ensured_data (primary : options.primary = true) {declared : DataDecl}
    (member : declared ∈ definition.dataMembers) :
    .ensureMember declared.kind declared.key ∈ definition.phaseEdits options .dataMembers := by
  rw [phaseEdits_dataMembers options primary]
  exact List.mem_flatMap.mpr ⟨declared, member, by simp [DataDecl.edits, dataEdits]⟩

theorem ensured_accessor (primary : options.primary = true) {declared : DataDecl}
    (member : declared ∈ definition.dataMembers) {slot : Slot} {method : MethodDecl}
    (serves : declared.accessor slot = some method) (visited : options.visitsMethod method.key = true) :
    .ensureMember .method method.key ∈ definition.phaseEdits options .dataMembers := by
  have made : .ensureMember .method method.key ∈ declared.accessorEdits options slot := by
    simp [DataDecl.accessorEdits, serves, MethodDecl.accessorEdits, visited]
  have served : .ensureMember .method method.key ∈ declared.edits options :=
    List.mem_append_right _ (List.mem_flatMap.mpr ⟨slot, slot.mem_all, made⟩)
  rw [phaseEdits_dataMembers options primary]
  exact List.mem_flatMap.mpr ⟨declared, member, served⟩

theorem method_of_ensured (secondary : options.primary = false) {part : Phase} {kind : MemberKind} {key : MemberKey}
    (made : .ensureMember kind key ∈ definition.phaseEdits options part) : kind = .method := by
  rcases member_phase_of_ensured made with rfl | rfl
  · simp [phaseEdits, secondary] at made
  · rw [phaseEdits_methods] at made
    obtain ⟨method, _, made⟩ := List.mem_flatMap.mp made
    unfold MethodDecl.edits at made
    split at made
    · rcases self_or_body_of_ensured made with ⟨isMethod, _⟩ | referred
      · exact isMethod
      · -- only a body may refer to members of other kinds
        simp [MethodDecl.bodyEdits, Options.scansBodies, secondary] at referred
    · cases made

end Definition

/-- A model shows the types and members of a module that are visited. -/
structure ModuleDecl.ShownBy (module : ModuleDecl) (options : Options) (model : Model) : Prop where
  types : ∀ type, module.Visited options type → ∃ node, model.findType? type.label.key = some node ∧
    model.ShowsType options type.label node
  /-- Constructors are marked as such. -/
  methods : ∀ type, module.Visited options type → ∀ method ∈ type.label.ownMethods,
    options.visitsMethod method.key = true → ∃ node, model.findMember? method.key = some node ∧
      model.ShowsMethod options method node
  data : options.primary = true → ∀ type, module.Visited options type → ∀ declared ∈ type.label.dataMembers,
    ∃ node, model.findMember? declared.key = some node ∧ model.ShowsData options declared node
  accessors : options.primary = true → ∀ type, module.Visited options type → ∀ declared ∈ type.label.dataMembers,
    ∀ slot, ∀ method ∈ declared.accessor slot, options.visitsMethod method.key = true →
      ∃ node, model.findMember? method.key = some node ∧ model.ShowsMethod options method node
  /-- In a secondary visit, no field, property or event is even referred to. -/
  onlyMethods : options.primary = false → ∀ id node, model.member? id = some node → node.kind = .method

namespace ModuleDecl

def HasDistinctMembers (module : ModuleDecl) : Prop := ∀ type ∈ module.declaredTypes, type.label.memberKeys.Nodup

instance (module : ModuleDecl) : Decidable module.HasDistinctMembers :=
  inferInstanceAs (Decidable (∀ type ∈ module.declaredTypes, type.label.memberKeys.Nodup))

namespace Yields

variable {module : ModuleDecl} {options : Options} {traversal : Traversal} {edits : List Edit} {model : Model}
  (yields : module.Yields options traversal.order edits) (becomes : ({} : Model).Becomes model edits)
  {type : TypeDecl} (visited : module.Visited options type)
include yields becomes visited

theorem content_type {assembly : AssemblyKey} (fits : type.label.Fits assembly options) {id : TypeId} {node : TypeNode}
    (held : model.type? id = some node) (named : node.key = type.label.key) :
    (model.typeFacts node).content = type.label.content options := by
  have blank : ({} : Model).view.type type.label.key = {} := rfl
  rw [← becomes.formed.view_type held, named, becomes.view, View.type_applyAll, blank,
    yields.typeChanges_visited visited, type.label.content_edits options fits traversal]

/-- A member that is ensured is there afterwards, with the content that the visit of its type tells. -/
theorem exists_member_told (admits : ({} : Model).view.Admits edits) {part : Phase} {kind : MemberKind} {key : MemberKey}
    (ensured : .ensureMember kind key ∈ type.label.phaseEdits options part) (owned : key.owner = type.label.key)
    {facts : MemberFacts}
    (told : MemberChange.applyAll (Edit.memberContent key (type.label.edits options traversal.order)) {} = facts) :
    ∃ node, model.findMember? key = some node ∧ model.BacksMember node ∧ node.kind = kind ∧
      (model.memberFacts node).content = facts := by
  have formed := becomes.formed
  obtain ⟨id, node, held, rfl, rfl⟩ := yields.exists_member admits becomes visited ensured
  refine ⟨node, formed.find_member held, formed.member_backed held, rfl, ?_⟩
  have blank : ({} : Model).view.member node.key = {} := rfl
  rw [← formed.view_member held, becomes.view, View.member_applyAll, blank, MemberChange.content_applyAll,
    yields.memberChanges_visited visited owned]
  exact told

end Yields

variable {module : ModuleDecl} {options : Options} {traversal : Traversal} {edits : List Edit} {model : Model}

theorem Yields.kind_eq_method (yields : module.Yields options traversal.order edits)
    (admits : ({} : Model).view.Admits edits) (becomes : ({} : Model).Becomes model edits)
    (secondary : options.primary = false) {id : MemberId} {node : MemberNode} (held : model.member? id = some node) :
    node.kind = .method := by
  have known : model.view.kinds node.key = some node.kind :=
    (becomes.formed.view_kinds_eq_some_iff _ _).mpr ⟨id, node, held, rfl, rfl⟩
  rw [becomes.view, View.kinds_applyAll admits] at known
  rcases known with before | made
  · -- an empty model knows no member
    cases before
  · rcases (yields.mem_edits _).mp made with opening | ⟨type, _, made⟩
    · simp [openingEdits] at opening
    · obtain ⟨part, _, made⟩ := List.mem_flatMap.mp made
      exact Definition.method_of_ensured secondary made

theorem Yields.shownBy (yields : module.Yields options traversal.order edits)
    (admits : ({} : Model).view.Admits edits) (becomes : ({} : Model).Becomes model edits)
    (fits : ∀ type, module.Visited options type → type.label.Fits module.key options)
    (members : module.HasDistinctMembers) : module.ShownBy options model := by
  have formed := becomes.formed
  have distinct : ∀ type, module.Visited options type → type.label.memberKeys.Nodup :=
    fun type visited => members type visited.declared
  -- a member is ensured by its declaration and belongs to its type, so the visit of that type tells its content
  constructor
  case types =>
    intro type visited
    obtain ⟨id, node, held, named⟩ := yields.exists_type becomes visited
    have told := yields.content_type becomes visited (fits type visited) held named
    exact ⟨node, named ▸ formed.find_type held, (formed.type_backed held).showsType told⟩
  case methods =>
    intro type visited method member allowed
    have owned := ((fits type visited).method member allowed).1
    have told := Definition.content_method options (distinct type visited) traversal member allowed
    obtain ⟨node, found, backed, kind, content⟩ := yields.exists_member_told becomes visited admits
      (Definition.ensured_ownMethod member allowed) owned told
    exact ⟨node, found, backed.showsMethod kind content⟩
  case data =>
    intro primary type visited declared member
    have owned := ((fits type visited).data primary member).1
    have told := Definition.content_data options (distinct type visited) traversal primary member
    obtain ⟨node, found, backed, kind, content⟩ := yields.exists_member_told becomes visited admits
      (Definition.ensured_data primary member) owned told
    exact ⟨node, found, formed.showsData backed kind content⟩
  case accessors =>
    intro primary type visited declared member slot method serves allowed
    have owned := (((fits type visited).data primary member).2 slot method serves allowed).1
    have told := Definition.content_accessor options (distinct type visited) traversal primary member serves allowed
    obtain ⟨node, found, backed, kind, content⟩ := yields.exists_member_told becomes visited admits
      (Definition.ensured_accessor primary member serves allowed) owned told
    exact ⟨node, found, backed.showsMethod kind content⟩
  case onlyMethods =>
    intro secondary id node held
    exact yields.kind_eq_method admits becomes secondary held

end ModuleDecl

namespace ModuleDecl

def gaugeMember (name : String) : MemberKey := { owner := { space := ⟨⟨"gauges"⟩, "panel"⟩, name := "Gauge" }, name }

/-- A gauge has members of every kind and names some types more than once. -/
def gauges : ModuleDecl :=
  let gauge : TypeKey := (gaugeMember "new").owner
  let core (name : String) : TypeKey := { space := ⟨⟨"system"⟩, "core"⟩, name }
  let real : TypeRef := .leaf (core "Real")
  let handler : TypeRef := .node (core "Handler") [real]
  { key := gauge.assembly
    types := [
      .leaf {
        key := gauge
        base := some (.leaf (core "Object"))
        interfaces := [.leaf (core "Readable"), .node (core "Equatable") [.leaf gauge], .leaf (core "Readable")]
        attributes := [core "Tag", core "Mark", core "Tag"]
        fields := [{ key := gaugeMember "limit", type := real, attributes := [core "Mark"] }]
        properties := [
          { key := gaugeMember "level"
            type := real
            getter := some { key := gaugeMember "get_level", returns := some real }
            setter := some { key := gaugeMember "set_level", parameters := [real] } }]
        events := [
          { key := gaugeMember "rising"
            type := handler
            adder := some { key := gaugeMember "add_rising", parameters := [handler] } }]
        constructors := [
          { key := gaugeMember "new", parameters := [real, real], body := some [.member .field (gaugeMember "limit")] }]
        methods := [{ key := gaugeMember "reset", flags := { isVirtual := true } }] }] }

end ModuleDecl

def Options.forReading : Options :=
  { methods := some (["new", "reset", "get_level", "add_rising"].map ModuleDecl.gaugeMember) }

end UsageGraph
