import UsageGraph.Proofs.View.Edits
import UsageGraph.Traversal

/-! Declarations as edits.

Each part of a type's declaration says certain things of the type and of its members. A
part fits if it can be visited at all: the keys belong to the module and to the type, and
generic arguments are not nested too deeply.
-/

set_option autoImplicit false
namespace UsageGraph

namespace Tree

variable {α : Type}

mutual

/-- How deeply the trees below a tree are nested; a leaf has none. -/
def nesting : Tree α → Nat
  | .node _ children => if children.isEmpty then 0 else forestNesting children + 1

def forestNesting : List (Tree α) → Nat
  | [] => 0
  | tree :: rest => max tree.nesting (forestNesting rest)

end

theorem forestNesting_le_iff (forest : List (Tree α)) (bound : Nat) :
    forestNesting forest ≤ bound ↔ ∀ tree ∈ forest, tree.nesting ≤ bound := by
  induction forest with
  | nil => simp [forestNesting]
  | cons tree rest ih => simp [forestNesting, ih]

end Tree

namespace Edit

def usesOf (holder : NodeKey) (keys : List TypeKey) : List Edit :=
  keys.flatMap fun key => [.ensureType key, .use holder (.type key)]

def usesOfRef (holder : NodeKey) (reference : TypeRef) : List Edit := usesOf holder reference.preorder

def usesOfRefs (holder : NodeKey) (references : List TypeRef) : List Edit := references.flatMap (usesOfRef holder)

end Edit

def Options.attributeEdits (options : Options) (holder : NodeKey) (keys : List TypeKey) : List Edit :=
  if options.primary then
    keys.flatMap fun key => [.ensureType key, .attributed holder key, .ensureType key, .use holder (.type key)]
  else []

namespace MethodDecl

def bodyEdits (options : Options) (method : MethodDecl) : List Edit :=
  if options.scansBodies then
    method.body.toList.flatMap fun body => body.flatMap fun target =>
      [.ensureNode target, .use (.member .method method.key) target]
  else []

/-- What an allowed method says of itself. -/
def ownEdits (options : Options) (method : MethodDecl) : List Edit :=
  let returns := method.returns.map Tree.label
  let parameters := method.parameters.map Tree.label
  let holder : NodeKey := .member .method method.key
  [.ensureMember .method method.key, .onMember method.key (.opened (!options.scansBodies))] ++
    ((returns.toList.map .ensureType ++ parameters.map .ensureType ++
      [.onMember method.key (.prototype returns parameters)]) ++
    ([.onMember method.key (.flags method.flags)] ++
    (Edit.usesOfRefs holder method.returns.toList ++ (Edit.usesOfRefs holder method.parameters ++
    (options.attributeEdits holder method.attributes ++ method.bodyEdits options)))))

def edits (options : Options) (method : MethodDecl) : List Edit :=
  if options.visitsMethod method.key then method.ownEdits options else []

def accessorEdits (options : Options) (owner : MemberKey) (slot : Slot) (method : MethodDecl) : List Edit :=
  if options.visitsMethod method.key then
    method.ownEdits options ++ [.ensureMember slot.ownerKind owner, .ensureMember .method method.key,
      .onMember owner (.accessor slot method.key)]
  else []

/-- A method fits into a type, if it is visited at all. -/
def Fits (options : Options) (owner : TypeKey) (method : MethodDecl) : Prop :=
  options.visitsMethod method.key = true →
    method.key.owner = owner ∧ (∀ reference ∈ method.returns.toList, reference.nesting ≤ options.maxDepth) ∧
      ∀ reference ∈ method.parameters, reference.nesting ≤ options.maxDepth

end MethodDecl

def dataEdits (options : Options) (kind : MemberKind) (key : MemberKey) (type : TypeRef)
    (attributes : List TypeKey) : List Edit :=
  [.ensureMember kind key, .onMember key (.opened false)] ++
    ([.ensureType type.label, .onMember key (.declaredType type.label)] ++
    (Edit.usesOfRef (.member kind key) type ++ options.attributeEdits (.member kind key) attributes))

def FieldDecl.edits (options : Options) (field : FieldDecl) : List Edit :=
  dataEdits options .field field.key field.type field.attributes

def PropertyDecl.edits (options : Options) (property : PropertyDecl) : List Edit :=
  dataEdits options .property property.key property.type property.attributes ++
    (property.getter.toList.flatMap (MethodDecl.accessorEdits options property.key .getter) ++
      property.setter.toList.flatMap (MethodDecl.accessorEdits options property.key .setter))

def EventDecl.edits (options : Options) (event : EventDecl) : List Edit :=
  dataEdits options .event event.key event.type event.attributes ++
    (event.adder.toList.flatMap (MethodDecl.accessorEdits options event.key .adder) ++
      event.remover.toList.flatMap (MethodDecl.accessorEdits options event.key .remover))

def DataFits (options : Options) (owner : TypeKey) (key : MemberKey) (type : TypeRef) : Prop :=
  key.owner = owner ∧ type.nesting ≤ options.maxDepth

def FieldDecl.Fits (options : Options) (owner : TypeKey) (field : FieldDecl) : Prop :=
  DataFits options owner field.key field.type

def PropertyDecl.Fits (options : Options) (owner : TypeKey) (property : PropertyDecl) : Prop :=
  DataFits options owner property.key property.type ∧ (∀ method ∈ property.getter.toList, method.Fits options owner) ∧
    ∀ method ∈ property.setter.toList, method.Fits options owner

def EventDecl.Fits (options : Options) (owner : TypeKey) (event : EventDecl) : Prop :=
  DataFits options owner event.key event.type ∧ (∀ method ∈ event.adder.toList, method.Fits options owner) ∧
    ∀ method ∈ event.remover.toList, method.Fits options owner

namespace Definition

/-- What the phase of a visit says of a type and its members. -/
def phaseEdits (options : Options) (definition : Definition) : Phase → List Edit
  | .openType =>
    [.ensureSpace definition.key.space, .ensureType definition.key,
      .onType definition.key (.opened (!options.primary)),
      .onType definition.key (.flags definition.isInterface definition.isAbstract)]
  | .interfaces => definition.interfaces.flatMap fun implemented =>
    [.ensureType implemented.label, .onType definition.key (.interface implemented.label)] ++
      Edit.usesOfRef (.type definition.key) implemented
  | .generics => definition.generics.flatMap fun parameter =>
    Edit.usesOf (.type definition.key) [parameter.key] ++ Edit.usesOfRefs (.type definition.key) parameter.constraints
  | .attributes => options.attributeEdits (.type definition.key) definition.attributes
  | .base => definition.base.toList.flatMap fun extended =>
    [.ensureType extended.label, .onType definition.key (.base extended.label)] ++
      Edit.usesOfRef (.type definition.key) extended
  | .dataMembers =>
    if options.primary then
      definition.properties.flatMap (PropertyDecl.edits options) ++
        (definition.fields.flatMap (FieldDecl.edits options) ++ definition.events.flatMap (EventDecl.edits options))
    else []
  | .methods =>
    definition.constructors.flatMap (fun method => method.asConstructor.edits options) ++
      definition.methods.flatMap (MethodDecl.edits options)
  | .claim | .supertypes | .nested | .closeType | .complete => []

def PhaseFits (assembly : AssemblyKey) (options : Options) (definition : Definition) : Phase → Prop
  | .openType => definition.key.assembly = assembly
  | .interfaces => ∀ implemented ∈ definition.interfaces, implemented.nesting ≤ options.maxDepth
  | .generics => ∀ parameter ∈ definition.generics, ∀ reference ∈ parameter.constraints,
    reference.nesting ≤ options.maxDepth
  | .base => ∀ extended ∈ definition.base.toList, extended.nesting ≤ options.maxDepth
  | .dataMembers => options.primary = true →
    (∀ property ∈ definition.properties, property.Fits options definition.key) ∧
      (∀ field ∈ definition.fields, field.Fits options definition.key) ∧
      ∀ event ∈ definition.events, event.Fits options definition.key
  | .methods =>
    (∀ method ∈ definition.constructors, method.asConstructor.Fits options definition.key) ∧
      ∀ method ∈ definition.methods, method.Fits options definition.key
  | .claim | .supertypes | .attributes | .nested | .closeType | .complete => True

def edits (options : Options) (order : Order) (definition : Definition) : List Edit :=
  order.flatMap (definition.phaseEdits options)

def Fits (assembly : AssemblyKey) (options : Options) (definition : Definition) : Prop :=
  ∀ phase, definition.PhaseFits assembly options phase

end Definition

namespace Edit.Within

variable {options : Options} {owner : TypeKey}

theorem usesOf (holder : NodeKey) (keys : List TypeKey) : Within (· = holder.place) (Edit.usesOf holder keys) :=
  flatMap fun _ _ => ensure rfl (change (place?_use ..) rfl nil)

theorem usesOfRefs (holder : NodeKey) (references : List TypeRef) :
    Within (· = holder.place) (Edit.usesOfRefs holder references) :=
  flatMap fun reference _ => usesOf holder reference.preorder

theorem attributeEdits (options : Options) (holder : NodeKey) (keys : List TypeKey) :
    Within (· = holder.place) (options.attributeEdits holder keys) := by
  unfold Options.attributeEdits
  split
  · exact flatMap fun key _ => ensure rfl
      (change (place?_attributed ..) rfl (ensure rfl (change (place?_use ..) rfl nil)))
  · exact nil

theorem bodyEdits (options : Options) (method : MethodDecl) :
    Within (· = .member method.key) (method.bodyEdits options) := by
  unfold MethodDecl.bodyEdits
  split
  · exact flatMap fun body _ => flatMap fun target _ => ensure (place?_ensureNode target) (change rfl rfl nil)
  · exact nil

theorem ownEdits (options : Options) (method : MethodDecl) :
    Within (· = .member method.key) (method.ownEdits options) := by
  refine append (ensure rfl (change rfl rfl nil)) (append ?_ (append (change rfl rfl nil) ?_))
  · exact append (append (map_ensureType _) (map_ensureType _)) (change rfl rfl nil)
  · have holder : (NodeKey.member .method method.key).place = .member method.key := rfl
    rw [← holder]
    exact append (usesOfRefs _ _) (append (usesOfRefs _ _)
      (append (attributeEdits options _ _) (bodyEdits options method)))

theorem methodEdits {method : MethodDecl} (fits : method.Fits options owner) :
    Within (Place.IsMemberOf owner) (method.edits options) := by
  unfold MethodDecl.edits
  split
  next visited => exact (ownEdits options method).mono fun _ same => same ▸ (fits visited).1
  next => exact nil

theorem accessorEdits {method : MethodDecl} (fits : method.Fits options owner) {member : MemberKey}
    (owned : member.owner = owner) (slot : Slot) :
    Within (Place.IsMemberOf owner) (method.accessorEdits options member slot) := by
  unfold MethodDecl.accessorEdits
  split
  next visited =>
    refine append ?_ (ensure rfl (ensure rfl (change rfl owned nil)))
    exact (ownEdits options method).mono fun _ same => same ▸ (fits visited).1
  next => exact nil

theorem dataEdits {member : MemberKey} {type : TypeRef} (fits : DataFits options owner member type) (kind : MemberKind)
    (attributes : List TypeKey) : Within (Place.IsMemberOf owner) (dataEdits options kind member type attributes) := by
  have own : ∀ place : Place, place = (NodeKey.member kind member).place → place.IsMemberOf owner :=
    fun _ same => same ▸ fits.1
  refine append (ensure rfl (change rfl fits.1 nil)) (append (ensure rfl (change rfl fits.1 nil)) (append ?_ ?_))
  · exact (usesOf (.member kind member) _).mono own
  · exact (attributeEdits options (.member kind member) attributes).mono own

/-- Members are visited in two phases, which say nothing about the type itself. -/
theorem memberPhaseEdits {assembly : AssemblyKey} {definition : Definition} {part : Phase}
    (phase : part = .dataMembers ∨ part = .methods) (fits : definition.PhaseFits assembly options part) :
    Within (Place.IsMemberOf definition.key) (definition.phaseEdits options part) := by
  rcases phase with rfl | rfl
  · unfold Definition.phaseEdits
    simp only
    split
    next primary =>
      obtain ⟨properties, fields, events⟩ := fits primary
      refine append (flatMap fun property member => ?_)
        (append (flatMap fun field member => ?_) (flatMap fun event member => ?_))
      · obtain ⟨data, getter, setter⟩ := properties property member
        exact append (dataEdits data .property _) (append
          (flatMap fun method named => accessorEdits (getter method named) data.1 .getter)
          (flatMap fun method named => accessorEdits (setter method named) data.1 .setter))
      · exact dataEdits (fields field member) .field _
      · obtain ⟨data, adder, remover⟩ := events event member
        exact append (dataEdits data .event _) (append
          (flatMap fun method named => accessorEdits (adder method named) data.1 .adder)
          (flatMap fun method named => accessorEdits (remover method named) data.1 .remover))
    next => exact nil
  · exact append (flatMap fun method named => methodEdits (fits.1 method named))
      (flatMap fun method named => methodEdits (fits.2 method named))

theorem typePhaseEdits (definition : Definition) {part : Phase} (phase : ¬ (part = .dataMembers ∨ part = .methods)) :
    Within (· = .type definition.key) (definition.phaseEdits options part) := by
  cases part with
  | openType => exact ensure rfl (ensure rfl (change rfl rfl (change rfl rfl nil)))
  | interfaces => exact flatMap fun _ _ => append (ensure rfl (change rfl rfl nil)) (usesOf (.type definition.key) _)
  | generics => exact flatMap fun _ _ => append (usesOf (.type definition.key) _) (usesOfRefs (.type definition.key) _)
  | attributes => exact attributeEdits options (.type definition.key) definition.attributes
  | base => exact flatMap fun _ _ => append (ensure rfl (change rfl rfl nil)) (usesOf (.type definition.key) _)
  | dataMembers | methods => simp at phase
  | claim | supertypes | nested | closeType | complete => exact nil

theorem phaseEdits {assembly : AssemblyKey} {definition : Definition} {part : Phase}
    (fits : definition.PhaseFits assembly options part) :
    Within (fun place => place.typeKey = definition.key) (definition.phaseEdits options part) := by
  by_cases phase : part = .dataMembers ∨ part = .methods
  · exact (memberPhaseEdits phase fits).mono fun _ member => member.typeKey_eq
  · exact (typePhaseEdits definition phase).mono fun _ same => same ▸ rfl

end Edit.Within

theorem Definition.Fits.about_eq_nil {assembly : AssemblyKey} {options : Options} {definition : Definition}
    (fits : definition.Fits assembly options) (order : Order) {key : TypeKey} (apart : definition.key ≠ key) :
    Edit.about key (definition.edits options order) = [] := by
  have within : Edit.Within _ (definition.edits options order) :=
    Edit.Within.flatMap fun part _ => Edit.Within.phaseEdits (fits part)
  exact within.about_eq_nil fun place here => here ▸ apart

/-- Visits of other types say nothing about a type. -/
theorem about_others {assembly : AssemblyKey} {options : Options} {order : Order} {types : List TypeDecl}
    {key : TypeKey}
    (fits : ∀ type ∈ types, type.label.Fits assembly options) (apart : ∀ type ∈ types, type.label.key ≠ key) :
    types.flatMap (fun type => Edit.about key (type.label.edits options order)) = [] := by
  rw [List.flatMap_eq_nil_iff]
  exact fun type member => (fits type member).about_eq_nil order (apart type member)

end UsageGraph
