import UsageGraph.Proofs.Traversal.Module

/-! Usages after a traversal.

A declaration names types, with all generic arguments that they are applied to, and the
body of a method names the nodes that it refers to. A traversal that begins with an empty
model records on each node what the visited declarations of its key name, and no more.
-/

set_option autoImplicit false
namespace UsageGraph

def Options.visitedAttributes (options : Options) (keys : List TypeKey) : List TypeKey :=
  if options.primary then keys else []

/-- The types that a type's own declaration names, apart from its members and the types nested in it. -/
def Definition.namedTypes (options : Options) (definition : Definition) : List TypeKey :=
  definition.base.toList.flatMap Tree.preorder ++ definition.interfaces.flatMap Tree.preorder ++
    definition.generics.flatMap (fun parameter => parameter.key :: parameter.constraints.flatMap Tree.preorder) ++
    options.visitedAttributes definition.attributes

/-- A declaration of a member with the nodes that it names. -/
structure MemberMention where
  kind : MemberKind
  key : MemberKey
  names : List NodeKey

def Options.dataMention (options : Options) (kind : MemberKind) (key : MemberKey) (type : TypeRef)
    (attributes : List TypeKey) :
    MemberMention :=
  ⟨kind, key, (type.preorder ++ options.visitedAttributes attributes).map .type⟩

def MethodDecl.mentions (options : Options) (method : MethodDecl) : List MemberMention :=
  if options.visitsMethod method.key then
    let types := (method.returns.toList ++ method.parameters).flatMap Tree.preorder ++
      options.visitedAttributes method.attributes
    let body := if options.scansBodies then method.body.toList.flatten else []
    [⟨.method, method.key, types.map .type ++ body⟩]
  else []

def FieldDecl.mention (options : Options) (field : FieldDecl) : MemberMention :=
  options.dataMention .field field.key field.type field.attributes

def PropertyDecl.mentions (options : Options) (property : PropertyDecl) : List MemberMention :=
  options.dataMention .property property.key property.type property.attributes ::
    (property.getter.toList ++ property.setter.toList).flatMap (MethodDecl.mentions options)

def EventDecl.mentions (options : Options) (event : EventDecl) : List MemberMention :=
  options.dataMention .event event.key event.type event.attributes ::
    (event.adder.toList ++ event.remover.toList).flatMap (MethodDecl.mentions options)

/-- The declarations of members that a visit of the type comes to; data members belong to primary visits. -/
def Definition.mentions (options : Options) (definition : Definition) : List MemberMention :=
  (if options.primary then
    definition.properties.flatMap (PropertyDecl.mentions options) ++
      definition.fields.map (FieldDecl.mention options) ++ definition.events.flatMap (EventDecl.mentions options)
  else []) ++
  (definition.constructors ++ definition.methods).flatMap (MethodDecl.mentions options)

def ModuleDecl.namedBy (module : ModuleDecl) (options : Options) (key : MemberKey) : Set NodeKey :=
  {named | ∃ type, module.Visited options type ∧ ∃ mention ∈ type.label.mentions options, mention.key = key ∧
    named ∈ mention.names}

namespace Edit

def usage? : Edit → Option (Place × NodeKey)
  | .onType key (.use target) => some (.type key, target)
  | .onMember key (.use target) => some (.member key, target)
  | _ => none

def usages (edits : List Edit) : List (Place × NodeKey) := edits.filterMap usage?

theorem mem_usages_type {edits : List Edit} {key : TypeKey} {target : NodeKey} :
    (.type key, target) ∈ usages edits ↔ .onType key (.use target) ∈ edits := by
  unfold usages
  rw [List.mem_filterMap]
  constructor
  · rintro ⟨edit, member, recorded⟩
    unfold usage? at recorded
    split at recorded <;> simp_all
  · exact fun member => ⟨_, member, rfl⟩

theorem mem_usages_member {edits : List Edit} {key : MemberKey} {target : NodeKey} :
    (.member key, target) ∈ usages edits ↔ .onMember key (.use target) ∈ edits := by
  unfold usages
  rw [List.mem_filterMap]
  constructor
  · rintro ⟨edit, member, recorded⟩
    unfold usage? at recorded
    split at recorded <;> simp_all
  · exact fun member => ⟨_, member, rfl⟩

@[simp] theorem usages_nil : usages [] = [] := rfl

@[simp] theorem usages_append (first second : List Edit) : usages (first ++ second) = usages first ++ usages second :=
  List.filterMap_append ..

@[simp] theorem usages_flatMap {α : Type} (items : List α) (edits : α → List Edit) :
    usages (items.flatMap edits) = items.flatMap fun item => usages (edits item) :=
  List.filterMap_flatMap ..

@[simp] theorem usages_cons (edit : Edit) (rest : List Edit) :
    usages (edit :: rest) = edit.usage?.toList ++ usages rest := by
  unfold usages
  rw [List.filterMap_cons]
  cases edit.usage? <;> rfl

@[simp] theorem usage?_use (holder target : NodeKey) : (use holder target).usage? = some (holder.place, target) := by
  cases holder <;> rfl

@[simp] theorem usage?_attributed (holder : NodeKey) (type : TypeKey) : (attributed holder type).usage? = none := by
  cases holder <;> rfl

@[simp] theorem usage?_ensureNode (key : NodeKey) : (ensureNode key).usage? = none := by
  cases key <;> rfl

@[simp] theorem usage?_ensureType (key : TypeKey) : (ensureType key).usage? = none := rfl

theorem usages_map_ensureType (keys : List TypeKey) : usages (keys.map .ensureType) = [] := by
  induction keys with
  | nil => rfl
  | cons key rest ih => exact ih

theorem usages_usesOf (holder : NodeKey) (keys : List TypeKey) :
    usages (usesOf holder keys) = keys.map fun key => (holder.place, .type key) := by
  induction keys with
  | nil => rfl
  | cons key rest ih =>
    show usages ([.ensureType key, .use holder (.type key)] ++ usesOf holder rest) = _
    simp [ih]

theorem usages_usesOfRefs (holder : NodeKey) (references : List TypeRef) :
    usages (usesOfRefs holder references) = (references.flatMap Tree.preorder).map fun key =>
      (holder.place, .type key) := by
  simp [usesOfRefs, usesOfRef, usages_usesOf, List.map_flatMap]

theorem usages_attributeEdits (options : Options) (holder : NodeKey) (keys : List TypeKey) :
    usages (options.attributeEdits holder keys) =
      (options.visitedAttributes keys).map fun key => (holder.place, .type key) := by
  unfold Options.attributeEdits Options.visitedAttributes
  split
  · induction keys with
    | nil => rfl
    | cons key rest ih =>
      rw [List.flatMap_cons, usages_append, ih]
      simp
  · rfl

end Edit

def MemberMention.usages (mention : MemberMention) : List (Place × NodeKey) :=
  mention.names.map fun named => (.member mention.key, named)

section Members

variable (options : Options)

theorem MethodDecl.usages_bodyEdits (method : MethodDecl) :
    Edit.usages (method.bodyEdits options) =
      (if options.scansBodies then method.body.toList.flatten else []).map fun named =>
        (Place.member method.key, named) := by
  unfold bodyEdits
  split
  · cases method.body with
    | none => rfl
    | some body =>
      induction body with
      | nil => rfl
      | cons named rest ih => simp_all [NodeKey.place]
  · rfl

theorem MethodDecl.usages_ownEdits {method : MethodDecl} (visited : options.visitsMethod method.key = true) :
    Edit.usages (method.ownEdits options) = (method.mentions options).flatMap MemberMention.usages := by
  simp only [ownEdits, Edit.usages_append, Edit.usages_map_ensureType, Edit.usages_usesOfRefs,
    Edit.usages_attributeEdits, usages_bodyEdits]
  simp [mentions, visited, MemberMention.usages, Edit.usage?, NodeKey.place, List.map_flatMap, Function.comp_def]

theorem MethodDecl.usages_edits (method : MethodDecl) :
    Edit.usages (method.edits options) = (method.mentions options).flatMap MemberMention.usages := by
  unfold edits
  split
  next visited => exact usages_ownEdits options visited
  next passed => simp [mentions, passed]

theorem MethodDecl.usages_accessorEdits (owner : MemberKey) (slot : Slot) (method : MethodDecl) :
    Edit.usages (method.accessorEdits options owner slot) = (method.mentions options).flatMap MemberMention.usages := by
  unfold accessorEdits
  split
  next visited => simp [usages_ownEdits options visited, Edit.usage?]
  next passed => simp [mentions, passed]

theorem usages_dataEdits (kind : MemberKind) (key : MemberKey) (type : TypeRef) (attributes : List TypeKey) :
    Edit.usages (dataEdits options kind key type attributes) =
      (options.dataMention kind key type attributes).usages := by
  simp [dataEdits, Options.dataMention, MemberMention.usages, Edit.usesOfRef, Edit.usages_usesOf,
    Edit.usages_attributeEdits,
    Edit.usage?, NodeKey.place, Function.comp_def]

theorem PropertyDecl.usages_edits (property : PropertyDecl) :
    Edit.usages (property.edits options) = (property.mentions options).flatMap MemberMention.usages := by
  simp [edits, mentions, usages_dataEdits, MethodDecl.usages_accessorEdits, List.flatMap_assoc]

theorem EventDecl.usages_edits (event : EventDecl) :
    Edit.usages (event.edits options) = (event.mentions options).flatMap MemberMention.usages := by
  simp [edits, mentions, usages_dataEdits, MethodDecl.usages_accessorEdits, List.flatMap_assoc]

end Members

namespace Definition

variable (options : Options) (definition : Definition)

def typeUsages : List (Place × NodeKey) :=
  (definition.namedTypes options).map fun key => (.type definition.key, .type key)

theorem usages_memberPhases :
    Edit.usages (definition.phaseEdits options .dataMembers) ++ Edit.usages (definition.phaseEdits options .methods) =
      (definition.mentions options).flatMap MemberMention.usages := by
  have constructors : ∀ method : MethodDecl, method.asConstructor.mentions options = method.mentions options :=
    fun _ => rfl
  have fields : ∀ field : FieldDecl, Edit.usages (field.edits options) = (field.mention options).usages :=
    fun field => usages_dataEdits options .field field.key field.type field.attributes
  have methods : Edit.usages (definition.phaseEdits options .methods) =
      ((definition.constructors ++ definition.methods).flatMap
        (MethodDecl.mentions options)).flatMap MemberMention.usages := by
    simp [phaseEdits, MethodDecl.usages_edits, constructors, List.flatMap_assoc]
  rw [methods, mentions, List.flatMap_append]
  simp only [phaseEdits]
  split
  · simp [PropertyDecl.usages_edits, EventDecl.usages_edits, fields, List.flatMap_assoc, List.flatMap_map]
  · rfl

theorem usages_typePhases :
    Edit.usages (definition.phaseEdits options .base) ++ Edit.usages (definition.phaseEdits options .interfaces) ++
      Edit.usages (definition.phaseEdits options .generics) ++ Edit.usages (definition.phaseEdits options .attributes) =
        definition.typeUsages options := by
  simp [typeUsages, namedTypes, phaseEdits, Edit.usesOfRef, Edit.usages_usesOf, Edit.usages_usesOfRefs,
    Edit.usages_attributeEdits, Edit.usage?, NodeKey.place, List.map_flatMap]

/-- A visit of a type records what the declarations of the type and of its members name, whatever the order
of phases. -/
theorem mem_usages_edits {order : Order} (whole : ∀ part, part ∈ order) (usage : Place × NodeKey) :
    usage ∈ Edit.usages (definition.edits options order) ↔
      usage ∈ definition.typeUsages options ∨ usage ∈ (definition.mentions options).flatMap MemberMention.usages := by
  have phases : usage ∈ Edit.usages (definition.edits options order) ↔
      ∃ part, usage ∈ Edit.usages (definition.phaseEdits options part) := by
    simp [edits, whole]
  rw [phases, ← usages_typePhases, ← usages_memberPhases]
  simp only [List.mem_append]
  constructor
  · rintro ⟨part, recorded⟩
    cases part with
    | interfaces | generics | attributes | base | dataMembers | methods => simp [recorded]
    | openType => simp [phaseEdits, Edit.usage?] at recorded
    | claim | supertypes | nested | closeType | complete => cases recorded
  · rintro ((((recorded | recorded) | recorded) | recorded) | (recorded | recorded))
    all_goals exact ⟨_, recorded⟩

end Definition

/-! ## Usages in the model -/

namespace ModuleDecl.Yields

variable {module : ModuleDecl} {options : Options} {traversal : Traversal} {edits : List Edit}

theorem mem_usages (yields : module.Yields options traversal.order edits) (usage : Place × NodeKey) :
    usage ∈ Edit.usages edits ↔ ∃ type, module.Visited options type ∧
      (usage ∈ type.label.typeUsages options ∨ usage ∈ (type.label.mentions options).flatMap MemberMention.usages) := by
  obtain ⟨parts, order, whole⟩ := traversal.whole
  have split : ∀ usage, usage ∈ Edit.usages edits ↔
      ∃ type, module.Visited options type ∧ usage ∈ Edit.usages (type.label.edits options traversal.order) := by
    intro usage
    simp only [Edit.usages, List.mem_filterMap, yields.mem_edits]
    constructor
    · rintro ⟨edit, opening | ⟨type, visited, member⟩, recorded⟩
      · simp only [openingEdits, List.mem_cons, List.not_mem_nil, or_false] at opening
        rcases opening with rfl | rfl <;> cases recorded
      · exact ⟨type, visited, edit, member, recorded⟩
    · rintro ⟨type, visited, edit, member, recorded⟩
      exact ⟨edit, .inr ⟨type, visited, member⟩, recorded⟩
  rw [split]
  simp only [Definition.mem_usages_edits options _ (order ▸ whole.all)]

theorem typeUse_iff (yields : module.Yields options traversal.order edits) (key : TypeKey) (named : NodeKey) :
    .onType key (.use named) ∈ edits ↔ ∃ type, module.Visited options type ∧ type.label.key = key ∧
      named ∈ (type.label.namedTypes options).map .type := by
  rw [← Edit.mem_usages_type, yields.mem_usages]
  simp only [Definition.typeUsages, MemberMention.usages, List.mem_map, List.mem_flatMap, Prod.mk.injEq]
  grind

theorem memberUse_iff (yields : module.Yields options traversal.order edits) (key : MemberKey) (named : NodeKey) :
    .onMember key (.use named) ∈ edits ↔ named ∈ module.namedBy options key := by
  rw [← Edit.mem_usages_member, yields.mem_usages]
  simp only [Definition.typeUsages, MemberMention.usages, List.mem_map, List.mem_flatMap, Prod.mk.injEq, namedBy,
    Set.mem_ofPred_eq]
  grind

end ModuleDecl.Yields

/-- The usages of a set lead to the nodes that some keys name, once to each of them and to no other node. -/
structure Model.Records (model : Model) (usages : UsageSet) (keys : Set NodeKey) : Prop where
  found : ∀ key ∈ keys, ∃ target ∈ usages.targets, model.resolve? key = some target
  named : ∀ target ∈ usages.targets, ∃ key ∈ keys, model.resolve? key = some target
  distinct : usages.targets.Nodup

namespace Model

variable {model : Model} {usages : UsageSet}

theorem records_usedKeys (formed : model.WellFormed) (backed : model.Backs usages) :
    model.Records usages (model.usedKeys usages) where
  found := by
    rintro key ⟨target, member, named⟩
    exact ⟨target, member, (formed.resolve?_eq_some_iff key target).mpr named⟩
  named := by
    intro target member
    obtain ⟨usage, recorded, rfl⟩ := List.mem_map.mp member
    obtain ⟨key, named⟩ : ∃ key, model.nodeKey? usage.target = some key := by
      -- a usage that is true of its target has a target in the model
      have accurate := backed.accurate usage recorded
      cases at_target : usage.target with
      | type id =>
        rw [at_target] at accurate
        obtain ⟨node, held, _⟩ := Option.map_eq_some_iff.mp accurate
        exact ⟨.type node.key, by simp [nodeKey?, held]⟩
      | member id =>
        rw [at_target] at accurate
        obtain ⟨node, held, _⟩ := Option.map_eq_some_iff.mp accurate
        exact ⟨.member node.kind node.key, by simp [nodeKey?, held]⟩
    exact ⟨key, ⟨usage.target, member, named⟩, (formed.resolve?_eq_some_iff key usage.target).mpr named⟩
  distinct := backed.distinct

theorem Records.congr {keys others : Set NodeKey} (records : model.Records usages keys)
    (same : ∀ key, key ∈ keys ↔ key ∈ others) :
    model.Records usages others :=
  Set.ext same ▸ records

theorem Records.targets_eq_nil {keys : Set NodeKey} (records : model.Records usages keys) (none : ∀ key, key ∉ keys) :
    usages.targets = [] := by
  rw [List.eq_nil_iff_forall_not_mem]
  intro target member
  obtain ⟨key, named, _⟩ := records.named target member
  exact none key named

end Model

/-- A model holds the usages of what the visited declarations of a module name, each on the node of the
declaration, and no other usages. -/
structure ModuleDecl.AccountsFor (module : ModuleDecl) (options : Options) (model : Model) : Prop where
  /-- Every visited type is there and uses what its declaration names. -/
  types : ∀ type, module.Visited options type → ∃ node, model.findType? type.label.key = some node ∧
    model.Records node.usages {named | named ∈ (type.label.namedTypes options).map .type}
  /-- Every visited declaration of a member has a node of its kind. -/
  declared : ∀ type, module.Visited options type → ∀ mention ∈ type.label.mentions options,
    ∃ node, model.findMember? mention.key = some node ∧ node.kind = mention.kind
  /-- Every member uses what its visited declarations name, one or several. -/
  members : ∀ id node, model.member? id = some node → model.Records node.usages (module.namedBy options node.key)
  otherTypes : ∀ id node, model.type? id = some node →
    (∀ type, module.Visited options type → type.label.key ≠ node.key) →
    node.usages.targets = []
  otherMembers : ∀ id node, model.member? id = some node → (∀ type, module.Visited options type →
    ∀ mention ∈ type.label.mentions options, mention.key ≠ node.key) → node.usages.targets = []

theorem MethodDecl.ensured_of_mention {options : Options} {method : MethodDecl} {mention : MemberMention}
    (mentioned : mention ∈ method.mentions options) :
    .ensureMember mention.kind mention.key ∈ method.edits options ∧
      ∀ owner slot, .ensureMember mention.kind mention.key ∈ method.accessorEdits options owner slot := by
  unfold mentions at mentioned
  unfold edits accessorEdits
  split at mentioned
  next visited =>
    obtain rfl := List.mem_singleton.mp mentioned
    simp [visited, ownEdits]
  next => cases mentioned

theorem ensured_of_accessor {options : Options} {first second : Option MethodDecl} {mention : MemberMention}
    (mentioned : mention ∈ (first.toList ++ second.toList).flatMap (MethodDecl.mentions options)) (owner : MemberKey)
    (slot slot' : Slot) : .ensureMember mention.kind mention.key ∈
      first.toList.flatMap (MethodDecl.accessorEdits options owner slot) ++
        second.toList.flatMap (MethodDecl.accessorEdits options owner slot') := by
  rw [List.flatMap_append] at mentioned
  refine List.mem_append.mpr ((List.mem_append.mp mentioned).imp ?_ ?_)
  · intro member
    obtain ⟨method, named, member⟩ := List.mem_flatMap.mp member
    exact List.mem_flatMap.mpr ⟨method, named, (MethodDecl.ensured_of_mention member).2 owner slot⟩
  · intro member
    obtain ⟨method, named, member⟩ := List.mem_flatMap.mp member
    exact List.mem_flatMap.mpr ⟨method, named, (MethodDecl.ensured_of_mention member).2 owner slot'⟩

theorem Definition.ensured_of_mention {options : Options} {definition : Definition} {mention : MemberMention}
    (mentioned : mention ∈ definition.mentions options) :
    ∃ part, .ensureMember mention.kind mention.key ∈ definition.phaseEdits options part := by
  rcases List.mem_append.mp mentioned with data | methods
  · refine ⟨.dataMembers, ?_⟩
    unfold phaseEdits
    split at data
    next primary =>
      simp only [primary, if_true, List.mem_append, List.mem_flatMap, List.mem_map] at data ⊢
      rcases data with (⟨property, declared, member⟩ | ⟨field, declared, rfl⟩) | ⟨event, declared, member⟩
      · refine .inl ⟨property, declared, ?_⟩
        rcases List.mem_cons.mp member with rfl | member
        · exact List.mem_append_left _ (by simp [dataEdits, Options.dataMention])
        · exact List.mem_append_right _ (ensured_of_accessor member _ _ _)
      · exact .inr (.inl ⟨field, declared, by
          simp [FieldDecl.edits, FieldDecl.mention, dataEdits, Options.dataMention]⟩)
      · refine .inr (.inr ⟨event, declared, ?_⟩)
        rcases List.mem_cons.mp member with rfl | member
        · exact List.mem_append_left _ (by simp [dataEdits, Options.dataMention])
        · exact List.mem_append_right _ (ensured_of_accessor member _ _ _)
    next => cases data
  · refine ⟨.methods, ?_⟩
    rw [List.flatMap_append] at methods
    refine List.mem_append.mpr ((List.mem_append.mp methods).imp ?_ ?_)
    · intro member
      obtain ⟨method, declared, member⟩ := List.mem_flatMap.mp member
      -- the mark of a constructor changes neither key nor kind
      have constructor : mention ∈ method.asConstructor.mentions options := member
      exact List.mem_flatMap.mpr ⟨method, declared, (MethodDecl.ensured_of_mention constructor).1⟩
    · intro member
      obtain ⟨method, declared, member⟩ := List.mem_flatMap.mp member
      exact List.mem_flatMap.mpr ⟨method, declared, (MethodDecl.ensured_of_mention member).1⟩

namespace Model.Becomes

variable {model : Model} {edits : List Edit} (becomes : ({} : Model).Becomes model edits)
include becomes

theorem usedKeys_type {id : TypeId} {node : TypeNode} (held : model.type? id = some node) :
    model.usedKeys node.usages = {named | .onType node.key (.use named) ∈ edits} := by
  have uses : model.usedKeys node.usages = (model.view.type node.key).uses := by
    rw [becomes.formed.view_type held]
    rfl
  have blank : (({} : Model).view.type node.key).uses = ∅ := rfl
  ext named
  rw [uses, becomes.view, View.mem_typeUses_applyAll, blank]
  exact or_iff_right (Set.notMem_empty named)

theorem usedKeys_member {id : MemberId} {node : MemberNode} (held : model.member? id = some node) :
    model.usedKeys node.usages = {named | .onMember node.key (.use named) ∈ edits} := by
  have uses : model.usedKeys node.usages = (model.view.member node.key).uses := by
    rw [becomes.formed.view_member held]
    rfl
  have blank : (({} : Model).view.member node.key).uses = ∅ := rfl
  ext named
  rw [uses, becomes.view, View.mem_memberUses_applyAll, blank]
  exact or_iff_right (Set.notMem_empty named)

end Model.Becomes

namespace ModuleDecl

variable {module : ModuleDecl} {options : Options} {traversal : Traversal} {edits : List Edit} {model : Model}

theorem Yields.mem_of_phase (yields : module.Yields options traversal.order edits) {type : TypeDecl}
    (visited : module.Visited options type) {part : Phase} {edit : Edit}
    (member : edit ∈ type.label.phaseEdits options part) :
    edit ∈ edits := by
  obtain ⟨parts, order, whole⟩ := traversal.whole
  have goesThrough : part ∈ traversal.order := order ▸ whole.all part
  exact (yields.mem_edits edit).mpr (.inr ⟨type, visited, List.mem_flatMap.mpr ⟨part, goesThrough, member⟩⟩)

theorem Yields.exists_type (yields : module.Yields options traversal.order edits)
    (becomes : ({} : Model).Becomes model edits) {type : TypeDecl} (visited : module.Visited options type) :
    ∃ id node, model.type? id = some node ∧ node.key = type.label.key := by
  have opened : Edit.ensureType type.label.key ∈ type.label.phaseEdits options .openType := by
    simp [Definition.phaseEdits]
  rw [← becomes.formed.mem_view_types, becomes.view, View.mem_types_applyAll]
  exact .inr ⟨_, yields.mem_of_phase visited opened, rfl⟩

theorem Yields.exists_member (yields : module.Yields options traversal.order edits)
    (admits : ({} : Model).view.Admits edits) (becomes : ({} : Model).Becomes model edits) {type : TypeDecl}
    (visited : module.Visited options type) {part : Phase} {kind : MemberKind} {key : MemberKey}
    (ensured : .ensureMember kind key ∈ type.label.phaseEdits options part) :
    ∃ id node, model.member? id = some node ∧ node.key = key ∧ node.kind = kind := by
  rw [← becomes.formed.view_kinds_eq_some_iff, becomes.view, View.kinds_applyAll admits]
  exact .inr (yields.mem_of_phase visited ensured)

theorem Yields.records_type (yields : module.Yields options traversal.order edits)
    (becomes : ({} : Model).Becomes model edits) {id : TypeId} {node : TypeNode} (held : model.type? id = some node) :
    model.Records node.usages {named | ∃ type, module.Visited options type ∧ type.label.key = node.key ∧
      named ∈ (type.label.namedTypes options).map .type} := by
  have records := Model.records_usedKeys becomes.formed (becomes.formed.type_backed held).usages
  rw [becomes.usedKeys_type held] at records
  exact records.congr (yields.typeUse_iff node.key)

theorem Yields.records_member (yields : module.Yields options traversal.order edits)
    (becomes : ({} : Model).Becomes model edits) {id : MemberId} {node : MemberNode}
    (held : model.member? id = some node) :
    model.Records node.usages (module.namedBy options node.key) := by
  have records := Model.records_usedKeys becomes.formed (becomes.formed.member_backed held).usages
  rw [becomes.usedKeys_member held] at records
  exact records.congr (yields.memberUse_iff node.key)

theorem Yields.accountsFor (yields : module.Yields options traversal.order edits) (distinct : module.HasDistinctTypes)
    (admits : ({} : Model).view.Admits edits) (becomes : ({} : Model).Becomes model edits) :
    module.AccountsFor options model := by
  have formed := becomes.formed
  constructor
  case types =>
    intro type visited
    obtain ⟨id, node, held, named⟩ := yields.exists_type becomes visited
    refine ⟨node, named ▸ formed.find_type held, (yields.records_type becomes held).congr fun key => ?_⟩
    -- no other visited type has this key, so only this declaration counts
    constructor
    · rintro ⟨other, visited', same, member⟩
      rwa [visited.eq_of_key visited' distinct (named.symm.trans same.symm)]
    · exact fun member => ⟨type, visited, named.symm, member⟩
  case declared =>
    intro type visited mention mentioned
    obtain ⟨part, member⟩ := Definition.ensured_of_mention mentioned
    obtain ⟨id, node, held, named, same⟩ := yields.exists_member admits becomes visited member
    exact ⟨node, named ▸ formed.find_member held, same⟩
  case members => exact fun id node held => yields.records_member becomes held
  case otherTypes =>
    intro id node held other
    apply (yields.records_type becomes held).targets_eq_nil
    rintro key ⟨type, visited, same, _⟩
    exact other type visited same
  case otherMembers =>
    intro id node held other
    apply (yields.records_member becomes held).targets_eq_nil
    rintro key ⟨type, visited, mention, mentioned, same, _⟩
    exact other type visited mention mentioned same

end ModuleDecl

/-- After a traversal of a module into an empty model, exactly those usages are there that its declarations name. -/
theorem Builder.visit_accountsFor {module : ModuleDecl} {options : Options} {traversal : Traversal}
    (distinct : module.HasDistinctTypes)
    (ok : (({} : Builder).visit module options traversal .references).result = .ok ()) :
    module.AccountsFor options (({} : Builder).visit module options traversal .references).builder.model := by
  obtain ⟨_, _, edits, yields, admits, becomes⟩ := yields_of_visit_ok Good.empty distinct ok
  exact yields.accountsFor distinct admits becomes

/-- The method that scales a circle uses its parameter's type, the generic argument of it, and the area from
its body. -/
theorem Builder.visit_accountsFor_shapes :
    (({} : Builder).visit .shapes .forPrimary .reflection .references).result = .ok () ∧
      ModuleDecl.shapes.AccountsFor .forPrimary
        (({} : Builder).visit .shapes .forPrimary .reflection .references).builder.model ∧
      ((({} : Builder).visit .shapes .forPrimary .reflection .references).builder.model.findMember?
        ⟨⟨⟨⟨"shapes"⟩, "plane"⟩, "Circle", 0⟩, "scale", none⟩).map (fun node => node.usages.targets) =
          some [.type ⟨2⟩, .type ⟨1⟩, .member ⟨2⟩] := by
  have ok : (({} : Builder).visit .shapes .forPrimary .reflection .references).result = .ok () := by decide +kernel
  exact ⟨ok, visit_accountsFor (by decide +kernel) ok, by decide +kernel⟩

end UsageGraph
