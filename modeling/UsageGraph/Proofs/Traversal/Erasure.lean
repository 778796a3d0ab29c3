import UsageGraph.Proofs.Traversal.Coherence

/-! What the options do not visit has no influence.

A module is cut down to what some options see of it: methods and accessors that are not
allowed are taken out, with all bodies if they are not scanned, and in a secondary visit
with all attributes and data members. A visit under these options cannot tell the two
modules apart, whatever the builder, the scanner and the order of phases are. It takes the
same actions, so it also fails at the same point and leaves the same scopes open.
-/

set_option autoImplicit false
namespace UsageGraph

namespace Tree

variable {α β : Type}

mutual

def map (change : α → β) : Tree α → Tree β
  | .node label children => .node (change label) (mapForest change children)

def mapForest (change : α → β) : List (Tree α) → List (Tree β)
  | [] => []
  | tree :: rest => tree.map change :: mapForest change rest

end

variable (change : α → β)

@[simp] theorem label_map (tree : Tree α) : (tree.map change).label = change tree.label := by
  cases tree
  simp only [map, label]

theorem mapForest_eq_map (forest : List (Tree α)) : mapForest change forest = forest.map (map change) := by
  induction forest with
  | nil => simp only [mapForest, List.map_nil]
  | cons tree rest ih => simp only [mapForest, ih, List.map_cons]

theorem children_map (tree : Tree α) : (tree.map change).children = tree.children.map (map change) := by
  cases tree
  simp only [map, children, mapForest_eq_map]

mutual

theorem subtrees_map : (tree : Tree α) → (tree.map change).subtrees = tree.subtrees.map (map change)
  | .node label children => by
    have below := forestSubtrees_mapForest children
    simp only [map, subtrees, below, List.map_cons]

theorem forestSubtrees_mapForest : (forest : List (Tree α)) →
    forestSubtrees (mapForest change forest) = (forestSubtrees forest).map (map change)
  | [] => by simp only [mapForest, forestSubtrees, List.map_nil]
  | tree :: rest => by
    have first := subtrees_map tree
    have others := forestSubtrees_mapForest rest
    simp only [mapForest, forestSubtrees, first, others, List.map_append]

end

end Tree

namespace Options

variable (options : Options)

def ifPrimary {α : Type} (items : List α) : List α := if options.primary then items else []

theorem ifPrimary_eq_nil {α : Type} (secondary : options.primary = false) (items : List α) :
    options.ifPrimary items = [] := by
  simp only [ifPrimary, secondary, Bool.false_eq_true, if_false]

theorem mem_of_mem_ifPrimary {α : Type} {items : List α} {item : α} (member : item ∈ options.ifPrimary items) :
    item ∈ items := by
  unfold ifPrimary at member
  split at member
  · exact member
  · cases member

end Options

/-- The method without its body, if bodies are not scanned, and without its attributes in a secondary visit. -/
def MethodDecl.seenBy (options : Options) (method : MethodDecl) : MethodDecl :=
  { method with
    attributes := options.ifPrimary method.attributes
    body := if options.scansBodies then method.body else none }

def Options.seenMethods (options : Options) (methods : List MethodDecl) : List MethodDecl :=
  (methods.filter fun method => options.visitsMethod method.key).map (MethodDecl.seenBy options)

def Options.seenAccessor (options : Options) (accessor : Option MethodDecl) : Option MethodDecl :=
  (accessor.filter fun method => options.visitsMethod method.key).map (MethodDecl.seenBy options)

def PropertyDecl.seenBy (options : Options) (property : PropertyDecl) : PropertyDecl :=
  { property with
    getter := options.seenAccessor property.getter
    setter := options.seenAccessor property.setter }

def EventDecl.seenBy (options : Options) (event : EventDecl) : EventDecl :=
  { event with
    adder := options.seenAccessor event.adder
    remover := options.seenAccessor event.remover }

def Definition.seenBy (options : Options) (definition : Definition) : Definition :=
  { definition with
    attributes := options.ifPrimary definition.attributes
    fields := options.ifPrimary definition.fields
    properties := options.ifPrimary (definition.properties.map (PropertyDecl.seenBy options))
    events := options.ifPrimary (definition.events.map (EventDecl.seenBy options))
    constructors := options.seenMethods definition.constructors
    methods := options.seenMethods definition.methods }

/-- The module as far as the options see it, at every level of nesting. -/
def ModuleDecl.seenBy (options : Options) (module : ModuleDecl) : ModuleDecl :=
  { module with types := Tree.mapForest (Definition.seenBy options) module.types }

/-- A type declares nothing that the options do not visit. -/
structure Definition.Bare (options : Options) (definition : Definition) : Prop where
  allowed : ∀ method ∈ definition.allMethods, options.visitsMethod method.key
  bodies : options.scansBodies = false → ∀ method ∈ definition.allMethods, method.body = none
  methodAttributes : options.primary = false → ∀ method ∈ definition.allMethods, method.attributes = []
  attributes : options.primary = false → definition.attributes = []
  data : options.primary = false → definition.fields = [] ∧ definition.properties = [] ∧ definition.events = []

namespace Options

variable (options : Options)

@[simp] theorem toList_seenAccessor (accessor : Option MethodDecl) :
    (options.seenAccessor accessor).toList = options.seenMethods accessor.toList := by
  rw [seenAccessor, seenMethods, Option.toList_map, Option.toList_filter]

theorem of_mem_seenMethods {methods : List MethodDecl} {seen : MethodDecl}
    (member : seen ∈ options.seenMethods methods) :
    options.visitsMethod seen.key = true ∧ ∃ method : MethodDecl, seen = method.seenBy options := by
  obtain ⟨method, kept, rfl⟩ := List.mem_map.mp member
  exact ⟨(List.mem_filter.mp kept).2, method, rfl⟩

end Options

namespace Definition

variable (options : Options) (definition : Definition)

theorem of_mem_allMethods {seen : MethodDecl} (member : seen ∈ (definition.seenBy options).allMethods) :
    options.visitsMethod seen.key = true ∧ ∃ method : MethodDecl, seen = method.seenBy options := by
  simp only [allMethods, accessors, List.mem_append, List.mem_flatMap] at member
  rcases member with (constructor | method) | ⟨property, kept, accessor⟩ | ⟨event, kept, accessor⟩
  · exact options.of_mem_seenMethods constructor
  · exact options.of_mem_seenMethods method
  · obtain ⟨declared, _, rfl⟩ := List.mem_map.mp (options.mem_of_mem_ifPrimary kept)
    simp only [PropertyDecl.seenBy, Options.toList_seenAccessor] at accessor
    exact accessor.elim options.of_mem_seenMethods options.of_mem_seenMethods
  · obtain ⟨declared, _, rfl⟩ := List.mem_map.mp (options.mem_of_mem_ifPrimary kept)
    simp only [EventDecl.seenBy, Options.toList_seenAccessor] at accessor
    exact accessor.elim options.of_mem_seenMethods options.of_mem_seenMethods

theorem bare_seenBy : (definition.seenBy options).Bare options where
  allowed method member := (definition.of_mem_allMethods options member).1
  bodies unscanned method member := by
    obtain ⟨_, declared, rfl⟩ := definition.of_mem_allMethods options member
    simp only [MethodDecl.seenBy, unscanned, Bool.false_eq_true, if_false]
  methodAttributes secondary method member := by
    obtain ⟨_, declared, rfl⟩ := definition.of_mem_allMethods options member
    exact options.ifPrimary_eq_nil secondary declared.attributes
  attributes secondary := options.ifPrimary_eq_nil secondary definition.attributes
  data secondary :=
    ⟨options.ifPrimary_eq_nil secondary _, options.ifPrimary_eq_nil secondary _, options.ifPrimary_eq_nil secondary _⟩

end Definition

namespace ModuleDecl

variable (options : Options) (module : ModuleDecl)

theorem declaredTypes_seenBy :
    (module.seenBy options).declaredTypes = module.declaredTypes.map (Tree.map (Definition.seenBy options)) :=
  Tree.forestSubtrees_mapForest _ module.types

theorem bare_of_mem_declaredTypes {type : TypeDecl} (member : type ∈ (module.seenBy options).declaredTypes) :
    type.label.Bare options := by
  rw [declaredTypes_seenBy] at member
  obtain ⟨declared, _, rfl⟩ := List.mem_map.mp member
  rw [Tree.label_map]
  exact declared.label.bare_seenBy options

theorem supertypesOf_seenBy (definition : Definition) :
    (module.seenBy options).supertypesOf (definition.seenBy options) =
      (module.supertypesOf definition).map (Tree.map (Definition.seenBy options)) := by
  -- keys stay, so the supertypes of a type are found where they were
  have found (key : TypeKey) :
      (module.seenBy options).find? key = (module.find? key).map (Tree.map (Definition.seenBy options)) := by
    simp only [find?, declaredTypes_seenBy, ← List.map_reverse, List.find?_map]
    congr 2
    funext type
    simp only [Function.comp_apply, Tree.label_map]
    rfl
  simp only [supertypesOf, found, List.map_filterMap]
  rfl

theorem depthBound_seenBy : (module.seenBy options).depthBound = module.depthBound := by
  simp only [depthBound, declaredTypes_seenBy, List.length_map]

end ModuleDecl

/-! ## Visits do not tell the difference -/

namespace Visit

variable (options : Options)

theorem attributes_ifPrimary (keys : List TypeKey) :
    attributes options (options.ifPrimary keys) = attributes options keys := by
  cases primary : options.primary with
  | true => simp only [attributes, Options.ifPrimary, primary, if_true]
  | false => simp only [attributes, primary, Bool.false_eq_true, if_false]

theorem body_seenBy (declared : MethodDecl) : body options (declared.seenBy options) = body options declared := by
  cases scans : options.scansBodies with
  | true => simp only [body, MethodDecl.seenBy, scans, if_true]
  | false => simp only [body, scans, Bool.false_eq_true, if_false]

theorem method_seenBy (declared : MethodDecl) : method options (declared.seenBy options) = method options declared := by
  have attributes := attributes_ifPrimary options declared.attributes
  have body := body_seenBy options declared
  simp only [method, body]
  simp only [MethodDecl.seenBy, attributes]

theorem method_of_forbidden {declared : MethodDecl} (forbidden : options.visitsMethod declared.key = false) :
    method options declared = pure false := by
  simp only [method, forbidden, Bool.false_eq_true, if_false]

/-- Methods that are passed over anyway can be taken out beforehand. -/
theorem forM_seenMethods {visit : MethodDecl → Visit Unit}
    (passes : ∀ declared : MethodDecl, options.visitsMethod declared.key = false → visit declared = pure ())
    (same : ∀ declared : MethodDecl, visit (declared.seenBy options) = visit declared) (methods : List MethodDecl) :
    (options.seenMethods methods).forM visit = methods.forM visit := by
  induction methods with
  | nil => rfl
  | cons declared rest ih =>
    simp only [Options.seenMethods, List.forM_eq_forM] at ih ⊢
    cases allowed : options.visitsMethod declared.key with
    | true => simp only [List.filter_cons, allowed, if_true, List.map_cons, List.forM_cons, same, ih]
    | false =>
      simp only [List.filter_cons, allowed, Bool.false_eq_true, if_false, List.forM_cons, passes declared allowed,
        pure_bind, ih]

theorem accessors_seen (owner : MemberKey) (slot : Slot) (declared : Option MethodDecl) :
    (options.seenAccessor declared).toList.forM (accessor options owner slot) =
      declared.toList.forM (accessor options owner slot) := by
  rw [options.toList_seenAccessor]
  refine forM_seenMethods options ?_ ?_ declared.toList
  · -- an accessor that is passed over is not linked either
    intro declared forbidden
    simp only [accessor, method_of_forbidden options forbidden, pure_bind, Bool.false_eq_true, if_false]
  · intro declared
    simp only [accessor, method_seenBy]
    rfl

theorem property_seenBy (declared : PropertyDecl) :
    property options (declared.seenBy options) = property options declared := by
  simp only [property, PropertyDecl.seenBy, accessors_seen]

theorem event_seenBy (declared : EventDecl) : event options (declared.seenBy options) = event options declared := by
  simp only [event, EventDecl.seenBy, accessors_seen]

theorem dataMembers_seenBy (definition : Definition) :
    dataMembers options (definition.seenBy options) = dataMembers options definition := by
  cases primary : options.primary with
  | true =>
    simp only [dataMembers, Definition.seenBy, Options.ifPrimary, primary, if_true, List.forM_eq_forM, List.forM_map,
      property_seenBy, event_seenBy]
  | false => simp only [dataMembers, primary, Bool.false_eq_true, if_false]

theorem methods_seenBy (definition : Definition) :
    methods options (definition.seenBy options) = methods options definition := by
  have constructors : (options.seenMethods definition.constructors).forM
        (fun declared => discard (method options declared.asConstructor)) =
      definition.constructors.forM fun declared => discard (method options declared.asConstructor) := by
    refine forM_seenMethods options ?_ ?_ definition.constructors
    · intro declared forbidden
      have passed : method options declared.asConstructor = pure false := method_of_forbidden options forbidden
      rw [passed]
      rfl
    · -- marking a method as a constructor concerns none of what is taken out
      exact fun declared => congrArg discard (method_seenBy options declared.asConstructor)
  have others : (options.seenMethods definition.methods).forM (fun declared => discard (method options declared)) =
      definition.methods.forM fun declared => discard (method options declared) := by
    refine forM_seenMethods options ?_ ?_ definition.methods
    · intro declared forbidden
      rw [method_of_forbidden options forbidden]
      rfl
    · exact fun declared => congrArg discard (method_seenBy options declared)
  simp only [methods, Definition.seenBy, constructors, others]

section Types

variable (module : ModuleDecl) {visit visit' : TypeDecl → Visit Unit}
  (same : ∀ type, visit' (type.map (Definition.seenBy options)) = visit type)
include same

theorem phase_seenBy (declared : TypeDecl) (phase : Phase) :
    Visit.phase (module.seenBy options) options visit' (declared.map (Definition.seenBy options)) phase =
      Visit.phase module options visit declared phase := by
  have each (types : List TypeDecl) :
      (types.map (Tree.map (Definition.seenBy options))).forM visit' = types.forM visit := by
    simp only [List.forM_eq_forM, List.forM_map, same]
  cases phase with
  | supertypes =>
    simp only [Visit.phase, Tree.label_map, ModuleDecl.supertypesOf_seenBy, List.map_map, each]
    congr 4
    funext supertype
    simp only [Function.comp_apply, Tree.label_map]
    rfl
  | nested => simp only [Visit.phase, Tree.children_map, each]
  | dataMembers => simp only [Visit.phase, Tree.label_map, dataMembers_seenBy]
  | methods => simp only [Visit.phase, Tree.label_map, methods_seenBy]
  | attributes =>
    have seen := attributes_ifPrimary options declared.label.attributes
    simp only [Visit.phase, Tree.label_map]
    simp only [Definition.seenBy, seen]
  | closeType => rfl
  | claim | openType | interfaces | generics | base | complete =>
    -- these look at parts of a type that are left as they are
    simp only [Visit.phase, Tree.label_map]
    rfl

theorem phases_seenBy (declared : TypeDecl) (order : Order) :
    phases (module.seenBy options) options visit' (declared.map (Definition.seenBy options)) order =
      phases module options visit declared order := by
  induction order with
  | nil => rfl
  | cons first rest ih => simp only [phases, phase_seenBy options module same, ih]

end Types

theorem type_seenBy (module : ModuleDecl) (order : Order) (depth : Nat) (declared : TypeDecl) :
    type (module.seenBy options) options order depth (declared.map (Definition.seenBy options)) =
      type module options order depth declared := by
  induction depth generalizing declared with
  | zero => rfl
  | succ depth ih =>
    simp only [type]
    exact phases_seenBy options module ih declared order

theorem module_seenBy (module : ModuleDecl) (order : Order) :
    Visit.module (module.seenBy options) options order = Visit.module module options order := by
  have types : (module.seenBy options).types = module.types.map (Tree.map (Definition.seenBy options)) :=
    Tree.mapForest_eq_map _ module.types
  have key : (module.seenBy options).key = module.key := rfl
  simp only [Visit.module, key, types, ModuleDecl.depthBound_seenBy, List.forM_eq_forM, List.forM_map, type_seenBy]

end Visit

/-- A visit is the same, in its result, the builder it leaves and its course, if everything that the options do not
visit is taken out of the module beforehand. -/
theorem Builder.visitInOrder_seenBy (builder : Builder) (module : ModuleDecl) (options : Options) (order : Order)
    (scanner : Scanner) :
    builder.visitInOrder (module.seenBy options) options order scanner =
        builder.visitInOrder module options order scanner ∧
      ∀ type ∈ (module.seenBy options).declaredTypes, type.label.Bare options := by
  refine ⟨?_, fun type member => module.bare_of_mem_declaredTypes options member⟩
  simp only [visitInOrder, ModuleDecl.script, Visit.module_seenBy]

end UsageGraph
