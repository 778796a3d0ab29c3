import Mathlib.Order.Bounds.Defs
import UsageGraph.Proofs.Traversal.Agreement
import UsageGraph.Proofs.Traversal.Coherence
import UsageGraph.Proofs.View.Subsumption

/-! Which types a traversal opens, and how often.

A type can be met as a supertype, as a nested type or at the top of the module, and it is
passed over while it is in progress. Still every type that the options let a traversal come
to is opened, and only once. The openings are counted among the edits, where those of each
type stand together with what else is said about it.
-/

set_option autoImplicit false
namespace UsageGraph

variable {α : Type}

/-- The actions of a script that go through, up to the first one that fails. -/
def Script.performed (scanner : Scanner) : Script α → Builder → List Action
  | .done _, _ => []
  | .act action rest, builder =>
    match action.perform scanner builder with
    | (.ok _, after) => action :: (rest ()).performed scanner after
    | (.error _, _) => []

theorem Script.performed_eq_actions {scanner : Scanner} {script : Script α} {builder : Builder} {answer : α}
    (ok : (script.run scanner builder).result = .ok answer) : script.performed scanner builder = script.actions := by
  induction script generalizing builder with
  | done => rfl
  | act action rest ih =>
    unfold run at ok
    unfold performed actions
    generalize action.perform scanner builder = ended at ok ⊢
    obtain ⟨result, after⟩ := ended
    cases result with
    | error fault => cases ok
    | ok entries => exact congrArg (action :: ·) (ih () ok)

def Op.startedType? : Op → Option TypeKey
  | .startType key _ => some key
  | _ => none

def Action.startedType? : Action → Option TypeKey
  | .op step => step.startedType?
  | .scan _ => none
  | .note _ => none

/-- The types that a visit opens, one entry for each time. -/
def Builder.startedTypes (builder : Builder) (module : ModuleDecl) (options : Options) (order : Order)
    (scanner : Scanner) : List TypeKey :=
  ((module.script options order).performed scanner builder).filterMap Action.startedType?

theorem Script.startedTypes_eq (script : Script α) :
    script.actions.filterMap Action.startedType? = script.ops.filterMap Op.startedType? := by
  unfold ops
  induction script.actions with
  | nil => rfl
  | cons action rest ih =>
    have first : action.ops.filterMap Op.startedType? = action.startedType?.toList := by
      cases action with
      | op step => cases started : step.startedType? <;> simp [Action.ops, Action.startedType?, started]
      | scan body =>
        -- references are recorded without opening anything
        induction body with
        | nil => rfl
        | cons key rest ih => exact ih
      | note entry => rfl
    rw [List.flatMap_cons, List.filterMap_append, first, ← ih]
    cases started : action.startedType? <;> simp [started]

def Edit.openedType? : Edit → Option TypeKey
  | .onType key change => change.opened?.map fun _ => key
  | _ => none

@[simp] theorem Edit.openedType?_use (holder target : NodeKey) : (Edit.use holder target).openedType? = none := by
  cases holder <;> rfl

@[simp] theorem Edit.openedType?_attributed (holder : NodeKey) (type : TypeKey) :
    (Edit.attributed holder type).openedType? = none := by
  cases holder <;> rfl

@[simp] theorem Edit.openedType?_ensureType (key : TypeKey) : (Edit.ensureType key).openedType? = none := rfl

@[simp] theorem Edit.openedType?_ensureNode (key : NodeKey) : (Edit.ensureNode key).openedType? = none := by
  cases key <;> rfl

theorem Op.openedTypes_track {op : Op} {stack left : Stack} {edits : List Edit}
    (tracked : op.track stack = .ok (edits, left)) :
    edits.filterMap Edit.openedType? = op.startedType?.toList := by
  cases op with
  | setAccessor slot owner accessor =>
    cases tracked
    rfl
  | startAssembly | startSpace | startType | startMethod | startField | startProperty | startEvent | close
  | setTypeFlags | setBaseType | addInterface | setMethodFlags | setFieldType | setPropertyType | setEventType =>
    obtain ⟨_, _, same⟩ := exists_of_map_ok tracked
    cases same
    rfl
  | setPrototype returns parameters =>
    obtain ⟨key, _, same⟩ := exists_of_map_ok tracked
    cases same
    -- the types of a prototype are ensured only
    have silent : ∀ keys : List TypeKey, (keys.map Edit.ensureType).filterMap Edit.openedType? = [] := by
      intro keys
      induction keys with
      | nil => rfl
      | cons key rest ih => exact ih
    rw [List.filterMap_append, List.filterMap_append, silent, silent]
    rfl
  | useType | useNode | addAttribute =>
    obtain ⟨holder, _, same⟩ := exists_of_map_ok tracked
    cases same
    simp [Op.startedType?]

theorem Op.openedTypes_trackAll {ops : List Op} {stack left : Stack} {edits : List Edit}
    (tracked : Op.trackAll ops stack = some (edits, left)) :
    edits.filterMap Edit.openedType? = ops.filterMap Op.startedType? := by
  induction ops generalizing stack edits with
  | nil =>
    cases tracked
    rfl
  | cons op rest ih =>
    unfold trackAll at tracked
    split at tracked
    next made middle ended =>
      obtain ⟨⟨later, _⟩, went_on, same⟩ := Option.map_eq_some_iff.mp tracked
      cases same
      rw [List.filterMap_append, openedTypes_track ended, ih went_on]
      cases started : op.startedType? <;> simp [started]
    next => cases tracked

/-- How often a type is opened can be read off the changes of this type. -/
theorem Edit.count_openedTypes (key : TypeKey) (edits : List Edit) :
    (edits.filterMap openedType?).count key = ((typeChanges key edits).filterMap TypeChange.opened?).length := by
  induction edits with
  | nil => rfl
  | cons edit rest ih =>
    cases edit with
    | onType changed change =>
      have opens : (Edit.onType changed change).openedType? = change.opened?.map fun _ => changed := rfl
      -- an opening of the type is counted on both sides, and no other change on either
      by_cases here : changed = key
      · have first : typeChanges key (.onType changed change :: rest) = change :: typeChanges key rest := by
          simp [typeChanges, typeChange?, here]
        rw [first]
        cases opened : change.opened? with
        | none => rw [List.filterMap_cons_none (by simp [opens, opened]), List.filterMap_cons_none opened, ih]
        | some signatureOnly =>
          rw [opened] at opens
          rw [List.filterMap_cons_some opens, List.filterMap_cons_some opened, here, List.count_cons_self, ih,
            List.length_cons]
      · have first : typeChanges key (.onType changed change :: rest) = typeChanges key rest := by
          simp [typeChanges, typeChange?, here]
        rw [first, ← ih]
        cases opened : change.opened? with
        | none => rw [List.filterMap_cons_none (by simp [opens, opened])]
        | some signatureOnly =>
          rw [opened] at opens
          rw [List.filterMap_cons_some opens, List.count_cons_of_ne here]
    | ensureAssembly | ensureSpace | ensureType | ensureMember | openAssembly | onMember => exact ih

namespace Definition

variable {options : Options} {definition : Definition}

theorem opened_phaseChanges {part : Phase} (other : part ≠ .openType)
    (member : part ∈ [Phase.openType, .interfaces, .generics, .attributes, .base]) :
    (definition.phaseChanges options part).filterMap TypeChange.opened? = [] := by
  rw [List.filterMap_eq_nil_iff]
  intro change made
  cases part with
  | openType => exact absurd rfl other
  | interfaces =>
    rcases change_interfaces options definition made with ⟨implemented, rfl⟩ | ⟨target, rfl⟩
    · rfl
    · rfl
  | generics =>
    obtain ⟨target, rfl⟩ := change_generics options definition made
    rfl
  | attributes =>
    rcases change_attributes options definition made with ⟨carried, rfl⟩ | ⟨target, rfl⟩
    · rfl
    · rfl
  | base =>
    rcases change_base options definition made with ⟨extended, rfl⟩ | ⟨target, rfl⟩
    · rfl
    · rfl
  | claim | supertypes | dataMembers | methods | nested | closeType | complete => simp at member

theorem opened_edits {assembly : AssemblyKey} (fits : definition.Fits assembly options) (traversal : Traversal) :
    (Edit.typeChanges definition.key (definition.edits options traversal.order)).filterMap TypeChange.opened? =
      [!options.primary] := by
  have opens : (definition.phaseChanges options .openType).filterMap TypeChange.opened? = [!options.primary] := by
    simp [phaseChanges, phaseEdits, Edit.typeChanges, List.filterMap_cons, Edit.typeChange?, TypeChange.opened?]
  have silent : ∀ part ∈ [Phase.interfaces, .generics, .attributes, .base],
      (definition.phaseChanges options part).filterMap TypeChange.opened? = [] := by
    intro part member
    refine opened_phaseChanges ?_ (List.mem_cons_of_mem _ member)
    rintro rfl
    simp at member
  rw [typeChanges_edits fits, List.filterMap_flatMap]
  cases traversal <;> simp [Traversal.order, opens, silent]

end Definition

/-! ## The types that a traversal comes to -/

namespace Tree

variable {holds : Tree α → Prop}

mutual

theorem forall_subtrees (down : ∀ {tree child : Tree α}, holds tree → child ∈ tree.children → holds child) :
    (tree : Tree α) → holds tree → ∀ found ∈ tree.subtrees, holds found
  | .node label children, here, found, member => by
    rw [subtrees] at member
    rcases List.mem_cons.mp member with rfl | below
    · exact here
    · exact forall_forestSubtrees down children (fun child named => down here named) found below

theorem forall_forestSubtrees (down : ∀ {tree child : Tree α}, holds tree → child ∈ tree.children → holds child) :
    (forest : List (Tree α)) → (∀ tree ∈ forest, holds tree) → ∀ found ∈ forestSubtrees forest, holds found
  | [], _, _, member => by simp [forestSubtrees] at member
  | tree :: rest, each, found, member => by
    rw [forestSubtrees] at member
    rcases List.mem_append.mp member with below | member
    · exact forall_subtrees down tree (each tree List.mem_cons_self) found below
    · exact forall_forestSubtrees down rest (fun other named => each other (List.mem_cons_of_mem _ named)) found member

end

end Tree

namespace ModuleDecl

variable {module : ModuleDecl} {options : Options}

/-- A set of types that has what the options allow of the module's top and of all that its own types lead to: the
types nested in them, and their bases and interfaces in the module. -/
structure ClosedUnderVisits (module : ModuleDecl) (options : Options) (types : Set TypeDecl) : Prop where
  top : ∀ type ∈ module.types, options.visitsType type.label.key = true → type ∈ types
  nested : ∀ type ∈ types, ∀ child ∈ type.children, options.visitsType child.label.key = true → child ∈ types
  supertypes : ∀ type ∈ types, ∀ supertype ∈ module.supertypesOf type.label,
    options.visitsType supertype.label.key = true → supertype ∈ types

theorem isLeast_visited (module : ModuleDecl) (options : Options) :
    IsLeast {types | module.ClosedUnderVisits options types} {type | module.Visited options type} := by
  constructor
  · constructor
    · exact fun type member allowed => .start member allowed
    · exact fun type led child member allowed => .next led (List.mem_append_right _ member) allowed
    · exact fun type led supertype member allowed => .next led (List.mem_append_left _ member) allowed
  · intro types closed type led
    induction led with
    | start member allowed => exact closed.top _ member allowed
    | next led member allowed ih =>
      rcases List.mem_append.mp member with supertype | child
      · exact closed.supertypes _ ih _ supertype allowed
      · exact closed.nested _ ih _ child allowed

theorem visited_iff_declared (everyType : options.types = none) (type : TypeDecl) :
    module.Visited options type ↔ type ∈ module.declaredTypes := by
  have allowed := Options.visitsType_of_none everyType
  constructor
  · exact Visited.declared
  · intro declared
    apply Tree.forall_forestSubtrees _ module.types _ type declared
    · exact fun led child => .next led (List.mem_append_right _ child) (allowed _)
    · exact fun start member => .start member (allowed _)

end ModuleDecl

namespace Builder

variable {builder : Builder} {module : ModuleDecl} {options : Options}

theorem startedTypes_eq_of_ok (good : builder.Good) {order : Order}
    (ok : (builder.visitInOrder module options order .references).result = .ok ()) :
    ∃ course, (Visit.module module options order).outline (.start options.maxDepth) builder.stack = some course ∧
      builder.startedTypes module options order .references = course.edits.filterMap Edit.openedType? := by
  -- a traversal that succeeds has performed the steps of its outline
  obtain ⟨course, outlined, _⟩ := (visitInOrder_ok_iff good module options order).mp ok
  refine ⟨course, outlined, ?_⟩
  have ended : ∃ answer, ((module.script options order).run .references builder).result = .ok answer := by
    unfold visitInOrder at ok
    cases result : ((module.script options order).run .references builder).result with
    | error fault => simp [result, Except.bind] at ok
    | ok answer => exact ⟨answer, rfl⟩
  obtain ⟨answer, ended⟩ := ended
  rw [startedTypes, Script.performed_eq_actions ended, Script.startedTypes_eq, ModuleDecl.script, Script.ops_map]
  unfold Visit.outline at outlined
  split at outlined
  · cases outlined
  · obtain ⟨⟨edits, left⟩, tracked, rfl⟩ := Option.map_eq_some_iff.mp outlined
    exact (Op.openedTypes_trackAll tracked).symm

end Builder

end UsageGraph
