import UsageGraph.Proofs.Builder.Nesting
import UsageGraph.Proofs.Traversal.Visits

/-! Traversals of a whole module.

The types of a module that have different keys can be told apart by what has been
completed. So a traversal visits exactly the types that the module leads to, each once,
whatever the order of its phases, and what it says is what these types say.
-/

set_option autoImplicit false
namespace UsageGraph

namespace ModuleDecl

def HasDistinctTypes (module : ModuleDecl) : Prop := (module.declaredTypes.map fun type => type.label.key).Nodup

instance (module : ModuleDecl) : Decidable module.HasDistinctTypes :=
  inferInstanceAs (Decidable (module.declaredTypes.map fun type => type.label.key).Nodup)

def openingEdits (module : ModuleDecl) (options : Options) : List Edit :=
  [.ensureAssembly module.key, .openAssembly module.key (!options.primary)]

variable {module : ModuleDecl} {options : Options} {order : Order}

theorem length_declaredTypes_lt_depthBound (module : ModuleDecl) : module.declaredTypes.length < module.depthBound := by
  unfold depthBound
  generalize module.declaredTypes.length = types
  calc types < types + 2 := by omega
    _ ≤ (types + 2) * (types + 2) := Nat.le_mul_self _
    _ ≤ (types + 2) * (types + 2) * (types + 2) := Nat.le_mul_of_pos_right _ (by omega)

theorem Visited.declared {type : TypeDecl} (visited : module.Visited options type) : type ∈ module.declaredTypes :=
  LeadsTo.declared visited fun _ member => mem_declaredTypes_of_mem_types member

theorem Visited.eq_of_key {type other : TypeDecl} (visited : module.Visited options type)
    (visited' : module.Visited options other) (distinct : module.HasDistinctTypes)
    (same : type.label.key = other.label.key) :
    type = other :=
  List.inj_on_of_nodup_map distinct visited.declared visited'.declared same

theorem mem_visited_iff {after : Walk} {limit : Nat} {visited : List TypeDecl} {edits : List Edit}
    (distinct : module.HasDistinctTypes)
    (covers : Covers module options order (.start limit) module.types after visited edits)
    (type : TypeDecl) : type ∈ visited ↔ module.Visited options type := by
  -- nothing is in progress at the start, so a type that is settled at the end was visited on the way
  have of_completed : ∀ {type : TypeDecl}, module.Visited options type →
      type.label.key ∈ after.completed ∨ type.label.key ∈ (Walk.start limit).definitions.stack → type ∈ visited := by
    intro type led completed
    have named := ((covers.completed _).mp (completed.resolve_right List.not_mem_nil)).resolve_left List.not_mem_nil
    obtain ⟨found, member, same⟩ := List.mem_map.mp named
    rwa [led.eq_of_key (covers.led found member) distinct same.symm]
  constructor
  · exact covers.led type
  · intro led
    induction led with
    | start member allowed => exact of_completed (.start member allowed) (covers.started _ member allowed)
    | next led member allowed ih => exact of_completed (.next led member allowed) (covers.closed _ ih _ member allowed)

end ModuleDecl

/-- A circle with a part of its own, declared before the shape that it extends. -/
def ModuleDecl.shapes : ModuleDecl :=
  let plane : NamespaceKey := ⟨⟨"shapes"⟩, "plane"⟩
  let core : NamespaceKey := ⟨⟨"system"⟩, "core"⟩
  let real : TypeKey := { space := core, name := "Real" }
  let sequence : TypeKey := { space := core, name := "Sequence", arity := 1 }
  let circle : TypeKey := { space := plane, name := "Circle" }
  let shape : TypeKey := { space := plane, name := "Shape" }
  let area : MemberKey := { owner := shape, name := "area" }
  let part : Definition := { key := { space := plane, name := "Circle/Part" }, base := some (.leaf circle) }
  { key := plane.assembly
    types := [
      .node {
        key := circle
        base := some (.leaf shape)
        interfaces := [.node sequence [.leaf part.key]]
        attributes := [{ space := core, name := "Sealed" }]
        fields := [{ key := { owner := circle, name := "radius" }, type := .leaf real }]
        methods := [{
          key := { owner := circle, name := "scale" }
          parameters := [.node sequence [.leaf real]]
          body := some [.member .method area] }] } [.leaf part],
      .leaf { key := shape, isAbstract := true, methods := [{ key := area, returns := some (.leaf real) }] }] }

/-- A shape with a method that is declared twice, an accessor that is listed as a method too, and another draft of
the same shape. -/
def ModuleDecl.drafts : ModuleDecl :=
  let plane : NamespaceKey := ⟨⟨"shapes"⟩, "plane"⟩
  let real : TypeKey := { space := ⟨⟨"system"⟩, "core"⟩, name := "Real" }
  let shape : TypeKey := { space := plane, name := "Shape" }
  let area : MemberKey := { owner := shape, name := "area" }
  let getSide : MethodDecl := { key := { owner := shape, name := "get_side" }, returns := some (.leaf real) }
  { key := plane.assembly
    types := [
      .node {
        key := shape
        isAbstract := true
        attributes := [real, shape, real]
        properties := [{ key := { owner := shape, name := "side" }, type := .leaf real, getter := some getSide }]
        methods := [
          { key := area, returns := some (.leaf real), body := some [.member .method getSide.key] },
          { key := area, parameters := [.leaf shape], flags := { isStatic := true }, body := some [.type shape] },
          { getSide with returns := none }] } [],
      .leaf { key := shape, base := some (.leaf real) }] }

/-- The edits of a traversal in terms of the types that the module leads to. -/
structure ModuleDecl.Yields (module : ModuleDecl) (options : Options) (order : Order) (edits : List Edit) : Prop where
  mem_edits : ∀ edit, edit ∈ edits ↔
    edit ∈ module.openingEdits options ∨ ∃ type, module.Visited options type ∧ edit ∈ type.label.edits options order
  about_visited : ∀ {type : TypeDecl}, module.Visited options type →
    Edit.about type.label.key edits = Edit.about type.label.key (type.label.edits options order)
  about_other : ∀ {key : TypeKey}, (∀ type, module.Visited options type → type.label.key ≠ key) →
    Edit.about key edits = []

section Covers

variable {module : ModuleDecl} {options : Options} {order : Order} {before after : Walk}
    {starts visited : List TypeDecl}
  {edits : List Edit}

theorem Covers.about_of_mem (covers : Covers module options order before starts after visited edits) {type : TypeDecl}
    (member : type ∈ visited) :
    Edit.about type.label.key edits = Edit.about type.label.key (type.label.edits options order) := by
  rw [covers.about]
  have distinct := covers.distinct
  have fits := covers.fits
  -- the types before and after this one have other keys, so they say nothing about it
  obtain ⟨earlier, later, rfl⟩ := List.append_of_mem member
  simp only [List.map_append, List.map_cons, List.nodup_append, List.nodup_cons] at distinct
  obtain ⟨_, ⟨absent, _⟩, apart⟩ := distinct
  have none_earlier : ∀ other ∈ earlier, other.label.key ≠ type.label.key :=
    fun other named => apart _ (List.mem_map_of_mem named) _ List.mem_cons_self
  have none_later : ∀ other ∈ later, other.label.key ≠ type.label.key :=
    fun other named same => absent (List.mem_map.mpr ⟨other, named, same⟩)
  rw [List.flatMap_append, List.flatMap_cons,
    about_others (fun other named => fits other (by simp [named])) none_earlier,
    about_others (fun other named => fits other (by simp [named])) none_later, List.nil_append, List.append_nil]

theorem Covers.yields {limit : Nat} (distinct : module.HasDistinctTypes)
    (covers : Covers module options order (.start limit) module.types after visited edits) :
    module.Yields options order (module.openingEdits options ++ edits) := by
  have opening : ∀ key, Edit.about key (module.openingEdits options) = [] := fun key => rfl
  constructor
  · intro edit
    simp only [List.mem_append, covers.mem_edits, ModuleDecl.mem_visited_iff distinct covers]
  · intro type led
    rw [Edit.about_append, opening, List.nil_append]
    exact covers.about_of_mem ((ModuleDecl.mem_visited_iff distinct covers type).mpr led)
  · intro key absent
    rw [Edit.about_append, opening, List.nil_append, covers.about]
    exact about_others covers.fits fun type member => absent type (covers.led type member)

end Covers

namespace Visit

theorem startAssembly_traces (module : ModuleDecl) (options : Options) (walk : Walk) (stack : Stack) :
    (step (.startAssembly module.key (!options.primary))).Traces walk stack (.assembly module.key :: stack)
      (stack = []) ()
      (module.openingEdits options) := by
  refine step_traces_if walk ?_ ?_
  · rintro rfl
    rfl
  · intro open_scope
    cases stack with
    | nil => exact absurd rfl open_scope
    | cons opening outer => cases opening <;> exact ⟨_, rfl⟩

variable {module : ModuleDecl} {options : Options} {order : Order} {walk : Walk}

theorem outline_of_module {stack : Stack} {course : Course Unit}
    (outlined : (Visit.module module options order).outline walk stack = some course) :
    stack = [] ∧ ∃ begun closed,
      (module.types.forM (type module options order module.depthBound)).outline walk [.assembly module.key] =
        some begun ∧
      (step (.close .assembly)).outline begun.walk begun.stack = some closed ∧
      course = (closed.after begun.edits).after (module.openingEdits options) := by
  have opening := startAssembly_traces module options walk stack
  unfold Visit.module at outlined
  rw [outline_bind] at outlined
  by_cases free : stack = []
  · subst free
    rw [opening.comes rfl] at outlined
    obtain ⟨rest, went_on, rfl⟩ := Option.map_eq_some_iff.mp outlined
    rw [outline_bind] at went_on
    obtain ⟨begun, began, went_on⟩ := Option.bind_eq_some_iff.mp went_on
    obtain ⟨closed, closing, rfl⟩ := Option.map_eq_some_iff.mp went_on
    exact ⟨rfl, begun, closed, began, closing, rfl⟩
  · rw [opening.stops free] at outlined
    cases outlined

theorem outline_module {begun : Course Unit}
    (began : (module.types.forM (type module options order module.depthBound)).outline walk
      [.assembly module.key] = some begun)
    (left : begun.stack = [.assembly module.key]) :
    (Visit.module module options order).outline walk [] =
      some ⟨(), begun.walk, module.openingEdits options ++ begun.edits, []⟩ := by
  have close : (step (.close .assembly)).Traces begun.walk [.assembly module.key] [] True () [] :=
    close_traces (.assembly module.key)
  unfold Visit.module
  rw [outline_bind, (startAssembly_traces module options walk []).comes rfl, Option.bind_some, outline_bind, began,
    Option.bind_some, left, close.comes trivial]
  simp [Course.after]

variable {parts : List Phase}

theorem module_covers (whole : Phase.Whole parts) {stack : Stack} {course : Course Unit}
    (came : (Visit.module module options (.claim :: parts)).outline (.start options.maxDepth) stack = some course) :
    stack = [] ∧ ∃ after visited edits, course.edits = module.openingEdits options ++ edits ∧
      Covers module options (.claim :: parts) (.start options.maxDepth) module.types after visited edits := by
  obtain ⟨rfl, begun, _, began, _⟩ := outline_of_module came
  obtain ⟨left, visited, covers⟩ :=
    forM_covers (type_covers whole _) ⟨rfl, rfl⟩ (Stack.houses_assembly module.key) began
  rw [outline_module began left] at came
  cases came
  exact ⟨rfl, begun.walk, visited, begun.edits, rfl, covers⟩

theorem module_goesOn (whole : Phase.Whole parts) (bounded : module.declaredTypes.length ≤ options.maxDepth)
    (fits : ∀ type, module.Visited options type → type.label.Fits module.key options) :
    ∃ course, (Visit.module module options (.claim :: parts)).outline (.start options.maxDepth) [] = some course := by
  have houses := Stack.houses_assembly module.key
  have each : ∀ start ∈ module.types, GoesOn module (.start options.maxDepth)
      (type module options (.claim :: parts) module.depthBound start) := by
    intro start member
    apply type_goesOn whole bounded _ (ModuleDecl.mem_declaredTypes_of_mem_types member) .start
    · intro type led
      exact fits type (led.mono (List.cons_subset.mpr ⟨member, List.nil_subset _⟩))
    · exact module.length_declaredTypes_lt_depthBound
  obtain ⟨begun, began⟩ := forM_goesOn (type_covers whole _) ⟨rfl, rfl⟩ each _ rfl rfl _ houses
  obtain ⟨left, _⟩ := forM_covers (type_covers whole _) ⟨rfl, rfl⟩ houses began
  exact ⟨_, outline_module began left⟩

end Visit

namespace Builder

variable {builder : Builder} {module : ModuleDecl} {options : Options}

/-- A traversal that succeeds has begun with no scope open, and has made the edits that the module says. -/
theorem yields_of_visit_ok (good : builder.Good) (distinct : module.HasDistinctTypes) {traversal : Traversal}
    (ok : (builder.visit module options traversal .references).result = .ok ()) :
    builder.stack = [] ∧ (∀ type, module.Visited options type → type.label.Fits module.key options) ∧
      ∃ edits, module.Yields options traversal.order edits ∧ builder.model.view.Admits edits ∧
        builder.model.Becomes (builder.visit module options traversal .references).builder.model edits := by
  obtain ⟨course, outlined, admits⟩ := (visitInOrder_ok_iff good module options traversal.order).mp ok
  have becomes := visitInOrder_becomes good outlined admits
  obtain ⟨parts, order, whole⟩ := traversal.whole
  rw [order] at outlined
  obtain ⟨free, after, visited, edits, same, covers⟩ := Visit.module_covers whole outlined
  refine ⟨free, ?_, course.edits, ?_, admits, becomes⟩
  · intro type led
    exact covers.fits type ((ModuleDecl.mem_visited_iff distinct covers type).mpr led)
  · rw [same, order]
    exact covers.yields distinct

/-- A traversal succeeds where no scope is open, if all types that it visits fit and what they say is admitted. -/
theorem visit_ok (good : builder.Good) (distinct : module.HasDistinctTypes)
    (bounded : module.declaredTypes.length ≤ options.maxDepth) (traversal : Traversal) (free : builder.stack = [])
    (fits : ∀ type, module.Visited options type → type.label.Fits module.key options)
    (admits : ∀ edits, module.Yields options traversal.order edits → builder.model.view.Admits edits) :
    (builder.visit module options traversal .references).result = .ok () := by
  obtain ⟨parts, order, whole⟩ := traversal.whole
  obtain ⟨course, outlined⟩ := Visit.module_goesOn whole bounded fits
  obtain ⟨_, after, visited, edits, same, covers⟩ := Visit.module_covers whole outlined
  refine (visitInOrder_ok_iff good module options traversal.order).mpr ⟨course, ?_, admits course.edits ?_⟩
  · rw [free, order]
    exact outlined
  · rw [same, order]
    exact covers.yields distinct

end Builder

namespace Visit

theorem stack_of_closeAssembly {walk : Walk} {stack : Stack} {course : Course Unit} (nested : stack.Nested)
    (closed : (step (.close .assembly)).outline walk stack = some course) : course.stack = [] := by
  -- only an assembly is closed as one, and no other scope is left around it
  unfold step at closed
  rw [outline_emit] at closed
  obtain ⟨⟨edits, left⟩, tracked, rfl⟩ := Option.map_eq_some_iff.mp closed
  cases stack with
  | nil => cases tracked
  | cons innermost outer =>
    cases innermost with
    | assembly key =>
      obtain ⟨rfl, _⟩ : outer = [] ∧ _ := nested
      cases tracked
      rfl
    | space | type | member => cases tracked

theorem outline_nested_stack {α : Type} {visit : Visit α} {walk : Walk} {stack : Stack} {course : Course α}
    (nested : stack.Nested) (outlined : visit.outline walk stack = some course) : course.stack.Nested := by
  unfold outline at outlined
  split at outlined
  · cases outlined
  · obtain ⟨⟨edits, left⟩, tracked, rfl⟩ := Option.map_eq_some_iff.mp outlined
    exact Op.trackAll_nested nested tracked

/-- A traversal begins and ends with no scope open, whatever its order. -/
theorem module_stack {module : ModuleDecl} {options : Options} {order : Order} {walk : Walk} {stack : Stack}
    {course : Course Unit} (outlined : (Visit.module module options order).outline walk stack = some course) :
    stack = [] ∧ course.stack = [] := by
  obtain ⟨free, begun, closed, began, closing, rfl⟩ := outline_of_module outlined
  have started : Stack.Nested [.assembly module.key] := ⟨rfl, trivial⟩
  have ended : closed.stack = [] := stack_of_closeAssembly (outline_nested_stack started began) closing
  exact ⟨free, ended⟩

end Visit

namespace Builder

variable {builder : Builder} {module : ModuleDecl} {options : Options} {order : Order}

theorem outline_of_visitInOrder_ok (good : builder.Good)
    (ok : (builder.visitInOrder module options order .references).result = .ok ()) :
    builder.scopes = [] ∧ ∃ course,
      (Visit.module module options order).outline (Walk.start options.maxDepth) [] = some course ∧
        builder.model.view.Admits course.edits := by
  obtain ⟨course, outlined, admits⟩ := (visitInOrder_ok_iff good module options order).mp ok
  obtain ⟨free, _⟩ := Visit.module_stack outlined
  rw [free] at outlined
  exact ⟨(stack_eq_nil_iff builder).mp free, course, outlined, admits⟩

theorem visitInOrder_of_outline (good : builder.Good) (free : builder.scopes = []) {course : Course Unit}
    (outlined : (Visit.module module options order).outline (Walk.start options.maxDepth) [] = some course)
    (admits : builder.model.view.Admits course.edits) :
    (builder.visitInOrder module options order .references).result = .ok () ∧
      (builder.visitInOrder module options order .references).builder.scopes = [] ∧
      builder.model.Becomes (builder.visitInOrder module options order .references).builder.model course.edits := by
  have ended := (Visit.module_stack outlined).2
  rw [← (stack_eq_nil_iff builder).mpr free] at outlined
  have left := visitInOrder_stack good outlined admits
  rw [ended, stack_eq_nil_iff] at left
  exact ⟨(visitInOrder_ok_iff good module options order).mpr ⟨course, outlined, admits⟩, left,
    visitInOrder_becomes good outlined admits⟩

end Builder

end UsageGraph
