import UsageGraph.Proofs.Reachable

/-! Outlines: the edits that a traversal comes to, read off without a model.

A script that records the references of bodies is a list of building steps. Followed on
the openings alone it breaks a rule of nesting or comes to a list of edits; run on a good
builder it then makes these edits, unless a member of another kind is in the way.
-/

set_option autoImplicit false
namespace UsageGraph

variable {α β : Type}

/-- The building steps of an action, where the references of bodies are recorded. -/
def Action.ops : Action → List Op
  | .op step => [step]
  | .scan body => body.map .useNode
  | .note _ => []

def Script.ops (script : Script α) : List Op := script.actions.flatMap Action.ops

theorem Script.ops_bind (script : Script α) (next : α → Script β) :
    (script >>= next).ops = script.ops ++ (next script.answer).ops := by
  simp only [ops, actions_bind, List.flatMap_append]

namespace Builder

def performAll : List Op → Build Unit
  | [] => pure ()
  | op :: rest => do
    let _ ← op.perform
    performAll rest

/-- How steps end when their edits are given. -/
inductive Settles (before : Builder) : Option (List Edit × Stack) → Except Fault α × Builder → Prop
  | refused (fault : Fault) (after : Builder) : Settles before none (.error fault, after)
  | done {edits : List Edit} {stack : Stack} (answer : α) (after : Builder) (good : after.Good)
    (left : after.stack = stack)
    (admits : before.model.view.Admits edits) (becomes : before.model.Becomes after.model edits) :
    Settles before (some (edits, stack)) (.ok answer, after)
  | blocked {edits : List Edit} {stack : Stack} (fault : Fault) (after : Builder)
    (blocks : ¬ before.model.view.Admits edits) : Settles before (some (edits, stack)) (.error fault, after)

theorem Settles.append {before middle : Builder} {edits : List Edit} {later : Option (List Edit × Stack)}
    {ended : Except Fault α × Builder} (admits : before.model.view.Admits edits)
    (becomes : before.model.Becomes middle.model edits)
    (settles : middle.Settles later ended) :
    before.Settles (later.map fun done => (edits ++ done.1, done.2)) ended := by
  cases settles with
  | refused fault after => exact .refused fault after
  | done answer after good left admits' becomes' =>
    refine .done answer after good left ?_ (becomes.trans becomes')
    exact (View.admits_append _ _ _).mpr ⟨admits, becomes.view ▸ admits'⟩
  | blocked fault after blocks =>
    refine .blocked fault after fun admits' => blocks ?_
    exact becomes.view ▸ ((View.admits_append _ _ _).mp admits').2

theorem Settles.of_blocked {before : Builder} {edits : List Edit} (blocks : ¬ before.model.view.Admits edits)
    (later : Option (List Edit × Stack)) (fault : Fault) (after : Builder) :
    @Settles α before (later.map fun done => (edits ++ done.1, done.2)) (.error fault, after) := by
  cases later with
  | none => exact .refused fault after
  | some done => exact .blocked fault after fun admits => blocks ((View.admits_append _ _ _).mp admits).1

theorem performAll_settles {before : Builder} (good : before.Good) (ops : List Op) :
    before.Settles (Op.trackAll ops before.stack) (performAll ops before) := by
  induction ops generalizing before with
  | nil => exact .done () before good rfl trivial (.refl good.formed)
  | cons op rest ih =>
    have performs := perform_performs good op
    unfold performAll Op.trackAll
    rw [bind_apply]
    generalize op.track before.stack = tracked at performs
    generalize op.perform before = ended at performs
    cases performs with
    | refused cause => exact .refused _ _
    | done answer middle good' left admits becomes => exact .append admits becomes (left ▸ ih good')
    | blocked fault middle stops => exact .of_blocked stops.blocks _ fault middle

theorem performAll_useNode (body : Body) : performAll (body.map .useNode) = Scanner.references.scan body := by
  unfold Scanner.references
  induction body with
  | nil => rfl
  | cons key rest ih =>
    funext builder
    show (Op.perform (.useNode key) >>= fun _ => performAll (rest.map .useNode)) builder =
      (useNode key >>= fun _ => rest.forM useNode) builder
    rw [bind_apply, bind_apply, ih, Op.perform, map_apply]
    cases (useNode key builder).1 <;> rfl

theorem action_perform_eq (action : Action) (builder : Builder) :
    ∃ entries, action.perform .references builder =
      ((performAll action.ops builder).1.map fun _ => entries, (performAll action.ops builder).2) := by
  cases action with
  | note entry => exact ⟨_, rfl⟩
  | op step =>
    refine ⟨[], ?_⟩
    simp only [Action.perform, Action.ops, performAll, bind_apply]
    cases (step.perform builder).1 <;> rfl
  | scan body =>
    refine ⟨[], ?_⟩
    simp only [Action.perform, Action.ops, performAll_useNode, bind_apply]
    cases (Scanner.references.scan body builder).1 <;> rfl

theorem performAll_append (first second : List Op) :
    performAll (first ++ second) = performAll first >>= fun _ => performAll second := by
  induction first with
  | nil => simp [performAll]
  | cons op rest ih => simp only [List.cons_append, performAll, ih, bind_assoc]

theorem run_eq (script : Script α) (builder : Builder) :
    (script.run .references builder).result = (performAll script.ops builder).1.map (fun _ => script.answer) ∧
      (script.run .references builder).builder = (performAll script.ops builder).2 := by
  induction script generalizing builder with
  | done answer => exact ⟨rfl, rfl⟩
  | act action rest ih =>
    have steps : (Script.act action rest).ops = action.ops ++ (rest ()).ops := by simp [Script.ops, Script.actions]
    obtain ⟨entries, performed⟩ := action_perform_eq action builder
    unfold Script.run
    rw [performed, steps, performAll_append, bind_apply]
    cases (performAll action.ops builder).1 with
    | error fault => exact ⟨rfl, rfl⟩
    | ok answer => exact ih () (performAll action.ops builder).2

theorem Settles.map {before after : Builder} (f : α → β) {tracked : Option (List Edit × Stack)}
    {result : Except Fault α} (settles : before.Settles tracked (result, after)) :
    before.Settles tracked (result.map f, after) := by
  cases settles with
  | refused fault => exact .refused fault after
  | done answer _ good left admits becomes => exact .done _ after good left admits becomes
  | blocked fault _ blocks => exact .blocked fault after blocks

/-- A script run on a good builder makes the edits that it comes to. -/
theorem run_settles (script : Script α) {before : Builder} (good : before.Good) :
    before.Settles (Op.trackAll script.ops before.stack)
      ((script.run .references before).result, (script.run .references before).builder) ∧
    ∀ answer, (script.run .references before).result = .ok answer → answer = script.answer := by
  obtain ⟨result, builder⟩ := run_eq script before
  rw [result, builder]
  refine ⟨(performAll_settles good script.ops).map _, ?_⟩
  intro answer ok
  cases ended : (performAll script.ops before).1 with
  | error fault => simp [ended, Except.map] at ok
  | ok done =>
    rw [ended] at ok
    exact (Except.ok.inj ok).symm

end Builder

/-! ## Outlines of visits -/

/-- A visit that ends without a fault of its own, with the walk that it leaves, the edits that it comes to and the
scopes that it leaves open. -/
structure Course (α : Type) where
  answer : α
  walk : Walk
  edits : List Edit
  stack : Stack

def Course.after (edits : List Edit) (course : Course α) : Course α := { course with edits := edits ++ course.edits }

namespace Visit

/-- The course of a visit, if no guard is too deep and no rule of nesting is broken. -/
def outline (visit : Visit α) (walk : Walk) (stack : Stack) : Option (Course α) :=
  match Script.answer (visit walk : Script (Except Fault α × Walk)) with
  | (.error _, _) => none
  | (.ok answer, left) =>
    (Op.trackAll (Script.ops (visit walk : Script (Except Fault α × Walk))) stack).map fun done =>
      ⟨answer, left, done.1, done.2⟩

theorem outline_bind (visit : Visit α) (next : α → Visit β) (walk : Walk) (stack : Stack) :
    (visit >>= next).outline walk stack = (visit.outline walk stack).bind fun course =>
      ((next course.answer).outline course.walk course.stack).map (Course.after course.edits) := by
  unfold outline
  rw [bind_apply, Script.answer_bind, Script.ops_bind, Op.trackAll_append]
  cases ended : Script.answer (visit walk : Script (Except Fault α × Walk)) with
  | mk result left =>
    cases result with
    | error fault => rfl
    | ok answer =>
      cases continued : Script.answer (next answer left : Script (Except Fault β × Walk)) with
      | mk result later =>
        cases Op.trackAll (Script.ops (visit walk : Script (Except Fault α × Walk))) stack <;>
          cases result <;> simp [continued, Function.comp_def, Course.after]

@[simp] theorem outline_pure (answer : α) (walk : Walk) (stack : Stack) :
    (pure answer : Visit α).outline walk stack = some ⟨answer, walk, [], stack⟩ := rfl

theorem outline_emit (action : Action) (walk : Walk) (stack : Stack) :
    (emit action).outline walk stack = (Op.trackAll action.ops stack).map fun done => ⟨(), walk, done.1, done.2⟩ := by
  unfold outline
  rw [emit_apply]
  simp [Script.answer, Script.ops, Script.actions]

@[simp] theorem outline_note (entry : Note) (walk : Walk) (stack : Stack) :
    (note entry).outline walk stack = some ⟨(), walk, [], stack⟩ := rfl

theorem outline_throw (fault : Fault) (walk : Walk) (stack : Stack) :
    (throw fault : Visit α).outline walk stack = none := rfl

end Visit

theorem Script.ops_map (f : α → β) (script : Script α) : (f <$> script).ops = script.ops := by
  rw [map_eq_pure_bind, ops_bind]
  exact List.append_nil _

theorem Script.answer_map (f : α → β) (script : Script α) : (f <$> script).answer = f script.answer := by
  rw [map_eq_pure_bind, answer_bind]
  rfl

namespace Builder

theorem visitInOrder_settles {builder : Builder} (good : builder.Good) (module : ModuleDecl) (options : Options)
    (order : Order) :
    builder.Settles
      (((Visit.module module options order).outline (Walk.start options.maxDepth) builder.stack).map fun course =>
        (course.edits, course.stack))
      ((builder.visitInOrder module options order .references).result,
        (builder.visitInOrder module options order .references).builder) := by
  obtain ⟨settles, answers⟩ := run_settles (module.script options order) good
  unfold Visit.outline visitInOrder
  simp only
  generalize (module.script options order).run .references builder = outcome at settles answers
  obtain ⟨result, after, trace⟩ := outcome
  simp only [ModuleDecl.script, Script.ops_map, Script.answer_map] at settles answers
  generalize Op.trackAll _ builder.stack = tracked at settles ⊢
  -- steps that go through may still end in a fault of the visit itself
  cases settles with
  | refused fault after =>
    split
    · exact .refused _ _
    · exact .refused _ _
  | blocked fault after blocks =>
    split
    · exact .refused _ _
    · exact .blocked _ _ blocks
  | done answer after good' left admits becomes =>
    have same := answers answer rfl
    split
    next fault walk ended =>
      rw [same, ended]
      exact .refused _ _
    next answer' walk ended =>
      rw [same, ended]
      exact .done () after good' left admits becomes

/-- A visit of a module succeeds if it has an outline whose edits the view admits, and then makes these edits. -/
theorem visitInOrder_ok_iff {builder : Builder} (good : builder.Good) (module : ModuleDecl) (options : Options)
    (order : Order) :
    (builder.visitInOrder module options order .references).result = .ok () ↔
      ∃ course, (Visit.module module options order).outline (Walk.start options.maxDepth) builder.stack = some course ∧
        builder.model.view.Admits course.edits := by
  have settles := visitInOrder_settles good module options order
  generalize (Visit.module module options order).outline _ _ = outlined at settles ⊢
  generalize (builder.visitInOrder module options order .references).result = result at settles ⊢
  cases outlined with
  | none => cases settles; simp
  | some course =>
    cases settles with
    | done answer after good' left admits becomes => simp [admits]
    | blocked fault after blocks => simp [blocks]

theorem visitInOrder_becomes {builder : Builder} (good : builder.Good) {module : ModuleDecl} {options : Options}
    {order : Order}
    {course : Course Unit}
    (outlined : (Visit.module module options order).outline (Walk.start options.maxDepth) builder.stack = some course)
    (admits : builder.model.view.Admits course.edits) :
    builder.model.Becomes (builder.visitInOrder module options order .references).builder.model course.edits := by
  have settles := visitInOrder_settles good module options order
  rw [outlined] at settles
  generalize (builder.visitInOrder module options order .references).result = result at settles
  cases settles with
  | done answer after good' left admits' becomes => exact becomes
  | blocked fault after blocks => exact absurd admits blocks

theorem visitInOrder_stack {builder : Builder} (good : builder.Good) {module : ModuleDecl} {options : Options}
    {order : Order} {course : Course Unit}
    (outlined : (Visit.module module options order).outline (Walk.start options.maxDepth) builder.stack = some course)
    (admits : builder.model.view.Admits course.edits) :
    (builder.visitInOrder module options order .references).builder.stack = course.stack := by
  have settles := visitInOrder_settles good module options order
  rw [outlined] at settles
  generalize (builder.visitInOrder module options order .references).result = result at settles
  cases settles with
  | done answer after good' left admits' becomes => exact left
  | blocked fault after blocks => exact absurd admits blocks

end Builder

end UsageGraph
