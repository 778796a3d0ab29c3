import UsageGraph.Proofs.Traversal.Coherence
import UsageGraph.Proofs.View.Faithful
import UsageGraph.Proofs.View.Subsumption

/-! A visit that has gone through changes nothing when it is repeated.

Which edits a visit makes is decided by the module, the options and the order alone, as it
begins and ends with no scope open. The second visit makes the edits of the first, which
say nothing new, and so the view stays; and with the view, the model.
-/

set_option autoImplicit false
namespace UsageGraph

namespace Builder

variable {builder : Builder} {module : ModuleDecl} {options : Options} {order : Order}

theorem visitInOrder_eq_self (good : builder.Good) (free : builder.scopes = []) {course : Course Unit}
    (outlined : (Visit.module module options order).outline (Walk.start options.maxDepth) [] = some course)
    (admits : builder.model.view.Admits course.edits)
    (nothing : builder.model.view.applyAll course.edits = builder.model.view) :
    (builder.visitInOrder module options order .references).result = .ok () ∧
      (builder.visitInOrder module options order .references).builder = builder := by
  obtain ⟨ok, left, becomes⟩ := visitInOrder_of_outline good free outlined admits
  -- the view is the same, the nodes are still there and the lists only got longer
  have model := Model.eq_of_view_eq good.formed becomes.formed becomes.grows
    (visitInOrder_lengthens builder module options order) (becomes.view.trans nothing)
  refine ⟨ok, ?_⟩
  generalize (builder.visitInOrder module options order .references).builder = after at left model
  cases after
  cases builder
  simp only [Builder.mk.injEq]
  exact ⟨model, left.trans free.symm⟩

/-- After a visit that succeeds, the same visit succeeds again and changes nothing: the same nodes have the same ids
and content, and their lists have the same order. -/
theorem visitInOrder_repeated (reachable : builder.Reachable) (module : ModuleDecl) (options : Options) (order : Order)
    (ok : (builder.visitInOrder module options order .references).result = .ok ()) :
    let first := (builder.visitInOrder module options order .references).builder
    (first.visitInOrder module options order .references).result = .ok () ∧
      (first.visitInOrder module options order .references).builder = first := by
  obtain ⟨free, course, outlined, admits⟩ := outline_of_visitInOrder_ok reachable.good ok
  obtain ⟨_, left, becomes⟩ := visitInOrder_of_outline reachable.good free outlined admits
  have good := (reachable.visit module options order Scanner.references_honest).good
  have admitted := (View.admits_of_subsumes (.refl course.edits) admits).1
  have nothing := (View.applyAll_of_subsumes (.refl course.edits) admits).1
  apply visitInOrder_eq_self good left outlined
  · rw [becomes.view]
    exact ((View.admits_append _ _ _).mp admitted).2
  · rw [becomes.view, ← View.applyAll_append]
    exact nothing

end Builder

/-- The first visit writes over what it has written itself, and the second one does so again. -/
theorem Builder.visitInOrder_repeated_drafts :
    (survey.visitInOrder .drafts .forPrimary Traversal.topDown.order .references).result = .ok () ∧
      ((survey.visitInOrder .drafts .forPrimary Traversal.topDown.order .references).builder.visitInOrder .drafts
        .forPrimary Traversal.topDown.order .references).result = .ok () ∧
      ((survey.visitInOrder .drafts .forPrimary Traversal.topDown.order .references).builder.visitInOrder .drafts
        .forPrimary Traversal.topDown.order .references).builder =
        (survey.visitInOrder .drafts .forPrimary Traversal.topDown.order .references).builder := by
  have coherent : ModuleDecl.drafts.Coherent .forPrimary survey.model := by decide
  have ok := survey_visits coherent .topDown
  exact ⟨ok, visitInOrder_repeated survey_reachable .drafts .forPrimary Traversal.topDown.order ok⟩

end UsageGraph
