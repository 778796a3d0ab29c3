import Mathlib.Logic.Relation
import UsageGraph.Proofs.Builder.Refine
import UsageGraph.Traversal

/-! Reachable models.

A model is reachable if it comes from the empty one by requests to the model itself, by
building steps and by visits of modules, whether these succeed or fail. Every builder
that takes part in it is good.
-/

set_option autoImplicit false
namespace UsageGraph

inductive Request where
  | assembly (key : AssemblyKey)
  | space (key : NamespaceKey)
  | type (key : TypeKey)
  | member (key : MemberKey) (kind : NodeKind)
  | node (key : NodeKey)
  | external (key : TypeKey)
  | system (provided : SystemType)
  | giveUp (key : AssemblyKey) (reason : String)

def Request.grant (model : Model) : Request → Model
  | .assembly key => (model.ensureAssembly key).2
  | .space key => (model.ensureSpace key).2
  | .type key => (model.ensureType key).2
  | .member key kind => (model.ensureMember key kind).2
  | .node key => (model.ensureNode key).2
  | .external key => (model.ensureExternal key).2
  | .system provided => (model.ensureSystem provided).2
  | .giveUp key reason => model.recordDecodeError key reason

namespace Builder

def Step (before after : Builder) : Prop := ∃ op : Op, after = (op.perform before).2

end Builder

/-- A scanner that does nothing but take building steps. -/
def Scanner.Honest (scanner : Scanner) : Prop :=
  ∀ body builder, Relation.ReflTransGen Builder.Step builder (scanner.scan body builder).2

/-- The builders that come up while a model is made. -/
inductive Builder.Reachable : Builder → Prop
  | empty : Reachable {}
  /-- The model goes on without the scopes that were open. -/
  | renew {builder : Builder} (reached : Reachable builder) : Reachable { model := builder.model }
  | request {builder : Builder} (reached : Reachable builder) (request : Request) :
    Reachable { builder with model := request.grant builder.model }
  | step {builder : Builder} (reached : Reachable builder) (op : Op) : Reachable (op.perform builder).2
  | visit {builder : Builder} (reached : Reachable builder) (module : ModuleDecl) (options : Options) (order : Order)
    {scanner : Scanner} (honest : scanner.Honest) :
    Reachable (builder.visitInOrder module options order scanner).builder

def Model.Reachable (model : Model) : Prop := ∃ builder : Builder, builder.Reachable ∧ builder.model = model

namespace Model

structure Enlarges (before after : Model) : Prop where
  formed : after.WellFormed
  grows : before.Grows after
  member : ∀ {id node}, before.member? id = some node → after.member? id = some node

theorem Becomes.enlarges {before after : Model} {edit : Edit} (becomes : before.Becomes after [edit])
    (ensures : edit.place? = none) : before.Enlarges after where
  formed := becomes.formed
  grows := becomes.grows
  member held := by
    refine becomes.spares.member held fun other member => ?_
    rw [List.mem_singleton.mp member, ensures]
    simp

section Requests

variable {model : Model} (formed : model.WellFormed)
include formed

theorem ensureMember_enlarges (key : MemberKey) (kind : NodeKind) : model.Enlarges (model.ensureMember key kind).2 := by
  cases kind with
  | member kind =>
    rcases ensureMember_becomes formed kind key with ⟨_, id, node, _, _, _, _, becomes⟩ | ⟨_, found, failed⟩
    · exact becomes.enlarges rfl
    · rw [failed]
      exact ⟨formed, .refl model, fun held => held⟩
  | type =>
    -- a type is not a member: the request fails once the declaring type is there
    rw [ensureMember_eq formed]
    cases model.findMember? key with
    | some node => exact ⟨formed, .refl model, fun held => held⟩
    | none => exact (ensureType_becomes formed key.owner).1.enlarges rfl

theorem ensureExternal_enlarges (key : TypeKey) : model.Enlarges (model.ensureExternal key).2 := by
  have ensured := (ensureType_becomes formed key).1.enlarges rfl
  have keeps : ∀ node : TypeNode, KeepsType node { node with isExternal := node.isExternal || node.isPlaceholder } :=
    fun _ => ⟨rfl, rfl, rfl, rfl⟩
  refine ⟨ensured.formed.modifyType keeps ?_, ensured.grows.trans (.modifyType keeps), ensured.member⟩
  intro node held
  obtain ⟨base, interfaces, attributes, usages⟩ := ensured.formed.type_backed held
  exact ⟨base, interfaces, attributes, usages⟩

theorem recordDecodeError_enlarges (key : AssemblyKey) (reason : String) :
    model.Enlarges (model.recordDecodeError key reason) := by
  have ensured := (ensureAssembly_becomes formed key).1.enlarges rfl
  have keeps : ∀ node : AssemblyNode, KeepsAssembly node { node with decodeError := some reason } :=
    fun _ => ⟨rfl, rfl, rfl⟩
  exact ⟨ensured.formed.modifyAssembly keeps, ensured.grows.trans (.modifyAssembly keeps), ensured.member⟩

end Requests

end Model

theorem Request.grant_enlarges {model : Model} (formed : model.WellFormed) (request : Request) :
    model.Enlarges (request.grant model) := by
  cases request with
  | assembly key => exact (Model.ensureAssembly_becomes formed key).1.enlarges rfl
  | space key => exact (Model.ensureSpace_becomes formed key).1.enlarges rfl
  | type key => exact (Model.ensureType_becomes formed key).1.enlarges rfl
  | member key kind => exact Model.ensureMember_enlarges formed key kind
  | node key =>
    cases key with
    | type key => exact (Model.ensureType_becomes formed key).1.enlarges rfl
    | member kind key => exact Model.ensureMember_enlarges formed key (.member kind)
  | external key => exact Model.ensureExternal_enlarges formed key
  | system provided => exact Model.ensureExternal_enlarges formed provided.key
  | giveUp key reason => exact Model.recordDecodeError_enlarges formed key reason

namespace Builder

theorem action_steps {scanner : Scanner} (honest : scanner.Honest) (action : Action) (builder : Builder) :
    Relation.ReflTransGen Step builder (action.perform scanner builder).2 := by
  cases action with
  | op step =>
    have taken : Relation.ReflTransGen Step builder (step.perform builder).2 := .single ⟨step, rfl⟩
    simp only [Action.perform, bind_apply]
    split
    · exact taken
    · exact taken
  | scan body =>
    have taken := honest body builder
    simp only [Action.perform, bind_apply]
    split
    · exact taken
    · exact taken
  | note entry => exact .refl

theorem run_steps {α : Type} {scanner : Scanner} (honest : scanner.Honest) (script : Script α) (builder : Builder) :
    Relation.ReflTransGen Step builder (script.run scanner builder).builder := by
  induction script generalizing builder with
  | done answer => exact .refl
  | act action rest ih =>
    have taken := action_steps honest action builder
    unfold Script.run
    split
    next entries after ends =>
      rw [ends] at taken
      exact taken.trans (ih () after)
    next fault after ends =>
      rw [ends] at taken
      exact taken

theorem Reachable.steps {before after : Builder} (reached : before.Reachable)
    (taken : Relation.ReflTransGen Step before after) : after.Reachable := by
  induction taken with
  | refl => exact reached
  | tail _ step ih =>
    obtain ⟨op, rfl⟩ := step
    exact ih.step op

/-- What steps come to, whatever their outcome, is a list of edits. -/
theorem steps_become {before after : Builder} (good : before.Good) (taken : Relation.ReflTransGen Step before after) :
    after.Good ∧ ∃ edits, before.model.Becomes after.model edits := by
  induction taken with
  | refl => exact ⟨good, [], .refl good.formed⟩
  | @tail middle _ _ step ih =>
    obtain ⟨op, rfl⟩ := step
    obtain ⟨good', edits, becomes⟩ := ih
    have performs := perform_performs good' op
    generalize op.track middle.stack = tracked at performs
    generalize op.perform middle = ended at performs
    cases performs with
    | refused cause => exact ⟨good', edits, becomes⟩
    | done answer after good'' left admits last => exact ⟨good'', _, becomes.trans last⟩
    | blocked fault after stops =>
      obtain ⟨made, _, _, last⟩ := stops.part
      exact ⟨stops.good, _, becomes.trans last⟩

/-- What holds at the beginning, and is kept when a builder is renewed, by requests and by steps, always holds. -/
theorem Reachable.always {holds : Builder → Prop} (empty : holds {})
    (renew : ∀ {builder : Builder}, holds builder → holds { model := builder.model })
    (request : ∀ {builder : Builder}, builder.Reachable → holds builder → ∀ request : Request,
      holds { builder with model := request.grant builder.model })
    (step : ∀ {builder : Builder}, builder.Reachable → holds builder → ∀ op : Op, holds (op.perform builder).2)
    {builder : Builder} (reached : builder.Reachable) : holds builder := by
  induction reached with
  | empty => exact empty
  | renew _ ih => exact renew ih
  | request reached asked ih => exact request reached ih asked
  | step reached op ih => exact step reached ih op
  | @visit start reached module options order scanner honest ih =>
    -- a visit is a run of steps, and each of the builders on the way is reachable
    have taken : Relation.ReflTransGen Step start (start.visitInOrder module options order scanner).builder :=
      run_steps honest (module.script options order) start
    generalize (start.visitInOrder module options order scanner).builder = after at taken
    induction taken with
    | refl => exact ih
    | tail before single ih =>
      obtain ⟨op, rfl⟩ := single
      exact step (reached.steps before) ih op

theorem Reachable.good {builder : Builder} (reached : builder.Reachable) : builder.Good := by
  refine reached.always .empty ?_ ?_ ?_
  · intro builder good
    exact ⟨good.formed, by simp⟩
  · intro builder _ good request
    have enlarges := request.grant_enlarges good.formed
    exact good.grow enlarges.formed enlarges.grows
  · exact fun _ good op => (perform_keeps good op).1

end Builder

theorem Model.Reachable.wellFormed {model : Model} (reached : model.Reachable) : model.WellFormed := by
  obtain ⟨builder, reached, rfl⟩ := reached
  exact reached.good.formed

def Builder.replay (ops : List Op) : Builder := ops.foldl (fun builder op => (op.perform builder).2) {}

theorem Builder.reachable_replay (ops : List Op) : (replay ops).Reachable := by
  have goes_on : ∀ builder : Builder, builder.Reachable →
      (ops.foldl (fun builder op => (op.perform builder).2) builder).Reachable := by
    induction ops with
    | nil => exact fun _ reached => reached
    | cons op rest ih => exact fun builder reached => ih _ (reached.step op)
  exact goes_on {} .empty

theorem Model.reachable_replay (ops : List Op) : (Builder.replay ops).model.Reachable :=
  ⟨_, Builder.reachable_replay ops, rfl⟩

namespace Scanner

theorem honest_of_forM {step : NodeKey → Build Unit}
    (single : ∀ key builder, ∃ op : Op, (step key builder).2 = (op.perform builder).2) :
    Honest ⟨fun body => body.forM step⟩ := by
  intro body
  induction body with
  | nil => exact fun _ => .refl
  | cons key rest ih =>
    intro builder
    have first : Builder.Step builder (step key builder).2 := by
      obtain ⟨op, same⟩ := single key builder
      exact ⟨op, same⟩
    show Relation.ReflTransGen _ _ ((step key >>= fun _ => rest.forM step) builder).2
    rw [Builder.bind_apply]
    split
    · exact .head first (ih _)
    · exact .single first

theorem references_honest : references.Honest :=
  honest_of_forM fun key builder => ⟨.useNode key, by simp only [Op.perform, Builder.map_apply]⟩

end Scanner

end UsageGraph
