import Mathlib.Order.Bounds.Defs
import UsageGraph.Proofs.Closure.Search
import UsageGraph.Proofs.Reachable

/-! Forward closures.

Everything that a method uses directly or indirectly is the least set of nodes that holds
what the method uses and, with each method, what that method uses.
-/

set_option autoImplicit false
namespace UsageGraph

namespace UsageSet

variable {α : Type} (uses : α → UsageSet) (nodes : List α) {set : UsageSet} (sound : set.Sound)
include sound

theorem Sound.foldl_union : (nodes.foldl (fun union node => union.union (uses node)) set).Sound := by
  induction nodes generalizing set with
  | nil => exact sound
  | cons node rest ih => exact ih (sound.union _)

theorem Sound.mem_targets_foldl_union (target : NodeRef) :
    target ∈ (nodes.foldl (fun union node => union.union (uses node)) set).targets ↔
      target ∈ set.targets ∨ ∃ node ∈ nodes, target ∈ (uses node).targets := by
  induction nodes generalizing set with
  | nil => simp
  | cons node rest ih => simp [ih (sound.union _), sound.mem_targets_union, or_assoc]

end UsageSet

namespace Model

def IsMethod (model : Model) (id : MemberId) : Prop := ∃ node, model.member? id = some node ∧ node.isMethod = true

theorem IsMethod.isSome {model : Model} {id : MemberId} (isMethod : model.IsMethod id) : (model.member? id).isSome := by
  obtain ⟨node, held, _⟩ := isMethod
  simp [held]

def Calls (model : Model) (caller callee : MemberId) : Prop :=
  .member callee ∈ (model.usesOf caller).targets ∧ model.IsMethod callee

/-- A set of nodes holds what a method uses and, with each method, what that method uses. -/
structure UsesClosed (model : Model) (method : MemberId) (nodes : Set NodeRef) : Prop where
  start : ∀ uses ∈ model.directUses? (.member method), ∀ target ∈ uses.targets, target ∈ nodes
  step : ∀ callee, .member callee ∈ nodes → model.IsMethod callee →
    ∀ uses ∈ model.directUses? (.member callee), ∀ target ∈ uses.targets, target ∈ nodes

/-- The closure that a search for it comes to, and nothing for what is not in the model. -/
def closureOf (model : Model) (method : MemberId) : UsageSet := (model.closureFrom method).toOption.getD {}

section Formed

variable {model : Model} (formed : model.WellFormed)
include formed

theorem backs_usesOf (caller : MemberId) : model.Backs (model.usesOf caller) := by
  cases held : model.member? caller with
  | none =>
    simp only [usesOf, directUses?, held]
    exact backs_empty model
  | some node =>
    rw [usesOf_eq held]
    have backed := (formed.member_backed held).usages
    have kept : (node.usages.withoutOwner node.owner).toList.Sublist node.usages.toList := by
      rw [UsageSet.toList_withoutOwner backed.distinct]
      exact List.filter_sublist
    exact ⟨fun usage member => backed.accurate usage (kept.subset member), backed.distinct.sublist (kept.map _),
      node.indexed_directUses⟩

theorem leads_iff_calls (caller callee : MemberId) : model.Leads caller callee ↔ model.Calls caller callee := by
  -- a usage says of its target what the model says, so it is recorded as one of a method just if the target is one
  have backed := backs_usesOf formed caller
  unfold Leads Calls IsMethod UsageSet.methods UsageSet.targets
  rw [List.mem_filterMap, List.mem_map]
  constructor
  · rintro ⟨usage, member, names⟩
    have recorded := backed.accurate usage member
    unfold Usage.method? at names
    split at names
    next id target kind =>
      cases names
      rw [target] at recorded
      obtain ⟨node, held, rfl⟩ := Option.map_eq_some_iff.mp recorded
      refine ⟨⟨_, member, rfl⟩, node, held, ?_⟩
      simpa [MemberNode.isMethod] using kind
    next => cases names
  · rintro ⟨⟨usage, member, target⟩, node, held, isMethod⟩
    have recorded := backed.accurate usage member
    rw [target] at recorded
    have same : usage = ⟨.member callee, .member node.kind, node.owner⟩ := by
      simpa [usageOf?, held] using recorded.symm
    refine ⟨usage, member, ?_⟩
    have kind : node.kind = .method := by simpa [MemberNode.isMethod] using isMethod
    simp [same, Usage.method?, kind]

/-- The search never comes to something that is not in the model. -/
theorem isSome_of_leads {caller callee : MemberId} (leads : model.Leads caller callee) :
    (model.member? callee).isSome :=
  ((leads_iff_calls formed caller callee).mp leads).2.isSome

variable {method : MemberId} (present : (model.member? method).isSome)
include present

/-- The search does not fail, and it comes to the members that a chain of calls leads to. -/
theorem closureFrom_eq_ok : model.closureFrom method = .ok (model.closureOf method) ∧
    ∃ found : List MemberId, (∀ callee, callee ∈ found ↔ Relation.ReflTransGen model.Calls method callee) ∧
      model.closureOf method = found.foldl (fun union callee => union.union (model.usesOf callee)) {} := by
  obtain ⟨found, ⟨queued, closed, led⟩, expanded⟩ :=
    expand_explores (isSome_of_leads formed) [method] [method] {} (by simpa using present)
  have summed : model.closureOf method = found.foldl (fun union callee => union.union (model.usesOf callee)) {} := by
    rw [closureOf, closureFrom, expanded]
    rfl
  have edges : model.Leads = model.Calls := by
    funext caller callee
    exact propext (leads_iff_calls formed caller callee)
  rw [edges] at closed led
  refine ⟨summed ▸ expanded, found, fun callee => ⟨fun member => ?_, fun path => ?_⟩, summed⟩
  · obtain ⟨start, begun, path⟩ := led callee member
    rwa [List.mem_singleton.mp begun] at path
  · induction path with
    | refl => exact queued List.mem_cons_self
    | tail _ calls ih =>
      -- the only member that has been visited before is the method itself
      refine (closed _ ih _ calls).elim (fun visited => ?_) id
      rw [List.mem_singleton.mp visited]
      exact queued List.mem_cons_self

theorem mem_closureOf_iff (target : NodeRef) :
    target ∈ (model.closureOf method).targets ↔
      ∃ callee, Relation.ReflTransGen model.Calls method callee ∧ target ∈ (model.usesOf callee).targets := by
  obtain ⟨_, found, reaches, summed⟩ := closureFrom_eq_ok formed present
  rw [summed, UsageSet.Sound.empty.mem_targets_foldl_union]
  simp [reaches, UsageSet.targets]

theorem nodup_closureOf : (model.closureOf method).targets.Nodup := by
  obtain ⟨_, found, _, summed⟩ := closureFrom_eq_ok formed present
  rw [summed]
  exact (UsageSet.Sound.empty.foldl_union _ _).distinct

omit formed present in
theorem mem_usesOf_iff (method : MemberId) (target : NodeRef) :
    target ∈ (model.usesOf method).targets ↔ ∃ uses ∈ model.directUses? (.member method), target ∈ uses.targets := by
  unfold usesOf
  cases model.directUses? (.member method) <;> simp [UsageSet.targets]

theorem usesClosed_closureOf : model.UsesClosed method { target | target ∈ (model.closureOf method).targets } where
  start uses direct target used :=
    (mem_closureOf_iff formed present target).mpr
    ⟨method, .refl, (mem_usesOf_iff method target).mpr ⟨uses, direct, used⟩⟩
  step callee member isMethod uses direct target used := by
    obtain ⟨caller, path, calls⟩ := (mem_closureOf_iff formed present _).mp member
    refine (mem_closureOf_iff formed present target).mpr ⟨callee, path.tail ⟨calls, isMethod⟩, ?_⟩
    exact (mem_usesOf_iff callee target).mpr ⟨uses, direct, used⟩

omit formed present in
theorem UsesClosed.mem_of_path {callee : MemberId} {nodes : Set NodeRef} (closed : model.UsesClosed method nodes)
    (path : Relation.ReflTransGen model.Calls method callee) {target : NodeRef}
    (used : target ∈ (model.usesOf callee).targets) : target ∈ nodes := by
  induction path generalizing target with
  | refl =>
    obtain ⟨uses, direct, used⟩ := (mem_usesOf_iff method target).mp used
    exact closed.start uses direct target used
  | tail _ calls ih =>
    obtain ⟨uses, direct, used⟩ := (mem_usesOf_iff _ target).mp used
    exact closed.step _ (ih calls.1) calls.2 uses direct target used

theorem isLeast_closureOf :
    IsLeast { nodes | model.UsesClosed method nodes } { target | target ∈ (model.closureOf method).targets } := by
  refine ⟨usesClosed_closureOf formed present, ?_⟩
  intro nodes closed target member
  obtain ⟨callee, path, used⟩ := (mem_closureOf_iff formed present target).mp member
  exact closed.mem_of_path path used

omit present in
theorem self_mem_closureOf_iff (isMethod : model.IsMethod method) :
    .member method ∈ (model.closureOf method).targets ↔ Relation.TransGen model.Calls method method := by
  rw [mem_closureOf_iff formed isMethod.isSome]
  constructor
  · rintro ⟨callee, path, used⟩
    exact .tail' path ⟨used, isMethod⟩
  · intro cycle
    obtain ⟨callee, path, calls⟩ := Relation.TransGen.tail'_iff.mp cycle
    exact ⟨callee, path, calls.1⟩

end Formed

def indirectUses (model : Model) (method : MemberId) : Except Fault UsageSet := do
  model.requireMethod method
  model.closureFrom method

theorem indirectUses_eq_ok {model : Model} (method : MemberId) (closure : UsageSet) :
    model.indirectUses method = .ok closure ↔
      model.requireMethod method = .ok () ∧ model.closureFrom method = .ok closure := by
  unfold indirectUses
  cases model.requireMethod method <;> simp [bind, Except.bind]

theorem requireMethod_eq_ok_iff (model : Model) (method : MemberId) :
    model.requireMethod method = .ok () ↔ model.IsMethod method := by
  unfold requireMethod IsMethod
  cases model.member? method with
  | none => simp
  | some node => by_cases isMethod : node.isMethod <;> simp [isMethod]

theorem indirectUses_eq_ok_iff {model : Model} (formed : model.WellFormed) (method : MemberId) (closure : UsageSet) :
    model.indirectUses method = .ok closure ↔ model.IsMethod method ∧ model.closureOf method = closure := by
  rw [indirectUses_eq_ok, requireMethod_eq_ok_iff]
  refine and_congr_right fun isMethod => ?_
  rw [(closureFrom_eq_ok formed isMethod.isSome).1, Except.ok.injEq]

end Model

end UsageGraph
