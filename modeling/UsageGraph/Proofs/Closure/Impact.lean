import Mathlib.Data.List.Nodup
import UsageGraph.Proofs.Closure.Forward

/-! Impact is the forward closure read backwards.

A method is listed as a user of the nodes that it uses, so the search for the methods that
a change shows in goes along calls the other way round. Nobody uses a node that is not in
the model, so nothing shows a change to it.
-/

set_option autoImplicit false
namespace UsageGraph

namespace UserIndex

theorem usersOf_foldl_add (user : MemberId) (targets : List NodeRef) (index : UserIndex) (wanted : NodeRef) :
    (targets.foldl (fun index target => index.add user target) index).usersOf wanted =
      index.usersOf wanted ++ List.replicate (targets.count wanted) user := by
  induction targets generalizing index with
  | nil => simp
  | cons target rest ih =>
    rw [List.foldl_cons, ih, usersOf_add, List.append_assoc, List.count_cons]
    by_cases same : wanted = target
    · simp [same, List.replicate_succ]
    · simp [same, Ne.symm same]

/-- A method that names each target once is listed once under each. -/
theorem usersOf_addMethod {method : MemberNode} (distinct : method.directUses.targets.Nodup) (index : UserIndex)
    (wanted : NodeRef) : (index.addMethod method).usersOf wanted =
      index.usersOf wanted ++ if method.directUses.contains wanted then [method.id] else [] := by
  unfold addMethod
  rw [usersOf_foldl_add]
  congr 1
  by_cases used : wanted ∈ method.directUses.targets
  · rw [List.count_eq_one_of_mem distinct used, if_pos ((method.indexed_directUses.contains_iff _).mpr used)]
    rfl
  · rw [List.count_eq_zero_of_not_mem used, if_neg (mt (method.indexed_directUses.contains_iff _).mp used)]
    rfl

theorem usersOf_foldl_addMethod {methods : List MemberNode}
    (distinct : ∀ method ∈ methods, method.directUses.targets.Nodup) (index : UserIndex) (wanted : NodeRef) :
    (methods.foldl addMethod index).usersOf wanted = index.usersOf wanted ++
      (methods.filter fun method => method.directUses.contains wanted).map MemberNode.id := by
  induction methods generalizing index with
  | nil => simp
  | cons method rest ih =>
    have first := usersOf_addMethod (distinct method List.mem_cons_self) index wanted
    have others := ih (fun other member => distinct other (List.mem_cons_of_mem _ member)) (index.addMethod method)
    rw [List.foldl_cons, others, first, List.append_assoc, List.filter_cons]
    by_cases used : method.directUses.contains wanted <;> simp [used]

end UserIndex

namespace Model

/-- The methods whose closure has a node, found by asking every method. -/
def impactOf (model : Model) (target : NodeRef) : List MemberId :=
  (model.methods.map MemberNode.id).filter fun method => target ∈ (model.closureOf method).targets

def impactOfKey (model : Model) (key : NodeKey) : Except Fault (List MemberId) :=
  match model.resolve? key with
  | some target => .ok (model.impactOf target)
  | none => .error (.notFound key.text)

theorem nodup_of_ascending {ids : List MemberId}
    (ascending : ids.Pairwise fun first second => first.index < second.index) : ids.Nodup :=
  ascending.imp fun before same => absurd (same ▸ before) (Nat.lt_irrefl _)

section Formed

variable {model : Model} (formed : model.WellFormed)
include formed

theorem WellFormed.mem_methods_iff (node : MemberNode) :
    node ∈ model.methods ↔ model.member? node.id = some node ∧ node.isMethod = true := by
  unfold methods
  rw [List.mem_filter]
  refine and_congr_left fun _ => ?_
  constructor
  · intro member
    obtain ⟨position, found⟩ := List.mem_iff_getElem?.mp member
    have held : model.member? ⟨position⟩ = some node := by simpa [member?] using found
    rw [formed.member_id held]
    exact held
  · exact fun held => Array.mem_toList_iff.mpr (Array.mem_of_getElem? held)

theorem WellFormed.mem_methodIds_iff (method : MemberId) :
    method ∈ model.methods.map MemberNode.id ↔ model.IsMethod method := by
  rw [List.mem_map]
  constructor
  · rintro ⟨node, member, rfl⟩
    exact ⟨node, (formed.mem_methods_iff node).mp member⟩
  · rintro ⟨node, held, isMethod⟩
    obtain rfl := formed.member_id held
    exact ⟨node, (formed.mem_methods_iff node).mpr ⟨held, isMethod⟩, rfl⟩

theorem WellFormed.methodIds_ascending :
    (model.methods.map MemberNode.id).Pairwise fun first second => first.index < second.index := by
  refine List.pairwise_map.mpr (List.Pairwise.filter _ (List.pairwise_iff_getElem.mpr ?_))
  intro first second bound bound' before
  have position : ∀ place (bound : place < model.members.toList.length),
      model.members.toList[place].id.index = place := by
    intro place bound
    have held : model.member? ⟨place⟩ = some model.members.toList[place] := by simp [member?]
    rw [formed.member_id held]
  rwa [position, position]

theorem WellFormed.nodup_methodIds : (model.methods.map MemberNode.id).Nodup :=
  nodup_of_ascending formed.methodIds_ascending

theorem mem_usersOf_iff (target : NodeRef) (method : MemberId) :
    method ∈ model.userIndex.usersOf target ↔ model.IsMethod method ∧ target ∈ (model.usesOf method).targets := by
  have distinct : ∀ method ∈ model.methods, method.directUses.targets.Nodup := by
    -- a method records each target once, and its own type's nodes are only left out
    intro method member
    obtain ⟨held, _⟩ := (formed.mem_methods_iff method).mp member
    have distinct := (backs_usesOf formed method.id).distinct
    rwa [usesOf_eq held] at distinct
  have listed : model.userIndex.usersOf target =
      (model.methods.filter fun method => method.directUses.contains target).map MemberNode.id :=
    UserIndex.usersOf_foldl_addMethod distinct {} target
  simp only [listed, List.mem_map, List.mem_filter, (MemberNode.indexed_directUses _).contains_iff,
    formed.mem_methods_iff]
  constructor
  · rintro ⟨node, ⟨⟨held, isMethod⟩, used⟩, rfl⟩
    rw [usesOf_eq held]
    exact ⟨⟨node, held, isMethod⟩, used⟩
  · rintro ⟨⟨node, held, isMethod⟩, used⟩
    rw [usesOf_eq held] at used
    obtain rfl := formed.member_id held
    exact ⟨node, ⟨⟨held, isMethod⟩, used⟩, rfl⟩

theorem isMethod_of_users {target : NodeRef} {start method : MemberId} (first : start ∈ model.userIndex.usersOf target)
    (path : Relation.ReflTransGen model.userIndex.Shows start method) : model.IsMethod method := by
  cases path with
  | refl => exact ((mem_usersOf_iff formed target _).mp first).1
  | tail _ last => exact ((mem_usersOf_iff formed _ _).mp last).1

theorem path_iff_calls {start method : MemberId} (isMethod : model.IsMethod method) (begun : model.IsMethod start) :
    Relation.ReflTransGen model.userIndex.Shows start method ↔ Relation.ReflTransGen model.Calls method start := by
  constructor
  · intro path
    induction path with
    | refl => exact .refl
    | tail before last ih =>
      obtain ⟨_, used⟩ := (mem_usersOf_iff formed _ _).mp last
      cases before with
      | refl => exact .single ⟨used, begun⟩
      | tail _ earlier =>
        have between := ((mem_usersOf_iff formed _ _).mp earlier).1
        exact .head ⟨used, between⟩ (ih between)
  · intro path
    induction path using Relation.ReflTransGen.head_induction_on with
    | refl => exact .refl
    | head calls _ ih => exact .tail (ih calls.2) ((mem_usersOf_iff formed _ _).mpr ⟨isMethod, calls.1⟩)

theorem mem_impact_iff (target : NodeRef) (method : MemberId) :
    method ∈ model.userIndex.impactOf target ↔
      model.IsMethod method ∧ target ∈ (model.closureOf method).targets := by
  rw [UserIndex.mem_impactOf_iff]
  constructor
  · rintro ⟨start, first, path⟩
    obtain ⟨begun, used⟩ := (mem_usersOf_iff formed target start).mp first
    have isMethod := isMethod_of_users formed first path
    refine ⟨isMethod, (mem_closureOf_iff formed isMethod.isSome target).mpr ⟨start, ?_, used⟩⟩
    exact (path_iff_calls formed isMethod begun).mp path
  · rintro ⟨isMethod, used⟩
    obtain ⟨start, path, used⟩ := (mem_closureOf_iff formed isMethod.isSome target).mp used
    have begun : model.IsMethod start := by
      cases path with
      | refl => exact isMethod
      | tail _ calls => exact calls.2
    refine ⟨start, (mem_usersOf_iff formed target start).mpr ⟨begun, used⟩, ?_⟩
    exact (path_iff_calls formed isMethod begun).mpr path

theorem mem_impactOf_iff (target : NodeRef) (method : MemberId) :
    method ∈ model.impactOf target ↔ model.IsMethod method ∧ target ∈ (model.closureOf method).targets := by
  unfold impactOf
  rw [List.mem_filter, formed.mem_methodIds_iff, decide_eq_true_eq]

theorem impactOf_ascending (target : NodeRef) :
    (model.impactOf target).Pairwise fun first second => first.index < second.index :=
  formed.methodIds_ascending.filter _

/-- The search along users gives the same list as asking every method for its closure. -/
theorem impactOf_userIndex (target : NodeRef) : model.userIndex.impactOf target = model.impactOf target := by
  have searched := model.userIndex.impactOf_ascending target
  have asked := impactOf_ascending formed target
  refine List.Perm.eq_of_pairwise ?_ searched asked ?_
  · exact fun first second _ _ before after => absurd (before.trans after) (Nat.lt_irrefl _)
  · refine (List.perm_ext_iff_of_nodup (nodup_of_ascending searched) (nodup_of_ascending asked)).mpr fun method => ?_
    rw [mem_impact_iff formed, mem_impactOf_iff formed]

end Formed

end Model

end UsageGraph
