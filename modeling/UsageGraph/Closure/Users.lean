import UsageGraph.Closure

/-! Users by node, and the impact of a change.

The methods are gone through once, and each is listed under all nodes that it uses. A
change to a node may show in the methods that are listed under it, in their users, and so
on.
-/

set_option autoImplicit false
namespace UsageGraph

/-- The methods that use a node directly, listed under the node. -/
structure UserIndex where
  entries : List (NodeRef × List MemberId) := []
  deriving DecidableEq

namespace UserIndex

def usersOf (index : UserIndex) (target : NodeRef) : List MemberId :=
  ((index.entries.find? fun entry => entry.1 = target).map Prod.snd).getD []

def addTo (target : NodeRef) (user : MemberId) : List (NodeRef × List MemberId) → List (NodeRef × List MemberId)
  | [] => [(target, [user])]
  | (node, users) :: rest =>
    if node = target then (node, users ++ [user]) :: rest else (node, users) :: addTo target user rest

def add (index : UserIndex) (user : MemberId) (target : NodeRef) : UserIndex :=
  ⟨addTo target user index.entries⟩

def addMethod (index : UserIndex) (method : MemberNode) : UserIndex :=
  method.directUses.targets.foldl (fun index target => index.add method.id target) index

theorem usersOf_add (index : UserIndex) (user : MemberId) (target wanted : NodeRef) :
    (index.add user target).usersOf wanted = index.usersOf wanted ++ if wanted = target then [user] else [] := by
  unfold add usersOf
  induction index.entries with
  | nil => by_cases same : wanted = target <;> simp [addTo, same, eq_comm]
  | cons entry rest ih =>
    obtain ⟨node, users⟩ := entry
    by_cases here : node = target
    · by_cases same : wanted = target <;> simp [addTo, here, same, eq_comm]
    · by_cases found : node = wanted
      · have other : wanted ≠ target := fun same => here (found.trans same)
        simp [addTo, found, other]
      · simpa [addTo, here, found] using ih

def users (index : UserIndex) : List MemberId := index.entries.flatMap Prod.snd

theorem usersOf_subset (index : UserIndex) (target : NodeRef) : index.usersOf target ⊆ index.users := by
  intro user listed
  unfold usersOf at listed
  cases found : index.entries.find? (fun entry => entry.1 = target) with
  | none => simp [found] at listed
  | some entry =>
    rw [found] at listed
    exact List.mem_flatMap.mpr ⟨entry, List.mem_of_find?_eq_some found, listed⟩

/-- Collects the queued methods, their users, and so on; what has been collected before is passed over. -/
def collect (index : UserIndex) (queue impacted : List MemberId) : List MemberId :=
  match queue with
  | [] => impacted
  | method :: queue =>
    if method ∈ impacted then index.collect queue impacted
    else
      let impacted := impacted ++ [method]
      index.collect (queue ++ (index.usersOf (.member method)).filter (· ∉ impacted)) impacted
-- only listed users enter the queue, so each step collects one of them, drops one that is not listed, or shortens it
termination_by
  (Search.unvisited index.users impacted + queue.countP (fun method => method ∉ index.users), queue.length)
decreasing_by
  · refine Prod.Lex.right' _ ?_ (Nat.lt_succ_self _)
    rw [List.countP_cons]
    omega
  next passed =>
    have listed : ((index.usersOf (.member method)).filter (· ∉ impacted)).countP
        (fun user => user ∉ index.users) = 0 := by
      rw [List.countP_eq_zero]
      intro user kept
      simpa using index.usersOf_subset _ (List.mem_filter.mp kept).1
    have fewer := Search.unvisited_append_singleton passed index.users
    refine Prod.Lex.left _ _ ?_
    rw [List.countP_append, listed, List.countP_cons]
    by_cases known : method ∈ index.users <;> simp [known] at fewer ⊢ <;> omega

/-- The methods that a change to a node may show in, in the order of their ids. -/
def impactOf (index : UserIndex) (target : NodeRef) : List MemberId :=
  (index.collect (index.usersOf target) []).mergeSort fun first second => first.index ≤ second.index

end UserIndex

def Model.userIndex (model : Model) : UserIndex := model.methods.foldl UserIndex.addMethod {}

end UsageGraph
