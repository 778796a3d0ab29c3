import UsageGraph.Closure.Search
import UsageGraph.Model

/-! Usage closures.

A method uses indirectly what it uses itself and what the methods that it uses use in
turn. The search goes from method to method, breadth first, and asks the model for each.
-/

set_option autoImplicit false
namespace UsageGraph.Model

def memberIds (model : Model) : List MemberId := (List.range model.members.size).map Id.mk

theorem mem_memberIds_iff (model : Model) (id : MemberId) : id ∈ model.memberIds ↔ (model.member? id).isSome := by
  cases id
  simp [memberIds, member?]

/-- Adds what the queued methods use, and what the methods use that they lead to and that have not been visited. A
usage that leads out of the model ends the search. -/
def expand (model : Model) (queue visited : List MemberId) (closure : UsageSet) : Except Fault UsageSet :=
  match queue with
  | [] => .ok closure
  | method :: queue =>
    match _held : model.member? method with
    | none => .error (.outOfRange method.index model.members.size)
    | some node =>
      let callees := Search.fresh visited node.directUses.methods
      model.expand (queue ++ callees) (visited ++ callees) (closure.union node.directUses)
-- a method in the model leaves the queue for good, and one that enters it has not been visited before
termination_by Search.unvisited model.memberIds visited + queue.countP fun method => method ∈ model.memberIds
decreasing_by
  have known : method ∈ model.memberIds := (mem_memberIds_iff model method).mpr (by simp [_held])
  have fewer := Search.unvisited_append_fresh model.memberIds visited node.directUses.methods
  simp only [List.countP_append, List.countP_cons, known, decide_true, if_true]
  omega

def closureFrom (model : Model) (method : MemberId) : Except Fault UsageSet := model.expand [method] [method] {}

def requireMethod (model : Model) (method : MemberId) : Except Fault Unit :=
  match model.member? method with
  | none => .error (.notFound method.text)
  | some node => if node.isMethod then .ok () else .error (.notFound (node.key.text ++ " is not a method"))

end UsageGraph.Model
