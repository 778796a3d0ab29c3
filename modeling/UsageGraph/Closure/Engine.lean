import UsageGraph.Closure.Users

/-! An engine that answers closure queries about one model.

It remembers the closures that it has computed, and the users of all nodes once it has
been asked for the impact of a change.
-/

set_option autoImplicit false
namespace UsageGraph

structure Engine where
  model : Model
  cache : List (MemberId × UsageSet) := []
  users : Option UserIndex := none

namespace Engine

def cacheSize (engine : Engine) : Nat := engine.cache.length

def cached? (engine : Engine) (method : MemberId) : Option UsageSet :=
  (engine.cache.find? fun entry => entry.1 = method).map Prod.snd

/-- Answers for methods only, from the cache where it can, and otherwise remembers what it has computed. -/
def indirectUses (engine : Engine) (method : MemberId) : Except Fault UsageSet × Engine :=
  match engine.model.requireMethod method with
  | .error fault => (.error fault, engine)
  | .ok () =>
    match engine.cached? method with
    | some closure => (.ok closure, engine)
    | none =>
      match engine.model.closureFrom method with
      | .ok closure => (.ok closure, { engine with cache := engine.cache ++ [(method, closure)] })
      | .error fault => (.error fault, engine)

def indirectUsesOf (engine : Engine) : List MemberId → Except Fault (List (MemberId × UsageSet)) × Engine
  | [] => (.ok [], engine)
  | method :: rest =>
    match engine.indirectUses method with
    | (.ok closure, engine) =>
      let (closures, engine) := engine.indirectUsesOf rest
      (closures.map ((method, closure) :: ·), engine)
    | (.error fault, engine) => (.error fault, engine)

def closures (engine : Engine) : Except Fault (List (MemberId × UsageSet)) × Engine :=
  engine.indirectUsesOf (engine.model.methods.map MemberNode.id)

def directUses? (engine : Engine) (node : NodeRef) : Option UsageSet := engine.model.directUses? node

/-- The users of all nodes, listed when they are first asked for. -/
def userIndex (engine : Engine) : UserIndex × Engine :=
  match engine.users with
  | some index => (index, engine)
  | none =>
    let index := engine.model.userIndex
    (index, { engine with users := some index })

def impact (engine : Engine) (target : NodeRef) : List MemberId × Engine :=
  let (index, engine) := engine.userIndex
  (index.impactOf target, engine)

def impactByKey (engine : Engine) (key : NodeKey) : Except Fault (List MemberId) × Engine :=
  match engine.model.resolve? key with
  | some target =>
    let (methods, engine) := engine.impact target
    (.ok methods, engine)
  | none => (.error (.notFound key.text), engine)

end Engine

end UsageGraph
