import UsageGraph.Builder.Op
import UsageGraph.Scanner

/-! Scripts: the actions that a traversal takes on a builder, as data.

A script does not see what its actions answer, so it can be read off a module alone. Its
rest is computed on demand: once an action fails, what would have followed is not computed.
-/

set_option autoImplicit false
namespace UsageGraph

/-- What a traversal tells about its own course. -/
inductive Note where
  /-- A type was to be visited, and was granted or not. -/
  | claimed (key : TypeKey) (granted : Bool)
  /-- The supertypes of a type in the same module. -/
  | supertypes (keys : List TypeKey)
  /-- A type has been visited; the number of types visited so far, this one included. -/
  | completed (key : TypeKey) (count : Nat)
  deriving DecidableEq

inductive Action where
  | op (step : Op)
  | scan (body : Body)
  | note (entry : Note)
  deriving DecidableEq

/-- A note with the number of scopes that were open when it was taken. -/
structure TraceEntry where
  note : Note
  depth : Nat
  deriving DecidableEq

def Action.perform (scanner : Scanner) : Action → Build (List TraceEntry)
  | .op step => do
    let _ ← step.perform
    return []
  | .scan body => do
    scanner.scan body
    return []
  | .note entry => do return [⟨entry, (← get).depth⟩]

inductive Script (α : Type) where
  | done (answer : α)
  | act (action : Action) (rest : Unit → Script α)

namespace Script

variable {α β : Type}

def bind (script : Script α) (next : α → Script β) : Script β :=
  match script with
  | .done answer => next answer
  | .act action rest => .act action fun _ => (rest ()).bind next

instance : Monad Script where
  pure := .done
  bind := bind

@[simp] theorem bind_act (action : Action) (rest : Unit → Script α) (next : α → Script β) :
    (Script.act action rest >>= next) = .act action fun _ => rest () >>= next := rfl

theorem map_id (script : Script α) : id <$> script = script := by
  induction script with
  | done answer => rfl
  | act action rest ih =>
    show Script.act action (fun _ => id <$> rest ()) = _
    rw [ih ()]

theorem bind_assoc {γ : Type} (script : Script α) (first : α → Script β) (second : β → Script γ) :
    script >>= first >>= second = script >>= fun answer => first answer >>= second := by
  induction script with
  | done answer => rfl
  | act action rest ih => simp only [bind_act, ih ()]

instance : LawfulMonad Script := LawfulMonad.mk' Script map_id (fun _ _ => rfl) bind_assoc

def emit (action : Action) : Script Unit := .act action fun _ => .done ()

def actions : Script α → List Action
  | .done _ => []
  | .act action rest => action :: (rest ()).actions

def answer : Script α → α
  | .done answer => answer
  | .act _ rest => (rest ()).answer

theorem actions_bind (script : Script α) (next : α → Script β) :
    (script >>= next).actions = script.actions ++ (next script.answer).actions := by
  induction script with
  | done answer => rfl
  | act action rest ih => simp only [bind_act, actions, answer, ih (), List.cons_append]

theorem answer_bind (script : Script α) (next : α → Script β) :
    (script >>= next).answer = (next script.answer).answer := by
  induction script with
  | done answer => rfl
  | act action rest ih => simp only [bind_act, answer, ih ()]

end Script

/-- How a script ended, with the builder and the notes that it left. -/
structure Outcome (α : Type) where
  result : Except Fault α
  builder : Builder
  trace : List TraceEntry := []

def Script.run {α : Type} (scanner : Scanner) : Script α → Builder → Outcome α
  | .done answer, builder => { result := .ok answer, builder }
  | .act action rest, builder =>
    match action.perform scanner builder with
    | (.ok entries, builder) =>
      let outcome := (rest ()).run scanner builder
      { outcome with trace := entries ++ outcome.trace }
    | (.error fault, builder) => { result := .error fault, builder }

end UsageGraph
