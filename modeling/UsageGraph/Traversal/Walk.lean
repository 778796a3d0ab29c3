import UsageGraph.Guard
import UsageGraph.Options
import UsageGraph.Script

/-! The state of a traversal, and the elements of which visits are made.

A walk knows which types are in progress, which generic references are being followed
and which types have been completed. A visit emits building steps and may end in a fault
of its own, when a guard is too deep; the walk is kept either way.
-/

set_option autoImplicit false
namespace UsageGraph

structure Walk where
  /-- The types in progress. -/
  definitions : Guard TypeKey
  /-- The generic references in progress. -/
  references : Guard TypeRef
  completed : List TypeKey := []

def Walk.start (limit : Nat) : Walk where
  definitions := { limit }
  references := { limit }

/-- A part of a traversal: it emits actions, and leaves a value or a fault and the walk. -/
abbrev Visit := ExceptT Fault (StateT Walk Script)

namespace Visit

variable {α : Type}

def emit (action : Action) : Visit Unit := ExceptT.lift (StateT.lift (Script.emit action))

def step (op : Op) : Visit Unit := emit (.op op)

def note (entry : Note) : Visit Unit := emit (.note entry)

def ofExcept (result : Except Fault α) : Visit α := ExceptT.mk (pure result)

theorem bind_apply {β : Type} (visit : Visit α) (next : α → Visit β) (walk : Walk) :
    (visit >>= next) walk = (visit walk : Script (Except Fault α × Walk)) >>= fun done =>
      match done.1 with
      | .ok answer => next answer done.2
      | .error fault => Script.done (.error fault, done.2) := by
  show ExceptT.bind visit next walk = _
  simp only [ExceptT.bind, ExceptT.mk]
  show (visit walk : Script (Except Fault α × Walk)) >>= _ = _
  congr 1
  funext done
  obtain ⟨result, after⟩ := done
  cases result <;> rfl

theorem emit_apply (action : Action) (walk : Walk) :
    emit action walk = Script.act action fun _ => .done (.ok (), walk) := rfl

theorem forM_induction (holds : Visit Unit → Prop) (nothing : holds (pure ()))
    (sequence : ∀ {first second}, holds first → holds second → holds (first >>= fun _ => second))
    {items : List α} {visit : α → Visit Unit} (each : ∀ item ∈ items, holds (visit item)) :
    holds (items.forM visit) := by
  induction items with
  | nil => exact nothing
  | cons item rest ih =>
    exact sequence (each item List.mem_cons_self) (ih fun other member => each other (List.mem_cons_of_mem _ member))

/-- Claims a type for a visit. It is not granted for types that are not allowed, in progress or completed. -/
def claim (options : Options) (key : TypeKey) : Visit Bool := do
  let walk ← get
  if walk.completed.contains key || !options.visitsType key then return false
  let (begun, definitions) ← ofExcept (walk.definitions.enter key)
  set { walk with definitions }
  return begun

def complete (key : TypeKey) : Visit Unit :=
  modify fun walk =>
    { walk with definitions := walk.definitions.leave, completed := walk.completed.insert key }

def enterReference (reference : TypeRef) : Visit Bool := do
  let walk ← get
  let (begun, references) ← ofExcept (walk.references.enter reference)
  set { walk with references }
  return begun

/-- Ends the innermost reference after a visit, however the visit ends. -/
def leavingReference (visit : Visit α) : Visit α := fun walk => do
  let (result, walk) ← visit walk
  return (result, { walk with references := walk.references.leave })

mutual

/-- Uses a type and then, one after the other, the generic arguments that it is applied to. -/
def useRef : TypeRef → Visit Unit
  | .node key arguments => do
    step (.useType key)
    unless arguments.isEmpty do
      if ← enterReference (.node key arguments) then
        leavingReference (useRefs arguments)

def useRefs : List TypeRef → Visit Unit
  | [] => pure ()
  | reference :: rest => do
    useRef reference
    useRefs rest

end

end Visit

end UsageGraph
