import UsageGraph.Model.Ensure
import UsageGraph.Scope.Rules

/-! Building a model under a stack of open scopes.

A node is opened inside the scope that owns it, filled in while it is open, and closed
when it is innermost. A step that the open scopes do not allow is refused. The builder
outlives a step that fails, so the next step goes on from what the failed one left.
-/

set_option autoImplicit false
namespace UsageGraph

structure Builder where
  model : Model := {}
  /-- Innermost first. -/
  scopes : List Scope := []
  deriving DecidableEq

/-- A step of building: a value or a fault, and the builder afterwards. -/
abbrev Build := ExceptT Fault (StateM Builder)

namespace Builder

variable {α β : Type}

def depth (builder : Builder) : Nat := builder.scopes.length

def innermost? (builder : Builder) : Option Scope := builder.scopes.head?

def finish (builder : Builder) : Except Fault Unit := (Scopes.finish builder.scopes).mapError .violation

def ask (question : List Scope → Except Violation α) : Build α := fun builder =>
  ((question builder.scopes).mapError .violation, builder)

/-- Changes the model by something that may fail after it has begun. -/
def attempt (change : Model → Except Fault α × Model) : Build α := fun builder =>
  let done := change builder.model
  (done.1, { builder with model := done.2 })

def edit (change : Model → α × Model) : Build α := fun builder =>
  let done := change builder.model
  (.ok done.1, { builder with model := done.2 })

def update (change : Model → Model) : Build Unit := fun builder =>
  (.ok (), { builder with model := change builder.model })

def setScopes (scopes : List Scope) : Build Unit := fun builder => (.ok (), { builder with scopes })

def enter (scope : Scope) : Build Unit := fun builder =>
  (.ok (), { builder with scopes := scope :: builder.scopes })

/-- A sequence of steps stops at the first fault, with the builder that the failing step left. -/
theorem bind_apply (step : Build α) (next : α → Build β) (builder : Builder) :
    (step >>= next) builder =
      match (step builder).1 with
      | .ok answer => next answer (step builder).2
      | .error fault => (.error fault, (step builder).2) := by
  show ExceptT.bind step next builder = _
  simp only [ExceptT.bind, ExceptT.mk, bind, StateT.bind]
  cases done : step builder with
  | mk result after => cases result <;> rfl

/-- Opens an assembly, which stays a dependency only if it is always opened as one. -/
def startAssembly (key : AssemblyKey) (isDependency : Bool) : Build AssemblyId := do
  ask (Scopes.admitAssembly key)
  let id ← edit (·.ensureAssembly key)
  update (·.modifyAssembly id fun node => { node with isDependency := node.isDependency && isDependency })
  enter (.assembly id key)
  return id

def startSpace (key : NamespaceKey) : Build NamespaceId := do
  ask (Scopes.admitSpace key)
  let id ← edit (·.ensureSpace key)
  enter (.space id key)
  return id

/-- Opens a type, in full or for its signature only. An external type stops being external. -/
def startType (key : TypeKey) (signatureOnly : Bool) : Build TypeId := do
  ask (Scopes.admitType key)
  let id ← edit (·.ensureType key)
  update (·.modifyType id fun node =>
    { node with visitation := node.visitation.opened signatureOnly, isExternal := false })
  enter (.type id key)
  return id

def startMember (kind : MemberKind) (key : MemberKey) (signatureOnly : Bool) : Build MemberId := do
  ask (Scopes.admitMember kind key)
  let id ← attempt (·.ensureMember key (.member kind))
  update (·.modifyMember id fun node => { node with visitation := node.visitation.opened signatureOnly })
  enter (.member kind id key)
  return id

def close (kind : ScopeKind) : Build Unit := do
  let outer ← ask (Scopes.close kind)
  setScopes outer

def setTypeFlags (isInterface isAbstract : Bool) : Build Unit := do
  let id ← ask (Scopes.typeToFill .typeFlags)
  update (·.modifyType id fun node => { node with isInterface, isAbstract })

def setBaseType (key : TypeKey) : Build TypeId := do
  let id ← ask (Scopes.typeToFill .baseType)
  let base ← edit (·.ensureType key)
  update (·.modifyType id fun node => { node with base := some base })
  return base

def addInterface (key : TypeKey) : Build TypeId := do
  let id ← ask (Scopes.typeToFill .implementedInterface)
  let implemented ← edit (·.ensureType key)
  update (·.modifyType id fun node => { node with interfaces := addOnce node.interfaces implemented })
  return implemented

def setPrototype (returns : Option TypeKey) (parameters : List TypeKey) : Build Unit := do
  let id ← ask (Scopes.memberToFill .prototype .method)
  let returned ← edit (·.ensureType? returns)
  let taken ← edit (·.ensureTypes parameters)
  update (·.modifyMember id fun node =>
    { node with declaredType := returned, detail := node.detail.setParameters taken })

def setMethodFlags (flags : MethodFlags) : Build Unit := do
  let id ← ask (Scopes.memberToFill .methodFlags .method)
  update (·.modifyMember id fun node => { node with detail := node.detail.setFlags flags })

def setDeclaredType (kind : MemberKind) (key : TypeKey) : Build TypeId := do
  let id ← ask (Scopes.memberToFill (.declaredType kind) kind)
  let declared ← edit (·.ensureType key)
  update (·.modifyMember id fun node => { node with declaredType := some declared })
  return declared

/-- Links a property or event to a method that serves it. Both are ensured, open or not. -/
def setAccessor (slot : Slot) (ownerKey accessorKey : MemberKey) : Build Unit := do
  let owner ← attempt (·.ensureMember ownerKey (.member slot.ownerKind))
  let accessor ← attempt (·.ensureMember accessorKey (.member .method))
  update (·.modifyMember owner fun node => { node with detail := node.detail.setAccessor slot accessor })

def useType (key : TypeKey) : Build Unit := do
  let holder ← ask (Scopes.holder .usedType)
  let target ← edit (·.ensureType key)
  update (·.recordUsage holder (.type target))

def useNode (key : NodeKey) : Build Unit := do
  let holder ← ask (Scopes.holder .usedNode)
  let target ← attempt (·.ensureNode key)
  update (·.recordUsage holder target)

def addAttribute (key : TypeKey) : Build Unit := do
  let holder ← ask (Scopes.holder .attachedAttribute)
  let type ← edit (·.ensureType key)
  update (·.recordAttribute holder type)

end Builder

end UsageGraph
