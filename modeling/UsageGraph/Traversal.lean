import UsageGraph.Traversal.Parts

/-! Traversals of a module.

An order lists the phases in which a type is visited. Two orders are provided: one visits
supertypes before the type that needs them, the other a type before its supertypes. Both
claim a type first and complete it last, so that no type is visited twice.
-/

set_option autoImplicit false
namespace UsageGraph

inductive Phase where
  /-- Goes on with the later phases only if the type is granted. -/
  | claim
  | supertypes
  | openType
  | interfaces
  | generics
  | attributes
  | base
  | dataMembers
  | methods
  | nested
  | closeType
  | complete
  deriving DecidableEq

abbrev Order := List Phase

inductive Traversal where
  | reflection
  | topDown
  deriving DecidableEq

namespace Traversal

def all : List Traversal := [.reflection, .topDown]

def default : Traversal := .topDown

def name : Traversal → String
  | .reflection => "Reflection"
  | .topDown => "TopDown"

def order : Traversal → Order
  | .reflection =>
    [.claim, .openType, .dataMembers, .methods, .nested, .attributes, .generics, .interfaces, .base,
      .closeType, .supertypes, .complete]
  | .topDown =>
    [.claim, .supertypes, .openType, .interfaces, .generics, .attributes, .base, .dataMembers, .methods,
      .nested, .closeType, .complete]

end Traversal

def ModuleDecl.supertypesOf (module : ModuleDecl) (definition : Definition) : List TypeDecl :=
  definition.supertypes.filterMap fun reference => module.find? reference.label

/-- A depth that visits of types within one another reach only when they go round in circles. -/
def ModuleDecl.depthBound (module : ModuleDecl) : Nat :=
  let types := module.declaredTypes.length + 2
  types * types * types

namespace Visit

/-- Visits one phase of a type, given how to visit the types that it leads to, and tells
whether the later phases follow. -/
def phase (module : ModuleDecl) (options : Options) (visit : TypeDecl → Visit Unit) (type : TypeDecl) :
    Phase → Visit Bool
  | .claim => do
    let granted ← claim options type.label.key
    note (.claimed type.label.key granted)
    return granted
  | .supertypes => do
    let supertypes := module.supertypesOf type.label
    note (.supertypes (supertypes.map fun supertype => supertype.label.key))
    supertypes.forM visit
    return true
  | .openType => do
    openType options type.label
    return true
  | .interfaces => do
    interfaces type.label
    return true
  | .generics => do
    generics type.label
    return true
  | .attributes => do
    attributes options type.label.attributes
    return true
  | .base => do
    base type.label
    return true
  | .dataMembers => do
    dataMembers options type.label
    return true
  | .methods => do
    methods options type.label
    return true
  | .nested => do
    type.children.forM visit
    return true
  | .closeType => do
    closeType
    return true
  | .complete => do
    complete type.label.key
    note (.completed type.label.key (← get).completed.length)
    return true

def phases (module : ModuleDecl) (options : Options) (visit : TypeDecl → Visit Unit) (type : TypeDecl) :
    Order → Visit Unit
  | [] => pure ()
  | first :: rest => do
    if ← phase module options visit type first then
      phases module options visit type rest

def type (module : ModuleDecl) (options : Options) (order : Order) : Nat → TypeDecl → Visit Unit
  | 0, _ => throw .endless
  | depth + 1, declared => phases module options (type module options order depth) declared order

def module (module : ModuleDecl) (options : Options) (order : Order) : Visit Unit := do
  step (.startAssembly module.key (!options.primary))
  module.types.forM (type module options order module.depthBound)
  step (.close .assembly)

end Visit

/-- Everything that a traversal of a module does, and how it ends if no action fails. -/
def ModuleDecl.script (module : ModuleDecl) (options : Options) (order : Order) : Script (Except Fault Unit) :=
  Prod.fst <$> Visit.module module options order (Walk.start options.maxDepth)

/-- Traverses a module into a model. When that fails, scopes are left open. -/
def Builder.visitInOrder (builder : Builder) (module : ModuleDecl) (options : Options) (order : Order)
    (scanner : Scanner) : Outcome Unit :=
  let outcome := (module.script options order).run scanner builder
  { outcome with result := outcome.result.bind id }

def Builder.visit (builder : Builder) (module : ModuleDecl) (options : Options) (traversal : Traversal)
    (scanner : Scanner) : Outcome Unit :=
  builder.visitInOrder module options traversal.order scanner

end UsageGraph
