import UsageGraph.Node
import UsageGraph.Tree

/-! Declarations: what a module says about its own types, before any of it is modelled. -/

set_option autoImplicit false
namespace UsageGraph

/-- A type together with the generic arguments that it is applied to. -/
abbrev TypeRef := Tree TypeKey

structure GenericParameter where
  key : TypeKey
  constraints : List TypeRef := []
  deriving DecidableEq

/-- The nodes that a method's body refers to, in order. -/
abbrev Body := List NodeKey

structure MethodDecl where
  key : MemberKey
  returns : Option TypeRef := none
  parameters : List TypeRef := []
  flags : MethodFlags := {}
  attributes : List TypeKey := []
  body : Option Body := none
  deriving DecidableEq

structure FieldDecl where
  key : MemberKey
  type : TypeRef
  attributes : List TypeKey := []
  deriving DecidableEq

structure PropertyDecl where
  key : MemberKey
  type : TypeRef
  attributes : List TypeKey := []
  getter : Option MethodDecl := none
  setter : Option MethodDecl := none
  deriving DecidableEq

structure EventDecl where
  key : MemberKey
  type : TypeRef
  attributes : List TypeKey := []
  adder : Option MethodDecl := none
  remover : Option MethodDecl := none
  deriving DecidableEq

structure Definition where
  key : TypeKey
  isInterface : Bool := false
  isAbstract : Bool := false
  base : Option TypeRef := none
  interfaces : List TypeRef := []
  generics : List GenericParameter := []
  attributes : List TypeKey := []
  fields : List FieldDecl := []
  properties : List PropertyDecl := []
  events : List EventDecl := []
  constructors : List MethodDecl := []
  methods : List MethodDecl := []
  deriving DecidableEq

abbrev TypeDecl := Tree Definition

structure ModuleDecl where
  key : AssemblyKey
  types : List TypeDecl := []
  isDependency : Bool := false
  deriving DecidableEq

def MethodDecl.asConstructor (method : MethodDecl) : MethodDecl :=
  { method with flags := { method.flags with isConstructor := true } }

def Definition.supertypes (definition : Definition) : List TypeRef :=
  definition.base.toList ++ definition.interfaces

namespace ModuleDecl

/-- Every type of a module, each before the types nested in it. -/
def declaredTypes (module : ModuleDecl) : List TypeDecl := Tree.forestSubtrees module.types

/-- The declaration of a type in a module; the last one counts when there are several. -/
def find? (module : ModuleDecl) (key : TypeKey) : Option TypeDecl :=
  module.declaredTypes.reverse.find? fun type => type.label.key = key

end ModuleDecl

end UsageGraph
