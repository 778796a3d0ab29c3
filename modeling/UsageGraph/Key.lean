import UsageGraph.Kind

/-! Keys name the assemblies, namespaces, types and members of a model.

A key embeds the key of its owner, so a member key names its declaring type, that
type's namespace and the namespace's assembly. Two keys are the same when all their
parts are; their texts are for readers and may coincide for different keys.
-/

set_option autoImplicit false
namespace UsageGraph

structure AssemblyKey where
  name : String
  deriving DecidableEq

structure NamespaceKey where
  assembly : AssemblyKey
  name : String
  deriving DecidableEq

structure TypeKey where
  space : NamespaceKey
  name : String
  /-- The number of generic parameters the type takes. -/
  arity : Nat := 0
  deriving DecidableEq

/-- What tells overloads of one name apart. -/
structure Signature where
  parameters : List TypeKey := []
  arity : Nat := 0
  deriving DecidableEq

structure MemberKey where
  owner : TypeKey
  name : String
  signature : Option Signature := none
  deriving DecidableEq

inductive NodeKey where
  | type (key : TypeKey)
  | member (kind : MemberKind) (key : MemberKey)
  deriving DecidableEq

namespace AssemblyKey

def text (key : AssemblyKey) : String := key.name

end AssemblyKey

namespace NamespaceKey

def isGlobal (key : NamespaceKey) : Bool := key.name = ""

def text (key : NamespaceKey) : String := "[" ++ key.assembly.text ++ "]" ++ key.name

end NamespaceKey

namespace TypeKey

def assembly (key : TypeKey) : AssemblyKey := key.space.assembly

/-- The mark of a generic type: a backtick and the number of its parameters. -/
def arityMark (arity : Nat) : String :=
  if arity = 0 then "" else "`" ++ toString arity

/-- The dotted name within the assembly; a type of the global namespace has its simple name only. -/
def fullName (key : TypeKey) : String :=
  (if key.space.isGlobal then key.name else key.space.name ++ "." ++ key.name) ++ arityMark key.arity

def text (key : TypeKey) : String := "[" ++ key.assembly.text ++ "]" ++ key.fullName

/-- Splits a text at its last dot, which belongs to neither part. -/
def splitAtLastDot : List Char → Option (List Char × List Char)
  | [] => none
  | first :: rest =>
    match splitAtLastDot rest with
    | some (before, after) => some (first :: before, after)
    | none => if first = '.' then some ([], rest) else none

/-- The type of arity zero whose namespace is all that stands before the last dot of the name. -/
def ofFullName (assembly : AssemblyKey) (name : String) : TypeKey :=
  match splitAtLastDot name.toList with
  | some (before, after) => ⟨⟨assembly, String.ofList before⟩, String.ofList after, 0⟩
  | none => ⟨⟨assembly, ""⟩, name, 0⟩

end TypeKey

namespace Signature

def isDefault (signature : Signature) : Bool := signature = {}

/-- The generic arity after two backticks, then the parameters by full name. -/
def text (signature : Signature) : String :=
  (if signature.arity = 0 then "" else "``" ++ toString signature.arity) ++
    "(" ++ String.intercalate ", " (signature.parameters.map TypeKey.fullName) ++ ")"

end Signature

namespace MemberKey

def text (key : MemberKey) : String :=
  key.owner.text ++ "::" ++ key.name ++ (key.signature.map Signature.text).getD ""

end MemberKey

namespace NodeKey

def kind : NodeKey → NodeKind
  | .type _ => .type
  | .member kind _ => .member kind

def typeKey : NodeKey → TypeKey
  | .type key => key
  | .member _ key => key.owner

def memberKey? : NodeKey → Option MemberKey
  | .type _ => none
  | .member _ key => some key

def text : NodeKey → String
  | .type key => key.text
  | .member _ key => key.text

end NodeKey

end UsageGraph
