import UsageGraph.Scope

/-! Causes of failure and their wording.

A `Violation` is a building step that the open scopes do not allow. A `Fault` is
whatever ends a building step, a traversal, a query or a mapping early.
-/

set_option autoImplicit false
namespace UsageGraph

inductive Opening where
  | assembly (key : AssemblyKey)
  | space (key : NamespaceKey)
  | type (key : TypeKey)
  | member (kind : MemberKind) (key : MemberKey)
  deriving DecidableEq

namespace Opening

def kind : Opening → ScopeKind
  | .assembly _ => .assembly
  | .space _ => .space
  | .type _ => .type
  | .member kind _ => .member kind

def keyText : Opening → String
  | .assembly key => key.text
  | .space key => key.text
  | .type key => key.text
  | .member _ key => key.text

def text (opening : Opening) : String := "Start" ++ opening.kind.text ++ " " ++ opening.keyText

end Opening

inductive Enclosure where
  | assembly (key : AssemblyKey)
  | space (key : NamespaceKey)
  | type (key : TypeKey)
  deriving DecidableEq

def Enclosure.text : Enclosure → String
  | .assembly key => "assembly " ++ key.text
  | .space key => "namespace " ++ key.text
  | .type key => "type " ++ key.text

inductive Filling where
  | typeFlags
  | baseType
  | implementedInterface
  | prototype
  | methodFlags
  | declaredType (kind : MemberKind)
  | usedType
  | usedNode
  | attachedAttribute
  deriving DecidableEq

def Filling.text : Filling → String
  | .typeFlags => "SetTypeFlags"
  | .baseType => "SetBaseType"
  | .implementedInterface => "ImplementsInterface"
  | .prototype => "SetMethodPrototype"
  | .methodFlags => "SetMethodFlags"
  | .declaredType kind => "Set" ++ kind.text ++ "Type"
  | .usedType => "UseType"
  | .usedNode => "UseNode"
  | .attachedAttribute => "HasAttribute"

inductive Violation where
  /-- A scope cannot be opened directly inside the innermost one. -/
  | misplaced (opening : Opening) (innermost : Option ScopeKind)
  /-- A scope can be opened here, but its key belongs elsewhere. -/
  | foreign (opening : Opening) (enclosure : Enclosure)
  | strayAccessor (key : MemberKey)
  | unmatchedClose (kind : ScopeKind) (innermost : Option ScopeKind)
  | noOpenType (filling : Filling)
  | noOpenMember (filling : Filling) (kind : MemberKind)
  /-- The innermost scope holds no usages and no attributes. -/
  | noHolder (filling : Filling) (innermost : Option ScopeKind)
  /-- Building ended with open scopes, outermost first. -/
  | leftOpen (kinds : List ScopeKind)
  | notAMember (key : MemberKey)
  deriving DecidableEq

def innermostText : Option ScopeKind → String
  | some kind => kind.text ++ " scope"
  | none => "no open scope"

def Violation.text : Violation → String
  | .misplaced opening innermost => opening.text ++ " inside " ++ innermostText innermost
  | .foreign opening enclosure => opening.text ++ " inside " ++ enclosure.text
  | .strayAccessor key => "accessor " ++ key.text ++ " outside of a type"
  | .unmatchedClose kind innermost => "End" ++ kind.text ++ " with " ++ innermostText innermost ++ " innermost"
  | .noOpenType filling => filling.text ++ " without an open type"
  | .noOpenMember filling kind => filling.text ++ " without an open " ++ kind.text
  | .noHolder filling (some kind) => filling.text ++ " with " ++ kind.text ++ " as innermost scope"
  | .noHolder filling none => filling.text ++ " without an open member or type"
  | .leftOpen kinds => "builder finished with open scopes: " ++ String.intercalate " > " (kinds.map ScopeKind.text)
  | .notAMember key => key.text ++ " cannot be created as a member"

inductive Fault where
  | violation (cause : Violation)
  /-- A member is stored with another kind than the one asked for. -/
  | kindMismatch (key : MemberKey) (found : MemberKind) (expected : NodeKind)
  | decode (moduleName : String) (reason : String)
  | recursionLimit (limit : Nat)
  | notFound (what : String)
  /-- A position beyond the last node of a level. -/
  | outOfRange (position size : Nat)
  /-- A traversal order that revisits types without end. -/
  | endless
  deriving DecidableEq

/-- The wording of a fault. A violation of the protocol is told without the place in the program that noticed it. -/
def Fault.text : Fault → String
  | .violation cause => "Protocol violation - " ++ cause.text
  | .kindMismatch key found expected => "Member " ++ key.text ++ " is a " ++ found.text ++ ", not a " ++ expected.text
  | .decode moduleName reason => "Failed to decode module " ++ moduleName ++ ": " ++ reason
  | .recursionLimit limit => "Reach the maximum recursion level allowed - " ++ toString limit
  | .notFound what => what
  | .outOfRange position size =>
    "index out of bounds: the len is " ++ toString size ++ " but the index is " ++ toString position
  | .endless => "Traversal does not end"

end UsageGraph
