import UsageGraph.Id
import UsageGraph.Key

/-! Scopes: the nodes that are open while a model is being built, with the keys they were opened under. -/

set_option autoImplicit false
namespace UsageGraph

inductive ScopeKind where
  | assembly
  | space
  | type
  | member (kind : MemberKind)
  deriving DecidableEq

def ScopeKind.text : ScopeKind → String
  | .assembly => "Assembly"
  | .space => "Namespace"
  | .type => "Type"
  | .member kind => kind.text

inductive Scope where
  | assembly (id : AssemblyId) (key : AssemblyKey)
  | space (id : NamespaceId) (key : NamespaceKey)
  | type (id : TypeId) (key : TypeKey)
  | member (kind : MemberKind) (id : MemberId) (key : MemberKey)
  deriving DecidableEq

namespace Scope

def kind : Scope → ScopeKind
  | .assembly .. => .assembly
  | .space .. => .space
  | .type .. => .type
  | .member kind .. => .member kind

def idText : Scope → String
  | .assembly id _ => id.text
  | .space id _ => id.text
  | .type id _ => id.text
  | .member _ id _ => id.text

def memberId? : Scope → Option MemberId
  | .member _ id _ => some id
  | _ => none

/-- The node that holds the usages recorded in the scope; assemblies and namespaces hold none. -/
def holder? : Scope → Option NodeRef
  | .type id _ => some (.type id)
  | .member _ id _ => some (.member id)
  | _ => none

end Scope

end UsageGraph
