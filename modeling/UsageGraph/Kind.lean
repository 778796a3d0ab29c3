/-! The kinds of things a model holds: types, and the four kinds of members a type declares. -/

set_option autoImplicit false
namespace UsageGraph

inductive MemberKind where
  | method
  | field
  | property
  | event
  deriving DecidableEq

/-- The kind of a node that can use others and be used: a type or a member of some kind. -/
inductive NodeKind where
  | type
  | member (kind : MemberKind)
  deriving DecidableEq

def MemberKind.text : MemberKind → String
  | .method => "Method"
  | .field => "Field"
  | .property => "Property"
  | .event => "Event"

def NodeKind.text : NodeKind → String
  | .type => "Type"
  | .member kind => kind.text

def NodeKind.all : List NodeKind :=
  [.type, .member .method, .member .field, .member .property, .member .event]

end UsageGraph
