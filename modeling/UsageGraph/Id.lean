/-! Ids of nodes. A model issues the ids of each level in sequence, starting at zero. -/

set_option autoImplicit false
namespace UsageGraph

inductive Level where
  | assembly
  | space
  | type
  | member
  deriving DecidableEq

structure Id (level : Level) where
  index : Nat
  deriving DecidableEq

abbrev AssemblyId := Id .assembly
abbrev NamespaceId := Id .space
abbrev TypeId := Id .type
abbrev MemberId := Id .member

def Level.mark : Level → String
  | .assembly => "asm"
  | .space => "ns"
  | .type => "ty"
  | .member => "m"

def Id.text {level : Level} (id : Id level) : String := level.mark ++ toString id.index

inductive NodeRef where
  | type (id : TypeId)
  | member (id : MemberId)
  deriving DecidableEq

def NodeRef.text : NodeRef → String
  | .type id => id.text
  | .member id => id.text

end UsageGraph
