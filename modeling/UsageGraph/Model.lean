import UsageGraph.Fault
import UsageGraph.Node

/-! The model: all nodes of a mapping, found by id and by key.

Nodes of each level stand in the order of their creation, and an id is a position in
that order. By key a node is found from its owner: an assembly lists its namespaces, a
namespace its types, a type its members.
-/

set_option autoImplicit false
namespace UsageGraph

structure Model where
  assemblies : Array AssemblyNode := #[]
  spaces : Array NamespaceNode := #[]
  types : Array TypeNode := #[]
  members : Array MemberNode := #[]
  index : Index AssemblyKey AssemblyId := {}
  deriving DecidableEq

namespace Model

def assembly? (model : Model) (id : AssemblyId) : Option AssemblyNode := model.assemblies[id.index]?

def space? (model : Model) (id : NamespaceId) : Option NamespaceNode := model.spaces[id.index]?

def type? (model : Model) (id : TypeId) : Option TypeNode := model.types[id.index]?

def member? (model : Model) (id : MemberId) : Option MemberNode := model.members[id.index]?

def usageOf? (model : Model) : NodeRef → Option Usage
  | .type id => (model.type? id).map fun node => ⟨.type id, .type, node.id⟩
  | .member id => (model.member? id).map fun node => ⟨.member id, .member node.kind, node.owner⟩

/-- The usages that lead from a node outside its own type. -/
def directUses? (model : Model) : NodeRef → Option UsageSet
  | .type id => (model.type? id).map TypeNode.directUses
  | .member id => (model.member? id).map MemberNode.directUses

def usages? (model : Model) : NodeRef → Option UsageSet
  | .type id => (model.type? id).map TypeNode.usages
  | .member id => (model.member? id).map MemberNode.usages

def keyText? (model : Model) : NodeRef → Option String
  | .type id => (model.type? id).map fun node => node.key.text
  | .member id => (model.member? id).map fun node => node.key.text

def findAssembly? (model : Model) (key : AssemblyKey) : Option AssemblyNode :=
  (model.index.find? key).bind model.assembly?

def findSpace? (model : Model) (key : NamespaceKey) : Option NamespaceNode :=
  (model.findAssembly? key.assembly).bind fun owner => (owner.spaces.find? key).bind model.space?

def findType? (model : Model) (key : TypeKey) : Option TypeNode :=
  (model.findSpace? key.space).bind fun owner => (owner.types.find? key).bind model.type?

def findMember? (model : Model) (key : MemberKey) : Option MemberNode :=
  (model.findType? key.owner).bind fun owner => (owner.members.find? key).bind model.member?

def findMethod? (model : Model) (key : MemberKey) : Option MemberNode :=
  (model.findMember? key).filter MemberNode.isMethod

/-- The node that a key names, if it has the kind that the key says. -/
def resolve? (model : Model) : NodeKey → Option NodeRef
  | .type key => (model.findType? key).map fun node => .type node.id
  | .member kind key =>
    ((model.findMember? key).filter fun node => node.kind = kind).map fun node => .member node.id

def typesOf (model : Model) (node : AssemblyNode) : List TypeId :=
  node.spaces.ids.flatMap fun id => ((model.space? id).map fun space => space.types.ids).getD []

def methods (model : Model) : List MemberNode := model.members.toList.filter MemberNode.isMethod

end Model

end UsageGraph
