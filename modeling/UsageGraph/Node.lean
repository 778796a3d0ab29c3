import UsageGraph.Directory
import UsageGraph.Key
import UsageGraph.Usage

/-! The nodes of a model.

A node that has only been referred to is a placeholder. Opening it for its signature
or in full says more about it, and what is once known in full stays so.
-/

set_option autoImplicit false
namespace UsageGraph

inductive Visitation where
  | placeholder
  | signatureOnly
  | full
  deriving DecidableEq

/-- The state after opening a node, for its signature only or in full. -/
def Visitation.opened (signatureOnly : Bool) : Visitation → Visitation
  | .placeholder | .signatureOnly => if signatureOnly then .signatureOnly else .full
  | .full => .full

structure MethodFlags where
  isConstructor : Bool := false
  isAbstract : Bool := false
  isVirtual : Bool := false
  isStatic : Bool := false
  deriving DecidableEq

namespace MethodFlags

/-- The flags stored as the four lowest bits of a number. -/
def ofBits (bits : Nat) : MethodFlags where
  isConstructor := bits.testBit 0
  isAbstract := bits.testBit 1
  isVirtual := bits.testBit 2
  isStatic := bits.testBit 3

def names (flags : MethodFlags) : List String :=
  [(flags.isConstructor, "CONSTRUCTOR"), (flags.isAbstract, "ABSTRACT"),
    (flags.isVirtual, "VIRTUAL"), (flags.isStatic, "STATIC")].filterMap
    fun flag => if flag.1 then some flag.2 else none

end MethodFlags

structure AssemblyNode where
  id : AssemblyId
  key : AssemblyKey
  /-- Holds until the assembly is opened as a module of the program itself. -/
  isDependency : Bool := true
  spaces : Directory NamespaceKey NamespaceId := {}
  /-- Why the assembly could not be modelled to the end. -/
  decodeError : Option String := none
  deriving DecidableEq

def AssemblyNode.isIncomplete (node : AssemblyNode) : Bool := node.decodeError.isSome

structure NamespaceNode where
  id : NamespaceId
  key : NamespaceKey
  assembly : AssemblyId
  types : Directory TypeKey TypeId := {}
  deriving DecidableEq

structure TypeNode where
  id : TypeId
  key : TypeKey
  space : NamespaceId
  isInterface : Bool := false
  isAbstract : Bool := false
  visitation : Visitation := .placeholder
  /-- Set on a placeholder that stands for a type of an assembly outside the mapping. -/
  isExternal : Bool := false
  base : Option TypeId := none
  interfaces : List TypeId := []
  attributes : List TypeId := []
  members : Directory MemberKey MemberId := {}
  usages : UsageSet := {}
  deriving DecidableEq

inductive MemberDetail where
  | method (parameters : List TypeId) (flags : MethodFlags)
  | field
  | property (getter setter : Option MemberId)
  | event (adder remover : Option MemberId)
  deriving DecidableEq

structure MemberNode where
  id : MemberId
  key : MemberKey
  owner : TypeId
  detail : MemberDetail
  /-- The type of a field, property or event; the type that a method returns. -/
  declaredType : Option TypeId := none
  attributes : List TypeId := []
  visitation : Visitation := .placeholder
  usages : UsageSet := {}
  deriving DecidableEq

/-- A place for a method that serves a property or an event. -/
inductive Slot where
  | getter
  | setter
  | adder
  | remover
  deriving DecidableEq

def Slot.ownerKind : Slot → MemberKind
  | .getter | .setter => .property
  | .adder | .remover => .event

/-- The list with an id at its end, unless it holds the id already. -/
def addOnce (ids : List TypeId) (id : TypeId) : List TypeId :=
  if id ∈ ids then ids else ids ++ [id]

namespace MemberDetail

def kind : MemberDetail → MemberKind
  | .method .. => .method
  | .field => .field
  | .property .. => .property
  | .event .. => .event

def blank : MemberKind → MemberDetail
  | .method => .method [] {}
  | .field => .field
  | .property => .property none none
  | .event => .event none none

def blank? : NodeKind → Option MemberDetail
  | .type => none
  | .member kind => some (blank kind)

@[simp] theorem kind_blank (kind : MemberKind) : (blank kind).kind = kind := by
  cases kind <;> rfl

def accessor? (detail : MemberDetail) (slot : Slot) : Option MemberId :=
  match slot, detail with
  | .getter, .property getter _ => getter
  | .setter, .property _ setter => setter
  | .adder, .event adder _ => adder
  | .remover, .event _ remover => remover
  | _, _ => none

/-- Puts a method into a slot; a detail without that slot stays as it is. -/
def setAccessor (detail : MemberDetail) (slot : Slot) (accessor : MemberId) : MemberDetail :=
  match slot, detail with
  | .getter, .property _ setter => .property (some accessor) setter
  | .setter, .property getter _ => .property getter (some accessor)
  | .adder, .event _ remover => .event (some accessor) remover
  | .remover, .event adder _ => .event adder (some accessor)
  | _, _ => detail

def setParameters (detail : MemberDetail) (parameters : List TypeId) : MemberDetail :=
  match detail with
  | .method _ flags => .method parameters flags
  | _ => detail

def setFlags (detail : MemberDetail) (flags : MethodFlags) : MemberDetail :=
  match detail with
  | .method parameters _ => .method parameters flags
  | _ => detail

@[simp] theorem kind_setAccessor (detail : MemberDetail) (slot : Slot) (accessor : MemberId) :
    (detail.setAccessor slot accessor).kind = detail.kind := by
  cases slot <;> cases detail <;> rfl

@[simp] theorem kind_setParameters (detail : MemberDetail) (parameters : List TypeId) :
    (detail.setParameters parameters).kind = detail.kind := by
  cases detail <;> rfl

@[simp] theorem kind_setFlags (detail : MemberDetail) (flags : MethodFlags) :
    (detail.setFlags flags).kind = detail.kind := by
  cases detail <;> rfl

end MemberDetail

namespace TypeNode

def isPlaceholder (node : TypeNode) : Bool := node.visitation = .placeholder

def isPartial (node : TypeNode) : Bool := node.visitation ≠ .full

/-- The usages that lead outside the type and its members. -/
def directUses (node : TypeNode) : UsageSet := node.usages.withoutOwner node.id

def flagNames (node : TypeNode) : List String :=
  [(node.isInterface, "INTERFACE"), (node.isAbstract, "ABSTRACT"),
    (node.visitation = .signatureOnly, "SIGNATURE_ONLY"), (node.isPlaceholder, "PLACEHOLDER"),
    (node.isExternal, "EXTERNAL")].filterMap
    fun flag => if flag.1 then some flag.2 else none

end TypeNode

namespace MemberNode

def kind (node : MemberNode) : MemberKind := node.detail.kind

def isMethod (node : MemberNode) : Bool := node.kind = .method

def isPlaceholder (node : MemberNode) : Bool := node.visitation = .placeholder

def directUses (node : MemberNode) : UsageSet := node.usages.withoutOwner node.owner

theorem indexed_directUses (node : MemberNode) : node.directUses.Indexed := node.usages.indexed_withoutOwner node.owner

def returnType? (node : MemberNode) : Option TypeId :=
  if node.isMethod then node.declaredType else none

def isGetter (node : MemberNode) : Bool := node.isMethod && node.key.name.startsWith "get_"

def isSetter (node : MemberNode) : Bool := node.isMethod && node.key.name.startsWith "set_"

end MemberNode

end UsageGraph
