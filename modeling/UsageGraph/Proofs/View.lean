import Mathlib.Data.Set.Insert
import Mathlib.Logic.Function.Basic
import UsageGraph.Model

/-! Views: what a model says by key.

A view knows which keys there are and what is said of each, and refers to other nodes by
key. Ids, the order in which nodes were created and the order in which usages were
recorded are not part of it. Edits are the changes of a view that building makes: keys
are ensured together with their owners, and facts are changed one at a time.
-/

set_option autoImplicit false
namespace UsageGraph

structure AssemblyFacts where
  isDependency : Bool := true
  decodeError : Option String := none

structure TypeFacts where
  isInterface : Bool := false
  isAbstract : Bool := false
  visitation : Visitation := .placeholder
  isExternal : Bool := false
  base : Option TypeKey := none
  interfaces : List TypeKey := []
  attributes : List TypeKey := []
  uses : Set NodeKey := ∅

structure MemberFacts where
  declaredType : Option TypeKey := none
  parameters : List TypeKey := []
  flags : MethodFlags := {}
  accessor : Slot → Option MemberKey := fun _ => none
  attributes : List TypeKey := []
  visitation : Visitation := .placeholder
  uses : Set NodeKey := ∅

/-- Where there is no node of a key, the facts are those of a blank one. -/
@[ext] structure View where
  assemblies : Set AssemblyKey := ∅
  spaces : Set NamespaceKey := ∅
  types : Set TypeKey := ∅
  /-- The kinds of the members that there are. -/
  kinds : MemberKey → Option MemberKind := fun _ => none
  assembly : AssemblyKey → AssemblyFacts := fun _ => {}
  type : TypeKey → TypeFacts := fun _ => {}
  member : MemberKey → MemberFacts := fun _ => {}

def addKeyOnce (keys : List TypeKey) (key : TypeKey) : List TypeKey :=
  if key ∈ keys then keys else keys ++ [key]

inductive TypeChange where
  | opened (signatureOnly : Bool)
  | flags (isInterface isAbstract : Bool)
  | base (key : TypeKey)
  | interface (key : TypeKey)
  | attributed (key : TypeKey)
  | use (key : NodeKey)

def TypeChange.apply : TypeChange → TypeFacts → TypeFacts
  | .opened signatureOnly, facts =>
    { facts with visitation := facts.visitation.opened signatureOnly, isExternal := false }
  | .flags isInterface isAbstract, facts => { facts with isInterface, isAbstract }
  | .base key, facts => { facts with base := some key }
  | .interface key, facts => { facts with interfaces := addKeyOnce facts.interfaces key }
  | .attributed key, facts => { facts with attributes := addKeyOnce facts.attributes key }
  | .use key, facts => { facts with uses := insert key facts.uses }

inductive MemberChange where
  | opened (signatureOnly : Bool)
  | prototype (returns : Option TypeKey) (parameters : List TypeKey)
  | flags (flags : MethodFlags)
  | declaredType (key : TypeKey)
  | accessor (slot : Slot) (key : MemberKey)
  | attributed (key : TypeKey)
  | use (key : NodeKey)

def MemberChange.apply : MemberChange → MemberFacts → MemberFacts
  | .opened signatureOnly, facts => { facts with visitation := facts.visitation.opened signatureOnly }
  | .prototype returns parameters, facts => { facts with declaredType := returns, parameters }
  | .flags given, facts => { facts with flags := given }
  | .declaredType key, facts => { facts with declaredType := some key }
  | .accessor slot key, facts => { facts with accessor := Function.update facts.accessor slot (some key) }
  | .attributed key, facts => { facts with attributes := addKeyOnce facts.attributes key }
  | .use key, facts => { facts with uses := insert key facts.uses }

inductive Edit where
  | ensureAssembly (key : AssemblyKey)
  | ensureSpace (key : NamespaceKey)
  | ensureType (key : TypeKey)
  | ensureMember (kind : MemberKind) (key : MemberKey)
  | openAssembly (key : AssemblyKey) (isDependency : Bool)
  | onType (key : TypeKey) (change : TypeChange)
  | onMember (key : MemberKey) (change : MemberChange)

namespace Edit

def ensureNode : NodeKey → Edit
  | .type key => .ensureType key
  | .member kind key => .ensureMember kind key

def use (holder target : NodeKey) : Edit :=
  match holder with
  | .type key => .onType key (.use target)
  | .member _ key => .onMember key (.use target)

def attributed (holder : NodeKey) (type : TypeKey) : Edit :=
  match holder with
  | .type key => .onType key (.attributed type)
  | .member _ key => .onMember key (.attributed type)

end Edit

namespace View

def ensureAssembly (view : View) (key : AssemblyKey) : View :=
  { view with assemblies := insert key view.assemblies }

def ensureSpace (view : View) (key : NamespaceKey) : View :=
  { view.ensureAssembly key.assembly with spaces := insert key view.spaces }

def ensureType (view : View) (key : TypeKey) : View :=
  { view.ensureSpace key.space with types := insert key view.types }

/-- A member that is there keeps its kind. -/
def ensureMember (view : View) (kind : MemberKind) (key : MemberKey) : View :=
  { view.ensureType key.owner with
    kinds := Function.update view.kinds key ((view.kinds key).or (some kind)) }

def apply (view : View) : Edit → View
  | .ensureAssembly key => view.ensureAssembly key
  | .ensureSpace key => view.ensureSpace key
  | .ensureType key => view.ensureType key
  | .ensureMember kind key => view.ensureMember kind key
  | .openAssembly key isDependency =>
    let facts := view.assembly key
    let opened := { facts with isDependency := facts.isDependency && isDependency }
    { view with assembly := Function.update view.assembly key opened }
  | .onType key change => { view with type := Function.update view.type key (change.apply (view.type key)) }
  | .onMember key change => { view with member := Function.update view.member key (change.apply (view.member key)) }

def applyAll (view : View) (edits : List Edit) : View := edits.foldl apply view

/-- A member of another kind is in the way of an edit. -/
def allows (view : View) : Edit → Prop
  | .ensureMember kind key => ∀ found ∈ view.kinds key, found = kind
  | _ => True

def Admits (view : View) : List Edit → Prop
  | [] => True
  | edit :: rest => view.allows edit ∧ (view.apply edit).Admits rest

end View

end UsageGraph
