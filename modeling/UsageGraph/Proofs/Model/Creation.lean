import UsageGraph.Proofs.Closure.Growth
import UsageGraph.Proofs.Reachable

/-! Find or create.

What is asked of a model by key is found, or a member of another kind has the key, or no
node has it. In the first two cases the model stays as it is. In the third the owners
that are missing are created from the assembly down, and the node itself last. They are
blank, each takes the next id of its level and is listed at the end by its owner. Nothing
else changes, and every other key finds what it found before.
-/

set_option autoImplicit false
namespace UsageGraph

inductive AnyKey where
  | assembly (key : AssemblyKey)
  | space (key : NamespaceKey)
  | type (key : TypeKey)
  | member (key : MemberKey)
  deriving DecidableEq

inductive AnyId where
  | assembly (id : AssemblyId)
  | space (id : NamespaceId)
  | node (target : NodeRef)
  deriving DecidableEq

/-- The keys of the owners of a node, from its assembly down, and its own. -/
def AnyKey.lineage : AnyKey → List AnyKey
  | .assembly key => [.assembly key]
  | .space key => [.assembly key.assembly, .space key]
  | .type key => [.assembly key.space.assembly, .space key.space, .type key]
  | .member key => [.assembly key.owner.space.assembly, .space key.owner.space, .type key.owner, .member key]

inductive Wanted where
  | assembly (key : AssemblyKey)
  | space (key : NamespaceKey)
  | type (key : TypeKey)
  | member (kind : MemberKind) (key : MemberKey)
  | node (key : NodeKey)

namespace Wanted

def ofNode : NodeKey → Wanted
  | .type key => .type key
  | .member kind key => .member kind key

def key : Wanted → AnyKey
  | .assembly key => .assembly key
  | .space key => .space key
  | .type key | .node (.type key) => .type key
  | .member _ key | .node (.member _ key) => .member key

def member? : Wanted → Option (MemberKind × MemberKey)
  | .member kind key | .node (.member kind key) => some (kind, key)
  | _ => none

def edit : Wanted → Edit
  | .assembly key => .ensureAssembly key
  | .space key => .ensureSpace key
  | .type key | .node (.type key) => .ensureType key
  | .member kind key | .node (.member kind key) => .ensureMember kind key

theorem key_node (key : NodeKey) : (node key).key = (ofNode key).key := by
  cases key <;> rfl

theorem member?_node (key : NodeKey) : (node key).member? = (ofNode key).member? := by
  cases key <;> rfl

theorem edit_node (key : NodeKey) : (node key).edit = (ofNode key).edit := by
  cases key <;> rfl

/-- What holds of a request for a type or a member, and with it of the same request by node key, holds of all. -/
theorem plain_cases {motive : Wanted → Prop} (assembly : ∀ key, motive (assembly key))
    (space : ∀ key, motive (space key)) (type : ∀ key, motive (type key))
    (member : ∀ kind key, motive (member kind key)) (node : ∀ key, motive (ofNode key) → motive (node key))
    (wanted : Wanted) : motive wanted := by
  cases wanted with
  | assembly key => exact assembly key
  | space key => exact space key
  | type key => exact type key
  | member kind key => exact member kind key
  | node key =>
    cases key with
    | type key => exact node (.type key) (type key)
    | member kind key => exact node (.member kind key) (member kind key)

end Wanted

namespace Model

def find? (model : Model) : AnyKey → Option AnyId
  | .assembly key => (model.findAssembly? key).map fun node => .assembly node.id
  | .space key => (model.findSpace? key).map fun node => .space node.id
  | .type key => (model.findType? key).map fun node => .node (.type node.id)
  | .member key => (model.findMember? key).map fun node => .node (.member node.id)

/-- The node that is asked for. A member must be of the kind that is asked for. -/
def lookup? (model : Model) : Wanted → Option AnyId
  | .assembly key => model.find? (.assembly key)
  | .space key => model.find? (.space key)
  | .type key => model.find? (.type key)
  | .member kind key =>
    ((model.findMember? key).filter fun node => node.kind = kind).map fun node => .node (.member node.id)
  | .node key => (model.resolve? key).map .node

def ensure (model : Model) : Wanted → Except Fault AnyId × Model
  | .assembly key => (.ok (.assembly (model.ensureAssembly key).1), (model.ensureAssembly key).2)
  | .space key => (.ok (.space (model.ensureSpace key).1), (model.ensureSpace key).2)
  | .type key => (.ok (.node (.type (model.ensureType key).1)), (model.ensureType key).2)
  | .member kind key =>
    ((model.ensureMember key (.member kind)).1.map fun id => .node (.member id),
      (model.ensureMember key (.member kind)).2)
  | .node key => ((model.ensureNode key).1.map .node, (model.ensureNode key).2)

def nextId (model : Model) : AnyKey → AnyId
  | .assembly _ => .assembly ⟨model.assemblies.size⟩
  | .space _ => .space ⟨model.spaces.size⟩
  | .type _ => .node (.type ⟨model.types.size⟩)
  | .member _ => .node (.member ⟨model.members.size⟩)

end Model

/-! ## Newcomers -/

/-- New nodes, at most one of each level. -/
structure Newcomers where
  assembly : Option AssemblyNode := none
  space : Option NamespaceNode := none
  type : Option TypeNode := none
  member : Option MemberNode := none

namespace Newcomers

def keys (new : Newcomers) : List AnyKey :=
  (new.assembly.map fun node => .assembly node.key).toList ++ (new.space.map fun node => .space node.key).toList ++
    (new.type.map fun node => .type node.key).toList ++ (new.member.map fun node => .member node.key).toList

structure Blank (new : Newcomers) : Prop where
  assembly : ∀ node ∈ new.assembly, node.IsBlank ∧ node.isDependency ∧ node.spaces = {}
  space : ∀ node ∈ new.space, node.types = {}
  type : ∀ node ∈ new.type, node.IsBlank ∧ node.visitation = .placeholder ∧ node.members = {}
  member : ∀ node ∈ new.member, node.IsBlank ∧ node.visitation = .placeholder

end Newcomers

/-- The owner of a newcomer lists it; every other node stays as it is. -/
def enlisting {level : Level} {ω ν : Type} (idOf : ω → Id level) (back : ν → Id level) (enlist : ω → ν → ω)
    (new : Option ν) (owner : ω) : ω :=
  match new with
  | some child => if back child = idOf owner then enlist owner child else owner
  | none => owner

def AssemblyNode.enlist (owner : AssemblyNode) (child : NamespaceNode) : AssemblyNode :=
  { owner with spaces := owner.spaces.insert child.key child.id }

def NamespaceNode.enlist (owner : NamespaceNode) (child : TypeNode) : NamespaceNode :=
  { owner with types := owner.types.insert child.key child.id }

def TypeNode.enlist (owner : TypeNode) (child : MemberNode) : TypeNode :=
  { owner with members := owner.members.insert child.key child.id }

namespace Model

/-- The model with newcomers at the end of their levels, listed by their owners. -/
def receive (model : Model) (new : Newcomers) : Model where
  assemblies := (model.assemblies ++ new.assembly.toArray).map
    (enlisting AssemblyNode.id NamespaceNode.assembly AssemblyNode.enlist new.space)
  spaces := (model.spaces ++ new.space.toArray).map
    (enlisting NamespaceNode.id TypeNode.space NamespaceNode.enlist new.type)
  types := (model.types ++ new.type.toArray).map
    (enlisting TypeNode.id MemberNode.owner TypeNode.enlist new.member)
  members := model.members ++ new.member.toArray
  index := match new.assembly with
    | some node => model.index.insert node.key node.id
    | none => model.index

def assemblyFor (model : Model) (key : AssemblyKey) : AssemblyId :=
  ((model.findAssembly? key).map AssemblyNode.id).getD ⟨model.assemblies.size⟩

def spaceFor (model : Model) (key : NamespaceKey) : NamespaceId :=
  ((model.findSpace? key).map NamespaceNode.id).getD ⟨model.spaces.size⟩

def typeFor (model : Model) (key : TypeKey) : TypeId :=
  ((model.findType? key).map TypeNode.id).getD ⟨model.types.size⟩

def newAssembly (model : Model) (key : AssemblyKey) : Newcomers where
  assembly := if (model.findAssembly? key).isNone then some { id := ⟨model.assemblies.size⟩, key } else none

def newSpace (model : Model) (key : NamespaceKey) : Newcomers :=
  { model.newAssembly key.assembly with
    space := if (model.findSpace? key).isNone then
        some { id := ⟨model.spaces.size⟩, key, assembly := model.assemblyFor key.assembly }
      else none }

def newType (model : Model) (key : TypeKey) : Newcomers :=
  { model.newSpace key.space with
    type := if (model.findType? key).isNone then
        some { id := ⟨model.types.size⟩, key, space := model.spaceFor key.space }
      else none }

def newMember (model : Model) (kind : MemberKind) (key : MemberKey) : Newcomers :=
  { model.newType key.owner with
    member := if (model.findMember? key).isNone then
        some { id := ⟨model.members.size⟩, key, owner := model.typeFor key.owner, detail := .blank kind }
      else none }

def newcomers (model : Model) : Wanted → Newcomers
  | .assembly key => model.newAssembly key
  | .space key => model.newSpace key
  | .type key | .node (.type key) => model.newType key
  | .member kind key | .node (.member kind key) => model.newMember kind key

section Enlisting

variable {level : Level} {ω ν : Type} (idOf : ω → Id level) (back : ν → Id level) (enlist : ω → ν → ω)

@[simp] theorem enlisting_none (owner : ω) : enlisting idOf back enlist none owner = owner := rfl

@[simp] theorem map_enlisting_none (owners : Array ω) : owners.map (enlisting idOf back enlist none) = owners :=
  Array.map_id owners

/-- Where ids are positions, the owner of a newcomer is the node at the position that the newcomer tells. -/
theorem modify_eq_map_enlisting {owners : Array ω}
    (position : ∀ {id : Id level} {owner}, owners[id.index]? = some owner → idOf owner = id) (child : ν) :
    owners.modify (back child).index (fun owner => enlist owner child) =
      owners.map (enlisting idOf back enlist (some child)) := by
  apply Array.ext_getElem?
  intro place
  rw [Array.getElem?_modify, Array.getElem?_map]
  cases held : owners[place]? with
  | none => simp
  | some owner =>
    have held : owners[(⟨place⟩ : Id level).index]? = some owner := held
    have placed := position held
    by_cases here : (back child).index = place
    · have owned : back child = idOf owner := by rw [placed, ← here]
      simp [enlisting, owned, placed]
    · have elsewhere : back child ≠ idOf owner := by
        intro same
        rw [same, placed] at here
        exact here rfl
      simp [here, enlisting, elsewhere]

end Enlisting

section Admit

variable (model : Model)

theorem receive_nobody : model.receive {} = model := by
  simp [receive]

theorem addAssembly_eq_receive (key : AssemblyKey) :
    model.addAssembly key =
      (⟨model.assemblies.size⟩, model.receive { assembly := some { id := ⟨model.assemblies.size⟩, key } }) := by
  simp [addAssembly, receive]

variable {model}

theorem addSpace_receive {assembly : Option AssemblyNode} (formed : (model.receive { assembly }).WellFormed)
    (owner : AssemblyId) (key : NamespaceKey) :
    (model.receive { assembly }).addSpace owner key = (⟨model.spaces.size⟩, model.receive {
      assembly, space := some { id := ⟨model.spaces.size⟩, key, assembly := owner } }) := by
  have enlisted := modify_eq_map_enlisting AssemblyNode.id NamespaceNode.assembly AssemblyNode.enlist
    formed.assembly_id { id := ⟨model.spaces.size⟩, key, assembly := owner }
  simp only [receive, map_enlisting_none] at enlisted
  simp only [addSpace, modifyAssembly, receive, map_enlisting_none, ← enlisted]
  simp [AssemblyNode.enlist]

theorem addType_receive {assembly : Option AssemblyNode} {space : Option NamespaceNode}
    (formed : (model.receive { assembly, space }).WellFormed) (owner : NamespaceId) (key : TypeKey) :
    (model.receive { assembly, space }).addType owner key = (⟨model.types.size⟩, model.receive {
      assembly, space, type := some { id := ⟨model.types.size⟩, key, space := owner } }) := by
  have enlisted := modify_eq_map_enlisting NamespaceNode.id TypeNode.space NamespaceNode.enlist
    formed.space_id { id := ⟨model.types.size⟩, key, space := owner }
  simp only [receive, map_enlisting_none] at enlisted
  simp only [addType, modifySpace, receive, map_enlisting_none, ← enlisted]
  simp [NamespaceNode.enlist]

theorem addMember_receive {assembly : Option AssemblyNode} {space : Option NamespaceNode} {type : Option TypeNode}
    (formed : (model.receive { assembly, space, type }).WellFormed) (owner : TypeId) (key : MemberKey)
    (detail : MemberDetail) :
    (model.receive { assembly, space, type }).addMember owner key detail = (⟨model.members.size⟩, model.receive {
      assembly, space, type, member := some { id := ⟨model.members.size⟩, key, owner, detail } }) := by
  have enlisted := modify_eq_map_enlisting TypeNode.id MemberNode.owner TypeNode.enlist
    formed.type_id { id := ⟨model.members.size⟩, key, owner, detail }
  simp only [receive, map_enlisting_none] at enlisted
  simp only [addMember, modifyType, receive, map_enlisting_none, ← enlisted]
  simp [TypeNode.enlist]

end Admit

/-! ## Requests in closed form -/

theorem newAssembly_of_found {model : Model} {key : AssemblyKey} {node : AssemblyNode}
    (found : model.findAssembly? key = some node) : model.newAssembly key = {} := by
  simp [newAssembly, found]

theorem newSpace_of_found {model : Model} {key : NamespaceKey} {node : NamespaceNode}
    (found : model.findSpace? key = some node) : model.newSpace key = {} := by
  -- what is found is listed by an owner that is found, so nothing is missing
  obtain ⟨owner, at_owner, _⟩ := Option.bind_eq_some_iff.mp found
  simp [newSpace, found, newAssembly_of_found at_owner]

theorem newType_of_found {model : Model} {key : TypeKey} {node : TypeNode}
    (found : model.findType? key = some node) : model.newType key = {} := by
  obtain ⟨owner, at_owner, _⟩ := Option.bind_eq_some_iff.mp found
  simp [newType, found, newSpace_of_found at_owner]

section Closed

variable {model : Model} (formed : model.WellFormed)

theorem ensureAssembly_eq_receive (key : AssemblyKey) :
    model.ensureAssembly key = (model.assemblyFor key, model.receive (model.newAssembly key)) := by
  cases found : model.findAssembly? key with
  | some node => simp [ensureAssembly, assemblyFor, found, newAssembly_of_found found, receive_nobody]
  | none => simp [ensureAssembly, assemblyFor, newAssembly, found, addAssembly_eq_receive]

include formed

theorem ensureSpace_eq_receive (key : NamespaceKey) :
    model.ensureSpace key = (model.spaceFor key, model.receive (model.newSpace key)) := by
  cases found : model.findSpace? key with
  | some node => simp [ensureSpace_of_found formed found, spaceFor, found, newSpace_of_found found, receive_nobody]
  | none =>
    -- the owner is there by now, found or new, and what has been created so far is well formed
    have begun := (ensureAssembly_becomes formed key.assembly).1.formed
    rw [ensureSpace_eq formed, found]
    rw [ensureAssembly_eq_receive] at begun ⊢
    simpa [spaceFor, newSpace, newAssembly, found] using addSpace_receive begun _ key

theorem ensureType_eq_receive (key : TypeKey) :
    model.ensureType key = (model.typeFor key, model.receive (model.newType key)) := by
  cases found : model.findType? key with
  | some node => simp [ensureType_of_found formed found, typeFor, found, newType_of_found found, receive_nobody]
  | none =>
    have begun := (ensureSpace_becomes formed key.space).1.formed
    rw [ensureType_eq formed, found]
    rw [ensureSpace_eq_receive formed] at begun ⊢
    simpa [typeFor, newType, newSpace, newAssembly, found] using addType_receive begun _ key

theorem ensureMember_eq_receive {key : MemberKey} (missing : model.findMember? key = none) (kind : MemberKind) :
    model.ensureMember key (.member kind) =
      (.ok ⟨model.members.size⟩, model.receive (model.newMember kind key)) := by
  have begun := (ensureType_becomes formed key.owner).1.formed
  rw [ensureMember_eq formed, missing]
  rw [ensureType_eq_receive formed] at begun ⊢
  have added := addMember_receive begun (model.typeFor key.owner) key (.blank kind)
  simpa [MemberDetail.blank?, newMember, newType, newSpace, newAssembly, missing, Prod.ext_iff] using added

end Closed

theorem newcomers_node (model : Model) (key : NodeKey) :
    model.newcomers (.node key) = model.newcomers (.ofNode key) := by
  cases key <;> rfl

theorem blank_newcomers (model : Model) (wanted : Wanted) : (model.newcomers wanted).Blank := by
  induction wanted using Wanted.plain_cases with
  | assembly key => constructor <;> simp [newcomers, newAssembly, AssemblyNode.IsBlank]
  | space key => constructor <;> simp [newcomers, newSpace, newAssembly, AssemblyNode.IsBlank]
  | type key =>
    constructor <;> simp [newcomers, newType, newSpace, newAssembly, AssemblyNode.IsBlank, TypeNode.IsBlank]
  | member kind key =>
    constructor <;> simp [newcomers, newMember, newType, newSpace, newAssembly, AssemblyNode.IsBlank,
      TypeNode.IsBlank, MemberNode.IsBlank, MemberNode.kind]
  | node key plain =>
    rw [newcomers_node]
    exact plain

section Keys

variable (model : Model)

theorem keys_newAssembly (key : AssemblyKey) :
    (model.newAssembly key).keys = (AnyKey.assembly key).lineage.filter fun key => (model.find? key).isNone := by
  cases found : model.findAssembly? key <;> simp [newAssembly, Newcomers.keys, AnyKey.lineage, find?, found]

theorem keys_newSpace (key : NamespaceKey) :
    (model.newSpace key).keys = (AnyKey.space key).lineage.filter fun key => (model.find? key).isNone := by
  have split : (AnyKey.space key).lineage = (AnyKey.assembly key.assembly).lineage ++ [.space key] := rfl
  rw [split, List.filter_append, ← keys_newAssembly]
  cases found : model.findSpace? key <;> simp [newSpace, newAssembly, Newcomers.keys, find?, found]

theorem keys_newType (key : TypeKey) :
    (model.newType key).keys = (AnyKey.type key).lineage.filter fun key => (model.find? key).isNone := by
  have split : (AnyKey.type key).lineage = (AnyKey.space key.space).lineage ++ [.type key] := rfl
  rw [split, List.filter_append, ← keys_newSpace]
  cases found : model.findType? key <;> simp [newType, newSpace, newAssembly, Newcomers.keys, find?, found]

theorem keys_newMember (kind : MemberKind) (key : MemberKey) :
    (model.newMember kind key).keys = (AnyKey.member key).lineage.filter fun key => (model.find? key).isNone := by
  have split : (AnyKey.member key).lineage = (AnyKey.type key.owner).lineage ++ [.member key] := rfl
  rw [split, List.filter_append, ← keys_newType]
  cases found : model.findMember? key <;>
    simp [newMember, newType, newSpace, newAssembly, Newcomers.keys, find?, found]

theorem keys_newcomers (wanted : Wanted) :
    (model.newcomers wanted).keys = wanted.key.lineage.filter fun key => (model.find? key).isNone := by
  induction wanted using Wanted.plain_cases with
  | assembly key => exact model.keys_newAssembly key
  | space key => exact model.keys_newSpace key
  | type key => exact model.keys_newType key
  | member kind key => exact model.keys_newMember kind key
  | node key plain =>
    rw [newcomers_node, Wanted.key_node]
    exact plain

end Keys

theorem Indexed.find_of_held {κ ι ν : Type} {look : ι → Option ν} {find : κ → Option ν} {idOf : ν → ι} {keyOf : ν → κ}
    (indexed : Indexed look find idOf keyOf) {id : ι} {key : κ} {node : ν} (held : look id = some node)
    (named : keyOf node = key) : find key = some node ∧ idOf node = id := by
  obtain rfl := indexed.look_id held
  exact ⟨(indexed.find_iff key node).mpr ⟨held, named⟩, rfl⟩

section Requests

variable {model : Model}

theorem lookup?_node (key : NodeKey) : model.lookup? (.node key) = model.lookup? (.ofNode key) := by
  cases key <;> simp [lookup?, resolve?, Wanted.ofNode, find?, Function.comp_def]

theorem ensure_node (key : NodeKey) : model.ensure (.node key) = model.ensure (.ofNode key) := by
  cases key with
  | type key => rfl
  | member kind key =>
    simp only [ensure, ensureNode, Wanted.ofNode]
    cases (model.ensureMember key (.member kind)).1 <;> rfl

section Formed

variable (formed : model.WellFormed)
include formed

theorem ensure_of_found {wanted : Wanted} {id : AnyId} (found : model.lookup? wanted = some id) :
    model.ensure wanted = (.ok id, model) := by
  induction wanted using Wanted.plain_cases with
  | assembly key =>
    obtain ⟨node, at_key, rfl⟩ := Option.map_eq_some_iff.mp found
    rw [ensure, ensureAssembly_of_found at_key]
  | space key =>
    obtain ⟨node, at_key, rfl⟩ := Option.map_eq_some_iff.mp found
    rw [ensure, ensureSpace_of_found formed at_key]
  | type key =>
    obtain ⟨node, at_key, rfl⟩ := Option.map_eq_some_iff.mp found
    rw [ensure, ensureType_of_found formed at_key]
  | member kind key =>
    obtain ⟨node, kept, rfl⟩ := Option.map_eq_some_iff.mp found
    obtain ⟨at_key, fits⟩ := Option.filter_eq_some_iff.mp kept
    obtain rfl : node.kind = kind := by simpa using fits
    simp [ensure, ensureMember_eq formed, at_key, Except.map]
  | node key plain =>
    rw [lookup?_node] at found
    rw [ensure_node]
    exact plain found

theorem ensure_of_other_kind {wanted : Wanted} {kind : MemberKind} {key : MemberKey} {node : MemberNode}
    (asked : wanted.member? = some (kind, key)) (found : model.findMember? key = some node)
    (other : node.kind ≠ kind) :
    model.ensure wanted = (.error (.kindMismatch key node.kind (.member kind)), model) := by
  induction wanted using Wanted.plain_cases with
  | assembly | space | type => cases asked
  | member =>
    cases asked
    simp [ensure, ensureMember_eq formed, found, Ne.symm other, Except.map]
  | node key plain =>
    rw [Wanted.member?_node] at asked
    rw [ensure_node]
    exact plain asked

theorem ensure_of_missing {wanted : Wanted} (missing : model.find? wanted.key = none) :
    model.ensure wanted = (.ok (model.nextId wanted.key), model.receive (model.newcomers wanted)) := by
  induction wanted using Wanted.plain_cases with
  | assembly key =>
    have absent := Option.map_eq_none_iff.mp missing
    simp [ensure, ensureAssembly_eq_receive, assemblyFor, absent, nextId, Wanted.key, newcomers]
  | space key =>
    have absent := Option.map_eq_none_iff.mp missing
    simp [ensure, ensureSpace_eq_receive formed, spaceFor, absent, nextId, Wanted.key, newcomers]
  | type key =>
    have absent := Option.map_eq_none_iff.mp missing
    simp [ensure, ensureType_eq_receive formed, typeFor, absent, nextId, Wanted.key, newcomers]
  | member kind key =>
    have absent := Option.map_eq_none_iff.mp missing
    simp [ensure, ensureMember_eq_receive formed absent, nextId, Wanted.key, newcomers, Except.map]
  | node key plain =>
    rw [Wanted.key_node] at missing ⊢
    rw [ensure_node, newcomers_node]
    exact plain missing

theorem ensure_becomes {wanted : Wanted} (missing : model.find? wanted.key = none) :
    model.Becomes (model.ensure wanted).2 [wanted.edit] := by
  induction wanted using Wanted.plain_cases with
  | assembly key => exact (ensureAssembly_becomes formed key).1
  | space key => exact (ensureSpace_becomes formed key).1
  | type key => exact (ensureType_becomes formed key).1
  | member kind key =>
    have absent := Option.map_eq_none_iff.mp missing
    have unknown := (findMember?_eq_none_iff model key).mp absent
    rcases ensureMember_becomes formed kind key with ⟨_, _, _, _, _, _, _, becomes⟩ | ⟨refused, _⟩
    · exact becomes
    · exact absurd (by simp [View.allows, unknown]) refused
  | node key plain =>
    rw [Wanted.key_node] at missing
    rw [ensure_node, Wanted.edit_node]
    exact plain missing

theorem lookup?_ensure {wanted : Wanted} {id : AnyId} (answered : (model.ensure wanted).1 = .ok id) :
    (model.ensure wanted).2.lookup? wanted = some id := by
  induction wanted using Wanted.plain_cases with
  | assembly key =>
    obtain ⟨becomes, node, held, named⟩ := ensureAssembly_becomes formed key
    obtain ⟨found, same⟩ := becomes.formed.assemblies_indexed.find_of_held held named
    cases answered
    simp [ensure, lookup?, find?, found, same]
  | space key =>
    obtain ⟨becomes, node, held, named⟩ := ensureSpace_becomes formed key
    obtain ⟨found, same⟩ := becomes.formed.spaces_indexed.find_of_held held named
    cases answered
    simp [ensure, lookup?, find?, found, same]
  | type key =>
    obtain ⟨becomes, node, held, named⟩ := ensureType_becomes formed key
    obtain ⟨found, same⟩ := becomes.formed.types_indexed.find_of_held held named
    cases answered
    simp [ensure, lookup?, find?, found, same]
  | member kind key =>
    rcases ensureMember_becomes formed kind key with ⟨_, id, node, ok, held, named, fits, becomes⟩ | ⟨_, found, failed⟩
    · obtain ⟨found, same⟩ := becomes.formed.members_indexed.find_of_held held named
      simp only [ensure, ok, Except.map] at answered
      cases answered
      simp [ensure, lookup?, found, same, fits]
    · simp [ensure, failed, Except.map] at answered
  | node key plain =>
    rw [ensure_node] at answered ⊢
    rw [lookup?_node]
    exact plain answered

end Formed

end Requests

end Model

def View.has (view : View) : AnyKey → Prop
  | .assembly key => key ∈ view.assemblies
  | .space key => key ∈ view.spaces
  | .type key => key ∈ view.types
  | .member key => view.kinds key ≠ none

theorem View.has_apply (view : View) (wanted : Wanted) (other : AnyKey) :
    (view.apply wanted.edit).has other ↔ other ∈ wanted.key.lineage ∨ view.has other := by
  induction wanted using Wanted.plain_cases with
  | assembly key => cases other <;> simp [apply, ensureAssembly, has, Wanted.edit, Wanted.key, AnyKey.lineage]
  | space key =>
    cases other <;> simp [apply, ensureAssembly, ensureSpace, has, Wanted.edit, Wanted.key, AnyKey.lineage]
  | type key =>
    cases other <;>
      simp [apply, ensureAssembly, ensureSpace, ensureType, has, Wanted.edit, Wanted.key, AnyKey.lineage]
  | member kind key =>
    cases other with
    | member other =>
      by_cases here : other = key
      · subst here
        simp [apply, ensureMember, has, Wanted.edit, Wanted.key, AnyKey.lineage]
      · simp [apply, ensureMember, has, Wanted.edit, Wanted.key, AnyKey.lineage, here]
    | assembly | space | type =>
      simp [apply, ensureAssembly, ensureSpace, ensureType, ensureMember, has, Wanted.edit, Wanted.key,
        AnyKey.lineage]
  | node key plain =>
    rw [Wanted.edit_node, Wanted.key_node]
    exact plain

namespace Model

theorem find?_eq_none_iff (model : Model) (key : AnyKey) : model.find? key = none ↔ ¬ model.view.has key := by
  cases key <;> simp [find?, View.has, view]

theorem StillFound.map {κ ν ι : Type} {idOf : ν → ι} {find find' : κ → Option ν} (still : StillFound idOf find find')
    (tag : ι → AnyId) {key : κ} {id : AnyId} (found : (find key).map (fun node => tag (idOf node)) = some id) :
    (find' key).map (fun node => tag (idOf node)) = some id := by
  obtain ⟨node, at_key, rfl⟩ := Option.map_eq_some_iff.mp found
  have again := still key (idOf node) (Option.map_eq_some_iff.mpr ⟨node, at_key, rfl⟩)
  obtain ⟨later, at_key', same⟩ := Option.map_eq_some_iff.mp again
  exact Option.map_eq_some_iff.mpr ⟨later, at_key', congrArg tag same⟩

section Others

variable {before after : Model} (formed : before.WellFormed)
include formed

theorem find?_later (formed' : after.WellFormed) (grows : before.Grows after) {key : AnyKey} {id : AnyId}
    (found : before.find? key = some id) : after.find? key = some id := by
  cases key with
  | assembly key => exact (stillFound_assembly formed formed' grows).map .assembly found
  | space key => exact (stillFound_space formed formed' grows).map .space found
  | type key => exact (stillFound_type formed formed' grows).map (fun id => .node (.type id)) found
  | member key => exact (stillFound_member formed formed' grows).map (fun id => .node (.member id)) found

variable {wanted : Wanted} (becomes : before.Becomes after [wanted.edit])
include becomes

theorem find?_of_becomes {other : AnyKey} (apart : before.find? other = none → other ∉ wanted.key.lineage) :
    after.find? other = before.find? other := by
  cases found : before.find? other with
  | some id => exact find?_later formed becomes.formed becomes.grows found
  | none =>
    -- a request makes nothing known but its lineage
    have unknown := (find?_eq_none_iff before other).mp found
    rw [find?_eq_none_iff, becomes.view, View.applyAll_singleton, View.has_apply]
    rintro (listed | known)
    · exact apart found listed
    · exact unknown known

theorem lookup?_of_becomes {other : Wanted} (apart : before.find? other.key = none → other.key ∉ wanted.key.lineage) :
    after.lookup? other = before.lookup? other := by
  induction other using Wanted.plain_cases with
  | assembly key => exact find?_of_becomes formed becomes apart
  | space key => exact find?_of_becomes formed becomes apart
  | type key => exact find?_of_becomes formed becomes apart
  | member kind key =>
    cases found : before.findMember? key with
    | some node =>
      -- a member keeps its kind, so it fits or does not fit as before
      obtain ⟨later, found', id, same⟩ := findMember?_later formed becomes.formed becomes.grows found
      simp [lookup?, found, found', id, same, Option.filter, apply_ite]
    | none =>
      have absent : after.findMember? key = none := by
        simpa [Wanted.key, find?, found] using find?_of_becomes formed becomes apart
      simp [lookup?, found, absent]
  | node key plain =>
    rw [Wanted.key_node] at apart
    rw [lookup?_node, lookup?_node]
    exact plain apart

end Others

/-! ## What a request does -/

/-- What was missing is there, and nothing else has changed. -/
structure Creates (before after : Model) (wanted : Wanted) : Prop where
  receives : after = before.receive (before.newcomers wanted)
  missing : (before.newcomers wanted).keys = wanted.key.lineage.filter fun key => (before.find? key).isNone
  blank : (before.newcomers wanted).Blank
  found : after.lookup? wanted = some (before.nextId wanted.key)
  others : ∀ other, other ∉ (before.newcomers wanted).keys → after.find? other = before.find? other
  requests : ∀ other : Wanted, other.key ∉ (before.newcomers wanted).keys → after.lookup? other = before.lookup? other

/-- A request finds or creates a node, unless a member of another kind has the key. -/
structure FindsOrCreates (model : Model) (wanted : Wanted) : Prop where
  complete : (model.lookup? wanted).isSome ∨ model.find? wanted.key = none ∨
    ∃ kind key node, wanted.member? = some (kind, key) ∧ model.findMember? key = some node ∧ node.kind ≠ kind
  finds : ∀ id, model.lookup? wanted = some id → model.ensure wanted = (.ok id, model)
  creates : model.find? wanted.key = none →
    (model.ensure wanted).1 = .ok (model.nextId wanted.key) ∧ model.Creates (model.ensure wanted).2 wanted
  refuses : ∀ kind key node, wanted.member? = some (kind, key) → model.findMember? key = some node → node.kind ≠ kind →
    model.ensure wanted = (.error (.kindMismatch key node.kind (.member kind)), model)

theorem complete (model : Model) (wanted : Wanted) :
    (model.lookup? wanted).isSome ∨ model.find? wanted.key = none ∨
      ∃ kind key node, wanted.member? = some (kind, key) ∧ model.findMember? key = some node ∧ node.kind ≠ kind := by
  have either : ∀ found : Option AnyId, found.isSome ∨ found = none := by
    intro found
    cases found <;> simp
  induction wanted using Wanted.plain_cases with
  | assembly key => exact (either (model.find? (.assembly key))).imp_right .inl
  | space key => exact (either (model.find? (.space key))).imp_right .inl
  | type key => exact (either (model.find? (.type key))).imp_right .inl
  | member kind key =>
    cases found : model.findMember? key with
    | none => exact .inr (.inl (by simp [Wanted.key, find?, found]))
    | some node =>
      by_cases fits : node.kind = kind
      · exact .inl (by simp [lookup?, found, fits])
      · exact .inr (.inr ⟨kind, key, node, rfl, found, fits⟩)
  | node key plain =>
    rw [Wanted.key_node, Wanted.member?_node, lookup?_node]
    exact plain

theorem creates_of_missing {model : Model} (formed : model.WellFormed) {wanted : Wanted}
    (missing : model.find? wanted.key = none) : model.Creates (model.ensure wanted).2 wanted := by
  have becomes := ensure_becomes formed missing
  have closed := ensure_of_missing formed missing
  -- a key of the lineage that is no newcomer's was there before
  have apart : ∀ {other : AnyKey}, other ∉ (model.newcomers wanted).keys →
      model.find? other = none → other ∉ wanted.key.lineage := by
    intro other unmade absent listed
    rw [keys_newcomers] at unmade
    exact unmade (List.mem_filter.mpr ⟨listed, by simp [absent]⟩)
  exact {
    receives := by rw [closed]
    missing := model.keys_newcomers wanted
    blank := model.blank_newcomers wanted
    found := lookup?_ensure formed (by rw [closed])
    others := fun other unmade => find?_of_becomes formed becomes (apart unmade)
    requests := fun other unmade => lookup?_of_becomes formed becomes (apart unmade) }

theorem finds_or_creates {model : Model} (reached : model.Reachable) (wanted : Wanted) :
    model.FindsOrCreates wanted where
  complete := model.complete wanted
  finds _ found := ensure_of_found reached.wellFormed found
  creates missing :=
    ⟨congrArg Prod.fst (ensure_of_missing reached.wellFormed missing), creates_of_missing reached.wellFormed missing⟩
  refuses _ _ _ asked found other := ensure_of_other_kind reached.wellFormed asked found other

def shelf : Model := (Request.node (.member .field ⟨⟨⟨⟨"library"⟩, "hall"⟩, "Book", 0⟩, "title", none⟩)).grant {}

/-- The field is found, it is not taken for a property, and a method of another type is created with its type. -/
theorem finds_or_creates_shelf :
    let book : TypeKey := ⟨⟨⟨"library"⟩, "hall"⟩, "Book", 0⟩
    let scroll : TypeKey := ⟨⟨⟨"library"⟩, "hall"⟩, "Scroll", 0⟩
    let title : MemberKey := ⟨book, "title", none⟩
    let unroll : MemberKey := ⟨scroll, "unroll", none⟩
    shelf.Reachable ∧ shelf.ensure (.member .field title) = (.ok (.node (.member ⟨0⟩)), shelf) ∧
      shelf.ensure (.node (.member .property title)) =
        (.error (.kindMismatch title .field (.member .property)), shelf) ∧
      (shelf.newcomers (.member .method unroll)).keys = [.type scroll, .member unroll] ∧
      shelf.Creates (shelf.ensure (.member .method unroll)).2 (.member .method unroll) := by
  intro book scroll title unroll
  have reached : shelf.Reachable := ⟨_, Builder.Reachable.empty.request (.node (.member .field title)), rfl⟩
  refine ⟨reached, (finds_or_creates reached _).finds _ (by decide), ?_, by decide, ?_⟩
  · exact (finds_or_creates reached _).refuses .property title
      { id := ⟨0⟩, key := title, owner := ⟨0⟩, detail := .field } rfl (by decide) (by decide)
  · exact ((finds_or_creates reached _).creates (by decide)).2

end Model

end UsageGraph
