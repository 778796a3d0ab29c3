import UsageGraph.Model
import UsageGraph.SystemType

/-! Growth of a model on demand.

To ensure a key is to find its node or to create a blank one, after its missing owners.
Types and members are created as placeholders, assemblies as dependencies.
-/

set_option autoImplicit false
namespace UsageGraph.Model

def modifyAssembly (model : Model) (id : AssemblyId) (change : AssemblyNode → AssemblyNode) : Model :=
  { model with assemblies := model.assemblies.modify id.index change }

def modifySpace (model : Model) (id : NamespaceId) (change : NamespaceNode → NamespaceNode) : Model :=
  { model with spaces := model.spaces.modify id.index change }

def modifyType (model : Model) (id : TypeId) (change : TypeNode → TypeNode) : Model :=
  { model with types := model.types.modify id.index change }

def modifyMember (model : Model) (id : MemberId) (change : MemberNode → MemberNode) : Model :=
  { model with members := model.members.modify id.index change }

def addAssembly (model : Model) (key : AssemblyKey) : AssemblyId × Model :=
  let id : AssemblyId := ⟨model.assemblies.size⟩
  (id, { model with
    assemblies := model.assemblies.push { id, key }
    index := model.index.insert key id })

def addSpace (model : Model) (owner : AssemblyId) (key : NamespaceKey) : NamespaceId × Model :=
  let id : NamespaceId := ⟨model.spaces.size⟩
  (id, { model with spaces := model.spaces.push { id, key, assembly := owner } }.modifyAssembly owner
    fun node => { node with spaces := node.spaces.insert key id })

def addType (model : Model) (owner : NamespaceId) (key : TypeKey) : TypeId × Model :=
  let id : TypeId := ⟨model.types.size⟩
  (id, { model with types := model.types.push { id, key, space := owner } }.modifySpace owner
    fun node => { node with types := node.types.insert key id })

def addMember (model : Model) (owner : TypeId) (key : MemberKey) (detail : MemberDetail) : MemberId × Model :=
  let id : MemberId := ⟨model.members.size⟩
  (id, { model with members := model.members.push { id, key, owner, detail } }.modifyType owner
    fun node => { node with members := node.members.insert key id })

def listedSpace? (model : Model) (owner : AssemblyId) (key : NamespaceKey) : Option NamespaceNode :=
  (model.assembly? owner).bind fun node => (node.spaces.find? key).bind model.space?

def listedType? (model : Model) (owner : NamespaceId) (key : TypeKey) : Option TypeNode :=
  (model.space? owner).bind fun node => (node.types.find? key).bind model.type?

def listedMember? (model : Model) (owner : TypeId) (key : MemberKey) : Option MemberNode :=
  (model.type? owner).bind fun node => (node.members.find? key).bind model.member?

def ensureAssembly (model : Model) (key : AssemblyKey) : AssemblyId × Model :=
  match model.findAssembly? key with
  | some node => (node.id, model)
  | none => model.addAssembly key

def ensureSpace (model : Model) (key : NamespaceKey) : NamespaceId × Model :=
  let (owner, model) := model.ensureAssembly key.assembly
  match model.listedSpace? owner key with
  | some node => (node.id, model)
  | none => model.addSpace owner key

def ensureType (model : Model) (key : TypeKey) : TypeId × Model :=
  let (owner, model) := model.ensureSpace key.space
  match model.listedType? owner key with
  | some node => (node.id, model)
  | none => model.addType owner key

def ensureType? (model : Model) : Option TypeKey → Option TypeId × Model
  | none => (none, model)
  | some key =>
    let (id, model) := model.ensureType key
    (some id, model)

def ensureTypes (model : Model) : List TypeKey → List TypeId × Model
  | [] => ([], model)
  | key :: rest =>
    let (id, model) := model.ensureType key
    let (ids, model) := model.ensureTypes rest
    (id :: ids, model)

/-- Ensures a member of a kind. The declaring type is ensured first, also when the member cannot be. -/
def ensureMember (model : Model) (key : MemberKey) (kind : NodeKind) : Except Fault MemberId × Model :=
  let (owner, model) := model.ensureType key.owner
  match model.listedMember? owner key with
  | some node =>
    if kind = .member node.kind then (.ok node.id, model)
    else (.error (.kindMismatch key node.kind kind), model)
  | none =>
    match MemberDetail.blank? kind with
    | some detail =>
      let (id, model) := model.addMember owner key detail
      (.ok id, model)
    | none => (.error (.violation (.notAMember key)), model)

def ensureNode (model : Model) : NodeKey → Except Fault NodeRef × Model
  | .type key =>
    let (id, model) := model.ensureType key
    (.ok (.type id), model)
  | .member kind key =>
    let (result, model) := model.ensureMember key (.member kind)
    (result.map .member, model)

/-- Ensures a type that stands outside the mapping; what has been opened already is not marked. -/
def ensureExternal (model : Model) (key : TypeKey) : TypeId × Model :=
  let (id, model) := model.ensureType key
  (id, model.modifyType id fun node => { node with isExternal := node.isExternal || node.isPlaceholder })

def ensureSystem (model : Model) (type : SystemType) : TypeId × Model := model.ensureExternal type.key

def recordUsage (model : Model) (holder target : NodeRef) : Model :=
  match model.usageOf? target with
  | none => model
  | some usage =>
    match holder with
    | .type id => model.modifyType id fun node => { node with usages := node.usages.insert usage }
    | .member id => model.modifyMember id fun node => { node with usages := node.usages.insert usage }

def recordAttribute (model : Model) (holder : NodeRef) (type : TypeId) : Model :=
  match holder with
  | .type id => model.modifyType id fun node => { node with attributes := addOnce node.attributes type }
  | .member id => model.modifyMember id fun node => { node with attributes := addOnce node.attributes type }

def recordDecodeError (model : Model) (key : AssemblyKey) (reason : String) : Model :=
  let (id, model) := model.ensureAssembly key
  model.modifyAssembly id fun node => { node with decodeError := some reason }

end UsageGraph.Model
