import UsageGraph.Mapping
import UsageGraph.Proofs.Reachable

/-! The representation of a model.

However a model has been made, the nodes of each level stand at the positions that their
ids tell, and a key finds the one node that has it. Every node but an assembly is listed
once, by the node that it names as its owner and whose key is part of its own. What nodes
refer to is in the model.
-/

set_option autoImplicit false
namespace UsageGraph

/-- The nodes of one level in the order of their creation, and how one is found by its key. -/
structure Layer (level : Level) (κ ν : Type) where
  nodes : Array ν
  idOf : ν → Id level
  keyOf : ν → κ
  find : κ → Option ν

namespace Layer

variable {level : Level} {κ ν : Type} {layer : Layer level κ ν}

/-- The node at a position has this position as its id, and a key finds the one node that has it. -/
structure Sound (layer : Layer level κ ν) : Prop where
  position : ∀ {place node}, layer.nodes[place]? = some node → layer.idOf node = ⟨place⟩
  find_iff : ∀ key id, (layer.find key).map layer.idOf = some id ↔
    ∃ node, layer.nodes[id.index]? = some node ∧ layer.keyOf node = key
  distinct : (layer.nodes.toList.map layer.keyOf).Nodup

theorem nodup_map {β : Type} {nodes : Array ν} {value : ν → β}
    (separates : ∀ {first second : Nat} {node other : ν}, nodes[first]? = some node → nodes[second]? = some other →
      value node = value other → first = second) : (nodes.toList.map value).Nodup := by
  rw [List.nodup_iff_getElem?_ne_getElem?]
  intro first second before bound same
  have bound' : second < nodes.size := by simpa using bound
  have at_first : nodes[first]? = some nodes[first] := Array.getElem?_eq_getElem (by omega)
  have at_second : nodes[second]? = some nodes[second] := Array.getElem?_eq_getElem bound'
  have agree : value nodes[first] = value nodes[second] := by
    simpa [List.getElem?_map, at_first, at_second] using same
  have := separates at_first at_second agree
  omega

theorem sound_of_indexed
    (indexed : Model.Indexed (fun id : Id level => layer.nodes[id.index]?) layer.find layer.idOf layer.keyOf) :
    layer.Sound where
  position {place node} held := by
    have held : layer.nodes[(⟨place⟩ : Id level).index]? = some node := held
    exact indexed.look_id held
  find_iff key id := by
    constructor
    · intro found
      obtain ⟨node, at_key, rfl⟩ := Option.map_eq_some_iff.mp found
      exact ⟨node, (indexed.find_iff key node).mp at_key⟩
    · rintro ⟨node, held, named⟩
      obtain rfl := indexed.look_id held
      exact Option.map_eq_some_iff.mpr ⟨node, (indexed.find_iff key node).mpr ⟨held, named⟩, rfl⟩
  distinct := by
    refine nodup_map fun {first second node other} held held' same => ?_
    have same : (⟨first⟩ : Id level) = ⟨second⟩ := indexed.unique held held' same
    exact Id.mk.inj same

theorem Sound.nodup_ids (sound : layer.Sound) : (layer.nodes.toList.map layer.idOf).Nodup := by
  refine nodup_map fun {first second node other} held held' same => ?_
  have same : (⟨first⟩ : Id level) = ⟨second⟩ := (sound.position held).symm.trans (same.trans (sound.position held'))
  exact Id.mk.inj same

theorem Sound.held (sound : layer.Sound) {node : ν} (member : node ∈ layer.nodes) :
    layer.nodes[(layer.idOf node).index]? = some node := by
  obtain ⟨place, held⟩ := Array.mem_iff_getElem?.mp member
  rw [sound.position held]
  exact held

end Layer

/-! ## Owners and children -/

structure Ownership {upper lower : Level} {κ κ' ω ν : Type} (owners : Layer upper κ ω)
    (children : Layer lower κ' ν) where
  listing : ω → Directory κ' (Id lower)
  back : ν → Id upper
  embedded : κ' → κ

namespace Ownership

variable {upper lower : Level} {κ κ' ω ν : Type} {owners : Layer upper κ ω}
  {children : Layer lower κ' ν} {ownership : Ownership owners children}

/-- The children that an owner lists are those that name it as their owner, each of them is found there by its key,
and the keys of children embed those of their owners. -/
structure Sound [DecidableEq κ'] (ownership : Ownership owners children) : Prop where
  distinct : ∀ owner ∈ owners.nodes,
    (ownership.listing owner).index.keys.Nodup ∧ (ownership.listing owner).ids.Nodup
  find_iff : ∀ owner ∈ owners.nodes, ∀ key id, (ownership.listing owner).find? key = some id ↔
    id ∈ (ownership.listing owner).ids ∧ ∃ child, children.nodes[id.index]? = some child ∧ children.keyOf child = key
  listed_iff : ∀ owner ∈ owners.nodes, ∀ child ∈ children.nodes,
    children.idOf child ∈ (ownership.listing owner).ids ↔ ownership.back child = owners.idOf owner
  embeds : ∀ child ∈ children.nodes, ∃ owner, owners.nodes[(ownership.back child).index]? = some owner ∧
    owners.keyOf owner = ownership.embedded (children.keyOf child)
  once : (owners.nodes.toList.flatMap fun owner => (ownership.listing owner).ids).Perm
    (children.nodes.toList.map children.idOf)

variable (above : owners.Sound) (below : children.Sound)
  (lists : ∀ {place owner}, owners.nodes[place]? = some owner → (ownership.listing owner).Lists fun key id =>
    ∃ child, children.nodes[id.index]? = some child ∧ children.keyOf child = key ∧ ownership.back child = ⟨place⟩)

include lists in
theorem mem_ids_iff {place : Nat} {owner : ω} (held : owners.nodes[place]? = some owner) (id : Id lower) :
    id ∈ (ownership.listing owner).ids ↔
      ∃ child, children.nodes[id.index]? = some child ∧ ownership.back child = ⟨place⟩ := by
  rw [(lists held).mem_ids_iff]
  constructor
  · rintro ⟨key, child, at_child, _, owned⟩
    exact ⟨child, at_child, owned⟩
  · rintro ⟨child, at_child, owned⟩
    exact ⟨_, child, at_child, rfl, owned⟩

include lists in
theorem nodup_ids {place : Nat} {owner : ω} (held : owners.nodes[place]? = some owner) :
    (ownership.listing owner).ids.Nodup := by
  refine (lists held).nodup_ids ?_
  rintro id key other ⟨child, at_child, named, _⟩ ⟨child', at_child', named', _⟩
  obtain rfl := Option.some.inj (at_child.symm.trans at_child')
  rw [← named, ← named']

include above lists in
/-- No child is listed by two owners, as it names one of them only. -/
theorem nodup_flatMap_ids : (owners.nodes.toList.flatMap fun owner => (ownership.listing owner).ids).Nodup := by
  rw [List.nodup_flatMap]
  constructor
  · intro owner member
    exact nodup_ids lists (above.held (Array.mem_toList_iff.mp member))
  · refine (List.Nodup.of_map _ above.nodup_ids).pairwise_of_forall_ne ?_
    intro owner member other member' different id listed listed'
    -- a child in both lists names both owners
    have held := above.held (Array.mem_toList_iff.mp member)
    have held' := above.held (Array.mem_toList_iff.mp member')
    obtain ⟨child, at_child, owned⟩ := (mem_ids_iff lists held id).mp listed
    obtain ⟨child', at_child', owned'⟩ := (mem_ids_iff lists held' id).mp listed'
    obtain rfl := Option.some.inj (at_child.symm.trans at_child')
    have same : owners.idOf owner = owners.idOf other := owned.symm.trans owned'
    rw [same] at held
    exact different (Option.some.inj (held.symm.trans held'))

include above below lists in
theorem sound_of_lists [DecidableEq κ'] (embeds : ∀ child ∈ children.nodes, ∃ owner,
      owners.nodes[(ownership.back child).index]? = some owner ∧
        owners.keyOf owner = ownership.embedded (children.keyOf child)) : ownership.Sound where
  distinct owner member := ⟨(lists (above.held member)).tells.distinct, nodup_ids lists (above.held member)⟩
  find_iff owner member key id := by
    rw [(lists (above.held member)).find?_eq_some_iff, mem_ids_iff lists (above.held member)]
    constructor
    · rintro ⟨child, held, named, owned⟩
      exact ⟨⟨child, held, owned⟩, child, held, named⟩
    · rintro ⟨⟨child, held, owned⟩, other, held', named⟩
      obtain rfl := Option.some.inj (held.symm.trans held')
      exact ⟨child, held, named, owned⟩
  listed_iff owner member child member' := by
    rw [mem_ids_iff lists (above.held member)]
    have held := below.held member'
    constructor
    · rintro ⟨other, held', owned⟩
      obtain rfl := Option.some.inj (held.symm.trans held')
      exact owned
    · exact fun owned => ⟨child, held, owned⟩
  embeds := embeds
  once := by
    -- neither side names an id twice, so it is enough that they name the same ids
    rw [List.perm_ext_iff_of_nodup (nodup_flatMap_ids above lists) below.nodup_ids]
    intro id
    rw [List.mem_flatMap, List.mem_map]
    constructor
    · rintro ⟨owner, member, listed⟩
      obtain ⟨child, held, _⟩ := (mem_ids_iff lists (above.held (Array.mem_toList_iff.mp member)) id).mp listed
      exact ⟨child, Array.mem_toList_iff.mpr (Array.mem_of_getElem? held), below.position held⟩
    · rintro ⟨child, member, rfl⟩
      obtain ⟨owner, held, _⟩ := embeds child (Array.mem_toList_iff.mp member)
      refine ⟨owner, Array.mem_toList_iff.mpr (Array.mem_of_getElem? held), ?_⟩
      exact (mem_ids_iff lists held _).mpr ⟨child, below.held (Array.mem_toList_iff.mp member), rfl⟩

end Ownership

namespace Model

def assemblyLayer (model : Model) : Layer .assembly AssemblyKey AssemblyNode :=
  ⟨model.assemblies, AssemblyNode.id, AssemblyNode.key, model.findAssembly?⟩

def spaceLayer (model : Model) : Layer .space NamespaceKey NamespaceNode :=
  ⟨model.spaces, NamespaceNode.id, NamespaceNode.key, model.findSpace?⟩

def typeLayer (model : Model) : Layer .type TypeKey TypeNode :=
  ⟨model.types, TypeNode.id, TypeNode.key, model.findType?⟩

def memberLayer (model : Model) : Layer .member MemberKey MemberNode :=
  ⟨model.members, MemberNode.id, MemberNode.key, model.findMember?⟩

def spaceOwnership (model : Model) : Ownership model.assemblyLayer model.spaceLayer :=
  ⟨AssemblyNode.spaces, NamespaceNode.assembly, NamespaceKey.assembly⟩

def typeOwnership (model : Model) : Ownership model.spaceLayer model.typeLayer :=
  ⟨NamespaceNode.types, TypeNode.space, TypeKey.space⟩

def memberOwnership (model : Model) : Ownership model.typeLayer model.memberLayer :=
  ⟨TypeNode.members, MemberNode.owner, MemberKey.owner⟩

structure Consistent (model : Model) : Prop where
  assemblies : model.assemblyLayer.Sound
  spaces : model.spaceLayer.Sound
  types : model.typeLayer.Sound
  members : model.memberLayer.Sound
  index_distinct : model.index.keys.Nodup
  index_iff : ∀ key id, model.index.find? key = some id ↔
    ∃ node, model.assembly? id = some node ∧ node.key = key
  spaceOwners : model.spaceOwnership.Sound
  typeOwners : model.typeOwnership.Sound
  memberOwners : model.memberOwnership.Sound
  typeReferences : ∀ node ∈ model.types, model.BacksType node
  memberReferences : ∀ node ∈ model.members, model.BacksMember node

namespace WellFormed

variable {model : Model} (formed : model.WellFormed)
include formed

theorem assemblyLayer_sound : model.assemblyLayer.Sound := Layer.sound_of_indexed formed.assemblies_indexed

theorem spaceLayer_sound : model.spaceLayer.Sound := Layer.sound_of_indexed formed.spaces_indexed

theorem typeLayer_sound : model.typeLayer.Sound := Layer.sound_of_indexed formed.types_indexed

theorem memberLayer_sound : model.memberLayer.Sound := Layer.sound_of_indexed formed.members_indexed

theorem spaceOwnership_sound : model.spaceOwnership.Sound := by
  refine Ownership.sound_of_lists formed.assemblyLayer_sound formed.spaceLayer_sound ?_ ?_
  · intro place owner held
    have held : model.assembly? ⟨place⟩ = some owner := held
    exact formed.spaces held
  · exact fun child member => formed.space_owner (formed.spaceLayer_sound.held member)

theorem typeOwnership_sound : model.typeOwnership.Sound := by
  refine Ownership.sound_of_lists formed.spaceLayer_sound formed.typeLayer_sound ?_ ?_
  · intro place owner held
    have held : model.space? ⟨place⟩ = some owner := held
    exact formed.types held
  · exact fun child member => formed.type_owner (formed.typeLayer_sound.held member)

theorem memberOwnership_sound : model.memberOwnership.Sound := by
  refine Ownership.sound_of_lists formed.typeLayer_sound formed.memberLayer_sound ?_ ?_
  · intro place owner held
    have held : model.type? ⟨place⟩ = some owner := held
    exact formed.members held
  · exact fun child member => formed.member_owner (formed.memberLayer_sound.held member)

theorem consistent : model.Consistent where
  assemblies := formed.assemblyLayer_sound
  spaces := formed.spaceLayer_sound
  types := formed.typeLayer_sound
  members := formed.memberLayer_sound
  index_distinct := formed.assemblies.distinct
  index_iff := formed.assemblies.find?_eq_some_iff
  spaceOwners := formed.spaceOwnership_sound
  typeOwners := formed.typeOwnership_sound
  memberOwners := formed.memberOwnership_sound
  typeReferences _ member := formed.type_backed (formed.typeLayer_sound.held member)
  memberReferences _ member := formed.member_backed (formed.memberLayer_sound.held member)

end WellFormed

end Model

namespace MappingPlan

theorem loadSource_reachable {plan : MappingPlan} (honest : plan.scanner.Honest) {model : Model}
    (reached : model.Reachable) (source : Source) (options : Options) :
    (plan.loadSource model source options).2.Reachable := by
  obtain ⟨builder, reached, rfl⟩ := reached
  unfold loadSource
  cases source.decoded with
  | error fault => exact ⟨builder, reached, rfl⟩
  | ok module =>
    have visited := reached.renew.visit module options plan.config.traversal.order honest
    unfold loadModule
    simp only
    split
    · exact ⟨_, visited, rfl⟩
    next fault _ => exact ⟨_, visited.request (.giveUp module.key fault.text), rfl⟩

theorem loadAll_reachable {plan : MappingPlan} (honest : plan.scanner.Honest) {mapping final : Mapping}
    {sources : List (Source × Options)} (reached : mapping.model.Reachable)
    (loaded : plan.loadAll mapping sources = .ok final) : final.model.Reachable := by
  induction sources generalizing mapping with
  | nil =>
    cases loaded
    exact reached
  | cons first rest ih =>
    have goes_on := loadSource_reachable honest reached first.1 first.2
    unfold loadAll at loaded
    generalize plan.loadSource mapping.model first.1 first.2 = ended at loaded goes_on
    obtain ⟨result, model⟩ := ended
    cases result with
    | ok key => exact ih goes_on loaded
    | error fault =>
      simp only at loaded
      split at loaded
      · cases loaded
      · exact ih goes_on loaded

end MappingPlan

namespace Builder

inductive Work (start : Builder) : Builder → Prop
  | none : Work start start
  | step {builder : Builder} (done : Work start builder) (op : Op) : Work start (op.perform builder).2
  | visit {builder : Builder} (done : Work start builder) (module : ModuleDecl) (options : Options) (order : Order)
    {scanner : Scanner} (honest : scanner.Honest) :
    Work start (builder.visitInOrder module options order scanner).builder

theorem Work.reachable {start builder : Builder} (work : start.Work builder) (reached : start.Reachable) :
    builder.Reachable := by
  induction work with
  | none => exact reached
  | step _ op ih => exact ih.step op
  | visit _ module options order honest ih => exact ih.visit module options order honest

end Builder

namespace Model

/-- The models that come up when models are asked for keys, built, with or without scopes left open, and mapped. -/
inductive Attained : Model → Prop
  | empty : Attained {}
  | request {model : Model} (attained : Attained model) (request : Request) : Attained (request.grant model)
  | built {model : Model} (attained : Attained model) {builder : Builder} (work : Builder.Work { model } builder) :
    Attained builder.model
  | mapped {plan : MappingPlan} (honest : plan.scanner.Honest) {mapping : Mapping} (ran : plan.run = .ok mapping) :
    Attained mapping.model

theorem Attained.reachable {model : Model} (attained : model.Attained) : model.Reachable := by
  induction attained with
  | empty => exact ⟨_, .empty, rfl⟩
  | request _ request ih =>
    obtain ⟨builder, reached, rfl⟩ := ih
    exact ⟨_, reached.request request, rfl⟩
  | built _ work ih =>
    obtain ⟨builder, reached, rfl⟩ := ih
    exact ⟨_, work.reachable reached.renew, rfl⟩
  | mapped honest ran => exact MappingPlan.loadAll_reachable honest ⟨_, .empty, rfl⟩ ran

theorem consistent_of_attained {model : Model} (attained : model.Attained) : model.Consistent :=
  attained.reachable.wellFormed.consistent

end Model

/-- A module whose only method calls a method of another assembly, and a source that cannot be read. -/
def MappingPlan.tools : MappingPlan :=
  let saw : TypeKey := ⟨⟨⟨"tools"⟩, "shop"⟩, "Saw", 0⟩
  let board : TypeKey := ⟨⟨⟨"wood"⟩, "yard"⟩, "Board", 0⟩
  let cut : MethodDecl := { key := ⟨saw, "cut", none⟩, body := some [.member .method ⟨board, "split", none⟩] }
  { primary := [
      ModuleDecl.source { key := ⟨"tools"⟩, types := [.node { key := saw, methods := [cut] } []] },
      .unreadable "lost" (.decode "lost" "truncated") ] }

/-- The mapped model is built further: a step takes the method of the other assembly for a field and fails, and the
builder is dropped with open scopes. -/
theorem Model.consistent_of_attained_tools :
    ∃ mapping, MappingPlan.tools.run = .ok mapping ∧ mapping.failures.length = 1 ∧
      ∃ builder, Builder.Work { model := mapping.model } builder ∧ builder.scopes.length = 2 ∧
        builder.model.Consistent := by
  let yard : NamespaceKey := ⟨⟨"wood"⟩, "yard"⟩
  let board : TypeKey := ⟨yard, "Board", 0⟩
  let mapped := MappingPlan.tools.run
  let built (mapping : Mapping) : Builder :=
    [.startSpace yard, .startType board false, .startField ⟨board, "split", none⟩].foldl
      (fun builder op => (Op.perform op builder).2) { model := mapping.model }
  have shape : mapped.map (fun mapping => (mapping.failures.length, (built mapping).scopes.length)) = .ok (1, 2) := by
    decide +kernel
  cases ran : MappingPlan.tools.run with
  | error fault => simp [mapped, ran, Except.map] at shape
  | ok mapping =>
    obtain ⟨failures, scopes⟩ : mapping.failures.length = 1 ∧ (built mapping).scopes.length = 2 := by
      simpa [mapped, ran, Except.map] using shape
    have attained : mapping.model.Attained := .mapped Scanner.references_honest ran
    have work : Builder.Work { model := mapping.model } (built mapping) := ((Builder.Work.none.step _).step _).step _
    exact ⟨mapping, rfl, failures, built mapping, work, scopes, consistent_of_attained (attained.built work)⟩

end UsageGraph
