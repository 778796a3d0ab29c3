import UsageGraph.Model.Ensure
import UsageGraph.Proofs.Usage

/-! Well-formed models.

The node at a position has that position as its id, directories find and list exactly the
children of their owners, and a child's key names its owner. So a key finds a node
exactly when some node has it. What a node refers to is in the model, and a recorded
usage says of its target what the target says of itself.
-/

set_option autoImplicit false
namespace UsageGraph

/-- An index has the entries that a relation between keys and ids tells, each key once. -/
structure Index.Tells {κ ι : Type} (index : Index κ ι) (child : κ → ι → Prop) : Prop where
  distinct : index.keys.Nodup
  mem_iff : ∀ key id, (key, id) ∈ index.entries ↔ child key id

/-- The index of a directory tells its children, and the list has what the index has. The newest child is the first
one of the index and the last one of the list. -/
structure Directory.Lists {κ ι : Type} (directory : Directory κ ι) (child : κ → ι → Prop) : Prop where
  tells : directory.index.Tells child
  agree : directory.ids = (directory.index.entries.map Prod.snd).reverse

namespace Index

variable {κ ι : Type} {index : Index κ ι} {child : κ → ι → Prop}

theorem Tells.congr {other : κ → ι → Prop} (tells : index.Tells child)
    (same : ∀ key id, child key id ↔ other key id) : index.Tells other :=
  ⟨tells.distinct, fun key id => (tells.mem_iff key id).trans (same key id)⟩

theorem Tells.empty (none : ∀ key id, ¬ child key id) : ({} : Index κ ι).Tells child where
  distinct := List.nodup_nil
  mem_iff key id := by simp [none key id]

theorem Tells.insert (tells : index.Tells child) (key : κ) (id : ι) (absent : ∀ id, ¬ child key id) :
    (index.insert key id).Tells fun other found => child other found ∨ other = key ∧ found = id where
  distinct := by
    rw [keys_insert, List.nodup_cons]
    refine ⟨fun listed => ?_, tells.distinct⟩
    obtain ⟨⟨_, found⟩, member, rfl⟩ := List.mem_map.mp listed
    exact absent found ((tells.mem_iff _ _).mp member)
  mem_iff other found := by
    rw [Index.insert, List.mem_cons, Prod.mk.injEq, tells.mem_iff, or_comm]

theorem Tells.find?_eq_some_iff [DecidableEq κ] (tells : index.Tells child) (key : κ) (id : ι) :
    index.find? key = some id ↔ child key id := by
  rw [← tells.mem_iff]
  constructor
  · intro found
    obtain ⟨entry, first, rfl⟩ := Option.map_eq_some_iff.mp found
    have named : entry.1 = key := by simpa using List.find?_some first
    have member := List.mem_of_find?_eq_some first
    rw [← named]
    exact member
  · intro member
    cases first : index.entries.find? (fun entry => entry.1 = key) with
    | none => simpa using List.find?_eq_none.mp first (key, id) member
    | some entry =>
      have named : entry.1 = key := by simpa using List.find?_some first
      have same : entry = (key, id) :=
        List.inj_on_of_nodup_map tells.distinct (List.mem_of_find?_eq_some first) member named
      simp [find?, first, same]

end Index

namespace Directory

variable {κ ι : Type} {directory : Directory κ ι} {child : κ → ι → Prop}

theorem Lists.congr {other : κ → ι → Prop} (lists : directory.Lists child)
    (same : ∀ key id, child key id ↔ other key id) : directory.Lists other :=
  ⟨lists.tells.congr same, lists.agree⟩

theorem Lists.empty (none : ∀ key id, ¬ child key id) : ({} : Directory κ ι).Lists child := ⟨.empty none, rfl⟩

theorem Lists.insert (lists : directory.Lists child) (key : κ) (id : ι) (absent : ∀ id, ¬ child key id) :
    (directory.insert key id).Lists fun other found => child other found ∨ other = key ∧ found = id where
  tells := lists.tells.insert key id absent
  agree := by simp [lists.agree, Index.insert]

theorem Lists.find?_eq_some_iff [DecidableEq κ] (lists : directory.Lists child) (key : κ) (id : ι) :
    directory.find? key = some id ↔ child key id := lists.tells.find?_eq_some_iff key id

theorem Lists.mem_ids_iff (lists : directory.Lists child) (id : ι) : id ∈ directory.ids ↔ ∃ key, child key id := by
  rw [lists.agree, List.mem_reverse, List.mem_map]
  constructor
  · rintro ⟨⟨key, found⟩, member, rfl⟩
    exact ⟨key, (lists.tells.mem_iff key found).mp member⟩
  · rintro ⟨key, told⟩
    exact ⟨(key, id), (lists.tells.mem_iff key id).mpr told, rfl⟩

theorem Lists.nodup_ids (lists : directory.Lists child)
    (named : ∀ {id key other}, child key id → child other id → key = other) : directory.ids.Nodup := by
  rw [lists.agree, List.nodup_reverse]
  refine (List.Nodup.of_map _ lists.tells.distinct).map_on ?_
  rintro ⟨key, id⟩ member ⟨other, id'⟩ member' same
  obtain rfl : id = id' := same
  rw [named ((lists.tells.mem_iff key id).mp member) ((lists.tells.mem_iff other id).mp member')]

end Directory

/-! ## What nodes refer to -/

namespace Model

/-- The usages of a set say of their targets what the model says, and name each target once. -/
structure Backs (model : Model) (set : UsageSet) : Prop where
  accurate : ∀ usage ∈ set.toList, model.usageOf? usage.target = some usage
  distinct : set.targets.Nodup
  indexed : set.Indexed

structure BacksType (model : Model) (node : TypeNode) : Prop where
  base : ∀ id ∈ node.base, (model.type? id).isSome
  interfaces : ∀ id ∈ node.interfaces, (model.type? id).isSome
  attributes : ∀ id ∈ node.attributes, (model.type? id).isSome
  usages : model.Backs node.usages

end Model

namespace MemberDetail

def parameters : MemberDetail → List TypeId
  | .method parameters _ => parameters
  | _ => []

def flags : MemberDetail → MethodFlags
  | .method _ flags => flags
  | _ => {}

theorem eq_method_of_kind {detail : MemberDetail} (isMethod : detail.kind = .method) :
    detail = .method detail.parameters detail.flags := by
  cases detail <;> simp_all [kind, parameters, flags]

theorem accessor?_of_method {detail : MemberDetail} (isMethod : detail.kind = .method) (slot : Slot) :
    detail.accessor? slot = none := by
  rw [eq_method_of_kind isMethod]
  cases slot <;> rfl

theorem accessor?_setAccessor {detail : MemberDetail} {slot : Slot} (fits : detail.kind = slot.ownerKind)
    (accessor : MemberId) (other : Slot) :
    (detail.setAccessor slot accessor).accessor? other =
      if other = slot then some accessor else detail.accessor? other := by
  cases slot <;> cases detail <;> simp [kind, Slot.ownerKind] at fits <;> cases other <;> rfl

@[simp] theorem parameters_setAccessor (detail : MemberDetail) (slot : Slot) (accessor : MemberId) :
    (detail.setAccessor slot accessor).parameters = detail.parameters := by
  cases slot <;> cases detail <;> rfl

@[simp] theorem flags_setAccessor (detail : MemberDetail) (slot : Slot) (accessor : MemberId) :
    (detail.setAccessor slot accessor).flags = detail.flags := by
  cases slot <;> cases detail <;> rfl

@[simp] theorem parameters_blank (kind : MemberKind) : (blank kind).parameters = [] := by
  cases kind <;> rfl

@[simp] theorem flags_blank (kind : MemberKind) : (blank kind).flags = {} := by
  cases kind <;> rfl

@[simp] theorem accessor?_blank (kind : MemberKind) (slot : Slot) : (blank kind).accessor? slot = none := by
  cases kind <;> cases slot <;> rfl

end MemberDetail

namespace Model

structure BacksMember (model : Model) (node : MemberNode) : Prop where
  declaredType : ∀ id ∈ node.declaredType, (model.type? id).isSome
  parameters : ∀ id ∈ node.detail.parameters, (model.type? id).isSome
  accessors : ∀ slot, ∀ id ∈ node.detail.accessor? slot, ∃ method, model.member? id = some method ∧ method.isMethod
  attributes : ∀ id ∈ node.attributes, (model.type? id).isSome
  usages : model.Backs node.usages

structure WellFormed (model : Model) : Prop where
  assembly_id : ∀ {id node}, model.assembly? id = some node → node.id = id
  space_id : ∀ {id node}, model.space? id = some node → node.id = id
  type_id : ∀ {id node}, model.type? id = some node → node.id = id
  member_id : ∀ {id node}, model.member? id = some node → node.id = id
  assemblies : model.index.Tells fun key id => ∃ node, model.assembly? id = some node ∧ node.key = key
  spaces : ∀ {owner node}, model.assembly? owner = some node → node.spaces.Lists fun key id =>
    ∃ child, model.space? id = some child ∧ child.key = key ∧ child.assembly = owner
  types : ∀ {owner node}, model.space? owner = some node → node.types.Lists fun key id =>
    ∃ child, model.type? id = some child ∧ child.key = key ∧ child.space = owner
  members : ∀ {owner node}, model.type? owner = some node → node.members.Lists fun key id =>
    ∃ child, model.member? id = some child ∧ child.key = key ∧ child.owner = owner
  space_owner : ∀ {id node}, model.space? id = some node →
    ∃ owner, model.assembly? node.assembly = some owner ∧ owner.key = node.key.assembly
  type_owner : ∀ {id node}, model.type? id = some node →
    ∃ owner, model.space? node.space = some owner ∧ owner.key = node.key.space
  member_owner : ∀ {id node}, model.member? id = some node →
    ∃ owner, model.type? node.owner = some owner ∧ owner.key = node.key.owner
  type_backed : ∀ {id node}, model.type? id = some node → model.BacksType node
  member_backed : ∀ {id node}, model.member? id = some node → model.BacksMember node

theorem WellFormed.empty : WellFormed {} where
  assembly_id := by simp [assembly?]
  space_id := by simp [space?]
  type_id := by simp [type?]
  member_id := by simp [member?]
  assemblies := Index.Tells.empty (by simp [assembly?])
  spaces := by simp [assembly?]
  types := by simp [space?]
  members := by simp [type?]
  space_owner := by simp [space?]
  type_owner := by simp [type?]
  member_owner := by simp [member?]
  type_backed := by simp [type?]
  member_backed := by simp [member?]

/-- A node is looked up by its id, and found by its key. -/
structure Indexed {κ ι ν : Type} (look : ι → Option ν) (find : κ → Option ν) (idOf : ν → ι) (keyOf : ν → κ) : Prop where
  look_id : ∀ {id node}, look id = some node → idOf node = id
  find_iff : ∀ key node, find key = some node ↔ look (idOf node) = some node ∧ keyOf node = key

theorem Indexed.unique {κ ι ν : Type} {look : ι → Option ν} {find : κ → Option ν} {idOf : ν → ι} {keyOf : ν → κ}
    (indexed : Indexed look find idOf keyOf) {first second : ι} {node other : ν} (held : look first = some node)
    (held' : look second = some other) (same : keyOf node = keyOf other) : first = second := by
  have found := (indexed.find_iff (keyOf node) node).mpr ⟨indexed.look_id held ▸ held, rfl⟩
  have found' := (indexed.find_iff (keyOf node) other).mpr ⟨indexed.look_id held' ▸ held', same.symm⟩
  obtain rfl := Option.some.inj (found.symm.trans found')
  exact (indexed.look_id held).symm.trans (indexed.look_id held')

namespace WellFormed

variable {model : Model} (formed : model.WellFormed)
include formed

theorem findAssembly?_eq_some_iff (key : AssemblyKey) (node : AssemblyNode) :
    model.findAssembly? key = some node ↔ model.assembly? node.id = some node ∧ node.key = key := by
  simp only [findAssembly?, Option.bind_eq_some_iff, formed.assemblies.find?_eq_some_iff]
  constructor
  · rintro ⟨id, ⟨found, held, named⟩, at_id⟩
    obtain rfl : found = node := Option.some.inj (held.symm.trans at_id)
    rw [formed.assembly_id at_id]
    exact ⟨at_id, named⟩
  · rintro ⟨held, named⟩
    exact ⟨node.id, ⟨node, held, named⟩, held⟩

theorem findSpace?_eq_some_iff (key : NamespaceKey) (node : NamespaceNode) :
    model.findSpace? key = some node ↔ model.space? node.id = some node ∧ node.key = key := by
  simp only [findSpace?, Option.bind_eq_some_iff, formed.findAssembly?_eq_some_iff]
  constructor
  · rintro ⟨owner, ⟨held, _⟩, id, found, at_id⟩
    obtain ⟨child, at_child, named, _⟩ := ((formed.spaces held).find?_eq_some_iff key id).mp found
    obtain rfl : child = node := Option.some.inj (at_child.symm.trans at_id)
    rw [formed.space_id at_id]
    exact ⟨at_id, named⟩
  · rintro ⟨held, rfl⟩
    obtain ⟨owner, at_owner, owned⟩ := formed.space_owner held
    have same := formed.assembly_id at_owner
    refine ⟨owner, ⟨same ▸ at_owner, owned⟩, node.id, ?_, held⟩
    exact ((formed.spaces at_owner).find?_eq_some_iff node.key node.id).mpr ⟨node, held, rfl, rfl⟩

theorem findType?_eq_some_iff (key : TypeKey) (node : TypeNode) :
    model.findType? key = some node ↔ model.type? node.id = some node ∧ node.key = key := by
  simp only [findType?, Option.bind_eq_some_iff, formed.findSpace?_eq_some_iff]
  constructor
  · rintro ⟨owner, ⟨held, _⟩, id, found, at_id⟩
    obtain ⟨child, at_child, named, _⟩ := ((formed.types held).find?_eq_some_iff key id).mp found
    obtain rfl : child = node := Option.some.inj (at_child.symm.trans at_id)
    rw [formed.type_id at_id]
    exact ⟨at_id, named⟩
  · rintro ⟨held, rfl⟩
    obtain ⟨owner, at_owner, owned⟩ := formed.type_owner held
    have same := formed.space_id at_owner
    refine ⟨owner, ⟨same ▸ at_owner, owned⟩, node.id, ?_, held⟩
    exact ((formed.types at_owner).find?_eq_some_iff node.key node.id).mpr ⟨node, held, rfl, rfl⟩

theorem findMember?_eq_some_iff (key : MemberKey) (node : MemberNode) :
    model.findMember? key = some node ↔ model.member? node.id = some node ∧ node.key = key := by
  simp only [findMember?, Option.bind_eq_some_iff, formed.findType?_eq_some_iff]
  constructor
  · rintro ⟨owner, ⟨held, _⟩, id, found, at_id⟩
    obtain ⟨child, at_child, named, _⟩ := ((formed.members held).find?_eq_some_iff key id).mp found
    obtain rfl : child = node := Option.some.inj (at_child.symm.trans at_id)
    rw [formed.member_id at_id]
    exact ⟨at_id, named⟩
  · rintro ⟨held, rfl⟩
    obtain ⟨owner, at_owner, owned⟩ := formed.member_owner held
    have same := formed.type_id at_owner
    refine ⟨owner, ⟨same ▸ at_owner, owned⟩, node.id, ?_, held⟩
    exact ((formed.members at_owner).find?_eq_some_iff node.key node.id).mpr ⟨node, held, rfl, rfl⟩

theorem assemblies_indexed : Indexed model.assembly? model.findAssembly? AssemblyNode.id AssemblyNode.key :=
  ⟨formed.assembly_id, formed.findAssembly?_eq_some_iff⟩

theorem spaces_indexed : Indexed model.space? model.findSpace? NamespaceNode.id NamespaceNode.key :=
  ⟨formed.space_id, formed.findSpace?_eq_some_iff⟩

theorem types_indexed : Indexed model.type? model.findType? TypeNode.id TypeNode.key :=
  ⟨formed.type_id, formed.findType?_eq_some_iff⟩

theorem members_indexed : Indexed model.member? model.findMember? MemberNode.id MemberNode.key :=
  ⟨formed.member_id, formed.findMember?_eq_some_iff⟩

end WellFormed

end Model

end UsageGraph
