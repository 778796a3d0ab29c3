import UsageGraph.Proofs.Model.WellFormed

/-! How models grow.

Nodes are added and filled in, never removed: an id keeps its node's key and owner, and a
member its kind. A well-formed model stays so when a blank node is added under its owner
and when the content of a node changes to something that the model backs.
-/

set_option autoImplicit false
namespace UsageGraph.Model

/-- Every node is still there, under the same id and key, with the same owner and kind. -/
structure Grows (before after : Model) : Prop where
  assembly : ∀ {id node}, before.assembly? id = some node →
    ∃ later, after.assembly? id = some later ∧ later.id = node.id ∧ later.key = node.key
  space : ∀ {id node}, before.space? id = some node →
    ∃ later, after.space? id = some later ∧ later.id = node.id ∧ later.key = node.key ∧ later.assembly = node.assembly
  type : ∀ {id node}, before.type? id = some node →
    ∃ later, after.type? id = some later ∧ later.id = node.id ∧ later.key = node.key ∧ later.space = node.space
  member : ∀ {id node}, before.member? id = some node →
    ∃ later, after.member? id = some later ∧ later.id = node.id ∧ later.key = node.key ∧
      later.owner = node.owner ∧ later.kind = node.kind

namespace Grows

variable {first second third : Model}

theorem refl (model : Model) : model.Grows model :=
  ⟨fun held => ⟨_, held, rfl, rfl⟩, fun held => ⟨_, held, rfl, rfl, rfl⟩,
    fun held => ⟨_, held, rfl, rfl, rfl⟩, fun held => ⟨_, held, rfl, rfl, rfl, rfl⟩⟩

theorem trans (begun : first.Grows second) (continued : second.Grows third) : first.Grows third where
  assembly held := by
    obtain ⟨node, held, id, key⟩ := begun.assembly held
    obtain ⟨later, held, id', key'⟩ := continued.assembly held
    exact ⟨later, held, id'.trans id, key'.trans key⟩
  space held := by
    obtain ⟨node, held, id, key, owner⟩ := begun.space held
    obtain ⟨later, held, id', key', owner'⟩ := continued.space held
    exact ⟨later, held, id'.trans id, key'.trans key, owner'.trans owner⟩
  type held := by
    obtain ⟨node, held, id, key, owner⟩ := begun.type held
    obtain ⟨later, held, id', key', owner'⟩ := continued.type held
    exact ⟨later, held, id'.trans id, key'.trans key, owner'.trans owner⟩
  member held := by
    obtain ⟨node, held, id, key, owner, kind⟩ := begun.member held
    obtain ⟨later, held, id', key', owner', kind'⟩ := continued.member held
    exact ⟨later, held, id'.trans id, key'.trans key, owner'.trans owner, kind'.trans kind⟩

theorem assemblyOf (grows : first.Grows second) {id : AssemblyId} {key : AssemblyKey}
    (found : ∃ node, first.assembly? id = some node ∧ node.key = key) :
    ∃ node, second.assembly? id = some node ∧ node.key = key := by
  obtain ⟨node, held, named⟩ := found
  obtain ⟨later, at_later, _, same⟩ := grows.assembly held
  exact ⟨later, at_later, same.trans named⟩

theorem spaceOf (grows : first.Grows second) {id : NamespaceId} {key : NamespaceKey}
    (found : ∃ node, first.space? id = some node ∧ node.key = key) :
    ∃ node, second.space? id = some node ∧ node.key = key := by
  obtain ⟨node, held, named⟩ := found
  obtain ⟨later, at_later, _, same, _⟩ := grows.space held
  exact ⟨later, at_later, same.trans named⟩

theorem typeOf (grows : first.Grows second) {id : TypeId} {key : TypeKey}
    (found : ∃ node, first.type? id = some node ∧ node.key = key) :
    ∃ node, second.type? id = some node ∧ node.key = key := by
  obtain ⟨node, held, named⟩ := found
  obtain ⟨later, at_later, _, same, _⟩ := grows.type held
  exact ⟨later, at_later, same.trans named⟩

theorem isSome_type (grows : first.Grows second) {id : TypeId} (held : (first.type? id).isSome) :
    (second.type? id).isSome := by
  obtain ⟨node, held⟩ := Option.isSome_iff_exists.mp held
  obtain ⟨later, held, _⟩ := grows.type held
  exact Option.isSome_iff_exists.mpr ⟨later, held⟩

theorem usageOf? (grows : first.Grows second) {target : NodeRef} {usage : Usage}
    (recorded : first.usageOf? target = some usage) : second.usageOf? target = some usage := by
  cases target with
  | type id =>
    obtain ⟨node, held, rfl⟩ := Option.map_eq_some_iff.mp recorded
    obtain ⟨later, held, same, _⟩ := grows.type held
    simp [Model.usageOf?, held, same]
  | member id =>
    obtain ⟨node, held, rfl⟩ := Option.map_eq_some_iff.mp recorded
    obtain ⟨later, held, _, _, owner, kind⟩ := grows.member held
    simp [Model.usageOf?, held, owner, kind]

theorem backs (grows : first.Grows second) {set : UsageSet} (backed : first.Backs set) : second.Backs set :=
  ⟨fun usage member => grows.usageOf? (backed.accurate usage member), backed.distinct, backed.indexed⟩

theorem backsType (grows : first.Grows second) {node : TypeNode} (backed : first.BacksType node) :
    second.BacksType node where
  base id member := grows.isSome_type (backed.base id member)
  interfaces id member := grows.isSome_type (backed.interfaces id member)
  attributes id member := grows.isSome_type (backed.attributes id member)
  usages := grows.backs backed.usages

theorem backsMember (grows : first.Grows second) {node : MemberNode} (backed : first.BacksMember node) :
    second.BacksMember node where
  declaredType id member := grows.isSome_type (backed.declaredType id member)
  parameters id member := grows.isSome_type (backed.parameters id member)
  accessors slot id member := by
    obtain ⟨method, held, isMethod⟩ := backed.accessors slot id member
    obtain ⟨later, held, _, _, _, kind⟩ := grows.member held
    exact ⟨later, held, by simpa [MemberNode.isMethod, kind] using isMethod⟩
  attributes id member := grows.isSome_type (backed.attributes id member)
  usages := grows.backs backed.usages

end Grows

section Modify

variable (model : Model)

theorem assembly?_modifyAssembly (id other : AssemblyId) (change : AssemblyNode → AssemblyNode) :
    (model.modifyAssembly id change).assembly? other =
      if other = id then (model.assembly? other).map change else model.assembly? other := by
  cases id
  cases other
  simp only [modifyAssembly, assembly?, Array.getElem?_modify, Id.mk.injEq, eq_comm]

theorem space?_modifySpace (id other : NamespaceId) (change : NamespaceNode → NamespaceNode) :
    (model.modifySpace id change).space? other =
      if other = id then (model.space? other).map change else model.space? other := by
  cases id
  cases other
  simp only [modifySpace, space?, Array.getElem?_modify, Id.mk.injEq, eq_comm]

theorem type?_modifyType (id other : TypeId) (change : TypeNode → TypeNode) :
    (model.modifyType id change).type? other =
      if other = id then (model.type? other).map change else model.type? other := by
  cases id
  cases other
  simp only [modifyType, type?, Array.getElem?_modify, Id.mk.injEq, eq_comm]

theorem member?_modifyMember (id other : MemberId) (change : MemberNode → MemberNode) :
    (model.modifyMember id change).member? other =
      if other = id then (model.member? other).map change else model.member? other := by
  cases id
  cases other
  simp only [modifyMember, member?, Array.getElem?_modify, Id.mk.injEq, eq_comm]

end Modify

/-! ## New nodes, seen by id -/

theorem exists_added_iff {ι ν : Type} [DecidableEq ι] {lookup : ι → Option ν} {place : ι} (fresh : lookup place = none)
    (added : ν) (holds : ν → Prop) (id : ι) :
    (∃ node, (if id = place then some added else lookup id) = some node ∧ holds node) ↔
      (∃ node, lookup id = some node ∧ holds node) ∨ id = place ∧ holds added := by
  by_cases new : id = place
  · subst new
    simp [fresh]
  · simp [new]

section Lists

variable {κ ι ν : Type} [DecidableEq ι] {lookup lookup' : ι → Option ν} {place : ι} {added : ν}
  (looks : ∀ id, lookup' id = if id = place then some added else lookup id) (fresh : lookup place = none)
  {holds : κ → ν → Prop}
include looks fresh

/-- The added node is told under its key, and everything else is told as before. -/
theorem told_added_iff {key : κ} (named : ∀ other, holds other added ↔ other = key) (other : κ) (id : ι) :
    (∃ node, lookup id = some node ∧ holds other node) ∨ other = key ∧ id = place ↔
      ∃ node, lookup' id = some node ∧ holds other node := by
  rw [looks, exists_added_iff fresh, named, @and_comm (id = place)]

theorem tells_added {index : Index κ ι} {key : κ}
    (tells : index.Tells fun other id => ∃ node, lookup id = some node ∧ holds other node)
    (absent : ∀ {id node}, lookup id = some node → ¬ holds key node)
    (named : ∀ other, holds other added ↔ other = key) :
    (index.insert key place).Tells fun other id => ∃ node, lookup' id = some node ∧ holds other node := by
  refine (tells.insert key place ?_).congr (told_added_iff looks fresh named)
  rintro id ⟨node, held, same⟩
  exact absent held same

variable {directory : Directory κ ι}
  (lists : directory.Lists fun other id => ∃ node, lookup id = some node ∧ holds other node)
include lists

theorem lists_added {key : κ} (absent : ∀ {id node}, lookup id = some node → ¬ holds key node)
    (named : ∀ other, holds other added ↔ other = key) :
    (directory.insert key place).Lists fun other id => ∃ node, lookup' id = some node ∧ holds other node := by
  refine (lists.insert key place ?_).congr (told_added_iff looks fresh named)
  rintro id ⟨node, held, same⟩
  exact absent held same

theorem lists_kept (elsewhere : ∀ other, ¬ holds other added) :
    directory.Lists fun other id => ∃ node, lookup' id = some node ∧ holds other node := by
  refine lists.congr fun other id => ?_
  rw [looks, exists_added_iff fresh]
  exact (or_iff_left fun new => elsewhere other new.2).symm

end Lists

section Add

variable (model : Model)

theorem assembly?_addAssembly (key : AssemblyKey) (id : AssemblyId) :
    (model.addAssembly key).2.assembly? id =
      if id = (model.addAssembly key).1 then some { id := (model.addAssembly key).1, key } else model.assembly? id := by
  cases id
  simp only [addAssembly, assembly?, Array.getElem?_push, Id.mk.injEq]

theorem space?_addSpace (owner : AssemblyId) (key : NamespaceKey) (id : NamespaceId) :
    (model.addSpace owner key).2.space? id =
      if id = (model.addSpace owner key).1 then some { id := (model.addSpace owner key).1, key, assembly := owner }
      else model.space? id := by
  cases id
  simp only [addSpace, modifyAssembly, space?, Array.getElem?_push, Id.mk.injEq]

theorem assembly?_addSpace (owner : AssemblyId) (key : NamespaceKey) (id : AssemblyId) :
    (model.addSpace owner key).2.assembly? id =
      if id = owner then (model.assembly? id).map fun node =>
        { node with spaces := node.spaces.insert key (model.addSpace owner key).1 }
      else model.assembly? id :=
  assembly?_modifyAssembly _ owner id _

theorem type?_addType (owner : NamespaceId) (key : TypeKey) (id : TypeId) :
    (model.addType owner key).2.type? id =
      if id = (model.addType owner key).1 then some { id := (model.addType owner key).1, key, space := owner }
      else model.type? id := by
  cases id
  simp only [addType, modifySpace, type?, Array.getElem?_push, Id.mk.injEq]

theorem space?_addType (owner : NamespaceId) (key : TypeKey) (id : NamespaceId) :
    (model.addType owner key).2.space? id =
      if id = owner then (model.space? id).map fun node =>
        { node with types := node.types.insert key (model.addType owner key).1 }
      else model.space? id :=
  space?_modifySpace _ owner id _

theorem member?_addMember (owner : TypeId) (key : MemberKey) (detail : MemberDetail) (id : MemberId) :
    (model.addMember owner key detail).2.member? id =
      if id = (model.addMember owner key detail).1 then
        some { id := (model.addMember owner key detail).1, key, owner, detail }
      else model.member? id := by
  cases id
  simp only [addMember, modifyType, member?, Array.getElem?_push, Id.mk.injEq]

theorem type?_addMember (owner : TypeId) (key : MemberKey) (detail : MemberDetail) (id : TypeId) :
    (model.addMember owner key detail).2.type? id =
      if id = owner then (model.type? id).map fun node =>
        { node with members := node.members.insert key (model.addMember owner key detail).1 }
      else model.type? id :=
  type?_modifyType _ owner id _

theorem assembly?_fresh (key : AssemblyKey) : model.assembly? (model.addAssembly key).1 = none := by
  simp [addAssembly, assembly?]

theorem space?_fresh (owner : AssemblyId) (key : NamespaceKey) :
    model.space? (model.addSpace owner key).1 = none := by
  simp [addSpace, space?]

theorem type?_fresh (owner : NamespaceId) (key : TypeKey) : model.type? (model.addType owner key).1 = none := by
  simp [addType, type?]

theorem member?_fresh (owner : TypeId) (key : MemberKey) (detail : MemberDetail) :
    model.member? (model.addMember owner key detail).1 = none := by
  simp [addMember, member?]

variable {model}

theorem ensureAssembly_unchanged_of_listed {key : AssemblyKey} {child : NamespaceKey} {node : NamespaceNode}
    (listed : (model.ensureAssembly key).2.listedSpace? (model.ensureAssembly key).1 child = some node) :
    (model.ensureAssembly key).2 = model := by
  unfold ensureAssembly at listed ⊢
  cases found : model.findAssembly? key with
  | some node => rfl
  | none =>
    rw [found] at listed
    simp [listedSpace?, assembly?_addAssembly] at listed

theorem ensureSpace_unchanged_of_listed {key : NamespaceKey} {child : TypeKey} {node : TypeNode}
    (listed : (model.ensureSpace key).2.listedType? (model.ensureSpace key).1 child = some node) :
    (model.ensureSpace key).2 = model := by
  unfold ensureSpace at listed ⊢
  dsimp only at listed ⊢
  cases found : (model.ensureAssembly key.assembly).2.listedSpace? (model.ensureAssembly key.assembly).1 key with
  | some node => exact ensureAssembly_unchanged_of_listed found
  | none =>
    rw [found] at listed
    simp [listedType?, space?_addSpace] at listed

theorem ensureType_unchanged_of_listed {key : TypeKey} {child : MemberKey} {node : MemberNode}
    (listed : (model.ensureType key).2.listedMember? (model.ensureType key).1 child = some node) :
    (model.ensureType key).2 = model := by
  unfold ensureType at listed ⊢
  dsimp only at listed ⊢
  cases found : (model.ensureSpace key.space).2.listedType? (model.ensureSpace key.space).1 key with
  | some node => exact ensureSpace_unchanged_of_listed found
  | none =>
    rw [found] at listed
    simp [listedMember?, type?_addType] at listed

end Add

/-! ## New content for a node -/

/-- The content of an assembly may differ, its place in the model and its children do not. -/
structure KeepsAssembly (before after : AssemblyNode) : Prop where
  id : after.id = before.id
  key : after.key = before.key
  spaces : after.spaces = before.spaces

structure KeepsType (before after : TypeNode) : Prop where
  id : after.id = before.id
  key : after.key = before.key
  space : after.space = before.space
  members : after.members = before.members

structure KeepsMember (before after : MemberNode) : Prop where
  id : after.id = before.id
  key : after.key = before.key
  owner : after.owner = before.owner
  kind : after.kind = before.kind

section Modified

variable {model : Model}

theorem Grows.modifyAssembly {id : AssemblyId} {change : AssemblyNode → AssemblyNode}
    (keeps : ∀ node, KeepsAssembly node (change node)) : model.Grows (model.modifyAssembly id change) where
  assembly {other node} held := by
    rw [assembly?_modifyAssembly, held]
    split
    · exact ⟨change node, rfl, (keeps node).id, (keeps node).key⟩
    · exact ⟨node, rfl, rfl, rfl⟩
  space := (Grows.refl model).space
  type := (Grows.refl model).type
  member := (Grows.refl model).member

theorem Grows.modifyType {id : TypeId} {change : TypeNode → TypeNode}
    (keeps : ∀ node, KeepsType node (change node)) : model.Grows (model.modifyType id change) where
  assembly := (Grows.refl model).assembly
  space := (Grows.refl model).space
  type {other node} held := by
    rw [type?_modifyType, held]
    split
    · exact ⟨change node, rfl, (keeps node).id, (keeps node).key, (keeps node).space⟩
    · exact ⟨node, rfl, rfl, rfl, rfl⟩
  member := (Grows.refl model).member

theorem Grows.modifyMember {id : MemberId} {change : MemberNode → MemberNode}
    (keeps : ∀ node, KeepsMember node (change node)) : model.Grows (model.modifyMember id change) where
  assembly := (Grows.refl model).assembly
  space := (Grows.refl model).space
  type := (Grows.refl model).type
  member {other node} held := by
    rw [member?_modifyMember, held]
    split
    · exact ⟨change node, rfl, (keeps node).id, (keeps node).key, (keeps node).owner, (keeps node).kind⟩
    · exact ⟨node, rfl, rfl, rfl, rfl, rfl⟩

theorem exists_of_modifyAssembly {id other : AssemblyId} {change : AssemblyNode → AssemblyNode} {later : AssemblyNode}
    (keeps : ∀ node, KeepsAssembly node (change node))
    (held : (model.modifyAssembly id change).assembly? other = some later) :
    ∃ node, model.assembly? other = some node ∧ KeepsAssembly node later := by
  rw [assembly?_modifyAssembly] at held
  split at held
  · obtain ⟨node, before, rfl⟩ := Option.map_eq_some_iff.mp held
    exact ⟨node, before, keeps node⟩
  · exact ⟨later, held, rfl, rfl, rfl⟩

theorem exists_of_modifyType {id other : TypeId} {change : TypeNode → TypeNode} {later : TypeNode}
    (keeps : ∀ node, KeepsType node (change node))
    (held : (model.modifyType id change).type? other = some later) :
    ∃ node, model.type? other = some node ∧ KeepsType node later ∧
      (later = node ∨ other = id ∧ later = change node) := by
  rw [type?_modifyType] at held
  split at held
  · next same =>
    obtain ⟨node, before, rfl⟩ := Option.map_eq_some_iff.mp held
    exact ⟨node, before, keeps node, .inr ⟨same, rfl⟩⟩
  · exact ⟨later, held, ⟨rfl, rfl, rfl, rfl⟩, .inl rfl⟩

theorem exists_of_modifyMember {id other : MemberId} {change : MemberNode → MemberNode} {later : MemberNode}
    (keeps : ∀ node, KeepsMember node (change node))
    (held : (model.modifyMember id change).member? other = some later) :
    ∃ node, model.member? other = some node ∧ KeepsMember node later ∧
      (later = node ∨ other = id ∧ later = change node) := by
  rw [member?_modifyMember] at held
  split at held
  · next same =>
    obtain ⟨node, before, rfl⟩ := Option.map_eq_some_iff.mp held
    exact ⟨node, before, keeps node, .inr ⟨same, rfl⟩⟩
  · exact ⟨later, held, ⟨rfl, rfl, rfl, rfl⟩, .inl rfl⟩

theorem WellFormed.modifyAssembly (formed : model.WellFormed) {id : AssemblyId} {change : AssemblyNode → AssemblyNode}
    (keeps : ∀ node, KeepsAssembly node (change node)) : (model.modifyAssembly id change).WellFormed where
  assembly_id held := by
    obtain ⟨node, held, kept⟩ := exists_of_modifyAssembly keeps held
    exact kept.id.trans (formed.assembly_id held)
  space_id := formed.space_id
  type_id := formed.type_id
  member_id := formed.member_id
  assemblies := formed.assemblies.congr fun key id => by
    constructor
    · rintro ⟨node, held, rfl⟩
      obtain ⟨later, held, _, same⟩ := (Grows.modifyAssembly keeps).assembly held
      exact ⟨later, held, same⟩
    · rintro ⟨later, held, rfl⟩
      obtain ⟨node, held, kept⟩ := exists_of_modifyAssembly keeps held
      exact ⟨node, held, kept.key.symm⟩
  spaces held := by
    obtain ⟨node, held, kept⟩ := exists_of_modifyAssembly keeps held
    rw [kept.spaces]
    exact formed.spaces held
  types := formed.types
  members := formed.members
  space_owner held := by
    obtain ⟨owner, at_owner, owned⟩ := formed.space_owner held
    obtain ⟨later, at_later, _, same⟩ := (Grows.modifyAssembly keeps).assembly at_owner
    exact ⟨later, at_later, same.trans owned⟩
  type_owner := formed.type_owner
  member_owner := formed.member_owner
  type_backed held := (Grows.modifyAssembly keeps).backsType (formed.type_backed held)
  member_backed held := (Grows.modifyAssembly keeps).backsMember (formed.member_backed held)

theorem WellFormed.modifyType (formed : model.WellFormed) {id : TypeId} {change : TypeNode → TypeNode}
    (keeps : ∀ node, KeepsType node (change node))
    (backed : ∀ node, model.type? id = some node → model.BacksType (change node)) :
    (model.modifyType id change).WellFormed where
  assembly_id := formed.assembly_id
  space_id := formed.space_id
  type_id held := by
    obtain ⟨node, held, kept, _⟩ := exists_of_modifyType keeps held
    exact kept.id.trans (formed.type_id held)
  member_id := formed.member_id
  assemblies := formed.assemblies
  spaces := formed.spaces
  types held := (formed.types held).congr fun key id => by
    constructor
    · rintro ⟨node, before, rfl, rfl⟩
      obtain ⟨later, after, _, key, space⟩ := (Grows.modifyType keeps).type before
      exact ⟨later, after, key, space⟩
    · rintro ⟨later, after, rfl, rfl⟩
      obtain ⟨node, before, kept, _⟩ := exists_of_modifyType keeps after
      exact ⟨node, before, kept.key.symm, kept.space.symm⟩
  members held := by
    obtain ⟨node, held, kept, _⟩ := exists_of_modifyType keeps held
    rw [kept.members]
    exact formed.members held
  space_owner := formed.space_owner
  type_owner held := by
    obtain ⟨node, held, kept, _⟩ := exists_of_modifyType keeps held
    obtain ⟨owner, at_owner, owned⟩ := formed.type_owner held
    exact ⟨owner, kept.space ▸ at_owner, by rw [owned, kept.key]⟩
  member_owner held := by
    obtain ⟨owner, at_owner, owned⟩ := formed.member_owner held
    obtain ⟨later, at_later, _, same, _⟩ := (Grows.modifyType keeps).type at_owner
    exact ⟨later, at_later, same.trans owned⟩
  type_backed held := by
    -- the changed node is backed by assumption, every other one as before
    obtain ⟨node, before, _, rfl | ⟨rfl, rfl⟩⟩ := exists_of_modifyType keeps held
    · exact (Grows.modifyType keeps).backsType (formed.type_backed before)
    · exact (Grows.modifyType keeps).backsType (backed node before)
  member_backed held := (Grows.modifyType keeps).backsMember (formed.member_backed held)

theorem WellFormed.modifyMember (formed : model.WellFormed) {id : MemberId} {change : MemberNode → MemberNode}
    (keeps : ∀ node, KeepsMember node (change node))
    (backed : ∀ node, model.member? id = some node → model.BacksMember (change node)) :
    (model.modifyMember id change).WellFormed where
  assembly_id := formed.assembly_id
  space_id := formed.space_id
  type_id := formed.type_id
  member_id held := by
    obtain ⟨node, held, kept, _⟩ := exists_of_modifyMember keeps held
    exact kept.id.trans (formed.member_id held)
  assemblies := formed.assemblies
  spaces := formed.spaces
  types := formed.types
  members held := (formed.members held).congr fun key id => by
    constructor
    · rintro ⟨node, before, rfl, rfl⟩
      obtain ⟨later, after, _, key, owner, _⟩ := (Grows.modifyMember keeps).member before
      exact ⟨later, after, key, owner⟩
    · rintro ⟨later, after, rfl, rfl⟩
      obtain ⟨node, before, kept, _⟩ := exists_of_modifyMember keeps after
      exact ⟨node, before, kept.key.symm, kept.owner.symm⟩
  space_owner := formed.space_owner
  type_owner := formed.type_owner
  member_owner held := by
    obtain ⟨node, held, kept, _⟩ := exists_of_modifyMember keeps held
    obtain ⟨owner, at_owner, owned⟩ := formed.member_owner held
    exact ⟨owner, kept.owner ▸ at_owner, by rw [owned, kept.key]⟩
  type_backed held := (Grows.modifyMember keeps).backsType (formed.type_backed held)
  member_backed held := by
    obtain ⟨node, before, _, rfl | ⟨rfl, rfl⟩⟩ := exists_of_modifyMember keeps held
    · exact (Grows.modifyMember keeps).backsMember (formed.member_backed before)
    · exact (Grows.modifyMember keeps).backsMember (backed node before)

end Modified

section Added

variable {model : Model}

theorem WellFormed.assembly_key_ne (formed : model.WellFormed) {key : AssemblyKey}
    (absent : model.findAssembly? key = none)
    {id : AssemblyId} {node : AssemblyNode} (held : model.assembly? id = some node) : node.key ≠ key := by
  intro same
  have found := (formed.findAssembly?_eq_some_iff key node).mpr ⟨formed.assembly_id held ▸ held, same⟩
  simp [absent] at found

theorem WellFormed.space_key_ne (formed : model.WellFormed) {key : NamespaceKey} (absent : model.findSpace? key = none)
    {id : NamespaceId} {node : NamespaceNode} (held : model.space? id = some node) : node.key ≠ key := by
  intro same
  have found := (formed.findSpace?_eq_some_iff key node).mpr ⟨formed.space_id held ▸ held, same⟩
  simp [absent] at found

theorem WellFormed.type_key_ne (formed : model.WellFormed) {key : TypeKey} (absent : model.findType? key = none)
    {id : TypeId} {node : TypeNode} (held : model.type? id = some node) : node.key ≠ key := by
  intro same
  have found := (formed.findType?_eq_some_iff key node).mpr ⟨formed.type_id held ▸ held, same⟩
  simp [absent] at found

theorem WellFormed.member_key_ne (formed : model.WellFormed) {key : MemberKey} (absent : model.findMember? key = none)
    {id : MemberId} {node : MemberNode} (held : model.member? id = some node) : node.key ≠ key := by
  intro same
  have found := (formed.findMember?_eq_some_iff key node).mpr ⟨formed.member_id held ▸ held, same⟩
  simp [absent] at found

theorem backs_empty (model : Model) : model.Backs {} := ⟨by simp, by simp [UsageSet.targets], .empty⟩

theorem backsType_blank (model : Model) (id : TypeId) (key : TypeKey) (owner : NamespaceId) :
    model.BacksType { id, key, space := owner } :=
  ⟨by simp, by simp, by simp, backs_empty model⟩

theorem backsMember_blank (model : Model) (id : MemberId) (key : MemberKey) (owner : TypeId) (kind : MemberKind) :
    model.BacksMember { id, key, owner, detail := .blank kind } :=
  ⟨by simp, by simp, by simp, by simp, backs_empty model⟩

theorem Grows.addAssembly (model : Model) (key : AssemblyKey) : model.Grows (model.addAssembly key).2 where
  assembly {id node} held := by
    refine ⟨node, ?_, rfl, rfl⟩
    rw [assembly?_addAssembly, if_neg, held]
    rintro rfl
    simp [assembly?_fresh] at held
  space := (Grows.refl model).space
  type := (Grows.refl model).type
  member := (Grows.refl model).member

theorem Grows.addSpace (model : Model) (owner : AssemblyId) (key : NamespaceKey) :
    model.Grows (model.addSpace owner key).2 where
  assembly {id node} held := by
    rw [assembly?_addSpace, held]
    split <;> exact ⟨_, rfl, rfl, rfl⟩
  space {id node} held := by
    refine ⟨node, ?_, rfl, rfl, rfl⟩
    rw [space?_addSpace, if_neg, held]
    rintro rfl
    simp [space?_fresh] at held
  type := (Grows.refl model).type
  member := (Grows.refl model).member

theorem Grows.addType (model : Model) (owner : NamespaceId) (key : TypeKey) :
    model.Grows (model.addType owner key).2 where
  assembly := (Grows.refl model).assembly
  space {id node} held := by
    rw [space?_addType, held]
    split <;> exact ⟨_, rfl, rfl, rfl, rfl⟩
  type {id node} held := by
    refine ⟨node, ?_, rfl, rfl, rfl⟩
    rw [type?_addType, if_neg, held]
    rintro rfl
    simp [type?_fresh] at held
  member := (Grows.refl model).member

theorem Grows.addMember (model : Model) (owner : TypeId) (key : MemberKey) (detail : MemberDetail) :
    model.Grows (model.addMember owner key detail).2 where
  assembly := (Grows.refl model).assembly
  space := (Grows.refl model).space
  type {id node} held := by
    rw [type?_addMember, held]
    split <;> exact ⟨_, rfl, rfl, rfl, rfl⟩
  member {id node} held := by
    refine ⟨node, ?_, rfl, rfl, rfl, rfl⟩
    rw [member?_addMember, if_neg, held]
    rintro rfl
    simp [member?_fresh] at held

theorem WellFormed.addAssembly (formed : model.WellFormed) {key : AssemblyKey}
    (absent : model.findAssembly? key = none) :
    (model.addAssembly key).2.WellFormed where
  assembly_id {id node} held := by
    rw [assembly?_addAssembly] at held
    split at held
    · next same => cases held; exact same.symm
    · exact formed.assembly_id held
  space_id := formed.space_id
  type_id := formed.type_id
  member_id := formed.member_id
  assemblies :=
    tells_added (assembly?_addAssembly model key) (assembly?_fresh model key) formed.assemblies
      (fun held => formed.assembly_key_ne absent held) fun _ => eq_comm
  spaces {id node} held := by
    rw [assembly?_addAssembly] at held
    split at held
    · next same =>
      -- a new assembly has no namespaces, because every namespace has an owner among the old assemblies
      cases held
      refine Directory.Lists.empty ?_
      rintro other child ⟨space, held, rfl, owned⟩
      obtain ⟨owner, at_owner, _⟩ := formed.space_owner held
      simp [owned, same, assembly?_fresh] at at_owner
    · exact formed.spaces held
  types := formed.types
  members := formed.members
  space_owner held := (Grows.addAssembly model key).assemblyOf (formed.space_owner held)
  type_owner := formed.type_owner
  member_owner := formed.member_owner
  type_backed held := (Grows.addAssembly model key).backsType (formed.type_backed held)
  member_backed held := (Grows.addAssembly model key).backsMember (formed.member_backed held)

theorem WellFormed.addSpace (formed : model.WellFormed) {owner : AssemblyId} {node : AssemblyNode} {key : NamespaceKey}
    (at_owner : model.assembly? owner = some node) (owned : node.key = key.assembly)
    (absent : model.findSpace? key = none) : (model.addSpace owner key).2.WellFormed where
  assembly_id {id later} held := by
    rw [assembly?_addSpace] at held
    split at held
    · obtain ⟨before, found, rfl⟩ := Option.map_eq_some_iff.mp held
      have same := formed.assembly_id found
      exact same
    · exact formed.assembly_id held
  space_id {id later} held := by
    rw [space?_addSpace] at held
    split at held
    · next same => cases held; exact same.symm
    · exact formed.space_id held
  type_id := formed.type_id
  member_id := formed.member_id
  assemblies := formed.assemblies.congr fun other id => by
    rw [assembly?_addSpace]
    split <;> simp
  spaces {id later} held := by
    have looks := space?_addSpace model owner key
    have fresh := space?_fresh model owner key
    rw [assembly?_addSpace] at held
    split at held
    · next same =>
      obtain ⟨before, found, rfl⟩ := Option.map_eq_some_iff.mp held
      exact lists_added looks fresh (formed.spaces found) (fun held both => formed.space_key_ne absent held both.1)
        fun other => by simp [same, eq_comm]
    · next other => exact lists_kept looks fresh (formed.spaces held) fun _ both => other both.2.symm
  types {id later} held := by
    rw [space?_addSpace] at held
    split at held
    · next same =>
      cases held
      -- no type names the new namespace as its owner
      refine Directory.Lists.empty ?_
      rintro other child ⟨type, held, rfl, inside⟩
      obtain ⟨space, at_space, _⟩ := formed.type_owner held
      simp [inside, same, space?_fresh] at at_space
    · exact formed.types held
  members := formed.members
  space_owner {id later} held := by
    rw [space?_addSpace] at held
    split at held
    · cases held
      exact (Grows.addSpace model owner key).assemblyOf ⟨node, at_owner, owned⟩
    · exact (Grows.addSpace model owner key).assemblyOf (formed.space_owner held)
  type_owner held := (Grows.addSpace model owner key).spaceOf (formed.type_owner held)
  member_owner := formed.member_owner
  type_backed held := (Grows.addSpace model owner key).backsType (formed.type_backed held)
  member_backed held := (Grows.addSpace model owner key).backsMember (formed.member_backed held)

theorem WellFormed.addType (formed : model.WellFormed) {owner : NamespaceId} {node : NamespaceNode} {key : TypeKey}
    (at_owner : model.space? owner = some node) (owned : node.key = key.space)
    (absent : model.findType? key = none) : (model.addType owner key).2.WellFormed where
  assembly_id := formed.assembly_id
  space_id {id later} held := by
    rw [space?_addType] at held
    split at held
    · obtain ⟨before, found, rfl⟩ := Option.map_eq_some_iff.mp held
      have same := formed.space_id found
      exact same
    · exact formed.space_id held
  type_id {id later} held := by
    rw [type?_addType] at held
    split at held
    · next same => cases held; exact same.symm
    · exact formed.type_id held
  member_id := formed.member_id
  assemblies := formed.assemblies
  spaces {id later} held := (formed.spaces held).congr fun other child => by
    rw [space?_addType]
    split <;> simp
  types {id later} held := by
    have looks := type?_addType model owner key
    have fresh := type?_fresh model owner key
    rw [space?_addType] at held
    split at held
    · next same =>
      obtain ⟨before, found, rfl⟩ := Option.map_eq_some_iff.mp held
      exact lists_added looks fresh (formed.types found) (fun held both => formed.type_key_ne absent held both.1)
        fun other => by simp [same, eq_comm]
    · next other => exact lists_kept looks fresh (formed.types held) fun _ both => other both.2.symm
  members {id later} held := by
    rw [type?_addType] at held
    split at held
    · next same =>
      cases held
      -- no member names the new type as its owner
      refine Directory.Lists.empty ?_
      rintro other child ⟨member, held, rfl, inside⟩
      obtain ⟨type, at_type, _⟩ := formed.member_owner held
      simp [inside, same, type?_fresh] at at_type
    · exact formed.members held
  space_owner {id later} held := by
    rw [space?_addType] at held
    split at held
    · obtain ⟨before, found, rfl⟩ := Option.map_eq_some_iff.mp held
      have same := formed.space_owner found
      exact same
    · exact formed.space_owner held
  type_owner {id later} held := by
    rw [type?_addType] at held
    split at held
    · cases held
      exact (Grows.addType model owner key).spaceOf ⟨node, at_owner, owned⟩
    · exact (Grows.addType model owner key).spaceOf (formed.type_owner held)
  member_owner held := (Grows.addType model owner key).typeOf (formed.member_owner held)
  type_backed {id later} held := by
    apply (Grows.addType model owner key).backsType
    rw [type?_addType] at held
    split at held
    · cases held
      exact backsType_blank model _ key owner
    · exact formed.type_backed held
  member_backed held := (Grows.addType model owner key).backsMember (formed.member_backed held)

theorem WellFormed.addMember (formed : model.WellFormed) {owner : TypeId} {node : TypeNode} {key : MemberKey}
    (kind : MemberKind) (at_owner : model.type? owner = some node) (owned : node.key = key.owner)
    (absent : model.findMember? key = none) : (model.addMember owner key (.blank kind)).2.WellFormed where
  assembly_id := formed.assembly_id
  space_id := formed.space_id
  type_id {id later} held := by
    rw [type?_addMember] at held
    split at held
    · obtain ⟨before, found, rfl⟩ := Option.map_eq_some_iff.mp held
      have same := formed.type_id found
      exact same
    · exact formed.type_id held
  member_id {id later} held := by
    rw [member?_addMember] at held
    split at held
    · next same => cases held; exact same.symm
    · exact formed.member_id held
  assemblies := formed.assemblies
  spaces := formed.spaces
  types {id later} held := (formed.types held).congr fun other child => by
    rw [type?_addMember]
    split <;> simp
  members {id later} held := by
    have looks := member?_addMember model owner key (.blank kind)
    have fresh := member?_fresh model owner key (.blank kind)
    rw [type?_addMember] at held
    split at held
    · next same =>
      obtain ⟨before, found, rfl⟩ := Option.map_eq_some_iff.mp held
      -- only the owner lists the new member
      exact lists_added looks fresh (formed.members found) (fun held both => formed.member_key_ne absent held both.1)
        fun other => by simp [same, eq_comm]
    · next other => exact lists_kept looks fresh (formed.members held) fun _ both => other both.2.symm
  space_owner := formed.space_owner
  type_owner {id later} held := by
    rw [type?_addMember] at held
    split at held
    · obtain ⟨before, found, rfl⟩ := Option.map_eq_some_iff.mp held
      have same := formed.type_owner found
      exact same
    · exact formed.type_owner held
  member_owner {id later} held := by
    rw [member?_addMember] at held
    split at held
    · cases held
      exact (Grows.addMember model owner key (.blank kind)).typeOf ⟨node, at_owner, owned⟩
    · exact (Grows.addMember model owner key (.blank kind)).typeOf (formed.member_owner held)
  type_backed {id later} held := by
    apply (Grows.addMember model owner key (.blank kind)).backsType
    rw [type?_addMember] at held
    split at held
    · obtain ⟨before, found, rfl⟩ := Option.map_eq_some_iff.mp held
      obtain ⟨base, interfaces, attributes, usages⟩ := formed.type_backed found
      exact ⟨base, interfaces, attributes, usages⟩
    · exact formed.type_backed held
  member_backed {id later} held := by
    apply (Grows.addMember model owner key (.blank kind)).backsMember
    rw [member?_addMember] at held
    split at held
    · cases held
      exact backsMember_blank model _ key owner kind
    · exact formed.member_backed held

end Added

end UsageGraph.Model
