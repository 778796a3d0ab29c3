import UsageGraph.Proofs.Model.Lengthening
import UsageGraph.Proofs.View.Record

/-! A view holds everything that building adds.

A view leaves out the ids of nodes and the order of what is listed and recorded. As a model
grows, ids stay and lists only get longer, so a model whose view has not changed has not
changed at all.
-/

set_option autoImplicit false
namespace UsageGraph

/-- A list without repetitions is as long as a beginning of it that has everything already. -/
theorem eq_of_begins {α β : Type} {f : α → β} {short long : List α} (begins : short <+: long)
    (distinct : (long.map f).Nodup) (covered : ∀ entry ∈ long, f entry ∈ short.map f) : long = short := by
  obtain ⟨added, rfl⟩ := begins
  cases added with
  | nil => exact List.append_nil short
  | cons entry rest =>
    rw [List.map_append, List.nodup_append] at distinct
    have before := covered entry (by simp)
    exact absurd rfl (distinct.2.2 _ before (f entry) (by simp))

theorem Index.eq_of_begins {κ ι : Type} {short long : Index κ ι} {child child' : κ → ι → Prop}
    (begins : short.entries <:+ long.entries) (tells : short.Tells child) (tells' : long.Tells child')
    (known : ∀ key id, child' key id → child key id) : long = short := by
  have same : long.entries.reverse = short.entries.reverse := by
    have distinct : (long.entries.reverse.map Prod.fst).Nodup := by
      rw [List.map_reverse, List.nodup_reverse]
      exact tells'.distinct
    refine UsageGraph.eq_of_begins (List.reverse_prefix.mpr begins) distinct fun entry member => ?_
    have found := (tells'.mem_iff _ _).mp (List.mem_reverse.mp member)
    exact List.mem_map_of_mem (List.mem_reverse.mpr ((tells.mem_iff _ _).mpr (known _ _ found)))
  cases long
  cases short
  exact congrArg Index.mk (List.reverse_inj.mp same)

theorem Directory.eq_of_begins {κ ι : Type} {short long : Directory κ ι} {child child' : κ → ι → Prop}
    (begins : short.Begins long) (lists : short.Lists child) (lists' : long.Lists child')
    (known : ∀ key id, child' key id → child key id) : long = short := by
  have index := Index.eq_of_begins begins.index lists.tells lists'.tells known
  have ids : long.ids = short.ids := by rw [lists'.agree, lists.agree, index]
  cases long
  cases short
  exact congr (congrArg Directory.mk ids) index

theorem MemberDetail.eq_of_parts {first second : MemberDetail} (kind : first.kind = second.kind)
    (parameters : first.parameters = second.parameters) (flags : first.flags = second.flags)
    (accessors : ∀ slot, first.accessor? slot = second.accessor? slot) : first = second := by
  have getter := accessors .getter
  have setter := accessors .setter
  have adder := accessors .adder
  have remover := accessors .remover
  cases first <;> cases second <;> simp_all [MemberDetail.kind, MemberDetail.parameters, MemberDetail.flags,
    MemberDetail.accessor?]

namespace Model

section Keys

variable {model : Model} (formed : model.WellFormed)
include formed

theorem nodeKey?_injective {first second : NodeRef} {key : NodeKey} (named : model.nodeKey? first = some key)
    (named' : model.nodeKey? second = some key) : first = second := by
  rw [← formed.resolve?_eq_some_iff] at named named'
  exact Option.some.inj (named.symm.trans named')

theorem memberKey?_injective {first second : MemberId} {key : MemberKey} (named : model.memberKey? first = some key)
    (named' : model.memberKey? second = some key) : first = second := by
  obtain ⟨node, held, rfl⟩ := Option.map_eq_some_iff.mp named
  obtain ⟨other, held', same⟩ := Option.map_eq_some_iff.mp named'
  exact formed.members_indexed.unique held held' same.symm

theorem eq_of_bind_typeKey? {first second : Option TypeId} (held : ∀ id ∈ first, (model.type? id).isSome)
    (held' : ∀ id ∈ second, (model.type? id).isSome)
    (same : first.bind model.typeKey? = second.bind model.typeKey?) : first = second := by
  cases first with
  | none =>
    cases second with
    | none => rfl
    | some id =>
      obtain ⟨node, present⟩ := Option.isSome_iff_exists.mp (held' id rfl)
      simp [typeKey?, present] at same
  | some id =>
    obtain ⟨node, present⟩ := Option.isSome_iff_exists.mp (held id rfl)
    have named : model.typeKey? id = some node.key := by simp [typeKey?, present]
    rw [Option.bind_some, named] at same
    obtain ⟨other, found, named'⟩ := Option.bind_eq_some_iff.mp same.symm
    rw [found, typeKey?_injective formed named named']

theorem eq_of_filterMap_typeKey? {first second : List TypeId} (held : ∀ id ∈ first, (model.type? id).isSome)
    (held' : ∀ id ∈ second, (model.type? id).isSome)
    (same : first.filterMap model.typeKey? = second.filterMap model.typeKey?) : first = second := by
  -- all ids are held, so none is lost on the way to the keys
  have named : ∀ {id}, (model.type? id).isSome → ∃ key, model.typeKey? id = some key := by
    intro id present
    obtain ⟨node, present⟩ := Option.isSome_iff_exists.mp present
    exact ⟨node.key, by simp [typeKey?, present]⟩
  induction first generalizing second with
  | nil =>
    cases second with
    | nil => rfl
    | cons id rest =>
      obtain ⟨key, found⟩ := named (held' id List.mem_cons_self)
      simp [found] at same
  | cons id rest ih =>
    obtain ⟨key, found⟩ := named (held id List.mem_cons_self)
    cases second with
    | nil => simp [found] at same
    | cons other others =>
      obtain ⟨key', found'⟩ := named (held' other List.mem_cons_self)
      rw [List.filterMap_cons_some found, List.filterMap_cons_some found', List.cons.injEq] at same
      obtain ⟨rfl, same⟩ := same
      rw [typeKey?_injective formed found found', ih (fun id member => held id (List.mem_cons_of_mem _ member))
        (fun id member => held' id (List.mem_cons_of_mem _ member)) same]

/-- A set that uses no more than a beginning of it did has recorded nothing more. -/
theorem eq_of_usedKeys {short long : UsageSet} (begins : short.toList <+: long.toList) (backed : model.Backs long)
    (indexed : short.Indexed) (same : model.usedKeys long = model.usedKeys short) : long = short := by
  have covered : ∀ usage ∈ long.toList, usage.target ∈ short.toList.map Usage.target := by
    intro usage member
    obtain ⟨key, named⟩ : ∃ key, model.nodeKey? usage.target = some key := by
      have recorded := backed.accurate usage member
      cases target : usage.target with
      | type id =>
        obtain ⟨node, held, _⟩ := Option.map_eq_some_iff.mp (target ▸ recorded)
        exact ⟨.type node.key, by simp [nodeKey?, held]⟩
      | member id =>
        obtain ⟨node, held, _⟩ := Option.map_eq_some_iff.mp (target ▸ recorded)
        exact ⟨.member node.kind node.key, by simp [nodeKey?, held]⟩
    have used : key ∈ model.usedKeys long := ⟨usage.target, List.mem_map_of_mem member, named⟩
    rw [same] at used
    obtain ⟨target, before, named'⟩ := used
    rw [nodeKey?_injective formed named named']
    exact before
  exact backed.indexed.ext indexed (eq_of_begins begins backed.distinct covered)

end Keys

/-! ## Facts tell what a node holds -/

section Nodes

variable {model : Model} (formed : model.WellFormed)
include formed

theorem eq_of_typeFacts {node later : TypeNode} (backed : model.BacksType node) (backed' : model.BacksType later)
    (facts : model.typeFacts later = model.typeFacts node) (id : later.id = node.id) (key : later.key = node.key)
    (space : later.space = node.space) (members : later.members = node.members)
    (records : node.usages.toList <+: later.usages.toList) : later = node := by
  have base := eq_of_bind_typeKey? formed backed'.base backed.base (congrArg TypeFacts.base facts)
  have interfaces := eq_of_filterMap_typeKey? formed backed'.interfaces backed.interfaces
    (congrArg TypeFacts.interfaces facts)
  have attributes := eq_of_filterMap_typeKey? formed backed'.attributes backed.attributes
    (congrArg TypeFacts.attributes facts)
  have usages := eq_of_usedKeys formed records backed'.usages backed.usages.indexed (congrArg TypeFacts.uses facts)
  have isInterface := congrArg TypeFacts.isInterface facts
  have isAbstract := congrArg TypeFacts.isAbstract facts
  have visitation := congrArg TypeFacts.visitation facts
  have isExternal := congrArg TypeFacts.isExternal facts
  cases later
  cases node
  simp only [typeFacts] at *
  simp only [TypeNode.mk.injEq]
  exact ⟨id, key, space, isInterface, isAbstract, visitation, isExternal, base, interfaces, attributes, members, usages⟩

theorem eq_of_memberFacts {node later : MemberNode} (backed : model.BacksMember node)
    (backed' : model.BacksMember later) (facts : model.memberFacts later = model.memberFacts node)
    (id : later.id = node.id) (key : later.key = node.key) (owner : later.owner = node.owner)
    (kind : later.kind = node.kind) (records : node.usages.toList <+: later.usages.toList) : later = node := by
  have accessors : ∀ slot, later.detail.accessor? slot = node.detail.accessor? slot := by
    intro slot
    have same := congrFun (congrArg MemberFacts.accessor facts) slot
    simp only [memberFacts] at same
    apply Option.ext
    intro id
    -- an id in the slot of either node is that of a method with the key in both slots
    constructor
    · intro linked
      obtain ⟨method, held, _⟩ := backed'.accessors slot id linked
      have named : model.memberKey? id = some method.key := by simp [memberKey?, held]
      rw [linked, Option.bind_some, named] at same
      obtain ⟨other, linked', named'⟩ := Option.bind_eq_some_iff.mp same.symm
      rw [linked', memberKey?_injective formed named named']
    · intro linked
      obtain ⟨method, held, _⟩ := backed.accessors slot id linked
      have named : model.memberKey? id = some method.key := by simp [memberKey?, held]
      rw [linked, Option.bind_some, named] at same
      obtain ⟨other, linked', named'⟩ := Option.bind_eq_some_iff.mp same
      rw [linked', memberKey?_injective formed named named']
  have parameters := eq_of_filterMap_typeKey? formed backed'.parameters backed.parameters
    (congrArg MemberFacts.parameters facts)
  have detail := MemberDetail.eq_of_parts kind parameters (congrArg MemberFacts.flags facts) accessors
  have declaredType := eq_of_bind_typeKey? formed backed'.declaredType backed.declaredType
    (congrArg MemberFacts.declaredType facts)
  have attributes := eq_of_filterMap_typeKey? formed backed'.attributes backed.attributes
    (congrArg MemberFacts.attributes facts)
  have usages := eq_of_usedKeys formed records backed'.usages backed.usages.indexed (congrArg MemberFacts.uses facts)
  have visitation := congrArg MemberFacts.visitation facts
  cases later
  cases node
  simp only [memberFacts] at *
  simp only [MemberNode.mk.injEq]
  exact ⟨id, key, owner, detail, declaredType, attributes, visitation, usages⟩

end Nodes

theorem Indexed.present {κ ι ν : Type} {look look' : ι → Option ν} {find find' : κ → Option ν} {idOf : ν → ι}
    {keyOf : ν → κ} (indexed : Indexed look find idOf keyOf) (indexed' : Indexed look' find' idOf keyOf)
    (stays : ∀ {id node}, look id = some node → ∃ later, look' id = some later ∧ keyOf later = keyOf node)
    (known : ∀ key, (find' key).isSome → (find key).isSome) {id : ι} {later : ν} (held : look' id = some later) :
    ∃ node, look id = some node := by
  have found' := (indexed'.find_iff (keyOf later) later).mpr ⟨indexed'.look_id held ▸ held, rfl⟩
  obtain ⟨node, found⟩ := Option.isSome_iff_exists.mp (known (keyOf later) (by rw [found']; rfl))
  obtain ⟨at_node, named⟩ := (indexed.find_iff _ _).mp found
  obtain ⟨again, at_again, same⟩ := stays at_node
  have here : idOf node = id := indexed'.unique at_again held (same.trans named)
  exact ⟨node, here ▸ at_node⟩

theorem look_ext {ι ν : Type} {look look' : ι → Option ν}
    (present : ∀ {id later}, look' id = some later → ∃ node, look id = some node)
    (stays : ∀ {id node}, look id = some node → look' id = some node) : look' = look := by
  funext id
  cases held : look id with
  | some node => exact stays held
  | none =>
    cases held' : look' id with
    | none => rfl
    | some later =>
      obtain ⟨node, found⟩ := present held'
      simp [held] at found

theorem nodes_ext {level : Level} {ν : Type} {before after : Array ν}
    (same : ∀ id : Id level, after[id.index]? = before[id.index]?) : after = before :=
  Array.ext_getElem? fun index => same ⟨index⟩

section Faithful

variable {before after : Model} (formed : before.WellFormed) (formed' : after.WellFormed)
  (grows : before.Grows after) (lengthens : before.Lengthens after) (same : after.view = before.view)
include formed formed' grows same

theorem assembly_present {id : AssemblyId} {later : AssemblyNode} (held : after.assembly? id = some later) :
    ∃ node, before.assembly? id = some node := by
  refine formed.assemblies_indexed.present formed'.assemblies_indexed ?_ ?_ held
  · intro id node held
    obtain ⟨later, held, _, key⟩ := grows.assembly held
    exact ⟨later, held, key⟩
  · intro key found
    exact (Set.ext_iff.mp (congrArg View.assemblies same) key).mp found

theorem space_present {id : NamespaceId} {later : NamespaceNode} (held : after.space? id = some later) :
    ∃ node, before.space? id = some node := by
  refine formed.spaces_indexed.present formed'.spaces_indexed ?_ ?_ held
  · intro id node held
    obtain ⟨later, held, _, key, _⟩ := grows.space held
    exact ⟨later, held, key⟩
  · intro key found
    exact (Set.ext_iff.mp (congrArg View.spaces same) key).mp found

theorem type_present {id : TypeId} {later : TypeNode} (held : after.type? id = some later) :
    ∃ node, before.type? id = some node := by
  refine formed.types_indexed.present formed'.types_indexed ?_ ?_ held
  · intro id node held
    obtain ⟨later, held, _, key, _⟩ := grows.type held
    exact ⟨later, held, key⟩
  · intro key found
    exact (Set.ext_iff.mp (congrArg View.types same) key).mp found

theorem member_present {id : MemberId} {later : MemberNode} (held : after.member? id = some later) :
    ∃ node, before.member? id = some node := by
  refine formed.members_indexed.present formed'.members_indexed ?_ ?_ held
  · intro id node held
    obtain ⟨later, held, _, key, _⟩ := grows.member held
    exact ⟨later, held, key⟩
  · intro key found
    have kinds := congrFun (congrArg View.kinds same) key
    simp only [view] at kinds
    rw [← Option.isSome_map (f := MemberNode.kind), ← kinds, Option.isSome_map]
    exact found

include lengthens

theorem assembly?_eq : after.assembly? = before.assembly? := by
  refine look_ext (assembly_present formed formed' grows same) ?_
  intro id node held
  obtain ⟨later, held', id_eq, key⟩ := grows.assembly held
  obtain ⟨again, at_again, begins⟩ := lengthens.assembly held
  obtain rfl : again = later := Option.some.inj (at_again.symm.trans held')
  -- no namespace is new, so the directory has not got longer
  have spaces : again.spaces = node.spaces := by
    refine Directory.eq_of_begins begins (formed.spaces held) (formed'.spaces held') ?_
    rintro childKey child ⟨found, at_child, named, owned⟩
    obtain ⟨earlier, at_earlier⟩ := space_present formed formed' grows same at_child
    obtain ⟨found', at_found, _, key', owner⟩ := grows.space at_earlier
    obtain rfl : found' = found := Option.some.inj (at_found.symm.trans at_child)
    exact ⟨earlier, at_earlier, key'.symm.trans named, owner.symm.trans owned⟩
  have facts : assemblyFacts again = assemblyFacts node := by
    have at_key := congrFun (congrArg View.assembly same) node.key
    simpa [view, formed.find_assembly held, key ▸ formed'.find_assembly held'] using at_key
  have isDependency := congrArg AssemblyFacts.isDependency facts
  have decodeError := congrArg AssemblyFacts.decodeError facts
  rw [held']
  cases again
  cases node
  simp_all [assemblyFacts]

theorem space?_eq : after.space? = before.space? := by
  refine look_ext (space_present formed formed' grows same) ?_
  intro id node held
  obtain ⟨later, held', id_eq, key, owner⟩ := grows.space held
  obtain ⟨again, at_again, begins⟩ := lengthens.space held
  obtain rfl : again = later := Option.some.inj (at_again.symm.trans held')
  have types : again.types = node.types := by
    refine Directory.eq_of_begins begins (formed.types held) (formed'.types held') ?_
    rintro childKey child ⟨found, at_child, named, owned⟩
    obtain ⟨earlier, at_earlier⟩ := type_present formed formed' grows same at_child
    obtain ⟨found', at_found, _, key', owner'⟩ := grows.type at_earlier
    obtain rfl : found' = found := Option.some.inj (at_found.symm.trans at_child)
    exact ⟨earlier, at_earlier, key'.symm.trans named, owner'.symm.trans owned⟩
  rw [held']
  cases again
  cases node
  simp_all

theorem type?_eq : after.type? = before.type? := by
  refine look_ext (type_present formed formed' grows same) ?_
  intro id node held
  obtain ⟨later, held', id_eq, key, space⟩ := grows.type held
  obtain ⟨again, at_again, begins, records⟩ := lengthens.type held
  obtain rfl : again = later := Option.some.inj (at_again.symm.trans held')
  have members : again.members = node.members := by
    refine Directory.eq_of_begins begins (formed.members held) (formed'.members held') ?_
    rintro childKey child ⟨found, at_child, named, owned⟩
    obtain ⟨earlier, at_earlier⟩ := member_present formed formed' grows same at_child
    obtain ⟨found', at_found, _, key', owner, _⟩ := grows.member at_earlier
    obtain rfl : found' = found := Option.some.inj (at_found.symm.trans at_child)
    exact ⟨earlier, at_earlier, key'.symm.trans named, owner.symm.trans owned⟩
  have facts : after.typeFacts again = after.typeFacts node := by
    rw [grows.typeFacts_eq (formed.type_backed held), ← formed.view_type held, ← formed'.view_type held', same, key]
  rw [held']
  exact congrArg some (eq_of_typeFacts formed' (grows.backsType (formed.type_backed held)) (formed'.type_backed held')
    facts id_eq key space members records)

theorem member?_eq : after.member? = before.member? := by
  refine look_ext (member_present formed formed' grows same) ?_
  intro id node held
  obtain ⟨later, held', id_eq, key, owner, kind⟩ := grows.member held
  obtain ⟨again, at_again, records⟩ := lengthens.member held
  obtain rfl : again = later := Option.some.inj (at_again.symm.trans held')
  have facts : after.memberFacts again = after.memberFacts node := by
    rw [grows.memberFacts_eq (formed.member_backed held), ← formed.view_member held, ← formed'.view_member held', same,
      key]
  rw [held']
  exact congrArg some (eq_of_memberFacts formed' (grows.backsMember (formed.member_backed held))
    (formed'.member_backed held') facts id_eq key owner kind records)

/-- A model that grows and still has its view is what it was, down to the ids and the order of its lists. -/
theorem eq_of_view_eq : after = before := by
  have assemblies := assembly?_eq formed formed' grows lengthens same
  have spaces := space?_eq formed formed' grows lengthens same
  have types := type?_eq formed formed' grows lengthens same
  have members := member?_eq formed formed' grows lengthens same
  have index : after.index = before.index := by
    refine Index.eq_of_begins lengthens.index formed.assemblies formed'.assemblies ?_
    rintro key id ⟨node, held, named⟩
    exact ⟨node, by rwa [← assemblies], named⟩
  have assemblies := nodes_ext (congrFun assemblies)
  have spaces := nodes_ext (congrFun spaces)
  have types := nodes_ext (congrFun types)
  have members := nodes_ext (congrFun members)
  cases after
  cases before
  simp only [Model.mk.injEq]
  exact ⟨assemblies, spaces, types, members, index⟩

end Faithful

end Model

end UsageGraph
