import UsageGraph.Proofs.Model.Growth
import UsageGraph.Proofs.View

/-! The view of a model, and how it follows the model.

In a well-formed model a key has at most one node, so that the view is read off the nodes
one by one. Ensuring a key and changing the content of a node edit the view accordingly.
-/

set_option autoImplicit false
namespace UsageGraph.Model

def typeKey? (model : Model) (id : TypeId) : Option TypeKey := (model.type? id).map TypeNode.key

def memberKey? (model : Model) (id : MemberId) : Option MemberKey := (model.member? id).map MemberNode.key

def nodeKey? (model : Model) : NodeRef → Option NodeKey
  | .type id => (model.type? id).map fun node => .type node.key
  | .member id => (model.member? id).map fun node => .member node.kind node.key

def usedKeys (model : Model) (set : UsageSet) : Set NodeKey :=
  {key | ∃ target ∈ set.targets, model.nodeKey? target = some key}

def assemblyFacts (node : AssemblyNode) : AssemblyFacts where
  isDependency := node.isDependency
  decodeError := node.decodeError

def typeFacts (model : Model) (node : TypeNode) : TypeFacts where
  isInterface := node.isInterface
  isAbstract := node.isAbstract
  visitation := node.visitation
  isExternal := node.isExternal
  base := node.base.bind model.typeKey?
  interfaces := node.interfaces.filterMap model.typeKey?
  attributes := node.attributes.filterMap model.typeKey?
  uses := model.usedKeys node.usages

def memberFacts (model : Model) (node : MemberNode) : MemberFacts where
  declaredType := node.declaredType.bind model.typeKey?
  parameters := node.detail.parameters.filterMap model.typeKey?
  flags := node.detail.flags
  accessor slot := (node.detail.accessor? slot).bind model.memberKey?
  attributes := node.attributes.filterMap model.typeKey?
  visitation := node.visitation
  uses := model.usedKeys node.usages

def view (model : Model) : View where
  assemblies := {key | (model.findAssembly? key).isSome}
  spaces := {key | (model.findSpace? key).isSome}
  types := {key | (model.findType? key).isSome}
  kinds key := (model.findMember? key).map MemberNode.kind
  assembly key := ((model.findAssembly? key).map assemblyFacts).getD {}
  type key := ((model.findType? key).map model.typeFacts).getD {}
  member key := ((model.findMember? key).map model.memberFacts).getD {}

namespace Grows

variable {before after : Model}

theorem typeKey?_eq (grows : before.Grows after) {id : TypeId} (held : (before.type? id).isSome) :
    after.typeKey? id = before.typeKey? id := by
  obtain ⟨node, held⟩ := Option.isSome_iff_exists.mp held
  obtain ⟨later, at_later, _, key, _⟩ := grows.type held
  simp [typeKey?, held, at_later, key]

theorem memberKey?_eq (grows : before.Grows after) {id : MemberId} (held : (before.member? id).isSome) :
    after.memberKey? id = before.memberKey? id := by
  obtain ⟨node, held⟩ := Option.isSome_iff_exists.mp held
  obtain ⟨later, at_later, _, key, _⟩ := grows.member held
  simp [memberKey?, held, at_later, key]

theorem nodeKey?_eq (grows : before.Grows after) {target : NodeRef} {usage : Usage}
    (recorded : before.usageOf? target = some usage) : after.nodeKey? target = before.nodeKey? target := by
  cases target with
  | type id =>
    obtain ⟨node, held, _⟩ := Option.map_eq_some_iff.mp recorded
    obtain ⟨later, at_later, _, key, _⟩ := grows.type held
    simp [nodeKey?, held, at_later, key]
  | member id =>
    obtain ⟨node, held, _⟩ := Option.map_eq_some_iff.mp recorded
    obtain ⟨later, at_later, _, key, _, kind⟩ := grows.member held
    simp [nodeKey?, held, at_later, key, kind]

theorem filterMap_typeKey? (grows : before.Grows after) {ids : List TypeId}
    (held : ∀ id ∈ ids, (before.type? id).isSome) : ids.filterMap after.typeKey? = ids.filterMap before.typeKey? :=
  List.filterMap_congr fun id member => grows.typeKey?_eq (held id member)

theorem bind_typeKey? (grows : before.Grows after) {id? : Option TypeId}
    (held : ∀ id ∈ id?, (before.type? id).isSome) : id?.bind after.typeKey? = id?.bind before.typeKey? := by
  cases id? with
  | none => rfl
  | some id => exact grows.typeKey?_eq (held id rfl)

theorem usedKeys_eq (grows : before.Grows after) {set : UsageSet} (backed : before.Backs set) :
    after.usedKeys set = before.usedKeys set := by
  have same : ∀ target ∈ set.targets, after.nodeKey? target = before.nodeKey? target := by
    intro target member
    obtain ⟨usage, recorded, rfl⟩ := List.mem_map.mp member
    exact grows.nodeKey?_eq (backed.accurate usage recorded)
  ext key
  constructor
  · rintro ⟨target, member, named⟩
    exact ⟨target, member, (same target member).symm.trans named⟩
  · rintro ⟨target, member, named⟩
    exact ⟨target, member, (same target member).trans named⟩

theorem typeFacts_eq (grows : before.Grows after) {node : TypeNode} (backed : before.BacksType node) :
    after.typeFacts node = before.typeFacts node := by
  simp only [typeFacts, grows.bind_typeKey? backed.base, grows.filterMap_typeKey? backed.interfaces,
    grows.filterMap_typeKey? backed.attributes, grows.usedKeys_eq backed.usages]

theorem memberFacts_eq (grows : before.Grows after) {node : MemberNode} (backed : before.BacksMember node) :
    after.memberFacts node = before.memberFacts node := by
  have accessors : ∀ slot, (node.detail.accessor? slot).bind after.memberKey? =
      (node.detail.accessor? slot).bind before.memberKey? := by
    intro slot
    cases linked : node.detail.accessor? slot with
    | none => rfl
    | some id =>
      obtain ⟨method, held, _⟩ := backed.accessors slot id linked
      exact grows.memberKey?_eq (Option.isSome_iff_exists.mpr ⟨method, held⟩)
  simp only [memberFacts, grows.bind_typeKey? backed.declaredType, grows.filterMap_typeKey? backed.parameters,
    accessors, grows.filterMap_typeKey? backed.attributes, grows.usedKeys_eq backed.usages]

end Grows

/-! ## The view, node by node -/

namespace WellFormed

section

variable {model : Model} (formed : model.WellFormed)
include formed

theorem find_assembly {id : AssemblyId} {node : AssemblyNode} (held : model.assembly? id = some node) :
    model.findAssembly? node.key = some node :=
  (formed.findAssembly?_eq_some_iff node.key node).mpr ⟨formed.assembly_id held ▸ held, rfl⟩

theorem find_space {id : NamespaceId} {node : NamespaceNode} (held : model.space? id = some node) :
    model.findSpace? node.key = some node :=
  (formed.findSpace?_eq_some_iff node.key node).mpr ⟨formed.space_id held ▸ held, rfl⟩

theorem find_type {id : TypeId} {node : TypeNode} (held : model.type? id = some node) :
    model.findType? node.key = some node :=
  (formed.findType?_eq_some_iff node.key node).mpr ⟨formed.type_id held ▸ held, rfl⟩

theorem find_member {id : MemberId} {node : MemberNode} (held : model.member? id = some node) :
    model.findMember? node.key = some node :=
  (formed.findMember?_eq_some_iff node.key node).mpr ⟨formed.member_id held ▸ held, rfl⟩

theorem mem_view_assemblies (key : AssemblyKey) :
    key ∈ model.view.assemblies ↔ ∃ id node, model.assembly? id = some node ∧ node.key = key := by
  constructor
  · intro found
    obtain ⟨node, found⟩ := Option.isSome_iff_exists.mp found
    exact ⟨node.id, node, (formed.findAssembly?_eq_some_iff key node).mp found⟩
  · rintro ⟨id, node, held, rfl⟩
    exact Option.isSome_iff_exists.mpr ⟨node, formed.find_assembly held⟩

theorem mem_view_spaces (key : NamespaceKey) :
    key ∈ model.view.spaces ↔ ∃ id node, model.space? id = some node ∧ node.key = key := by
  constructor
  · intro found
    obtain ⟨node, found⟩ := Option.isSome_iff_exists.mp found
    exact ⟨node.id, node, (formed.findSpace?_eq_some_iff key node).mp found⟩
  · rintro ⟨id, node, held, rfl⟩
    exact Option.isSome_iff_exists.mpr ⟨node, formed.find_space held⟩

theorem mem_view_types (key : TypeKey) :
    key ∈ model.view.types ↔ ∃ id node, model.type? id = some node ∧ node.key = key := by
  constructor
  · intro found
    obtain ⟨node, found⟩ := Option.isSome_iff_exists.mp found
    exact ⟨node.id, node, (formed.findType?_eq_some_iff key node).mp found⟩
  · rintro ⟨id, node, held, rfl⟩
    exact Option.isSome_iff_exists.mpr ⟨node, formed.find_type held⟩

theorem view_kinds_eq_some_iff (key : MemberKey) (kind : MemberKind) :
    model.view.kinds key = some kind ↔ ∃ id node, model.member? id = some node ∧ node.key = key ∧ node.kind = kind := by
  constructor
  · intro found
    obtain ⟨node, member, rfl⟩ := Option.map_eq_some_iff.mp found
    obtain ⟨held, named⟩ := (formed.findMember?_eq_some_iff key node).mp member
    exact ⟨node.id, node, held, named, rfl⟩
  · rintro ⟨id, node, held, rfl, rfl⟩
    simp [view, formed.find_member held]

theorem resolve?_eq_some_iff (key : NodeKey) (target : NodeRef) :
    model.resolve? key = some target ↔ model.nodeKey? target = some key := by
  constructor
  · intro resolved
    cases key with
    | type key =>
      obtain ⟨node, found, rfl⟩ := Option.map_eq_some_iff.mp resolved
      obtain ⟨held, rfl⟩ := (formed.findType?_eq_some_iff key node).mp found
      simp [nodeKey?, held]
    | member kind key =>
      obtain ⟨node, found, rfl⟩ := Option.map_eq_some_iff.mp resolved
      obtain ⟨present, same⟩ := Option.filter_eq_some_iff.mp found
      obtain ⟨held, rfl⟩ := (formed.findMember?_eq_some_iff key node).mp present
      simpa [nodeKey?, held] using same
  · intro named
    cases target with
    | type id =>
      obtain ⟨node, held, rfl⟩ := Option.map_eq_some_iff.mp named
      simp [resolve?, formed.find_type held, formed.type_id held]
    | member id =>
      obtain ⟨node, held, rfl⟩ := Option.map_eq_some_iff.mp named
      simp [resolve?, formed.find_member held, formed.member_id held, Option.filter]

theorem view_type {id : TypeId} {node : TypeNode} (held : model.type? id = some node) :
    model.view.type node.key = model.typeFacts node := by
  simp [view, formed.find_type held]

theorem view_member {id : MemberId} {node : MemberNode} (held : model.member? id = some node) :
    model.view.member node.key = model.memberFacts node := by
  simp [view, formed.find_member held]

end

end WellFormed

/-- Facts that are found by key follow those about each node, where a new node counts as blank before. -/
theorem facts_follow {κ ι ν φ : Type} {keyOf : ν → κ} {idOf : ν → ι} {lookup lookup' : ι → Option ν}
    {find find' : κ → Option ν}
    (finds : ∀ key node, find key = some node ↔ lookup (idOf node) = some node ∧ keyOf node = key)
    (finds' : ∀ key node, find' key = some node ↔ lookup' (idOf node) = some node ∧ keyOf node = key)
    (grows : ∀ {id node}, lookup id = some node →
      ∃ later, lookup' id = some later ∧ idOf later = idOf node ∧ keyOf later = keyOf node)
    {facts facts' : ν → φ} {blank : φ} (change : κ → φ → φ)
    (old : ∀ {id node later}, lookup id = some node → lookup' id = some later →
      facts' later = change (keyOf node) (facts node))
    (new : ∀ {id later}, lookup id = none → lookup' id = some later → facts' later = change (keyOf later) blank)
    (absent : ∀ key, find' key = none → change key blank = blank) (key : κ) :
    ((find' key).map facts').getD blank = change key (((find key).map facts).getD blank) := by
  cases found : find key with
  | some node =>
    obtain ⟨held, rfl⟩ := (finds key node).mp found
    obtain ⟨later, at_later, same, named⟩ := grows held
    have found' := (finds' (keyOf node) later).mpr ⟨same ▸ at_later, named⟩
    simp [found', old held at_later]
  | none =>
    cases found' : find' key with
    | none => simp [absent key found']
    | some later =>
      obtain ⟨held, rfl⟩ := (finds' key later).mp found'
      -- An older node at this place would have the same key, and `find` would have found it.
      have fresh : lookup (idOf later) = none := by
        by_contra occupied
        obtain ⟨node, at_node⟩ := Option.ne_none_iff_exists'.mp occupied
        obtain ⟨again, at_again, same, named⟩ := grows at_node
        obtain rfl : again = later := Option.some.inj (at_again.symm.trans held)
        have found'' := (finds (keyOf again) node).mpr ⟨same ▸ at_node, named.symm⟩
        simp [found] at found''
      simp [new fresh held]

/-- When the node of one key changes, so do the facts found by that key, and no others. -/
theorem facts_modified {κ ι ν φ : Type} [DecidableEq κ] [DecidableEq ι] {keyOf : ν → κ} {idOf : ν → ι}
    {lookup lookup' : ι → Option ν} {find find' : κ → Option ν} {place : ι} {node : ν} {change : ν → ν}
    (modified : ∀ id, lookup' id = if id = place then (lookup id).map change else lookup id)
    (finds : ∀ key node, find key = some node ↔ lookup (idOf node) = some node ∧ keyOf node = key)
    (finds' : ∀ key node, find' key = some node ↔ lookup' (idOf node) = some node ∧ keyOf node = key)
    (placed : ∀ {id node}, lookup id = some node → idOf node = id)
    (keeps : ∀ node, idOf (change node) = idOf node ∧ keyOf (change node) = keyOf node)
    (held : lookup place = some node) {facts : ν → φ} {blank : φ} {edit : φ → φ}
    (edits : facts (change node) = edit (facts node)) :
    (fun key => ((find' key).map facts).getD blank) =
      Function.update (fun key => ((find key).map facts).getD blank) (keyOf node)
        (edit (((find (keyOf node)).map facts).getD blank)) := by
  have found : find (keyOf node) = some node := (finds _ node).mpr ⟨placed held ▸ held, rfl⟩
  have found' : find' (keyOf node) = some (change node) := by
    refine (finds' _ _).mpr ⟨?_, (keeps node).2⟩
    rw [(keeps node).1, placed held, modified, if_pos rfl, held, Option.map_some]
  funext key
  rw [Function.update_apply]
  split
  · next same => simp [same, found, found', edits]
  · next other =>
    -- another key finds the node that it found, which is not the changed one
    congr 2
    ext later
    rw [finds, finds', modified]
    split
    · next same =>
      rw [same, held]
      constructor
      · rintro ⟨at_later, rfl⟩
        obtain rfl := Option.some.inj at_later
        exact absurd (keeps node).2 other
      · rintro ⟨at_later, rfl⟩
        obtain rfl := Option.some.inj at_later
        exact absurd rfl other
    · rfl

section Follows

variable {before after : Model} (formed : before.WellFormed) (formed' : after.WellFormed) (grows : before.Grows after)
include formed formed' grows

theorem view_assembly_eq (change : AssemblyKey → AssemblyFacts → AssemblyFacts)
    (old : ∀ {id node later}, before.assembly? id = some node → after.assembly? id = some later →
      assemblyFacts later = change node.key (assemblyFacts node))
    (new : ∀ {id later}, before.assembly? id = none → after.assembly? id = some later →
      assemblyFacts later = change later.key {})
    (absent : ∀ key, after.findAssembly? key = none → change key {} = {}) :
    after.view.assembly = fun key => change key (before.view.assembly key) :=
  funext (facts_follow formed.findAssembly?_eq_some_iff formed'.findAssembly?_eq_some_iff grows.assembly
    change old new absent)

theorem view_type_eq (change : TypeKey → TypeFacts → TypeFacts)
    (old : ∀ {id node later}, before.type? id = some node → after.type? id = some later →
      after.typeFacts later = change node.key (before.typeFacts node))
    (new : ∀ {id later}, before.type? id = none → after.type? id = some later →
      after.typeFacts later = change later.key {})
    (absent : ∀ key, after.findType? key = none → change key {} = {}) :
    after.view.type = fun key => change key (before.view.type key) :=
  funext (facts_follow formed.findType?_eq_some_iff formed'.findType?_eq_some_iff
    (fun held => by obtain ⟨later, held, id, key, _⟩ := grows.type held; exact ⟨later, held, id, key⟩)
    change old new absent)

theorem view_member_eq (change : MemberKey → MemberFacts → MemberFacts)
    (old : ∀ {id node later}, before.member? id = some node → after.member? id = some later →
      after.memberFacts later = change node.key (before.memberFacts node))
    (new : ∀ {id later}, before.member? id = none → after.member? id = some later →
      after.memberFacts later = change later.key {})
    (absent : ∀ key, after.findMember? key = none → change key {} = {}) :
    after.view.member = fun key => change key (before.view.member key) :=
  funext (facts_follow formed.findMember?_eq_some_iff formed'.findMember?_eq_some_iff
    (fun held => by obtain ⟨later, held, id, key, _⟩ := grows.member held; exact ⟨later, held, id, key⟩)
    change old new absent)

omit grows in
theorem view_assemblies_congr
    (same : ∀ id, (after.assembly? id).map AssemblyNode.key = (before.assembly? id).map AssemblyNode.key) :
    after.view.assemblies = before.view.assemblies := by
  ext key
  simp only [formed'.mem_view_assemblies, formed.mem_view_assemblies, ← Option.map_eq_some_iff, same]

omit grows in
theorem view_spaces_congr
    (same : ∀ id, (after.space? id).map NamespaceNode.key = (before.space? id).map NamespaceNode.key) :
    after.view.spaces = before.view.spaces := by
  ext key
  simp only [formed'.mem_view_spaces, formed.mem_view_spaces, ← Option.map_eq_some_iff, same]

omit grows in
theorem view_types_congr (same : ∀ id, (after.type? id).map TypeNode.key = (before.type? id).map TypeNode.key) :
    after.view.types = before.view.types := by
  ext key
  simp only [formed'.mem_view_types, formed.mem_view_types, ← Option.map_eq_some_iff, same]

omit grows in
theorem view_kinds_congr (same : ∀ id, (after.member? id).map (fun node => (node.key, node.kind)) =
    (before.member? id).map fun node => (node.key, node.kind)) : after.view.kinds = before.view.kinds := by
  funext key
  ext kind
  have pair : ∀ (model : Model) id, (∃ node, model.member? id = some node ∧ node.key = key ∧ node.kind = kind) ↔
      (model.member? id).map (fun node => (node.key, node.kind)) = some (key, kind) := by
    intro model id
    simp [Option.map_eq_some_iff]
  simp only [formed'.view_kinds_eq_some_iff, formed.view_kinds_eq_some_iff, pair, same]

theorem view_assembly_same (same : ∀ id, after.assembly? id = before.assembly? id) :
    after.view.assembly = before.view.assembly := by
  refine view_assembly_eq formed formed' grows (fun _ facts => facts) ?_ ?_ fun _ _ => rfl
  · intro id node later held at_later
    rw [same, held] at at_later
    cases at_later
    rfl
  · intro id later fresh at_later
    simp [same, fresh] at at_later

theorem view_type_same (same : ∀ id, after.type? id = before.type? id) : after.view.type = before.view.type := by
  refine view_type_eq formed formed' grows (fun _ facts => facts) ?_ ?_ fun _ _ => rfl
  · intro id node later held at_later
    rw [same, held] at at_later
    cases at_later
    exact grows.typeFacts_eq (formed.type_backed held)
  · intro id later fresh at_later
    simp [same, fresh] at at_later

theorem view_member_same (same : ∀ id, after.member? id = before.member? id) :
    after.view.member = before.view.member := by
  refine view_member_eq formed formed' grows (fun _ facts => facts) ?_ ?_ fun _ _ => rfl
  · intro id node later held at_later
    rw [same, held] at at_later
    cases at_later
    exact grows.memberFacts_eq (formed.member_backed held)
  · intro id later fresh at_later
    simp [same, fresh] at at_later

end Follows

/-! ## Blank nodes -/

section Added

variable {model : Model} (formed : model.WellFormed)
include formed

theorem view_addAssembly {key : AssemblyKey} (absent : model.findAssembly? key = none) :
    (model.addAssembly key).2.view = model.view.ensureAssembly key := by
  have formed' := formed.addAssembly absent
  have grows := Grows.addAssembly model key
  have fresh := assembly?_fresh model key
  apply View.ext
  · ext other
    simp only [View.ensureAssembly, Set.mem_insert_iff, formed'.mem_view_assemblies, formed.mem_view_assemblies,
      assembly?_addAssembly, exists_added_iff fresh]
    grind
  · exact view_spaces_congr formed formed' fun _ => rfl
  · exact view_types_congr formed formed' fun _ => rfl
  · exact view_kinds_congr formed formed' fun _ => rfl
  · -- old nodes keep their facts, and a new node has those that the view tells of a missing one
    refine view_assembly_eq formed formed' grows (fun _ facts => facts) ?_ ?_ fun _ _ => rfl
    · intro id node later held at_later
      rw [assembly?_addAssembly] at at_later
      split at at_later
      · next same => simp [same, fresh] at held
      · rw [held] at at_later
        cases at_later
        rfl
    · intro id later unused at_later
      rw [assembly?_addAssembly, unused] at at_later
      split at at_later <;> cases at_later
      rfl
  · exact view_type_same formed formed' grows fun _ => rfl
  · exact view_member_same formed formed' grows fun _ => rfl

theorem view_addSpace {owner : AssemblyId} {node : AssemblyNode} {key : NamespaceKey}
    (at_owner : model.assembly? owner = some node) (owned : node.key = key.assembly)
    (absent : model.findSpace? key = none) : (model.addSpace owner key).2.view = model.view.ensureSpace key := by
  have formed' := formed.addSpace at_owner owned absent
  have grows := Grows.addSpace model owner key
  have fresh := space?_fresh model owner key
  have known : key.assembly ∈ model.view.assemblies := (formed.mem_view_assemblies _).mpr ⟨owner, node, at_owner, owned⟩
  apply View.ext
  · rw [View.ensureSpace, View.ensureAssembly, Set.insert_eq_of_mem known]
    refine view_assemblies_congr formed formed' fun id => ?_
    rw [assembly?_addSpace]
    split <;> simp [Function.comp_def]
  · ext other
    simp only [View.ensureSpace, Set.mem_insert_iff, formed'.mem_view_spaces, formed.mem_view_spaces,
      space?_addSpace, exists_added_iff fresh]
    grind
  · exact view_types_congr formed formed' fun _ => rfl
  · exact view_kinds_congr formed formed' fun _ => rfl
  · refine view_assembly_eq formed formed' grows (fun _ facts => facts) ?_ ?_ fun _ _ => rfl
    · intro id node later held at_later
      rw [assembly?_addSpace, held] at at_later
      split at at_later <;> cases at_later <;> rfl
    · intro id later unused at_later
      rw [assembly?_addSpace, unused] at at_later
      split at at_later <;> cases at_later
  · exact view_type_same formed formed' grows fun _ => rfl
  · exact view_member_same formed formed' grows fun _ => rfl

theorem view_addType {owner : NamespaceId} {node : NamespaceNode} {key : TypeKey}
    (at_owner : model.space? owner = some node) (owned : node.key = key.space)
    (absent : model.findType? key = none) : (model.addType owner key).2.view = model.view.ensureType key := by
  have formed' := formed.addType at_owner owned absent
  have grows := Grows.addType model owner key
  have fresh := type?_fresh model owner key
  have known : key.space ∈ model.view.spaces := (formed.mem_view_spaces _).mpr ⟨owner, node, at_owner, owned⟩
  have known' : key.space.assembly ∈ model.view.assemblies := by
    obtain ⟨assembly, at_assembly, named⟩ := formed.space_owner at_owner
    exact (formed.mem_view_assemblies _).mpr
      ⟨_, assembly, at_assembly, named.trans (congrArg NamespaceKey.assembly owned)⟩
  apply View.ext
  · rw [View.ensureType, View.ensureSpace, View.ensureAssembly, Set.insert_eq_of_mem known']
    exact view_assemblies_congr formed formed' fun _ => rfl
  · rw [View.ensureType, View.ensureSpace, Set.insert_eq_of_mem known]
    refine view_spaces_congr formed formed' fun id => ?_
    rw [space?_addType]
    split <;> simp [Function.comp_def]
  · ext other
    simp only [View.ensureType, Set.mem_insert_iff, formed'.mem_view_types, formed.mem_view_types,
      type?_addType, exists_added_iff fresh]
    grind
  · exact view_kinds_congr formed formed' fun _ => rfl
  · exact view_assembly_same formed formed' grows fun _ => rfl
  · refine view_type_eq formed formed' grows (fun _ facts => facts) ?_ ?_ fun _ _ => rfl
    · intro id node later held at_later
      rw [type?_addType] at at_later
      split at at_later
      · next same => simp [same, fresh] at held
      · rw [held] at at_later
        cases at_later
        exact grows.typeFacts_eq (formed.type_backed held)
    · intro id later unused at_later
      rw [type?_addType, unused] at at_later
      split at at_later <;> cases at_later
      simp [typeFacts, usedKeys, UsageSet.targets]
  · exact view_member_same formed formed' grows fun _ => rfl

theorem mem_view_owners {id : TypeId} {node : TypeNode} (held : model.type? id = some node) :
    node.key ∈ model.view.types ∧ node.key.space ∈ model.view.spaces ∧
      node.key.space.assembly ∈ model.view.assemblies := by
  obtain ⟨space, at_space, named⟩ := formed.type_owner held
  obtain ⟨assembly, at_assembly, named'⟩ := formed.space_owner at_space
  refine ⟨(formed.mem_view_types _).mpr ⟨id, node, held, rfl⟩,
    (formed.mem_view_spaces _).mpr ⟨_, space, at_space, named⟩, ?_⟩
  exact (formed.mem_view_assemblies _).mpr
    ⟨_, assembly, at_assembly, named'.trans (congrArg NamespaceKey.assembly named)⟩

theorem view_addMember {owner : TypeId} {node : TypeNode} {key : MemberKey} (kind : MemberKind)
    (at_owner : model.type? owner = some node) (owned : node.key = key.owner) (absent : model.findMember? key = none) :
    (model.addMember owner key (.blank kind)).2.view = model.view.ensureMember kind key := by
  have formed' := formed.addMember kind at_owner owned absent
  have grows := Grows.addMember model owner key (.blank kind)
  have fresh := member?_fresh model owner key (.blank kind)
  have known := mem_view_owners formed at_owner
  rw [owned] at known
  apply View.ext
  · rw [View.ensureMember, View.ensureType, View.ensureSpace, View.ensureAssembly, Set.insert_eq_of_mem known.2.2]
    exact view_assemblies_congr formed formed' fun _ => rfl
  · rw [View.ensureMember, View.ensureType, View.ensureSpace, Set.insert_eq_of_mem known.2.1]
    exact view_spaces_congr formed formed' fun _ => rfl
  · rw [View.ensureMember, View.ensureType, Set.insert_eq_of_mem known.1]
    refine view_types_congr formed formed' fun id => ?_
    rw [type?_addMember]
    split <;> simp [Function.comp_def]
  · funext other
    ext found
    -- nothing is told of the key yet, so its kind is that of the new node
    have blank : model.view.kinds key = none := by simp [view, absent]
    simp only [View.ensureMember, Function.update_apply, blank, formed'.view_kinds_eq_some_iff, member?_addMember,
      exists_added_iff fresh]
    by_cases same : other = key
    · subst same
      have none : ∀ id later, model.member? id = some later → later.key ≠ other :=
        fun id later held => formed.member_key_ne absent held
      simp only [if_true, Option.none_or, Option.some.injEq, MemberNode.kind, MemberDetail.kind_blank]
      grind
    · simp only [same, if_false, formed.view_kinds_eq_some_iff]
      grind
  · exact view_assembly_same formed formed' grows fun _ => rfl
  · refine view_type_eq formed formed' grows (fun _ facts => facts) ?_ ?_ fun _ _ => rfl
    · intro id node later held at_later
      have same := grows.typeFacts_eq (formed.type_backed held)
      rw [type?_addMember, held] at at_later
      split at at_later <;> cases at_later <;> exact same
    · intro id later unused at_later
      rw [type?_addMember, unused] at at_later
      split at at_later <;> cases at_later
  · refine view_member_eq formed formed' grows (fun _ facts => facts) ?_ ?_ fun _ _ => rfl
    · intro id node later held at_later
      rw [member?_addMember] at at_later
      split at at_later
      · next same => simp [same, fresh] at held
      · rw [held] at at_later
        cases at_later
        exact grows.memberFacts_eq (formed.member_backed held)
    · intro id later unused at_later
      rw [member?_addMember, unused] at at_later
      split at at_later <;> cases at_later
      simp [memberFacts, usedKeys, UsageSet.targets]

end Added

section Modified

variable {model : Model}

/-- Facts are read off a node and the keys that a model gives to ids, and nothing else. -/
theorem facts_congr {before after : Model} (types : after.typeKey? = before.typeKey?)
    (members : ∀ id, (after.member? id).map (fun node => (node.key, node.kind)) =
      (before.member? id).map fun node => (node.key, node.kind)) :
    after.typeFacts = before.typeFacts ∧ after.memberFacts = before.memberFacts := by
  have memberKeys : after.memberKey? = before.memberKey? := by
    funext id
    simpa [memberKey?, Option.map_map, Function.comp_def] using congrArg (Option.map Prod.fst) (members id)
  have used : after.usedKeys = before.usedKeys := by
    have nodes : after.nodeKey? = before.nodeKey? := by
      funext target
      cases target with
      | type id =>
        simpa [nodeKey?, typeKey?, Option.map_map, Function.comp_def] using
          congrArg (Option.map NodeKey.type) (congrFun types id)
      | member id =>
        simpa [nodeKey?, Option.map_map, Function.comp_def] using
          congrArg (Option.map fun pair => NodeKey.member pair.2 pair.1) (members id)
    funext set
    simp only [usedKeys, nodes]
  constructor
  · funext node
    simp only [typeFacts, types, used]
  · funext node
    simp only [memberFacts, types, memberKeys, used]

theorem typeKey?_modifyType {id : TypeId} {change : TypeNode → TypeNode}
    (keeps : ∀ node, KeepsType node (change node)) : (model.modifyType id change).typeKey? = model.typeKey? := by
  funext other
  rw [typeKey?, typeKey?, type?_modifyType]
  split
  · simp [Function.comp_def, (keeps _).key]
  · rfl

theorem keyKind_modifyMember {id : MemberId} {change : MemberNode → MemberNode}
    (keeps : ∀ node, KeepsMember node (change node)) (other : MemberId) :
    ((model.modifyMember id change).member? other).map (fun node => (node.key, node.kind)) =
      (model.member? other).map fun node => (node.key, node.kind) := by
  rw [member?_modifyMember]
  split
  · simp [Function.comp_def, (keeps _).key, (keeps _).kind]
  · rfl

variable (formed : model.WellFormed)
include formed

theorem view_modifyAssembly {id : AssemblyId} {node : AssemblyNode} {change : AssemblyNode → AssemblyNode}
    (keeps : ∀ node, KeepsAssembly node (change node)) (held : model.assembly? id = some node)
    (edit : AssemblyFacts → AssemblyFacts) (edits : assemblyFacts (change node) = edit (assemblyFacts node)) :
    (model.modifyAssembly id change).view =
      { model.view with
        assembly := Function.update model.view.assembly node.key (edit (model.view.assembly node.key)) } := by
  have formed' : (model.modifyAssembly id change).WellFormed := formed.modifyAssembly keeps
  have grows : model.Grows (model.modifyAssembly id change) := Grows.modifyAssembly keeps
  apply View.ext
  · refine view_assemblies_congr formed formed' fun other => ?_
    rw [assembly?_modifyAssembly]
    split
    · simp [Function.comp_def, (keeps _).key]
    · rfl
  · exact view_spaces_congr formed formed' fun _ => rfl
  · exact view_types_congr formed formed' fun _ => rfl
  · exact view_kinds_congr formed formed' fun _ => rfl
  · exact facts_modified (assembly?_modifyAssembly model id · change) formed.findAssembly?_eq_some_iff
      formed'.findAssembly?_eq_some_iff formed.assembly_id (fun node => ⟨(keeps node).id, (keeps node).key⟩) held edits
  · exact view_type_same formed formed' grows fun _ => rfl
  · exact view_member_same formed formed' grows fun _ => rfl

theorem view_modifyType {id : TypeId} {node : TypeNode} {change : TypeNode → TypeNode}
    (keeps : ∀ node, KeepsType node (change node)) (held : model.type? id = some node)
    (backed : model.BacksType (change node)) {edit : TypeFacts → TypeFacts}
    (edits : model.typeFacts (change node) = edit (model.typeFacts node)) :
    (model.modifyType id change).view =
      { model.view with type := Function.update model.view.type node.key (edit (model.view.type node.key)) } := by
  have formed' : (model.modifyType id change).WellFormed := by
    refine formed.modifyType keeps fun before at_before => ?_
    obtain rfl : node = before := Option.some.inj (held.symm.trans at_before)
    exact backed
  have grows : model.Grows (model.modifyType id change) := Grows.modifyType keeps
  have facts := (facts_congr (typeKey?_modifyType keeps) fun _ => rfl :
    (model.modifyType id change).typeFacts = model.typeFacts ∧ _)
  apply View.ext
  · exact view_assemblies_congr formed formed' fun _ => rfl
  · exact view_spaces_congr formed formed' fun _ => rfl
  · exact view_types_congr formed formed' (congrFun (typeKey?_modifyType keeps))
  · exact view_kinds_congr formed formed' fun _ => rfl
  · exact view_assembly_same formed formed' grows fun _ => rfl
  · change (fun key => (((model.modifyType id change).findType? key).map
      (model.modifyType id change).typeFacts).getD {}) = _
    rw [facts.1]
    exact facts_modified (type?_modifyType model id · change) formed.findType?_eq_some_iff
      formed'.findType?_eq_some_iff formed.type_id (fun node => ⟨(keeps node).id, (keeps node).key⟩) held edits
  · exact view_member_same formed formed' grows fun _ => rfl

theorem view_modifyMember {id : MemberId} {node : MemberNode} {change : MemberNode → MemberNode}
    (keeps : ∀ node, KeepsMember node (change node)) (held : model.member? id = some node)
    (backed : model.BacksMember (change node)) {edit : MemberFacts → MemberFacts}
    (edits : model.memberFacts (change node) = edit (model.memberFacts node)) :
    (model.modifyMember id change).view =
      { model.view with member := Function.update model.view.member node.key (edit (model.view.member node.key)) } := by
  have formed' : (model.modifyMember id change).WellFormed := by
    refine formed.modifyMember keeps fun before at_before => ?_
    obtain rfl : node = before := Option.some.inj (held.symm.trans at_before)
    exact backed
  have grows : model.Grows (model.modifyMember id change) := Grows.modifyMember keeps
  have facts := (facts_congr rfl (keyKind_modifyMember keeps) :
    _ ∧ (model.modifyMember id change).memberFacts = model.memberFacts)
  apply View.ext
  · exact view_assemblies_congr formed formed' fun _ => rfl
  · exact view_spaces_congr formed formed' fun _ => rfl
  · exact view_types_congr formed formed' fun _ => rfl
  · exact view_kinds_congr formed formed' (keyKind_modifyMember keeps)
  · exact view_assembly_same formed formed' grows fun _ => rfl
  · exact view_type_same formed formed' grows fun _ => rfl
  · change (fun key => (((model.modifyMember id change).findMember? key).map
      (model.modifyMember id change).memberFacts).getD {}) = _
    rw [facts.2]
    exact facts_modified (member?_modifyMember model id · change) formed.findMember?_eq_some_iff
      formed'.findMember?_eq_some_iff formed.member_id (fun node => ⟨(keeps node).id, (keeps node).key⟩) held edits

end Modified

end UsageGraph.Model
