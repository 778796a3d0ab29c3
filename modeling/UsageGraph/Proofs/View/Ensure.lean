import UsageGraph.Proofs.View.Frame
import UsageGraph.Proofs.View.Model

/-! Ensuring keys and recording facts, as edits of the view.

Each operation on a well-formed model leaves a well-formed one in which every node is
still there, its view is the old view with the operation's edits, and nodes that these are
not about are left alone.
-/

set_option autoImplicit false
namespace UsageGraph

namespace View

theorem applyAll_append (view : View) (first second : List Edit) :
    view.applyAll (first ++ second) = (view.applyAll first).applyAll second :=
  List.foldl_append

theorem applyAll_singleton (view : View) (edit : Edit) : view.applyAll [edit] = view.apply edit := rfl

end View

namespace Model

/-- One model comes from another by edits. -/
structure Becomes (before after : Model) (edits : List Edit) : Prop where
  formed : after.WellFormed
  grows : before.Grows after
  view : after.view = before.view.applyAll edits
  spares : before.Spares after edits

theorem Becomes.refl {model : Model} (formed : model.WellFormed) : model.Becomes model [] :=
  ⟨formed, Grows.refl model, rfl, .refl model []⟩

theorem Becomes.trans {first second third : Model} {begun continued : List Edit} (start : first.Becomes second begun)
    (rest : second.Becomes third continued) : first.Becomes third (begun ++ continued) where
  formed := rest.formed
  grows := start.grows.trans rest.grows
  view := by rw [rest.view, start.view, View.applyAll_append]
  spares := start.spares.trans rest.spares start.grows rest.grows

theorem findSpace?_eq_none_iff (model : Model) (key : NamespaceKey) :
    model.findSpace? key = none ↔ key ∉ model.view.spaces := by
  simp [view]

theorem findType?_eq_none_iff (model : Model) (key : TypeKey) :
    model.findType? key = none ↔ key ∉ model.view.types := by
  simp [view]

theorem findMember?_eq_none_iff (model : Model) (key : MemberKey) :
    model.findMember? key = none ↔ model.view.kinds key = none := by
  simp [view]

section Ensure

variable {model : Model} (formed : model.WellFormed)
include formed

theorem ensureAssembly_becomes (key : AssemblyKey) :
    model.Becomes (model.ensureAssembly key).2 [.ensureAssembly key] ∧
      ∃ node, (model.ensureAssembly key).2.assembly? (model.ensureAssembly key).1 = some node ∧ node.key = key := by
  unfold ensureAssembly
  cases found : model.findAssembly? key with
  | some node =>
    obtain ⟨held, named⟩ := (formed.findAssembly?_eq_some_iff key node).mp found
    have known : key ∈ model.view.assemblies := (formed.mem_view_assemblies key).mpr ⟨_, node, held, named⟩
    refine ⟨⟨formed, Grows.refl model, ?_, .refl model _⟩, node, held, named⟩
    rw [View.applyAll_singleton, View.apply, View.ensureAssembly, Set.insert_eq_of_mem known]
  | none =>
    refine ⟨⟨formed.addAssembly found, Grows.addAssembly model key, view_addAssembly formed found,
      .addAssembly model _ key⟩, ?_⟩
    exact ⟨_, (assembly?_addAssembly model key _).trans (if_pos rfl), rfl⟩

omit formed in
theorem ensureAssembly_of_found {key : AssemblyKey} {node : AssemblyNode}
    (found : model.findAssembly? key = some node) : model.ensureAssembly key = (node.id, model) := by
  rw [ensureAssembly, found]

theorem listedSpace?_eq {id : AssemblyId} {owner : AssemblyNode} {key : NamespaceKey}
    (held : model.assembly? id = some owner) (named : owner.key = key.assembly) :
    model.listedSpace? id key = model.findSpace? key := by
  obtain rfl := formed.assembly_id held
  rw [listedSpace?, held, findSpace?, (formed.findAssembly?_eq_some_iff _ owner).mpr ⟨held, named⟩]

theorem findSpace?_ensureAssembly {key : NamespaceKey} (missing : model.findSpace? key = none) :
    (model.ensureAssembly key.assembly).2.findSpace? key = none := by
  rw [findSpace?_eq_none_iff, (ensureAssembly_becomes formed key.assembly).1.view]
  exact (findSpace?_eq_none_iff model key).mp missing

/-- The way down from the assembly comes to the namespace that the key finds. -/
theorem ensureSpace_eq (key : NamespaceKey) :
    model.ensureSpace key = match model.findSpace? key with
      | some node => (node.id, model)
      | none => (model.ensureAssembly key.assembly).2.addSpace (model.ensureAssembly key.assembly).1 key := by
  obtain ⟨begun, owner, held, named⟩ := ensureAssembly_becomes formed key.assembly
  unfold ensureSpace
  dsimp only
  rw [listedSpace?_eq begun.formed held named]
  cases found : model.findSpace? key with
  | some node =>
    obtain ⟨above, at_above, _⟩ := Option.bind_eq_some_iff.mp found
    rw [ensureAssembly_of_found at_above, found]
  | none =>
    rw [findSpace?_ensureAssembly formed found]

theorem ensureSpace_of_found {key : NamespaceKey} {node : NamespaceNode} (found : model.findSpace? key = some node) :
    model.ensureSpace key = (node.id, model) := by
  rw [ensureSpace_eq formed, found]

theorem ensureSpace_becomes (key : NamespaceKey) :
    model.Becomes (model.ensureSpace key).2 [.ensureSpace key] ∧
      ∃ node, (model.ensureSpace key).2.space? (model.ensureSpace key).1 = some node ∧ node.key = key := by
  rw [ensureSpace_eq formed]
  cases found : model.findSpace? key with
  | some node =>
    obtain ⟨held, named⟩ := (formed.findSpace?_eq_some_iff key node).mp found
    have known : key ∈ model.view.spaces := (formed.mem_view_spaces key).mpr ⟨_, node, held, named⟩
    obtain ⟨owner, at_owner, owned⟩ := formed.space_owner held
    have known' : key.assembly ∈ model.view.assemblies :=
      (formed.mem_view_assemblies _).mpr ⟨_, owner, at_owner, owned.trans (congrArg NamespaceKey.assembly named)⟩
    refine ⟨⟨formed, Grows.refl model, ?_, .refl model _⟩, node, held, named⟩
    rw [View.applyAll_singleton, View.apply, View.ensureSpace, View.ensureAssembly, Set.insert_eq_of_mem known,
      Set.insert_eq_of_mem known']
  | none =>
    obtain ⟨begun, node, at_owner, owned⟩ := ensureAssembly_becomes formed key.assembly
    have absent := findSpace?_ensureAssembly formed found
    refine ⟨⟨begun.formed.addSpace at_owner owned absent, begun.grows.trans (.addSpace _ _ key), ?_, ?_⟩, ?_⟩
    · rw [view_addSpace begun.formed at_owner owned absent, begun.view]
      simp [View.applyAll, View.apply, View.ensureSpace, View.ensureAssembly]
    · exact (begun.spares.of_ensured rfl (by simp) []).trans (.addSpace _ _ _ key) begun.grows (.addSpace _ _ key)
    · exact ⟨_, (space?_addSpace _ _ key _).trans (if_pos rfl), rfl⟩

theorem listedType?_eq {id : NamespaceId} {owner : NamespaceNode} {key : TypeKey}
    (held : model.space? id = some owner) (named : owner.key = key.space) :
    model.listedType? id key = model.findType? key := by
  obtain rfl := formed.space_id held
  rw [listedType?, held, findType?, (formed.findSpace?_eq_some_iff _ owner).mpr ⟨held, named⟩]

theorem findType?_ensureSpace {key : TypeKey} (missing : model.findType? key = none) :
    (model.ensureSpace key.space).2.findType? key = none := by
  rw [findType?_eq_none_iff, (ensureSpace_becomes formed key.space).1.view]
  exact (findType?_eq_none_iff model key).mp missing

theorem ensureType_eq (key : TypeKey) :
    model.ensureType key = match model.findType? key with
      | some node => (node.id, model)
      | none => (model.ensureSpace key.space).2.addType (model.ensureSpace key.space).1 key := by
  obtain ⟨begun, owner, held, named⟩ := ensureSpace_becomes formed key.space
  unfold ensureType
  dsimp only
  rw [listedType?_eq begun.formed held named]
  cases found : model.findType? key with
  | some node =>
    obtain ⟨above, at_above, _⟩ := Option.bind_eq_some_iff.mp found
    rw [ensureSpace_of_found formed at_above, found]
  | none =>
    rw [findType?_ensureSpace formed found]

theorem ensureType_of_found {key : TypeKey} {node : TypeNode} (found : model.findType? key = some node) :
    model.ensureType key = (node.id, model) := by
  rw [ensureType_eq formed, found]

theorem ensureType_becomes (key : TypeKey) :
    model.Becomes (model.ensureType key).2 [.ensureType key] ∧
      ∃ node, (model.ensureType key).2.type? (model.ensureType key).1 = some node ∧ node.key = key := by
  rw [ensureType_eq formed]
  cases found : model.findType? key with
  | some node =>
    obtain ⟨held, rfl⟩ := (formed.findType?_eq_some_iff key node).mp found
    obtain ⟨type, space, assembly⟩ := mem_view_owners formed held
    refine ⟨⟨formed, Grows.refl model, ?_, .refl model _⟩, node, held, rfl⟩
    rw [View.applyAll_singleton, View.apply, View.ensureType, View.ensureSpace, View.ensureAssembly,
      Set.insert_eq_of_mem type, Set.insert_eq_of_mem space, Set.insert_eq_of_mem assembly]
  | none =>
    obtain ⟨begun, node, at_owner, owned⟩ := ensureSpace_becomes formed key.space
    have absent := findType?_ensureSpace formed found
    refine ⟨⟨begun.formed.addType at_owner owned absent, begun.grows.trans (.addType _ _ key), ?_, ?_⟩, ?_⟩
    · rw [view_addType begun.formed at_owner owned absent, begun.view]
      simp [View.applyAll, View.apply, View.ensureType, View.ensureSpace, View.ensureAssembly]
    · exact (begun.spares.of_ensured rfl (by simp) []).trans (.addType _ _ _ key) begun.grows (.addType _ _ key)
    · exact ⟨_, (type?_addType _ _ key _).trans (if_pos rfl), rfl⟩

theorem listedMember?_eq {id : TypeId} {owner : TypeNode} {key : MemberKey}
    (held : model.type? id = some owner) (named : owner.key = key.owner) :
    model.listedMember? id key = model.findMember? key := by
  obtain rfl := formed.type_id held
  rw [listedMember?, held, findMember?, (formed.findType?_eq_some_iff _ owner).mpr ⟨held, named⟩]

theorem findMember?_ensureType {key : MemberKey} (missing : model.findMember? key = none) :
    (model.ensureType key.owner).2.findMember? key = none := by
  rw [findMember?_eq_none_iff, (ensureType_becomes formed key.owner).1.view]
  exact (findMember?_eq_none_iff model key).mp missing

theorem ensureMember_eq (key : MemberKey) (kind : NodeKind) :
    model.ensureMember key kind = match model.findMember? key with
      | some node =>
        if kind = .member node.kind then (.ok node.id, model)
        else (.error (.kindMismatch key node.kind kind), model)
      | none =>
        match MemberDetail.blank? kind with
        | some detail =>
          let added := (model.ensureType key.owner).2.addMember (model.ensureType key.owner).1 key detail
          (.ok added.1, added.2)
        | none => (.error (.violation (.notAMember key)), (model.ensureType key.owner).2) := by
  obtain ⟨begun, owner, held, named⟩ := ensureType_becomes formed key.owner
  unfold ensureMember
  dsimp only
  rw [listedMember?_eq begun.formed held named]
  cases found : model.findMember? key with
  | some node =>
    obtain ⟨above, at_above, _⟩ := Option.bind_eq_some_iff.mp found
    rw [ensureType_of_found formed at_above, found]
  | none =>
    have absent := findMember?_ensureType formed found
    cases MemberDetail.blank? kind <;> simp only [absent]

/-- A member can be ensured exactly when no member of another kind has its key; else nothing changes. -/
theorem ensureMember_becomes (kind : MemberKind) (key : MemberKey) :
    (model.view.allows (.ensureMember kind key) ∧ ∃ id node, (model.ensureMember key (.member kind)).1 = .ok id ∧
      (model.ensureMember key (.member kind)).2.member? id = some node ∧ node.key = key ∧ node.kind = kind ∧
      model.Becomes (model.ensureMember key (.member kind)).2 [.ensureMember kind key]) ∨
    (¬ model.view.allows (.ensureMember kind key) ∧ ∃ found,
      model.ensureMember key (.member kind) = (.error (.kindMismatch key found (.member kind)), model)) := by
  rw [ensureMember_eq formed]
  cases found : model.findMember? key with
  | some node =>
    obtain ⟨held, rfl⟩ := (formed.findMember?_eq_some_iff key node).mp found
    have stored : model.view.kinds node.key = some node.kind := by simp [view, found]
    by_cases same : kind = node.kind
    · subst same
      refine .inl ⟨?_, node.id, node, by simp, by simpa using held, rfl, rfl, ?_⟩
      · intro other member
        rw [stored] at member
        exact (Option.some.inj member).symm
      · -- the member is known with all its owners, so that nothing is added to the view
        obtain ⟨type, at_type, owned⟩ := formed.member_owner held
        have known := mem_view_owners formed at_type
        rw [owned] at known
        refine ⟨by simpa using formed, by simpa using Grows.refl model, ?_, by simpa using .refl model _⟩
        simp only [if_true]
        rw [View.applyAll_singleton, View.apply, View.ensureMember, View.ensureType, View.ensureSpace,
          View.ensureAssembly, Set.insert_eq_of_mem known.1, Set.insert_eq_of_mem known.2.1,
          Set.insert_eq_of_mem known.2.2, stored, Option.some_or, ← stored, Function.update_eq_self]
    · refine .inr ⟨?_, _, if_neg (by simpa using same)⟩
      intro allowed
      exact same (allowed node.kind stored).symm
  | none =>
    have unknown := (findMember?_eq_none_iff model key).mp found
    -- the owner is ensured first, and the member is added under it
    obtain ⟨begun, node, at_owner, owned⟩ := ensureType_becomes formed key.owner
    have absent := findMember?_ensureType formed found
    refine .inl ⟨by simp [View.allows, unknown], _, _, rfl, (member?_addMember _ _ key _ _).trans (if_pos rfl), rfl,
      MemberDetail.kind_blank kind, begun.formed.addMember kind at_owner owned absent,
      begun.grows.trans (.addMember _ _ key _), ?_, ?_⟩
    · refine (view_addMember begun.formed kind at_owner owned absent).trans ?_
      rw [begun.view]
      simp [View.applyAll, View.apply, View.ensureMember, View.ensureType, View.ensureSpace, View.ensureAssembly]
    · exact (begun.spares.of_ensured rfl (by simp) []).trans (.addMember _ _ _ key kind) begun.grows
        (.addMember _ _ key _)

theorem ensureNode_becomes (key : NodeKey) :
    (model.view.allows (.ensureNode key) ∧ ∃ target, (model.ensureNode key).1 = .ok target ∧
      (model.ensureNode key).2.nodeKey? target = some key ∧
      model.Becomes (model.ensureNode key).2 [.ensureNode key]) ∨
    (¬ model.view.allows (.ensureNode key) ∧ ∃ member found expected,
      model.ensureNode key = (.error (.kindMismatch member found expected), model)) := by
  cases key with
  | type key =>
    obtain ⟨becomes, node, held, named⟩ := ensureType_becomes formed key
    exact .inl ⟨trivial, .type (model.ensureType key).1, rfl, by simp [nodeKey?, ensureNode, held, named], becomes⟩
  | member kind key =>
    obtain ⟨allowed, id, node, ok, held, named, same, becomes⟩ | ⟨refused, found, failed⟩ :=
      ensureMember_becomes formed kind key
    · refine .inl ⟨allowed, .member id, ?_, ?_, becomes⟩
      · simp [ensureNode, ok, Except.map]
      · simp [ensureNode, nodeKey?, held, named, same]
    · exact .inr ⟨refused, key, found, .member kind, by simp [ensureNode, failed, Except.map]⟩

theorem ensureType?_becomes (key? : Option TypeKey) :
    model.Becomes (model.ensureType? key?).2 (key?.toList.map .ensureType) ∧
      (∀ id ∈ (model.ensureType? key?).1, ((model.ensureType? key?).2.type? id).isSome) ∧
      (model.ensureType? key?).1.bind (model.ensureType? key?).2.typeKey? = key? := by
  cases key? with
  | none => exact ⟨Becomes.refl formed, by simp [ensureType?], rfl⟩
  | some key =>
    obtain ⟨becomes, node, held, named⟩ := ensureType_becomes formed key
    refine ⟨becomes, ?_, by simp [ensureType?, typeKey?, held, named]⟩
    intro id member
    obtain rfl : (model.ensureType key).1 = id := by simpa [ensureType?] using member
    exact Option.isSome_iff_exists.mpr ⟨node, held⟩

end Ensure

theorem ensureTypes_becomes {model : Model} (formed : model.WellFormed) (keys : List TypeKey) :
    model.Becomes (model.ensureTypes keys).2 (keys.map .ensureType) ∧
      (∀ id ∈ (model.ensureTypes keys).1, ((model.ensureTypes keys).2.type? id).isSome) ∧
      (model.ensureTypes keys).1.filterMap (model.ensureTypes keys).2.typeKey? = keys := by
  induction keys generalizing model with
  | nil => exact ⟨Becomes.refl formed, by simp [ensureTypes], rfl⟩
  | cons key rest ih =>
    obtain ⟨begun, node, held, named⟩ := ensureType_becomes formed key
    obtain ⟨continued, present, keys⟩ := ih begun.formed
    have held' := continued.grows.isSome_type (Option.isSome_iff_exists.mpr ⟨node, held⟩)
    refine ⟨begun.trans continued, ?_, ?_⟩
    · intro id member
      obtain rfl | member := List.mem_cons.mp member
      · exact held'
      · exact present id member
    · have first := continued.grows.typeKey?_eq (Option.isSome_iff_exists.mpr ⟨node, held⟩)
      simp only [ensureTypes, List.filterMap_cons, first, keys]
      simp [typeKey?, held, named]

end Model

end UsageGraph
