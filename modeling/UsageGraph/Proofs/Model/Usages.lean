import UsageGraph.Proofs.Reachable

/-! Usages stay true of their targets.

A usage repeats the kind of its target and the type that owns it. Neither changes once the
target is there, so what was recorded of a placeholder holds when the placeholder has been
opened and filled in. Hence it is enough to compare owners to tell the usages that lead
outside a type from those that do not.
-/

set_option autoImplicit false
namespace UsageGraph.Model

def kindOf? (model : Model) : NodeRef → Option NodeKind
  | .type id => (model.type? id).map fun _ => .type
  | .member id => (model.member? id).map fun node => .member node.kind

def owningType? (model : Model) : NodeRef → Option TypeId
  | .type id => (model.type? id).map TypeNode.id
  | .member id => (model.member? id).map MemberNode.owner

def PartOf (model : Model) (type : TypeId) (target : NodeRef) : Prop :=
  target = .type type ∨ ∃ id node, target = .member id ∧ model.member? id = some node ∧ node.owner = type

/-- The usages that lead outside a type, in the order of all of them. -/
structure Outward (model : Model) (type : TypeId) (usages direct : UsageSet) : Prop where
  exact : ∀ target, direct.contains target ↔ usages.contains target ∧ ¬ model.PartOf type target
  order : direct.toList.Sublist usages.toList

variable {model : Model}

theorem described_by_usageOf? {target : NodeRef} {usage : Usage} (recorded : model.usageOf? target = some usage) :
    model.kindOf? target = some usage.kind ∧ model.owningType? target = some usage.owner := by
  cases target with
  | type id =>
    obtain ⟨node, held, rfl⟩ := Option.map_eq_some_iff.mp recorded
    exact ⟨by simp [kindOf?, held], by simp [owningType?, held]⟩
  | member id =>
    obtain ⟨node, held, rfl⟩ := Option.map_eq_some_iff.mp recorded
    exact ⟨by simp [kindOf?, held], by simp [owningType?, held]⟩

theorem WellFormed.partOf_iff (formed : model.WellFormed) {target : NodeRef} {owner : TypeId}
    (owned : model.owningType? target = some owner) (type : TypeId) : model.PartOf type target ↔ owner = type := by
  cases target with
  | type id =>
    obtain ⟨node, held, rfl⟩ := Option.map_eq_some_iff.mp owned
    rw [formed.type_id held]
    simp [PartOf]
  | member id =>
    obtain ⟨node, held, rfl⟩ := Option.map_eq_some_iff.mp owned
    simp [PartOf, held]

/-- Usages that are true of their targets can be told apart by the owners that they name. -/
theorem Backs.outward {usages : UsageSet} (backs : model.Backs usages) (formed : model.WellFormed) (type : TypeId) :
    model.Outward type usages (usages.withoutOwner type) where
  exact target := by
    rw [backs.indexed.contains_iff, (usages.indexed_withoutOwner type).contains_iff]
    simp only [UsageSet.targets, UsageSet.toList_withoutOwner backs.distinct, List.mem_map, List.mem_filter,
      decide_eq_true_eq]
    have told : ∀ usage ∈ usages.toList, (model.PartOf type usage.target ↔ usage.owner = type) :=
      fun usage recorded => formed.partOf_iff (described_by_usageOf? (backs.accurate usage recorded)).2 type
    constructor
    · rintro ⟨usage, ⟨recorded, outside⟩, rfl⟩
      exact ⟨⟨usage, recorded, rfl⟩, fun inside => outside ((told usage recorded).mp inside)⟩
    · rintro ⟨⟨usage, recorded, rfl⟩, outside⟩
      exact ⟨usage, ⟨recorded, fun inside => outside ((told usage recorded).mpr inside)⟩, rfl⟩
  order := by
    rw [UsageSet.toList_withoutOwner backs.distinct]
    exact List.filter_sublist

theorem usages_true_of_targets (reached : model.Reachable) {holder : NodeRef} {usages : UsageSet}
    (held : model.usages? holder = some usages) :
    (∀ usage ∈ usages.toList,
      model.kindOf? usage.target = some usage.kind ∧ model.owningType? usage.target = some usage.owner) ∧
    ∃ type direct, model.owningType? holder = some type ∧ model.directUses? holder = some direct ∧
      model.Outward type usages direct := by
  have formed := reached.wellFormed
  cases holder with
  | type id =>
    obtain ⟨node, at_node, rfl⟩ := Option.map_eq_some_iff.mp held
    have backs := (formed.type_backed at_node).usages
    refine ⟨fun usage recorded => described_by_usageOf? (backs.accurate usage recorded), node.id, node.directUses, ?_⟩
    exact ⟨by simp [owningType?, at_node], by simp [directUses?, at_node], backs.outward formed node.id⟩
  | member id =>
    obtain ⟨node, at_node, rfl⟩ := Option.map_eq_some_iff.mp held
    have backs := (formed.member_backed at_node).usages
    refine ⟨fun usage recorded => described_by_usageOf? (backs.accurate usage recorded), node.owner, node.directUses, ?_⟩
    exact ⟨by simp [owningType?, at_node], by simp [directUses?, at_node], backs.outward formed node.owner⟩

def sketching : Model :=
  let plane : NamespaceKey := ⟨⟨"shapes"⟩, "plane"⟩
  let circle : TypeKey := { space := plane, name := "Circle" }
  let pen : TypeKey := { space := plane, name := "Pen" }
  (Builder.replay [.startSpace plane, .startType circle false, .startMethod ⟨circle, "draw", some {}⟩ false,
    .useType circle, .useNode (.member .method ⟨pen, "move", some {}⟩), .useNode (.member .field ⟨circle, "radius", none⟩),
    .useType pen, .close (.member .method), .close .type,
    .startType pen false, .startMethod ⟨pen, "move", some {}⟩ true]).model

theorem usages_true_of_targets_sketching :
    ∃ usages direct, sketching.usages? (.member ⟨0⟩) = some usages ∧
      usages.targets = [.type ⟨0⟩, .member ⟨1⟩, .member ⟨2⟩, .type ⟨1⟩] ∧
      sketching.directUses? (.member ⟨0⟩) = some direct ∧ direct.targets = [.member ⟨1⟩, .type ⟨1⟩] ∧
      sketching.Outward ⟨0⟩ usages direct := by
  have reached : sketching.Reachable := Model.reachable_replay _
  have listed : (sketching.usages? (.member ⟨0⟩)).map UsageSet.targets =
      some [.type ⟨0⟩, .member ⟨1⟩, .member ⟨2⟩, .type ⟨1⟩] := by decide
  have left : (sketching.directUses? (.member ⟨0⟩)).map UsageSet.targets = some [.member ⟨1⟩, .type ⟨1⟩] := by decide
  have owner : sketching.owningType? (.member ⟨0⟩) = some ⟨0⟩ := by decide
  obtain ⟨usages, held, targets⟩ := Option.map_eq_some_iff.mp listed
  obtain ⟨_, type, direct, owned, held', outward⟩ := usages_true_of_targets reached held
  obtain rfl := Option.some.inj (owned.symm.trans owner)
  rw [held'] at left
  exact ⟨usages, direct, held, targets, held', Option.some.inj left, outward⟩

end UsageGraph.Model
