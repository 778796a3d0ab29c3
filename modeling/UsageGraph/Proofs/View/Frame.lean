import UsageGraph.Proofs.Model.Growth
import UsageGraph.Proofs.View.Edits

/-! What edits leave alone.

Nodes may be added anywhere, but the content of a node changes only by an edit that is
about this node. So a node that no edit is about keeps everything except that new children
may follow those that it lists, and a new node that no edit is about is blank.
-/

set_option autoImplicit false
namespace UsageGraph

namespace Directory

variable {κ ι : Type} {first second third : Directory κ ι}

/-- New children may stand after those that were listed before, and are found beside those that were found. -/
def Gains (before after : Directory κ ι) (new : ι → Prop) : Prop :=
  ∃ added : List (κ × ι), after.ids = before.ids ++ added.map Prod.snd ∧
    after.index.entries = added.reverse ++ before.index.entries ∧ ∀ entry ∈ added, new entry.2

theorem Gains.refl (directory : Directory κ ι) (new : ι → Prop) : directory.Gains directory new :=
  ⟨[], by simp, by simp, by simp⟩

theorem Gains.insert (directory : Directory κ ι) (key : κ) {id : ι} {new : ι → Prop} (unknown : new id) :
    directory.Gains (directory.insert key id) new :=
  ⟨[(key, id)], rfl, rfl, by simpa using unknown⟩

theorem Gains.trans {new newer : ι → Prop} (begun : first.Gains second new) (continued : second.Gains third newer)
    (earlier : ∀ id, newer id → new id) : first.Gains third new := by
  obtain ⟨added, ids, index, unknown⟩ := begun
  obtain ⟨more, ids', index', unknown'⟩ := continued
  refine ⟨added ++ more, by simp [ids', ids], by simp [index', index], ?_⟩
  intro entry member
  rcases List.mem_append.mp member with member | member
  · exact unknown entry member
  · exact earlier _ (unknown' entry member)

end Directory

def AssemblyNode.IsBlank (node : AssemblyNode) : Prop :=
  node = { id := node.id, key := node.key, spaces := node.spaces }

def TypeNode.IsBlank (node : TypeNode) : Prop :=
  node = { id := node.id, key := node.key, space := node.space, members := node.members }

def MemberNode.IsBlank (node : MemberNode) : Prop :=
  node = { id := node.id, key := node.key, owner := node.owner, detail := .blank node.kind }

theorem AssemblyNode.IsBlank.with_spaces {node : AssemblyNode} (blank : node.IsBlank)
    (spaces : Directory NamespaceKey NamespaceId) : IsBlank { node with spaces } := by
  unfold IsBlank at blank
  rw [blank]
  rfl

theorem TypeNode.IsBlank.with_members {node : TypeNode} (blank : node.IsBlank)
    (members : Directory MemberKey MemberId) : IsBlank { node with members } := by
  unfold IsBlank at blank
  rw [blank]
  rfl

/-! ## Edits that are about other nodes -/

namespace Edit

def AvoidsAssembly (key : AssemblyKey) (edits : List Edit) : Prop :=
  ∀ isDependency, .openAssembly key isDependency ∉ edits

/-- The content of a type or member stays as it is. -/
def Avoids (place : Place) (edits : List Edit) : Prop := ∀ edit ∈ edits, edit.place? ≠ some place

variable {first second : List Edit}

theorem avoidsAssembly_append {key : AssemblyKey} :
    AvoidsAssembly key (first ++ second) ↔ AvoidsAssembly key first ∧ AvoidsAssembly key second := by
  simp only [AvoidsAssembly, List.mem_append, not_or, forall_and]

theorem avoids_append {place : Place} : Avoids place (first ++ second) ↔ Avoids place first ∧ Avoids place second := by
  simp only [Avoids, List.mem_append, or_imp, forall_and]

end Edit

namespace Model

/-- Nodes that no edit is about are spared: old ones keep their content, new ones are blank. -/
structure Spares (before after : Model) (edits : List Edit) : Prop where
  assembly : ∀ {id node}, before.assembly? id = some node → Edit.AvoidsAssembly node.key edits →
    ∃ spaces, node.spaces.Gains spaces (fun child => before.space? child = none) ∧
      after.assembly? id = some { node with spaces }
  space : ∀ {id node}, before.space? id = some node →
    ∃ types, node.types.Gains types (fun child => before.type? child = none) ∧
      after.space? id = some { node with types }
  type : ∀ {id node}, before.type? id = some node → Edit.Avoids (.type node.key) edits →
    ∃ members, node.members.Gains members (fun child => before.member? child = none) ∧
      after.type? id = some { node with members }
  member : ∀ {id node}, before.member? id = some node → Edit.Avoids (.member node.key) edits →
    after.member? id = some node
  newAssembly : ∀ {id node}, before.assembly? id = none → after.assembly? id = some node →
    Edit.AvoidsAssembly node.key edits → node.IsBlank
  newType : ∀ {id node}, before.type? id = none → after.type? id = some node →
    Edit.Avoids (.type node.key) edits → node.IsBlank
  newMember : ∀ {id node}, before.member? id = none → after.member? id = some node →
    Edit.Avoids (.member node.key) edits → node.IsBlank

section Absent

variable {before after : Model} (grows : before.Grows after)
include grows

theorem Grows.space?_eq_none {id : NamespaceId} (absent : after.space? id = none) : before.space? id = none := by
  cases held : before.space? id with
  | none => rfl
  | some node =>
    obtain ⟨later, held', _⟩ := grows.space held
    cases absent.symm.trans held'

theorem Grows.type?_eq_none {id : TypeId} (absent : after.type? id = none) : before.type? id = none := by
  cases held : before.type? id with
  | none => rfl
  | some node =>
    obtain ⟨later, held', _⟩ := grows.type held
    cases absent.symm.trans held'

theorem Grows.member?_eq_none {id : MemberId} (absent : after.member? id = none) : before.member? id = none := by
  cases held : before.member? id with
  | none => rfl
  | some node =>
    obtain ⟨later, held', _⟩ := grows.member held
    cases absent.symm.trans held'

end Absent

namespace Spares

variable {first second third : Model} {begun continued : List Edit}

theorem refl (model : Model) (edits : List Edit) : model.Spares model edits where
  assembly held _ := ⟨_, .refl _ _, held⟩
  space held := ⟨_, .refl _ _, held⟩
  type held _ := ⟨_, .refl _ _, held⟩
  member held _ := held
  newAssembly absent held := by simp [absent] at held
  newType absent held := by simp [absent] at held
  newMember absent held := by simp [absent] at held

theorem trans (start : first.Spares second begun) (rest : second.Spares third continued)
    (grows : first.Grows second) (grows' : second.Grows third) : first.Spares third (begun ++ continued) where
  assembly held left := by
    rw [Edit.avoidsAssembly_append] at left
    obtain ⟨spaces, gains, held⟩ := start.assembly held left.1
    obtain ⟨spaces', gains', held⟩ := rest.assembly held left.2
    exact ⟨spaces', gains.trans gains' fun _ => grows.space?_eq_none, held⟩
  space held := by
    obtain ⟨types, gains, held⟩ := start.space held
    obtain ⟨types', gains', held⟩ := rest.space held
    exact ⟨types', gains.trans gains' fun _ => grows.type?_eq_none, held⟩
  type held left := by
    rw [Edit.avoids_append] at left
    obtain ⟨members, gains, held⟩ := start.type held left.1
    obtain ⟨members', gains', held⟩ := rest.type held left.2
    exact ⟨members', gains.trans gains' fun _ => grows.member?_eq_none, held⟩
  member held left := by
    rw [Edit.avoids_append] at left
    exact rest.member (start.member held left.1) left.2
  -- a node that is new in the end came in the second part, or in the first and was spared by the second
  newAssembly {id node} absent held left := by
    rw [Edit.avoidsAssembly_append] at left
    cases between : second.assembly? id with
    | none => exact rest.newAssembly between held left.2
    | some middle =>
      obtain ⟨later, held', _, same⟩ := grows'.assembly between
      obtain rfl : later = node := Option.some.inj (held'.symm.trans held)
      rw [same] at left
      obtain ⟨spaces, _, held'⟩ := rest.assembly between left.2
      obtain rfl := Option.some.inj (held'.symm.trans held)
      exact (start.newAssembly absent between left.1).with_spaces spaces
  newType {id node} absent held left := by
    rw [Edit.avoids_append] at left
    cases between : second.type? id with
    | none => exact rest.newType between held left.2
    | some middle =>
      obtain ⟨later, held', _, same, _⟩ := grows'.type between
      obtain rfl : later = node := Option.some.inj (held'.symm.trans held)
      rw [same] at left
      obtain ⟨members, _, held'⟩ := rest.type between left.2
      obtain rfl := Option.some.inj (held'.symm.trans held)
      exact (start.newType absent between left.1).with_members members
  newMember {id node} absent held left := by
    rw [Edit.avoids_append] at left
    cases between : second.member? id with
    | none => exact rest.newMember between held left.2
    | some middle =>
      obtain ⟨later, held', _, same, _⟩ := grows'.member between
      obtain rfl : later = node := Option.some.inj (held'.symm.trans held)
      rw [same] at left
      obtain rfl := Option.some.inj ((rest.member between left.2).symm.trans held)
      exact start.newMember absent between left.1

theorem of_ensured {edit : Edit} (spares : first.Spares second [edit]) (free : edit.place? = none)
    (unopened : ∀ key isDependency, edit ≠ .openAssembly key isDependency) (edits : List Edit) :
    first.Spares second edits := by
  have avoidsAssembly : ∀ key, Edit.AvoidsAssembly key [edit] :=
    fun key isDependency member => unopened key isDependency (List.mem_singleton.mp member).symm
  have avoids : ∀ place, Edit.Avoids place [edit] := by
    intro place other member
    rw [List.mem_singleton.mp member, free]
    simp
  exact {
    assembly := fun held _ => spares.assembly held (avoidsAssembly _)
    space := spares.space
    type := fun held _ => spares.type held (avoids _)
    member := fun held _ => spares.member held (avoids _)
    newAssembly := fun absent held _ => spares.newAssembly absent held (avoidsAssembly _)
    newType := fun absent held _ => spares.newType absent held (avoids _)
    newMember := fun absent held _ => spares.newMember absent held (avoids _) }

section Add

variable (model : Model) (edits : List Edit)

theorem addAssembly (key : AssemblyKey) : model.Spares (model.addAssembly key).2 edits where
  assembly {id node} held _ := by
    refine ⟨node.spaces, .refl _ _, ?_⟩
    rw [assembly?_addAssembly, if_neg, held]
    rintro rfl
    simp [assembly?_fresh] at held
  space := (refl model edits).space
  type := (refl model edits).type
  member := (refl model edits).member
  newAssembly {id node} absent held _ := by
    rw [assembly?_addAssembly, absent] at held
    split at held
    · cases held
      rfl
    · cases held
  newType := (refl model edits).newType
  newMember := (refl model edits).newMember

theorem addSpace (owner : AssemblyId) (key : NamespaceKey) : model.Spares (model.addSpace owner key).2 edits where
  assembly {id node} held _ := by
    rw [assembly?_addSpace, held]
    split
    · exact ⟨_, .insert _ key (space?_fresh model owner key), rfl⟩
    · exact ⟨_, .refl _ _, rfl⟩
  space {id node} held := by
    refine ⟨node.types, .refl _ _, ?_⟩
    rw [space?_addSpace, if_neg, held]
    rintro rfl
    simp [space?_fresh] at held
  type := (refl model edits).type
  member := (refl model edits).member
  newAssembly {id node} absent held := by simp [assembly?_addSpace, absent] at held
  newType := (refl model edits).newType
  newMember := (refl model edits).newMember

theorem addType (owner : NamespaceId) (key : TypeKey) : model.Spares (model.addType owner key).2 edits where
  assembly := (refl model edits).assembly
  space {id node} held := by
    rw [space?_addType, held]
    split
    · exact ⟨_, .insert _ key (type?_fresh model owner key), rfl⟩
    · exact ⟨_, .refl _ _, rfl⟩
  type {id node} held _ := by
    refine ⟨node.members, .refl _ _, ?_⟩
    rw [type?_addType, if_neg, held]
    rintro rfl
    simp [type?_fresh] at held
  member := (refl model edits).member
  newAssembly := (refl model edits).newAssembly
  newType {id node} absent held _ := by
    rw [type?_addType, absent] at held
    split at held
    · cases held
      rfl
    · cases held
  newMember := (refl model edits).newMember

theorem addMember (owner : TypeId) (key : MemberKey) (kind : MemberKind) :
    model.Spares (model.addMember owner key (.blank kind)).2 edits where
  assembly := (refl model edits).assembly
  space := (refl model edits).space
  type {id node} held _ := by
    rw [type?_addMember, held]
    split
    · exact ⟨_, .insert _ key (member?_fresh model owner key _), rfl⟩
    · exact ⟨_, .refl _ _, rfl⟩
  member {id node} held _ := by
    rw [member?_addMember, if_neg, held]
    rintro rfl
    simp [member?_fresh] at held
  newAssembly := (refl model edits).newAssembly
  newType {id node} absent held := by simp [type?_addMember, absent] at held
  newMember {id node} absent held _ := by
    rw [member?_addMember, absent] at held
    split at held
    · cases held
      simp [MemberNode.IsBlank, MemberNode.kind]
    · cases held

end Add

section Modify

variable {model : Model}

theorem modifyAssembly {id : AssemblyId} {node : AssemblyNode} (held : model.assembly? id = some node)
    (change : AssemblyNode → AssemblyNode) (isDependency : Bool) :
    model.Spares (model.modifyAssembly id change) [.openAssembly node.key isDependency] where
  assembly {other found} held' left := by
    rw [assembly?_modifyAssembly]
    split
    next same =>
      obtain rfl : node = found := Option.some.inj (held.symm.trans (same ▸ held'))
      exact absurd (List.mem_singleton_self _) (left isDependency)
    next => exact ⟨_, .refl _ _, held'⟩
  space := (refl model []).space
  type := (refl model _).type
  member := (refl model _).member
  newAssembly absent held := by simp [assembly?_modifyAssembly, absent] at held
  newType := (refl model _).newType
  newMember := (refl model _).newMember

theorem modifyType {id : TypeId} {node : TypeNode} (held : model.type? id = some node) (change : TypeNode → TypeNode)
    (edit : TypeChange) : model.Spares (model.modifyType id change) [.onType node.key edit] where
  assembly := (refl model _).assembly
  space := (refl model []).space
  type {other found} held' left := by
    rw [type?_modifyType]
    split
    next same =>
      obtain rfl : node = found := Option.some.inj (held.symm.trans (same ▸ held'))
      exact absurd rfl (left _ (List.mem_singleton_self _))
    next => exact ⟨_, .refl _ _, held'⟩
  member := (refl model _).member
  newAssembly := (refl model _).newAssembly
  newType absent held := by simp [type?_modifyType, absent] at held
  newMember := (refl model _).newMember

theorem modifyMember {id : MemberId} {node : MemberNode} (held : model.member? id = some node)
    (change : MemberNode → MemberNode) (edit : MemberChange) :
    model.Spares (model.modifyMember id change) [.onMember node.key edit] where
  assembly := (refl model _).assembly
  space := (refl model []).space
  type := (refl model _).type
  member {other found} held' left := by
    rw [member?_modifyMember]
    split
    next same =>
      obtain rfl : node = found := Option.some.inj (held.symm.trans (same ▸ held'))
      exact absurd rfl (left _ (List.mem_singleton_self _))
    next => exact held'
  newAssembly := (refl model _).newAssembly
  newType := (refl model _).newType
  newMember absent held := by simp [member?_modifyMember, absent] at held

end Modify

end Spares

end Model

end UsageGraph
