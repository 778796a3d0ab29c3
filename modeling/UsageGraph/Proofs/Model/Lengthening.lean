import UsageGraph.Proofs.Reachable

/-! Lists only get longer.

The children that a node lists and the usages that it records stay in their places, and
new ones come after them. So it is with every building step, whether it succeeds or not
and whatever the open scopes are, and hence with every traversal.
-/

set_option autoImplicit false
namespace UsageGraph

theorem UsageSet.prefix_insert (set : UsageSet) (usage : Usage) : set.toList <+: (set.insert usage).toList := by
  unfold insert
  split
  · exact List.prefix_rfl
  · exact List.prefix_append _ _

/-- A directory goes on with new children, in the list and in the index. -/
structure Directory.Begins {κ ι : Type} (before after : Directory κ ι) : Prop where
  ids : before.ids <+: after.ids
  index : before.index.entries <:+ after.index.entries

namespace Directory.Begins

variable {κ ι : Type} {first second third : Directory κ ι}

theorem refl (directory : Directory κ ι) : directory.Begins directory := ⟨List.prefix_rfl, List.suffix_rfl⟩

theorem trans (begun : first.Begins second) (continued : second.Begins third) : first.Begins third :=
  ⟨begun.ids.trans continued.ids, begun.index.trans continued.index⟩

theorem insert (directory : Directory κ ι) (key : κ) (id : ι) : directory.Begins (directory.insert key id) :=
  ⟨List.prefix_append _ _, List.suffix_cons _ _⟩

end Directory.Begins

namespace Model

/-- What a model lists and records comes first in what a later one does. -/
structure Lengthens (before after : Model) : Prop where
  index : before.index.entries <:+ after.index.entries
  assembly : ∀ {id node}, before.assembly? id = some node →
    ∃ later, after.assembly? id = some later ∧ node.spaces.Begins later.spaces
  space : ∀ {id node}, before.space? id = some node →
    ∃ later, after.space? id = some later ∧ node.types.Begins later.types
  type : ∀ {id node}, before.type? id = some node →
    ∃ later, after.type? id = some later ∧ node.members.Begins later.members ∧
      node.usages.toList <+: later.usages.toList
  member : ∀ {id node}, before.member? id = some node →
    ∃ later, after.member? id = some later ∧ node.usages.toList <+: later.usages.toList

namespace Lengthens

variable {first second third : Model}

theorem refl (model : Model) : model.Lengthens model where
  index := List.suffix_rfl
  assembly held := ⟨_, held, .refl _⟩
  space held := ⟨_, held, .refl _⟩
  type held := ⟨_, held, .refl _, List.prefix_rfl⟩
  member held := ⟨_, held, List.prefix_rfl⟩

theorem trans (begun : first.Lengthens second) (continued : second.Lengthens third) : first.Lengthens third where
  index := begun.index.trans continued.index
  assembly held := by
    obtain ⟨_, held, spaces⟩ := begun.assembly held
    obtain ⟨later, held, spaces'⟩ := continued.assembly held
    exact ⟨later, held, spaces.trans spaces'⟩
  space held := by
    obtain ⟨_, held, types⟩ := begun.space held
    obtain ⟨later, held, types'⟩ := continued.space held
    exact ⟨later, held, types.trans types'⟩
  type held := by
    obtain ⟨_, held, members, usages⟩ := begun.type held
    obtain ⟨later, held, members', usages'⟩ := continued.type held
    exact ⟨later, held, members.trans members', usages.trans usages'⟩
  member held := by
    obtain ⟨_, held, usages⟩ := begun.member held
    obtain ⟨later, held, usages'⟩ := continued.member held
    exact ⟨later, held, usages.trans usages'⟩

section Add

variable (model : Model)

theorem addAssembly (key : AssemblyKey) : model.Lengthens (model.addAssembly key).2 where
  index := List.suffix_cons _ _
  assembly {id node} held := by
    refine ⟨node, ?_, .refl _⟩
    rw [assembly?_addAssembly, if_neg, held]
    rintro rfl
    simp [assembly?_fresh] at held
  space := (refl model).space
  type := (refl model).type
  member := (refl model).member

theorem addSpace (owner : AssemblyId) (key : NamespaceKey) : model.Lengthens (model.addSpace owner key).2 where
  index := List.suffix_rfl
  assembly {id node} held := by
    rw [assembly?_addSpace, held]
    split
    · exact ⟨_, rfl, .insert _ _ _⟩
    · exact ⟨_, rfl, .refl _⟩
  space {id node} held := by
    refine ⟨node, ?_, .refl _⟩
    rw [space?_addSpace, if_neg, held]
    rintro rfl
    simp [space?_fresh] at held
  type := (refl model).type
  member := (refl model).member

theorem addType (owner : NamespaceId) (key : TypeKey) : model.Lengthens (model.addType owner key).2 where
  index := List.suffix_rfl
  assembly := (refl model).assembly
  space {id node} held := by
    rw [space?_addType, held]
    split
    · exact ⟨_, rfl, .insert _ _ _⟩
    · exact ⟨_, rfl, .refl _⟩
  type {id node} held := by
    refine ⟨node, ?_, .refl _, List.prefix_rfl⟩
    rw [type?_addType, if_neg, held]
    rintro rfl
    simp [type?_fresh] at held
  member := (refl model).member

theorem addMember (owner : TypeId) (key : MemberKey) (detail : MemberDetail) :
    model.Lengthens (model.addMember owner key detail).2 where
  index := List.suffix_rfl
  assembly := (refl model).assembly
  space := (refl model).space
  type {id node} held := by
    rw [type?_addMember, held]
    split
    · exact ⟨_, rfl, .insert _ _ _, List.prefix_rfl⟩
    · exact ⟨_, rfl, .refl _, List.prefix_rfl⟩
  member {id node} held := by
    refine ⟨node, ?_, List.prefix_rfl⟩
    rw [member?_addMember, if_neg, held]
    rintro rfl
    simp [member?_fresh] at held

end Add

section Modify

variable {model : Model}

theorem modifyAssembly {id : AssemblyId} {change : AssemblyNode → AssemblyNode}
    (keeps : ∀ node, (change node).spaces = node.spaces) : model.Lengthens (model.modifyAssembly id change) where
  index := List.suffix_rfl
  assembly {other node} held := by
    rw [assembly?_modifyAssembly, held]
    split
    · exact ⟨change node, rfl, (keeps node).symm ▸ .refl _⟩
    · exact ⟨node, rfl, .refl _⟩
  space := (refl model).space
  type := (refl model).type
  member := (refl model).member

theorem modifyType {id : TypeId} {change : TypeNode → TypeNode}
    (keeps : ∀ node, (change node).members = node.members)
    (records : ∀ node, node.usages.toList <+: (change node).usages.toList) :
    model.Lengthens (model.modifyType id change) where
  index := List.suffix_rfl
  assembly := (refl model).assembly
  space := (refl model).space
  type {other node} held := by
    rw [type?_modifyType, held]
    split
    · exact ⟨change node, rfl, (keeps node).symm ▸ .refl _, records node⟩
    · exact ⟨node, rfl, .refl _, List.prefix_rfl⟩
  member := (refl model).member

theorem modifyMember {id : MemberId} {change : MemberNode → MemberNode}
    (records : ∀ node, node.usages.toList <+: (change node).usages.toList) :
    model.Lengthens (model.modifyMember id change) where
  index := List.suffix_rfl
  assembly := (refl model).assembly
  space := (refl model).space
  type := (refl model).type
  member {other node} held := by
    rw [member?_modifyMember, held]
    split
    · exact ⟨change node, rfl, records node⟩
    · exact ⟨node, rfl, List.prefix_rfl⟩

end Modify

section Requests

variable (model : Model)

theorem ensureAssembly (key : AssemblyKey) : model.Lengthens (model.ensureAssembly key).2 := by
  unfold Model.ensureAssembly
  split
  · exact .refl model
  · exact addAssembly model key

theorem ensureSpace (key : NamespaceKey) : model.Lengthens (model.ensureSpace key).2 := by
  have owned := ensureAssembly model key.assembly
  unfold Model.ensureSpace
  dsimp only
  split
  · exact owned
  · exact owned.trans (addSpace _ _ key)

theorem ensureType (key : TypeKey) : model.Lengthens (model.ensureType key).2 := by
  have owned := ensureSpace model key.space
  unfold Model.ensureType
  dsimp only
  split
  · exact owned
  · exact owned.trans (addType _ _ key)

theorem ensureType? (key? : Option TypeKey) : model.Lengthens (model.ensureType? key?).2 := by
  cases key? with
  | none => exact .refl model
  | some key => exact ensureType model key

theorem ensureTypes (keys : List TypeKey) : model.Lengthens (model.ensureTypes keys).2 := by
  induction keys generalizing model with
  | nil => exact .refl model
  | cons key rest ih => exact (ensureType model key).trans (ih _)

theorem ensureMember (key : MemberKey) (kind : NodeKind) : model.Lengthens (model.ensureMember key kind).2 := by
  have owned := ensureType model key.owner
  unfold Model.ensureMember
  dsimp only
  split
  · split
    · exact owned
    · exact owned
  · cases MemberDetail.blank? kind with
    | none => exact owned
    | some detail => exact owned.trans (addMember _ _ key detail)

theorem ensureNode (key : NodeKey) : model.Lengthens (model.ensureNode key).2 := by
  cases key with
  | type key => exact ensureType model key
  | member kind key => exact ensureMember model key (.member kind)

theorem ensureExternal (key : TypeKey) : model.Lengthens (model.ensureExternal key).2 :=
  (ensureType model key).trans (modifyType (fun _ => rfl) fun _ => List.prefix_rfl)

theorem recordDecodeError (key : AssemblyKey) (reason : String) :
    model.Lengthens (model.recordDecodeError key reason) :=
  (ensureAssembly model key).trans (modifyAssembly fun _ => rfl)

theorem recordUsage (holder target : NodeRef) : model.Lengthens (model.recordUsage holder target) := by
  unfold Model.recordUsage
  split
  · exact .refl model
  · cases holder with
    | type id => exact modifyType (fun _ => rfl) fun node => node.usages.prefix_insert _
    | member id => exact modifyMember fun node => node.usages.prefix_insert _

theorem recordAttribute (holder : NodeRef) (type : TypeId) : model.Lengthens (model.recordAttribute holder type) := by
  cases holder with
  | type id => exact modifyType (fun _ => rfl) fun _ => List.prefix_rfl
  | member id => exact modifyMember fun _ => List.prefix_rfl

end Requests

end Lengthens

end Model

theorem Request.grant_lengthens (model : Model) (request : Request) : model.Lengthens (request.grant model) := by
  cases request with
  | assembly key => exact .ensureAssembly model key
  | space key => exact .ensureSpace model key
  | type key => exact .ensureType model key
  | member key kind => exact .ensureMember model key kind
  | node key => exact .ensureNode model key
  | external key => exact .ensureExternal model key
  | system provided => exact .ensureExternal model provided.key
  | giveUp key reason => exact .recordDecodeError model key reason

/-! ## Building steps -/

namespace Builder

variable {α β : Type}

/-- A step that only makes lists longer, whatever its outcome. -/
def Lengthening (step : Build α) : Prop := ∀ builder : Builder, builder.model.Lengthens (step builder).2.model

namespace Lengthening

theorem bind {step : Build α} {next : α → Build β} (first : Lengthening step)
    (second : ∀ answer, Lengthening (next answer)) : Lengthening (step >>= next) := by
  intro builder
  rw [bind_apply]
  split
  next answer _ => exact (first builder).trans (second answer _)
  next => exact first builder

theorem map {step : Build α} (lengthening : Lengthening step) (f : α → β) : Lengthening (f <$> step) := by
  intro builder
  rw [map_apply]
  exact lengthening builder

theorem pure (answer : α) : Lengthening (pure answer : Build α) := fun builder => .refl builder.model

theorem ask (question : List Scope → Except Violation α) : Lengthening (ask question) :=
  fun builder => .refl builder.model

theorem enter (scope : Scope) : Lengthening (enter scope) := fun builder => .refl builder.model

theorem setScopes (scopes : List Scope) : Lengthening (setScopes scopes) := fun builder => .refl builder.model

theorem edit {change : Model → α × Model} (lengthens : ∀ model : Model, model.Lengthens (change model).2) :
    Lengthening (edit change) :=
  fun builder => lengthens builder.model

theorem attempt {change : Model → Except Fault α × Model} (lengthens : ∀ model : Model, model.Lengthens (change model).2) :
    Lengthening (attempt change) :=
  fun builder => lengthens builder.model

theorem update {change : Model → Model} (lengthens : ∀ model : Model, model.Lengthens (change model)) :
    Lengthening (update change) :=
  fun builder => lengthens builder.model

end Lengthening

section Steps

theorem fillType_lengthening {id : TypeId} {change : TypeNode → TypeNode}
    (members : ∀ node, (change node).members = node.members) (usages : ∀ node, (change node).usages = node.usages) :
    Lengthening (update (·.modifyType id change)) :=
  .update fun _ => .modifyType members fun node => (usages node).symm ▸ List.prefix_rfl

theorem fillMember_lengthening {id : MemberId} {change : MemberNode → MemberNode}
    (usages : ∀ node, (change node).usages = node.usages) : Lengthening (update (·.modifyMember id change)) :=
  .update fun _ => .modifyMember fun node => (usages node).symm ▸ List.prefix_rfl

theorem startAssembly_lengthening (key : AssemblyKey) (isDependency : Bool) :
    Lengthening (startAssembly key isDependency) :=
  .bind (.ask _) fun _ => .bind (.edit fun model => .ensureAssembly model key) fun _ =>
    .bind (.update fun _ => .modifyAssembly fun _ => rfl) fun _ => .bind (.enter _) fun _ => .pure _

theorem startSpace_lengthening (key : NamespaceKey) : Lengthening (startSpace key) :=
  .bind (.ask _) fun _ => .bind (.edit fun model => .ensureSpace model key) fun _ =>
    .bind (.enter _) fun _ => .pure _

theorem startType_lengthening (key : TypeKey) (signatureOnly : Bool) : Lengthening (startType key signatureOnly) :=
  .bind (.ask _) fun _ => .bind (.edit fun model => .ensureType model key) fun _ =>
    .bind (fillType_lengthening (fun _ => rfl) fun _ => rfl) fun _ => .bind (.enter _) fun _ => .pure _

theorem startMember_lengthening (kind : MemberKind) (key : MemberKey) (signatureOnly : Bool) :
    Lengthening (startMember kind key signatureOnly) :=
  .bind (.ask _) fun _ => .bind (.attempt fun model => .ensureMember model key (.member kind)) fun _ =>
    .bind (fillMember_lengthening fun _ => rfl) fun _ => .bind (.enter _) fun _ => .pure _

theorem close_lengthening (kind : ScopeKind) : Lengthening (close kind) :=
  .bind (.ask _) fun _ => .setScopes _

theorem setTypeFlags_lengthening (isInterface isAbstract : Bool) : Lengthening (setTypeFlags isInterface isAbstract) :=
  .bind (.ask _) fun _ => fillType_lengthening (fun _ => rfl) fun _ => rfl

theorem setBaseType_lengthening (key : TypeKey) : Lengthening (setBaseType key) :=
  .bind (.ask _) fun _ => .bind (.edit fun model => .ensureType model key) fun _ =>
    .bind (fillType_lengthening (fun _ => rfl) fun _ => rfl) fun _ => .pure _

theorem addInterface_lengthening (key : TypeKey) : Lengthening (addInterface key) :=
  .bind (.ask _) fun _ => .bind (.edit fun model => .ensureType model key) fun _ =>
    .bind (fillType_lengthening (fun _ => rfl) fun _ => rfl) fun _ => .pure _

theorem setPrototype_lengthening (returns : Option TypeKey) (parameters : List TypeKey) :
    Lengthening (setPrototype returns parameters) :=
  .bind (.ask _) fun _ => .bind (.edit fun model => .ensureType? model returns) fun _ =>
    .bind (.edit fun model => .ensureTypes model parameters) fun _ => fillMember_lengthening fun _ => rfl

theorem setMethodFlags_lengthening (flags : MethodFlags) : Lengthening (setMethodFlags flags) :=
  .bind (.ask _) fun _ => fillMember_lengthening fun _ => rfl

theorem setDeclaredType_lengthening (kind : MemberKind) (key : TypeKey) : Lengthening (setDeclaredType kind key) :=
  .bind (.ask _) fun _ => .bind (.edit fun model => .ensureType model key) fun _ =>
    .bind (fillMember_lengthening fun _ => rfl) fun _ => .pure _

theorem setAccessor_lengthening (slot : Slot) (owner accessor : MemberKey) :
    Lengthening (setAccessor slot owner accessor) :=
  .bind (.attempt fun model => .ensureMember model owner _) fun _ =>
    .bind (.attempt fun model => .ensureMember model accessor _) fun _ => fillMember_lengthening fun _ => rfl

theorem useType_lengthening (key : TypeKey) : Lengthening (useType key) :=
  .bind (.ask _) fun _ => .bind (.edit fun model => .ensureType model key) fun _ =>
    .update fun model => .recordUsage model _ _

theorem useNode_lengthening (key : NodeKey) : Lengthening (useNode key) :=
  .bind (.ask _) fun _ => .bind (.attempt fun model => .ensureNode model key) fun _ =>
    .update fun model => .recordUsage model _ _

theorem addAttribute_lengthening (key : TypeKey) : Lengthening (addAttribute key) :=
  .bind (.ask _) fun _ => .bind (.edit fun model => .ensureType model key) fun _ =>
    .update fun model => .recordAttribute model _ _

theorem perform_lengthening (op : Op) : Lengthening op.perform := by
  cases op with
  | startAssembly key isDependency => exact (startAssembly_lengthening key isDependency).map _
  | startSpace key => exact (startSpace_lengthening key).map _
  | startType key signatureOnly => exact (startType_lengthening key signatureOnly).map _
  | startMethod key signatureOnly => exact (startMember_lengthening .method key signatureOnly).map _
  | startField key => exact (startMember_lengthening .field key false).map _
  | startProperty key => exact (startMember_lengthening .property key false).map _
  | startEvent key => exact (startMember_lengthening .event key false).map _
  | close kind => exact (close_lengthening kind).map _
  | setTypeFlags isInterface isAbstract => exact (setTypeFlags_lengthening isInterface isAbstract).map _
  | setBaseType key => exact (setBaseType_lengthening key).map _
  | addInterface key => exact (addInterface_lengthening key).map _
  | setPrototype returns parameters => exact (setPrototype_lengthening returns parameters).map _
  | setMethodFlags flags => exact (setMethodFlags_lengthening flags).map _
  | setFieldType key => exact (setDeclaredType_lengthening .field key).map _
  | setPropertyType key => exact (setDeclaredType_lengthening .property key).map _
  | setEventType key => exact (setDeclaredType_lengthening .event key).map _
  | setAccessor slot owner accessor => exact (setAccessor_lengthening slot owner accessor).map _
  | useType key => exact (useType_lengthening key).map _
  | useNode key => exact (useNode_lengthening key).map _
  | addAttribute key => exact (addAttribute_lengthening key).map _

end Steps

theorem steps_lengthen {before after : Builder} (taken : Relation.ReflTransGen Step before after) :
    before.model.Lengthens after.model := by
  induction taken with
  | refl => exact .refl before.model
  | tail _ step ih =>
    obtain ⟨op, rfl⟩ := step
    exact ih.trans (perform_lengthening op _)

theorem visitInOrder_lengthens (builder : Builder) (module : ModuleDecl) (options : Options) (order : Order) :
    builder.model.Lengthens (builder.visitInOrder module options order .references).builder.model :=
  steps_lengthen (run_steps Scanner.references_honest (module.script options order) builder)

end Builder

end UsageGraph
