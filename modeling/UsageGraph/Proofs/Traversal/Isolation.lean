import UsageGraph.Proofs.Builder.Locality
import UsageGraph.Proofs.Traversal.Module

/-! Traversals are isolated from other assemblies.

A traversal opens the assembly of its module and then takes local steps only. An accessor
is linked after its property or event was opened, so a link with an owner in another
assembly is never reached: the traversal has failed before. Wherever a traversal ends, all
that it has changed belongs to its assembly, and elsewhere it has only added blank nodes.
-/

set_option autoImplicit false
namespace UsageGraph

variable {α β : Type} {assembly : AssemblyKey}

/-- All steps up to the first that is refused are local. -/
inductive Op.Confined (assembly : AssemblyKey) : List Op → Prop
  | nil : Confined assembly []
  | cons {op : Op} {rest : List Op} (here : op.Local assembly) (later : Confined assembly rest) :
    Confined assembly (op :: rest)
  /-- What follows a step that fails is not taken. -/
  | refused {op : Op} {rest : List Op}
    (fails : ∀ stack : Stack, stack.Inside assembly → ∃ cause, op.track stack = .error cause) :
    Confined assembly (op :: rest)

theorem Op.Confined.append {first second : List Op} (begun : Confined assembly first)
    (continued : Confined assembly second) : Confined assembly (first ++ second) := by
  induction begun with
  | nil => exact continued
  | cons here _ ih => exact .cons here ih
  | refused fails => exact .refused fails

theorem Op.Confined.of_forall {ops : List Op} (each : ∀ op ∈ ops, op.Local assembly) : Confined assembly ops := by
  induction ops with
  | nil => exact .nil
  | cons op rest ih => exact .cons (each op (by simp)) (ih fun other member => each other (by simp [member]))

theorem Op.Confined.trackAll {ops : List Op} (confined : Confined assembly ops) {stack after : Stack}
    {edits : List Edit} (inside : stack.Inside assembly) (tracked : Op.trackAll ops stack = some (edits, after)) :
    ∀ edit ∈ edits, edit.Inside assembly := by
  induction confined generalizing stack edits with
  | nil =>
    cases tracked
    simp
  | @cons op rest here _ ih =>
    unfold Op.trackAll at tracked
    split at tracked
    next made middle ended =>
      obtain ⟨⟨later, _⟩, went_on, same⟩ := Option.map_eq_some_iff.mp tracked
      cases same
      obtain ⟨first, inside'⟩ := here.track inside ended
      exact fun edit member => (List.mem_append.mp member).elim (first edit) (ih inside' went_on edit)
    next => cases tracked
  | @refused op rest fails =>
    obtain ⟨cause, failed⟩ := fails stack inside
    unfold Op.trackAll at tracked
    rw [failed] at tracked
    cases tracked

def Model.StaysIn (assembly : AssemblyKey) (before after : Model) : Prop :=
  ∃ edits, before.Becomes after edits ∧ ∀ edit ∈ edits, edit.Inside assembly

namespace Model.StaysIn

variable {first second third : Model}

theorem refl {model : Model} (formed : model.WellFormed) : model.StaysIn assembly model :=
  ⟨[], .refl formed, by simp⟩

theorem trans (begun : first.StaysIn assembly second) (continued : second.StaysIn assembly third) :
    first.StaysIn assembly third := by
  obtain ⟨edits, becomes, inside⟩ := begun
  obtain ⟨edits', becomes', inside'⟩ := continued
  refine ⟨edits ++ edits', becomes.trans becomes', ?_⟩
  intro edit member
  rcases List.mem_append.mp member with member | member
  · exact inside edit member
  · exact inside' edit member

end Model.StaysIn

namespace Builder

variable {before : Builder} (good : before.Good)
include good

/-- A step whose track is inside an assembly changes nothing elsewhere, also when it fails. -/
theorem perform_staysIn {op : Op}
    (local' : ∀ {edits after}, op.track before.stack = .ok (edits, after) → ∀ edit ∈ edits, edit.Inside assembly) :
    before.model.StaysIn assembly (op.perform before).2.model := by
  have performs := perform_performs good op
  generalize op.track before.stack = tracked at performs local'
  generalize op.perform before = ended at performs
  cases performs with
  | refused cause => exact .refl good.formed
  | @done edits stack answer after good' left admits becomes => exact ⟨edits, becomes, local' rfl⟩
  | @blocked edits stack fault after stops =>
    -- what was made before the step stopped belongs to its edits
    obtain ⟨made, part, _, becomes⟩ := stops.part
    exact ⟨made, becomes, fun edit member => local' rfl edit (part.subset member)⟩

theorem performAll_staysIn {ops : List Op} (confined : Op.Confined assembly ops)
    (inside : before.stack.Inside assembly) : before.model.StaysIn assembly (performAll ops before).2.model := by
  induction confined generalizing before with
  | nil => exact .refl good.formed
  | @cons op rest here _ ih =>
    have tracks : ∀ {edits after}, op.track before.stack = .ok (edits, after) →
        (∀ edit ∈ edits, edit.Inside assembly) ∧ after.Inside assembly := fun tracked => here.track inside tracked
    have stays := perform_staysIn good fun tracked => (tracks tracked).1
    have performs := perform_performs good op
    unfold performAll
    rw [bind_apply]
    -- a step that fails is the last one, and what it has changed is inside as well
    generalize op.track before.stack = tracked at performs tracks
    generalize op.perform before = ended at performs stays
    cases performs with
    | refused cause => exact stays
    | done answer middle good' left admits becomes => exact stays.trans (ih good' (left ▸ (tracks rfl).2))
    | blocked fault middle stops => exact stays
  | @refused op rest fails =>
    obtain ⟨cause, failed⟩ := fails before.stack inside
    have performs := perform_performs good op
    rw [failed] at performs
    unfold performAll
    rw [bind_apply]
    generalize op.perform before = ended at performs
    cases performs with
    | refused cause => exact .refl good.formed

end Builder

/-! ## Visits -/

namespace Visit

def Confined (assembly : AssemblyKey) (visit : Visit α) : Prop :=
  ∀ walk, Op.Confined assembly (Script.ops (visit walk : Script (Except Fault α × Walk)))

namespace Confined

theorem pure (answer : α) : (pure answer : Visit α).Confined assembly := fun _ => .nil

theorem bind {visit : Visit α} {next : α → Visit β} (first : visit.Confined assembly)
    (second : ∀ answer, (next answer).Confined assembly) : (visit >>= next).Confined assembly := by
  intro walk
  rw [bind_apply, Script.ops_bind]
  refine (first walk).append ?_
  split
  · exact second _ _
  · exact .nil

theorem forM {items : List α} {visit : α → Visit Unit} (each : ∀ item, (visit item).Confined assembly) :
    (items.forM visit).Confined assembly :=
  forM_induction (Confined assembly) (pure ()) (fun first second => bind first fun _ => second) fun item _ => each item

theorem emit {action : Action} (each : ∀ op ∈ action.ops, op.Local assembly) : (emit action).Confined assembly := by
  intro walk
  rw [emit_apply]
  simpa [Script.ops, Script.actions] using Op.Confined.of_forall each

theorem step {op : Op} (here : op.Local assembly) : (step op).Confined assembly :=
  emit (by simpa [Action.ops] using here)

theorem note (entry : Note) : (note entry).Confined assembly := emit (by simp [Action.ops])

theorem refused {op : Op} {next : Unit → Visit α}
    (fails : ∀ stack : Stack, stack.Inside assembly → ∃ cause, op.track stack = .error cause) :
    (Visit.step op >>= next).Confined assembly := by
  -- what would follow a step that is always refused does not matter
  intro walk
  rw [bind_apply, Script.ops_bind]
  exact .refused fails

theorem ofExcept (result : Except Fault α) : (ofExcept result).Confined assembly := fun _ => .nil

theorem claim (options : Options) (key : TypeKey) : (claim options key).Confined assembly := by
  refine bind (fun _ => .nil) fun walk => ?_
  split
  · exact pure false
  · exact bind (ofExcept _) fun entered => bind (fun _ => .nil) fun _ => pure _

theorem enterReference (reference : TypeRef) : (enterReference reference).Confined assembly :=
  bind (fun _ => .nil) fun _ => bind (ofExcept _) fun _ => bind (fun _ => .nil) fun _ => pure _

theorem leavingReference {visit : Visit α} (confined : visit.Confined assembly) :
    (leavingReference visit).Confined assembly := by
  intro walk
  unfold Visit.leavingReference
  rw [Script.ops_bind]
  exact (confined walk).append .nil

end Confined

section Parts

mutual

theorem useRef_confined (assembly : AssemblyKey) : (reference : TypeRef) → (useRef reference).Confined assembly
  | .node key arguments => by
    unfold useRef
    refine .bind (.step trivial) fun _ => ?_
    split
    · exact .pure ()
    · refine .bind (.enterReference _) fun begun => ?_
      split
      · exact .leavingReference (useRefs_confined assembly arguments)
      · exact .pure ()

theorem useRefs_confined (assembly : AssemblyKey) :
    (references : List TypeRef) → (useRefs references).Confined assembly
  | [] => .pure ()
  | reference :: rest => by
    unfold useRefs
    exact .bind (useRef_confined assembly reference) fun _ => useRefs_confined assembly rest

end

variable (options : Options)

theorem attributes_confined (keys : List TypeKey) : (attributes options keys).Confined assembly := by
  unfold attributes
  split
  · exact .forM fun key => .bind (.step trivial) fun _ => .step trivial
  · exact .pure ()

theorem body_confined (method : MethodDecl) : (body options method).Confined assembly := by
  unfold body
  split
  · refine .forM fun references => .emit ?_
    intro op member
    obtain ⟨key, _, rfl⟩ := List.mem_map.mp member
    trivial
  · exact .pure ()

theorem method_confined (declared : MethodDecl) : (method options declared).Confined assembly := by
  unfold method
  split
  · exact .bind (.step trivial) fun _ => .bind (.step trivial) fun _ => .bind (.step trivial) fun _ =>
      .bind (useRefs_confined _ _) fun _ => .bind (useRefs_confined _ _) fun _ =>
      .bind (attributes_confined options _) fun _ => .bind (body_confined options declared) fun _ =>
      .bind (.step (by simp [Op.Local])) fun _ => .pure true
  · exact .pure false

/-- An accessor is linked to a member that is open, so to one of the assembly. -/
theorem accessor_confined {owner : MemberKey} (owned : owner.owner.assembly = assembly) (slot : Slot)
    (declared : MethodDecl) : (accessor options owner slot declared).Confined assembly := by
  unfold accessor
  refine .bind (method_confined options declared) fun visited => ?_
  split
  · exact .step owned
  · exact .pure ()

/-- A member of another assembly cannot be opened, and then nothing follows. -/
theorem opening_confined {start : Op} {kind : MemberKind} {key : MemberKey} {rest : Unit → Visit Unit}
    (starts : ∀ stack, start.track stack = Op.trackMember kind key false stack) (here : start.Local assembly)
    (inner : key.owner.assembly = assembly → (rest ()).Confined assembly) :
    (Visit.step start >>= rest).Confined assembly := by
  by_cases owned : key.owner.assembly = assembly
  · exact .bind (.step here) fun _ => inner owned
  · refine .refused fun stack inside => ?_
    rw [starts, Op.trackMember]
    cases admitted : Scopes.admitMember kind key stack.scopes with
    | error cause => exact ⟨cause, rfl⟩
    | ok answer => exact absurd (inside.admitMember admitted) owned

theorem property_confined (declared : PropertyDecl) : (property options declared).Confined assembly :=
  opening_confined (fun _ => rfl) trivial fun owned => .bind (.step trivial) fun _ =>
    .bind (useRef_confined _ _) fun _ => .bind (attributes_confined options _) fun _ =>
    .bind (.forM (accessor_confined options owned .getter)) fun _ =>
    .bind (.forM (accessor_confined options owned .setter)) fun _ => .step (by simp [Op.Local])

theorem event_confined (declared : EventDecl) : (event options declared).Confined assembly :=
  opening_confined (fun _ => rfl) trivial fun owned => .bind (.step trivial) fun _ =>
    .bind (useRef_confined _ _) fun _ => .bind (attributes_confined options _) fun _ =>
    .bind (.forM (accessor_confined options owned .adder)) fun _ =>
    .bind (.forM (accessor_confined options owned .remover)) fun _ => .step (by simp [Op.Local])

theorem field_confined (declared : FieldDecl) : (field options declared).Confined assembly :=
  .bind (.step trivial) fun _ => .bind (.step trivial) fun _ => .bind (useRef_confined _ _) fun _ =>
    .bind (attributes_confined options _) fun _ => .step (by simp [Op.Local])

theorem dataMembers_confined (definition : Definition) : (dataMembers options definition).Confined assembly := by
  unfold dataMembers
  split
  · exact .bind (.forM (property_confined options)) fun _ => .bind (.forM (field_confined options)) fun _ =>
      .forM (event_confined options)
  · exact .pure ()

theorem methods_confined (definition : Definition) : (methods options definition).Confined assembly :=
  .bind (.forM fun _ => .bind (method_confined options _) fun _ => .pure ()) fun _ =>
    .forM fun _ => .bind (method_confined options _) fun _ => .pure ()

theorem phase_confined (module : ModuleDecl) {visit : TypeDecl → Visit Unit}
    (inner : ∀ type, (visit type).Confined assembly) (type : TypeDecl) (part : Phase) :
    (phase module options visit type part).Confined assembly := by
  have andGoOn : ∀ {visit : Visit Unit}, visit.Confined assembly → (do visit; return true).Confined assembly :=
    fun confined => .bind confined fun _ => .pure true
  cases part with
  | claim => exact .bind (.claim options _) fun granted => .bind (.note _) fun _ => .pure granted
  | supertypes => exact .bind (.note _) fun _ => andGoOn (.forM inner)
  | openType => exact andGoOn (.bind (.step trivial) fun _ => .bind (.step trivial) fun _ => .step trivial)
  | interfaces => exact andGoOn (.forM fun _ => .bind (.step trivial) fun _ => useRef_confined _ _)
  | generics => exact andGoOn (.forM fun _ => .bind (.step trivial) fun _ => useRefs_confined _ _)
  | attributes => exact andGoOn (attributes_confined options _)
  | base => exact andGoOn (.forM fun _ => .bind (.step trivial) fun _ => useRef_confined _ _)
  | dataMembers => exact andGoOn (dataMembers_confined options _)
  | methods => exact andGoOn (methods_confined options _)
  | nested => exact andGoOn (.forM inner)
  | closeType => exact andGoOn (.bind (.step (by simp [Op.Local])) fun _ => .step (by simp [Op.Local]))
  | complete => exact .bind (fun _ => .nil) fun _ => .bind (fun _ => .nil) fun _ => andGoOn (.note _)

theorem phases_confined (module : ModuleDecl) {visit : TypeDecl → Visit Unit}
    (inner : ∀ type, (visit type).Confined assembly) (type : TypeDecl) (order : Order) :
    (phases module options visit type order).Confined assembly := by
  induction order with
  | nil => exact .pure ()
  | cons first rest ih =>
    unfold phases
    refine .bind (phase_confined options module inner type first) fun goesOn => ?_
    split
    · exact ih
    · exact .pure ()

theorem type_confined (module : ModuleDecl) (order : Order) (depth : Nat) (declared : TypeDecl) :
    (type module options order depth declared).Confined assembly := by
  induction depth generalizing declared with
  | zero => exact fun _ => .nil
  | succ depth ih => exact phases_confined options module ih declared order

end Parts

theorem ops_step_bind (op : Op) (next : Unit → Visit α) (walk : Walk) :
    Script.ops ((step op >>= next) walk : Script (Except Fault α × Walk)) =
      op :: Script.ops (next () walk : Script (Except Fault α × Walk)) := by
  rw [bind_apply, Script.ops_bind]
  rfl

theorem module_ops (module : ModuleDecl) (options : Options) (order : Order) (walk : Walk) :
    ∃ inner last, Script.ops (Visit.module module options order walk : Script (Except Fault Unit × Walk)) =
        .startAssembly module.key (!options.primary) :: (inner ++ last) ∧
      Op.Confined module.key inner ∧ (last = [] ∨ last = [.close .assembly]) := by
  have confined : (module.types.forM (type module options order module.depthBound)).Confined module.key :=
    .forM (type_confined options module order module.depthBound)
  unfold Visit.module
  rw [ops_step_bind, bind_apply, Script.ops_bind]
  refine ⟨_, _, rfl, confined walk, ?_⟩
  split
  · exact .inr rfl
  · exact .inl rfl

theorem trackAll_close {last : List Op} {kind : ScopeKind} (ends : last = [] ∨ last = [.close kind])
    {stack after : Stack} {edits : List Edit} (tracked : Op.trackAll last stack = some (edits, after)) : edits = [] := by
  rcases ends with rfl | rfl
  · cases tracked
    rfl
  · simp only [Op.trackAll, Op.track] at tracked
    cases closed : Scopes.close kind stack.scopes with
    | error cause => simp [closed, Except.map] at tracked
    | ok outer => simp_all [Except.map]

theorem module_outline_inside {module : ModuleDecl} {options : Options} {order : Order} {walk : Walk}
    {course : Course Unit} (outlined : (Visit.module module options order).outline walk [] = some course) :
    ∀ edit ∈ course.edits, edit.Inside module.key := by
  obtain ⟨inner, last, steps, confined, ends⟩ := module_ops module options order walk
  unfold outline at outlined
  split at outlined
  · cases outlined
  · obtain ⟨⟨edits, stack⟩, tracked, rfl⟩ := Option.map_eq_some_iff.mp outlined
    -- the first step opens the assembly, so what follows starts inside
    have started : (Op.trackAll (inner ++ last) [.assembly module.key]).map
        (fun done => (module.openingEdits options ++ done.1, done.2)) = some (edits, stack) := by
      rw [← tracked, steps]
      rfl
    rw [Op.trackAll_append] at started
    obtain ⟨⟨more, _⟩, went_on, same⟩ := Option.map_eq_some_iff.mp started
    obtain ⟨⟨made, middle⟩, confinedly, went_on⟩ := Option.bind_eq_some_iff.mp went_on
    obtain ⟨⟨closing, _⟩, closed, same'⟩ := Option.map_eq_some_iff.mp went_on
    cases same
    cases same'
    have opening : ∀ edit ∈ module.openingEdits options, edit.Inside module.key := by
      simp [ModuleDecl.openingEdits, Edit.Inside]
    have inside := confined.trackAll (Stack.inside_single module.key) confinedly
    have nothing : closing = [] := trackAll_close ends closed
    simp only [nothing, List.append_nil, List.mem_append]
    exact fun edit member => member.elim (opening edit) (inside edit)

end Visit

theorem Edit.Inside.place {edit : Edit} (inside : edit.Inside assembly) {place : Place}
    (about : edit.place? = some place) : place.typeKey.assembly = assembly := by
  cases edit with
  | onType => cases about; exact inside
  | onMember => cases about; exact inside
  | ensureAssembly | ensureSpace | ensureType | ensureMember | openAssembly => cases about

/-- Whatever belongs to assemblies other than the given one is spared: old nodes keep all that they say, and only new
children may follow those that they list; new nodes are blank. -/
structure Model.SparesOthers (home : AssemblyKey) (before after : Model) : Prop where
  assembly : ∀ {id node}, before.assembly? id = some node → node.key ≠ home →
    ∃ spaces, node.spaces.Gains spaces (fun child => before.space? child = none) ∧
      after.assembly? id = some { node with spaces }
  space : ∀ {id node}, before.space? id = some node → node.key.assembly ≠ home →
    ∃ types, node.types.Gains types (fun child => before.type? child = none) ∧
      after.space? id = some { node with types }
  type : ∀ {id node}, before.type? id = some node → node.key.assembly ≠ home →
    ∃ members, node.members.Gains members (fun child => before.member? child = none) ∧
      after.type? id = some { node with members }
  member : ∀ {id node}, before.member? id = some node → node.key.owner.assembly ≠ home →
    after.member? id = some node
  newAssembly : ∀ {id node}, before.assembly? id = none → after.assembly? id = some node → node.key ≠ home →
    node.IsBlank
  newType : ∀ {id node}, before.type? id = none → after.type? id = some node → node.key.assembly ≠ home →
    node.IsBlank
  newMember : ∀ {id node}, before.member? id = none → after.member? id = some node →
    node.key.owner.assembly ≠ home → node.IsBlank

theorem Model.StaysIn.sparesOthers {before after : Model} (stays : before.StaysIn assembly after) :
    before.SparesOthers assembly after := by
  obtain ⟨edits, becomes, inside⟩ := stays
  have avoidsAssembly : ∀ {key : AssemblyKey}, key ≠ assembly → Edit.AvoidsAssembly key edits :=
    fun other isDependency member => other (inside _ member)
  have avoids : ∀ {place : Place}, place.typeKey.assembly ≠ assembly → Edit.Avoids place edits :=
    fun other edit member about => other ((inside edit member).place about)
  exact {
    assembly := fun held other => becomes.spares.assembly held (avoidsAssembly other)
    space := fun held _ => becomes.spares.space held
    type := fun held other => becomes.spares.type held (avoids other)
    member := fun held other => becomes.spares.member held (avoids other)
    newAssembly := fun absent held other => becomes.spares.newAssembly absent held (avoidsAssembly other)
    newType := fun absent held other => becomes.spares.newType absent held (avoids other)
    newMember := fun absent held other => becomes.spares.newMember absent held (avoids other) }

namespace Builder

theorem model_performAll_close (kind : ScopeKind) (builder : Builder) :
    (performAll [.close kind] builder).2.model = builder.model := by
  simp only [performAll, Op.perform, bind_apply, map_apply, close, ask]
  cases Scopes.close kind builder.scopes <;> rfl

theorem startAssembly_staysIn {builder : Builder} (good : builder.Good) (key : AssemblyKey) (isDependency : Bool) :
    builder.model.StaysIn key ((Op.startAssembly key isDependency).perform builder).2.model := by
  refine perform_staysIn good fun tracked => ?_
  obtain ⟨_, _, same⟩ := exists_of_map_ok tracked
  cases same
  simp [Edit.Inside]

theorem visitInOrder_staysIn {builder : Builder} (good : builder.Good) (module : ModuleDecl) (options : Options)
    (order : Order) :
    builder.model.StaysIn module.key (builder.visitInOrder module options order .references).builder.model := by
  obtain ⟨inner, last, steps, confined, ends⟩ := Visit.module_ops module options order (.start options.maxDepth)
  have ran : (builder.visitInOrder module options order .references).builder =
      (performAll (.startAssembly module.key (!options.primary) :: (inner ++ last)) builder).2 := by
    rw [← steps, ← Script.ops_map Prod.fst]
    exact (run_eq (module.script options order) builder).2
  have opened := startAssembly_staysIn good module.key (!options.primary)
  have performs := perform_performs good (.startAssembly module.key (!options.primary))
  rw [ran]
  unfold performAll
  rw [bind_apply]
  generalize tracks : (Op.startAssembly module.key (!options.primary)).track builder.stack = tracked at performs
  generalize (Op.startAssembly module.key (!options.primary)).perform builder = ended at opened performs
  cases performs with
  | refused cause => exact opened
  | blocked fault middle stops => exact opened
  | done answer middle good' left admits becomes =>
    -- the assembly is the only open scope now
    have inside : middle.stack.Inside module.key := by
      obtain ⟨_, admitted, same⟩ := exists_of_map_ok tracks
      cases same
      rw [left]
      cases outer : builder.stack with
      | nil => exact Stack.inside_single module.key
      | cons => rw [outer] at admitted; cases admitted
    have stays := opened.trans (performAll_staysIn good' confined inside)
    show builder.model.StaysIn module.key (performAll (inner ++ last) middle).2.model
    rw [performAll_append, bind_apply]
    split
    · rcases ends with rfl | rfl
      · exact stays
      · rw [model_performAll_close]
        exact stays
    · exact stays

/-- A traversal of a module, in whatever order and whether it succeeds or fails, spares all assemblies but the module's
own. -/
theorem visitInOrder_sparesOthers {builder : Builder} (reachable : builder.Reachable) (module : ModuleDecl)
    (options : Options) (order : Order) :
    builder.model.SparesOthers module.key (builder.visitInOrder module options order .references).builder.model :=
  (visitInOrder_staysIn reachable.good module options order).sparesOthers

def misled : Builder :=
  let plane : NamespaceKey := ⟨⟨"shapes"⟩, "plane"⟩
  let core : NamespaceKey := ⟨⟨"system"⟩, "core"⟩
  replay [.startSpace core, .startType { space := core, name := "Real" } false,
    .useNode (.member .method { owner := { space := plane, name := "Circle" }, name := "radius" }), .close .type,
    .close .space]

/-- The traversal has added nodes when it comes to the radius and fails. -/
theorem visitInOrder_sparesOthers_misled :
    (misled.visitInOrder .shapes .forPrimary Traversal.reflection.order .references).result =
        .error (.kindMismatch ⟨⟨⟨⟨"shapes"⟩, "plane"⟩, "Circle", 0⟩, "radius", none⟩ .method (.member .field)) ∧
      misled.model.SparesOthers ⟨"shapes"⟩
        (misled.visitInOrder .shapes .forPrimary Traversal.reflection.order .references).builder.model ∧
      misled.model ≠ (misled.visitInOrder .shapes .forPrimary Traversal.reflection.order .references).builder.model :=
  ⟨by decide +kernel, visitInOrder_sparesOthers (reachable_replay _) .shapes .forPrimary Traversal.reflection.order,
    by decide +kernel⟩

end Builder

end UsageGraph
