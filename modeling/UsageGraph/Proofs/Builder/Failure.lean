import UsageGraph.Proofs.Builder.Nesting

/-! Steps that fail.

A step asks the open scopes before it touches the model, and ensures what it needs before
it records anything. So a step that fails leaves the builder as it was. Only a link between
a member and its accessor needs two members: when the accessor cannot be had, the member
has been ensured already, and that is all.
-/

set_option autoImplicit false
namespace UsageGraph

namespace Builder

variable {α β : Type}

def Sure (step : Build α) : Prop := ∀ builder, ∃ answer after, step builder = (.ok answer, after)

/-- When the step fails, the builder is as it was. -/
def Traceless (step : Build α) : Prop :=
  ∀ (builder after : Builder) (fault : Fault), step builder = (.error fault, after) → after = builder

theorem sure_pure (answer : α) : Sure (pure answer : Build α) := fun _ => ⟨_, _, rfl⟩

theorem sure_edit (change : Model → α × Model) : Sure (edit change) := fun _ => ⟨_, _, rfl⟩

theorem sure_update (change : Model → Model) : Sure (update change) := fun _ => ⟨_, _, rfl⟩

theorem sure_enter (scope : Scope) : Sure (enter scope) := fun _ => ⟨_, _, rfl⟩

theorem sure_setScopes (scopes : List Scope) : Sure (setScopes scopes) := fun _ => ⟨_, _, rfl⟩

theorem Sure.bind {step : Build α} {next : α → Build β} (first : Sure step) (rest : ∀ answer, Sure (next answer)) :
    Sure (step >>= next) := by
  intro builder
  obtain ⟨answer, middle, ends⟩ := first builder
  obtain ⟨answer', after, ends'⟩ := rest answer middle
  exact ⟨answer', after, by simp only [bind_apply, ends, ends']⟩

theorem Sure.traceless {step : Build α} (sure : Sure step) : Traceless step := by
  intro builder after fault failed
  obtain ⟨answer, middle, ends⟩ := sure builder
  cases ends.symm.trans failed

theorem failed_of_map {f : α → β} {step : Build α} {builder after : Builder} {fault : Fault}
    (failed : (f <$> step) builder = (.error fault, after)) : step builder = (.error fault, after) := by
  rw [map_apply] at failed
  cases ends : step builder with
  | mk result middle =>
    rw [ends] at failed
    cases result with
    | ok answer => cases failed
    | error cause =>
      cases failed
      rfl

theorem Traceless.map {step : Build α} (traceless : Traceless step) (f : α → β) : Traceless (f <$> step) :=
  fun _ _ _ failed => traceless _ _ _ (failed_of_map failed)

theorem Traceless.ask {question : List Scope → Except Violation α} {next : α → Build β}
    (rest : ∀ answer, Traceless (next answer)) : Traceless (Builder.ask question >>= next) := by
  -- a question changes nothing, so a trace could only be left by what follows
  intro builder after fault failed
  rw [bind_apply] at failed
  simp only [Builder.ask] at failed
  cases asked : question builder.scopes with
  | ok answer =>
    rw [asked] at failed
    exact rest answer _ _ _ failed
  | error cause =>
    rw [asked] at failed
    cases failed
    rfl

theorem Traceless.ask_sure {question : List Scope → Except Violation α} {next : α → Build β}
    (rest : ∀ answer, Sure (next answer)) : Traceless (Builder.ask question >>= next) :=
  .ask fun answer => (rest answer).traceless

theorem Traceless.bind {step : Build α} {next : α → Build β} (first : Traceless step)
    (rest : ∀ answer, Sure (next answer)) : Traceless (step >>= next) := by
  -- only the first part can have failed, and it has left no trace
  intro builder after fault failed
  rw [bind_apply] at failed
  cases ends : step builder with
  | mk result middle =>
    rw [ends] at failed
    cases result with
    | ok answer =>
      obtain ⟨answer', after', ends'⟩ := rest answer middle
      cases ends'.symm.trans failed
    | error cause =>
      cases failed
      exact first _ _ _ ends

/-- A member that cannot be had is of another kind, so its declaring type is there already. -/
theorem ensureMember_traceless (key : MemberKey) (kind : MemberKind) :
    Traceless (attempt (·.ensureMember key (.member kind))) := by
  intro builder after fault failed
  simp only [attempt, Model.ensureMember] at failed
  cases listed : (builder.model.ensureType key.owner).2.listedMember? (builder.model.ensureType key.owner).1 key with
  | some node =>
    rw [listed] at failed
    dsimp only at failed
    have same := Model.ensureType_unchanged_of_listed listed
    split at failed
    · cases failed
    · cases failed
      rw [same]
  | none =>
    rw [listed] at failed
    cases failed

theorem ensureNode_traceless (key : NodeKey) : Traceless (attempt (·.ensureNode key)) := by
  cases key with
  | type key => exact Sure.traceless fun _ => ⟨_, _, rfl⟩
  | member kind key =>
    have same : attempt (·.ensureNode (.member kind key)) =
        NodeRef.member <$> attempt (·.ensureMember key (.member kind)) := by
      funext builder
      rw [map_apply]
      rfl
    rw [same]
    exact (ensureMember_traceless key kind).map _

theorem startMember_traceless (kind : MemberKind) (key : MemberKey) (signatureOnly : Bool) :
    Traceless (startMember kind key signatureOnly) :=
  .ask fun _ => (ensureMember_traceless key kind).bind fun _ =>
    (sure_update _).bind fun _ => (sure_enter _).bind fun _ => sure_pure _

theorem setDeclaredType_traceless (kind : MemberKind) (key : TypeKey) : Traceless (setDeclaredType kind key) :=
  .ask_sure fun _ => (sure_edit _).bind fun _ => (sure_update _).bind fun _ => sure_pure _

theorem perform_traceless {op : Op} (unlinking : ∀ slot owner accessor, op ≠ .setAccessor slot owner accessor) :
    Traceless op.perform := by
  -- a step asks first, and of what it does then only ensuring a member can fail, which comes before any change
  cases op with
  | startAssembly key isDependency =>
    refine Traceless.map (.ask_sure fun _ => ?_) _
    exact (sure_edit _).bind fun _ => (sure_update _).bind fun _ => (sure_enter _).bind fun _ => sure_pure _
  | startSpace key =>
    refine Traceless.map (.ask_sure fun _ => ?_) _
    exact (sure_edit _).bind fun _ => (sure_enter _).bind fun _ => sure_pure _
  | startType key signatureOnly =>
    refine Traceless.map (.ask_sure fun _ => ?_) _
    exact (sure_edit _).bind fun _ => (sure_update _).bind fun _ => (sure_enter _).bind fun _ => sure_pure _
  | startMethod key signatureOnly => exact (startMember_traceless .method key signatureOnly).map _
  | startField key => exact (startMember_traceless .field key false).map _
  | startProperty key => exact (startMember_traceless .property key false).map _
  | startEvent key => exact (startMember_traceless .event key false).map _
  | close kind => exact Traceless.map (.ask_sure fun _ => sure_setScopes _) _
  | setTypeFlags isInterface isAbstract => exact Traceless.map (.ask_sure fun _ => sure_update _) _
  | setBaseType key =>
    refine Traceless.map (.ask_sure fun _ => ?_) _
    exact (sure_edit _).bind fun _ => (sure_update _).bind fun _ => sure_pure _
  | addInterface key =>
    refine Traceless.map (.ask_sure fun _ => ?_) _
    exact (sure_edit _).bind fun _ => (sure_update _).bind fun _ => sure_pure _
  | setPrototype returns parameters =>
    refine Traceless.map (.ask_sure fun _ => ?_) _
    exact (sure_edit _).bind fun _ => (sure_edit _).bind fun _ => sure_update _
  | setMethodFlags flags => exact Traceless.map (.ask_sure fun _ => sure_update _) _
  | setFieldType key => exact (setDeclaredType_traceless .field key).map _
  | setPropertyType key => exact (setDeclaredType_traceless .property key).map _
  | setEventType key => exact (setDeclaredType_traceless .event key).map _
  | setAccessor slot owner accessor => exact absurd rfl (unlinking slot owner accessor)
  | useType key => exact Traceless.map (.ask_sure fun _ => (sure_edit _).bind fun _ => sure_update _) _
  | useNode key => exact Traceless.map (.ask fun _ => (ensureNode_traceless key).bind fun _ => sure_update _) _
  | addAttribute key => exact Traceless.map (.ask_sure fun _ => (sure_edit _).bind fun _ => sure_update _) _

theorem setAccessor_failed {slot : Slot} {owner accessor : MemberKey} {builder after : Builder} {fault : Fault}
    (failed : (Op.setAccessor slot owner accessor).perform builder = (.error fault, after)) :
    after = { builder with model := (builder.model.ensureMember owner (.member slot.ownerKind)).2 } := by
  have begun := failed_of_map failed
  rw [setAccessor, bind_apply] at begun
  simp only [attempt] at begun
  split at begun
  next id ensured =>
    -- the member is there; what comes next leaves no trace of its own
    have rest : Traceless (do
        let method ← attempt (·.ensureMember accessor (.member .method))
        update (·.modifyMember id fun node => { node with detail := node.detail.setAccessor slot method })) :=
      (ensureMember_traceless accessor .method).bind fun _ => sure_update _
    exact rest _ _ _ begun
  next cause refused =>
    cases begun
    rfl

/-- All that a failed step may have done is to ensure a member for an accessor. -/
theorem perform_failed {op : Op} {builder after : Builder} {fault : Fault}
    (failed : op.perform builder = (.error fault, after)) :
    after = builder ∨ ∃ slot owner accessor, op = .setAccessor slot owner accessor ∧
      after = { builder with model := (builder.model.ensureMember owner (.member slot.ownerKind)).2 } := by
  by_cases linking : ∃ slot owner accessor, op = .setAccessor slot owner accessor
  · obtain ⟨slot, owner, accessor, rfl⟩ := linking
    exact .inr ⟨slot, owner, accessor, rfl, setAccessor_failed failed⟩
  · have unlinking : ∀ slot owner accessor, op ≠ .setAccessor slot owner accessor :=
      fun slot owner accessor same => linking ⟨slot, owner, accessor, same⟩
    exact .inl (perform_traceless unlinking _ _ _ failed)

end Builder

/-! ## What is left -/

namespace Model

def accessorOf? (model : Model) (key : MemberKey) (slot : Slot) : Option MemberId :=
  (model.findMember? key).bind fun node => node.detail.accessor? slot

section Later

variable {before after : Model} (formed : before.WellFormed)
include formed

theorem Becomes.ensured_of_new {edits : List Edit} (becomes : before.Becomes after edits)
    (admits : before.view.Admits edits) {id : MemberId} {node : MemberNode} (absent : before.member? id = none)
    (held : after.member? id = some node) : .ensureMember node.kind node.key ∈ edits := by
  have known := (becomes.formed.view_kinds_eq_some_iff node.key node.kind).mpr ⟨id, node, held, rfl, rfl⟩
  rw [becomes.view, View.kinds_applyAll admits, formed.view_kinds_eq_some_iff] at known
  rcases known with ⟨other, old, held', named, _⟩ | ensured
  · obtain ⟨later, at_later, _, same, _⟩ := becomes.grows.member held'
    obtain rfl := becomes.formed.members_indexed.unique at_later held (same.trans named)
    simp [absent] at held'
  · exact ensured

theorem Spares.accessorOf?_eq (spares : before.Spares after []) (formed' : after.WellFormed) (key : MemberKey)
    (slot : Slot) : after.accessorOf? key slot = before.accessorOf? key slot := by
  have avoids : ∀ key, Edit.Avoids (.member key) [] := by simp [Edit.Avoids]
  unfold accessorOf?
  cases found : before.findMember? key with
  | some node =>
    obtain ⟨held, rfl⟩ := (formed.findMember?_eq_some_iff key node).mp found
    rw [formed'.find_member (spares.member held (avoids _))]
  | none =>
    cases found' : after.findMember? key with
    | none => rfl
    | some node =>
      obtain ⟨held, rfl⟩ := (formed'.findMember?_eq_some_iff key node).mp found'
      cases held' : before.member? node.id with
      | some old =>
        obtain rfl := Option.some.inj ((spares.member held' (avoids _)).symm.trans held)
        cases found.symm.trans (formed.find_member held')
      | none =>
        -- a new member is blank and so has no accessors either
        have blank := congrArg MemberNode.detail (spares.newMember held' held (avoids _))
        simp [blank]

end Later

end Model

namespace Builder

/-- What a failed step has left: nothing, or a blank member that it was to link with its accessor. -/
structure LeavesNoTrace (before after : Builder) (op : Op) : Prop where
  scopes : after.scopes = before.scopes
  model : after.model = before.model ∨ ∃ slot owner accessor, op = .setAccessor slot owner accessor ∧
    after.model = (before.model.ensureMember owner (.member slot.ownerKind)).2 ∧
    ∀ slot, after.model.accessorOf? owner slot = before.model.accessorOf? owner slot
  /-- Old nodes keep their content and new ones have none. -/
  content : before.model.Spares after.model []
  methods : ∀ {id node}, before.model.member? id = none → after.model.member? id = some node → node.isMethod = false

theorem LeavesNoTrace.refl (builder : Builder) (op : Op) : builder.LeavesNoTrace builder op where
  scopes := rfl
  model := .inl rfl
  content := .refl builder.model []
  methods absent held := by simp [absent] at held

theorem ownerKind_ne_method (slot : Slot) : slot.ownerKind ≠ .method := by
  cases slot <;> decide

theorem ensureMember_leavesNoTrace {builder : Builder} (good : builder.Good) (slot : Slot) (owner accessor : MemberKey) :
    builder.LeavesNoTrace { builder with model := (builder.model.ensureMember owner (.member slot.ownerKind)).2 }
      (.setAccessor slot owner accessor) := by
  rcases Model.ensureMember_becomes good.formed slot.ownerKind owner with
    ⟨allowed, id, node, _, _, _, _, becomes⟩ | ⟨_, found, refused⟩
  · have spares := becomes.spares.of_ensured rfl (by simp) []
    refine ⟨rfl, .inr ⟨slot, owner, accessor, rfl, rfl, spares.accessorOf?_eq good.formed becomes.formed owner⟩,
      spares, ?_⟩
    intro id node absent held
    have ensured := becomes.ensured_of_new good.formed ⟨allowed, trivial⟩ absent held
    obtain ⟨kinded, _⟩ : node.kind = slot.ownerKind ∧ node.key = owner := by simpa using ensured
    simp [MemberNode.isMethod, kinded, ownerKind_ne_method]
  · rw [refused]
    exact .refl builder _

theorem failure_leaves_no_trace {builder after : Builder} {op : Op} {fault : Fault} (reached : builder.Reachable)
    (failed : op.perform builder = (.error fault, after)) : builder.LeavesNoTrace after op := by
  rcases perform_failed failed with rfl | ⟨slot, owner, accessor, rfl, rfl⟩
  · exact .refl after op
  · exact ensureMember_leavesNoTrace reached.good slot owner accessor

/-- A property cannot raise an event: the event is there afterwards, blank, and nothing else is new. -/
theorem failure_leaves_no_trace_measuring :
    let circle : TypeKey := { space := ⟨⟨"shapes"⟩, "plane"⟩, name := "Circle" }
    let link : Op := .setAccessor .adder ⟨circle, "resized", none⟩ ⟨circle, "area", none⟩
    (∃ fault, (link.perform measuring).1 = .error fault) ∧
      (link.perform measuring).2.model.members.size = measuring.model.members.size + 1 ∧
      measuring.LeavesNoTrace (link.perform measuring).2 link := by
  intro circle link
  have refused : (link.perform measuring).1 = .error (.kindMismatch ⟨circle, "area", none⟩ .property (.member .method)) := by
    decide
  exact ⟨⟨_, refused⟩, by decide, failure_leaves_no_trace (reachable_replay _) (Prod.ext refused rfl)⟩

end Builder

end UsageGraph
