import UsageGraph.Traversal

/-! The parts of a type leave both guards alone.

A visit is told by its actions and by how it ends: with an answer or a fault, and with a
walk. Visits of attributes, references and members are composed of plain actions and of
references that are followed. So they come back to the walk from which they started, also
when they stop, and what they do does not depend on the types in progress.
-/

set_option autoImplicit false
namespace UsageGraph

variable {α β : Type}

theorem Script.eq_of_actions {first second : Script α} (actions : first.actions = second.actions)
    (answer : first.answer = second.answer) : first = second := by
  induction first generalizing second with
  | done answer =>
    cases second with
    | done other => exact congrArg _ answer
    | act action rest => cases actions
  | act action rest ih =>
    cases second with
    | done other => cases actions
    | act action' rest' =>
      obtain ⟨rfl, later⟩ := List.cons.inj actions
      rw [show rest = rest' from funext fun _ => ih () later answer]

namespace Visit

/-- How a visit ends, if no action fails: with an answer or a fault of its own, and with a walk. -/
def ending (visit : Visit α) (walk : Walk) : Except Fault α × Walk :=
  Script.answer (visit walk : Script (Except Fault α × Walk))

def actions (visit : Visit α) (walk : Walk) : List Action :=
  Script.actions (visit walk : Script (Except Fault α × Walk))

@[simp] theorem actions_pure (answer : α) (walk : Walk) : (pure answer : Visit α).actions walk = [] := rfl
@[simp] theorem actions_emit (action : Action) (walk : Walk) : (emit action).actions walk = [action] := rfl

section Bind

variable {visit : Visit α} {next : α → Visit β} {walk later : Walk}

theorem ending_bind_of_ok {answer : α} (ended : visit.ending walk = (.ok answer, later)) :
    (visit >>= next).ending walk = (next answer).ending later := by
  unfold ending at ended ⊢
  rw [bind_apply, Script.answer_bind, ended]

theorem actions_bind_of_ok {answer : α} (ended : visit.ending walk = (.ok answer, later)) :
    (visit >>= next).actions walk = visit.actions walk ++ (next answer).actions later := by
  unfold ending at ended
  unfold actions
  rw [bind_apply, Script.actions_bind, ended]

theorem ending_bind_of_error {fault : Fault} (ended : visit.ending walk = (.error fault, later)) :
    (visit >>= next).ending walk = (.error fault, later) := by
  unfold ending at ended ⊢
  rw [bind_apply, Script.answer_bind, ended]
  rfl

theorem actions_bind_of_error {fault : Fault} (ended : visit.ending walk = (.error fault, later)) :
    (visit >>= next).actions walk = visit.actions walk := by
  unfold ending at ended
  unfold actions
  rw [bind_apply, Script.actions_bind, ended]
  exact List.append_nil _

theorem bind_congr {next' : α → Visit β}
    (same : ∀ {answer later}, visit.ending walk = (.ok answer, later) → next answer later = next' answer later) :
    (visit >>= next) walk = (visit >>= next') walk := by
  cases ended : visit.ending walk with
  | mk result later =>
    cases result with
    | ok answer =>
      refine Script.eq_of_actions ?_ ?_
      · exact (actions_bind_of_ok ended).trans ((congrArg _ (congrArg _ (same ended))).trans
          (actions_bind_of_ok ended).symm)
      · exact (ending_bind_of_ok ended).trans ((congrArg _ (same ended)).trans (ending_bind_of_ok ended).symm)
    | error fault =>
      refine Script.eq_of_actions ?_ ?_
      · exact (actions_bind_of_error ended).trans (actions_bind_of_error ended).symm
      · exact (ending_bind_of_error ended).trans (ending_bind_of_error ended).symm

end Bind

end Visit

def Walk.under (walk : Walk) (limit : Nat) : Walk :=
  { walk with definitions := { walk.definitions with limit } }

namespace Visit

/-- Two visits, the second under another limit, take the same actions and end alike. -/
structure Matches (visit visit' : Visit α) (walk : Walk) (limit : Nat) : Prop where
  actions : visit'.actions (walk.under limit) = visit.actions walk
  ending : visit'.ending (walk.under limit) = ((visit.ending walk).1, (visit.ending walk).2.under limit)

namespace Matches

variable {walk : Walk} {limit : Nat}

theorem pure (answer : α) (walk : Walk) (limit : Nat) : Matches (pure answer) (pure answer) walk limit := ⟨rfl, rfl⟩

theorem emit (action : Action) (walk : Walk) (limit : Nat) : Matches (emit action) (emit action) walk limit :=
  ⟨rfl, rfl⟩

theorem bind {visit visit' : Visit α} {next next' : α → Visit β} (first : Matches visit visit' walk limit)
    (second : ∀ {answer later}, visit.ending walk = (.ok answer, later) →
      Matches (next answer) (next' answer) later limit) :
    Matches (visit >>= next) (visit' >>= next') walk limit := by
  cases ended : visit.ending walk with
  | mk result later =>
    have ended' := first.ending
    rw [ended] at ended'
    cases result with
    | ok answer =>
      obtain ⟨actions, ending⟩ := second ended
      constructor
      · rw [actions_bind_of_ok ended, actions_bind_of_ok ended', first.actions, actions]
      · rw [ending_bind_of_ok ended, ending_bind_of_ok ended', ending]
    | error fault =>
      constructor
      · rw [actions_bind_of_error ended, actions_bind_of_error ended', first.actions]
      · rw [ending_bind_of_error ended, ending_bind_of_error ended']

theorem eq {visit visit' : Visit α} (same : Matches visit visit' walk walk.definitions.limit)
    (self : Matches visit visit walk walk.definitions.limit) : visit' walk = visit walk :=
  Script.eq_of_actions same.actions (same.ending.trans self.ending.symm)

end Matches

/-- A visit that comes back to its walk, notes nothing and does not feel the limit of the types in progress. Only the
limit of references can stop it. -/
structure Quiet (visit : Visit α) : Prop where
  restores : ∀ walk, (visit.ending walk).2 = walk
  stops : ∀ {walk fault}, (visit.ending walk).1 = .error fault → fault = .recursionLimit walk.references.limit
  silent : ∀ walk entry, Action.note entry ∉ visit.actions walk
  blind : ∀ walk limit, Matches visit visit walk limit

namespace Quiet

theorem pure (answer : α) : (pure answer : Visit α).Quiet where
  restores _ := rfl
  stops := nofun
  silent := by simp
  blind := .pure answer

theorem emit {action : Action} (silent : ∀ entry, action ≠ .note entry) : (emit action).Quiet where
  restores _ := rfl
  stops := nofun
  silent walk entry := by simpa using (silent entry).symm
  blind := .emit action

theorem step (op : Op) : (step op).Quiet := emit nofun

theorem bind {visit : Visit α} {next : α → Visit β} (first : visit.Quiet) (second : ∀ answer, (next answer).Quiet) :
    (visit >>= next).Quiet := by
  -- the first visit comes back to its walk, so the second one starts where the first did
  have ended : ∀ walk, visit.ending walk = ((visit.ending walk).1, walk) := fun walk =>
    Prod.ext rfl (first.restores walk)
  constructor
  · intro walk
    cases result : (visit.ending walk).1 with
    | ok answer => rw [ending_bind_of_ok (result ▸ ended walk), (second answer).restores]
    | error fault => rw [ending_bind_of_error (result ▸ ended walk)]
  · intro walk fault failed
    cases result : (visit.ending walk).1 with
    | ok answer =>
      rw [ending_bind_of_ok (result ▸ ended walk)] at failed
      exact (second answer).stops failed
    | error fault' =>
      rw [ending_bind_of_error (result ▸ ended walk)] at failed
      cases failed
      exact first.stops result
  · intro walk entry
    cases result : (visit.ending walk).1 with
    | ok answer =>
      rw [actions_bind_of_ok (result ▸ ended walk), List.mem_append, not_or]
      exact ⟨first.silent walk entry, (second answer).silent walk entry⟩
    | error fault =>
      rw [actions_bind_of_error (result ▸ ended walk)]
      exact first.silent walk entry
  · exact fun walk limit => (first.blind walk limit).bind fun _ => (second _).blind _ limit

end Quiet

theorem enterReference_of_entered {reference : TypeRef} {walk : Walk} {begun : Bool} {references : Guard TypeRef}
    (entered : walk.references.enter reference = .ok (begun, references)) :
    enterReference reference walk = Script.done (.ok begun, { walk with references }) := by
  show (ofExcept (walk.references.enter reference) >>= _ : Visit Bool) walk = _
  rw [entered]
  rfl

theorem enterReference_of_full {reference : TypeRef} {walk : Walk} {fault : Fault}
    (full : walk.references.enter reference = .error fault) :
    enterReference reference walk = Script.done (.error fault, walk) := by
  show (ofExcept (walk.references.enter reference) >>= _ : Visit Bool) walk = _
  rw [full]
  rfl

section Following

variable {reference : TypeRef} {inner visit : Visit Unit} {walk : Walk}
    (follows : visit = do if ← enterReference reference then leavingReference inner)
include follows

theorem following_of_entered {entered : Guard TypeRef} (begun : walk.references.enter reference = .ok (true, entered)) :
    visit.actions walk = inner.actions { walk with references := entered } ∧
      visit.ending walk = ((inner.ending { walk with references := entered }).1,
        { (inner.ending { walk with references := entered }).2 with
          references := (inner.ending { walk with references := entered }).2.references.leave }) := by
  have applied : visit walk = (inner { walk with references := entered } : Script (Except Fault Unit × Walk)) >>=
      fun ended => Script.done (ended.1, { ended.2 with references := ended.2.references.leave }) := by
    rw [follows, bind_apply, enterReference_of_entered begun]
    rfl
  unfold actions ending
  rw [applied, Script.actions_bind, Script.answer_bind]
  exact ⟨List.append_nil _, rfl⟩

theorem following_of_active (passed : walk.references.enter reference = .ok (false, walk.references)) :
    visit.actions walk = [] ∧ visit.ending walk = (.ok (), walk) := by
  have applied : visit walk = Script.done (.ok (), walk) := by
    rw [follows, bind_apply, enterReference_of_entered passed]
    rfl
  unfold actions ending
  rw [applied]
  exact ⟨rfl, rfl⟩

theorem following_of_full {fault : Fault} (refused : walk.references.enter reference = .error fault) :
    visit.actions walk = [] ∧ visit.ending walk = (.error fault, walk) := by
  have applied : visit walk = Script.done (.error fault, walk) := by
    rw [follows, bind_apply, enterReference_of_full refused]
    rfl
  unfold actions ending
  rw [applied]
  exact ⟨rfl, rfl⟩

/-- Whether a reference is followed depends on the references in progress only; either way the visit comes back. -/
theorem Quiet.following_ends (quiet : inner.Quiet) (references : Guard TypeRef) :
    (∀ walk, walk.references = references → visit.actions walk = [] ∧ visit.ending walk = (.ok (), walk)) ∨
    (∀ walk, walk.references = references → visit.actions walk = [] ∧
      visit.ending walk = (.error (.recursionLimit references.limit), walk)) ∨
    ∃ entered : Guard TypeRef, entered.limit = references.limit ∧ ∀ walk, walk.references = references →
      visit.actions walk = inner.actions { walk with references := entered } ∧
      visit.ending walk = ((inner.ending { walk with references := entered }).1, walk) := by
  rcases references.enter_cases reference with ⟨_, entered⟩ | ⟨fresh, _, entered⟩ | ⟨_, _, entered⟩
  · refine .inl fun walk same => ?_
    subst same
    exact following_of_active follows entered
  · refine .inr (.inr ⟨references.hold reference, rfl, fun walk same => ?_⟩)
    subst same
    -- the arguments have left the reference on top, and it is left now
    obtain ⟨acted, ended⟩ := following_of_entered follows entered
    rw [quiet.restores, Guard.leave_hold fresh] at ended
    exact ⟨acted, ended⟩
  · refine .inr (.inl fun walk same => ?_)
    subst same
    exact following_of_full follows entered

end Following

theorem Quiet.following {inner : Visit Unit} (quiet : inner.Quiet) (reference : TypeRef) :
    (do if ← enterReference reference then leavingReference inner).Quiet := by
  generalize follows : (do if ← enterReference reference then leavingReference inner : Visit Unit) = visit
  -- the reference is passed over, or it is too deep, or it is entered: every law is read off the three cases
  have ends := Quiet.following_ends follows.symm quiet
  constructor
  · intro walk
    rcases ends walk.references with ends | ends | ⟨entered, _, ends⟩ <;> rw [(ends walk rfl).2]
  · intro walk fault failed
    rcases ends walk.references with ends | ends | ⟨entered, same, ends⟩ <;> rw [(ends walk rfl).2] at failed
    · cases failed
    · exact (Except.error.inj failed).symm
    · exact (quiet.stops failed).trans (congrArg _ same)
  · intro walk entry
    rcases ends walk.references with ends | ends | ⟨entered, _, ends⟩ <;> rw [(ends walk rfl).1]
    · simp
    · simp
    · exact quiet.silent _ entry
  · intro walk limit
    have same : (walk.under limit).references = walk.references := rfl
    rcases ends walk.references with ends | ends | ⟨entered, _, ends⟩
    · exact ⟨by rw [(ends walk rfl).1, (ends _ same).1], by rw [(ends walk rfl).2, (ends _ same).2]⟩
    · exact ⟨by rw [(ends walk rfl).1, (ends _ same).1], by rw [(ends walk rfl).2, (ends _ same).2]⟩
    · obtain ⟨actions, ending⟩ := quiet.blind { walk with references := entered } limit
      constructor
      · rw [(ends walk rfl).1, (ends _ same).1]
        exact actions
      · rw [(ends walk rfl).2, (ends _ same).2]
        have first := congrArg Prod.fst ending
        exact Prod.ext first rfl

/-! ## Composed visits -/

/-- Visits that are put together from allowed actions and from references that are followed. -/
inductive Composed (allowed : Action → Prop) : {α : Type} → Visit α → Prop
  | pure {α : Type} (answer : α) : Composed allowed (pure answer)
  | emit {action : Action} (fits : allowed action) : Composed allowed (emit action)
  | bind {α β : Type} {visit : Visit α} {next : α → Visit β} (first : Composed allowed visit)
    (second : ∀ answer, Composed allowed (next answer)) : Composed allowed (visit >>= next)
  | following {inner : Visit Unit} (composed : Composed allowed inner) (reference : TypeRef) :
    Composed allowed (do if ← enterReference reference then leavingReference inner)

namespace Composed

variable {allowed : Action → Prop}

theorem step {op : Op} (fits : allowed (.op op)) : (step op).Composed allowed := .emit fits

theorem forM {items : List α} {visit : α → Visit Unit} (each : ∀ item, (visit item).Composed allowed) :
    (items.forM visit).Composed allowed :=
  forM_induction (Composed allowed) (.pure ()) (fun first second => .bind first fun _ => second) fun item _ => each item

theorem mono {others : Action → Prop} (wider : ∀ action, allowed action → others action) {visit : Visit α}
    (composed : visit.Composed allowed) : visit.Composed others := by
  induction composed with
  | pure answer => exact .pure answer
  | emit fits => exact .emit (wider _ fits)
  | bind _ _ first second => exact .bind first second
  | following _ reference inner => exact .following inner reference

theorem quiet (silent : ∀ entry, ¬ allowed (.note entry)) {visit : Visit α} (composed : visit.Composed allowed) :
    visit.Quiet := by
  induction composed with
  | pure answer => exact .pure answer
  | emit fits => exact .emit fun entry same => silent entry (same ▸ fits)
  | bind _ _ first second => exact .bind first second
  | following _ reference inner => exact .following inner reference

end Composed

end Visit

def Action.IsPlain : Action → Prop
  | .note _ | .op (.startType _ _) | .op (.close .type) => False
  | .op _ | .scan _ => True

namespace Visit

mutual

theorem useRef_composed : (reference : TypeRef) → (useRef reference).Composed Action.IsPlain
  | .node key arguments => by
    unfold useRef
    refine .bind (.step trivial) fun _ => ?_
    split
    · exact .pure ()
    · exact .following (useRefs_composed arguments) _

theorem useRefs_composed : (references : List TypeRef) → (useRefs references).Composed Action.IsPlain
  | [] => .pure ()
  | reference :: rest => by
    unfold useRefs
    exact .bind (useRef_composed reference) fun _ => useRefs_composed rest

end

theorem useRef_quiet (reference : TypeRef) : (useRef reference).Quiet :=
  (useRef_composed reference).quiet fun _ => id

section Parts

variable (options : Options)

theorem attributes_composed (keys : List TypeKey) : (attributes options keys).Composed Action.IsPlain := by
  unfold attributes
  split
  · exact .forM fun key => .bind (.step trivial) fun _ => .step trivial
  · exact .pure ()

theorem body_composed (method : MethodDecl) : (body options method).Composed Action.IsPlain := by
  unfold body
  split
  · exact .forM fun references => .emit trivial
  · exact .pure ()

theorem method_composed (declared : MethodDecl) : (method options declared).Composed Action.IsPlain := by
  unfold method
  split
  · exact .bind (.step trivial) fun _ => .bind (.step trivial) fun _ => .bind (.step trivial) fun _ =>
      .bind (useRefs_composed _) fun _ => .bind (useRefs_composed _) fun _ =>
      .bind (attributes_composed options _) fun _ => .bind (body_composed options declared) fun _ =>
      .bind (.step trivial) fun _ => .pure true
  · exact .pure false

theorem accessor_composed (owner : MemberKey) (slot : Slot) (declared : MethodDecl) :
    (accessor options owner slot declared).Composed Action.IsPlain := by
  unfold accessor
  refine .bind (method_composed options declared) fun visited => ?_
  split
  · exact .step trivial
  · exact .pure ()

theorem property_composed (declared : PropertyDecl) : (property options declared).Composed Action.IsPlain :=
  .bind (.step trivial) fun _ => .bind (.step trivial) fun _ => .bind (useRef_composed _) fun _ =>
    .bind (attributes_composed options _) fun _ => .bind (.forM (accessor_composed options _ _)) fun _ =>
    .bind (.forM (accessor_composed options _ _)) fun _ => .step trivial

theorem event_composed (declared : EventDecl) : (event options declared).Composed Action.IsPlain :=
  .bind (.step trivial) fun _ => .bind (.step trivial) fun _ => .bind (useRef_composed _) fun _ =>
    .bind (attributes_composed options _) fun _ => .bind (.forM (accessor_composed options _ _)) fun _ =>
    .bind (.forM (accessor_composed options _ _)) fun _ => .step trivial

theorem field_composed (declared : FieldDecl) : (field options declared).Composed Action.IsPlain :=
  .bind (.step trivial) fun _ => .bind (.step trivial) fun _ => .bind (useRef_composed _) fun _ =>
    .bind (attributes_composed options _) fun _ => .step trivial

theorem dataMembers_composed (definition : Definition) : (dataMembers options definition).Composed Action.IsPlain := by
  unfold dataMembers
  split
  · exact .bind (.forM (property_composed options)) fun _ => .bind (.forM (field_composed options)) fun _ =>
      .forM (event_composed options)
  · exact .pure ()

theorem methods_composed (definition : Definition) : (methods options definition).Composed Action.IsPlain :=
  .bind (.forM fun _ => .bind (method_composed options _) fun _ => .pure ()) fun _ =>
    .forM fun _ => .bind (method_composed options _) fun _ => .pure ()

theorem interfaces_composed (definition : Definition) : (interfaces definition).Composed Action.IsPlain :=
  .forM fun _ => .bind (.step trivial) fun _ => useRef_composed _

theorem generics_composed (definition : Definition) : (generics definition).Composed Action.IsPlain :=
  .forM fun _ => .bind (.step trivial) fun _ => useRefs_composed _

theorem base_composed (definition : Definition) : (base definition).Composed Action.IsPlain :=
  .forM fun _ => .bind (.step trivial) fun _ => useRef_composed _

end Parts

end Visit

/-- The phases of a type that lead to no other type and leave it in progress. -/
def Phase.isOwn : Phase → Bool
  | .claim | .supertypes | .nested | .complete => false
  | _ => true

namespace Visit

section Phases

variable (module : ModuleDecl) (options : Options) (type : TypeDecl) {part : Phase}

theorem phase_plain (own : part.isOwn = true) (within : part ≠ .openType ∧ part ≠ .closeType) :
    ∃ content : Visit Unit, content.Composed Action.IsPlain ∧
      ∀ visit, phase module options visit type part = (do content; return true) := by
  cases part with
  | claim | supertypes | nested | complete => cases own
  | openType => exact absurd rfl within.1
  | closeType => exact absurd rfl within.2
  | interfaces => exact ⟨_, interfaces_composed _, fun _ => rfl⟩
  | generics => exact ⟨_, generics_composed _, fun _ => rfl⟩
  | attributes => exact ⟨_, attributes_composed options _, fun _ => rfl⟩
  | base => exact ⟨_, base_composed _, fun _ => rfl⟩
  | dataMembers => exact ⟨_, dataMembers_composed options _, fun _ => rfl⟩
  | methods => exact ⟨_, methods_composed options _, fun _ => rfl⟩

theorem phase_composed (own : part.isOwn = true) :
    ∃ content : Visit Unit, content.Composed (fun action => ∀ entry, action ≠ .note entry) ∧
      ∀ visit, phase module options visit type part = (do content; return true) := by
  by_cases opens : part = .openType
  · subst opens
    exact ⟨_, .bind (.step nofun) fun _ => .bind (.step nofun) fun _ => .step nofun, fun _ => rfl⟩
  by_cases closes : part = .closeType
  · subst closes
    exact ⟨_, .bind (.step nofun) fun _ => .step nofun, fun _ => rfl⟩
  obtain ⟨content, composed, same⟩ := phase_plain module options type own ⟨opens, closes⟩
  refine ⟨content, composed.mono ?_, same⟩
  rintro _ plain entry rfl
  exact plain

theorem phase_quiet (own : part.isOwn = true) : ∃ content : Visit Unit, content.Quiet ∧
    ∀ visit, phase module options visit type part = (do content; return true) := by
  obtain ⟨content, composed, same⟩ := phase_composed module options type own
  exact ⟨content, composed.quiet fun entry silent => silent entry rfl, same⟩

end Phases

end Visit

end UsageGraph
