import UsageGraph.Proofs.Traversal.Coherence
import UsageGraph.Proofs.Traversal.Termination

/-! The limit for the depth of a traversal only decides whether it succeeds.

Two guards that differ in their limits alone give the same answer, unless the lower limit is
reached. So a visit under a lower limit does all that it does under a higher one, or it does
the first part of that and then stops because of its limit.
-/

set_option autoImplicit false
namespace UsageGraph

variable {α β : Type}

def Guard.within {κ : Type} (guard : Guard κ) (limit : Nat) : Guard κ := { guard with limit }

theorem Guard.enter_within {κ : Type} [DecidableEq κ] (guard : Guard κ) (key : κ) {limit limit' : Nat}
    (lower : limit ≤ limit') :
    (∃ begun entered, (guard.within limit).enter key = .ok (begun, within entered limit) ∧
      (guard.within limit').enter key = .ok (begun, within entered limit')) ∨
    (guard.within limit).enter key = .error (.recursionLimit limit) := by
  by_cases held : key ∈ guard.stack
  · exact .inl ⟨false, guard, enter_of_mem held, enter_of_mem held⟩
  · have entered (limit : Nat) : (guard.within limit).enter key =
        if guard.depth < limit then .ok (true, (guard.hold key).within limit) else .error (.recursionLimit limit) :=
      enter_of_fresh held
    by_cases room : guard.depth < limit
    · have roomy : guard.depth < limit' := Nat.lt_of_lt_of_le room lower
      exact .inl ⟨true, guard.hold key, (entered limit).trans (if_pos room), (entered limit').trans (if_pos roomy)⟩
    · exact .inr ((entered limit).trans (if_neg room))

def Walk.within (walk : Walk) (limit : Nat) : Walk :=
  { walk with definitions := walk.definitions.within limit, references := walk.references.within limit }

namespace Visit

structure Agrees (limit limit' : Nat) (visit : Visit α) (walk : Walk) : Prop where
  actions : visit.actions (walk.within limit') = visit.actions (walk.within limit)
  ending : ∃ result later, visit.ending (walk.within limit) = (result, Walk.within later limit) ∧
    visit.ending (walk.within limit') = (result, Walk.within later limit')

/-- A visit is stopped by the lower limit, after the first part of what it does under the higher one. -/
structure CutShort (limit limit' : Nat) (visit : Visit α) (walk : Walk) : Prop where
  fault : (visit.ending (walk.within limit)).1 = .error (.recursionLimit limit)
  actions : visit.actions (walk.within limit) <+: visit.actions (walk.within limit')

section Answers

variable {limit limit' : Nat} {visit : Visit α} {walk : Walk} (later : Walk)

theorem Agrees.of_done {result : Except Fault α}
    (ended : visit (walk.within limit) = Script.done (result, later.within limit))
    (ended' : visit (walk.within limit') = Script.done (result, later.within limit')) :
    visit.Agrees limit limit' walk := by
  refine ⟨?_, result, later, congrArg Script.answer ended, congrArg Script.answer ended'⟩
  exact (congrArg Script.actions ended').trans (congrArg Script.actions ended).symm

theorem CutShort.of_done
    (ended : visit (walk.within limit) = Script.done (.error (.recursionLimit limit), later.within limit)) :
    visit.CutShort limit limit' walk := by
  refine ⟨congrArg Prod.fst (congrArg Script.answer ended), ?_⟩
  have nothing : visit.actions (walk.within limit) = [] := congrArg Script.actions ended
  rw [nothing]
  exact List.nil_prefix

end Answers

/-- From every walk, the lower limit stops a visit or makes no difference. -/
def Scales (limit limit' : Nat) (visit : Visit α) : Prop :=
  ∀ walk, visit.Agrees limit limit' walk ∨ visit.CutShort limit limit' walk

theorem actions_prefix_bind (visit : Visit α) (next : α → Visit β) (walk : Walk) :
    visit.actions walk <+: (visit >>= next).actions walk := by
  cases ended : visit.ending walk with
  | mk result later =>
    cases result with
    | ok answer =>
      rw [actions_bind_of_ok ended]
      exact List.prefix_append _ _
    | error fault => exact (actions_bind_of_error ended).symm ▸ List.prefix_rfl

namespace Scales

variable {limit limit' : Nat}

theorem pure (answer : α) : (pure answer : Visit α).Scales limit limit' := fun walk => .inl (.of_done walk rfl rfl)

theorem emit (action : Action) : (emit action).Scales limit limit' :=
  fun walk => .inl ⟨rfl, .ok (), walk, rfl, rfl⟩

theorem bind {visit : Visit α} {next : α → Visit β} (first : visit.Scales limit limit')
    (second : ∀ answer, (next answer).Scales limit limit') : (visit >>= next).Scales limit limit' := by
  intro walk
  rcases first walk with ⟨acted, result, later, ended, ended'⟩ | ⟨stopped, begins⟩
  · cases result with
    | error fault =>
      refine .inl ⟨?_, .error fault, later, ending_bind_of_error ended, ending_bind_of_error ended'⟩
      rw [actions_bind_of_error ended, actions_bind_of_error ended', acted]
    | ok answer =>
      rcases second answer later with ⟨acted', result, last, ends, ends'⟩ | ⟨stopped, begins⟩
      · refine .inl ⟨?_, result, last, (ending_bind_of_ok ended).trans ends, (ending_bind_of_ok ended').trans ends'⟩
        rw [actions_bind_of_ok ended, actions_bind_of_ok ended', acted, acted']
      · refine .inr ⟨by rw [ending_bind_of_ok ended, stopped], ?_⟩
        rw [actions_bind_of_ok ended, actions_bind_of_ok ended', acted]
        exact (List.prefix_append_right_inj _).mpr begins
  · -- only under the higher limit can anything follow
    have ended : visit.ending (walk.within limit) = (.error (.recursionLimit limit), _) := Prod.ext stopped rfl
    refine .inr ⟨by rw [ending_bind_of_error ended], ?_⟩
    rw [actions_bind_of_error ended]
    exact begins.trans (actions_prefix_bind visit next _)

theorem forM {items : List α} {visit : α → Visit Unit} (each : ∀ item, (visit item).Scales limit limit') :
    (items.forM visit).Scales limit limit' :=
  forM_induction (Scales limit limit') (pure ()) (fun first second => bind first fun _ => second) fun item _ => each item

theorem enterReference (lower : limit ≤ limit') (reference : TypeRef) :
    (enterReference reference).Scales limit limit' := by
  intro walk
  rcases walk.references.enter_within reference lower with ⟨begun, references, entered, entered'⟩ | full
  · exact .inl (.of_done { walk with references } (enterReference_of_entered entered)
      (enterReference_of_entered entered'))
  · exact .inr (.of_done walk (enterReference_of_full full))

theorem leavingReference {inner : Visit Unit} (scales : inner.Scales limit limit') :
    (leavingReference inner).Scales limit limit' := by
  have acted : ∀ walk, (Visit.leavingReference inner).actions walk = inner.actions walk := fun walk =>
    (Script.actions_bind _ _).trans (List.append_nil _)
  have ended : ∀ walk, (Visit.leavingReference inner).ending walk = ((inner.ending walk).1,
      { (inner.ending walk).2 with references := (inner.ending walk).2.references.leave }) := fun walk =>
    Script.answer_bind _ _
  intro walk
  rcases scales walk with ⟨actions, result, later, ends, ends'⟩ | ⟨stopped, begins⟩
  · refine .inl ⟨by rw [acted, acted, actions], result, { later with references := later.references.leave }, ?_, ?_⟩
    · rw [ended, ends]
      rfl
    · rw [ended, ends']
      rfl
  · exact .inr ⟨by rw [ended, stopped], by rw [acted, acted]; exact begins⟩

theorem claim (lower : limit ≤ limit') (options : Options) (key : TypeKey) :
    (claim options key).Scales limit limit' := by
  intro walk
  by_cases passed : (walk.completed.contains key || !options.visitsType key) = true
  · exact .inl (.of_done walk (claim_of_passed passed) (claim_of_passed passed))
  · -- a limit has no part in whether a type is completed or allowed
    have open_within : ∀ limit,
        ¬ ((walk.within limit).completed.contains key || !options.visitsType key) = true := fun _ => passed
    rcases walk.definitions.enter_within key lower with ⟨begun, definitions, entered, entered'⟩ | full
    · exact .inl (.of_done { walk with definitions } (claim_of_entered (open_within limit) entered)
        (claim_of_entered (open_within limit') entered'))
    · exact .inr (.of_done walk (claim_of_full (open_within limit) full))

end Scales

theorem Composed.scales {allowed : Action → Prop} {visit : Visit α} (composed : visit.Composed allowed)
    {limit limit' : Nat} (lower : limit ≤ limit') : visit.Scales limit limit' := by
  induction composed with
  | pure answer => exact .pure answer
  | emit _ => exact .emit _
  | bind _ _ first second => exact .bind first second
  | following _ reference inner =>
    refine .bind (.enterReference lower reference) fun begun => ?_
    split
    · exact .leavingReference inner
    · exact .pure ()

section Types

variable {limit limit' : Nat} (lower : limit ≤ limit') (module : ModuleDecl) (options : Options)
include lower

theorem phase_scales {visit : TypeDecl → Visit Unit} (inner : ∀ next, (visit next).Scales limit limit')
    (type : TypeDecl) (part : Phase) : (phase module options visit type part).Scales limit limit' := by
  cases own : part.isOwn with
  | true =>
    obtain ⟨content, composed, same⟩ := phase_composed module options type own
    rw [same]
    exact .bind (composed.scales lower) fun _ => .pure true
  | false =>
    cases part with
    | claim => exact .bind (.claim lower options _) fun granted => .bind (.emit _) fun _ => .pure granted
    | supertypes => exact .bind (.emit _) fun _ => .bind (.forM inner) fun _ => .pure true
    | nested => exact .bind (.forM inner) fun _ => .pure true
    | complete =>
      -- the count in the note is that of the completed types, which limits do not touch
      exact fun walk => .inl ⟨rfl, .ok true,
        { walk with
          definitions := walk.definitions.leave, completed := walk.completed.insert type.label.key }, rfl, rfl⟩
    | openType | interfaces | generics | attributes | base | dataMembers | methods | closeType => cases own

theorem phases_scale {visit : TypeDecl → Visit Unit} (inner : ∀ next, (visit next).Scales limit limit')
    (type : TypeDecl) (order : Order) : (phases module options visit type order).Scales limit limit' := by
  induction order with
  | nil => exact .pure ()
  | cons first rest ih =>
    refine .bind (phase_scales lower module options inner type first) fun goesOn => ?_
    split
    · exact ih
    · exact .pure ()

theorem type_scales (order : Order) (depth : Nat) (declared : TypeDecl) :
    (type module options order depth declared).Scales limit limit' := by
  induction depth generalizing declared with
  | zero => exact fun walk => .inl (.of_done walk rfl rfl)
  | succ depth ih => exact phases_scale lower module options ih declared order

theorem module_scales (order : Order) : (Visit.module module options order).Scales limit limit' :=
  .bind (.emit _) fun _ => .bind (.forM (type_scales lower module options order _)) fun _ => .emit _

end Types

/-! ## Options that differ in their limits -/

section Options

variable (module : ModuleDecl) (options : Options) (limit : Nat)

theorem phases_of_limit (visit : TypeDecl → Visit Unit) (declared : TypeDecl) (order : Order) :
    phases module { options with maxDepth := limit } visit declared order =
      phases module options visit declared order := by
  induction order with
  | nil => rfl
  | cons first rest ih =>
    have same : phase module { options with maxDepth := limit } visit declared first =
        phase module options visit declared first := by cases first <;> rfl
    rw [phases, phases, same, ih]

theorem type_of_limit (order : Order) (depth : Nat) :
    type module { options with maxDepth := limit } order depth = type module options order depth := by
  induction depth with
  | zero => rfl
  | succ depth ih =>
    funext declared
    rw [type, type, ih, phases_of_limit]

theorem module_of_limit (order : Order) :
    Visit.module module { options with maxDepth := limit } order = Visit.module module options order := by
  rw [Visit.module, Visit.module, type_of_limit]

end Options

end Visit

/-- A script that begins another one runs to its end, or both stop at the same action. -/
theorem Script.run_of_prefix (scanner : Scanner) {script script' : Script α}
    (begins : script.actions <+: script'.actions) (builder : Builder) :
    (script.run scanner builder).result = .ok script.answer ∨
      script'.run scanner builder = script.run scanner builder := by
  induction script generalizing script' builder with
  | done answer => exact .inl rfl
  | act action rest ih =>
    cases script' with
    | done answer => cases List.prefix_nil.mp begins
    | act action' rest' =>
      obtain ⟨rfl, shorter⟩ := List.cons_prefix_cons.mp begins
      unfold run
      cases action.perform scanner builder with
      | mk result after =>
        cases result with
        | error fault => exact .inr rfl
        | ok entries =>
          rcases ih () shorter after with reached | same
          · exact .inl reached
          · exact .inr (by simp only [same])

namespace Builder

variable (builder : Builder) (module : ModuleDecl) (options : Options) (order : Order) (scanner : Scanner)

theorem visitInOrder_within {limit : Nat} (higher : options.maxDepth ≤ limit) :
    builder.visitInOrder module { options with maxDepth := limit } order scanner =
      builder.visitInOrder module options order scanner ∨
    (builder.visitInOrder module options order scanner).result = .error (.recursionLimit options.maxDepth) := by
  have narrow : module.script options order =
      Prod.fst <$> Visit.module module options order ((Walk.start 0).within options.maxDepth) := rfl
  have wide : module.script { options with maxDepth := limit } order =
      Prod.fst <$> Visit.module module options order ((Walk.start 0).within limit) := by
    rw [ModuleDecl.script, Visit.module_of_limit]
    rfl
  unfold visitInOrder
  rcases Visit.module_scales higher module options order (.start 0) with
    ⟨actions, result, later, ended, ended'⟩ | ⟨stopped, begins⟩
  · have same : module.script { options with maxDepth := limit } order = module.script options order := by
      rw [narrow, wide]
      refine Script.eq_of_actions ?_ ?_
      · rw [Script.actions_map, Script.actions_map]
        exact actions
      · rw [Script.answer_map, Script.answer_map]
        exact (congrArg Prod.fst ended').trans (congrArg Prod.fst ended).symm
    exact .inl (by rw [same])
  · have answered : (module.script options order).answer = .error (.recursionLimit options.maxDepth) := by
      rw [narrow, Script.answer_map]
      exact stopped
    have shorter : (module.script options order).actions <+:
        (module.script { options with maxDepth := limit } order).actions := by
      rw [narrow, wide, Script.actions_map, Script.actions_map]
      exact begins
    -- the shorter script comes to its end and tells the limit, or both stop at the same action
    rcases Script.run_of_prefix scanner shorter builder with reached | same
    · refine .inr ?_
      simp only [reached, answered]
      rfl
    · exact .inl (by rw [same])

/-- A traversal that succeeds has the same outcome under all higher limits. Where a higher limit does make a difference,
it is the lower one that has stopped the traversal. -/
theorem limit_only_decides_success {limit : Nat} (higher : options.maxDepth ≤ limit) :
    ((builder.visitInOrder module options order scanner).result = .ok () →
      builder.visitInOrder module { options with maxDepth := limit } order scanner =
        builder.visitInOrder module options order scanner) ∧
    (builder.visitInOrder module { options with maxDepth := limit } order scanner ≠
        builder.visitInOrder module options order scanner →
      (builder.visitInOrder module options order scanner).result = .error (.recursionLimit options.maxDepth)) := by
  have either := builder.visitInOrder_within module options order scanner higher
  constructor
  · intro ok
    refine either.resolve_right fun stopped => ?_
    cases ok.symm.trans stopped
  · exact either.resolve_left

/-- Two levels are just enough for the drafts. -/
theorem limit_only_decides_success_drafts :
    (survey.visitInOrder .drafts { maxDepth := 2 } Traversal.reflection.order .references).result = .ok () ∧
      survey.visitInOrder .drafts { maxDepth := 64 } Traversal.reflection.order .references =
        survey.visitInOrder .drafts { maxDepth := 2 } Traversal.reflection.order .references := by
  have coherent : ModuleDecl.drafts.Coherent { maxDepth := 2 } survey.model := by decide
  have ok := survey_visits coherent .reflection
  exact ⟨ok, (limit_only_decides_success survey .drafts { maxDepth := 2 } _ .references (by decide)).1 ok⟩

end Builder

end UsageGraph
