import Mathlib.Data.List.Dedup
import UsageGraph.Proofs.Traversal.Module
import UsageGraph.Proofs.Traversal.Quiet

/-! Traversals come to an end.

The types in progress are different types of the module, since a type in progress is not
begun again. So there are never more of them than the module has type keys, however its
types refer to one another: visits are nested no deeper than that, and a guard with room
for all keys never stops one. A visit that succeeds leaves both guards as they were.
-/

set_option autoImplicit false
namespace UsageGraph

variable {α β : Type}

namespace ModuleDecl

def typeKeys (module : ModuleDecl) : List TypeKey := (module.declaredTypes.map fun type => type.label.key).dedup

structure CanHold (module : ModuleDecl) (stack : List TypeKey) : Prop where
  distinct : stack.Nodup
  known : stack ⊆ module.typeKeys

variable {module : ModuleDecl} {stack : List TypeKey}

theorem key_mem_typeKeys {type : TypeDecl} (declared : type ∈ module.declaredTypes) :
    type.label.key ∈ module.typeKeys :=
  List.mem_dedup.mpr (List.mem_map_of_mem declared)

theorem length_typeKeys_lt_depthBound (module : ModuleDecl) : module.typeKeys.length < module.depthBound := by
  have fewer := (List.dedup_sublist (module.declaredTypes.map fun type => type.label.key)).length_le
  rw [List.length_map] at fewer
  exact Nat.lt_of_le_of_lt fewer module.length_declaredTypes_lt_depthBound

namespace CanHold

theorem nil : module.CanHold [] := ⟨.nil, List.nil_subset _⟩

theorem length_le (holds : module.CanHold stack) : stack.length ≤ module.typeKeys.length :=
  (holds.distinct.subperm holds.known).length_le

theorem cons (holds : module.CanHold stack) {type : TypeDecl} (declared : type ∈ module.declaredTypes)
    (fresh : type.label.key ∉ stack) : module.CanHold (type.label.key :: stack) :=
  ⟨List.nodup_cons.mpr ⟨fresh, holds.distinct⟩, List.cons_subset.mpr ⟨key_mem_typeKeys declared, holds.known⟩⟩

theorem tail (holds : module.CanHold stack) : module.CanHold stack.tail :=
  ⟨holds.distinct.tail, fun _ member => holds.known (List.mem_of_mem_tail member)⟩

end CanHold

end ModuleDecl

/-- The types in progress after an action, as the notes tell. -/
def Action.progress (stack : List TypeKey) : Action → List TypeKey
  | .note (.claimed key true) => key :: stack
  | .note (.completed _ _) => stack.tail
  | _ => stack

def inProgress (stack : List TypeKey) (actions : List Action) : List TypeKey := actions.foldl Action.progress stack

theorem inProgress_append (stack : List TypeKey) (first second : List Action) :
    inProgress stack (first ++ second) = inProgress (inProgress stack first) second := List.foldl_append

theorem inProgress_of_silent (stack : List TypeKey) {actions : List Action}
    (silent : ∀ entry, Action.note entry ∉ actions) : inProgress stack actions = stack := by
  induction actions with
  | nil => rfl
  | cons action rest ih =>
    have same : Action.progress stack action = stack := by
      cases action with
      | op | scan => rfl
      | note entry => exact absurd List.mem_cons_self (silent entry)
    show inProgress (Action.progress stack action) rest = stack
    rw [same]
    exact ih fun entry member => silent entry (List.mem_cons_of_mem _ member)

theorem Script.actions_map (f : α → β) (script : Script α) : (f <$> script).actions = script.actions := by
  rw [map_eq_pure_bind, actions_bind]
  exact List.append_nil _

namespace Visit

/-- The notes of a visit tell which types are in progress, and these are always different types of the module. -/
structure Tracks (module : ModuleDecl) (visit : Visit α) : Prop where
  told : ∀ walk, (visit.ending walk).2.definitions.stack = inProgress walk.definitions.stack (visit.actions walk)
  held : ∀ {walk : Walk}, module.CanHold walk.definitions.stack → ∀ part, part <+: visit.actions walk →
    module.CanHold (inProgress walk.definitions.stack part)

namespace Tracks

variable {module : ModuleDecl}

theorem of_quiet {visit : Visit α} (quiet : visit.Quiet) : visit.Tracks module where
  told walk := by rw [quiet.restores, inProgress_of_silent _ (quiet.silent walk)]
  held {walk} holds part begins := by
    rw [inProgress_of_silent _ fun entry member => quiet.silent walk entry (begins.subset member)]
    exact holds

theorem of_short {visit : Visit α} (short : ∀ walk, (visit.actions walk).length ≤ 1)
    (told : ∀ walk, (visit.ending walk).2.definitions.stack = inProgress walk.definitions.stack (visit.actions walk))
    (held : ∀ {walk : Walk}, module.CanHold walk.definitions.stack →
      module.CanHold (visit.ending walk).2.definitions.stack) : visit.Tracks module where
  told := told
  held {walk} holds part begins := by
    -- either nothing has been done or everything
    rcases part with _ | ⟨action, rest⟩
    · exact holds
    · have all : action :: rest = visit.actions walk :=
        begins.eq_of_length_le (Nat.le_trans (short walk) (Nat.le_add_left 1 rest.length))
      rw [all, ← told]
      exact held holds

theorem note {entry : Note} (same : ∀ stack, Action.progress stack (.note entry) = stack) :
    (note entry).Tracks module :=
  of_short (fun _ => Nat.le_refl 1) (fun walk => (same walk.definitions.stack).symm) fun holds => holds

theorem bind {visit : Visit α} {next : α → Visit β} (first : visit.Tracks module)
    (second : ∀ answer, (next answer).Tracks module) : (visit >>= next).Tracks module := by
  constructor
  · intro walk
    cases ended : visit.ending walk with
    | mk result later =>
      have told := first.told walk
      rw [ended] at told
      cases result with
      | ok answer =>
        rw [ending_bind_of_ok ended, actions_bind_of_ok ended, inProgress_append, ← told, (second answer).told]
      | error fault => rw [ending_bind_of_error ended, actions_bind_of_error ended, ← told]
  · intro walk holds part begins
    cases ended : visit.ending walk with
    | mk result later =>
      have told := first.told walk
      rw [ended] at told
      cases result with
      | error fault =>
        rw [actions_bind_of_error ended] at begins
        exact first.held holds part begins
      | ok answer =>
        rw [actions_bind_of_ok ended] at begins
        -- a part ends within the first visit, or goes on from its end with the second one
        rcases List.prefix_or_prefix_of_prefix begins (List.prefix_append _ _) with within | ⟨rest, rfl⟩
        · exact first.held holds part within
        · have holds' := first.held holds _ List.prefix_rfl
          rw [← told] at holds'
          rw [inProgress_append, ← told]
          exact (second answer).held holds' rest ((List.prefix_append_right_inj _).mp begins)

theorem forM {items : List α} {visit : α → Visit Unit} (each : ∀ item ∈ items, (visit item).Tracks module) :
    (items.forM visit).Tracks module :=
  forM_induction (Tracks module) (of_quiet (.pure ())) (fun first second => bind first fun _ => second) each

end Tracks

/-! ## Claiming and completing -/

section Phases

variable (module : ModuleDecl) (options : Options) (visit : TypeDecl → Visit Unit) (type : TypeDecl) (walk : Walk)

def Open : Prop :=
  options.visitsType type.label.key = true ∧ type.label.key ∉ walk.completed ∧
    type.label.key ∉ walk.definitions.stack

variable {options walk} in
theorem claim_of_passed {key : TypeKey} (passed : (walk.completed.contains key || !options.visitsType key) = true) :
    claim options key walk = Script.done (.ok false, walk) := by
  show (if walk.completed.contains key || !options.visitsType key then pure false else _ : Visit Bool) walk = _
  rw [if_pos passed]
  rfl

variable {options walk} in
theorem claim_of_entered {key : TypeKey} (allowed : ¬ (walk.completed.contains key || !options.visitsType key) = true)
    {begun : Bool} {definitions : Guard TypeKey} (entered : walk.definitions.enter key = .ok (begun, definitions)) :
    claim options key walk = Script.done (.ok begun, { walk with definitions }) := by
  show (if walk.completed.contains key || !options.visitsType key then pure false else _ : Visit Bool) walk = _
  rw [if_neg allowed, entered]
  rfl

variable {options walk} in
theorem claim_of_full {key : TypeKey} (allowed : ¬ (walk.completed.contains key || !options.visitsType key) = true)
    {fault : Fault} (full : walk.definitions.enter key = .error fault) :
    claim options key walk = Script.done (.error fault, walk) := by
  show (if walk.completed.contains key || !options.visitsType key then pure false else _ : Visit Bool) walk = _
  rw [if_neg allowed, full]
  rfl

variable {options type walk} in
theorem phase_of_claimed {granted : Bool} {later : Walk}
    (claimed : claim options type.label.key walk = Script.done (.ok granted, later)) :
    phase module options visit type .claim walk =
      Script.act (.note (.claimed type.label.key granted)) fun _ => .done (.ok granted, later) := by
  show (claim options type.label.key >>= _) walk = _
  rw [bind_apply, claimed]
  rfl

variable {options type walk} in
theorem phase_of_unclaimed {fault : Fault} {later : Walk}
    (failed : claim options type.label.key walk = Script.done (.error fault, later)) :
    phase module options visit type .claim walk = Script.done (.error fault, later) := by
  show (claim options type.label.key >>= _) walk = _
  rw [bind_apply, failed]
  rfl

theorem claim_ends :
    (¬ Open options type walk ∧
      (phase module options visit type .claim).actions walk = [.note (.claimed type.label.key false)] ∧
      (phase module options visit type .claim).ending walk = (.ok false, walk)) ∨
    (Open options type walk ∧ walk.definitions.depth < walk.definitions.limit ∧
      (phase module options visit type .claim).actions walk = [.note (.claimed type.label.key true)] ∧
      (phase module options visit type .claim).ending walk = (.ok true, walk.begin type.label.key)) ∨
    (Open options type walk ∧ walk.definitions.limit ≤ walk.definitions.depth ∧
      (phase module options visit type .claim).actions walk = [] ∧
      (phase module options visit type .claim).ending walk =
        (.error (.recursionLimit walk.definitions.limit), walk)) := by
  unfold actions ending
  by_cases passed : (walk.completed.contains type.label.key || !options.visitsType type.label.key) = true
  · rw [phase_of_claimed module visit (claim_of_passed passed)]
    refine .inl ⟨?_, rfl, rfl⟩
    rintro ⟨allowed, fresh, _⟩
    simp_all
  · have allowed : options.visitsType type.label.key = true ∧ type.label.key ∉ walk.completed := by simp_all
    rcases walk.definitions.enter_cases type.label.key with
      ⟨active, entered⟩ | ⟨idle, room, entered⟩ | ⟨idle, full, entered⟩
    · rw [phase_of_claimed module visit (claim_of_entered passed entered)]
      exact .inl ⟨fun opened => opened.2.2 active, rfl, rfl⟩
    · rw [phase_of_claimed module visit (claim_of_entered passed entered)]
      exact .inr (.inl ⟨⟨allowed.1, allowed.2, idle⟩, room, rfl, rfl⟩)
    · rw [phase_of_unclaimed module visit (claim_of_full passed entered)]
      exact .inr (.inr ⟨⟨allowed.1, allowed.2, idle⟩, full, rfl, rfl⟩)

end Phases

section Tracking

variable {module : ModuleDecl} {options : Options} {visit : TypeDecl → Visit Unit} {type : TypeDecl}

theorem Tracks.claim (declared : type ∈ module.declaredTypes) :
    (phase module options visit type .claim).Tracks module := by
  have ends := claim_ends module options visit type
  refine .of_short (fun walk => ?_) (fun walk => ?_) fun {walk} holds => ?_
  · rcases ends walk with ⟨_, acted, _⟩ | ⟨_, _, acted, _⟩ | ⟨_, _, acted, _⟩ <;> simp [acted]
  · rcases ends walk with ⟨_, acted, ended⟩ | ⟨opened, _, acted, ended⟩ | ⟨_, _, acted, ended⟩ <;> rw [acted, ended]
    · rfl
    · exact Walk.stack_begin opened.2.2
    · rfl
  · rcases ends walk with ⟨_, _, ended⟩ | ⟨opened, _, _, ended⟩ | ⟨_, _, _, ended⟩ <;> rw [ended]
    · exact holds
    · rw [Walk.stack_begin opened.2.2]
      exact holds.cons declared opened.2.2
    · exact holds

theorem Tracks.complete : (phase module options visit type .complete).Tracks module :=
  .of_short (fun _ => Nat.le_refl 1) (fun _ => rfl) fun holds => holds.tail

theorem phase_tracks (declared : type ∈ module.declaredTypes)
    (inner : ∀ next ∈ module.successors type, (visit next).Tracks module) (part : Phase) :
    (phase module options visit type part).Tracks module := by
  cases own : part.isOwn with
  | true =>
    obtain ⟨content, quiet, same⟩ := phase_quiet module options type own
    rw [same]
    exact .of_quiet (quiet.bind fun _ => .pure true)
  | false =>
    cases part with
    | claim => exact .claim declared
    | complete => exact .complete
    | supertypes =>
      refine .bind (.note fun _ => rfl) fun _ => .bind (.forM fun next member => ?_) fun _ => .of_quiet (.pure true)
      exact inner next (List.mem_append_left _ member)
    | nested =>
      refine .bind (.forM fun next member => ?_) fun _ => .of_quiet (.pure true)
      exact inner next (List.mem_append_right _ member)
    | openType | interfaces | generics | attributes | base | dataMembers | methods | closeType => cases own

theorem phases_track (declared : type ∈ module.declaredTypes)
    (inner : ∀ next ∈ module.successors type, (visit next).Tracks module) (order : Order) :
    (phases module options visit type order).Tracks module := by
  induction order with
  | nil => exact .of_quiet (.pure ())
  | cons first rest ih =>
    unfold phases
    refine .bind (phase_tracks declared inner first) fun goesOn => ?_
    split
    · exact ih
    · exact .of_quiet (.pure ())

/-- However deep visits of declared types go, and in whatever order of phases, they begin declared types only. -/
theorem type_tracks (order : Order) (depth : Nat) (declared : type ∈ module.declaredTypes) :
    (Visit.type module options order depth type).Tracks module := by
  induction depth generalizing type with
  | zero => exact .of_short (fun _ => Nat.zero_le 1) (fun _ => rfl) fun holds => holds
  | succ depth ih =>
    exact phases_track declared (fun next after => ih (ModuleDecl.mem_declaredTypes_of_successor declared after)) order

end Tracking

end Visit

/-- Phases that follow a claim: none but the last ends the type. -/
inductive Phase.Ends : List Phase → Prop
  | complete : Ends [.complete]
  | own {part : Phase} {rest : List Phase} (own : part.isOwn = true) (ends : Ends rest) : Ends (part :: rest)
  | supertypes {rest : List Phase} (ends : Ends rest) : Ends (.supertypes :: rest)
  | nested {rest : List Phase} (ends : Ends rest) : Ends (.nested :: rest)

theorem Phase.Shaped.ends {inside : Bool} {parts : List Phase} (shaped : Phase.Shaped inside parts) :
    Phase.Ends parts := by
  induction shaped with
  | complete => exact .complete
  | supertypes _ ih => exact .supertypes ih
  | openType _ ih => exact .own rfl ih
  | @fill part rest fills _ ih =>
    refine .own ?_ ih
    cases part <;> first | rfl | cases fills
  | nested _ ih => exact .nested ih
  | closeType _ ih => exact .own rfl ih

namespace Visit

section Unfolding

variable (module : ModuleDecl) (options : Options) (type : TypeDecl)

theorem phases_of_phase {visit : TypeDecl → Visit Unit} {part : Phase} {content : Visit Unit}
    (same : phase module options visit type part = (do content; return true)) (rest : List Phase) :
    phases module options visit type (part :: rest) = content >>= fun _ => phases module options visit type rest := by
  rw [phases, same]
  simp

theorem phases_own {part : Phase} (own : part.isOwn = true) : ∃ content : Visit Unit, content.Quiet ∧
    ∀ visit rest, phases module options visit type (part :: rest) =
      content >>= fun _ => phases module options visit type rest := by
  obtain ⟨content, quiet, same⟩ := phase_quiet module options type own
  exact ⟨content, quiet, fun visit rest => phases_of_phase module options type (same visit) rest⟩

theorem phases_supertypes (visit : TypeDecl → Visit Unit) (rest : List Phase) :
    phases module options visit type (.supertypes :: rest) =
      note (.supertypes ((module.supertypesOf type.label).map fun supertype => supertype.label.key)) >>= fun _ =>
        (module.supertypesOf type.label).forM visit >>= fun _ => phases module options visit type rest := by
  rw [phases, phase]
  simp

theorem phases_nested (visit : TypeDecl → Visit Unit) (rest : List Phase) :
    phases module options visit type (.nested :: rest) =
      type.children.forM visit >>= fun _ => phases module options visit type rest :=
  phases_of_phase module options type rfl rest

end Unfolding

/-- A visit that succeeds leaves the types in progress as a change tells, and the references in progress as they
were. -/
def TurnsGuard (visit : Visit α) (change : Guard TypeKey → Guard TypeKey) : Prop :=
  ∀ walk answer later, visit.ending walk = (.ok answer, later) →
    later.definitions = change walk.definitions ∧ later.references = walk.references

theorem exists_of_bind_ok {visit : Visit α} {next : α → Visit β} {walk later : Walk} {answer : β}
    (ended : (visit >>= next).ending walk = (.ok answer, later)) :
    ∃ first middle, visit.ending walk = (.ok first, middle) ∧ (next first).ending middle = (.ok answer, later) := by
  cases began : visit.ending walk with
  | mk result middle =>
    cases result with
    | ok first => exact ⟨first, middle, rfl, (ending_bind_of_ok began).symm.trans ended⟩
    | error fault => cases (ending_bind_of_error began).symm.trans ended

namespace TurnsGuard

variable {change : Guard TypeKey → Guard TypeKey}

theorem of_same {visit : Visit α} (same : ∀ walk, (visit.ending walk).2 = walk) : visit.TurnsGuard id := by
  intro walk answer later ended
  have back := same walk
  rw [ended] at back
  exact back ▸ ⟨rfl, rfl⟩

theorem bind {visit : Visit α} {next : α → Visit β} (first : visit.TurnsGuard id)
    (second : ∀ answer, (next answer).TurnsGuard change) : (visit >>= next).TurnsGuard change := by
  intro walk answer later ended
  obtain ⟨begun, middle, began, went_on⟩ := exists_of_bind_ok ended
  obtain ⟨definitions, references⟩ := first walk begun middle began
  obtain ⟨definitions', references'⟩ := second begun middle answer later went_on
  exact ⟨definitions'.trans (congrArg change definitions), references'.trans references⟩

theorem forM {items : List α} {visit : α → Visit Unit} (each : ∀ item, (visit item).TurnsGuard id) :
    (items.forM visit).TurnsGuard id :=
  forM_induction (fun visit => visit.TurnsGuard id) (of_same fun _ => rfl)
    (fun first second => bind first fun _ => second) fun item _ => each item

end TurnsGuard

section Restoring

variable {module : ModuleDecl} {options : Options} {visit : TypeDecl → Visit Unit} {type : TypeDecl}

theorem phases_turnGuard (inner : ∀ next, (visit next).TurnsGuard id) {parts : List Phase} (ends : Phase.Ends parts) :
    (phases module options visit type parts).TurnsGuard Guard.leave := by
  induction ends with
  | complete =>
    intro walk answer later ended
    cases ended
    exact ⟨rfl, rfl⟩
  | own own _ ih =>
    obtain ⟨content, quiet, same⟩ := phases_own module options type own
    rw [same]
    exact .bind (.of_same quiet.restores) fun _ => ih
  | supertypes _ ih =>
    rw [phases_supertypes]
    exact .bind (.of_same fun _ => rfl) fun _ => .bind (.forM inner) fun _ => ih
  | nested _ ih =>
    rw [phases_nested]
    exact .bind (.forM inner) fun _ => ih

theorem type_turnsGuard {parts : List Phase} (ends : Phase.Ends parts) (depth : Nat) (type : TypeDecl) :
    (Visit.type module options (.claim :: parts) depth type).TurnsGuard id := by
  induction depth generalizing type with
  | zero =>
    intro walk answer later ended
    cases ended
  | succ depth ih =>
    intro walk answer later ended
    obtain ⟨granted, middle, claimed, went_on⟩ := exists_of_bind_ok ended
    rcases claim_ends module options (Visit.type module options (.claim :: parts) depth) type walk with
      ⟨_, _, passed⟩ | ⟨opened, _, _, begun⟩ | ⟨_, _, _, failed⟩
    · cases passed.symm.trans claimed
      cases went_on
      exact ⟨rfl, rfl⟩
    · -- what the claim put on top is taken off again
      cases begun.symm.trans claimed
      obtain ⟨definitions, references⟩ := phases_turnGuard ih ends _ _ _ went_on
      exact ⟨definitions.trans (Guard.leave_hold opened.2.2), references⟩
    · cases failed.symm.trans claimed

end Restoring

/-! ## Depths and limits that do not matter -/

/-- Two visits, the second under another limit, take the same actions and end alike, with none but certain faults. -/
structure Alike (allowed : Fault → Prop) (visit visit' : Visit α) (walk : Walk) (limit : Nat) : Prop
    extends Matches visit visit' walk limit where
  stops : ∀ {fault}, (visit.ending walk).1 = .error fault → allowed fault

namespace Alike

variable {allowed : Fault → Prop} {walk : Walk} {limit : Nat}

theorem pure (answer : α) : Alike allowed (pure answer) (pure answer) walk limit := ⟨.pure answer walk limit, nofun⟩

theorem bind {visit visit' : Visit α} {next next' : α → Visit β} (first : Alike allowed visit visit' walk limit)
    (second : ∀ {answer later}, visit.ending walk = (.ok answer, later) →
      Alike allowed (next answer) (next' answer) later limit) :
    Alike allowed (visit >>= next) (visit' >>= next') walk limit where
  toMatches := first.toMatches.bind fun ended => (second ended).toMatches
  stops {fault} failed := by
    cases ended : visit.ending walk with
    | mk result later =>
      cases result with
      | ok answer =>
        rw [ending_bind_of_ok ended] at failed
        exact (second ended).stops failed
      | error fault' =>
        rw [ending_bind_of_error ended] at failed
        cases failed
        exact first.stops (congrArg Prod.fst ended)

end Alike

def AlikeFrom (allowed : Fault → Prop) (walk : Walk) (limit : Nat) (visit visit' : Visit α) : Prop :=
  ∀ start : Walk, start.definitions = walk.definitions → start.references = walk.references →
    Alike allowed visit visit' start limit

namespace AlikeFrom

variable {allowed : Fault → Prop} {walk : Walk} {limit : Nat}

theorem of_quiet {visit : Visit α} (quiet : visit.Quiet) (allows : allowed (.recursionLimit walk.references.limit)) :
    AlikeFrom allowed walk limit visit visit := by
  intro start _ references
  refine ⟨quiet.blind start limit, fun failed => ?_⟩
  rw [quiet.stops failed, references]
  exact allows

/-- A visit that puts the guards back is followed by visits that start with the same guards. -/
theorem bind {visit visit' : Visit α} {next next' : α → Visit β} (first : AlikeFrom allowed walk limit visit visit')
    (back : visit.TurnsGuard id) (second : ∀ answer, AlikeFrom allowed walk limit (next answer) (next' answer)) :
    AlikeFrom allowed walk limit (visit >>= next) (visit' >>= next') := by
  intro start definitions references
  refine .bind (first start definitions references) fun {answer later} ended => ?_
  obtain ⟨definitions', references'⟩ := back start answer later ended
  exact second answer later (definitions'.trans definitions) (references'.trans references)

theorem forM {visit visit' : TypeDecl → Visit Unit} (back : ∀ next, (visit next).TurnsGuard id) {types : List TypeDecl}
    (each : ∀ next ∈ types, AlikeFrom allowed walk limit (visit next) (visit' next)) :
    AlikeFrom allowed walk limit (types.forM visit) (types.forM visit') := by
  induction types with
  | nil => exact fun _ _ _ => .pure ()
  | cons next rest ih =>
    exact bind (each next (by simp)) (back next) fun _ => ih fun other member => each other (by simp [member])

end AlikeFrom

section Settling

variable {module : ModuleDecl} {options : Options} {allowed : Fault → Prop} {limit : Nat}

theorem phases_alike {visit visit' : TypeDecl → Visit Unit} {type : TypeDecl} {walk : Walk}
    (back : ∀ next, (visit next).TurnsGuard id)
    (each : ∀ next ∈ module.successors type, AlikeFrom allowed walk limit (visit next) (visit' next))
    (allows : allowed (.recursionLimit walk.references.limit)) {parts : List Phase} (ends : Phase.Ends parts) :
    AlikeFrom allowed walk limit (phases module options visit type parts)
      (phases module options visit' type parts) := by
  -- each part puts both guards back, so that what follows starts with the same guards
  induction ends with
  | complete => exact fun _ _ _ => ⟨⟨rfl, rfl⟩, nofun⟩
  | own own _ ih =>
    obtain ⟨content, quiet, same⟩ := phases_own module options type own
    rw [same, same]
    exact .bind (.of_quiet quiet allows) (.of_same quiet.restores) fun _ => ih
  | supertypes _ ih =>
    have supertypes := fun next member => each next (List.mem_append_left _ member)
    rw [phases_supertypes, phases_supertypes]
    exact .bind (fun _ _ _ => ⟨.emit _ _ _, nofun⟩) (.of_same fun _ => rfl) fun _ =>
      .bind (.forM back supertypes) (.forM back) fun _ => ih
  | nested _ ih =>
    have children := fun next member => each next (List.mem_append_right _ member)
    rw [phases_nested, phases_nested]
    exact .bind (.forM back children) (.forM back) fun _ => ih

/-- Limits that a guard does not tell apart: they are the same or leave room for all types of the module. -/
def Fair (module : ModuleDecl) (limit limit' : Nat) : Prop :=
  limit' = limit ∨ module.typeKeys.length ≤ limit ∧ module.typeKeys.length ≤ limit'

theorem claim_matches (visit visit' : TypeDecl → Visit Unit) {type : TypeDecl} (declared : type ∈ module.declaredTypes)
    {walk : Walk} (holds : module.CanHold walk.definitions.stack) (fair : Fair module walk.definitions.limit limit) :
    Matches (phase module options visit type .claim) (phase module options visit' type .claim) walk limit := by
  -- the types in progress are different ones of the module, so an open one finds room under both limits or under none
  have few : Open options type walk → walk.definitions.depth < module.typeKeys.length :=
    fun opened => (holds.cons declared opened.2.2).length_le
  have same : Open options type (walk.under limit) ↔ Open options type walk := Iff.rfl
  have depth : (walk.under limit).definitions.depth = walk.definitions.depth := rfl
  have limited : (walk.under limit).definitions.limit = limit := rfl
  rcases claim_ends module options visit type walk with
      ⟨passed, acted, ended⟩ | ⟨opened, room, acted, ended⟩ | ⟨opened, full, acted, ended⟩ <;>
    rcases claim_ends module options visit' type (walk.under limit) with
      ⟨passed', acted', ended'⟩ | ⟨opened', room', acted', ended'⟩ | ⟨opened', full', acted', ended'⟩
  · exact ⟨by rw [acted, acted'], by rw [ended, ended']⟩
  · exact absurd (same.mp opened') passed
  · exact absurd (same.mp opened') passed
  · exact absurd (same.mpr opened) passed'
  · exact ⟨by rw [acted, acted'], by rw [ended, ended']; rfl⟩
  · have := few opened
    unfold Fair at fair
    omega
  · exact absurd (same.mpr opened) passed'
  · have := few opened
    unfold Fair at fair
    omega
  · obtain rfl : limit = walk.definitions.limit := by
      have := few opened
      unfold Fair at fair
      omega
    exact ⟨by rw [acted, acted'], by rw [ended, ended']; rfl⟩

/-- The faults that can stop visits of types: a reference may be nested too deeply, and a guard without room for all
types of the module may be full. -/
def CanStop (module : ModuleDecl) (walk : Walk) (fault : Fault) : Prop :=
  fault = .recursionLimit walk.references.limit ∨
    walk.definitions.limit < module.typeKeys.length ∧ fault = .recursionLimit walk.definitions.limit

theorem claim_alike (visit visit' : TypeDecl → Visit Unit) {type : TypeDecl} (declared : type ∈ module.declaredTypes)
    {walk : Walk} (holds : module.CanHold walk.definitions.stack) (fair : Fair module walk.definitions.limit limit) :
    AlikeFrom (CanStop module walk) walk limit (phase module options visit type .claim)
      (phase module options visit' type .claim) := by
  intro start definitions references
  rw [← definitions] at holds fair
  refine ⟨claim_matches visit visit' declared holds fair, fun {fault} failed => ?_⟩
  rcases claim_ends module options visit type start with
    ⟨_, _, ended⟩ | ⟨_, _, _, ended⟩ | ⟨opened, full, _, ended⟩ <;> rw [ended] at failed <;> cases failed
  have few := (holds.cons declared opened.2.2).length_le
  exact .inr ⟨definitions ▸ Nat.lt_of_le_of_lt full few, definitions ▸ rfl⟩

/-- Each type in progress is another one of the module, so neither depths beyond the types that are left nor fair limits
make a difference. -/
theorem type_alike {parts : List Phase} (ends : Phase.Ends parts) (depth depth' : Nat) {type : TypeDecl}
    (declared : type ∈ module.declaredTypes) {walk : Walk} (holds : module.CanHold walk.definitions.stack)
    (fair : Fair module walk.definitions.limit limit)
    (deep : module.typeKeys.length < depth + walk.definitions.depth)
    (deep' : module.typeKeys.length < depth' + walk.definitions.depth) :
    AlikeFrom (CanStop module walk) walk limit (Visit.type module options (.claim :: parts) depth type)
      (Visit.type module options (.claim :: parts) depth' type) := by
  induction depth generalizing depth' type walk with
  | zero =>
    -- without depth, more types would be in progress than the module has
    have few : walk.definitions.depth ≤ module.typeKeys.length := holds.length_le
    omega
  | succ depth ih =>
    have few : walk.definitions.depth ≤ module.typeKeys.length := holds.length_le
    obtain ⟨depth', rfl⟩ : ∃ less, depth' = less + 1 := ⟨depth' - 1, by omega⟩
    intro start definitions references
    refine .bind (claim_alike _ _ declared holds fair start definitions references) fun {granted later} ended => ?_
    rcases claim_ends module options (Visit.type module options (.claim :: parts) depth) type start with
      ⟨_, _, passed⟩ | ⟨opened, _, _, begun⟩ | ⟨_, _, _, failed⟩
    · cases passed.symm.trans ended
      exact .pure ()
    · cases begun.symm.trans ended
      -- the types that this one leads to find one more type in progress, and one less depth
      have fresh : type.label.key ∉ walk.definitions.stack := definitions ▸ opened.2.2
      have holds' : module.CanHold (walk.begin type.label.key).definitions.stack := by
        rw [Walk.stack_begin fresh]
        exact holds.cons declared fresh
      have deeper := Walk.depth_begin fresh
      have each : ∀ next ∈ module.successors type, AlikeFrom (CanStop module walk) (walk.begin type.label.key) limit
          (Visit.type module options (.claim :: parts) depth next)
          (Visit.type module options (.claim :: parts) depth' next) := fun next after =>
        ih depth' (ModuleDecl.mem_declaredTypes_of_successor declared after) holds' fair (by omega) (by omega)
      have same : (start.begin type.label.key).definitions = (walk.begin type.label.key).definitions := by
        rw [Walk.begin, Walk.begin, definitions]
      exact phases_alike (type_turnsGuard ends depth) each (.inl rfl) ends _ same references
    · cases failed.symm.trans ended

end Settling

theorem module_alike (module : ModuleDecl) (options : Options) {parts : List Phase} (ends : Phase.Ends parts)
    {limit : Nat} (fair : Fair module options.maxDepth limit) :
    Alike (CanStop module (.start options.maxDepth)) (Visit.module module options (.claim :: parts))
      (Visit.module module options (.claim :: parts)) (.start options.maxDepth) limit := by
  have types : AlikeFrom (CanStop module (.start options.maxDepth)) (.start options.maxDepth) limit
      (module.types.forM (Visit.type module options (.claim :: parts) module.depthBound))
      (module.types.forM (Visit.type module options (.claim :: parts) module.depthBound)) := by
    refine .forM (type_turnsGuard ends module.depthBound) fun type member => ?_
    exact type_alike ends _ _ (ModuleDecl.mem_declaredTypes_of_mem_types member) .nil fair
      module.length_typeKeys_lt_depthBound module.length_typeKeys_lt_depthBound
  have whole : AlikeFrom (CanStop module (.start options.maxDepth)) (.start options.maxDepth) limit
      (Visit.module module options (.claim :: parts)) (Visit.module module options (.claim :: parts)) :=
    .bind (.of_quiet (.step _) (.inl rfl)) (.of_same fun _ => rfl) fun _ =>
      .bind types (.forM (type_turnsGuard ends module.depthBound)) fun _ => .of_quiet (.step _) (.inl rfl)
  exact whole _ rfl rfl

theorem module_tracks (module : ModuleDecl) (options : Options) (order : Order) :
    (Visit.module module options order).Tracks module :=
  .bind (.of_quiet (.step _)) fun _ => .bind
    (.forM fun _ member => type_tracks order _ (ModuleDecl.mem_declaredTypes_of_mem_types member))
    fun _ => .of_quiet (.step _)

/-- Visits in an order are bounded by the module, whatever its types refer to. -/
structure Bounded (module : ModuleDecl) (options : Options) (order : Order) : Prop where
  /-- Visits are nested no deeper than there are type keys: more depth makes no difference, and it is never used up. -/
  wellFounded : ∀ type ∈ module.declaredTypes, ∀ walk : Walk, module.CanHold walk.definitions.stack →
    ∀ depth > module.typeKeys.length,
      Visit.type module options order depth type walk =
        Visit.type module options order (module.typeKeys.length + 1) type walk ∧
      ((Visit.type module options order depth type).ending walk).1 ≠ .error .endless
  /-- What the guard holds is what the notes tell. -/
  told : ∀ type ∈ module.declaredTypes, ∀ (depth : Nat) (walk : Walk),
    ((Visit.type module options order depth type).ending walk).2.definitions.stack =
      inProgress walk.definitions.stack ((Visit.type module options order depth type).actions walk)
  /-- At every moment of a traversal the types in progress are different types of the module. -/
  held : ∀ part, part <+: (module.script options order).actions →
    module.CanHold (inProgress [] part) ∧ (inProgress [] part).length ≤ module.typeKeys.length
  /-- A guard with room for all types never stops a visit, and how much more room it has makes no difference. -/
  unlimited : ∀ type ∈ module.declaredTypes, ∀ walk : Walk, module.CanHold walk.definitions.stack →
    module.typeKeys.length ≤ walk.definitions.limit → ∀ depth > module.typeKeys.length,
      (∀ fault, ((Visit.type module options order depth type).ending walk).1 = .error fault →
        fault = .recursionLimit walk.references.limit) ∧
      ∀ limit ≥ module.typeKeys.length, Matches (Visit.type module options order depth type)
        (Visit.type module options order depth type) walk limit
  /-- So does a whole traversal take the same course under all limits with room for all types. -/
  traversed : module.typeKeys.length ≤ options.maxDepth → ∀ limit ≥ module.typeKeys.length,
    Prod.fst <$> Visit.module module options order ((Walk.start options.maxDepth).under limit) =
      module.script options order
  /-- After a visit that succeeds both guards are as before. -/
  restores : ∀ (depth : Nat) (type : TypeDecl) (walk later : Walk),
    (Visit.type module options order depth type).ending walk = (.ok (), later) →
      later.definitions = walk.definitions ∧ later.references = walk.references

/-- Both traversals of every module are bounded, under all options. -/
theorem bounded_by_module (module : ModuleDecl) (options : Options) (traversal : Traversal) :
    Bounded module options traversal.order := by
  obtain ⟨parts, same, whole⟩ := traversal.whole
  have ends := whole.shaped.ends
  rw [same]
  have alike : ∀ {type : TypeDecl}, type ∈ module.declaredTypes → ∀ {walk : Walk},
      module.CanHold walk.definitions.stack → ∀ {limit}, Fair module walk.definitions.limit limit →
      ∀ {depth depth'}, module.typeKeys.length < depth → module.typeKeys.length < depth' →
        Alike (CanStop module walk) (Visit.type module options (.claim :: parts) depth type)
          (Visit.type module options (.claim :: parts) depth' type) walk limit := by
    intro type declared walk holds limit fair depth depth' deep deep'
    exact type_alike ends depth depth' declared holds fair (by omega) (by omega) walk rfl rfl
  constructor
  · intro type declared walk holds depth deep
    have enough := Nat.lt_succ_self module.typeKeys.length
    have self := alike declared holds (.inl rfl) enough enough
    refine ⟨(alike declared holds (.inl rfl) enough deep).toMatches.eq self.toMatches, fun endless => ?_⟩
    -- a fault of running out of depth is none of those that can stop a visit
    rcases (alike declared holds (.inl rfl) deep deep).stops endless with told | ⟨_, told⟩ <;> cases told
  · exact fun type declared depth => (type_tracks (.claim :: parts) depth declared).told
  · intro part begins
    rw [ModuleDecl.script, Script.actions_map] at begins
    have holds := (module_tracks module options (.claim :: parts)).held .nil part begins
    exact ⟨holds, holds.length_le⟩
  · intro type declared walk holds room depth deep
    refine ⟨fun fault failed => ?_, fun limit wide => (alike declared holds (.inr ⟨room, wide⟩) deep deep).toMatches⟩
    rcases (alike declared holds (.inl rfl) deep deep).stops failed with told | ⟨narrow, _⟩
    · exact told
    · omega
  · intro room limit wide
    obtain ⟨actions, ending⟩ := (module_alike module options ends (.inr ⟨room, wide⟩)).toMatches
    refine Script.eq_of_actions ?_ ?_
    · rw [ModuleDecl.script, Script.actions_map, Script.actions_map]
      exact actions
    · rw [ModuleDecl.script, Script.answer_map, Script.answer_map]
      have results := congrArg Prod.fst ending
      exact results
  · exact fun depth type walk later ended => type_turnsGuard ends depth type walk () later ended

end Visit

end UsageGraph
