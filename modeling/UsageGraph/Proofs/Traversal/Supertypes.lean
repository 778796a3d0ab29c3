import Mathlib.Data.List.Chain
import Mathlib.Logic.Relation
import UsageGraph.Proofs.Traversal.Termination

/-! Supertypes come first in a traversal from the top down.

The types in progress form a chain in which each type was reached from the next one, as a
supertype or as a nested type. When a type is opened, all its supertypes in the module have
been visited. Each of them has been closed again, except for those that the chain leads
from: these cannot be modelled first, since the type is met on the way through them.
-/

set_option autoImplicit false
namespace UsageGraph

variable {α β : Type}

def Action.nesting (types : List TypeKey) : Action → List TypeKey
  | .op (.startType key _) => key :: types
  | .op (.close .type) => types.tail
  | _ => types

/-- The types that actions have opened and not closed again, innermost first. -/
def openTypes (past : List Action) : List TypeKey := past.foldl Action.nesting []

structure Finished (key : TypeKey) (past : List Action) : Prop where
  opened : ∃ signatureOnly, .op (.startType key signatureOnly) ∈ past
  closed : key ∉ openTypes past
  completed : ∃ count, .note (.completed key count) ∈ past

theorem inProgress_concat (past : List Action) (action : Action) :
    inProgress [] (past ++ [action]) = action.progress (inProgress [] past) := List.foldl_append

theorem openTypes_concat (past : List Action) (action : Action) :
    openTypes (past ++ [action]) = action.nesting (openTypes past) := List.foldl_append

theorem exists_start_of_mem_openTypes {past : List Action} {key : TypeKey} (isOpen : key ∈ openTypes past) :
    ∃ signatureOnly, .op (.startType key signatureOnly) ∈ past := by
  induction past using List.reverseRecOn with
  | nil => cases isOpen
  | append_singleton past action ih =>
    rw [openTypes_concat] at isOpen
    unfold Action.nesting at isOpen
    split at isOpen
    next started signatureOnly =>
      rcases List.mem_cons.mp isOpen with rfl | isOpen
      · exact ⟨signatureOnly, by simp⟩
      · exact (ih isOpen).imp fun _ => List.mem_append_left _
    next => exact (ih (List.mem_of_mem_tail isOpen)).imp fun _ => List.mem_append_left _
    next => exact (ih isOpen).imp fun _ => List.mem_append_left _

theorem Action.IsPlain.progress {action : Action} (plain : action.IsPlain) (stack : List TypeKey) :
    action.progress stack = stack := by
  cases action with
  | op | scan => rfl
  | note => exact plain.elim

theorem Action.IsPlain.nesting {action : Action} (plain : action.IsPlain) (types : List TypeKey) :
    action.nesting types = types := by
  unfold Action.nesting
  split
  · exact plain.elim
  · exact plain.elim
  · rfl

namespace ModuleDecl

def LeadsWithin (module : ModuleDecl) (stack : List TypeKey) (type next : TypeDecl) : Prop :=
  next ∈ module.successors type ∧ type.label.key ∈ stack ∧ next.label.key ∈ stack

/-- After a history, each supertype of a type that the module declares and the options allow is finished or in progress,
and it can be in progress only if it has led to the type. -/
def SupertypesFirst (module : ModuleDecl) (options : Options) (type : TypeDecl) (past : List Action) : Prop :=
  ∀ reference ∈ type.label.supertypes, ∀ supertype ∈ module.declaredTypes,
    supertype.label.key = reference.label → options.visitsType supertype.label.key = true →
      (Finished supertype.label.key past ∨ supertype.label.key ∈ inProgress [] past) ∧
      (supertype.label.key ∈ inProgress [] past →
        Relation.ReflTransGen (module.LeadsWithin (inProgress [] past)) supertype type)

/-- A supertype that is declared in the module is visited, by itself or by another declaration with its key. -/
theorem exists_mem_supertypesOf (module : ModuleDecl) {definition : Definition} {reference : TypeRef}
    (named : reference ∈ definition.supertypes) {supertype : TypeDecl} (declared : supertype ∈ module.declaredTypes)
    (same : supertype.label.key = reference.label) :
    ∃ found ∈ module.supertypesOf definition, found.label.key = supertype.label.key := by
  have known : (module.find? reference.label).isSome := by
    refine List.find?_isSome.mpr ⟨supertype, List.mem_reverse.mpr declared, ?_⟩
    simpa using same
  obtain ⟨found, search⟩ := Option.isSome_iff_exists.mp known
  refine ⟨found, List.mem_filterMap.mpr ⟨reference, named, search⟩, ?_⟩
  have key := List.find?_some search
  simpa [same] using key

/-- What a history and a walk must have come to when a type is opened: its supertypes have come first, and the types
that the history tells to be in progress are those that the walk guards. -/
def OpensInOrder (module : ModuleDecl) (options : Options) (past : List Action) (walk : Walk) (key : TypeKey) : Prop :=
  walk.definitions.stack = inProgress [] past ∧
    ∀ type ∈ module.declaredTypes, type.label.key = key → module.SupertypesFirst options type past

end ModuleDecl

/-! ## Triples over histories -/

namespace Visit

/-- In the course of a visit that starts with one walk, an action is taken after some actions and with another walk.
This walk is the one that the parts of the visit before the action have left. -/
inductive Takes : {α : Type} → Visit α → Walk → List Action → Walk → Action → Prop
  | emit (action : Action) (walk : Walk) : Takes (emit action) walk [] walk action
  | first {α β : Type} {visit : Visit α} {next : α → Visit β} {walk now : Walk} {past : List Action} {action : Action}
    (takes : Takes visit walk past now action) : Takes (visit >>= next) walk past now action
  | second {α β : Type} {visit : Visit α} {next : α → Visit β} {walk later now : Walk} {answer : α} {past : List Action}
    {action : Action} (ended : visit.ending walk = (.ok answer, later))
    (takes : Takes (next answer) later past now action) :
    Takes (visit >>= next) walk (visit.actions walk ++ past) now action

variable {fits : List Action → Walk → TypeKey → Prop} {before before' : List Action → Walk → Prop}

/-- After every history at which a visit may start, each type that it opens fits the history and the walk so far, and
if the visit has an answer, then its history and its walk are as they should be. -/
def Keeps (fits : List Action → Walk → TypeKey → Prop) (before : List Action → Walk → Prop) (visit : Visit α)
    (after : α → List Action → Walk → Prop) : Prop :=
  ∀ past walk, before past walk →
    (∀ part key signatureOnly, part ++ [.op (.startType key signatureOnly)] <+: visit.actions walk →
      ∃ now, visit.Takes walk part now (.op (.startType key signatureOnly)) ∧ fits (past ++ part) now key) ∧
    ∀ answer later, visit.ending walk = (.ok answer, later) → after answer (past ++ visit.actions walk) later

namespace Keeps

variable {visit : Visit α} {after after' : α → List Action → Walk → Prop}

theorem conseq (keeps : Keeps fits before visit after) (weaker : ∀ past walk, before' past walk → before past walk)
    (stronger : ∀ answer past walk, after answer past walk → after' answer past walk) :
    Keeps fits before' visit after' := by
  intro past walk holds
  obtain ⟨fit, ended⟩ := keeps past walk (weaker past walk holds)
  exact ⟨fit, fun answer later ends => stronger _ _ _ (ended answer later ends)⟩

theorem lift {fact : Prop} (keeps : fact → Keeps fits before visit after) :
    Keeps fits (fun past walk => fact ∧ before past walk) visit after :=
  fun past walk holds => keeps holds.1 past walk holds.2

theorem of_closed (closed : ∀ past walk, before past walk → ∀ key signatureOnly,
      .op (.startType key signatureOnly) ∉ visit.actions walk)
    (holds : ∀ past walk, before past walk → ∀ answer later, visit.ending walk = (.ok answer, later) →
      after answer (past ++ visit.actions walk) later) : Keeps fits before visit after := by
  intro past walk start
  refine ⟨fun part key signatureOnly begins => ?_, holds past walk start⟩
  exact absurd (begins.subset (by simp)) (closed past walk start key signatureOnly)

theorem pure {answer : α} (holds : ∀ past walk, before past walk → after answer past walk) :
    Keeps fits before (pure answer) after := by
  refine .of_closed (by simp) fun past walk start other later ended => ?_
  cases ended
  rw [actions_pure, List.append_nil]
  exact holds past walk start

theorem note {entry : Note} {after : List Action → Walk → Prop}
    (holds : ∀ past walk, before past walk → after (past ++ [.note entry]) walk) :
    Keeps fits before (note entry) fun _ => after := by
  refine .of_closed (by simp [Visit.note]) fun past walk start other later ended => ?_
  cases ended
  exact holds past walk start

theorem opening {key : TypeKey} {signatureOnly : Bool} {after : List Action → Walk → Prop}
    (fit : ∀ past walk, before past walk → fits past walk key)
    (holds : ∀ past walk, before past walk → after (past ++ [.op (.startType key signatureOnly)]) walk) :
    Keeps fits before (step (.startType key signatureOnly)) fun _ => after := by
  intro past walk start
  constructor
  · intro part other otherOnly begins
    have same : part ++ [.op (.startType other otherOnly)] = [.op (.startType key signatureOnly)] :=
      begins.eq_of_length_le (by simp [step])
    obtain ⟨rfl, rfl, rfl⟩ : part = [] ∧ other = key ∧ otherOnly = signatureOnly := by
      simpa [List.append_eq_singleton_iff] using same
    rw [List.append_nil]
    exact ⟨walk, .emit _ walk, fit past walk start⟩
  · intro other later ended
    cases ended
    exact holds past walk start

theorem bind {next : α → Visit β} {last : β → List Action → Walk → Prop} (first : Keeps fits before visit after)
    (second : ∀ answer, Keeps fits (after answer) (next answer) last) : Keeps fits before (visit >>= next) last := by
  intro past walk start
  obtain ⟨fit, reached⟩ := first past walk start
  -- an opening of the first visit is one of the whole
  have within : ∀ {part key signatureOnly}, part ++ [.op (.startType key signatureOnly)] <+: visit.actions walk →
      ∃ now, (visit >>= next).Takes walk part now (.op (.startType key signatureOnly)) ∧
        fits (past ++ part) now key := by
    intro part key signatureOnly begins
    obtain ⟨now, takes, fitting⟩ := fit part key signatureOnly begins
    exact ⟨now, takes.first, fitting⟩
  cases ended : visit.ending walk with
  | mk result later =>
    cases result with
    | error fault =>
      rw [actions_bind_of_error ended, ending_bind_of_error ended]
      exact ⟨fun _ _ _ => within, fun _ _ impossible => by cases impossible⟩
    | ok answer =>
      obtain ⟨fit', reached'⟩ := second answer _ _ (reached answer later ended)
      rw [actions_bind_of_ok ended, ending_bind_of_ok ended, ← List.append_assoc]
      refine ⟨fun part key signatureOnly begins => ?_, reached'⟩
      -- the type is opened by the first visit, or all of that is past
      rcases List.prefix_or_prefix_of_prefix begins (List.prefix_append _ _) with inside | beyond
      · exact within inside
      · rcases List.prefix_concat_iff.mp beyond with same | ⟨part', rfl⟩
        · exact within (same ▸ List.prefix_rfl)
        · rw [List.append_assoc, List.prefix_append_right_inj] at begins
          obtain ⟨now, takes, fitting⟩ := fit' part' key signatureOnly begins
          rw [← List.append_assoc]
          exact ⟨now, takes.second ended, fitting⟩

end Keeps

theorem mem_actions_bind {visit : Visit α} {next : α → Visit β} {walk : Walk} {action : Action}
    (taken : action ∈ (visit >>= next).actions walk) :
    action ∈ visit.actions walk ∨ ∃ answer later, action ∈ (next answer).actions later := by
  cases ended : visit.ending walk with
  | mk result later =>
    cases result with
    | error fault =>
      rw [actions_bind_of_error ended] at taken
      exact .inl taken
    | ok answer =>
      rw [actions_bind_of_ok ended] at taken
      exact (List.mem_append.mp taken).imp_right fun taken => ⟨answer, later, taken⟩

theorem Composed.allowed_of_mem {allowed : Action → Prop} {visit : Visit α} (composed : visit.Composed allowed)
    (walk : Walk) : ∀ action ∈ visit.actions walk, allowed action := by
  induction composed generalizing walk with
  | pure answer => simp
  | emit fits => simpa using fits
  | bind _ _ first second =>
    intro action taken
    rcases mem_actions_bind taken with taken | ⟨answer, later, taken⟩
    · exact first walk action taken
    · exact second answer later action taken
  | following _ reference inner =>
    rcases walk.references.enter_cases reference with ⟨_, entered⟩ | ⟨_, _, entered⟩ | ⟨_, _, entered⟩
    · simp [(following_of_active rfl entered).1]
    · rw [(following_of_entered rfl entered).1]
      exact inner _
    · simp [(following_of_full rfl entered).1]

end Visit

/-! ## Moments of a traversal -/

/-- Types that can be in progress together, the innermost first, and some of them that are open. -/
structure ModuleDecl.Line (module : ModuleDecl) (chain : List TypeDecl) (opened : List TypeKey) : Prop where
  declared : ∀ type ∈ chain, type ∈ module.declaredTypes
  distinct : (chain.map fun type => type.label.key).Nodup
  /-- Each type was reached from the next one. -/
  linked : chain.IsChain fun type next => type ∈ module.successors next
  within : opened ⊆ chain.map fun type => type.label.key

structure Recorded (completed : List TypeKey) (past : List Action) : Prop where
  opened : ∀ key ∈ completed, ∃ signatureOnly, .op (.startType key signatureOnly) ∈ past
  noted : ∀ key ∈ completed, ∃ count, .note (.completed key count) ∈ past

/-- The state of a traversal with a line of types in progress, when types with some keys have been visited. -/
structure Moment (options : Options) (chain : List TypeDecl) (opened visited : List TypeKey) (past : List Action)
    (walk : Walk) : Prop where
  stack : walk.definitions.stack = chain.map fun type => type.label.key
  told : inProgress [] past = chain.map fun type => type.label.key
  nested : openTypes past = opened
  recorded : Recorded walk.completed past
  apart : ∀ key ∈ walk.completed, key ∉ chain.map fun type => type.label.key
  settled : ∀ key ∈ visited, options.visitsType key = true →
    key ∈ walk.completed ∨ key ∈ chain.map fun type => type.label.key

theorem Recorded.append {completed : List TypeKey} {past : List Action} (recorded : Recorded completed past)
    (further : List Action) : Recorded completed (past ++ further) where
  opened key done := (recorded.opened key done).imp fun _ => List.mem_append_left _
  noted key done := (recorded.noted key done).imp fun _ => List.mem_append_left _

section Moments

variable {module : ModuleDecl} {options : Options} {type : TypeDecl} {chain : List TypeDecl}
  {opened visited : List TypeKey} {past : List Action} {walk : Walk}

namespace ModuleDecl.Line

theorem cons (line : module.Line chain opened) (declared : type ∈ module.declaredTypes)
    (fresh : type.label.key ∉ chain.map fun type => type.label.key)
    (reached : ∀ next ∈ chain.head?, type ∈ module.successors next) : module.Line (type :: chain) opened where
  declared other member := by
    rcases List.mem_cons.mp member with rfl | member
    · exact declared
    · exact line.declared other member
  distinct := List.nodup_cons.mpr ⟨fresh, line.distinct⟩
  linked := List.isChain_cons.mpr ⟨reached, line.linked⟩
  within := List.subset_cons_of_subset _ line.within

theorem opens (line : module.Line (type :: chain) opened) : module.Line (type :: chain) (type.label.key :: opened) :=
  { line with within := List.cons_subset.mpr ⟨List.mem_cons_self, line.within⟩ }

theorem leads (line : module.Line (type :: chain) opened) {stack : List TypeKey}
    (within : ∀ other ∈ type :: chain, other.label.key ∈ stack) {start : TypeDecl} (member : start ∈ type :: chain) :
    Relation.ReflTransGen (module.LeadsWithin stack) start type := by
  have linked := line.linked
  clear line
  -- along the chain, from the innermost type outwards
  induction chain generalizing type with
  | nil => exact List.mem_singleton.mp member ▸ .refl
  | cons next rest ih =>
    rcases List.mem_cons.mp member with rfl | member
    · exact .refl
    · obtain ⟨edge, linked⟩ := List.isChain_cons_cons.mp linked
      have led := ih (fun other member => within other (List.mem_cons_of_mem _ member)) member linked
      exact led.tail ⟨edge, within next (by simp), within type (by simp)⟩

end ModuleDecl.Line

namespace Moment

theorem mono {fewer : List TypeKey} (moment : Moment options chain opened visited past walk)
    (subset : fewer ⊆ visited) : Moment options chain opened fewer past walk :=
  { moment with settled := fun key member => moment.settled key (subset member) }

theorem step (moment : Moment options chain opened visited past walk) (action : Action)
    (idle : ∀ stack, action.progress stack = stack) :
    Moment options chain (action.nesting opened) visited (past ++ [action]) walk where
  stack := moment.stack
  told := by rw [inProgress_concat, idle, moment.told]
  nested := by rw [openTypes_concat, moment.nested]
  recorded := moment.recorded.append _
  apart := moment.apart
  settled := moment.settled

theorem plain {actions : List Action} (moment : Moment options chain opened visited past walk)
    (plain : ∀ action ∈ actions, action.IsPlain) : Moment options chain opened visited (past ++ actions) walk := by
  induction actions generalizing past with
  | nil => rwa [List.append_nil]
  | cons action rest ih =>
    have first := plain action List.mem_cons_self
    have next := moment.step action first.progress
    rw [first.nesting] at next
    have all := ih next fun other member => plain other (List.mem_cons_of_mem _ member)
    rwa [List.append_assoc] at all

theorem claim (moment : Moment options chain opened visited past walk) (unclaimed : Visit.Open options type walk) :
    Moment options (type :: chain) opened visited (past ++ [.note (.claimed type.label.key true)])
      (walk.begin type.label.key) where
  stack := (Walk.stack_begin unclaimed.2.2).trans (congrArg (_ :: ·) moment.stack)
  told := by
    rw [inProgress_concat, moment.told]
    rfl
  nested := (openTypes_concat past _).trans moment.nested
  recorded := moment.recorded.append _
  apart key done := by
    rw [List.map_cons, List.mem_cons, not_or]
    refine ⟨?_, moment.apart key done⟩
    rintro rfl
    exact unclaimed.2.1 done
  settled key member allowed := (moment.settled key member allowed).imp_right (List.mem_cons_of_mem _)

theorem pass (moment : Moment options chain opened visited past walk) (claimed : ¬ Visit.Open options type walk) :
    Moment options chain opened (type.label.key :: visited) (past ++ [.note (.claimed type.label.key false)]) walk := by
  have noted : Moment options chain opened visited (past ++ [.note (.claimed type.label.key false)]) walk :=
    moment.step (.note (.claimed type.label.key false)) fun _ => rfl
  refine { noted with settled := fun key member allowed => ?_ }
  rcases List.mem_cons.mp member with rfl | member
  · rw [← moment.stack]
    by_contra neither
    exact claimed ⟨allowed, not_or.mp neither⟩
  · exact moment.settled key member allowed

theorem complete (moment : Moment options (type :: chain) opened visited past walk)
    (fresh : type.label.key ∉ chain.map fun type => type.label.key)
    (began : ∃ signatureOnly, .op (.startType type.label.key signatureOnly) ∈ past) (count : Nat) :
    Moment options chain opened (type.label.key :: visited) (past ++ [.note (.completed type.label.key count)])
      { walk with
        definitions := walk.definitions.leave, completed := walk.completed.insert type.label.key } where
  stack := congrArg List.tail moment.stack
  told := by
    rw [inProgress_concat, moment.told]
    rfl
  nested := (openTypes_concat past _).trans moment.nested
  recorded := by
    obtain ⟨opened, noted⟩ := moment.recorded.append [.note (.completed type.label.key count)]
    constructor <;> intro key done <;> rcases List.mem_insert_iff.mp done with rfl | done
    · exact began.imp fun _ => List.mem_append_left _
    · exact opened key done
    · exact ⟨count, by simp⟩
    · exact noted key done
  apart key done := by
    rcases List.mem_insert_iff.mp done with rfl | done
    · exact fresh
    · exact fun member => moment.apart key done (List.mem_cons_of_mem _ member)
  settled key member allowed := by
    -- the type itself moves from those in progress to the completed ones
    have found : key ∈ walk.completed ∨ key ∈ (type :: chain).map fun type => type.label.key := by
      rcases List.mem_cons.mp member with rfl | member
      · exact .inr List.mem_cons_self
      · exact moment.settled key member allowed
    rw [List.map_cons, List.mem_cons, ← or_assoc, or_comm (a := key ∈ walk.completed)] at found
    exact found.imp_left List.mem_insert_iff.mpr

/-- Once the supertypes of the innermost type have been visited, they come first. -/
theorem supertypesFirst (moment : Moment options (type :: chain) opened visited past walk)
    (line : module.Line (type :: chain) opened) (distinct : module.HasDistinctTypes)
    (all : ∀ supertype ∈ module.supertypesOf type.label, supertype.label.key ∈ visited) :
    module.SupertypesFirst options type past := by
  intro reference named supertype declared same allowed
  rw [moment.told]
  constructor
  · obtain ⟨found, member, same'⟩ := module.exists_mem_supertypesOf named declared same
    rcases moment.settled _ (same' ▸ all found member) allowed with done | active
    · refine .inl ⟨moment.recorded.opened _ done, ?_, moment.recorded.noted _ done⟩
      rw [moment.nested]
      exact fun still => moment.apart _ done (line.within still)
    · exact .inr active
  · intro active
    obtain ⟨other, member, same⟩ := List.mem_map.mp active
    have identical : other = supertype :=
      List.inj_on_of_nodup_map distinct (line.declared other member) declared same
    exact identical ▸ line.leads (fun other member => List.mem_map.mpr ⟨other, member, rfl⟩) member

end Moment

end Moments

namespace Visit

section TopDown

variable {module : ModuleDecl} {options : Options} {type : TypeDecl} {chain : List TypeDecl}
  {opened visited : List TypeKey}

theorem Composed.keeps {content : Visit Unit} (composed : content.Composed Action.IsPlain) :
    Keeps (module.OpensInOrder options) (Moment options chain opened visited) content
      fun _ => Moment options chain opened visited := by
  refine .of_closed (fun _ walk _ key signatureOnly => ?_) fun past walk moment answer later ended => ?_
  · exact composed.allowed_of_mem walk (.op (.startType key signatureOnly))
  · have same := (composed.quiet fun _ => id).restores walk
    rw [ended] at same
    exact same ▸ moment.plain (composed.allowed_of_mem walk)

/-- A visit deals with a type: it opens types in order, and after it the same line of types is in progress as before
and the type has been visited. -/
def DealsWith (module : ModuleDecl) (options : Options) (chain : List TypeDecl) (opened : List TypeKey) (type : TypeDecl)
    (visit : Visit Unit) : Prop :=
  ∀ visited, Keeps (module.OpensInOrder options) (Moment options chain opened visited) visit
    fun _ => Moment options chain opened (type.label.key :: visited)

theorem forM_keeps {visit : TypeDecl → Visit Unit} {types : List TypeDecl}
    (each : ∀ next ∈ types, DealsWith module options chain opened next (visit next)) (visited : List TypeKey) :
    Keeps (module.OpensInOrder options) (Moment options chain opened visited) (types.forM visit)
      fun _ => Moment options chain opened ((types.map fun next => next.label.key) ++ visited) := by
  induction types generalizing visited with
  | nil => exact .pure fun _ _ moment => moment
  | cons next rest ih =>
    have later := ih (fun other member => each other (List.mem_cons_of_mem _ member)) (next.label.key :: visited)
    refine .bind (each next List.mem_cons_self visited) fun _ => later.conseq (fun _ _ => id) fun _ _ _ moment => ?_
    exact moment.mono (by simp)

variable {visit : TypeDecl → Visit Unit}

theorem phases_close (line : module.Line (type :: chain) opened) :
    Keeps (module.OpensInOrder options) (Moment options (type :: chain) (type.label.key :: opened) visited)
      (phases module options visit type [.closeType, .complete])
      fun _ => Moment options chain opened (type.label.key :: visited) := by
  have acted : ∀ walk, (phases module options visit type [.closeType, .complete]).actions walk =
      [.op (.close .type), .op (.close .space),
        .note (.completed type.label.key (walk.completed.insert type.label.key).length)] := fun _ => rfl
  refine .of_closed (by simp [acted]) fun past walk moment answer later ended => ?_
  cases ended
  rw [acted]
  obtain ⟨signatureOnly, began⟩ : ∃ signatureOnly, .op (.startType type.label.key signatureOnly) ∈ past :=
    exists_start_of_mem_openTypes (moment.nested ▸ List.mem_cons_self)
  have closed :
      Moment options (type :: chain) opened visited (past ++ [.op (.close .type), .op (.close .space)]) walk := by
    have closed := (moment.step (.op (.close .type)) fun _ => rfl).step (.op (.close .space)) fun _ => rfl
    rwa [List.append_assoc] at closed
  have completed := closed.complete (List.nodup_cons.mp line.distinct).1
    ⟨signatureOnly, List.mem_append_left _ began⟩ (walk.completed.insert type.label.key).length
  rwa [List.append_assoc] at completed

theorem phases_fill {parts : List Phase}
    (fills : ∀ part ∈ parts, part.isOwn = true ∧ part ≠ .openType ∧ part ≠ .closeType)
    {rest : List Phase} {after : Unit → List Action → Walk → Prop}
    (keeps : Keeps (module.OpensInOrder options) (Moment options chain opened visited)
      (phases module options visit type rest) after) :
    Keeps (module.OpensInOrder options) (Moment options chain opened visited)
      (phases module options visit type (parts ++ rest)) after := by
  induction parts with
  | nil => exact keeps
  | cons part others ih =>
    obtain ⟨own, within⟩ := fills part List.mem_cons_self
    obtain ⟨content, composed, same⟩ := phase_plain module options type own within
    rw [List.cons_append, phases_of_phase module options type (same visit)]
    exact .bind composed.keeps fun _ => ih fun other member => fills other (List.mem_cons_of_mem _ member)

theorem openType_keeps (distinct : module.HasDistinctTypes) (line : module.Line (type :: chain) opened)
    (all : ∀ supertype ∈ module.supertypesOf type.label, supertype.label.key ∈ visited) :
    Keeps (module.OpensInOrder options) (Moment options (type :: chain) opened visited) (openType options type.label)
      fun _ => Moment options (type :: chain) (type.label.key :: opened) visited := by
  refine .bind (Composed.keeps (.step trivial)) fun _ => .bind (.opening ?_ ?_) fun _ => Composed.keeps (.step trivial)
  · intro past walk moment
    refine ⟨moment.stack.trans moment.told.symm, fun other declared key => ?_⟩
    have identical : type = other :=
      List.inj_on_of_nodup_map distinct (line.declared type List.mem_cons_self) declared key.symm
    exact identical ▸ moment.supertypesFirst line distinct all
  · exact fun past walk moment => moment.step (.op (.startType type.label.key _)) fun _ => rfl

theorem phases_open (distinct : module.HasDistinctTypes) (line : module.Line (type :: chain) opened)
    (all : ∀ supertype ∈ module.supertypesOf type.label, supertype.label.key ∈ visited)
    (inner : ∀ next ∈ type.children, ∀ {opened}, module.Line (type :: chain) opened →
      DealsWith module options (type :: chain) opened next (visit next)) :
    Keeps (module.OpensInOrder options) (Moment options (type :: chain) opened visited)
      (phases module options visit type [.openType, .interfaces, .generics, .attributes, .base, .dataMembers, .methods,
        .nested, .closeType, .complete])
      fun _ => Moment options chain opened (type.label.key :: visited) := by
  have nested : Keeps (module.OpensInOrder options) (Moment options (type :: chain) (type.label.key :: opened) visited)
      (phases module options visit type [.nested, .closeType, .complete])
      fun _ => Moment options chain opened (type.label.key :: visited) := by
    rw [phases_nested]
    refine .bind (forM_keeps (fun next member => inner next member line.opens) visited) fun _ => ?_
    refine (phases_close line).conseq (fun _ _ => id) fun _ _ _ moment => moment.mono ?_
    exact List.cons_subset_cons _ (List.subset_append_right _ _)
  have fills : ∀ part ∈ [Phase.interfaces, .generics, .attributes, .base, .dataMembers, .methods],
      part.isOwn = true ∧ part ≠ .openType ∧ part ≠ .closeType := by decide
  rw [phases_of_phase module options type rfl]
  exact .bind (openType_keeps distinct line all) fun _ => phases_fill fills nested

theorem phases_keep (distinct : module.HasDistinctTypes) (line : module.Line (type :: chain) opened)
    (inner : ∀ next ∈ module.successors type, ∀ {opened}, module.Line (type :: chain) opened →
      DealsWith module options (type :: chain) opened next (visit next)) :
    Keeps (module.OpensInOrder options) (Moment options (type :: chain) opened visited)
      (phases module options visit type Traversal.topDown.order.tail)
      fun _ => Moment options chain opened (type.label.key :: visited) := by
  have noted : Keeps (module.OpensInOrder options) (Moment options (type :: chain) opened visited)
      (note (.supertypes ((module.supertypesOf type.label).map fun supertype => supertype.label.key)))
      fun _ => Moment options (type :: chain) opened visited :=
    .note fun past walk moment => moment.step (.note (.supertypes _)) fun _ => rfl
  have supertypes := forM_keeps (fun next member => inner next (List.mem_append_left _ member) line) visited
  refine phases_supertypes module options type visit _ ▸ .bind noted fun _ => .bind supertypes fun _ => ?_
  refine (phases_open distinct line ?_ fun next member => inner next (List.mem_append_right _ member)).conseq
    (fun _ _ => id) fun _ _ _ moment => moment.mono ?_
  · exact fun supertype member => List.mem_append_left _ (List.mem_map.mpr ⟨supertype, member, rfl⟩)
  · exact List.cons_subset_cons _ (List.subset_append_right _ _)

theorem claim_keeps : Keeps (module.OpensInOrder options) (Moment options chain opened visited)
    (phase module options visit type .claim) fun granted past walk =>
      (granted = true → type.label.key ∉ (chain.map fun type => type.label.key) ∧
        Moment options (type :: chain) opened visited past walk) ∧
      (granted = false → Moment options chain opened (type.label.key :: visited) past walk) := by
  refine .of_closed (fun past walk _ key signatureOnly => ?_) fun past walk moment granted later ended => ?_
  · -- claiming takes no action but to note what came of it
    rcases claim_ends module options visit type walk with ⟨_, acted, _⟩ | ⟨_, _, acted, _⟩ | ⟨_, _, acted, _⟩ <;>
      simp [acted]
  · rcases claim_ends module options visit type walk with
      ⟨passed, acted, ended'⟩ | ⟨unclaimed, _, acted, ended'⟩ | ⟨_, _, _, ended'⟩ <;> cases ended'.symm.trans ended
    · rw [acted]
      exact ⟨by simp, fun _ => moment.pass passed⟩
    · rw [acted]
      exact ⟨fun _ => ⟨moment.stack ▸ unclaimed.2.2, moment.claim unclaimed⟩, by simp⟩

/-- A type that the innermost type in progress leads to is dealt with, and so is one that nothing has led to. -/
theorem type_dealsWith (distinct : module.HasDistinctTypes) (depth : Nat) (declared : type ∈ module.declaredTypes)
    (line : module.Line chain opened) (reached : ∀ next ∈ chain.head?, type ∈ module.successors next) :
    DealsWith module options chain opened type (Visit.type module options Traversal.topDown.order depth type) := by
  induction depth generalizing type chain opened with
  | zero =>
    refine fun visited => .of_closed (fun _ _ _ _ _ => List.not_mem_nil) fun past walk _ answer later ended => ?_
    cases ended
  | succ depth ih =>
    intro visited
    refine .bind claim_keeps fun granted => ?_
    cases granted with
    | false => exact .pure fun _ _ held => held.2 rfl
    | true =>
      refine .conseq (.lift fun fresh => ?_) (fun _ _ held => held.1 rfl) fun _ _ _ => id
      refine phases_keep distinct (line.cons declared fresh reached) fun next member _ line => ?_
      -- what the type leads to is visited with the type in progress
      exact ih (ModuleDecl.mem_declaredTypes_of_successor declared member) line (by simpa using member)

theorem module_keeps (module : ModuleDecl) (options : Options) (distinct : module.HasDistinctTypes) :
    Keeps (module.OpensInOrder options) (Moment options [] [] []) (Visit.module module options Traversal.topDown.order)
      fun _ => Moment options [] [] ((module.types.map fun type => type.label.key) ++ []) := by
  have line : module.Line [] [] := ⟨by simp, .nil, .nil, List.nil_subset _⟩
  refine .bind (Composed.keeps (.step trivial)) fun _ => .bind (forM_keeps (fun type member => ?_) []) fun _ =>
    Composed.keeps (.step trivial)
  exact type_dealsWith distinct module.depthBound (ModuleDecl.mem_declaredTypes_of_mem_types member) line (by simp)

end TopDown

end Visit

theorem Moment.initial (options : Options) (limit : Nat) : Moment options [] [] [] [] (.start limit) where
  stack := rfl
  told := rfl
  nested := rfl
  recorded := ⟨by simp [Walk.start], by simp [Walk.start]⟩
  apart := by simp [Walk.start]
  settled := by simp

namespace ModuleDecl

end ModuleDecl

end UsageGraph
