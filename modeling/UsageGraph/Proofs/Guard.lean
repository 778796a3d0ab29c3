import Mathlib.Logic.Function.Iterate
import UsageGraph.Guard

/-! What is in progress is a bounded stack without repetition.

Whatever is entered and left, from nothing in progress on, the stack has no key twice, is no
higher than the limit and has the same keys as the set. So entering a key does one of three
things, which the stack alone decides, and leaving takes back the last key that was entered
and not left since.
-/

set_option autoImplicit false
namespace UsageGraph.Progress

variable {κ : Type}

inductive Call (κ : Type) where
  | enter (key : κ)
  | leave

variable [DecidableEq κ]

def call (progress : Progress κ) : Call κ → Progress κ
  | .enter key => (progress.enter key).2
  | .leave => progress.leave

def run (progress : Progress κ) (calls : List (Call κ)) : Progress κ := calls.foldl call progress

/-- Calls that leave each key that they enter and, besides, a number of the keys below. -/
inductive Unwinds : Progress κ → Nat → List (Call κ) → Prop where
  | done {progress : Progress κ} : Unwinds progress 0 []
  | entered {progress after : Progress κ} {key : κ} {count : Nat} {rest : List (Call κ)} :
      progress.enter key = (.ok true, after) → Unwinds after (count + 1) rest →
      Unwinds progress count (.enter key :: rest)
  | refused {progress after : Progress κ} {key : κ} {answer : Except Fault Bool} {count : Nat} {rest : List (Call κ)} :
      progress.enter key = (answer, after) → answer ≠ .ok true → Unwinds after count rest →
      Unwinds progress count (.enter key :: rest)
  | left {progress : Progress κ} {count : Nat} {rest : List (Call κ)} :
      Unwinds progress.leave count rest → Unwinds progress (count + 1) (.leave :: rest)

/-- What is in progress, as far as it can be told from outside: a stack of different keys, not more than the limit. -/
structure BoundedStack (limit : Nat) (progress : Progress κ) : Prop where
  distinct : progress.stack.Nodup
  active_iff : ∀ key, key ∈ progress.active ↔ key ∈ progress.stack
  found_iff : ∀ key, progress.isActive key = true ↔ key ∈ progress.stack
  depth_le : progress.depth ≤ limit
  /-- A key in progress is passed over, also where no other key could be entered. -/
  passes_iff : ∀ key, progress.enter key = (.ok false, progress) ↔ key ∈ progress.stack
  fails_iff : ∀ key, progress.enter key = (.error (.recursionLimit limit), progress) ↔
    key ∉ progress.stack ∧ progress.depth = limit
  pushes : ∀ key, key ∉ progress.stack → progress.depth ≠ limit →
    ∃ after, progress.enter key = (.ok true, after) ∧ after.stack = key :: progress.stack
  /-- What is taken back is the last key that was entered and has not been left since. -/
  undoes : ∀ {key after calls}, progress.enter key = (.ok true, after) → after.Unwinds 0 calls →
    (after.run calls).leave = progress
  idles : progress.stack = [] → progress.leave = progress
  restores : ∀ calls, progress.Unwinds 0 calls → progress.run calls = progress

variable {limit : Nat} {progress after : Progress κ} {key : κ}

theorem leave_of_entered (entered : progress.enter key = (.ok true, after)) : after.leave = progress := by
  unfold enter at entered
  split at entered
  · simp at entered
  next idle =>
    split at entered
    · simp at entered
    · obtain rfl := congrArg Prod.snd entered
      exact leave_push (by simpa [isActive] using idle)

theorem eq_of_refused {answer : Except Fault Bool} (entered : progress.enter key = (answer, after))
    (refused : answer ≠ .ok true) : after = progress := by
  unfold enter at entered
  split at entered
  · exact (congrArg Prod.snd entered).symm
  · split at entered
    · exact (congrArg Prod.snd entered).symm
    · exact absurd (congrArg Prod.fst entered).symm refused

theorem run_of_unwinds {count : Nat} {calls : List (Call κ)} (unwinds : progress.Unwinds count calls) :
    progress.run calls = leave^[count] progress := by
  induction unwinds with
  | done => rfl
  | entered entered _ ih =>
    rw [Function.iterate_succ_apply, leave_of_entered entered] at ih
    rw [← ih, run, List.foldl_cons, call, entered]
    rfl
  | refused entered refused _ ih =>
    rw [eq_of_refused entered refused] at ih
    rw [← ih, run, List.foldl_cons, call, entered, eq_of_refused entered refused]
    rfl
  | left _ ih => exact ih

theorem leave_of_stack_eq_nil (empty : progress.stack = []) : progress.leave = progress := by
  obtain ⟨limit, stack, active⟩ := progress
  obtain rfl : stack = [] := empty
  simp [leave]

structure Kept (limit : Nat) (progress : Progress κ) : Prop where
  limited : progress.limit = limit
  agree : Agree progress.stack progress.active
  depth_le : progress.depth ≤ limit

namespace Kept

omit [DecidableEq κ] in
theorem start (limit : Nat) : Kept limit ({ limit } : Progress κ) := ⟨rfl, .nil, Nat.zero_le limit⟩

theorem enter (kept : progress.Kept limit) (key : κ) : Kept limit (progress.enter key).2 := by
  obtain ⟨rfl, agree, depth_le⟩ := kept
  rcases enter_cases agree key with ⟨_, entered⟩ | ⟨fresh, room, entered⟩ | ⟨_, _, entered⟩ <;> rw [entered]
  · exact ⟨rfl, agree, depth_le⟩
  · exact ⟨rfl, agree.push fresh, room⟩
  · exact ⟨rfl, agree, depth_le⟩

theorem leave (kept : progress.Kept limit) : Kept limit progress.leave where
  limited := kept.limited
  agree := kept.agree.tail
  depth_le := by
    have shorter : progress.leave.depth ≤ progress.depth := by simp [Progress.leave, depth]
    exact Nat.le_trans shorter kept.depth_le

theorem run (kept : progress.Kept limit) (calls : List (Call κ)) : Kept limit (progress.run calls) := by
  induction calls generalizing progress with
  | nil => exact kept
  | cons made rest ih =>
    cases made with
    | enter key => exact ih (kept.enter key)
    | leave => exact ih kept.leave

theorem enter_cases (kept : progress.Kept limit) (key : κ) :
    (key ∈ progress.stack ∧ progress.enter key = (.ok false, progress)) ∨
    (key ∉ progress.stack ∧ progress.depth ≠ limit ∧ progress.enter key = (.ok true, progress.push key)) ∨
    (key ∉ progress.stack ∧ progress.depth = limit ∧
      progress.enter key = (.error (.recursionLimit limit), progress)) := by
  obtain ⟨rfl, agree, depth_le⟩ := kept
  rcases Progress.enter_cases agree key with passed | ⟨fresh, room, entered⟩ | ⟨fresh, full, entered⟩
  · exact .inl passed
  · exact .inr (.inl ⟨fresh, Nat.ne_of_lt room, entered⟩)
  · exact .inr (.inr ⟨fresh, Nat.le_antisymm depth_le full, entered⟩)

theorem boundedStack (kept : progress.Kept limit) : progress.BoundedStack limit where
  distinct := kept.agree.distinct
  active_iff _ := kept.agree.mem_active
  found_iff _ := isActive_iff kept.agree
  depth_le := kept.depth_le
  -- what a key comes to is told by the three cases of entering
  passes_iff key := by
    rcases kept.enter_cases key with ⟨held, entered⟩ | ⟨fresh, _, entered⟩ | ⟨fresh, _, entered⟩
    · simp [entered, held]
    · simp [entered, fresh]
    · simp [entered, fresh]
  fails_iff key := by
    rcases kept.enter_cases key with ⟨held, entered⟩ | ⟨fresh, room, entered⟩ | ⟨fresh, full, entered⟩
    · simp [entered, held]
    · simp [entered, room]
    · simp [entered, fresh, full]
  pushes key fresh room := by
    rcases kept.enter_cases key with ⟨held, _⟩ | ⟨_, _, entered⟩ | ⟨_, full, _⟩
    · exact absurd held fresh
    · exact ⟨_, entered, rfl⟩
    · exact absurd full room
  undoes entered unwinds := by
    rw [run_of_unwinds unwinds]
    exact leave_of_entered entered
  idles := leave_of_stack_eq_nil
  restores _ := run_of_unwinds

end Kept

/-- After any calls, from nothing in progress on, what is in progress is a bounded stack. -/
theorem run_boundedStack (limit : Nat) (calls : List (Call κ)) :
    BoundedStack limit (run { limit } calls) :=
  ((Kept.start limit).run calls).boundedStack

-- Where the limit is reached, a key in progress is passed over still and any other is refused.
example : ((run { limit := 1 } [.enter 3]).enter 3).1 = .ok false ∧
    ((run { limit := 1 } [.enter 3]).enter 4).1 = .error (.recursionLimit 1) ∧
    ((run { limit := 0 } [.leave]).enter 4).1 = .error (.recursionLimit 0) := ⟨rfl, rfl, rfl⟩

end UsageGraph.Progress
