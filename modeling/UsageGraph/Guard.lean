import UsageGraph.Fault

/-! A guard against endless and too deep recursion: a bounded stack of what is in progress.

The keys in progress are kept twice, as a stack and as a set in which they are looked up. A
guard comes with the proof that both hold the same keys, each of them once.
-/

set_option autoImplicit false
namespace UsageGraph

structure Progress (κ : Type) where
  limit : Nat
  /-- Innermost first. -/
  stack : List κ := []
  /-- The keys in progress, for looking them up. -/
  active : List κ := []

namespace Progress

variable {κ : Type}

/-- A stack without repetition and a set of the same keys. -/
structure Agree (stack active : List κ) : Prop where
  distinct : stack.Nodup
  mem_active : ∀ {key}, key ∈ active ↔ key ∈ stack

theorem Agree.nil : Agree ([] : List κ) [] := ⟨.nil, by simp⟩

def depth (progress : Progress κ) : Nat := progress.stack.length

variable [DecidableEq κ] (progress : Progress κ) (key : κ)

def isActive : Bool := progress.active.contains key

def push : Progress κ :=
  { progress with stack := key :: progress.stack, active := progress.active.insert key }

/-- Begins a key and answers true, or answers false for a key that is in progress already.
A new key beyond the limit is a fault. -/
def enter : Except Fault Bool × Progress κ :=
  if progress.isActive key then (.ok false, progress)
  else if progress.limit ≤ progress.depth then (.error (.recursionLimit progress.limit), progress)
  else (.ok true, progress.push key)

def leave : Progress κ :=
  { progress with
    stack := progress.stack.tail
    active := progress.active.filter fun key => progress.stack.head? ≠ some key }

section Agree

variable {progress key} {stack active : List κ}

theorem leave_push (unlisted : key ∉ progress.active) : (progress.push key).leave = progress := by
  have others : ∀ other ∈ progress.active, key ≠ other := fun other member same => unlisted (same ▸ member)
  simp only [leave, push, List.insert_of_not_mem unlisted, List.tail_cons, List.head?_cons]
  rw [List.filter_cons_of_neg (by simp), List.filter_eq_self.mpr (by simpa using others)]

theorem Agree.insert (agree : Agree stack active) : Agree (stack.insert key) (active.insert key) where
  distinct := by
    by_cases held : key ∈ stack
    · rw [List.insert_of_mem held]
      exact agree.distinct
    · rw [List.insert_of_not_mem held]
      exact List.nodup_cons.mpr ⟨held, agree.distinct⟩
  mem_active := by simp [agree.mem_active]

theorem Agree.tail (agree : Agree stack active) :
    Agree stack.tail (active.filter fun key => stack.head? ≠ some key) := by
  cases stack with
  | nil => exact ⟨.nil, by simp [agree.mem_active]⟩
  | cons first rest =>
    obtain ⟨fresh, distinct⟩ := List.nodup_cons.mp agree.distinct
    refine ⟨distinct, fun {key} => ?_⟩
    -- the key that is taken from the set is nowhere else on the stack
    have other : key ∈ rest → first ≠ key := fun member same => fresh (same ▸ member)
    simp only [List.mem_filter, agree.mem_active, List.mem_cons, List.head?_cons, List.tail_cons, decide_eq_true_eq,
      ne_eq, Option.some.injEq]
    constructor
    · rintro ⟨rfl | member, apart⟩
      · exact absurd rfl apart
      · exact member
    · exact fun member => ⟨.inr member, other member⟩

variable (agree : Agree progress.stack progress.active)
include agree

theorem isActive_iff : progress.isActive key = true ↔ key ∈ progress.stack := by
  simp [isActive, agree.mem_active]

theorem enter_cases (key : κ) :
    (key ∈ progress.stack ∧ progress.enter key = (.ok false, progress)) ∨
    (key ∉ progress.stack ∧ progress.depth < progress.limit ∧ progress.enter key = (.ok true, progress.push key)) ∨
    (key ∉ progress.stack ∧ progress.limit ≤ progress.depth ∧
      progress.enter key = (.error (.recursionLimit progress.limit), progress)) := by
  unfold enter
  simp only [isActive_iff agree]
  by_cases held : key ∈ progress.stack
  · exact .inl ⟨held, if_pos held⟩
  · rw [if_neg held]
    rcases Nat.lt_or_ge progress.depth progress.limit with room | full
    · exact .inr (.inl ⟨held, room, if_neg (Nat.not_le.mpr room)⟩)
    · exact .inr (.inr ⟨held, full, if_pos full⟩)

theorem Agree.push (fresh : key ∉ progress.stack) : Agree (progress.push key).stack (progress.push key).active := by
  have inserted : Agree (progress.stack.insert key) (progress.active.insert key) := agree.insert
  rwa [List.insert_of_not_mem fresh] at inserted

theorem Agree.enter (key : κ) : Agree (progress.enter key).2.stack (progress.enter key).2.active := by
  rcases enter_cases agree key with ⟨_, entered⟩ | ⟨fresh, _, entered⟩ | ⟨_, _, entered⟩ <;> rw [entered]
  · exact agree
  · exact agree.push fresh
  · exact agree

end Agree

end Progress

structure Guard (κ : Type) extends Progress κ where
  agree : Progress.Agree stack active := by exact .nil

namespace Guard

variable {κ : Type} [DecidableEq κ] (guard : Guard κ) (key : κ)

def enter : Except Fault (Bool × Guard κ) :=
  let entered := guard.toProgress.enter key
  entered.1.map fun begun => (begun, { entered.2 with agree := guard.agree.enter key })

def leave : Guard κ := { guard.toProgress.leave with agree := guard.agree.tail }

def hold : Guard κ :=
  { guard with stack := guard.stack.insert key, active := guard.active.insert key, agree := guard.agree.insert }

variable {guard key}

omit [DecidableEq κ] in
theorem eq_of_progress {other : Guard κ} (same : guard.toProgress = other.toProgress) : guard = other := by
  obtain ⟨progress, agree⟩ := guard
  obtain ⟨progress', agree'⟩ := other
  obtain rfl : progress = progress' := same
  rfl

theorem enter_eq_ok {begun : Bool} {after : Guard κ}
    (entered : guard.toProgress.enter key = (.ok begun, after.toProgress)) : guard.enter key = .ok (begun, after) := by
  have answer := congrArg Prod.fst entered
  show (guard.toProgress.enter key).1.map _ = _
  rw [answer]
  exact congrArg (fun guard => Except.ok (begun, guard)) (eq_of_progress (congrArg Prod.snd entered))

theorem enter_eq_error {fault : Fault} (failed : (guard.toProgress.enter key).1 = .error fault) :
    guard.enter key = .error fault := by
  show (guard.toProgress.enter key).1.map _ = _
  rw [failed]
  rfl

theorem stack_hold (fresh : key ∉ guard.stack) : (guard.hold key).stack = key :: guard.stack :=
  List.insert_of_not_mem fresh

theorem depth_hold (fresh : key ∉ guard.stack) : (guard.hold key).depth = guard.depth + 1 :=
  congrArg List.length (stack_hold fresh)

theorem mem_hold {other : κ} : other ∈ (guard.hold key).stack ↔ other = key ∨ other ∈ guard.stack :=
  List.mem_insert_iff

theorem hold_eq_push (fresh : key ∉ guard.stack) : (guard.hold key).toProgress = guard.toProgress.push key :=
  congrArg (Progress.mk guard.limit · (guard.active.insert key)) (stack_hold fresh)

theorem leave_hold (fresh : key ∉ guard.stack) : (guard.hold key).leave = guard := by
  apply eq_of_progress
  show (guard.hold key).toProgress.leave = _
  rw [hold_eq_push fresh, Progress.leave_push (fresh ∘ guard.agree.mem_active.mp)]

theorem enter_cases (guard : Guard κ) (key : κ) :
    (key ∈ guard.stack ∧ guard.enter key = .ok (false, guard)) ∨
    (key ∉ guard.stack ∧ guard.depth < guard.limit ∧ guard.enter key = .ok (true, guard.hold key)) ∨
    (key ∉ guard.stack ∧ guard.limit ≤ guard.depth ∧ guard.enter key = .error (.recursionLimit guard.limit)) := by
  rcases Progress.enter_cases guard.agree key with ⟨held, entered⟩ | ⟨fresh, room, entered⟩ | ⟨fresh, full, entered⟩
  · exact .inl ⟨held, enter_eq_ok entered⟩
  · exact .inr (.inl ⟨fresh, room, enter_eq_ok (entered.trans (by rw [hold_eq_push fresh]))⟩)
  · exact .inr (.inr ⟨fresh, full, enter_eq_error (congrArg Prod.fst entered)⟩)

theorem enter_of_mem (held : key ∈ guard.stack) : guard.enter key = .ok (false, guard) := by
  rcases guard.enter_cases key with ⟨_, entered⟩ | ⟨fresh, _⟩ | ⟨fresh, _⟩
  · exact entered
  · exact absurd held fresh
  · exact absurd held fresh

theorem enter_of_fresh (fresh : key ∉ guard.stack) :
    guard.enter key =
      if guard.depth < guard.limit then .ok (true, guard.hold key) else .error (.recursionLimit guard.limit) := by
  rcases guard.enter_cases key with ⟨held, _⟩ | ⟨_, room, entered⟩ | ⟨_, full, entered⟩
  · exact absurd held fresh
  · rw [if_pos room, entered]
  · rw [if_neg (Nat.not_lt.mpr full), entered]

end Guard

end UsageGraph
