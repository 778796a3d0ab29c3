import Mathlib.Data.List.Nodup
import Mathlib.Logic.Relation
import UsageGraph.Closure.Users

/-! What the two searches find.

The search for a closure comes to every method that the queue leads to, as long as it can
look up what it comes to. The search for an impact collects the users that the queue leads
to, each once, and brings them into order.
-/

set_option autoImplicit false
namespace UsageGraph

theorem Search.mem_fresh_iff {α : Type} [DecidableEq α] (visited found : List α) (node : α) :
    node ∈ fresh visited found ↔ node ∈ found ∧ node ∉ visited := by
  induction found generalizing visited with
  | nil => simp [fresh]
  | cons first rest ih =>
    unfold fresh
    by_cases known : first ∈ visited
    · rw [if_pos known, ih, List.mem_cons]
      constructor
      · exact fun later => ⟨.inr later.1, later.2⟩
      · rintro ⟨named, new⟩
        exact ⟨named.resolve_left fun same => new (same ▸ known), new⟩
    · rw [if_neg known, List.mem_cons, ih, List.mem_cons]
      by_cases same : node = first
      · simp [same, known]
      · simp [same]

namespace Model

def usesOf (model : Model) (member : MemberId) : UsageSet := (model.directUses? (.member member)).getD {}

theorem usesOf_eq {model : Model} {id : MemberId} {node : MemberNode} (held : model.member? id = some node) :
    model.usesOf id = node.directUses := by
  simp [usesOf, directUses?, held]

/-- A usage that is recorded as one of a method goes from a member to another one. -/
def Leads (model : Model) (caller callee : MemberId) : Prop := callee ∈ (model.usesOf caller).methods

/-- The members that a search comes to: the queue, and with each member those that it leads to, unless they have
been visited before. -/
structure Explores (model : Model) (queue visited found : List MemberId) : Prop where
  queued : queue ⊆ found
  closed : ∀ caller ∈ found, ∀ callee, model.Leads caller callee → callee ∈ visited ∨ callee ∈ found
  led : ∀ callee ∈ found, ∃ start ∈ queue, Relation.ReflTransGen model.Leads start callee

theorem Explores.cons {model : Model} {method : MemberId} {queue visited found : List MemberId}
    (explores : model.Explores (queue ++ Search.fresh visited (model.usesOf method).methods)
      (visited ++ Search.fresh visited (model.usesOf method).methods) found) :
    model.Explores (method :: queue) visited (method :: found) := by
  obtain ⟨queued, closed, led⟩ := explores
  have fresh : ∀ callee ∈ Search.fresh visited (model.usesOf method).methods, callee ∈ found :=
    fun callee new => queued (List.mem_append_right _ new)
  refine ⟨List.cons_subset_cons _ (List.append_subset.mp queued).1, ?_, ?_⟩
  · -- what the first member leads to has been visited before, or is fresh and thus in the queue now
    intro caller member callee leads
    rcases List.mem_cons.mp member with rfl | member
    · by_cases known : callee ∈ visited
      · exact .inl known
      · exact .inr (List.mem_cons_of_mem _ (fresh callee ((Search.mem_fresh_iff _ _ _).mpr ⟨leads, known⟩)))
    · rcases closed caller member callee leads with known | member
      · exact (List.mem_append.mp known).imp_right fun new => List.mem_cons_of_mem _ (fresh callee new)
      · exact .inr (List.mem_cons_of_mem _ member)
  · intro callee member
    rcases List.mem_cons.mp member with rfl | member
    · exact ⟨callee, List.mem_cons_self, .refl⟩
    obtain ⟨start, begun, path⟩ := led callee member
    rcases List.mem_append.mp begun with begun | new
    · exact ⟨start, List.mem_cons_of_mem _ begun, path⟩
    · exact ⟨method, List.mem_cons_self, .head ((Search.mem_fresh_iff _ _ _).mp new).1 path⟩

theorem expand_cons {model : Model} {method : MemberId} {node : MemberNode} (held : model.member? method = some node)
    (queue visited : List MemberId) (closure : UsageSet) :
    model.expand (method :: queue) visited closure =
      model.expand (queue ++ Search.fresh visited (model.usesOf method).methods)
        (visited ++ Search.fresh visited (model.usesOf method).methods) (closure.union (model.usesOf method)) := by
  rw [usesOf_eq held, expand]
  split
  next absent => cases absent.symm.trans held
  next found => cases found.symm.trans held; rfl

/-- Where nothing leads out of the model, the search does not fail, and it adds up what the members use that it comes
to. -/
theorem expand_explores {model : Model}
    (inside : ∀ {caller callee}, model.Leads caller callee → (model.member? callee).isSome)
    (queue visited : List MemberId) (closure : UsageSet) (present : ∀ member ∈ queue, (model.member? member).isSome) :
    ∃ found, model.Explores queue visited found ∧ model.expand queue visited closure =
      .ok (found.foldl (fun union member => union.union (model.usesOf member)) closure) := by
  -- the induction follows the search; the queue never has a member that is not in the model
  induction queue, visited, closure using expand.induct model with
  | case1 visited closure => exact ⟨[], ⟨List.nil_subset _, by simp, by simp⟩, by simp [expand]⟩
  | case2 visited closure method queue absent => simp [absent] at present
  | case3 visited closure method queue node held callees ih =>
    simp only [callees, ← usesOf_eq held] at ih
    obtain ⟨found, explores, expanded⟩ := ih fun member queued => by
      rcases List.mem_append.mp queued with queued | new
      · exact present member (List.mem_cons_of_mem _ queued)
      · exact inside ((Search.mem_fresh_iff _ _ _).mp new).1
    exact ⟨method :: found, explores.cons, (expand_cons held queue visited closure).trans expanded⟩

end Model

namespace UserIndex

def Shows (index : UserIndex) (callee caller : MemberId) : Prop := caller ∈ index.usersOf (.member callee)

/-- What a search along users collects: what has been collected before, the queue, and with each method its users. -/
structure Collects (index : UserIndex) (queue impacted collected : List MemberId) : Prop where
  kept : impacted ⊆ collected
  queued : queue ⊆ collected
  closed : ∀ callee ∈ collected, callee ∉ impacted → ∀ caller, index.Shows callee caller → caller ∈ collected
  led : ∀ method ∈ collected, method ∈ impacted ∨ ∃ start ∈ queue, Relation.ReflTransGen index.Shows start method
  distinct : impacted.Nodup → collected.Nodup

variable {index : UserIndex}

theorem Collects.pass {method : MemberId} {queue impacted collected : List MemberId} (known : method ∈ impacted)
    (collects : index.Collects queue impacted collected) : index.Collects (method :: queue) impacted collected where
  kept := collects.kept
  queued := List.cons_subset.mpr ⟨collects.kept known, collects.queued⟩
  closed := collects.closed
  led other member := by
    rcases collects.led other member with collected | ⟨start, begun, path⟩
    · exact .inl collected
    · exact .inr ⟨start, List.mem_cons_of_mem _ begun, path⟩
  distinct := collects.distinct

theorem Collects.take {method : MemberId} {queue impacted collected : List MemberId} (new : method ∉ impacted)
    (collects : index.Collects (queue ++ (index.usersOf (.member method)).filter (· ∉ impacted ++ [method]))
      (impacted ++ [method]) collected) : index.Collects (method :: queue) impacted collected := by
  obtain ⟨kept, queued, closed, led, distinct⟩ := collects
  have taken : method ∈ collected := kept (by simp)
  refine ⟨(List.append_subset.mp kept).1, List.cons_subset.mpr ⟨taken, (List.append_subset.mp queued).1⟩, ?_, ?_, ?_⟩
  · intro callee member fresh caller shows
    by_cases same : callee = method
    · -- a user of the method has been collected by now, or it is in the queue
      by_cases known : caller ∈ impacted ++ [method]
      · exact kept known
      · exact queued (List.mem_append_right _ (List.mem_filter.mpr ⟨same ▸ shows, by simpa using known⟩))
    · exact closed callee member (by simp [fresh, same]) caller shows
  · intro other member
    rcases led other member with known | ⟨start, begun, path⟩
    · rcases List.mem_append.mp known with known | here
      · exact .inl known
      · exact .inr ⟨method, List.mem_cons_self, List.mem_singleton.mp here ▸ .refl⟩
    · rcases List.mem_append.mp begun with begun | user
      · exact .inr ⟨start, List.mem_cons_of_mem _ begun, path⟩
      · exact .inr ⟨method, List.mem_cons_self, .head (List.mem_filter.mp user).1 path⟩
  · exact fun before => distinct (before.append (List.nodup_singleton _) (List.disjoint_singleton.mpr new))

theorem collect_collects (index : UserIndex) (queue impacted : List MemberId) :
    index.Collects queue impacted (index.collect queue impacted) := by
  induction queue, impacted using collect.induct index with
  | case1 impacted =>
    rw [collect]
    exact ⟨fun _ member => member, List.nil_subset _, fun _ member new => absurd member new, fun _ => .inl, id⟩
  | case2 impacted method queue known ih =>
    rw [collect, if_pos known]
    exact ih.pass known
  | case3 impacted method queue new grown ih =>
    rw [collect, if_neg new]
    exact ih.take new

theorem mem_impactOf_iff (index : UserIndex) (target : NodeRef) (method : MemberId) :
    method ∈ index.impactOf target ↔
      ∃ start ∈ index.usersOf target, Relation.ReflTransGen index.Shows start method := by
  obtain ⟨_, queued, closed, led, _⟩ := index.collect_collects (index.usersOf target) []
  unfold impactOf
  rw [List.mem_mergeSort]
  constructor
  · exact fun member => (led method member).resolve_left List.not_mem_nil
  · rintro ⟨start, first, path⟩
    induction path with
    | refl => exact queued first
    | tail _ shows ih => exact closed _ ih List.not_mem_nil _ shows

theorem impactOf_ascending (index : UserIndex) (target : NodeRef) :
    (index.impactOf target).Pairwise fun first second => first.index < second.index := by
  have distinct : (index.impactOf target).Nodup :=
    (List.mergeSort_perm _ _).nodup_iff.mpr ((index.collect_collects _ []).distinct List.nodup_nil)
  have sorted : (index.impactOf target).Pairwise fun first second => decide (first.index ≤ second.index) = true :=
    List.pairwise_mergeSort (by simpa using fun _ _ _ => Nat.le_trans) (by simpa using fun _ _ => Nat.le_total _ _) _
  refine (sorted.and distinct).imp ?_
  rintro ⟨first⟩ ⟨second⟩ ⟨ordered, different⟩
  have ordered : first ≤ second := by simpa using ordered
  exact Nat.lt_of_le_of_ne ordered fun same => different (congrArg Id.mk same)

end UserIndex

end UsageGraph
