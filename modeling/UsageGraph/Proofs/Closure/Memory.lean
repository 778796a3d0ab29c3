import Mathlib.Data.List.Dedup
import UsageGraph.Closure.Engine
import UsageGraph.Proofs.Closure.Impact

/-! What an engine remembers.

An engine that has been asked any queries gives the answers of the model itself. It
remembers a closure for each method that it has answered for, and no other, and the users
that it has listed are those of the model.
-/

set_option autoImplicit false
namespace UsageGraph

namespace Engine

inductive Query where
  | indirectUses (method : MemberId)
  | closures
  | impact (target : NodeRef)
  | impactByKey (key : NodeKey)
  | directUses (node : NodeRef)

inductive Answer where
  | indirectUses (result : Except Fault UsageSet)
  | closures (result : Except Fault (List (MemberId × UsageSet)))
  | impact (methods : List MemberId)
  | impactByKey (result : Except Fault (List MemberId))
  | directUses (uses : Option UsageSet)

def answer (engine : Engine) : Query → Answer × Engine
  | .indirectUses method => (engine.indirectUses method).map .indirectUses id
  | .closures => engine.closures.map .closures id
  | .impact target => (engine.impact target).map .impact id
  | .impactByKey key => (engine.impactByKey key).map .impactByKey id
  | .directUses node => (.directUses (engine.directUses? node), engine)

def answerAll (engine : Engine) : List Query → List Answer × Engine
  | [] => ([], engine)
  | query :: rest =>
    let (first, engine) := engine.answer query
    let (others, engine) := engine.answerAll rest
    (first :: others, engine)

def Query.answered : Query → Answer → List MemberId
  | .indirectUses method, .indirectUses (.ok _) => [method]
  | .closures, .closures (.ok entries) => entries.map Prod.fst
  | _, _ => []

/-- The answer that a model gives to a query, without an engine that remembers. -/
def Query.onModel (model : Model) : Query → Answer
  | .indirectUses method => .indirectUses (model.indirectUses method)
  | .closures => .closures (.ok (model.methods.map fun node => (node.id, model.closureOf node.id)))
  | .impact target => .impact (model.impactOf target)
  | .impactByKey key => .impactByKey (model.impactOfKey key)
  | .directUses node => .directUses (model.directUses? node)

/-- An engine has the closures of the methods that it has answered for, and the users that the model tells. -/
structure Remembers (model : Model) (answered : List MemberId) (engine : Engine) : Prop where
  model_eq : engine.model = model
  cached : ∀ entry ∈ engine.cache, model.indirectUses entry.1 = .ok entry.2
  distinct : (engine.cache.map Prod.fst).Nodup
  mem_iff : ∀ method, method ∈ engine.cache.map Prod.fst ↔ method ∈ answered
  users : ∀ index ∈ engine.users, index = model.userIndex

theorem Remembers.fresh (model : Model) : ({ model } : Engine).Remembers model [] :=
  ⟨rfl, by simp, by simp, by simp, by simp⟩

theorem cached?_eq_none_iff (engine : Engine) (method : MemberId) :
    engine.cached? method = none ↔ method ∉ engine.cache.map Prod.fst := by
  unfold cached?
  rw [Option.map_eq_none_iff, List.find?_eq_none, List.mem_map]
  constructor
  · rintro absent ⟨entry, member, rfl⟩
    simpa using absent entry member
  · rintro absent entry member
    simpa using fun same => absent ⟨entry, member, same⟩

namespace Remembers

variable {model : Model} {answered : List MemberId} {engine : Engine}

theorem congr {others : List MemberId} (remembers : engine.Remembers model answered)
    (same : ∀ method, method ∈ answered ↔ method ∈ others) : engine.Remembers model others :=
  { remembers with mem_iff := fun method => (remembers.mem_iff method).trans (same method) }

theorem cacheSize (remembers : engine.Remembers model answered) : engine.cacheSize = answered.dedup.length := by
  have same : (engine.cache.map Prod.fst).Perm answered.dedup := by
    refine (List.perm_ext_iff_of_nodup remembers.distinct answered.nodup_dedup).mpr fun method => ?_
    rw [remembers.mem_iff, List.mem_dedup]
  rw [← same.length_eq, List.length_map]
  rfl

theorem cached_eq (remembers : engine.Remembers model answered) {method : MemberId} {closure : UsageSet}
    (found : engine.cached? method = some closure) : model.indirectUses method = .ok closure := by
  obtain ⟨entry, present, rfl⟩ := Option.map_eq_some_iff.mp found
  have same : entry.1 = method := by simpa using List.find?_some present
  rw [← same]
  exact remembers.cached entry (List.mem_of_find?_eq_some present)

theorem indirectUses_of_ok (remembers : engine.Remembers model answered) {method : MemberId} {closure : UsageSet}
    (computed : model.indirectUses method = .ok closure) :
    ∃ after, engine.indirectUses method = (.ok closure, after) ∧ after.Remembers model (answered ++ [method]) := by
  obtain ⟨required, expanded⟩ := (Model.indirectUses_eq_ok method closure).mp computed
  unfold Engine.indirectUses
  rw [remembers.model_eq, required]
  cases found : engine.cached? method with
  | some remembered =>
    -- the method has been answered for before, so it does not count again
    have known : method ∈ answered := by
      rw [← remembers.mem_iff]
      by_contra absent
      simp [(cached?_eq_none_iff engine method).mpr absent] at found
    obtain rfl := Except.ok.inj ((remembers.cached_eq found).symm.trans computed)
    refine ⟨engine, rfl, remembers.congr fun other => ?_⟩
    rw [List.mem_append, List.mem_singleton]
    exact ⟨.inl, fun either => either.elim id fun same => same ▸ known⟩
  | none =>
    have unknown := (cached?_eq_none_iff engine method).mp found
    simp only [expanded]
    refine ⟨_, rfl, rfl, ?_, ?_, ?_, remembers.users⟩
    · intro entry member
      rcases List.mem_append.mp member with member | added
      · exact remembers.cached entry member
      · rw [List.mem_singleton.mp added]
        exact computed
    · rw [List.map_append]
      exact remembers.distinct.append (List.nodup_singleton _) (List.disjoint_singleton.mpr unknown)
    · intro other
      simp only [List.map_append, List.mem_append, remembers.mem_iff, List.map_cons, List.map_nil]

theorem indirectUses_of_error (remembers : engine.Remembers model answered) {method : MemberId} {fault : Fault}
    (failed : model.indirectUses method = .error fault) : engine.indirectUses method = (.error fault, engine) := by
  -- what has no closure is not cached either, and is not cached now
  have unknown : engine.cached? method = none := by
    cases found : engine.cached? method with
    | none => rfl
    | some remembered => cases failed.symm.trans (remembers.cached_eq found)
  unfold Engine.indirectUses
  rw [remembers.model_eq, unknown]
  unfold Model.indirectUses at failed
  cases required : model.requireMethod method with
  | error refused =>
    rw [required] at failed
    cases failed
    rfl
  | ok =>
    rw [required] at failed
    have failed : model.closureFrom method = .error fault := failed
    simp only [failed]

theorem indirectUses_eq (remembers : engine.Remembers model answered) (method : MemberId) :
    (engine.indirectUses method).1 = model.indirectUses method := by
  cases computed : model.indirectUses method with
  | ok closure =>
    obtain ⟨after, given, _⟩ := remembers.indirectUses_of_ok computed
    rw [given]
  | error fault => rw [remembers.indirectUses_of_error computed]

theorem indirectUsesOf (remembers : engine.Remembers model answered) (formed : model.WellFormed)
    {methods : List MemberId} (each : ∀ method ∈ methods, model.IsMethod method) :
    ∃ after, engine.indirectUsesOf methods = (.ok (methods.map fun method => (method, model.closureOf method)), after) ∧
      after.Remembers model (answered ++ methods) := by
  induction methods generalizing engine answered with
  | nil => exact ⟨engine, rfl, by simpa using remembers⟩
  | cons method rest ih =>
    have computed := (Model.indirectUses_eq_ok_iff formed method _).mpr ⟨each method List.mem_cons_self, rfl⟩
    obtain ⟨middle, first, remembers⟩ := remembers.indirectUses_of_ok computed
    obtain ⟨after, others, remembers⟩ := ih remembers fun other member => each other (List.mem_cons_of_mem _ member)
    refine ⟨after, ?_, by simpa using remembers⟩
    simp only [Engine.indirectUsesOf, first, others]
    rfl

theorem closures (remembers : engine.Remembers model answered) (formed : model.WellFormed) :
    ∃ after, engine.closures = (.ok (model.methods.map fun node => (node.id, model.closureOf node.id)), after) ∧
      after.Remembers model (answered ++ model.methods.map MemberNode.id) := by
  unfold Engine.closures
  rw [remembers.model_eq]
  have each : ∀ method ∈ model.methods.map MemberNode.id, model.IsMethod method :=
    fun method => (formed.mem_methodIds_iff method).mp
  simpa only [List.map_map, Function.comp_def] using remembers.indirectUsesOf formed each

theorem userIndex (remembers : engine.Remembers model answered) :
    ∃ after, engine.userIndex = (model.userIndex, after) ∧ after.Remembers model answered := by
  unfold Engine.userIndex
  rw [remembers.model_eq]
  cases listed : engine.users with
  | some index =>
    obtain rfl := remembers.users index listed
    exact ⟨engine, rfl, remembers⟩
  | none => exact ⟨_, rfl, { remembers with model_eq := rfl, users := by simp }⟩

theorem impact (remembers : engine.Remembers model answered) (formed : model.WellFormed) (target : NodeRef) :
    ∃ after, engine.impact target = (model.impactOf target, after) ∧ after.Remembers model answered := by
  obtain ⟨after, listed, remembers⟩ := remembers.userIndex
  refine ⟨after, ?_, remembers⟩
  simp only [Engine.impact, listed, Model.impactOf_userIndex formed]

theorem impactByKey (remembers : engine.Remembers model answered) (formed : model.WellFormed) (key : NodeKey) :
    ∃ after, engine.impactByKey key = (model.impactOfKey key, after) ∧ after.Remembers model answered := by
  unfold Engine.impactByKey Model.impactOfKey
  rw [remembers.model_eq]
  cases model.resolve? key with
  | none => exact ⟨engine, rfl, remembers⟩
  | some target =>
    obtain ⟨after, found, remembers⟩ := remembers.impact formed target
    exact ⟨after, by simp only [found], remembers⟩

/-- One query: the model's own answer is given, and the methods that it is about are remembered. -/
theorem answer (remembers : engine.Remembers model answered) (formed : model.WellFormed) (query : Query) :
    ∃ after, engine.answer query = (query.onModel model, after) ∧
      after.Remembers model (answered ++ query.answered (query.onModel model)) := by
  cases query with
  | indirectUses method =>
    cases computed : model.indirectUses method with
    | ok closure =>
      obtain ⟨after, given, remembers⟩ := remembers.indirectUses_of_ok computed
      refine ⟨after, ?_, ?_⟩
      · simp [Engine.answer, given, Query.onModel, computed]
      · simpa [Query.answered, Query.onModel, computed] using remembers
    | error fault =>
      -- a question that fails leaves the engine as it is
      refine ⟨engine, ?_, ?_⟩
      · simp [Engine.answer, remembers.indirectUses_of_error computed, Query.onModel, computed]
      · simpa [Query.answered, Query.onModel, computed] using remembers
  | closures =>
    obtain ⟨after, given, remembers⟩ := remembers.closures formed
    refine ⟨after, ?_, ?_⟩
    · simp [Engine.answer, given, Query.onModel]
    · simpa [Query.answered, Query.onModel, Function.comp_def] using remembers
  | impact target =>
    obtain ⟨after, given, remembers⟩ := remembers.impact formed target
    exact ⟨after, by simp [Engine.answer, given, Query.onModel], by simpa [Query.answered] using remembers⟩
  | impactByKey key =>
    obtain ⟨after, given, remembers⟩ := remembers.impactByKey formed key
    exact ⟨after, by simp [Engine.answer, given, Query.onModel], by simpa [Query.answered] using remembers⟩
  | directUses node =>
    refine ⟨engine, ?_, by simpa [Query.answered] using remembers⟩
    simp [Engine.answer, Engine.directUses?, remembers.model_eq, Query.onModel]

theorem answerAll (remembers : engine.Remembers model answered) (formed : model.WellFormed) (asked : List Query) :
    ∃ after, engine.answerAll asked = (asked.map (Query.onModel model), after) ∧
      after.Remembers model (answered ++ asked.flatMap fun query => query.answered (query.onModel model)) := by
  induction asked generalizing engine answered with
  | nil => exact ⟨engine, rfl, by simpa using remembers⟩
  | cons query rest ih =>
    obtain ⟨middle, first, remembers⟩ := remembers.answer formed query
    obtain ⟨after, others, remembers⟩ := ih remembers
    refine ⟨after, ?_, by simpa using remembers⟩
    simp only [Engine.answerAll, first, others, List.map_cons]

end Remembers

/-- An engine that has been asked about one model, whatever and as often as one likes. -/
inductive Serves (model : Model) : Engine → Prop
  | fresh : Serves model { model }
  | asked {engine : Engine} (serves : Serves model engine) (query : Query) : Serves model (engine.answer query).2

theorem Serves.remembers {model : Model} (formed : model.WellFormed) {engine : Engine} (serves : engine.Serves model) :
    ∃ answered, engine.Remembers model answered := by
  induction serves with
  | fresh => exact ⟨[], .fresh model⟩
  | asked _ query ih =>
    obtain ⟨answered, remembers⟩ := ih
    obtain ⟨after, given, remembers⟩ := remembers.answer formed query
    rw [given]
    exact ⟨_, remembers⟩

section Served

variable {model : Model} (formed : model.WellFormed) {engine : Engine} (serves : engine.Serves model)
include formed serves

theorem Serves.indirectUses_eq (method : MemberId) : (engine.indirectUses method).1 = model.indirectUses method := by
  obtain ⟨_, remembers⟩ := serves.remembers formed
  exact remembers.indirectUses_eq method

theorem Serves.impact_eq (target : NodeRef) : (engine.impact target).1 = model.impactOf target := by
  obtain ⟨_, remembers⟩ := serves.remembers formed
  obtain ⟨_, given, _⟩ := remembers.impact formed target
  rw [given]

theorem Serves.impactByKey_eq (key : NodeKey) : (engine.impactByKey key).1 = model.impactOfKey key := by
  obtain ⟨_, remembers⟩ := serves.remembers formed
  obtain ⟨_, given, _⟩ := remembers.impactByKey formed key
  rw [given]

end Served

end Engine

end UsageGraph
