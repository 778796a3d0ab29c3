import UsageGraph.Proofs.Closure.Memory

/-! What an engine answers.

Whatever an engine has been asked before, the closure of a method is the least closed set
of nodes, and the impact of a change is the closures read backwards. What it remembers is
not seen.
-/

set_option autoImplicit false
namespace UsageGraph

namespace Model

theorem indirectUses_eq_error_iff {model : Model} (formed : model.WellFormed) (method : MemberId) :
    (∃ fault, model.indirectUses method = .error fault) ↔
      model.members.size ≤ method.index ∨ ∃ node, model.member? method = some node ∧ node.isMethod = false := by
  have absent : model.member? method = none ↔ model.members.size ≤ method.index := Array.getElem?_eq_none_iff
  have answered : (∃ fault, model.indirectUses method = .error fault) ↔ ¬ model.IsMethod method := by
    cases computed : model.indirectUses method with
    | ok closure => simp [((indirectUses_eq_ok_iff formed method closure).mp computed).1]
    | error fault =>
      refine iff_of_true ⟨fault, rfl⟩ fun isMethod => ?_
      cases computed.symm.trans ((indirectUses_eq_ok_iff formed method _).mpr ⟨isMethod, rfl⟩)
  rw [answered, ← absent]
  unfold IsMethod
  cases model.member? method <;> simp

theorem notFound_of_indirectUses {model : Model} (formed : model.WellFormed) {method : MemberId} {fault : Fault}
    (failed : model.indirectUses method = .error fault) : ∃ what, fault = .notFound what := by
  cases required : model.requireMethod method with
  | ok =>
    have isMethod := (requireMethod_eq_ok_iff model method).mp required
    cases failed.symm.trans ((indirectUses_eq_ok_iff formed method _).mpr ⟨isMethod, rfl⟩)
  | error refused =>
    rw [indirectUses, required] at failed
    obtain rfl := Except.error.inj failed
    unfold requireMethod at required
    split at required
    · exact ⟨_, (Except.error.inj required).symm⟩
    · split at required
      · cases required
      · exact ⟨_, (Except.error.inj required).symm⟩

end Model

namespace Engine

/-- The closure of a method is the least set of nodes that is closed under usage. Its search does not fail, since
whatever is recorded as a usage of a method leads to a method of the model. The method itself is part of the set if it
lies on a cycle of calls. -/
theorem indirectUses_isLeast {model : Model} (reached : model.Reachable) {engine : Engine}
    (serves : engine.Serves model) {method : MemberId} (isMethod : model.IsMethod method) :
    (∀ caller callee, model.Leads caller callee → model.IsMethod callee) ∧
      ∃ closure, (engine.indirectUses method).1 = .ok closure ∧ closure.targets.Nodup ∧
        IsLeast { nodes | model.UsesClosed method nodes } { target | target ∈ closure.targets } ∧
        (.member method ∈ closure.targets ↔ Relation.TransGen model.Calls method method) := by
  have formed := reached.wellFormed
  refine ⟨fun _ _ leads => ((Model.leads_iff_calls formed _ _).mp leads).2, model.closureOf method, ?_,
    Model.nodup_closureOf formed isMethod.isSome, Model.isLeast_closureOf formed isMethod.isSome,
    Model.self_mem_closureOf_iff formed isMethod⟩
  rw [serves.indirectUses_eq formed]
  exact (Model.indirectUses_eq_ok_iff formed method _).mpr ⟨isMethod, rfl⟩

def pingPong : Model :=
  let space : NamespaceKey := ⟨⟨"app"⟩, "game"⟩
  let ping : MemberKey := { owner := { space, name := "Ping" }, name := "serve" }
  let pong : MemberKey := { owner := { space, name := "Pong" }, name := "return" }
  (Builder.replay [.startSpace space, .startType ping.owner false, .startMethod ping false,
    .useNode (.member .method pong),
    .close (.member .method), .close .type, .startType pong.owner false, .startMethod pong false,
    .useNode (.member .method ping)]).model

theorem indirectUses_isLeast_pingPong :
    ∃ closure, (({ model := pingPong } : Engine).indirectUses ⟨0⟩).1 = .ok closure ∧
      IsLeast { nodes | pingPong.UsesClosed ⟨0⟩ nodes } { target | target ∈ closure.targets } ∧
      closure.targets = [.member ⟨1⟩, .member ⟨0⟩] ∧ Relation.TransGen pingPong.Calls ⟨0⟩ ⟨0⟩ := by
  have marked : (pingPong.member? ⟨0⟩).map MemberNode.isMethod = some true := by decide +kernel
  obtain ⟨node, held, isMethod⟩ := Option.map_eq_some_iff.mp marked
  obtain ⟨_, closure, answered, _, least, cycle⟩ :=
    indirectUses_isLeast (Model.reachable_replay _) (.fresh : Engine.Serves pingPong _) ⟨node, held, isMethod⟩
  have targets : closure.targets = [.member ⟨1⟩, .member ⟨0⟩] := by
    have computed : ((({ model := pingPong } : Engine).indirectUses ⟨0⟩).1.map UsageSet.targets) =
        .ok [.member ⟨1⟩, .member ⟨0⟩] := by decide +kernel
    rw [answered] at computed
    exact Except.ok.inj computed
  exact ⟨closure, answered, least, targets, cycle.mp (by simp [targets])⟩

/-- The methods that a change to a node shows in are, in order, those whose closure holds the node; by key the
question fails only where no node has the key. -/
theorem impact_reverses_indirectUses {model : Model} (reached : model.Reachable) {engine : Engine}
    (serves : engine.Serves model) (target : NodeRef) :
    ((engine.impact target).1.Pairwise fun first second => first.index < second.index) ∧
      (∀ method, method ∈ (engine.impact target).1 ↔
        ∃ closure, (engine.indirectUses method).1 = .ok closure ∧ target ∈ closure.targets) ∧
      (∀ key, model.resolve? key = some target → (engine.impactByKey key).1 = .ok (engine.impact target).1) ∧
      ∀ key, (engine.impactByKey key).1 = .error (.notFound key.text) ↔ model.resolve? key = none := by
  have formed := reached.wellFormed
  simp only [serves.impact_eq formed, serves.impactByKey_eq formed, serves.indirectUses_eq formed]
  refine ⟨Model.impactOf_ascending formed target, fun method => ?_, fun key resolved => ?_, fun key => ?_⟩
  · simp only [Model.mem_impactOf_iff formed, Model.indirectUses_eq_ok_iff formed]
    constructor
    · rintro ⟨isMethod, used⟩
      exact ⟨_, ⟨isMethod, rfl⟩, used⟩
    · rintro ⟨closure, ⟨isMethod, rfl⟩, used⟩
      exact ⟨isMethod, used⟩
  · simp [Model.impactOfKey, resolved]
  · unfold Model.impactOfKey
    cases model.resolve? key <;> simp

/-- An engine that has been asked for all closures is asked for the impact of a change. -/
theorem impact_reverses_indirectUses_pingPong :
    let engine := (({ model := pingPong } : Engine).answer .closures).2
    (engine.impact (.member ⟨1⟩)).1 = [⟨0⟩, ⟨1⟩] ∧
      ∀ method ∈ [⟨0⟩, ⟨1⟩], ∃ closure, (engine.indirectUses method).1 = .ok closure ∧
        .member ⟨1⟩ ∈ closure.targets := by
  intro engine
  have reached : pingPong.Reachable := Model.reachable_replay _
  have serves : engine.Serves pingPong := Serves.fresh.asked .closures
  have impact : (engine.impact (.member ⟨1⟩)).1 = [⟨0⟩, ⟨1⟩] := by
    rw [serves.impact_eq reached.wellFormed]
    decide +kernel
  refine ⟨impact, ?_⟩
  have reverses := impact_reverses_indirectUses reached serves (.member ⟨1⟩)
  rw [impact] at reverses
  exact fun method member => (reverses.2.1 method).mp member

theorem answer_fresh {model : Model} (formed : model.WellFormed) (query : Query) :
    (({ model } : Engine).answer query).1 = query.onModel model := by
  obtain ⟨after, given, _⟩ := (Remembers.fresh model).answer formed query
  rw [given]

/-- An engine that has given some answers to some queries cannot be told from fresh ones. -/
structure ActsFresh (model : Model) (asked : List Query) (answers : List Answer) (engine : Engine) : Prop where
  answers_eq : answers = asked.map fun query => (({ model } : Engine).answer query).1
  /-- Only ids of methods have closures. -/
  fails_iff : ∀ method, (∃ fault, (engine.indirectUses method).1 = .error fault) ↔
    model.members.size ≤ method.index ∨ ∃ node, model.member? method = some node ∧ node.isMethod = false
  /-- Nothing is remembered of a question that fails. -/
  failure : ∀ {method fault}, (engine.indirectUses method).1 = .error fault →
    (∃ what, fault = .notFound what) ∧ (engine.indirectUses method).2 = engine
  /-- All methods have closures, each its own. -/
  closures : ∃ closures, engine.closures.1 = .ok closures ∧ (closures.map Prod.fst).Nodup ∧
    (∀ method, method ∈ closures.map Prod.fst ↔ model.IsMethod method) ∧
    ∀ entry ∈ closures, (({ model } : Engine).indirectUses entry.1).1 = .ok entry.2
  /-- Listed users lead where asking every method leads. -/
  impact : ∀ target, (engine.impact target).1 = model.impactOf target
  cacheSize : engine.cacheSize =
    ((asked.zip answers).flatMap fun exchange => exchange.1.answered exchange.2).dedup.length

theorem Remembers.closures_told {model : Model} {answered : List MemberId} {engine : Engine}
    (remembers : engine.Remembers model answered) (formed : model.WellFormed) :
    ∃ closures, engine.closures.1 = .ok closures ∧ (closures.map Prod.fst).Nodup ∧
      (∀ method, method ∈ closures.map Prod.fst ↔ model.IsMethod method) ∧
      ∀ entry ∈ closures, (({ model } : Engine).indirectUses entry.1).1 = .ok entry.2 := by
  obtain ⟨after, given, _⟩ := remembers.closures formed
  have ids : (model.methods.map fun node => (node.id, model.closureOf node.id)).map Prod.fst =
      model.methods.map MemberNode.id := by simp [Function.comp_def]
  refine ⟨_, by rw [given], ids ▸ formed.nodup_methodIds, fun method => ?_, ?_⟩
  · rw [ids]
    exact formed.mem_methodIds_iff method
  · intro entry member
    obtain ⟨node, present, rfl⟩ := List.mem_map.mp member
    have isMethod := (formed.mem_methodIds_iff node.id).mp (List.mem_map_of_mem present)
    have computed := (Model.indirectUses_eq_ok_iff formed node.id _).mpr ⟨isMethod, rfl⟩
    obtain ⟨_, fresh, _⟩ := (Remembers.fresh model).indirectUses_of_ok computed
    rw [fresh]

/-- Whatever an engine is asked, and in whatever order, its answers are those of fresh engines, and it has as many
closures as there are methods that it has answered for. -/
theorem answerAll_acts_fresh {model : Model} (reached : model.Reachable) (asked : List Query) :
    ActsFresh model asked (({ model } : Engine).answerAll asked).1 (({ model } : Engine).answerAll asked).2 := by
  have formed := reached.wellFormed
  obtain ⟨engine, given, remembers⟩ := (Remembers.fresh model).answerAll formed asked
  have answers : asked.map (Query.onModel model) = asked.map fun query => (({ model } : Engine).answer query).1 :=
    List.map_congr_left fun query _ => (answer_fresh formed query).symm
  have indirect : ∀ method, (engine.indirectUses method).1 = model.indirectUses method := remembers.indirectUses_eq
  rw [given]
  refine ⟨answers, fun method => ?_, fun {method fault} failed => ?_, remembers.closures_told formed,
    fun target => ?_, ?_⟩
  · rw [indirect]
    exact Model.indirectUses_eq_error_iff formed method
  · rw [indirect] at failed
    rw [remembers.indirectUses_of_error failed]
    exact ⟨Model.notFound_of_indirectUses formed failed, rfl⟩
  · obtain ⟨after, found, _⟩ := remembers.impact formed target
    rw [found]
  · have paired : asked.zip (asked.map (Query.onModel model)) =
        asked.map fun query => (query, query.onModel model) := by
      simpa using List.zip_map' (f := id) (g := Query.onModel model) (l := asked)
    rw [remembers.cacheSize, List.nil_append, paired, List.flatMap_map]

/-- One of the methods is asked for twice, once with all methods, and an id beyond the last one in between. -/
theorem answerAll_acts_fresh_pingPong :
    let asked : List Query :=
      [.impact (.member ⟨1⟩), .indirectUses ⟨0⟩, .indirectUses ⟨7⟩, .closures, .directUses (.type ⟨0⟩)]
    pingPong.Reachable ∧
      ActsFresh pingPong asked (({ model := pingPong } : Engine).answerAll asked).1
        (({ model := pingPong } : Engine).answerAll asked).2 ∧
      (({ model := pingPong } : Engine).answerAll asked).2.cacheSize = 2 := by
  intro asked
  have reached : pingPong.Reachable := Model.reachable_replay _
  have acts := answerAll_acts_fresh reached asked
  refine ⟨reached, acts, ?_⟩
  have ids : pingPong.methods.map MemberNode.id = [⟨0⟩, ⟨1⟩] := by decide
  have first : pingPong.IsMethod ⟨0⟩ := (reached.wellFormed.mem_methodIds_iff _).mp (by simp [ids])
  have beyond : pingPong.indirectUses ⟨7⟩ = .error (.notFound "m7") := rfl
  rw [acts.cacheSize, acts.answers_eq]
  simp [asked, answer_fresh reached.wellFormed, Query.onModel, Query.answered, beyond,
    (Model.indirectUses_eq_ok_iff reached.wellFormed ⟨0⟩ _).mpr ⟨first, rfl⟩, Function.comp_def, ids]

end Engine

end UsageGraph
