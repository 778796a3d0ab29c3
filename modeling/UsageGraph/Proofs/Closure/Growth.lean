import UsageGraph.Proofs.Closure.Memory
import UsageGraph.Proofs.Model.Lengthening

/-! Closures grow with the model.

Whatever is done with a model afterwards, its nodes keep their ids, keys, owners and
kinds, keys go on finding them, and what they have recorded stays recorded. Usages are
told from usages of the own type by owner and from usages of methods by kind, and neither
changes. So a chain of calls is never broken, and a closure or an impact never shrinks.
-/

set_option autoImplicit false
namespace UsageGraph

/-- The builders that can come of a builder, by requests, steps and visits, whatever their outcome. -/
inductive Builder.Continues (start : Builder) : Builder → Prop
  | none : Continues start start
  /-- The model goes on without the scopes that were open. -/
  | renew {builder : Builder} (continued : Continues start builder) : Continues start { model := builder.model }
  | request {builder : Builder} (continued : Continues start builder) (request : Request) :
    Continues start { builder with model := request.grant builder.model }
  | step {builder : Builder} (continued : Continues start builder) (op : Op) : Continues start (op.perform builder).2
  | visit {builder : Builder} (continued : Continues start builder) (module : ModuleDecl) (options : Options)
    (order : Order) {scanner : Scanner} (honest : scanner.Honest) :
    Continues start (builder.visitInOrder module options order scanner).builder

namespace Model

structure Persists (before after : Model) : Prop where
  grows : before.Grows after
  lengthens : before.Lengthens after

theorem Persists.refl (model : Model) : model.Persists model := ⟨.refl model, .refl model⟩

theorem Persists.trans {first second third : Model} (begun : first.Persists second)
    (continued : second.Persists third) : first.Persists third :=
  ⟨begun.grows.trans continued.grows, begun.lengthens.trans continued.lengthens⟩

end Model

namespace Builder

theorem persists_of_steps {before after : Builder} (good : before.Good)
    (taken : Relation.ReflTransGen Step before after) : after.Good ∧ before.model.Persists after.model := by
  obtain ⟨good', edits, becomes⟩ := steps_become good taken
  exact ⟨good', becomes.grows, steps_lengthen taken⟩

theorem Continues.persists {start builder : Builder} (good : start.Good) (continued : start.Continues builder) :
    builder.Good ∧ start.model.Persists builder.model := by
  induction continued with
  | none => exact ⟨good, .refl start.model⟩
  | renew _ ih => exact ⟨⟨ih.1.formed, by simp⟩, ih.2⟩
  | @request builder _ asked ih =>
    have enlarges := asked.grant_enlarges ih.1.formed
    have later : builder.model.Persists (asked.grant builder.model) := ⟨enlarges.grows, asked.grant_lengthens _⟩
    exact ⟨ih.1.grow enlarges.formed enlarges.grows, ih.2.trans later⟩
  | step _ op ih =>
    obtain ⟨good', later⟩ := persists_of_steps ih.1 (.single ⟨op, rfl⟩)
    exact ⟨good', ih.2.trans later⟩
  | @visit builder _ module options order scanner honest ih =>
    obtain ⟨good', later⟩ := persists_of_steps ih.1 (run_steps honest (module.script options order) builder)
    exact ⟨good', ih.2.trans later⟩

end Builder

namespace Model

def StillFound {κ ν ι : Type} (idOf : ν → ι) (find find' : κ → Option ν) : Prop :=
  ∀ key id, (find key).map idOf = some id → (find' key).map idOf = some id

theorem stillFound_of_indexed {κ ι ν : Type} {look look' : ι → Option ν} {find find' : κ → Option ν} {idOf : ν → ι}
    {keyOf : ν → κ} (indexed : Indexed look find idOf keyOf) (indexed' : Indexed look' find' idOf keyOf)
    (grows : ∀ {id node}, look id = some node →
      ∃ later, look' id = some later ∧ idOf later = idOf node ∧ keyOf later = keyOf node) :
    StillFound idOf find find' := by
  intro key id found
  obtain ⟨node, at_key, rfl⟩ := Option.map_eq_some_iff.mp found
  obtain ⟨held, named⟩ := (indexed.find_iff key node).mp at_key
  obtain ⟨later, held', same, sameKey⟩ := grows held
  rw [← same] at held'
  exact Option.map_eq_some_iff.mpr ⟨later, (indexed'.find_iff key later).mpr ⟨held', sameKey.trans named⟩, same⟩

section Formed

variable {before after : Model} (formed : before.WellFormed) (formed' : after.WellFormed) (grows : before.Grows after)
include formed formed' grows

theorem stillFound_assembly : StillFound AssemblyNode.id before.findAssembly? after.findAssembly? :=
  stillFound_of_indexed formed.assemblies_indexed formed'.assemblies_indexed grows.assembly

theorem stillFound_space : StillFound NamespaceNode.id before.findSpace? after.findSpace? := by
  refine stillFound_of_indexed formed.spaces_indexed formed'.spaces_indexed fun held => ?_
  obtain ⟨later, held', id, key, _⟩ := grows.space held
  exact ⟨later, held', id, key⟩

theorem stillFound_type : StillFound TypeNode.id before.findType? after.findType? := by
  refine stillFound_of_indexed formed.types_indexed formed'.types_indexed fun held => ?_
  obtain ⟨later, held', id, key, _⟩ := grows.type held
  exact ⟨later, held', id, key⟩

theorem stillFound_member : StillFound MemberNode.id before.findMember? after.findMember? := by
  refine stillFound_of_indexed formed.members_indexed formed'.members_indexed fun held => ?_
  obtain ⟨later, held', id, key, _⟩ := grows.member held
  exact ⟨later, held', id, key⟩

theorem findMember?_later {key : MemberKey} {node : MemberNode} (found : before.findMember? key = some node) :
    ∃ later, after.findMember? key = some later ∧ later.id = node.id ∧ later.kind = node.kind := by
  obtain ⟨held, named⟩ := (formed.findMember?_eq_some_iff key node).mp found
  obtain ⟨later, held', id, sameKey, _, kind⟩ := grows.member held
  rw [← id] at held'
  exact ⟨later, (formed'.findMember?_eq_some_iff key later).mpr ⟨held', sameKey.trans named⟩, id, kind⟩

theorem stillFound_method : StillFound MemberNode.id before.findMethod? after.findMethod? := by
  intro key id found
  obtain ⟨node, kept, rfl⟩ := Option.map_eq_some_iff.mp found
  obtain ⟨at_key, isMethod⟩ := Option.filter_eq_some_iff.mp kept
  obtain ⟨later, at_key', same, kind⟩ := findMember?_later formed formed' grows at_key
  have isMethod' : later.isMethod = true := by
    rw [MemberNode.isMethod, kind]
    exact isMethod
  exact Option.map_eq_some_iff.mpr ⟨later, Option.filter_eq_some_iff.mpr ⟨at_key', isMethod'⟩, same⟩

theorem resolve?_later {key : NodeKey} {target : NodeRef} (resolved : before.resolve? key = some target) :
    after.resolve? key = some target := by
  cases key with
  | type key =>
    obtain ⟨node, found, rfl⟩ := Option.map_eq_some_iff.mp resolved
    have again := stillFound_type formed formed' grows key node.id (Option.map_eq_some_iff.mpr ⟨node, found, rfl⟩)
    obtain ⟨later, found', same⟩ := Option.map_eq_some_iff.mp again
    exact Option.map_eq_some_iff.mpr ⟨later, found', by rw [same]⟩
  | member kind key =>
    obtain ⟨node, kept, rfl⟩ := Option.map_eq_some_iff.mp resolved
    obtain ⟨at_key, fits⟩ := Option.filter_eq_some_iff.mp kept
    obtain ⟨later, at_key', same, kind'⟩ := findMember?_later formed formed' grows at_key
    refine Option.map_eq_some_iff.mpr ⟨later, Option.filter_eq_some_iff.mpr ⟨at_key', ?_⟩, by rw [same]⟩
    rw [kind']
    exact fits

end Formed

section Closures

variable {before after : Model} (persists : before.Persists after)
include persists

theorem usages?_later {holder : NodeRef} {uses : UsageSet} (recorded : before.usages? holder = some uses) :
    ∃ later, after.usages? holder = some later ∧ uses.toList <+: later.toList := by
  cases holder with
  | type id =>
    obtain ⟨node, held, rfl⟩ := Option.map_eq_some_iff.mp recorded
    obtain ⟨later, held', _, longer⟩ := persists.lengthens.type held
    exact ⟨later.usages, Option.map_eq_some_iff.mpr ⟨later, held', rfl⟩, longer⟩
  | member id =>
    obtain ⟨node, held, rfl⟩ := Option.map_eq_some_iff.mp recorded
    obtain ⟨later, held', longer⟩ := persists.lengthens.member held
    exact ⟨later.usages, Option.map_eq_some_iff.mpr ⟨later, held', rfl⟩, longer⟩

/-- What led outside the type of a member still does, since the member has its old owner and each usage names the
owner of its target as before. -/
theorem usesOf_subset (caller : MemberId) : (before.usesOf caller).targets ⊆ (after.usesOf caller).targets := by
  cases held : before.member? caller with
  | none =>
    have nothing : (before.usesOf caller).targets = [] := by simp [usesOf, directUses?, held, UsageSet.targets]
    rw [nothing]
    exact List.nil_subset _
  | some node =>
    obtain ⟨later, held', longer⟩ := persists.lengthens.member held
    obtain ⟨grown, held'', _, _, owner, _⟩ := persists.grows.member held
    obtain rfl : later = grown := Option.some.inj (held'.symm.trans held'')
    rw [usesOf_eq held, usesOf_eq held', MemberNode.directUses, MemberNode.directUses, owner]
    intro target used
    rw [UsageSet.mem_targets_withoutOwner] at used ⊢
    exact ((longer.filter _).map Usage.target).subset used

theorem isMethod_later {id : MemberId} (isMethod : before.IsMethod id) : after.IsMethod id := by
  obtain ⟨node, held, marked⟩ := isMethod
  obtain ⟨later, held', _, _, _, kind⟩ := persists.grows.member held
  refine ⟨later, held', ?_⟩
  rw [MemberNode.isMethod, kind]
  exact marked

theorem calls_later {caller callee : MemberId} (calls : before.Calls caller callee) : after.Calls caller callee :=
  ⟨usesOf_subset persists caller calls.1, isMethod_later persists calls.2⟩

variable (formed : before.WellFormed) (formed' : after.WellFormed)
include formed formed'

theorem closureOf_subset {method : MemberId} (isMethod : before.IsMethod method) :
    (before.closureOf method).targets ⊆ (after.closureOf method).targets := by
  intro target member
  have later := isMethod_later persists isMethod
  obtain ⟨callee, path, used⟩ := (mem_closureOf_iff formed isMethod.isSome target).mp member
  -- the same chain of calls leads to the same usage
  have path' : Relation.ReflTransGen after.Calls method callee :=
    Relation.ReflTransGen.mono (fun _ _ => calls_later persists) _ _ path
  exact (mem_closureOf_iff formed' later.isSome target).mpr ⟨callee, path', usesOf_subset persists callee used⟩

theorem impactOf_subset (target : NodeRef) : before.impactOf target ⊆ after.impactOf target := by
  intro method member
  obtain ⟨isMethod, used⟩ := (mem_impactOf_iff formed target method).mp member
  exact (mem_impactOf_iff formed' target method).mpr
    ⟨isMethod_later persists isMethod, closureOf_subset persists formed formed' isMethod used⟩

end Closures

/-! ## Models that come later -/

/-- Everything that a model answers is part of what a later one answers. -/
structure Outgrows (before after : Model) : Prop where
  nodes : before.Grows after
  assemblies : StillFound AssemblyNode.id before.findAssembly? after.findAssembly?
  spaces : StillFound NamespaceNode.id before.findSpace? after.findSpace?
  types : StillFound TypeNode.id before.findType? after.findType?
  members : StillFound MemberNode.id before.findMember? after.findMember?
  methods : StillFound MemberNode.id before.findMethod? after.findMethod?
  resolved : ∀ {key target}, before.resolve? key = some target → after.resolve? key = some target
  usages : ∀ {holder uses}, before.usages? holder = some uses →
    ∃ later, after.usages? holder = some later ∧ uses.toList <+: later.toList
  closures : ∀ {engine engine' : Engine}, engine.Serves before → engine'.Serves after →
    ∀ method, before.IsMethod method → ∃ closure later, (engine.indirectUses method).1 = .ok closure ∧
      (engine'.indirectUses method).1 = .ok later ∧ closure.targets ⊆ later.targets
  impacts : ∀ {engine engine' : Engine}, engine.Serves before → engine'.Serves after →
    ∀ target, (engine.impact target).1 ⊆ (engine'.impact target).1
  impactsByKey : ∀ {engine engine' : Engine}, engine.Serves before → engine'.Serves after →
    ∀ {key impact}, (engine.impactByKey key).1 = .ok impact →
      ∃ later, (engine'.impactByKey key).1 = .ok later ∧ impact ⊆ later

theorem Persists.outgrows {before after : Model} (persists : before.Persists after) (formed : before.WellFormed)
    (formed' : after.WellFormed) : before.Outgrows after where
  nodes := persists.grows
  assemblies := stillFound_assembly formed formed' persists.grows
  spaces := stillFound_space formed formed' persists.grows
  types := stillFound_type formed formed' persists.grows
  members := stillFound_member formed formed' persists.grows
  methods := stillFound_method formed formed' persists.grows
  resolved := resolve?_later formed formed' persists.grows
  usages := usages?_later persists
  closures serves serves' method isMethod := by
    refine ⟨before.closureOf method, after.closureOf method, ?_, ?_, closureOf_subset persists formed formed' isMethod⟩
    · rw [serves.indirectUses_eq formed]
      exact (indirectUses_eq_ok_iff formed method _).mpr ⟨isMethod, rfl⟩
    · rw [serves'.indirectUses_eq formed']
      exact (indirectUses_eq_ok_iff formed' method _).mpr ⟨isMethod_later persists isMethod, rfl⟩
  impacts serves serves' target := by
    rw [serves.impact_eq formed, serves'.impact_eq formed']
    exact impactOf_subset persists formed formed' target
  impactsByKey serves serves' key impact given := by
    -- the key still names the node, whose impact has only grown
    rw [serves.impactByKey_eq formed] at given
    rw [serves'.impactByKey_eq formed']
    unfold impactOfKey at given ⊢
    cases resolved : before.resolve? key with
    | none => simp [resolved] at given
    | some target =>
      rw [resolved] at given
      obtain rfl := Except.ok.inj given
      rw [resolve?_later formed formed' persists.grows resolved]
      exact ⟨_, rfl, impactOf_subset persists formed formed' target⟩

end Model

/-- Whatever is done after a model has come up, nothing that it answers is lost. -/
theorem Builder.outgrows_of_continues {start builder : Builder} (reached : start.Reachable)
    (continued : start.Continues builder) : start.model.Outgrows builder.model := by
  have good := reached.good
  obtain ⟨good', persists⟩ := continued.persists good
  exact persists.outgrows good.formed good'.formed

def Builder.serving : Builder :=
  let court : NamespaceKey := ⟨⟨"app"⟩, "court"⟩
  let serve : MemberKey := { owner := { space := court, name := "Server" }, name := "serve" }
  let hit : MemberKey := { owner := { space := court, name := "Receiver" }, name := "hit" }
  replay [.startSpace court, .startType serve.owner false, .startMethod serve false, .useNode (.member .method hit),
    .close (.member .method), .close .type]

/-- The other method is built later on, after a request and a step that fails, and uses the first one in turn. -/
theorem Builder.outgrows_of_continues_serving :
    ∃ builder, serving.Reachable ∧ serving.Continues builder ∧ serving.model.Outgrows builder.model ∧
      (serving.model.usages? (.member ⟨1⟩)).map UsageSet.size = some 0 ∧
      (builder.model.usages? (.member ⟨1⟩)).map UsageSet.size = some 1 := by
  let court : NamespaceKey := ⟨⟨"app"⟩, "court"⟩
  let serve : MemberKey := { owner := { space := court, name := "Server" }, name := "serve" }
  let hit : MemberKey := { owner := { space := court, name := "Receiver" }, name := "hit" }
  let asked : Builder := { serving with model := (Request.external hit.owner).grant serving.model }
  let builder := [Op.close .type, .startType hit.owner false, .startMethod hit false,
    .useNode (.member .method serve)].foldl (fun builder op => (op.perform builder).2) asked
  have continued : serving.Continues builder := ((((Continues.none.request _).step _).step _).step _).step _
  have reached : serving.Reachable := reachable_replay _
  exact ⟨builder, reached, continued, outgrows_of_continues reached continued, by decide, by decide⟩

end UsageGraph
