import UsageGraph.Proofs.Traversal.Parts
import UsageGraph.Proofs.Traversal.Quiet
import UsageGraph.Proofs.View.Faithful
import UsageGraph.Proofs.Model.Lengthening

/-! Generic references are used as a whole.

Following a reference uses the types that it names, each before its arguments, and comes
back to the walk from which it started, also when its arguments are nested too deeply. The
innermost scope then lists the named types after what it used before, each of them once,
and no other node uses anything more.
-/

set_option autoImplicit false
namespace UsageGraph

namespace Tree

variable {α : Type}

mutual

/-- The branches of a tree: each leads from the root down to a leaf. -/
def branches : Tree α → List (List (Tree α))
  | .node label children =>
    if children.isEmpty then [[.node label children]]
    else (forestBranches children).map (.node label children :: ·)

def forestBranches : List (Tree α) → List (List (Tree α))
  | [] => []
  | tree :: rest => tree.branches ++ forestBranches rest

end

def isApplied (tree : Tree α) : Bool := !tree.children.isEmpty

theorem forestBranches_eq_flatMap (forest : List (Tree α)) : forestBranches forest = forest.flatMap branches := by
  induction forest with
  | nil => simp [forestBranches]
  | cons tree rest ih => simp [forestBranches, ih]

theorem exists_branch : (tree : Tree α) → ∃ branch, branch ∈ tree.branches
  | .node label [] => ⟨_, by simp [branches]; rfl⟩
  | .node label (child :: rest) => by
    obtain ⟨branch, member⟩ := exists_branch child
    exact ⟨.node label (child :: rest) :: branch, by simp [branches, forestBranches, member]⟩

/-- Trees are nested as deeply as the branch on which most have children. -/
theorem nesting_le_iff : (tree : Tree α) → (bound : Nat) →
    (tree.nesting ≤ bound ↔ ∀ branch ∈ tree.branches, branch.countP isApplied ≤ bound)
  | .node label children, bound => by
    cases applied : children.isEmpty with
    | true =>
      obtain rfl := List.isEmpty_iff.mp applied
      simp [nesting, branches, isApplied, Tree.children]
    | false =>
      have counted : ∀ branch : List (Tree α), (Tree.node label children :: branch).countP isApplied =
          branch.countP isApplied + 1 := by
        intro branch
        rw [List.countP_cons_of_pos]
        simp [isApplied, Tree.children, applied]
      rw [nesting, branches, applied]
      simp only [Bool.false_eq_true, if_false, List.forall_mem_map, counted, forestBranches_eq_flatMap,
        List.mem_flatMap, forall_exists_index, and_imp]
      -- one level is the root's own, the others are those of its children
      cases bound with
      | zero =>
        obtain ⟨child, rest, rfl⟩ := List.exists_cons_of_ne_nil (List.isEmpty_eq_false_iff.mp applied)
        obtain ⟨branch, member⟩ := exists_branch child
        constructor
        · intro small
          omega
        · intro all
          exact absurd (all branch child (by simp) member) (by omega)
      | succ bound =>
        rw [Nat.add_le_add_iff_right, forestNesting_le_iff]
        constructor
        · intro shallow branch child among member
          have := (nesting_le_iff child bound).mp (shallow child among) branch member
          omega
        · intro all child among
          refine (nesting_le_iff child bound).mpr fun branch member => ?_
          have := all branch child among member
          omega

end Tree

/-! ## Following a reference -/

namespace Visit

mutual

/-- Follows a reference, where something else can be made of a reference that is in progress already. -/
def useRefOr (skipped : Visit Unit) : TypeRef → Visit Unit
  | .node key arguments => do
    step (.useType key)
    unless arguments.isEmpty do
      if ← enterReference (.node key arguments) then
        leavingReference (useRefsOr skipped arguments)
      else skipped

def useRefsOr (skipped : Visit Unit) : List TypeRef → Visit Unit
  | [] => pure ()
  | reference :: rest => do
    useRefOr skipped reference
    useRefsOr skipped rest

end

/-- A visit uses types and comes back to the walk from which it started. If it does not fit, the limit of references
stops it on the way. -/
structure Uses (visit : Visit Unit) (walk : Walk) (fits : Prop) (keys : List TypeKey) : Prop where
  completes : fits → visit.ending walk = (.ok (), walk) ∧ visit.actions walk = keys.map fun key => .op (.useType key)
  stops : ¬ fits → visit.ending walk = (.error (.recursionLimit walk.references.limit), walk) ∧
    ∃ reached, reached <+: keys ∧ visit.actions walk = reached.map fun key => .op (.useType key)

namespace Uses

variable {walk : Walk} {fits fits' : Prop} {keys keys' : List TypeKey}

theorem congr {visit : Visit Unit} (uses : visit.Uses walk fits keys) (same : fits ↔ fits') :
    visit.Uses walk fits' keys :=
  ⟨fun holds => uses.completes (same.mpr holds), fun fails => uses.stops fun holds => fails (same.mp holds)⟩

theorem pure (walk : Walk) : (pure () : Visit Unit).Uses walk True [] :=
  ⟨fun _ => ⟨rfl, rfl⟩, fun never => absurd trivial never⟩

theorem useType (walk : Walk) (key : TypeKey) : (step (.useType key)).Uses walk True [key] :=
  ⟨fun _ => ⟨rfl, rfl⟩, fun never => absurd trivial never⟩

theorem bind {visit : Visit Unit} {next : Unit → Visit Unit} (first : visit.Uses walk fits keys)
    (second : (next ()).Uses walk fits' keys') : (visit >>= next).Uses walk (fits ∧ fits') (keys ++ keys') where
  completes both := by
    obtain ⟨ended, acted⟩ := first.completes both.1
    obtain ⟨ended', acted'⟩ := second.completes both.2
    rw [ending_bind_of_ok ended, actions_bind_of_ok ended, acted, acted', List.map_append]
    exact ⟨ended', rfl⟩
  stops neither := by
    by_cases begun : fits
    · obtain ⟨ended, acted⟩ := first.completes begun
      obtain ⟨ended', reached, part, acted'⟩ := second.stops fun rest => neither ⟨begun, rest⟩
      rw [ending_bind_of_ok ended, actions_bind_of_ok ended, acted, acted', ← List.map_append]
      exact ⟨ended', keys ++ reached, (List.prefix_append_right_inj keys).mpr part, rfl⟩
    · obtain ⟨ended, reached, part, acted⟩ := first.stops begun
      rw [ending_bind_of_error ended, actions_bind_of_error ended, acted]
      exact ⟨rfl, reached, part.trans (List.prefix_append keys keys'), rfl⟩

end Uses

theorem enterReference_apply {walk : Walk} {reference : TypeRef} (fresh : reference ∉ walk.references.stack) :
    enterReference reference walk = Script.done
      (if walk.references.depth < walk.references.limit then (.ok true, follow walk reference)
        else (.error (.recursionLimit walk.references.limit), walk)) := by
  by_cases room : walk.references.depth < walk.references.limit
  · have entered := (Guard.enter_of_fresh fresh).trans (if_pos room)
    rw [if_pos room, enterReference_of_entered entered]
    rfl
  · have full := (Guard.enter_of_fresh fresh).trans (if_neg room)
    rw [if_neg room, enterReference_of_full full]

theorem following_uses {walk : Walk} {reference : TypeRef} {inner : Visit Unit} {fits : Prop} {keys : List TypeKey}
    (fresh : reference ∉ walk.references.stack)
    (uses : walk.references.depth < walk.references.limit → inner.Uses (follow walk reference) fits keys) :
    (do if ← enterReference reference then leavingReference inner).Uses walk
      (walk.references.depth < walk.references.limit ∧ fits) keys := by
  generalize follows : (do if ← enterReference reference then leavingReference inner : Visit Unit) = visit
  -- the reference is not in progress, so it is entered, or it is too deep
  rcases walk.references.enter_cases reference with ⟨active, _⟩ | ⟨_, room, entered⟩ | ⟨_, full, entered⟩
  · exact absurd active fresh
  · obtain ⟨acted, ended⟩ := following_of_entered follows.symm entered
    have came : ∀ {result}, inner.ending (follow walk reference) = (result, follow walk reference) →
        visit.ending walk = (result, walk) := by
      intro result inside
      unfold follow at inside
      rw [ended, inside]
      exact congrArg (Prod.mk result) (leave_follow fresh)
    constructor
    · rintro ⟨_, holds⟩
      obtain ⟨inside, uses⟩ := (uses room).completes holds
      exact ⟨came inside, acted.trans uses⟩
    · intro fails
      obtain ⟨inside, reached, part, uses⟩ := (uses room).stops fun holds => fails ⟨room, holds⟩
      exact ⟨came inside, reached, part, acted.trans uses⟩
  · obtain ⟨acted, ended⟩ := following_of_full follows.symm entered
    exact ⟨fun holds => absurd holds.1 (Nat.not_lt.mpr full), fun _ => ⟨ended, [], List.nil_prefix, acted⟩⟩

mutual

/-- Below references that are all larger, a reference is used as a whole and no reference in progress is met again. -/
theorem useRef_uses : (reference : TypeRef) → (walk : Walk) → walk.references.depth ≤ walk.references.limit →
    (∀ outer ∈ walk.references.stack, sizeOf reference < sizeOf outer) →
    (useRef reference).Uses walk (Room walk reference) reference.preorder ∧
      ∀ skipped, useRefOr skipped reference walk = useRef reference walk
  | .node key arguments, walk, bounded, larger => by
    rw [Tree.preorder_node]
    cases applied : arguments.isEmpty with
    | true =>
      obtain rfl := List.isEmpty_iff.mp applied
      refine ⟨?_, fun skipped => by unfold useRefOr useRef; rfl⟩
      unfold useRef
      refine ((Uses.useType walk key).bind (Uses.pure walk)).congr ?_
      simp [Room, Tree.nesting, bounded]
    | false =>
      -- all references in progress are larger, so this one is not among them
      have fresh : Tree.node key arguments ∉ walk.references.stack := fun active => Nat.lt_irrefl _ (larger _ active)
      have inner := fun room : walk.references.depth < walk.references.limit =>
        useRefs_uses arguments (follow walk (.node key arguments)) ((depth_follow fresh).trans_le room)
          (larger_of_follow larger)
      constructor
      · unfold useRef
        rw [applied]
        refine ((Uses.useType walk key).bind (following_uses fresh fun room => (inner room).1)).congr ?_
        rw [room_node_iff applied fresh, true_and]
      · -- what may be done at a reference in progress is never reached
        intro skipped
        unfold useRefOr useRef
        rw [applied]
        show Script.act _ (fun _ => _) = Script.act _ (fun _ => _)
        congr 1
        funext _
        show ((do if ← enterReference _ then _ else skipped) : Visit Unit) walk =
          ((do if ← enterReference _ then _) : Visit Unit) walk
        rw [bind_apply, bind_apply, enterReference_apply fresh]
        by_cases room : walk.references.depth < walk.references.limit
        · rw [if_pos room]
          show leavingReference _ (follow walk _) = leavingReference _ (follow walk _)
          unfold leavingReference
          rw [(inner room).2 skipped]
        · rw [if_neg room]
          rfl

theorem useRefs_uses : (references : List TypeRef) → (walk : Walk) →
    walk.references.depth ≤ walk.references.limit →
    (∀ outer ∈ walk.references.stack, ∀ reference ∈ references, sizeOf reference < sizeOf outer) →
    (useRefs references).Uses walk (∀ reference ∈ references, Room walk reference) (references.flatMap Tree.preorder) ∧
      ∀ skipped, useRefsOr skipped references walk = useRefs references walk
  | [], walk, _, _ => ⟨(Uses.pure walk).congr (by simp), fun _ => rfl⟩
  | reference :: rest, walk, bounded, larger => by
    obtain ⟨first, same⟩ := useRef_uses reference walk bounded
      fun outer member => larger outer member reference (by simp)
    obtain ⟨second, same'⟩ := useRefs_uses rest walk bounded
      fun outer member other named => larger outer member other (by simp [named])
    constructor
    · unfold useRefs
      exact (first.bind second).congr (by simp)
    · intro skipped
      unfold useRefsOr useRefs
      have swapped : (useRefOr skipped reference >>= fun _ => useRefsOr skipped rest) walk =
          (useRef reference >>= fun _ => useRefsOr skipped rest) walk := by
        rw [bind_apply, bind_apply, same skipped]
      rw [swapped]
      refine bind_congr fun {_ later} ended => ?_
      -- the rest starts from the walk that the first reference has come back to
      have back : later = walk := by
        have := (useRef_quiet reference).restores walk
        rw [ended] at this
        exact this
      rw [back]
      exact same' skipped

end

end Visit

theorem append_eraseDups_append {κ : Type} [DecidableEq κ] {old middle : List κ} (first second : List κ)
    (begun : middle = old ++ (first.filter (· ∉ old)).eraseDups) :
    middle ++ (second.filter (· ∉ middle)).eraseDups = old ++ ((first ++ second).filter (· ∉ old)).eraseDups := by
  have later : second.filter (· ∉ middle) = (second.filter (· ∉ old)).removeAll (first.filter (· ∉ old)) := by
    rw [List.removeAll, List.filter_filter]
    refine List.filter_congr fun key _ => ?_
    subst begun
    by_cases listed : key ∈ old <;> simp [listed, List.mem_eraseDups]
  rw [later, List.filter_append, List.eraseDups_append, ← List.append_assoc, ← begun]

namespace Model

def usagesOf (model : Model) (node : NodeRef) : UsageSet := (model.usages? node).getD {}

def keysUsedBy (model : Model) (holder : NodeRef) : List NodeKey :=
  (model.usagesOf holder).targets.filterMap model.nodeKey?

/-- A holder comes to list some keys after those that it listed before, each unless it is listed already, and no other
node lists anything more. -/
structure Appends (before after : Model) (holder : NodeRef) (keys : List NodeKey) : Prop where
  keeps : (before.usagesOf holder).toList <+: (after.usagesOf holder).toList
  accurate : ∀ usage ∈ (after.usagesOf holder).toList, after.usageOf? usage.target = some usage
  listed : after.keysUsedBy holder =
    before.keysUsedBy holder ++ (keys.filter (· ∉ before.keysUsedBy holder)).eraseDups
  others : ∀ node, node ≠ holder → after.usagesOf node = before.usagesOf node

theorem usagesOf_type (model : Model) (id : TypeId) :
    model.usagesOf (.type id) = ((model.type? id).map TypeNode.usages).getD {} := rfl

theorem usagesOf_member (model : Model) (id : MemberId) :
    model.usagesOf (.member id) = ((model.member? id).map MemberNode.usages).getD {} := rfl

theorem WellFormed.usagesOf_backed {model : Model} (formed : model.WellFormed) (holder : NodeRef) :
    model.Backs (model.usagesOf holder) := by
  cases holder with
  | type id =>
    rw [usagesOf_type]
    cases held : model.type? id with
    | none => exact backs_empty model
    | some node => exact (formed.type_backed held).usages
  | member id =>
    rw [usagesOf_member]
    cases held : model.member? id with
    | none => exact backs_empty model
    | some node => exact (formed.member_backed held).usages

theorem Grows.filterMap_nodeKey? {before after : Model} (grows : before.Grows after) {set : UsageSet}
    (backed : before.Backs set) : set.targets.filterMap after.nodeKey? = set.targets.filterMap before.nodeKey? := by
  refine List.filterMap_congr fun target member => ?_
  obtain ⟨usage, recorded, rfl⟩ := List.mem_map.mp member
  exact grows.nodeKey?_eq (backed.accurate usage recorded)

namespace Appends

variable {first second third : Model} {holder : NodeRef}

theorem refl {model : Model} (formed : model.WellFormed) (holder : NodeRef) : model.Appends model holder [] where
  keeps := List.prefix_rfl
  accurate := (formed.usagesOf_backed holder).accurate
  listed := by simp
  others _ _ := rfl

theorem trans {keys keys' : List NodeKey} (begun : first.Appends second holder keys)
    (continued : second.Appends third holder keys') : first.Appends third holder (keys ++ keys') where
  keeps := begun.keeps.trans continued.keeps
  accurate := continued.accurate
  listed := by rw [continued.listed, append_eraseDups_append keys keys' begun.listed]
  others node other := (continued.others node other).trans (begun.others node other)

theorem of_same (grows : first.Grows second) (formed : first.WellFormed) (formed' : second.WellFormed)
    (same : ∀ node, second.usagesOf node = first.usagesOf node) (holder : NodeRef) :
    first.Appends second holder [] where
  keeps := by simp only [same holder, List.prefix_rfl]
  accurate := (formed'.usagesOf_backed holder).accurate
  listed := by
    rw [keysUsedBy, same, grows.filterMap_nodeKey? (formed.usagesOf_backed holder)]
    simp [keysUsedBy]
  others node _ := same node

end Appends

theorem usagesOf_ensureType {model : Model} (formed : model.WellFormed) (key : TypeKey) (node : NodeRef) :
    (model.ensureType key).2.usagesOf node = model.usagesOf node := by
  -- nodes that are ensured use nothing, and those that were there use nothing more
  have spares := (ensureType_becomes formed key).1.spares
  have free : ∀ place : Place, Edit.Avoids place [.ensureType key] := by simp [Edit.Avoids, Edit.place?]
  generalize (model.ensureType key).2 = after at spares
  cases node with
  | type id =>
    rw [usagesOf_type, usagesOf_type]
    cases held : model.type? id with
    | some node =>
      obtain ⟨members, _, held'⟩ := spares.type held (free _)
      rw [held']
      rfl
    | none =>
      cases held' : after.type? id with
      | none => rfl
      | some node => exact congrArg TypeNode.usages (spares.newType held held' (free _))
  | member id =>
    rw [usagesOf_member, usagesOf_member]
    cases held : model.member? id with
    | some node => rw [spares.member held (free _)]
    | none =>
      cases held' : after.member? id with
      | none => rfl
      | some node => exact congrArg MemberNode.usages (spares.newMember held held' (free _))

theorem usagesOf_recordUsage (model : Model) {holder target : NodeRef} {usage : Usage}
    (recorded : model.usageOf? target = some usage) (held : (model.nodeKey? holder).isSome) (node : NodeRef) :
    (model.recordUsage holder target).usagesOf node =
      if node = holder then (model.usagesOf holder).insert usage else model.usagesOf node := by
  unfold recordUsage
  rw [recorded]
  cases holder with
  | type id =>
    obtain ⟨owner, held⟩ := Option.isSome_iff_exists.mp (Option.isSome_map.symm.trans held)
    cases node with
    | type other =>
      simp only [usagesOf_type, type?_modifyType, NodeRef.type.injEq]
      split
      next same => simp [same, held]
      next => rfl
    | member other => rfl
  | member id =>
    obtain ⟨owner, held⟩ := Option.isSome_iff_exists.mp (Option.isSome_map.symm.trans held)
    cases node with
    | type other => rfl
    | member other =>
      simp only [usagesOf_member, member?_modifyMember, NodeRef.member.injEq]
      split
      next same => simp [same, held]
      next => rfl

theorem nodeKey?_isSome_iff (model : Model) (target : NodeRef) :
    (model.nodeKey? target).isSome ↔ (model.usageOf? target).isSome := by
  cases target <;> simp [nodeKey?, usageOf?]

theorem recordUsage_appends {model : Model} (formed : model.WellFormed) {holder target : NodeRef}
    {holderKey key : NodeKey} (holds : model.nodeKey? holder = some holderKey)
    (named : model.nodeKey? target = some key) :
    model.Appends (model.recordUsage holder target) holder [key] := by
  -- a target that is used already is not listed again
  have becomes := recordUsage_becomes formed holds named
  obtain ⟨usage, recorded⟩ := Option.isSome_iff_exists.mp
    ((model.nodeKey?_isSome_iff target).mp (by rw [named]; rfl))
  have told := target_of_usageOf? recorded
  have uses := usagesOf_recordUsage model recorded (by rw [holds]; rfl)
  have backed := formed.usagesOf_backed holder
  have here : (model.recordUsage holder target).usagesOf holder = (model.usagesOf holder).insert usage := by
    rw [uses, if_pos rfl]
  refine ⟨?_, (becomes.formed.usagesOf_backed holder).accurate, ?_, fun node other => by rw [uses, if_neg other]⟩
  · rw [here]
    exact UsageSet.prefix_insert _ usage
  · rw [keysUsedBy, here, becomes.grows.filterMap_nodeKey? (backed.insert recorded), backed.indexed.targets_insert, told]
    by_cases listed : target ∈ (model.usagesOf holder).targets
    · have known : key ∈ model.keysUsedBy holder := List.mem_filterMap.mpr ⟨target, listed, named⟩
      rw [if_pos listed, List.filter_cons_of_neg (by simpa using known)]
      exact (List.append_nil _).symm
    · have unknown : key ∉ model.keysUsedBy holder := by
        intro known
        obtain ⟨other, member, named'⟩ := List.mem_filterMap.mp known
        exact listed (nodeKey?_injective formed named named' ▸ member)
      rw [if_neg listed, List.filterMap_append, List.filter_cons_of_pos (by simpa using unknown),
        List.filterMap_cons_some named]
      rfl

end Model

namespace Builder

/-- A step that uses a type is taken in every scope of a type or member, and only lists the type. -/
theorem useType_appends {builder : Builder} (good : builder.Good) {holder : NodeRef}
    (held : builder.innermost?.bind Scope.holder? = some holder) (key : TypeKey) :
    ∃ after, (Op.useType key).perform builder = (.ok .done, after) ∧ after.Good ∧ after.scopes = builder.scopes ∧
      builder.model.Appends after.model holder [.type key] := by
  obtain ⟨scope, first, holds⟩ := Option.bind_eq_some_iff.mp held
  have allowed : Scopes.holder .usedType builder.scopes = .ok holder := by
    unfold Scopes.holder
    rw [show builder.scopes.head? = some scope from first]
    simp [holds]
  obtain ⟨becomes, node, at_key, named⟩ := Model.ensureType_becomes good.formed key
  have grown := good.grow becomes.formed becomes.grows
  -- the type is ensured first, which lists nothing, and then recorded as used
  have target : (builder.model.ensureType key).2.nodeKey? (.type (builder.model.ensureType key).1) =
      some (.type key) := by
    simp [Model.nodeKey?, at_key, named]
  obtain ⟨holderKey, keyed⟩ : ∃ holderKey, scope.opening.holder? = some holderKey := by
    cases scope <;> first | exact ⟨_, rfl⟩ | cases holds
  have keyed := nodeKey?_of_holds grown ⟨scope, List.mem_of_mem_head? first, holds, keyed⟩
  have becomes' := Model.recordUsage_becomes becomes.formed keyed target
  refine ⟨_, ?_, grown.grow becomes'.formed becomes'.grows, rfl, ?_⟩
  · simp only [Op.perform, map_apply, useType, bind_apply, ask, allowed]
    rfl
  · exact (Model.Appends.of_same becomes.grows good.formed becomes.formed
      (Model.usagesOf_ensureType good.formed key) holder).trans (Model.recordUsage_appends becomes.formed keyed target)

theorem run_useTypes_appends {α : Type} (scanner : Scanner) {holder : NodeRef} (script : Script α)
    (keys : List TypeKey) (acts : script.actions = keys.map fun key => .op (.useType key)) {builder : Builder}
    (good : builder.Good) (held : builder.innermost?.bind Scope.holder? = some holder) :
    (script.run scanner builder).result = .ok script.answer ∧
      (script.run scanner builder).builder.scopes = builder.scopes ∧
      builder.model.Appends (script.run scanner builder).builder.model holder (keys.map .type) := by
  induction keys generalizing script builder with
  | nil =>
    cases script with
    | done answer => exact ⟨rfl, rfl, .refl good.formed holder⟩
    | act action rest => cases acts
  | cons key keys ih =>
    cases script with
    | done answer => cases acts
    | act action rest =>
      obtain ⟨rfl, later⟩ := List.cons.inj acts
      obtain ⟨middle, performed, good', same, appends⟩ := useType_appends good held key
      have taken : (Action.op (.useType key)).perform scanner builder = (.ok [], middle) := by
        simp only [Action.perform, bind_apply, performed]
        rfl
      obtain ⟨result, scopes, appends'⟩ := ih (rest ()) later good' (by rw [innermost?, same]; exact held)
      unfold Script.run
      rw [taken]
      exact ⟨result, scopes.trans same, appends.trans appends'⟩

/-- From a walk that follows no reference, in the scope of a type or member, a reference can be followed exactly if on
none of its branches too many references are applied. Then the holder lists all types of the reference in pre-order,
each unless it was listed already. Otherwise the limit is told, after some of the types. Either way the walk and the
scopes are those before, no other node comes to use anything, and whatever were done at a reference in progress is
never done. -/
theorem useRef_uses_whole {builder : Builder} (reachable : builder.Reachable) {holder : NodeRef}
    (held : builder.innermost?.bind Scope.holder? = some holder) (walk : Walk) (idle : walk.references.stack = [])
    (scanner : Scanner) (reference : TypeRef) :
    let outcome := Script.run scanner (Visit.useRef reference walk : Script (Except Fault Unit × Walk)) builder
    let fits := ∀ branch ∈ reference.branches, branch.countP Tree.isApplied ≤ walk.references.limit
    (fits → outcome.result = .ok (.ok (), walk) ∧
      builder.model.Appends outcome.builder.model holder (reference.preorder.map .type)) ∧
    (¬ fits → outcome.result = .ok (.error (.recursionLimit walk.references.limit), walk) ∧
      ∃ reached, reached <+: reference.preorder ∧
        builder.model.Appends outcome.builder.model holder (reached.map .type)) ∧
    outcome.builder.scopes = builder.scopes ∧
    ∀ skipped, Visit.useRefOr skipped reference walk = Visit.useRef reference walk := by
  intro outcome fits
  have room : Visit.Room walk reference ↔ fits := by
    rw [Visit.Room, Progress.depth, idle, List.length_nil, Nat.zero_add]
    exact reference.nesting_le_iff walk.references.limit
  obtain ⟨uses, never⟩ := Visit.useRef_uses reference walk (by simp [Progress.depth, idle]) (by simp [idle])
  by_cases deep : fits
  · obtain ⟨ended, acts⟩ := uses.completes (room.mpr deep)
    obtain ⟨result, scopes, appends⟩ :=
      run_useTypes_appends scanner _ reference.preorder acts reachable.good held
    exact ⟨fun _ => ⟨result.trans (congrArg _ ended), appends⟩, absurd deep, scopes, never⟩
  · obtain ⟨ended, reached, part, acts⟩ := uses.stops fun holds => deep (room.mp holds)
    obtain ⟨result, scopes, appends⟩ := run_useTypes_appends scanner _ reached acts reachable.good held
    exact ⟨fun holds => absurd holds deep, fun _ => ⟨result.trans (congrArg _ ended), reached, part, appends⟩, scopes,
      never⟩

def tabling : Builder :=
  replay [.startSpace ⟨⟨"store"⟩, "data"⟩, .startType { space := ⟨⟨"store"⟩, "data"⟩, name := "Index" } false,
    .useType { space := ⟨⟨"system"⟩, "core"⟩, name := "Text" }]

def tableRef : TypeRef :=
  let core (name : String) : TypeKey := { space := ⟨⟨"system"⟩, "core"⟩, name }
  .node (core "Table") [.node (core "List") [.leaf (core "Text")], .leaf (core "Text")]

/-- The reference is applied on two levels, so a limit of two lets it be followed and a limit of one does not. -/
theorem useRef_uses_whole_table :
    tabling.innermost?.bind Scope.holder? = some (.type ⟨0⟩) ∧
    (Script.run .silent (Visit.useRef tableRef (.start 2) : Script (Except Fault Unit × Walk)) tabling).result =
      .ok (.ok (), .start 2) ∧
    tabling.model.Appends
      (Script.run .silent (Visit.useRef tableRef (.start 2) : Script (Except Fault Unit × Walk)) tabling).builder.model
      (.type ⟨0⟩) (tableRef.preorder.map .type) ∧
    (Script.run .silent (Visit.useRef tableRef (.start 1) : Script (Except Fault Unit × Walk)) tabling).result =
      .ok (.error (.recursionLimit 1), .start 1) := by
  have reachable : tabling.Reachable := reachable_replay _
  have held : tabling.innermost?.bind Scope.holder? = some (.type ⟨0⟩) := by decide
  obtain ⟨followed, _⟩ := useRef_uses_whole reachable held (.start 2) rfl .silent tableRef
  obtain ⟨_, stopped, _⟩ := useRef_uses_whole reachable held (.start 1) rfl .silent tableRef
  exact ⟨held, (followed (by decide)).1, (followed (by decide)).2, (stopped (by decide)).1⟩

end Builder

end UsageGraph
