import UsageGraph.Mapping
import UsageGraph.Proofs.Traversal.Isolation

/-! The order in which modules are mapped does not matter.

What a module contributes to a mapping is read off the module alone, and says something
about nodes of its own assembly only. Whether contributions are admitted depends on which
there are, so that modules which can be mapped in one order can be mapped in every order.
As no two of them say something about one node, the models agree in all that is said by key.
-/

set_option autoImplicit false
namespace UsageGraph

def Source.key? (source : Source) : Option AssemblyKey := source.decoded.toOption.map ModuleDecl.key

namespace Traversal

variable (traversal : Traversal)

/-- The edits of a traversal that goes through the module and leaves no scope open. -/
def moduleContribution? (module : ModuleDecl) (options : Options) : Option (List Edit) :=
  (((Visit.module module options traversal.order).outline (.start options.maxDepth) []).filter
    fun course => course.stack = []).map Course.edits

/-- The edits that a source comes to, whatever the model is that it is mapped into. -/
def contribution? (entry : Source × Options) : Option (List Edit) :=
  entry.1.decoded.toOption.bind fun module => traversal.moduleContribution? module entry.2

def contribution (entry : Source × Options) : List Edit := (traversal.contribution? entry).getD []

theorem inside_moduleContribution {module : ModuleDecl} {options : Options} {edits : List Edit}
    (contributes : traversal.moduleContribution? module options = some edits) :
    ∀ edit ∈ edits, edit.Inside module.key := by
  obtain ⟨course, filtered, rfl⟩ := Option.map_eq_some_iff.mp contributes
  exact Visit.module_outline_inside (Option.filter_eq_some_iff.mp filtered).1

theorem within_contribution (entry : Source × Options) :
    Edit.Within (fun place => entry.1.key? = some place.typeKey.assembly) (traversal.contribution entry) := by
  unfold contribution contribution? Source.key?
  cases entry.1.decoded with
  | error fault => exact .nil
  | ok module =>
    cases contributes : traversal.moduleContribution? module entry.2 with
    | none => simpa [Except.toOption, contributes] using Edit.Within.nil
    | some edits =>
      simp only [Except.toOption, Option.bind_some, contributes, Option.getD_some, Option.map_some, Option.some.injEq]
      intro edit member place about
      exact ((traversal.inside_moduleContribution contributes edit member).place about).symm

theorem flatMap_eq_of_perm {α β : Type} {f : α → List β} {first second : List α} (perm : first.Perm second)
    (apart : first.Pairwise fun one other => f one = [] ∨ f other = []) : first.flatMap f = second.flatMap f := by
  induction perm with
  | nil => rfl
  | cons item _ ih => rw [List.flatMap_cons, List.flatMap_cons, ih (List.pairwise_cons.mp apart).2]
  | swap one other rest =>
    have either := (List.pairwise_cons.mp apart).1 one List.mem_cons_self
    simp only [List.flatMap_cons]
    -- one of the two that change places is empty
    rcases either with none | none <;> simp [none]
  | trans perm _ ih ih' =>
    refine (ih apart).trans (ih' ((perm.pairwise_iff ?_).mp apart))
    exact fun either => either.symm

/-- Modules of different assemblies do not say anything about the same node. -/
theorem apart_of_distinct {β : Type} {entries : List (Source × Options)}
    (distinct : (entries.map fun entry => entry.1.key?).Nodup) (home : AssemblyKey)
    {f : Source × Options → List β} (silent : ∀ entry, entry.1.key? ≠ some home → f entry = []) :
    entries.Pairwise fun one other => f one = [] ∨ f other = [] := by
  refine (List.pairwise_map.mp distinct).imp fun {one other} different => ?_
  by_cases here : one.1.key? = some home
  · exact .inr (silent other fun there => different (here.trans there.symm))
  · exact .inl (silent one here)

theorem applyAll_contributions {entries others : List (Source × Options)} (perm : entries.Perm others)
    (distinct : (entries.map fun entry => entry.1.key?).Nodup) {view : View}
    (admits : view.Admits (entries.flatMap traversal.contribution)) :
    view.applyAll (entries.flatMap traversal.contribution) = view.applyAll (others.flatMap traversal.contribution) := by
  -- both orders have the same edits; those that change a node all come from the module of its assembly
  refine View.applyAll_congr admits (fun edit => (perm.flatMap_right _).mem_iff) ?_ ?_
  · intro key facts
    unfold Edit.typeChanges
    rw [List.filterMap_flatMap, List.filterMap_flatMap,
      flatMap_eq_of_perm perm (apart_of_distinct distinct key.assembly fun entry elsewhere => ?_)]
    exact (traversal.within_contribution entry).typeChanges_eq_nil elsewhere
  · intro key
    unfold Edit.memberChanges
    rw [List.filterMap_flatMap, List.filterMap_flatMap]
    refine flatMap_eq_of_perm perm (apart_of_distinct distinct key.owner.assembly fun entry elsewhere => ?_)
    exact (traversal.within_contribution entry).memberChanges_eq_nil elsewhere

end Traversal

namespace MappingPlan

inductive Loads (model : Model) (key? : Option AssemblyKey) (contribution? : Option (List Edit)) :
    Except Fault AssemblyKey × Model → Prop
  | loaded {key : AssemblyKey} {edits : List Edit} {after : Model} (named : key? = some key)
    (contributes : contribution? = some edits) (admits : model.view.Admits edits)
    (becomes : model.Becomes after edits) : Loads model key? contribution? (.ok key, after)
  | failed (fault : Fault) (after : Model)
    (hinders : ∀ edits, contribution? = some edits → ¬ model.view.Admits edits) :
    Loads model key? contribution? (.error fault, after)

section One

variable {plan : MappingPlan} (scans : plan.scanner = .references) {model : Model} (formed : model.WellFormed)
include scans formed

theorem loadModule_loads (module : ModuleDecl) (options : Options) :
    Loads model (some module.key) (plan.config.traversal.moduleContribution? module options)
      (plan.loadModule model module options) := by
  have good : Builder.Good { model } := ⟨formed, by simp⟩
  have settles := Builder.visitInOrder_settles good module options plan.config.traversal.order
  unfold loadModule Traversal.moduleContribution? Builder.visit
  rw [scans]
  generalize Builder.visitInOrder { model } module options plan.config.traversal.order .references = outcome
    at settles ⊢
  obtain ⟨result, builder, trace⟩ := outcome
  change Builder.Settles _ (((Visit.module module options plan.config.traversal.order).outline
    (.start options.maxDepth) []).map _) (result, builder) at settles
  generalize (Visit.module module options plan.config.traversal.order).outline (.start options.maxDepth) [] = outlined
    at settles ⊢
  cases outlined with
  | none =>
    cases settles with
    | refused fault => exact .failed fault _ (by simp)
  | some course =>
    cases settles with
    | blocked fault _ blocks =>
      refine .failed fault _ fun edits contributes => ?_
      obtain ⟨_, filtered, rfl⟩ := Option.map_eq_some_iff.mp contributes
      cases (Option.filter_eq_some_iff.mp filtered).1
      exact blocks
    | done answer _ good' left admits becomes =>
      -- the visit has gone through, and only the scopes that it has left can be wrong
      have finishes := builder.finish_eq_ok_iff
      rw [left] at finishes
      simp only [Except.bind]
      cases ended : builder.finish with
      | ok =>
        have free : course.stack = [] := finishes.mp ended
        exact .loaded rfl (by simp [free]) admits becomes
      | error fault =>
        have unfinished : course.stack ≠ [] := fun free => by simp [finishes.mpr free] at ended
        exact .failed fault _ (by simp [unfinished])

theorem loadSource_loads (entry : Source × Options) :
    Loads model entry.1.key? (plan.config.traversal.contribution? entry)
      (plan.loadSource model entry.1 entry.2) := by
  unfold loadSource Source.key? Traversal.contribution?
  cases entry.1.decoded with
  | error fault => exact .failed fault model (by simp [Except.toOption])
  | ok module => exact loadModule_loads scans formed module entry.2

end One

/-! ## Mapping all sources -/

section All

variable {plan : MappingPlan} (scans : plan.scanner = .references)

theorem failures_prefix {mapping final : Mapping} {entries : List (Source × Options)}
    (ran : plan.loadAll mapping entries = .ok final) : mapping.failures <+: final.failures := by
  induction entries generalizing mapping with
  | nil =>
    cases ran
    exact List.prefix_rfl
  | cons entry rest ih =>
    unfold loadAll at ran
    split at ran
    next key model ended =>
      have kept := ih ran
      exact kept
    next fault model ended =>
      split at ran
      · cases ran
      · exact (List.prefix_append _ _).trans (ih ran)

include scans

theorem loadAll_of_contributions {mapping : Mapping} (formed : mapping.model.WellFormed)
    {entries : List (Source × Options)}
    (contribute : ∀ entry ∈ entries, (plan.config.traversal.contribution? entry).isSome)
    (admits : mapping.model.view.Admits (entries.flatMap plan.config.traversal.contribution)) :
    ∃ model, mapping.model.Becomes model (entries.flatMap plan.config.traversal.contribution) ∧
      plan.loadAll mapping entries =
        .ok { mapping with model, loaded := mapping.loaded ++ entries.filterMap fun entry => entry.1.key? } := by
  induction entries generalizing mapping with
  | nil => exact ⟨mapping.model, .refl formed, by simp [loadAll]⟩
  | cons entry rest ih =>
    obtain ⟨edits, contributes⟩ := Option.isSome_iff_exists.mp (contribute entry List.mem_cons_self)
    have first : plan.config.traversal.contribution entry = edits := by simp [Traversal.contribution, contributes]
    rw [List.flatMap_cons, first, View.admits_append] at admits
    have loads := loadSource_loads scans formed entry
    unfold loadAll
    rw [List.flatMap_cons, first]
    -- a source fails only where its edits are not admitted
    generalize plan.loadSource mapping.model entry.1 entry.2 = ended at loads
    cases loads with
    | failed fault after hinders => exact absurd admits.1 (hinders edits contributes)
    | @loaded key found after named contributes' _ becomes =>
      obtain rfl : found = edits := Option.some.inj (contributes'.symm.trans contributes)
      have admits' : after.view.Admits (rest.flatMap plan.config.traversal.contribution) := becomes.view ▸ admits.2
      obtain ⟨model, becomes', ran⟩ := @ih { mapping with model := after, loaded := mapping.loaded ++ [key] }
        becomes.formed (fun other member => contribute other (List.mem_cons_of_mem _ member)) admits'
      refine ⟨model, becomes.trans becomes', ran.trans ?_⟩
      simp [named]

theorem contributions_of_loadAll {mapping final : Mapping} (formed : mapping.model.WellFormed)
    {entries : List (Source × Options)} (ran : plan.loadAll mapping entries = .ok final) (clean : final.failures = []) :
    (∀ entry ∈ entries, (plan.config.traversal.contribution? entry).isSome) ∧
      mapping.model.view.Admits (entries.flatMap plan.config.traversal.contribution) := by
  induction entries generalizing mapping with
  | nil => exact ⟨by simp, trivial⟩
  | cons entry rest ih =>
    have loads := loadSource_loads scans formed entry
    unfold loadAll at ran
    generalize plan.loadSource mapping.model entry.1 entry.2 = ended at loads ran
    cases loads with
    | failed fault after hinders =>
      simp only at ran
      split at ran
      · cases ran
      · -- the failure would be listed in the end
        have kept := failures_prefix ran
        rw [clean] at kept
        simp at kept
    | @loaded key edits after named contributes admits becomes =>
      obtain ⟨contribute, admits'⟩ := ih becomes.formed ran
      constructor
      · intro other member
        rcases List.mem_cons.mp member with rfl | member
        · simp [contributes]
        · exact contribute other member
      · have first : plan.config.traversal.contribution entry = edits := by simp [Traversal.contribution, contributes]
        rw [List.flatMap_cons, first, View.admits_append]
        exact ⟨admits, becomes.view ▸ admits'⟩

end All

end MappingPlan

structure Inclusion where
  source : Source
  asDependency : Bool := false

def Inclusion.entry (config : Config) (inclusion : Inclusion) : Source × Options :=
  (inclusion.source,
    if inclusion.asDependency || inclusion.source.isDependency then config.options.toSecondary else config.options)

namespace MappingPlan

def addInclusion (plan : MappingPlan) (inclusion : Inclusion) : MappingPlan :=
  if inclusion.asDependency then plan.addDependency inclusion.source else plan.add inclusion.source

def including (config : Config) (inclusions : List Inclusion) : MappingPlan :=
  inclusions.foldl addInclusion { config }

/-- Sources have been added to a plan, each with the options for it. -/
structure Extends (plan extended : MappingPlan) (entries : List (Source × Options)) : Prop where
  config : extended.config = plan.config
  scanner : extended.scanner = plan.scanner
  schedule : extended.schedule.Perm (plan.schedule ++ entries)

theorem addInclusion_extends (plan : MappingPlan) (inclusion : Inclusion) :
    plan.Extends (plan.addInclusion inclusion) [inclusion.entry plan.config] := by
  have asDependency : plan.Extends (plan.addDependency inclusion.source)
      [(inclusion.source, plan.config.options.toSecondary)] := ⟨rfl, rfl, by simp [schedule, addDependency]⟩
  have asPrimary : plan.Extends { plan with primary := plan.primary ++ [inclusion.source] }
      [(inclusion.source, plan.config.options)] := by
    refine ⟨rfl, rfl, ?_⟩
    -- it is mapped before the dependencies that are there already
    simp only [schedule, List.map_append, List.append_assoc]
    exact List.perm_append_comm.append_left _
  unfold addInclusion Inclusion.entry
  cases inclusion.asDependency with
  | true => exact asDependency
  | false =>
    unfold add
    cases inclusion.source.isDependency with
    | true => exact asDependency
    | false => exact asPrimary

theorem foldl_addInclusion_extends (plan : MappingPlan) (inclusions : List Inclusion) :
    plan.Extends (inclusions.foldl addInclusion plan) (inclusions.map (Inclusion.entry plan.config)) := by
  induction inclusions generalizing plan with
  | nil => exact ⟨rfl, rfl, by simp⟩
  | cons inclusion rest ih =>
    have first := plan.addInclusion_extends inclusion
    have later := ih (plan.addInclusion inclusion)
    rw [first.config] at later
    refine ⟨later.config.trans first.config, later.scanner.trans first.scanner, ?_⟩
    calc (rest.foldl addInclusion (plan.addInclusion inclusion)).schedule
      _ |>.Perm ((plan.addInclusion inclusion).schedule ++ rest.map (Inclusion.entry plan.config)) := later.schedule
      _ |>.Perm ((plan.schedule ++ [inclusion.entry plan.config]) ++ rest.map (Inclusion.entry plan.config)) :=
        first.schedule.append_right _
      _ = plan.schedule ++ (inclusion :: rest).map (Inclusion.entry plan.config) := by simp

theorem including_extends (config : Config) (inclusions : List Inclusion) :
    ({ config } : MappingPlan).Extends (including config inclusions) (inclusions.map (Inclusion.entry config)) :=
  foldl_addInclusion_extends { config } inclusions

/-- If modules of different assemblies are mapped without a failure in one order, then so they are in every other
order. The models agree in all keys and in all that is said by key. -/
theorem run_agrees_of_perm (config : Config) {first second : List Inclusion} (perm : first.Perm second)
    (distinct : (first.map fun inclusion => inclusion.source.key?).Nodup) {mapping : Mapping}
    (ran : (including config first).run = .ok mapping) (clean : mapping.failures = []) :
    ∃ other, (including config second).run = .ok other ∧ other.failures = [] ∧
      other.loaded.Perm mapping.loaded ∧ other.model.view = mapping.model.view := by
  have one := including_extends config first
  have two := including_extends config second
  have schedules : (including config first).schedule.Perm (including config second).schedule :=
    one.schedule.trans ((perm.map _).trans two.schedule.symm)
  have distinct' : ((including config first).schedule.map fun entry => entry.1.key?).Nodup := by
    rw [(one.schedule.map _).nodup_iff]
    simpa [schedule, Inclusion.entry, Function.comp_def] using distinct
  have formed : ({} : Mapping).model.WellFormed := Model.WellFormed.empty
  -- what is contributed in the first order is contributed in the second, and admitted there
  obtain ⟨contribute, admits⟩ := contributions_of_loadAll one.scanner formed ran clean
  obtain ⟨model, becomes, ran'⟩ := loadAll_of_contributions one.scanner formed contribute admits
  obtain rfl := Except.ok.inj (ran.symm.trans ran')
  rw [one.config] at contribute admits becomes
  have contribute' : ∀ entry ∈ (including config second).schedule,
      ((including config second).config.traversal.contribution? entry).isSome := by
    rw [two.config]
    exact fun entry member => contribute entry (schedules.mem_iff.mpr member)
  have admits' : ({} : Mapping).model.view.Admits
      ((including config second).schedule.flatMap (including config second).config.traversal.contribution) := by
    rw [two.config]
    exact (View.admits_congr fun edit => (schedules.flatMap_right _).mem_iff).mp admits
  obtain ⟨model', becomes', ran''⟩ := loadAll_of_contributions two.scanner formed contribute' admits'
  rw [two.config] at becomes'
  refine ⟨_, ran'', rfl, (schedules.filterMap _).symm, ?_⟩
  rw [becomes'.view, becomes.view]
  exact (config.traversal.applyAll_contributions schedules distinct' admits).symm

def drawing : List Inclusion :=
  let circle : TypeKey := ⟨⟨⟨"shapes"⟩, "plane"⟩, "Circle", 0⟩
  let canvas : TypeKey := ⟨⟨⟨"app"⟩, ""⟩, "Canvas", 0⟩
  let real : TypeKey := ⟨⟨⟨"system"⟩, "core"⟩, "Real", 0⟩
  let zoom : MethodDecl := { key := ⟨canvas, "zoom", none⟩, body := some [.member .method ⟨circle, "scale", none⟩] }
  [{ source := ModuleDecl.shapes.source },
    { source := ModuleDecl.source { key := ⟨"app"⟩, types := [.leaf { key := canvas, methods := [zoom] }] } },
    { source := ModuleDecl.source { key := ⟨"system"⟩, types := [.leaf { key := real }] }, asDependency := true }]

/-- The program comes first in the second order, so that it finds no shapes yet. -/
theorem run_agrees_of_perm_drawing :
    ∃ mapping other, (including {} drawing).run = .ok mapping ∧ (including {} drawing.reverse).run = .ok other ∧
      mapping.loaded = [⟨"shapes"⟩, ⟨"app"⟩, ⟨"system"⟩] ∧ other.failures = [] ∧ other.loaded.Perm mapping.loaded ∧
      other.model.view = mapping.model.view ∧ other.model ≠ mapping.model := by
  have mapped : (including {} drawing).run.map (fun mapping => (mapping.loaded, mapping.failures)) =
      .ok ([⟨"shapes"⟩, ⟨"app"⟩, ⟨"system"⟩], []) := by decide +kernel
  have differ : (including {} drawing.reverse).run.map Mapping.model ≠
      (including {} drawing).run.map Mapping.model := by decide +kernel
  obtain ⟨mapping, ran, told⟩ := exists_of_map_ok mapped
  obtain ⟨loaded, clean⟩ := Prod.mk.inj told
  obtain ⟨other, ran', clean', perm, agrees⟩ :=
    run_agrees_of_perm {} drawing.reverse_perm.symm (by decide +kernel) ran clean
  refine ⟨mapping, other, ran, ran', loaded, clean', perm, agrees, fun same => differ ?_⟩
  rw [ran, ran', Except.map, Except.map, same]

end MappingPlan

end UsageGraph
