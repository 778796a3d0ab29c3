import UsageGraph.Proofs.Builder.History
import UsageGraph.Proofs.Mapping.Failures
import UsageGraph.Proofs.Model.Representation

/-! Assemblies of which only a part was mapped.

Building never touches the reason for which an assembly was given up. It is recorded when
the traversal of a module that could be read is aborted, and a later reason takes the place
of an earlier one. So the assemblies tell the abortions of a run, each of them decided by
the visit of a module at the model that the earlier sources have left.
-/

set_option autoImplicit false
namespace UsageGraph

namespace MappingPlan

/-- The fault that aborts the traversal of a source, if it can be read and gives a module of an assembly. -/
def abortionOf? (plan : MappingPlan) (key : AssemblyKey) (model : Model) (entry : Source × Options) : Option Fault :=
  match entry.1.decoded with
  | .ok module => if module.key = key then plan.abortion? model module entry.2 else none
  | .error _ => none

theorem abortionOf?_eq_some_iff (plan : MappingPlan) (key : AssemblyKey) (model : Model) (entry : Source × Options)
    (fault : Fault) : plan.abortionOf? key model entry = some fault ↔
      ∃ module, entry.1.decoded = .ok module ∧ module.key = key ∧ plan.abortion? model module entry.2 = some fault := by
  unfold abortionOf?
  cases entry.1.decoded <;> simp

def abortions (plan : MappingPlan) (key : AssemblyKey) (model : Model) : List (Source × Options) → List Fault
  | [] => []
  | entry :: rest =>
    (plan.abortionOf? key model entry).toList ++ plan.abortions key (plan.loadSource model entry.1 entry.2).2 rest

theorem abortions_append (plan : MappingPlan) (key : AssemblyKey) (model : Model)
    (earlier later : List (Source × Options)) : plan.abortions key model (earlier ++ later) =
      plan.abortions key model earlier ++ plan.abortions key (plan.modelAfter model earlier) later := by
  induction earlier generalizing model with
  | nil => rfl
  | cons entry rest ih => rw [List.cons_append, abortions, ih, abortions, modelAfter, List.append_assoc]

theorem getLast?_abortions (plan : MappingPlan) (model : Model) (earlier : List (Source × Options)) {source : Source}
    {options : Options} {later : List (Source × Options)} {module : ModuleDecl} {fault : Fault}
    (read : source.decoded = .ok module)
    (aborted : plan.abortion? (plan.modelAfter model earlier) module options = some fault)
    (unaborted : plan.abortions module.key (plan.modelAfter model (earlier ++ [(source, options)])) later = []) :
    (plan.abortions module.key model (earlier ++ (source, options) :: later)).getLast? = some fault := by
  have here := (plan.abortionOf?_eq_some_iff module.key _ (source, options) fault).mpr ⟨module, read, rfl, aborted⟩
  rw [List.append_cons, abortions_append, unaborted, List.append_nil, abortions_append, abortions, here]
  simp [abortions]

/-- An assembly has an abortion where one of its modules is aborted at the model that the sources before it leave. -/
theorem abortions_ne_nil_iff (plan : MappingPlan) (key : AssemblyKey) (model : Model)
    (entries : List (Source × Options)) : plan.abortions key model entries ≠ [] ↔
      ∃ earlier source options later module fault, entries = earlier ++ (source, options) :: later ∧
        source.decoded = .ok module ∧ module.key = key ∧
        plan.abortion? (plan.modelAfter model earlier) module options = some fault := by
  constructor
  · intro aborted
    induction entries generalizing model with
    | nil => exact absurd rfl aborted
    | cons entry rest ih =>
      cases here : plan.abortionOf? key model entry with
      | some fault =>
        obtain ⟨module, read, named, aborts⟩ := (plan.abortionOf?_eq_some_iff key model entry fault).mp here
        exact ⟨[], entry.1, entry.2, rest, module, fault, rfl, read, named, aborts⟩
      | none =>
        rw [abortions, here] at aborted
        obtain ⟨earlier, source, options, later, module, fault, rfl, found⟩ := ih _ aborted
        exact ⟨entry :: earlier, source, options, later, module, fault, rfl, found⟩
  · rintro ⟨earlier, source, options, later, module, fault, rfl, read, named, aborts⟩
    have here := (plan.abortionOf?_eq_some_iff key _ (source, options) fault).mpr ⟨module, read, named, aborts⟩
    simp [abortions_append, abortions, here]

end MappingPlan

theorem Model.Becomes.decodeError {before after : Model} {edits : List Edit} (becomes : before.Becomes after edits)
    (key : AssemblyKey) : (after.view.assembly key).decodeError = (before.view.assembly key).decodeError := by
  rw [becomes.view, View.decodeError_applyAll]

theorem Model.mem_view_assemblies_of_grows {before after : Model} (formed : before.WellFormed)
    (formed' : after.WellFormed) (grows : before.Grows after) {key : AssemblyKey}
    (known : key ∈ before.view.assemblies) : key ∈ after.view.assemblies := by
  obtain ⟨id, node, held, named⟩ := (formed.mem_view_assemblies key).mp known
  obtain ⟨later, held', _, same⟩ := grows.assembly held
  exact (formed'.mem_view_assemblies key).mpr ⟨id, later, held', same.trans named⟩

namespace Builder

section Visits

variable {model : Model} (formed : model.WellFormed) (module : ModuleDecl) (options : Options) (traversal : Traversal)
  {scanner : Scanner} (honest : scanner.Honest)
include formed

theorem startAssembly_of_renewed (key : AssemblyKey) (isDependency : Bool) :
    ∃ answer opened, (Op.startAssembly key isDependency).perform { model } = (.ok answer, opened) ∧ opened.Good ∧
      key ∈ opened.model.view.assemblies ∧ ∃ edits, model.Becomes opened.model edits := by
  have good : Builder.Good { model } := ⟨formed, by simp⟩
  have performs := perform_performs good (.startAssembly key isDependency)
  have tracks : (Op.startAssembly key isDependency).track ({ model } : Builder).stack =
    .ok ([.ensureAssembly key, .openAssembly key isDependency], [.assembly key]) := rfl
  rw [tracks] at performs
  generalize (Op.startAssembly key isDependency).perform { model } = ended at performs
  cases performs with
  | blocked fault after stops => exact absurd ⟨trivial, trivial, trivial⟩ stops.blocks
  | done answer opened good' left admits becomes =>
    refine ⟨answer, opened, rfl, good', ?_, _, becomes⟩
    rw [becomes.view]
    exact Set.mem_insert key _

include honest

theorem visit_becomes :
    (∃ edits, model.Becomes (({ model } : Builder).visit module options traversal scanner).builder.model edits) ∧
      module.key ∈ (({ model } : Builder).visit module options traversal scanner).builder.model.view.assemblies := by
  obtain ⟨answer, opened, opens, good, known, first, begun⟩ :=
    startAssembly_of_renewed formed module.key (!options.primary)
  -- the assembly is opened before anything can fail, and later steps do not take it away
  have starts : ∃ rest, module.script options traversal.order =
      .act (.op (.startAssembly module.key (!options.primary))) rest := ⟨_, rfl⟩
  obtain ⟨rest, starts⟩ := starts
  have ran : (({ model } : Builder).visit module options traversal scanner).builder =
      ((rest ()).run scanner opened).builder := by
    show ((module.script options traversal.order).run scanner { model }).builder = _
    rw [starts]
    simp only [Script.run, Action.perform, bind_apply, opens]
    rfl
  obtain ⟨good', later, continued⟩ := steps_become good (run_steps honest (rest ()) opened)
  rw [ran]
  exact ⟨⟨_, begun.trans continued⟩, Model.mem_view_assemblies_of_grows good.formed good'.formed continued.grows known⟩

end Visits

end Builder

namespace MappingPlan

section Sources

variable {plan : MappingPlan} (honest : plan.scanner.Honest) {model : Model} (formed : model.WellFormed)
  (source : Source) (options : Options) (key : AssemblyKey)
include honest formed

omit key in
theorem visited_becomes (module : ModuleDecl) :
    (∃ edits, model.Becomes (plan.visited model module options).builder.model edits) ∧
      module.key ∈ (plan.visited model module options).builder.model.view.assemblies :=
  Builder.visit_becomes formed module options plan.config.traversal honest

theorem decodeError_loadSource :
    ((plan.loadSource model source options).2.view.assembly key).decodeError =
      ((plan.abortionOf? key model (source, options)).map Fault.text).or (model.view.assembly key).decodeError := by
  unfold abortionOf?
  cases read : source.decoded with
  | error fault => simp [loadSource, read]
  | ok module =>
    obtain ⟨⟨edits, becomes⟩, _⟩ := visited_becomes honest formed options module
    have kept := becomes.decodeError key
    rw [loadSource_of_read _ _ _ read, loadModule_eq]
    cases aborted : plan.abortion? model module options with
    | none => simpa [aborted] using kept
    | some fault =>
      -- the reason is recorded over whatever was there
      simp only [Model.view_recordDecodeError becomes.formed, aborted]
      by_cases here : key = module.key
      · simp [here]
      · simp [Function.update_of_ne here, Ne.symm here, kept]

theorem mem_assemblies_loadSource (known : key ∈ model.view.assemblies ∨ source.key? = some key) :
    key ∈ (plan.loadSource model source options).2.view.assemblies := by
  unfold Source.key? at known
  cases read : source.decoded with
  | error fault => simpa [loadSource, read, Except.toOption] using known
  | ok module =>
    obtain ⟨⟨edits, becomes⟩, ensured⟩ := visited_becomes honest formed options module
    -- if the module is given up, that adds its assembly to those that the visit has left
    have visited : key ∈ (plan.visited model module options).builder.model.view.assemblies := by
      rcases known with known | named
      · exact Model.mem_view_assemblies_of_grows formed becomes.formed becomes.grows known
      · obtain rfl : module.key = key := by simpa [read, Except.toOption] using named
        exact ensured
    rw [loadSource_of_read _ _ _ read, loadModule_eq]
    cases plan.abortion? model module options with
    | none => exact visited
    | some fault =>
      simp only [Model.view_recordDecodeError becomes.formed]
      exact Set.mem_insert_of_mem _ visited

end Sources

/-! ## All sources -/

section Runs

variable {plan : MappingPlan} (honest : plan.scanner.Honest) {model : Model} (reached : model.Reachable)
include honest reached

theorem modelAfter_reachable (entries : List (Source × Options)) : (plan.modelAfter model entries).Reachable := by
  induction entries generalizing model with
  | nil => exact reached
  | cons entry rest ih => exact ih (loadSource_reachable honest reached entry.1 entry.2)

/-- The last abortion gives the reason, and without an abortion it stays as it was. -/
theorem decodeError_modelAfter (entries : List (Source × Options)) (key : AssemblyKey) :
    ((plan.modelAfter model entries).view.assembly key).decodeError =
      ((plan.abortions key model entries).getLast?.map Fault.text).or (model.view.assembly key).decodeError := by
  induction entries generalizing model with
  | nil => rfl
  | cons entry rest ih =>
    have first := decodeError_loadSource honest reached.wellFormed entry.1 entry.2 key
    unfold modelAfter abortions
    rw [ih (loadSource_reachable honest reached entry.1 entry.2), first]
    cases plan.abortionOf? key model entry with
    | none => simp
    | some fault =>
      -- a later abortion overrides this one
      rw [Option.toList_some, List.singleton_append, List.getLast?_cons]
      cases (plan.abortions key _ rest).getLast? <;> rfl

theorem mem_assemblies_modelAfter {entries : List (Source × Options)} {key : AssemblyKey}
    (known : key ∈ model.view.assemblies ∨ ∃ entry ∈ entries, entry.1.key? = some key) :
    key ∈ (plan.modelAfter model entries).view.assemblies := by
  induction entries generalizing model with
  | nil => simpa [modelAfter] using known
  | cons entry rest ih =>
    unfold modelAfter
    refine ih (loadSource_reachable honest reached entry.1 entry.2) ?_
    rcases known with known | ⟨other, member, named⟩
    · exact .inl (mem_assemblies_loadSource honest reached.wellFormed entry.1 entry.2 key (.inl known))
    · rcases List.mem_cons.mp member with rfl | member
      · exact .inl (mem_assemblies_loadSource honest reached.wellFormed other.1 other.2 key (.inr named))
      · exact .inr ⟨other, member, named⟩

end Runs

end MappingPlan

theorem Model.WellFormed.decodeError_of_mem {model : Model} (formed : model.WellFormed) {node : AssemblyNode}
    (member : node ∈ model.assemblies) : (model.view.assembly node.key).decodeError = node.decodeError := by
  obtain ⟨position, held⟩ := Array.mem_iff_getElem?.mp member
  have held : model.assembly? ⟨position⟩ = some node := held
  have found := formed.find_assembly held
  show (((model.findAssembly? node.key).map assemblyFacts).getD {}).decodeError = _
  rw [found]
  rfl

/-- What the nodes of assemblies tell about the modules whose traversal was aborted. -/
structure Mapping.TellsAbortions (mapping : Mapping) (plan : MappingPlan) : Prop where
  loaded : mapping.loaded = (plan.reports {} plan.schedule).filterMap Report.loaded?
  failures : mapping.failures = (plan.reports {} plan.schedule).filterMap Report.failure?
  /-- A module that could be read is reported as loaded, or with the fault that has aborted it. -/
  endings : ∀ earlier source options later module, plan.schedule = earlier ++ (source, options) :: later →
    source.decoded = .ok module → (plan.reports {} plan.schedule)[earlier.length]? =
      some ⟨source, plan.ending (plan.modelAfter {} earlier) module options⟩
  incomplete_iff : ∀ node ∈ mapping.model.assemblies, node.isIncomplete ↔
    ∃ earlier source options later module fault, plan.schedule = earlier ++ (source, options) :: later ∧
      source.decoded = .ok module ∧ module.key = node.key ∧
      plan.abortion? (plan.modelAfter {} earlier) module options = some fault
  reason : ∀ node ∈ mapping.model.assemblies,
    node.decodeError = (plan.abortions node.key {} plan.schedule).getLast?.map Fault.text
  /-- What comes after the last abortion, be it mapped or not, leaves the reason as it is. -/
  lasting : ∀ earlier source options later module fault, plan.schedule = earlier ++ (source, options) :: later →
    source.decoded = .ok module → plan.abortion? (plan.modelAfter {} earlier) module options = some fault →
      plan.abortions module.key (plan.modelAfter {} (earlier ++ [(source, options)])) later = [] →
        ∃ node, mapping.model.findAssembly? module.key = some node ∧ node.decodeError = some fault.text
  loaded_known : ∀ key ∈ mapping.loaded, (mapping.model.findAssembly? key).isSome
  read_known : ∀ entry ∈ plan.schedule, ∀ module, entry.1.decoded = .ok module →
    (mapping.model.findAssembly? module.key).isSome

namespace MappingPlan

/-- After a lenient mapping an assembly is incomplete just if a module of it could be read and its traversal was
aborted. It tells the reason of the last such module, also if another one was mapped later. All modules that could be
read have their assemblies in the model. -/
theorem run_tells_abortions {plan : MappingPlan} (lenient : plan.config.strict = false)
    (honest : plan.scanner.Honest) : ∃ mapping, plan.run = .ok mapping ∧ mapping.TellsAbortions plan := by
  have reached : Model.Reachable {} := ⟨_, .empty, rfl⟩
  have formed := (modelAfter_reachable honest reached plan.schedule).wellFormed
  have told := decodeError_modelAfter honest reached plan.schedule
  have known : ∀ entry ∈ plan.schedule, ∀ key, entry.1.key? = some key →
      ((plan.modelAfter {} plan.schedule).findAssembly? key).isSome := fun entry member key named =>
    mem_assemblies_modelAfter honest reached (.inr ⟨entry, member, named⟩)
  have read_known : ∀ entry ∈ plan.schedule, ∀ module, entry.1.decoded = .ok module →
      ((plan.modelAfter {} plan.schedule).findAssembly? module.key).isSome := fun entry member module read =>
    known entry member module.key (by simp [Source.key?, read, Except.toOption])
  have reason : ∀ node ∈ (plan.modelAfter {} plan.schedule).assemblies, node.decodeError =
      (plan.abortions node.key {} plan.schedule).getLast?.map Fault.text := by
    intro node member
    rw [← formed.decodeError_of_mem member, told]
    exact Option.or_none
  refine ⟨plan.extended {} plan.schedule, loadAll_of_lenient lenient {} plan.schedule, ?_⟩
  constructor
  case loaded => rfl
  case failures => rfl
  case endings =>
    intro earlier source options later module parted read
    rw [parted]
    exact report_of_read plan {} earlier later read
  case reason => exact reason
  case incomplete_iff =>
    intro node member
    rw [AssemblyNode.isIncomplete, reason node member, Option.isSome_map, List.getLast?_isSome, abortions_ne_nil_iff]
  case lasting =>
    intro earlier source options later module fault parted read aborted unaborted
    obtain ⟨node, found⟩ := Option.isSome_iff_exists.mp (read_known (source, options) (by simp [parted]) module read)
    obtain ⟨held, named⟩ := (formed.findAssembly?_eq_some_iff module.key node).mp found
    refine ⟨node, found, ?_⟩
    have last := plan.getLast?_abortions {} earlier read aborted unaborted
    rw [reason node (Array.mem_of_getElem? held), named, parted, last, Option.map_some]
  case loaded_known =>
    intro key member
    obtain ⟨report, listed, loaded⟩ := List.mem_filterMap.mp member
    have named := key_of_mem_reports listed (Report.result_of_loaded loaded)
    have sources : report.source ∈ plan.schedule.map Prod.fst := by
      rw [← plan.sources_reports {}]
      exact List.mem_map_of_mem listed
    obtain ⟨entry, member, same⟩ := List.mem_map.mp sources
    exact known entry member key (same ▸ named)
  case read_known => exact read_known

/-- Two modules of one assembly. The first of them declares a type of another assembly. -/
def shop : MappingPlan :=
  let board : TypeKey := ⟨⟨⟨"wood"⟩, "yard"⟩, "Board", 0⟩
  let saw : TypeKey := ⟨⟨⟨"shop"⟩, "tools"⟩, "Saw", 0⟩
  { primary := [
      ModuleDecl.source { key := ⟨"shop"⟩, types := [.leaf { key := board }] },
      ModuleDecl.source { key := ⟨"shop"⟩, types := [.leaf { key := saw }] }] }

/-- The assembly stays incomplete, although the second module is mapped. -/
theorem run_tells_abortions_shop :
    ∃ mapping node, shop.run = .ok mapping ∧ mapping.loaded = [⟨"shop"⟩] ∧
      mapping.model.findAssembly? ⟨"shop"⟩ = some node ∧
      node.decodeError = some (Fault.violation (.foreign (.space ⟨⟨"wood"⟩, "yard"⟩) (.assembly ⟨"shop"⟩))).text := by
  let board : TypeKey := ⟨⟨⟨"wood"⟩, "yard"⟩, "Board", 0⟩
  let first : ModuleDecl := { key := ⟨"shop"⟩, types := [.leaf { key := board }] }
  have tells : ∃ mapping, shop.run = .ok mapping ∧ mapping.TellsAbortions shop :=
    run_tells_abortions rfl Scanner.references_honest
  obtain ⟨mapping, ran, told⟩ := tells
  have parted : ∃ second, shop.schedule = [] ++ (first.source, {}) :: [second] ∧
      shop.abortion? {} first {} = some (.violation (.foreign (.space board.space) (.assembly ⟨"shop"⟩))) ∧
      shop.abortions ⟨"shop"⟩ (shop.modelAfter {} [(first.source, {})]) [second] = [] ∧
      (shop.reports {} shop.schedule).filterMap Report.loaded? = [⟨"shop"⟩] :=
    ⟨_, rfl, rfl, rfl, rfl⟩
  obtain ⟨second, scheduled, aborted, unaborted, loaded⟩ := parted
  obtain ⟨node, found, reason⟩ :=
    told.lasting [] first.source {} [second] first _ scheduled rfl aborted unaborted
  exact ⟨mapping, node, ran, told.loaded.trans loaded, found, reason⟩

end MappingPlan

end UsageGraph
