import UsageGraph.Proofs.Mapping.Order

/-! Failures stay with the sources that fail.

Sources are mapped one after the other into one model, and there is a report on each. A
lenient mapping lists all reports. A strict one goes along with it up to the first fault,
which it ends with. A source that cannot be read leaves the model as it is, so that the
later sources, and with them all that is loaded, do not depend on it.
-/

set_option autoImplicit false
namespace UsageGraph

def Source.isReadable (source : Source) : Bool := source.decoded.isOk

/-- What came of a source: the key of its module, or the fault that it ended with. -/
structure Report where
  source : Source
  result : Except Fault AssemblyKey

namespace Report

def loaded? (report : Report) : Option AssemblyKey := report.result.toOption

def fault? (report : Report) : Option Fault :=
  match report.result with
  | .ok _ => none
  | .error fault => some fault

def failure? (report : Report) : Option Failure :=
  report.fault?.map fun fault => ⟨report.source.name, fault.text⟩

section

variable (source : Source) (key : AssemblyKey) (fault : Fault)

@[simp] theorem loaded?_ok : loaded? ⟨source, .ok key⟩ = some key := rfl
@[simp] theorem loaded?_error : loaded? ⟨source, .error fault⟩ = none := rfl
@[simp] theorem fault?_ok : fault? ⟨source, .ok key⟩ = none := rfl
@[simp] theorem fault?_error : fault? ⟨source, .error fault⟩ = some fault := rfl
@[simp] theorem failure?_ok : failure? ⟨source, .ok key⟩ = none := rfl
@[simp] theorem failure?_error : failure? ⟨source, .error fault⟩ = some ⟨source.name, fault.text⟩ := rfl

end

theorem result_of_loaded {report : Report} {key : AssemblyKey} (loaded : report.loaded? = some key) :
    report.result = .ok key := by
  obtain ⟨source, result⟩ := report
  cases result with
  | ok found => exact congrArg Except.ok (Option.some.inj loaded)
  | error fault => cases loaded

theorem length_loaded_add_length_failures (reports : List Report) :
    (reports.filterMap loaded?).length + (reports.filterMap failure?).length = reports.length := by
  induction reports with
  | nil => rfl
  | cons report rest ih =>
    obtain ⟨source, result⟩ := report
    cases result <;> simp only [List.filterMap_cons, loaded?_ok, loaded?_error, failure?_ok, failure?_error,
      List.length_cons] <;> omega

theorem findSome?_fault?_eq_none {reports : List Report} (clean : reports.filterMap failure? = []) :
    reports.findSome? fault? = none := by
  rw [List.findSome?_eq_none_iff]
  intro report member
  have unlisted := List.filterMap_eq_nil_iff.mp clean report member
  exact Option.map_eq_none_iff.mp unlisted

theorem exists_first_fault {reports : List Report} {first : Failure} {rest : List Failure}
    (listed : reports.filterMap failure? = first :: rest) :
    ∃ fault, reports.findSome? fault? = some fault ∧ fault.text = first.reason := by
  induction reports with
  | nil => cases listed
  | cons report others ih =>
    cases faulty : report.fault? with
    | none =>
      have unlisted : report.failure? = none := by rw [failure?, faulty, Option.map_none]
      rw [List.filterMap_cons_none unlisted] at listed
      rw [List.findSome?_cons, faulty]
      exact ih listed
    | some fault =>
      have failed : report.failure? = some ⟨report.source.name, fault.text⟩ := by
        rw [failure?, faulty, Option.map_some]
      rw [List.filterMap_cons_some failed] at listed
      rw [List.findSome?_cons, faulty]
      exact ⟨fault, rfl, congrArg Failure.reason (List.cons.inj listed).1⟩

end Report

namespace MappingPlan

section Module

variable (plan : MappingPlan) (model : Model) (module : ModuleDecl) (options : Options)

def visited : Outcome Unit := ({ model } : Builder).visit module options plan.config.traversal plan.scanner

/-- The fault that aborts the traversal of a module: what its visit fails with, or else that it leaves scopes open. -/
def abortion? : Option Fault :=
  match (plan.visited model module options).result, (plan.visited model module options).builder.finish with
  | .error fault, _ => some fault
  | .ok _, .error fault => some fault
  | .ok _, .ok _ => none

def ending : Except Fault AssemblyKey :=
  match plan.abortion? model module options with
  | none => .ok module.key
  | some fault => .error fault

/-- A module is loaded unless its traversal is aborted. Then the model keeps what has been visited, and the reason. -/
theorem loadModule_eq : plan.loadModule model module options = (plan.ending model module options,
    match plan.abortion? model module options with
    | none => (plan.visited model module options).builder.model
    | some fault =>
      (plan.visited model module options).builder.model.recordDecodeError module.key fault.text) := by
  unfold loadModule ending abortion? visited
  generalize ({ model } : Builder).visit module options plan.config.traversal plan.scanner = outcome
  obtain ⟨result, builder, trace⟩ := outcome
  cases result with
  | error fault => rfl
  | ok => cases ended : builder.finish <;> simp [Except.bind, ended]

theorem loadSource_of_read {source : Source} {module : ModuleDecl} (read : source.decoded = .ok module) :
    plan.loadSource model source options = plan.loadModule model module options := by
  rw [loadSource, read]

end Module

/-! ## Reports on a mapping -/

/-- The reports on sources that are mapped one after the other, each into the model that the ones before it leave. -/
def reports (plan : MappingPlan) (model : Model) : List (Source × Options) → List Report
  | [] => []
  | (source, options) :: rest =>
    let done := plan.loadSource model source options
    ⟨source, done.1⟩ :: plan.reports done.2 rest

def modelAfter (plan : MappingPlan) (model : Model) : List (Source × Options) → Model
  | [] => model
  | (source, options) :: rest => plan.modelAfter (plan.loadSource model source options).2 rest

def extended (plan : MappingPlan) (mapping : Mapping) (entries : List (Source × Options)) : Mapping where
  model := plan.modelAfter mapping.model entries
  loaded := mapping.loaded ++ (plan.reports mapping.model entries).filterMap Report.loaded?
  failures := mapping.failures ++ (plan.reports mapping.model entries).filterMap Report.failure?

section Runs

variable {plan : MappingPlan} {mapping : Mapping} {source : Source} {options : Options}

theorem length_schedule (plan : MappingPlan) : plan.schedule.length = plan.sourceCount := by
  simp [sourceCount, schedule]

theorem sources_reports (plan : MappingPlan) (model : Model) (entries : List (Source × Options)) :
    (plan.reports model entries).map Report.source = entries.map Prod.fst := by
  induction entries generalizing model with
  | nil => rfl
  | cons entry rest ih => rw [reports, List.map_cons, List.map_cons, ih]

theorem reports_append (plan : MappingPlan) (model : Model) (earlier later : List (Source × Options)) :
    plan.reports model (earlier ++ later) =
      plan.reports model earlier ++ plan.reports (plan.modelAfter model earlier) later := by
  induction earlier generalizing model with
  | nil => rfl
  | cons entry rest ih => rw [List.cons_append, reports, reports, ih, List.cons_append, modelAfter]

theorem length_reports (plan : MappingPlan) (model : Model) (entries : List (Source × Options)) :
    (plan.reports model entries).length = entries.length := by
  simpa using congrArg List.length (plan.sources_reports model entries)

theorem extended_of_loaded {key : AssemblyKey} {model : Model}
    (ended : plan.loadSource mapping.model source options = (.ok key, model)) (rest : List (Source × Options)) :
    plan.extended mapping ((source, options) :: rest) =
      plan.extended { mapping with model, loaded := mapping.loaded ++ [key] } rest := by
  simp [extended, modelAfter, reports, ended, List.filterMap_cons]

theorem extended_of_failed {fault : Fault} {model : Model}
    (ended : plan.loadSource mapping.model source options = (.error fault, model)) (rest : List (Source × Options)) :
    plan.extended mapping ((source, options) :: rest) =
      plan.extended { mapping with model, failures := mapping.failures ++ [⟨source.name, fault.text⟩] } rest := by
  simp [extended, modelAfter, reports, ended, List.filterMap_cons]

theorem loadAll_of_lenient (lenient : plan.config.strict = false) (mapping : Mapping)
    (entries : List (Source × Options)) : plan.loadAll mapping entries = .ok (plan.extended mapping entries) := by
  induction entries generalizing mapping with
  | nil => simp [loadAll, extended, modelAfter, reports]
  | cons entry rest ih =>
    obtain ⟨source, options⟩ := entry
    unfold loadAll
    split
    next key model ended => rw [extended_of_loaded ended, ih]
    next fault model ended =>
      simp only [lenient, Bool.false_eq_true, if_false]
      rw [extended_of_failed ended, ih]

/-- A strict mapping ends with the first fault that is reported, if there is one. -/
theorem loadAll_of_strict (strict : plan.config.strict = true) (mapping : Mapping) (entries : List (Source × Options)) :
    plan.loadAll mapping entries =
      match (plan.reports mapping.model entries).findSome? Report.fault? with
      | none => .ok (plan.extended mapping entries)
      | some fault => .error fault := by
  induction entries generalizing mapping with
  | nil => simp [loadAll, extended, modelAfter, reports]
  | cons entry rest ih =>
    obtain ⟨source, options⟩ := entry
    unfold loadAll
    split
    next key model ended =>
      -- up to the first fault the strict mapping is where a lenient one would be
      simp only [reports, ended, List.findSome?_cons, Report.fault?_ok]
      rw [extended_of_loaded ended, ih]
    next fault model ended =>
      simp only [strict, if_true, reports, ended, List.findSome?_cons, Report.fault?_error]

theorem key_of_mem_reports {model : Model} {entries : List (Source × Options)} {report : Report}
    (member : report ∈ plan.reports model entries) {key : AssemblyKey} (loaded : report.result = .ok key) :
    report.source.key? = some key := by
  induction entries generalizing model with
  | nil => cases member
  | cons entry rest ih =>
    obtain ⟨source, options⟩ := entry
    rcases List.mem_cons.mp member with rfl | member
    · unfold Source.key?
      cases read : source.decoded with
      | error fault =>
        rw [loadSource, read] at loaded
        cases loaded
      | ok module =>
        rw [loadSource_of_read _ _ _ read, loadModule_eq, ending] at loaded
        split at loaded
        · exact congrArg some (Except.ok.inj loaded)
        · cases loaded
    · exact ih member

/-- The report on a source that can be read tells how the visit of its module and the end of building came out, at the
model that the sources before it have left. -/
theorem report_of_read (plan : MappingPlan) (model : Model) (earlier later : List (Source × Options))
    {module : ModuleDecl} (read : source.decoded = .ok module) :
    (plan.reports model (earlier ++ (source, options) :: later))[earlier.length]? =
      some ⟨source, plan.ending (plan.modelAfter model earlier) module options⟩ := by
  rw [reports_append, ← length_reports plan model earlier, List.getElem?_append_right (Nat.le_refl _), Nat.sub_self,
    reports, List.getElem?_cons_zero, loadSource_of_read _ _ _ read, loadModule_eq]

end Runs

section Readable

variable (plan : MappingPlan)

theorem loadSource_of_unreadable {source : Source} (unreadable : source.isReadable = false) (model : Model)
    (options : Options) : ∃ fault, plan.loadSource model source options = (.error fault, model) := by
  unfold Source.isReadable at unreadable
  unfold loadSource
  cases read : source.decoded with
  | ok module => simp [read, Except.isOk, Except.toBool] at unreadable
  | error fault => exact ⟨fault, rfl⟩

theorem modelAfter_readable (model : Model) (entries : List (Source × Options)) :
    plan.modelAfter model (entries.filter fun entry => entry.1.isReadable) = plan.modelAfter model entries := by
  induction entries generalizing model with
  | nil => rfl
  | cons entry rest ih =>
    obtain ⟨source, options⟩ := entry
    cases readable : source.isReadable with
    | true =>
      rw [List.filter_cons_of_pos (by exact readable), modelAfter, modelAfter, ih]
    | false =>
      -- the rest begins with the same model
      obtain ⟨fault, left⟩ := plan.loadSource_of_unreadable readable model options
      rw [List.filter_cons_of_neg (by simp [readable]), modelAfter, left, ih]

theorem loaded_readable (model : Model) (entries : List (Source × Options)) :
    (plan.reports model (entries.filter fun entry => entry.1.isReadable)).filterMap Report.loaded? =
      (plan.reports model entries).filterMap Report.loaded? := by
  -- every source that can be read moves the model on, so the induction is over all models
  induction entries generalizing model with
  | nil => rfl
  | cons entry rest ih =>
    obtain ⟨source, options⟩ := entry
    cases readable : source.isReadable with
    | true =>
      rw [List.filter_cons_of_pos (by exact readable), reports, reports]
      simp only [List.filterMap_cons, ih]
    | false =>
      obtain ⟨fault, left⟩ := plan.loadSource_of_unreadable readable model options
      rw [List.filter_cons_of_neg (by simp [readable]), reports, left, ih]
      rw [List.filterMap_cons_none (Report.loaded?_error source fault)]

end Readable

section Congruence

variable {plan other : MappingPlan} (traversal : plan.config.traversal = other.config.traversal)
  (scanner : plan.scanner = other.scanner)
include traversal scanner

theorem loadSource_congr : plan.loadSource = other.loadSource := by
  -- how a source is mapped has nothing to do with what follows a failure
  funext model source options
  simp only [loadSource, loadModule, traversal, scanner]

theorem reports_congr : plan.reports = other.reports := by
  funext model entries
  induction entries generalizing model with
  | nil => rfl
  | cons entry rest ih => simp only [reports, loadSource_congr traversal scanner, ih]

theorem modelAfter_congr : plan.modelAfter = other.modelAfter := by
  funext model entries
  induction entries generalizing model with
  | nil => rfl
  | cons entry rest ih => simp only [modelAfter, loadSource_congr traversal scanner, ih]

theorem extended_congr : plan.extended = other.extended := by
  funext mapping entries
  simp only [extended, reports_congr traversal scanner, modelAfter_congr traversal scanner]

end Congruence

end MappingPlan

/-! ## Inclusions -/

def Inclusion.isSecondary (inclusion : Inclusion) : Bool := inclusion.asDependency || inclusion.source.isDependency

/-- The order of mapping: what the program consists of, then what it depends on, each as it was included. -/
def Inclusion.inOrder (inclusions : List Inclusion) : List Inclusion :=
  (inclusions.filter fun inclusion => !inclusion.isSecondary) ++ inclusions.filter Inclusion.isSecondary

theorem Inclusion.inOrder_filter (inclusions : List Inclusion) (p : Inclusion → Bool) :
    inOrder (inclusions.filter p) = (inOrder inclusions).filter p := by
  unfold inOrder
  rw [List.filter_append, List.filter_comm p, List.filter_comm p isSecondary]

namespace MappingPlan

def scanning (scanner : Scanner) (config : Config) (inclusions : List Inclusion) : MappingPlan :=
  inclusions.foldl addInclusion { config, scanner }

theorem foldl_addInclusion (plan : MappingPlan) (inclusions : List Inclusion) :
    inclusions.foldl addInclusion plan =
      { plan with
        primary := plan.primary ++
          (inclusions.filter fun inclusion => !inclusion.isSecondary).map Inclusion.source
        dependencies := plan.dependencies ++ (inclusions.filter Inclusion.isSecondary).map Inclusion.source } := by
  induction inclusions generalizing plan with
  | nil => simp
  | cons inclusion rest ih =>
    rw [List.foldl_cons, ih]
    unfold addInclusion add addDependency
    -- the source goes to the end of one of the two lists
    cases asked : inclusion.asDependency <;> cases stated : inclusion.source.isDependency <;>
      simp [Inclusion.isSecondary, asked, stated]

variable (scanner : Scanner) (config : Config) (inclusions : List Inclusion)

@[simp] theorem scanning_config : (scanning scanner config inclusions).config = config := by
  rw [scanning, foldl_addInclusion]

@[simp] theorem scanning_scanner : (scanning scanner config inclusions).scanner = scanner := by
  rw [scanning, foldl_addInclusion]

theorem schedule_scanning :
    (scanning scanner config inclusions).schedule = (Inclusion.inOrder inclusions).map (Inclusion.entry config) := by
  rw [scanning, foldl_addInclusion, Inclusion.inOrder, List.map_append]
  simp only [schedule, List.nil_append, List.map_map]
  congr 1 <;> refine List.map_congr_left fun inclusion member => ?_
  · have primary := (List.mem_filter.mp member).2
    rw [Inclusion.isSecondary, Bool.not_eq_true'] at primary
    simp [Inclusion.entry, primary]
  · have secondary := (List.mem_filter.mp member).2
    rw [Inclusion.isSecondary] at secondary
    simp [Inclusion.entry, secondary]

theorem schedule_scanning_readable :
    (scanning scanner config (inclusions.filter fun inclusion => inclusion.source.isReadable)).schedule =
      (scanning scanner config inclusions).schedule.filter fun entry => entry.1.isReadable := by
  rw [schedule_scanning, schedule_scanning, Inclusion.inOrder_filter, List.filter_map]
  rfl

def account : List Report :=
  (scanning scanner config inclusions).reports {} (scanning scanner config inclusions).schedule

def accounted : Mapping := (scanning scanner config inclusions).extended {} (scanning scanner config inclusions).schedule

theorem failures_accounted : (accounted scanner config inclusions).failures =
    (account scanner config inclusions).filterMap Report.failure? := rfl

theorem account_strictly (strict : Bool) :
    account scanner { config with strict } inclusions = account scanner config inclusions := by
  have same : (scanning scanner { config with strict } inclusions).reports =
    (scanning scanner config inclusions).reports := reports_congr (by simp) (by simp)
  unfold account
  rw [schedule_scanning, schedule_scanning, same]
  rfl

theorem accounted_strictly (strict : Bool) :
    accounted scanner { config with strict } inclusions = accounted scanner config inclusions := by
  have same : (scanning scanner { config with strict } inclusions).extended =
    (scanning scanner config inclusions).extended := extended_congr (by simp) (by simp)
  unfold accounted
  rw [schedule_scanning, schedule_scanning, same]
  rfl

theorem accounted_readable :
    let readable := inclusions.filter fun inclusion => inclusion.source.isReadable
    (accounted scanner config readable).model = (accounted scanner config inclusions).model ∧
      (accounted scanner config readable).loaded = (accounted scanner config inclusions).loaded := by
  intro readable
  have same : (scanning scanner config readable).extended = (scanning scanner config inclusions).extended :=
    extended_congr (by simp) (by simp)
  unfold accounted
  rw [schedule_scanning_readable, same]
  exact ⟨modelAfter_readable _ _ _, loaded_readable _ _ _⟩

theorem run_of_lenient : (scanning scanner { config with strict := false } inclusions).run =
    .ok (accounted scanner config inclusions) := by
  rw [← accounted_strictly scanner config inclusions false]
  exact loadAll_of_lenient (by simp) {} _

theorem run_of_strict : (scanning scanner { config with strict := true } inclusions).run =
    match (account scanner config inclusions).findSome? Report.fault? with
    | none => .ok (accounted scanner config inclusions)
    | some fault => .error fault := by
  rw [← accounted_strictly scanner config inclusions true, ← account_strictly scanner config inclusions true]
  exact loadAll_of_strict (by simp) {} _

section Strict

variable {scanner config inclusions}

theorem run_of_strict_of_clean (clean : (accounted scanner config inclusions).failures = []) :
    (scanning scanner { config with strict := true } inclusions).run = .ok (accounted scanner config inclusions) := by
  rw [failures_accounted] at clean
  rw [run_of_strict, Report.findSome?_fault?_eq_none clean]

theorem run_of_strict_of_failures {first : Failure} {rest : List Failure}
    (listed : (accounted scanner config inclusions).failures = first :: rest) :
    ∃ fault, (scanning scanner { config with strict := true } inclusions).run = .error fault ∧
      fault.text = first.reason := by
  rw [failures_accounted] at listed
  obtain ⟨fault, found, text⟩ := Report.exists_first_fault listed
  exact ⟨fault, by rw [run_of_strict, found], text⟩

end Strict

/-- What a lenient mapping of sources comes to, and how it compares with a mapping of those that can be read and with
a strict mapping. -/
structure Isolates (mapping : Mapping) : Prop where
  ran : (scanning scanner { config with strict := false } inclusions).run = .ok mapping
  counted : mapping.loaded.length + mapping.failures.length = (scanning scanner config inclusions).sourceCount
  ordered : (account scanner config inclusions).map Report.source =
    (Inclusion.inOrder inclusions).map Inclusion.source
  keys : ∀ report ∈ account scanner config inclusions, ∀ key, report.result = .ok key → report.source.key? = some key
  /-- Whether a module that could be read is loaded depends on its visit, and on the scopes that this leaves open. -/
  endings : ∀ earlier source options later module,
    (scanning scanner config inclusions).schedule = earlier ++ (source, options) :: later →
      source.decoded = .ok module → (account scanner config inclusions)[earlier.length]? =
        some ⟨source, (scanning scanner config inclusions).ending
          ((scanning scanner config inclusions).modelAfter {} earlier) module options⟩
  loaded : mapping.loaded = (account scanner config inclusions).filterMap Report.loaded?
  failures : mapping.failures = (account scanner config inclusions).filterMap Report.failure?
  readable : ∃ other, (scanning scanner { config with strict := false }
      (inclusions.filter fun inclusion => inclusion.source.isReadable)).run = .ok other ∧
    other.model = mapping.model ∧ other.loaded = mapping.loaded
  strict_iff : (∃ other, (scanning scanner { config with strict := true } inclusions).run = .ok other) ↔
    mapping.failures = []
  strict_same : mapping.failures = [] →
    (scanning scanner { config with strict := true } inclusions).run = .ok mapping
  strict_first : ∀ first rest, mapping.failures = first :: rest →
    ∃ fault, (scanning scanner { config with strict := true } inclusions).run = .error fault ∧
      fault.text = first.reason

/-- A source that fails takes nothing from the others: a lenient mapping lists every source as loaded or as failed,
in the order of mapping, and it comes to what it comes to without the sources that cannot be read. A strict mapping
goes through just if the lenient one has no failures, and ends with the first of them otherwise. -/
theorem exists_isolates : ∃ mapping, Isolates scanner config inclusions mapping := by
  refine ⟨accounted scanner config inclusions, ?_⟩
  constructor
  case ran => exact run_of_lenient scanner config inclusions
  case counted =>
    rw [← length_schedule, ← length_reports _ {}]
    exact Report.length_loaded_add_length_failures _
  case ordered =>
    rw [account, sources_reports, schedule_scanning, List.map_map]
    rfl
  case keys => exact fun report member key loaded => key_of_mem_reports member loaded
  case endings =>
    intro earlier source options later module parted read
    rw [account, parted]
    exact report_of_read _ {} earlier later read
  case loaded => rfl
  case failures => rfl
  case readable => exact ⟨_, run_of_lenient scanner config _, accounted_readable scanner config inclusions⟩
  case strict_iff =>
    refine ⟨?_, fun clean => ⟨_, run_of_strict_of_clean clean⟩⟩
    rintro ⟨other, ran⟩
    cases listed : (accounted scanner config inclusions).failures with
    | nil => rfl
    | cons first rest =>
      obtain ⟨fault, failed, _⟩ := run_of_strict_of_failures listed
      cases failed.symm.trans ran
  case strict_same => exact run_of_strict_of_clean
  case strict_first => exact fun first rest => run_of_strict_of_failures

end MappingPlan

end UsageGraph
