import UsageGraph.Closure.Engine
import UsageGraph.Traversal

/-! Mapping several modules into one model.

The modules of the program itself are mapped first, in full as far as the options say,
then those it depends on, for their signatures. A module that fails leaves the others
alone: it is listed with its reason, or ends a strict mapping.
-/

set_option autoImplicit false
namespace UsageGraph

/-- Where a module comes from. Reading it gives the same answer every time. -/
structure Source where
  name : String
  isDependency : Bool
  decoded : Except Fault ModuleDecl

def ModuleDecl.source (module : ModuleDecl) : Source where
  name := module.key.name
  isDependency := module.isDependency
  decoded := .ok module

def Source.unreadable (name : String) (fault : Fault) : Source where
  name := name
  isDependency := false
  decoded := .error fault

structure Config where
  traversal : Traversal := .default
  options : Options := {}
  /-- Whether the first failure ends the mapping. -/
  strict : Bool := false

structure Failure where
  moduleName : String
  reason : String
  deriving DecidableEq

structure Mapping where
  model : Model := {}
  /-- The modules that were mapped, in order. -/
  loaded : List AssemblyKey := []
  /-- The modules that were not, in order. -/
  failures : List Failure := []

namespace Mapping

def isComplete (mapping : Mapping) : Bool := mapping.failures.isEmpty

def engine (mapping : Mapping) : Engine := { model := mapping.model }

end Mapping

structure MappingPlan where
  config : Config := {}
  scanner : Scanner := .references
  primary : List Source := []
  dependencies : List Source := []

namespace MappingPlan

def add (plan : MappingPlan) (source : Source) : MappingPlan :=
  if source.isDependency then { plan with dependencies := plan.dependencies ++ [source] }
  else { plan with primary := plan.primary ++ [source] }

def addDependency (plan : MappingPlan) (source : Source) : MappingPlan :=
  { plan with dependencies := plan.dependencies ++ [source] }

def sourceCount (plan : MappingPlan) : Nat := plan.primary.length + plan.dependencies.length

/-- The sources in the order in which they are mapped, each with its options. -/
def schedule (plan : MappingPlan) : List (Source × Options) :=
  plan.primary.map (·, plan.config.options) ++
    plan.dependencies.map (·, plan.config.options.toSecondary)

/-- Maps a module that has been read; where that fails, its assembly is marked as incomplete. -/
def loadModule (plan : MappingPlan) (model : Model) (module : ModuleDecl) (options : Options) :
    Except Fault AssemblyKey × Model :=
  let outcome := ({ model } : Builder).visit module options plan.config.traversal plan.scanner
  match outcome.result.bind fun _ => outcome.builder.finish with
  | .ok _ => (.ok module.key, outcome.builder.model)
  | .error fault => (.error fault, outcome.builder.model.recordDecodeError module.key fault.text)

def loadSource (plan : MappingPlan) (model : Model) (source : Source) (options : Options) :
    Except Fault AssemblyKey × Model :=
  match source.decoded with
  | .ok module => plan.loadModule model module options
  | .error fault => (.error fault, model)

def loadAll (plan : MappingPlan) (mapping : Mapping) : List (Source × Options) → Except Fault Mapping
  | [] => .ok mapping
  | (source, options) :: rest =>
    match plan.loadSource mapping.model source options with
    | (.ok key, model) =>
      plan.loadAll { mapping with model, loaded := mapping.loaded ++ [key] } rest
    | (.error fault, model) =>
      if plan.config.strict then .error fault
      else
        let failure : Failure := ⟨source.name, fault.text⟩
        plan.loadAll { mapping with model, failures := mapping.failures ++ [failure] } rest

def run (plan : MappingPlan) : Except Fault Mapping := plan.loadAll {} plan.schedule

end MappingPlan

end UsageGraph
