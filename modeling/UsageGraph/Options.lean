import UsageGraph.Key.Order

/-! Options of a visit: how much of a module is modelled. -/

set_option autoImplicit false
namespace UsageGraph

/-- The keys that may be visited; everything may be where no list is given. -/
abbrev AllowList (κ : Type) := Option (List κ)

namespace AllowList

variable {κ : Type} [DecidableEq κ]

def allows (allowed : AllowList κ) (key : κ) : Bool :=
  match allowed with
  | some keys => keys.contains key
  | none => true

/-- Lists agree when they hold the same keys, whatever their order. -/
def agrees : AllowList κ → AllowList κ → Bool
  | some first, some second => first.all second.contains && second.all first.contains
  | none, none => true
  | _, _ => false

def sorted? [Ord κ] (allowed : AllowList κ) : Option (List κ) := Option.map sortedDistinct allowed

end AllowList

structure Options where
  /-- Whether bodies are scanned in a primary visit. -/
  bodies : Bool := true
  types : AllowList TypeKey := none
  methods : AllowList MemberKey := none
  /-- A primary visit models everything, a secondary one signatures only. -/
  primary : Bool := true
  maxDepth : Nat := 64

namespace Options

def forPrimary : Options := {}

def forSecondary : Options := { bodies := false, primary := false }

def signaturesOnly : Options := { forPrimary with bodies := false }

/-- The secondary options of the same depth. Allow lists are for primary visits and are dropped. -/
def toSecondary (options : Options) : Options := { forSecondary with maxDepth := options.maxDepth }

def scansBodies (options : Options) : Bool := options.primary && options.bodies

def visitsType (options : Options) (key : TypeKey) : Bool := options.types.allows key

def visitsMethod (options : Options) (key : MemberKey) : Bool := options.methods.allows key

theorem visitsType_of_none {options : Options} (everyType : options.types = none) (key : TypeKey) :
    options.visitsType key = true := by
  rw [visitsType, everyType]
  rfl

theorem visitsMethod_of_none {options : Options} (everyMethod : options.methods = none) (key : MemberKey) :
    options.visitsMethod key = true := by
  rw [visitsMethod, everyMethod]
  rfl

def agrees (first second : Options) : Bool :=
  first.bodies = second.bodies && first.types.agrees second.types && first.methods.agrees second.methods &&
    first.primary = second.primary && first.maxDepth = second.maxDepth

end Options

end UsageGraph
