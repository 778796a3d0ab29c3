import UsageGraph.Builder
import UsageGraph.Declaration

/-! Scanners turn the body of a method into building steps while the method is open. -/

set_option autoImplicit false
namespace UsageGraph

structure Scanner where
  scan : Body → Build Unit

namespace Scanner

def references : Scanner := ⟨fun body => body.forM Builder.useNode⟩

/-- Records a usage of the type of every node that the body refers to. -/
def types : Scanner := ⟨fun body => body.forM fun key => Builder.useType key.typeKey⟩

def silent : Scanner := ⟨fun _ => pure ()⟩

end Scanner

end UsageGraph
