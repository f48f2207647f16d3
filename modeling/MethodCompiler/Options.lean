/-!
# Options of code generation
-/

namespace MethodCompiler

/-- The settings that a compilation depends on. -/
structure Options where
  /-- The number of slots that the frame of a function may have. -/
  maxRegisters : Nat := 256
  /-- Drop statements between an unconditional exit and the next label. -/
  stripUnreachable : Bool := true
  /-- Merge adjacent statements that clear registers. -/
  mergeNullify : Bool := true
  /-- Functions may be compiled at the same time; this changes no result. -/
  parallel : Bool := true
  /-- Annotate statements with the names of the tree. -/
  comments : Bool := false
  /-- The name of the static method that a module starts with. -/
  entryPoint : String := "Main"
  deriving DecidableEq, Repr, Inhabited

namespace Options

/-- The largest frame that can be asked for. -/
def registerCeiling : Nat := 65536

/-- The number of registers is one that the machine can have. -/
def isValid (o : Options) : Bool := 0 < o.maxRegisters && o.maxRegisters ≤ registerCeiling

end Options

end MethodCompiler
