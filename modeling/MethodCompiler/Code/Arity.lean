import MethodCompiler.Code.Statement
import MethodCompiler.Error

/-!
# Numbers of operands
-/

namespace MethodCompiler

/-- The statement has as many operands as its opcode takes. -/
def Statement.checkArity (s : Statement) : Except Error Unit :=
  if s.operands.length == s.op.arity then .ok ()
  else .error (.arity s.op s.op.arity s.operands.length)

end MethodCompiler
