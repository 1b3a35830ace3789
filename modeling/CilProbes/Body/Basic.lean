import CilProbes.Body.Clause

/-!
# Method bodies

The code of a method with its exception clauses, and what its header declares.
-/

namespace CilProbes

structure MethodBody where
  maxStack : UInt16
  initLocals : Bool := false
  /-- Token of the signature of the local variables, or 0. -/
  localSignature : UInt32 := 0
  code : InstructionStream := {}
  clauses : List ExceptionClause := []
  deriving DecidableEq

namespace MethodBody

/-- Changes the code. -/
def withCode (b : MethodBody) (code : InstructionStream) : MethodBody :=
  { b with code }

end MethodBody

end CilProbes
