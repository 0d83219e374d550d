import OnePass.Target.Operand

/-!
# The operand stack

Actions hand operands to one another on a stack. After a repaired error the stack may
hold less than an action asks for, so that taking from it may fail.
-/

namespace OnePass.Emission

open Target (Operand)

/-- Operands, the top first. -/
abbrev OperandStack := List Operand

namespace OperandStack

variable (s : OperandStack)

def push (o : Operand) : OperandStack := o :: s

/-- The item `depth` places below the top. -/
def at? (depth : Nat) : Option Operand := s[depth]?

/-- Takes out the item `depth` places below the top. -/
def take? (depth : Nat) : Option (Operand × OperandStack) :=
  (s.at? depth).map fun o => (o, s.eraseIdx depth)

/-- Takes off the top. -/
def pop? : Option (Operand × OperandStack) := s.take? 0

end OperandStack

end OnePass.Emission
