import OnePass.Target.Operand

/-!
# Three-address instructions

An instruction has an operation and up to three operands. Operations read their
first operands and write their last one.

* `Instruction.display`: `(OP, a, b, c)`, with nothing for an operand that is absent.
-/

namespace OnePass.Target

inductive Opcode where
  | add
  | sub
  | mult
  /-- One if the operands are equal, else zero. -/
  | eq
  /-- One if the first operand is less than the second, else zero. -/
  | lt
  | assign
  /-- Jumps if the condition is zero. -/
  | jumpFalse
  | jump
  | print
deriving DecidableEq, Inhabited

def Opcode.name : Opcode → String
  | .add => "ADD"
  | .sub => "SUB"
  | .mult => "MULT"
  | .eq => "EQ"
  | .lt => "LT"
  | .assign => "ASSIGN"
  | .jumpFalse => "JPF"
  | .jump => "JP"
  | .print => "PRINT"

structure Instruction where
  opcode : Opcode
  first : Operand
  second : Option Operand
  third : Option Operand
deriving DecidableEq, Inhabited

namespace Instruction

/-- Leaves the result of an operation on two values in `target`. -/
def binary (op : Opcode) (left right target : Operand) : Instruction :=
  ⟨op, left, some right, some target⟩

def assign (source target : Operand) : Instruction := ⟨.assign, source, some target, none⟩

/-- Goes on at a slot. -/
def jump (slot : Nat) : Instruction := ⟨.jump, .direct slot, none, none⟩

/-- Goes on at the slot stored in a cell. -/
def jumpThrough (cell : Nat) : Instruction := ⟨.jump, .indirect cell, none, none⟩

/-- Goes on at a slot if the condition is zero. -/
def jumpIfFalse (condition : Operand) (slot : Nat) : Instruction :=
  ⟨.jumpFalse, condition, some (.direct slot), none⟩

def print (value : Operand) : Instruction := ⟨.print, value, none, none⟩

def display (i : Instruction) : String :=
  let show? (o : Option Operand) : String := (o.map Operand.display).getD ""
  s!"({i.opcode.name}, {i.first.display}, {show? i.second}, {show? i.third})"

end Instruction

end OnePass.Target
