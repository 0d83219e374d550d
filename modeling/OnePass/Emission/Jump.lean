import OnePass.Emission.Generator

/-!
# Code for branches and loops

A jump forward is a slot that is reserved first and filled once its target is known.
The slot of a condition waits on the operand stack, the slots of breaks and continues
wait in the record of the open loops, which the row of the loop keyword keeps.

* `holdSlot`, `settle`: the two halves of a jump forward.
* `startLoop`, `endLoop`, `leaveLoop`: a loop, and the jumps out of it.
-/

namespace OnePass.Emission

open Names Target

/-- Reserves a slot and leaves it on the stack. -/
def holdSlot : Emit Unit := do
  let slot ← onMemory (·.reserve)
  push (.immediate (Operand.word slot))
  modify (·.mapDefinition fun f => { f with heldSlots := f.heldSlots + 1 })

/-- Takes a held slot back. An operand that is no number of a slot gives none. -/
def heldSlot : Emit (Option Nat) := do
  modify (·.mapDefinition fun f => { f with heldSlots := f.heldSlots - 1 })
  let o ← pop
  return if o.mode = .immediate then o.index? else none

/-- Fills a reserved slot. What is no reserved slot is left alone, so code that stands is never
overwritten. -/
def settle (slot : Option Nat) (i : Instruction) : Emit Unit := do
  match slot with
  | some slot => if (← get).memory.isReserved slot then onMemory (·.fill slot i)
  | none => return

/-- The condition's slot jumps to `distance` slots behind the program so far if it is false. -/
def settleCondition (distance : Nat) : Emit Unit := do
  let slot ← heldSlot
  let condition ← pop
  settle slot (.jumpIfFalse condition ((← get).programNext + distance))

/-- The end of a branch that has no other branch. -/
def endIf : Emit Unit := settleCondition 0

/-- Between two branches: the first ends in a jump, and the condition leads behind that. -/
def startElse : Emit Unit := do
  -- one slot on, past the jump that is held next
  settleCondition 1
  holdSlot

/-- The end of the second branch, which the jump at the end of the first leads to. -/
def endElse : Emit Unit := do
  let slot ← heldSlot
  settle slot (.jump (← get).programNext)

/-- The row that records the loops, and its record; the first loop makes it. -/
def loopRecord : Emit (Nat × LoopRecord) := do
  let symbols := (← get).symbols
  match symbols.latestIn Scopes.outermost loopKeyword false with
  | none => defect .noLoopKeyword
  | some row =>
    match symbols.meaning? row with
    | some (.loops record) => return (row, record)
    | some (.variable _) =>
      modify (·.setMeaning row (.loops .empty))
      return (row, .empty)
    | _ => defect .noLoopRecord

def startLoop : Emit Unit := do
  let start := (← get).programNext
  let (row, record) ← loopRecord
  modify (·.setMeaning row (.loops (record.enter start)))
  modify (·.enterScope .loop)

/-- The jump back, and all jumps that waited for the loop to end. -/
def settleLoop (slot : Option Nat) (condition : Operand) (closed : ClosedLoop) : Emit Unit := do
  emit (.jump closed.start)
  let after := (← get).programNext
  settle slot (.jumpIfFalse condition after)
  closed.breaks.forM fun s => settle (some s) (.jump after)
  closed.continues.forM fun s => settle (some s) (.jump closed.start)

def endLoop : Emit Unit := do
  let slot ← heldSlot
  let condition ← pop
  let (row, record) ← loopRecord
  match record.leave? with
  | some (closed, outer) =>
    modify (·.setMeaning row (.loops outer))
    settleLoop slot condition closed
  | none => pure ()
  modify (·.leaveScope)

/-- A jump that `add` puts among those the innermost loop waits with, or else an error. -/
def leaveLoop (line : Nat) (outside : SemanticFault) (add : LoopRecord → Nat → LoopRecord) :
    Emit Unit := do
  let g ← get
  if g.symbols.scopes.isLoop g.currentScope then
    let slot ← onMemory (·.reserve)
    let (row, record) ← loopRecord
    modify (·.setMeaning row (.loops (add record slot)))
  else report line outside

def breakLoop (line : Nat) : Emit Unit := leaveLoop line .breakOutsideLoop LoopRecord.addBreak

def continueLoop (line : Nat) : Emit Unit :=
  leaveLoop line .continueOutsideLoop LoopRecord.addContinue

end OnePass.Emission
