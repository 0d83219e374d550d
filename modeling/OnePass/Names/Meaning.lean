/-!
# What a symbol row means

A row starts out as a variable without a cell. The first use that needs more makes it
a function, or the record of all loops; neither is ever undone.

* `LoopRecord.enter`, `LoopRecord.leave?`: loops nest, and the slots that wait for the
  end of a loop are kept in two flat lists with marks.
* `Meaning.becomeFunction`, `Meaning.becomeLoops`: the one-way changes of a variable.
-/

namespace OnePass.Names

/-- What calls need to know of a function: its cells, its first slot, and whether it gives a
value. -/
structure FunctionInfo where
  /-- The parameter cells, in the order of the parameters. -/
  params : List Nat
  /-- The cell the result is left in. -/
  result : Nat
  /-- The cell that holds the slot to return to. -/
  returnCell : Nat
  /-- The first slot of the body. -/
  start : Nat
  /-- Whether a return with a value has been compiled in the body. -/
  returnsValue : Bool
deriving DecidableEq, Inhabited

namespace FunctionInfo

/-- A function whose parameters are still to be read. -/
def fresh (result returnCell start : Nat) : FunctionInfo := ⟨[], result, returnCell, start, false⟩

def arity (f : FunctionInfo) : Nat := f.params.length

/-- Every cell the function owns. -/
def cells (f : FunctionInfo) : List Nat := f.params ++ [f.result, f.returnCell]

end FunctionInfo

/-- The open loops, innermost first, and the jumps out of them that wait for their target. A mark
says how many jumps were waiting when its loop began. -/
structure LoopRecord where
  /-- Slots that jump behind a loop, oldest first. -/
  breaks : List Nat
  /-- Slots that jump back to a loop's condition, oldest first. -/
  continues : List Nat
  starts : List Nat
  breakMarks : List Nat
  continueMarks : List Nat
deriving DecidableEq, Inhabited

/-- What the end of a loop has to fill in. -/
structure ClosedLoop where
  /-- The first slot of the condition. -/
  start : Nat
  breaks : List Nat
  continues : List Nat
deriving DecidableEq

namespace LoopRecord

def empty : LoopRecord := ⟨[], [], [], [], []⟩

/-- Opens a loop whose condition starts at slot `start`. -/
def enter (l : LoopRecord) (start : Nat) : LoopRecord :=
  { l with
    starts := start :: l.starts
    breakMarks := l.breaks.length :: l.breakMarks
    continueMarks := l.continues.length :: l.continueMarks }

def addBreak (l : LoopRecord) (slot : Nat) : LoopRecord := { l with breaks := l.breaks ++ [slot] }

def addContinue (l : LoopRecord) (slot : Nat) : LoopRecord :=
  { l with continues := l.continues ++ [slot] }

/-- Closes the innermost loop and hands over the jumps added since it began; nothing if no loop
is open. -/
def leave? (l : LoopRecord) : Option (ClosedLoop × LoopRecord) :=
  match l.starts with
  | [] => none
  | start :: starts =>
    let breakMark := l.breakMarks.headD 0
    let continueMark := l.continueMarks.headD 0
    some (⟨start, l.breaks.drop breakMark, l.continues.drop continueMark⟩,
      { breaks := l.breaks.take breakMark
        continues := l.continues.take continueMark
        starts := starts
        breakMarks := l.breakMarks.tail
        continueMarks := l.continueMarks.tail })

/-- Whether any loop is open. -/
def anyOpen (l : LoopRecord) : Bool := !l.starts.isEmpty

/-- **Opening a loop and closing it at once changes nothing** and hands over no jump. -/
theorem leave?_enter (l : LoopRecord) (start : Nat) :
    (l.enter start).leave? = some (⟨start, [], []⟩, l) := by
  simp [enter, leave?]

/-- A loop can be closed exactly if one is open. -/
theorem isSome_leave? (l : LoopRecord) : l.leave?.isSome = l.anyOpen := by
  unfold leave? anyOpen
  cases l.starts <;> rfl

end LoopRecord

/-- What a symbol row stands for. -/
inductive Meaning where
  /-- A variable, with its cell once it has one. -/
  | variable (cell : Option Nat)
  | function (info : FunctionInfo)
  | loops (record : LoopRecord)
deriving DecidableEq

instance : Inhabited Meaning := ⟨.variable none⟩

namespace Meaning

/-- The meaning of a row that has just been entered. -/
def unused : Meaning := .variable none

/-- The cell of a variable that has one. -/
def cell? : Meaning → Option Nat
  | .variable cell => cell
  | _ => none

def function? : Meaning → Option FunctionInfo
  | .function info => some info
  | _ => none

def loops? : Meaning → Option LoopRecord
  | .loops record => some record
  | _ => none

def isVariable : Meaning → Bool
  | .variable _ => true
  | _ => false

def isFunction : Meaning → Bool
  | .function _ => true
  | _ => false

/-- Changes the function a row stands for, if it stands for one. -/
def mapFunction (f : FunctionInfo → FunctionInfo) : Meaning → Meaning
  | .function info => .function (f info)
  | other => other

private def listed (items : List Nat) : String :=
  "[" ++ ", ".intercalate (items.map toString) ++ "]"

/-- The meaning with all its fields, as complaints quote it. The innermost loop comes last. -/
def spelledOut : Meaning → String
  | .variable none => "Plain \x7b mem_addr: None \x7d"
  | .variable (some cell) => s!"Plain \x7b mem_addr: Some({cell}) \x7d"
  | .function f =>
    s!"Function(FunctionAttribute \x7b args_addr: {listed f.params}, ret_val_addr: {f.result}, "
      ++ s!"jp_addr: {f.returnCell}, start_addr: {f.start}, "
      ++ s!"has_return_statement: {f.returnsValue} \x7d)"
  | .loops l =>
    s!"Loop(LoopAttribute \x7b breaks_pending: {listed l.breaks}, "
      ++ s!"continues_pending: {listed l.continues}, "
      ++ s!"loop_start_stack: {listed l.starts.reverse}, "
      ++ s!"break_mark_stack: {listed l.breakMarks.reverse}, "
      ++ s!"cont_mark_stack: {listed l.continueMarks.reverse} \x7d)"

end Meaning

/-- A change that the meaning of a row does not allow. -/
inductive MeaningError where
  | noFunction (current : Meaning)
  | noLoops (current : Meaning)
deriving DecidableEq

def MeaningError.message : MeaningError → String
  | .noFunction current => s!"attribute {current.spelledOut} cannot become a function"
  | .noLoops current => s!"attribute {current.spelledOut} cannot become a loop"

namespace Meaning

/-- A variable becomes a function, whether it owned a cell or not. -/
def becomeFunction (current : Meaning) (info : FunctionInfo) : Except MeaningError Meaning :=
  if current.isVariable then .ok (.function info) else .error (.noFunction current)

/-- A variable becomes the record of the loops, none of them open. -/
def becomeLoops (current : Meaning) : Except MeaningError Meaning :=
  if current.isVariable then .ok (.loops .empty) else .error (.noLoops current)

end Meaning

end OnePass.Names
