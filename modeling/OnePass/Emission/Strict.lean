import OnePass.Emission.Perform
import OnePass.Names.Strict

/-!
# Actions with checked accesses

The actions that touch rows and scopes, with every row and every scope found by its number.
One that is not there stops the compilation. They bear the names of the actions they are the
checked form of; the other actions only touch the stack and the memory image, which have no
numbers that could go astray.

* `look`, `change`: lookups and changes of the table.
* `perform`: what an action does. `callMain`: the end of a program.
-/

namespace OnePass.Emission.Strict

open Names Target

/-- A lookup in the table. -/
def look {α : Type} (lookup : SymbolTable → Checked α) : Emit α := do
  match lookup (← get).symbols with
  | .ok a => return a
  | .error astray => defect (.outside astray)

/-- A change of the table. -/
def change (f : SymbolTable → Checked SymbolTable) : Emit Unit := do
  let symbols ← look f
  modify ({ · with symbols := symbols })

/-- The row of a name in the current scope: the latest if `reuse` accepts it, else a fresh one. -/
def rowFor (name : String) (reuse : Meaning → Bool) : Emit Nat := do
  let (row, symbols) ← look (Names.Strict.rowFor · name .identifier reuse)
  modify ({ · with symbols := symbols })
  return row

/-- The cell a name is read from: the nearest one visible from the current scope. -/
def readCell? (name : String) : Emit (Option Nat) :=
  look fun t => do
    match ← Names.Strict.resolve t name t.currentScope true true with
    | some row => Names.Strict.cell? t row
    | none => return none

/-- The cell that a name has in a scope. -/
def cellIn? (t : SymbolTable) (name : String) (scope : Nat) : Checked (Option Nat) := do
  match ← Names.Strict.latestIn t scope name true with
  | some row => Names.Strict.cell? t row
  | none => return none

/-- The cell a name is assigned to: the nearest one in the current function body or at top level,
out through the loops but not beyond. -/
def ownCell? (name : String) : Emit (Option Nat) :=
  look fun t => do
    (← Names.Strict.sameBody t.scopes t.currentScope).findSomeM? (cellIn? t name)

/-- Gives a name a cell of its own in the current scope. -/
def bindFresh (name : String) : Emit Nat := do
  let row ← rowFor name Meaning.isVariable
  let cell ← onMemory (·.takeCell)
  change (Names.Strict.setMeaning · row (.variable (some cell)))
  return cell

def readName (name : String) : Emit Unit := do
  let cell ← match ← readCell? name with
    | some cell => pure cell
    | none => bindFresh name
  push (.direct cell)

def assignTo (name : String) : Emit Unit := do
  let cell ← match ← ownCell? name with
    | some cell => pure cell
    | none => bindFresh name
  push (.direct cell)

def requireCell (name : String) (line : Nat) : Emit Unit := do
  if (← readCell? name).isNone then report line (.undefined name)

def bindGlobal (name : String) (line : Nat) : Emit Unit := do
  if (← get).currentScope = Scopes.outermost then return
  match ← look (cellIn? · name Scopes.outermost) with
  | none => report line (.undefined name)
  | some cell =>
    let row ← rowFor name Meaning.isVariable
    change (Names.Strict.setMeaning · row (.variable (some cell)))

/-- The row that records the loops, and its record; the first loop makes it. -/
def loopRecord : Emit (Nat × LoopRecord) := do
  match ← look (Names.Strict.latestIn · Scopes.outermost loopKeyword false) with
  | none => defect .noLoopKeyword
  | some row =>
    match (← look (Names.Strict.rowAt · row)).meaning with
    | .loops record => return (row, record)
    | .variable _ =>
      change (Names.Strict.setMeaning · row (.loops .empty))
      return (row, .empty)
    | .function _ => defect .noLoopRecord

def startLoop : Emit Unit := do
  let start := (← get).programNext
  let (row, record) ← loopRecord
  change (Names.Strict.setMeaning · row (.loops (record.enter start)))
  modify (·.enterScope .loop)

def endLoop : Emit Unit := do
  let slot ← heldSlot
  let condition ← pop
  let (row, record) ← loopRecord
  match ← look fun _ => Names.Strict.leave? record with
  | some (closed, outer) =>
    change (Names.Strict.setMeaning · row (.loops outer))
    settleLoop slot condition closed
  | none => pure ()
  change Names.Strict.leaveScope

/-- A jump that `add` puts among those the innermost loop waits with, or else an error. -/
def leaveLoop (line : Nat) (outside : SemanticFault) (add : LoopRecord → Nat → LoopRecord) :
    Emit Unit := do
  if ← look fun t => Names.Strict.isLoop t.scopes t.currentScope then
    let slot ← onMemory (·.reserve)
    let (row, record) ← loopRecord
    change (Names.Strict.setMeaning · row (.loops (add record slot)))
  else report line outside

/-- The function on a row. -/
def functionOn (row : Nat) : Emit FunctionInfo := do
  let r ← look (Names.Strict.rowAt · row)
  match r.meaning.function? with
  | some info => return info
  | none => defect (.notAFunction r.name)

/-- Copies the arguments, calls a function and takes its result into a temporary. -/
def callFunction (row : Nat) (info : FunctionInfo) (arguments : List Operand) : Emit Unit := do
  (arguments.zip info.params).forM fun (argument, cell) =>
    emit (.assign argument (.direct cell))
  jumpInto info
  let result ← freshTemp
  emit (.assign (.direct info.result) (.direct result))
  -- inside its own body it is not settled yet whether the function gives a value
  let settled ← if info.returnsValue then pure true
    else look fun t => Names.Strict.insideBody t.scopes t.currentScope row
  if !settled then modify (·.markVoid result)
  push (.direct result)

def resolveCall (line : Nat) : Emit Unit := do
  let counter ← pop
  let count := min (counter.index?.getD 0) (← get).stack.length
  let arguments ← takeValues line count
  let name := (← get).pendingCalls.headD ""
  modify fun g => { g with pendingCalls := g.pendingCalls.tail }
  let visible ← look fun t => Names.Strict.visibleFunctions t t.currentScope name
  match ← look (Names.Strict.callee? · visible count) with
  | some (row, info) => callFunction row info arguments
  | none =>
    report line (if visible.isEmpty then .undefined name else .argumentCount name)
    push (.immediate 0)

def startFunction (name : String) : Emit Unit := do
  let aroundSlot ← onMemory (·.reserve)
  let result ← onMemory (·.takeCell)
  let returnCell ← onMemory (·.takeCell)
  let row ← rowFor name (· = .unused)
  let header := FunctionInfo.fresh result returnCell (← get).programNext
  modify (·.enterScope (.body row))
  modify fun g =>
    { g with
      definitions := ⟨row, g.currentScope, aroundSlot, some header, 0, false⟩ :: g.definitions }

def addParameter (name : String) : Emit Unit := do
  let cell ← bindFresh name
  modify (·.mapDefinition fun d =>
    { d with header := d.header.map fun info => { info with params := info.params ++ [cell] } })

/-- Changes what a row stands for, if its meaning allows it. -/
def giveMeaning (row : Nat) (f : Meaning → Except MeaningError Meaning) : Emit Unit := do
  match f (← look (Names.Strict.rowAt · row)).meaning with
  | .ok changed => change (Names.Strict.setMeaning · row changed)
  | .error e => defect (.meaning e)

/-- Puts the function on its row, where calls find it from now on. Its body starts here. -/
def publish : Emit Unit := do
  let g ← get
  match g.definitions with
  | [] => return
  | d :: _ =>
    match d.header with
    | none => return
    | some info =>
      modify (·.mapDefinition fun d => { d with header := none })
      giveMeaning d.row (·.becomeFunction { info with start := g.programNext })

/-- Notes of a function's row that it returns a value. -/
def noteValue (row : Nat) : Emit Unit :=
  change (Names.Strict.modifyRow · row fun r =>
    { r with meaning := r.meaning.mapFunction fun info => { info with returnsValue := true } })

def returnWith (line : Nat) : Emit Unit := do
  let value ← takeValue line
  match ← returningFrom with
  | none => return
  | some row =>
    let info ← functionOn row
    emitReturn info value
    noteValue row

def returnNothing : Emit Unit := do
  match ← returningFrom with
  | none => return
  | some row =>
    let info ← functionOn row
    emit (.jumpThrough info.returnCell)

def endFunction : Emit Unit := do
  publish
  match (← get).definitions with
  | [] => return
  | d :: rest =>
    modify ({ · with definitions := rest })
    if !d.alwaysReturns then
      let info ← functionOn d.row
      emitReturn info (.immediate 0)
    settle (some d.aroundSlot) (.jump (← get).programNext)
    change Names.Strict.leaveScope
    modify ({ · with lastDefined := some d.row })

/-- The other functions of a function's scope that agree with it in name and arity. -/
def rivals (t : SymbolTable) (row : Nat) (r : Row) (info : FunctionInfo) : Checked (List Nat) := do
  (← Names.Strict.functionsIn t r.scope r.name).filterM fun other => do
    if other = row then return false
    return ((← Names.Strict.function? t other).map (·.arity)) == some info.arity

/-- Takes a function out of the program and releases its cells. -/
def retireFunction (row : Nat) : Emit Unit := do
  let cells := ((← look (Names.Strict.function? · row)).map FunctionInfo.cells).getD []
  change (Names.Strict.retire · row)
  modify fun g => { g with memory := cells.foldl Memory.freeCell g.memory }

def retireRivals (line : Nat) : Emit Unit := do
  match (← get).lastDefined with
  | none => return
  | some row =>
    modify ({ · with lastDefined := none })
    let r ← look (Names.Strict.rowAt · row)
    match r.meaning.function? with
    | none => return
    | some info =>
      (← look (rivals · row r info)).forM fun other => do
        report line (.redefined r.name)
        retireFunction other

/-- **What an action does.** Every row and every scope it touches has to be there. -/
def perform (action : Grammar.Action) (lexeme : String) (line : Nat) : Emit Unit :=
  match action with
  | .pushId => readName lexeme
  | .pushTarget => assignTo lexeme
  | .checkDefined => requireCell lexeme line
  | .global => bindGlobal lexeme line
  | .breakLoop => leaveLoop line .breakOutsideLoop LoopRecord.addBreak
  | .continueLoop => leaveLoop line .continueOutsideLoop LoopRecord.addContinue
  | .loopBegin => startLoop
  | .loopEnd => endLoop
  | .dispatch => resolveCall line
  | .enterFunction => startFunction lexeme
  | .param => addParameter lexeme
  | .paramsDone => publish
  | .returnValue => returnWith line
  | .returnVoid => returnNothing
  | .exitFunction => endFunction
  | .checkOverload => retireRivals line
  | action => Emission.perform action lexeme line

/-- Ends the program with a call of the latest `main` at top level, or reports that there is
none. -/
def callMain (line : Nat) : Emit Unit := do
  match (← look (Names.Strict.functionsIn · Scopes.outermost mainName)).head? with
  | some row =>
    let info ← functionOn row
    jumpInto info
  | none => report line .noMain

end OnePass.Emission.Strict
