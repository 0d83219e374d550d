import OnePass.Emission.Jump

/-!
# Code for functions

A function has a cell for each parameter, one for its result and one for the slot to
return to. Its code stands in place, behind a jump that leads around it.

* `startFunction`, `addParameter`, `publish`, `endFunction`: a definition.
* `returnWith`, `returnNothing`: jumps through the return cell.
* `retireRivals`: of two functions of one scope that agree in name and number of
  parameters, the later one stays.
-/

namespace OnePass.Emission

open Names Target

/-- The function on a row. -/
def functionOn (row : Nat) : Emit FunctionInfo := do
  let symbols := (← get).symbols
  match symbols.function? row with
  | some info => return info
  | none => defect (.notAFunction ((symbols.name? row).getD ""))

/-- Starts a definition. A name that owns a cell keeps its row, and the function gets another. -/
def startFunction (name : String) : Emit Unit := do
  let aroundSlot ← onMemory (·.reserve)
  let result ← onMemory (·.takeCell)
  let returnCell ← onMemory (·.takeCell)
  let row ← modifyGet (·.rowFor name (· = .unused))
  -- the slot is provisional: publishing the function moves it behind what follows
  let header := FunctionInfo.fresh result returnCell (← get).programNext
  modify (·.enterScope (.body row))
  modify fun g =>
    { g with
      definitions := ⟨row, g.currentScope, aroundSlot, some header, 0, false⟩ :: g.definitions }

/-- Gives a parameter its cell and adds it to the function whose parameters are being read. -/
def addParameter (name : String) : Emit Unit := do
  let cell ← bindFresh name
  modify (·.mapDefinition fun d =>
    { d with header := d.header.map fun info => { info with params := info.params ++ [cell] } })

/-- Changes what a row stands for, if its meaning allows it. -/
def giveMeaning (row : Nat) (change : Meaning → Except MeaningError Meaning) : Emit Unit := do
  match (← get).symbols.meaning? row with
  | none => return
  | some current =>
    match change current with
    | .ok changed => modify (·.setMeaning row changed)
    | .error e => defect (.meaning e)

/-- Puts the function on its row, where calls find it from now on. Its body starts here. -/
def publish : Emit Unit := do
  let g ← get
  match g.definitions with
  | [] => return
  | d :: _ =>
    match d.header with
    | none => return
    | some info =>
      modify (·.mapDefinition fun d => { d with header := none })
      giveMeaning d.row (·.becomeFunction { info with start := g.programNext })

/-- The row of the function that a return leaves; none outside of functions. A return at body level
that no condition guards makes the end of the body unreachable. -/
def returningFrom : Emit (Option Nat) := do
  let g ← get
  match g.definitions with
  | [] => return none
  | d :: _ =>
    if d.scope = g.currentScope ∧ d.heldSlots = 0 then
      modify (·.mapDefinition fun d => { d with alwaysReturns := true })
    return some d.row

/-- Leaves the function with a value. -/
def emitReturn (info : FunctionInfo) (value : Operand) : Emit Unit := do
  emit (.assign value (.direct info.result))
  emit (.jumpThrough info.returnCell)

def returnWith (line : Nat) : Emit Unit := do
  let value ← takeValue line
  match ← returningFrom with
  | none => return
  | some row =>
    let info ← functionOn row
    emitReturn info value
    modify (·.setMeaning row (.function { info with returnsValue := true }))

def returnNothing : Emit Unit := do
  match ← returningFrom with
  | none => return
  | some row =>
    let info ← functionOn row
    emit (.jumpThrough info.returnCell)

/-- Ends a definition. A body whose end can be reached returns zero there. -/
def endFunction : Emit Unit := do
  publish
  match (← get).definitions with
  | [] => return
  | d :: rest =>
    modify ({ · with definitions := rest })
    if !d.alwaysReturns then
      let info ← functionOn d.row
      emitReturn info (.immediate 0)
    settle (some d.aroundSlot) (.jump (← get).programNext)
    modify (·.leaveScope)
    modify ({ · with lastDefined := some d.row })

/-- Takes a function out of the program and releases its cells. -/
def Generator.retireFunction (g : Generator) (row : Nat) : Generator :=
  let cells := ((g.symbols.function? row).map FunctionInfo.cells).getD []
  { g with
    symbols := g.symbols.retire row
    memory := cells.foldl Memory.freeCell g.memory }

/-- The other functions of a function's scope that agree with it in name and arity. -/
def Generator.rivals (g : Generator) (row : Nat) : List Nat :=
  match g.symbols.rows[row]?, g.symbols.function? row with
  | some r, some info =>
    (g.symbols.functionsIn r.scope r.name).filter fun other =>
      other ≠ row && ((g.symbols.function? other).map (·.arity)) == some info.arity
  | _, _ => []

/-- Reports and retires the rivals of the function that has just ended. -/
def retireRivals (line : Nat) : Emit Unit := do
  let g ← get
  match g.lastDefined with
  | none => return
  | some row =>
    modify ({ · with lastDefined := none })
    let name := (g.symbols.name? row).getD ""
    (g.rivals row).forM fun other => do
      report line (.redefined name)
      modify (·.retireFunction other)

end OnePass.Emission
