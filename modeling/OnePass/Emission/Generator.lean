import OnePass.Diagnostic
import OnePass.Failure
import OnePass.Emission.OperandStack
import OnePass.Names.SymbolTable

/-!
# The state of code generation

Actions work on a symbol table, a memory image and the operand stack. A step may
fail, and then leaves the state as it was when it failed. An error of the program is
no failure: it is noted, and a harmless operand stands in for the missing value.

* `Generator`: the state. `Emit`: a step that changes it and may fail.
* `takeValue`: takes an operand that is used as a value, and so must not be void.
* `readCell?`, `ownCell?`: the cell a name is read from, and the one it is assigned to.
* `bindFresh`: gives a name a cell of its own in the current scope.
-/

namespace OnePass.Emission

open Names Target

/-- A function definition that is being compiled. -/
structure Definition where
  /-- The symbol row of the function. -/
  row : Nat
  scope : Nat
  /-- The slot of the jump that leads around the body. -/
  aroundSlot : Nat
  /-- The function while its parameters are read. Calls find it once it is on its row. -/
  header : Option FunctionInfo
  /-- How many slots of the body are held for a later jump. -/
  heldSlots : Nat
  /-- Whether a return stands where nothing can jump over it. -/
  alwaysReturns : Bool
deriving DecidableEq

/-- All that generation keeps. -/
structure Generator where
  symbols : SymbolTable
  memory : Memory
  stack : OperandStack
  errors : Array SemanticError
  /-- The names of the calls whose arguments are being compiled, innermost first. -/
  pendingCalls : List String
  /-- The definitions being compiled, innermost first. -/
  definitions : List Definition
  /-- The row of the function whose definition has just ended. -/
  lastDefined : Option Nat
  /-- Temporaries that hold the result of a function that returns none. -/
  voidResults : List Nat
deriving DecidableEq

namespace Generator

def ofConfig (c : Config) : Generator where
  symbols := .ofKeywords c.keywords
  memory := .ofConfig c
  stack := []
  errors := #[]
  pendingCalls := []
  definitions := []
  lastDefined := none
  voidResults := []

variable (g : Generator)

def currentScope : Nat := g.symbols.currentScope

def programNext : Nat := g.memory.programNext

def report (line : Nat) (fault : SemanticFault) : Generator :=
  { g with errors := g.errors.push ⟨line, fault⟩ }

def push (o : Operand) : Generator := { g with stack := g.stack.push o }

/-- Takes the top operand; an empty stack gives the harmless operand. -/
def pop : Operand × Generator :=
  match g.stack.pop? with
  | some (o, rest) => (o, { g with stack := rest })
  | none => (.immediate 0, g)

def markVoid (cell : Nat) : Generator :=
  { g with voidResults := if g.voidResults.contains cell then g.voidResults else cell :: g.voidResults }

def clearVoid (cell : Nat) : Generator :=
  { g with voidResults := g.voidResults.filter (· ≠ cell) }

/-- The cell an operand names directly. -/
def directCell? (o : Operand) : Option Nat := if o.mode = .direct then o.index? else none

/-- An operand is used as a value. A void result is reported, once. -/
def useValue (line : Nat) (o : Operand) : Generator :=
  match directCell? o with
  | some cell =>
    if g.voidResults.contains cell then (g.clearVoid cell).report line .voidOperand else g
  | none => g

def takeValue (line : Nat) : Operand × Generator :=
  let (o, g) := g.pop
  (o, g.useValue line o)

/-- The cell a name is read from: the nearest one visible from the current scope. -/
def readCell? (name : String) : Option Nat :=
  (g.symbols.resolve name g.currentScope true true).bind g.symbols.cell?

/-- The cell a name is assigned to: the nearest one in the current function body or at top level,
out through the loops but not beyond. -/
def ownCell? (name : String) : Option Nat :=
  (g.symbols.scopes.sameBody g.currentScope).findSome? fun s =>
    (g.symbols.latestIn s name true).bind g.symbols.cell?

/-- The row of a name in the current scope: the latest if `reuse` accepts it, else a fresh one. -/
def rowFor (name : String) (reuse : Meaning → Bool) : Nat × Generator :=
  let (row, symbols) := g.symbols.rowFor name .identifier reuse
  (row, { g with symbols := symbols })

def setMeaning (row : Nat) (meaning : Meaning) : Generator :=
  { g with symbols := g.symbols.setMeaning row meaning }

def enterScope (region : Region) : Generator := { g with symbols := g.symbols.enterScope region }

def leaveScope : Generator := { g with symbols := g.symbols.leaveScope }

/-- Changes the innermost definition, if there is one. -/
def mapDefinition (f : Definition → Definition) : Generator :=
  { g with definitions := match g.definitions with
      | [] => []
      | innermost :: rest => f innermost :: rest }

end Generator

/-- **A step of generation.** One that fails keeps what it had done. -/
abbrev Emit := EStateM Failure Generator

/-- Lifts an operation of the memory image. -/
def onMemory {α : Type} (op : Memory → Except MemoryError (α × Memory)) : Emit α := fun g =>
  match op g.memory with
  | .ok (a, m) => .ok a { g with memory := m }
  | .error e => .error (.memory e) g

/-- Stops the compilation over something that should not be. -/
def defect {α : Type} (e : Defect) : Emit α := throw (.defect e)

def report (line : Nat) (fault : SemanticFault) : Emit Unit := modify (·.report line fault)

def push (o : Operand) : Emit Unit := modify (·.push o)

def pop : Emit Operand := modifyGet (·.pop)

/-- Takes an operand that is used as a value. -/
def takeValue (line : Nat) : Emit Operand := modifyGet (·.takeValue line)

/-- Appends an instruction and answers its slot. -/
def emitAt (i : Instruction) : Emit Nat := onMemory (·.emit i)

/-- Appends an instruction. -/
def emit (i : Instruction) : Emit Unit := discard (emitAt i)

/-- A temporary to hold a value. -/
def freshTemp : Emit Nat := do
  let cell ← onMemory (·.takeTemp)
  modify (·.clearVoid cell)
  return cell

/-- Gives a temporary back if it is the latest. -/
def dropTemp (cell : Nat) : Emit Unit :=
  modify fun g => { g with memory := g.memory.dropTemp cell }

/-- Gives a name a cell of its own in the current scope. -/
def bindFresh (name : String) : Emit Nat := do
  let row ← modifyGet (·.rowFor name Meaning.isVariable)
  let cell ← onMemory (·.takeCell)
  modify (·.setMeaning row (.variable (some cell)))
  return cell

end OnePass.Emission
