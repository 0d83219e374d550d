import OnePass.Decimal
import OnePass.Emission.Generator

/-!
# Code for values

Names, numbers, elements, operators and the statements that use up a value. Reading a
name only pushes the address of its cell; the instruction that uses it reads the cell.

* `element`: the address `base + index · unit`, left in a temporary.
* `combine`, `relate`, `raise`: operators, with their result in a temporary.
* `store`: an address in the temporary zone is a pointer and is written through.
-/

namespace OnePass.Emission

open Names Target

/-- The name's cell; a name without one gets one. -/
def readName (name : String) : Emit Unit := do
  let cell ← match (← get).readCell? name with
    | some cell => pure cell
    | none => bindFresh name
  push (.direct cell)

/-- The value a literal spells; text that spells none counts as zero. -/
def readNumber (lexeme : String) : Emit Unit :=
  push (.immediate ((Decimal.signed64? lexeme.toList).getD 0))

/-- The cell an assignment to the name writes; the first assignment makes it. -/
def assignTo (name : String) : Emit Unit := do
  let cell ← match (← get).ownCell? name with
    | some cell => pure cell
    | none => bindFresh name
  push (.direct cell)

/-- Reports a name that has no cell to be read from. -/
def requireCell (name : String) (line : Nat) : Emit Unit := do
  if ((← get).readCell? name).isNone then report line (.undefined name)

/-- The element of a list: its address is computed into a temporary, which is read through if the
element is a value, and is left as a pointer if it is to be assigned. -/
def element (line : Nat) (asValue : Bool) : Emit Unit := do
  let index ← takeValue line
  let base ← takeValue line
  let unit := Operand.immediate (Operand.word (← get).memory.unit)
  let offset ← freshTemp
  emit (.binary .mult index unit (.direct offset))
  let address ← freshTemp
  emit (.binary .add base (.direct offset) (.direct address))
  push (if asValue then .indirect address else .direct address)

/-- A list is the address of its first item, the next variable cell. -/
def startList : Emit Unit := do
  push (.immediate (Operand.word (← get).memory.dataNext))

/-- Stores an item into the cell behind the item before. -/
def storeItem (line : Nat) : Emit Unit := do
  let value ← takeValue line
  let cell ← onMemory (·.takeNextCell)
  emit (.assign value (.direct cell))

/-- Inside a scope, binds the name to the cell it has in the global scope. -/
def bindGlobal (name : String) (line : Nat) : Emit Unit := do
  let g ← get
  if g.currentScope = Scopes.outermost then return
  match (g.symbols.latestIn Scopes.outermost name true).bind g.symbols.cell? with
  | none => report line (.undefined name)
  | some cell =>
    let row ← modifyGet (·.rowFor name Meaning.isVariable)
    modify (·.setMeaning row (.variable (some cell)))

/-- Leaves the result of an operation on two operands in a temporary. -/
def operate (op : Opcode) (left right : Operand) : Emit Unit := do
  let result ← freshTemp
  emit (.binary op left right (.direct result))
  push (.direct result)

def combine (op : Opcode) (line : Nat) : Emit Unit := do
  let right ← takeValue line
  let left ← takeValue line
  operate op left right

/-- The operator of a relation, left on the stack as a number between its two sides. -/
def relation (marker : Operand) : Opcode := if marker.value = 0 then .eq else .lt

def relate (line : Nat) : Emit Unit := do
  let right ← takeValue line
  let marker ← pop
  let left ← takeValue line
  operate (relation marker) left right

/-- The base multiplied up in a loop that counts to the exponent. The two cells that only the loop
needs are given back. -/
def raise (line : Nat) : Emit Unit := do
  let exponent ← takeValue line
  let base ← takeValue line
  let result ← freshTemp
  let counter ← freshTemp
  let running ← freshTemp
  emit (.assign (.immediate 1) (.direct result))
  emit (.assign (.immediate 0) (.direct counter))
  -- the test, the jump out, the product, the count and the jump back: five slots
  let check ← emitAt (.binary .lt (.direct counter) exponent (.direct running))
  emit (.jumpIfFalse (.direct running) (check + 5))
  emit (.binary .mult (.direct result) base (.direct result))
  emit (.binary .add (.direct counter) (.immediate 1) (.direct counter))
  emit (.jump check)
  -- in the reverse order of taking, as only the latest can be given back
  dropTemp running
  dropTemp counter
  push (.direct result)

/-- The target of an assignment: a temporary holds the address that is written. -/
def writtenThrough (m : Memory) (target : Operand) : Operand :=
  if target.mode = .direct ∧ m.inTempZone target.value then ⟨.indirect, target.value⟩ else target

def store (line : Nat) : Emit Unit := do
  let value ← takeValue line
  let target ← pop
  emit (.assign value (writtenThrough (← get).memory target))

def printValue (line : Nat) : Emit Unit := do
  let value ← takeValue line
  emit (.print value)

end OnePass.Emission
