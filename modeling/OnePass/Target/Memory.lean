import OnePass.Config
import OnePass.Target.Instruction

/-!
# The memory image

Program slots are filled in order or reserved and filled later. Variable cells and
temporaries are handed out by pointers that only grow, but for two exceptions: the
latest temporary may be given back, and released variable cells are handed out again.

* `Memory.Step`: what may be refused. It leaves an image in either case.
* `Memory.emit`, `Memory.reserve`, `Memory.fill`: the program.
* `Memory.takeCell`, `Memory.takeNextCell`, `Memory.freeCell`: variable cells.
* `Memory.takeTemp`, `Memory.dropTemp`: temporaries.
-/

namespace OnePass.Target

inductive Zone where
  | program
  | data
  | temporary
deriving DecidableEq

def Zone.name : Zone → String
  | .program => "program"
  | .data => "data"
  | .temporary => "temporary"

/-- Why the memory image cannot take what it is given. -/
inductive MemoryError where
  /-- A zone is full; `limit` is the address it ends at. -/
  | exhausted (zone : Zone) (limit : Nat)
  /-- A slot is not part of the program, which has `size` slots. -/
  | slotOutOfRange (slot size : Nat)
deriving DecidableEq

def MemoryError.message : MemoryError → String
  | .exhausted zone limit =>
    s!"{zone.name} zone exhausted: no room left below address {limit}"
  | .slotOutOfRange slot size =>
    s!"slot {slot} lies outside the emitted program (program pointer is {size})"

/-- The three zones and how far each is used. -/
structure Memory where
  unit : Nat
  programSize : Nat
  tempsFrom : Nat
  capacity : Nat
  /-- The slots so far; a reserved slot holds nothing yet. -/
  program : Array (Option Instruction)
  /-- The next variable cell. -/
  dataNext : Nat
  /-- The next temporary. -/
  tempNext : Nat
  /-- Released variable cells, the latest first. -/
  spareCells : List Nat
deriving DecidableEq

namespace Memory

/-- The empty image of a configuration. -/
def ofConfig (c : Config) : Memory where
  unit := c.unit
  programSize := c.programSize
  tempsFrom := c.tempsFrom
  capacity := c.capacity
  program := #[]
  dataNext := c.cellsFrom
  tempNext := c.tempsFrom
  spareCells := []

variable (m : Memory)

/-- The next program slot. -/
def programNext : Nat := m.program.size

/-- What a slot holds, if it is filled. -/
def instruction? (slot : Nat) : Option Instruction := m.program[slot]?.join

/-- Whether a slot is part of the program and still empty. -/
def isReserved (slot : Nat) : Bool := m.program[slot]? == some none

theorem isReserved_eq (slot : Nat) :
    m.isReserved slot = (decide (slot < m.programNext) && (m.instruction? slot).isNone) := by
  unfold isReserved instruction? programNext
  by_cases h : slot < m.program.size
  · cases hslot : m.program[slot] <;> simp [h, hslot]
  · simp [h]

/-- **A step of the memory image.** Done or refused, it leaves an image. -/
abbrev Step := EStateM MemoryError Memory

namespace Step

/-- Appends a slot with or without its instruction. -/
def append (content : Option Instruction) : Step Nat := do
  let m ← get
  if m.programSize ≤ m.programNext then throw (.exhausted .program m.programSize)
  set { m with program := m.program.push content }
  return m.programNext

/-- Fills a slot of the program, whatever it holds. -/
def fill (slot : Nat) (i : Instruction) : Step Unit := do
  let m ← get
  if m.programNext ≤ slot then throw (.slotOutOfRange slot m.programNext)
  set { m with program := m.program.setIfInBounds slot (some i) }

/-- The cell behind the one handed out this way before. -/
def nextCell : Step Nat := do
  let m ← get
  if m.tempsFrom < m.dataNext + m.unit then throw (.exhausted .data m.tempsFrom)
  set { m with dataNext := m.dataNext + m.unit }
  return m.dataNext

/-- A cell for a variable: the one released latest, else a new one. -/
def cell : Step Nat := do
  let m ← get
  match m.spareCells with
  | cell :: rest =>
    set { m with spareCells := rest }
    return cell
  | [] => nextCell

/-- The next temporary. -/
def temp : Step Nat := do
  let m ← get
  if m.capacity < m.tempNext + m.unit then throw (.exhausted .temporary m.capacity)
  set { m with tempNext := m.tempNext + m.unit }
  return m.tempNext

theorem get_bind {α : Type} (step : Memory → Step α) (m : Memory) :
    (get >>= step : Step α) m = step m m := rfl

/-- What a step answers, with the image behind it; why, if it is refused. -/
def answer {α : Type} (step : Step α) (m : Memory) : Except MemoryError (α × Memory) :=
  match step m with
  | .ok a m' => .ok (a, m')
  | .error e _ => .error e

end Step

/-- Appends a slot with or without its instruction. -/
def appendSlot (content : Option Instruction) : Except MemoryError (Nat × Memory) :=
  (Step.append content).answer m

theorem appendSlot_eq (content : Option Instruction) : m.appendSlot content =
    if m.programSize ≤ m.programNext then .error (.exhausted .program m.programSize)
    else .ok (m.programNext, { m with program := m.program.push content }) := by
  rw [appendSlot, Step.answer, Step.append, Step.get_bind]
  by_cases h : m.programSize ≤ m.programNext
  · simp only [if_pos h]
    rfl
  · simp only [if_neg h]
    rfl

/-- Appends an instruction and answers its slot. -/
def emit (i : Instruction) : Except MemoryError (Nat × Memory) := m.appendSlot (some i)

/-- Appends an empty slot that is to be filled later. -/
def reserve : Except MemoryError (Nat × Memory) := m.appendSlot none

/-- Fills a slot of the program, whatever it holds. -/
def fill (slot : Nat) (i : Instruction) : Except MemoryError (Unit × Memory) :=
  (Step.fill slot i).answer m

theorem fill_eq (slot : Nat) (i : Instruction) : m.fill slot i =
    if slot < m.programNext then
      .ok ((), { m with program := m.program.setIfInBounds slot (some i) })
    else .error (.slotOutOfRange slot m.programNext) := by
  rw [fill, Step.answer, Step.fill, Step.get_bind]
  by_cases h : slot < m.programNext
  · simp only [if_pos h, if_neg (Nat.not_le_of_lt h)]
    rfl
  · simp only [if_neg h, if_pos (Nat.le_of_not_lt h)]
    rfl

/-- The cell behind the one handed out this way before. -/
def takeNextCell : Except MemoryError (Nat × Memory) := Step.nextCell.answer m

theorem takeNextCell_eq : m.takeNextCell =
    if m.tempsFrom < m.dataNext + m.unit then .error (.exhausted .data m.tempsFrom)
    else .ok (m.dataNext, { m with dataNext := m.dataNext + m.unit }) := by
  rw [takeNextCell, Step.answer, Step.nextCell, Step.get_bind]
  by_cases h : m.tempsFrom < m.dataNext + m.unit
  · simp only [if_pos h]
    rfl
  · simp only [if_neg h]
    rfl

/-- A cell for a variable: the one released latest, else a new one. -/
def takeCell : Except MemoryError (Nat × Memory) := Step.cell.answer m

theorem takeCell_eq : m.takeCell =
    match m.spareCells with
    | cell :: rest => .ok (cell, { m with spareCells := rest })
    | [] => m.takeNextCell := by
  rw [takeCell, Step.answer, Step.cell, Step.get_bind]
  cases m.spareCells <;> rfl

/-- Gives a variable cell back; one that is free already stays so. -/
def freeCell (cell : Nat) : Memory :=
  if m.spareCells.contains cell then m else { m with spareCells := cell :: m.spareCells }

def takeTemp : Except MemoryError (Nat × Memory) := Step.temp.answer m

theorem takeTemp_eq : m.takeTemp =
    if m.capacity < m.tempNext + m.unit then .error (.exhausted .temporary m.capacity)
    else .ok (m.tempNext, { m with tempNext := m.tempNext + m.unit }) := by
  rw [takeTemp, Step.answer, Step.temp, Step.get_bind]
  by_cases h : m.capacity < m.tempNext + m.unit
  · simp only [if_pos h]
    rfl
  · simp only [if_neg h]
    rfl

/-- Whether a cell is the temporary handed out last. -/
def isLatestTemp (cell : Nat) : Bool := cell + m.unit == m.tempNext && m.tempsFrom ≤ cell

/-- Takes a temporary back if it is the one handed out last, and else keeps it in use. -/
def dropTemp (cell : Nat) : Memory :=
  if m.isLatestTemp cell then { m with tempNext := cell } else m

/-- Whether a word is an address of the temporary zone. As the target of an assignment such an
address holds a pointer. -/
def inTempZone (value : Int) : Bool := m.tempsFrom ≤ value && value < m.capacity

/-- One line for every slot; an empty slot has an empty line. -/
def listing : List String :=
  m.program.toList.map fun slot => (slot.map Instruction.display).getD ""

end Memory

end OnePass.Target
