/-!
# Configuration of a compilation

The memory image is one flat range of addresses cut into three zones: program
slots below `programSize`, variable cells up to `tempsFrom`, temporaries up
to `capacity`. Slots are counted one per instruction; cells advance by `unit`.

* `Config.validate`: the configurations that describe a memory image.
* `validate_eq_ok_iff`: they are those with a positive unit whose capacity covers
  the first two zones.
-/

namespace OnePass

/-- What a compilation may be told: the sizes of the zones and the reserved words. -/
structure Config where
  unit : Nat
  programSize : Nat
  dataSize : Nat
  capacity : Nat
  keywords : List String
  /-- Whether a definition of `output` is compiled ahead of the program. -/
  builtinOutput : Bool
deriving DecidableEq

/-- Why a configuration describes no memory image. -/
inductive ConfigError where
  | zeroUnit
  | capacityTooSmall (capacity required : Nat)
deriving DecidableEq

def ConfigError.message : ConfigError → String
  | .zeroUnit => "addressing unit must be at least one byte"
  | .capacityTooSmall capacity required =>
    s!"capacity {capacity} does not cover the program and data zones ({required})"

namespace Config

/-- The words a program may not use as names. -/
def reservedWords : List String :=
  ["break", "continue", "def", "else", "if", "return", "while", "global", "print"]

/-- Cells of four bytes, a hundred instructions, a hundred variables and a hundred temporaries. -/
def standard : Config where
  unit := 4
  programSize := 100
  dataSize := 400
  capacity := 900
  keywords := reservedWords
  builtinOutput := false

instance : Inhabited Config := ⟨standard⟩

/-- The first address of the variable zone. -/
def cellsFrom (c : Config) : Nat := c.programSize

/-- The first address of the temporary zone. -/
def tempsFrom (c : Config) : Nat := c.programSize + c.dataSize

/-- Refuses a unit of zero first, then a capacity below the temporary zone. -/
def validate (c : Config) : Except ConfigError Unit :=
  if c.unit = 0 then .error .zeroUnit
  else if c.capacity < c.tempsFrom then
    .error (.capacityTooSmall c.capacity c.tempsFrom)
  else .ok ()

theorem validate_eq_ok_iff (c : Config) :
    c.validate = .ok () ↔ 0 < c.unit ∧ c.tempsFrom ≤ c.capacity := by
  unfold validate
  split
  · simp; omega
  · split <;> simp <;> omega

end Config

end OnePass
