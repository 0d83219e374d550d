/-!
# Operands

An operand is a signed 64-bit word with a mode of addressing: the word itself, the
cell at that address, or the cell whose address is stored there. Addresses are
naturals; one of 2^63 or more is stored as the word with the same bits.

* `Operand.display`: `#5`, `100` and `@504` for the three modes.
* `Operand.index?`: the word read back as an address or slot, if it is not negative.
-/

namespace OnePass.Target

/-- How the word of an operand is read. -/
inductive Mode where
  /-- The word itself. -/
  | immediate
  /-- The cell at the address. -/
  | direct
  /-- The cell whose address the cell holds. -/
  | indirect
deriving DecidableEq, Inhabited

def Mode.mark : Mode → String
  | .immediate => "#"
  | .direct => ""
  | .indirect => "@"

structure Operand where
  mode : Mode
  value : Int
deriving DecidableEq, Inhabited

namespace Operand

/-- The greatest word. -/
def maxWord : Int := 0x7FFFFFFFFFFFFFFF

/-- How many words there are. -/
def wordCount : Nat := 0x10000000000000000

/-- The word with the same 64 bits as an address. -/
def word (address : Nat) : Int := Int.bmod address wordCount

/-- An address that is no greater than the greatest word is its own word. -/
theorem word_eq_self {address : Nat} (h : (address : Int) ≤ maxWord) :
    word address = address := by
  unfold maxWord at h
  unfold word wordCount
  apply Int.bmod_eq_of_le <;> omega

def immediate (value : Int) : Operand := ⟨.immediate, value⟩

def direct (address : Nat) : Operand := ⟨.direct, word address⟩

def indirect (address : Nat) : Operand := ⟨.indirect, word address⟩

/-- The word as an address or slot; a negative word is none. -/
def index? (o : Operand) : Option Nat := if 0 ≤ o.value then some o.value.toNat else none

/-- The word plus one, or the greatest word if there is no greater. -/
def increment (o : Operand) : Int := if o.value < maxWord then o.value + 1 else maxWord

def display (o : Operand) : String := o.mode.mark ++ toString o.value

end Operand

end OnePass.Target
