/-!
# Decimal digits

ASCII digits and the numbers they spell. A literal or an option is a number only
within the range of its word, so the readers take the greatest value they accept.

* `natural?`: an optional plus sign and digits.
* `signed64?`: an optional sign and digits, within 64-bit two's complement.
-/

namespace OnePass.Decimal

/-- The greatest signed 64-bit value. -/
def maxSigned64 : Nat := 0x7FFFFFFFFFFFFFFF

/-- The greatest unsigned 64-bit value. -/
def maxUnsigned64 : Nat := 0xFFFFFFFFFFFFFFFF

def isDigit (c : Char) : Bool := '0' ≤ c && c ≤ '9'

def digitValue (c : Char) : Nat := c.toNat - '0'.toNat

/-- The value a run of digits spells, most significant digit first. -/
def value (digits : List Char) : Nat := digits.foldl (fun n c => 10 * n + digitValue c) 0

/-- The value of a nonempty run of digits and nothing else. -/
def digits? (text : List Char) : Option Nat :=
  if !text.isEmpty && text.all isDigit then some (value text) else none

/-- Reads an optional `+` and digits that spell a number up to `limit`. -/
def natural? (limit : Nat) (text : List Char) : Option Nat :=
  (digits? (if text.head? = some '+' then text.tail else text)).filter (· ≤ limit)

/-- Reads an optional sign and digits that spell a signed 64-bit number. -/
def signed64? (text : List Char) : Option Int :=
  if text.head? = some '-' then
    ((digits? text.tail).filter (· ≤ maxSigned64 + 1)).map fun n => -(n : Int)
  else (natural? maxSigned64 text).map fun n => (n : Int)

end OnePass.Decimal
