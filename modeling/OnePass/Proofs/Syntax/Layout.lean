import OnePass.Proofs.Emission.Faults
import OnePass.Proofs.Emission.Places
import OnePass.Proofs.Syntax.Values

/-!
# How statements lie in a program

A statement has its code between two slots, those that were next before and behind it.
Branches and loops jump within their own code, and definitions around their body. Breaks
and continues go to the ends of the innermost loop of the same body.

* `Loop`, `Body`: loops and functions in a program.
* `Statement.Laid`: where the jumps of a statement stand and lead.
* `Statement.strays`: the breaks and continues that stand in no loop.
-/

namespace OnePass.Target

/-- What stands in a slot. -/
def Holds (p : Program) (slot : Nat) (i : Instruction) : Prop := p[slot]? = some (some i)

theorem holds_push (p : Program) (i : Instruction) : Holds (p.push (some i)) p.size i := by
  simp [Holds]

theorem Holds.push {p : Program} {slot : Nat} {i : Instruction} (h : Holds p slot i)
    (content : Option Instruction) : Holds (p.push content) slot i := by
  have hlt := (Array.getElem?_eq_some_iff.1 h).1
  rw [Holds, Array.getElem?_push, if_neg (Nat.ne_of_lt hlt)]
  exact h

/-- Two instructions that are put behind a program. -/
theorem holds_push_push (p : Program) (i j : Instruction) :
    Holds ((p.push (some i)).push (some j)) p.size i ∧
      Holds ((p.push (some i)).push (some j)) (p.size + 1) j := by
  have hlast := holds_push (p.push (some i)) j
  rw [Array.size_push] at hlast
  exact ⟨(holds_push p i).push _, hlast⟩

/-- Code that is put behind a program. -/
theorem holds_append {p : Program} {code : List Instruction} {k : Nat} {i : Instruction}
    (h : code[k]? = some i) : Holds (p ++ (code.map some).toArray) (p.size + k) i := by
  rw [Holds, Array.getElem?_append_right (Nat.le_add_right _ _), Nat.add_sub_cancel_left]
  simp [h]

end OnePass.Target

namespace OnePass.Syntax

open OnePass.Derivation Emission Names Target
open Grammar (Action Mark)

/-- **A loop in a program:** where its condition begins, and the slot behind it. -/
structure Loop where
  start : Nat
  behind : Nat

/-- Where a jump out of a turn of a loop leads. -/
def Loop.target (l : Loop) : Exit → Nat
  | .breaks => l.behind
  | .continues => l.start

/-- **A function in a program.** Its body begins at its start and ends before `behind`. -/
structure Body where
  function : FunctionInfo
  behind : Nat

/-- What is reported of a jump that leaves no loop. -/
def Exit.fault : Exit → SemanticFault
  | .breaks => .breakOutsideLoop
  | .continues => .continueOutsideLoop

/-- Whether a statement always leaves its function. -/
def Statement.returns : Statement → Bool
  | .returnValue _ | .returnNothing => true
  | _ => false

/-- Whether one of the statements of a block always leaves its function. -/
def returnsFrom (b : Block) : Bool := b.any Statement.returns

mutual

/-- **The jumps of a statement that leave no loop,** in the order of the text. -/
def Statement.strays : Statement → Bool → List SemanticFault
  | .leave exit, inLoop => if inLoop then [] else [exit.fault]
  | .define _ _ body, _ => blockStrays body false
  | .ifThen _ body, inLoop => blockStrays body inLoop
  | .ifElse _ body other, inLoop => blockStrays body inLoop ++ blockStrays other inLoop
  | .loop _ body, _ => blockStrays body true
  | _, _ => []

def blockStrays : List Statement → Bool → List SemanticFault
  | [], _ => []
  | s :: rest, inLoop => s.strays inLoop ++ blockStrays rest inLoop

end

section Laid

variable {E : Setting} {w : List Mark} (tr : Trace E w) (p : Program)

/-- **A condition with its jump:** it is taken from the stack where the test ends, and if it is zero
the program goes on at `target`. The jump takes the slot behind the test. -/
def Tests (i j : Nat) (test : Relation) (target : Nat) : Prop :=
  Span w i j test.marks ∧ (∃ condition st, (tr.state j).stack = condition :: st ∧
    Holds p (tr.slots j) (.jumpIfFalse condition target))

/-- The code behind a value that leaves a function with it. -/
def LeavesWith (i j : Nat) (f : FunctionInfo) (value : Operand) : Prop :=
  Holds p (tr.slots i) (.assign value (.direct f.result)) ∧
    Holds p (tr.slots i + 1) (.jumpThrough f.returnCell) ∧ tr.slots j = tr.slots i + 2

mutual

/-- **How a statement lies in a program** between two marks, inside of a function and a loop if it
is. The bodies are those of the functions that it defines. -/
def Statement.Laid : Statement → Option FunctionInfo → Option Loop → Nat → Nat → List Body → Prop
  | .leave exit, _, some l, i, j, bodies =>
    bodies = [] ∧ Span w i j (Statement.leave exit).marks ∧
      -- one slot, which leads to an end of the loop
      tr.slots j = tr.slots i + 1 ∧ Holds p (tr.slots i) (.jump (l.target exit))
  | .leave exit, _, none, i, j, bodies =>
    bodies = [] ∧ Span w i j (Statement.leave exit).marks ∧
      -- no slot, and one error
      tr.slots j = tr.slots i ∧
      ∃ line, (tr.state j).errors = (tr.state i).errors.push ⟨line, exit.fault⟩
  | .returnValue e, f?, _, i, j, bodies => bodies = [] ∧ ∃ n value st, Span w (i + 1) n e.marks ∧
      (tr.state n).stack = value :: st ∧ tr.slots (i + 1) = tr.slots i ∧ j = n + 1 ∧
      match f? with
      | some f => LeavesWith tr p n j f value
      | none => tr.slots j = tr.slots n
  | .returnNothing, f?, _, i, j, bodies => bodies = [] ∧
      Span w i j Statement.returnNothing.marks ∧
      match f? with
      | some f => Holds p (tr.slots i) (.jumpThrough f.returnCell) ∧ tr.slots j = tr.slots i + 1
      | none => tr.slots j = tr.slots i
  | .define _ _ body, _, _, i, j, bodies => ∃ f n m inner, bodies = ⟨f, tr.slots j⟩ :: inner ∧
      i ≤ n ∧ j = m + 2 ∧
      -- the jump around the body, which is no part of a loop
      Holds p (tr.slots i) (.jump (tr.slots j)) ∧ f.start = tr.slots i + 1 ∧
      tr.slots n = f.start ∧ blockLaid body (some f) none n m inner ∧
      -- a body that does not always return before returns zero at its end
      (if returnsFrom body then tr.slots j = tr.slots m
        else LeavesWith tr p m j f (.immediate 0)) ∧
      -- what comes behind cannot call what only the body defines
      ∀ info, (tr.state j).symbols.Visible info → info.start ≤ f.start
  | .ifThen test body, f?, l?, i, j, bodies => ∃ c n, Tests tr p (i + 1) c test (tr.slots j) ∧
      tr.slots (i + 1) = tr.slots i ∧ tr.slots (c + 2) = tr.slots c + 1 ∧
      blockLaid body f? l? (c + 2) n bodies ∧ tr.slots j = tr.slots n ∧ j = n + 1
  | .ifElse test body other, f?, l?, i, j, bodies => ∃ c n m bodies₁ bodies₂,
      bodies = bodies₁ ++ bodies₂ ∧
      -- the condition leads behind the jump at the end of the first branch
      Tests tr p (i + 1) c test (tr.slots n + 1) ∧ tr.slots (i + 1) = tr.slots i ∧
      tr.slots (c + 2) = tr.slots c + 1 ∧ blockLaid body f? l? (c + 2) n bodies₁ ∧
      Holds p (tr.slots n) (.jump (tr.slots j)) ∧ tr.slots (n + 3) = tr.slots n + 1 ∧
      blockLaid other f? l? (n + 3) m bodies₂ ∧ tr.slots j = tr.slots m ∧ j = m + 1
  | .loop test body, f?, _, i, j, bodies => ∃ c n, Tests tr p (i + 3) c test (tr.slots j) ∧
      tr.slots (i + 3) = tr.slots i ∧ tr.slots (c + 2) = tr.slots c + 1 ∧
      blockLaid body f? (some ⟨tr.slots i, tr.slots j⟩) (c + 2) n bodies ∧
      -- the jump back is the last slot
      Holds p (tr.slots n) (.jump (tr.slots i)) ∧ tr.slots j = tr.slots n + 1 ∧ j = n + 1
  | s, _, _, i, j, bodies => bodies = [] ∧ Span w i j s.marks

/-- How the statements of a block lie in a program, one behind the other. -/
def blockLaid : List Statement → Option FunctionInfo → Option Loop → Nat → Nat → List Body → Prop
  | [], _, _, i, j, bodies => bodies = [] ∧ i = j
  | s :: rest, f?, l?, i, j, bodies => ∃ n bodies₁ bodies₂, bodies = bodies₁ ++ bodies₂ ∧
      s.Laid f? l? i n bodies₁ ∧ tr.slots (n + 1) = tr.slots n ∧
      blockLaid rest f? l? (n + 1) j bodies₂

end

end Laid

end OnePass.Syntax
