import OnePass.Decimal

/-!
# The automata behind the scanner

Five automata know the pieces of a text. The first character chooses one of them, and it
is fed character by character, and nothing once the text is at its end, until it gives
its verdict. One that sees the end of its piece only by what stands behind it looks
ahead: the character it was fed last is no part of the piece and is to be given back.

* `Automaton.select?`: the automaton for a first character.
* `Automaton.step`: what it makes of the next one.
* `step_select?`, `step_none`: the first character is kept, and nothing goes on behind
  the end.
-/

namespace OnePass.Lexical

open OnePass.Decimal (isDigit)

def isBlank (c : Char) : Bool := [' ', '\n', '\r', '\t', '\x0b', '\x0c'].contains c

def isLetter (c : Char) : Bool := ('a' ≤ c && c ≤ 'z') || ('A' ≤ c && c ≤ 'Z')

/-- Characters a word goes on with. -/
def isWordPart (c : Char) : Bool := isLetter c || isDigit c || c == '_'

/-- Characters that are symbols on their own, whatever follows. -/
def isSoleSymbol (c : Char) : Bool :=
  [';', ':', ',', '[', ']', '(', ')', '+', '-', '<'].contains c

def isSymbolStart (c : Char) : Bool := isSoleSymbol c || c == '=' || c == '*'

/-- Characters that may stand right behind a word. -/
def endsWord (c : Char) : Bool := isBlank c || isSymbolStart c || c == '/' || c == '#'

/-- What an automaton says of the characters it has been fed. -/
inductive Verdict where
  /-- They may go on. -/
  | running
  | accepted
  /-- They are no piece, and nothing behind them can make them one. -/
  | rejected
deriving DecidableEq

/-- The pieces an automaton is made for. -/
inductive Automaton.Kind where
  | number
  | blank
  | symbol
  | word
  | comment
deriving DecidableEq

/-- An automaton at work. Its states are numbered, from 0 on. -/
structure Automaton where
  kind : Automaton.Kind
  state : Nat
  /-- Whether the character fed last stands behind the piece. -/
  lookahead : Bool
deriving DecidableEq

namespace Automaton

/-- The automaton for the pieces that begin with a character, if there are any. -/
def select? (first : Char) : Option Automaton :=
  if isDigit first then some ⟨.number, 0, false⟩
  else if isBlank first then some ⟨.blank, 0, false⟩
  else if isSymbolStart first then some ⟨.symbol, 0, false⟩
  else if isLetter first then some ⟨.word, 0, false⟩
  else if first = '/' ∨ first = '#' then some ⟨.comment, 0, false⟩
  else none

variable (a : Automaton)

def goTo (state : Nat) : Verdict × Automaton := (.running, { a with state := state })

/-- The piece ends in front of the character fed last. -/
def acceptBefore : Verdict × Automaton := (.accepted, { a with lookahead := true })

def rejectBefore : Verdict × Automaton := (.rejected, { a with lookahead := true })

/-- Digits. A fraction is read whole, to be rejected as one piece. -/
def stepNumber (c : Option Char) : Verdict × Automaton :=
  match a.state with
  | 0 =>
    match c with
    | some c => if isDigit c then a.goTo 1 else (.rejected, a)
    | none => (.rejected, a)
  | 1 =>
    match c with
    | some c =>
      if isDigit c then (.running, a)
      else if isLetter c then (.rejected, a)
      else if c = '.' then a.goTo 2
      else a.acceptBefore
    | none => a.acceptBefore
  | 2 =>
    match c with
    | some c => if isDigit c then (.running, a) else a.rejectBefore
    | none => a.rejectBefore
  | _ => (.rejected, a)

/-- One blank. -/
def stepBlank (c : Option Char) : Verdict × Automaton :=
  match c with
  | some c => if a.state = 0 ∧ isBlank c then (.accepted, a) else (.rejected, a)
  | none => (.rejected, a)

/-- Symbols, and the closing mark of a comment that was never opened. -/
def stepSymbol (c : Option Char) : Verdict × Automaton :=
  match a.state with
  | 0 =>
    match c with
    | some c =>
      if isSoleSymbol c then (.accepted, a)
      else if c = '=' then a.goTo 1
      else if c = '*' then a.goTo 2
      else (.rejected, a)
    | none => (.rejected, a)
  | 1 =>
    match c with
    | some c => if c = '=' then (.accepted, a) else a.acceptBefore
    | none => a.acceptBefore
  | 2 =>
    match c with
    | some c =>
      if c = '*' then (.accepted, a) else if c = '/' then (.rejected, a) else a.acceptBefore
    | none => a.acceptBefore
  | _ => (.rejected, a)

/-- Words. A character that may not follow one is taken along. -/
def stepWord (c : Option Char) : Verdict × Automaton :=
  match a.state with
  | 0 =>
    match c with
    | some c => if isLetter c then a.goTo 1 else (.rejected, a)
    | none => (.rejected, a)
  | 1 =>
    match c with
    | some c =>
      if isWordPart c then (.running, a)
      else if endsWord c then a.acceptBefore
      else (.rejected, a)
    | none => a.acceptBefore
  | _ => (.rejected, a)

/-- Comments. In state 2 a block comment is open, and in state 3 its last character was a star; in
state 4 a comment goes on to the end of its line. -/
def stepComment (c : Option Char) : Verdict × Automaton :=
  match a.state with
  | 0 =>
    match c with
    | some c => if c = '/' then a.goTo 1 else if c = '#' then a.goTo 4 else (.rejected, a)
    | none => (.rejected, a)
  | 1 =>
    match c with
    | some c => if c = '*' then a.goTo 2 else a.rejectBefore
    | none => a.rejectBefore
  | 2 =>
    match c with
    | some c => if c = '*' then a.goTo 3 else a.goTo 2
    | none => (.rejected, a)
  | 3 =>
    match c with
    | some c =>
      if c = '*' then a.goTo 3 else if c = '/' then (.accepted, a) else a.goTo 2
    | none => (.rejected, a)
  | 4 =>
    match c with
    | some c => if c = '\n' then a.acceptBefore else (.running, a)
    | none => (.accepted, a)
  | _ => (.rejected, a)

/-- **What an automaton makes of the next character,** or of the end of the text. -/
def step (c : Option Char) : Verdict × Automaton :=
  match a.kind with
  | .number => a.stepNumber c
  | .blank => a.stepBlank c
  | .symbol => a.stepSymbol c
  | .word => a.stepWord c
  | .comment => a.stepComment c

/-- Whether it stopped inside of a block comment. -/
def inBlockComment : Bool := a.kind == .comment && (a.state == 2 || a.state == 3)

/-- **Nothing goes on behind the end** of a text. -/
theorem step_none (a : Automaton) : (a.step none).1 ≠ .running := by
  obtain ⟨kind, state, lookahead⟩ := a
  -- every automaton has at most the states 0 to 4
  have hbeyond : state = 0 ∨ state = 1 ∨ state = 2 ∨ state = 3 ∨ state = 4 ∨
      ∃ n, state = n + 5 := by
    by_cases h : state < 5
    · omega
    · exact .inr (.inr (.inr (.inr (.inr ⟨state - 5, by omega⟩))))
  cases kind <;> rcases hbeyond with rfl | rfl | rfl | rfl | rfl | ⟨n, rfl⟩ <;>
    simp [step, stepNumber, stepBlank, stepSymbol, stepWord, stepComment, acceptBefore,
      rejectBefore]

/-- **The first character is part of the piece:** whatever an automaton says of it, it does not give
it back. -/
theorem step_select? {c : Char} {a : Automaton} (h : select? c = some a) :
    (a.step (some c)).2.lookahead = false := by
  have hstart : ∀ kind, (step ⟨kind, 0, false⟩ (some c)).2.lookahead = false := by
    intro kind
    cases kind <;> simp only [step, stepNumber, stepBlank, stepSymbol, stepWord, stepComment] <;>
      repeat' split
    all_goals rfl
  unfold select? at h
  repeat' split at h
  all_goals simp only [Option.some.injEq, reduceCtorEq] at h
  all_goals exact h ▸ hstart _

end Automaton

end OnePass.Lexical
