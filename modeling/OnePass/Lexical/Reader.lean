import OnePass.Access
import OnePass.Lexical.Scanner

/-!
# Reading by byte offset

A reader stands at a byte of a text. It looks at the character that begins there, moves on
by the bytes that the character takes and back again, and cuts lexemes out between two
offsets. An offset inside a character stops it, and so does a step in front of the text or
of the first line.

* `Reader.peek`, `Reader.slice`: what stands at an offset, and between two.
* `Reader.advance`, `Reader.retreat`: one character on, and one back.
* `Reader.drive`: an automaton at work on the text ahead.
* `Reader.pull`: the next token, recording it and the rejected pieces before it.
-/

namespace OnePass.Lexical

/-- A text that is being read, and what has been handed out. -/
structure Reader where
  keywords : List String
  source : String
  /-- The byte that the character considered next begins at. -/
  cursor : Nat
  line : Nat
  tokens : Array Token
  errors : Array Rejection

namespace Reader

def start (keywords : List String) (source : String) : Reader := ⟨keywords, source, 0, 1, #[], #[]⟩

section Reading

variable (r : Reader)

/-- How many bytes lie ahead. -/
def left : Nat := r.source.utf8ByteSize - r.cursor

/-- The place of a byte in the text. A byte inside a character has none. -/
def place (offset : Nat) : Checked r.source.Pos :=
  if h : (String.Pos.Raw.mk offset).IsValid r.source then .ok (r.source.pos ⟨offset⟩ h)
  else .error (.text offset)

/-- The character the reader stands at; nothing at the end of the text. -/
def peek : Checked (Option Char) := return (← r.place r.cursor).get?

/-- The text between two offsets. -/
def slice (first stop : Nat) : Checked String := do
  let p ← r.place first
  let q ← r.place stop
  if h : p ≤ q then return (r.source.slice p q h).copy else .error (.text stop)

/-- The text from an offset on. -/
def behind (first : Nat) : Checked String := return (r.source.sliceFrom (← r.place first)).copy

/-- The reader behind a character that it stands at. A newline counts up the line. -/
def past (c : Char) : Reader :=
  { r with
    cursor := r.cursor + c.utf8Size
    line := if c = '\n' then r.line + 1 else r.line }

/-- Takes the next character, if there is one. -/
def advance : Checked (Option Char × Reader) := do
  match ← r.peek with
  | none => return (none, r)
  | some c => return (some c, r.past c)

/-- Gives back the character taken last. A newline counts down the line. -/
def retreat (c : Char) : Checked Reader := do
  let cursor ← Checked.minus r.cursor c.utf8Size
  let line ← if c = '\n' then Checked.minus r.line 1 else pure r.line
  return { r with cursor := cursor, line := line }

/-- Gives back what an automaton was fed last, if it stands behind the piece. -/
def giveBack (a : Automaton) (fed : Option Char) : Checked Reader :=
  match fed with
  | some c => if a.lookahead then r.retreat c else return r
  | none => return r

end Reading

/-- **An automaton at work:** it is fed one character after the other until its verdict. The reader
then stands behind the piece. -/
def drive (a : Automaton) (r : Reader) : Checked (Verdict × Automaton × Reader) := do
  let (fed, r') ← r.advance
  match a.step fed with
  | (.running, next) => if r'.left < r.left then drive next r' else .error .standstill
  | (verdict, last) => return (verdict, last, ← r'.giveBack last fed)
termination_by r.left

section Verdicts

/- The reader `r` stands in front of a piece, and `r'` behind it. -/
variable (r r' : Reader)

def lexemeTo : Checked String := r.slice r.cursor r'.cursor

/-- A reserved word is a keyword, any other word an identifier. -/
def wordKind (lexeme : String) : TokenKind :=
  if r.keywords.contains lexeme then .keyword else .identifier

/-- The token class of a piece that an automaton has accepted. -/
def kindOf (kind : Automaton.Kind) (lexeme : String) : TokenKind :=
  match kind with
  | .number => .number
  | .symbol => .symbol
  | _ => r.wordKind lexeme

/-- The piece as a token, on the line that the reader has come to. -/
def tokenTo (kind : Automaton.Kind) : Checked Scanned := do
  let lexeme ← r.lexemeTo r'
  return .token ⟨r.kindOf kind lexeme, lexeme, r'.line, r.cursor, r'.cursor⟩

/-- The piece as a fault, on the line that the reader has come to. -/
def rejectedTo (cause : LexicalFault) : Checked Scanned :=
  return .rejected ⟨cause, ← r.lexemeTo r', r'.line, r.cursor, r'.cursor⟩

/-- A comment that is never closed: only its front is quoted, on the line that it opens on. -/
def unclosedTo : Checked Scanned := do
  let preview := (← r.behind r.cursor).toList.take Scanner.previewLength
  let length ← Checked.minus r'.cursor r.cursor
  let more := if byteLength preview < length then "..." else ""
  return .rejected
    ⟨.unclosedComment, String.ofList preview ++ more, r.line, r.cursor, r'.cursor⟩

/-- What a piece amounts to by the verdict of its automaton. -/
def weigh (verdict : Verdict) (a : Automaton) : Checked Scanned :=
  match verdict, a.kind with
  | .accepted, .blank | .accepted, .comment => return .skipped
  | .accepted, .number => do
    if (Decimal.signed64? (← r.lexemeTo r').toList).isNone then r.rejectedTo r' .invalidNumber
    else r.tokenTo r' .number
  | .accepted, kind => r.tokenTo r' kind
  | _, .number => r.rejectedTo r' .invalidNumber
  | _, .comment =>
    if a.inBlockComment then r.unclosedTo r' else r.rejectedTo r' .invalidInput
  | _, .symbol => do
    if (← r.lexemeTo r') = "*/" then r.rejectedTo r' .unmatchedComment
    else r.rejectedTo r' .invalidInput
  | _, _ => r.rejectedTo r' .invalidInput

end Verdicts

/-- The first piece ahead and the reader behind it; nothing at the end of the text. -/
def next? (r : Reader) : Checked (Option (Scanned × Reader)) := do
  match ← r.peek with
  | none => return none
  | some c =>
    match Automaton.select? c with
    | none =>
      let (_, r') ← r.advance
      return some (← r.rejectedTo r' .invalidInput, r')
    | some a =>
      let (verdict, last, r') ← drive a r
      return some (← r.weigh r' verdict last, r')

/-- The next token or rejected piece, blanks and comments passed over; nothing at the end. -/
def nextPiece (r : Reader) : Checked (Option (Except Rejection Token) × Reader) := do
  match ← r.next? with
  | none => return (none, r)
  | some (.skipped, r') => if r'.left < r.left then nextPiece r' else .error .standstill
  | some (.token t, r') => return (some (.ok t), r')
  | some (.rejected e, r') => return (some (.error e), r')
termination_by r.left

/-- The next token, or the end marker when none is left. Rejected pieces on the way are recorded. -/
def pull (r : Reader) : Checked (Token × Reader) := do
  match ← r.nextPiece with
  | (none, r') => return (.endOfInput r'.line r'.cursor, r')
  | (some (.ok t), r') => return (t, { r' with tokens := r'.tokens.push t })
  | (some (.error e), r') =>
    let noted := { r' with errors := r'.errors.push e }
    if noted.left < r.left then pull noted else .error .standstill
termination_by r.left

end Reader

end OnePass.Lexical
