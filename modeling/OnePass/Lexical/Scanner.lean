import OnePass.Lexical.Automaton
import OnePass.Lexical.Token

/-!
# Scanning

A scanner stands in a text, counting bytes and lines. The character it stands at chooses
an automaton, which is driven on until its verdict; a character that it read too far goes
back to the text. The scanner knows nothing of scopes or symbol rows, so the same text
gives the same tokens wherever it is read.

* `Scanner.advance`, `Scanner.retreat`: one character on, and one back.
* `Scanner.drive`: an automaton at work on the text ahead.
* `Scanner.nextPiece`: the next token or rejected piece, recorded nowhere.
* `Scanner.pull`: the next token, recording it and the rejected pieces before it.
* `Scanner.drain`: every token up to the end.
* `scan`: the tokens, the rejected pieces and the end marker of a whole text.
-/

namespace OnePass.Lexical

/-- The number of UTF-8 bytes that the characters take. -/
def byteLength : List Char → Nat
  | [] => 0
  | c :: rest => c.utf8Size + byteLength rest

theorem byteLength_append (a b : List Char) :
    byteLength (a ++ b) = byteLength a + byteLength b := by
  induction a with
  | nil => simp [byteLength]
  | cons c a ih => simp [byteLength, ih, Nat.add_assoc]

def newlines (text : List Char) : Nat := text.count '\n'

/-- A text being scanned: what lies ahead, where that is, and what has been handed out. -/
structure Scanner where
  keywords : List String
  ahead : List Char
  offset : Nat
  line : Nat
  tokens : Array Token
  errors : Array Rejection

/-- One step of scanning. -/
inductive Scanned where
  | skipped
  | token (t : Token)
  | rejected (e : Rejection)

namespace Scanner

def start (keywords : List String) (source : String) : Scanner :=
  ⟨keywords, source.toList, 0, 1, #[], #[]⟩

section Reading

variable (s : Scanner)

/-- Takes the next character, if there is one. A newline counts up the line. -/
def advance : Option Char × Scanner :=
  match s.ahead with
  | [] => (none, s)
  | c :: rest =>
    (some c, { s with
      ahead := rest
      offset := s.offset + c.utf8Size
      line := if c = '\n' then s.line + 1 else s.line })

/-- Gives back the character taken last. A newline counts down the line. -/
def retreat (c : Char) : Scanner :=
  { s with
    ahead := c :: s.ahead
    offset := s.offset - c.utf8Size
    line := if c = '\n' then s.line - 1 else s.line }

/-- Gives back what an automaton was fed last, if it stands behind the piece. -/
def giveBack (a : Automaton) (fed : Option Char) : Scanner :=
  match fed with
  | some c => if a.lookahead then s.retreat c else s
  | none => s

variable {s}

theorem advance_ahead_lt {c : Char} (h : s.advance.1 = some c) :
    s.advance.2.ahead.length < s.ahead.length := by
  unfold advance at h ⊢
  cases hahead : s.ahead with
  | nil => simp [hahead] at h
  | cons => simp

/-- An automaton only runs on behind a character. -/
theorem advance_ahead_lt_of_running {a next : Automaton}
    (h : a.step s.advance.1 = (.running, next)) : s.advance.2.ahead.length < s.ahead.length := by
  obtain ⟨c, hc⟩ : ∃ c, s.advance.1 = some c := by
    refine Option.ne_none_iff_exists'.1 fun hnone => a.step_none ?_
    rw [← hnone, h]
  exact advance_ahead_lt hc

variable (s)

theorem advance_giveBack_ahead_le (a : Automaton) :
    (s.advance.2.giveBack a s.advance.1).ahead.length ≤ s.ahead.length := by
  unfold advance giveBack
  cases hahead : s.ahead with
  | nil => simp [hahead]
  | cons =>
    dsimp only
    split <;> simp [retreat]

end Reading

/-- **An automaton at work:** it is fed one character after the other until its verdict. The scanner
then stands behind the piece. -/
def drive (a : Automaton) (s : Scanner) : Verdict × Automaton × Scanner :=
  match h : a.step s.advance.1 with
  | (.running, next) =>
    have := advance_ahead_lt_of_running h
    drive next s.advance.2
  | (verdict, last) => (verdict, last, s.advance.2.giveBack last s.advance.1)
termination_by s.ahead.length

theorem drive_ahead_le (a : Automaton) (s : Scanner) :
    (drive a s).2.2.ahead.length ≤ s.ahead.length := by
  fun_induction drive a s with
  | case1 a s next step shorter ih => exact Nat.le_trans ih (Nat.le_of_lt shorter)
  | case2 a s => exact s.advance_giveBack_ahead_le _

/-- How many characters of an unclosed comment are quoted. -/
def previewLength : Nat := 10

section Verdicts

/- The scanner `s` stands in front of a piece, and `s'` behind it. -/
variable (s s' : Scanner)

/-- The text of the piece. -/
def upTo : List Char := s.ahead.take (s.ahead.length - s'.ahead.length)

def lexemeTo : String := String.ofList (s.upTo s')

/-- A reserved word is a keyword, any other word an identifier. -/
def wordKind (lexeme : String) : TokenKind :=
  if s.keywords.contains lexeme then .keyword else .identifier

/-- The token class of a piece that an automaton has accepted. -/
def kindOf (kind : Automaton.Kind) (lexeme : String) : TokenKind :=
  match kind with
  | .number => .number
  | .symbol => .symbol
  | _ => s.wordKind lexeme

/-- The piece as a token, on the line that the scanner has come to. -/
def tokenTo (kind : Automaton.Kind) : Scanned :=
  .token ⟨s.kindOf kind (s.lexemeTo s'), s.lexemeTo s', s'.line, s.offset, s'.offset⟩

/-- The piece as a fault, on the line that the scanner has come to. -/
def rejectedTo (cause : LexicalFault) : Scanned :=
  .rejected ⟨cause, s.lexemeTo s', s'.line, s.offset, s'.offset⟩

/-- A comment that is never closed: only its front is quoted, on the line that it opens on. -/
def unclosedTo : Scanned :=
  let preview := s.ahead.take previewLength
  let more := if byteLength preview < s'.offset - s.offset then "..." else ""
  .rejected ⟨.unclosedComment, String.ofList preview ++ more, s.line, s.offset, s'.offset⟩

/-- What a piece amounts to by the verdict of its automaton. -/
def weigh (verdict : Verdict) (a : Automaton) : Scanned :=
  match verdict, a.kind with
  | .accepted, .blank | .accepted, .comment => .skipped
  | .accepted, .number =>
    if (Decimal.signed64? (s.upTo s')).isNone then s.rejectedTo s' .invalidNumber
    else s.tokenTo s' .number
  | .accepted, kind => s.tokenTo s' kind
  | _, .number => s.rejectedTo s' .invalidNumber
  | _, .comment =>
    if a.inBlockComment then s.unclosedTo s' else s.rejectedTo s' .invalidInput
  | _, .symbol =>
    if s.lexemeTo s' = "*/" then s.rejectedTo s' .unmatchedComment
    else s.rejectedTo s' .invalidInput
  | _, _ => s.rejectedTo s' .invalidInput

end Verdicts

/-- The first piece ahead and the scanner behind it; nothing at the end of the text. -/
def next? (s : Scanner) : Option (Scanned × Scanner) :=
  match s.ahead with
  | [] => none
  | c :: _ =>
    match Automaton.select? c with
    | none => some (s.rejectedTo s.advance.2 .invalidInput, s.advance.2)
    | some a =>
      let (verdict, last, s') := drive a s
      some (s.weigh s' verdict last, s')

/-- An automaton takes at least the character that it was chosen for. -/
theorem drive_ahead_lt {s : Scanner} {c : Char} {rest : List Char} {a : Automaton}
    (hahead : s.ahead = c :: rest) (hselect : Automaton.select? c = some a) :
    (drive a s).2.2.ahead.length < s.ahead.length := by
  have hfed : s.advance.1 = some c := by simp [advance, hahead]
  have htaken := advance_ahead_lt hfed
  have hkept := Automaton.step_select? hselect
  rw [drive]
  split
  · exact Nat.lt_of_le_of_lt (drive_ahead_le _ _) htaken
  · rename_i verdict last _ step
    rw [hfed] at step
    have hlast : last.lookahead = false := by rw [step] at hkept; exact hkept
    simpa [giveBack, hfed, hlast] using htaken

/-- **Scanning moves on.** Less text lies ahead after every piece. -/
theorem next?_ahead_lt {s s' : Scanner} {x : Scanned} (h : s.next? = some (x, s')) :
    s'.ahead.length < s.ahead.length := by
  unfold next? at h
  split at h
  · cases h
  · rename_i c rest hahead
    split at h
    · cases h
      exact advance_ahead_lt (c := c) (by simp [advance, hahead])
    · rename_i a hselect
      cases h
      exact drive_ahead_lt hahead hselect

/-- The next token or rejected piece, blanks and comments passed over; nothing at the end. -/
def nextPiece (s : Scanner) : Option (Except Rejection Token) × Scanner :=
  match h : s.next? with
  | none => (none, s)
  | some (.skipped, s') =>
    have := next?_ahead_lt h
    nextPiece s'
  | some (.token t, s') => (some (.ok t), s')
  | some (.rejected e, s') => (some (.error e), s')
termination_by s.ahead.length

/-- **A piece moves the scanner on.** Only the end of the text gives none. -/
theorem nextPiece_ahead_lt {s s' : Scanner} {x : Except Rejection Token}
    (h : s.nextPiece = (some x, s')) : s'.ahead.length < s.ahead.length := by
  fun_induction nextPiece s with
  | case1 => simp at h
  | case2 s s₁ step shorter ih => exact Nat.lt_trans (ih h) (next?_ahead_lt step)
  | case3 s t s₁ step =>
    simp only [Prod.mk.injEq] at h
    exact h.2 ▸ next?_ahead_lt step
  | case4 s e s₁ step =>
    simp only [Prod.mk.injEq] at h
    exact h.2 ▸ next?_ahead_lt step

/-- The next token, or the end marker when none is left. Rejected pieces on the way are recorded. -/
def pull (s : Scanner) : Token × Scanner :=
  match h : s.nextPiece with
  | (none, s') => (.endOfInput s'.line s'.offset, s')
  | (some (.ok t), s') => (t, { s' with tokens := s'.tokens.push t })
  | (some (.error e), s') =>
    have := nextPiece_ahead_lt h
    pull { s' with errors := s'.errors.push e }
termination_by s.ahead.length

/-- **A token moves the scanner on.** Only the end marker leaves it where it was. -/
theorem pull_ahead_lt {s s' : Scanner} {t : Token} (h : s.pull = (t, s'))
    (some_token : t.isEndOfInput = false) : s'.ahead.length < s.ahead.length := by
  fun_induction pull s with
  | case1 s s₁ =>
    simp only [Prod.mk.injEq] at h
    simp [← h.1, Token.endOfInput, Token.isEndOfInput] at some_token
  | case2 s t₁ s₁ step =>
    simp only [Prod.mk.injEq] at h
    simpa [← h.2] using nextPiece_ahead_lt step
  | case3 s e s₁ step shorter ih => exact Nat.lt_trans (ih h) shorter

/-- The scanner after the whole text, every token and rejected piece recorded. -/
def drain (s : Scanner) : Scanner :=
  match h : s.pull with
  | (t, s') =>
    if last : t.isEndOfInput then s'
    else
      have := pull_ahead_lt h (by simpa using last)
      drain s'
termination_by s.ahead.length

end Scanner

/-- A text taken apart: its tokens, the rejected pieces, and the marker of its end. -/
structure Scan where
  tokens : List Token
  errors : List Rejection
  endMarker : Token
deriving DecidableEq

/-- **The scan of a text.** -/
def scan (keywords : List String) (source : String) : Scan :=
  let s := (Scanner.start keywords source).drain
  ⟨s.tokens.toList, s.errors.toList, .endOfInput s.line s.offset⟩

end OnePass.Lexical
