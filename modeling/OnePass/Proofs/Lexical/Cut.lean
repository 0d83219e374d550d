import OnePass.Lexical.Automaton
import OnePass.Lexical.Token

/-!
# Cutting the first piece from a text

The first character of a text says which rule applies, and the rule says how far
the piece reaches. A piece is skipped, is a number, a word or a symbol, or is a fault.

* `cut`: the first piece and the text behind it.
* `cut_append`: piece and remainder make up the text again.
* `cut_remainder_lt`: a cut always takes something off.
-/

namespace OnePass.Lexical

open OnePass.Decimal (isDigit)

/-- What the front of a text turned out to be. -/
inductive Piece where
  /-- A blank or a comment. -/
  | skipped
  | number
  | word
  | symbol
  | fault (cause : LexicalFault)
deriving DecidableEq

/-- A piece, its characters, and the characters behind it. -/
structure Cut where
  piece : Piece
  text : List Char
  remainder : List Char
deriving DecidableEq

/-- A run of digits is a number up to the greatest signed 64-bit value. -/
def numberPiece (digits : List Char) : Piece :=
  if Decimal.value digits ≤ Decimal.maxSigned64 then .number else .fault .invalidNumber

/-- A digit run with the letter that spoils it, with its fraction, or alone. -/
def cutNumber (text : List Char) : Cut :=
  let digits := text.takeWhile isDigit
  match text.dropWhile isDigit with
  | [] => ⟨numberPiece digits, digits, []⟩
  | c :: cs =>
    if isLetter c then ⟨.fault .invalidNumber, digits ++ [c], cs⟩
    else if c = '.' then
      ⟨.fault .invalidNumber, digits ++ c :: cs.takeWhile isDigit, cs.dropWhile isDigit⟩
    else ⟨numberPiece digits, digits, c :: cs⟩

/-- A word reaches as far as it can, and takes along a character that may not follow it. -/
def cutWord (text : List Char) : Cut :=
  let word := text.takeWhile isWordPart
  match text.dropWhile isWordPart with
  | [] => ⟨.word, word, []⟩
  | c :: cs =>
    if endsWord c then ⟨.word, word, c :: cs⟩ else ⟨.fault .invalidInput, word ++ [c], cs⟩

/-- The longest symbol at the front; a closing comment mark is a fault. -/
def cutSymbol (c : Char) (cs : List Char) : Cut :=
  match c, cs with
  | '=', '=' :: r => ⟨.symbol, ['=', '='], r⟩
  | '*', '*' :: r => ⟨.symbol, ['*', '*'], r⟩
  | '*', '/' :: r => ⟨.fault .unmatchedComment, ['*', '/'], r⟩
  | c, cs => ⟨.symbol, [c], cs⟩

/-- The text up to and with the first closing mark, and the text behind it. -/
def splitComment : List Char → Option (List Char × List Char)
  | [] => none
  | '*' :: '/' :: r => some (['*', '/'], r)
  | c :: r => (splitComment r).map fun (inside, behind) => (c :: inside, behind)

/-- What follows a slash: a block comment, one that is never closed, or nothing of use. -/
def cutSlash : List Char → Cut
  | '*' :: r =>
    match splitComment r with
    | some (inside, behind) => ⟨.skipped, '/' :: '*' :: inside, behind⟩
    | none => ⟨.fault .unclosedComment, '/' :: '*' :: r, []⟩
  | cs => ⟨.fault .invalidInput, ['/'], cs⟩

/-- **The first piece of a text** that starts with `c` and goes on with `cs`. -/
def cut (c : Char) (cs : List Char) : Cut :=
  if isDigit c then cutNumber (c :: cs)
  else if isBlank c then ⟨.skipped, [c], cs⟩
  else if isSymbolStart c then cutSymbol c cs
  else if isLetter c then cutWord (c :: cs)
  else if c = '/' then cutSlash cs
  else if c = '#' then ⟨.skipped, c :: cs.takeWhile (· ≠ '\n'), cs.dropWhile (· ≠ '\n')⟩
  else ⟨.fault .invalidInput, [c], cs⟩

theorem cutNumber_append (text : List Char) :
    (cutNumber text).text ++ (cutNumber text).remainder = text := by
  have split := List.takeWhile_append_dropWhile (p := isDigit) (l := text)
  unfold cutNumber
  split <;> rename_i behind <;> rw [behind] at split
  · simpa using split
  · split
    · simpa using split
    · split <;> simpa [List.takeWhile_append_dropWhile] using split

theorem cutWord_append (text : List Char) :
    (cutWord text).text ++ (cutWord text).remainder = text := by
  have split := List.takeWhile_append_dropWhile (p := isWordPart) (l := text)
  unfold cutWord
  split <;> rename_i behind <;> rw [behind] at split
  · simpa using split
  · split <;> simpa using split

theorem cutSymbol_append (c : Char) (cs : List Char) :
    (cutSymbol c cs).text ++ (cutSymbol c cs).remainder = c :: cs := by
  unfold cutSymbol
  split <;> rfl

theorem splitComment_append {text inside behind : List Char}
    (h : splitComment text = some (inside, behind)) : inside ++ behind = text := by
  fun_induction splitComment text generalizing inside behind with
  | case1 => simp at h
  | case2 r =>
    simp only [Option.some.injEq, Prod.mk.injEq] at h
    rw [← h.1, ← h.2]
    rfl
  | case3 c r _ ih =>
    obtain ⟨⟨first, last⟩, found, rest⟩ := Option.map_eq_some_iff.1 h
    simp only [Prod.mk.injEq] at rest
    rw [← rest.1, ← rest.2, List.cons_append, ih found]

theorem cutSlash_append (cs : List Char) :
    (cutSlash cs).text ++ (cutSlash cs).remainder = '/' :: cs := by
  unfold cutSlash
  split
  · split
    · rename_i found
      simp [splitComment_append found]
    · simp
  · rfl

/-- **Nothing is lost.** A piece and its remainder make up the text again. -/
theorem cut_append (c : Char) (cs : List Char) :
    (cut c cs).text ++ (cut c cs).remainder = c :: cs := by
  unfold cut
  repeat' split
  · exact cutNumber_append _
  · rfl
  · exact cutSymbol_append c cs
  · exact cutWord_append _
  · rename_i slash
    rw [slash]
    exact cutSlash_append cs
  · simp [List.takeWhile_append_dropWhile]
  · rfl

theorem cut_text_ne_nil (c : Char) (cs : List Char) : (cut c cs).text ≠ [] := by
  unfold cut
  split
  · rename_i digit
    unfold cutNumber
    simp only [List.takeWhile_cons, digit, if_true]
    repeat' split
    all_goals simp
  · repeat' split
    · simp
    · unfold cutSymbol
      split <;> simp
    · rename_i letter
      have part : isWordPart c = true := by simp [isWordPart, letter]
      unfold cutWord
      simp only [List.takeWhile_cons, part, if_true]
      repeat' split
      all_goals simp
    · unfold cutSlash
      repeat' split
      all_goals simp
    all_goals simp

/-- **Every cut takes something off.** -/
theorem cut_remainder_lt (c : Char) (cs : List Char) :
    (cut c cs).remainder.length < (c :: cs).length := by
  have whole := congrArg List.length (cut_append c cs)
  have some_text := List.length_pos_iff.2 (cut_text_ne_nil c cs)
  rw [List.length_append] at whole
  omega

end OnePass.Lexical
