import Mathlib.Algebra.Order.Ring.Nat
import Mathlib.Data.List.Infix
import Mathlib.Data.List.TakeWhile
import Mathlib.Tactic.Common
import OnePass.Proofs.Lexical.Cut

/-!
# The rules for the pieces of a text

What the front of a text is, said without saying how it is found: a piece is a text of its own
with a condition on what stands behind it. Runs are as long as they can be, a block comment
reaches to its first closing mark, and a word that runs into a foreign character takes it along.

* `Rule`: the pieces, one constructor for each kind.
* `rule_cut`: what is cut from a text is a piece by the rules.
* `cut_of_rule`: a piece by the rules is what is cut. `Rule.unique`: so a text begins with
  one piece only.
-/

namespace OnePass.Lexical

open OnePass.Decimal (isDigit)

/-- The mark that closes a block comment. -/
def closing : List Char := ['*', '/']

/-- The text is at its end, or its first character is of the kind. -/
def FrontIs (p : Char → Bool) (text : List Char) : Prop := ∀ c ∈ text.head?, p c = true

/-- What may stand right behind a number. -/
def endsNumber (c : Char) : Bool := !isDigit c && !isLetter c && c ≠ '.'

/-- A character that begins nothing. -/
def isStray (c : Char) : Bool :=
  !isDigit c && !isBlank c && !isSymbolStart c && !isLetter c && c ≠ '/' && c ≠ '#'

/-- **The pieces of a text** with what is behind them. -/
inductive Rule : Piece → List Char → List Char → Prop
  | blank {c : Char} {behind : List Char} (h : isBlank c = true) : Rule .skipped [c] behind
  /-- Up to the end of the line, or of the text. -/
  | lineComment {body behind : List Char} (hbody : '\n' ∉ body)
      (hbehind : FrontIs (· = '\n') behind) : Rule .skipped ('#' :: body) behind
  /-- No closing mark begins in the body, so the one behind it is the first. -/
  | blockComment {body behind : List Char} (hbody : ¬closing <:+: body ++ ['*']) :
      Rule .skipped ('/' :: '*' :: (body ++ closing)) behind
  | unclosed {body : List Char} (hbody : ¬closing <:+: body) :
      Rule (.fault .unclosedComment) ('/' :: '*' :: body) []
  | slash {behind : List Char} (hbehind : FrontIs (· ≠ '*') behind) :
      Rule (.fault .invalidInput) ['/'] behind
  | number {digits behind : List Char} (hne : digits ≠ []) (hdigits : ∀ c ∈ digits, isDigit c = true)
      (hbehind : FrontIs endsNumber behind) (hvalue : Decimal.value digits ≤ 2 ^ 63 - 1) :
      Rule .number digits behind
  | tooLarge {digits behind : List Char} (hne : digits ≠ [])
      (hdigits : ∀ c ∈ digits, isDigit c = true) (hbehind : FrontIs endsNumber behind)
      (hvalue : 2 ^ 63 - 1 < Decimal.value digits) : Rule (.fault .invalidNumber) digits behind
  /-- A number that runs into a letter. -/
  | letter {digits behind : List Char} {c : Char} (hne : digits ≠ [])
      (hdigits : ∀ c ∈ digits, isDigit c = true) (hc : isLetter c = true) :
      Rule (.fault .invalidNumber) (digits ++ [c]) behind
  | fraction {digits decimals behind : List Char} (hne : digits ≠ [])
      (hdigits : ∀ c ∈ digits, isDigit c = true) (hdecimals : ∀ c ∈ decimals, isDigit c = true)
      (hbehind : FrontIs (!isDigit ·) behind) :
      Rule (.fault .invalidNumber) (digits ++ '.' :: decimals) behind
  | word {c : Char} {rest behind : List Char} (hc : isLetter c = true)
      (hrest : ∀ c ∈ rest, isWordPart c = true) (hbehind : FrontIs endsWord behind) :
      Rule .word (c :: rest) behind
  /-- A word that runs into a foreign character. -/
  | foreign {c d : Char} {rest behind : List Char} (hc : isLetter c = true)
      (hrest : ∀ c ∈ rest, isWordPart c = true) (hpart : isWordPart d = false)
      (hends : endsWord d = false) : Rule (.fault .invalidInput) (c :: rest ++ [d]) behind
  | sole {c : Char} {behind : List Char} (h : isSoleSymbol c = true) : Rule .symbol [c] behind
  | equal {behind : List Char} : Rule .symbol ['=', '='] behind
  | assign {behind : List Char} (hbehind : FrontIs (· ≠ '=') behind) : Rule .symbol ['='] behind
  | starStar {behind : List Char} : Rule .symbol ['*', '*'] behind
  | star {behind : List Char} (hbehind : FrontIs (fun c => c ≠ '*' && c ≠ '/') behind) :
      Rule .symbol ['*'] behind
  | unmatched {behind : List Char} : Rule (.fault .unmatchedComment) closing behind
  | stray {c : Char} {behind : List Char} (h : isStray c = true) :
      Rule (.fault .invalidInput) [c] behind

/-! ### Kinds of characters -/

theorem isBlank_iff {c : Char} : isBlank c = true ↔
    c = ' ' ∨ c = '\n' ∨ c = '\r' ∨ c = '\t' ∨ c = '\x0b' ∨ c = '\x0c' := by
  simp [isBlank]

theorem isSoleSymbol_iff {c : Char} : isSoleSymbol c = true ↔ c = ';' ∨ c = ':' ∨ c = ',' ∨ c = '[' ∨
    c = ']' ∨ c = '(' ∨ c = ')' ∨ c = '+' ∨ c = '-' ∨ c = '<' := by
  simp [isSoleSymbol]

/-- What ends a word is no part of one. -/
theorem isWordPart_of_endsWord {c : Char} (h : endsWord c = true) : isWordPart c = false := by
  simp only [endsWord, isSymbolStart, Bool.or_eq_true, beq_iff_eq, isBlank_iff, isSoleSymbol_iff] at h
  rcases h with ((h | h) | rfl) | rfl
  · rcases h with rfl | rfl | rfl | rfl | rfl | rfl <;> decide
  · rcases h with (h | rfl) | rfl
    · rcases h with rfl | rfl | rfl | rfl | rfl | rfl | rfl | rfl | rfl | rfl <;> decide
    · decide
    · decide
  · decide
  · decide

theorem isDigit_of_isLetter {c : Char} (h : isLetter c = true) : isDigit c = false := by
  simp only [isLetter, isDigit, Bool.or_eq_true, Bool.and_eq_true, decide_eq_true_eq,
    Bool.and_eq_false_iff, decide_eq_false_iff_not, Char.le_def, UInt32.le_iff_toNat_le] at h ⊢
  change 97 ≤ c.val.toNat ∧ c.val.toNat ≤ 122 ∨ 65 ≤ c.val.toNat ∧ c.val.toNat ≤ 90 at h
  right
  change ¬c.val.toNat ≤ 57
  omega

/-- On a letter no rule is tried before that for words. -/
theorem plain_of_isLetter {c : Char} (h : isLetter c = true) :
    isDigit c = false ∧ isBlank c = false ∧ isSymbolStart c = false := by
  have hends : endsWord c = false := by
    by_contra hends
    have hpart := isWordPart_of_endsWord (Bool.not_eq_false _ |>.mp hends)
    simp [isWordPart, h] at hpart
  simp only [endsWord, Bool.or_eq_false_iff] at hends
  exact ⟨isDigit_of_isLetter h, hends.1.1⟩

/-! ### Runs of characters -/

section Runs

variable {p : Char → Bool} {c : Char} {run text behind : List Char}

@[simp] theorem frontIs_nil : FrontIs p [] := nofun

@[simp] theorem frontIs_cons : FrontIs p (c :: text) ↔ p c = true := by simp [FrontIs]

/-- A run that goes as far as it can. -/
theorem takeWhile_run (hrun : ∀ c ∈ run, p c = true) (hbehind : FrontIs (!p ·) behind) :
    (run ++ behind).takeWhile p = run ∧ (run ++ behind).dropWhile p = behind := by
  rw [List.takeWhile_append_of_pos hrun, List.dropWhile_append_of_pos hrun]
  cases behind with
  | nil => simp
  | cons c behind =>
    have hc : ¬p c = true := by simpa using hbehind
    simp [List.takeWhile_cons_of_neg hc, List.dropWhile_cons_of_neg hc]

theorem frontIs_dropWhile (p : Char → Bool) (text : List Char) :
    FrontIs (!p ·) (text.dropWhile p) := by
  intro c hc
  have := List.head?_dropWhile_not p text
  rw [Option.mem_def.1 hc] at this
  simpa using this

end Runs

/-! ### Comments -/

/-- A comment that is closed reaches to the first closing mark. -/
theorem splitComment_closed {body behind : List Char} (h : ¬closing <:+: body ++ ['*']) :
    splitComment (body ++ closing ++ behind) = some (body ++ closing, behind) := by
  induction body with
  | nil => rfl
  | cons c body ih =>
    have hnot : ∀ r, c = '*' → body ++ closing ++ behind = '/' :: r → False := by
      rintro r rfl hr
      apply h
      cases body with
      | nil => cases hr
      | cons d body =>
        obtain ⟨rfl, -⟩ := List.cons.inj hr
        exact ⟨[], body ++ ['*'], rfl⟩
    have hbody := ih fun hin => h (List.infix_cons hin)
    rw [List.cons_append, List.cons_append, splitComment.eq_3 _ _ hnot, hbody]
    rfl

/-- A comment that is not closed reaches to the end. -/
theorem splitComment_unclosed {body : List Char} (h : ¬closing <:+: body) :
    splitComment body = none := by
  induction body with
  | nil => rfl
  | cons c body ih =>
    have hnot : ∀ r, c = '*' → body = '/' :: r → False := by
      rintro r rfl rfl
      exact h ⟨[], r, rfl⟩
    rw [splitComment.eq_3 _ _ hnot, ih fun hin => h (List.infix_cons hin)]
    rfl

theorem exists_body_of_splitComment {text inside behind : List Char}
    (h : splitComment text = some (inside, behind)) :
    ∃ body, inside = body ++ closing ∧ ¬closing <:+: body ++ ['*'] := by
  fun_induction splitComment text generalizing inside behind with
  | case1 => cases h
  | case2 r =>
    cases h
    exact ⟨[], rfl, by decide⟩
  | case3 c r hnot ih =>
    obtain ⟨⟨first, last⟩, hfirst, hrest⟩ := Option.map_eq_some_iff.1 h
    obtain ⟨body, rfl, hbody⟩ := ih hfirst
    cases hrest
    refine ⟨c :: body, rfl, fun hin => ?_⟩
    rcases List.infix_cons_iff.1 hin with hprefix | hin
    · -- the mark would have been found here
      obtain ⟨b, hb⟩ := hprefix
      have hr := splitComment_append hfirst
      cases body with
      | nil => cases hb
      | cons d body =>
        cases hb
        exact hnot _ rfl hr.symm
    · exact hbody hin

theorem not_infix_of_splitComment {text : List Char} (h : splitComment text = none) :
    ¬closing <:+: text := by
  fun_induction splitComment text with
  | case1 => decide
  | case2 r => cases h
  | case3 c r hnot ih =>
    intro hin
    rcases List.infix_cons_iff.1 hin with hprefix | hin
    · obtain ⟨b, hb⟩ := hprefix
      cases hb
      exact hnot _ rfl rfl
    · exact ih (Option.map_eq_none_iff.1 h) hin

/-! ### The cut is by the rules -/

variable {piece : Piece} {text behind : List Char}

theorem rule_cutNumber {c : Char} {cs : List Char} (hc : isDigit c = true) :
    Rule (cutNumber (c :: cs)).piece (cutNumber (c :: cs)).text (cutNumber (c :: cs)).remainder := by
  have hne : (c :: cs).takeWhile isDigit ≠ [] := by simp [hc]
  have hdigits : ∀ d ∈ (c :: cs).takeWhile isDigit, isDigit d = true :=
    fun d hd => List.mem_takeWhile_imp hd
  have hbehind := frontIs_dropWhile isDigit (c :: cs)
  have hpiece : ∀ behind, FrontIs endsNumber behind → Rule
      (numberPiece ((c :: cs).takeWhile isDigit)) ((c :: cs).takeWhile isDigit) behind := by
    intro behind hends
    unfold numberPiece
    split
    · rename_i hvalue
      exact .number hne hdigits hends hvalue
    · rename_i hvalue
      exact .tooLarge hne hdigits hends (Nat.lt_of_not_le hvalue)
  unfold cutNumber
  split
  · exact hpiece [] frontIs_nil
  · rename_i d ds hdrop
    rw [hdrop, frontIs_cons] at hbehind
    split
    · rename_i hletter
      exact .letter hne hdigits hletter
    · rename_i hletter
      split
      · rename_i hdot
        subst hdot
        exact .fraction hne hdigits (fun d hd => List.mem_takeWhile_imp hd)
          (frontIs_dropWhile isDigit ds)
      · rename_i hdot
        apply hpiece
        rw [frontIs_cons, endsNumber, hbehind]
        simp [hletter, hdot]

theorem rule_cutWord {c : Char} {cs : List Char} (hc : isLetter c = true) :
    Rule (cutWord (c :: cs)).piece (cutWord (c :: cs)).text (cutWord (c :: cs)).remainder := by
  have hpart : isWordPart c = true := by simp [isWordPart, hc]
  have hrest : ∀ d ∈ cs.takeWhile isWordPart, isWordPart d = true :=
    fun d hd => List.mem_takeWhile_imp hd
  have hbehind := frontIs_dropWhile isWordPart cs
  unfold cutWord
  rw [List.takeWhile_cons_of_pos hpart, List.dropWhile_cons_of_pos hpart]
  split
  · exact .word hc hrest frontIs_nil
  · rename_i d ds hdrop
    rw [hdrop, frontIs_cons] at hbehind
    split
    · rename_i hends
      exact .word hc hrest (frontIs_cons.2 hends)
    · rename_i hends
      exact .foreign hc hrest (by simpa using hbehind) (by simpa using hends)

theorem rule_cutSymbol {c : Char} {cs : List Char} (hc : isSymbolStart c = true) :
    Rule (cutSymbol c cs).piece (cutSymbol c cs).text (cutSymbol c cs).remainder := by
  unfold cutSymbol
  split
  · exact .equal
  · exact .starStar
  · exact .unmatched
  · rename_i hequal hstar hslash
    simp only [isSymbolStart, Bool.or_eq_true, beq_iff_eq] at hc
    rcases hc with (hc | rfl) | rfl
    · exact .sole hc
    · apply Rule.assign
      cases cs with
      | nil => exact frontIs_nil
      | cons d ds => exact frontIs_cons.2 (decide_eq_true fun hd => hequal ds rfl (hd ▸ rfl))
    · apply Rule.star
      cases cs with
      | nil => exact frontIs_nil
      | cons d ds =>
        have h1 : d ≠ '*' := fun hd => hstar ds rfl (hd ▸ rfl)
        have h2 : d ≠ '/' := fun hd => hslash ds rfl (hd ▸ rfl)
        simp [h1, h2]

theorem rule_cutSlash (cs : List Char) :
    Rule (cutSlash cs).piece (cutSlash cs).text (cutSlash cs).remainder := by
  unfold cutSlash
  split
  · split
    · rename_i hsplit
      obtain ⟨body, rfl, hbody⟩ := exists_body_of_splitComment hsplit
      exact .blockComment hbody
    · rename_i hsplit
      exact .unclosed (not_infix_of_splitComment hsplit)
  · rename_i hstar
    apply Rule.slash
    cases cs with
    | nil => exact frontIs_nil
    | cons d ds => exact frontIs_cons.2 (decide_eq_true fun hd => hstar ds (hd ▸ rfl))

/-- **What is cut from a text is a piece by the rules.** -/
theorem rule_cut (c : Char) (cs : List Char) :
    Rule (cut c cs).piece (cut c cs).text (cut c cs).remainder := by
  unfold cut
  split
  · rename_i hdigit
    exact rule_cutNumber hdigit
  rename_i hdigit
  split
  · rename_i hblank
    exact .blank hblank
  rename_i hblank
  split
  · rename_i hsymbol
    exact rule_cutSymbol hsymbol
  rename_i hsymbol
  split
  · rename_i hletter
    exact rule_cutWord hletter
  rename_i hletter
  split
  · exact rule_cutSlash cs
  rename_i hslash
  split
  · rename_i hhash
    subst hhash
    refine .lineComment (fun hmem => ?_) ?_
    · simpa using List.mem_takeWhile_imp hmem
    · simpa [FrontIs] using frontIs_dropWhile (fun c => decide (c ≠ '\n')) cs
  · rename_i hhash
    apply Rule.stray
    simp [isStray, hdigit, hblank, hsymbol, hletter, hslash, hhash]

/-! ### The rules give what is cut -/

/-- The first character of a run. -/
theorem exists_cons_of_run {p : Char → Bool} {run : List Char} (hne : run ≠ [])
    (hrun : ∀ c ∈ run, p c = true) : ∃ c cs, run = c :: cs ∧ p c = true := by
  cases run with
  | nil => exact absurd rfl hne
  | cons c cs => exact ⟨c, cs, rfl, hrun c (List.mem_cons_self ..)⟩

theorem cut_digit {c : Char} {cs : List Char} (hc : isDigit c = true) :
    cut c cs = cutNumber (c :: cs) := if_pos hc

/-- A number that nothing spoils is cut off whole. -/
theorem cutNumber_of_endsNumber {digits : List Char} (hdigits : ∀ c ∈ digits, isDigit c = true)
    (hbehind : FrontIs endsNumber behind) :
    cutNumber (digits ++ behind) = ⟨numberPiece digits, digits, behind⟩ := by
  have hstops : FrontIs (!isDigit ·) behind := by
    intro c hc
    have hends := hbehind c hc
    simp only [endsNumber, Bool.and_eq_true] at hends
    exact hends.1.1
  obtain ⟨htake, hdrop⟩ := takeWhile_run hdigits hstops
  rw [cutNumber, htake, hdrop]
  cases behind with
  | nil => rfl
  | cons c cs =>
    have hends := frontIs_cons.1 hbehind
    simp only [endsNumber, Bool.and_eq_true, Bool.not_eq_true', decide_eq_true_eq] at hends
    simp [hends.1.2, hends.2]

theorem cutNumber_letter {digits : List Char} {c : Char} (hdigits : ∀ c ∈ digits, isDigit c = true)
    (hc : isLetter c = true) :
    cutNumber (digits ++ [c] ++ behind) = ⟨.fault .invalidNumber, digits ++ [c], behind⟩ := by
  have hstops : FrontIs (!isDigit ·) (c :: behind) := by simp [isDigit_of_isLetter hc]
  obtain ⟨htake, hdrop⟩ := takeWhile_run hdigits hstops
  rw [List.append_assoc, List.singleton_append, cutNumber, htake, hdrop]
  simp only [hc, if_true]

theorem cutNumber_fraction {digits decimals : List Char} (hdigits : ∀ c ∈ digits, isDigit c = true)
    (hdecimals : ∀ c ∈ decimals, isDigit c = true) (hbehind : FrontIs (!isDigit ·) behind) :
    cutNumber (digits ++ '.' :: decimals ++ behind) =
      ⟨.fault .invalidNumber, digits ++ '.' :: decimals, behind⟩ := by
  have hstops : FrontIs (!isDigit ·) ('.' :: (decimals ++ behind)) := frontIs_cons.2 rfl
  have hdot : isLetter '.' = false := by decide
  obtain ⟨htake, hdrop⟩ := takeWhile_run hdigits hstops
  obtain ⟨htake', hdrop'⟩ := takeWhile_run hdecimals hbehind
  rw [List.append_assoc, List.cons_append, cutNumber, htake, hdrop]
  simp only [hdot, htake', hdrop', Bool.false_eq_true, if_false, if_true]

theorem forall_mem_word {c : Char} {rest : List Char} (hc : isLetter c = true)
    (hrest : ∀ d ∈ rest, isWordPart d = true) : ∀ d ∈ c :: rest, isWordPart d = true := by
  rw [List.forall_mem_cons]
  exact ⟨by simp [isWordPart, hc], hrest⟩

theorem cut_letter {c : Char} {cs : List Char} (hc : isLetter c = true) :
    cut c cs = cutWord (c :: cs) := by
  obtain ⟨hdigit, hblank, hsymbol⟩ := plain_of_isLetter hc
  simp [cut, hdigit, hblank, hsymbol, hc]

theorem cutWord_word {c : Char} {rest : List Char} (hc : isLetter c = true)
    (hrest : ∀ c ∈ rest, isWordPart c = true) (hbehind : FrontIs endsWord behind) :
    cutWord (c :: rest ++ behind) = ⟨.word, c :: rest, behind⟩ := by
  have hstops : FrontIs (!isWordPart ·) behind := by
    intro d hd
    simp [isWordPart_of_endsWord (hbehind d hd)]
  obtain ⟨htake, hdrop⟩ := takeWhile_run (forall_mem_word hc hrest) hstops
  rw [cutWord, htake, hdrop]
  cases behind with
  | nil => rfl
  | cons d ds =>
    rw [frontIs_cons] at hbehind
    simp only [hbehind, if_true]

theorem cutWord_foreign {c d : Char} {rest : List Char} (hc : isLetter c = true)
    (hrest : ∀ c ∈ rest, isWordPart c = true) (hpart : isWordPart d = false)
    (hends : endsWord d = false) :
    cutWord (c :: rest ++ [d] ++ behind) = ⟨.fault .invalidInput, c :: rest ++ [d], behind⟩ := by
  have hstops : FrontIs (!isWordPart ·) (d :: behind) := by simp [hpart]
  obtain ⟨htake, hdrop⟩ := takeWhile_run (forall_mem_word hc hrest) hstops
  rw [List.append_assoc, List.singleton_append, cutWord, htake, hdrop]
  simp only [hends, Bool.false_eq_true, if_false]

/-- **A piece by the rules is what is cut.** -/
theorem cut_of_rule (h : Rule piece text behind) :
    ∃ c cs, text ++ behind = c :: cs ∧ cut c cs = ⟨piece, text, behind⟩ := by
  cases h with
  | @blank c _ h =>
    refine ⟨c, behind, rfl, ?_⟩
    have hdigit : isDigit c = false := by
      rw [isBlank_iff] at h
      rcases h with rfl | rfl | rfl | rfl | rfl | rfl <;> decide
    simp [cut, hdigit, h]
  | @lineComment body _ hbody hbehind =>
    have hrun : ∀ d ∈ body, decide (d ≠ '\n') = true := fun d hd =>
      decide_eq_true fun heq => hbody (heq ▸ hd)
    obtain ⟨htake, hdrop⟩ := takeWhile_run hrun (by simpa [FrontIs] using hbehind)
    refine ⟨'#', body ++ behind, rfl, ?_⟩
    have hcut : cut '#' (body ++ behind) = ⟨.skipped, '#' :: (body ++ behind).takeWhile (· ≠ '\n'),
        (body ++ behind).dropWhile (· ≠ '\n')⟩ := rfl
    rw [hcut, htake, hdrop]
  | @blockComment body _ hbody =>
    refine ⟨'/', '*' :: (body ++ closing ++ behind), rfl, ?_⟩
    change cutSlash ('*' :: (body ++ closing ++ behind)) = _
    rw [cutSlash, splitComment_closed hbody]
  | @unclosed body hbody =>
    refine ⟨'/', '*' :: body, List.append_nil _, ?_⟩
    change cutSlash ('*' :: body) = _
    rw [cutSlash, splitComment_unclosed hbody]
  | slash hbehind =>
    refine ⟨'/', behind, rfl, ?_⟩
    change cutSlash behind = _
    have hstar : ∀ r, behind = '*' :: r → False := by
      rintro r rfl
      simp at hbehind
    rw [cutSlash.eq_2 _ hstar]
  | number hne hdigits hbehind hvalue =>
    obtain ⟨d, ds, rfl, hd⟩ := exists_cons_of_run hne hdigits
    refine ⟨d, ds ++ behind, rfl, (cut_digit hd).trans ?_⟩
    have hpiece : numberPiece (d :: ds) = .number := if_pos hvalue
    rw [← hpiece]
    exact cutNumber_of_endsNumber hdigits hbehind
  | tooLarge hne hdigits hbehind hvalue =>
    obtain ⟨d, ds, rfl, hd⟩ := exists_cons_of_run hne hdigits
    refine ⟨d, ds ++ behind, rfl, (cut_digit hd).trans ?_⟩
    have hpiece : numberPiece (d :: ds) = .fault .invalidNumber := if_neg (Nat.not_le_of_lt hvalue)
    rw [← hpiece]
    exact cutNumber_of_endsNumber hdigits hbehind
  | letter hne hdigits hc =>
    obtain ⟨d, ds, rfl, hd⟩ := exists_cons_of_run hne hdigits
    exact ⟨d, _, rfl, (cut_digit hd).trans (cutNumber_letter hdigits hc)⟩
  | fraction hne hdigits hdecimals hbehind =>
    obtain ⟨d, ds, rfl, hd⟩ := exists_cons_of_run hne hdigits
    exact ⟨d, _, rfl, (cut_digit hd).trans (cutNumber_fraction hdigits hdecimals hbehind)⟩
  | word hc hrest hbehind =>
    exact ⟨_, _, rfl, (cut_letter hc).trans (cutWord_word hc hrest hbehind)⟩
  | foreign hc hrest hpart hends =>
    exact ⟨_, _, rfl, (cut_letter hc).trans (cutWord_foreign hc hrest hpart hends)⟩
  | @sole c _ h =>
    refine ⟨c, behind, rfl, ?_⟩
    rw [isSoleSymbol_iff] at h
    rcases h with rfl | rfl | rfl | rfl | rfl | rfl | rfl | rfl | rfl | rfl <;> rfl
  | equal => exact ⟨'=', '=' :: behind, rfl, rfl⟩
  | starStar => exact ⟨'*', '*' :: behind, rfl, rfl⟩
  | unmatched => exact ⟨'*', '/' :: behind, rfl, rfl⟩
  | assign hbehind =>
    refine ⟨'=', behind, rfl, ?_⟩
    change cutSymbol '=' behind = _
    cases behind with
    | nil => rfl
    | cons d ds =>
      have hd : d ≠ '=' := by simpa using hbehind
      simp [cutSymbol, hd]
  | star hbehind =>
    refine ⟨'*', behind, rfl, ?_⟩
    change cutSymbol '*' behind = _
    cases behind with
    | nil => rfl
    | cons d ds =>
      have hd : d ≠ '*' ∧ d ≠ '/' := by simpa using hbehind
      simp [cutSymbol, hd]
  | @stray c _ h =>
    refine ⟨c, behind, rfl, ?_⟩
    simp only [isStray, Bool.and_eq_true, Bool.not_eq_true', decide_eq_true_eq] at h
    obtain ⟨⟨⟨⟨⟨hdigit, hblank⟩, hsymbol⟩, hletter⟩, hslash⟩, hhash⟩ := h
    simp [cut, hdigit, hblank, hsymbol, hletter, hslash, hhash]

/-- **A text begins with one piece only.** -/
theorem Rule.unique {piece' : Piece} {text' behind' : List Char} (h : Rule piece text behind)
    (h' : Rule piece' text' behind') (hsame : text ++ behind = text' ++ behind') :
    piece = piece' ∧ text = text' ∧ behind = behind' := by
  obtain ⟨c, cs, hfront, hcut⟩ := cut_of_rule h
  obtain ⟨c', cs', hfront', hcut'⟩ := cut_of_rule h'
  obtain ⟨rfl, rfl⟩ := List.cons.inj (hfront.symm.trans (hsame.trans hfront'))
  rw [hcut] at hcut'
  cases hcut'
  exact ⟨rfl, rfl, rfl⟩

end OnePass.Lexical
