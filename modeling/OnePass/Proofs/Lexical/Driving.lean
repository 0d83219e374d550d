import OnePass.Lexical.Scanner
import OnePass.Proofs.Lexical.Rules

/-!
# Automata find the pieces

The scanner does not know the rules. It drives an automaton over the text, counts lines up
behind newlines and down again where one is given back, and weighs the text that it has come
over. All the same it stops behind the piece that the rules give, and weighs it as that piece
on the line that it begins on.

* `Scanner.judge`, `Scanner.pass`: what a piece amounts to, and the scanner behind it.
* `Scanner.drive_run`, `Scanner.drive_comment`: an automaton over a run, and over a comment.
* `Scanner.next?_of_rule`: what stands ahead by the rules is found.
* `Scanner.next?_eq`: so what is found is what is cut.
-/

namespace OnePass.Decimal

/-- **A run of digits** spells its value, if that has 64 bits. -/
theorem signed64?_of_digits {digits : List Char} (hne : digits ≠ [])
    (hdigits : ∀ c ∈ digits, isDigit c = true) : signed64? digits =
      if value digits ≤ maxSigned64 then some (value digits : Int) else none := by
  -- a sign is no digit
  have hsign : ∀ sign, isDigit sign = false → digits.head? ≠ some sign := by
    intro sign hsign hhead
    have hdigit := hdigits sign (List.mem_of_mem_head? hhead)
    rw [hsign] at hdigit
    cases hdigit
  have hread : digits? digits = some (value digits) :=
    if_pos (by simpa [hne] using hdigits)
  rw [signed64?, if_neg (hsign '-' rfl), natural?, if_neg (hsign '+' rfl), hread, Option.filter_some]
  split <;> simp_all

end OnePass.Decimal

namespace OnePass.Lexical

open OnePass.Decimal (isDigit)

/-- Only a blank or a comment goes over a line. -/
theorem newline_not_mem_of_rule {piece : Piece} {text behind : List Char}
    (h : Rule piece text behind) (hskipped : piece ≠ .skipped)
    (hcomment : piece ≠ .fault .unclosedComment) : '\n' ∉ text := by
  have hdigits : ∀ {run : List Char}, (∀ c ∈ run, Decimal.isDigit c = true) → '\n' ∉ run :=
    fun hrun hmem => absurd (hrun _ hmem) (by decide)
  have hletter : ∀ {c : Char}, isLetter c = true → '\n' ≠ c := by
    rintro c hc rfl
    exact absurd hc (by decide)
  have hword : ∀ {run : List Char}, (∀ c ∈ run, isWordPart c = true) → '\n' ∉ run :=
    fun hrun hmem => absurd (hrun _ hmem) (by decide)
  cases h with
  | blank | lineComment | blockComment => exact absurd rfl hskipped
  | unclosed => exact absurd rfl hcomment
  | slash | equal | assign | starStar | star | unmatched => decide
  | number _ hrun | tooLarge _ hrun => exact hdigits hrun
  | letter _ hrun hc => simp [hdigits hrun, hletter hc]
  | fraction _ hrun hdecimals => simp [hdigits hrun, hdigits hdecimals]
  | word hc hrest => simp [hletter hc, hword hrest]
  | @foreign _ d _ _ hc hrest _ hends =>
    have hd : '\n' ≠ d := by
      rintro rfl
      exact absurd hends (by decide)
    simp [hletter hc, hword hrest, hd]
  | sole h =>
    intro hmem
    rw [← List.mem_singleton.1 hmem] at h
    exact absurd h (by decide)
  | stray h =>
    intro hmem
    rw [← List.mem_singleton.1 hmem] at h
    exact absurd h (by decide)

namespace Scanner

/-- The quoted text of a rejected piece: all of it, but only the front of an unclosed comment. -/
def quoted (fault : LexicalFault) (text : List Char) : String :=
  if fault = .unclosedComment ∧ previewLength < text.length then
    String.ofList (text.take previewLength) ++ "..."
  else String.ofList text

/-- What a piece that begins where the scanner stands amounts to. -/
def judge (s : Scanner) (piece : Piece) (text : List Char) : Scanned :=
  let stop := s.offset + byteLength text
  let lexeme := String.ofList text
  match piece with
  | .skipped => .skipped
  | .number => .token ⟨.number, lexeme, s.line, s.offset, stop⟩
  | .word => .token ⟨s.wordKind lexeme, lexeme, s.line, s.offset, stop⟩
  | .symbol => .token ⟨.symbol, lexeme, s.line, s.offset, stop⟩
  | .fault cause => .rejected ⟨cause, quoted cause text, s.line, s.offset, stop⟩

/-- The scanner behind a piece of text, with `remainder` ahead. -/
def pass (s : Scanner) (text remainder : List Char) : Scanner :=
  { s with
    ahead := remainder
    offset := s.offset + byteLength text
    line := s.line + newlines text }

variable {s : Scanner} {a next last : Automaton} {verdict : Verdict} {c : Char}
  {text run rest behind : List Char}

/-! ### One character on, and one back -/

section Characters

@[simp] theorem ahead_pass (s : Scanner) (text behind : List Char) :
    (s.pass text behind).ahead = behind := rfl

theorem pass_nil (h : s.ahead = [] ++ behind) : s.pass [] behind = s := by
  rw [List.nil_append] at h
  subst h
  rfl

@[simp] theorem pass_pass (s : Scanner) (text rest text' rest' : List Char) :
    (s.pass text rest).pass text' rest' = s.pass (text ++ text') rest' := by
  simp only [pass, byteLength_append, newlines, List.count_append, Nat.add_assoc]

theorem advance_nil (h : s.ahead = []) : s.advance = (none, s) := by
  simp only [advance, h]

theorem advance_cons (h : s.ahead = c :: rest) : s.advance = (some c, s.pass [c] rest) := by
  have hline : (if c = '\n' then s.line + 1 else s.line) = s.line + newlines [c] := by
    by_cases hc : c = '\n'
    · simp [hc, newlines]
    · simp [hc, newlines]
  simp only [advance, h, hline, pass, byteLength, Nat.add_zero]

/-- **A character that is given back** leaves no trace, also in the count of lines. -/
theorem retreat_pass (h : s.ahead = c :: rest) : (s.pass [c] rest).retreat c = s := by
  have hline : (if c = '\n' then s.line + newlines [c] - 1 else s.line + newlines [c]) = s.line := by
    by_cases hc : c = '\n'
    · simp [hc, newlines]
    · simp [hc, newlines]
  simp only [retreat, pass, hline, ← h, byteLength, Nat.add_zero, Nat.add_sub_cancel]

end Characters

/-! ### An automaton at work -/

section Driving

theorem drive_of_running (h : a.step s.advance.1 = (.running, next)) :
    drive a s = drive next s.advance.2 := by
  rw [drive]
  split <;> rename_i heq <;> rw [h] at heq <;> cases heq
  · rfl
  · contradiction

theorem drive_of_verdict (h : a.step s.advance.1 = (verdict, last)) (hends : verdict ≠ .running) :
    drive a s = (verdict, last, s.advance.2.giveBack last s.advance.1) := by
  rw [drive]
  split <;> rename_i heq <;> rw [h] at heq <;> cases heq
  · contradiction
  · rfl

/-- It goes on behind a character. -/
theorem drive_on (h : s.ahead = c :: rest) (hstep : a.step (some c) = (.running, next)) :
    drive a s = drive next (s.pass [c] rest) := by
  have hadvance := advance_cons h
  rw [drive_of_running ((congrArg a.step (congrArg Prod.fst hadvance)).trans hstep), hadvance]

/-- It ends with a character of the piece. -/
theorem drive_upon (h : s.ahead = c :: rest) (hstep : a.step (some c) = (verdict, last))
    (hends : verdict ≠ .running) (hlast : last.lookahead = false) :
    drive a s = (verdict, last, s.pass [c] rest) := by
  have hadvance := advance_cons h
  rw [drive_of_verdict (by rw [hadvance, hstep]) hends, hadvance]
  simp [giveBack, hlast]

/-- It ends in front of a character, which is given back. -/
theorem drive_before (h : s.ahead = c :: rest) (hstep : a.step (some c) = (verdict, last))
    (hends : verdict ≠ .running) (hlast : last.lookahead = true) :
    drive a s = (verdict, last, s) := by
  have hadvance := advance_cons h
  rw [drive_of_verdict (by rw [hadvance, hstep]) hends, hadvance]
  simp [giveBack, hlast, retreat_pass h]

/-- It ends with the text. -/
theorem drive_end (h : s.ahead = []) (hstep : a.step none = (verdict, last)) :
    drive a s = (verdict, last, s) := by
  have hadvance := advance_nil h
  have hends := a.step_none
  rw [hstep] at hends
  rw [drive_of_verdict (by rw [hadvance, hstep]) hends, hadvance]
  rfl

/-- **It ends in front of what may stand there,** a character or the end of the text. -/
theorem drive_front {p : Char → Bool} (h : s.ahead = behind) (hfront : FrontIs p behind)
    (hends : verdict ≠ .running) (hlast : last.lookahead = true)
    (hnone : a.step none = (verdict, last))
    (hsome : ∀ c, p c = true → a.step (some c) = (verdict, last)) :
    drive a s = (verdict, last, s) := by
  cases behind with
  | nil => exact drive_end h hnone
  | cons c rest => exact drive_before h (hsome c (frontIs_cons.1 hfront)) hends hlast

/-- **A run** leaves it as it is. -/
theorem drive_run (h : s.ahead = run ++ rest)
    (hrun : ∀ c ∈ run, a.step (some c) = (.running, a)) :
    drive a s = drive a (s.pass run rest) := by
  induction run generalizing s with
  | nil => rw [pass_nil h]
  | cons c run ih =>
    rw [drive_on h (hrun c List.mem_cons_self),
      ih rfl fun d hd => hrun d (List.mem_cons_of_mem _ hd), pass_pass, List.singleton_append]

end Driving

/-! ### Comments -/

section Comments

/-- A block comment is open, and what stands ahead does not close it together with the star that
has just been read. -/
def InBlock (state : Nat) (ahead : List Char) : Prop :=
  state = 2 ∨ state = 3 ∧ ahead.head? ≠ some '/'

/-- **Through the body of a block comment** it goes on, as no closing mark begins there. -/
theorem drive_comment {state : Nat} (hbody : ¬closing <:+: text) (hstate : InBlock state text)
    (h : s.ahead = text ++ rest) : ∃ state', (state' = 2 ∨ state' = 3) ∧
      drive ⟨.comment, state, false⟩ s = drive ⟨.comment, state', false⟩ (s.pass text rest) := by
  -- the state goes along: behind a star no slash stands, and behind anything else it may
  induction text generalizing s state with
  | nil => exact ⟨state, hstate.imp_right And.left, by rw [pass_nil h]⟩
  | cons c text ih =>
    have hrest : ¬closing <:+: text := fun hin => hbody (List.infix_cons hin)
    have hon : ∃ next, InBlock next text ∧ Automaton.step ⟨.comment, state, false⟩ (some c) =
        (.running, ⟨.comment, next, false⟩) := by
      by_cases hc : c = '*'
      · refine ⟨3, .inr ⟨rfl, fun hhead => ?_⟩, ?_⟩
        · obtain ⟨after, rfl⟩ := List.head?_eq_some_iff.1 hhead
          exact hbody ⟨[], after, by rw [hc]; rfl⟩
        · rcases hstate with rfl | ⟨rfl, -⟩ <;>
            simp [Automaton.step, Automaton.stepComment, hc, Automaton.goTo]
      · refine ⟨2, .inl rfl, ?_⟩
        rcases hstate with rfl | ⟨rfl, hslash⟩
        · simp [Automaton.step, Automaton.stepComment, hc, Automaton.goTo]
        · have hslash : c ≠ '/' := fun heq => hslash (congrArg some heq)
          simp [Automaton.step, Automaton.stepComment, hc, hslash, Automaton.goTo]
    obtain ⟨next, hnext, hstep⟩ := hon
    obtain ⟨state', hstate', hthrough⟩ := ih hrest hnext (ahead_pass s [c] (text ++ rest))
    rw [pass_pass, List.singleton_append] at hthrough
    exact ⟨state', hstate', (drive_on h hstep).trans hthrough⟩

/-- Behind its opening mark a block comment is open. -/
theorem drive_opening (h : s.ahead = '/' :: '*' :: rest) :
    drive ⟨.comment, 0, false⟩ s = drive ⟨.comment, 2, false⟩ (s.pass ['/', '*'] rest) := by
  have hslash : Automaton.step ⟨.comment, 0, false⟩ (some '/') =
      (.running, ⟨.comment, 1, false⟩) := rfl
  have hstar : Automaton.step ⟨.comment, 1, false⟩ (some '*') =
      (.running, ⟨.comment, 2, false⟩) := rfl
  rw [drive_on h hslash, drive_on (ahead_pass ..) hstar, pass_pass, List.singleton_append]

/-- A block comment is closed by its first closing mark. -/
theorem drive_closed (hbody : ¬closing <:+: text ++ ['*'])
    (h : s.ahead = '/' :: '*' :: (text ++ closing ++ behind)) :
    drive ⟨.comment, 0, false⟩ s =
      (.accepted, ⟨.comment, 3, false⟩, s.pass ('/' :: '*' :: (text ++ closing)) behind) := by
  have hwhole : s.ahead = '/' :: '*' :: (text ++ '*' :: '/' :: behind) := by
    rw [h, List.append_assoc]
    rfl
  have hinside : ¬closing <:+: text := fun hin => hbody (hin.trans (List.infix_append' [] text ['*']))
  obtain ⟨state, hstate, hthrough⟩ :=
    drive_comment hinside (.inl rfl) (ahead_pass s ['/', '*'] (text ++ '*' :: '/' :: behind))
  have hstar : Automaton.step ⟨.comment, state, false⟩ (some '*') =
      (.running, ⟨.comment, 3, false⟩) := by
    rcases hstate with rfl | rfl <;> rfl
  have hslash : Automaton.step ⟨.comment, 3, false⟩ (some '/') =
      (.accepted, ⟨.comment, 3, false⟩) := rfl
  rw [drive_opening hwhole, hthrough, pass_pass, drive_on (ahead_pass ..) hstar, pass_pass,
    drive_upon (ahead_pass ..) hslash (by decide) rfl, pass_pass]
  simp [closing]

/-- One that is not closed reaches to the end of the text. -/
theorem drive_unclosed (hbody : ¬closing <:+: text) (h : s.ahead = '/' :: '*' :: text) :
    ∃ last : Automaton, last.kind = .comment ∧ last.inBlockComment = true ∧
      drive ⟨.comment, 0, false⟩ s = (.rejected, last, s.pass ('/' :: '*' :: text) []) := by
  rw [← List.append_nil text] at h
  obtain ⟨state, hstate, hthrough⟩ :=
    drive_comment hbody (.inl rfl) (ahead_pass s ['/', '*'] (text ++ []))
  have hends : Automaton.step ⟨.comment, state, false⟩ none =
      (.rejected, ⟨.comment, state, false⟩) := by
    rcases hstate with rfl | rfl <;> rfl
  refine ⟨⟨.comment, state, false⟩, rfl, ?_, ?_⟩
  · rcases hstate with rfl | rfl <;> rfl
  · rw [drive_opening h, hthrough, pass_pass, drive_end (ahead_pass ..) hends]
    rfl

/-- A comment to the end of the line leaves the newline where it is. -/
theorem drive_lineComment (hbody : '\n' ∉ text) (hbehind : FrontIs (· = '\n') behind)
    (h : s.ahead = '#' :: (text ++ behind)) : ∃ last : Automaton, last.kind = .comment ∧
      drive ⟨.comment, 0, false⟩ s = (.accepted, last, s.pass ('#' :: text) behind) := by
  have hrun : ∀ c ∈ text, Automaton.step ⟨.comment, 4, false⟩ (some c) =
      (.running, ⟨.comment, 4, false⟩) := by
    intro c hc
    have hne : c ≠ '\n' := fun heq => hbody (heq ▸ hc)
    simp [Automaton.step, Automaton.stepComment, hne]
  have hhash : Automaton.step ⟨.comment, 0, false⟩ (some '#') =
      (.running, ⟨.comment, 4, false⟩) := rfl
  rw [drive_on h hhash, drive_run (ahead_pass ..) hrun, pass_pass, List.singleton_append]
  cases behind with
  | nil =>
    have hends : Automaton.step ⟨.comment, 4, false⟩ none = (.accepted, ⟨.comment, 4, false⟩) := rfl
    exact ⟨_, rfl, drive_end (ahead_pass ..) hends⟩
  | cons c rest =>
    obtain rfl : c = '\n' := by simpa using hbehind
    have hends : Automaton.step ⟨.comment, 4, false⟩ (some '\n') =
        (.accepted, ⟨.comment, 4, true⟩) := rfl
    exact ⟨_, rfl, drive_before (ahead_pass ..) hends (by decide) rfl⟩

end Comments

/-! ### Numbers and words -/

section Words

/-- Through a run of digits. -/
theorem drive_digits (hne : run ≠ []) (hrun : ∀ c ∈ run, isDigit c = true)
    (h : s.ahead = run ++ rest) :
    drive ⟨.number, 0, false⟩ s = drive ⟨.number, 1, false⟩ (s.pass run rest) := by
  obtain ⟨c, run, rfl, hc⟩ := exists_cons_of_run hne hrun
  have hfirst : Automaton.step ⟨.number, 0, false⟩ (some c) = (.running, ⟨.number, 1, false⟩) := by
    simp [Automaton.step, Automaton.stepNumber, hc, Automaton.goTo]
  have hmore : ∀ d ∈ run, Automaton.step ⟨.number, 1, false⟩ (some d) =
      (.running, ⟨.number, 1, false⟩) := by
    intro d hd
    simp [Automaton.step, Automaton.stepNumber, hrun d (List.mem_cons_of_mem _ hd)]
  rw [List.cons_append] at h
  rw [drive_on h hfirst, drive_run (ahead_pass ..) hmore, pass_pass, List.singleton_append]

theorem drive_number (hne : run ≠ []) (hrun : ∀ c ∈ run, isDigit c = true)
    (hbehind : FrontIs endsNumber behind) (h : s.ahead = run ++ behind) :
    drive ⟨.number, 0, false⟩ s = (.accepted, ⟨.number, 1, true⟩, s.pass run behind) := by
  rw [drive_digits hne hrun h]
  refine drive_front (ahead_pass ..) hbehind (by decide) rfl rfl fun c hc => ?_
  simp only [endsNumber, Bool.and_eq_true, Bool.not_eq_true', decide_eq_true_eq] at hc
  simp [Automaton.step, Automaton.stepNumber, hc, Automaton.acceptBefore]

/-- A letter behind digits is taken along. -/
theorem drive_letter (hne : run ≠ []) (hrun : ∀ c ∈ run, isDigit c = true)
    (hc : isLetter c = true) (h : s.ahead = run ++ [c] ++ behind) :
    drive ⟨.number, 0, false⟩ s = (.rejected, ⟨.number, 1, false⟩, s.pass (run ++ [c]) behind) := by
  rw [List.append_assoc, List.singleton_append] at h
  have hstep : Automaton.step ⟨.number, 1, false⟩ (some c) = (.rejected, ⟨.number, 1, false⟩) := by
    simp [Automaton.step, Automaton.stepNumber, isDigit_of_isLetter hc, hc]
  rw [drive_digits hne hrun h, drive_upon (ahead_pass ..) hstep (by decide) rfl, pass_pass]

/-- A fraction is read whole. -/
theorem drive_fraction (hne : run ≠ []) (hrun : ∀ c ∈ run, isDigit c = true)
    (hdecimals : ∀ c ∈ text, isDigit c = true) (hbehind : FrontIs (!isDigit ·) behind)
    (h : s.ahead = run ++ '.' :: text ++ behind) :
    drive ⟨.number, 0, false⟩ s =
      (.rejected, ⟨.number, 2, true⟩, s.pass (run ++ '.' :: text) behind) := by
  rw [List.append_assoc, List.cons_append] at h
  have hdot : Automaton.step ⟨.number, 1, false⟩ (some '.') =
      (.running, ⟨.number, 2, false⟩) := by decide
  have hmore : ∀ d ∈ text, Automaton.step ⟨.number, 2, false⟩ (some d) =
      (.running, ⟨.number, 2, false⟩) := by
    intro d hd
    simp [Automaton.step, Automaton.stepNumber, hdecimals d hd]
  rw [drive_digits hne hrun h, drive_on (ahead_pass ..) hdot, pass_pass,
    drive_run (ahead_pass ..) hmore, pass_pass, List.append_assoc, List.singleton_append]
  refine drive_front (ahead_pass ..) hbehind (by decide) rfl rfl fun c hc => ?_
  have hc : isDigit c = false := by simpa using hc
  simp [Automaton.step, Automaton.stepNumber, hc, Automaton.rejectBefore]

/-- Through a word. -/
theorem drive_letters (hc : isLetter c = true) (hrun : ∀ c ∈ run, isWordPart c = true)
    (h : s.ahead = c :: run ++ rest) :
    drive ⟨.word, 0, false⟩ s = drive ⟨.word, 1, false⟩ (s.pass (c :: run) rest) := by
  have hfirst : Automaton.step ⟨.word, 0, false⟩ (some c) = (.running, ⟨.word, 1, false⟩) := by
    simp [Automaton.step, Automaton.stepWord, hc, Automaton.goTo]
  have hmore : ∀ d ∈ run, Automaton.step ⟨.word, 1, false⟩ (some d) =
      (.running, ⟨.word, 1, false⟩) := by
    intro d hd
    simp [Automaton.step, Automaton.stepWord, hrun d hd]
  rw [List.cons_append] at h
  rw [drive_on h hfirst, drive_run (ahead_pass ..) hmore, pass_pass, List.singleton_append]

theorem drive_word (hc : isLetter c = true) (hrun : ∀ c ∈ run, isWordPart c = true)
    (hbehind : FrontIs endsWord behind) (h : s.ahead = c :: run ++ behind) :
    drive ⟨.word, 0, false⟩ s = (.accepted, ⟨.word, 1, true⟩, s.pass (c :: run) behind) := by
  rw [drive_letters hc hrun h]
  refine drive_front (ahead_pass ..) hbehind (by decide) rfl rfl fun d hd => ?_
  simp [Automaton.step, Automaton.stepWord, isWordPart_of_endsWord hd, hd, Automaton.acceptBefore]

/-- A foreign character behind a word is taken along. -/
theorem drive_foreign {d : Char} (hc : isLetter c = true) (hrun : ∀ c ∈ run, isWordPart c = true)
    (hpart : isWordPart d = false) (hends : endsWord d = false)
    (h : s.ahead = c :: run ++ [d] ++ behind) :
    drive ⟨.word, 0, false⟩ s = (.rejected, ⟨.word, 1, false⟩, s.pass (c :: run ++ [d]) behind) := by
  rw [List.append_assoc, List.singleton_append] at h
  have hstep : Automaton.step ⟨.word, 1, false⟩ (some d) = (.rejected, ⟨.word, 1, false⟩) := by
    simp [Automaton.step, Automaton.stepWord, hpart, hends]
  rw [drive_letters hc hrun h, drive_upon (ahead_pass ..) hstep (by decide) rfl, pass_pass]

end Words

/-! ### Symbols -/

section Symbols

/-- A sign of two characters. -/
theorem drive_pair {d : Char} {state : Nat} (h : s.ahead = [c, d] ++ behind)
    (hfirst : Automaton.step ⟨.symbol, 0, false⟩ (some c) = (.running, ⟨.symbol, state, false⟩))
    (hsecond : Automaton.step ⟨.symbol, state, false⟩ (some d) = (verdict, ⟨.symbol, state, false⟩))
    (hends : verdict ≠ .running) : drive ⟨.symbol, 0, false⟩ s =
      (verdict, ⟨.symbol, state, false⟩, s.pass [c, d] behind) := by
  rw [List.cons_append, List.singleton_append] at h
  rw [drive_on h hfirst, drive_upon (ahead_pass ..) hsecond hends rfl, pass_pass]
  rfl

end Symbols

/-! ### What a piece amounts to -/

section Weighing

theorem upTo_pass (h : s.ahead = text ++ behind) : s.upTo (s.pass text behind) = text := by
  have hlength : s.ahead.length - behind.length = text.length := by
    rw [h, List.length_append, Nat.add_sub_cancel]
  rw [upTo, ahead_pass, hlength, h, List.take_left']
  rfl

/-- Behind a piece without a newline the scanner is on the line that the piece begins on. -/
theorem line_pass (hline : '\n' ∉ text) : (s.pass text behind).line = s.line := by
  have hnone : newlines text = 0 := List.count_eq_zero.2 hline
  change s.line + newlines text = s.line
  rw [hnone, Nat.add_zero]

theorem tokenTo_pass (kind : Automaton.Kind) (h : s.ahead = text ++ behind)
    (hline : '\n' ∉ text) : s.tokenTo (s.pass text behind) kind =
      .token ⟨s.kindOf kind (String.ofList text), String.ofList text, s.line, s.offset,
        s.offset + byteLength text⟩ := by
  rw [tokenTo, lexemeTo, upTo_pass h, line_pass hline]
  rfl

theorem rejectedTo_pass {cause : LexicalFault} (h : s.ahead = text ++ behind)
    (hline : '\n' ∉ text) (hcause : cause ≠ .unclosedComment) :
    s.rejectedTo (s.pass text behind) cause = s.judge (.fault cause) text := by
  have hquoted : quoted cause text = String.ofList text := if_neg fun h => hcause h.1
  rw [rejectedTo, lexemeTo, upTo_pass h, line_pass hline, judge, hquoted]
  rfl

/-- There are more bytes than quoted just if there are more characters. -/
theorem byteLength_take_lt_iff {count : Nat} {text : List Char} :
    byteLength (text.take count) < byteLength text ↔ count < text.length := by
  have hsplit : byteLength text = byteLength (text.take count) + byteLength (text.drop count) := by
    rw [← byteLength_append, List.take_append_drop]
  constructor
  · intro hlt
    by_contra hle
    rw [List.take_of_length_le (Nat.le_of_not_lt hle)] at hlt
    exact Nat.lt_irrefl _ hlt
  · intro hlt
    obtain ⟨c, rest, hdrop⟩ := List.exists_cons_of_length_pos
      (l := text.drop count) (by rw [List.length_drop]; omega)
    have hpos := c.utf8Size_pos
    rw [hsplit, hdrop, byteLength]
    omega

theorem unclosedTo_pass (h : s.ahead = text) :
    s.unclosedTo (s.pass text []) = s.judge (.fault .unclosedComment) text := by
  have hbytes : (s.pass text []).offset - s.offset = byteLength text := Nat.add_sub_cancel_left ..
  have hquoted : String.ofList (text.take previewLength) ++
      (if byteLength (text.take previewLength) < byteLength text then "..." else "") =
        quoted .unclosedComment text := by
    unfold quoted
    by_cases hlong : previewLength < text.length
    · rw [if_pos (byteLength_take_lt_iff.2 hlong), if_pos ⟨rfl, hlong⟩]
    · rw [if_neg (mt byteLength_take_lt_iff.1 hlong), if_neg fun h => hlong h.2,
        List.take_of_length_le (Nat.le_of_not_lt hlong), String.append_empty]
  rw [unclosedTo, h, hbytes, hquoted]
  rfl

end Weighing

/-! ### The pieces of the rules -/

section Pieces

variable {piece : Piece}

theorem next?_of_drive {s' : Scanner} (h : s.ahead = c :: rest)
    (hselect : Automaton.select? c = some a) (hdrive : drive a s = (verdict, last, s')) :
    s.next? = some (s.weigh s' verdict last, s') := by
  simp only [next?, h, hselect, hdrive]

theorem select?_digit (hc : isDigit c = true) :
    Automaton.select? c = some ⟨.number, 0, false⟩ := if_pos hc

theorem select?_letter (hc : isLetter c = true) :
    Automaton.select? c = some ⟨.word, 0, false⟩ := by
  obtain ⟨hdigit, hblank, hsymbol⟩ := plain_of_isLetter hc
  simp [Automaton.select?, hdigit, hblank, hsymbol, hc]

/-- A number that an automaton accepts is one if it has 64 bits only. -/
theorem next?_number (hne : run ≠ []) (hrun : ∀ c ∈ run, isDigit c = true)
    (hbehind : FrontIs endsNumber behind) (hline : '\n' ∉ run) (h : s.ahead = run ++ behind) :
    s.next? = some (s.judge (numberPiece run) run, s.pass run behind) := by
  obtain ⟨c, rest, hfront, hc⟩ := exists_cons_of_run hne hrun
  have hahead : s.ahead = c :: (rest ++ behind) := by rw [h, hfront, List.cons_append]
  rw [next?_of_drive hahead (select?_digit hc) (drive_number hne hrun hbehind h)]
  unfold weigh numberPiece
  rw [upTo_pass h, Decimal.signed64?_of_digits hne hrun]
  by_cases hvalue : Decimal.value run ≤ Decimal.maxSigned64
  · simp only [if_pos hvalue, Option.isNone_some, tokenTo_pass _ h hline]
    rfl
  · simp only [if_neg hvalue, Option.isNone_none, if_true]
    rw [rejectedTo_pass h hline (by decide)]

/-- A symbol that an automaton accepts. -/
theorem next?_symbol (h : s.ahead = c :: rest)
    (hselect : Automaton.select? c = some ⟨.symbol, 0, false⟩) (hkind : last.kind = .symbol)
    (hsame : s.ahead = text ++ behind) (hline : '\n' ∉ text)
    (hdrive : drive ⟨.symbol, 0, false⟩ s = (.accepted, last, s.pass text behind)) :
    s.next? = some (s.judge .symbol text, s.pass text behind) := by
  rw [next?_of_drive h hselect hdrive]
  simp only [weigh, hkind, tokenTo_pass _ hsame hline, kindOf, judge]

/-- **What stands ahead of a scanner by the rules, it finds.** -/
theorem next?_of_rule (hrule : Rule piece text behind) (h : s.ahead = text ++ behind) :
    s.next? = some (s.judge piece text, s.pass text behind) := by
  have hline := newline_not_mem_of_rule hrule
  cases hrule with
  | @blank c _ hc =>
    have hselect : Automaton.select? c = some ⟨.blank, 0, false⟩ := by
      rcases isBlank_iff.1 hc with rfl | rfl | rfl | rfl | rfl | rfl <;> rfl
    have hstep : Automaton.step ⟨.blank, 0, false⟩ (some c) = (.accepted, ⟨.blank, 0, false⟩) := by
      simp [Automaton.step, Automaton.stepBlank, hc]
    exact next?_of_drive h hselect (drive_upon h hstep (by decide) rfl)
  | lineComment hbody hbehind =>
    obtain ⟨last, hkind, hdrive⟩ := drive_lineComment hbody hbehind h
    rw [next?_of_drive h rfl hdrive]
    simp [weigh, hkind, judge]
  | blockComment hbody => exact next?_of_drive h rfl (drive_closed hbody h)
  | unclosed hbody =>
    rw [List.append_nil] at h
    obtain ⟨last, hkind, hinside, hdrive⟩ := drive_unclosed hbody h
    rw [next?_of_drive h rfl hdrive, ← unclosedTo_pass h]
    simp [weigh, hkind, hinside]
  | slash hbehind =>
    have hslash : Automaton.step ⟨.comment, 0, false⟩ (some '/') =
        (.running, ⟨.comment, 1, false⟩) := rfl
    have hdrive : drive ⟨.comment, 0, false⟩ s =
        (.rejected, ⟨.comment, 1, true⟩, s.pass ['/'] behind) := by
      rw [drive_on h hslash]
      refine drive_front (ahead_pass ..) hbehind (by decide) rfl rfl fun c hc => ?_
      simp [Automaton.step, Automaton.stepComment, of_decide_eq_true hc, Automaton.rejectBefore]
    rw [next?_of_drive h rfl hdrive, ← rejectedTo_pass h (hline (by simp) (by simp)) (by decide)]
    rfl
  | number hne hrun hbehind hvalue =>
    have hpiece : numberPiece text = .number := if_pos hvalue
    exact hpiece ▸ next?_number hne hrun hbehind (hline (by simp) (by simp)) h
  | tooLarge hne hrun hbehind hvalue =>
    have hpiece : numberPiece text = .fault .invalidNumber := if_neg (Nat.not_le_of_lt hvalue)
    exact hpiece ▸ next?_number hne hrun hbehind (hline (by simp) (by simp)) h
  | letter hne hrun hc =>
    obtain ⟨d, rest, rfl, hd⟩ := exists_cons_of_run hne hrun
    rw [next?_of_drive h (select?_digit hd) (drive_letter hne hrun hc h),
      ← rejectedTo_pass h (hline (by simp) (by simp)) (by decide)]
    rfl
  | fraction hne hrun hdecimals hbehind =>
    obtain ⟨d, rest, rfl, hd⟩ := exists_cons_of_run hne hrun
    rw [next?_of_drive h (select?_digit hd) (drive_fraction hne hrun hdecimals hbehind h),
      ← rejectedTo_pass h (hline (by simp) (by simp)) (by decide)]
    rfl
  | word hc hrest hbehind =>
    rw [next?_of_drive h (select?_letter hc) (drive_word hc hrest hbehind h)]
    simp only [weigh, tokenTo_pass _ h (hline (by simp) (by simp)), kindOf, judge]
  | foreign hc hrest hpart hends =>
    rw [next?_of_drive h (select?_letter hc) (drive_foreign hc hrest hpart hends h),
      ← rejectedTo_pass h (hline (by simp) (by simp)) (by decide)]
    rfl
  | @sole c _ hc =>
    have hselect : Automaton.select? c = some ⟨.symbol, 0, false⟩ := by
      rcases isSoleSymbol_iff.1 hc with rfl | rfl | rfl | rfl | rfl | rfl | rfl | rfl | rfl | rfl <;>
        rfl
    have hstep : Automaton.step ⟨.symbol, 0, false⟩ (some c) = (.accepted, ⟨.symbol, 0, false⟩) := by
      simp [Automaton.step, Automaton.stepSymbol, hc]
    exact next?_symbol h hselect rfl h (hline (by simp) (by simp))
      (drive_upon h hstep (by decide) rfl)
  | equal => exact next?_symbol h rfl rfl h (by decide) (drive_pair h rfl rfl (by decide))
  | assign hbehind =>
    have hfirst : Automaton.step ⟨.symbol, 0, false⟩ (some '=') =
        (.running, ⟨.symbol, 1, false⟩) := rfl
    have hdrive : drive ⟨.symbol, 0, false⟩ s =
        (.accepted, ⟨.symbol, 1, true⟩, s.pass ['='] behind) := by
      rw [drive_on h hfirst]
      refine drive_front (ahead_pass ..) hbehind (by decide) rfl rfl fun c hc => ?_
      simp [Automaton.step, Automaton.stepSymbol, of_decide_eq_true hc, Automaton.acceptBefore]
    exact next?_symbol h rfl rfl h (by decide) hdrive
  | starStar => exact next?_symbol h rfl rfl h (by decide) (drive_pair h rfl rfl (by decide))
  | star hbehind =>
    have hfirst : Automaton.step ⟨.symbol, 0, false⟩ (some '*') =
        (.running, ⟨.symbol, 2, false⟩) := rfl
    have hdrive : drive ⟨.symbol, 0, false⟩ s =
        (.accepted, ⟨.symbol, 2, true⟩, s.pass ['*'] behind) := by
      rw [drive_on h hfirst]
      refine drive_front (ahead_pass ..) hbehind (by decide) rfl rfl fun c hc => ?_
      have hc : c ≠ '*' ∧ c ≠ '/' := by simpa using hc
      simp [Automaton.step, Automaton.stepSymbol, hc, Automaton.acceptBefore]
    exact next?_symbol h rfl rfl h (by decide) hdrive
  | unmatched =>
    have hdrive : drive ⟨.symbol, 0, false⟩ s =
        (.rejected, ⟨.symbol, 2, false⟩, s.pass closing behind) := drive_pair h rfl rfl (by decide)
    have hlexeme : s.lexemeTo (s.pass closing behind) = "*/" := by
      rw [lexemeTo, upTo_pass h]
      rfl
    rw [next?_of_drive h rfl hdrive, ← rejectedTo_pass h (by decide) (by decide)]
    simp only [weigh, hlexeme, if_true]
  | @stray c _ hc =>
    have hselect : Automaton.select? c = none := by
      simp only [isStray, Bool.and_eq_true, Bool.not_eq_true', decide_eq_true_eq] at hc
      simp [Automaton.select?, hc]
    rw [List.singleton_append] at h
    have hadvance := advance_cons h
    simp only [next?, h, hselect, hadvance]
    rw [rejectedTo_pass h (hline (by simp) (by simp)) (by decide)]

/-- **What is found is what is cut** from the text ahead. -/
theorem next?_eq (s : Scanner) : s.next? = match s.ahead with
    | [] => none
    | c :: cs => some (s.judge (cut c cs).piece (cut c cs).text,
        s.pass (cut c cs).text (cut c cs).remainder) := by
  split
  · rename_i h
    simp only [next?, h]
  · rename_i c cs h
    exact next?_of_rule (rule_cut c cs) (h.trans (cut_append c cs).symm)

end Pieces


end Scanner
end OnePass.Lexical
