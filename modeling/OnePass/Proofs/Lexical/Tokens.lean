import OnePass.Proofs.Lexical.Driving

/-!
# The tokens of a scan

A scan hands out tokens only: never the end marker, words sorted by the list of reserved
ones, numbers within range. There are no more of them than characters in the text.

* `Token.Fits`: what a token of a scan is like. `fits_of_mem_scan`.
* `length_scan_le`: the number of tokens.
-/

namespace OnePass.Lexical

open OnePass.Decimal (isDigit)

/-- **A token as a scan hands it out,** with these words reserved. -/
structure Token.Fits (keywords : List String) (t : Token) : Prop where
  notEnd : t.isEndOfInput = false
  identifier : t.kind = .identifier → keywords.contains t.lexeme = false
  keyword : t.kind = .keyword → keywords.contains t.lexeme = true
  number : t.kind = .number → ∃ digits : List Char, t.lexeme = String.ofList digits ∧ digits ≠ [] ∧
    digits.all isDigit = true ∧ Decimal.value digits ≤ Decimal.maxSigned64
  symbol : t.kind = .symbol → t.lexeme.toList.length ≤ 2

theorem cutNumber_number {text : List Char} (h : (cutNumber text).piece = .number) :
    (cutNumber text).text.all isDigit = true ∧
      Decimal.value (cutNumber text).text ≤ Decimal.maxSigned64 := by
  have hall : (text.takeWhile isDigit).all isDigit = true :=
    List.all_takeWhile
  have hvalue : ∀ digits, numberPiece digits = .number → Decimal.value digits ≤ Decimal.maxSigned64 := by
    intro digits h
    unfold numberPiece at h
    split at h
    · assumption
    · cases h
  unfold cutNumber at h ⊢
  split
  · rename_i hd
    rw [hd] at h
    exact ⟨hall, hvalue _ h⟩
  · rename_i c cs hd
    rw [hd] at h
    dsimp only at h ⊢
    split at h
    · cases h
    · split at h
      · cases h
      · rename_i h1 h2
        rw [if_neg h1, if_neg h2]
        exact ⟨hall, hvalue _ h⟩

/-- Only the rule for numbers makes a number. -/
theorem cut_number {c : Char} {cs : List Char} (h : (cut c cs).piece = .number) :
    (cut c cs).text.all isDigit = true ∧
      Decimal.value (cut c cs).text ≤ Decimal.maxSigned64 := by
  have hsymbol : ∀ c cs, (cutSymbol c cs).piece ≠ .number := by
    intro c cs
    unfold cutSymbol
    split <;> simp
  have hword : ∀ text, (cutWord text).piece ≠ .number := by
    intro text
    unfold cutWord
    repeat' split
    all_goals simp
  have hslash : ∀ cs, (cutSlash cs).piece ≠ .number := by
    intro cs
    unfold cutSlash
    repeat' split
    all_goals simp
  unfold cut at h ⊢
  split at h
  · rename_i hd
    rw [if_pos hd]
    exact cutNumber_number h
  · exfalso
    repeat' split at h
    · cases h
    · exact hsymbol _ _ h
    · exact hword _ h
    · exact hslash _ h
    · cases h
    · cases h

/-- Symbols are short. -/
theorem cut_symbol {c : Char} {cs : List Char} (h : (cut c cs).piece = .symbol) :
    (cut c cs).text.length ≤ 2 := by
  have hsymbol : ∀ c cs, (cutSymbol c cs).text.length ≤ 2 := by
    intro c cs
    unfold cutSymbol
    split <;> simp
  have hnumber : ∀ text, (cutNumber text).piece ≠ .symbol := by
    have hpiece : ∀ digits, numberPiece digits ≠ .symbol := by
      intro digits
      unfold numberPiece
      split <;> simp
    intro text
    unfold cutNumber
    repeat' split
    all_goals simp [hpiece]
  have hword : ∀ text, (cutWord text).piece ≠ .symbol := by
    intro text
    unfold cutWord
    repeat' split
    all_goals simp
  have hslash : ∀ cs, (cutSlash cs).piece ≠ .symbol := by
    intro cs
    unfold cutSlash
    repeat' split
    all_goals simp
  unfold cut at h ⊢
  repeat' split at h
  all_goals simp_all

namespace Scanner

variable {s s' : Scanner}

theorem next?_token {t : Token} (h : s.next? = some (.token t, s')) :
    t.Fits s.keywords ∧ s'.keywords = s.keywords ∧ s'.tokens = s.tokens := by
  rw [next?_eq] at h
  split at h
  · cases h
  · rename_i c cs _
    simp only [Option.some.injEq, Prod.mk.injEq] at h
    obtain ⟨h, rfl⟩ := h
    refine ⟨?_, rfl, rfl⟩
    unfold judge at h
    split at h
    · cases h
    · rename_i hp
      cases h
      have hn := cut_number hp
      refine ⟨rfl, by simp, by simp, fun _ => ?_, by simp⟩
      exact ⟨_, rfl, cut_text_ne_nil c cs, hn.1, hn.2⟩
    · cases h
      unfold wordKind
      split
      · rename_i hk
        exact ⟨rfl, by simp, fun _ => hk, by simp, by simp⟩
      · rename_i hk
        exact ⟨rfl, fun _ => Bool.not_eq_true _ |>.mp hk, by simp, by simp, by simp⟩
    · rename_i hp
      cases h
      exact ⟨rfl, by simp, by simp, by simp, fun _ => by simpa using cut_symbol hp⟩
    · cases h

theorem next?_frame {x : Scanned} (h : s.next? = some (x, s')) :
    s'.keywords = s.keywords ∧ s'.tokens = s.tokens := by
  rw [next?_eq] at h
  split at h
  · cases h
  · simp only [Option.some.injEq, Prod.mk.injEq] at h
    obtain ⟨-, rfl⟩ := h
    exact ⟨rfl, rfl⟩

theorem nextPiece_frame (s : Scanner) :
    s.nextPiece.2.keywords = s.keywords ∧ s.nextPiece.2.tokens = s.tokens ∧
      s.nextPiece.2.ahead.length ≤ s.ahead.length := by
  fun_induction nextPiece s with
  | case1 s => exact ⟨rfl, rfl, Nat.le_refl _⟩
  | case2 s s₁ step shorter ih =>
    have := next?_frame step
    exact ⟨ih.1.trans this.1, ih.2.1.trans this.2, Nat.le_trans ih.2.2 (Nat.le_of_lt shorter)⟩
  | case3 s t s₁ step =>
    exact ⟨(next?_frame step).1, (next?_frame step).2, Nat.le_of_lt (next?_ahead_lt step)⟩
  | case4 s e s₁ step =>
    exact ⟨(next?_frame step).1, (next?_frame step).2, Nat.le_of_lt (next?_ahead_lt step)⟩

theorem nextPiece_token {t : Token} (h : s.nextPiece = (some (.ok t), s')) : t.Fits s.keywords := by
  fun_induction nextPiece s with
  | case1 s => simp at h
  | case2 s s₁ step _ ih => exact (next?_frame step).1 ▸ ih h
  | case3 s t₁ s₁ step =>
    simp only [Prod.mk.injEq, Option.some.injEq, Except.ok.injEq] at h
    exact h.1 ▸ (next?_token step).1
  | case4 s e s₁ step => simp at h

theorem pull_frame {t : Token} (h : s.pull = (t, s')) :
    s'.keywords = s.keywords ∧ s'.ahead.length ≤ s.ahead.length ∧
      (if t.isEndOfInput then s'.tokens = s.tokens
        else s'.tokens = s.tokens.push t ∧ t.Fits s.keywords) := by
  fun_induction pull s with
  | case1 s s₁ step =>
    have hf := nextPiece_frame s
    rw [step] at hf
    simp only [Prod.mk.injEq] at h
    obtain ⟨rfl, rfl⟩ := h
    exact ⟨hf.1, hf.2.2, hf.2.1⟩
  | case2 s t₁ s₁ step =>
    have hf := nextPiece_frame s
    have ht := nextPiece_token step
    rw [step] at hf
    simp only [Prod.mk.injEq] at h
    obtain ⟨rfl, rfl⟩ := h
    refine ⟨hf.1, hf.2.2, ?_⟩
    rw [if_neg (by simp [ht.notEnd])]
    exact ⟨congrArg (·.push t₁) hf.2.1, ht⟩
  | case3 s e s₁ step _ ih =>
    have hf := nextPiece_frame s
    rw [step] at hf
    obtain ⟨h1, h2, h3⟩ := ih h
    dsimp only at h1 h2 h3
    rw [hf.1, hf.2.1] at h3
    exact ⟨h1.trans hf.1, Nat.le_trans h2 hf.2.2, h3⟩

/-- **Draining adds tokens that fit,** at most one for every character. -/
theorem drain_tokens (s : Scanner) : ∃ tokens : List Token,
    s.drain.tokens.toList = s.tokens.toList ++ tokens ∧ (∀ t ∈ tokens, t.Fits s.keywords) ∧
      tokens.length ≤ s.ahead.length := by
  fun_induction drain s with
  | case1 s t s₁ h last =>
    have hf := (pull_frame h).2.2
    rw [if_pos last] at hf
    exact ⟨[], by rw [hf, List.append_nil], by simp, Nat.zero_le _⟩
  | case2 s t s₁ h last shorter ih =>
    have hf := pull_frame h
    rw [if_neg last] at hf
    obtain ⟨tokens, h1, h2, h3⟩ := ih
    refine ⟨t :: tokens, ?_, ?_, ?_⟩
    · rw [h1, hf.2.2.1, Array.toList_push, List.append_assoc, List.singleton_append]
    · rw [List.forall_mem_cons]
      exact ⟨hf.2.2.2, hf.1 ▸ h2⟩
    · exact Nat.le_trans (Nat.succ_le_succ h3) shorter

end Scanner

variable {keywords : List String} {source : String}

/-- **The tokens of a scan fit.** -/
theorem fits_of_mem_scan {t : Token} (h : t ∈ (scan keywords source).tokens) : t.Fits keywords := by
  obtain ⟨tokens, h1, h2, -⟩ := (Scanner.start keywords source).drain_tokens
  refine h2 t ?_
  rw [scan, h1] at h
  exact h

/-- **There are no more tokens than characters.** -/
theorem length_scan_le : (scan keywords source).tokens.length ≤ source.toList.length := by
  obtain ⟨tokens, h1, -, h3⟩ := (Scanner.start keywords source).drain_tokens
  rw [scan, h1]
  exact h3

end OnePass.Lexical
