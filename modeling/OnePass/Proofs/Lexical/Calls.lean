import OnePass.Proofs.Lexical.Pulls

/-!
# Calls of the scanner

A scanner that is asked for a piece gives one and has moved on, or the text is at its end. So it
is asked only so often before there is a token: each time before the last takes characters off.

* `Forward`: a scanner that has moved on. `nextPiece_forward`: every piece moves it.
* `Pulls`: how often a piece is asked for until there is a token. `pulls_pull`.
-/

namespace OnePass.Lexical.Scanner

variable {s s' s'' : Scanner}

/-- **The scanner has moved on:** it has taken characters off the text, and counted their bytes. -/
def Forward (s s' : Scanner) : Prop :=
  ∃ text, text ≠ [] ∧ s.ahead = text ++ s'.ahead ∧ s'.offset = s.offset + byteLength text

namespace Forward

theorem trans (h : s.Forward s') (h' : s'.Forward s'') : s.Forward s'' := by
  obtain ⟨text, hne, hahead, hoffset⟩ := h
  obtain ⟨text', -, hahead', hoffset'⟩ := h'
  refine ⟨text ++ text', by simp [hne], ?_, ?_⟩
  · rw [hahead, hahead', List.append_assoc]
  · rw [hoffset', hoffset, byteLength_append, Nat.add_assoc]

theorem offset_lt (h : s.Forward s') : s.offset < s'.offset := by
  obtain ⟨text, hne, -, hoffset⟩ := h
  have hpos : 0 < byteLength text := by
    cases text with
    | nil => exact absurd rfl hne
    | cons c rest => exact Nat.add_pos_left c.utf8Size_pos _
  omega

theorem length_lt (h : s.Forward s') : s'.ahead.length < s.ahead.length := by
  obtain ⟨text, hne, hahead, -⟩ := h
  have hpos := List.length_pos_iff.2 hne
  rw [hahead, List.length_append]
  omega

end Forward

theorem next?_forward {x : Scanned} (h : s.next? = some (x, s')) : s.Forward s' := by
  rw [next?_eq] at h
  split at h
  · cases h
  · rename_i c cs hahead
    cases h
    exact ⟨_, cut_text_ne_nil c cs, hahead.trans (cut_append c cs).symm, rfl⟩

/-- **Every piece moves the scanner on.** Only at the end of the text it stays. -/
theorem nextPiece_forward {y : Except Rejection Token} (h : s.nextPiece = (some y, s')) :
    s.Forward s' := by
  fun_induction nextPiece s with
  | case1 s => cases h
  | case2 s s₁ step _ ih => exact (next?_forward step).trans (ih h)
  | case3 s t s₁ step =>
    cases h
    exact next?_forward step
  | case4 s e s₁ step =>
    cases h
    exact next?_forward step

/-- **A token is asked for:** pieces are, so many times, until one of them is a token or the text is
at its end. -/
inductive Pulls : Scanner → Nat → Token → Scanner → Prop
  | atEnd {s s' : Scanner} (h : s.nextPiece = (none, s')) :
      Pulls s 1 (.endOfInput s'.line s'.offset) s'
  | token {s s' : Scanner} {t : Token} (h : s.nextPiece = (some (.ok t), s')) :
      Pulls s 1 t { s' with tokens := s'.tokens.push t }
  | rejected {s s' s'' : Scanner} {e : Rejection} {calls : Nat} {t : Token}
      (h : s.nextPiece = (some (.error e), s'))
      (hrest : Pulls { s' with errors := s'.errors.push e } calls t s'') :
      Pulls s (calls + 1) t s''

/-- **A pull ends,** and each of its calls takes a character off, but for one at the end. -/
theorem pulls_pull (s : Scanner) : ∃ calls, s.Pulls calls s.pull.1 s.pull.2 ∧
    calls + s.pull.2.ahead.length ≤
      s.ahead.length + if s.pull.1.isEndOfInput then 1 else 0 := by
  fun_induction pull s with
  | case1 s s₁ step =>
    have hshorter := (nextPiece_frame s).2.2
    rw [step] at hshorter
    refine ⟨1, .atEnd step, ?_⟩
    have hend : (Token.endOfInput s₁.line s₁.offset).isEndOfInput = true := rfl
    rw [if_pos hend]
    dsimp only at hshorter ⊢
    omega
  | case2 s t s₁ step =>
    have hshorter := (nextPiece_forward step).length_lt
    refine ⟨1, .token step, ?_⟩
    dsimp only
    omega
  | case3 s e s₁ step _ ih =>
    have hshorter := (nextPiece_forward step).length_lt
    obtain ⟨calls, hpulls, hcalls⟩ := ih
    refine ⟨calls + 1, .rejected step hpulls, ?_⟩
    dsimp only at hcalls ⊢
    omega

/-- The scanner after one more pull. -/
theorem after_succ (s : Scanner) (n : Nat) : s.after (n + 1) = (s.after n).pull.2 := by
  induction n generalizing s with
  | zero => rfl
  | succ n ih => exact ih s.pull.2

end OnePass.Lexical.Scanner
