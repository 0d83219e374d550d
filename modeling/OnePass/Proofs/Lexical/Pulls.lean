import OnePass.Proofs.Lexical.Tokens

/-!
# Tokens one at a time

A scanner may be asked for its tokens one after the other, or for all of them at once. Both give
the same tokens, in the same order, and leave the same record.

* `Scanner.after`: a scanner that has been asked so many times.
* `pull_after`: the token that it gives next. `after_scan`: what it has recorded in the end.
-/

namespace OnePass.Lexical

namespace Scanner

/-- **The scanner after so many tokens** have been pulled. -/
def after (s : Scanner) : Nat → Scanner
  | 0 => s
  | n + 1 => s.pull.2.after n

variable {s s' : Scanner} {t : Token}

/-- A pull that gives no token gives the marker of where the scanner stands. -/
theorem pull_end (h : s.pull = (t, s')) (hend : t.isEndOfInput = true) :
    t = .endOfInput s'.line s'.offset := by
  fun_induction pull s with
  | case1 s s₁ step =>
    simp only [Prod.mk.injEq] at h
    obtain ⟨rfl, rfl⟩ := h
    rfl
  | case2 s t₁ s₁ step =>
    simp only [Prod.mk.injEq] at h
    rw [← h.1, (nextPiece_token step).notEnd] at hend
    cases hend
  | case3 s e s₁ step _ ih => exact ih h

/-- **Draining pulls token after token,** up to the marker of the end. -/
theorem drain_after (s : Scanner) : ∃ tokens : List Token,
    s.drain.tokens.toList = s.tokens.toList ++ tokens ∧ s.after (tokens.length + 1) = s.drain ∧
      ∀ n ≤ tokens.length, (s.after n).pull.1 =
        tokens[n]?.getD (.endOfInput s.drain.line s.drain.offset) := by
  fun_induction drain s with
  | case1 s t s₁ h last =>
    have hf := (pull_frame h).2.2
    rw [if_pos last] at hf
    refine ⟨[], by rw [hf, List.append_nil], by rw [List.length_nil, after, h, after], ?_⟩
    intro n hn
    obtain rfl : n = 0 := Nat.le_zero.1 hn
    rw [after, h]
    exact pull_end h last
  | case2 s t s₁ h last shorter ih =>
    have hf := (pull_frame h).2.2
    rw [if_neg last] at hf
    obtain ⟨tokens, htokens, hafter, hnext⟩ := ih
    refine ⟨t :: tokens, ?_, ?_, fun n hn => ?_⟩
    · rw [htokens, hf.1, Array.toList_push, List.append_assoc, List.singleton_append]
    · rw [List.length_cons, after, h]
      exact hafter
    · cases n with
      | zero =>
        rw [after, h]
        rfl
      | succ n =>
        rw [after, h, List.getElem?_cons_succ]
        exact hnext n (Nat.le_of_succ_le_succ hn)

end Scanner

variable (keywords : List String) (source : String)

/-- **Tokens that are pulled one by one** are those of the scan, and behind them the marker. -/
theorem pull_after {n : Nat} (hn : n ≤ (scan keywords source).tokens.length) :
    ((Scanner.start keywords source).after n).pull.1 =
      (scan keywords source).tokens[n]?.getD (scan keywords source).endMarker := by
  obtain ⟨tokens, htokens, -, hnext⟩ := (Scanner.start keywords source).drain_after
  have hscan : (scan keywords source).tokens = tokens := htokens
  rw [hscan] at hn ⊢
  exact hnext n hn

/-- **When all have been pulled,** the scanner has recorded what the scan has. -/
theorem after_scan : (Scanner.start keywords source).after
    ((scan keywords source).tokens.length + 1) = (Scanner.start keywords source).drain := by
  obtain ⟨tokens, htokens, hafter, -⟩ := (Scanner.start keywords source).drain_after
  have hscan : (scan keywords source).tokens = tokens := htokens
  rw [hscan]
  exact hafter

end OnePass.Lexical
