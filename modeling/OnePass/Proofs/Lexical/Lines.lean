import OnePass.Proofs.Lexical.Segments
import OnePass.Proofs.Lexical.Spans

/-!
# The lines of tokens

The line counter of a scanner goes up at each newline that is taken and down at one that is given
back. From piece to piece it only goes up. So what a scan hands out comes in the order of its
lines, and the marker of the end stands on the last one.

* `pairwise_reports`: what segments amount to comes in the order of the lines.
* `pairwise_tokens`, `pairwise_errors`: so do the tokens and the rejected pieces of a text.
* `endMarker_scan`: where the marker of the end stands. `line_le_endMarker`: nothing is behind it.
-/

namespace OnePass.Lexical

/-- The line on which a token or a rejected piece begins. -/
def lineOf : Except Rejection Token → Nat
  | .ok t => t.line
  | .error e => e.line

section Order

variable {keywords : List String} {source : String}

/-- A segment is reported on the line that it begins on. -/
theorem line_of_report? {g : Segment} {line start : Nat} {x : Except Rejection Token}
    (h : g.report? keywords line start = some x) : lineOf x = line := by
  unfold Segment.report? at h
  dsimp only at h
  split at h <;> cases h <;> rfl

theorem le_line_of_mem_reports {segments : List Segment} {line start : Nat} :
    ∀ x ∈ reports keywords line start segments, line ≤ lineOf x := by
  induction segments generalizing line start with
  | nil => exact fun _ hx => absurd hx List.not_mem_nil
  | cons g segments ih =>
    intro x hx
    rw [reports, List.mem_append, Option.mem_toList] at hx
    rcases hx with hx | hx
    · exact Nat.le_of_eq (line_of_report? hx).symm
    · exact Nat.le_trans (Nat.le_add_right _ _) (ih x hx)

/-- **What segments amount to** comes in the order of the lines. -/
theorem pairwise_reports (segments : List Segment) (line start : Nat) :
    (reports keywords line start segments).Pairwise fun x y => lineOf x ≤ lineOf y := by
  -- the line goes along: behind a segment the others begin on the line that it ends on
  induction segments generalizing line start with
  | nil => exact .nil
  | cons g segments ih =>
    rw [reports, List.pairwise_append]
    refine ⟨?_, ih _ _, fun x hx y hy => ?_⟩
    · cases g.report? keywords line start with
      | none => exact .nil
      | some x => exact List.pairwise_singleton _ _
    · rw [Option.mem_toList] at hx
      rw [line_of_report? hx]
      exact Nat.le_trans (Nat.le_add_right _ _) (le_line_of_mem_reports y hy)

theorem pairwise_pieces (s : Scanner) : s.pieces.Pairwise fun x y => lineOf x ≤ lineOf y := by
  obtain ⟨segments, h⟩ := exists_segmented s.ahead
  rw [Scanner.pieces_of_segmented h]
  exact pairwise_reports segments s.line s.offset

/-- **Tokens come in the order of their lines.** -/
theorem pairwise_tokens (keywords : List String) (source : String) :
    ((scan keywords source).tokens.map (·.line)).Pairwise (· ≤ ·) := by
  have htokens := (Scanner.start keywords source).drain_pieces.1
  change (scan keywords source).tokens = _ at htokens
  rw [htokens, List.pairwise_map]
  refine (pairwise_pieces (Scanner.start keywords source)).filterMap _ fun x y hxy t ht u hu => ?_
  match x, y, ht, hu with
  | .ok _, .ok _, rfl, rfl => exact hxy

/-- **So do rejected pieces.** -/
theorem pairwise_errors (keywords : List String) (source : String) :
    ((scan keywords source).errors.map (·.line)).Pairwise (· ≤ ·) := by
  have herrors := (Scanner.start keywords source).drain_pieces.2
  change (scan keywords source).errors = _ at herrors
  rw [herrors, List.pairwise_map]
  refine (pairwise_pieces (Scanner.start keywords source)).filterMap _ fun x y hxy t ht u hu => ?_
  match x, y, ht, hu with
  | .error _, .error _, rfl, rfl => exact hxy

end Order

section End

namespace Scanner

variable {s s' : Scanner} {t : Token}

/-- No piece is left at the end of the text only. -/
theorem ahead_of_nextPiece_none (h : s.nextPiece = (none, s')) : s'.ahead = [] := by
  fun_induction Scanner.nextPiece s with
  | case1 s step =>
    cases h
    rw [next?_eq] at step
    split at step
    · assumption
    · cases step
  | case2 s s₁ step _ ih => exact ih h
  | case3 | case4 => cases h

theorem ahead_of_pull_end (h : s.pull = (t, s')) (hend : t.isEndOfInput = true) :
    s'.ahead = [] := by
  fun_induction Scanner.pull s with
  | case1 s s₁ step =>
    cases h
    exact ahead_of_nextPiece_none step
  | case2 s t₁ s₁ step =>
    cases h
    rw [(nextPiece_token step).notEnd] at hend
    cases hend
  | case3 s e s₁ step _ ih => exact ih h

/-- **A scanner that is drained** is at the end of the text. -/
theorem ahead_drain (s : Scanner) : s.drain.ahead = [] := by
  fun_induction Scanner.drain s with
  | case1 s t s₁ h last => exact ahead_of_pull_end h last
  | case2 s t s₁ h last _ ih => exact ih

end Scanner

variable {keywords : List String} {source : String}

/-- **The marker of the end** stands on the last line of the text, behind its last byte. -/
theorem endMarker_scan (keywords : List String) (source : String) :
    (scan keywords source).endMarker =
      .endOfInput (1 + newlines source.toList) (byteLength source.toList) := by
  obtain ⟨before, hwhole, hline, hoffset⟩ :=
    (Scanner.standing_start keywords source).drain.counters
  rw [Scanner.ahead_drain, List.append_nil] at hwhole
  rw [hwhole, ← hline, ← hoffset]
  rfl

/-- No token begins behind the last line. -/
theorem line_le_endMarker {t : Token} (h : t ∈ (scan keywords source).tokens) :
    t.line ≤ (scan keywords source).endMarker.line := by
  obtain ⟨before, behind, hwhole, hline, -, -⟩ := lies_of_mem_tokens h
  rw [endMarker_scan, hwhole, List.append_assoc, newlines_append, hline]
  change 1 + newlines before ≤ 1 + (newlines before + _)
  omega

end End

end OnePass.Lexical
