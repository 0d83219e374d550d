import OnePass.Proofs.Lexical.Driving

/-!
# Where the pieces of a text lie

The scanner counts bytes and lines as it goes, and counts back what it gives back. Between two
pieces its counters are those of the text that it has read, so that what it hands out can be cut
from the text.

* `Spans`: characters of a text, on a line and between two of its bytes.
* `Token.Lies`, `Rejection.Lies`: what a scan hands out is cut from the text.
* `Scanner.Standing`: a scanner whose counters are right. `lies_of_mem_tokens`,
  `lies_of_mem_errors`: whatever the text is.
-/

namespace OnePass.Lexical

/-- **Characters of a text** that begin on a line and lie between two of its bytes. Both of these
are ends of characters. -/
def Spans (whole text : List Char) (line start stop : Nat) : Prop :=
  ∃ before behind, whole = before ++ text ++ behind ∧ line = 1 + newlines before ∧
    start = byteLength before ∧ stop = start + byteLength text

/-- The lexeme of a token is what stands there. -/
def Token.Lies (source : String) (t : Token) : Prop :=
  Spans source.toList t.lexeme.toList t.line t.start t.stop

/-- What a rejection quotes is what stands there, or its beginning. -/
def Rejection.Lies (source : String) (e : Rejection) : Prop :=
  ∃ text, Spans source.toList text e.line e.start e.stop ∧ e.lexeme = Scanner.quoted e.fault text

theorem newlines_append (a b : List Char) : newlines (a ++ b) = newlines a + newlines b :=
  List.count_append

namespace Scanner

/-- **A scanner on its way through a text:** its counters are those of what it has read, and all
that it has handed out lies there. -/
structure Standing (source : String) (s : Scanner) : Prop where
  counters : ∃ before, source.toList = before ++ s.ahead ∧ s.line = 1 + newlines before ∧
    s.offset = byteLength before
  tokens : ∀ t ∈ s.tokens.toList, t.Lies source
  errors : ∀ e ∈ s.errors.toList, e.Lies source

variable {source : String} {s s' : Scanner} {x : Scanned}

theorem standing_start (keywords : List String) (source : String) :
    (start keywords source).Standing source where
  counters := ⟨[], rfl, rfl, rfl⟩
  tokens _ ht := absurd ht List.not_mem_nil
  errors _ he := absurd he List.not_mem_nil

/-- The scanner stands behind the piece that it has cut off. -/
theorem Standing.pass (h : s.Standing source) {text remainder : List Char}
    (hcut : text ++ remainder = s.ahead) : (s.pass text remainder).Standing source where
  counters := by
    obtain ⟨before, hwhole, hline, hoffset⟩ := h.counters
    refine ⟨before ++ text, ?_, ?_, ?_⟩
    · rw [hwhole, ← hcut, List.append_assoc]
      rfl
    · rw [newlines_append, ← Nat.add_assoc, ← hline]
      rfl
    · rw [byteLength_append, ← hoffset]
      rfl
  tokens := h.tokens
  errors := h.errors

/-- A token has the text of its piece, whatever kind it is. -/
theorem judge_token {piece : Piece} {text : List Char} {t : Token}
    (h : s.judge piece text = .token t) : t.lexeme = String.ofList text ∧ t.line = s.line ∧
      t.start = s.offset ∧ t.stop = s.offset + byteLength text := by
  unfold judge at h
  split at h <;> cases h <;> exact ⟨rfl, rfl, rfl, rfl⟩

theorem judge_rejected {piece : Piece} {text : List Char} {e : Rejection}
    (h : s.judge piece text = .rejected e) : e.lexeme = quoted e.fault text ∧ e.line = s.line ∧
      e.start = s.offset ∧ e.stop = s.offset + byteLength text := by
  unfold judge at h
  split at h <;> cases h
  exact ⟨rfl, rfl, rfl, rfl⟩

/-- **A piece that is cut off lies where the scanner stood.** -/
theorem Standing.next? (h : s.Standing source) (hnext : s.next? = some (x, s')) :
    s'.Standing source ∧ (∀ t, x = .token t → t.Lies source) ∧
      ∀ e, x = .rejected e → e.Lies source := by
  rw [next?_eq] at hnext
  split at hnext
  · cases hnext
  · rename_i c cs hahead
    simp only [Option.some.injEq, Prod.mk.injEq] at hnext
    obtain ⟨rfl, rfl⟩ := hnext
    have hcut : (cut c cs).text ++ (cut c cs).remainder = s.ahead := by rw [hahead, cut_append]
    have hspans : Spans source.toList (cut c cs).text s.line s.offset
        (s.offset + byteLength (cut c cs).text) := by
      obtain ⟨before, hwhole, hline, hoffset⟩ := h.counters
      exact ⟨before, (cut c cs).remainder, by rw [hwhole, ← hcut, List.append_assoc], hline,
        hoffset, rfl⟩
    refine ⟨h.pass hcut, fun t ht => ?_, fun e he => ?_⟩
    · obtain ⟨hlexeme, hline, hstart, hstop⟩ := judge_token ht
      rw [Token.Lies, hlexeme, hline, hstart, hstop, String.toList_ofList]
      exact hspans
    · obtain ⟨hlexeme, hline, hstart, hstop⟩ := judge_rejected he
      refine ⟨_, ?_, hlexeme⟩
      rw [hline, hstart, hstop]
      exact hspans

theorem Standing.nextPiece (h : s.Standing source) :
    s.nextPiece.2.Standing source ∧ (∀ t, s.nextPiece.1 = some (.ok t) → t.Lies source) ∧
      ∀ e, s.nextPiece.1 = some (.error e) → e.Lies source := by
  fun_induction Scanner.nextPiece s with
  | case1 s => exact ⟨h, fun _ hc => (by cases hc), fun _ hc => by cases hc⟩
  | case2 s s₁ step shorter ih => exact ih (h.next? step).1
  | case3 s t s₁ step =>
    obtain ⟨hs, ht, -⟩ := h.next? step
    refine ⟨hs, fun t' heq => ?_, fun _ hc => by cases hc⟩
    cases heq
    exact ht t rfl
  | case4 s e s₁ step =>
    obtain ⟨hs, -, he⟩ := h.next? step
    refine ⟨hs, fun _ hc => (by cases hc), fun e' heq => ?_⟩
    cases heq
    exact he e rfl

theorem Standing.pull (h : s.Standing source) : s.pull.2.Standing source := by
  fun_induction Scanner.pull s with
  | case1 s s₁ step =>
    have hs := h.nextPiece.1
    rw [step] at hs
    exact hs
  | case2 s t s₁ step =>
    obtain ⟨hs, ht, -⟩ := h.nextPiece
    rw [step] at hs ht
    refine ⟨hs.counters, fun t' ht' => ?_, hs.errors⟩
    rw [Array.toList_push, List.mem_append, List.mem_singleton] at ht'
    rcases ht' with ht' | rfl
    · exact hs.tokens t' ht'
    · exact ht _ rfl
  | case3 s e s₁ step shorter ih =>
    obtain ⟨hs, -, he⟩ := h.nextPiece
    rw [step] at hs he
    refine ih ⟨hs.counters, hs.tokens, fun e' he' => ?_⟩
    rw [Array.toList_push, List.mem_append, List.mem_singleton] at he'
    rcases he' with he' | rfl
    · exact hs.errors e' he'
    · exact he _ rfl

/-- **Through the whole text** the counters stay right. -/
theorem Standing.drain (h : s.Standing source) : s.drain.Standing source := by
  fun_induction Scanner.drain s with
  | case1 s t s₁ step last =>
    have hs := h.pull
    rw [step] at hs
    exact hs
  | case2 s t s₁ step last shorter ih =>
    have hs := h.pull
    rw [step] at hs
    exact ih hs

end Scanner

variable {keywords : List String} {source : String}

theorem lies_of_mem_tokens {t : Token} (h : t ∈ (scan keywords source).tokens) : t.Lies source :=
  (Scanner.standing_start keywords source).drain.tokens t h

theorem lies_of_mem_errors {e : Rejection} (h : e ∈ (scan keywords source).errors) :
    e.Lies source :=
  (Scanner.standing_start keywords source).drain.errors e h

end OnePass.Lexical
