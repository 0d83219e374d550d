import Mathlib.Data.String.Basic
import OnePass.Proofs.Lexical.Segments
import OnePass.Proofs.Lexical.Spans

/-!
# One text behind another

Where a text ends with a blank that is skipped, nothing of it reads on into what follows. What
is scanned behind it is scanned as if it stood alone, some lines and bytes further on.

* `segmentsOf`: the segments of a text, computed. `EndsBlank`: the last of them is a blank.
* `Segmented.append`: the segments of both texts are those of the whole.
* `reports_append`, `reports_shift`: so are the tokens and the rejected pieces, which move along.
* `scan_append`: **scanning composes.**
-/

namespace OnePass.Lexical

/-! ### Segments, computed -/

/-- The first segments of a text, so many at most. -/
def takeApart : Nat → List Char → List Segment
  | 0, _ => []
  | _ + 1, [] => []
  | n + 1, c :: cs => ⟨(cut c cs).piece, (cut c cs).text⟩ :: takeApart n (cut c cs).remainder

/-- **The segments of a text,** of which there are no more than characters. -/
def segmentsOf (text : List Char) : List Segment := takeApart text.length text

/-- **The scan of a text ends by skipping a blank,** which is part of nothing else. -/
def EndsBlank (text : List Char) : Prop :=
  ∃ c, isBlank c = true ∧ (segmentsOf text).getLast? = some ⟨.skipped, [c]⟩

theorem segmented_takeApart {n : Nat} {text : List Char} (h : text.length ≤ n) :
    Segmented (takeApart n text) text := by
  induction n generalizing text with
  | zero => exact List.eq_nil_of_length_eq_zero (Nat.le_zero.1 h)
  | succ n ih =>
    cases text with
    | nil => rfl
    | cons c cs =>
      have hshorter := cut_remainder_lt c cs
      exact ⟨_, (cut_append c cs).symm, rule_cut c cs, ih (by omega)⟩

theorem segmented_segmentsOf (text : List Char) : Segmented (segmentsOf text) text :=
  segmented_takeApart (Nat.le_refl _)

variable {segments other : List Segment} {text more : List Char}

theorem Segmented.segmentsOf_eq (h : Segmented segments text) : segmentsOf text = segments :=
  (segmented_segmentsOf text).unique h

/-- In whatever way a text is found to be taken apart, the last segment is the blank. -/
theorem endsBlank_iff : EndsBlank text ↔ ∃ segments c, isBlank c = true ∧
    Segmented (segments ++ [⟨.skipped, [c]⟩]) text := by
  constructor
  · rintro ⟨c, hc, hlast⟩
    obtain ⟨segments, hsegments⟩ := List.getLast?_eq_some_iff.1 hlast
    exact ⟨segments, c, hc, hsegments ▸ segmented_segmentsOf text⟩
  · rintro ⟨segments, c, hc, h⟩
    exact ⟨c, hc, by rw [h.segmentsOf_eq, List.getLast?_concat]⟩

/-! ### Segments of both texts -/

theorem FrontIs.append {p : Char → Bool} {behind : List Char} (h : FrontIs p behind)
    (hne : behind ≠ []) : FrontIs p (behind ++ more) := by
  unfold FrontIs at h ⊢
  rwa [List.head?_append_of_ne_nil _ hne]

/-- A piece with something behind it does not look any further. -/
theorem Rule.append {piece : Piece} {behind : List Char} (h : Rule piece text behind)
    (hne : behind ≠ []) : Rule piece text (behind ++ more) := by
  cases h with
  | blank h => exact .blank h
  | lineComment hbody hbehind => exact .lineComment hbody (hbehind.append hne)
  | blockComment hbody => exact .blockComment hbody
  -- the one piece that more text could close
  | unclosed => exact absurd rfl hne
  | slash hbehind => exact .slash (hbehind.append hne)
  | number h hdigits hbehind hvalue => exact .number h hdigits (hbehind.append hne) hvalue
  | tooLarge h hdigits hbehind hvalue => exact .tooLarge h hdigits (hbehind.append hne) hvalue
  | letter h hdigits hc => exact .letter h hdigits hc
  | fraction h hdigits hdecimals hbehind =>
    exact .fraction h hdigits hdecimals (hbehind.append hne)
  | word hc hrest hbehind => exact .word hc hrest (hbehind.append hne)
  | foreign hc hrest hpart hends => exact .foreign hc hrest hpart hends
  | sole h => exact .sole h
  | equal => exact .equal
  | assign hbehind => exact .assign (hbehind.append hne)
  | starStar => exact .starStar
  | star hbehind => exact .star (hbehind.append hne)
  | unmatched => exact .unmatched
  | stray h => exact .stray h

/-- **The segments of two texts** are those of the whole, if the first text ends with a blank. -/
theorem Segmented.append {c : Char} (hc : isBlank c = true)
    (h : Segmented (segments ++ [⟨.skipped, [c]⟩]) text) (h' : Segmented other more) :
    Segmented (segments ++ [⟨.skipped, [c]⟩] ++ other) (text ++ more) := by
  induction segments generalizing text with
  | nil =>
    obtain ⟨behind, rfl, -, hbehind⟩ := h
    obtain rfl : behind = [] := hbehind
    exact ⟨more, by rw [List.append_nil], .blank hc, h'⟩
  | cons g segments ih =>
    obtain ⟨behind, rfl, hrule, hrest⟩ := h
    -- the blank at the end is behind every other segment
    have hne : behind ≠ [] := by
      rintro rfl
      have hflat := hrest.flatten_eq
      simp at hflat
    exact ⟨behind ++ more, List.append_assoc .., hrule.append hne, ih hrest⟩

/-! ### What they amount to -/

/-- A token some lines and bytes further on. -/
def Token.shift (lines bytes : Nat) (t : Token) : Token :=
  { t with line := t.line + lines, start := t.start + bytes, stop := t.stop + bytes }

/-- A rejected piece some lines and bytes further on. -/
def Rejection.shift (lines bytes : Nat) (e : Rejection) : Rejection :=
  { e with line := e.line + lines, start := e.start + bytes, stop := e.stop + bytes }

def shiftReport (lines bytes : Nat) : Except Rejection Token → Except Rejection Token
  | .ok t => .ok (t.shift lines bytes)
  | .error e => .error (e.shift lines bytes)

variable (keywords : List String)

theorem report?_shift (g : Segment) (line start lines bytes : Nat) :
    g.report? keywords (line + lines) (start + bytes) =
      (g.report? keywords line start).map (shiftReport lines bytes) := by
  obtain ⟨piece, text⟩ := g
  have hstop : start + bytes + byteLength text = start + byteLength text + bytes :=
    Nat.add_right_comm ..
  cases piece <;> simp [Segment.report?, shiftReport, Token.shift, Rejection.shift, hstop]

/-- **Segments further on** amount to the same, further on. -/
theorem reports_shift (segments : List Segment) (line start lines bytes : Nat) :
    reports keywords (line + lines) (start + bytes) segments =
      (reports keywords line start segments).map (shiftReport lines bytes) := by
  induction segments generalizing line start with
  | nil => rfl
  | cons g segments ih =>
    have hline : line + lines + newlines g.text = line + newlines g.text + lines :=
      Nat.add_right_comm ..
    have hstart : start + bytes + byteLength g.text = start + byteLength g.text + bytes :=
      Nat.add_right_comm ..
    rw [reports, reports, hline, hstart, ih, report?_shift, Option.toList_map, List.map_append]

theorem tokens_shift (lines bytes : Nat) (reports : List (Except Rejection Token)) :
    (reports.map (shiftReport lines bytes)).filterMap Except.toOption =
      (reports.filterMap Except.toOption).map (Token.shift lines bytes) := by
  rw [List.filterMap_map, List.map_filterMap]
  congr 1
  funext x
  cases x <;> rfl

theorem errors_shift (lines bytes : Nat) (reports : List (Except Rejection Token)) :
    (reports.map (shiftReport lines bytes)).filterMap rejection? =
      (reports.filterMap rejection?).map (Rejection.shift lines bytes) := by
  rw [List.filterMap_map, List.map_filterMap]
  congr 1
  funext x
  cases x <;> rfl

theorem reports_append (h : Segmented segments text) (other : List Segment) (line start : Nat) :
    reports keywords line start (segments ++ other) = reports keywords line start segments ++
      reports keywords (line + newlines text) (start + byteLength text) other := by
  induction segments generalizing text line start with
  | nil =>
    obtain rfl : text = [] := h
    rfl
  | cons g segments ih =>
    obtain ⟨behind, rfl, -, hrest⟩ := h
    rw [List.cons_append, reports, reports, ih hrest, newlines_append, byteLength_append,
      List.append_assoc, Nat.add_assoc, Nat.add_assoc]

theorem byteLength_toList (s : String) : byteLength s.toList = s.utf8ByteSize := by
  have hlen : ∀ text : List Char, byteLength text = String.utf8Len text := by
    intro text
    induction text with
    | nil => rfl
    | cons c text ih =>
      rw [byteLength, String.utf8Len_cons, ih, Nat.add_comm]
  rw [hlen, ← String.utf8ByteSize_ofList, String.ofList_toList]

/-- **The scan of a text** is what its segments amount to. -/
theorem scan_of_segmented {source : String} (h : Segmented segments source.toList) :
    (scan keywords source).tokens = (reports keywords 1 0 segments).filterMap Except.toOption ∧
      (scan keywords source).errors = (reports keywords 1 0 segments).filterMap rejection? := by
  have hpieces : (Scanner.start keywords source).pieces = reports keywords 1 0 segments :=
    Scanner.pieces_of_segmented h
  rw [← hpieces]
  exact (Scanner.start keywords source).drain_pieces

/-- Whether a segment is rejected. -/
def Segment.isFault (g : Segment) : Bool :=
  match g.piece with
  | .fault _ => true
  | _ => false

/-- Where no segment is rejected there is no error, whatever words are reserved. -/
theorem rejections_eq_nil (h : ∀ g ∈ segments, g.isFault = false) (line start : Nat) :
    (reports keywords line start segments).filterMap rejection? = [] := by
  induction segments generalizing line start with
  | nil => rfl
  | cons g segments ih =>
    obtain ⟨hfirst, hrest⟩ := List.forall_mem_cons.1 h
    rw [reports, List.filterMap_append, ih hrest, List.append_nil]
    obtain ⟨piece, text⟩ := g
    cases piece with
    | fault cause => cases hfirst
    | _ => rfl

/-- **Scanning composes.** Behind a text that ends with a blank a second text is scanned as if it
stood alone, as many lines and bytes further on as the first one takes. -/
theorem scan_append {s t : String} (h : EndsBlank s.toList) :
    (scan keywords (s ++ t)).tokens = (scan keywords s).tokens ++
        (scan keywords t).tokens.map (Token.shift (newlines s.toList) s.utf8ByteSize) ∧
      (scan keywords (s ++ t)).errors = (scan keywords s).errors ++
        (scan keywords t).errors.map (Rejection.shift (newlines s.toList) s.utf8ByteSize) := by
  obtain ⟨segments, c, hc, hs⟩ := endsBlank_iff.1 h
  obtain ⟨other, ht⟩ := exists_segmented t.toList
  have hwhole : Segmented (segments ++ [⟨.skipped, [c]⟩] ++ other) (s ++ t).toList := by
    rw [String.toList_append]
    exact hs.append hc ht
  obtain ⟨htokens, herrors⟩ := scan_of_segmented keywords hwhole
  obtain ⟨hfirst, hfirst'⟩ := scan_of_segmented keywords hs
  obtain ⟨hsecond, hsecond'⟩ := scan_of_segmented keywords ht
  rw [reports_append keywords hs, byteLength_toList, reports_shift, List.filterMap_append]
    at htokens herrors
  rw [htokens, herrors, tokens_shift, errors_shift, hfirst, hfirst', hsecond, hsecond']
  exact ⟨rfl, rfl⟩

end OnePass.Lexical
