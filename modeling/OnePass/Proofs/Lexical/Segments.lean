import OnePass.Proofs.Lexical.Tokens

/-!
# The segments of a text

A text is taken apart from its beginning to its end into pieces that follow the rules, in one way
only. What a scanner hands out is what the pieces amount to where they begin, in their order;
blanks and comments amount to nothing.

* `Segmented`: a text as a row of pieces, each by the rules in front of those behind it.
* `reports`: the tokens and rejected pieces that the segments amount to.
* `Scanner.pieces`: what a scanner hands out when it is asked again and again.
* `segmentation_of_text`: both are the same, whatever the text is.
-/

namespace OnePass.Lexical

/-- A stretch of text and what it turned out to be. -/
structure Segment where
  piece : Piece
  text : List Char
deriving DecidableEq

/-- **A text taken apart:** each segment is a piece by the rules, with the rest behind it. -/
def Segmented : List Segment → List Char → Prop
  | [], text => text = []
  | g :: segments, text =>
    ∃ behind, text = g.text ++ behind ∧ Rule g.piece g.text behind ∧ Segmented segments behind

/-- What a segment amounts to that begins on a line, behind so many bytes. -/
def Segment.report? (keywords : List String) (line start : Nat) (g : Segment) :
    Option (Except Rejection Token) :=
  let lexeme := String.ofList g.text
  let stop := start + byteLength g.text
  match g.piece with
  | .skipped => none
  | .number => some (.ok ⟨.number, lexeme, line, start, stop⟩)
  | .word =>
    some (.ok ⟨if lexeme ∈ keywords then .keyword else .identifier, lexeme, line, start, stop⟩)
  | .symbol => some (.ok ⟨.symbol, lexeme, line, start, stop⟩)
  | .fault cause => some (.error ⟨cause, Scanner.quoted cause g.text, line, start, stop⟩)

/-- **What the segments of a text amount to,** in their order. -/
def reports (keywords : List String) : Nat → Nat → List Segment → List (Except Rejection Token)
  | _, _, [] => []
  | line, start, g :: segments =>
    (g.report? keywords line start).toList ++
      reports keywords (line + newlines g.text) (start + byteLength g.text) segments

/-- The rejected piece, if it is one. -/
def rejection? : Except Rejection Token → Option Rejection
  | .ok _ => none
  | .error e => some e

variable {segments : List Segment} {text : List Char}

/-- The segments make up the text, each once and in order. -/
theorem Segmented.flatten_eq (h : Segmented segments text) :
    (segments.map Segment.text).flatten = text := by
  induction segments generalizing text with
  | nil => exact h.symm
  | cons g segments ih =>
    obtain ⟨behind, rfl, -, hrest⟩ := h
    rw [List.map_cons, List.flatten_cons, ih hrest]

/-- **Every text can be taken apart:** what is cut from it is a piece, and less is left. -/
theorem exists_segmented (text : List Char) : ∃ segments, Segmented segments text := by
  induction hn : text.length using Nat.strongRecOn generalizing text with
  | ind n ih =>
    cases text with
    | nil => exact ⟨[], rfl⟩
    | cons c cs =>
      obtain ⟨segments, hrest⟩ := ih _ (hn ▸ cut_remainder_lt c cs) _ rfl
      exact ⟨⟨_, _⟩ :: segments, _, (cut_append c cs).symm, rule_cut c cs, hrest⟩

/-- No piece is by the rules at the end of a text. -/
theorem Rule.append_ne_nil {piece : Piece} {behind : List Char} (h : Rule piece text behind) :
    text ++ behind ≠ [] := by
  intro hnil
  obtain ⟨c, cs, hfront, -⟩ := cut_of_rule h
  cases hnil.symm.trans hfront

/-- **There is one way to do it,** as a text begins with one piece only. -/
theorem Segmented.unique {other : List Segment} (h : Segmented segments text)
    (h' : Segmented other text) : segments = other := by
  induction segments generalizing text other with
  | nil =>
    cases other with
    | nil => rfl
    | cons g other =>
      obtain ⟨behind, hsplit, hrule, -⟩ := h'
      exact absurd (hsplit.symm.trans h) hrule.append_ne_nil
  | cons g segments ih =>
    obtain ⟨behind, rfl, hrule, hrest⟩ := h
    cases other with
    | nil => exact absurd h' hrule.append_ne_nil
    | cons g' other =>
      obtain ⟨behind', hsplit, hrule', hrest'⟩ := h'
      obtain ⟨hpiece, htext, rfl⟩ := hrule.unique hrule' hsplit
      obtain rfl : g = g' := by
        cases g
        cases g'
        exact congrArg₂ Segment.mk hpiece htext
      rw [ih hrest hrest']

namespace Scanner

variable {s s' : Scanner} {x : Scanned} {y : Except Rejection Token}

/-- **What a scanner hands out** until it has nothing left. -/
def pieces (s : Scanner) : List (Except Rejection Token) :=
  match h : s.nextPiece with
  | (none, _) => []
  | (some y, s') =>
    have := nextPiece_ahead_lt h
    y :: pieces s'
termination_by s.ahead.length

theorem pieces_eq_nil (h : s.nextPiece = (none, s')) : s.pieces = [] := by
  rw [pieces]
  split
  · rfl
  · rename_i hsome
    cases h.symm.trans hsome

theorem pieces_eq_cons (h : s.nextPiece = (some y, s')) : s.pieces = y :: s'.pieces := by
  rw [pieces]
  split
  · rename_i hnone
    cases h.symm.trans hnone
  · rename_i hsome
    cases h.symm.trans hsome
    rfl

theorem nextPiece_of_none (h : s.next? = none) : s.nextPiece = (none, s) := by
  rw [nextPiece]
  split <;> rename_i hnext <;> cases h.symm.trans hnext
  rfl

theorem nextPiece_of_some (h : s.next? = some (x, s')) :
    s.nextPiece = match x with
      | .skipped => s'.nextPiece
      | .token t => (some (.ok t), s')
      | .rejected e => (some (.error e), s') := by
  rw [nextPiece]
  split <;> rename_i hnext <;> cases h.symm.trans hnext <;> rfl

/-- A skipped piece is not noticed. -/
theorem pieces_of_skipped (h : s.next? = some (.skipped, s')) : s.pieces = s'.pieces := by
  have hsame := nextPiece_of_some h
  cases hnext : s'.nextPiece with
  | mk y s₁ =>
    rw [hnext] at hsame
    cases y with
    | none => rw [pieces_eq_nil hsame, pieces_eq_nil hnext]
    | some y => rw [pieces_eq_cons hsame, pieces_eq_cons hnext]

/-- **One segment** is handed out as what it amounts to. -/
theorem pieces_of_rule {g : Segment} {behind : List Char} (h : Rule g.piece g.text behind)
    (hahead : s.ahead = g.text ++ behind) :
    s.pieces = (g.report? s.keywords s.line s.offset).toList ++ (s.pass g.text behind).pieces := by
  have hnext := next?_of_rule h hahead
  obtain ⟨piece, text⟩ := g
  cases piece with
  | skipped => exact pieces_of_skipped hnext
  | number => exact pieces_eq_cons (nextPiece_of_some hnext)
  | word =>
    have hkind : s.wordKind (String.ofList text) =
        if String.ofList text ∈ s.keywords then .keyword else .identifier := by
      simp [wordKind]
    rw [pieces_eq_cons (nextPiece_of_some hnext), hkind]
    rfl
  | symbol => exact pieces_eq_cons (nextPiece_of_some hnext)
  | fault cause => exact pieces_eq_cons (nextPiece_of_some hnext)

/-- **All segments** are handed out, in their order. -/
theorem pieces_of_segmented (h : Segmented segments s.ahead) :
    s.pieces = reports s.keywords s.line s.offset segments := by
  induction segments generalizing s with
  | nil =>
    have hnext : s.next? = none := by
      have hahead : s.ahead = [] := h
      simp only [next?_eq, hahead]
    exact pieces_eq_nil (nextPiece_of_none hnext)
  | cons g segments ih =>
    obtain ⟨behind, hahead, hrule, hrest⟩ := h
    rw [pieces_of_rule hrule hahead, ih hrest]
    rfl

/-- What is still handed out does not depend on what has been. -/
theorem pieces_congr (hkeywords : s.keywords = s'.keywords) (hahead : s.ahead = s'.ahead)
    (hoffset : s.offset = s'.offset) (hline : s.line = s'.line) : s.pieces = s'.pieces := by
  obtain ⟨segments, h⟩ := exists_segmented s.ahead
  have h' : Segmented segments s'.ahead := hahead ▸ h
  rw [pieces_of_segmented h, pieces_of_segmented h', hkeywords, hoffset, hline]

theorem nextPiece_errors (s : Scanner) : s.nextPiece.2.errors = s.errors := by
  have hframe : ∀ {s s' : Scanner} {x : Scanned}, s.next? = some (x, s') → s'.errors = s.errors := by
    intro s s' x h
    rw [next?_eq] at h
    split at h <;> cases h
    rfl
  fun_induction nextPiece s with
  | case1 s => rfl
  | case2 s s₁ step _ ih => exact ih.trans (hframe step)
  | case3 s t s₁ step => exact hframe step
  | case4 s e s₁ step => exact hframe step

/-- **A pull** takes the rejected pieces before the next token, and the token. -/
theorem pull_pieces {t : Token} (h : s.pull = (t, s')) : ∃ errors : List Rejection,
    s'.errors.toList = s.errors.toList ++ errors ∧ s.pieces = errors.map .error ++
      if t.isEndOfInput then [] else .ok t :: s'.pieces := by
  fun_induction pull s with
  | case1 s s₁ step =>
    have herrors := nextPiece_errors s
    rw [step] at herrors
    cases h
    refine ⟨[], by rw [List.append_nil, ← herrors], ?_⟩
    rw [pieces_eq_nil step]
    rfl
  | case2 s t₁ s₁ step =>
    have herrors := nextPiece_errors s
    rw [step] at herrors
    cases h
    refine ⟨[], by rw [List.append_nil, ← herrors], ?_⟩
    rw [if_neg (by simp [(nextPiece_token step).notEnd]), pieces_eq_cons step]
    exact congrArg _ (pieces_congr rfl rfl rfl rfl)
  | case3 s e s₁ step _ ih =>
    have herrors := nextPiece_errors s
    rw [step] at herrors
    obtain ⟨errors, hadded, hpieces⟩ := ih h
    refine ⟨e :: errors, ?_, ?_⟩
    · rw [hadded, herrors, Array.toList_push, List.append_assoc, List.singleton_append]
    · have hsame : s₁.pieces = { s₁ with errors := s₁.errors.push e }.pieces :=
        pieces_congr rfl rfl rfl rfl
      rw [pieces_eq_cons step, hsame, hpieces]
      rfl

/-- **Draining records every piece,** the tokens and the rejected ones apart. -/
theorem drain_pieces (s : Scanner) :
    s.drain.tokens.toList = s.tokens.toList ++ s.pieces.filterMap Except.toOption ∧
      s.drain.errors.toList = s.errors.toList ++ s.pieces.filterMap rejection? := by
  have hmap : ∀ errors : List Rejection,
      (errors.map .error : List (Except Rejection Token)).filterMap Except.toOption = [] ∧
        (errors.map .error).filterMap rejection? = errors := by
    intro errors
    induction errors with
    | nil => exact ⟨rfl, rfl⟩
    | cons e errors ih => exact ⟨ih.1, congrArg (e :: ·) ih.2⟩
  fun_induction drain s with
  | case1 s t s₁ h last =>
    obtain ⟨errors, herrors, hpieces⟩ := pull_pieces h
    have hframe := (pull_frame h).2.2
    rw [if_pos last] at hframe hpieces
    rw [hpieces, List.append_nil, (hmap errors).1, (hmap errors).2, hframe]
    exact ⟨(List.append_nil _).symm, herrors⟩
  | case2 s t s₁ h last shorter ih =>
    obtain ⟨errors, herrors, hpieces⟩ := pull_pieces h
    have hframe := (pull_frame h).2.2
    rw [if_neg last] at hframe hpieces
    rw [hpieces, List.filterMap_append, List.filterMap_append, (hmap errors).1, (hmap errors).2]
    constructor
    · rw [ih.1, hframe.1, Array.toList_push, List.append_assoc]
      rfl
    · rw [ih.2, herrors, List.append_assoc]
      rfl

end Scanner

/-- **The lexical rules.** Every text is taken apart by them in one way. The segments make up the
text, each once and in order, and what a scanner hands out one by one, and records in the end,
is what they amount to. -/
theorem segmentation_of_text (keywords : List String) (source : String) :
    ∃ segments, Segmented segments source.toList ∧
      (∀ other, Segmented other source.toList → other = segments) ∧
      (segments.map Segment.text).flatten = source.toList ∧
      (Scanner.start keywords source).pieces = reports keywords 1 0 segments ∧
      (scan keywords source).tokens =
        (reports keywords 1 0 segments).filterMap Except.toOption ∧
      (scan keywords source).errors = (reports keywords 1 0 segments).filterMap rejection? := by
  obtain ⟨segments, h⟩ := exists_segmented source.toList
  have hpieces : (Scanner.start keywords source).pieces = reports keywords 1 0 segments :=
    Scanner.pieces_of_segmented h
  obtain ⟨htokens, herrors⟩ := (Scanner.start keywords source).drain_pieces
  rw [hpieces] at htokens herrors
  exact ⟨segments, h, fun other h' => h'.unique h, h.flatten_eq, hpieces, htokens, herrors⟩

end OnePass.Lexical
