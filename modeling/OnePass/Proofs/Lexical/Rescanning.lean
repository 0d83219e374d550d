import OnePass.Proofs.Lexical.Composition

/-!
# Scanning what was scanned

Where a token ends depends on what is behind it, and a blank ends every token where it ended
before. So the lexemes of a text, one blank between each two, are scanned as the same tokens.

* `Rule.before_blank`: what is a token somewhere is one in front of a blank.
* `spaced`: segments with blanks between them. `segmented_spaced`: tokens among them stay whole.
* `Token.spelling`: what a token is, wherever it stands.
* `scan_lexemes`: **scanning is stable.**
-/

namespace OnePass.Lexical

/-! ### Tokens in front of a blank -/

theorem FrontIs.mono {p q : Char → Bool} {behind : List Char} (h : FrontIs p behind)
    (hpq : ∀ c, p c = true → q c = true) : FrontIs q behind :=
  fun c hc => hpq c (h c hc)

/-- A blank ends whatever can be ended. -/
theorem ends_of_isBlank {c : Char} (h : isBlank c = true) :
    endsNumber c = true ∧ endsWord c = true ∧ c ≠ '=' ∧ c ≠ '*' ∧ c ≠ '/' := by
  rw [isBlank_iff] at h
  rcases h with rfl | rfl | rfl | rfl | rfl | rfl <;> decide

/-- Whether a segment is a token. -/
def Segment.isToken (g : Segment) : Bool :=
  match g.piece with
  | .number | .word | .symbol => true
  | _ => false

/-- **What is a token somewhere is one in front of a blank,** and at the end of a text. -/
theorem Rule.before_blank {g : Segment} {behind other : List Char} (htoken : g.isToken = true)
    (h : Rule g.piece g.text behind) (hother : FrontIs isBlank other) :
    Rule g.piece g.text other := by
  obtain ⟨piece, text⟩ := g
  dsimp only at h ⊢
  cases h with
  | number hne hdigits _ hvalue =>
    exact .number hne hdigits (hother.mono fun c hc => (ends_of_isBlank hc).1) hvalue
  | word hc hrest =>
    exact .word hc hrest (hother.mono fun c hc => (ends_of_isBlank hc).2.1)
  | sole h => exact .sole h
  | equal => exact .equal
  | assign => exact .assign (hother.mono fun c hc => decide_eq_true (ends_of_isBlank hc).2.2.1)
  | starStar => exact .starStar
  | star =>
    refine .star (hother.mono fun c hc => ?_)
    obtain ⟨-, -, -, hstar, hslash⟩ := ends_of_isBlank hc
    simp [hstar, hslash]
  | _ => cases htoken

variable {segments : List Segment} {text : List Char}

/-- Every segment is a piece by the rules. -/
theorem Segmented.rule_of_mem (h : Segmented segments text) :
    ∀ g ∈ segments, ∃ behind, Rule g.piece g.text behind := by
  induction segments generalizing text with
  | nil => exact nofun
  | cons g segments ih =>
    obtain ⟨behind, -, hrule, hrest⟩ := h
    exact List.forall_mem_cons.2 ⟨⟨behind, hrule⟩, ih hrest⟩

/-- Segments with one blank between each two. -/
def spaced (segments : List Segment) : List Segment := segments.intersperse ⟨.skipped, [' ']⟩

theorem mem_spaced {g : Segment} (h : g ∈ spaced segments) :
    g ∈ segments ∨ g = ⟨.skipped, [' ']⟩ := by
  induction segments with
  | nil => cases h
  | cons g' segments ih =>
    cases segments with
    | nil => exact .inl h
    | cons g'' segments =>
      rw [spaced, List.intersperse_cons_cons, List.mem_cons, List.mem_cons] at h
      rcases h with rfl | rfl | h
      · exact .inl List.mem_cons_self
      · exact .inr rfl
      · exact (ih h).imp_left (List.mem_cons_of_mem _)

/-- **Tokens with blanks between them** are the segments of the text that they make up. -/
theorem segmented_spaced
    (h : ∀ g ∈ segments, g.isToken = true ∧ ∃ behind, Rule g.piece g.text behind) :
    Segmented (spaced segments) ([' '].intercalate (segments.map Segment.text)) := by
  induction segments with
  | nil => rfl
  | cons g segments ih =>
    obtain ⟨⟨htoken, behind, hrule⟩, hrest⟩ := List.forall_mem_cons.1 h
    cases segments with
    | nil => exact ⟨[], by simp, hrule.before_blank htoken frontIs_nil, rfl⟩
    | cons g' segments =>
      rw [List.map_cons, List.intercalate_cons_of_ne_nil (by simp), List.append_assoc]
      exact ⟨_, rfl, hrule.before_blank htoken (frontIs_cons.2 rfl), _, rfl, .blank rfl, ih hrest⟩

/-! ### Spellings -/

/-- **What a token is,** wherever it stands. -/
def Token.spelling (t : Token) : TokenKind × String := (t.kind, t.lexeme)

/-- What token a segment is, if it is one. -/
def Segment.spelling? (keywords : List String) (g : Segment) : Option (TokenKind × String) :=
  let lexeme := String.ofList g.text
  match g.piece with
  | .number => some (.number, lexeme)
  | .word => some (if lexeme ∈ keywords then .keyword else .identifier, lexeme)
  | .symbol => some (.symbol, lexeme)
  | _ => none

variable (keywords : List String)

/-- Where a text begins does not matter for what its tokens are. -/
theorem spellings_reports (segments : List Segment) (line start : Nat) :
    ((reports keywords line start segments).filterMap Except.toOption).map Token.spelling =
      segments.filterMap (Segment.spelling? keywords) := by
  induction segments generalizing line start with
  | nil => rfl
  | cons g segments ih =>
    rw [reports, List.filterMap_append, List.map_append, ih]
    obtain ⟨piece, text⟩ := g
    cases piece <;> rfl

theorem spelling?_of_not_isToken {g : Segment} (h : g.isToken = false) :
    g.spelling? keywords = none := by
  obtain ⟨piece, text⟩ := g
  cases piece with
  | number | word | symbol => cases h
  | _ => rfl

theorem lexeme_of_isToken {g : Segment} (h : g.isToken = true) :
    (g.spelling? keywords).map Prod.snd = some (String.ofList g.text) := by
  obtain ⟨piece, text⟩ := g
  cases piece with
  | number | word | symbol => rfl
  | _ => cases h

/-- The tokens among the segments are spelled as all segments are. -/
theorem spellings_filter (segments : List Segment) :
    (segments.filter Segment.isToken).filterMap (Segment.spelling? keywords) =
      segments.filterMap (Segment.spelling? keywords) := by
  induction segments with
  | nil => rfl
  | cons g segments ih =>
    cases h : g.isToken with
    | true => rw [List.filter_cons_of_pos h, List.filterMap_cons, List.filterMap_cons, ih]
    | false =>
      rw [List.filter_cons_of_neg (by rw [h]; exact Bool.false_ne_true),
        List.filterMap_cons_none (spelling?_of_not_isToken keywords h), ih]

/-- Blanks between the segments are not spelled. -/
theorem spellings_spaced (segments : List Segment) :
    (spaced segments).filterMap (Segment.spelling? keywords) =
      segments.filterMap (Segment.spelling? keywords) := by
  induction segments with
  | nil => rfl
  | cons g segments ih =>
    cases segments with
    | nil => rfl
    | cons g' segments =>
      have hblank : Segment.spelling? keywords ⟨.skipped, [' ']⟩ = none := rfl
      rw [spaced, List.intersperse_cons_cons, List.filterMap_cons, List.filterMap_cons_none hblank,
        List.filterMap_cons, ← spaced, ih]

theorem lexemes_of_tokens (h : ∀ g ∈ segments, g.isToken = true) :
    (segments.filterMap (Segment.spelling? keywords)).map Prod.snd =
      segments.map fun g => String.ofList g.text := by
  rw [List.map_filterMap, ← List.filterMap_eq_map]
  exact List.filterMap_congr fun g hg => lexeme_of_isToken keywords (h g hg)

/-- Among tokens and blanks nothing is rejected. -/
theorem isFault_of_mem_spaced (h : ∀ g ∈ segments, g.isToken = true) :
    ∀ g ∈ spaced segments, g.isFault = false := by
  have htoken : ∀ g : Segment, g.isToken = true → g.isFault = false := by
    rintro ⟨piece, text⟩ hg
    cases piece with
    | fault cause => cases hg
    | _ => rfl
  intro g hg
  rcases mem_spaced hg with hmem | rfl
  · exact htoken g (h g hmem)
  · rfl

/-- The lexemes of a text, one blank between each two. -/
def lexemes (source : String) : String :=
  " ".intercalate ((scan keywords source).tokens.map Token.lexeme)

/-- They are segmented like the tokens of the text, in whatever way it is. -/
theorem segmented_lexemes {source : String} (h : Segmented segments source.toList) :
    Segmented (spaced (segments.filter Segment.isToken)) (lexemes keywords source).toList := by
  have htoken : ∀ g ∈ segments.filter Segment.isToken, g.isToken = true :=
    fun g hg => (List.mem_filter.1 hg).2
  have htexts : (scan keywords source).tokens.map Token.lexeme =
      (segments.filter Segment.isToken).map fun g => String.ofList g.text := by
    rw [← lexemes_of_tokens keywords htoken, spellings_filter, ← spellings_reports keywords _ 1 0,
      ← (scan_of_segmented keywords h).1, List.map_map]
    rfl
  have hspaced := segmented_spaced fun g hg =>
    ⟨htoken g hg, h.rule_of_mem g (List.mem_filter.1 hg).1⟩
  rw [lexemes, htexts, String.toList_intercalate, List.map_map]
  simpa [Function.comp_def, String.toList_ofList] using hspaced

/-- **Scanning is stable.** The lexemes of a text, one blank between each two, are scanned as the
tokens that they were, in the same order, and nothing is rejected. -/
theorem scan_lexemes (source : String) :
    (scan keywords (lexemes keywords source)).tokens.map Token.spelling =
        (scan keywords source).tokens.map Token.spelling ∧
      (scan keywords (lexemes keywords source)).errors = [] := by
  obtain ⟨segments, hsource⟩ := exists_segmented source.toList
  obtain ⟨hagain, herrors⟩ := scan_of_segmented keywords (segmented_lexemes keywords hsource)
  have htoken : ∀ g ∈ segments.filter Segment.isToken, g.isToken = true :=
    fun g hg => (List.mem_filter.1 hg).2
  constructor
  · rw [hagain, (scan_of_segmented keywords hsource).1, spellings_reports, spellings_reports,
      spellings_spaced, spellings_filter]
  · rw [herrors]
    exact rejections_eq_nil keywords (isFault_of_mem_spaced htoken) 1 0

end OnePass.Lexical
