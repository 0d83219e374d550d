import OnePass.Proofs.Derivation.Accounting
import OnePass.Proofs.Derivation.Outlook
import OnePass.Proofs.Derivation.Preamble
import OnePass.Proofs.Grammar.LanguageTable
import OnePass.Proofs.Lexical.Lines

/-!
# A program behind the definition of `output`

Alone a text is derived as a program, behind the definition as further statements. The two differ
only in what can follow them. Statements can be those of a block, behind which a `;` or an `else`
comes, so they are over at such a token and nothing is expected any more. A program skips it. So
the errors are the same unless such a token comes before the first that can begin a statement.

* `beginsLate`: whether it does.
* `finishes_program_of_not_opens`, `finishes_statements_of_not_opens`: what is skipped.
* `finishes_statements_iff`: a text as a program and as statements.
* `syntaxErrors_builtinOutput`: **the definition changes the errors of such programs alone.**
-/

namespace OnePass

namespace Derivation

open Grammar
open Lexical (Token scan)
open Outlook

/-- The prediction table of the language. -/
def languageTable : Table := ⟨predictions, languageFacts⟩

/-- What a statement can begin with. -/
def openers : List Terminal := simpleFirst ++ compoundFirst

/-- What can come behind the statements of a block. -/
def closers : List Terminal := [.semicolon, .kwElse]

/-- Whether a token can begin a statement. -/
def opensStatement (t : Token) : Bool := (Terminal.ofToken? t).any fun u => u ∈ openers

/-- Whether a token can come behind the statements of a block. -/
def closesBlock (t : Token) : Bool := (Terminal.ofToken? t).any fun u => u ∈ closers

/-- **A text begins late** if a statement begins only behind what can come behind a block. -/
def beginsLate (text : List Token) : Bool :=
  text.any opensStatement && (text.takeWhile fun t => !opensStatement t).any closesBlock

section Predictions

/-- The goals of a text. -/
def programGoals : List (Option Symbol) := [some (.nonterminal .program), none]

/-- The goals behind a statement of it. -/
def statementsGoals : List (Option Symbol) := [some (.nonterminal .statements), none]

/-- **What a program makes of a terminal.** It is statements if one begins or the text ends, and
nothing otherwise. -/
theorem program_on_terminal : ∀ t ∈ Terminal.all,
    if t ∈ Terminal.endMarker :: openers then lead languageTable t programGoals = statementsGoals
    else languageTable.production? .program t = none ∧
      languageTable.follows .program t = false := by
  decide

/-- **What statements make of a terminal.** One that begins is read from the terminal, they are over
where a block or the text can be, and nothing is made of any other. -/
theorem statements_on_terminal : ∀ t ∈ Terminal.all,
    if t ∈ openers then
      ((lead languageTable t)^[4] statementsGoals).head? = some (some (.terminal t))
    else if t ∈ Terminal.endMarker :: closers then lead languageTable t statementsGoals = [none]
    else languageTable.production? .statements t = none ∧
      languageTable.follows .statements t = false := by
  decide

theorem lead_programGoals {t : Terminal} (h : t ∈ Terminal.endMarker :: openers) :
    lead languageTable t programGoals = statementsGoals := by
  have hon := program_on_terminal t (Terminal.mem_all t)
  rwa [if_pos h] at hon

theorem not_mem_openers : ∀ t ∈ Terminal.endMarker :: closers, t ∉ openers := by decide

theorem lead_statementsGoals {t : Terminal} (h : t ∈ Terminal.endMarker :: closers) :
    lead languageTable t statementsGoals = [none] := by
  have hon := statements_on_terminal t (Terminal.mem_all t)
  rwa [if_neg (not_mem_openers t h), if_pos h] at hon

theorem exists_lead_statementsGoals {t : Terminal} (h : t ∈ openers) :
    ∃ goals, (lead languageTable t)^[4] statementsGoals = some (.terminal t) :: goals := by
  have hon := statements_on_terminal t (Terminal.mem_all t)
  rw [if_pos h] at hon
  exact List.head?_eq_some_iff.1 hon

end Predictions

section Endings

variable {t : Token} {text front rest : List Token} {marker : Token}
  {errors errors' : List SyntaxError}

theorem terminal_of_opens (h : opensStatement t = true) :
    ∃ u, Terminal.ofToken? t = some u ∧ u ∈ openers := by
  simpa [opensStatement, Option.any_eq_true] using h

theorem terminal_of_closes (h : closesBlock t = true) :
    ∃ u, Terminal.ofToken? t = some u ∧ u ∈ closers := by
  simpa [closesBlock, Option.any_eq_true] using h

theorem ne_endMarker_of_ofToken? {u : Terminal} (hend : t.isEndOfInput = false)
    (hu : Terminal.ofToken? t = some u) : u ≠ .endMarker := by
  rintro rfl
  rw [Terminal.ofToken?_eq_endMarker, hend] at hu
  cases hu

theorem ignores_programGoals (hend : t.isEndOfInput = false) (hopen : opensStatement t = false) :
    Ignores languageTable programGoals t := by
  refine .inr ⟨.program, [none], rfl, fun u hu => ?_⟩
  have hopener : u ∉ openers := fun h => by simp [opensStatement, hu, h] at hopen
  have hon := program_on_terminal u (Terminal.mem_all u)
  have hmem := List.not_mem_cons_of_ne_of_not_mem (ne_endMarker_of_ofToken? hend hu) hopener
  rwa [if_neg hmem] at hon

theorem ignores_statementsGoals (hend : t.isEndOfInput = false) (hopen : opensStatement t = false)
    (hclose : closesBlock t = false) : Ignores languageTable statementsGoals t := by
  refine .inr ⟨.statements, [none], rfl, fun u hu => ?_⟩
  have hopener : u ∉ openers := fun h => by simp [opensStatement, hu, h] at hopen
  have hcloser : u ∉ closers := fun h => by simp [closesBlock, hu, h] at hclose
  have hon := statements_on_terminal u (Terminal.mem_all u)
  have hmem := List.not_mem_cons_of_ne_of_not_mem (ne_endMarker_of_ofToken? hend hu) hcloser
  rwa [if_neg hopener, if_neg hmem] at hon

theorem isIllegal_map_illegalError :
    (text.map illegalError).filter SyntaxError.isIllegal = text.map illegalError :=
  List.filter_eq_self.2 fun e he => by
    obtain ⟨t, -, rfl⟩ := List.mem_map.1 he
    rfl

/-- **Behind its statements** a text is skipped to its end. -/
theorem finishes_textEnd :
    Finishes languageTable ⟨[none], text, marker, errors⟩ (errors ++ text.map illegalError) := by
  have hskip : Finishes languageTable ⟨[none], text ++ [], marker, errors⟩
      (errors ++ text.map illegalError) := by
    rw [finishes_skip fun t _ => .inl ⟨[], rfl⟩, ← finishes_next, next_of_step (.close rfl rfl)]
    exact finishes_of_goals_nil rfl
  rwa [List.append_nil] at hskip

/-- Statements that end here are behind their text. -/
theorem finishes_statements_of_lookahead {u : Terminal}
    (hu : Terminal.ofToken? (text.headD marker) = some u)
    (hmem : u ∈ Terminal.endMarker :: closers) :
    Finishes languageTable ⟨statementsGoals, text, marker, errors⟩
      (errors ++ text.map illegalError) := by
  have hlead : (lead languageTable u)^[1] statementsGoals = [none] := lead_statementsGoals hmem
  exact (finishes_lead 1 hu hlead).2 finishes_textEnd

/-- Where a statement begins, or the text ends, a program is statements. -/
theorem finishes_program_of_lookahead {u : Terminal}
    (hu : Terminal.ofToken? (text.headD marker) = some u)
    (hmem : u ∈ Terminal.endMarker :: openers) :
    Finishes languageTable ⟨programGoals, text, marker, errors⟩ errors' ↔
      Finishes languageTable ⟨statementsGoals, text, marker, errors⟩ errors' := by
  have hlead : (lead languageTable u)^[1] programGoals = statementsGoals := lead_programGoals hmem
  exact finishes_lead 1 hu hlead

/-- **Where a statement begins** its first token is read, and so it is not illegal. -/
theorem isIllegal_lt_of_opens (hopen : opensStatement t = true)
    (h : Finishes languageTable ⟨statementsGoals, t :: rest, marker, front.map illegalError⟩
      errors) :
    (errors.filter SyntaxError.isIllegal).length < (front ++ t :: rest).length := by
  obtain ⟨u, hu, hmem⟩ := terminal_of_opens hopen
  obtain ⟨goals, hgoals⟩ := exists_lead_statementsGoals hmem
  have hlook : Terminal.ofToken? ((t :: rest).headD marker) = some u := hu
  rw [finishes_lead 4 hlook hgoals, finishes_shift hu] at h
  have hburden := isIllegal_le_burden h
  rw [Outlook.burden, isIllegal_map_illegalError, List.length_map] at hburden
  rw [List.length_append, List.length_cons]
  exact Nat.lt_of_le_of_lt hburden (by simp)

/-- **A text in which no statement begins** is skipped as a program. -/
theorem finishes_program_of_not_opens (hmarker : marker.isEndOfInput = true)
    (hend : ∀ t ∈ text, t.isEndOfInput = false) (hopen : ∀ t ∈ text, opensStatement t = false) :
    Finishes languageTable ⟨programGoals, text, marker, []⟩ (text.map illegalError) := by
  have hu : Terminal.ofToken? (([] : List Token).headD marker) = some .endMarker :=
    Terminal.ofToken?_eq_endMarker.2 hmarker
  have hmem : ∀ ts : List Terminal, .endMarker ∈ .endMarker :: ts := fun _ => List.mem_cons_self
  have hskip : Finishes languageTable ⟨programGoals, text ++ [], marker, []⟩
      (text.map illegalError) := by
    rw [finishes_skip fun t ht => ignores_programGoals (hend t ht) (hopen t ht),
      finishes_program_of_lookahead hu (hmem _)]
    have hover : Finishes languageTable ⟨statementsGoals, [], marker, text.map illegalError⟩ _ :=
      finishes_statements_of_lookahead hu (hmem _)
    simpa using hover
  rwa [List.append_nil] at hskip

/-- **A text is skipped as statements** if none begins before what can follow a block: there they
are over, or else at the end of the text. -/
theorem finishes_statements_of_not_opens (hmarker : marker.isEndOfInput = true)
    (hend : ∀ t ∈ text, t.isEndOfInput = false)
    (hopen : ∀ t ∈ text.takeWhile fun t => !closesBlock t, opensStatement t = false) :
    Finishes languageTable ⟨statementsGoals, text, marker, []⟩ (text.map illegalError) := by
  have htext := List.takeWhile_append_dropWhile (p := fun t => !closesBlock t) (l := text)
  generalize hfront : (text.takeWhile fun t => !closesBlock t) = front at htext hopen
  generalize hrest : (text.dropWhile fun t => !closesBlock t) = rest at htext
  have hlook : ∃ u, Terminal.ofToken? (rest.headD marker) = some u ∧
      u ∈ Terminal.endMarker :: closers := by
    cases rest with
    | nil => exact ⟨.endMarker, Terminal.ofToken?_eq_endMarker.2 hmarker, List.mem_cons_self⟩
    | cons t rest =>
      have hclose : closesBlock t = true := by
        have hhead := List.head?_dropWhile_not (fun t => !closesBlock t) text
        rw [hrest] at hhead
        simpa using hhead
      obtain ⟨u, hu, hmem⟩ := terminal_of_closes hclose
      exact ⟨u, hu, List.mem_cons_of_mem _ hmem⟩
  obtain ⟨u, hu, hmem⟩ := hlook
  have hover : Finishes languageTable ⟨statementsGoals, rest, marker, front.map illegalError⟩ _ :=
    finishes_statements_of_lookahead hu hmem
  rw [← htext, finishes_skip fun t ht => ?_]
  · simpa using hover
  · refine ignores_statementsGoals (hend t ?_) (hopen t ht) ?_
    · rw [← htext]
      exact List.mem_append_left _ ht
    · rw [← hfront] at ht
      simpa using List.mem_takeWhile_imp ht

/-- The front of a text is what comes before the first token of a kind. -/
theorem takeWhile_not_append {p : Token → Bool} (hfront : ∀ t ∈ front, p t = false)
    (ht : p t = true) : ((front ++ t :: rest).takeWhile fun t => !p t) = front := by
  rw [List.takeWhile_append_of_pos (by simpa using hfront),
    List.takeWhile_cons_of_neg (by simp [ht]), List.append_nil]

/-- **A text read as a program and as statements** finishes with the same errors just if it does not
begin late. If it does, then as statements all of it is illegal. -/
theorem finishes_statements_iff (hmarker : marker.isEndOfInput = true)
    (hend : ∀ t ∈ text, t.isEndOfInput = false)
    (hprogram : Finishes languageTable ⟨programGoals, text, marker, []⟩ errors)
    (hstatements : Finishes languageTable ⟨statementsGoals, text, marker, []⟩ errors') :
    (errors' = errors ↔ beginsLate text = false) ∧
      (beginsLate text = true → errors' = text.map illegalError) := by
  cases hfirst : text.find? opensStatement with
  | none =>
    have hopen : ∀ t ∈ text, opensStatement t = false := by simpa using hfirst
    have hlate : beginsLate text = false := by
      simp only [beginsLate, List.any_eq_false.2 fun t ht => ne_true_of_eq_false (hopen t ht),
        Bool.false_and]
    have hsame := finishes_unique hstatements (finishes_statements_of_not_opens hmarker hend
      fun t ht => hopen t ((List.takeWhile_sublist _).subset ht))
    have hsame' := finishes_unique hprogram (finishes_program_of_not_opens hmarker hend hopen)
    simp [hlate, hsame, hsame']
  | some t =>
    obtain ⟨hopen, front, rest, rfl, hfront⟩ := List.find?_eq_some_iff_append.1 hfirst
    replace hfront : ∀ t ∈ front, opensStatement t = false := fun t ht => by simpa using hfront t ht
    have hlate : beginsLate (front ++ t :: rest) = front.any closesBlock := by
      rw [beginsLate, takeWhile_not_append hfront hopen]
      simp [hopen]
    rw [finishes_skip fun t ht => ignores_programGoals
      (hend t (List.mem_append_left _ ht)) (hfront t ht)] at hprogram
    obtain ⟨u, hu, hmem⟩ := terminal_of_opens hopen
    have hlook : Terminal.ofToken? ((t :: rest).headD marker) = some u := hu
    rw [finishes_program_of_lookahead hlook (List.mem_cons_of_mem _ hmem)] at hprogram
    rw [hlate]
    cases hclose : front.find? closesBlock with
    | some v =>
      -- the statements are over before one begins, and a program reads at least one token
      obtain ⟨hv, before, behind, rfl, hbefore⟩ := List.find?_eq_some_iff_append.1 hclose
      have htake : ((before ++ v :: behind ++ t :: rest).takeWhile fun t => !closesBlock t) =
          before := by
        rw [List.append_assoc, List.cons_append]
        exact takeWhile_not_append (fun t ht => by simpa using hbefore t ht) hv
      have hall := finishes_unique hstatements (finishes_statements_of_not_opens hmarker hend
        fun t ht => hfront t (List.mem_append_left _ (htake ▸ ht)))
      have hless := isIllegal_lt_of_opens hopen hprogram
      have hany : (before ++ v :: behind).any closesBlock = true :=
        List.any_eq_true.2 ⟨v, by simp, hv⟩
      refine ⟨iff_of_false (fun hsame => ?_) (by simp [hany]), fun _ => hall⟩
      rw [← hsame, hall, isIllegal_map_illegalError, List.length_map] at hless
      exact absurd hless (Nat.lt_irrefl _)
    | none =>
      -- the same tokens are skipped, and the same ones are ahead
      have hnone : ∀ t ∈ front, closesBlock t = false := by simpa using hclose
      have hany : front.any closesBlock = false := by simpa using hnone
      rw [finishes_skip fun t ht => ignores_statementsGoals
        (hend t (List.mem_append_left _ ht)) (hfront t ht) (hnone t ht)] at hstatements
      exact ⟨iff_of_true (finishes_unique hstatements hprogram) hany, by simp [hany]⟩

end Endings

section Definition

variable {c : Config} {source : String} {marker : Token} {text : List Token}
  {errors : List SyntaxError}

/-- The tokens of the definition of `output`, wherever. -/
def definitionTokens : List Token :=
  (scan Config.reservedWords outputDefinition).tokens.map Token.unplaced

/-- **Behind the definition** there are statements, as behind any other statement of a text. -/
theorem exhaust_definitionTokens :
    (⟨programGoals, definitionTokens, default, []⟩ : Outlook).exhaust languageTable 100 =
      ⟨statementsGoals, [], default, []⟩ := by
  decide +kernel

/-- A text behind the definition finishes as the statements that it is. -/
theorem finishes_definition :
    Finishes languageTable ⟨programGoals, definitionTokens ++ text, marker, []⟩ errors ↔
      Finishes languageTable ⟨statementsGoals, text, marker, []⟩ errors := by
  have hexhaust : Finishes languageTable
      ((⟨programGoals, definitionTokens, default, []⟩ : Outlook).over text marker) errors ↔ _ :=
    finishes_exhaust 100
  rw [exhaust_definitionTokens] at hexhaust
  exact hexhaust

/-- Where its tokens stand in their lines does not make a text begin late. -/
theorem beginsLate_unplaced : beginsLate (text.map Token.unplaced) = beginsLate text := by
  simp only [beginsLate, List.any_map, List.takeWhile_map]
  rfl

/-- The errors of a compilation are those of its derivation. -/
theorem finishes_of_compile {r : Compilation} (h : compile c source = .ok r) :
    Finishes languageTable ⟨programGoals,
      (scan c.keywords (c.preamble source)).tokens.map Token.unplaced,
      (scan c.keywords (c.preamble source)).endMarker.unplaced, []⟩ r.syntaxErrors := by
  obtain ⟨-, o, g, ho, -, rfl⟩ := outcome_of_compile h
  obtain ⟨table, htable, hfinishes⟩ := finishes_of_parse ho
  rw [Grammar.table_eq_ok] at htable
  cases htable
  exact hfinishes

/-- **The tokens behind the definition** are those of the program, on their lines, and so is the end
of the text. -/
theorem scan_behind_definition (source : String) :
    (scan Config.reservedWords (outputDefinition ++ source)).tokens.map Token.unplaced =
        definitionTokens ++ (scan Config.reservedWords source).tokens.map Token.unplaced ∧
      (scan Config.reservedWords (outputDefinition ++ source)).endMarker.unplaced =
        (scan Config.reservedWords source).endMarker.unplaced := by
  have hlines : Lexical.newlines outputDefinition.toList = 0 := by rfl
  have hshift : ∀ bytes, Token.unplaced ∘ Token.shift 0 bytes = Token.unplaced := fun _ => rfl
  constructor
  · rw [(Lexical.scan_append Config.reservedWords endsBlank_outputDefinition).1, hlines,
      List.map_append, List.map_map, hshift, definitionTokens]
  · rw [Lexical.endMarker_scan, Lexical.endMarker_scan, String.toList_append,
      Lexical.newlines_append, hlines, Nat.zero_add]
    simp only [Token.unplaced, Token.endOfInput]

end Definition

end Derivation

open OnePass.Derivation Lexical in
/-- **The definition of `output` ahead of a program** leaves the program its syntax errors, and
their lines, just if the program does not begin late. Of one that does every token is reported. -/
theorem syntaxErrors_builtinOutput {c : Config} {source : String} {r r' : Compilation}
    (hwords : c.keywords = Config.reservedWords)
    (h : compile { c with builtinOutput := false } source = .ok r)
    (h' : compile { c with builtinOutput := true } source = .ok r') :
    (r'.syntaxErrors = r.syntaxErrors ↔ beginsLate r.tokens = false) ∧
      (beginsLate r.tokens = true → r'.syntaxErrors = r.tokens.map illegalError) := by
  have hplain := finishes_of_compile h
  have hbehind := finishes_of_compile h'
  have htokens := (scan_of_compile h).1
  simp only [Config.preamble, hwords, if_true, Bool.false_eq_true, if_false]
    at hplain hbehind htokens
  obtain ⟨hscan, hmarker⟩ := scan_behind_definition source
  rw [hscan, hmarker, finishes_definition, ← htokens] at hbehind
  rw [← htokens] at hplain
  have hend : ∀ t ∈ r.tokens.map Token.unplaced, t.isEndOfInput = false := by
    rw [htokens, List.forall_mem_map]
    exact fun t ht => (fits_of_mem_scan ht).notEnd
  have hiff := finishes_statements_iff rfl hend hplain hbehind
  rwa [beginsLate_unplaced, List.map_map] at hiff

/-- A bracket that is too much ahead of an assignment that lacks its value. -/
theorem syntaxErrors_builtinOutput_of_bracket :
    let source := ") x = ;"
    ∃ r r', compile { Config.standard with builtinOutput := false } source = .ok r ∧
      compile { Config.standard with builtinOutput := true } source = .ok r' ∧
      r'.syntaxErrors = r.syntaxErrors := by
  intro source
  obtain ⟨r, hr, hlate⟩ : ∃ r, compile { Config.standard with builtinOutput := false } source =
      .ok r ∧ Derivation.beginsLate r.tokens = false := exists_of_toOption_map <| by
    rw [compile_eq, Grammar.table_eq_ok]
    decide +kernel
  obtain ⟨r', hr', -⟩ : ∃ r', compile { Config.standard with builtinOutput := true } source =
      .ok r' ∧ () = () := exists_of_toOption_map <| by
    rw [compile_eq, Grammar.table_eq_ok]
    decide +kernel
  exact ⟨r, r', hr, hr', (syntaxErrors_builtinOutput rfl hr hr').1.2 hlate⟩

/-- A `;` that a program begins with is skipped. Behind the definition no token of it is read. -/
theorem syntaxErrors_ne_behind_output :
    let source := "; x = 1 ;"
    ∃ r r', compile { Config.standard with builtinOutput := false } source = .ok r ∧
      compile { Config.standard with builtinOutput := true } source = .ok r' ∧
      r.syntaxErrors = [⟨1, .illegal ";"⟩] ∧
      r'.syntaxErrors = [⟨1, .illegal ";"⟩, ⟨1, .illegal "ID"⟩, ⟨1, .illegal "="⟩,
        ⟨1, .illegal "NUM"⟩, ⟨1, .illegal ";"⟩] ∧ r'.syntaxErrors ≠ r.syntaxErrors := by
  intro source
  obtain ⟨r, hr, herrors⟩ : ∃ r, compile { Config.standard with builtinOutput := false } source =
      .ok r ∧ r.syntaxErrors = [⟨1, .illegal ";"⟩] := exists_of_toOption_map <| by
    rw [compile_eq, Grammar.table_eq_ok]
    decide +kernel
  obtain ⟨r', hr', herrors'⟩ : ∃ r', compile { Config.standard with builtinOutput := true } source =
      .ok r' ∧ r'.syntaxErrors = [⟨1, .illegal ";"⟩, ⟨1, .illegal "ID"⟩, ⟨1, .illegal "="⟩,
        ⟨1, .illegal "NUM"⟩, ⟨1, .illegal ";"⟩] := exists_of_toOption_map <| by
    rw [compile_eq, Grammar.table_eq_ok]
    decide +kernel
  refine ⟨r, r', hr, hr', herrors, herrors', ?_⟩
  rw [herrors, herrors']
  decide

end OnePass
