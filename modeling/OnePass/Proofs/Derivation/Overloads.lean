import OnePass.Proofs.Derivation.Recovery
import OnePass.Proofs.Emission.Overloads

/-!
# Functions that calls can tell apart

Whatever a text looks like, at its end no two functions of one scope have the same name and as
many parameters, unless the text has ended too early. While a definition is open there may be
such functions; its end settles which of them counts.

* `definedRows`: the rows of the functions that a run has defined.
* `Machine.Overloaded`: a machine that keeps account of them. `Machine.Overloaded.move`.
* `overloads_of_parse`: **the functions of a program can be told apart.**
-/

namespace OnePass.Derivation

open Emission Names
open Grammar (Action Layer Table)
open Machine

/-- The function that the next step defines, if it ends a definition. -/
def Machine.newlyDefined (m : Machine) : List Nat :=
  match m.goals with
  | .act a :: _ => m.generator.newlyDefined a
  | _ => []

/-- **The rows of the functions whose definitions have ended,** the latest first. -/
def definedRows (past : List Machine) : List Nat := past.flatMap Machine.newlyDefined

/-- **A machine that keeps account of its functions.** Its goals settle the one that has just been
defined, unless the text has ended too early. -/
structure Machine.Overloaded (c : Config) (past : List Machine) (m : Machine) : Prop where
  framed : m.Framed c (openConstructs past)
  unmarked : m.Unmarked
  overloads : m.EndedEarly ∨ ∃ layers, Layer.through layers (symbolsOf m.goals) = some [] ∧
    m.generator.Overloads layers (definedRows past)

variable {table : Table} {m m' : Machine} {c : Config} {past : List Machine}

/-- **Every move keeps account of functions,** a repair as well. -/
theorem Machine.Overloaded.move (htable : Grammar.table = .ok table)
    (h : m.Overloaded c past) (hmove : Move table m m') : m'.Overloaded c (m :: past) := by
  have hframed := h.framed.move htable hmove
  have hunmarked := unmarked_move h.unmarked hmove
  refine ⟨hframed, hunmarked, ?_⟩
  obtain ⟨layers, hthrough, hoverloads⟩ :=
    h.overloads.resolve_left fun hended => goals_ne_nil hmove hended.1
  rw [definedRows, List.flatMap_cons]
  by_cases hact : ∃ a rest, m.goals = .act a :: rest
  · obtain ⟨a, rest, hg⟩ := hact
    obtain ⟨g, hp, rfl⟩ := exists_perform hg hmove
    obtain ⟨header, hcalm, hheader⟩ := h.framed.secured.perform hg
    rw [hg] at hthrough
    obtain ⟨layers', hturn, hthrough⟩ := Option.bind_eq_some_iff.1 hthrough
    rw [Machine.newlyDefined, hg]
    refine .inr ⟨layers', hthrough, ?_⟩
    refine overloads_perform hoverloads h.framed.framed hcalm hheader h.unmarked.last hturn ?_ _ _ hp
    rintro rfl
    exact h.framed.inStep.exits rest hg
  · have hne : ∀ a rest, m.goals ≠ .act a :: rest := fun a rest hg => hact ⟨a, rest, hg⟩
    have hnone : m.newlyDefined = [] := by
      unfold Machine.newlyDefined
      split
      · exact absurd ‹_› (hne _ _)
      · rfl
    rw [hnone, List.nil_append]
    rcases advances_move htable hne hmove with rfl | hadvances
    · exact .inl m.endedEarly_abandon
    · refine .inr ⟨layers, hadvances.through hthrough, ?_⟩
      rcases generator_move h.framed.secured.scanning hne hmove with hgen | ⟨-, hgen⟩
      · rw [hgen]
        exact hoverloads
      · rw [hgen]
        exact hoverloads.record hunmarked.lookahead

/-- No reserved word is that of a retired function. -/
theorem overloads_ofConfig (hk : c.keywords = Config.reservedWords) :
    (Generator.ofConfig c).Overloads [] [] := by
  have hcount : (SymbolTable.ofKeywords c.keywords).retiredCount = 0 := by
    rw [hk]
    decide
  refine ⟨⟨[], ⟨SymbolTable.housed_ofKeywords _, List.nodup_nil, fun row hrow => ?_, nofun,
    List.Subset.refl _, fun row => ⟨?_, ?_⟩⟩, .steady List.not_mem_nil⟩, hcount.symm⟩
  · rw [show (Generator.ofConfig c).symbols = SymbolTable.ofKeywords c.keywords from rfl,
      SymbolTable.function?_ofKeywords] at hrow
    cases hrow
  · rintro ⟨r, hr, hretired⟩
    have hmem := Array.mem_toList_iff.2 (Array.mem_of_getElem? hr)
    exact absurd hretired (List.countP_eq_zero.1 hcount r hmem)
  · rintro ⟨later, hsub, -⟩
    cases hsub

theorem overloaded_begun {source : String} (hk : c.keywords = Config.reservedWords) :
    (begun c source).Overloaded c [] := by
  have hunmarked := unmarked_begun c source
  refine ⟨framed_begun c source, hunmarked, .inr ⟨[], ?_, ?_⟩⟩
  · rw [goals_begun]
    rfl
  · rcases generator_begun c source with hgen | ⟨-, hgen⟩
    · rw [hgen]
      exact overloads_ofConfig hk
    · rw [hgen]
      exact (overloads_ofConfig hk).record hunmarked.lookahead

/-- **Account is kept behind every run.** -/
theorem overloaded_of_passed (htable : Grammar.table = .ok table) {source : String}
    (hk : c.keywords = Config.reservedWords) (h : Passed table (begun c source) past m) :
    m.Overloaded c past := by
  induction h with
  | start => exact overloaded_begun hk
  | move _ hmove ih => exact ih.move htable hmove

/-- **The functions of a program can be told apart,** whatever the text is, unless it has ended too
early. At the end the functions are those that the run has defined. Of those with one scope, one
name and one number of parameters the one that has been defined last lives, and the others are
retired, as is nothing else; each of them has been reported. -/
theorem overloads_of_parse {config : Config} {source : String} {o : Outcome}
    (h : parse config source = .ok o) (hk : config.keywords = Config.reservedWords)
    (hend : ∀ e ∈ o.syntaxErrors, e.fault ≠ .unexpectedEnd) :
    ∃ table past m, Grammar.table = .ok table ∧ Passed table (begun config source) past m ∧
      m.goals = [] ∧ o.generator = m.generator ∧
      o.generator.symbols.Unambiguous (definedRows past) ∧
      o.generator.redefinitions = o.generator.symbols.retiredCount := by
  obtain ⟨table, m, htable, hreaches, hgoals, rfl⟩ := reaches_of_parse h
  obtain ⟨past, hpassed⟩ := reaches_iff_passed.1 hreaches
  have hover := overloaded_of_passed htable hk hpassed
  obtain ⟨layers, hthrough, ⟨settled, htab, hsettles⟩, hreported⟩ :=
    hover.overloads.resolve_left fun ⟨_, e, he, hfault⟩ => hend e he hfault
  rw [hgoals] at hthrough
  obtain rfl : layers = [] := Option.some.inj hthrough
  have hcleared := hover.framed.cleared hgoals hend
  rw [hcleared.definitions] at htab
  refine ⟨table, past, m, htable, hpassed, hgoals, rfl, ?_, hreported⟩
  cases hsettles
  exact htab.unambiguous

/-- A text with two functions that are defined again, one of them in the body of the other and with a
statement that is repaired. -/
theorem overloads_of_nested_rivals :
    let source := "def f ( a ) : def f ( b ) : ; def f ( c ) : print ) c ; ; ; def f ( d ) : ;"
    ∃ o defined, parse .standard source = .ok o ∧ o.syntaxErrors.length = 4 ∧
      o.generator.symbols.Unambiguous defined ∧ o.generator.redefinitions = 2 := by
  intro source
  have hrun : (parse .standard source).toOption.map (fun o => (o.syntaxErrors.length,
      o.syntaxErrors.all (fun e => e.fault != .unexpectedEnd), o.generator.redefinitions)) =
        some (4, true, 2) := by
    rw [parse_eq, Grammar.table_eq_ok]
    decide +kernel
  cases ho : parse .standard source with
  | error e =>
    rw [ho] at hrun
    cases hrun
  | ok o =>
    rw [ho] at hrun
    obtain ⟨hlength, hrest⟩ := Prod.mk.inj (Option.some.inj hrun)
    obtain ⟨hall, hcount⟩ := Prod.mk.inj hrest
    obtain ⟨_, past, _, _, _, _, _, hunambiguous, _⟩ := overloads_of_parse ho rfl fun e he => by
      simpa using List.all_eq_true.1 hall e he
    exact ⟨o, definedRows past, rfl, hlength, hunambiguous, hcount⟩

end OnePass.Derivation
