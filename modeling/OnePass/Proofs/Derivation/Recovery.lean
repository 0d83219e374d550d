import OnePass.Proofs.Derivation.Ownership
import OnePass.Proofs.Emission.Framing

/-!
# Repairs leave scopes and frames in step

Whatever the machine gives up or skips, the actions that begin and end functions and loops
are performed in pairs. So the scopes that are open are those of the functions and loops that
have begun and have not ended, and only the end of the text inside a phrase leaves any open.

* `openConstructs`: the functions and loops that are open behind a run.
* `Machine.Framed`: a machine with its frames in step. `Machine.Framed.move`, `framed_begun`.
* `framed_of_parse`: **frames are in step all along,** and none is left at the end.
-/

namespace OnePass.Derivation

open Emission Names
open Grammar (Action Layer Table callsBehind)
open Lexical (Token)
open Machine

/-- What is open behind the next step. -/
def Machine.constructs (m : Machine) (before : List Construct) : List Construct :=
  match m.goals with
  | .act a :: _ => m.generator.constructs a before
  | _ => before

/-- **The functions and the loops that a run has begun and not ended,** innermost first. -/
def openConstructs (past : List Machine) : List Construct := past.foldr Machine.constructs []

section Layers

/-- Whether a layer is a loop; a definition that has ended is no longer open. -/
def isLoopLayer? : Layer → Option Bool
  | .loop => some true
  | .header | .body => some false
  | .ended => none

/-- Whether what is open is a loop. -/
def isLoopConstruct : Construct → Bool
  | .function _ => false
  | .loop _ _ => true

/-- **The layers of what is open.** -/
def Stacked (layers : List Layer) (constructs : List Construct) : Prop :=
  layers.filterMap isLoopLayer? = constructs.map isLoopConstruct

variable {layers layers' : List Layer} {constructs : List Construct} {a : Action}

/-- The innermost layer of a loop is that of a loop. -/
theorem Stacked.of_loop (h : Stacked (.loop :: layers) constructs) : ∃ s start rest,
    constructs = .loop s start :: rest ∧ Stacked layers rest := by
  obtain ⟨c, rest, rfl, hc, hrest⟩ := List.map_eq_cons_iff.1 h.symm
  cases c with
  | function s => cases hc
  | loop s start => exact ⟨s, start, rest, rfl, hrest.symm⟩

/-- The innermost layer of a function is that of a function. -/
theorem Stacked.of_body (h : Stacked (.body :: layers) constructs) : ∃ s rest,
    constructs = .function s :: rest ∧ Stacked layers rest := by
  obtain ⟨c, rest, rfl, hc, hrest⟩ := List.map_eq_cons_iff.1 h.symm
  cases c with
  | function s => exact ⟨s, rest, rfl, hrest.symm⟩
  | loop s start => cases hc

/-- **Layers turn with what is open.** -/
theorem Stacked.turn (h : Stacked layers constructs) (hturn : a.turn layers = some layers')
    (g : Generator) : Stacked layers' (g.constructs a constructs) ∧
      (a = .exitFunction → ∃ s rest, constructs = .function s :: rest) ∧
      (a = .loopEnd → ∃ s start rest, constructs = .loop s start :: rest) := by
  have hturns : ∀ {l l'}, a.layerStep = .turns l l' →
      layers = l :: layers.tail ∧ layers' = l' :: layers.tail := fun hs => by
    rw [Action.turn, hs] at hturn
    obtain ⟨hhead, heq⟩ := Option.ite_none_right_eq_some.1 hturn
    exact ⟨Layer.eq_cons_of_head? hhead, (Option.some.inj heq).symm⟩
  have hcloses : ∀ {l}, a.layerStep = .closes l → layers = l :: layers' := fun hs => by
    rw [Action.turn, hs] at hturn
    obtain ⟨hhead, heq⟩ := Option.ite_none_right_eq_some.1 hturn
    rw [← Option.some.inj heq]
    exact Layer.eq_cons_of_head? hhead
  have hopens : ∀ {l}, a.layerStep = .opens l → layers' = l :: layers := fun hs => by
    rw [Action.turn, hs] at hturn
    exact (Option.some.inj (Option.ite_none_right_eq_some.1 hturn).2).symm
  cases a with
  | loopBegin =>
    obtain rfl := hopens rfl
    exact ⟨congrArg (true :: ·) h, fun hc => (by cases hc), fun hc => by cases hc⟩
  | enterFunction =>
    obtain rfl := hopens rfl
    exact ⟨congrArg (false :: ·) h, fun hc => (by cases hc), fun hc => by cases hc⟩
  | loopEnd =>
    obtain rfl := hcloses rfl
    obtain ⟨s, start, rest, rfl, hrest⟩ := h.of_loop
    exact ⟨hrest, fun hc => (by cases hc), fun _ => ⟨s, start, rest, rfl⟩⟩
  | exitFunction =>
    obtain ⟨hl, rfl⟩ := hturns rfl
    rw [hl] at h
    obtain ⟨s, rest, rfl, hrest⟩ := h.of_body
    exact ⟨hrest, fun _ => ⟨s, rest, rfl⟩, fun hc => by cases hc⟩
  | param | paramsDone =>
    obtain ⟨hl, rfl⟩ := hturns rfl
    rw [hl] at h
    exact ⟨h, fun hc => (by cases hc), fun hc => by cases hc⟩
  | checkOverload =>
    obtain rfl := hcloses rfl
    exact ⟨h, fun hc => (by cases hc), fun hc => by cases hc⟩
  | _ =>
    obtain ⟨-, heq⟩ := Option.ite_none_right_eq_some.1 hturn
    cases heq
    exact ⟨h, fun hc => (by cases hc), fun hc => by cases hc⟩

end Layers

/-- **The text has ended inside a phrase,** and that has been reported. -/
def Machine.EndedEarly (m : Machine) : Prop :=
  m.goals = [] ∧ ∃ e ∈ m.errors.toList, e.fault = .unexpectedEnd

theorem Machine.endedEarly_abandon (m : Machine) : m.abandon.EndedEarly := by
  obtain ⟨tree, heq⟩ := abandon_eq (m := m)
  rw [heq]
  refine ⟨rfl, ⟨m.lookahead.line, .unexpectedEnd⟩, ?_, rfl⟩
  change _ ∈ (m.errors.push _).toList
  rw [Array.toList_push]
  exact List.mem_append_right _ List.mem_cons_self

/-- **A machine with its frames in step.** Its goals close what is open, and answer the calls that
wait, unless the text has ended too early. -/
structure Machine.Framed (c : Config) (constructs : List Construct) (m : Machine) : Prop where
  secured : m.Secured c
  naming : Naming c.keywords m.lookahead m.lastLexeme m.goals
  framed : m.generator.Framed constructs
  closes : m.EndedEarly ∨ ∃ layers, Stacked layers constructs ∧
    Layer.through layers (symbolsOf m.goals) = some [] ∧
      callsBehind m.generator.pendingCalls.length (symbolsOf m.goals) = some 0

variable {table : Table} {m m' m₀ : Machine} {c : Config} {constructs : List Construct}

/-- What the parameters of a definition ask of an action. -/
theorem Machine.Secured.perform (h : m.Secured c) {a : Action} {rest : List Goal}
    (hg : m.goals = .act a :: rest) : ∃ header, Calm c.keywords header m.generator ∧
      (header = true → a = .param ∨ a = .paramsDone) := by
  obtain ⟨header, hplace, hcalm⟩ := h.calm
  rw [hg] at hplace
  exact ⟨header, hcalm, hplace.act.1⟩

/-- A token is recorded, and the frames stay in step. -/
theorem framed_record {g : Generator} (h : g.Framed constructs) {keywords : List String}
    (ht : g.symbols.Usable keywords) {token : Token} (hfits : token.Fits keywords) :
    Generator.Framed constructs { g with symbols := g.symbols.record token } := by
  have hrests : Rests keywords g g.pendingCalls { g with symbols := g.symbols.record token } := by
    have hscopes := SymbolTable.scopes_record g.symbols token
    refine ⟨hscopes ▸ ht.rooted, hscopes, rfl, rfl, fun record hk hr => ?_⟩
    refine SymbolTable.loops?_record ht.rooted hr fun hkind heq => ?_
    have hreserved := hfits.identifier hkind
    rw [heq, hk] at hreserved
    cases hreserved
  exact h.rests hrests ht (ht.record token)

/-- **Every move leaves frames in step,** a repair as well. -/
theorem Machine.Framed.move (htable : Grammar.table = .ok table) (h : m.Framed c constructs)
    (hmove : Move table m m') : m'.Framed c (m.constructs constructs) := by
  have hsecured := h.secured.move htable hmove
  have hnaming := naming_move htable h.secured.scanning h.naming hmove
  obtain ⟨layers, hstacked, hthrough, hcalls⟩ :=
    h.closes.resolve_left fun hended => goals_ne_nil hmove hended.1
  by_cases hact : ∃ a rest, m.goals = .act a :: rest
  · obtain ⟨a, rest, hg⟩ := hact
    obtain ⟨g, hp, rfl⟩ := exists_perform hg hmove
    obtain ⟨header, hcalm, hheader⟩ := h.secured.perform hg
    have hn := h.naming
    rw [Machine.constructs, hg]
    rw [hg] at hn hthrough hcalls
    obtain ⟨layers', hturn, hthrough⟩ := Option.bind_eq_some_iff.1 hthrough
    obtain ⟨count, hcount, hcalls⟩ := Option.bind_eq_some_iff.1 hcalls
    obtain ⟨hstacked, hexit, hend⟩ := hstacked.turn hturn m.generator
    obtain ⟨hframed, hpending⟩ := framed_perform h.framed hcalm hheader hn.act.1
      (h.secured.loops a (hg ▸ List.mem_cons_self)) hexit hend _ _ hp
    refine ⟨hsecured, hnaming, hframed, .inr ⟨layers', hstacked, hthrough, ?_⟩⟩
    rw [hpending count hcount]
    exact hcalls
  · have hne : ∀ a rest, m.goals ≠ .act a :: rest := fun a rest hg => hact ⟨a, rest, hg⟩
    have hsame : m.constructs constructs = constructs := by
      unfold Machine.constructs
      split
      · exact absurd ‹_› (hne _ _)
      · rfl
    obtain ⟨header, -, hcalm⟩ := h.secured.calm
    have hgen := generator_move h.secured.scanning hne hmove
    have hframed : m'.generator.Framed constructs := by
      rcases hgen with hgen | ⟨hfits, hgen⟩
      · rw [hgen]
        exact h.framed
      · rw [hgen]
        exact framed_record h.framed hcalm.table hfits
    have hpending : m'.generator.pendingCalls = m.generator.pendingCalls := by
      rcases hgen with hgen | ⟨-, hgen⟩ <;> rw [hgen]
    rw [hsame]
    refine ⟨hsecured, hnaming, hframed, ?_⟩
    rcases advances_move htable hne hmove with rfl | hadvances
    · exact .inl m.endedEarly_abandon
    · rw [hpending]
      exact .inr ⟨layers, hstacked, hadvances.through hthrough, hadvances.calls hcalls⟩

theorem framed_begun (c : Config) (source : String) : (begun c source).Framed c [] := by
  have husable := SymbolTable.usable_ofKeywords c.keywords
  have hloops : (SymbolTable.ofKeywords c.keywords).openLoops = .empty := by
    by_cases hk : c.keywords.contains loopKeyword = true
    · exact SymbolTable.openLoops_eq (loops?_ofKeywords hk)
    · exact husable.openLoops_of_unreserved (by simpa using hk)
  have hframed : (Generator.ofConfig c).Framed [] := by
    change Emission.Framed [] Scopes.initial [] (SymbolTable.ofKeywords c.keywords).openLoops
    rw [hloops]
    exact .initial
  have hgen := generator_begun c source
  have hpending : (begun c source).generator.pendingCalls = [] := by
    rcases hgen with hgen | ⟨-, hgen⟩ <;> rw [hgen] <;> rfl
  refine ⟨secured_begun c source, ?_, ?_, .inr ⟨[], rfl, ?_⟩⟩
  · rw [goals_begun]
    exact .nameless rfl
  · rcases hgen with hgen | ⟨hfits, hgen⟩
    · rw [hgen]
      exact hframed
    · rw [hgen]
      exact framed_record hframed husable hfits
  · rw [goals_begun, hpending]
    exact ⟨rfl, rfl⟩

/-- **Frames are in step behind every run.** -/
theorem framed_of_passed (htable : Grammar.table = .ok table) {source : String}
    {past : List Machine} (h : Passed table (begun c source) past m) :
    m.Framed c (openConstructs past) := by
  induction h with
  | start => exact framed_begun c source
  | move _ hmove ih => exact ih.move htable hmove

/-- **Nothing is left open:** the outermost scope is current and the only one that is not closed, and
there is neither a definition, nor a call that waits, nor an open loop with its jumps. -/
structure Cleared (g : Generator) : Prop where
  scope : g.currentScope = Scopes.outermost
  unended : ∀ s, g.symbols.scopes.Unended s ↔ s = Scopes.outermost
  definitions : g.definitions = []
  calls : g.pendingCalls = []
  loops : g.symbols.openLoops = .empty

/-- **At the end nothing is open,** but for a text that has ended too early. -/
theorem Machine.Framed.cleared (h : m.Framed c constructs) (hgoals : m.goals = [])
    (hend : ∀ e ∈ m.errors.toList, e.fault ≠ .unexpectedEnd) : Cleared m.generator := by
  obtain ⟨layers, hstacked, hthrough, hcalls⟩ :=
    h.closes.resolve_left fun ⟨_, e, he, hfault⟩ => hend e he hfault
  rw [hgoals] at hthrough hcalls
  obtain rfl : layers = [] := Option.some.inj hthrough
  obtain rfl : constructs = [] := List.map_eq_nil_iff.1 hstacked.symm
  have hframing := h.framed.framing
  generalize hcur : m.generator.symbols.scopes.current = cur at hframing
  generalize hplaces : m.generator.definitions.map Definition.place = places at hframing
  generalize hstarts : m.generator.symbols.openLoops.starts = starts at hframing
  cases hframing
  obtain ⟨limit, hb⟩ := h.framed.balanced
  rw [hstarts] at hb
  refine ⟨hcur, fun s => ?_, List.map_eq_nil_iff.1 hplaces,
    List.eq_nil_of_length_eq_zero (Option.some.inj hcalls), hb.eq_empty⟩
  rw [h.framed.unended, List.map_nil, List.nil_append, List.mem_singleton]

/-- **Scopes and frames in step** in a machine with these functions and loops open: they have the
scopes around the current one, the open definitions and the places in the record of the loops,
which is there where loops can be. The next step ends a function or a loop only if that is the
innermost. -/
structure Machine.InStep (c : Config) (constructs : List Construct) (m : Machine) : Prop where
  framed : m.generator.Framed constructs
  around : m.generator.symbols.scopes.enclosing m.generator.currentScope =
    constructs.map Construct.scope ++ [Scopes.outermost]
  recorded : c.keywords.contains loopKeyword = true →
    m.generator.symbols.loops? = some m.generator.symbols.openLoops
  exits : ∀ rest, m.goals = .act .exitFunction :: rest →
    ∃ s below, constructs = .function s :: below
  ends : ∀ rest, m.goals = .act .loopEnd :: rest →
    ∃ s start below, constructs = .loop s start :: below

theorem Machine.Framed.inStep (h : m.Framed c constructs) : m.InStep c constructs := by
  obtain ⟨header, -, hcalm⟩ := h.secured.calm
  have hnext : ∀ a rest, m.goals = .act a :: rest →
      (a = .exitFunction → ∃ s below, constructs = .function s :: below) ∧
        (a = .loopEnd → ∃ s start below, constructs = .loop s start :: below) := by
    intro a rest hg
    obtain ⟨layers, hstacked, hthrough, -⟩ :=
      h.closes.resolve_left fun hended => by cases hg.symm.trans hended.1
    rw [hg] at hthrough
    obtain ⟨_, hturn, -⟩ := Option.bind_eq_some_iff.1 hthrough
    exact (hstacked.turn hturn m.generator).2
  exact ⟨h.framed, h.framed.framing.enclosing hcalm.table.rooted hcalm.table.indexed.orderly.nested,
    hcalm.table.loops?_eq, fun rest hg => (hnext _ rest hg).1 rfl,
    fun rest hg => (hnext _ rest hg).2 rfl⟩

/-- **Repairs leave scopes and frames in step,** whatever the text is. In every machine that its
derivation comes to, the functions and loops that have begun and not ended are those that have open
scopes and frames, in their order. Nothing is left open at the end, unless the text has ended too
early. -/
theorem framed_of_parse {config : Config} {source : String} {o : Outcome}
    (h : parse config source = .ok o) : ∃ table past m, Grammar.table = .ok table ∧
      Passed table (begun config source) past m ∧ m.goals = [] ∧
      o.generator = m.generator ∧ o.syntaxErrors = m.errors.toList ∧
      (∀ past' m', Passed table (begun config source) past' m' →
        m'.InStep config (openConstructs past')) ∧
      ((∀ e ∈ o.syntaxErrors, e.fault ≠ .unexpectedEnd) → Cleared o.generator) := by
  obtain ⟨table, m, htable, hreaches, hgoals, rfl⟩ := reaches_of_parse h
  obtain ⟨past, hpassed⟩ := reaches_iff_passed.1 hreaches
  exact ⟨table, past, m, htable, hpassed, hgoals, rfl, rfl,
    fun past' m' h' => (framed_of_passed htable h').inStep,
    (framed_of_passed htable hpassed).cleared hgoals⟩

/-- A text with a call and a loop that are repaired, in the body of a function. -/
theorem framed_of_unfinished_call :
    let source := "def f ( a ) : while ( f ( ; 1 < 2 ) break ; ; ; ) def g ( ) : ; ;"
    ∃ o, parse .standard source = .ok o ∧ o.syntaxErrors.length = 12 ∧ Cleared o.generator := by
  intro source
  have hrun : (parse .standard source).toOption.map (fun o => (o.syntaxErrors.length,
      o.syntaxErrors.all fun e => e.fault != .unexpectedEnd)) = some (12, true) := by
    rw [parse_eq, Grammar.table_eq_ok]
    decide +kernel
  cases ho : parse .standard source with
  | error e =>
    rw [ho] at hrun
    cases hrun
  | ok o =>
    rw [ho] at hrun
    obtain ⟨hlength, hall⟩ := Prod.mk.inj (Option.some.inj hrun)
    obtain ⟨_, _, _, _, _, _, _, _, _, hcleared⟩ := framed_of_parse ho
    refine ⟨o, rfl, hlength, hcleared fun e he => ?_⟩
    simpa using List.all_eq_true.1 hall e he

end OnePass.Derivation
