import OnePass.Proofs.Derivation.Course
import OnePass.Proofs.Derivation.Recovery
import OnePass.Proofs.Derivation.Translation
import OnePass.Proofs.Emission.Opening
import OnePass.Proofs.Emission.Overloads

/-!
# The scopes that names are entered in

A name is entered when it becomes the next token, one token ahead of the actions that open
and close scopes. The scope that is current then is the one behind the token to its left, and
behind the actions that were performed before that token was matched.

* `steps`, `entered`, `opened`: what the steps of a derivation enter and open.
* `record_of_turn`: a token is entered in the current scope, whatever the step is.
* `registered_of_mem_steps`: **a name that is entered has a row** in that scope behind the step.
* `namesAlong`: the names of marks, each with the scope behind the token to its left.
* `EntersAlong`: what steps along marks enter and open, with one lemma for each kind of step.
* `enters_of_along`, `entered_of_along`: **a run without repairs enters the names of its marks** in
  these scopes.
-/

namespace OnePass

open Grammar (Action Mark Table Terminal)
open Lexical (Token)

/-- The action of a mark that begins a function or a loop. -/
def Grammar.Mark.opening? : Mark → Option Action
  | .act a => if Emission.opensScope a then some a else none
  | .read .. => none

namespace Derivation

open Emission Names
open Machine

/-- **A token as it is entered,** with the scope that is current then. -/
structure Entry where
  token : Token
  scope : Nat

/-- The name that is entered, with its scope, if the token is one. -/
def Entry.name? (e : Entry) : Option (String × Nat) :=
  if e.token.kind = .identifier then some (e.token.lexeme, e.scope) else none

/-- **The steps of a run,** each with the machines before and behind it. -/
def Machine.steps (table : Table) (bound : Nat) (m : Machine) : List (Machine × Machine) :=
  match bound, m.goals with
  | 0, _ => []
  | _, [] => []
  | bound + 1, goal :: rest =>
    match m.step table goal rest with
    | .ok next => (m, next) :: steps table bound next
    | .error _ => []

/-- A machine before its first token is read. -/
def Machine.fresh (config : Config) (tokens : List Token) (endMarker : Token) : Machine :=
  { start config tokens endMarker with
    generator := .ofConfig config
    lookahead := endMarker
    upcoming := tokens }

/-- The steps of the derivation of a text by a table, if there is one. -/
def stepsBy (config : Config) (source : String) :
    Except Grammar.Conflict Table → List (Machine × Machine)
  | .error _ => []
  | .ok table =>
    let scan := Lexical.scan config.keywords source
    (fresh config scan.tokens scan.endMarker, begun config source) ::
      (begun config source).steps table (stepBound scan.tokens.length)

/-- **The steps of the derivation of a text.** The first one reads a token, and nothing else. -/
def steps (config : Config) (source : String) : List (Machine × Machine) :=
  stepsBy config source Grammar.table

/-- What a step enters: the next token, if it has been taken from those to come. -/
def enters (step : Machine × Machine) : List Entry :=
  if step.2.upcoming.length < step.1.upcoming.length then
    [⟨step.2.lookahead, step.1.generator.currentScope⟩]
  else []

/-- What a step opens: if it begins a function or a loop, the scope that is current behind it. -/
def opens (step : Machine × Machine) : List (Action × Nat) :=
  match step.1.goals with
  | .act a :: _ => if opensScope a then [(a, step.2.generator.currentScope)] else []
  | _ => []

/-- **The tokens of a text as they are entered,** in their order. -/
def entered (config : Config) (source : String) : List Entry :=
  (steps config source).flatMap enters

/-- **The functions and the loops of a text as they begin,** in their order, each with its scope. -/
def opened (config : Config) (source : String) : List (Action × Nat) :=
  (steps config source).flatMap opens

section Steps

variable {table : Table} {m m₀ m' : Machine} {fate? : Option Fate} {bound : Nat}

theorem Machine.start_eq_advance (config : Config) (tokens : List Token) (endMarker : Token) :
    start config tokens endMarker = (fresh config tokens endMarker).advance := by
  cases tokens <;> rfl

theorem Machine.steps_succ (bound : Nat) {goal : Goal} {rest : List Goal}
    (hg : m.goals = goal :: rest) (hstep : m.step table goal rest = .ok m') :
    m.steps table (bound + 1) = (m, m') :: m'.steps table bound := by
  conv_lhs => unfold Machine.steps
  rw [hg]
  dsimp only
  rw [hstep]

theorem Machine.steps_of_goals_nil (h : m.goals = []) : m.steps table bound = [] := by
  unfold Machine.steps
  split
  · rfl
  · rfl
  · rename_i hg
    rw [h] at hg
    cases hg

/-- Where no token is taken, none is entered. -/
theorem enters_of_upcoming_eq (h : m'.upcoming = m.upcoming) : enters (m, m') = [] := by
  rw [enters, if_neg (by rw [h]; exact Nat.lt_irrefl _)]

/-- Where the next token is passed over, the one behind it is entered, if there is one. -/
theorem enters_advance (h : m₀.upcoming = m.upcoming) :
    enters (m, m₀.advance) =
      m.upcoming.head?.toList.map fun t => ⟨t, m.generator.currentScope⟩ := by
  unfold enters Machine.advance
  rw [h]
  cases m.upcoming with
  | nil => rfl
  | cons t rest => exact if_pos (Nat.lt_succ_self _)

/-- **A token is entered in the current scope,** and nothing else is done to the state then. -/
theorem record_of_advance (hu : m₀.upcoming = m.upcoming) (hgen : m₀.generator = m.generator)
    {e : Entry} (he : e ∈ enters (m, m₀.advance)) : e.scope = m.generator.currentScope ∧
      m₀.advance.generator =
        { m.generator with symbols := m.generator.symbols.record e.token } := by
  rw [enters_advance hu] at he
  obtain ⟨t, ht, rfl⟩ := List.mem_map.1 he
  rw [Option.mem_toList, List.head?_eq_some_iff] at ht
  obtain ⟨rest, hrest⟩ := ht
  refine ⟨rfl, ?_⟩
  unfold Machine.advance
  rw [hu, hrest, hgen]

/-- **Whatever a step does,** a token that it enters is entered in the current scope. -/
theorem record_of_turn (h : Turn table m fate? m') {e : Entry} (he : e ∈ enters (m, m')) :
    e.scope = m.generator.currentScope ∧
      m'.generator = { m.generator with symbols := m.generator.symbols.record e.token } := by
  have hkept : m'.upcoming = m.upcoming → False := fun hu => by
    rw [enters_of_upcoming_eq hu] at he
    cases he
  cases h with
  | shift | tooLong | illegal => exact record_of_advance rfl rfl he
  | act | close | expand => exact absurd rfl hkept
  | @missingTerminal t node rest =>
    obtain ⟨tree, heq⟩ := giveUp_eq (m := { m with goals := rest }) (.leaf t node) t.lexeme
    rw [heq] at hkept
    exact absurd rfl hkept
  | @missingPhrase n node rest =>
    obtain ⟨tree, heq⟩ := giveUp_eq (m := { m with goals := rest }) (.phrase n node) n.name
    rw [heq] at hkept
    exact absurd rfl hkept
  | abandon =>
    obtain ⟨tree, heq⟩ := abandon_eq (m := m)
    rw [heq] at hkept
    exact absurd rfl hkept

/-- A step of a run starts from a machine that is reached, and is one of the turns. -/
theorem Machine.turn_of_mem_steps (h : Reaches table m₀ m) {p : Machine × Machine}
    (hp : p ∈ m.steps table bound) :
    Reaches table m₀ p.1 ∧ ∃ fate? : Option Fate, Turn table p.1 fate? p.2 := by
  induction bound generalizing m with
  | zero =>
    unfold Machine.steps at hp
    cases hp
  | succ bound ih =>
    cases hg : m.goals with
    | nil =>
      rw [steps_of_goals_nil hg] at hp
      cases hp
    | cons goal rest =>
      cases hstep : m.step table goal rest with
      | error failure =>
        unfold Machine.steps at hp
        rw [hg] at hp
        dsimp only at hp
        rw [hstep] at hp
        cases hp
      | ok next =>
        rw [steps_succ bound hg hstep] at hp
        obtain ⟨fate?, hturn⟩ := turn_of_step hg hstep
        rcases List.mem_cons.1 hp with rfl | hp
        · exact ⟨h, fate?, hturn⟩
        · exact ih (h.tail hturn.move) hp

/-- **Whatever machine is reached,** its current scope is open. -/
theorem opened_of_reaches {config : Config} {source : String} (htable : Grammar.table = .ok table)
    (h : Reaches table (begun config source) m) :
    m.generator.symbols.Opened m.generator.currentScope := by
  obtain ⟨past, hpassed⟩ := reaches_iff_passed.1 h
  have hframed := framed_of_passed htable hpassed
  obtain ⟨header, -, hcalm⟩ := hframed.secured.calm
  have hindexed := hcalm.table.indexed
  exact hframed.framed.opened hindexed.orderly.nested hindexed.begins

/-- **A step that enters a token** starts where the current scope is open. It enters the token in
that scope, and does nothing else to the state. -/
theorem record_of_mem_steps {config : Config} {source : String} {p : Machine × Machine}
    (hp : p ∈ steps config source) {e : Entry} (he : e ∈ enters p) :
    p.1.generator.symbols.Opened p.1.generator.currentScope ∧
      e.scope = p.1.generator.currentScope ∧
      p.2.generator = { p.1.generator with symbols := p.1.generator.symbols.record e.token } := by
  rw [steps] at hp
  cases htable : Grammar.table with
  | error conflict =>
    rw [htable, stepsBy] at hp
    cases hp
  | ok table =>
    rw [htable, stepsBy] at hp
    rcases List.mem_cons.1 hp with rfl | hp
    · rw [begun, start_eq_advance] at he ⊢
      refine ⟨⟨_, rfl, rfl, ?_⟩, record_of_advance rfl rfl he⟩
      exact Nat.zero_le _
    · obtain ⟨hreaches, fate?, hturn⟩ := turn_of_mem_steps .refl hp
      exact ⟨opened_of_reaches htable hreaches, record_of_turn hturn he⟩

/-- **A name that is entered is registered:** behind the step it has a row in its scope. -/
theorem registered_of_mem_steps {config : Config} {source : String} {p : Machine × Machine}
    (hp : p ∈ steps config source) {e : Entry} (he : e ∈ enters p)
    (hkind : e.token.kind = .identifier) :
    p.2.generator.symbols.Registered e.scope e.token.lexeme := by
  obtain ⟨hopen, hscope, hgen⟩ := record_of_mem_steps hp he
  rw [hgen, hscope]
  exact SymbolTable.registered_record hopen hkind

end Steps

section Along

/-- The scopes that are open behind an action, innermost first, where `next` is the next to be
opened. The outermost scope is left out. -/
def scopesBehind (a : Action) (next : Nat) (around : List Nat) : List Nat :=
  match a with
  | .enterFunction | .loopBegin => next :: around
  | .exitFunction | .loopEnd => around.tail
  | _ => around

/-- The innermost scope. -/
def innermost (around : List Nat) : Nat := around.headD Scopes.outermost

/-- **The names of marks,** from left to right, each with the scope that is innermost when the token
to its left is matched; for the first token that is `seen`. -/
def namesAlong (seen : Nat) (around : List Nat) (next : Nat) : List Mark → List (String × Nat)
  | [] => []
  | .read t x :: w =>
    (if t = .identifier then [(x, seen)] else []) ++ namesAlong (innermost around) around next w
  | .act a :: w =>
    namesAlong seen (scopesBehind a next around) (if opensScope a then next + 1 else next) w

variable {c : Config} {table : Table} {m m' mf : Machine} {w : List Mark} {bound n : Nat}
  {constructs : List Construct} {t : Scopes} {places : List (Nat × Nat)} {starts : List Nat}
  {cur : Nat}

/-- The current scope is that of the innermost function or loop. -/
theorem innermost_of_framing (h : Framing t constructs places starts cur) :
    innermost (constructs.map Construct.scope) = cur := by
  cases h <;> rfl

/-- What is open behind an action has the scopes that are. -/
theorem map_scope_constructs (g : Generator) (a : Action) (hn : Opened n g) :
    (g.constructs a constructs).map Construct.scope =
      scopesBehind a n (constructs.map Construct.scope) := by
  unfold Opened at hn
  subst hn
  cases a with
  | exitFunction | loopEnd => exact List.map_tail
  | _ => rfl

/-- **What the steps of a run along marks enter and open.** The next token is entered already, and
if it is a name it has been in the scope `seen`. -/
structure EntersAlong (steps : List (Machine × Machine)) (m : Machine) (seen n : Nat)
    (around : List Nat) (w : List Mark) : Prop where
  tokens : (steps.flatMap enters).map Entry.token = m.upcoming
  names : (⟨m.lookahead, seen⟩ :: steps.flatMap enters).filterMap Entry.name? =
    namesAlong seen around n w
  openings : steps.flatMap opens = (w.filterMap Mark.opening?).zipIdx n

theorem Entry.name?_of_isEndOfInput {token : Token} (h : token.isEndOfInput = true) (scope : Nat) :
    (Entry.mk token scope).name? = none := by
  have hkind : token.kind ≠ .identifier := fun hkind => by
    rw [Token.isEndOfInput, hkind] at h
    cases h
  exact if_neg hkind

/-- The name of a token that is matched with a terminal. -/
theorem Entry.name?_of_ofToken? {token : Token} {terminal : Terminal}
    (h : Terminal.ofToken? token = some terminal) (scope : Nat) :
    (Entry.mk token scope).name?.toList =
      if terminal = .identifier then [(token.lexeme, scope)] else [] := by
  have hkind : token.kind = .identifier ↔ terminal = .identifier := by
    rw [← Terminal.ofToken?_eq_identifier, h, Option.some.injEq]
  unfold Entry.name?
  by_cases hidentifier : terminal = .identifier
  · rw [if_pos hidentifier, if_pos (hkind.2 hidentifier)]
    rfl
  · rw [if_neg hidentifier, if_neg (mt hkind.1 hidentifier)]
    rfl

/-- A token that is entered is taken from those to come. -/
theorem map_token_enters_advance {m₀ : Machine} (hm' : m' = m₀.advance)
    (hu : m₀.upcoming = m.upcoming) :
    (enters (m, m')).map Entry.token ++ m'.upcoming = m.upcoming := by
  subst hm'
  rw [enters_advance hu]
  unfold Machine.advance
  cases hm : m.upcoming with
  | nil => simp [hu.trans hm]
  | cons t rest => simp [hu.trans hm]

/-- A name that is entered is the next one: what comes behind the last token is no name. -/
theorem filterMap_enters_advance {m₀ : Machine} (hm' : m' = m₀.advance)
    (hu : m₀.upcoming = m.upcoming) (hmarker : m₀.endMarker.isEndOfInput = true)
    (entries : List Entry) : (enters (m, m') ++ entries).filterMap Entry.name? =
      (⟨m'.lookahead, m.generator.currentScope⟩ :: entries).filterMap Entry.name? := by
  subst hm'
  rw [enters_advance hu]
  unfold Machine.advance
  rw [hu]
  cases m.upcoming with
  | nil => exact (List.filterMap_cons_none (Entry.name?_of_isEndOfInput hmarker _)).symm
  | cons t rest => rfl

/-- A step that passes no token and performs no action enters and opens nothing. -/
theorem EntersAlong.still {steps : List (Machine × Machine)} {seen : Nat} {around : List Nat}
    (h : EntersAlong steps m' seen n around w) (hu : m'.upcoming = m.upcoming)
    (hl : m'.lookahead = m.lookahead) (hact : ∀ a rest, m.goals ≠ .act a :: rest) :
    EntersAlong ((m, m') :: steps) m seen n around w := by
  have henters : enters (m, m') = [] := enters_of_upcoming_eq hu
  have hopens : opens (m, m') = [] := by
    unfold opens
    split
    · exact absurd ‹_› (hact _ _)
    · rfl
  refine ⟨?_, ?_, ?_⟩
  · rw [List.flatMap_cons, henters, List.nil_append, h.tokens, hu]
  · rw [List.flatMap_cons, henters, List.nil_append, ← hl, h.names]
  · rw [List.flatMap_cons, hopens, List.nil_append, h.openings]

/-- An action enters nothing. If it begins a function or a loop, it opens the next scope. -/
theorem EntersAlong.act {steps : List (Machine × Machine)} {seen : Nat} {around : List Nat}
    {a : Action} {rest : List Goal} {g : Generator}
    (h : EntersAlong steps { m with goals := rest, generator := g } seen
      (if opensScope a then n + 1 else n) (scopesBehind a n around) w)
    (hg : m.goals = .act a :: rest) (hcurrent : opensScope a = true → g.currentScope = n) :
    EntersAlong ((m, { m with goals := rest, generator := g }) :: steps) m seen n around
      (.act a :: w) := by
  have henters : enters (m, { m with goals := rest, generator := g }) = [] :=
    enters_of_upcoming_eq rfl
  refine ⟨?_, ?_, ?_⟩
  · rw [List.flatMap_cons, henters, List.nil_append, h.tokens]
  · rw [List.flatMap_cons, henters, List.nil_append]
    exact h.names
  · have hopens : opens (m, { m with goals := rest, generator := g }) =
        if opensScope a then [(a, g.currentScope)] else [] := by
      rw [opens]
      dsimp only
      rw [hg]
    rw [List.flatMap_cons, hopens, h.openings, List.filterMap_cons, Mark.opening?]
    cases ha : opensScope a with
    | true => rw [if_pos rfl, if_pos rfl, if_pos rfl, hcurrent ha]; rfl
    | false => rfl

/-- **A token is matched,** and the one behind it is entered in the innermost scope. -/
theorem EntersAlong.shift {steps : List (Machine × Machine)} {seen node : Nat} {around : List Nat}
    {terminal : Terminal} {rest : List Goal}
    (h : EntersAlong steps ({ m with goals := rest }.shift node) (innermost around) n around w)
    (hm : m.Orderly) (hg : m.goals = .leaf terminal node :: rest)
    (ht : Terminal.ofToken? m.lookahead = some terminal)
    (hcurrent : m.generator.currentScope = innermost around) :
    EntersAlong ((m, { m with goals := rest }.shift node) :: steps) m seen n around
      (.read terminal m.lookahead.lexeme :: w) := by
  have hopens : opens (m, { m with goals := rest }.shift node) = [] := by
    rw [opens]
    dsimp only
    rw [hg]
  have hread : ∀ entries : List Entry, (⟨m.lookahead, seen⟩ :: entries).filterMap Entry.name? =
      (if terminal = .identifier then [(m.lookahead.lexeme, seen)] else []) ++
        entries.filterMap Entry.name? := fun entries => by
    rw [← Entry.name?_of_ofToken? ht]
    cases hname : Entry.name? ⟨m.lookahead, seen⟩ <;> simp [hname]
  obtain ⟨htokens, hnames, hopenings⟩ := h
  refine ⟨?_, ?_, ?_⟩
  · rw [List.flatMap_cons, List.map_append, htokens]
    exact map_token_enters_advance rfl rfl
  · rw [hread, namesAlong, ← hnames, List.flatMap_cons, ← hcurrent]
    congr 1
    refine filterMap_enters_advance rfl rfl ?_ _
    exact hm.marker
  · rw [List.flatMap_cons, hopens, List.nil_append, hopenings]
    rfl

/-- **A run without repairs** enters the names of its marks, each in the scope that is innermost
when the token to its left is matched, and opens scopes one after the other. -/
theorem enters_of_along (htable : Grammar.table = .ok table) (h : Along table w m m')
    (hm : m.Orderly) (hf : m.Framed c constructs) (ho : Opened n m.generator)
    (hg : m'.goals = [.textEnd]) (hend : m'.lookahead.isEndOfInput = true)
    (hrun : run table bound m = .ok mf) (hfin : mf.goals = []) (seen : Nat) :
    EntersAlong (m.steps table bound) m seen n (constructs.map Construct.scope) w := by
  -- along the marks, with what is open and how many scopes there are by then
  induction h generalizing bound n constructs seen with
  | refl m =>
    obtain ⟨b, next, rfl, hstep, -, -⟩ := exists_step hg hrun hfin
    have hsteps := steps_succ b hg hstep
    rw [step, if_pos hend] at hstep
    cases hstep
    rw [hsteps, steps_of_goals_nil rfl]
    refine EntersAlong.still ⟨(hm.last hend).symm, ?_, rfl⟩ rfl rfl
      (fun _ _ hc => by cases hg.symm.trans hc)
    exact List.filterMap_cons_none (Entry.name?_of_isEndOfInput hend seen)
  | @act m m' w a rest g hgoals hp _ ih =>
    obtain ⟨b, next, rfl, hstep, hnext, -⟩ := exists_step hgoals hrun hfin
    have hsteps := steps_succ b hgoals hstep
    rw [step] at hstep
    dsimp only [Machine.act] at hstep
    rw [hp] at hstep
    cases hstep
    have hmove : Move table m _ := .act hgoals hp
    have hframed := hf.move htable hmove
    have hconstructs : m.constructs constructs = m.generator.constructs a constructs := by
      rw [Machine.constructs, hgoals]
    -- only the beginning of a function or a loop opens a scope, and then that is current
    have hopened : Opened (if opensScope a then n + 1 else n) g ∧
        (opensScope a = true → g.currentScope = n) := by
      cases ha : opensScope a with
      | true =>
        obtain ⟨hopened, hcurrent⟩ := ends_perform_opened ha ho _ _ hp
        exact ⟨hopened, fun _ => hcurrent⟩
      | false => exact ⟨opened_perform ha _ ho _ _ hp, fun hc => by cases hc⟩
    have hrest := ih (hm.move hmove) hframed hopened.1 hg hend hnext seen
    rw [hconstructs, map_scope_constructs _ _ ho] at hrest
    rw [hsteps]
    exact hrest.act hgoals hopened.2
  | @shift m m' w t node rest hgoals ht _ ih =>
    obtain ⟨b, next, rfl, hstep, hnext, -⟩ := exists_step hgoals hrun hfin
    have hsteps := steps_succ b hgoals hstep
    rw [step, if_pos ht] at hstep
    cases hstep
    have hmove : Move table m _ := .shift hgoals ht
    have hframed := hf.move htable hmove
    have hconstructs : m.constructs constructs = constructs := by rw [Machine.constructs, hgoals]
    rw [hconstructs] at hframed
    have hopened : Opened n ({ m with goals := rest }.shift node).generator := by
      unfold Machine.shift Machine.advance
      split
      · exact ho
      · exact ho.record _
    rw [hsteps]
    -- the token behind is entered before any action that comes next
    exact (ih (hm.move hmove) hframed hopened hg hend hnext _).shift hm hgoals ht
      (innermost_of_framing hf.framed.framing).symm
  | @expand m m' w symbol node rest body hgoals hb _ ih =>
    obtain ⟨b, next, rfl, hstep, hnext, -⟩ := exists_step hgoals hrun hfin
    have hsteps := steps_succ b hgoals hstep
    rw [step, hb] at hstep
    cases hstep
    have hmove : Move table m _ := .expand hgoals hb
    have hframed := hf.move htable hmove
    have hconstructs : m.constructs constructs = constructs := by rw [Machine.constructs, hgoals]
    rw [hconstructs] at hframed
    rw [hsteps]
    exact (ih (hm.move hmove) hframed ho hg hend hnext seen).still rfl rfl
      (fun _ _ hc => by cases hgoals.symm.trans hc)

/-- **What the derivation of a text enters and opens,** if it runs along marks. -/
theorem entered_of_along {config : Config} {source : String} {o : Outcome}
    (h : parse config source = .ok o) (htable : Grammar.table = .ok table)
    (hw : Along table w (begun config source) m) (hg : m.goals = [.textEnd])
    (hend : m.lookahead.isEndOfInput = true) :
    (entered config source).map Entry.token = o.scan.tokens ∧
      (entered config source).filterMap Entry.name? = namesAlong Scopes.outermost [] 1 w ∧
        opened config source = (w.filterMap Mark.opening?).zipIdx 1 := by
  obtain ⟨table', mf, htable', hrun, hfin, rfl⟩ := run_of_parse h
  obtain rfl : table = table' := Except.ok.inj (htable.symm.trans htable')
  have hopened : Opened 1 (begun config source).generator := by
    have hinitial : Opened 1 (.ofConfig config) := rfl
    rcases generator_begun config source with hgen | ⟨-, hgen⟩
    · rw [hgen]
      exact hinitial
    · rw [hgen]
      exact hinitial.record _
  obtain ⟨htokens, hnames, hopenings⟩ := enters_of_along htable hw (orderly_begun config source)
    (framed_begun config source) hopened hg hend hrun hfin Scopes.outermost
  rw [entered, opened, steps, htable, stepsBy, List.flatMap_cons, List.flatMap_cons]
  refine ⟨?_, ?_, ?_⟩
  · rw [List.map_append, htokens]
    exact map_token_enters_advance (start_eq_advance _ _ _) rfl
  · refine (filterMap_enters_advance (start_eq_advance _ _ _) rfl ?_ _).trans hnames
    exact (orderly_begun config source).marker
  · have hgoals : (fresh config (Lexical.scan config.keywords source).tokens
        (Lexical.scan config.keywords source).endMarker).goals =
          [.phrase Grammar.start Tree.root, .textEnd] := goals_begun config source
    rw [hopenings, opens]
    dsimp only
    rw [hgoals]
    rfl

end Along

end Derivation

end OnePass
