import OnePass.Proofs.Derivation.Course

/-!
# The outlook of a derivation

What a machine is going to do, and what it is going to complain of, depends on its goals and on the
tokens ahead alone: neither on the tree nor on what has been generated, nor on where in its line a
token stands. So errors are told by a derivation of less, whose steps can be followed for tokens
that are not known.

* `Outlook`: what a machine has ahead. `Outlook.next`: one step.
* `outlook_of_turn`: the machine takes the same steps.
* `Finishes`: the errors in the end. `finishes_unique`, `finishes_of_parse`.
* `finishes_skip`: tokens that are skipped one by one.
* `finishes_exhaust`: a text is passed in the same way whatever is behind it.
* `finishes_lead`: a terminal leads to goals without being passed.
* `isIllegal_le_burden`: how many tokens are illegal in the end.
-/

namespace OnePass

/-- A token on its line, wherever there. -/
def Lexical.Token.unplaced (t : Lexical.Token) : Lexical.Token := { t with start := 0, stop := 0 }

namespace Derivation

open Grammar
open Lexical (Token)
open Machine

/-- **What a derivation has ahead:** its goals, without the nodes that they fill, the tokens, and
the errors so far. The end of the text is a goal without a symbol. -/
structure Outlook where
  goals : List (Option Symbol)
  ahead : List Token
  marker : Token
  errors : List SyntaxError
deriving DecidableEq

namespace Outlook

variable (v : Outlook)

def lookahead : Token := v.ahead.headD v.marker

def complain (fault : SyntaxFault) : Outlook :=
  { v with errors := v.errors ++ [⟨v.lookahead.line, fault⟩] }

/-- Goes on with other goals. -/
def turnTo (goals : List (Option Symbol)) : Outlook := { v with goals := goals }

/-- Passes over the next token. -/
def pass : Outlook := { v with ahead := v.ahead.tail }

def skip : Outlook := (v.complain (.illegal v.lookahead.className)).pass

/-- The body that a phrase is replaced by on the next token. -/
def predicted? (table : Table) (n : Nonterminal) : Option (List Symbol) := do
  let t ← Terminal.ofToken? v.lookahead
  let index ← table.production? n t
  let production ← productions[index]?
  return production.body

/-- Whether the next token can come after a phrase. -/
def canFollow (table : Table) (n : Nonterminal) : Bool :=
  (Terminal.ofToken? v.lookahead).any (table.follows n)

/-- **One step.** Without goals there is none. -/
def next (table : Table) (v : Outlook) : Outlook :=
  match v.goals with
  | [] => v
  | none :: rest => if v.ahead = [] then v.turnTo rest else v.skip
  | some (.action _) :: rest => v.turnTo rest
  | some (.terminal t) :: rest =>
    if Terminal.ofToken? v.lookahead = some t then v.pass.turnTo rest
    else (v.complain (.missing t.lexeme)).turnTo rest
  | some (.nonterminal n) :: rest =>
    match v.predicted? table n with
    | some body => v.turnTo (body.map some ++ rest)
    | none =>
      if v.canFollow table n then (v.complain (.missing n.name)).turnTo rest
      else if v.ahead = [] then (v.complain .unexpectedEnd).turnTo []
      else v.skip

/-- **What a step does,** case by case. -/
inductive Step (table : Table) (v : Outlook) : Outlook → Prop
  | idle (hg : v.goals = []) : Step table v v
  | act {a : Action} {rest : List (Option Symbol)} (hg : v.goals = some (.action a) :: rest) :
      Step table v (v.turnTo rest)
  | close {rest : List (Option Symbol)} (hg : v.goals = none :: rest) (hend : v.ahead = []) :
      Step table v (v.turnTo rest)
  | shift {t : Terminal} {rest : List (Option Symbol)} (hg : v.goals = some (.terminal t) :: rest)
      (h : Terminal.ofToken? v.lookahead = some t) : Step table v (v.pass.turnTo rest)
  | expand {n : Nonterminal} {rest : List (Option Symbol)} {body : List Symbol}
      (hg : v.goals = some (.nonterminal n) :: rest) (h : v.predicted? table n = some body) :
      Step table v (v.turnTo (body.map some ++ rest))
  | missingTerminal {t : Terminal} {rest : List (Option Symbol)}
      (hg : v.goals = some (.terminal t) :: rest) (h : Terminal.ofToken? v.lookahead ≠ some t) :
      Step table v ((v.complain (.missing t.lexeme)).turnTo rest)
  | missingPhrase {n : Nonterminal} {rest : List (Option Symbol)}
      (hg : v.goals = some (.nonterminal n) :: rest) (h : v.predicted? table n = none)
      (hfollow : v.canFollow table n = true) :
      Step table v ((v.complain (.missing n.name)).turnTo rest)
  | tooLong {rest : List (Option Symbol)} (hg : v.goals = none :: rest) (hend : v.ahead ≠ []) :
      Step table v v.skip
  | illegal {n : Nonterminal} {rest : List (Option Symbol)}
      (hg : v.goals = some (.nonterminal n) :: rest) (h : v.predicted? table n = none)
      (hfollow : v.canFollow table n = false) (hend : v.ahead ≠ []) : Step table v v.skip
  | abandon {n : Nonterminal} {rest : List (Option Symbol)}
      (hg : v.goals = some (.nonterminal n) :: rest) (h : v.predicted? table n = none)
      (hfollow : v.canFollow table n = false) (hend : v.ahead = []) :
      Step table v ((v.complain .unexpectedEnd).turnTo [])

theorem next_of_step {table : Table} {v v' : Outlook} (h : Step table v v') :
    v.next table = v' := by
  unfold next
  cases h with
  | idle hg | act hg => rw [hg]
  | close hg hend => simp only [hg, hend, if_true]
  | shift hg h => simp only [hg, h, if_true]
  | expand hg h => simp only [hg, h]
  | missingTerminal hg h => simp only [hg, h, if_false]
  | missingPhrase hg h hfollow => simp only [hg, h, hfollow, if_true]
  | tooLong hg hend => simp only [hg, hend, if_false]
  | illegal hg h hfollow hend => simp [hg, h, hfollow, hend]
  | abandon hg h hfollow hend => simp [hg, h, hfollow, hend]

/-- **Every step is one of these.** -/
theorem step_next (table : Table) (v : Outlook) : Step table v (v.next table) := by
  cases hg : v.goals with
  | nil => exact (next_of_step (.idle hg)).symm ▸ .idle hg
  | cons goal rest =>
    have hstep : ∀ {v'}, Step table v v' → Step table v (v.next table) := fun h => by
      rwa [next_of_step h]
    rcases goal with _ | ⟨t⟩ | ⟨n⟩ | ⟨a⟩
    · by_cases hend : v.ahead = []
      · exact hstep (.close hg hend)
      · exact hstep (.tooLong hg hend)
    · by_cases ht : Terminal.ofToken? v.lookahead = some t
      · exact hstep (.shift hg ht)
      · exact hstep (.missingTerminal hg ht)
    · cases hb : v.predicted? table n with
      | some body => exact hstep (.expand hg hb)
      | none =>
        cases hf : v.canFollow table n with
        | true => exact hstep (.missingPhrase hg hb hf)
        | false =>
          by_cases hend : v.ahead = []
          · exact hstep (.abandon hg hb hf hend)
          · exact hstep (.illegal hg hb hf hend)
    · exact hstep (.act hg)

end Outlook

/-- What a machine has ahead. -/
def Machine.outlook (m : Machine) : Outlook where
  goals := m.goals.map Goal.symbol?
  ahead := m.pending.map Token.unplaced
  marker := m.endMarker.unplaced
  errors := m.errors.toList

section Turns

variable {table : Table} {m m' m₀ : Machine} {fate? : Option Fate} {fates : List (Fate × Token)}

theorem map_symbol?_goalsOf (next : Nat) (body : List Symbol) :
    (goalsOf next body).map Goal.symbol? = body.map some := by
  induction body generalizing next with
  | nil => rfl
  | cons s body ih => cases s <;> simp [goalsOf, Goal.symbol?, ih]

/-- A machine at its marker: what it sees behind the last token. -/
def Machine.Marked (m : Machine) : Prop :=
  m.lookahead.isEndOfInput = true → m.lookahead = m.endMarker

theorem Machine.Marked.lookahead (h : m.Marked) : m.outlook.lookahead = m.lookahead.unplaced := by
  unfold Machine.outlook Outlook.lookahead
  cases hend : m.lookahead.isEndOfInput with
  | true =>
    rw [pending, if_pos hend, h hend]
    rfl
  | false =>
    rw [pending_eq_cons hend]
    rfl

theorem ahead_eq_nil_iff : m.outlook.ahead = [] ↔ m.lookahead.isEndOfInput = true := by
  unfold Machine.outlook pending
  split <;> simp_all

/-- An error is noted on the line of the next token. -/
theorem outlook_complained (hm : m.Marked) (tree : Tree) (goals : List Goal) (fault : SyntaxFault) :
    ({ m with
      tree := tree
      goals := goals
      errors := m.errors.push ⟨m.lookahead.line, fault⟩ } : Machine).outlook =
      (m.outlook.complain fault).turnTo (goals.map Goal.symbol?) := by
  rw [Outlook.complain, hm.lookahead]
  simp [Machine.outlook, Outlook.turnTo, pending, Token.unplaced]

theorem outlook_giveUp (hm : m.Marked) {rest : List Goal} (goal : Goal) (name : String) :
    (({ m with goals := rest } : Machine).giveUp goal name).outlook =
      (m.outlook.complain (.missing name)).turnTo (rest.map Goal.symbol?) := by
  obtain ⟨tree, heq⟩ := giveUp_eq (m := { m with goals := rest }) goal name
  rw [heq]
  exact outlook_complained hm tree rest (.missing name)

theorem outlook_skip (hm : m.Marked) (horderly : m.Orderly) : m.skip.outlook = m.outlook.skip := by
  have hgoals : m.skip.goals = m.goals := by
    rw [Machine.skip, goals_advance]
    rfl
  have hmarker : m.skip.endMarker = m.endMarker := by
    rw [Machine.skip, endMarker_advance]
    rfl
  have herrors : m.skip.errors.toList = m.errors.toList ++ [illegalError m.lookahead] := by
    rw [Machine.skip, errors_advance]
    exact Array.toList_push
  rw [Outlook.skip, Outlook.complain, hm.lookahead, Machine.outlook, pending_skip horderly, hgoals,
    hmarker, herrors, List.map_tail]
  rfl

/-- **A step of the machine is one of its outlook.** -/
theorem outlook_of_turn (hm : m.Orderly) (hmarked : m.Marked) (h : Turn table m fate? m') :
    m'.outlook = m.outlook.next table := by
  have hterminal : Terminal.ofToken? m.outlook.lookahead = Terminal.ofToken? m.lookahead := by
    rw [hmarked.lookahead]
    rfl
  have hpredicted : ∀ n, m.outlook.predicted? table n = m.predicted? table n := fun n => by
    rw [Outlook.predicted?, hterminal]
    rfl
  have hfollow : ∀ n, m.outlook.canFollow table n = m.canFollow table n := fun n => by
    rw [Outlook.canFollow, hterminal]
    rfl
  have hgoals : ∀ {goal rest}, m.goals = goal :: rest →
      m.outlook.goals = goal.symbol? :: rest.map Goal.symbol? := fun hg => by
    rw [Machine.outlook, hg]
    rfl
  have hahead : m.lookahead.isEndOfInput = false → m.outlook.ahead ≠ [] := fun hend h => by
    rw [ahead_eq_nil_iff, hend] at h
    cases h
  symm
  cases h with
  | act hg _ => exact Outlook.next_of_step (.act (hgoals hg))
  | close hg hend => exact Outlook.next_of_step (.close (hgoals hg) (ahead_eq_nil_iff.2 hend))
  | @shift t node rest hg ht =>
    rw [Outlook.next_of_step (.shift (hgoals hg) (hterminal.trans ht))]
    have hrest : ({ m with goals := rest } : Machine).Orderly := hm.of_goals fun u v hmem =>
      hm.goals u v (by rw [hg]; exact List.mem_cons_of_mem _ hmem)
    have hmarker : ({ m with goals := rest }.shift node).endMarker = m.endMarker :=
      endMarker_advance
    rw [Machine.outlook, Machine.outlook, pending_shift hrest, goals_shift, errors_shift, hmarker,
      List.map_tail]
    rfl
  | expand hg hb =>
    rw [Outlook.next_of_step (.expand (hgoals hg) ((hpredicted _).trans hb)),
      ← map_symbol?_goalsOf m.tree.next, ← List.map_append]
    rfl
  | missingTerminal hg ht =>
    rw [Outlook.next_of_step (.missingTerminal (hgoals hg) fun h => ht (hterminal.symm.trans h)),
      outlook_giveUp hmarked]
  | missingPhrase hg hb hf =>
    rw [Outlook.next_of_step (.missingPhrase (hgoals hg) ((hpredicted _).trans hb)
      ((hfollow _).trans hf)), outlook_giveUp hmarked]
  | tooLong hg hend =>
    rw [Outlook.next_of_step (.tooLong (hgoals hg) (hahead hend)), outlook_skip hmarked hm]
  | illegal hg hb hf hend =>
    rw [Outlook.next_of_step (.illegal (hgoals hg) ((hpredicted _).trans hb) ((hfollow _).trans hf)
      (hahead hend)), outlook_skip hmarked hm]
  | abandon hg hb hf hend =>
    obtain ⟨tree, heq⟩ := abandon_eq (m := m)
    rw [Outlook.next_of_step (.abandon (hgoals hg) ((hpredicted _).trans hb) ((hfollow _).trans hf)
      (ahead_eq_nil_iff.2 hend)), heq, outlook_complained hmarked]
    rfl

/-- **A course of the machine is one of its outlook.** -/
theorem Course.outlook (h : Course table m₀ fates m) (hm₀ : m₀.Orderly) (hmarked : m₀.Marked) :
    ∃ k, m.outlook = (Outlook.next table)^[k] m₀.outlook := by
  induction h with
  | start => exact ⟨0, rfl⟩
  | @turn fates m m' fate? hcourse hturn ih =>
    obtain ⟨k, hk⟩ := ih
    have hm : m.Marked := fun hend => by
      rw [hcourse.endMarker]
      exact hcourse.lookahead_of_end hm₀ hmarked hend
    refine ⟨k + 1, ?_⟩
    rw [Function.iterate_succ_apply', ← hk]
    exact outlook_of_turn (hcourse.orderly hm₀) hm hturn

end Turns

section Endings

open Outlook

variable {table : Table} {v : Outlook} {errors errors' : List SyntaxError}

theorem next_of_goals_nil (h : v.goals = []) : v.next table = v := next_of_step (.idle h)

/-- **The errors of a derivation** that comes to its end. -/
def Finishes (table : Table) (v : Outlook) (errors : List SyntaxError) : Prop :=
  ∃ k, ((next table)^[k] v).goals = [] ∧ ((next table)^[k] v).errors = errors

theorem finishes_next : Finishes table (v.next table) errors ↔ Finishes table v errors := by
  constructor
  · rintro ⟨k, hgoals, herrors⟩
    exact ⟨k + 1, hgoals, herrors⟩
  · rintro ⟨k, hgoals, herrors⟩
    cases k with
    | zero =>
      rw [next_of_goals_nil (v := v) hgoals]
      exact ⟨0, hgoals, herrors⟩
    | succ k => exact ⟨k, hgoals, herrors⟩

theorem finishes_iterate (k : Nat) :
    Finishes table ((next table)^[k] v) errors ↔ Finishes table v errors := by
  induction k generalizing v with
  | zero => rfl
  | succ k ih => rw [Function.iterate_succ_apply, ih, finishes_next]

/-- **A derivation ends in one way.** -/
theorem finishes_unique (h : Finishes table v errors) (h' : Finishes table v errors') :
    errors = errors' := by
  obtain ⟨k, hgoals, herrors⟩ := h
  -- behind the end there are no steps, so the other way of counting gets there as well
  obtain ⟨k', hgoals', herrors'⟩ := (finishes_iterate k).2 h'
  rw [Function.iterate_fixed (next_of_goals_nil hgoals)] at herrors'
  exact herrors.symm.trans herrors'

theorem finishes_of_goals_nil (h : v.goals = []) : Finishes table v v.errors := ⟨0, h, rfl⟩

/-- **The errors of a text** are those that the derivation of its tokens finishes with. -/
theorem finishes_of_parse {config : Config} {source : String} {o : Outcome}
    (h : parse config source = .ok o) : ∃ table, Grammar.table = .ok table ∧
      Finishes table ⟨[some (.nonterminal Grammar.start), none],
        (Lexical.scan config.keywords source).tokens.map Token.unplaced,
        (Lexical.scan config.keywords source).endMarker.unplaced, []⟩ o.syntaxErrors := by
  obtain ⟨table, fates, m, htable, hcourse, hgoals, rfl⟩ := course_of_parse h
  have hmarker : (begun config source).endMarker =
      (Lexical.scan config.keywords source).endMarker := endMarker_advance
  have hmarked : (begun config source).Marked := fun hend =>
    (lookahead_advance hend isEndOfInput_of_mem_scan).trans hmarker.symm
  obtain ⟨k, hk⟩ := hcourse.outlook (orderly_begun config source) hmarked
  have hbegun : (begun config source).outlook = ⟨[some (.nonterminal Grammar.start), none],
      (Lexical.scan config.keywords source).tokens.map Token.unplaced,
      (Lexical.scan config.keywords source).endMarker.unplaced, []⟩ := by
    rw [Machine.outlook, goals_begun, pending_begun, errors_begun, hmarker]
    rfl
  rw [hbegun] at hk
  refine ⟨table, htable, (finishes_iterate k).1 ?_⟩
  rw [← hk]
  refine finishes_of_goals_nil ?_
  rw [Machine.outlook, hgoals]
  rfl

end Endings

section Stretches

open Outlook

variable {table : Table} {v : Outlook} {errors errors' : List SyntaxError} {marker : Token}
  {front rest text : List Token} {goals : List (Option Symbol)}

/-- **Goals ignore a token** if it is skipped before them. The end of the text ignores any, and so
does a phrase that the token neither begins nor follows. -/
def Ignores (table : Table) (goals : List (Option Symbol)) (t : Token) : Prop :=
  (∃ others, goals = none :: others) ∨ ∃ n others, goals = some (.nonterminal n) :: others ∧
    ∀ u, Terminal.ofToken? t = some u → table.production? n u = none ∧ table.follows n u = false

theorem next_of_ignores {t : Token} (h : Ignores table goals t) :
    next table ⟨goals, t :: rest, marker, errors⟩ =
      ⟨goals, rest, marker, errors ++ [illegalError t]⟩ := by
  obtain ⟨others, rfl⟩ | ⟨n, others, rfl, hidle⟩ := h
  · exact next_of_step (.tooLong rfl (List.cons_ne_nil t rest))
  · refine next_of_step (.illegal rfl ?_ ?_ (List.cons_ne_nil t rest))
    · cases hu : Terminal.ofToken? t with
      | none => simp [Outlook.predicted?, Outlook.lookahead, hu]
      | some u => simp [Outlook.predicted?, Outlook.lookahead, hu, (hidle u hu).1]
    · cases hu : Terminal.ofToken? t with
      | none => simp [Outlook.canFollow, Outlook.lookahead, hu]
      | some u => simp [Outlook.canFollow, Outlook.lookahead, hu, (hidle u hu).2]

/-- **Tokens that are ignored** are skipped one by one. -/
theorem finishes_skip (h : ∀ t ∈ front, Ignores table goals t) :
    Finishes table ⟨goals, front ++ rest, marker, errors⟩ errors' ↔
      Finishes table ⟨goals, rest, marker, errors ++ front.map illegalError⟩ errors' := by
  induction front generalizing errors with
  | nil => simp
  | cons t front ih =>
    obtain ⟨ht, hfront⟩ := List.forall_mem_cons.1 h
    rw [List.cons_append, ← finishes_next, next_of_ignores ht, ih hfront]
    simp

/-- The same with a text behind it, and with the marker that is behind that. -/
def Outlook.over (text : List Token) (marker : Token) (v : Outlook) : Outlook :=
  { v with ahead := v.ahead ++ text, marker := marker }

/-- A step does not look behind the next token. -/
theorem next_over (h : v.ahead ≠ []) :
    (v.over text marker).next table = (v.next table).over text marker := by
  obtain ⟨t, rest, hahead⟩ := List.exists_cons_of_ne_nil h
  have hmore : (v.over text marker).ahead ≠ [] := by simp [Outlook.over, hahead]
  have hlook : (v.over text marker).lookahead = v.lookahead := by
    simp [Outlook.over, Outlook.lookahead, hahead]
  have hpass : (v.over text marker).pass = v.pass.over text marker := by
    simp [Outlook.over, Outlook.pass, hahead]
  have hcomplain : ∀ fault, (v.over text marker).complain fault =
      (v.complain fault).over text marker := fun fault => by
    rw [Outlook.complain, hlook]
    rfl
  have hskip : (v.over text marker).skip = v.skip.over text marker := by
    rw [Outlook.skip, hlook, hcomplain]
    simp [Outlook.skip, Outlook.over, Outlook.pass, Outlook.complain, hahead]
  have hpredicted : ∀ n, (v.over text marker).predicted? table n = v.predicted? table n :=
    fun n => by rw [Outlook.predicted?, hlook, ← Outlook.predicted?]
  have hfollow : ∀ n, (v.over text marker).canFollow table n = v.canFollow table n :=
    fun n => by rw [Outlook.canFollow, hlook, ← Outlook.canFollow]
  refine next_of_step ?_
  have hstep := step_next table v
  generalize v.next table = v' at hstep ⊢
  cases hstep with
  | idle hg => exact .idle hg
  | act hg => exact .act hg
  | close _ hend => exact absurd hend h
  | shift hg ht =>
    have hshift : Step table (v.over text marker) _ := .shift hg (by rw [hlook]; exact ht)
    rwa [hpass] at hshift
  | expand hg hb => exact .expand hg ((hpredicted _).trans hb)
  | @missingTerminal t rest hg ht =>
    have hmissing : Step table (v.over text marker) _ :=
      .missingTerminal hg (by rw [hlook]; exact ht)
    rwa [hcomplain] at hmissing
  | missingPhrase hg hb hf =>
    have hmissing := Step.missingPhrase (v := v.over text marker) hg ((hpredicted _).trans hb)
      ((hfollow _).trans hf)
    rwa [hcomplain] at hmissing
  | tooLong hg _ =>
    rw [← hskip]
    exact .tooLong hg hmore
  | illegal hg hb hf _ =>
    rw [← hskip]
    exact .illegal hg ((hpredicted _).trans hb) ((hfollow _).trans hf) hmore
  | abandon _ _ _ hend => exact absurd hend h

/-- Steps until no token is ahead, at most `bound` of them. -/
def Outlook.exhaust (table : Table) : Nat → Outlook → Outlook
  | 0, v => v
  | bound + 1, v => if v.ahead = [] then v else exhaust table bound (v.next table)

/-- **A text is passed in the same way** whatever is behind it. -/
theorem exists_iterate_over (bound : Nat) : ∃ k,
    (next table)^[k] (v.over text marker) = (v.exhaust table bound).over text marker := by
  induction bound generalizing v with
  | zero => exact ⟨0, rfl⟩
  | succ bound ih =>
    unfold Outlook.exhaust
    split
    · exact ⟨0, rfl⟩
    · rename_i hahead
      obtain ⟨k, hk⟩ := ih (v := v.next table)
      refine ⟨k + 1, ?_⟩
      rw [Function.iterate_succ_apply, next_over hahead, hk]

/-- **Behind a text** the derivation finishes with the errors it finishes with from there. -/
theorem finishes_exhaust (bound : Nat) :
    Finishes table (v.over text marker) errors ↔
      Finishes table ((v.exhaust table bound).over text marker) errors := by
  obtain ⟨k, hk⟩ : ∃ k, (next table)^[k] (v.over text marker) =
    (v.exhaust table bound).over text marker := exists_iterate_over bound
  rw [← hk, finishes_iterate]

/-- Goals with the first phrase replaced, or the first action passed over. -/
def lead (table : Table) (t : Terminal) : List (Option Symbol) → List (Option Symbol)
  | some (.action _) :: goals => goals
  | some (.nonterminal n) :: goals =>
    match (table.production? n t).bind fun index => productions[index]? with
    | some p => p.body.map some ++ goals
    | none => some (.nonterminal n) :: goals
  | goals => goals

/-- **A terminal leads to goals** without being passed. -/
theorem exists_iterate_lead {t : Terminal} (ht : Terminal.ofToken? v.lookahead = some t) (n : Nat) :
    ∃ k, (next table)^[k] v = v.turnTo ((lead table t)^[n] v.goals) := by
  induction n with
  | zero => exact ⟨0, rfl⟩
  | succ n ih =>
    obtain ⟨k, hk⟩ := ih
    rw [Function.iterate_succ_apply']
    have hlook : Terminal.ofToken? (v.turnTo ((lead table t)^[n] v.goals)).lookahead = some t := ht
    generalize (lead table t)^[n] v.goals = goals at hk hlook
    have hstays : lead table t goals = goals → ∃ k,
        (next table)^[k] v = v.turnTo (lead table t goals) := fun h => ⟨k, by rw [h, hk]⟩
    have hmoves : next table (v.turnTo goals) = v.turnTo (lead table t goals) → ∃ k,
        (next table)^[k] v = v.turnTo (lead table t goals) := fun h =>
      ⟨k + 1, by rw [Function.iterate_succ_apply', hk, h]⟩
    cases goals with
    | nil => exact hstays rfl
    | cons goal goals =>
      rcases goal with _ | ⟨u⟩ | ⟨n⟩ | ⟨a⟩
      · exact hstays rfl
      · exact hstays rfl
      · cases hbody : (table.production? n t).bind fun index => productions[index]? with
        | none => exact hstays (by simp only [lead, hbody])
        | some p =>
          have hlead : lead table t (some (.nonterminal n) :: goals) =
              p.body.map some ++ goals := by simp only [lead, hbody]
          have hpredicted : (v.turnTo (some (.nonterminal n) :: goals)).predicted? table n =
              some p.body := by
            obtain ⟨index, hindex, hp⟩ := Option.bind_eq_some_iff.1 hbody
            simp [Outlook.predicted?, hlook, hindex, hp]
          refine hmoves ((next_of_step (.expand rfl hpredicted)).trans ?_)
          rw [hlead]
          rfl
      · exact hmoves (next_of_step (.act rfl))

theorem finishes_lead {t : Terminal} {goals' : List (Option Symbol)} (n : Nat)
    (ht : Terminal.ofToken? (text.headD marker) = some t)
    (hgoals : (lead table t)^[n] goals = goals') :
    Finishes table ⟨goals, text, marker, errors⟩ errors' ↔
      Finishes table ⟨goals', text, marker, errors⟩ errors' := by
  obtain ⟨k, hk⟩ := exists_iterate_lead (v := ⟨goals, text, marker, errors⟩) ht n
  rw [← finishes_iterate k, hk, hgoals]
  rfl

/-- **A token that is a goal** is passed. -/
theorem finishes_shift {t : Token} {u : Terminal} (hu : Terminal.ofToken? t = some u) :
    Finishes table ⟨some (.terminal u) :: goals, t :: rest, marker, errors⟩ errors' ↔
      Finishes table ⟨goals, rest, marker, errors⟩ errors' := by
  have hnext : next table ⟨some (.terminal u) :: goals, t :: rest, marker, errors⟩ =
      ⟨goals, rest, marker, errors⟩ := next_of_step (.shift rfl hu)
  rw [← finishes_next, hnext]

/-- How many tokens are skipped at most: those that have been, and those ahead. -/
def Outlook.burden (v : Outlook) : Nat :=
  (v.errors.filter SyntaxError.isIllegal).length + v.ahead.length

theorem burden_next_le : (v.next table).burden ≤ v.burden := by
  have hskip : v.ahead ≠ [] → v.skip.burden ≤ v.burden := fun h => by
    obtain ⟨t, rest, hahead⟩ := List.exists_cons_of_ne_nil h
    simp [Outlook.skip, Outlook.complain, Outlook.pass, Outlook.burden, hahead,
      List.filter_cons, SyntaxError.isIllegal]
    omega
  have hcomplain : ∀ fault goals, (∀ name, fault ≠ .illegal name) →
      ((v.complain fault).turnTo goals).burden = v.burden := fun fault goals h => by
    cases fault with
    | illegal name => exact absurd rfl (h name)
    | missing | unexpectedEnd =>
      simp [Outlook.complain, Outlook.turnTo, Outlook.burden, SyntaxError.isIllegal]
  have hstep := step_next table v
  generalize v.next table = v' at hstep ⊢
  cases hstep with
  | idle | act | close | expand => exact Nat.le_refl _
  | shift =>
    have htail : v.ahead.tail.length ≤ v.ahead.length := by simp
    exact Nat.add_le_add_left htail _
  | missingTerminal | missingPhrase | abandon => exact Nat.le_of_eq (hcomplain _ _ (by simp))
  | tooLong _ hend | illegal _ _ _ hend => exact hskip hend

theorem burden_iterate_le (k : Nat) : ((next table)^[k] v).burden ≤ v.burden := by
  induction k generalizing v with
  | zero => exact Nat.le_refl _
  | succ k ih => exact Nat.le_trans ih burden_next_le

/-- **No more tokens are illegal in the end** than have been skipped or are ahead. -/
theorem isIllegal_le_burden (h : Finishes table v errors) :
    (errors.filter SyntaxError.isIllegal).length ≤ v.burden := by
  obtain ⟨k, -, rfl⟩ := h
  exact Nat.le_trans (Nat.le_add_right _ _) (burden_iterate_le k)

end Stretches

end Derivation

end OnePass
