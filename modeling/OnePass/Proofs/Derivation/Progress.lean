import OnePass.Proofs.Derivation.Moves
import OnePass.Proofs.Grammar.Derives

/-!
# The machine comes to an end

A number is attached to a machine that every move makes smaller (`potential`), so the
machine has no goal left before the steps it is given run out.

A goal weighs what it takes to give it up or to let it be empty. Matching a token pays
for all the bodies on the way to its terminal, and `slack` is the part of that payment
that is not spent: on the way down to the terminal it shrinks with the rank of the
phrases, which falls, as no phrase of the language begins with itself.

* `potential_lt_of_move`: every move makes the potential smaller.
* `goals_of_run`: a run within the bound leaves no goal.
-/

namespace OnePass

open Grammar

/-- How many phrases may lie above the first terminal of a phrase. -/
def Grammar.Nonterminal.rank : Nonterminal → Nat
  | .program | .assigned | .returnValue | .relation | .arguments => 4
  | .statements | .expression => 3
  | .statement | .term => 2
  | .simpleStatement | .compoundStatement | .factor | .atomRest => 1
  | _ => 0

/-- How many moves it takes at most until a phrase is gone, if no token is matched meanwhile. -/
def Grammar.Nonterminal.weight : Nonterminal → Nat
  | .relation => 17
  | .arguments => 10
  | .returnValue => 9
  | .assigned => 8
  | .expression => 7
  | .term => 5
  | .atomRest => 4
  | .statement | .factor => 3
  | .program | .simpleStatement | .compoundStatement | .elseBlock => 2
  | _ => 1

def Grammar.Symbol.weight : Grammar.Symbol → Nat
  | .nonterminal n => n.weight
  | _ => 1

/-- The weight of a string of symbols. -/
def Grammar.weight (body : List Grammar.Symbol) : Nat := (body.map Grammar.Symbol.weight).sum

def Grammar.Symbol.isTerminal : Grammar.Symbol → Bool
  | .terminal _ => true
  | _ => false

/-- The phrases before the first terminal. -/
def Grammar.leading : List Grammar.Symbol → List Nonterminal
  | [] => []
  | .terminal _ :: _ => []
  | .nonterminal n :: rest => n :: leading rest
  | .action _ :: rest => leading rest

/-- The greatest weight of a body. -/
def Grammar.maxWeight : Nat := 24

/-- The weight of all bodies on the way to a terminal. -/
def Grammar.pathWeight : Nat := 5 * maxWeight

theorem Grammar.rank_le (n : Nonterminal) : n.rank ≤ 4 := by cases n <;> decide

theorem Grammar.weight_pos (n : Nonterminal) : 0 < n.weight := by cases n <;> decide

/-- **No phrase begins with itself:** the rank falls on the way to the first terminal. -/
theorem Grammar.rank_lt_of_leading :
    ∀ p ∈ productions, ∀ n ∈ leading p.body, n.rank < p.head.rank := by decide

/-- A body without terminals weighs less than its head. -/
theorem Grammar.weight_lt_of_no_terminal : ∀ p ∈ productions,
    p.body.any Grammar.Symbol.isTerminal = false → weight p.body < p.head.weight := by decide

theorem Grammar.weight_le_maxWeight : ∀ p ∈ productions, weight p.body ≤ maxWeight := by decide

namespace Derivation

open Lexical (Token)

def Goal.weight : Goal → Nat
  | .phrase n _ => n.weight
  | _ => 1

/-- The weight of a string of goals. -/
def weights (goals : List Goal) : Nat := (goals.map Goal.weight).sum

/-- What is left to pay for on the way to the next token's terminal, as far as the goals lead
there. -/
def slack (k : Facts) (next : Option Terminal) : List Goal → Nat
  | [] => 0
  | .act _ :: rest => slack k next rest
  | .textEnd :: _ => pathWeight
  | .leaf t _ :: _ => if next = some t then 0 else pathWeight
  | .phrase n _ :: rest =>
    if ∃ t, next = some t ∧ t ∈ (k.phrase n).first then (n.rank + 1) * maxWeight
    else if (k.phrase n).nullable then slack k next rest
    else pathWeight

theorem weights_append (a b : List Goal) : weights (a ++ b) = weights a + weights b := by
  simp [weights]

theorem weights_cons (goal : Goal) (rest : List Goal) :
    weights (goal :: rest) = goal.weight + weights rest := by
  simp [weights]

theorem Goal.weight_pos (goal : Goal) : 0 < goal.weight := by
  cases goal with
  | phrase n node => exact Grammar.weight_pos n
  | _ => exact Nat.one_pos

theorem weights_goalsOf (next : Nat) (body : List Symbol) :
    weights (goalsOf next body) = Grammar.weight body := by
  induction body generalizing next with
  | nil => rfl
  | cons s body ih =>
    cases s with
    | terminal t => rw [goalsOf, weights_cons, ih]; rfl
    | nonterminal n => rw [goalsOf, weights_cons, ih]; rfl
    | action a => rw [goalsOf, weights_cons, ih]; rfl

section Slack

variable {k : Facts} {next : Option Terminal}

theorem slack_le (k : Facts) (next : Option Terminal) (goals : List Goal) :
    slack k next goals ≤ pathWeight := by
  induction goals with
  | nil => exact Nat.zero_le _
  | cons goal rest ih =>
    cases goal with
    | textEnd => exact Nat.le_refl _
    | leaf t node =>
      unfold slack
      split
      · exact Nat.zero_le _
      · exact Nat.le_refl _
    | act a => exact ih
    | phrase n node =>
      unfold slack
      split
      · have := rank_le n
        unfold pathWeight
        exact Nat.mul_le_mul_right _ (by omega)
      · split
        · exact ih
        · exact Nat.le_refl _

/-- On the way down to the next token's terminal the slack is that of a phrase at the front. -/
theorem slack_goalsOf_le {t : Terminal} {body : List Symbol} {r : Nat} (ht : t ∈ k.first body)
    (hr : ∀ n ∈ leading body, n.rank < r) (i : Nat) (rest : List Goal) :
    slack k (some t) (goalsOf i body ++ rest) ≤ r * maxWeight := by
  induction body generalizing i with
  | nil => simp [Facts.first] at ht
  | cons s body ih =>
    cases s with
    | terminal u =>
      rw [Facts.first, TerminalSet.mem_singleton] at ht
      subst ht
      simp [goalsOf, slack]
    | action a => exact ih ht hr i
    | nonterminal n =>
      rw [goalsOf, List.cons_append, slack]
      have hn : n.rank < r := hr n List.mem_cons_self
      split
      · exact Nat.mul_le_mul_right _ hn
      · rename_i hc
        rw [Facts.first, TerminalSet.mem_union, TerminalSet.mem_onlyIf] at ht
        rcases ht with ht | ⟨hnull, ht⟩
        · exact absurd ⟨t, rfl, ht⟩ hc
        · rw [if_pos hnull]
          exact ih ht (fun m hm => hr m (List.mem_cons_of_mem _ hm)) _

/-- A body that is empty before the next token leaves the slack as it is. -/
theorem slack_goalsOf_nullable {t : Terminal} {body : List Symbol} (hn : k.nullable body = true)
    (ht : t ∉ k.first body) (i : Nat) (rest : List Goal) :
    slack k (some t) (goalsOf i body ++ rest) = slack k (some t) rest := by
  induction body generalizing i with
  | nil => rfl
  | cons s body ih =>
    cases s with
    | terminal u => simp [Facts.nullable] at hn
    | action a => exact ih hn ht i
    | nonterminal n =>
      rw [Facts.nullable, Bool.and_eq_true] at hn
      rw [Facts.first, TerminalSet.mem_union, TerminalSet.mem_onlyIf, not_or, not_and] at ht
      rw [goalsOf, List.cons_append, slack, if_neg, if_pos hn.1]
      · exact ih hn.2 (ht.2 hn.1) _
      · rintro ⟨u, hu, hmem⟩
        cases hu
        exact ht.1 hmem

end Slack

theorem no_terminal_of_nullable {k : Facts} {body : List Symbol} (h : k.nullable body = true) :
    body.any Symbol.isTerminal = false := by
  induction body with
  | nil => rfl
  | cons s body ih =>
    cases s with
    | terminal u => simp [Facts.nullable] at h
    | action a => simpa [Symbol.isTerminal] using ih h
    | nonterminal n =>
      rw [Facts.nullable, Bool.and_eq_true] at h
      simpa [Symbol.isTerminal] using ih h.2

namespace Machine

variable {table : Table} {m m' : Machine}

/-- **What every move makes smaller.** -/
def potential (k : Facts) (m : Machine) : Nat :=
  (pathWeight + 1) * m.pending.length + weights m.goals
    + slack k (Terminal.ofToken? m.lookahead) m.goals

/-- A terminal that begins a phrase begins the body that the table predicts on it. -/
theorem predicted?_of_first (htable : Grammar.table = .ok table) {n : Nonterminal} {t : Terminal}
    (ht : t ∈ (table.facts.phrase n).first) (hl : Terminal.ofToken? m.lookahead = some t) :
    ∃ body, m.predicted? table n = some body ∧ t ∈ table.facts.first body := by
  have hfacts := (build_eq_ok htable).1
  obtain ⟨p, hp, rfl, hpt⟩ := (hfacts ▸ Facts.supported_ofProductions _ _ :
    table.facts.Supported productions) _ t ht
  have hla : t ∈ table.facts.lookaheads p.head p.body := by
    rw [Facts.lookaheads, TerminalSet.mem_union]
    exact .inl hpt
  obtain ⟨i, hi, hpi⟩ := production?_of_mem htable hp hla
  refine ⟨p.body, ?_, hpt⟩
  simp [predicted?, hl, hi, hpi]

/-- A predicted body is the body of a production with the next terminal among its lookaheads. -/
theorem lookaheads_of_predicted? (htable : Grammar.table = .ok table) {n : Nonterminal}
    {body : List Symbol} (h : m.predicted? table n = some body) :
    ∃ t p, Terminal.ofToken? m.lookahead = some t ∧ p ∈ productions ∧ p.head = n ∧ p.body = body ∧
      t ∈ table.facts.lookaheads p.head p.body := by
  obtain ⟨t, i, p, ht, hi, hp, rfl⟩ := mem_of_predicted? h
  obtain ⟨q, hq, hhead, hla⟩ := mem_of_production? htable hi
  rw [hp] at hq
  cases hq
  exact ⟨t, p, ht, List.mem_of_getElem? hp, hhead, rfl, hla⟩

/-- Replacing a phrase by its body makes the potential smaller. -/
theorem weights_expand_lt (htable : Grammar.table = .ok table) {n : Nonterminal} {body : List Symbol}
    (h : m.predicted? table n = some body) (node next : Nat) (rest : List Goal) :
    weights (goalsOf next body ++ rest)
        + slack table.facts (Terminal.ofToken? m.lookahead) (goalsOf next body ++ rest) <
      weights (.phrase n node :: rest)
        + slack table.facts (Terminal.ofToken? m.lookahead) (.phrase n node :: rest) := by
  have hclosed := (build_eq_ok htable).1 ▸ Facts.closed_ofProductions productions Grammar.start
  obtain ⟨t, p, ht, hp, rfl, rfl, hla⟩ := lookaheads_of_predicted? htable h
  rw [weights_append, weights_goalsOf, weights_cons, ht]
  have hw : Goal.weight (.phrase p.head node) = p.head.weight := rfl
  have hpos := Grammar.weight_pos p.head
  by_cases hf : t ∈ (table.facts.phrase p.head).first
  · obtain ⟨body, hb, htb⟩ := predicted?_of_first htable hf ht
    rw [h] at hb
    cases hb
    have h1 := slack_goalsOf_le htb (rank_lt_of_leading p hp) next rest
    have h2 : slack table.facts (some t) (.phrase p.head node :: rest) =
        (p.head.rank + 1) * maxWeight := by
      rw [slack, if_pos ⟨t, rfl, hf⟩]
    have h3 := weight_le_maxWeight p hp
    rw [Nat.add_mul, Nat.one_mul] at h2
    omega
  · have htb : t ∉ table.facts.first p.body := fun hc => hf (hclosed.first p hp t hc)
    rw [Facts.lookaheads, TerminalSet.mem_union, TerminalSet.mem_onlyIf] at hla
    have hnull := (hla.resolve_left htb).1
    have h1 := slack_goalsOf_nullable hnull htb next rest
    have h2 : slack table.facts (some t) (.phrase p.head node :: rest) =
        slack table.facts (some t) rest := by
      rw [slack, if_neg, if_pos (hclosed.nullable p hp hnull)]
      rintro ⟨u, hu, hmem⟩
      cases hu
      exact hf hmem
    have h3 := weight_lt_of_no_terminal p hp (no_terminal_of_nullable hnull)
    omega

/-- Giving up a goal that the next token does not begin takes no slack. -/
theorem slack_giveUp_le (htable : Grammar.table = .ok table) {goal : Goal}
    (h : (∃ t node, goal = .leaf t node ∧ Terminal.ofToken? m.lookahead ≠ some t) ∨
      ∃ n node, goal = .phrase n node ∧ m.predicted? table n = none) (rest : List Goal) :
    slack table.facts (Terminal.ofToken? m.lookahead) rest ≤
      slack table.facts (Terminal.ofToken? m.lookahead) (goal :: rest) := by
  rcases h with ⟨t, node, rfl, ht⟩ | ⟨n, node, rfl, hn⟩
  · rw [slack, if_neg ht]
    exact slack_le _ _ rest
  · have hno : ¬∃ t, Terminal.ofToken? m.lookahead = some t ∧
        t ∈ (table.facts.phrase n).first := by
      rintro ⟨t, ht, hmem⟩
      obtain ⟨body, hb, -⟩ := predicted?_of_first htable hmem ht
      rw [hn] at hb
      cases hb
    rw [slack, if_neg hno]
    split
    · exact Nat.le_refl _
    · exact slack_le _ _ rest

/-- **Every move makes the potential smaller.** -/
theorem potential_lt_of_move (htable : Grammar.table = .ok table) (hm : m.Orderly)
    (h : Move table m m') : m'.potential table.facts < m.potential table.facts := by
  unfold potential
  cases h with
  | act hg _ =>
    rw [hg, weights_cons]
    exact Nat.add_lt_add_right (Nat.add_lt_add_left (Nat.lt_add_of_pos_left Nat.one_pos) _) _
  | @close rest hg _ =>
    have hle := slack_le table.facts (Terminal.ofToken? m.lookahead) rest
    rw [hg, weights_cons]
    refine Nat.add_lt_add_of_lt_of_le ?_ hle
    exact Nat.add_lt_add_left (Nat.lt_add_of_pos_left Nat.one_pos) _
  | @shift t node rest hg ht =>
    have hne : t ≠ .endMarker := hm.goals t node (by rw [hg]; exact List.mem_cons_self)
    have hm' : Orderly { m with goals := rest } := hm.of_goals fun u v hmem =>
      hm.goals u v (by rw [hg]; exact List.mem_cons_of_mem _ hmem)
    have hp := pending_eq_cons (isEndOfInput_of_ofToken? ht hne)
    have hp' : ({ m with goals := rest }.shift node).pending = m.upcoming :=
      (pending_shift hm' node).trans (congrArg List.tail hp)
    have hg' : ({ m with goals := rest }.shift node).goals = rest := goals_advance
    have hle := slack_le table.facts
      (Terminal.ofToken? ({ m with goals := rest }.shift node).lookahead) rest
    rw [hp', hp, hg', hg, weights_cons, List.length_cons, Nat.mul_add, Nat.mul_one]
    omega
  | @expand n node rest body hg hb =>
    have h1 := weights_expand_lt htable hb node m.tree.next rest
    rw [hg, Nat.add_assoc, Nat.add_assoc]
    exact Nat.add_lt_add_left h1 _
  | @giveUp goal name rest hg hblocked =>
    obtain ⟨tree, h⟩ := giveUp_eq (m := { m with goals := rest }) goal name
    have h1 := slack_giveUp_le htable hblocked rest
    have h2 := goal.weight_pos
    rw [h, hg, weights_cons]
    refine Nat.add_lt_add_of_lt_of_le ?_ h1
    exact Nat.add_lt_add_left (Nat.lt_add_of_pos_left h2) _
  | skip hend _ =>
    have hp := pending_eq_cons hend
    have hp' : m.skip.pending = m.upcoming := (pending_skip hm).trans (congrArg List.tail hp)
    have hg' : m.skip.goals = m.goals := goals_advance
    have hle := slack_le table.facts (Terminal.ofToken? m.skip.lookahead) m.goals
    rw [hp', hp, hg', List.length_cons, Nat.mul_add, Nat.mul_one]
    omega
  | @abandon n node rest hg _ =>
    obtain ⟨tree, h⟩ := abandon_eq (m := m)
    have h2 := (Goal.phrase n node).weight_pos
    rw [h, hg, weights_cons]
    refine Nat.add_lt_add_of_lt_of_le ?_ (Nat.zero_le _)
    exact Nat.add_lt_add_left (Nat.lt_of_lt_of_le h2 (Nat.le_add_right _ _)) _

/-- **A run within the bound leaves no goal.** -/
theorem goals_of_run (htable : Grammar.table = .ok table) {bound : Nat} (hm : m.Orderly)
    (hb : m.potential table.facts ≤ bound) (h : run table bound m = .ok m') : m'.goals = [] := by
  induction bound generalizing m with
  | zero =>
    simp only [run, Except.ok.injEq] at h
    subst h
    cases hg : m.goals with
    | nil => rfl
    | cons goal rest =>
      have := goal.weight_pos
      rw [potential, hg, weights_cons] at hb
      omega
  | succ bound ih =>
    unfold run at h
    split at h
    · rename_i hz
      cases hz
    · rename_i hg _
      cases h
      exact hg
    · rename_i b goal rest hb' hg
      cases hb'
      split at h
      · rename_i next hstep
        have hmove := move_of_step hg hstep
        have := potential_lt_of_move htable hm hmove
        exact ih (hm.move hmove) (by omega) h
      · cases h

/-- **The bound on the steps is enough** for every text. -/
theorem potential_start_le (config : Config) {tokens : List Lexical.Token}
    {endMarker : Lexical.Token} (ht : ∀ t ∈ tokens, t.isEndOfInput = false)
    (he : endMarker.isEndOfInput = true) (k : Facts) :
    (start config tokens endMarker).potential k ≤ stepBound tokens.length := by
  have hg : (start config tokens endMarker).goals = [.phrase Grammar.start Tree.root, .textEnd] :=
    goals_advance
  have hw : weights [.phrase Grammar.start Tree.root, .textEnd] = 3 := rfl
  have hs := slack_le k (Terminal.ofToken? (start config tokens endMarker).lookahead)
    [.phrase Grammar.start Tree.root, .textEnd]
  have hpath : pathWeight = 120 := rfl
  rw [potential, pending_start config ht he, hg, hw, hpath]
  rw [hpath] at hs
  unfold stepBound
  omega

end Machine

end Derivation

end OnePass
