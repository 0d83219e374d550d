import Mathlib.Logic.Relation
import Mathlib.Tactic.Common
import OnePass.Derivation.Machine

/-!
# The moves of the derivation machine

Every step of the machine is one of seven moves. Four of them go on with the
derivation and three repair an error, and only those three add to the errors.

* `Move`, `move_of_step`: what a step does, and that it does nothing else.
* `Reaches`: any number of moves; `reaches_of_run`.
* `Orderly`: what holds of the tokens and goals of every machine that is reached.
* `errors_mono`: errors are never taken back.
-/

namespace OnePass

open Grammar (Terminal Nonterminal Table Action)
open Lexical (Token)

/-- Only literal terminals are found by their texts. -/
theorem Grammar.Terminal.ofLexeme?_ne {t : Terminal} (h : t.isLiteral = false) (x : String) :
    Terminal.ofLexeme? x ≠ some t := fun hx => by
  have hfound := List.find?_some hx
  rw [h, Bool.false_and] at hfound
  cases hfound

theorem Grammar.Terminal.ofToken?_eq_endMarker {t : Token} :
    Terminal.ofToken? t = some .endMarker ↔ t.isEndOfInput = true := by
  have hlit := Terminal.ofLexeme?_ne (t := .endMarker) rfl
  unfold Terminal.ofToken? Token.isEndOfInput
  cases t.kind <;> simp [hlit]

theorem Grammar.Terminal.ofToken?_eq_identifier {t : Token} :
    Terminal.ofToken? t = some .identifier ↔ t.kind = .identifier := by
  have hlit := Terminal.ofLexeme?_ne (t := .identifier) rfl
  unfold Terminal.ofToken?
  cases t.kind <;> simp [hlit]

namespace Derivation.Machine

variable {table : Table} {m m' : Machine}

/-- **What a step does.** -/
inductive Move (table : Table) (m : Machine) : Machine → Prop
  /-- The action on top is performed. -/
  | act {a : Action} {rest : List Goal} {g : Emission.Generator} (hg : m.goals = .act a :: rest)
      (h : Emission.perform a m.lastLexeme m.lastLine m.generator = .ok () g) :
      Move table m { m with goals := rest, generator := g }
  /-- The end of the text is where it is expected. -/
  | close {rest : List Goal} (hg : m.goals = .textEnd :: rest)
      (h : m.lookahead.isEndOfInput = true) :
      Move table m { m with
        goals := rest
        tree := m.tree.addChild Tree.root Terminal.endMarker.lexeme }
  /-- The terminal on top is the next token's. -/
  | shift {t : Terminal} {node : Nat} {rest : List Goal} (hg : m.goals = .leaf t node :: rest)
      (h : Terminal.ofToken? m.lookahead = some t) :
      Move table m ({ m with goals := rest }.shift node)
  /-- The phrase on top is replaced by the body that the table predicts. -/
  | expand {n : Nonterminal} {node : Nat} {rest : List Goal} {body : List Grammar.Symbol}
      (hg : m.goals = .phrase n node :: rest) (h : m.predicted? table n = some body) :
      Move table m ({ m with goals := rest }.expand node body)
  /-- A terminal that the next token is not, or a phrase that it does not begin, is given up. -/
  | giveUp {goal : Goal} {name : String} {rest : List Goal} (hg : m.goals = goal :: rest)
      (h : (∃ t node, goal = .leaf t node ∧ Terminal.ofToken? m.lookahead ≠ some t) ∨
        ∃ n node, goal = .phrase n node ∧ m.predicted? table n = none) :
      Move table m ({ m with goals := rest }.giveUp goal name)
  /-- The next token is passed over, where the end or a phrase that it does not begin is to come. -/
  | skip (h : m.lookahead.isEndOfInput = false)
      (hg : (∃ rest, m.goals = .textEnd :: rest) ∨
        ∃ n node rest, m.goals = .phrase n node :: rest ∧ m.predicted? table n = none) :
      Move table m m.skip
  /-- All goals are given up at the end of the text. -/
  | abandon {n : Nonterminal} {node : Nat} {rest : List Goal}
      (hg : m.goals = .phrase n node :: rest) (h : m.predicted? table n = none) :
      Move table m m.abandon

/-- **Every step is a move.** -/
theorem move_of_step {goal : Goal} {rest : List Goal} (hg : m.goals = goal :: rest)
    (h : m.step table goal rest = .ok m') : Move table m m' := by
  unfold step at h
  cases goal with
  | act a =>
    simp only [Machine.act] at h
    split at h
    · rename_i g hp
      cases h
      exact .act hg hp
    · cases h
  | textEnd =>
    simp only at h
    split at h
    · rename_i he
      cases h
      exact .close hg he
    · rename_i he
      cases h
      exact .skip (by simpa using he) (.inl ⟨rest, hg⟩)
  | leaf t node =>
    simp only at h
    split at h
    · rename_i ht
      cases h
      exact .shift hg ht
    · rename_i ht
      cases h
      exact .giveUp hg (.inl ⟨t, node, rfl, ht⟩)
  | phrase n node =>
    simp only at h
    split at h
    · rename_i body hb
      cases h
      exact .expand hg hb
    · rename_i hb
      split at h
      · cases h
        exact .giveUp hg (.inr ⟨n, node, rfl, hb⟩)
      · split at h
        · cases h
          exact .abandon hg hb
        · rename_i he
          cases h
          exact .skip (by simpa using he) (.inr ⟨n, node, rest, hg, hb⟩)

/-- Any number of moves. -/
abbrev Reaches (table : Table) : Machine → Machine → Prop := Relation.ReflTransGen (Move table)

theorem reaches_of_run {bound : Nat} (h : run table bound m = .ok m') : Reaches table m m' := by
  induction bound generalizing m with
  | zero =>
    simp only [run, Except.ok.injEq] at h
    rw [h]
  | succ bound ih =>
    unfold run at h
    split at h
    · rename_i hz
      cases hz
    · cases h
      exact .refl
    · rename_i b goal rest hb hg
      cases hb
      split at h
      · rename_i next hstep
        exact .head (move_of_step hg hstep) (ih h)
      · cases h

/-- The tokens that are still to be matched. -/
def pending (m : Machine) : List Token :=
  if m.lookahead.isEndOfInput then [] else m.lookahead :: m.upcoming

/-- **Tokens and goals are in order:** only behind the last token comes the end marker, and no goal
asks for the end marker as a terminal. -/
structure Orderly (m : Machine) : Prop where
  marker : m.endMarker.isEndOfInput = true
  tokens : ∀ t ∈ m.upcoming, t.isEndOfInput = false
  last : m.lookahead.isEndOfInput = true → m.upcoming = []
  goals : ∀ t node, .leaf t node ∈ m.goals → t ≠ .endMarker

theorem pending_advance (hm : m.Orderly) : m.advance.pending = m.pending.tail := by
  unfold pending advance
  cases hu : m.upcoming with
  | nil =>
    simp only [hm.marker, if_true]
    split <;> rfl
  | cons t rest =>
    have ht := hm.tokens t (by rw [hu]; exact List.mem_cons_self)
    have hl : m.lookahead.isEndOfInput = false := by
      by_contra hc
      have := hm.last (by simpa using hc)
      rw [hu] at this
      cases this
    simp [ht, hl]

theorem Orderly.advance (hm : m.Orderly) : m.advance.Orderly := by
  unfold Machine.advance
  cases hu : m.upcoming with
  | nil => exact ⟨hm.marker, by simp, fun _ => rfl, hm.goals⟩
  | cons t rest =>
    have ht : t.isEndOfInput = false := hm.tokens t (by rw [hu]; exact List.mem_cons_self)
    refine ⟨hm.marker, fun u hmem => hm.tokens u ?_, fun h => ?_, hm.goals⟩
    · rw [hu]
      exact List.mem_cons_of_mem _ hmem
    · rw [ht] at h
      cases h

theorem goals_advance : m.advance.goals = m.goals := by
  unfold Machine.advance
  split <;> rfl

theorem pending_shift (hm : m.Orderly) (node : Nat) : (m.shift node).pending = m.pending.tail :=
  pending_advance (m := { m with
    tree := m.tree.relabel node m.lookahead.display
    lastLexeme := m.lookahead.lexeme
    lastLine := m.lookahead.line }) ⟨hm.marker, hm.tokens, hm.last, hm.goals⟩

theorem pending_skip (hm : m.Orderly) : m.skip.pending = m.pending.tail :=
  pending_advance (m := m.complain _) ⟨hm.marker, hm.tokens, hm.last, hm.goals⟩

/-- Before the end of the text the next token is the first that is still to be matched. -/
theorem pending_eq_cons (h : m.lookahead.isEndOfInput = false) :
    m.pending = m.lookahead :: m.upcoming := by
  simp [pending, h]

theorem isEndOfInput_of_ofToken? {t : Terminal} (h : Terminal.ofToken? m.lookahead = some t)
    (ht : t ≠ .endMarker) : m.lookahead.isEndOfInput = false := by
  by_contra hc
  have hmarker := Terminal.ofToken?_eq_endMarker.2 (by simpa using hc)
  rw [h, Option.some.injEq] at hmarker
  exact ht hmarker

/-- Goals are in order when their terminals are. -/
theorem Orderly.of_goals {goals : List Goal} (hm : m.Orderly)
    (h : ∀ t node, .leaf t node ∈ goals → t ≠ .endMarker) : Orderly { m with goals := goals } :=
  ⟨hm.marker, hm.tokens, hm.last, h⟩

theorem mem_goalsOf {t : Terminal} {node next : Nat} {body : List Grammar.Symbol}
    (h : .leaf t node ∈ goalsOf next body) : .terminal t ∈ body := by
  induction body generalizing next with
  | nil => simp [goalsOf] at h
  | cons s body ih =>
    cases s with
    | terminal u =>
      rw [goalsOf, List.mem_cons] at h
      rcases h with h | h
      · cases h
        exact List.mem_cons_self
      · exact List.mem_cons_of_mem _ (ih h)
    | nonterminal n =>
      rw [goalsOf, List.mem_cons] at h
      rcases h with h | h
      · cases h
      · exact List.mem_cons_of_mem _ (ih h)
    | action a =>
      rw [goalsOf, List.mem_cons] at h
      rcases h with h | h
      · cases h
      · exact List.mem_cons_of_mem _ (ih h)

/-- No production asks for the end of the text. -/
theorem endMarker_not_mem_body : ∀ p ∈ Grammar.productions, .terminal .endMarker ∉ p.body := by
  decide

/-- A predicted body is the body of a production. -/
theorem mem_of_predicted? {n : Nonterminal} {body : List Grammar.Symbol}
    (h : m.predicted? table n = some body) : ∃ t i p, Terminal.ofToken? m.lookahead = some t ∧
      table.production? n t = some i ∧ Grammar.productions[i]? = some p ∧ p.body = body := by
  simpa [predicted?, Option.bind_eq_some_iff] using h

/-- Dropping nodes changes nothing but the tree. -/
theorem foldl_drop (goals : List Goal) : ∃ tree, goals.foldl drop m = { m with tree := tree } := by
  induction goals generalizing m with
  | nil => exact ⟨m.tree, rfl⟩
  | cons goal goals ih =>
    have hd : ∃ tree, m.drop goal = { m with tree := tree } := by
      unfold drop
      split
      · exact ⟨_, rfl⟩
      · exact ⟨m.tree, rfl⟩
    obtain ⟨tree, hd⟩ := hd
    rw [List.foldl_cons, hd]
    exact ih

theorem giveUp_eq (goal : Goal) (name : String) : ∃ tree, m.giveUp goal name =
    { m with tree := tree, errors := m.errors.push ⟨m.lookahead.line, .missing name⟩ } := by
  unfold giveUp drop complain
  split
  · exact ⟨_, rfl⟩
  · exact ⟨m.tree, rfl⟩

theorem abandon_eq : ∃ tree, m.abandon =
    { m with
      tree := tree, goals := [], errors := m.errors.push ⟨m.lookahead.line, .unexpectedEnd⟩ } := by
  obtain ⟨tree, h⟩ := foldl_drop (m := m.complain .unexpectedEnd) m.goals
  refine ⟨tree, ?_⟩
  unfold abandon
  simp only [h]
  rfl

theorem Orderly.move (hm : m.Orderly) (h : Move table m m') : m'.Orderly := by
  have hrest : ∀ {goal rest}, m.goals = goal :: rest →
      ∀ t node, .leaf t node ∈ rest → t ≠ .endMarker := fun hg t node hmem =>
    hm.goals t node (by rw [hg]; exact List.mem_cons_of_mem _ hmem)
  cases h with
  | act hg _ => exact ⟨hm.marker, hm.tokens, hm.last, hrest hg⟩
  | close hg _ => exact ⟨hm.marker, hm.tokens, hm.last, hrest hg⟩
  | shift hg _ => exact Orderly.advance ⟨hm.marker, hm.tokens, hm.last, hrest hg⟩
  | expand hg h =>
    refine ⟨hm.marker, hm.tokens, hm.last, fun t node hmem => ?_⟩
    rcases List.mem_append.1 hmem with hmem | hmem
    · obtain ⟨_, i, p, -, -, hp, rfl⟩ := mem_of_predicted? h
      rintro rfl
      exact endMarker_not_mem_body p (List.mem_of_getElem? hp) (mem_goalsOf hmem)
    · exact hrest hg t node hmem
  | @giveUp goal name rest hg _ =>
    obtain ⟨tree, h⟩ := giveUp_eq (m := { m with goals := rest }) goal name
    rw [h]
    exact ⟨hm.marker, hm.tokens, hm.last, hrest hg⟩
  | skip _ _ => exact Orderly.advance ⟨hm.marker, hm.tokens, hm.last, hm.goals⟩
  | abandon _ _ =>
    obtain ⟨tree, h⟩ := abandon_eq (m := m)
    rw [h]
    exact ⟨hm.marker, hm.tokens, hm.last, by simp⟩

theorem Orderly.reaches (hm : m.Orderly) (h : Reaches table m m') : m'.Orderly := by
  induction h with
  | refl => exact hm
  | tail _ h ih => exact ih.move h

/-- **The start is in order,** if the tokens are tokens and the marker is the end marker. -/
theorem orderly_start (config : Config) {tokens : List Token} {endMarker : Token}
    (ht : ∀ t ∈ tokens, t.isEndOfInput = false) (he : endMarker.isEndOfInput = true) :
    (start config tokens endMarker).Orderly := by
  unfold start Machine.advance
  cases tokens with
  | nil => exact ⟨he, by simp, fun _ => rfl, by simp⟩
  | cons t rest =>
    refine ⟨he, fun u hu => ht u (List.mem_cons_of_mem _ hu), fun h => ?_, by simp⟩
    rw [ht t List.mem_cons_self] at h
    cases h

theorem pending_start (config : Config) {tokens : List Token} {endMarker : Token}
    (ht : ∀ t ∈ tokens, t.isEndOfInput = false) (he : endMarker.isEndOfInput = true) :
    (start config tokens endMarker).pending = tokens := by
  cases tokens with
  | nil => simp [start, Machine.advance, pending, he]
  | cons t rest => simp [start, Machine.advance, pending, ht t List.mem_cons_self]

theorem errors_advance : m.advance.errors = m.errors := by
  unfold Machine.advance
  split <;> rfl

/-- **Errors are never taken back.** -/
theorem errors_mono (h : Reaches table m m') : m.errors.size ≤ m'.errors.size := by
  induction h with
  | refl => exact Nat.le_refl _
  | tail _ h ih =>
    refine Nat.le_trans ih ?_
    cases h with
    | act _ _ => exact Nat.le_refl _
    | close _ _ => exact Nat.le_refl _
    | shift _ _ => simp [shift, errors_advance]
    | expand _ _ => exact Nat.le_refl _
    | @giveUp goal name rest hg _ =>
      obtain ⟨tree, h⟩ := giveUp_eq (m := { ‹Machine› with goals := rest }) goal name
      simp [h]
    | skip _ _ => simp [skip, errors_advance, complain]
    | abandon _ _ =>
      rename_i m₁ _ _ _ _ _ _
      obtain ⟨tree, h⟩ := abandon_eq (m := m₁)
      simp [h]

end Derivation.Machine

end OnePass
