import OnePass.Derivation.Engine
import OnePass.Proofs.Derivation.Arena
import OnePass.Proofs.Derivation.Unfailing
import OnePass.Proofs.Emission.Checking
import OnePass.Proofs.Lexical.Calls
import OnePass.Proofs.Lexical.Reading

/-!
# The engine keeps in step with the machine

The engine goes from machine to machine of the derivation: its array shows the tree, and its
reader stands behind the next token. In each of these machines no number leads astray, so every
step of the engine goes through that goes through in the machine.

* `Engine.Follows`, `Engine.Attends`: an engine in step with a machine.
* `Attends.step`, `Attends.run`: one step, and all of them.
* `parse_eq`: the derivation of a text is that of the machine.
-/

namespace OnePass.Derivation

open Emission Names
open Grammar
open Lexical (Reader Scanner Token scan)
open Machine

variable {config : Config} {source : String} {table : Table} {a : Arena} {t : Tree} {e : Engine}
  {m : Machine} {n : Nat}

section Bodies

/-- A body without grammar symbols gets no nodes. -/
theorem enter_of_actions {body : List Symbol} (h : body.all Symbol.isAction = true)
    (parent next : Nat) (a : Arena) : enter parent body a = .ok (goalsOf next body, a) := by
  induction body with
  | nil => rfl
  | cons s body ih =>
    rw [List.all_cons, Bool.and_eq_true] at h
    cases s with
    | action act =>
      rw [enter, ih h.2]
      rfl
    | terminal t => exact absurd h.1 Bool.false_ne_true
    | nonterminal n => exact absurd h.1 Bool.false_ne_true

/-- **A body is entered** node by node. -/
theorem Arena.Shows.enter {node : Nat} (h : a.Shows t) (hn : node < t.next) (body : List Symbol) :
    ∃ a', enter node body a = .ok (goalsOf t.next body, a') ∧
      a'.Shows (t.addChildren node (named body)) := by
  induction body generalizing a t with
  | nil => exact ⟨a, rfl, (t.addChildren_nil node).symm ▸ h⟩
  | cons s body ih =>
    have hnext : ∀ label, node < (t.addChild node label).next := fun _ => Nat.lt_succ_of_lt hn
    cases s with
    | action act =>
      obtain ⟨a', henter, h'⟩ := ih h hn
      refine ⟨a', ?_, h'⟩
      rw [Derivation.enter, henter]
      rfl
    | terminal u =>
      obtain ⟨a₁, hadd, h₁⟩ := h.addChild hn u.lexeme
      obtain ⟨a₂, henter, h₂⟩ := ih h₁ (hnext _)
      refine ⟨a₂, ?_, ?_⟩
      · rw [Derivation.enter, hadd, Checked.ok_bind]
        dsimp only
        rw [henter]
        rfl
      · rw [← Tree.addChildren_cons] at h₂
        exact h₂
    | nonterminal u =>
      obtain ⟨a₁, hadd, h₁⟩ := h.addChild hn u.name
      obtain ⟨a₂, henter, h₂⟩ := ih h₁ (hnext _)
      refine ⟨a₂, ?_, ?_⟩
      · rw [Derivation.enter, hadd, Checked.ok_bind]
        dsimp only
        rw [henter]
        rfl
      · rw [← Tree.addChildren_cons] at h₂
        exact h₂

/-- **The nodes of a body** are those that the tree gets. -/
theorem Arena.Shows.plant {node : Nat} (h : a.Shows t) (hn : node < t.next) (body : List Symbol) :
    ∃ a', plant node body a = .ok (goalsOf t.next body, a') ∧
      a'.Shows (t.addChildren node (labelsOf body)) := by
  unfold Derivation.plant labelsOf
  by_cases hactions : body.all Symbol.isAction = true
  · obtain ⟨a', hadd, h'⟩ := h.addChild hn emptyLabel
    refine ⟨a', ?_, (if_pos hactions).symm ▸ h'⟩
    rw [if_pos hactions, hadd]
    exact enter_of_actions hactions node t.next a'
  · rw [if_neg hactions, if_neg hactions]
    exact h.enter hn body

end Bodies

namespace Engine

/-- **An engine with the machine that it goes through,** of which the reader has given so many
tokens. -/
structure Follows (config : Config) (source : String) (n : Nat) (e : Engine) (m : Machine) :
    Prop where
  reader : e.reader.Reads ((Scanner.start config.keywords source).after n)
  upcoming : m.upcoming = (scan config.keywords source).tokens.drop n
  marker : m.endMarker = (scan config.keywords source).endMarker
  generator : e.generator = m.generator
  tree : e.arena.Shows m.tree
  goals : e.goals = m.goals
  lookahead : e.lookahead = m.lookahead
  lastLexeme : e.lastLexeme = m.lastLexeme
  lastLine : e.lastLine = m.lastLine
  errors : e.errors = m.errors

namespace Follows

/-- **The next token is read,** while there is one, and behind the last the marker of the end. -/
theorem advance (h : e.Follows config source n m)
    (hn : n ≤ (scan config.keywords source).tokens.length)
    (hindexed : m.generator.symbols.Indexed) : ∃ e', e.advance = .ok e' ∧
      e'.Follows config source (n + 1) m.advance ∧
        m.advance.lookahead =
          (scan config.keywords source).tokens[n]?.getD (scan config.keywords source).endMarker := by
  obtain ⟨r, hpull, hreads, -⟩ := h.reader.pull
  rw [Lexical.pull_after config.keywords source hn] at hpull
  rw [← Scanner.after_succ] at hreads
  have hadvance : e.advance = .ok { e with
      reader := r
      generator := { e.generator with
        symbols := e.generator.symbols.record ((scan config.keywords source).tokens[n]?.getD
          (scan config.keywords source).endMarker) }
      lookahead := (scan config.keywords source).tokens[n]?.getD
        (scan config.keywords source).endMarker } := by
    rw [Engine.advance, hpull, Checked.ok_bind]
    dsimp only
    rw [Names.Strict.record_eq (h.generator ▸ hindexed)]
    rfl
  refine ⟨_, hadvance, ?_⟩
  rcases Nat.lt_or_eq_of_le hn with hlt | heq
  · have hupcoming := h.upcoming
    rw [List.drop_eq_getElem_cons hlt] at hupcoming
    rw [List.getElem?_eq_getElem hlt, Option.getD_some]
    unfold Machine.advance
    rw [hupcoming]
    exact ⟨⟨hreads, rfl, h.marker, by rw [h.generator], h.tree, h.goals, rfl, h.lastLexeme,
      h.lastLine, h.errors⟩, rfl⟩
  · -- the marker of the end is no word
    have hupcoming := h.upcoming
    rw [heq, List.drop_length] at hupcoming
    rw [heq, List.getElem?_length, Option.getD_none]
    unfold Machine.advance
    rw [hupcoming]
    refine ⟨⟨heq ▸ hreads, ?_, h.marker, ?_, h.tree, h.goals, h.marker.symm, h.lastLexeme,
      h.lastLine, h.errors⟩, h.marker⟩
    · exact (List.drop_of_length_le (Nat.le_succ _)).symm
    · rw [h.generator]
      rfl

theorem complain (h : e.Follows config source n m) (fault : SyntaxFault) :
    (e.complain fault).Follows config source n (m.complain fault) :=
  { h with errors := by rw [Engine.complain, Machine.complain, h.errors, h.lookahead] }

theorem drop {goal : Goal} (h : e.Follows config source n m)
    (hnode : ∀ node, goal.node? = some node → node < m.tree.next) :
    ∃ e', e.drop goal = .ok e' ∧ e'.Follows config source n (m.drop goal) := by
  unfold Engine.drop Machine.drop
  cases hgoal : goal.node? with
  | none => exact ⟨e, rfl, h⟩
  | some node =>
    obtain ⟨a, hdetach, htree⟩ := h.tree.detach (hnode node hgoal)
    refine ⟨{ e with arena := a }, ?_, { h with tree := htree }⟩
    dsimp only
    rw [hdetach]
    rfl

theorem foldl_drop {goals : List Goal} (h : e.Follows config source n m)
    (hnodes : ∀ goal ∈ goals, ∀ node, goal.node? = some node → node < m.tree.next) :
    ∃ e', goals.foldlM Engine.drop e = .ok e' ∧
      e'.Follows config source n (goals.foldl Machine.drop m) := by
  induction goals generalizing e m with
  | nil => exact ⟨e, rfl, h⟩
  | cons goal goals ih =>
    obtain ⟨hgoal, hgoals⟩ := List.forall_mem_cons.1 hnodes
    obtain ⟨e₁, hdrop, h₁⟩ := h.drop hgoal
    have hnext : (m.drop goal).tree.next = m.tree.next := by
      unfold Machine.drop
      split
      · exact m.tree.next_drop _
      · rfl
    obtain ⟨e₂, hrest, h₂⟩ := ih h₁ (hnext.symm ▸ hgoals)
    refine ⟨e₂, ?_, h₂⟩
    rw [List.foldlM_cons, hdrop, Checked.ok_bind, hrest]

theorem rest (h : e.Follows config source n m) (rest : List Goal) :
    Follows config source n { e with goals := rest } { m with goals := rest } :=
  { h with goals := rfl }

end Follows

/-- **An engine in step with a machine.** The next token has been read, and none behind the end of
the text. -/
structure Attends (config : Config) (source : String) (n : Nat) (e : Engine) (m : Machine) : Prop
    extends Follows config source (n + 1) e m where
  le : n ≤ (scan config.keywords source).tokens.length
  next : m.lookahead =
    (scan config.keywords source).tokens[n]?.getD (scan config.keywords source).endMarker
  last : .textEnd ∈ m.goals ∨ m.lookahead.isEndOfInput = true

/-- The results of both are the same failure, or an engine in step with a machine. -/
def Agree (config : Config) (source : String) :
    Except Failure Engine → Except Failure Machine → Prop
  | .ok e, .ok m => ∃ n, e.Attends config source n m
  | .error f, .error f' => f = f'
  | _, _ => False

namespace Agree

variable {r : Except Failure Engine} {r' : Except Failure Machine} {f : Failure}

theorem ok (h : Agree config source r (.ok m)) :
    ∃ e n, r = .ok e ∧ e.Attends config source n m := by
  cases r with
  | error f => exact h.elim
  | ok e =>
    obtain ⟨n, hattends⟩ := h
    exact ⟨e, n, rfl, hattends⟩

theorem error (h : Agree config source r (.error f)) : r = .error f := by
  cases r with
  | error f' => exact congrArg Except.error h
  | ok e => exact h.elim

theorem of_ok (h : Agree config source (.ok e) r') :
    ∃ m n, r' = .ok m ∧ e.Attends config source n m := by
  cases r' with
  | error f => exact h.elim
  | ok m =>
    obtain ⟨n, hattends⟩ := h
    exact ⟨m, n, rfl, hattends⟩

theorem of_error (h : Agree config source (.error f) r') : r' = .error f := by
  cases r' with
  | error f' => exact congrArg Except.error (Eq.symm h)
  | ok m => exact h.elim

end Agree

namespace Attends

variable {goal : Goal} {rest : List Goal}

/-- While the next token is not the end, there is one more to be read. -/
theorem lt (h : e.Attends config source n m) (hend : m.lookahead.isEndOfInput = false) :
    n < (scan config.keywords source).tokens.length := by
  rcases Nat.lt_or_eq_of_le h.le with hlt | heq
  · exact hlt
  · have hnext := h.next
    rw [heq, List.getElem?_length, Option.getD_none] at hnext
    rw [hnext] at hend
    cases hend

/-- At the end all have been read. -/
theorem eq_length (h : e.Attends config source n m) (hend : m.lookahead.isEndOfInput = true) :
    n = (scan config.keywords source).tokens.length := by
  rcases Nat.lt_or_eq_of_le h.le with hlt | heq
  · have hnext := h.next
    rw [List.getElem?_eq_getElem hlt, Option.getD_some] at hnext
    rw [hnext, isEndOfInput_of_mem_scan _ (List.getElem_mem hlt)] at hend
    cases hend
  · exact heq

/-- The end is to come as long as a goal in front of it is. -/
theorem last_rest (h : e.Attends config source n m) (hg : m.goals = goal :: rest)
    (hgoal : goal ≠ .textEnd) : .textEnd ∈ rest ∨ m.lookahead.isEndOfInput = true := by
  refine h.last.imp_left fun hmem => ?_
  rw [hg, List.mem_cons] at hmem
  exact hmem.resolve_left (Ne.symm hgoal)

/-- The next token is passed, and the one behind it is read. -/
theorem advance {e' : Engine} {m' : Machine} (h : e.Attends config source n m)
    (h' : e'.Follows config source (n + 1) m') (hend : m.lookahead.isEndOfInput = false)
    (hindexed : m'.generator.symbols.Indexed) (hgoals : .textEnd ∈ m'.goals) :
    ∃ e'', e'.advance = .ok e'' ∧ e''.Attends config source (n + 1) m'.advance := by
  have hlt := h.lt hend
  obtain ⟨e'', hadvance, h'', hnext⟩ := h'.advance hlt hindexed
  exact ⟨e'', hadvance, { h'' with
    le := hlt, next := hnext, last := .inl (by rwa [goals_advance]) }⟩

section Steps

variable (h : e.Attends config source n m) (hs : m.Secured config)

include h hs

theorem skip (hend : m.lookahead.isEndOfInput = false) :
    ∃ e' n', e.skip = .ok e' ∧ e'.Attends config source n' m.skip := by
  have hgoals : .textEnd ∈ m.goals := h.last.resolve_right (by simp [hend])
  obtain ⟨e', hadvance, h'⟩ := h.advance (h.complain (.illegal m.lookahead.className)) hend
    hs.inRange.symbols hgoals
  refine ⟨e', n + 1, ?_, h'⟩
  rw [Engine.skip, h.lookahead]
  exact hadvance

theorem giveUp (hg : m.goals = goal :: rest) (name : String) (hgoal : goal ≠ .textEnd) :
    ∃ e', ({ e with goals := rest } : Engine).giveUp goal name = .ok e' ∧
      e'.Attends config source n (({ m with goals := rest } : Machine).giveUp goal name) := by
  obtain ⟨e', hdrop, h'⟩ := ((h.rest rest).complain (.missing name)).drop
    (hs.inRange.nodes goal (hg ▸ List.mem_cons_self))
  obtain ⟨tree, heq⟩ := giveUp_eq (m := { m with goals := rest }) goal name
  refine ⟨e', hdrop, { h' with le := h.le, next := ?_, last := ?_ }⟩
  · rw [heq]
    exact h.next
  · rw [heq]
    exact h.last_rest hg hgoal

theorem abandon (hend : m.lookahead.isEndOfInput = true) :
    ∃ e', e.abandon = .ok e' ∧ e'.Attends config source n m.abandon := by
  have hnodes : ∀ goal ∈ m.goals, ∀ node, goal.node? = some node →
      node < (m.complain .unexpectedEnd).tree.next := hs.inRange.nodes
  obtain ⟨e', hdrop, h'⟩ := (h.complain .unexpectedEnd).foldl_drop hnodes
  obtain ⟨tree, heq⟩ := abandon_eq (m := m)
  refine ⟨{ e' with goals := [] }, ?_, { h'.rest [] with le := h.le, next := ?_, last := .inr ?_ }⟩
  · rw [Engine.abandon, h.goals, hdrop]
    rfl
  · rw [heq]
    exact h.next
  · rw [heq]
    exact hend

theorem close (rest : List Goal) (hend : m.lookahead.isEndOfInput = true) :
    ∃ e', ({ e with goals := rest } : Engine).close = .ok e' ∧
      e'.Attends config source n { m with
        goals := rest
        tree := m.tree.addChild Tree.root Terminal.endMarker.lexeme } := by
  have hroot : Tree.root < m.tree.next := hs.inRange.tree Tree.root List.mem_cons_self
  obtain ⟨a, hadd, htree⟩ := h.tree.addChild hroot Terminal.endMarker.lexeme
  refine ⟨{ e with arena := a, goals := rest }, ?_, { h.rest rest with
    tree := htree, le := h.le, next := h.next, last := .inr hend }⟩
  rw [Engine.close, hadd]
  rfl

theorem shift {t : Terminal} {node : Nat} (hg : m.goals = .leaf t node :: rest)
    (ht : Terminal.ofToken? m.lookahead = some t) :
    ∃ e', ({ e with goals := rest } : Engine).shift node = .ok e' ∧
      e'.Attends config source (n + 1) (({ m with goals := rest } : Machine).shift node) := by
  have hend : m.lookahead.isEndOfInput = false :=
    isEndOfInput_of_ofToken? ht (hs.orderly.goals t node (hg ▸ List.mem_cons_self))
  obtain ⟨a, hset, htree⟩ := h.tree.setLabel
    (hs.inRange.nodes _ (hg ▸ List.mem_cons_self) node rfl) m.lookahead.display
  have hgoals : .textEnd ∈ rest :=
    (h.last_rest hg (by simp)).resolve_right (by simp [hend])
  have hmatched : Follows config source (n + 1)
      { e with
        arena := a, goals := rest, lastLexeme := e.lookahead.lexeme, lastLine := e.lookahead.line }
      { m with
        tree := m.tree.relabel node m.lookahead.display, goals := rest
        lastLexeme := m.lookahead.lexeme, lastLine := m.lookahead.line } :=
    { h.rest rest with
      tree := htree, lastLexeme := by rw [h.lookahead], lastLine := by rw [h.lookahead] }
  obtain ⟨e', hadvance, h'⟩ := h.advance hmatched hend hs.inRange.symbols hgoals
  refine ⟨e', ?_, h'⟩
  rw [Engine.shift, h.lookahead, hset, Checked.ok_bind, ← h.lookahead]
  exact hadvance

theorem expand {u : Nonterminal} {node index : Nat} (hg : m.goals = .phrase u node :: rest)
    {p : Production} (hp : productions[index]? = some p) :
    ∃ e', ({ e with goals := rest } : Engine).expand index node = .ok e' ∧
      e'.Attends config source n (({ m with goals := rest } : Machine).expand node p.body) := by
  have hnode : node < m.tree.next := hs.inRange.nodes _ (hg ▸ List.mem_cons_self) node rfl
  have hlast : ∀ goals, .textEnd ∈ goals ++ rest ∨ m.lookahead.isEndOfInput = true := fun _ =>
    (h.last_rest hg (by simp)).imp_left (List.mem_append_right _)
  have hat : productionAt index = .ok p := by rw [productionAt, hp]
  obtain ⟨a, hplant, htree⟩ := h.tree.plant hnode p.body
  refine ⟨{ e with arena := a, goals := goalsOf m.tree.next p.body ++ rest }, ?_,
    { h.rest (goalsOf m.tree.next p.body ++ rest) with
      tree := htree, le := h.le, next := h.next, last := hlast _ }⟩
  rw [Engine.expand, hat, Checked.ok_bind, hplant]
  rfl

theorem act {a : Action} (hg : m.goals = .act a :: rest) :
    Agree config source (({ e with goals := rest } : Engine).act a)
      (({ m with goals := rest } : Machine).act a) := by
  obtain ⟨header, hplace, hcalm⟩ := hs.calm
  rw [hg] at hplace
  have hperform : Emission.Strict.perform a e.lastLexeme e.lastLine e.generator =
      Emission.perform a m.lastLexeme m.lastLine m.generator := by
    rw [h.lastLexeme, h.lastLine, h.generator]
    exact Emission.Strict.perform_eq hcalm hplace.act.1
  rw [Engine.act, Machine.act, hperform]
  cases Emission.perform a m.lastLexeme m.lastLine m.generator with
  | error f g => rfl
  | ok u g =>
    exact ⟨n, { h.rest rest with
      generator := rfl, le := h.le, next := h.next, last := h.last_rest hg (by simp) }⟩

/-- **Every step of the machine is one of the engine.** -/
theorem step (htable : Grammar.table = .ok table) (hg : m.goals = goal :: rest) :
    Agree config source (e.step table goal rest) (m.step table goal rest) := by
  have hkey : Terminal.ofToken? e.lookahead = Terminal.ofToken? m.lookahead := by
    rw [h.lookahead]
  have hatEnd : e.lookahead.isEndOfInput = m.lookahead.isEndOfInput := by rw [h.lookahead]
  unfold Engine.step Machine.step
  cases goal with
  | act a => exact h.act hs hg
  | textEnd =>
    dsimp only
    rw [hatEnd]
    split
    · rename_i hend
      obtain ⟨e', hclose, h'⟩ := h.close hs rest hend
      rw [hclose]
      exact ⟨n, h'⟩
    · rename_i hend
      obtain ⟨e', n', hskip, h'⟩ := h.skip hs (by simpa using hend)
      rw [hskip]
      exact ⟨n', h'⟩
  | leaf t node =>
    dsimp only
    rw [hkey]
    split
    · rename_i ht
      obtain ⟨e', hshift, h'⟩ := h.shift hs hg ht
      rw [hshift]
      exact ⟨n + 1, h'⟩
    · obtain ⟨e', hgiveUp, h'⟩ := h.giveUp hs hg t.lexeme (by simp)
      rw [hgiveUp]
      exact ⟨n, h'⟩
  | phrase u node =>
    dsimp only
    rw [hkey, hatEnd]
    cases hindex : (Terminal.ofToken? m.lookahead).bind (table.production? u) with
    | some index =>
      obtain ⟨t, ht, hindex⟩ := Option.bind_eq_some_iff.1 hindex
      have hlt := lt_of_production? htable hindex
      have hp : productions[index]? = some productions[index] := List.getElem?_eq_getElem hlt
      have hbody : m.predicted? table u = some productions[index].body := by
        simp [predicted?, ht, hindex, hp]
      rw [hbody]
      obtain ⟨e', hexpand, h'⟩ := h.expand hs hg hp
      dsimp only
      rw [hexpand]
      exact ⟨n, h'⟩
    | none =>
      have hbody : m.predicted? table u = none := by
        cases hbody : m.predicted? table u with
        | none => rfl
        | some body =>
          obtain ⟨t, i, -, ht, hi, -⟩ := mem_of_predicted? hbody
          rw [ht, Option.bind_some, hi] at hindex
          cases hindex
      rw [hbody]
      dsimp only
      unfold canFollow
      split
      · obtain ⟨e', hgiveUp, h'⟩ := h.giveUp hs hg u.name (by simp)
        rw [hgiveUp]
        exact ⟨n, h'⟩
      · split
        · rename_i hend
          obtain ⟨e', habandon, h'⟩ := h.abandon hs hend
          rw [habandon]
          exact ⟨n, h'⟩
        · rename_i hend
          obtain ⟨e', n', hskip, h'⟩ := h.skip hs (by simpa using hend)
          rw [hskip]
          exact ⟨n', h'⟩

end Steps

/-- **A run of the machine to its end** is one of the engine. -/
theorem run {bound : Nat} (h : e.Attends config source n m) (hs : m.Secured config)
    (htable : Grammar.table = .ok table)
    (hdone : ∀ m', m.run table bound = .ok m' → m'.goals = []) :
    Agree config source (e.run table bound) (m.run table bound) := by
  induction bound generalizing e m n with
  | zero =>
    have hg : e.goals = [] := h.goals.trans (hdone m rfl)
    unfold Engine.run
    rw [hg]
    exact ⟨n, h⟩
  | succ bound ih =>
    unfold Engine.run
    unfold Machine.run at hdone ⊢
    rw [h.goals]
    cases hg : m.goals with
    | nil => exact ⟨n, h⟩
    | cons goal rest =>
      rw [hg] at hdone
      dsimp only at hdone ⊢
      have hstep := h.step hs htable hg
      cases hm : m.step table goal rest with
      | error f =>
        rw [hm] at hstep
        rw [hstep.error]
        rfl
      | ok m' =>
        rw [hm] at hstep hdone
        obtain ⟨e', n', he, h'⟩ := hstep.ok
        rw [he]
        exact ih h' (hs.move htable (move_of_step hg hm)) hdone

/-- **What is left of a text** is its scan, and the tree of the machine. -/
theorem outcome (h : e.Attends config source n m) (hg : m.goals = []) : e.outcome =
    .ok ⟨scan config.keywords source, m.errors.toList, m.tree, m.generator, m.lookahead.line⟩ := by
  have hend : m.lookahead.isEndOfInput = true := h.last.resolve_left (by simp [hg])
  have hreads : e.reader.Reads (Scanner.start config.keywords source).drain := by
    rw [← Lexical.after_scan, ← h.eq_length hend]
    exact h.reader
  rw [Engine.outcome, h.tree.tree, Checked.ok_bind, hreads.tokens, hreads.errors, hreads.line,
    hreads.cursor, h.errors, h.generator, h.lookahead]
  rfl

end Attends

/-- **Engine and machine begin together.** -/
theorem exists_begin (config : Config) (source : String) :
    ∃ e, Engine.begin config source = .ok e ∧ e.Attends config source 0 (begun config source) := by
  have hfollows : Follows config source 0
      { reader := .start config.keywords source
        generator := .ofConfig config
        arena := .ofLabel Grammar.start.name
        goals := [.phrase Grammar.start Tree.root, .textEnd]
        lookahead := (scan config.keywords source).endMarker
        lastLexeme := ""
        lastLine := 1
        errors := #[] }
      { generator := .ofConfig config
        tree := .ofLabel Grammar.start.name
        goals := [.phrase Grammar.start Tree.root, .textEnd]
        lookahead := (scan config.keywords source).endMarker
        upcoming := (scan config.keywords source).tokens
        endMarker := (scan config.keywords source).endMarker
        lastLexeme := ""
        lastLine := 1
        errors := #[] } :=
    { reader := Lexical.Reader.reads_start config.keywords source
      upcoming := rfl
      marker := rfl
      generator := rfl
      tree := .ofLabel _
      goals := rfl
      lookahead := rfl
      lastLexeme := rfl
      lastLine := rfl
      errors := rfl }
  have hindexed : (SymbolTable.ofKeywords config.keywords).Indexed :=
    (SymbolTable.usable_ofKeywords config.keywords).indexed
  obtain ⟨e, hadvance, h, hnext⟩ := hfollows.advance (Nat.zero_le _) hindexed
  refine ⟨e, hadvance, { h with le := Nat.zero_le _, next := hnext, last := .inl ?_ }⟩
  rw [goals_begun]
  exact List.mem_cons_of_mem _ List.mem_cons_self

end Engine

/-- A run that has come to its end ends there under any greater bound. -/
theorem Machine.run_of_le {bound bound' : Nat} (hle : bound ≤ bound')
    (hdone : ∀ m', m.run table bound = .ok m' → m'.goals = []) :
    m.run table bound' = m.run table bound := by
  induction bound generalizing bound' m with
  | zero =>
    have hg : m.goals = [] := hdone m rfl
    cases bound' with
    | zero => rfl
    | succ bound' => simp only [Machine.run, hg]
  | succ bound ih =>
    obtain ⟨more, rfl⟩ : ∃ more, bound' = more + 1 := ⟨bound' - 1, by omega⟩
    unfold Machine.run at hdone ⊢
    cases hg : m.goals with
    | nil => rfl
    | cons goal rest =>
      rw [hg] at hdone
      dsimp only at hdone ⊢
      cases hstep : m.step table goal rest with
      | error f => rfl
      | ok m' =>
        rw [hstep] at hdone
        exact ih (by omega) hdone

/-- **The derivation of a text** is that of the machine. -/
theorem parse_eq (config : Config) (source : String) :
    parse config source = parseBy config source Grammar.table := by
  have htable := Grammar.table_eq_ok
  have hdone : ∀ m', (begun config source).run ⟨predictions, languageFacts⟩
      (stepBound (scan config.keywords source).tokens.length) = .ok m' → m'.goals = [] :=
    fun _ => goals_of_run htable (orderly_begun config source)
      (potential_start_le config isEndOfInput_of_mem_scan rfl _)
  have hle : stepBound (scan config.keywords source).tokens.length ≤ stepBound source.length := by
    have hlength : (scan config.keywords source).tokens.length ≤ source.length :=
      Lexical.length_scan_le
    unfold stepBound
    omega
  have hrun := Machine.run_of_le hle hdone
  obtain ⟨first, hbegin, h⟩ := Engine.exists_begin config source
  have hagree := h.run (secured_begun config source) htable (hrun.symm ▸ hdone)
  rw [hrun] at hagree
  rw [parse, htable, deriveBy, parseBy, hbegin]
  change (first.run _ _ >>= fun last => last.outcome.orFail) = Outcome.ofRun _ _
  cases hm : (begun config source).run ⟨predictions, languageFacts⟩
      (stepBound (scan config.keywords source).tokens.length) with
  | error f =>
    rw [hm] at hagree
    rw [hagree.error]
    rfl
  | ok m =>
    rw [hm] at hagree
    obtain ⟨last, n, he, hlast⟩ := hagree.ok
    rw [he]
    change last.outcome.orFail = _
    rw [hlast.outcome (hdone m hm)]
    rfl

end OnePass.Derivation
