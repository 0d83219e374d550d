import OnePass.Proofs.Derivation.Progress

/-!
# Runs along marks

A run without repairs reads terminals and performs actions. The marks it leaves are
what its goals derive; and where the tokens spell what the goals derive, no run ever
repairs anything.

* `Along`: a run without repairs, with its marks.
* `along_of_reaches`: a run that adds no error is one along marks.
* `derives_of_along`: its marks are derived by the goals it meets.
* `errors_of_derives`: tokens that the goals derive add no error.
-/

namespace OnePass.Derivation

open Grammar
open Lexical (Token)
open Mark (classes readings Spelled)

/-- The grammar symbol of a goal. -/
def Goal.symbol? : Goal → Option Symbol
  | .leaf t _ => some (.terminal t)
  | .phrase n _ => some (.nonterminal n)
  | .act a => some (.action a)
  | .textEnd => none

/-- The grammar symbols that are still to come. -/
def symbolsOf (goals : List Goal) : List Symbol := goals.filterMap Goal.symbol?

theorem symbolsOf_append (a b : List Goal) : symbolsOf (a ++ b) = symbolsOf a ++ symbolsOf b :=
  List.filterMap_append

theorem symbolsOf_goalsOf (next : Nat) (body : List Symbol) :
    symbolsOf (goalsOf next body) = body := by
  induction body generalizing next with
  | nil => rfl
  | cons s body ih =>
    cases s with
    | terminal _ => exact congrArg (List.cons _) (ih (next + 1))
    | nonterminal _ => exact congrArg (List.cons _) (ih (next + 1))
    | action _ => exact congrArg (List.cons _) (ih next)

theorem textEnd_not_mem_goalsOf (next : Nat) (body : List Symbol) :
    Goal.textEnd ∉ goalsOf next body := by
  induction body generalizing next with
  | nil => exact List.not_mem_nil
  | cons s body ih =>
    cases s <;> simp [goalsOf, ih]

namespace Machine

variable {table : Table} {m m' m'' : Machine} {u w : List Mark}

/-- **A run without repairs,** with what it reads and performs. -/
inductive Along (table : Table) : List Mark → Machine → Machine → Prop
  | refl (m : Machine) : Along table [] m m
  | act {m m' : Machine} {w : List Mark} {a : Action} {rest : List Goal} {g : Emission.Generator}
      (hg : m.goals = .act a :: rest)
      (h : Emission.perform a m.lastLexeme m.lastLine m.generator = .ok () g)
      (hw : Along table w { m with goals := rest, generator := g } m') :
      Along table (.act a :: w) m m'
  | shift {m m' : Machine} {w : List Mark} {t : Terminal} {node : Nat} {rest : List Goal}
      (hg : m.goals = .leaf t node :: rest) (h : Terminal.ofToken? m.lookahead = some t)
      (hw : Along table w ({ m with goals := rest }.shift node) m') :
      Along table (.read t m.lookahead.lexeme :: w) m m'
  | expand {m m' : Machine} {w : List Mark} {n : Nonterminal} {node : Nat} {rest : List Goal}
      {body : List Symbol} (hg : m.goals = .phrase n node :: rest)
      (h : m.predicted? table n = some body)
      (hw : Along table w ({ m with goals := rest }.expand node body) m') :
      Along table w m m'

theorem Along.reaches (h : Along table w m m') : Reaches table m m' := by
  induction h with
  | refl m => exact .refl
  | act hg h _ ih => exact .head (.act hg h) ih
  | shift hg h _ ih => exact .head (.shift hg h) ih
  | expand hg h _ ih => exact .head (.expand hg h) ih

theorem goals_shift (node : Nat) : (m.shift node).goals = m.goals := goals_advance

theorem errors_shift (node : Nat) : (m.shift node).errors = m.errors := errors_advance

/-- A machine without goals makes no move. -/
theorem eq_of_goals_nil (h : Reaches table m m') (hg : m.goals = []) : m' = m := by
  rcases h.cases_head with h | ⟨m₁, h, -⟩
  · exact h.symm
  · cases h <;> simp_all

/-- The goals of a machine whose text does not end before they are met. -/
def Awaits (m : Machine) (goals : List Goal) : Prop :=
  m.goals = goals ++ [.textEnd] ∧ .textEnd ∉ goals

theorem Awaits.tail {goals rest : List Goal} {goal : Goal} (ha : m.Awaits goals)
    (hg : m.goals = goal :: rest) (hne : goal ≠ .textEnd) :
    ∃ gs, goals = goal :: gs ∧ rest = gs ++ [.textEnd] ∧ .textEnd ∉ gs := by
  obtain ⟨hgoals, hend⟩ := ha
  rw [hgoals] at hg
  cases goals with
  | nil =>
    rw [List.nil_append, List.cons.injEq] at hg
    exact absurd hg.1.symm hne
  | cons g gs =>
    rw [List.cons_append, List.cons.injEq] at hg
    obtain ⟨rfl, hg⟩ := hg
    exact ⟨gs, rfl, hg.symm, fun hmem => hend (List.mem_cons_of_mem _ hmem)⟩

theorem Awaits.nil {goals rest : List Goal} (ha : m.Awaits goals)
    (hg : m.goals = .textEnd :: rest) : goals = [] ∧ rest = [] := by
  obtain ⟨hgoals, hend⟩ := ha
  rw [hgoals] at hg
  cases goals with
  | nil => exact ⟨rfl, by simpa using hg.symm⟩
  | cons g gs =>
    rw [List.cons_append, List.cons.injEq] at hg
    exact absurd (hg.1 ▸ List.mem_cons_self) hend

theorem Awaits.expand {goals rest : List Goal} {node : Nat} {body : List Symbol}
    (hrest : rest = goals ++ [.textEnd]) (hend : .textEnd ∉ goals) :
    (Machine.expand { m with goals := rest } node body).Awaits (goalsOf m.tree.next body ++ goals) := by
  refine ⟨?_, ?_⟩
  · rw [List.append_assoc, ← hrest]
    rfl
  · rw [List.mem_append, not_or]
    exact ⟨textEnd_not_mem_goalsOf _ _, hend⟩

/-- The end of the text after everything else. -/
def close (m : Machine) : Machine :=
  { m with goals := [], tree := m.tree.addChild Tree.root Terminal.endMarker.lexeme }

/-- A move that repairs adds an error. -/
theorem errors_lt_of_reaches {e : SyntaxError} {m₁ : Machine} (h : m₁.errors = m.errors.push e)
    (hr : Reaches table m₁ m') : m.errors.size < m'.errors.size := by
  have := errors_mono hr
  rw [h, Array.size_push] at this
  exact this

/-- **A run that adds no error** is one along marks, up to the end of the text. -/
theorem along_of_clean (h : Reaches table m m') (he : m'.errors.size = m.errors.size)
    {goals : List Goal} (ha : m.Awaits goals) :
    ∃ w m₁, Along table w m m₁ ∧ (m' = m₁ ∧ m'.goals ≠ [] ∨
      m₁.goals = [.textEnd] ∧ m₁.lookahead.isEndOfInput = true ∧ m' = m₁.close) := by
  induction h using Relation.ReflTransGen.head_induction_on generalizing goals with
  | refl =>
    refine ⟨[], m', .refl m', .inl ⟨rfl, ?_⟩⟩
    rw [ha.1]
    simp
  | @head m m₁ hmove hr ih =>
    cases hmove with
    | act hg h =>
      obtain ⟨gs, -, hrest, hgs⟩ := ha.tail hg (by simp)
      obtain ⟨w, m₂, hw, h2⟩ := ih he ⟨hrest, hgs⟩
      exact ⟨_, m₂, .act hg h hw, h2⟩
    | @close rest hg h =>
      obtain ⟨-, hrest⟩ := ha.nil hg
      subst hrest
      exact ⟨[], m, .refl m, .inr ⟨hg, h, eq_of_goals_nil hr rfl⟩⟩
    | @shift t node rest hg h =>
      obtain ⟨gs, -, hrest, hgs⟩ := ha.tail hg (by simp)
      obtain ⟨w, m₂, hw, h2⟩ :=
        ih (by rw [errors_shift]; exact he) ⟨(goals_shift _).trans hrest, hgs⟩
      exact ⟨_, m₂, .shift hg h hw, h2⟩
    | @expand n node rest body hg h =>
      obtain ⟨gs, -, hrest, hgs⟩ := ha.tail hg (by simp)
      obtain ⟨w, m₂, hw, h2⟩ := ih he (Awaits.expand hrest hgs)
      exact ⟨w, m₂, .expand hg h hw, h2⟩
    | @giveUp goal name rest _ _ =>
      obtain ⟨tree, h⟩ := giveUp_eq (m := { m with goals := rest }) goal name
      have := errors_lt_of_reaches (m := m) (congrArg Machine.errors h) hr
      omega
    | skip _ _ =>
      have := errors_lt_of_reaches (m := m) errors_advance hr
      omega
    | abandon _ _ =>
      obtain ⟨tree, h⟩ := abandon_eq (m := m)
      have := errors_lt_of_reaches (m := m) (congrArg Machine.errors h) hr
      omega

/-- **A run to the end that adds no error** is one along marks, which ends where the text does. -/
theorem along_of_reaches (h : Reaches table m m') (hf : m'.goals = [])
    (he : m'.errors.size = m.errors.size) {goals : List Goal} (ha : m.Awaits goals) :
    ∃ w m₁, Along table w m m₁ ∧ m₁.goals = [.textEnd] ∧ m₁.lookahead.isEndOfInput = true ∧
      m' = m₁.close := by
  obtain ⟨w, m₁, hw, ⟨-, hne⟩ | hend⟩ := along_of_clean h he ha
  · exact absurd hf hne
  · exact ⟨w, m₁, hw, hend⟩

/-- **The marks of a run** are derived by the goals it meets. -/
theorem derives_of_along (htable : Grammar.table = .ok table) (h : Along table w m m') (hf : symbolsOf m'.goals = []) :
    Derives productions (symbolsOf m.goals) w := by
  induction h with
  | refl m =>
    rw [hf]
    exact .nil
  | act hg _ _ ih =>
    rw [hg]
    exact .action (ih hf)
  | shift hg _ _ ih =>
    have := ih hf
    rw [goals_shift] at this
    rw [hg]
    exact .terminal _ this
  | @expand m m' w n node rest body hg h _ ih =>
    have := ih hf
    rw [expand, symbolsOf_append, symbolsOf_goalsOf] at this
    obtain ⟨u, v, rfl, hu, hv⟩ := this.of_append
    obtain ⟨_, p, -, hp, rfl, rfl, -⟩ := lookaheads_of_predicted? htable h
    rw [hg]
    exact .phrase hp hu hv

/-- **The marks of a run** are spelled by the tokens it passes. -/
theorem spelled_of_along (hm : m.Orderly) (h : Along table w m m') :
    ∃ tokens, m.pending = tokens ++ m'.pending ∧ Spelled w tokens := by
  induction h with
  | refl m => exact ⟨[], rfl, rfl⟩
  | @act m m' w a rest g hg h _ ih =>
    obtain ⟨tokens, h1, h2⟩ := ih (hm.move (show Move table m _ from .act hg h))
    exact ⟨tokens, h1, h2⟩
  | @shift m m' w t node rest hg h _ ih =>
    have hne : t ≠ .endMarker := hm.goals t node (by rw [hg]; exact List.mem_cons_self)
    obtain ⟨tokens, h1, h2⟩ := ih (hm.move (show Move table m _ from .shift hg h))
    have hp := pending_eq_cons (isEndOfInput_of_ofToken? h hne)
    have hm' : Orderly { m with goals := rest } := hm.of_goals fun u v hmem =>
      hm.goals u v (by rw [hg]; exact List.mem_cons_of_mem _ hmem)
    rw [pending_shift hm'] at h1
    refine ⟨m.lookahead :: tokens, ?_, ?_⟩
    · rw [hp, List.cons_append, ← h1]
      exact congrArg (_ :: ·) (congrArg List.tail hp).symm
    · rw [Spelled, List.map_cons, h2, h]
      rfl
  | expand hg h _ ih =>
    obtain ⟨tokens, h1, h2⟩ := ih (hm.move (.expand hg h))
    exact ⟨tokens, h1, h2⟩

theorem errors_of_along (h : Along table w m m') : m'.errors = m.errors := by
  induction h with
  | refl m => rfl
  | act _ _ _ ih => exact ih
  | shift _ _ _ ih => exact ih.trans (errors_shift _)
  | expand _ _ _ ih => exact ih

/-- The terminal of the next token, if what is to be matched is spelled by the tokens. -/
theorem ofToken?_lookahead (h : m.pending.map Terminal.ofToken? = (classes w).map some) :
    Terminal.ofToken? m.lookahead = some ((classes w).headD .endMarker) := by
  unfold pending at h
  split at h
  · rename_i hend
    obtain hw : classes w = [] := List.map_eq_nil_iff.1 h.symm
    rw [hw]
    exact Terminal.ofToken?_eq_endMarker.2 hend
  · cases hw : classes w with
    | nil =>
      rw [hw] at h
      cases h
    | cons t ts =>
      rw [hw, List.map_cons, List.map_cons, List.cons.injEq] at h
      exact h.1

/-- The body that derives the tokens is the one that the table predicts. -/
theorem predicted?_of_derives (htable : Grammar.table = .ok table) {p : Production}
    (hp : p ∈ productions) {rest : List Symbol} (hu : Derives productions p.body u)
    (hw : Derives productions rest w)
    (hk : Followed productions table.facts (.nonterminal p.head :: rest))
    (hs : m.pending.map Terminal.ofToken? = (classes (u ++ w)).map some) :
    m.predicted? table p.head = some p.body := by
  have hclosed := (build_eq_ok htable).1 ▸ Facts.closed_ofProductions productions Grammar.start
  have hl := ofToken?_lookahead hs
  have hla := lookaheads_of_derives hclosed hu (hk [] p.head rest rfl w hw)
  rw [Mark.classes_append, headD_append] at hl
  obtain ⟨i, hi, hpi⟩ := production?_of_mem htable hp hla
  simp only [predicted?, Option.bind_eq_bind, hl, Option.bind_some, hi, hpi, Option.pure_def]

/-- **Tokens that the goals derive are followed without repairs,** along just these marks. -/
theorem along_of_derives (htable : Grammar.table = .ok table) (hm : m.Orderly)
    (h : Reaches table m m') (hf : m'.goals = []) {goals : List Goal} (ha : m.Awaits goals)
    (hd : Derives productions (symbolsOf goals) w) (hs : Spelled w m.pending)
    (hk : Followed productions table.facts (symbolsOf goals)) :
    ∃ m₁, Along table w m m₁ ∧ m₁.goals = [.textEnd] ∧ m₁.lookahead.isEndOfInput = true ∧
      m' = m₁.close := by
  have hclosed := (build_eq_ok htable).1 ▸ Facts.closed_ofProductions productions Grammar.start
  induction h using Relation.ReflTransGen.head_induction_on generalizing goals w with
  | refl => exact absurd ((hf.symm.trans ha.1).symm) (by simp)
  | @head m m₁ hmove hr ih =>
    have predicted : ∀ {n node rest}, m.goals = .phrase n node :: rest →
        m.predicted? table n ≠ none := by
      intro n node rest hg
      obtain ⟨gs, rfl, -, -⟩ := ha.tail hg (by simp)
      rcases hd with _ | _ | _ | ⟨hp, hu, hd⟩
      simp [predicted?_of_derives htable hp hu hd hk hs.classes_eq]
    have hm₁ := hm.move hmove
    cases hmove with
    | act hg h =>
      obtain ⟨gs, rfl, hrest, hgs⟩ := ha.tail hg (by simp)
      rcases hd with _ | _ | hd | _
      obtain ⟨m₂, hw, h2⟩ := ih hm₁ ⟨hrest, hgs⟩ hd hs hk.tail
      exact ⟨m₂, .act hg h hw, h2⟩
    | @close rest hg h =>
      obtain ⟨rfl, rfl⟩ := ha.nil hg
      cases hd
      exact ⟨m, .refl m, hg, h, eq_of_goals_nil hr rfl⟩
    | @shift t node rest hg h =>
      obtain ⟨gs, rfl, hrest, hgs⟩ := ha.tail hg (by simp)
      have hne : t ≠ .endMarker := hm.goals t node (by rw [hg]; exact List.mem_cons_self)
      have hp := pending_eq_cons (isEndOfInput_of_ofToken? h hne)
      have hm' : Orderly { m with goals := rest } := hm.of_goals fun u v hmem =>
        hm.goals u v (by rw [hg]; exact List.mem_cons_of_mem _ hmem)
      rcases hd with _ | @⟨_, x, _, w, hd⟩ | _ | _
      rw [Spelled, hp, List.map_cons, Mark.readings_read, List.map_cons, List.cons.injEq, h] at hs
      obtain ⟨hx, hs⟩ := hs
      obtain ⟨m₂, hw, h2⟩ := ih hm₁ ⟨(goals_shift _).trans hrest, hgs⟩ hd
        (by rw [pending_shift hm']; exact (congrArg _ (congrArg List.tail hp)).trans hs) hk.tail
      have hx : m.lookahead.lexeme = x := by simpa using hx
      exact ⟨m₂, hx ▸ .shift hg h hw, h2⟩
    | @expand n node rest body hg h =>
      obtain ⟨gs, rfl, hrest, hgs⟩ := ha.tail hg (by simp)
      rcases hd with _ | _ | _ | @⟨p, hp, _, u, v, hu, hd⟩
      have hpred := predicted?_of_derives htable hp hu hd hk hs.classes_eq
      obtain rfl : p.body = body := Option.some.inj (hpred.symm.trans h)
      obtain ⟨m₂, hw, h2⟩ := ih hm₁ (Awaits.expand hrest hgs)
        (by rw [symbolsOf_append, symbolsOf_goalsOf]; exact hu.append hd) hs
        (by rw [symbolsOf_append, symbolsOf_goalsOf]; exact hk.body hclosed hp)
      exact ⟨m₂, .expand hg h hw, h2⟩
    | @giveUp goal name rest hg hblocked =>
      rcases hblocked with ⟨t, node, rfl, ht⟩ | ⟨n, node, rfl, hn⟩
      · obtain ⟨gs, rfl, -, -⟩ := ha.tail hg (by simp)
        rcases hd with _ | hd | _ | _
        exact absurd (ofToken?_lookahead hs.classes_eq) ht
      · exact absurd hn (predicted hg)
    | skip hend hg =>
      rcases hg with ⟨rest, hg⟩ | ⟨n, node, rest, hg, hn⟩
      · obtain ⟨rfl, rfl⟩ := ha.nil hg
        cases hd
        rw [Spelled, pending_eq_cons hend] at hs
        cases hs
      · exact absurd hn (predicted hg)
    | abandon hg hn => exact absurd hn (predicted hg)

end Machine

end OnePass.Derivation
