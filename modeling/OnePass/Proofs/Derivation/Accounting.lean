import OnePass.Proofs.Derivation.Awaiting

/-!
# No token is lost

Every token of a text is matched or skipped. Whatever is repaired, the leaves of the tree are the
tokens that have been matched, in their order, and behind them the nodes of the goals: when a
phrase is replaced, the first symbol of its body is met by the next token, so that a node whose
children are given up one after another keeps that one.

* `meets_opening`: the first symbol of a body that is predicted is met by the next token.
* `Machine.Grounded`: a machine whose tree is in order. `Turn.grounded`, `Course.grounded`: what a
  step does to the leaves, and what a run does.
* `Outcome.Accounted`, `tokens_of_parse`: the account of a whole text.
-/

namespace OnePass

namespace Grammar

/-- The first symbol of a body that takes part of a text. -/
def opening? (body : List Symbol) : Option Symbol := body.find? fun s => !s.isAction

/-- Whether a symbol can begin with a terminal, or be empty before it. -/
def Table.meets (table : Table) (t : Terminal) : Symbol → Bool
  | .terminal u => u = t
  | .nonterminal n => (table.production? n t).isSome
  | .action _ => true

theorem all_meets_opening : (productions.all fun p => Terminal.all.all fun t =>
    !(languageFacts.lookaheads p.head p.body).contains t ||
      (opening? p.body).all (Table.meets ⟨predictions, languageFacts⟩ t)) = true := by
  decide +kernel

theorem all_production?_start : (Terminal.all.all fun t =>
    (Table.production? ⟨predictions, languageFacts⟩ start t).isSome ||
      !(t = .endMarker || Table.follows ⟨predictions, languageFacts⟩ start t)) = true := by
  decide +kernel

theorem Terminal.mem_all (t : Terminal) : t ∈ Terminal.all :=
  List.mem_of_getElem? (Terminal.get_all t)

variable {table : Table}

/-- **A body that is predicted begins with a symbol that the terminal meets.** -/
theorem meets_opening (htable : Grammar.table = .ok table) {p : Production} (hp : p ∈ productions)
    {t : Terminal} (ht : t ∈ table.facts.lookaheads p.head p.body) :
    (opening? p.body).all (table.meets t) = true := by
  rw [table_eq_ok, Except.ok.injEq] at htable
  subst htable
  have h := List.all_eq_true.1 (List.all_eq_true.1 all_meets_opening p hp) t t.mem_all
  rw [Bool.or_eq_true, Bool.not_eq_true'] at h
  exact h.resolve_left fun hc => by rw [TerminalSet.mem_def, hc] at ht; cases ht

/-- A program can always be empty before what can follow it. -/
theorem production?_start (htable : Grammar.table = .ok table) {t : Terminal}
    (ht : t = .endMarker ∨ table.follows start t = true) :
    (table.production? start t).isSome = true := by
  rw [table_eq_ok, Except.ok.injEq] at htable
  subst htable
  have h := List.all_eq_true.1 all_production?_start t t.mem_all
  rw [Bool.or_eq_true, Bool.not_eq_true', Bool.or_eq_false_iff, decide_eq_false_iff_not] at h
  refine h.resolve_right fun hc => ?_
  rcases ht with ht | ht
  · exact hc.1 ht
  · rw [hc.2] at ht
    cases ht

end Grammar

/-- An error for a text that ends inside a phrase. -/
def SyntaxError.isUnexpectedEnd (e : SyntaxError) : Bool :=
  match e.fault with
  | .unexpectedEnd => true
  | _ => false

namespace Derivation

open Grammar
open Lexical (Token)

def Goal.isAct : Goal → Bool
  | .act _ => true
  | _ => false

namespace Machine

/-- Whether the next token meets a goal. -/
def Fits (table : Table) (m : Machine) : Goal → Prop
  | .leaf t _ => Terminal.ofToken? m.lookahead = some t
  | .phrase n _ => (m.predicted? table n).isSome = true
  | _ => False

/-- **A node that will not be given up next:** it is not awaited, or the next token meets its
goal. -/
def Spared (table : Table) (m : Machine) (i : Nat) : Prop :=
  (∀ p ∈ awaited m.goals, p.1 ≠ i) ∨
    ∃ goal, m.goals.find? (fun g => !g.isAct) = some goal ∧ (∃ name, goal.tip? = some (i, name)) ∧
      m.Fits table goal

/-- **A machine whose tree is in order:** its tips are done or awaited, every node that has
children keeps one of them, and the end of the text is behind all other goals. -/
structure Grounded (table : Table) (labels : List String) (m : Machine) : Prop where
  tree : m.tree.Awaiting m.goals labels
  keeps : m.tree.forest.Keeps (m.Spared table)
  last : m.goals = [] ∨ ∃ gs, m.Awaits gs

variable {table : Table} {m : Machine} {goal : Goal} {rest : List Goal} {labels : List String}
  {node : Nat} {name : String} {i : Nat}

/-- If the next token does not meet the next goal, just the nodes that are not awaited are
spared. -/
theorem Spared.not_awaited (h : m.Spared table i) (hg : m.goals = goal :: rest)
    (hact : goal.isAct = false) (hfit : ¬m.Fits table goal) :
    ∀ p ∈ awaited m.goals, p.1 ≠ i := by
  refine h.resolve_right ?_
  rintro ⟨goal', hfind, -, hfit'⟩
  rw [hg, List.find?_cons_of_pos (by rw [hact]; rfl), Option.some.injEq] at hfind
  exact hfit (hfind ▸ hfit')

/-- What is spared stays so when the next goal has been filled. -/
theorem Spared.of_filled (h : m.Spared table i) (hd : ((awaited m.goals).map Prod.fst).Nodup)
    (hg : m.goals = goal :: rest) (hgoal : goal.tip? = some (node, name)) :
    ∀ p ∈ awaited rest, p.1 ≠ i := by
  rw [hg, awaited_cons_some hgoal, List.map_cons, List.nodup_cons] at hd
  rcases h with h | ⟨goal', hfind, ⟨name', hgoal'⟩, -⟩
  · rw [hg, awaited_cons_some hgoal, List.forall_mem_cons] at h
    exact h.2
  · have hact : goal.isAct = false := by
      cases goal with
      | act => cases hgoal
      | _ => rfl
    rw [hg, List.find?_cons_of_pos (by rw [hact]; rfl), Option.some.injEq] at hfind
    rw [← hfind, hgoal, Option.some.injEq, Prod.mk.injEq] at hgoal'
    rw [← hgoal'.1]
    exact fun p hp heq => hd.1 (List.mem_map.2 ⟨p, hp, heq⟩)

/-- The node for the first symbol of a body that is predicted is spared. -/
theorem spared_next (htable : Grammar.table = .ok table) {n : Nonterminal}
    {body : List Grammar.Symbol} (hb : m.predicted? table n = some body)
    (hrest : ∀ p ∈ awaited rest, p.1 ≠ m.tree.next) :
    Spared table (expand { m with goals := rest } node body) m.tree.next := by
  obtain ⟨t, p, ht, hp, rfl, rfl, hla⟩ := lookaheads_of_predicted? htable hb
  have hmeets := meets_opening htable hp hla
  have hfind : ∀ body : List Grammar.Symbol,
      (body.all Symbol.isAction = true ∧ opening? body = none) ∨
        ∃ s goal, opening? body = some s ∧
          (goalsOf m.tree.next body ++ rest).find? (fun g => !g.isAct) = some goal ∧
          ((∃ u, s = .terminal u ∧ goal = .leaf u m.tree.next) ∨
            ∃ n, s = .nonterminal n ∧ goal = .phrase n m.tree.next) := by
    intro body
    induction body with
    | nil => exact .inl ⟨rfl, rfl⟩
    | cons s body ih =>
      cases s with
      | terminal u => exact .inr ⟨_, _, rfl, rfl, .inl ⟨u, rfl, rfl⟩⟩
      | nonterminal n => exact .inr ⟨_, _, rfl, rfl, .inr ⟨n, rfl, rfl⟩⟩
      | action a => exact ih
  rcases hfind p.body with ⟨hall, -⟩ | ⟨s, goal, hs, hgoal, hkind⟩
  · -- an empty production awaits nothing
    refine .inl fun q hq => ?_
    have hq' : q ∈ awaited (goalsOf m.tree.next p.body ++ rest) := hq
    rw [awaited_append, awaited_goalsOf_of_actions hall] at hq'
    exact hrest q hq'
  · rw [hs, Option.all_some] at hmeets
    refine .inr ⟨goal, hgoal, ?_, ?_⟩
    · rcases hkind with ⟨u, -, rfl⟩ | ⟨n, -, rfl⟩ <;> exact ⟨_, rfl⟩
    · rcases hkind with ⟨u, rfl, rfl⟩ | ⟨n, rfl, rfl⟩
      · rw [Table.meets, decide_eq_true_eq] at hmeets
        rw [hmeets]
        exact ht
      · obtain ⟨i, hi⟩ := Option.isSome_iff_exists.1 hmeets
        obtain ⟨q, hq, -⟩ := mem_of_production? htable hi
        have hb : (expand { m with goals := rest } node p.body).predicted? table n =
            some q.body := by
          simp [predicted?, expand, ht, hi, hq]
        exact Option.isSome_iff_exists.2 ⟨_, hb⟩

/-- Nodes that are given up one after another are gone, and no others. -/
theorem awaiting_foldl_drop {goals : List Goal} {m : Machine} (h : m.tree.Awaiting goals labels)
    (hroot : ∀ p ∈ awaited goals, p.1 ≠ Tree.root)
    (hkeeps : m.tree.forest.Keeps fun i => ∀ p ∈ awaited goals, p.1 ≠ i) :
    (goals.foldl drop m).tree.Awaiting [] labels ∧
      (goals.foldl drop m).tree.forest.Keeps fun _ => True := by
  induction goals generalizing m with
  | nil => exact ⟨h, hkeeps.mono fun _ _ _ => trivial⟩
  | cons goal rest ih =>
    rw [List.foldl_cons]
    cases hgoal : goal.tip? with
    | none =>
      have hdrop : m.drop goal = m := by
        rw [drop, goal.node?_eq_tip?, hgoal]
        rfl
      rw [awaited_cons_none hgoal] at hroot hkeeps
      rw [hdrop]
      exact ih (h.pass hgoal) hroot hkeeps
    | some p =>
      obtain ⟨node, name⟩ := p
      have hdrop : m.drop goal = { m with tree := m.tree.drop node } := by
        rw [drop, goal.node?_eq_tip?, hgoal]
        rfl
      rw [awaited_cons_some hgoal, List.forall_mem_cons] at hroot
      rw [awaited_cons_some hgoal] at hkeeps
      have hnode : m.tree.forest.Keeps fun i => i ≠ node :=
        hkeeps.mono fun i _ hi heq => hi _ List.mem_cons_self heq.symm
      rw [hdrop]
      refine ih (h.drop hgoal hroot.1 hnode) hroot.2 ?_
      rw [Tree.forest_drop _ hroot.1]
      exact (hkeeps.prune fun hi => hi _ List.mem_cons_self rfl).mono fun i _ hi p hp =>
        hi p (List.mem_cons_of_mem _ hp)

namespace Grounded

/-- The goals behind the next one still end in the end of the text. -/
theorem last_tail (h : m.Grounded table labels) (hg : m.goals = goal :: rest)
    (hne : goal ≠ .textEnd) : ∃ gs, rest = gs ++ [.textEnd] ∧ .textEnd ∉ gs := by
  rcases h.last with hnil | ⟨gs, hgs⟩
  · rw [hnil] at hg
    cases hg
  · obtain ⟨gs', -, hrest, hend⟩ := hgs.tail hg hne
    exact ⟨gs', hrest, hend⟩

theorem rest_ne_nil (h : m.Grounded table labels) (hg : m.goals = goal :: rest)
    (hne : goal ≠ .textEnd) : rest ≠ [] := by
  obtain ⟨gs, rfl, -⟩ := h.last_tail hg hne
  exact List.append_ne_nil_of_right_ne_nil _ (List.cons_ne_nil _ _)

theorem act {a : Action} (h : m.Grounded table labels) (hg : m.goals = .act a :: rest)
    (g : Emission.Generator) : Grounded table labels { m with goals := rest, generator := g } := by
  refine ⟨(hg ▸ h.tree).pass rfl, h.keeps.mono fun i _ hi => ?_, .inr (h.last_tail hg nofun)⟩
  have hi' : m.Spared table i := hi
  rw [Spared, hg] at hi'
  exact hi'

theorem shift {u : Terminal} (h : m.Grounded table labels) (hg : m.goals = .leaf u node :: rest) :
    Grounded table (labels ++ [m.lookahead.display]) (Machine.shift { m with goals := rest } node) := by
  refine ⟨?_, ?_, .inr ?_⟩
  · rw [tree_shift, goals_shift]
    exact (hg ▸ h.tree).shift (Forest.display_ne_emptyLabel _)
  · rw [tree_shift, Tree.forest_relabel]
    refine h.keeps.relabel.mono fun i _ hi => .inl ?_
    rw [goals_shift]
    exact hi.of_filled h.tree.distinct_awaited hg rfl
  · obtain ⟨gs, hrest, hend⟩ := h.last_tail hg nofun
    exact ⟨gs, (goals_shift _).trans hrest, hend⟩

theorem expand (htable : Grammar.table = .ok table) (h : m.Grounded table labels) {n : Nonterminal}
    {body : List Grammar.Symbol} (hg : m.goals = .phrase n node :: rest)
    (hb : m.predicted? table n = some body) :
    Grounded table labels (Machine.expand { m with goals := rest } node body) := by
  have htree : m.tree.Awaiting (.phrase n node :: rest) labels := hg ▸ h.tree
  have hold : ∀ p ∈ awaited rest, p.1 < m.tree.next := fun p hp =>
    htree.below _ (htree.mem_ids p (List.mem_cons_of_mem _ hp))
  refine ⟨htree.expand body, ?_, .inr ?_⟩
  · have hnext : Spared table (Machine.expand { m with goals := rest } node body) m.tree.next :=
      spared_next htable hb fun p hp => Nat.ne_of_lt (hold p hp)
    rw [Machine.expand, Tree.forest_addChildren]
    refine Forest.Keeps.graft (h.keeps.mono fun i hi hs => .inl fun p hp => ?_)
      Forest.keeps_leaves ⟨_, Forest.mem_heads_leaves (labelsOf_ne_nil body), hnext⟩
    -- the new nodes are not among the old
    have hp' : p ∈ awaited (goalsOf m.tree.next body ++ rest) := hp
    rw [awaited_append, List.mem_append] at hp'
    rcases hp' with hp' | hp'
    · exact Nat.ne_of_gt (Nat.lt_of_lt_of_le (htree.below i hi) (le_of_mem_awaited_goalsOf hp'))
    · exact hs.of_filled h.tree.distinct_awaited hg rfl p hp'
  · obtain ⟨gs, hrest, hend⟩ := h.last_tail hg (fun hc => by cases hc)
    exact ⟨_, Awaits.expand hrest hend⟩

/-- A goal that the next token does not meet is given up, unless it is the root's. -/
theorem giveUp (h : m.Grounded table labels) (hg : m.goals = goal :: rest)
    (hgoal : goal.tip? = some (node, name)) (hroot : node ≠ Tree.root)
    (hfit : ¬m.Fits table goal) (symbol : String) :
    Grounded table labels (Machine.giveUp { m with goals := rest } goal symbol) := by
  have htree : m.tree.Awaiting (goal :: rest) labels := hg ▸ h.tree
  have hact : goal.isAct = false := by
    cases goal with
    | act => cases hgoal
    | _ => rfl
  have hkeeps : m.tree.forest.Keeps fun i => ∀ p ∈ awaited (goal :: rest), p.1 ≠ i :=
    h.keeps.mono fun i _ hi => hg ▸ hi.not_awaited hg hact hfit
  rw [awaited_cons_some hgoal] at hkeeps
  have heq : Machine.giveUp { m with goals := rest } goal symbol =
      { m with
        goals := rest
        tree := m.tree.drop node
        errors := m.errors.push ⟨m.lookahead.line, .missing symbol⟩ } := by
    rw [Machine.giveUp, drop, goal.node?_eq_tip?, hgoal]
    rfl
  have hne : goal ≠ .textEnd := by
    rintro rfl
    cases hgoal
  rw [heq]
  refine ⟨htree.drop hgoal hroot (hkeeps.mono fun i _ hi heq => hi _ List.mem_cons_self heq.symm),
    ?_, .inr (h.last_tail hg hne)⟩
  rw [Tree.forest_drop _ hroot]
  exact (hkeeps.prune fun hi => hi _ List.mem_cons_self rfl).mono fun i _ hi =>
    .inl fun p hp => hi p (List.mem_cons_of_mem _ hp)

/-- A token that does not meet the next goal is skipped. -/
theorem skip (h : m.Grounded table labels) (hg : m.goals = goal :: rest)
    (hact : goal.isAct = false) (hfit : ¬m.Fits table goal) : Grounded table labels m.skip := by
  have hgoals : m.skip.goals = m.goals := goals_advance
  have htree : m.skip.tree = m.tree := tree_advance
  refine ⟨?_, ?_, ?_⟩
  · rw [htree, hgoals]
    exact h.tree
  · rw [htree]
    refine h.keeps.mono fun i _ hi => .inl ?_
    rw [hgoals]
    exact hi.not_awaited hg hact hfit
  · rw [hgoals]
    exact h.last.imp_right fun ⟨gs, hgs⟩ => ⟨gs, hgoals.trans hgs.1, hgs.2⟩

/-- All goals are given up, if the root's is not among them. -/
theorem abandon (h : m.Grounded table labels) (hg : m.goals = goal :: rest)
    (hact : goal.isAct = false) (hroot : ∀ p ∈ awaited m.goals, p.1 ≠ Tree.root)
    (hfit : ¬m.Fits table goal) : Grounded table labels m.abandon := by
  obtain ⟨htree, hkeeps⟩ := awaiting_foldl_drop (m := m.complain .unexpectedEnd) h.tree hroot
    (h.keeps.mono fun i _ hi => hi.not_awaited hg hact hfit)
  exact ⟨htree, hkeeps.mono fun i _ _ => .inl nofun, .inl rfl⟩

/-- The text ends where its end is to come. -/
theorem close (h : m.Grounded table labels) (hg : m.goals = .textEnd :: rest) :
    Grounded table (labels ++ [Terminal.endMarker.lexeme]) { m with
      goals := rest
      tree := m.tree.addChild Tree.root Terminal.endMarker.lexeme } ∧ rest = [] := by
  have hrest : rest = [] := by
    rcases h.last with hnil | ⟨gs, hgs⟩
    · rw [hnil] at hg
      cases hg
    · exact (hgs.nil hg).2
  subst hrest
  have htree : m.tree.Awaiting [.textEnd] labels := hg ▸ h.tree
  refine ⟨⟨htree.close (by decide), ?_, .inl rfl⟩, rfl⟩
  have hspared : ∀ i, Spared table { m with
      goals := []
      tree := m.tree.addChild Tree.root Terminal.endMarker.lexeme } i := fun i => .inl nofun
  rw [Tree.addChild, Tree.forest_addChildren]
  exact Forest.Keeps.graft (h.keeps.mono fun i _ _ => hspared i) Forest.keeps_leaves
    ⟨_, Forest.mem_heads_leaves (List.cons_ne_nil _ _), hspared _⟩

end Grounded

end Machine

open Machine

variable {table : Table} {m m' m₀ : Machine} {labels : List String} {fates : List (Fate × Token)}

/-- The label that a token leaves in the tree, by its fate. -/
def Fate.leaf (t : Token) : Fate → List String
  | .matched => [t.display]
  | .skipped => []

/-- The root's node is not that of a terminal. -/
theorem ne_root_of_leaf (hm : m.Grounded table labels) {t : Terminal} {node : Nat}
    {rest : List Goal} (hg : m.goals = .leaf t node :: rest) : node ≠ Tree.root := by
  rcases hm.tree.rooted with ⟨-, hroot⟩ | hstart
  · rw [hg, awaited_cons_some rfl, List.forall_mem_cons] at hroot
    exact hroot.1
  · rw [hg] at hstart
    cases hstart

/-- A phrase that has no production for the next token, but may be given up for it or at the end of
the text, is not the root's. -/
theorem ne_root_of_not_predicted (htable : Grammar.table = .ok table)
    (hm : m.Grounded table labels) {n : Nonterminal} {node : Nat} {rest : List Goal}
    (hg : m.goals = .phrase n node :: rest) (hb : m.predicted? table n = none)
    (h : m.canFollow table n = true ∨ m.lookahead.isEndOfInput = true) :
    ∀ p ∈ awaited m.goals, p.1 ≠ Tree.root := by
  rcases hm.tree.rooted with ⟨-, hroot⟩ | hstart
  · exact hroot
  · rw [hg, List.cons.injEq, Goal.phrase.injEq] at hstart
    obtain ⟨⟨rfl, -⟩, -⟩ := hstart
    obtain ⟨t, ht, hmay⟩ : ∃ t, Terminal.ofToken? m.lookahead = some t ∧
        (t = .endMarker ∨ table.follows Grammar.start t = true) := by
      rcases h with h | h
      · rw [canFollow, Option.any_eq_true] at h
        obtain ⟨t, ht, hf⟩ := h
        exact ⟨t, ht, .inr hf⟩
      · exact ⟨_, Terminal.ofToken?_eq_endMarker.2 h, .inl rfl⟩
    obtain ⟨i, hi⟩ := Option.isSome_iff_exists.1 (production?_start htable hmay)
    obtain ⟨q, hq, -⟩ := mem_of_production? htable hi
    have hsome : m.predicted? table Grammar.start = some q.body := by
      simp [predicted?, ht, hi, hq]
    rw [hb] at hsome
    cases hsome

/-- **What a step does to the leaves:** a token that is matched is the next leaf that is done, and
the end of the text is the last, if it is where it is to come. -/
theorem Turn.grounded (htable : Grammar.table = .ok table) {fate? : Option Fate}
    (h : Turn table m fate? m') (hm : m.Grounded table labels) :
    (m'.goals ≠ [] ∧ m'.Grounded table (labels ++ fate?.toList.flatMap (Fate.leaf m.lookahead))) ∨
      m'.goals = [] ∧ fate? = none ∧ m.lookahead.isEndOfInput = true ∧
        m'.lookahead = m.lookahead ∧
        (m'.errors = m.errors ∧ m'.Grounded table (labels ++ [Terminal.endMarker.lexeme]) ∨
          m'.errors = m.errors.push ⟨m.lookahead.line, .unexpectedEnd⟩ ∧
            m'.Grounded table labels) := by
  have hnone : labels ++ (none : Option Fate).toList.flatMap (Fate.leaf m.lookahead) = labels :=
    List.append_nil _
  have hskipped : labels ++ (some Fate.skipped).toList.flatMap (Fate.leaf m.lookahead) = labels :=
    List.append_nil _
  have hgiveUp : ∀ {goal : Goal} {rest : List Goal} {symbol : String}, rest ≠ [] →
      (Machine.giveUp { m with goals := rest } goal symbol).goals ≠ [] := by
    intro goal rest symbol hne
    obtain ⟨tree, heq⟩ := giveUp_eq (m := { m with goals := rest }) goal symbol
    rw [heq]
    exact hne
  have hskip : ∀ {goal : Goal} {rest : List Goal}, m.goals = goal :: rest → m.skip.goals ≠ [] := by
    intro goal rest hg
    rw [show m.skip.goals = m.goals from goals_advance, hg]
    exact List.cons_ne_nil _ _
  cases h with
  | act hg h => exact .inl ⟨hm.rest_ne_nil hg nofun, hnone.symm ▸ hm.act hg _⟩
  | close hg hend =>
    obtain ⟨hm', rfl⟩ := hm.close hg
    exact .inr ⟨rfl, rfl, hend, rfl, .inl ⟨rfl, hm'⟩⟩
  | shift hg h =>
    refine .inl ⟨?_, hm.shift hg⟩
    rw [goals_shift]
    exact hm.rest_ne_nil hg nofun
  | expand hg h =>
    exact .inl ⟨List.append_ne_nil_of_right_ne_nil _ (hm.rest_ne_nil hg nofun),
      hnone.symm ▸ hm.expand htable hg h⟩
  | missingTerminal hg h =>
    have hroot := ne_root_of_leaf hm hg
    exact .inl ⟨hgiveUp (hm.rest_ne_nil hg nofun), hnone.symm ▸ hm.giveUp hg rfl hroot h _⟩
  | missingPhrase hg h hfollow =>
    have hroot := ne_root_of_not_predicted htable hm hg h (.inl hfollow)
    rw [hg, awaited_cons_some rfl, List.forall_mem_cons] at hroot
    exact .inl ⟨hgiveUp (hm.rest_ne_nil hg nofun),
      hnone.symm ▸ hm.giveUp hg rfl hroot.1 (by rw [Fits, h]; nofun) _⟩
  | tooLong hg hend => exact .inl ⟨hskip hg, hskipped.symm ▸ hm.skip hg rfl nofun⟩
  | illegal hg h hfollow hend =>
    exact .inl ⟨hskip hg, hskipped.symm ▸ hm.skip hg rfl (by rw [Fits, h]; nofun)⟩
  | abandon hg h hfollow hend =>
    have hroot := ne_root_of_not_predicted htable hm hg h (.inr hend)
    have hm' := hm.abandon hg rfl hroot (by rw [Fits, h]; nofun)
    obtain ⟨tree, heq⟩ := abandon_eq (m := m)
    rw [heq] at hm' ⊢
    exact .inr ⟨rfl, rfl, hend, rfl, .inr ⟨rfl, hm'⟩⟩

/-- **The leaves of a run** are the tokens that have been matched, and the end of the text once it
has been met. -/
theorem Course.grounded (htable : Grammar.table = .ok table) (h : Course table m₀ fates m)
    (hm₀ : m₀.Grounded table []) (herrors : m₀.errors = #[]) (hgoals : m₀.goals ≠ []) :
    (m.goals ≠ [] ∧ m.Grounded table ((tokensOf .matched fates).map Token.display)) ∨
      m.goals = [] ∧ m.lookahead.isEndOfInput = true ∧ ∃ ending,
        m.Grounded table ((tokensOf .matched fates).map Token.display ++ ending) ∧
          ((∀ e ∈ m.errors.toList, e.fault ≠ .unexpectedEnd) ∧
              ending = [Terminal.endMarker.lexeme] ∨
            (∃ e ∈ m.errors.toList, e.fault = .unexpectedEnd) ∧ ending = []) := by
  induction h with
  | start => exact .inl ⟨hgoals, hm₀⟩
  | @turn fates m m' fate? h hturn ih =>
    rcases ih with ⟨hne, hm⟩ | ⟨hnil, -⟩
    · have hkept := (h.ended herrors).resolve_right fun hc => hne hc.1
      rcases hturn.grounded htable hm with ⟨hne', hm'⟩ | ⟨hnil, rfl, hend, hsame, hcases⟩
      · refine .inl ⟨hne', ?_⟩
        have hlabels : (tokensOf .matched
              (fates ++ fate?.toList.map fun fate => (fate, m.lookahead))).map Token.display =
            (tokensOf .matched fates).map Token.display ++
              fate?.toList.flatMap (Fate.leaf m.lookahead) := by
          rcases fate? with _ | _ | _ <;> simp [tokensOf, Fate.leaf]
        rw [hlabels]
        exact hm'
      · have hfates : fates ++ (none : Option Fate).toList.map (fun fate => (fate, m.lookahead)) =
            fates := List.append_nil _
        rw [hfates]
        refine .inr ⟨hnil, hsame ▸ hend, ?_⟩
        rcases hcases with ⟨herr, hm'⟩ | ⟨herr, hm'⟩
        · exact ⟨_, hm', .inl ⟨herr ▸ hkept, rfl⟩⟩
        · refine ⟨[], (List.append_nil _).symm ▸ hm',
            .inr ⟨⟨⟨m.lookahead.line, .unexpectedEnd⟩, ?_, rfl⟩, rfl⟩⟩
          rw [herr, Array.toList_push]
          exact List.mem_append_right _ List.mem_cons_self
    · cases hturn <;> simp_all

variable {config : Config} {source : String} {o : Outcome}

theorem grounded_begun (table : Table) (config : Config) (source : String) :
    (begun config source).Grounded table [] := by
  have htree := tree_begun config source
  have hgoals := goals_begun config source
  refine ⟨⟨(numbered_begun config source).tree, ⟨[], ?_, rfl⟩, ?_, ?_, .inr hgoals⟩, ?_,
    .inr ⟨_, awaits_begun config source⟩⟩
  · rw [htree, hgoals]
    rfl
  · rw [htree]
    exact List.nodup_singleton _
  · rw [htree, hgoals]
    intro p hp
    exact ⟨fun _ => ⟨rfl, by decide⟩, trivial, trivial⟩
  · rw [htree]
    exact ⟨nofun, trivial, trivial⟩

theorem endMarker_begun (config : Config) (source : String) :
    (begun config source).endMarker = (Lexical.scan config.keywords source).endMarker :=
  endMarker_advance

theorem lookahead_begun (h : (begun config source).lookahead.isEndOfInput = true) :
    (begun config source).lookahead = (begun config source).endMarker :=
  (lookahead_advance h isEndOfInput_of_mem_scan).trans (endMarker_begun config source).symm

/-- **The next token of a run** is that which the scanner gives when it is asked for the first time
after the tokens that the run has passed. -/
theorem Course.pull (h : Course table (begun config source) fates m) :
    ((Lexical.Scanner.start config.keywords source).after fates.length).pull.1 = m.lookahead := by
  have htokens := h.tokens (orderly_begun config source)
  rw [pending_begun] at htokens
  have hlen := congrArg List.length htokens
  rw [List.length_append, List.length_map] at hlen
  rw [Lexical.pull_after _ _ (by omega), h.lookahead (orderly_begun config source) lookahead_begun,
    pending_begun, endMarker_begun]

/-- **The account of a text:** what has become of its tokens, against the errors and the tree that
are left. -/
structure Outcome.Accounted (o : Outcome) (fates : List (Fate × Token)) : Prop where
  /-- Every token is matched or skipped. -/
  tokens : fates.map Prod.snd = o.scan.tokens
  /-- There is an error for each token that is skipped. -/
  illegal : o.syntaxErrors.filter SyntaxError.isIllegal =
    (tokensOf .skipped fates).map illegalError
  /-- The leaves are the tokens that are matched, and the end of the text if it was met. -/
  leaves : o.tree.forest.frontier = (tokensOf .matched fates).map Token.display ++
    if o.syntaxErrors.any SyntaxError.isUnexpectedEnd then [] else [Terminal.endMarker.lexeme]
  count : o.scan.tokens.length =
    (o.tree.forest.frontier.filter fun label => label ≠ Terminal.endMarker.lexeme).length +
      (o.syntaxErrors.filter SyntaxError.isIllegal).length
  /-- The text ends too early just when its end is not a leaf. -/
  ended : Terminal.endMarker.lexeme ∉ o.tree.forest.frontier ↔
    ∃ e ∈ o.syntaxErrors, e.fault = .unexpectedEnd
  /-- That is the last error. -/
  last : ∀ before e after, o.syntaxErrors = before ++ e :: after → e.fault = .unexpectedEnd →
    after = []

theorem display_ne_endMarker {t : Token} (h : t.isEndOfInput = false) :
    t.display ≠ Terminal.endMarker.lexeme := by
  intro heq
  have heq := congrArg String.toList heq
  simp [Token.display, h, Terminal.lexeme, toString] at heq

/-- What an account says of the leaves and the errors says the rest. -/
theorem Outcome.accounted (ending : List String) (htokens : fates.map Prod.snd = o.scan.tokens)
    (hend : ∀ t ∈ o.scan.tokens, t.isEndOfInput = false)
    (hillegal : o.syntaxErrors.filter SyntaxError.isIllegal =
      (tokensOf .skipped fates).map illegalError)
    (hleaves : o.tree.forest.frontier = (tokensOf .matched fates).map Token.display ++ ending)
    (hending : (∀ e ∈ o.syntaxErrors, e.fault ≠ .unexpectedEnd) ∧
        ending = [Terminal.endMarker.lexeme] ∨
      (∃ before line, o.syntaxErrors = before ++ [⟨line, .unexpectedEnd⟩] ∧
        ∀ e ∈ before, e.fault ≠ .unexpectedEnd) ∧ ending = []) : o.Accounted fates := by
  have hmatched : ∀ t ∈ tokensOf .matched fates, t.display ≠ Terminal.endMarker.lexeme := by
    intro t ht
    obtain ⟨p, hp, rfl⟩ := List.mem_map.1 ht
    refine display_ne_endMarker (hend _ ?_)
    rw [← htokens]
    exact List.mem_map_of_mem (List.mem_filter.1 hp).1
  have hnot : Terminal.endMarker.lexeme ∉ (tokensOf .matched fates).map Token.display := by
    intro hmem
    obtain ⟨t, ht, heq⟩ := List.mem_map.1 hmem
    exact hmatched t ht heq
  have hfilter : ((tokensOf .matched fates).map Token.display).filter
      (fun label => label ≠ Terminal.endMarker.lexeme) =
        (tokensOf .matched fates).map Token.display :=
    List.filter_eq_self.2 fun label hl => decide_eq_true fun heq => hnot (heq ▸ hl)
  have hcount : ∀ ending : List String, ending.filter
      (fun label => label ≠ Terminal.endMarker.lexeme) = [] →
      o.scan.tokens.length =
        (((tokensOf .matched fates).map Token.display ++ ending).filter
          fun label => label ≠ Terminal.endMarker.lexeme).length +
            (o.syntaxErrors.filter SyntaxError.isIllegal).length := by
    intro ending hnil
    rw [List.filter_append, hnil, hfilter, hillegal, List.append_nil, List.length_map,
      List.length_map, ← htokens, List.length_map, length_eq_add]
  have hunexpected : ∀ e : SyntaxError, e.isUnexpectedEnd = true ↔ e.fault = .unexpectedEnd := by
    rintro ⟨line, _ | _ | _⟩ <;> simp [SyntaxError.isUnexpectedEnd]
  rcases hending with ⟨hno, rfl⟩ | ⟨⟨before, line, herrors, hbefore⟩, rfl⟩
  · have hany : o.syntaxErrors.any SyntaxError.isUnexpectedEnd = false :=
      List.any_eq_false.2 fun e he => fun hc => hno e he ((hunexpected e).1 hc)
    refine ⟨htokens, hillegal, by rw [hany]; exact hleaves, ?_, ?_, ?_⟩
    · rw [hleaves]
      exact hcount _ (by simp)
    · rw [hleaves]
      simp only [List.mem_append, List.mem_singleton, or_true, not_true_eq_false, false_iff]
      rintro ⟨e, he, hfault⟩
      exact hno e he hfault
    · intro before e after heq hfault
      exact absurd hfault (hno e (by rw [heq]; simp))
  · have hany : o.syntaxErrors.any SyntaxError.isUnexpectedEnd = true :=
      List.any_eq_true.2 ⟨⟨line, .unexpectedEnd⟩, by rw [herrors]; simp, rfl⟩
    refine ⟨htokens, hillegal, by rw [hany]; exact hleaves, ?_, ?_, ?_⟩
    · rw [hleaves]
      exact hcount _ rfl
    · rw [hleaves, List.append_nil]
      exact ⟨fun _ => ⟨⟨line, .unexpectedEnd⟩, by rw [herrors]; simp, rfl⟩, fun _ => hnot⟩
    · intro before' e after heq hfault
      rw [herrors] at heq
      rcases List.eq_nil_or_concat' after with rfl | ⟨init, last, rfl⟩
      · rfl
      · -- an error that is not the last is one of those before it
        rw [← List.cons_append, ← List.append_assoc] at heq
        have hbefore' := (List.append_inj' heq rfl).1
        exact absurd hfault (hbefore e (by rw [hbefore']; simp))

/-- **No token is lost.** Every token of a text is matched or skipped, in the order in which the
scanner gives them; there is one error for each that is skipped, and the leaves of the tree are
those that are matched. -/
theorem tokens_of_parse (h : parse config source = .ok o) :
    o.scan = Lexical.scan config.keywords source ∧
      ∃ table fates m, Grammar.table = .ok table ∧ Course table (begun config source) fates m ∧
        m.goals = [] ∧ o = ⟨Lexical.scan config.keywords source, m.errors.toList, m.tree,
          m.generator, m.lookahead.line⟩ ∧ o.Accounted fates ∧
        (∀ fates' m', Course table (begun config source) fates' m' →
          ((Lexical.Scanner.start config.keywords source).after fates'.length).pull.1 =
            m'.lookahead) ∧
        (Lexical.Scanner.start config.keywords source).after (o.scan.tokens.length + 1) =
          (Lexical.Scanner.start config.keywords source).drain := by
  obtain ⟨table, fates, m, htable, hcourse, hgoals, rfl⟩ := course_of_parse h
  refine ⟨rfl, table, fates, m, htable, hcourse, hgoals, rfl, ?_, fun _ _ => Course.pull,
    Lexical.after_scan _ _⟩
  have herrors := errors_begun config source
  have hne : (begun config source).goals ≠ [] := by
    rw [goals_begun]
    exact List.cons_ne_nil _ _
  obtain ⟨hne, -⟩ | ⟨-, hend, ending, hm, hending⟩ :=
    hcourse.grounded htable (grounded_begun table config source) herrors hne
  · exact absurd hgoals hne
  · have htokens := hcourse.tokens (orderly_begun config source)
    rw [pending_begun, pending, if_pos hend, List.append_nil] at htokens
    obtain ⟨done, htips, hdone⟩ := hm.tree.tips
    rw [hgoals] at htips
    refine Outcome.accounted ending htokens.symm isEndOfInput_of_mem_scan
      (hcourse.illegal herrors) ?_ ?_
    · show m.tree.forest.frontier = _
      rw [Forest.frontier_eq_tips, htips, ← hdone]
      exact congrArg (List.map Prod.snd) (List.append_nil done)
    · refine hending.imp_right fun hstopped => ⟨?_, hstopped.2⟩
      obtain ⟨⟨e, he, hfault⟩, -⟩ := hstopped
      rcases hcourse.ended herrors with hno | ⟨-, hlast⟩
      · exact absurd hfault (hno e he)
      · exact hlast

/-- A text with a token too many that ends inside a statement. -/
theorem tokens_of_unfinished_print : ∃ o fates, parse .standard "x = ) 1 ; print ( x" = .ok o ∧
    o.syntaxErrors = [⟨1, .illegal ")"⟩, ⟨1, .unexpectedEnd⟩] ∧ o.Accounted fates ∧
    o.tree.forest.frontier = ["(ID, x)", "(SYMBOL, =)", "(NUM, 1)", "(SYMBOL, ;)",
      "(KEYWORD, print)", "(SYMBOL, ()", "(ID, x)"] := by
  have h : (parse .standard "x = ) 1 ; print ( x").toOption.map (fun o =>
      (o.syntaxErrors, o.tree.forest.frontier)) =
      some ([⟨1, .illegal ")"⟩, ⟨1, .unexpectedEnd⟩], ["(ID, x)", "(SYMBOL, =)", "(NUM, 1)",
        "(SYMBOL, ;)", "(KEYWORD, print)", "(SYMBOL, ()", "(ID, x)"]) := by
    rw [parse_eq, table_eq_ok]
    decide +kernel
  cases ho : parse .standard "x = ) 1 ; print ( x" with
  | error e =>
    rw [ho] at h
    cases h
  | ok o =>
    rw [ho] at h
    obtain ⟨herrors, hleaves⟩ := Prod.mk.inj (Option.some.inj h)
    obtain ⟨-, _, fates, _, -, -, -, -, haccount, -⟩ := tokens_of_parse ho
    exact ⟨o, fates, rfl, herrors, haccount, hleaves⟩

end Derivation

end OnePass
