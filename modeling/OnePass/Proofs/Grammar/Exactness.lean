import OnePass.Proofs.Grammar.Derives

/-!
# Exactness of the table

The textbook rules for what a phrase can begin with, what can follow it and whether it can
be empty, as judgements over any list of productions. A judgement holds if finitely many
uses of the rules give it, so these are the least answers closed under them.

* `Empties`, `Begins`, `Follows`: the three judgements. `Production.Predicts`: when a terminal
  calls for a production.
* `nullable_iff`, `first_iff`, `follow_iff`: what `Facts.ofProductions` computes is what the
  judgements say.
* `conflict_of_build_eq_error`: the clash that refuses a grammar is one.
* `build_exact`: a table is built if and only if no two productions of one phrase are called for
  by one terminal, and then it predicts as the judgements do.

Left recursion, phrases that are empty only through each other and phrases without a
production need no case of their own: soundness is by what is learned in the passes,
completeness by the uses of the rules.
-/

namespace OnePass.Grammar

section Rules

variable (rules : List Production) (start : Nonterminal)

/-- **A string of symbols that can be empty.** Actions are. -/
inductive Empties : List Symbol → Prop
  | nil : Empties []
  | action {a : Action} {rest : List Symbol} (h : Empties rest) : Empties (.action a :: rest)
  | phrase {p : Production} (hp : p ∈ rules) {rest : List Symbol} (hb : Empties p.body)
      (h : Empties rest) : Empties (.nonterminal p.head :: rest)

/-- **A terminal that a string of symbols can begin with.** -/
inductive Begins : List Symbol → Terminal → Prop
  | terminal {t : Terminal} {rest : List Symbol} : Begins (.terminal t :: rest) t
  | action {a : Action} {rest : List Symbol} {t : Terminal} (h : Begins rest t) :
      Begins (.action a :: rest) t
  | phrase {p : Production} (hp : p ∈ rules) {rest : List Symbol} {t : Terminal}
      (h : Begins p.body t) : Begins (.nonterminal p.head :: rest) t
  /-- What comes behind a phrase that can be empty. -/
  | past {n : Nonterminal} {rest : List Symbol} {t : Terminal}
      (hn : Empties rules [.nonterminal n]) (h : Begins rest t) : Begins (.nonterminal n :: rest) t

/-- **A terminal that can come right after a phrase.** -/
inductive Follows : Nonterminal → Terminal → Prop
  /-- The text ends behind the phrase of the whole. -/
  | finish : Follows start .endMarker
  | within {p : Production} (hp : p ∈ rules) {a b : List Symbol} {n : Nonterminal}
      (hbody : p.body = a ++ .nonterminal n :: b) {t : Terminal} (h : Begins rules b t) :
      Follows n t
  /-- A phrase at the end of another is followed by what follows that one. -/
  | behind {p : Production} (hp : p ∈ rules) {a b : List Symbol} {n : Nonterminal}
      (hbody : p.body = a ++ .nonterminal n :: b) (hb : Empties rules b) {t : Terminal}
      (h : Follows p.head t) : Follows n t

/-- **A terminal that calls for a production:** the body can begin with it, or the body can be empty
and it can follow the head. -/
def Production.Predicts (p : Production) (t : Terminal) : Prop :=
  Begins rules p.body t ∨ Empties rules p.body ∧ Follows rules start p.head t

end Rules

variable {rules : List Production} {start : Nonterminal} {k : Facts} {symbols : List Symbol}
  {t : Terminal}

/-- If the symbols in front of the rest can be empty as one phrase, so can the whole. -/
theorem Empties.cons {n : Nonterminal} (hn : Empties rules [.nonterminal n])
    (h : Empties rules symbols) : Empties rules (.nonterminal n :: symbols) := by
  cases hn with
  | phrase hp hb _ => exact .phrase hp hb h

theorem Begins.cons {n : Nonterminal} (hn : Begins rules [.nonterminal n] t) :
    Begins rules (.nonterminal n :: symbols) t := by
  cases hn with
  | phrase hp h => exact .phrase hp h
  | past _ h => nomatch h

/-! ### Nothing is known that the rules do not give -/

/-- **Facts that the rules give.** -/
structure Facts.Sound (k : Facts) (rules : List Production) (start : Nonterminal) : Prop where
  nullable : ∀ n, (k.phrase n).nullable = true → Empties rules [.nonterminal n]
  first : ∀ n t, t ∈ (k.phrase n).first → Begins rules [.nonterminal n] t
  follow : ∀ n t, t ∈ (k.phrase n).follow → Follows rules start n t

namespace Facts.Sound

theorem empties (hk : k.Sound rules start) (h : k.nullable symbols = true) :
    Empties rules symbols := by
  induction symbols with
  | nil => exact .nil
  | cons s rest ih =>
    cases s with
    | terminal u => cases h
    | nonterminal n =>
      rw [Facts.nullable, Bool.and_eq_true] at h
      exact (hk.nullable n h.1).cons (ih h.2)
    | action a => exact .action (ih h)

theorem begins (hk : k.Sound rules start) (h : t ∈ k.first symbols) : Begins rules symbols t := by
  induction symbols with
  | nil => exact absurd h (TerminalSet.not_mem_empty t)
  | cons s rest ih =>
    cases s with
    | terminal u =>
      rw [Facts.first, TerminalSet.mem_singleton] at h
      subst h
      exact .terminal
    | nonterminal n =>
      rw [Facts.first, TerminalSet.mem_union, TerminalSet.mem_onlyIf] at h
      rcases h with h | ⟨hn, h⟩
      · exact (hk.first n t h).cons
      · exact .past (hk.nullable n hn) (ih h)
    | action a => exact .action (ih h)

theorem lookaheads (hk : k.Sound rules start) {head : Nonterminal}
    (h : t ∈ k.lookaheads head symbols) :
    Begins rules symbols t ∨ Empties rules symbols ∧ Follows rules start head t := by
  rw [Facts.lookaheads, TerminalSet.mem_union, TerminalSet.mem_onlyIf] at h
  rcases h with h | ⟨hn, h⟩
  · exact .inl (hk.begins h)
  · exact .inr ⟨hk.empties hn, hk.follow head t h⟩

theorem nothing : Facts.nothing.Sound rules start := by
  refine ⟨fun n h => ?_, fun n t h => ?_, fun n t h => ?_⟩
  all_goals rw [phrase_nothing] at h
  · cases h
  · exact absurd h (TerminalSet.not_mem_empty t)
  · exact absurd h (TerminalSet.not_mem_empty t)

/-- What is known of one phrase may change if the rules give that. -/
theorem update (hk : k.Sound rules start) {n : Nonterminal} {f : PhraseFacts}
    (hnullable : f.nullable = true → Empties rules [.nonterminal n])
    (hfirst : ∀ t, t ∈ f.first → Begins rules [.nonterminal n] t)
    (hfollow : ∀ t, t ∈ f.follow → Follows rules start n t) : (k.update n f).Sound rules start := by
  refine ⟨fun m => ?_, fun m t => ?_, fun m t => ?_⟩ <;> rw [phrase_update] <;> split
  · rename_i heq
    exact heq ▸ hnullable
  · exact hk.nullable m
  · rename_i heq
    exact heq ▸ hfirst t
  · exact hk.first m t
  · rename_i heq
    exact heq ▸ hfollow t
  · exact hk.follow m t

/-- **Each thing that is learned** is given by one more use of a rule. -/
theorem kept (rules : List Production) (start : Nonterminal) :
    Kept rules start fun k => k.Sound rules start := by
  intro k k' h hk
  cases h with
  | @first p hp =>
    refine hk.update (fun h => ?_) (fun t ht => ?_) (hk.follow p.head)
    · exact (Bool.or_eq_true _ _ ▸ h).elim (hk.nullable p.head) fun h => .phrase hp (hk.empties h) .nil
    · exact (TerminalSet.mem_union.1 ht).elim (hk.first p.head t) fun ht => .phrase hp (hk.begins ht)
  | @follow p a b n hp hbody =>
    refine hk.update (hk.nullable n) (hk.first n) fun t ht => ?_
    rcases TerminalSet.mem_union.1 ht with ht | ht
    · exact hk.follow n t ht
    · rcases hk.lookaheads ht with ht | ⟨hb, hhead⟩
      · exact .within hp hbody ht
      · exact .behind hp hbody hb hhead
  | finish =>
    refine hk.update (hk.nullable start) (hk.first start) fun t ht => ?_
    rcases TerminalSet.mem_union.1 ht with ht | ht
    · exact hk.follow start t ht
    · exact TerminalSet.mem_singleton.1 ht ▸ .finish

theorem ofProductions : (Facts.ofProductions rules start).Sound rules start :=
  ofProductions_induction (kept rules start) nothing

end Facts.Sound

/-! ### Everything is known that the rules give -/

namespace Facts.Closed

theorem nullable_of_empties (hk : k.Closed rules start) (h : Empties rules symbols) :
    k.nullable symbols = true := by
  induction h with
  | nil => rfl
  | action _ ih => exact ih
  | phrase hp _ _ ihb ih =>
    rw [Facts.nullable, Bool.and_eq_true]
    exact ⟨hk.nullable _ hp ihb, ih⟩

theorem first_of_begins (hk : k.Closed rules start) (h : Begins rules symbols t) :
    t ∈ k.first symbols := by
  induction h with
  | terminal =>
    rw [Facts.first, TerminalSet.mem_singleton]
  | action _ ih => exact ih
  | phrase hp _ ih =>
    rw [Facts.first, TerminalSet.mem_union]
    exact .inl (hk.first _ hp _ ih)
  | past hn _ ih =>
    have hnull := hk.nullable_of_empties hn
    rw [Facts.nullable, Bool.and_eq_true] at hnull
    rw [Facts.first, TerminalSet.mem_union, TerminalSet.mem_onlyIf]
    exact .inr ⟨hnull.1, ih⟩

theorem follow_of_follows (hk : k.Closed rules start) {n : Nonterminal}
    (h : Follows rules start n t) : t ∈ (k.phrase n).follow := by
  induction h with
  | finish => exact hk.start
  | within hp hbody hb =>
    apply hk.follow _ hp _ _ _ hbody
    rw [Facts.lookaheads, TerminalSet.mem_union]
    exact .inl (hk.first_of_begins hb)
  | behind hp hbody hb _ ih =>
    apply hk.follow _ hp _ _ _ hbody
    rw [Facts.lookaheads, TerminalSet.mem_union, TerminalSet.mem_onlyIf]
    exact .inr ⟨hk.nullable_of_empties hb, ih⟩

end Facts.Closed

namespace Facts

theorem nullable_iff :
    (ofProductions rules start).nullable symbols = true ↔ Empties rules symbols :=
  ⟨Sound.ofProductions.empties, (closed_ofProductions rules start).nullable_of_empties⟩

theorem first_iff : t ∈ (ofProductions rules start).first symbols ↔ Begins rules symbols t :=
  ⟨Sound.ofProductions.begins, (closed_ofProductions rules start).first_of_begins⟩

theorem follow_iff {n : Nonterminal} :
    t ∈ ((ofProductions rules start).phrase n).follow ↔ Follows rules start n t :=
  ⟨Sound.ofProductions.follow n t, (closed_ofProductions rules start).follow_of_follows⟩

/-- **The lookaheads of a production are the terminals that call for it.** -/
theorem mem_lookaheads_iff {p : Production} :
    t ∈ (ofProductions rules start).lookaheads p.head p.body ↔ p.Predicts rules start t := by
  rw [lookaheads, TerminalSet.mem_union, TerminalSet.mem_onlyIf, first_iff, nullable_iff, follow_iff,
    Production.Predicts]

end Facts

/-! ### Clashes -/

/-- Two productions of one phrase, in their order, that one terminal calls for. -/
structure Conflict.Holds (c : Conflict) (rules : List Production) (start : Nonterminal) : Prop where
  lt : c.previous < c.index
  previous : ∃ p, rules[c.previous]? = some p ∧ p.head = c.head ∧ p.Predicts rules start c.terminal
  index : ∃ p, rules[c.index]? = some p ∧ p.head = c.head ∧ p.Predicts rules start c.terminal

namespace Table

/-- The predictions a table is built from. -/
theorem predicts_of_getElem? {i : Nat} {q : Prediction}
    (h : (rules.map fun p =>
      (⟨p.head, (Facts.ofProductions rules start).lookaheads p.head p.body⟩ : Prediction))[i]? = some q)
    (ht : t ∈ q.lookaheads) :
    ∃ p, rules[i]? = some p ∧ p.head = q.head ∧ p.Predicts rules start t := by
  rw [List.getElem?_map, Option.map_eq_some_iff] at h
  obtain ⟨p, hp, rfl⟩ := h
  exact ⟨p, hp, rfl, Facts.mem_lookaheads_iff.1 ht⟩

/-- What a clash of predictions says of them. -/
theorem predictions_of_firstClash? {predictions : List Prediction} {c : Conflict}
    (h : firstClash? predictions = some c) : c.previous < c.index ∧
      (∃ p, predictions[c.previous]? = some p ∧ p.head = c.head ∧ c.terminal ∈ p.lookaheads) ∧
      ∃ p, predictions[c.index]? = some p ∧ p.head = c.head ∧ c.terminal ∈ p.lookaheads := by
  obtain ⟨⟨p, index⟩, hp, hclash⟩ := List.exists_of_findSome?_eq_some h
  obtain ⟨u, hu, hsome⟩ := List.exists_of_findSome?_eq_some hclash
  obtain ⟨previous, hprevious, rfl⟩ := Option.map_eq_some_iff.1 hsome
  rw [predicted?, List.findIdx?_eq_some_iff_getElem] at hprevious
  obtain ⟨hlt, hq, -⟩ := hprevious
  have hless : previous < index ∧ previous < predictions.length := by
    rw [List.length_take] at hlt
    omega
  rw [List.getElem_take, Bool.and_eq_true, beq_iff_eq] at hq
  refine ⟨hless.1, ⟨_, List.getElem?_eq_getElem hless.2, hq.1, hq.2⟩, ?_⟩
  exact ⟨p, List.mem_zipIdx_iff_getElem?.1 hp, rfl, TerminalSet.mem_toList.1 hu⟩

/-- **A grammar is refused for a clash of two of its productions,** and the clash that is reported
is one. -/
theorem conflict_of_build_eq_error {clash : Conflict} (h : build rules start = .error clash) :
    clash.Holds rules start := by
  unfold build at h
  dsimp only at h
  split at h
  · rename_i c hc
    cases h
    obtain ⟨hlt, ⟨p, hp, hph, hpt⟩, q, hq, hqh, hqt⟩ := predictions_of_firstClash? hc
    refine ⟨hlt, ?_, ?_⟩
    · rw [← hph]
      exact predicts_of_getElem? hp hpt
    · rw [← hqh]
      exact predicts_of_getElem? hq hqt
  · cases h

variable {table : Table}

theorem mem_lookaheads_iff (h : build rules start = .ok table) {p : Production} :
    t ∈ table.facts.lookaheads p.head p.body ↔ p.Predicts rules start t := by
  rw [(build_eq_ok h).1]
  exact Facts.mem_lookaheads_iff

/-- In a table two productions of one phrase are not called for by one terminal. -/
theorem eq_of_predicts (h : build rules start = .ok table) {i j : Nat} {p q : Production}
    (hi : rules[i]? = some p) (hj : rules[j]? = some q) (hhead : p.head = q.head)
    (hp : p.Predicts rules start t) (hq : q.Predicts rules start t) : i = j := by
  obtain ⟨-, hpredictions, hclash⟩ := build_eq_ok h
  obtain ⟨hilt, rfl⟩ := List.getElem?_eq_some_iff.1 hi
  obtain ⟨hjlt, rfl⟩ := List.getElem?_eq_some_iff.1 hj
  have hlength : table.predictions.length = rules.length := by rw [hpredictions, List.length_map]
  apply eq_of_shared_lookahead hclash (t := t) (hlength ▸ hilt) (hlength ▸ hjlt)
  all_goals simp only [hpredictions, List.getElem_map]
  · exact hhead
  · exact (mem_lookaheads_iff h).2 hp
  · exact (mem_lookaheads_iff h).2 hq

/-- **A table predicts a production if and only if the terminal calls for it.** -/
theorem production?_iff (h : build rules start = .ok table) {n : Nonterminal} {i : Nat} :
    table.production? n t = some i ↔
      ∃ p, rules[i]? = some p ∧ p.head = n ∧ p.Predicts rules start t := by
  constructor
  · intro hi
    obtain ⟨p, hp, hhead, ht⟩ := mem_of_production? h hi
    exact ⟨p, hp, hhead, (mem_lookaheads_iff h).1 ht⟩
  · rintro ⟨p, hp, rfl, hpt⟩
    have ht := (mem_lookaheads_iff h).2 hpt
    obtain ⟨j, hj, hq⟩ := production?_of_mem h (List.mem_of_getElem? hp) ht
    have hij : j = i := eq_of_predicts h hq hp rfl hpt hpt
    rw [hj, hij]

theorem follows_iff (h : build rules start = .ok table) {n : Nonterminal} :
    table.follows n t = true ↔ Follows rules start n t := by
  rw [follows, (build_eq_ok h).1]
  exact Facts.follow_iff

/-- **The table of any grammar is exact.** It is refused if and only if a terminal calls for two
different productions of one phrase. A table that is built predicts a production on a terminal
if and only if the terminal calls for it, and says of a terminal that it follows a phrase if and
only if it can. -/
theorem build_exact (rules : List Production) (start : Nonterminal) :
    ((∃ clash, build rules start = .error clash) ↔
      ∃ (i j : Nat) (p q : Production) (t : Terminal), i ≠ j ∧ rules[i]? = some p ∧
        rules[j]? = some q ∧ p.head = q.head ∧ p.Predicts rules start t ∧
        q.Predicts rules start t) ∧
    ∀ table, build rules start = .ok table →
      (∀ (n : Nonterminal) (t : Terminal) (i : Nat), table.production? n t = some i ↔
        ∃ p, rules[i]? = some p ∧ p.head = n ∧ p.Predicts rules start t) ∧
      ∀ (n : Nonterminal) (t : Terminal), table.follows n t = true ↔ Follows rules start n t := by
  refine ⟨⟨?_, ?_⟩, fun table h => ⟨fun n t i => production?_iff h, fun n t => follows_iff h⟩⟩
  · rintro ⟨clash, h⟩
    obtain ⟨hlt, ⟨p, hp, hph, hpt⟩, q, hq, hqh, hqt⟩ := conflict_of_build_eq_error h
    exact ⟨_, _, p, q, clash.terminal, by omega, hp, hq, hph.trans hqh.symm, hpt, hqt⟩
  · rintro ⟨i, j, p, q, t, hij, hi, hj, hhead, hp, hq⟩
    cases h : build rules start with
    | error clash => exact ⟨clash, rfl⟩
    | ok table => exact absurd (eq_of_predicts h hi hj hhead hp hq) hij

/-- Sums that begin with a sum. -/
def leftRecursive : List Production :=
  [⟨.expression, [.nonterminal .expression, .terminal .plus, .nonterminal .term]⟩,
    ⟨.expression, [.nonterminal .term]⟩, ⟨.term, [.terminal .number]⟩]

/-- Statements that have nothing in them. -/
def emptyStatements : List Production :=
  [⟨.statements, [.nonterminal .statement, .terminal .semicolon]⟩,
    ⟨.statement, [.nonterminal .term, .action .print]⟩, ⟨.term, []⟩]

/-- A number calls for both sums, so they are refused. The semicolon calls for the empty
statement. -/
theorem build_exact_sums_and_empty : (∃ clash, build leftRecursive .expression = .error clash) ∧
    ∃ table, build emptyStatements .statements = .ok table ∧
      table.production? .statement .semicolon = some 1 ∧ table.follows .term .semicolon = true := by
  constructor
  · have hterm : Begins leftRecursive [.nonterminal .term] .number :=
      .phrase (p := ⟨.term, [.terminal .number]⟩) (by decide) .terminal
    have hsum : Begins leftRecursive
        [.nonterminal .expression, .terminal .plus, .nonterminal .term] .number :=
      .phrase (p := ⟨.expression, [.nonterminal .term]⟩) (by decide) hterm
    exact (build_exact leftRecursive .expression).1.2
      ⟨0, 1, _, _, .number, by decide, rfl, rfl, rfl, .inl hsum, .inl hterm⟩
  · -- one production for each phrase cannot clash
    have hheads : (emptyStatements.map Production.head).Nodup := by decide
    obtain ⟨table, htable⟩ : ∃ table, build emptyStatements .statements = .ok table := by
      cases h : build emptyStatements .statements with
      | ok table => exact ⟨table, rfl⟩
      | error clash =>
        obtain ⟨i, j, p, q, t, hij, hi, hj, hhead, -⟩ :=
          (build_exact emptyStatements .statements).1.1 ⟨clash, h⟩
        have hlt : i < (emptyStatements.map Production.head).length := by
          rw [List.length_map]
          exact (List.getElem?_eq_some_iff.1 hi).1
        apply absurd ((List.getElem?_inj hlt hheads).1 _) hij
        rw [List.getElem?_map, List.getElem?_map, hi, hj, Option.map_some, Option.map_some, hhead]
    obtain ⟨hproduction, hfollows⟩ := (build_exact emptyStatements .statements).2 table htable
    have hsemicolon : Follows emptyStatements .statements .statement .semicolon :=
      .within (a := []) (List.mem_cons_self ..) rfl .terminal
    have hempty : Empties emptyStatements [.nonterminal .term, .action .print] :=
      .phrase (p := ⟨.term, []⟩) (by decide) .nil (.action .nil)
    refine ⟨table, htable, ?_, ?_⟩
    · exact (hproduction _ _ _).2 ⟨_, rfl, rfl, .inr ⟨hempty, hsemicolon⟩⟩
    · exact (hfollows _ _).2 (.behind (p := ⟨.statement, [.nonterminal .term, .action .print]⟩)
        (a := []) (by decide) rfl (.action .nil) hsemicolon)

end Table

end OnePass.Grammar
