import OnePass.Proofs.Grammar.Saturation

/-!
# Derivations

A string of symbols derives a string of marks: the terminals of a text, each with its
lexeme, and between them the actions of the productions that were used.

* `Derives`: what a string of symbols derives, over any list of productions.
* `nullable_of_derives`, `first_of_derives`: facts that are closed under the productions
  know how every derivation begins.
* `Followed`: what comes behind a phrase is known to follow it.
* `production?_of_mem`: in a table without clashes, a production whose lookaheads hold a
  terminal is the one the table predicts on it.
-/

namespace OnePass.Grammar

/-- What a derivation leaves of a string of symbols. -/
inductive Mark where
  /-- A terminal, and the text that stands for it. -/
  | read (t : Terminal) (lexeme : String)
  | act (a : Action)
deriving DecidableEq

namespace Mark

/-- The terminal of a mark that has one. -/
def terminal? : Mark → Option Terminal
  | read t _ => some t
  | act _ => none

/-- The terminals in their order. -/
def classes (w : List Mark) : List Terminal := w.filterMap terminal?

@[simp] theorem classes_nil : classes [] = [] := rfl

@[simp] theorem classes_read (t : Terminal) (x : String) (w : List Mark) :
    classes (read t x :: w) = t :: classes w := rfl

@[simp] theorem classes_act (a : Action) (w : List Mark) : classes (act a :: w) = classes w := rfl

@[simp] theorem classes_append (u w : List Mark) : classes (u ++ w) = classes u ++ classes w :=
  List.filterMap_append

/-- The terminal of a mark that has one, with the text that stands for it. -/
def reading? : Mark → Option (Terminal × String)
  | read t x => some (t, x)
  | act _ => none

/-- The terminals in their order, each with its text. -/
def readings (w : List Mark) : List (Terminal × String) := w.filterMap reading?

@[simp] theorem readings_nil : readings [] = [] := rfl

@[simp] theorem readings_read (t : Terminal) (x : String) (w : List Mark) :
    readings (read t x :: w) = (t, x) :: readings w := rfl

@[simp] theorem readings_act (a : Action) (w : List Mark) : readings (act a :: w) = readings w := rfl

@[simp] theorem readings_append (u w : List Mark) :
    readings (u ++ w) = readings u ++ readings w :=
  List.filterMap_append

theorem map_fst_readings (w : List Mark) : (readings w).map Prod.fst = classes w := by
  induction w with
  | nil => rfl
  | cons s w ih =>
    cases s with
    | read t x => rw [readings_read, classes_read, List.map_cons, ih]
    | act a => exact ih

/-- **The marks that a text spells:** its tokens have the terminals and the lexemes that are read
there. -/
def Spelled (w : List Mark) (tokens : List Lexical.Token) : Prop :=
  tokens.map (fun t => (Terminal.ofToken? t).map fun c => (c, t.lexeme)) = (readings w).map some

instance (w : List Mark) (tokens : List Lexical.Token) : Decidable (Spelled w tokens) :=
  inferInstanceAs (Decidable (_ = _))

theorem Spelled.classes_eq {w : List Mark} {tokens : List Lexical.Token} (h : Spelled w tokens) :
    tokens.map Terminal.ofToken? = (classes w).map some := by
  have := congrArg (List.map (Option.map Prod.fst)) h
  simp only [List.map_map, Function.comp_def, Option.map_map, Option.map_some] at this
  rw [← map_fst_readings, List.map_map]
  simpa [Function.comp_def] using this

end Mark

open Mark (classes)

/-- **What a string of symbols derives.** A terminal may be spelled in any way. -/
inductive Derives (rules : List Production) : List Symbol → List Mark → Prop
  | nil : Derives rules [] []
  | terminal {t : Terminal} (x : String) {rest : List Symbol} {w : List Mark}
      (h : Derives rules rest w) : Derives rules (.terminal t :: rest) (.read t x :: w)
  | action {a : Action} {rest : List Symbol} {w : List Mark}
      (h : Derives rules rest w) : Derives rules (.action a :: rest) (.act a :: w)
  | phrase {p : Production} (hp : p ∈ rules) {rest : List Symbol} {u w : List Mark}
      (hu : Derives rules p.body u) (h : Derives rules rest w) :
      Derives rules (.nonterminal p.head :: rest) (u ++ w)

variable {rules : List Production} {start : Nonterminal}

namespace Derives

theorem append {a b : List Symbol} {u w : List Mark} (hu : Derives rules a u)
    (hw : Derives rules b w) : Derives rules (a ++ b) (u ++ w) := by
  induction hu with
  | nil => exact hw
  | terminal x _ ih => exact .terminal x ih
  | action _ ih => exact .action ih
  | phrase hp hu' _ _ ih =>
    rw [List.append_assoc]
    exact .phrase hp hu' ih

/-- A terminal may be spelled in any way. -/
theorem respell {symbols : List Symbol} {w : List Mark} (h : Derives rules symbols w)
    {tokens : List Lexical.Token} (hw : tokens.map Terminal.ofToken? = (classes w).map some) :
    ∃ w', Derives rules symbols w' ∧ Mark.Spelled w' tokens := by
  induction h generalizing tokens with
  | nil =>
    obtain rfl := List.map_eq_nil_iff.1 hw
    exact ⟨[], .nil, rfl⟩
  | @terminal t x rest w _ ih =>
    cases tokens with
    | nil => cases hw
    | cons tok tokens =>
      rw [List.map_cons, Mark.classes_read, List.map_cons, List.cons.injEq] at hw
      obtain ⟨w', hw', hs⟩ := ih hw.2
      refine ⟨.read t tok.lexeme :: w', .terminal _ hw', ?_⟩
      rw [Mark.Spelled, List.map_cons, hs, hw.1]
      rfl
  | action _ ih =>
    obtain ⟨w', hw', hs⟩ := ih hw
    exact ⟨_, .action hw', hs⟩
  | @phrase p hp rest u v _ _ ihu ih =>
    rw [Mark.classes_append, List.map_append, List.map_eq_append_iff] at hw
    obtain ⟨tu, tv, rfl, hu, hv⟩ := hw
    obtain ⟨u', hu', hsu⟩ := ihu hu
    obtain ⟨v', hv', hsv⟩ := ih hv
    refine ⟨u' ++ v', .phrase hp hu' hv', ?_⟩
    rw [Mark.Spelled, List.map_append, Mark.readings_append, List.map_append, hsu, hsv]

theorem of_append {a b : List Symbol} {w : List Mark} (h : Derives rules (a ++ b) w) :
    ∃ u v, w = u ++ v ∧ Derives rules a u ∧ Derives rules b v := by
  induction a generalizing w with
  | nil => exact ⟨[], w, rfl, .nil, h⟩
  | cons s a ih =>
    cases h with
    | terminal x h =>
      obtain ⟨u, v, rfl, hu, hv⟩ := ih h
      exact ⟨_, v, rfl, .terminal x hu, hv⟩
    | action h =>
      obtain ⟨u, v, rfl, hu, hv⟩ := ih h
      exact ⟨_, v, rfl, .action hu, hv⟩
    | phrase hp hu' h =>
      obtain ⟨u, v, rfl, hu, hv⟩ := ih h
      exact ⟨_, v, (List.append_assoc _ _ _).symm, .phrase hp hu' hu, hv⟩

end Derives

section Facts

variable {k : Facts} {symbols : List Symbol} {w : List Mark}

/-- **A string of symbols that derives no terminal** is known to be nullable. -/
theorem nullable_of_derives (hk : k.Closed rules start) (h : Derives rules symbols w)
    (hw : classes w = []) : k.nullable symbols = true := by
  induction h with
  | nil => rfl
  | terminal x _ _ => simp at hw
  | action _ ih => exact ih hw
  | phrase hp _ _ ihu ih =>
    rw [Mark.classes_append, List.append_eq_nil_iff] at hw
    rw [Facts.nullable, Bool.and_eq_true]
    exact ⟨hk.nullable _ hp (ihu hw.1), ih hw.2⟩

/-- **The terminal that a derivation begins with** is known to begin it. -/
theorem first_of_derives (hk : k.Closed rules start) (h : Derives rules symbols w) {t : Terminal}
    {ts : List Terminal} (hw : classes w = t :: ts) : t ∈ k.first symbols := by
  induction h generalizing ts with
  | nil => simp at hw
  | terminal x _ _ =>
    simp only [Mark.classes_read, List.cons.injEq] at hw
    rw [Facts.first, TerminalSet.mem_singleton]
    exact hw.1.symm
  | action _ ih => exact ih hw
  | @phrase p hp rest u v hu _ ihu ih =>
    rw [Facts.first, TerminalSet.mem_union, TerminalSet.mem_onlyIf]
    rw [Mark.classes_append] at hw
    cases hc : classes u with
    | nil =>
      rw [hc, List.nil_append] at hw
      exact .inr ⟨hk.nullable _ hp (nullable_of_derives hk hu hc), ih hw⟩
    | cons t' ts' =>
      rw [hc, List.cons_append, List.cons.injEq] at hw
      obtain ⟨rfl, -⟩ := hw
      exact .inl (hk.first _ hp _ (ihu hc))

/-- The next terminal behind a derivation of a production's body, or of the end of one, is among
the lookaheads there. -/
theorem lookaheads_of_derives (hk : k.Closed rules start) (h : Derives rules symbols w)
    {head : Nonterminal} {next : Terminal} (hn : next ∈ (k.phrase head).follow) :
    (classes w).headD next ∈ k.lookaheads head symbols := by
  rw [Facts.lookaheads, TerminalSet.mem_union, TerminalSet.mem_onlyIf]
  cases hc : classes w with
  | nil => exact .inr ⟨nullable_of_derives hk h hc, hn⟩
  | cons t ts => exact .inl (first_of_derives hk h hc)

theorem headD_append (a b : List Terminal) (t : Terminal) :
    (a ++ b).headD t = a.headD (b.headD t) := by
  cases a <;> rfl

/-- **What comes behind a phrase can follow it:** the terminal that a derivation of the symbols
behind it begins with, or the end of the text. -/
def Followed (rules : List Production) (k : Facts) (symbols : List Symbol) : Prop :=
  ∀ a n b, symbols = a ++ .nonterminal n :: b → ∀ v, Derives rules b v →
    (classes v).headD .endMarker ∈ (k.phrase n).follow

theorem Followed.tail {s : Symbol} {rest : List Symbol} (h : Followed rules k (s :: rest)) :
    Followed rules k rest :=
  fun a n b hab v hv => h (s :: a) n b (congrArg (s :: ·) hab) v hv

/-- In place of a phrase its body may stand. -/
theorem Followed.body (hk : k.Closed rules start) {p : Production} (hp : p ∈ rules)
    {rest : List Symbol} (h : Followed rules k (.nonterminal p.head :: rest)) :
    Followed rules k (p.body ++ rest) := by
  intro a n b hab v hv
  rcases List.append_eq_append_iff.1 hab with ⟨a', rfl, hr⟩ | ⟨b', hb, hr⟩
  · exact h.tail a' n b hr v hv
  · cases b' with
    | nil =>
      rw [List.nil_append] at hr
      exact h.tail [] n b hr.symm v hv
    | cons s b' =>
      rw [List.cons_append, List.cons.injEq] at hr
      obtain ⟨rfl, rfl⟩ := hr
      obtain ⟨v₁, v₂, rfl, h1, h2⟩ := hv.of_append
      have hnext := h [] p.head rest rfl v₂ h2
      have := hk.follow p hp a n b' hb _ (lookaheads_of_derives hk h1 hnext)
      rwa [Mark.classes_append, headD_append]

/-- The end of the text follows the phrase of a whole text. -/
theorem followed_start (hk : k.Closed rules start) : Followed rules k [.nonterminal start] := by
  intro a n b hab v hv
  cases a with
  | nil =>
    cases hab
    cases hv
    exact hk.start
  | cons s a => simp at hab

end Facts

section Table

variable {table : Table}

theorem build_eq_ok (h : Table.build rules start = .ok table) :
    table.facts = .ofProductions rules start ∧
      table.predictions = rules.map (fun p => ⟨p.head, table.facts.lookaheads p.head p.body⟩) ∧
      Table.firstClash? table.predictions = none := by
  unfold Table.build at h
  dsimp only at h
  split at h
  · cases h
  · rename_i hc
    cases h
    exact ⟨rfl, rfl, hc⟩

/-- Two productions of one head share no lookahead. -/
theorem eq_of_shared_lookahead {predictions : List Prediction}
    (hc : Table.firstClash? predictions = none) {i j : Nat} (hi : i < predictions.length)
    (hj : j < predictions.length) (hij : predictions[i].head = predictions[j].head)
    {t : Terminal} (hti : t ∈ predictions[i].lookaheads) (htj : t ∈ predictions[j].lookaheads) :
    i = j := by
  have key : ∀ i j (hi : i < predictions.length) (hj : j < predictions.length), i < j →
      predictions[i].head = predictions[j].head → t ∈ predictions[i].lookaheads →
      t ∉ predictions[j].lookaheads := by
    intro i j hi hj hlt hij hti htj
    rw [Table.firstClash?, List.findSome?_eq_none_iff] at hc
    have hnone : Table.clash? (predictions.take j) j predictions[j] = none :=
      hc (predictions[j], j) (List.mem_zipIdx_iff_getElem?.2 (by simp [hj]))
    rw [Table.clash?, List.findSome?_eq_none_iff] at hnone
    have ht := hnone t (TerminalSet.mem_toList.2 htj)
    rw [Option.map_eq_none_iff, Table.predicted?, List.findIdx?_eq_none_iff] at ht
    have hmem : predictions[i] ∈ predictions.take j := by
      rw [List.mem_take_iff_getElem]
      exact ⟨i, by omega, rfl⟩
    have := ht _ hmem
    rw [hij, beq_self_eq_true, Bool.true_and] at this
    exact absurd (TerminalSet.mem_def.1 hti) (by simp [this])
  rcases Nat.lt_trichotomy i j with h | h | h
  · exact absurd htj (key i j hi hj h hij hti)
  · exact h
  · exact absurd hti (key j i hj hi h hij.symm htj)

/-- **The table predicts a production of the phrase** that has the terminal among its
lookaheads. -/
theorem mem_of_production? (h : Table.build rules start = .ok table) {n : Nonterminal}
    {t : Terminal} {i : Nat} (hi : table.production? n t = some i) :
    ∃ p, rules[i]? = some p ∧ p.head = n ∧ t ∈ table.facts.lookaheads p.head p.body := by
  obtain ⟨-, hpred, -⟩ := build_eq_ok h
  rw [Table.production?, Table.predicted?, hpred, List.findIdx?_map,
    List.findIdx?_eq_some_iff_getElem] at hi
  obtain ⟨hlt, hp, -⟩ := hi
  simp only [Function.comp_apply, Bool.and_eq_true, beq_iff_eq] at hp
  exact ⟨rules[i], List.getElem?_eq_getElem hlt, hp.1, hp.2⟩

/-- **A production is predicted on each of its lookaheads.** -/
theorem production?_of_mem (h : Table.build rules start = .ok table) {p : Production} (hp : p ∈ rules)
    {t : Terminal} (ht : t ∈ table.facts.lookaheads p.head p.body) :
    ∃ i, table.production? p.head t = some i ∧ rules[i]? = some p := by
  obtain ⟨-, hpred, hclash⟩ := build_eq_ok h
  obtain ⟨j, hj, rfl⟩ := List.mem_iff_getElem.1 hp
  have hsome : (table.production? rules[j].head t).isSome := by
    rw [Table.production?, Table.predicted?, List.findIdx?_isSome, List.any_eq_true]
    refine ⟨⟨rules[j].head, table.facts.lookaheads rules[j].head rules[j].body⟩, ?_, ?_⟩
    · rw [hpred]
      exact List.mem_map_of_mem hp
    · rw [beq_self_eq_true, Bool.true_and]
      exact ht
  obtain ⟨i, hi⟩ := Option.isSome_iff_exists.1 hsome
  obtain ⟨q, hq, hhead, hq'⟩ := mem_of_production? h hi
  obtain ⟨hlt, rfl⟩ := List.getElem?_eq_some_iff.1 hq
  have hij : i = j := by
    refine eq_of_shared_lookahead (t := t) hclash (by simp [hpred, hlt]) (by simp [hpred, hj]) ?_ ?_ ?_
    all_goals simp only [hpred, List.getElem_map]
    · exact hhead
    · exact hq'
    · exact ht
  subst hij
  exact ⟨i, hi, hq⟩

end Table

end OnePass.Grammar
