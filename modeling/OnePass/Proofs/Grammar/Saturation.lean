import Mathlib.Algebra.Order.Ring.Nat
import Mathlib.Data.List.Basic
import Mathlib.Tactic.Common
import OnePass.Grammar.Prediction

/-!
# The loops reach a fixed point

A pass over the productions adds to the facts in place, and says if any set has grown. A loop ends
with a pass that says no. Then no production has anything to add to the facts: the first loop
leaves them closed in front, and the second keeps that and closes them behind.

* `Facts.Learns`: one thing that is learned. `Facts.ofProductions_induction`: what each such thing
  keeps holds of all that is found out.
* `Pass.Extends`: a pass that says no has not added anything.
* `Facts.Closed`: no production has anything to add. `closed_ofProductions`.
* `Facts.Supported`: a terminal that a phrase can begin with is the beginning of one of its
  productions. `supported_ofProductions`.
-/

namespace OnePass.Grammar

namespace TerminalSet

/-- A larger set that is no longer has the same members. -/
theorem size_lt_of_ssubset {a b : TerminalSet} (h : ∀ t, t ∈ a → t ∈ b) {t : Terminal}
    (ht : t ∈ b) (hn : t ∉ a) : a.size < b.size := by
  unfold size toList
  have hsub : List.Sublist (Terminal.all.filter a.contains) (Terminal.all.filter b.contains) :=
    List.monotone_filter_right _ fun t ht => h t ht
  rcases Nat.lt_or_ge (Terminal.all.filter a.contains).length
      (Terminal.all.filter b.contains).length with hlt | hge
  · exact hlt
  · have heq := hsub.eq_of_length_le hge
    have hmem : t ∈ Terminal.all.filter b.contains := mem_toList.2 ht
    rw [← heq] at hmem
    exact absurd (mem_toList.1 hmem) hn

end TerminalSet

namespace PhraseFacts

theorem Le.refl (f : PhraseFacts) : f.Le f := ⟨id, fun _ => id, fun _ => id⟩

theorem Le.trans {f g h : PhraseFacts} (hfg : f.Le g) (hgh : g.Le h) : f.Le h :=
  ⟨fun hf => hgh.nullable (hfg.nullable hf), fun t ht => hgh.first t (hfg.first t ht),
    fun t ht => hgh.follow t (hfg.follow t ht)⟩

/-- **Facts whose sets have the size of others** are no more than those. -/
theorem Le.of_not_differs {f g : PhraseFacts} (h : f.Le g) (hsame : f.differs g = false) : g.Le f := by
  simp only [differs, Bool.or_eq_false_iff, bne_eq_false_iff_eq] at hsame
  obtain ⟨⟨hfirst, hfollow⟩, hnullable⟩ := hsame
  refine ⟨fun hg => ?_, fun t ht => ?_, fun t ht => ?_⟩
  · simpa [hg] using hnullable
  · by_contra hnot
    have := TerminalSet.size_lt_of_ssubset h.first ht hnot
    omega
  · by_contra hnot
    have := TerminalSet.size_lt_of_ssubset h.follow ht hnot
    omega

end PhraseFacts

namespace Facts

/-! ### More facts -/

section Order

/-- At least as much is known of every nonterminal. -/
def Le (k j : Facts) : Prop := ∀ n, (k.phrase n).Le (j.phrase n)

variable {k j l : Facts} {symbols : List Symbol} {t : Terminal} {n : Nonterminal} {f : PhraseFacts}

theorem Le.refl (k : Facts) : k.Le k := fun _ => .refl _

theorem Le.trans (hkj : k.Le j) (hjl : j.Le l) : k.Le l := fun n => (hkj n).trans (hjl n)

theorem le_update (h : (k.phrase n).Le f) : k.Le (k.update n f) := by
  intro m
  rw [phrase_update]
  split
  · rename_i heq
    exact heq ▸ h
  · exact .refl _

theorem update_le (hkj : k.Le j) (h : f.Le (j.phrase n)) : (k.update n f).Le j := by
  intro m
  rw [phrase_update]
  split
  · rename_i heq
    exact heq ▸ h
  · exact hkj m

/-- At least as much is known of what every nonterminal can begin with, and if it can be empty. -/
def FrontLe (k j : Facts) : Prop := ∀ n, ((k.phrase n).nullable = true → (j.phrase n).nullable = true) ∧
  ∀ t, t ∈ (k.phrase n).first → t ∈ (j.phrase n).first

theorem Le.front (h : k.Le j) : k.FrontLe j := fun n => ⟨(h n).nullable, (h n).first⟩

theorem FrontLe.nullable (h : k.FrontLe j) (hnull : k.nullable symbols = true) :
    j.nullable symbols = true := by
  induction symbols with
  | nil => rfl
  | cons s rest ih =>
    cases s with
    | terminal u => cases hnull
    | nonterminal n =>
      rw [Facts.nullable, Bool.and_eq_true] at hnull ⊢
      exact ⟨(h n).1 hnull.1, ih hnull.2⟩
    | action a => exact ih hnull

theorem FrontLe.first (h : k.FrontLe j) (ht : t ∈ k.first symbols) : t ∈ j.first symbols := by
  induction symbols with
  | nil => exact absurd ht (TerminalSet.not_mem_empty t)
  | cons s rest ih =>
    cases s with
    | terminal u => exact ht
    | nonterminal n =>
      simp only [Facts.first, TerminalSet.mem_union, TerminalSet.mem_onlyIf] at ht ⊢
      exact ht.imp ((h n).2 t) fun hboth => ⟨(h n).1 hboth.1, ih hboth.2⟩
    | action a => exact ih ht

theorem Le.lookaheads (h : k.Le j) {head : Nonterminal} (ht : t ∈ k.lookaheads head symbols) :
    t ∈ j.lookaheads head symbols := by
  simp only [Facts.lookaheads, TerminalSet.mem_union, TerminalSet.mem_onlyIf] at ht ⊢
  exact ht.imp h.front.first fun hboth =>
    ⟨h.front.nullable hboth.1, (h head).follow t hboth.2⟩

end Order

/-! ### What is learned in a pass -/

section Learning

variable {rules : List Production} {start : Nonterminal} {k k' : Facts}

/-- **One thing is learned:** what a production says of its head, or of a phrase in its body, or that
the text ends behind the start. -/
inductive Learns (rules : List Production) (start : Nonterminal) : Facts → Facts → Prop
  | first {k : Facts} {p : Production} (hp : p ∈ rules) : Learns rules start k
      (k.update p.head ((k.phrase p.head).withFirst (k.nullable p.body) (k.first p.body)))
  | follow {k : Facts} {p : Production} {a b : List Symbol} {n : Nonterminal} (hp : p ∈ rules)
      (hbody : p.body = a ++ .nonterminal n :: b) : Learns rules start k
      (k.update n ((k.phrase n).withFollow (k.lookaheads p.head b)))
  | finish {k : Facts} : Learns rules start k
      (k.update start ((k.phrase start).withFollow (.singleton .endMarker)))

/-- Nothing is forgotten. -/
theorem Learns.le (h : Learns rules start k k') : k.Le k' := by
  cases h with
  | first => exact le_update (PhraseFacts.le_withFirst ..)
  | follow | finish => exact le_update (PhraseFacts.le_withFollow ..)

/-- What each thing learned keeps. -/
def Kept (rules : List Production) (start : Nonterminal) (P : Facts → Prop) : Prop :=
  ∀ k k', Learns rules start k k' → P k → P k'

variable {P : Facts → Prop}

theorem Kept.readFirst (hP : Kept rules start P) {list : List Production} (hlist : list ⊆ rules)
    {s : Pass} (hs : P s.facts) : P (list.foldl Pass.readFirst s).facts := by
  induction list generalizing s with
  | nil => exact hs
  | cons p list ih =>
    exact ih (fun q hq => hlist (List.mem_cons_of_mem _ hq))
      (hP _ _ (.first (hlist List.mem_cons_self)) hs)

theorem Kept.readFollow (hP : Kept rules start P) {p : Production} (hp : p ∈ rules)
    {a b : List Symbol} (hbody : p.body = a ++ b) {s : Pass} (hs : P s.facts) :
    P (s.readFollow p.head b).facts := by
  -- what has been read of the body goes along
  induction b generalizing a s with
  | nil => exact hs
  | cons symbol b ih =>
    have hrest : p.body = (a ++ [symbol]) ++ b := by
      rw [hbody, List.append_assoc, List.singleton_append]
    cases symbol with
    | terminal | action => exact ih hrest hs
    | nonterminal n => exact ih hrest (hP _ _ (.follow hp hbody) hs)

theorem Kept.ofFirst (hP : Kept rules start P) (hk : P k) : P (Pass.ofFirst rules k).facts :=
  hP.readFirst (List.Subset.refl rules) hk

theorem Kept.ofFollow (hP : Kept rules start P) (hk : P k) : P (Pass.ofFollow rules k).facts := by
  have hfold : ∀ (list : List Production) (s : Pass), list ⊆ rules → P s.facts →
      P (list.foldl (fun s p => s.readFollow p.head p.body) s).facts := by
    intro list
    induction list with
    | nil => exact fun s _ hs => hs
    | cons p list ih =>
      intro s hlist hs
      exact ih _ (fun q hq => hlist (List.mem_cons_of_mem _ hq))
        (hP.readFollow (a := []) (hlist List.mem_cons_self) rfl hs)
  exact hfold rules _ (List.Subset.refl rules) hk

/-- **A loop ends with a pass that has found out nothing.** What a pass keeps, the loop keeps. -/
theorem exists_saturate {pass : Facts → Pass} (onward : ∀ k, Pass.Onward ⟨k, false⟩ (pass k))
    (hP : ∀ k, P k → P (pass k).facts) (hk : P k) :
    ∃ k', P k' ∧ (pass k').changed = false ∧ saturate pass onward k = (pass k').facts := by
  fun_induction saturate pass onward k with
  | case1 k changed less ih => exact ih (hP k hk)
  | case2 k unchanged => exact ⟨k, hk, by simpa using unchanged, rfl⟩

theorem saturate_induction {pass : Facts → Pass} (onward : ∀ k, Pass.Onward ⟨k, false⟩ (pass k))
    (hP : ∀ k, P k → P (pass k).facts) (hk : P k) : P (saturate pass onward k) := by
  obtain ⟨k', hk', -, heq⟩ := exists_saturate onward hP hk
  exact heq ▸ hP k' hk'

/-- **What each thing learned keeps** is true of what the productions imply, if it is true of
nothing. -/
theorem ofProductions_induction (hP : Kept rules start P) (h0 : P nothing) :
    P (ofProductions rules start) :=
  saturate_induction _ (fun _ => hP.ofFollow)
    (hP _ _ .finish (saturate_induction _ (fun _ => hP.ofFirst) h0))

end Learning

end Facts

/-! ### A pass that finds out nothing -/

namespace Pass

variable {s s' s'' : Pass} {n : Nonterminal} {f : PhraseFacts}

/-- **A pass goes on,** and if nothing is noted then nothing has been added. -/
structure Extends (s s' : Pass) : Prop where
  le : s.facts.Le s'.facts
  settled : s'.changed = false → s.changed = false ∧ s'.facts.Le s.facts

theorem Extends.refl (s : Pass) : s.Extends s := ⟨.refl _, fun h => ⟨h, .refl _⟩⟩

theorem Extends.trans (h : s.Extends s') (h' : s'.Extends s'') : s.Extends s'' where
  le := h.le.trans h'.le
  settled hsame :=
    have ⟨hsame', hle'⟩ := h'.settled hsame
    have ⟨hsame, hle⟩ := h.settled hsame'
    ⟨hsame, hle'.trans hle⟩

theorem extends_learn (h : (s.facts.phrase n).Le f) : s.Extends (s.learn n f) where
  le := Facts.le_update h
  settled hsame := by
    obtain ⟨hs, hsame⟩ := Bool.or_eq_false_iff.1 hsame
    exact ⟨hs, Facts.update_le (.refl _) (h.of_not_differs hsame)⟩

theorem extends_readFirst (s : Pass) (p : Production) : s.Extends (s.readFirst p) :=
  extends_learn (PhraseFacts.le_withFirst ..)

theorem extends_readFollow (head : Nonterminal) (s : Pass) (body : List Symbol) :
    s.Extends (s.readFollow head body) := by
  induction body generalizing s with
  | nil => exact .refl s
  | cons symbol rest ih =>
    cases symbol with
    | terminal | action => exact ih s
    | nonterminal n => exact (extends_learn (PhraseFacts.le_withFollow ..)).trans (ih _)

variable {α : Type} {step : Pass → α → Pass}

theorem extends_foldl (hstep : ∀ (s : Pass) (x : α), s.Extends (step s x)) (s : Pass)
    (list : List α) : s.Extends (list.foldl step s) := by
  induction list generalizing s with
  | nil => exact .refl s
  | cons x list ih => exact (hstep s x).trans (ih _)

/-- **In a pass that finds out nothing** no step does: it begins and ends with the facts that the pass
ends with. -/
theorem exists_step_of_settled (hstep : ∀ (s : Pass) (x : α), s.Extends (step s x))
    {list : List α} {x : α} (hx : x ∈ list) (hsame : (list.foldl step s).changed = false) :
    ∃ s₁, (step s₁ x).changed = false ∧ (list.foldl step s).facts.Le s₁.facts ∧
      (step s₁ x).facts.Le (list.foldl step s).facts := by
  obtain ⟨before, behind, rfl⟩ := List.append_of_mem hx
  rw [List.foldl_append, List.foldl_cons] at hsame ⊢
  generalize before.foldl step s = s₁ at hsame ⊢
  have hrest := extends_foldl hstep (step s₁ x) behind
  obtain ⟨hsame, hle⟩ := hrest.settled hsame
  exact ⟨s₁, hsame, hle.trans ((hstep s₁ x).settled hsame).2, hrest.le⟩

/-- What can follow a phrase in a body is known behind a pass that finds out nothing. -/
theorem follow_of_settled {head : Nonterminal} {a b body : List Symbol} {t : Terminal}
    (hbody : body = a ++ .nonterminal n :: b) (hsame : (s.readFollow head body).changed = false)
    (ht : t ∈ (s.readFollow head body).facts.lookaheads head b) :
    t ∈ ((s.readFollow head body).facts.phrase n).follow := by
  subst hbody
  induction a generalizing s with
  | nil =>
    have hlearn : s.Extends (s.learn n ((s.facts.phrase n).withFollow (s.facts.lookaheads head b))) :=
      extends_learn (PhraseFacts.le_withFollow ..)
    have hrest := extends_readFollow head
      (s.learn n ((s.facts.phrase n).withFollow (s.facts.lookaheads head b))) b
    obtain ⟨hsame, hle⟩ := hrest.settled hsame
    have hbefore : t ∈ s.facts.lookaheads head b :=
      (hle.trans (hlearn.settled hsame).2).lookaheads ht
    refine (hrest.le n).follow t ?_
    rw [learn, Facts.phrase_update, if_pos rfl]
    exact TerminalSet.mem_union.2 (.inr hbefore)
  | cons symbol a ih =>
    cases symbol with
    | terminal | action | nonterminal => exact ih hsame ht

end Pass

namespace Facts

section Closed

variable {rules : List Production} {start : Nonterminal} {k k' : Facts}

/-- **Facts that are closed in front:** no production has anything to say of what its head can begin
with, or if it can be empty. -/
structure FrontClosed (k : Facts) (rules : List Production) : Prop where
  nullable : ∀ p ∈ rules, k.nullable p.body = true → (k.phrase p.head).nullable = true
  first : ∀ p ∈ rules, ∀ t, t ∈ k.first p.body → t ∈ (k.phrase p.head).first

/-- **Facts that are closed under the productions.** -/
structure Closed (k : Facts) (rules : List Production) (start : Nonterminal) : Prop
    extends k.FrontClosed rules where
  follow : ∀ p ∈ rules, ∀ a n b, p.body = a ++ .nonterminal n :: b →
    ∀ t, t ∈ k.lookaheads p.head b → t ∈ (k.phrase n).follow
  start : Terminal.endMarker ∈ (k.phrase start).follow

/-- Behind a pass that finds out nothing the facts are closed in front. -/
theorem frontClosed_of_settled (hsame : (Pass.ofFirst rules k).changed = false) :
    (Pass.ofFirst rules k).facts.FrontClosed rules := by
  have hstep : ∀ p ∈ rules, ∃ s₁ : Pass, (Pass.ofFirst rules k).facts.Le s₁.facts ∧
      (s₁.readFirst p).facts.Le (Pass.ofFirst rules k).facts := by
    intro p hp
    obtain ⟨s₁, -, hle, hle'⟩ := Pass.exists_step_of_settled Pass.extends_readFirst hp hsame
    exact ⟨s₁, hle, hle'⟩
  refine ⟨fun p hp hnull => ?_, fun p hp t ht => ?_⟩
  · obtain ⟨s₁, hle, hle'⟩ := hstep p hp
    refine (hle' p.head).nullable ?_
    rw [Pass.readFirst, Pass.learn, phrase_update, if_pos rfl, PhraseFacts.withFirst,
      hle.front.nullable hnull, Bool.or_true]
  · obtain ⟨s₁, hle, hle'⟩ := hstep p hp
    refine (hle' p.head).first t ?_
    rw [Pass.readFirst, Pass.learn, phrase_update, if_pos rfl]
    exact TerminalSet.mem_union.2 (.inr (hle.front.first ht))

/-- **What is learned of facts that are closed in front** does not concern the front. -/
theorem FrontClosed.learns (hk : k.FrontClosed rules) (h : Learns rules start k k') :
    k'.FrontLe k := by
  cases h with
  | @first p hp =>
    intro n
    rw [phrase_update]
    split
    · rename_i heq
      subst heq
      refine ⟨fun h => ?_, fun t ht => ?_⟩
      · exact (Bool.or_eq_true _ _ ▸ h).elim id (hk.nullable p hp)
      · exact (TerminalSet.mem_union.1 ht).elim id (hk.first p hp t)
    · exact ⟨id, fun _ => id⟩
  | follow | finish =>
    intro n
    rw [phrase_update]
    split
    · rename_i heq
      subst heq
      exact ⟨id, fun _ => id⟩
    · exact ⟨id, fun _ => id⟩

theorem kept_frontClosed (rules : List Production) (start : Nonterminal) :
    Kept rules start fun k => k.FrontClosed rules := by
  intro k k' h hk
  have hback := hk.learns h
  exact ⟨fun p hp hnull => (h.le p.head).nullable (hk.nullable p hp (hback.nullable hnull)),
    fun p hp t ht => (h.le p.head).first t (hk.first p hp t (hback.first ht))⟩

variable (rules start)

/-- **The first loop leaves the facts closed in front.** -/
theorem frontClosed_ofFirst : (ofFirst rules).FrontClosed rules := by
  obtain ⟨k, -, hsame, heq⟩ := exists_saturate (Pass.onward_ofFirst rules) (k := nothing)
    (P := fun _ => True) (fun _ _ => trivial) trivial
  rw [ofFirst, heq]
  exact frontClosed_of_settled hsame

/-- **The second loop leaves them closed,** if they are in front. -/
theorem closed_ofFollow (hk : k.FrontClosed rules) : (ofFollow rules start k).Closed rules start := by
  have hfront := kept_frontClosed rules start
  have hmarked : Kept rules start fun k => Terminal.endMarker ∈ (k.phrase start).follow :=
    fun _ _ h => (h.le start).follow _
  have hbegin : Terminal.endMarker ∈ ((k.update start ((k.phrase start).withFollow
      (.singleton .endMarker))).phrase start).follow := by
    rw [phrase_update, if_pos rfl]
    exact TerminalSet.mem_union.2 (.inr (TerminalSet.mem_singleton.2 rfl))
  obtain ⟨k', ⟨hk', hmark⟩, hsame, heq⟩ := exists_saturate (Pass.onward_ofFollow rules)
    (P := fun k => k.FrontClosed rules ∧ Terminal.endMarker ∈ (k.phrase start).follow)
    (fun _ h => ⟨hfront.ofFollow h.1, hmarked.ofFollow h.2⟩) ⟨hfront _ _ .finish hk, hbegin⟩
  rw [ofFollow, heq]
  refine ⟨hfront.ofFollow hk', fun p hp a n b hbody t ht => ?_, hmarked.ofFollow hmark⟩
  obtain ⟨s₁, hsame₁, hle, hle'⟩ := Pass.exists_step_of_settled
    (fun s (p : Production) => s.extends_readFollow p.head p.body) hp hsame
  have hbefore := (hle.trans (s₁.extends_readFollow p.head p.body).le).lookaheads ht
  exact (hle' n).follow t (Pass.follow_of_settled hbody hsame₁ hbefore)

/-- **The facts found out are closed:** no production has anything to add to them. -/
theorem closed_ofProductions : (ofProductions rules start).Closed rules start :=
  closed_ofFollow rules start (frontClosed_ofFirst rules)

/-- **Facts that the productions account for:** what a phrase can begin with, one of its
productions can begin with. -/
def Supported (k : Facts) (rules : List Production) : Prop :=
  ∀ n t, t ∈ (k.phrase n).first → ∃ p ∈ rules, p.head = n ∧ t ∈ k.first p.body

theorem supported_ofProductions : (ofProductions rules start).Supported rules := by
  refine ofProductions_induction (P := fun k => k.Supported rules) (fun k k' h hk => ?_) ?_
  · have hmore : ∀ n t, t ∈ (k.phrase n).first → ∃ p ∈ rules, p.head = n ∧ t ∈ k'.first p.body := by
      intro n t ht
      obtain ⟨p, hp, hn, ht⟩ := hk n t ht
      exact ⟨p, hp, hn, h.le.front.first ht⟩
    intro n t ht
    have hle := h.le
    cases h with
    | @first p hp =>
      rw [phrase_update] at ht
      split at ht
      · rename_i heq
        rcases TerminalSet.mem_union.1 ht with ht | ht
        · exact hmore n t (heq ▸ ht)
        · exact ⟨p, hp, heq.symm, hle.front.first ht⟩
      · exact hmore n t ht
    | follow | finish =>
      rw [phrase_update] at ht
      split at ht
      · rename_i heq
        exact hmore n t (heq ▸ ht)
      · exact hmore n t ht
  · intro n t ht
    rw [phrase_nothing] at ht
    exact absurd ht (TerminalSet.not_mem_empty t)

end Closed

end Facts

end OnePass.Grammar
