import OnePass.Grammar.TerminalSet

/-!
# What phrases begin with and what follows them

What a phrase can begin with, what can follow it and whether it can be empty are the
least answers closed under the productions. Two loops find them out, each in passes over
all productions, one after the other. A pass adds to the sets in place, so a production
already sees what those before it have added, and it notes if a set has grown. The loop
ends with a pass that finds out nothing.

* `Facts.nullable`, `Facts.first`, `Facts.lookaheads`: what is known of strings of symbols.
* `Pass.readFirst`, `Pass.readFollow`: what one production adds.
* `Facts.saturate`: passes until one finds out nothing. There is only so much to find out.
* `Facts.ofProductions`: the answers.
-/

namespace OnePass.Grammar

/-- What is known of a nonterminal. -/
structure PhraseFacts where
  /-- Whether the phrase can be empty. -/
  nullable : Bool
  /-- The terminals the phrase can begin with. -/
  first : TerminalSet
  /-- The terminals that can come right after the phrase. -/
  follow : TerminalSet
deriving DecidableEq, Inhabited

namespace PhraseFacts

/-- At least as much is known. -/
structure Le (f g : PhraseFacts) : Prop where
  nullable : f.nullable = true → g.nullable = true
  first : ∀ t, t ∈ f.first → t ∈ g.first
  follow : ∀ t, t ∈ f.follow → t ∈ g.follow

/-- More terminals that the phrase can begin with, and whether it can be empty. -/
def withFirst (f : PhraseFacts) (empty : Bool) (added : TerminalSet) : PhraseFacts :=
  { f with nullable := f.nullable || empty, first := f.first ∪ added }

/-- More terminals that can come after the phrase. -/
def withFollow (f : PhraseFacts) (added : TerminalSet) : PhraseFacts :=
  { f with follow := f.follow ∪ added }

theorem le_withFirst (f : PhraseFacts) (empty : Bool) (added : TerminalSet) :
    f.Le (f.withFirst empty added) :=
  ⟨fun h => Bool.or_eq_true _ _ ▸ .inl h, fun _ h => TerminalSet.mem_union.2 (.inl h), fun _ => id⟩

theorem le_withFollow (f : PhraseFacts) (added : TerminalSet) : f.Le (f.withFollow added) :=
  ⟨id, fun _ => id, fun _ h => TerminalSet.mem_union.2 (.inl h)⟩

/-- How much may still be found out about a nonterminal. -/
def missing (f : PhraseFacts) : Nat :=
  (!f.nullable).toNat + (Terminal.all.length - f.first.size) + (Terminal.all.length - f.follow.size)

/-- Whether one of the sets has another size, or the phrase has turned out to be empty. -/
def differs (f g : PhraseFacts) : Bool :=
  g.first.size != f.first.size || g.follow.size != f.follow.size || (g.nullable && !f.nullable)

theorem missing_le_of_le {f g : PhraseFacts} (h : f.Le g) : g.missing ≤ f.missing := by
  have hfirst := TerminalSet.size_le_of_subset h.first
  have hfollow := TerminalSet.size_le_of_subset h.follow
  have hnullable : (!g.nullable).toNat ≤ (!f.nullable).toNat := by
    have := h.nullable
    revert this
    cases f.nullable <;> cases g.nullable <;> simp
  unfold missing
  omega

/-- **A set that has grown** misses less. -/
theorem missing_lt_of_differs {f g : PhraseFacts} (h : f.Le g) (hdiffers : f.differs g = true) :
    g.missing < f.missing := by
  have hfirst := TerminalSet.size_le_of_subset h.first
  have hfollow := TerminalSet.size_le_of_subset h.follow
  have hfirst' := g.first.size_le
  have hfollow' := g.follow.size_le
  have hnullable : (!g.nullable).toNat ≤ (!f.nullable).toNat := by
    have := h.nullable
    revert this
    cases f.nullable <;> cases g.nullable <;> simp
  unfold missing
  simp only [differs, Bool.or_eq_true, bne_iff_ne, Bool.and_eq_true, Bool.not_eq_true'] at hdiffers
  rcases hdiffers with (hne | hne) | ⟨hg, hf⟩
  · omega
  · omega
  · simp only [hg, hf, Bool.not_true, Bool.not_false, Bool.toNat_false, Bool.toNat_true] at *
    omega

end PhraseFacts

/-- What is known of every nonterminal, in their order. -/
structure Facts where
  rows : List PhraseFacts
  complete : rows.length = Nonterminal.all.length
deriving DecidableEq

namespace Facts

/-- Nothing is known. -/
def nothing : Facts where
  rows := Nonterminal.all.map fun _ => ⟨false, .empty, .empty⟩
  complete := List.length_map ..

variable (k : Facts)

def phrase (n : Nonterminal) : PhraseFacts := (k.rows[n.place]?).getD ⟨false, .empty, .empty⟩

@[simp] theorem phrase_nothing (n : Nonterminal) :
    nothing.phrase n = ⟨false, .empty, .empty⟩ := by
  rw [phrase, nothing, List.getElem?_map, Nonterminal.get_all]
  rfl

/-- Puts other facts of one nonterminal in the place of those known. -/
def update (n : Nonterminal) (f : PhraseFacts) : Facts where
  rows := k.rows.set n.place f
  complete := List.length_set.trans k.complete

@[simp] theorem phrase_update (n m : Nonterminal) (f : PhraseFacts) :
    (k.update n f).phrase m = if m = n then f else k.phrase m := by
  have hplace : n.place < k.rows.length :=
    k.complete ▸ (List.getElem?_eq_some_iff.1 (Nonterminal.get_all n)).1
  unfold phrase update
  by_cases h : m = n
  · subst h
    rw [if_pos rfl, List.getElem?_set_self hplace, Option.getD_some]
  · have hne : n.place ≠ m.place := by
      intro heq
      have hn := Nonterminal.get_all n
      rw [heq, Nonterminal.get_all m] at hn
      exact h (Option.some.inj hn)
    rw [if_neg h, List.getElem?_set_ne hne]

/-- Whether a string of symbols can be empty. -/
def nullable : List Symbol → Bool
  | [] => true
  | .terminal _ :: _ => false
  | .nonterminal n :: rest => (k.phrase n).nullable && nullable rest
  | .action _ :: rest => nullable rest

/-- The terminals a string of symbols can begin with. -/
def first : List Symbol → TerminalSet
  | [] => .empty
  | .terminal t :: _ => .singleton t
  | .nonterminal n :: rest =>
    (k.phrase n).first ∪ (first rest).onlyIf (k.phrase n).nullable
  | .action _ :: rest => first rest

/-- The terminals seen at the front of a string of symbols that ends a phrase `head`. -/
def lookaheads (head : Nonterminal) (symbols : List Symbol) : TerminalSet :=
  k.first symbols ∪ ((k.phrase head).follow).onlyIf (k.nullable symbols)

/-- How much may still be found out about some nonterminals. -/
def missingOf (list : List Nonterminal) : Nat :=
  list.foldr (fun n others => (k.phrase n).missing + others) 0

/-- How much may still be found out. -/
def missing : Nat := k.missingOf Nonterminal.all

end Facts

/-- A pass under way: what is known so far, and whether the pass has found out anything. -/
structure Pass where
  facts : Facts
  changed : Bool

namespace Pass

/-- Adds to what is known of a nonterminal, and notes if that is more than before. -/
def learn (s : Pass) (n : Nonterminal) (f : PhraseFacts) : Pass where
  facts := s.facts.update n f
  changed := s.changed || (s.facts.phrase n).differs f

/-- What a production says of its head: the terminals that it can begin with, and whether it can be
empty. -/
def readFirst (s : Pass) (p : Production) : Pass :=
  s.learn p.head
    ((s.facts.phrase p.head).withFirst (s.facts.nullable p.body) (s.facts.first p.body))

/-- What the rest of a body says of each phrase in it: the terminals that can follow it. If nothing
need come behind the phrase, those that can follow the head can. -/
def readFollow (head : Nonterminal) (s : Pass) : List Symbol → Pass
  | [] => s
  | .nonterminal n :: rest =>
    readFollow head (s.learn n ((s.facts.phrase n).withFollow (s.facts.lookaheads head rest))) rest
  | .terminal _ :: rest | .action _ :: rest => readFollow head s rest

/-- **One pass over the productions** for what phrases begin with. -/
def ofFirst (productions : List Production) (k : Facts) : Pass :=
  productions.foldl readFirst ⟨k, false⟩

/-- **One pass over the productions** for what follows phrases. -/
def ofFollow (productions : List Production) (k : Facts) : Pass :=
  productions.foldl (fun s p => s.readFollow p.head p.body) ⟨k, false⟩

/-! ### There is only so much to find out -/

/-- **A pass goes on:** nothing is forgotten, and a change is noted only if less is missing. -/
structure Onward (s s' : Pass) : Prop where
  le : s'.facts.missing ≤ s.facts.missing
  lt : s'.changed = true → s.changed = true ∨ s'.facts.missing < s.facts.missing

theorem Onward.refl (s : Pass) : s.Onward s := ⟨Nat.le_refl _, .inl⟩

theorem Onward.trans {s s' s'' : Pass} (h : s.Onward s') (h' : s'.Onward s'') : s.Onward s'' where
  le := Nat.le_trans h'.le h.le
  lt hchanged := (h'.lt hchanged).elim
    (fun hs => (h.lt hs).imp_right fun hlt => Nat.lt_of_le_of_lt h'.le hlt)
    fun hlt => .inr (Nat.lt_of_lt_of_le hlt h.le)

theorem onward_foldl {α : Type} {step : Pass → α → Pass}
    (hstep : ∀ (s : Pass) (x : α), s.Onward (step s x)) (s : Pass) (list : List α) :
    s.Onward (list.foldl step s) := by
  induction list generalizing s with
  | nil => exact .refl s
  | cons x list ih => exact (hstep s x).trans (ih _)

/-- More facts of one nonterminal leave less missing of all. -/
theorem missing_update {k : Facts} {n : Nonterminal} {f : PhraseFacts} (h : (k.phrase n).Le f) :
    (k.update n f).missing ≤ k.missing ∧
      ((k.phrase n).differs f = true → (k.update n f).missing < k.missing) := by
  have hle : ∀ m, ((k.update n f).phrase m).missing ≤ (k.phrase m).missing := by
    intro m
    rw [Facts.phrase_update]
    split
    · rename_i heq
      exact heq ▸ PhraseFacts.missing_le_of_le h
    · exact Nat.le_refl _
  have hall : ∀ list : List Nonterminal,
      (k.update n f).missingOf list ≤ k.missingOf list ∧
        (n ∈ list → (k.phrase n).differs f = true →
          (k.update n f).missingOf list < k.missingOf list) := by
    intro list
    induction list with
    | nil => exact ⟨Nat.le_refl _, fun hmem => by cases hmem⟩
    | cons m list ih =>
      refine ⟨Nat.add_le_add (hle m) ih.1, fun hmem hdiffers => ?_⟩
      rcases List.mem_cons.1 hmem with rfl | hmem
      · have hn : ((k.update n f).phrase n).missing < (k.phrase n).missing := by
          simpa using PhraseFacts.missing_lt_of_differs h hdiffers
        exact Nat.add_lt_add_of_lt_of_le hn ih.1
      · exact Nat.add_lt_add_of_le_of_lt (hle m) (ih.2 hmem hdiffers)
  obtain ⟨hle, hlt⟩ := hall Nonterminal.all
  exact ⟨hle, hlt (List.mem_of_getElem? (Nonterminal.get_all n))⟩

theorem onward_learn {s : Pass} {n : Nonterminal} {f : PhraseFacts} (h : (s.facts.phrase n).Le f) :
    s.Onward (s.learn n f) where
  le := (missing_update h).1
  lt hchanged := (Bool.or_eq_true _ _ ▸ hchanged).imp_right (missing_update h).2

theorem onward_readFirst (s : Pass) (p : Production) : s.Onward (s.readFirst p) :=
  onward_learn (PhraseFacts.le_withFirst ..)

theorem onward_readFollow (head : Nonterminal) (s : Pass) (body : List Symbol) :
    s.Onward (s.readFollow head body) := by
  induction body generalizing s with
  | nil => exact .refl s
  | cons symbol rest ih =>
    cases symbol with
    | terminal | action => exact ih s
    | nonterminal n =>
      exact (onward_learn (PhraseFacts.le_withFollow ..)).trans (ih _)

theorem onward_ofFirst (productions : List Production) (k : Facts) :
    Onward ⟨k, false⟩ (ofFirst productions k) :=
  onward_foldl onward_readFirst _ _

theorem onward_ofFollow (productions : List Production) (k : Facts) :
    Onward ⟨k, false⟩ (ofFollow productions k) :=
  onward_foldl (fun s (p : Production) => s.onward_readFollow p.head p.body) _ _

theorem missing_lt_of_onward {k : Facts} {s : Pass} (h : Onward ⟨k, false⟩ s)
    (hchanged : s.changed = true) : s.facts.missing < k.missing :=
  (h.lt hchanged).resolve_left Bool.false_ne_true

end Pass

namespace Facts

/-- **Passes until one finds out nothing.** Each of the others leaves less to be found out. -/
def saturate (pass : Facts → Pass) (onward : ∀ k, Pass.Onward ⟨k, false⟩ (pass k)) (k : Facts) :
    Facts :=
  if h : (pass k).changed then
    have := Pass.missing_lt_of_onward (onward k) h
    saturate pass onward (pass k).facts
  else (pass k).facts
termination_by k.missing

/-- What phrases can begin with, and which can be empty. -/
def ofFirst (productions : List Production) : Facts :=
  saturate (Pass.ofFirst productions) (Pass.onward_ofFirst productions) nothing

/-- What follows phrases, found out behind what they begin with. At first only the end marker is known
to follow the start. -/
def ofFollow (productions : List Production) (start : Nonterminal) (k : Facts) : Facts :=
  saturate (Pass.ofFollow productions) (Pass.onward_ofFollow productions)
    (k.update start ((k.phrase start).withFollow (.singleton .endMarker)))

/-- **What the productions imply** of every nonterminal. -/
def ofProductions (productions : List Production) (start : Nonterminal) : Facts :=
  ofFollow productions start (ofFirst productions)

end Facts

end OnePass.Grammar
