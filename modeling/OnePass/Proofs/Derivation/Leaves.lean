import OnePass.Proofs.Derivation.Course

/-!
# The leaves of a forest

The childless nodes of a forest are its tips. What is done to a forest on the way is done at its
tips: one is filled, gets another label, or is taken out. A node whose children are taken out one
after another would become a tip itself; it does not where it keeps one of them.

* `Forest.tips`: the childless nodes. `Forest.Untouched`, `Forest.Keeps`: nodes to be filled, and
  nodes that keep a child.
* `tips_graft`, `tips_relabel`, `tips_prune`: what becomes of the tips.
-/

namespace OnePass.Derivation

open Grammar
open Lexical (Token)
open Machine

namespace Forest

/-- The numbers of a row of siblings. -/
def heads : Forest → List Nat
  | nil => []
  | cons id _ _ rest => id :: rest.heads

/-- **The childless nodes from left to right,** without those of empty productions. -/
def tips : Forest → List (Nat × String)
  | nil => []
  | cons id label children rest =>
    (if !children.isNil then children.tips
      else if label = emptyLabel then [] else [(id, label)]) ++ rest.tips

/-- **A node that is still to be filled,** if it is there at all: nothing is below it. -/
def Untouched (n : Nat) : Forest → Prop
  | nil => True
  | cons id label children rest =>
    (id = n → children = nil ∧ label ≠ emptyLabel) ∧ children.Untouched n ∧ rest.Untouched n

/-- **Every node that has children has one of these.** -/
def Keeps (spared : Nat → Prop) : Forest → Prop
  | nil => True
  | cons _ _ children rest =>
    (children.isNil = false → ∃ i ∈ children.heads, spared i) ∧ children.Keeps spared ∧
      rest.Keeps spared

variable {f s r : Forest} {n i : Nat} {label text : String} {spared spared' : Nat → Prop}

theorem frontier_eq_tips (f : Forest) : f.frontier = f.tips.map Prod.snd := by
  induction f with
  | nil => rfl
  | cons id label children rest ihc ih =>
    rw [frontier, tips, List.map_append, ih, ihc]
    split
    · rfl
    · split <;> rfl

theorem mem_ids_of_mem_tips {p : Nat × String} (h : p ∈ f.tips) : p.1 ∈ f.ids := by
  induction f with
  | nil => cases h
  | cons id label children rest ihc ih =>
    rw [ids, List.mem_cons, List.mem_append]
    rw [tips, List.mem_append] at h
    rcases h with h | h
    · split at h
      · exact .inr (.inl (ihc h))
      · split at h
        · cases h
        · rw [List.mem_singleton.1 h]
          exact .inl rfl
    · exact .inr (.inr (ih h))

theorem isNil_append (f s : Forest) : (f.append s).isNil = (f.isNil && s.isNil) := by
  cases f <;> rfl

theorem heads_append (f s : Forest) : (f.append s).heads = f.heads ++ s.heads := by
  induction f with
  | nil => rfl
  | cons id label children rest _ ih => rw [append, heads, ih, heads, List.cons_append]

theorem tips_append (f s : Forest) : (f.append s).tips = f.tips ++ s.tips := by
  induction f with
  | nil => rfl
  | cons id label children rest _ ih => rw [append, tips, ih, tips, List.append_assoc]

theorem isNil_graft : (graft n r f).isNil = f.isNil := by
  cases f with
  | nil => rfl
  | cons =>
    unfold graft
    split <;> rfl

theorem heads_graft : (graft n r f).heads = f.heads := by
  induction f with
  | nil => rfl
  | cons id label children rest _ ih =>
    unfold graft
    split
    · rfl
    · rw [heads, heads, ih]

theorem isNil_relabel : (relabel n text f).isNil = f.isNil := by
  cases f with
  | nil => rfl
  | cons =>
    unfold relabel
    split <;> rfl

theorem heads_relabel : (relabel n text f).heads = f.heads := by
  induction f with
  | nil => rfl
  | cons id label children rest _ ih =>
    unfold relabel
    split
    · rfl
    · rw [heads, heads, ih]

theorem heads_prune (h : i ∈ f.heads) (hne : i ≠ n) : i ∈ (prune n f).heads := by
  induction f with
  | nil => cases h
  | cons id label children rest _ ih =>
    unfold prune
    rcases List.mem_cons.1 h with rfl | h
    · rw [if_neg hne]
      exact List.mem_cons_self
    · split
      · exact h
      · exact List.mem_cons_of_mem _ (ih h)

theorem isNil_of_mem_heads (h : i ∈ f.heads) : f.isNil = false := by
  cases f with
  | nil => cases h
  | cons => rfl

theorem untouched_of_not_mem (h : n ∉ f.ids) : f.Untouched n := by
  induction f with
  | nil => trivial
  | cons id label children rest ihc ih =>
    simp only [ids, List.mem_cons, List.mem_append, not_or] at h
    exact ⟨fun heq => absurd heq.symm h.1, ihc h.2.1, ih h.2.2⟩

theorem untouched_append : (f.append s).Untouched n ↔ f.Untouched n ∧ s.Untouched n := by
  induction f with
  | nil => simp [append, Untouched]
  | cons id label children rest _ ih => simp only [append, Untouched, ih, and_assoc]

/-- Nodes that are to be filled stay so when others are filled. -/
theorem Untouched.graft (h : f.Untouched i) (hr : r.Untouched i) (hne : i ≠ n) :
    (Forest.graft n r f).Untouched i := by
  induction f with
  | nil => trivial
  | cons id label children rest ihc ih =>
    obtain ⟨hself, hc, hrest⟩ := h
    unfold Forest.graft
    split
    · rename_i heq
      subst heq
      exact ⟨fun heq => absurd heq.symm hne, untouched_append.2 ⟨hc, hr⟩, hrest⟩
    · refine ⟨fun heq => ?_, ihc hc, ih hrest⟩
      obtain ⟨rfl, hlabel⟩ := hself heq
      exact ⟨rfl, hlabel⟩

theorem Untouched.relabel (h : f.Untouched i) (hne : i ≠ n) :
    (Forest.relabel n text f).Untouched i := by
  induction f with
  | nil => trivial
  | cons id label children rest ihc ih =>
    obtain ⟨hself, hc, hrest⟩ := h
    unfold Forest.relabel
    split
    · rename_i heq
      subst heq
      exact ⟨fun heq => absurd heq.symm hne, hc, hrest⟩
    · refine ⟨fun heq => ?_, ihc hc, ih hrest⟩
      obtain ⟨rfl, hlabel⟩ := hself heq
      exact ⟨rfl, hlabel⟩

theorem Untouched.prune (h : f.Untouched i) : (Forest.prune n f).Untouched i := by
  induction f with
  | nil => trivial
  | cons id label children rest ihc ih =>
    obtain ⟨hself, hc, hrest⟩ := h
    unfold Forest.prune
    split
    · exact hrest
    · refine ⟨fun heq => ?_, ihc hc, ih hrest⟩
      obtain ⟨rfl, hlabel⟩ := hself heq
      exact ⟨rfl, hlabel⟩

theorem mem_ids_of_mem_heads (h : i ∈ f.heads) : i ∈ f.ids := by
  induction f with
  | nil => cases h
  | cons id label children rest _ ih =>
    rw [ids, List.mem_cons, List.mem_append]
    exact (List.mem_cons.1 h).imp_right fun h => .inr (ih h)

theorem Keeps.mono (h : f.Keeps spared) (hs : ∀ i ∈ f.ids, spared i → spared' i) :
    f.Keeps spared' := by
  induction f with
  | nil => trivial
  | cons id label children rest ihc ih =>
    obtain ⟨hself, hc, hrest⟩ := h
    simp only [ids, List.mem_cons, List.mem_append] at hs
    refine ⟨fun hnil => ?_, ihc hc fun i hi => hs i (.inr (.inl hi)),
      ih hrest fun i hi => hs i (.inr (.inr hi))⟩
    obtain ⟨i, hi, hsp⟩ := hself hnil
    exact ⟨i, hi, hs i (.inr (.inl (mem_ids_of_mem_heads hi))) hsp⟩

theorem keeps_append : (f.append s).Keeps spared ↔ f.Keeps spared ∧ s.Keeps spared := by
  induction f with
  | nil => simp [append, Keeps]
  | cons id label children rest _ ih => simp only [append, Keeps, ih, and_assoc]

theorem Keeps.graft (h : f.Keeps spared) (hr : r.Keeps spared) (hi : ∃ i ∈ r.heads, spared i) :
    (Forest.graft n r f).Keeps spared := by
  induction f with
  | nil => trivial
  | cons id label children rest ihc ih =>
    obtain ⟨hself, hc, hrest⟩ := h
    unfold Forest.graft
    split
    · refine ⟨fun _ => ?_, keeps_append.2 ⟨hc, hr⟩, hrest⟩
      obtain ⟨i, hi, hs⟩ := hi
      exact ⟨i, by rw [heads_append]; exact List.mem_append_right _ hi, hs⟩
    · refine ⟨fun hnil => ?_, ihc hc, ih hrest⟩
      rw [isNil_graft] at hnil
      rw [heads_graft]
      exact hself hnil

theorem Keeps.relabel (h : f.Keeps spared) : (Forest.relabel n text f).Keeps spared := by
  induction f with
  | nil => trivial
  | cons id label children rest ihc ih =>
    obtain ⟨hself, hc, hrest⟩ := h
    unfold Forest.relabel
    split
    · exact ⟨hself, hc, hrest⟩
    · refine ⟨fun hnil => ?_, ihc hc, ih hrest⟩
      rw [isNil_relabel] at hnil
      rw [heads_relabel]
      exact hself hnil

theorem Keeps.prune (h : f.Keeps spared) (hn : ¬spared n) : (Forest.prune n f).Keeps spared := by
  induction f with
  | nil => trivial
  | cons id label children rest ihc ih =>
    obtain ⟨hself, hc, hrest⟩ := h
    unfold Forest.prune
    split
    · exact hrest
    · refine ⟨fun hnil => ?_, ihc hc, ih hrest⟩
      have hchildren : children.isNil = false := by
        cases children with
        | nil => exact hnil
        | cons => rfl
      obtain ⟨i, hi, hs⟩ := hself hchildren
      exact ⟨i, heads_prune hi fun heq => hn (heq ▸ hs), hs⟩

theorem tips_leaf (id : Nat) (label : String) (rest : Forest) :
    (cons id label nil rest).tips =
      (if label = emptyLabel then [] else [(id, label)]) ++ rest.tips := rfl

theorem tips_inner {children : Forest} (h : children.isNil = false) (id : Nat) (label : String)
    (rest : Forest) : (cons id label children rest).tips = children.tips ++ rest.tips := by
  rw [tips, h, Bool.not_false, if_pos rfl]

theorem eq_nil_of_isNil (h : f.isNil = true) : f = nil := by
  cases f with
  | nil => rfl
  | cons => cases h

/-- The number of a tip is that of no other. -/
theorem ne_of_mem_tips {rest : List (Nat × String)}
    (h : (([(n, label)] ++ rest).map Prod.fst).Nodup) : ∀ p ∈ rest, p.1 ≠ n := by
  intro p hp heq
  have hmem : n ∈ rest.map Prod.fst := heq ▸ List.mem_map_of_mem hp
  exact (List.nodup_cons.1 h).1 hmem

/-- A node that is filled gives way to what fills it. -/
theorem tips_graft (h : f.Untouched n) (hn : (f.tips.map Prod.fst).Nodup) (hr : r.isNil = false) :
    (graft n r f).tips = f.tips.flatMap fun p => if p.1 = n then r.tips else [p] := by
  induction f with
  | nil => rfl
  | cons id label children rest ihc ih =>
    obtain ⟨hself, hc, hrest⟩ := h
    unfold graft
    split
    · rename_i heq
      obtain ⟨rfl, hlabel⟩ := hself heq
      rw [tips_leaf, if_neg hlabel] at hn ⊢
      subst heq
      have hothers : rest.tips.flatMap (fun p => if p.1 = id then r.tips else [p]) =
          rest.tips.flatMap fun p => [p] :=
        List.flatMap_congr fun p hp => if_neg (ne_of_mem_tips hn p hp)
      rw [append, tips_inner hr, List.flatMap_append, List.flatMap_singleton, if_pos rfl, hothers,
        List.flatMap_singleton']
    · rename_i hne
      cases hnil : children.isNil with
      | true =>
        obtain rfl := eq_nil_of_isNil hnil
        rw [tips_leaf, List.map_append, List.nodup_append] at hn
        rw [graft, tips_leaf, tips_leaf, List.flatMap_append, ih hrest hn.2.1]
        split
        · rfl
        · rw [List.flatMap_singleton, if_neg hne]
      | false =>
        rw [tips_inner hnil, List.map_append, List.nodup_append] at hn
        rw [tips_inner hnil, tips_inner (isNil_graft.trans hnil), List.flatMap_append,
          ihc hc hn.1, ih hrest hn.2.1]

/-- A leaf that is matched gets the label of its token. -/
theorem tips_relabel (h : f.Untouched n) (hn : (f.tips.map Prod.fst).Nodup)
    (ht : text ≠ emptyLabel) :
    (relabel n text f).tips = f.tips.map fun p => if p.1 = n then (n, text) else p := by
  induction f with
  | nil => rfl
  | cons id label children rest ihc ih =>
    obtain ⟨hself, hc, hrest⟩ := h
    unfold relabel
    split
    · rename_i heq
      obtain ⟨rfl, hlabel⟩ := hself heq
      rw [tips_leaf, if_neg hlabel] at hn
      subst heq
      have hothers : rest.tips.map (fun p => if p.1 = id then (id, text) else p) =
          rest.tips.map fun p => p :=
        List.map_congr_left fun p hp => if_neg (ne_of_mem_tips hn p hp)
      rw [tips_leaf, tips_leaf, if_neg ht, if_neg hlabel, List.map_append, hothers, List.map_id']
      simp
    · rename_i hne
      cases hnil : children.isNil with
      | true =>
        obtain rfl := eq_nil_of_isNil hnil
        rw [tips_leaf, List.map_append, List.nodup_append] at hn
        rw [relabel, tips_leaf, tips_leaf, List.map_append, ih hrest hn.2.1]
        split
        · rfl
        · rw [List.map_singleton, if_neg hne]
      | false =>
        rw [tips_inner hnil, List.map_append, List.nodup_append] at hn
        rw [tips_inner hnil, tips_inner (isNil_relabel.trans hnil), List.map_append, ihc hc hn.1,
          ih hrest hn.2.1]

/-- A node that is given up is gone, and no other. -/
theorem tips_prune (h : f.Untouched n) (hn : (f.tips.map Prod.fst).Nodup)
    (hk : f.Keeps fun i => i ≠ n) : (prune n f).tips = f.tips.filter fun p => p.1 ≠ n := by
  induction f with
  | nil => rfl
  | cons id label children rest ihc ih =>
    obtain ⟨hself, hc, hrest⟩ := h
    obtain ⟨hkept, hkc, hkrest⟩ := hk
    unfold prune
    split
    · rename_i heq
      obtain ⟨rfl, hlabel⟩ := hself heq
      rw [tips_leaf, if_neg hlabel] at hn ⊢
      subst heq
      have hothers : rest.tips.filter (fun p => p.1 ≠ id) = rest.tips :=
        List.filter_eq_self.2 fun p hp => decide_eq_true (ne_of_mem_tips hn p hp)
      rw [List.filter_append, hothers]
      simp
    · rename_i hne
      cases hnil : children.isNil with
      | true =>
        obtain rfl := eq_nil_of_isNil hnil
        rw [tips_leaf, List.map_append, List.nodup_append] at hn
        rw [prune, tips_leaf, tips_leaf, List.filter_append, ih hrest hn.2.1 hkrest]
        split
        · rfl
        · simp [hne]
      | false =>
        -- one of the children is kept
        obtain ⟨i, hi, hsp⟩ := hkept hnil
        have hstays := isNil_of_mem_heads (heads_prune hi hsp)
        rw [tips_inner hnil, List.map_append, List.nodup_append] at hn
        rw [tips_inner hnil, tips_inner hstays, List.filter_append, ihc hc hn.1 hkc,
          ih hrest hn.2.1 hkrest]

end Forest

end OnePass.Derivation
