import OnePass.Proofs.Derivation.Leaves

/-!
# A tree with nodes to be filled

The tips of the tree are done, or are the nodes of the goals, in the order of the goals. What the
machine does to the tree for its next goal keeps this, as long as no node loses all its children.

* `awaited`: the nodes that are still to be filled. `tips_leaves`: those of a body.
* `Tree.Awaiting`: a tree with nodes to be filled.
* `Tree.Awaiting.shift`, `Tree.Awaiting.expand`, `Tree.Awaiting.drop`, `Tree.Awaiting.close`: what
  is done to it.
-/

namespace OnePass.Derivation

open Grammar

/-- The node that a goal is to fill, with its label. -/
def Goal.tip? : Goal → Option (Nat × String)
  | .leaf t node => some (node, t.lexeme)
  | .phrase n node => some (node, n.name)
  | _ => none

theorem Goal.node?_eq_tip? (goal : Goal) : goal.node? = goal.tip?.map Prod.fst := by
  cases goal <;> rfl

/-- **The nodes that are still to be filled.** -/
def awaited (goals : List Goal) : List (Nat × String) := goals.filterMap Goal.tip?

section Awaited

variable {goal : Goal} {rest : List Goal} {p : Nat × String} {node next : Nat}
  {body : List Symbol}

theorem awaited_cons_some (h : goal.tip? = some p) :
    awaited (goal :: rest) = p :: awaited rest :=
  List.filterMap_cons_some h

theorem awaited_cons_none (h : goal.tip? = none) : awaited (goal :: rest) = awaited rest :=
  List.filterMap_cons_none h

theorem awaited_append (a b : List Goal) : awaited (a ++ b) = awaited a ++ awaited b :=
  List.filterMap_append

/-- No symbol is called what an empty production is. -/
theorem name_ne_emptyLabel (n : Nonterminal) : n.name ≠ emptyLabel := by cases n <;> decide

theorem lexeme_ne_emptyLabel (t : Terminal) : t.lexeme ≠ emptyLabel := by cases t <;> decide

/-- A row for a body: its tips are what the goals of the body await. -/
theorem tips_leaves_named (next : Nat) (body : List Symbol) :
    (Forest.leaves next (named body)).tips = awaited (goalsOf next body) := by
  induction body generalizing next with
  | nil => rfl
  | cons s body ih =>
    cases s with
    | terminal t =>
      have h : named (.terminal t :: body) = t.lexeme :: named body := rfl
      rw [h, Forest.leaves, Forest.tips_leaf, if_neg (lexeme_ne_emptyLabel t), ih]
      rfl
    | nonterminal n =>
      have h : named (.nonterminal n :: body) = n.name :: named body := rfl
      rw [h, Forest.leaves, Forest.tips_leaf, if_neg (name_ne_emptyLabel n), ih]
      rfl
    | action a => exact ih next

/-- A body of actions alone awaits nothing. -/
theorem awaited_goalsOf_of_actions (h : body.all Symbol.isAction = true) :
    awaited (goalsOf next body) = [] := by
  induction body with
  | nil => rfl
  | cons s body ih =>
    rw [List.all_cons, Bool.and_eq_true] at h
    cases s with
    | action a => exact ih h.2
    | _ => cases h.1

theorem tips_leaves (next : Nat) (body : List Symbol) :
    (Forest.leaves next (labelsOf body)).tips = awaited (goalsOf next body) := by
  unfold labelsOf
  split
  · rename_i h
    rw [awaited_goalsOf_of_actions h]
    rfl
  · exact tips_leaves_named next body

theorem le_of_mem_awaited_goalsOf (h : p ∈ awaited (goalsOf next body)) : next ≤ p.1 := by
  rw [← tips_leaves] at h
  have hids := Forest.mem_ids_of_mem_tips h
  rw [Forest.ids_leaves, List.mem_range'_1] at hids
  exact hids.1

theorem labelsOf_ne_nil (body : List Symbol) : labelsOf body ≠ [] := by
  unfold labelsOf
  split
  · exact List.cons_ne_nil _ _
  · rename_i h
    simpa [List.filter_eq_nil_iff] using h

theorem isNil_leaves {labels : List String} (h : labels ≠ []) :
    (Forest.leaves next labels).isNil = false := by
  cases labels with
  | nil => exact absurd rfl h
  | cons => rfl

end Awaited

namespace Forest

variable {i next : Nat} {labels : List String} {spared : Nat → Prop}

theorem untouched_leaves (h : ∀ label ∈ labels, label ≠ emptyLabel) :
    (leaves next labels).Untouched i := by
  induction labels generalizing next with
  | nil => trivial
  | cons label labels ih =>
    rw [List.forall_mem_cons] at h
    exact ⟨fun _ => ⟨rfl, h.1⟩, trivial, ih h.2⟩

theorem keeps_leaves : (leaves next labels).Keeps spared := by
  induction labels generalizing next with
  | nil => trivial
  | cons label labels ih => exact ⟨nofun, trivial, ih⟩

/-- New numbers are distinct. -/
theorem nodup_tips_leaves : (((leaves next labels).tips).map Prod.fst).Nodup := by
  induction labels generalizing next with
  | nil => exact List.nodup_nil
  | cons label labels ih =>
    rw [leaves, tips_leaf]
    split
    · exact ih
    · refine List.nodup_cons.2 ⟨fun hmem => ?_, ih⟩
      obtain ⟨p, hp, heq⟩ := List.mem_map.1 hmem
      have hids := mem_ids_of_mem_tips hp
      rw [ids_leaves, List.mem_range'_1] at hids
      dsimp only at heq
      omega

theorem mem_heads_leaves (h : labels ≠ []) : next ∈ (leaves next labels).heads := by
  cases labels with
  | nil => exact absurd rfl h
  | cons => exact List.mem_cons_self

end Forest

theorem ne_emptyLabel_of_mem_named {body : List Symbol} :
    ∀ label ∈ named body, label ≠ emptyLabel := by
  intro label h
  obtain ⟨s, hs, rfl⟩ := List.mem_map.1 h
  cases s with
  | terminal t => exact lexeme_ne_emptyLabel t
  | nonterminal n => exact name_ne_emptyLabel n
  | action a => simp [Symbol.isAction] at hs

/-- **A tree with nodes to be filled.** Its tips are done, or are awaited by the goals. -/
structure Tree.Awaiting (t : Tree) (goals : List Goal) (labels : List String) : Prop where
  below : ∀ i ∈ t.forest.ids, i < t.next
  tips : ∃ done, t.forest.tips = done ++ awaited goals ∧ done.map Prod.snd = labels
  distinct : (t.forest.tips.map Prod.fst).Nodup
  untouched : ∀ p ∈ awaited goals, t.forest.Untouched p.1
  /-- The root is filled first of all. -/
  rooted : t.children.isNil = false ∧ (∀ p ∈ awaited goals, p.1 ≠ Tree.root) ∨
    goals = [.phrase Grammar.start Tree.root, .textEnd]

namespace Tree.Awaiting

variable {t : Tree} {goal : Goal} {goals rest : List Goal} {labels : List String} {node : Nat}
  {name text : String}

theorem mem_ids (h : t.Awaiting goals labels) : ∀ p ∈ awaited goals, p.1 ∈ t.forest.ids := by
  obtain ⟨done, htips, -⟩ := h.tips
  intro p hp
  exact Forest.mem_ids_of_mem_tips (by rw [htips]; exact List.mem_append_right _ hp)

/-- No node is awaited twice. -/
theorem distinct_awaited (h : t.Awaiting goals labels) :
    ((awaited goals).map Prod.fst).Nodup := by
  obtain ⟨done, htips, -⟩ := h.tips
  have hd := h.distinct
  rw [htips, List.map_append, List.nodup_append] at hd
  exact hd.2.1

/-- A node that has been filled is not awaited. -/
theorem ne_of_done (h : t.Awaiting (goal :: rest) labels) (hgoal : goal.tip? = some (node, name))
    {done : List (Nat × String)} (htips : t.forest.tips = done ++ awaited (goal :: rest)) :
    (∀ p ∈ done, p.1 ≠ node) ∧ ∀ p ∈ awaited rest, p.1 ≠ node := by
  have hd := h.distinct
  rw [htips, awaited_cons_some hgoal, List.map_append, List.nodup_append, List.map_cons,
    List.nodup_cons] at hd
  refine ⟨fun p hp => ?_, fun p hp heq => hd.2.1.1 (List.mem_map.2 ⟨p, hp, heq⟩)⟩
  exact hd.2.2 p.1 (List.mem_map_of_mem hp) node List.mem_cons_self

/-- An action or the end of the text takes no node. -/
theorem pass (h : t.Awaiting (goal :: goals) labels) (hgoal : goal.tip? = none) :
    t.Awaiting goals labels := by
  have hnone : awaited (goal :: goals) = awaited goals := awaited_cons_none hgoal
  refine ⟨h.below, hnone ▸ h.tips, h.distinct, hnone ▸ h.untouched, .inl ?_⟩
  rcases h.rooted with ⟨hnil, hroot⟩ | hg
  · exact ⟨hnil, hnone ▸ hroot⟩
  · cases hg
    cases hgoal

/-- The leaf of a terminal is matched. -/
theorem shift {u : Terminal} (h : t.Awaiting (.leaf u node :: rest) labels)
    (htext : text ≠ emptyLabel) : (t.relabel node text).Awaiting rest (labels ++ [text]) := by
  have hgoal : (Goal.leaf u node).tip? = some (node, u.lexeme) := rfl
  obtain ⟨done, htips, rfl⟩ := h.tips
  obtain ⟨hdone, hrest⟩ := h.ne_of_done hgoal htips
  have huntouched := h.untouched
  rw [awaited_cons_some hgoal, List.forall_mem_cons] at huntouched
  have htips' : (t.relabel node text).forest.tips = done ++ (node, text) :: awaited rest := by
    rw [Tree.forest_relabel, Forest.tips_relabel huntouched.1 h.distinct htext, htips,
      awaited_cons_some hgoal, List.map_append, List.map_cons, if_pos rfl]
    congr 1
    · exact List.map_congr_left (fun p hp => if_neg (hdone p hp)) |>.trans (List.map_id' _)
    · congr 1
      exact List.map_congr_left (fun p hp => if_neg (hrest p hp)) |>.trans (List.map_id' _)
  have hd := h.distinct
  rw [htips, awaited_cons_some hgoal] at hd
  refine ⟨?_, ⟨done ++ [(node, text)], by simp [htips'], by simp⟩, ?_, fun p hp => ?_, ?_⟩
  · rw [Tree.forest_relabel, Forest.ids_relabel, Machine.next_relabel]
    exact h.below
  · rw [htips']
    simpa using hd
  · rw [Tree.forest_relabel]
    exact (huntouched.2 p hp).relabel (hrest p hp)
  · rcases h.rooted with ⟨hnil, hroot⟩ | hg
    · rw [awaited_cons_some hgoal, List.forall_mem_cons] at hroot
      refine .inl ⟨?_, hroot.2⟩
      rw [Tree.relabel, if_neg hroot.1]
      exact Forest.isNil_relabel.trans hnil
    · cases hg

/-- The node of a phrase gets a row for a body. -/
theorem expand {n : Nonterminal} (h : t.Awaiting (.phrase n node :: rest) labels)
    (body : List Symbol) :
    (t.addChildren node (labelsOf body)).Awaiting (goalsOf t.next body ++ rest) labels := by
  have hgoal : (Goal.phrase n node).tip? = some (node, n.name) := rfl
  obtain ⟨done, htips, rfl⟩ := h.tips
  obtain ⟨hdone, hrest⟩ := h.ne_of_done hgoal htips
  have huntouched := h.untouched
  rw [awaited_cons_some hgoal, List.forall_mem_cons] at huntouched
  have hold : ∀ p ∈ t.forest.tips, p.1 < t.next := fun p hp =>
    h.below _ (Forest.mem_ids_of_mem_tips hp)
  have hrow : ∀ i ∈ (Forest.leaves t.next (labelsOf body)).ids,
      t.next ≤ i ∧ i < t.next + (labelsOf body).length := fun i hi => by
    rwa [Forest.ids_leaves, List.mem_range'_1] at hi
  have hnew : ∀ p ∈ awaited (goalsOf t.next body), t.next ≤ p.1 := fun p hp =>
    le_of_mem_awaited_goalsOf hp
  have htips' : (t.addChildren node (labelsOf body)).forest.tips =
      done ++ awaited (goalsOf t.next body ++ rest) := by
    rw [Tree.forest_addChildren,
      Forest.tips_graft huntouched.1 h.distinct (isNil_leaves (labelsOf_ne_nil body)), htips,
      awaited_cons_some hgoal, List.flatMap_append, List.flatMap_cons, if_pos rfl, tips_leaves,
      awaited_append]
    congr 1
    · exact (List.flatMap_congr fun p hp => if_neg (hdone p hp)).trans (List.flatMap_singleton' _)
    · congr 1
      exact (List.flatMap_congr fun p hp => if_neg (hrest p hp)).trans (List.flatMap_singleton' _)
  refine ⟨fun i hi => ?_, ⟨done, htips', rfl⟩, ?_, fun p hp => ?_, ?_⟩
  · rw [Tree.forest_addChildren] at hi
    rcases Forest.mem_ids_graft hi with hi | hi
    · exact Nat.lt_add_right _ (h.below i hi)
    · exact (hrow i hi).2
  · -- the new numbers are distinct, and above all others
    have hd := h.distinct
    rw [htips, awaited_cons_some hgoal] at hd hold
    rw [htips', awaited_append]
    have hfresh : ((awaited (goalsOf t.next body)).map Prod.fst).Nodup := by
      rw [← tips_leaves]
      exact Forest.nodup_tips_leaves
    rw [List.map_append, List.nodup_append] at hd ⊢
    rw [List.map_append, List.nodup_append]
    obtain ⟨h1, h2, h3⟩ := hd
    rw [List.map_cons, List.nodup_cons] at h2
    refine ⟨h1, ⟨hfresh, h2.2, ?_⟩, ?_⟩
    · intro i hi j hj
      obtain ⟨p, hp, rfl⟩ := List.mem_map.1 hi
      obtain ⟨q, hq, rfl⟩ := List.mem_map.1 hj
      have := hnew p hp
      have := hold q (List.mem_append_right _ (List.mem_cons_of_mem _ hq))
      omega
    · intro i hi j hj
      rcases List.mem_append.1 hj with hj | hj
      · obtain ⟨p, hp, rfl⟩ := List.mem_map.1 hi
        obtain ⟨q, hq, rfl⟩ := List.mem_map.1 hj
        have := hnew q hq
        have := hold p (List.mem_append_left _ hp)
        omega
      · exact h3 i hi j (List.mem_cons_of_mem _ hj)
  · rw [Tree.forest_addChildren]
    rw [awaited_append, List.mem_append] at hp
    rcases hp with hp | hp
    · have hlt := hnew p hp
      have hnot : p.1 ∉ t.forest.ids := fun hmem => absurd (h.below _ hmem) (Nat.not_lt.2 hlt)
      have hbody : body.all Symbol.isAction = false := by
        by_contra hc
        rw [awaited_goalsOf_of_actions (by simpa using hc)] at hp
        cases hp
      have hnode : node < t.next := h.below _ (h.mem_ids (node, n.name) (by
        rw [awaited_cons_some hgoal]
        exact List.mem_cons_self))
      refine (Forest.untouched_of_not_mem hnot).graft ?_ (by omega)
      rw [labelsOf, hbody]
      exact Forest.untouched_leaves ne_emptyLabel_of_mem_named
    · have hlt : p.1 < t.next := h.below _ (h.mem_ids p (by
        rw [awaited_cons_some hgoal]
        exact List.mem_cons_of_mem _ hp))
      refine (huntouched.2 p hp).graft (Forest.untouched_of_not_mem fun hmem => ?_) (hrest p hp)
      have := (hrow _ hmem).1
      omega
  · have hroot : Tree.root < t.next := h.below _ List.mem_cons_self
    have hrest' : (∀ p ∈ awaited rest, p.1 ≠ Tree.root) →
        ∀ p ∈ awaited (goalsOf t.next body ++ rest), p.1 ≠ Tree.root := fun hr p hp => by
      rw [awaited_append, List.mem_append] at hp
      rcases hp with hp | hp
      · have := hnew p hp
        omega
      · exact hr p hp
    refine .inl ?_
    rcases h.rooted with ⟨hnil, hne⟩ | hg
    · rw [awaited_cons_some hgoal, List.forall_mem_cons] at hne
      refine ⟨?_, hrest' hne.2⟩
      rw [Tree.addChildren]
      dsimp only
      rw [if_neg hne.1]
      exact Forest.isNil_graft.trans hnil
    · rw [List.cons.injEq, Goal.phrase.injEq] at hg
      obtain ⟨⟨-, rfl⟩, rfl⟩ := hg
      refine ⟨?_, hrest' (List.forall_mem_nil _)⟩
      rw [Tree.addChildren]
      dsimp only
      rw [if_pos rfl, Forest.isNil_append, isNil_leaves (labelsOf_ne_nil body), Bool.and_false]

/-- The node of a goal is given up. -/
theorem drop (h : t.Awaiting (goal :: rest) labels) (hgoal : goal.tip? = some (node, name))
    (hroot : node ≠ Tree.root) (hkeeps : t.forest.Keeps fun i => i ≠ node) :
    (t.drop node).Awaiting rest labels := by
  obtain ⟨done, htips, rfl⟩ := h.tips
  obtain ⟨hdone, hrest⟩ := h.ne_of_done hgoal htips
  have huntouched := h.untouched
  rw [awaited_cons_some hgoal, List.forall_mem_cons] at huntouched
  have hprune := Forest.tips_prune huntouched.1 h.distinct hkeeps
  have htips' : (t.drop node).forest.tips = done ++ awaited rest := by
    rw [Tree.forest_drop t hroot, hprune, htips, awaited_cons_some hgoal, List.filter_append,
      List.filter_cons_of_neg (by simp)]
    congr 1
    · exact List.filter_eq_self.2 fun p hp => decide_eq_true (hdone p hp)
    · exact List.filter_eq_self.2 fun p hp => decide_eq_true (hrest p hp)
  refine ⟨fun i hi => ?_, ⟨done, htips', rfl⟩, ?_, fun p hp => ?_, ?_⟩
  · rw [Tree.forest_drop t hroot] at hi
    rw [Tree.drop, if_neg hroot]
    exact h.below i (Forest.mem_ids_prune hi)
  · rw [Tree.forest_drop t hroot, hprune]
    exact h.distinct.sublist (List.filter_sublist.map _)
  · rw [Tree.forest_drop t hroot]
    exact (huntouched.2 p hp).prune
  · rcases h.rooted with ⟨hnil, hne⟩ | hg
    · rw [awaited_cons_some hgoal, List.forall_mem_cons] at hne
      refine .inl ⟨?_, hne.2⟩
      obtain ⟨i, hi, hkept⟩ := hkeeps.1 hnil
      rw [Tree.drop, if_neg hroot]
      exact Forest.isNil_of_mem_heads (Forest.heads_prune hi hkept)
    · rw [List.cons.injEq] at hg
      rw [hg.1] at hgoal
      cases hgoal
      exact absurd rfl hroot

/-- The end of the text becomes the last child of the root. -/
theorem close (h : t.Awaiting [.textEnd] labels) (htext : text ≠ emptyLabel) :
    (t.addChild Tree.root text).Awaiting [] (labels ++ [text]) := by
  obtain ⟨done, htips, rfl⟩ := h.tips
  have hnil : t.children.isNil = false := by
    rcases h.rooted with ⟨hnil, -⟩ | hg
    · exact hnil
    · cases hg
  have hforest : (t.addChild Tree.root text).forest =
      .cons Tree.root t.label (t.children.append (.cons t.next text .nil .nil)) .nil := by
    rw [Tree.addChild, Tree.forest, Tree.addChildren]
    dsimp only
    rw [if_pos rfl]
    rfl
  have hnil' : (t.children.append (.cons t.next text .nil .nil)).isNil = false := by
    rw [Forest.isNil_append, hnil, Bool.false_and]
  have htips' : (t.addChild Tree.root text).forest.tips = done ++ [(t.next, text)] := by
    have hchildren : t.children.tips = done := by
      have hnone : awaited [.textEnd] = [] := rfl
      rw [Tree.forest, Forest.tips_inner hnil, hnone] at htips
      simpa [Forest.tips] using htips
    rw [hforest, Forest.tips_inner hnil', Forest.tips_append, hchildren, Forest.tips_leaf,
      if_neg htext]
    simp [Forest.tips]
  refine ⟨fun i hi => ?_, ⟨done ++ [(t.next, text)], ?_, ?_⟩, ?_, List.forall_mem_nil _,
    .inl ⟨?_, List.forall_mem_nil _⟩⟩
  · have hnext : (t.addChild Tree.root text).next = t.next + 1 := rfl
    rw [hnext]
    rw [Tree.addChild, Tree.forest_addChildren] at hi
    rcases Forest.mem_ids_graft hi with hi | hi
    · exact Nat.lt_succ_of_lt (h.below i hi)
    · rw [Forest.ids_leaves, List.mem_range'_1] at hi
      exact hi.2
  · exact htips'.trans (List.append_nil _).symm
  · simp
  · have hd := h.distinct
    rw [htips] at hd
    rw [htips', List.map_append, List.nodup_append]
    rw [List.map_append, List.nodup_append] at hd
    refine ⟨hd.1, List.nodup_singleton _, fun i hi j hj => ?_⟩
    obtain ⟨p, hp, rfl⟩ := List.mem_map.1 hi
    have hlt : p.1 < t.next := h.below _ (Forest.mem_ids_of_mem_tips (by
      rw [htips]
      exact List.mem_append_left _ hp))
    rw [List.map_singleton, List.mem_singleton] at hj
    omega
  · rw [Tree.addChild, Tree.addChildren]
    dsimp only
    rw [if_pos rfl]
    exact hnil'

end Tree.Awaiting

end OnePass.Derivation
