import OnePass.Derivation.Arena
import OnePass.Proofs.Derivation.Growth

/-!
# What an array of nodes shows

An array shows a tree if its links, followed from the root on, lead to the nodes of the tree in
the order they stand there. Nodes that have been taken out stay in the array, with what is below
them; no link from the root leads to them any more.

* `Arena.Holds`: a row of the array is a row of the tree. `Holds.addChild`, `Holds.setLabel`,
  `Holds.detach`: what a change of the nodes does to the row.
* `Arena.Shows`: an array that shows a tree. `Shows.addChild`, `Shows.setLabel`,
  `Shows.detach`: a change of a node that has been made goes through, and is that of the tree.
* `Shows.tree`: the tree is read off.
-/

namespace OnePass.Derivation

namespace Arena

variable {a a' : Arena} {above : Option Nat} {row : List Nat} {f : Forest} {n p : Nat}
  {label : String}

/-- **One node is changed,** if it has been made. -/
theorem exists_change (hn : n < a.nodes.size) (g : Node → Node) : ∃ a', a.change n g = .ok a' ∧
    a'.nodes.size = a.nodes.size ∧
      ∀ i : Nat, a'.nodes[i]? = a.nodes[i]?.map fun node => if i = n then g node else node := by
  refine ⟨⟨a.nodes.modify n g⟩, ?_, Array.size_modify, fun i => ?_⟩
  · rw [Arena.change, Checked.change_eq hn]
    rfl
  · rw [Array.getElem?_modify]
    by_cases hi : n = i
    · simp [if_pos hi, if_pos hi.symm]
    · simp [if_neg hi, if_neg (Ne.symm hi)]

/-- **A row of the array is a row of the tree.** The nodes of the row have the parent `above`, and
labels and children as in the tree. -/
inductive Holds (a : Arena) : Option Nat → List Nat → Forest → Prop
  | nil (above : Option Nat) : Holds a above [] .nil
  | cons {above : Option Nat} {n : Nat} {node : Node} {row : List Nat} {kids others : Forest}
      (hnode : a.nodes[n]? = some node) (hparent : node.parent = above)
      (hkids : Holds a (some n) node.children kids) (hothers : Holds a above row others) :
      Holds a above (n :: row) (.cons n node.label kids others)

/-- The nodes of a row are told apart, from each other and from their parent. -/
def Distinct (above : Option Nat) (f : Forest) : Prop :=
  f.ids.Nodup ∧ ∀ q, above = some q → q ∉ f.ids

theorem Distinct.parts {kids others : Forest} (h : Distinct above (.cons n label kids others)) :
    above ≠ some n ∧ Distinct (some n) kids ∧ Distinct above others ∧ Distinct above kids ∧
      n ∉ others.ids ∧ kids.ids.Disjoint others.ids := by
  obtain ⟨hnodup, habove⟩ := h
  simp only [Forest.ids, List.nodup_cons, List.nodup_append', List.mem_cons, List.mem_append,
    not_or] at hnodup habove
  obtain ⟨⟨hnkids, hnothers⟩, hkids, hothers, hdisjoint⟩ := hnodup
  refine ⟨fun h => (habove n h).1 rfl, ⟨hkids, fun q hq => ?_⟩, ⟨hothers, fun q hq => ?_⟩,
    ⟨hkids, fun q hq => ?_⟩, hnothers, hdisjoint⟩
  · cases hq
    exact hnkids
  · exact (habove q hq).2.2
  · exact (habove q hq).2.1

namespace Holds

theorem lt_size (h : a.Holds above row f) : ∀ i ∈ f.ids, i < a.nodes.size := by
  induction h with
  | nil => simp [Forest.ids]
  | cons hnode _ _ _ ihkids ihothers =>
    intro i hi
    rcases List.mem_cons.1 hi with rfl | hi
    · exact (Array.getElem?_eq_some_iff.1 hnode).1
    · exact (List.mem_append.1 hi).elim (ihkids i) (ihothers i)

/-- A node of the row has the parent that the row has. -/
theorem parent_of_mem (h : a.Holds above row f) (hn : n ∈ row) :
    ∃ node, a.nodes[n]? = some node ∧ node.parent = above := by
  induction h with
  | nil => cases hn
  | cons hnode hparent _ _ _ ih =>
    rcases List.mem_cons.1 hn with rfl | hn
    · exact ⟨_, hnode, hparent⟩
    · exact ih hn

/-- **A new last child** of node `p`. A row of its children is now longer by one, and any other row
has it below `p`, if `p` is there at all. -/
theorem addChild {id : Nat} (h : a.Holds above row f) (hf : Distinct above f)
    (hold : ∀ (i : Nat) (node : Node), a.nodes[i]? = some node → a'.nodes[i]? =
      some (if i = p then { node with children := node.children ++ [id] } else node))
    (hnew : a'.nodes[id]? = some ⟨label, some p, []⟩) :
    a'.Holds above (if above = some p then row ++ [id] else row)
      (if above = some p then f.append (.leaves id [label])
        else Forest.graft p (.leaves id [label]) f) := by
  induction h with
  | nil above =>
    split
    · rename_i habove
      exact .cons hnew habove.symm (.nil _) (.nil _)
    · exact .nil above
  | @cons above n node row kids others hnode hparent _ _ ihkids ihothers =>
    obtain ⟨hne, hkids, hothers, hkids', hn, -⟩ := hf.parts
    have hnode' := hold n node hnode
    have ihkids := ihkids hkids
    have ihothers := ihothers hothers
    simp only [Option.some.injEq] at ihkids
    by_cases hnp : n = p
    · subst hnp
      rw [if_pos rfl, if_pos rfl] at ihkids
      rw [if_neg hne, if_neg hne, Forest.graft_of_not_mem hn] at ihothers
      rw [if_neg hne, if_neg hne, Forest.graft, if_pos rfl]
      rw [if_pos rfl] at hnode'
      have hcons := Holds.cons hnode' hparent ihkids ihothers
      exact hcons
    · rw [if_neg hnp, if_neg hnp] at ihkids
      rw [if_neg hnp] at hnode'
      by_cases habove : above = some p
      · rw [Forest.graft_of_not_mem (hkids'.2 p habove)] at ihkids
        rw [if_pos habove, if_pos habove] at ihothers ⊢
        exact .cons hnode' hparent ihkids ihothers
      · rw [if_neg habove, if_neg habove] at ihothers ⊢
        rw [Forest.graft, if_neg hnp]
        exact .cons hnode' hparent ihkids ihothers

/-- **Another label** for node `n`. -/
theorem setLabel (h : a.Holds above row f) (hf : Distinct above f)
    (hold : ∀ (i : Nat) (node : Node), a.nodes[i]? = some node → a'.nodes[i]? =
      some (if i = n then { node with label := label } else node)) :
    a'.Holds above row (f.relabel n label) := by
  induction h with
  | nil above => exact .nil above
  | @cons above m node row kids others hnode hparent _ _ ihkids ihothers =>
    obtain ⟨-, hkids, hothers, -, hm, -⟩ := hf.parts
    have hnode' := hold m node hnode
    have ihkids := ihkids hkids
    have ihothers := ihothers hothers
    rw [Forest.relabel]
    split
    · rename_i hmn
      subst hmn
      rw [Forest.relabel_of_not_mem (hkids.2 m rfl)] at ihkids
      rw [Forest.relabel_of_not_mem hm] at ihothers
      rw [if_pos rfl] at hnode'
      exact .cons hnode' hparent ihkids ihothers
    · rename_i hmn
      rw [if_neg hmn] at hnode'
      exact .cons hnode' hparent ihkids ihothers

/-- **Node `n` loses its parent** `p`, and `p` loses it. -/
theorem detach (h : a.Holds above row f) (hf : Distinct above f)
    (hn : ∃ node, a.nodes[n]? = some node ∧ node.parent = some p)
    (hold : ∀ (i : Nat) (node : Node), a.nodes[i]? = some node → a'.nodes[i]? =
      some { node with
        parent := if i = n then none else node.parent
        children := if i = p then node.children.filter (· ≠ n) else node.children }) :
    a'.Holds above (if above = some p then row.filter (· ≠ n) else row) (f.prune n) := by
  induction h with
  | nil above =>
    rw [List.filter_nil, ite_self]
    exact .nil above
  | @cons above m node row kids others hnode hparent _ _ ihkids ihothers =>
    obtain ⟨-, hkids, hothers, -, hm, -⟩ := hf.parts
    have hnode' := hold m node hnode
    have ihkids := ihkids hkids
    have ihothers := ihothers hothers
    simp only [Option.some.injEq] at ihkids
    rw [Forest.prune]
    by_cases hmn : m = n
    · subst hmn
      obtain ⟨_, hnode₂, hp⟩ := hn
      have habove : above = some p := by
        rw [hnode, Option.some.injEq] at hnode₂
        rw [← hparent, hnode₂, hp]
      rw [Forest.prune_of_not_mem hm, if_pos habove] at ihothers
      rw [if_pos rfl, if_pos habove, List.filter_cons_of_neg (by simp)]
      exact ihothers
    · have hrow : (if above = some p then (m :: row).filter (· ≠ n) else m :: row) =
          m :: if above = some p then row.filter (· ≠ n) else row := by
        split
        · exact List.filter_cons_of_pos (by simpa using hmn)
        · rfl
      rw [if_neg hmn] at hnode' ⊢
      rw [hrow]
      have hcons := Holds.cons hnode' hparent ihkids ihothers
      exact hcons

/-- All but the nodes of the row itself have a parent. -/
theorem exists_parent (h : a.Holds above row f) (hn : n ∈ f.ids) (hrow : n ∉ row) :
    ∃ node p, a.nodes[n]? = some node ∧ node.parent = some p := by
  induction h with
  | nil => cases hn
  | @cons above m node row kids others hnode hparent hkids hothers ihkids ihothers =>
    rw [List.mem_cons, not_or] at hrow
    rcases List.mem_cons.1 hn with heq | hn
    · exact absurd heq hrow.1
    rcases List.mem_append.1 hn with hn | hn
    · by_cases hnkids : n ∈ node.children
      · obtain ⟨node, hnode, hparent⟩ := hkids.parent_of_mem hnkids
        exact ⟨node, _, hnode, hparent⟩
      · exact ihkids hn hnkids
    · exact ihothers hn hrow.2

/-- **The row is read off.** -/
theorem row_eq {q : Nat} (h : a.Holds above row f) (habove : above = some q)
    (hlinks : ∀ (i : Nat) (node : Node), a.nodes[i]? = some node → ∀ j, node.parent = some j → j < i) :
    a.row q row = .ok f := by
  induction h generalizing q with
  | nil above =>
    rw [Arena.row]
    rfl
  | @cons above n node row kids others hnode hparent _ _ ihkids ihothers =>
    obtain ⟨hn, hget⟩ := Array.getElem?_eq_some_iff.1 hnode
    rw [Arena.row, dif_pos hn, if_pos (hlinks n node hnode q (hparent.trans habove)), hget,
      ihkids rfl, Checked.ok_bind, ihothers habove]
    rfl

end Holds

/-- **An array that shows a tree.** Numbers that lead to a parent lead back in the array. -/
structure Shows (a : Arena) (t : Tree) : Prop where
  size : a.nodes.size = t.next
  links : ∀ (i : Nat) (node : Node), a.nodes[i]? = some node → ∀ j, node.parent = some j → j < i
  root : a.Holds none [Tree.root] t.forest
  distinct : t.forest.ids.Nodup

namespace Shows

variable {t : Tree}

theorem ofLabel (label : String) : (Arena.ofLabel label).Shows (.ofLabel label) where
  size := rfl
  links i node hnode := by
    obtain ⟨hi, hget⟩ := Array.getElem?_eq_some_iff.1 hnode
    obtain rfl : i = 0 := Nat.lt_one_iff.1 hi
    rw [← hget]
    exact fun _ hj => by cases hj
  root := by
    have hnode : (Arena.ofLabel label).nodes[Tree.root]? = some ⟨label, none, []⟩ := rfl
    have hroot := Holds.cons hnode rfl (.nil _) (.nil _)
    exact hroot
  distinct := List.nodup_singleton _

theorem distinct_none (h : a.Shows t) : Distinct none t.forest :=
  ⟨h.distinct, fun _ hq => by cases hq⟩

theorem lt_next (h : a.Shows t) : ∀ i ∈ t.forest.ids, i < t.next :=
  h.size ▸ h.root.lt_size

/-- **A child is given to a node that has been made.** Its number is the next one. -/
theorem addChild (h : a.Shows t) (hp : p < t.next) (label : String) :
    ∃ a', a.addChild p label = .ok (t.next, a') ∧ a'.Shows (t.addChild p label) := by
  have hmade : p < (⟨a.nodes.push ⟨label, some p, []⟩⟩ : Arena).nodes.size := by
    rw [Array.size_push, h.size]
    omega
  obtain ⟨a', hchange, hsize, hget⟩ := exists_change hmade fun q =>
    { q with children := q.children ++ [a.nodes.size] }
  have hold : ∀ (i : Nat) (node : Node), a.nodes[i]? = some node → a'.nodes[i]? =
      some (if i = p then { node with children := node.children ++ [t.next] } else node) := by
    intro i node hnode
    have hi : i < a.nodes.size := (Array.getElem?_eq_some_iff.1 hnode).1
    rw [hget, Array.getElem?_push, if_neg (by omega), hnode, h.size]
    rfl
  have hnew : a'.nodes[t.next]? = some ⟨label, some p, []⟩ := by
    rw [hget, Array.getElem?_push, if_pos h.size.symm, Option.map_some, if_neg (by omega)]
  have hroot := h.root.addChild h.distinct_none hold hnew
  rw [if_neg (by simp), if_neg (by simp)] at hroot
  have hforest : (t.addChild p label).forest =
      Forest.graft p (.leaves t.next [label]) t.forest := t.forest_addChildren p [label]
  refine ⟨a', ?_, ?_, fun i node hnode j hj => ?_, ?_, ?_⟩
  · rw [Arena.addChild, hchange, h.size]
    rfl
  · rw [hsize, Array.size_push, h.size]
    rfl
  · have hi : i < a'.nodes.size := (Array.getElem?_eq_some_iff.1 hnode).1
    rw [hsize, Array.size_push, h.size] at hi
    rcases Nat.lt_succ_iff_lt_or_eq.1 hi with hi | rfl
    · rw [← h.size] at hi
      rw [hold i _ (Array.getElem?_eq_getElem hi), Option.some.injEq] at hnode
      refine h.links i _ (Array.getElem?_eq_getElem hi) j ?_
      rw [← hj, ← hnode]
      split <;> rfl
    · rw [hnew, Option.some.injEq] at hnode
      subst hnode
      cases hj
      exact hp
  · rwa [hforest]
  · rw [hforest]
    refine Forest.nodup_ids_graft h.distinct (List.nodup_singleton _) fun i hi hmem => ?_
    rw [Forest.ids_leaves, List.length_singleton, List.mem_range'_1] at hmem
    exact absurd (h.lt_next i hi) (by omega)

/-- **A node that has been made gets another label.** -/
theorem setLabel (h : a.Shows t) (hn : n < t.next) (label : String) :
    ∃ a', a.setLabel n label = .ok a' ∧ a'.Shows (t.relabel n label) := by
  obtain ⟨a', hchange, hsize, hget⟩ := exists_change (a := a) (h.size.symm ▸ hn) fun node =>
    { node with label := label }
  have hold : ∀ (i : Nat) (node : Node), a.nodes[i]? = some node → a'.nodes[i]? =
      some (if i = n then { node with label := label } else node) := fun i node hnode => by
    rw [hget, hnode]
    rfl
  refine ⟨a', hchange, ?_, fun i node hnode j hj => ?_, ?_, ?_⟩
  · rw [hsize, h.size, Machine.next_relabel]
  · rw [hget, Option.map_eq_some_iff] at hnode
    obtain ⟨old, hold, rfl⟩ := hnode
    refine h.links i old hold j ?_
    rw [← hj]
    split <;> rfl
  · rw [Tree.forest_relabel]
    exact h.root.setLabel h.distinct_none hold
  · rw [Tree.forest_relabel, Forest.ids_relabel]
    exact h.distinct

/-- The root is a node without a parent, and what is below it in the tree is below it. -/
theorem exists_root (h : a.Shows t) : ∃ node, a.nodes[Tree.root]? = some node ∧
    node.label = t.label ∧ node.parent = none ∧
      a.Holds (some Tree.root) node.children t.children := by
  have hroot := h.root
  rw [Tree.forest] at hroot
  generalize hlabel : t.label = label at hroot
  cases hroot with
  | cons hnode hparent hkids _ => exact ⟨_, hnode, rfl, hparent, hkids⟩

/-- **A node that has been made is taken out,** if it is still in the tree. -/
theorem detach (h : a.Shows t) (hn : n < t.next) :
    ∃ a', a.detach n = .ok a' ∧ a'.Shows (t.drop n) := by
  rw [← h.size] at hn
  have hnode : a.nodes[n]? = some a.nodes[n] := Array.getElem?_eq_getElem hn
  obtain ⟨root, hrootnode, -, hrootless, -⟩ := h.exists_root
  have hat : a.node n = .ok a.nodes[n] := Checked.item_eq hnode
  cases hparent : a.nodes[n].parent with
  | none =>
    -- only the root and what has been taken out before have no parent
    have hsame : t.drop n = t := by
      by_cases hroot : n = Tree.root
      · rw [Tree.drop, if_pos hroot]
      · rw [Tree.drop, if_neg hroot, Forest.prune_of_not_mem]
        intro hmem
        have hforest : n ∈ t.forest.ids :=
          List.mem_cons_of_mem _ (List.mem_append_left _ hmem)
        obtain ⟨node, p, hnode', hp⟩ := h.root.exists_parent hforest (by simpa using hroot)
        rw [hnode, Option.some.injEq] at hnode'
        rw [← hnode', hparent] at hp
        cases hp
    refine ⟨a, ?_, hsame.symm ▸ h⟩
    rw [Arena.detach, hat, Checked.ok_bind, hparent]
    rfl
  | some p =>
    have hroot : n ≠ Tree.root := by
      rintro rfl
      rw [hnode, Option.some.injEq] at hrootnode
      rw [← hrootnode, hparent] at hrootless
      cases hrootless
    obtain ⟨a₁, hfreed, hsize₁, hget₁⟩ := exists_change hn fun node =>
      { node with parent := none }
    have hp : p < a₁.nodes.size := by
      have hlink := h.links n _ hnode p hparent
      omega
    obtain ⟨a₂, hlost, hsize₂, hget₂⟩ := exists_change hp fun q =>
      { q with children := q.children.filter (· ≠ n) }
    have hold : ∀ (i : Nat) (node : Node), a.nodes[i]? = some node → a₂.nodes[i]? =
        some { node with
          parent := if i = n then none else node.parent
          children := if i = p then node.children.filter (· ≠ n) else node.children } := by
      intro i node hi
      rw [hget₂, hget₁, hi, Option.map_some, Option.map_some]
      split <;> split <;> rfl
    have hforest : (t.drop n).forest = t.forest.prune n := t.forest_drop hroot
    refine ⟨a₂, ?_, ?_, fun i node hi j hj => ?_, ?_, ?_⟩
    · rw [Arena.detach, hat, Checked.ok_bind, hparent]
      dsimp only
      rw [hfreed, Checked.ok_bind, hlost]
    · rw [hsize₂, hsize₁, h.size, Tree.next_drop]
    · rw [hget₂, hget₁, Option.map_map, Option.map_eq_some_iff] at hi
      obtain ⟨old, hold, rfl⟩ := hi
      refine h.links i old hold j ?_
      dsimp only [Function.comp_apply] at hj
      split at hj <;> split at hj <;> first | exact hj | cases hj
    · rw [hforest]
      have hrow := h.root.detach h.distinct_none ⟨_, hnode, hparent⟩ hold
      rwa [if_neg (by simp)] at hrow
    · rw [hforest]
      exact h.distinct.sublist Forest.ids_prune_sublist

/-- **The tree is read off.** -/
theorem tree (h : a.Shows t) : a.tree = .ok t := by
  obtain ⟨root, hnode, hlabel, -, hkids⟩ := h.exists_root
  have hat : a.node Tree.root = .ok root := Checked.item_eq hnode
  rw [Arena.tree, hat, Checked.ok_bind, hkids.row_eq rfl h.links, hlabel, h.size]
  rfl

end Shows

end Arena

end OnePass.Derivation
