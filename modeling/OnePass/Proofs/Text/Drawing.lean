import OnePass.Proofs.Derivation.Awaiting
import OnePass.Proofs.Derivation.Unfailing
import OnePass.Proofs.Text.Lines
import Mathlib.Data.List.Nodup

/-!
# What the drawing of a tree tells

A tree is drawn with one line for each of its nodes. The guides before a label are blocks of four
characters, one for each node above: that the block of the node itself is a corner and the others
are not shows where its siblings go on, so that the tree is read off its drawing, whatever its
labels look like.

* `Tree.Built`: the trees that come about. `Tree.Built.sound`: their nodes are told apart.
* `Forest.drawn`: the lines of a drawing as data. `Tree.lines_eq`: their texts are the drawing.
* `Forest.eq_of_lines_eq`: a row is read off its lines.
* `Forest.places_prune`: what is taken out of a row leaves the other lines where they were.
* `Tree.draw_faithful`: **what a drawing tells,** and what dropping a node does to it.
-/

namespace OnePass.Derivation

namespace Forest

/-- The same row with its nodes not told apart. -/
def unnumbered : Forest → Forest
  | nil => nil
  | cons _ label children rest => cons 0 label children.unnumbered rest.unnumbered

/-- No label of the row has a newline. -/
def Plain : Forest → Prop
  | nil => True
  | cons _ label children rest => OneLine label ∧ children.Plain ∧ rest.Plain

/-- The numbers of a node and of all that is below it. -/
def subtree (target : Nat) : Forest → List Nat
  | nil => []
  | cons id _ children rest =>
    if id = target then id :: children.ids else subtree target children ++ subtree target rest

variable {f s r : Forest} {n i : Nat} {label guides : String}

section Changes

theorem plain_append (hf : f.Plain) (hs : s.Plain) : (f.append s).Plain := by
  induction f with
  | nil => exact hs
  | cons id label children rest _ ih => exact ⟨hf.1, hf.2.1, ih hf.2.2⟩

theorem plain_graft (hf : f.Plain) (hs : s.Plain) : (graft n s f).Plain := by
  induction f with
  | nil => exact hf
  | cons id label children rest ihc ih =>
    unfold graft
    split
    · exact ⟨hf.1, plain_append hf.2.1 hs, hf.2.2⟩
    · exact ⟨hf.1, ihc hf.2.1, ih hf.2.2⟩

theorem plain_relabel (hf : f.Plain) (hlabel : OneLine label) : (relabel n label f).Plain := by
  induction f with
  | nil => exact hf
  | cons id _ children rest ihc ih =>
    unfold relabel
    split
    · exact ⟨hlabel, hf.2⟩
    · exact ⟨hf.1, ihc hf.2.1, ih hf.2.2⟩

theorem plain_prune (hf : f.Plain) : (prune n f).Plain := by
  induction f with
  | nil => exact hf
  | cons id label children rest ihc ih =>
    unfold prune
    split
    · exact hf.2.2
    · exact ⟨hf.1, ihc hf.2.1, ih hf.2.2⟩

end Changes

section Reading

/-- The guides of a node and those of what is below it are told apart. -/
theorem branch_ne_trunk (last last' : Bool) : (branch last).toList ≠ (trunk last').toList := by
  cases last <;> cases last' <;> decide

theorem branch_injective {last last' : Bool} (h : (branch last).toList = (branch last').toList) :
    last = last' := by
  revert h
  cases last <;> cases last' <;> decide

theorem length_branch (last : Bool) : (branch last).toList.length = 4 := by cases last <;> decide

theorem length_trunk (last : Bool) : (trunk last).toList.length = 4 := by cases last <;> decide

/-- Every line of a row is behind the guides of the row. -/
theorem isPrefix_of_mem_lines {line : String} (h : line ∈ f.lines guides) :
    guides.toList <+: line.toList := by
  induction f generalizing guides with
  | nil => exact absurd h List.not_mem_nil
  | cons id label children rest ihc ih =>
    rcases List.mem_cons.1 h with rfl | h
    · rw [String.toList_append, String.toList_append, List.append_assoc]
      exact List.prefix_append _ _
    · rcases List.mem_append.1 h with h | h
      · have h := ihc h
        rw [String.toList_append] at h
        exact (List.prefix_append _ _).trans h
      · exact ih h

/-- The first line of a row does not look like a line below a sibling. -/
theorem not_isPrefix_head {last : Bool} {line : String} (h : line ∈ (f.lines guides).head?) :
    ¬ (guides ++ trunk last).toList <+: line.toList := by
  cases f with
  | nil => cases h
  | cons id label children rest =>
    obtain rfl := Option.some.inj h
    intro hp
    rw [String.toList_append, String.toList_append, String.toList_append, List.append_assoc,
      List.prefix_append_right_inj] at hp
    refine branch_ne_trunk rest.isNil last ?_
    exact (List.prefix_of_prefix_length_le hp (List.prefix_append _ _)
      (by rw [length_branch, length_trunk])).eq_of_length
      (by rw [length_branch, length_trunk]) |>.symm

/-- **Where the lines below a node end** is seen: they are all behind its guides, and what comes
next is not. -/
theorem takeWhile_lines (last : Bool) :
    ((f.lines (guides ++ trunk last)) ++ s.lines guides).takeWhile
      (fun line => (guides ++ trunk last).toList.isPrefixOf line.toList) =
        f.lines (guides ++ trunk last) := by
  rw [List.takeWhile_append_of_pos fun line h =>
    List.isPrefixOf_iff_prefix.2 (isPrefix_of_mem_lines h)]
  cases hs : s.lines guides with
  | nil => rw [List.takeWhile_nil, List.append_nil]
  | cons line lines =>
    have hline : ¬ (guides ++ trunk last).toList <+: line.toList :=
      not_isPrefix_head (f := s) (by rw [hs]; rfl)
    rw [List.takeWhile_cons_of_neg (by rwa [List.isPrefixOf_iff_prefix]), List.append_nil]

/-- **A row is read off its lines,** up to the numbers of its nodes. -/
theorem eq_of_lines_eq (h : f.lines guides = s.lines guides) : f.unnumbered = s.unnumbered := by
  induction f generalizing s guides with
  | nil =>
    cases s with
    | nil => rfl
    | cons => cases h
  | cons id label children rest ihc ih =>
    cases s with
    | nil => cases h
    | cons id' label' children' rest' =>
      obtain ⟨hhead, htail⟩ := List.cons.inj h
      -- the first line tells whether siblings follow, and the label
      have hhead := congrArg String.toList hhead
      simp only [String.toList_append, List.append_assoc, List.append_cancel_left_eq] at hhead
      obtain ⟨hbranch, hlabel⟩ := List.append_inj hhead (by rw [length_branch, length_branch])
      have hlast := branch_injective hbranch
      rw [← hlast] at htail
      -- the lines below the first node are those behind its guides
      have hchildren : children.lines (guides ++ trunk rest.isNil) =
          children'.lines (guides ++ trunk rest.isNil) := by
        rw [← takeWhile_lines (f := children) (s := rest), htail, takeWhile_lines]
      have hrest : rest.lines guides = rest'.lines guides := by
        rw [hchildren] at htail
        exact List.append_cancel_left htail
      rw [unnumbered, unnumbered, ihc hchildren, ih hrest, String.toList_inj.1 hlabel]

end Reading

end Forest

/-- **A line of a drawing as data:** its node, its label, and for each node on the way down to it
whether that is the last of its siblings. -/
structure DrawnLine where
  node : Nat
  path : List Bool
  label : String
deriving DecidableEq

namespace DrawnLine

/-- The guides before a label. -/
def guides : List Bool → String
  | [] => ""
  | [last] => Forest.branch last
  | last :: next :: path => Forest.trunk last ++ guides (next :: path)

def text (l : DrawnLine) : String := guides l.path ++ l.label

/-- What stays of a line when its guides change: its node, how deep that is, and its label. -/
def place (l : DrawnLine) : Nat × Nat × String := (l.node, l.path.length, l.label)

theorem guides_append (above : List Bool) (last : Bool) :
    guides (above ++ [last]) = String.join (above.map Forest.trunk) ++ Forest.branch last := by
  induction above with
  | nil => simp [guides]
  | cons b above ih =>
    have hcons : guides (b :: (above ++ [last])) =
        Forest.trunk b ++ guides (above ++ [last]) := by cases above <;> rfl
    rw [List.cons_append, hcons, ih, List.map_cons, String.join_cons, String.append_assoc]

end DrawnLine

namespace Forest

/-- The lines of a row, below a path. -/
def drawn (above : List Bool) : Forest → List DrawnLine
  | nil => []
  | cons id label children rest =>
    ⟨id, above ++ [rest.isNil], label⟩ ::
      (drawn (above ++ [rest.isNil]) children ++ drawn above rest)

/-- The places of a row's lines, at a depth. -/
def places (depth : Nat) : Forest → List (Nat × Nat × String)
  | nil => []
  | cons id label children rest =>
    (id, depth, label) :: (places (depth + 1) children ++ places depth rest)

variable {f : Forest} {n i : Nat}

theorem lines_eq (above : List Bool) :
    f.lines (String.join (above.map trunk)) = (f.drawn above).map DrawnLine.text := by
  induction f generalizing above with
  | nil => rfl
  | cons id label children rest ihc ih =>
    have habove : String.join (above.map trunk) ++ trunk rest.isNil =
        String.join ((above ++ [rest.isNil]).map trunk) := by simp
    rw [lines, drawn, habove, ihc, ih, List.map_cons, List.map_append, DrawnLine.text,
      DrawnLine.guides_append]

theorem map_node_drawn (above : List Bool) : (f.drawn above).map DrawnLine.node = f.ids := by
  induction f generalizing above with
  | nil => rfl
  | cons id label children rest ihc ih => simp [drawn, ids, ihc, ih]

theorem map_place_drawn (above : List Bool) :
    (f.drawn above).map DrawnLine.place = f.places (above.length + 1) := by
  induction f generalizing above with
  | nil => rfl
  | cons id label children rest ihc ih => simp [drawn, places, DrawnLine.place, ihc, ih]

theorem map_fst_places (depth : Nat) : (f.places depth).map Prod.fst = f.ids := by
  induction f generalizing depth with
  | nil => rfl
  | cons id label children rest ihc ih => simp [places, ids, ihc, ih]

theorem subtree_subset : f.subtree n ⊆ f.ids := by
  induction f with
  | nil => exact fun i h => h
  | cons id label children rest ihc ih =>
    unfold subtree
    split
    · exact List.cons_subset_cons _ (List.subset_append_left _ _)
    · exact List.subset_cons_of_subset _ (List.append_subset.2
        ⟨fun i h => List.mem_append_left _ (ihc h), fun i h => List.mem_append_right _ (ih h)⟩)

theorem mem_ids_of_mem_places {p : Nat × Nat × String} {depth : Nat} (h : p ∈ f.places depth) :
    p.1 ∈ f.ids := by
  rw [← map_fst_places depth]
  exact List.mem_map_of_mem h

/-- What is left of a row's places depends on which of its own nodes go. -/
theorem filter_places_congr {gone others : List Nat} {depth : Nat}
    (h : ∀ i ∈ f.ids, i ∈ gone ↔ i ∈ others) :
    ((f.places depth).filter fun p => p.1 ∉ gone) =
      (f.places depth).filter fun p => p.1 ∉ others := by
  refine List.filter_congr fun p hp => ?_
  exact decide_eq_decide.2 (not_congr (h p.1 (mem_ids_of_mem_places hp)))

/-- **What is taken out of a row** leaves the places of all other nodes. -/
theorem places_prune (depth : Nat) (h : f.ids.Nodup) :
    (prune n f).places depth = (f.places depth).filter fun p => p.1 ∉ f.subtree n := by
  induction f generalizing depth with
  | nil => rfl
  | cons id label children rest ihc ih =>
    simp only [ids, List.nodup_cons, List.nodup_append', List.mem_append, not_or] at h
    obtain ⟨⟨hidc, hidr⟩, hc, hr, hcr⟩ := h
    by_cases hid : id = n
    · -- the node itself and all below it go, its siblings stay
      have hchildren : ((children.places (depth + 1)).filter
          fun p => p.1 ∉ id :: children.ids) = [] := by
        refine List.filter_eq_nil_iff.2 fun p hp => ?_
        simp [mem_ids_of_mem_places hp]
      have hrest : ((rest.places depth).filter fun p => p.1 ∉ id :: children.ids) =
          rest.places depth := by
        refine List.filter_eq_self.2 fun p hp => decide_eq_true fun hgone => ?_
        have hi := mem_ids_of_mem_places hp
        exact (List.mem_cons.1 hgone).elim (fun h => hidr (h ▸ hi)) fun h => hcr h hi
      rw [prune, if_pos hid, subtree, if_pos hid, places, List.filter_cons_of_neg (by simp),
        List.filter_append, hchildren, List.nil_append, hrest]
    · -- the subtree is below the node or among its siblings
      have hsub : id ∉ subtree n children ++ subtree n rest := fun hmem =>
        (List.mem_append.1 hmem).elim (fun h => hidc (subtree_subset h))
          fun h => hidr (subtree_subset h)
      have hchildren : ∀ i ∈ children.ids,
          i ∈ subtree n children ++ subtree n rest ↔ i ∈ subtree n children := fun i hi =>
        ⟨fun hmem => (List.mem_append.1 hmem).resolve_right fun h => hcr hi (subtree_subset h),
          List.mem_append_left _⟩
      have hrest : ∀ i ∈ rest.ids,
          i ∈ subtree n children ++ subtree n rest ↔ i ∈ subtree n rest := fun i hi =>
        ⟨fun hmem => (List.mem_append.1 hmem).resolve_left fun h => hcr (subtree_subset h) hi,
          List.mem_append_right _⟩
      rw [prune, if_neg hid, subtree, if_neg hid, places, places,
        List.filter_cons_of_pos (by simpa using hsub), List.filter_append,
        filter_places_congr hchildren, filter_places_congr hrest, ihc _ hc, ih _ hr]

/-- The lines of a plain row are not broken. -/
theorem oneLine_of_mem_lines {guides line : String} (hf : f.Plain) (hguides : OneLine guides)
    (h : line ∈ f.lines guides) : OneLine line := by
  induction f generalizing guides with
  | nil => exact absurd h List.not_mem_nil
  | cons id label children rest ihc ih =>
    have hbranch : ∀ last, OneLine (branch last) := by decide
    have htrunk : ∀ last, OneLine (trunk last) := by decide
    rcases List.mem_cons.1 h with rfl | h
    · exact oneLine_append.2 ⟨oneLine_append.2 ⟨hguides, hbranch _⟩, hf.1⟩
    · rcases List.mem_append.1 h with h | h
      · exact ihc hf.2.1 (oneLine_append.2 ⟨hguides, htrunk _⟩) h
      · exact ih hf.2.2 hguides h

end Forest

namespace Tree

/-- **The trees that come about:** a root, and whatever is then done to nodes that have been made.
All labels are of one line. -/
inductive Built : Tree → Prop
  | ofLabel {label : String} (hlabel : OneLine label) : Built (ofLabel label)
  | addChild {t : Tree} (h : Built t) {parent : Nat} (hparent : parent < t.next) {label : String}
      (hlabel : OneLine label) : Built (t.addChild parent label)
  | relabel {t : Tree} (h : Built t) {node : Nat} (hnode : node < t.next) {label : String}
      (hlabel : OneLine label) : Built (t.relabel node label)
  | drop {t : Tree} (h : Built t) {node : Nat} (hnode : node < t.next) : Built (t.drop node)

/-- What all such trees have in common. -/
structure Sound (t : Tree) : Prop where
  plain : t.forest.Plain
  distinct : t.forest.ids.Nodup
  made : ∀ i ∈ t.forest.ids, i < t.next

variable {t t' : Tree} {n : Nat} {label : String}

theorem Sound.addChild (h : t.Sound) (parent : Nat) (hlabel : OneLine label) :
    (t.addChild parent label).Sound := by
  have hrow : (Forest.leaves t.next [label]).ids = [t.next] := rfl
  constructor
  · rw [Tree.addChild, forest_addChildren]
    exact Forest.plain_graft h.plain ⟨hlabel, trivial, trivial⟩
  · rw [Tree.addChild, forest_addChildren]
    refine Forest.nodup_ids_graft h.distinct (by simp [hrow]) fun i hi hmem => ?_
    rw [hrow, List.mem_singleton] at hmem
    exact absurd (h.made i hi) (by omega)
  · intro i hi
    rw [Tree.addChild, forest_addChildren] at hi
    have hnext : (t.addChild parent label).next = t.next + 1 := rfl
    rcases Forest.mem_ids_graft hi with hi | hi
    · have := h.made i hi
      omega
    · rw [hrow, List.mem_singleton] at hi
      omega

theorem Sound.relabel (h : t.Sound) (node : Nat) (hlabel : OneLine label) :
    (t.relabel node label).Sound := by
  constructor
  · rw [forest_relabel]
    exact Forest.plain_relabel h.plain hlabel
  · rw [forest_relabel, Forest.ids_relabel]
    exact h.distinct
  · rw [forest_relabel, Forest.ids_relabel, Machine.next_relabel]
    exact h.made

theorem Sound.drop (h : t.Sound) (node : Nat) : (t.drop node).Sound := by
  by_cases hnode : node = root
  · rwa [Tree.drop, if_pos hnode]
  constructor
  · rw [forest_drop t hnode]
    exact Forest.plain_prune h.plain
  · rw [forest_drop t hnode]
    exact h.distinct.sublist Forest.ids_prune_sublist
  · intro i hi
    rw [next_drop]
    exact h.made i (mem_ids_drop hi)

theorem Built.sound (h : t.Built) : t.Sound := by
  induction h with
  | ofLabel hlabel =>
    refine ⟨⟨hlabel, trivial, trivial⟩, List.nodup_singleton _, fun i hi => ?_⟩
    rw [List.mem_singleton.1 hi]
    exact Nat.zero_lt_one
  | addChild _ _ hlabel ih => exact ih.addChild _ hlabel
  | relabel _ _ hlabel ih => exact ih.relabel _ hlabel
  | drop _ _ ih => exact ih.drop _

/-- The lines of a tree's drawing: its root's, then those below it. -/
def drawn (t : Tree) : List DrawnLine := ⟨root, [], t.label⟩ :: t.children.drawn []

theorem lines_eq (t : Tree) : t.lines = t.drawn.map DrawnLine.text := by
  have hroot : DrawnLine.text ⟨root, [], t.label⟩ = t.label := by
    simp [DrawnLine.text, DrawnLine.guides]
  rw [lines, drawn, List.map_cons, hroot, ← Forest.lines_eq]
  rfl

theorem map_node_drawn (t : Tree) : t.drawn.map DrawnLine.node = t.forest.ids := by
  simp [drawn, forest, Forest.ids, Forest.map_node_drawn]

theorem map_place_drawn (t : Tree) : t.drawn.map DrawnLine.place = t.forest.places 0 := by
  simp [drawn, forest, Forest.places, DrawnLine.place, Forest.map_place_drawn]

theorem Sound.oneLine (h : t.Sound) : ∀ line ∈ t.lines, OneLine line := by
  intro line hline
  rcases List.mem_cons.1 hline with rfl | hline
  · exact h.plain.1
  · exact Forest.oneLine_of_mem_lines h.plain.2.1 (by decide) hline

theorem draw_eq (t : Tree) : t.draw = unlines t.lines := rfl

/-- **A tree is read off its drawing,** up to the numbers of its nodes. -/
theorem Sound.eq_of_draw_eq (h : t.Sound) (h' : t'.Sound) (heq : t.draw = t'.draw) :
    t.forest.unnumbered = t'.forest.unnumbered := by
  obtain ⟨hlabel, hlines⟩ := List.cons.inj (eq_of_unlines_eq h.oneLine h'.oneLine heq)
  simp only [forest, Forest.unnumbered, hlabel, Forest.eq_of_lines_eq hlines]

/-- **Dropping a node other than the root** takes the lines of its subtree out. Of the other lines
no more than the guides change. -/
theorem Sound.place_drop (h : t.Sound) (hn : n ≠ root) :
    (t.drop n).drawn.map DrawnLine.place =
      (t.drawn.filter fun l => l.node ∉ t.forest.subtree n).map DrawnLine.place := by
  have hmap : (t.drawn.filter fun l => l.node ∉ t.forest.subtree n).map DrawnLine.place =
      (t.drawn.map DrawnLine.place).filter fun p => p.1 ∉ t.forest.subtree n := by
    rw [List.filter_map]
    rfl
  rw [hmap, map_place_drawn, map_place_drawn, forest_drop t hn, Forest.places_prune 0 h.distinct]

/-- **What the drawing of a tree tells.** Trees that are drawn alike have the same shape and labels;
there is one line for each node that is there; dropping a node takes the lines of its subtree out,
and leaves of all other lines everything but the guides. The root is not dropped. -/
theorem draw_faithful (h : t.Built) (h' : t'.Built) :
    (t.draw = t'.draw → t.forest.unnumbered = t'.forest.unnumbered) ∧
      (textLines t.draw = t.drawn.map DrawnLine.text ++ [""] ∧
        t.drawn.map DrawnLine.node = t.forest.ids ∧ t.forest.ids.Nodup) ∧
      (∀ n < t.next, n ≠ root → (t.drop n).drawn.map DrawnLine.place =
        (t.drawn.filter fun l => l.node ∉ t.forest.subtree n).map DrawnLine.place) ∧
      t.drop root = t := by
  have hs := h.sound
  refine ⟨hs.eq_of_draw_eq h'.sound, ⟨?_, t.map_node_drawn, hs.distinct⟩,
    fun n _ hn => hs.place_drop hn, if_pos rfl⟩
  rw [draw_eq, textLines_unlines hs.oneLine, lines_eq]

/-- Two trees that came about differently and are drawn alike; in the first a sibling is gone. -/
theorem draw_faithful_dropped :
    let t := (((ofLabel "Program").addChild 0 "B").addChild 0 ";").drop 1
    let t' := (ofLabel "Program").addChild 0 ";"
    t.Built ∧ t'.Built ∧ t.draw = t'.draw ∧ t.draw = "Program\n└── ;\n" ∧
      t.forest.unnumbered = t'.forest.unnumbered := by
  have h : ((((ofLabel "Program").addChild 0 "B").addChild 0 ";").drop 1).Built :=
    .drop (.addChild (.addChild (.ofLabel (by decide)) (by decide) (by decide)) (by decide)
      (by decide)) (by decide)
  have h' : ((ofLabel "Program").addChild 0 ";").Built :=
    .addChild (.ofLabel (by decide)) (by decide) (by decide)
  exact ⟨h, h', by decide, by decide, (draw_faithful h h').1 (by decide)⟩

/-- The root's line stays when the root is dropped, though it is in the root's subtree. -/
theorem drop_root_keeps_line :
    let t := ofLabel "Program"
    t.Built ∧ root < t.next ∧ (t.drop root).draw = "Program\n" ∧
      (t.drop root).drawn.map DrawnLine.place ≠
        (t.drawn.filter fun l => l.node ∉ t.forest.subtree root).map DrawnLine.place :=
  ⟨.ofLabel (by decide), by decide, by decide, by decide⟩

end Tree

end OnePass.Derivation
