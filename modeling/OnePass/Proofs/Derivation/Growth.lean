import OnePass.Proofs.Derivation.Along
import Mathlib.Data.List.Nodup

/-!
# The tree of a run

While a run goes on, the nodes of its goals are filled: the leaf of a terminal gets the
token's label, the node of a phrase gets a row of children. New nodes have new numbers,
so what is filled later stays clear of what stands already.

* `Forest.Parses`: the rows of trees that stand for a string of symbols.
* `Grown`, `grown_of_along`: what a run fills the nodes of its goals with.
* `parses_of_grown`: the row of a production's body is a row of trees for it.
-/

namespace OnePass.Derivation

open Grammar
open Lexical (Token)
open Mark (Spelled)

namespace Forest

/-- **A row of derivation trees** for a string of symbols, with the tokens at its leaves. The node of
a phrase has a row for the body of one of its productions below it, or a single leaf for a body
without grammar symbols; actions leave nothing. -/
inductive Parses : List Symbol → List Token → Forest → Prop
  | nil : Parses [] [] .nil
  | action {a : Action} {rest : List Symbol} {tokens : List Token} {row : Forest}
      (h : Parses rest tokens row) : Parses (.action a :: rest) tokens row
  | leaf (id : Nat) {tok : Token} {t : Terminal} (ht : Terminal.ofToken? tok = some t)
      {rest : List Symbol} {tokens : List Token} {row : Forest} (h : Parses rest tokens row) :
      Parses (.terminal t :: rest) (tok :: tokens) (.cons id tok.display .nil row)
  | phrase (id : Nat) {p : Production} (hp : p ∈ productions)
      (hs : p.body.all Symbol.isAction = false) {tokens : List Token} {children : Forest}
      (hc : Parses p.body tokens children) {rest : List Symbol} {others : List Token} {row : Forest}
      (h : Parses rest others row) :
      Parses (.nonterminal p.head :: rest) (tokens ++ others) (.cons id p.head.name children row)
  | empty (id child : Nat) {p : Production} (hp : p ∈ productions)
      (hs : p.body.all Symbol.isAction = true) {rest : List Symbol} {tokens : List Token}
      {row : Forest} (h : Parses rest tokens row) :
      Parses (.nonterminal p.head :: rest) tokens
        (.cons id p.head.name (.cons child emptyLabel .nil .nil) row)

/-- The labels of the childless nodes from left to right, without those of empty productions. -/
def frontier : Forest → List String
  | nil => []
  | cons _ label children rest =>
    (if !children.isNil then children.frontier
      else if label = emptyLabel then [] else [label]) ++ rest.frontier

theorem display_ne_emptyLabel (tok : Token) : tok.display ≠ emptyLabel := by
  intro h
  have h := congrArg String.toList h
  unfold Token.display emptyLabel at h
  split at h <;> simp [toString] at h

theorem Parses.isNil {symbols : List Symbol} {tokens : List Token} {row : Forest}
    (h : Parses symbols tokens row) : row.isNil = symbols.all Symbol.isAction := by
  induction h with
  | nil => rfl
  | action _ ih => exact ih
  | leaf _ _ _ _ => rfl
  | phrase _ _ _ _ _ _ _ => rfl
  | empty _ _ _ _ _ _ => rfl

/-- **The leaves of a derivation tree,** read from left to right, are its tokens. -/
theorem Parses.frontier {symbols : List Symbol} {tokens : List Token} {row : Forest}
    (h : Parses symbols tokens row) : row.frontier = tokens.map Token.display := by
  induction h with
  | nil => rfl
  | action _ ih => exact ih
  | @leaf _ tok _ _ _ _ _ _ ih =>
    simp [Forest.frontier, Forest.isNil, display_ne_emptyLabel, ih]
  | phrase _ _ hs hc _ ihc ih =>
    simp [Forest.frontier, hc.isNil, hs, ihc, ih]
  | empty _ _ _ _ _ ih => simp [Forest.frontier, Forest.isNil, ih]

variable {f s r : Forest} {n t i : Nat}

theorem ids_append (f s : Forest) : (f.append s).ids = f.ids ++ s.ids := by
  induction f with
  | nil => rfl
  | cons id label children rest _ ih => simp [append, ids, ih]

theorem ids_leaves (next : Nat) (labels : List String) :
    (leaves next labels).ids = List.range' next labels.length := by
  induction labels generalizing next with
  | nil => rfl
  | cons label labels ih => simp [leaves, ids, ih, List.range'_succ]

theorem graft_of_not_mem (h : t ∉ f.ids) : graft t r f = f := by
  induction f with
  | nil => rfl
  | cons id label children rest ihc ih =>
    simp only [ids, List.mem_cons, List.mem_append, not_or] at h
    rw [graft, if_neg (Ne.symm h.1), ihc h.2.1, ih h.2.2]

theorem relabel_of_not_mem {label : String} (h : t ∉ f.ids) : relabel t label f = f := by
  induction f with
  | nil => rfl
  | cons id _ children rest ihc ih =>
    simp only [ids, List.mem_cons, List.mem_append, not_or] at h
    rw [relabel, if_neg (Ne.symm h.1), ihc h.2.1, ih h.2.2]

theorem prune_of_not_mem (h : t ∉ f.ids) : prune t f = f := by
  induction f with
  | nil => rfl
  | cons id label children rest ihc ih =>
    simp only [ids, List.mem_cons, List.mem_append, not_or] at h
    rw [prune, if_neg (Ne.symm h.1), ihc h.2.1, ih h.2.2]

theorem graft_append (h : t ∉ f.ids) : graft t r (f.append s) = f.append (graft t r s) := by
  induction f with
  | nil => rfl
  | cons id label children rest _ ih =>
    simp only [ids, List.mem_cons, List.mem_append, not_or] at h
    rw [append, graft, if_neg (Ne.symm h.1), graft_of_not_mem h.2.1, ih h.2.2, append]

theorem append_nil (f : Forest) : f.append .nil = f := by
  induction f with
  | nil => rfl
  | cons id label children rest _ ih => rw [append, ih]

theorem append_assoc (f r s : Forest) : (f.append r).append s = f.append (r.append s) := by
  induction f with
  | nil => rfl
  | cons id label children rest _ ih => rw [append, append, append, ih]

theorem graft_nil (p : Nat) (f : Forest) : graft p .nil f = f := by
  induction f with
  | nil => rfl
  | cons id label children rest ihc ih => rw [graft, append_nil, ihc, ih, ite_self]

/-- Two rows that are grafted in turn are grafted as one. -/
theorem graft_graft (p : Nat) (r s f : Forest) :
    graft p s (graft p r f) = graft p (r.append s) f := by
  induction f with
  | nil => rfl
  | cons id label children rest ihc ih =>
    by_cases hid : id = p
    · rw [graft, if_pos hid, graft, if_pos hid, graft, if_pos hid, append_assoc]
    · rw [graft, if_neg hid, graft, if_neg hid, graft, if_neg hid, ihc, ih]

theorem relabel_append {label : String} (h : t ∉ f.ids) :
    relabel t label (f.append s) = f.append (relabel t label s) := by
  induction f with
  | nil => rfl
  | cons id _ children rest _ ih =>
    simp only [ids, List.mem_cons, List.mem_append, not_or] at h
    rw [append, relabel, if_neg (Ne.symm h.1), relabel_of_not_mem h.2.1, ih h.2.2, append]

theorem mem_ids_graft (h : i ∈ (graft n s f).ids) : i ∈ f.ids ∨ i ∈ s.ids := by
  induction f with
  | nil => exact .inl h
  | cons id label children rest ihc ih =>
    unfold graft at h
    split at h
    · simp only [ids, ids_append, List.mem_cons, List.mem_append] at h ⊢
      tauto
    · simp only [ids, List.mem_cons, List.mem_append] at h ⊢
      rcases h with h | h | h
      · exact .inl (.inl h)
      · exact (ihc h).imp_left fun h => .inr (.inl h)
      · exact (ih h).imp_left fun h => .inr (.inr h)

/-- A pruned forest has no other nodes. -/
theorem mem_ids_prune (h : i ∈ (prune n f).ids) : i ∈ f.ids := by
  induction f with
  | nil => exact h
  | cons id label children rest ihc ih =>
    rw [prune] at h
    split at h
    · exact List.mem_cons_of_mem _ (List.mem_append_right _ h)
    · rcases List.mem_cons.1 h with h | h
      · exact h ▸ List.mem_cons_self
      · refine List.mem_cons_of_mem _ (List.mem_append.2 ?_)
        exact (List.mem_append.1 h).imp ihc ih

theorem ids_relabel (label : String) : (relabel n label f).ids = f.ids := by
  induction f with
  | nil => rfl
  | cons id _ children rest ihc ih =>
    unfold relabel
    split
    · rfl
    · simp only [ids, ihc, ih]

/-- A row that is grafted comes in once, as its place is there only once. -/
theorem nodup_ids_graft (hf : f.ids.Nodup) (hs : s.ids.Nodup) (hfs : f.ids.Disjoint s.ids) :
    (graft n s f).ids.Nodup := by
  induction f with
  | nil => exact hf
  | cons id label children rest ihc ih =>
    simp only [ids, List.nodup_cons, List.nodup_append', List.disjoint_cons_left,
      List.disjoint_append_left, List.mem_append, not_or] at hf hfs
    obtain ⟨⟨hidc, hidr⟩, hc, hr, hcr⟩ := hf
    obtain ⟨hids, hcs, hrs⟩ := hfs
    unfold graft
    split
    · simp only [ids, ids_append, List.nodup_cons, List.nodup_append', List.disjoint_append_left,
        List.mem_append, not_or]
      exact ⟨⟨⟨hidc, hids⟩, hidr⟩, ⟨hc, hs, hcs⟩, hr, hcr, fun i hi his => hrs his hi⟩
    · have hid : ∀ g : Forest, id ∉ g.ids → id ∉ (graft n s g).ids := fun g hg h =>
        (mem_ids_graft h).elim hg hids
      simp only [ids, List.nodup_cons, List.nodup_append', List.mem_append, not_or]
      refine ⟨⟨hid _ hidc, hid _ hidr⟩, ihc hc hcs, ih hr hrs, ?_⟩
      by_cases hn : n ∈ children.ids
      · rw [graft_of_not_mem (f := rest) (hcr hn)]
        intro i hi hir
        exact (mem_ids_graft hi).elim (fun h => hcr h hir) fun h => hrs hir h
      · rw [graft_of_not_mem hn]
        intro i hi hir
        exact (mem_ids_graft hir).elim (fun h => hcr hi h) fun h => hcs hi h

theorem ids_prune_sublist : (prune n f).ids.Sublist f.ids := by
  induction f with
  | nil => exact .refl _
  | cons id label children rest ihc ih =>
    unfold prune
    split
    · exact (List.sublist_append_right _ _).cons _
    · exact (ihc.append ih).cons_cons _

end Forest

/-- What fills the node of a goal. -/
inductive Growth where
  | label (node : Nat) (text : String)
  | row (node : Nat) (children : Forest)

namespace Growth

def node : Growth → Nat
  | label node _ | row node _ => node

/-- The numbers of the nodes that come below. -/
def ids : Growth → List Nat
  | label _ _ => []
  | row _ children => children.ids

def apply (f : Forest) : Growth → Forest
  | label node text => f.relabel node text
  | row node children => Forest.graft node children f

variable {g : Growth} {f s : Forest} {n i : Nat}

theorem apply_of_not_mem (h : g.node ∉ f.ids) : g.apply f = f := by
  cases g with
  | label => exact Forest.relabel_of_not_mem h
  | row => exact Forest.graft_of_not_mem h

theorem apply_append (h : g.node ∉ f.ids) : g.apply (f.append s) = f.append (g.apply s) := by
  cases g with
  | label => exact Forest.relabel_append h
  | row => exact Forest.graft_append h

theorem apply_cons {id : Nat} {label : String} {children rest : Forest} (h : g.node ≠ id) :
    g.apply (.cons id label children rest) = .cons id label (g.apply children) (g.apply rest) := by
  cases g with
  | label => exact if_neg (Ne.symm h)
  | row => exact if_neg (Ne.symm h)

/-- What fills a new node fills it in the row that the node came with. -/
theorem apply_graft (hf : g.node ∉ f.ids) :
    g.apply (Forest.graft n s f) = Forest.graft n (g.apply s) f := by
  induction f with
  | nil => cases g <;> rfl
  | cons id label children rest ihc ih =>
    simp only [Forest.ids, List.mem_cons, List.mem_append, not_or] at hf
    unfold Forest.graft
    split
    · rw [apply_cons hf.1, apply_append hf.2.1, apply_of_not_mem hf.2.2]
    · rw [apply_cons hf.1, ihc hf.2.1, ih hf.2.2]

theorem mem_ids_apply (h : i ∈ (g.apply f).ids) : i ∈ f.ids ∨ i ∈ g.ids := by
  cases g with
  | label node text =>
    rw [apply, Forest.ids_relabel] at h
    exact .inl h
  | row node row => exact Forest.mem_ids_graft h

end Growth

/-- A row with nodes filled one after another. -/
def grow (gs : List Growth) (f : Forest) : Forest := gs.foldl Growth.apply f

section Grow

variable {gs : List Growth} {f s : Forest} {n i : Nat}

theorem grow_append (gs hs : List Growth) (f : Forest) : grow (gs ++ hs) f = grow hs (grow gs f) :=
  List.foldl_append

theorem grow_append_row (h : ∀ g ∈ gs, g.node ∉ f.ids) :
    grow gs (f.append s) = f.append (grow gs s) := by
  induction gs generalizing s with
  | nil => rfl
  | cons g gs ih =>
    rw [List.forall_mem_cons] at h
    exact (congrArg (grow gs) (Growth.apply_append h.1)).trans (ih h.2)

theorem grow_graft (hf : ∀ g ∈ gs, g.node ∉ f.ids) :
    grow gs (Forest.graft n s f) = Forest.graft n (grow gs s) f := by
  induction gs generalizing s with
  | nil => rfl
  | cons g gs ih =>
    rw [List.forall_mem_cons] at hf
    exact (congrArg (grow gs) (Growth.apply_graft hf.1)).trans (ih hf.2)

theorem mem_ids_grow (h : i ∈ (grow gs f).ids) : i ∈ f.ids ∨ ∃ g ∈ gs, i ∈ g.ids := by
  induction gs generalizing f with
  | nil => exact .inl h
  | cons g gs ih =>
    rcases ih h with h | ⟨g', hg, h⟩
    · exact (Growth.mem_ids_apply h).imp_right fun h => ⟨g, List.mem_cons_self, h⟩
    · exact .inr ⟨g', List.mem_cons_of_mem _ hg, h⟩

end Grow

/-- The row below the node of a production's head. -/
def NodeRow (body : List Symbol) (tokens : List Token) (row : Forest) : Prop :=
  if body.all Symbol.isAction then tokens = [] ∧ ∃ child, row = .cons child emptyLabel .nil .nil
  else row.Parses body tokens

/-- **What fills the nodes of goals,** with the tokens at the leaves. -/
inductive Grown : List Goal → List Token → List Growth → Prop
  | done {goals : List Goal} (h : symbolsOf goals = []) : Grown goals [] []
  | act {a : Action} {rest : List Goal} {tokens : List Token} {gs : List Growth}
      (h : Grown rest tokens gs) : Grown (.act a :: rest) tokens gs
  | leaf {t : Terminal} {tok : Token} (node : Nat) (ht : Terminal.ofToken? tok = some t)
      {rest : List Goal} {tokens : List Token} {gs : List Growth} (h : Grown rest tokens gs) :
      Grown (.leaf t node :: rest) (tok :: tokens) (.label node tok.display :: gs)
  | phrase {p : Production} (node : Nat) (hp : p ∈ productions) {tokens others : List Token}
      {row : Forest} {rest : List Goal} {gs : List Growth} (hr : NodeRow p.body tokens row)
      (h : Grown rest others gs) :
      Grown (.phrase p.head node :: rest) (tokens ++ others) (.row node row :: gs)

theorem Grown.of_phrase {n : Nonterminal} {node : Nat} {rest : List Goal} {tokens : List Token}
    {gs : List Growth} (h : Grown (.phrase n node :: rest) tokens gs) :
    ∃ p ∈ productions, p.head = n ∧ ∃ row ts others hs, NodeRow p.body ts row ∧
      Grown rest others hs ∧ tokens = ts ++ others ∧ gs = .row node row :: hs := by
  rcases h with h | _ | _ | @⟨p, _, hp, ts, others, row, _, hs, hr, h⟩
  · cases h
  · exact ⟨p, hp, rfl, row, ts, others, hs, hr, h, rfl, rfl⟩

theorem NodeRow.isNil {body : List Symbol} {tokens : List Token} {row : Forest}
    (h : NodeRow body tokens row) : row.isNil = false := by
  unfold NodeRow at h
  split at h
  · obtain ⟨-, child, rfl⟩ := h
    rfl
  · rename_i hs
    rw [h.isNil]
    simpa using hs

/-- The node of a production's head with the row below it. -/
theorem NodeRow.parses {p : Production} (hp : p ∈ productions) {tokens others : List Token}
    {row next : Forest} {rest : List Symbol} (id : Nat) (h : NodeRow p.body tokens row)
    (hn : next.Parses rest others) :
    Forest.Parses (.nonterminal p.head :: rest) (tokens ++ others)
      (.cons id p.head.name row next) := by
  unfold NodeRow at h
  split at h
  · rename_i hs
    obtain ⟨rfl, child, rfl⟩ := h
    exact .empty id child hp hs hn
  · rename_i hs
    exact .phrase id hp (by simpa using hs) h hn

/-- What fills goals that follow each other comes from both. -/
theorem Grown.of_append {a b : List Goal} {tokens : List Token} {gs : List Growth}
    (h : Grown (a ++ b) tokens gs) : ∃ ta tb ga gb, tokens = ta ++ tb ∧ gs = ga ++ gb ∧
      Grown a ta ga ∧ Grown b tb gb := by
  induction a generalizing tokens gs with
  | nil => exact ⟨[], tokens, [], gs, rfl, rfl, .done rfl, h⟩
  | cons goal a ih =>
    cases h with
    | done h =>
      rw [symbolsOf_append, List.append_eq_nil_iff] at h
      exact ⟨[], [], [], [], rfl, rfl, .done h.1, .done h.2⟩
    | act h =>
      obtain ⟨ta, tb, ga, gb, rfl, rfl, h1, h2⟩ := ih h
      exact ⟨ta, tb, ga, gb, rfl, rfl, .act h1, h2⟩
    | leaf node ht h =>
      obtain ⟨ta, tb, ga, gb, rfl, rfl, h1, h2⟩ := ih h
      exact ⟨_ :: ta, tb, _ :: ga, gb, rfl, rfl, .leaf node ht h1, h2⟩
    | phrase node hp hr h =>
      obtain ⟨ta, tb, ga, gb, rfl, rfl, h1, h2⟩ := ih h
      exact ⟨_ ++ ta, tb, _ :: ga, gb, (List.append_assoc _ _ _).symm, rfl, .phrase node hp hr h1, h2⟩

theorem Grown.node {goals : List Goal} {tokens : List Token} {gs : List Growth}
    (h : Grown goals tokens gs) : ∀ g ∈ gs, ∃ goal ∈ goals, goal.node? = some g.node := by
  induction h with
  | done => simp
  | act _ ih =>
    intro g hg
    obtain ⟨goal, hmem, h⟩ := ih g hg
    exact ⟨goal, List.mem_cons_of_mem _ hmem, h⟩
  | leaf node _ _ ih =>
    rw [List.forall_mem_cons]
    refine ⟨⟨_, List.mem_cons_self, rfl⟩, fun g hg => ?_⟩
    obtain ⟨goal, hmem, h⟩ := ih g hg
    exact ⟨goal, List.mem_cons_of_mem _ hmem, h⟩
  | phrase node _ _ _ ih =>
    rw [List.forall_mem_cons]
    refine ⟨⟨_, List.mem_cons_self, rfl⟩, fun g hg => ?_⟩
    obtain ⟨goal, hmem, h⟩ := ih g hg
    exact ⟨goal, List.mem_cons_of_mem _ hmem, h⟩

/-- The labels of the symbols that get a node. -/
def named (body : List Symbol) : List String :=
  (body.filter fun s => !s.isAction).map Symbol.name

theorem node_goalsOf {body : List Symbol} {k node : Nat} {goal : Goal} (h : goal ∈ goalsOf k body)
    (hn : goal.node? = some node) : k ≤ node ∧ node < k + (named body).length := by
  induction body generalizing k with
  | nil => simp [goalsOf] at h
  | cons s body ih =>
    cases s with
    | terminal t =>
      rcases List.mem_cons.1 h with rfl | h
      · cases hn
        simp [named, Symbol.isAction]
      · have := ih h
        simp only [named, Symbol.isAction, List.filter_cons, Bool.not_false, if_true, List.map_cons,
          List.length_cons] at this ⊢
        omega
    | nonterminal n =>
      rcases List.mem_cons.1 h with rfl | h
      · cases hn
        simp [named, Symbol.isAction]
      · have := ih h
        simp only [named, Symbol.isAction, List.filter_cons, Bool.not_false, if_true, List.map_cons,
          List.length_cons] at this ⊢
        omega
    | action a =>
      rcases List.mem_cons.1 h with rfl | h
      · cases hn
      · exact ih h

/-- What fills the goals of a body makes its leaves a row of trees. -/
theorem parses_of_grown {body : List Symbol} {k : Nat} {tokens : List Token} {gs : List Growth}
    (h : Grown (goalsOf k body) tokens gs)
    (hfresh : ∀ g ∈ gs, ∀ i ∈ g.ids, k + (named body).length ≤ i) :
    (grow gs (Forest.leaves k (named body))).Parses body tokens := by
  induction body generalizing k tokens gs with
  | nil =>
    cases h
    exact .nil
  | cons s body ih =>
    cases s with
    | terminal t =>
      rcases h with h | _ | @⟨_, tok, _, ht, _, toks, gs, h⟩ | _
      · cases h
      have hlen : k + 1 + (named body).length = k + (named (.terminal t :: body)).length := by
        simp [named, Symbol.isAction]
        omega
      have hrow : grow (.label k tok.display :: gs) (Forest.leaves k (named (.terminal t :: body))) =
          .cons k tok.display .nil (grow gs (Forest.leaves (k + 1) (named body))) := by
        refine Eq.trans ?_ (grow_append_row (f := .cons k tok.display .nil .nil) ?_)
        · exact congrArg (grow gs) (if_pos rfl)
        · intro g hg hmem
          obtain ⟨goal, hgoal, hnode⟩ := h.node g hg
          have := node_goalsOf hgoal hnode
          simp [Forest.ids] at hmem
          omega
      rw [hrow]
      refine .leaf k ht (ih h fun g hg i hi => ?_)
      rw [hlen]
      exact hfresh g (List.mem_cons_of_mem _ hg) i hi
    | nonterminal n =>
      rcases h with h | _ | _ | @⟨p, _, hp, tu, tv, row, _, gs, hr, h⟩
      · cases h
      have hlen : k + 1 + (named body).length = k + (named (.nonterminal p.head :: body)).length := by
        simp [named, Symbol.isAction]
        omega
      have hrow : grow (.row k row :: gs) (Forest.leaves k (named (.nonterminal p.head :: body))) =
          .cons k p.head.name row (grow gs (Forest.leaves (k + 1) (named body))) := by
        refine Eq.trans ?_ (grow_append_row (f := .cons k p.head.name row .nil) ?_)
        · exact congrArg (grow gs) (if_pos rfl)
        · intro g hg hmem
          obtain ⟨goal, hgoal, hnode⟩ := h.node g hg
          have h1 := node_goalsOf hgoal hnode
          rw [Forest.ids, List.mem_cons, Forest.ids, List.append_nil] at hmem
          rcases hmem with hmem | hmem
          · omega
          · have := hfresh _ List.mem_cons_self _ hmem
            omega
      have hrest := ih h fun g hg i hi => by
        rw [hlen]
        exact hfresh g (List.mem_cons_of_mem _ hg) i hi
      rw [hrow]
      exact hr.parses hp k hrest
    | action a =>
      rcases h with h | h | _ | _
      · cases h
      · exact .action (ih h hfresh)

/-- What fills the goals of a body makes the row below its head. -/
theorem nodeRow_of_grown {body : List Symbol} {k : Nat} {tokens : List Token} {gs : List Growth}
    (h : Grown (goalsOf k body) tokens gs)
    (hfresh : ∀ g ∈ gs, ∀ i ∈ g.ids, k + (labelsOf body).length ≤ i) :
    NodeRow body tokens (grow gs (Forest.leaves k (labelsOf body))) := by
  unfold NodeRow
  split
  · rename_i hs
    have hnil : tokens = [] ∧ gs = [] := by
      clear hfresh
      induction body generalizing k tokens gs with
      | nil =>
        cases h
        exact ⟨rfl, rfl⟩
      | cons s body ih =>
        rw [List.all_cons, Bool.and_eq_true] at hs
        cases s with
        | action a =>
          rcases h with h | h | _ | _
          · cases h
          · exact ih h hs.2
        | _ => cases hs.1
    obtain ⟨rfl, rfl⟩ := hnil
    refine ⟨rfl, k, ?_⟩
    rw [labelsOf, if_pos hs]
    rfl
  · rename_i hs
    rw [labelsOf, if_neg hs] at hfresh ⊢
    exact parses_of_grown h hfresh

/-- A tree as a row of one. -/
def Tree.forest (t : Tree) : Forest := .cons Tree.root t.label t.children .nil

theorem Tree.forest_addChildren (t : Tree) (node : Nat) (labels : List String) :
    (t.addChildren node labels).forest =
      Forest.graft node (Forest.leaves t.next labels) t.forest := by
  unfold Tree.addChildren Tree.forest
  dsimp only
  by_cases h : node = Tree.root
  · rw [Forest.graft, if_pos h.symm, if_pos h]
  · rw [Forest.graft, if_neg (Ne.symm h), if_neg h]
    rfl

theorem Tree.addChildren_nil (t : Tree) (parent : Nat) : t.addChildren parent [] = t := by
  unfold Tree.addChildren
  dsimp only
  rw [Forest.leaves, Forest.append_nil, Forest.graft_nil, ite_self]
  rfl

/-- Children that are given together may be given one after the other. -/
theorem Tree.addChildren_cons (t : Tree) (parent : Nat) (label : String) (labels : List String) :
    t.addChildren parent (label :: labels) =
      (t.addChild parent label).addChildren parent labels := by
  have hleaves : Forest.leaves t.next (label :: labels) =
      (Forest.leaves t.next [label]).append (Forest.leaves (t.next + 1) labels) := rfl
  have hnext : t.next + (label :: labels).length = t.next + 1 + labels.length := by
    rw [List.length_cons]
    omega
  unfold Tree.addChild Tree.addChildren
  rw [hleaves, hnext]
  by_cases hparent : parent = Tree.root
  · simp only [if_pos hparent, Forest.append_assoc, List.length_singleton]
  · simp only [if_neg hparent, Forest.graft_graft, List.length_singleton]

theorem Tree.forest_relabel (t : Tree) (node : Nat) (label : String) :
    (t.relabel node label).forest = t.forest.relabel node label := by
  unfold Tree.relabel Tree.forest
  by_cases h : node = Tree.root
  · rw [Forest.relabel, if_pos h.symm, if_pos h]
  · rw [Forest.relabel, if_neg (Ne.symm h), if_neg h]
    rfl

theorem Tree.forest_drop (t : Tree) {node : Nat} (h : node ≠ Tree.root) :
    (t.drop node).forest = t.forest.prune node := by
  unfold Tree.drop Tree.forest
  rw [if_neg h, Forest.prune, if_neg (Ne.symm h)]
  rfl

theorem Tree.next_drop (t : Tree) (node : Nat) : (t.drop node).next = t.next := by
  unfold Tree.drop
  split <;> rfl

theorem Tree.mem_ids_drop {t : Tree} {node i : Nat} (h : i ∈ (t.drop node).forest.ids) :
    i ∈ t.forest.ids := by
  unfold Tree.drop at h
  split at h
  · exact h
  · simp only [Tree.forest, Forest.ids, List.append_nil] at h ⊢
    exact (List.mem_cons.1 h).elim (fun heq => heq ▸ List.mem_cons_self) fun h =>
      List.mem_cons_of_mem _ (Forest.mem_ids_prune h)

namespace Machine

variable {table : Table} {m m' : Machine} {w : List Mark}

/-- **Numbers are given out in order:** all nodes of the tree and of the goals have one. -/
structure Numbered (m : Machine) : Prop where
  tree : ∀ i ∈ m.tree.forest.ids, i < m.tree.next
  goals : ∀ goal ∈ m.goals, ∀ node, goal.node? = some node → node < m.tree.next

theorem tree_advance : m.advance.tree = m.tree := by
  unfold Machine.advance
  split <;> rfl

theorem tree_shift (node : Nat) :
    (m.shift node).tree = m.tree.relabel node m.lookahead.display :=
  tree_advance

theorem next_relabel (t : Tree) (node : Nat) (label : String) :
    (t.relabel node label).next = t.next := by
  unfold Tree.relabel
  split <;> rfl

theorem Numbered.rest {goal : Goal} {rest : List Goal} (hm : m.Numbered)
    (hg : m.goals = goal :: rest) :
    ∀ g ∈ rest, ∀ node, g.node? = some node → node < m.tree.next :=
  fun g hmem => hm.goals g (by rw [hg]; exact List.mem_cons_of_mem _ hmem)

theorem Numbered.shift {goal : Goal} {rest : List Goal} {node : Nat} (hm : m.Numbered)
    (hg : m.goals = goal :: rest) : (Machine.shift { m with goals := rest } node).Numbered := by
  refine ⟨?_, ?_⟩
  · rw [tree_shift, Tree.forest_relabel, Forest.ids_relabel, next_relabel]
    exact hm.tree
  · rw [goals_shift, tree_shift, next_relabel]
    exact hm.rest hg

theorem Numbered.expand {n : Nonterminal} {node : Nat} {rest : List Goal} {body : List Symbol}
    (hm : m.Numbered) (hg : m.goals = .phrase n node :: rest) :
    (Machine.expand { m with goals := rest } node body).Numbered := by
  have hnext : (Machine.expand { m with goals := rest } node body).tree.next =
      m.tree.next + (labelsOf body).length := rfl
  refine ⟨fun i hi => ?_, fun goal hgoal i hi => ?_⟩
  · rw [hnext]
    rw [Machine.expand, Tree.forest_addChildren] at hi
    rcases Forest.mem_ids_graft hi with hi | hi
    · exact Nat.lt_add_right _ (hm.tree i hi)
    · rw [Forest.ids_leaves, List.mem_range'_1] at hi
      exact hi.2
  · rw [hnext]
    rcases List.mem_append.1 hgoal with hgoal | hgoal
    · have h1 := node_goalsOf hgoal hi
      have h2 : (named body).length ≤ (labelsOf body).length := by
        unfold labelsOf named
        split
        · rename_i hs
          rw [List.filter_eq_nil_iff.2 fun s hmem => by simp [List.all_eq_true.1 hs s hmem]]
          exact Nat.zero_le _
        · exact Nat.le_refl _
      exact Nat.lt_of_lt_of_le h1.2 (Nat.add_le_add_left h2 _)
    · exact Nat.lt_add_right _ (hm.rest hg goal hgoal i hi)

/-- **The tree of a run** is the tree before it, with the nodes of the goals filled. -/
theorem grown_of_along (htable : Grammar.table = .ok table) (hm : m.Orderly) (hn : m.Numbered)
    (h : Along table w m m') (hf : symbolsOf m'.goals = []) :
    ∃ tokens gs, Grown m.goals tokens gs ∧ m.pending = tokens ++ m'.pending ∧
      m'.tree.forest = grow gs m.tree.forest ∧ ∀ g ∈ gs, ∀ i ∈ g.ids, m.tree.next ≤ i := by
  induction h with
  | refl m => exact ⟨[], [], .done hf, rfl, rfl, by simp⟩
  | @act m m' w a rest g hg h _ ih =>
    obtain ⟨tokens, gs, h1, h2, h3, h4⟩ :=
      ih (hm.move (show Move table m _ from .act hg h)) ⟨hn.tree, hn.rest hg⟩ hf
    exact ⟨tokens, gs, by rw [hg]; exact .act h1, h2, h3, h4⟩
  | @shift m m' w t node rest hg h _ ih =>
    obtain ⟨tokens, gs, h1, h2, h3, h4⟩ :=
      ih (hm.move (show Move table m _ from .shift hg h)) (hn.shift hg) hf
    have hne : t ≠ .endMarker := hm.goals t node (by rw [hg]; exact List.mem_cons_self)
    have hp := pending_eq_cons (isEndOfInput_of_ofToken? h hne)
    have hm' : Orderly { m with goals := rest } := hm.of_goals fun u v hmem =>
      hm.goals u v (by rw [hg]; exact List.mem_cons_of_mem _ hmem)
    rw [pending_shift hm'] at h2
    rw [goals_shift] at h1
    rw [tree_shift, Tree.forest_relabel] at h3
    rw [tree_shift, next_relabel] at h4
    refine ⟨m.lookahead :: tokens, .label node m.lookahead.display :: gs, ?_, ?_, h3, ?_⟩
    · rw [hg]
      exact .leaf node h h1
    · rw [hp, List.cons_append, ← h2]
      exact congrArg (_ :: ·) (congrArg List.tail hp).symm
    · rw [List.forall_mem_cons]
      exact ⟨by simp [Growth.ids], h4⟩
  | @expand m m' w n node rest body hg h _ ih =>
    obtain ⟨tokens, gs, h1, h2, h3, h4⟩ :=
      ih (hm.move (show Move table m _ from .expand hg h)) (hn.expand hg) hf
    obtain ⟨tu, tv, gu, gv, rfl, rfl, hu, hv⟩ := h1.of_append
    obtain ⟨_, p, -, hp, rfl, rfl, -⟩ := lookaheads_of_predicted? htable h
    have hfresh : ∀ g ∈ gu, ∀ i ∈ g.ids, m.tree.next + (labelsOf p.body).length ≤ i :=
      fun g hg => h4 g (List.mem_append_left _ hg)
    have hnew : ∀ g ∈ gu, g.node ∉ m.tree.forest.ids := by
      intro g hg hmem
      obtain ⟨goal, hgoal, hnode⟩ := hu.node g hg
      exact absurd (hn.tree _ hmem) (Nat.not_lt.2 (node_goalsOf hgoal hnode).1)
    rw [expand, Tree.forest_addChildren, grow_append, grow_graft hnew] at h3
    refine ⟨tu ++ tv, .row node (grow gu (Forest.leaves m.tree.next (labelsOf p.body))) :: gv,
      ?_, h2, h3, ?_⟩
    · rw [hg]
      exact .phrase node hp (nodeRow_of_grown hu hfresh) hv
    · rw [List.forall_mem_cons]
      refine ⟨fun i hi => ?_, fun g hg i hi => ?_⟩
      · rcases mem_ids_grow hi with hi | ⟨g, hg, hi⟩
        · rw [Forest.ids_leaves, List.mem_range'_1] at hi
          exact hi.1
        · exact Nat.le_trans (Nat.le_add_right _ _) (hfresh g hg i hi)
      · exact Nat.le_trans (Nat.le_add_right _ _) (h4 g (List.mem_append_right _ hg) i hi)

end Machine

end OnePass.Derivation
