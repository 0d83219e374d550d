import OnePass.Proofs.Grammar.Derives

/-!
# Derivation trees

A derivation tree has a production at each of its nodes, with a row of trees for the body
below it. Rows keep the actions of the bodies in their places, between the trees.

* `Row`, `Row.Valid`: rows of derivation trees over any list of productions.
* `Row.leaves`: the terminals and the actions of a row from left to right.
* `exists_row`: what is derived is read off a row.
* `Row.eq_of_yield`: where a table without clashes is built, a string of terminals has
  one derivation tree at most.
-/

namespace OnePass.Grammar

open Mark (classes)

/-- **A row of derivation trees,** with the actions between them. -/
inductive Row where
  | nil
  | leaf (t : Terminal) (rest : Row)
  | act (a : Action) (rest : Row)
  /-- A phrase, by the production that was used for it, with the row of its body below. -/
  | node (p : Production) (children rest : Row)

/-- What is met in a tree from left to right. -/
inductive Leaf where
  | terminal (t : Terminal)
  | action (a : Action)
deriving DecidableEq

namespace Row

/-- The symbols that the trees of a row stand for. -/
def symbols : Row → List Symbol
  | nil => []
  | leaf t rest => .terminal t :: rest.symbols
  | act a rest => .action a :: rest.symbols
  | node p _ rest => .nonterminal p.head :: rest.symbols

/-- Every node has a production of the grammar, and below it a row for the body. -/
def Valid (rules : List Production) : Row → Prop
  | nil => True
  | leaf _ rest => rest.Valid rules
  | act _ rest => rest.Valid rules
  | node p children rest =>
    p ∈ rules ∧ children.symbols = p.body ∧ children.Valid rules ∧ rest.Valid rules

/-- **The leaves of a row and the actions between them,** from left to right. -/
def leaves : Row → List Leaf
  | nil => []
  | leaf t rest => .terminal t :: rest.leaves
  | act a rest => .action a :: rest.leaves
  | node _ children rest => children.leaves ++ rest.leaves

/-- The string of terminals that a row is a derivation of. -/
def yield : Row → List Terminal
  | nil => []
  | leaf t rest => t :: rest.yield
  | act _ rest => rest.yield
  | node _ children rest => children.yield ++ rest.yield

/-- One row after another. -/
def append : Row → Row → Row
  | nil, other => other
  | leaf t rest, other => leaf t (rest.append other)
  | act a rest, other => act a (rest.append other)
  | node p children rest, other => node p children (rest.append other)

/-- How many nodes, leaves and actions there are. -/
def size : Row → Nat
  | nil => 0
  | leaf _ rest => rest.size + 1
  | act _ rest => rest.size + 1
  | node _ children rest => children.size + rest.size + 1

variable {rules : List Production} {r r' s s' : Row}

@[simp] theorem symbols_append (r s : Row) : (r.append s).symbols = r.symbols ++ s.symbols := by
  induction r with
  | nil => rfl
  | leaf t rest ih => exact congrArg (List.cons _) ih
  | act a rest ih => exact congrArg (List.cons _) ih
  | node p children rest _ ih => exact congrArg (List.cons _) ih

@[simp] theorem yield_append (r s : Row) : (r.append s).yield = r.yield ++ s.yield := by
  induction r with
  | nil => rfl
  | leaf t rest ih => exact congrArg (List.cons _) ih
  | act a rest ih => exact ih
  | node p children rest _ ih => simp only [append, yield, ih, List.append_assoc]

@[simp] theorem size_append (r s : Row) : (r.append s).size = r.size + s.size := by
  induction r with
  | nil => simp [append, size]
  | leaf t rest ih | act a rest ih =>
    simp only [append, size, ih]
    omega
  | node p children rest _ ih =>
    simp only [append, size, ih]
    omega

theorem Valid.append (hr : r.Valid rules) (hs : s.Valid rules) : (r.append s).Valid rules := by
  induction r with
  | nil => exact hs
  | leaf t rest ih => exact ih hr
  | act a rest ih => exact ih hr
  | node p children rest _ ih =>
    obtain ⟨hp, hbody, hchildren, hrest⟩ := hr
    exact ⟨hp, hbody, hchildren, ih hrest⟩

/-- Rows that stand for the same symbols can be taken off the front. -/
theorem append_inj (h : r.symbols = r'.symbols) (heq : r.append s = r'.append s') :
    r = r' ∧ s = s' := by
  induction r generalizing r' with
  | nil =>
    cases r' with
    | nil => exact ⟨rfl, heq⟩
    | leaf t rest => cases h
    | act a rest => cases h
    | node p children rest => cases h
  | leaf t rest ih =>
    cases r' with
    | leaf t' rest' =>
      simp only [symbols, List.cons.injEq] at h
      simp only [append, leaf.injEq] at heq
      obtain ⟨hrest, hs⟩ := ih h.2 heq.2
      exact ⟨by rw [heq.1, hrest], hs⟩
    | nil => cases h
    | act a rest => cases h
    | node p children rest => cases h
  | act a rest ih =>
    cases r' with
    | act a' rest' =>
      simp only [symbols, List.cons.injEq] at h
      simp only [append, act.injEq] at heq
      obtain ⟨hrest, hs⟩ := ih h.2 heq.2
      exact ⟨by rw [heq.1, hrest], hs⟩
    | nil => cases h
    | leaf t rest => cases h
    | node p children rest => cases h
  | node p children rest _ ih =>
    cases r' with
    | node p' children' rest' =>
      simp only [symbols, List.cons.injEq] at h
      simp only [append, node.injEq] at heq
      obtain ⟨hrest, hs⟩ := ih h.2 heq.2.2
      exact ⟨by rw [heq.1, heq.2.1, hrest], hs⟩
    | nil => cases h
    | leaf t rest => cases h
    | act a rest => cases h

/-- **A row is a derivation** of the terminals it yields. -/
theorem Valid.derives (h : r.Valid rules) :
    ∃ w, Derives rules r.symbols w ∧ classes w = r.yield := by
  induction r with
  | nil => exact ⟨[], .nil, rfl⟩
  | leaf t rest ih =>
    obtain ⟨w, hw, hy⟩ := ih h
    exact ⟨.read t "" :: w, .terminal "" hw, congrArg (List.cons t) hy⟩
  | act a rest ih =>
    obtain ⟨w, hw, hy⟩ := ih h
    exact ⟨.act a :: w, .action hw, hy⟩
  | node p children rest ihc ih =>
    obtain ⟨hp, hbody, hchildren, hrest⟩ := h
    obtain ⟨u, hu, hyu⟩ := ihc hchildren
    obtain ⟨w, hw, hy⟩ := ih hrest
    rw [hbody] at hu
    refine ⟨u ++ w, .phrase hp hu hw, ?_⟩
    rw [Mark.classes_append, hyu, hy]
    rfl

end Row

/-- A mark without the text that stands for its terminal. -/
def Mark.leaf : Mark → Leaf
  | read t _ => .terminal t
  | act a => .action a

variable {rules : List Production} {start : Nonterminal} {table : Table} {symbols : List Symbol}
  {w : List Mark} {r s : Row}

/-- **What is derived is read off a row** of derivation trees. -/
theorem exists_row (h : Derives rules symbols w) : ∃ r : Row, r.symbols = symbols ∧
    r.Valid rules ∧ r.leaves = w.map Mark.leaf ∧ r.yield = classes w := by
  induction h with
  | nil => exact ⟨.nil, rfl, trivial, rfl, rfl⟩
  | @terminal t x rest w _ ih =>
    obtain ⟨r, rfl, hv, hl, hy⟩ := ih
    exact ⟨.leaf t r, rfl, hv, congrArg (List.cons _) hl, congrArg (List.cons t) hy⟩
  | @action a rest w _ ih =>
    obtain ⟨r, rfl, hv, hl, hy⟩ := ih
    exact ⟨.act a r, rfl, hv, congrArg (List.cons _) hl, hy⟩
  | @phrase p hp rest u w _ _ ihu ih =>
    obtain ⟨c, hc, hcv, hcl, hcy⟩ := ihu
    obtain ⟨r, rfl, hv, hl, hy⟩ := ih
    refine ⟨.node p c r, rfl, ⟨hp, hc, hcv, hv⟩, ?_, ?_⟩
    · rw [Row.leaves, hcl, hl, List.map_append]
    · rw [Row.yield, hcy, hy, Mark.classes_append]

/-- The terminal that a row goes on with is one that its first production is expanded on. -/
theorem lookahead_of_node {k : Facts} (hk : k.Closed rules start) {p : Production}
    {children rest : Row} (h : (Row.node p children rest).Valid rules)
    (hf : Followed rules k (Row.node p children rest).symbols) :
    (Row.node p children rest).yield.headD .endMarker ∈ k.lookaheads p.head p.body := by
  obtain ⟨-, hbody, hchildren, hrest⟩ := h
  obtain ⟨u, hu, hyu⟩ := hchildren.derives
  obtain ⟨v, hv, hyv⟩ := hrest.derives
  have hnext : (classes v).headD .endMarker ∈ (k.phrase p.head).follow :=
    hf [] p.head rest.symbols rfl v hv
  rw [hbody] at hu
  have hla := lookaheads_of_derives hk hu hnext
  rw [Row.yield, headD_append, ← hyu, ← hyv]
  exact hla

/-- **There is one derivation tree at most.** Where no two productions of a phrase share a
lookahead, the next terminal tells which production stands at the next node. -/
theorem Row.eq_of_yield (htable : Table.build rules start = .ok table) (hr : r.Valid rules)
    (hs : s.Valid rules) (hsymbols : r.symbols = s.symbols) (hyield : r.yield = s.yield)
    (hf : Followed rules table.facts r.symbols) : r = s := by
  have hclosed : table.facts.Closed rules start :=
    (build_eq_ok htable).1 ▸ Facts.closed_ofProductions rules start
  -- a node is opened in place: its row stands in front of the rest, and there is less of it
  induction hn : r.size using Nat.strongRecOn generalizing r s with
  | _ n ih =>
  subst hn
  cases r with
  | nil =>
    cases s with
    | nil => rfl
    | leaf t rest => cases hsymbols
    | act a rest => cases hsymbols
    | node p children rest => cases hsymbols
  | leaf t rest =>
    cases s with
    | leaf t' rest' =>
      simp only [symbols, List.cons.injEq] at hsymbols
      simp only [yield, List.cons.injEq] at hyield
      have hlt : rest.size < (leaf t rest).size := Nat.lt_succ_self _
      have hrest := ih _ hlt (r := rest) (s := rest') hr hs hsymbols.2 hyield.2 hf.tail rfl
      rw [hyield.1, hrest]
    | nil => cases hsymbols
    | act a rest => cases hsymbols
    | node p children rest => cases hsymbols
  | act a rest =>
    cases s with
    | act a' rest' =>
      simp only [symbols, List.cons.injEq, Symbol.action.injEq] at hsymbols
      have hlt : rest.size < (act a rest).size := Nat.lt_succ_self _
      have hrest := ih _ hlt (r := rest) (s := rest') hr hs hsymbols.2 hyield hf.tail rfl
      rw [hsymbols.1, hrest]
    | nil => cases hsymbols
    | leaf t rest => cases hsymbols
    | node p children rest => cases hsymbols
  | node p children rest =>
    cases s with
    | node p' children' rest' =>
      have hsame := hsymbols
      simp only [symbols, List.cons.injEq, Symbol.nonterminal.injEq] at hsame
      have hla := lookahead_of_node hclosed hr hf
      have hla' := lookahead_of_node hclosed hs (hsymbols ▸ hf)
      rw [← hyield] at hla'
      obtain ⟨i, hi, hpi⟩ := production?_of_mem htable hr.1 hla
      obtain ⟨j, hj, hpj⟩ := production?_of_mem htable hs.1 hla'
      rw [← hsame.1, hi, Option.some.injEq] at hj
      subst hj
      obtain rfl : p = p' := Option.some.inj (hpi.symm.trans hpj)
      obtain ⟨hp, hbody, hchildren, hrest⟩ := hr
      obtain ⟨-, hbody', hchildren', hrest'⟩ := hs
      have hopened : (children.append rest).symbols = p.body ++ rest.symbols := by
        rw [symbols_append, hbody]
      have hlt : (children.append rest).size < (node p children rest).size := by
        rw [size_append, size]
        omega
      have heq := ih (s := children'.append rest') _ hlt (hchildren.append hrest)
        (hchildren'.append hrest') (by rw [hopened, symbols_append, hbody', hsame.2])
        (by rw [yield_append, yield_append]; exact hyield)
        (by rw [hopened]; exact Followed.body hclosed hp hf) rfl
      obtain ⟨rfl, rfl⟩ := append_inj (hbody.trans hbody'.symm) heq
      rfl
    | nil => cases hsymbols
    | leaf t rest => cases hsymbols
    | act a rest => cases hsymbols

end OnePass.Grammar
