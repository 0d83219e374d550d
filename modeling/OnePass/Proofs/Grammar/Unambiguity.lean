import OnePass.Proofs.Grammar.LanguageTable
import OnePass.Proofs.Grammar.Trees
import OnePass.Proofs.Grammar.Words

/-!
# One derivation tree for each word

With the actions erased, a node of a derivation tree has a phrase, and what stands below it spells
the body of one of its productions. A string of terminals is a word of the grammar if and only if
there is such a tree for it. Where a table is built there are no two of them.

* `PlainRow`: rows of derivation trees without actions. `PlainRow.IsTree`: a tree of a whole text.
* `Row.plain`: actions and the choice of productions are forgotten. `exists_row_plain`: they can
  be put back, whatever the tree is.
* `exists_isTree_iff`: the words of a grammar are what its trees yield.
* `unambiguous_of_build`: **where a table is built, every word has one tree.**

The grammar may be any: phrases that are empty only through each other, that nothing derives or that
nothing reaches need no case of their own, as they stand in no tree, or in one that is like others.
-/

namespace OnePass

open Grammar (Terminal Nonterminal Production Row Derives Table)

/-- **A row of derivation trees,** each a terminal or a phrase with the row of its body below. -/
inductive PlainRow where
  | nil
  | leaf (t : Terminal) (rest : PlainRow)
  | node (n : Nonterminal) (children rest : PlainRow)
deriving DecidableEq

namespace PlainRow

/-- The symbols that the trees of a row stand for. -/
def symbols : PlainRow → List (Symbol Terminal Nonterminal)
  | nil => []
  | leaf t rest => .terminal t :: rest.symbols
  | node n _ rest => .nonterminal n :: rest.symbols

/-- The string of terminals that a row is a derivation of. -/
def yield : PlainRow → List Terminal
  | nil => []
  | leaf t rest => t :: rest.yield
  | node _ children rest => children.yield ++ rest.yield

/-- What stands below a node spells the body of one of its productions, the actions erased. -/
def Valid (rules : List Production) : PlainRow → Prop
  | nil => True
  | leaf _ rest => rest.Valid rules
  | node n children rest => (∃ p ∈ rules, p.head = n ∧ plain p.body = children.symbols) ∧
      children.Valid rules ∧ rest.Valid rules

/-- Each node asks the productions. -/
def decidableValid (rules : List Production) : (r : PlainRow) → Decidable (r.Valid rules)
  | nil => inferInstanceAs (Decidable True)
  | leaf _ rest => decidableValid rules rest
  | node n children rest =>
    have := decidableValid rules children
    have := decidableValid rules rest
    inferInstanceAs (Decidable ((∃ p ∈ rules, p.head = n ∧ plain p.body = children.symbols) ∧
      children.Valid rules ∧ rest.Valid rules))

instance (rules : List Production) (r : PlainRow) : Decidable (r.Valid rules) :=
  decidableValid rules r

/-- **A derivation tree of a string of terminals** from the start symbol: a row of one tree. -/
structure IsTree (rules : List Production) (start : Nonterminal) (w : List Terminal)
    (tree : PlainRow) : Prop where
  root : tree.symbols = [.nonterminal start]
  valid : tree.Valid rules
  yield : tree.yield = w

end PlainRow

variable {rules : List Production} {start : Nonterminal} {r : Row}

namespace Grammar.Row

/-- **A row without its actions,** and with the phrases only of the productions at its nodes. -/
def plain : Row → PlainRow
  | nil => .nil
  | leaf t rest => .leaf t rest.plain
  | act _ rest => rest.plain
  | node p children rest => .node p.head children.plain rest.plain

theorem symbols_plain (r : Row) : r.plain.symbols = OnePass.plain r.symbols := by
  induction r with
  | nil => rfl
  | leaf t rest ih => exact congrArg (List.cons _) ih
  | act a rest ih => exact ih
  | node p children rest _ ih => exact congrArg (List.cons _) ih

theorem yield_plain (r : Row) : r.plain.yield = r.yield := by
  induction r with
  | nil => rfl
  | leaf t rest ih => exact congrArg (List.cons t) ih
  | act a rest ih => exact ih
  | node p children rest ihc ih => exact congrArg₂ (· ++ ·) ihc ih

theorem Valid.plain (h : r.Valid rules) : r.plain.Valid rules := by
  induction r with
  | nil => trivial
  | leaf t rest ih => exact ih h
  | act a rest ih => exact ih h
  | node p children rest ihc ih =>
    obtain ⟨hp, hbody, hchildren, hrest⟩ := h
    refine ⟨⟨p, hp, rfl, ?_⟩, ihc hchildren, ih hrest⟩
    rw [symbols_plain, hbody]

end Grammar.Row

/-- Actions can be put in front of a row, and its plain row stays the same. -/
theorem exists_row_actions {front : List Grammar.Symbol} (hfront : ∀ s ∈ front, plain? s = none)
    (h : r.Valid rules) :
    ∃ s : Row, s.symbols = front ++ r.symbols ∧ s.Valid rules ∧ s.plain = r.plain := by
  induction front with
  | nil => exact ⟨r, rfl, h, rfl⟩
  | cons x front ih =>
    obtain ⟨hx, hfront⟩ := List.forall_mem_cons.1 hfront
    obtain ⟨s, hsymbols, hvalid, hplain⟩ := ih hfront
    cases x with
    | action a => exact ⟨.act a s, congrArg (List.cons _) hsymbols, hvalid, hplain⟩
    | terminal t => cases hx
    | nonterminal n => cases hx

/-- **The actions can be put back** into a row of trees, together with the productions. -/
theorem exists_row_plain {tree : PlainRow} (symbols : List Grammar.Symbol) (h : tree.Valid rules)
    (hsymbols : tree.symbols = plain symbols) :
    ∃ r : Row, r.symbols = symbols ∧ r.Valid rules ∧ r.plain = tree := by
  -- a tree is found behind the actions in front of its symbol, the row of its body from the body
  induction tree generalizing symbols with
  | nil =>
    have hfront : ∀ s ∈ symbols, plain? s = none := List.filterMap_eq_nil_iff.1 hsymbols.symm
    obtain ⟨r, hr, hvalid, hplain⟩ := exists_row_actions (r := .nil) hfront trivial
    exact ⟨r, hr.trans (List.append_nil _), hvalid, hplain⟩
  | leaf t rest ih =>
    obtain ⟨front, s, behind, rfl, hfront, hs, hbehind⟩ := List.filterMap_eq_cons_iff.1 hsymbols.symm
    obtain ⟨r, rfl, hvalid, rfl⟩ := ih _ h hbehind.symm
    cases s with
    | terminal u =>
      cases hs
      exact exists_row_actions (r := .leaf t r) hfront hvalid
    | nonterminal n => cases hs
    | action a => cases hs
  | node n children rest ihc ih =>
    obtain ⟨⟨p, hp, rfl, hbody⟩, hchildren, hrest⟩ := h
    obtain ⟨front, s, behind, rfl, hfront, hs, hbehind⟩ := List.filterMap_eq_cons_iff.1 hsymbols.symm
    obtain ⟨r, rfl, hvalid, rfl⟩ := ih _ hrest hbehind.symm
    obtain ⟨c, hc, hcvalid, rfl⟩ := ihc _ hchildren hbody.symm
    cases s with
    | nonterminal m =>
      cases hs
      exact exists_row_actions (r := .node p c r) hfront ⟨hp, hc, hcvalid, hvalid⟩
    | terminal u => cases hs
    | action a => cases hs

/-- **The words of a grammar** are what its derivation trees yield. -/
theorem exists_isTree_iff {w : List Terminal} : (∃ tree : PlainRow, tree.IsTree rules start w) ↔
    w ∈ (contextFree rules start).language := by
  rw [mem_language_iff]
  constructor
  · rintro ⟨tree, hroot, hvalid, rfl⟩
    obtain ⟨r, hr, hrvalid, rfl⟩ := exists_row_plain [.nonterminal start] hvalid hroot
    obtain ⟨u, hu, hyield⟩ := hrvalid.derives
    exact ⟨u, hr ▸ hu, hyield.trans r.yield_plain.symm⟩
  · rintro ⟨u, hu, rfl⟩
    obtain ⟨r, hr, hvalid, -, hyield⟩ := Grammar.exists_row hu
    refine ⟨r.plain, ?_, hvalid.plain, r.yield_plain.trans hyield⟩
    rw [r.symbols_plain, hr]
    rfl

/-- **Where a table is built, every word has one derivation tree,** whether actions are counted or
not, and no other string of terminals has one. The end marker may stand in it like any other
terminal. -/
theorem unambiguous_of_build {table : Table} (h : Table.build rules start = .ok table)
    (w : List Terminal) :
    (∀ tree other : PlainRow, tree.IsTree rules start w → other.IsTree rules start w →
      tree = other) ∧
    ((∃ tree : PlainRow, tree.IsTree rules start w) ↔ w ∈ (contextFree rules start).language) ∧
    ∀ r s : Row, r.symbols = [.nonterminal start] → s.symbols = [.nonterminal start] →
      r.Valid rules → s.Valid rules → r.yield = w → s.yield = w → r = s := by
  have hclosed : table.facts.Closed rules start :=
    (Grammar.build_eq_ok h).1 ▸ Grammar.Facts.closed_ofProductions rules start
  have hrows (r s : Row) (hr : r.symbols = [.nonterminal start])
      (hs : s.symbols = [.nonterminal start]) (hrvalid : r.Valid rules) (hsvalid : s.Valid rules)
      (hry : r.yield = w) (hsy : s.yield = w) : r = s := by
    refine Row.eq_of_yield h hrvalid hsvalid (hr.trans hs.symm) (hry.trans hsy.symm) ?_
    rw [hr]
    exact Grammar.followed_start hclosed
  refine ⟨fun tree other htree hother => ?_, exists_isTree_iff, hrows⟩
  obtain ⟨r, hr, hrvalid, rfl⟩ := exists_row_plain [.nonterminal start] htree.valid htree.root
  obtain ⟨s, hs, hsvalid, rfl⟩ := exists_row_plain [.nonterminal start] hother.valid hother.root
  rw [hrows r s hr hs hrvalid hsvalid (r.yield_plain.symm.trans htree.yield)
    (s.yield_plain.symm.trans hother.yield)]

/-- A name is printed, and there is one way to read it. -/
theorem unambiguous_print :
    let tree : PlainRow := .node .program (.node .statements (.node .statement
      (.node .simpleStatement (.node .printStatement (.leaf .kwPrint (.leaf .leftParen
        (.node .expression (.node .term (.node .factor
          (.node .atom (.leaf .identifier (.node .atomRest (.node .index .nil .nil) .nil))
            (.node .power .nil .nil)) (.node .termRest .nil .nil)) (.node .expressionRest .nil .nil))
          (.leaf .rightParen .nil)))) .nil) .nil)
      (.leaf .semicolon (.node .statements .nil .nil))) .nil) .nil
    tree.IsTree Grammar.productions Grammar.start
        [.kwPrint, .leftParen, .identifier, .rightParen, .semicolon] ∧
      ∀ other : PlainRow, other.IsTree Grammar.productions Grammar.start
        [.kwPrint, .leftParen, .identifier, .rightParen, .semicolon] → other = tree := by
  intro tree
  have htree : tree.IsTree Grammar.productions Grammar.start
      [.kwPrint, .leftParen, .identifier, .rightParen, .semicolon] :=
    ⟨rfl, by decide +kernel, rfl⟩
  exact ⟨htree, fun other hother =>
    (unambiguous_of_build Grammar.table_eq_ok _).1 other tree hother htree⟩

end OnePass
