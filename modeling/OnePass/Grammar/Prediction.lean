import OnePass.Grammar.Facts

/-!
# Predicting productions

A production is predicted by the terminals its body can begin with and, if its body
can be empty, by those that can follow its head. Actions are empty and are passed over.

* `Table.build`: the predictions, refused if two productions of one head share a terminal.
* `Table.production?`, `Table.follows`: what a derivation asks of the table.
-/

namespace OnePass.Grammar

/-- The terminals on which a production of `head` is expanded. -/
structure Prediction where
  head : Nonterminal
  lookaheads : TerminalSet
deriving DecidableEq

/-- Two productions of one head that a terminal does not tell apart. -/
structure Conflict where
  head : Nonterminal
  terminal : Terminal
  previous : Nat
  index : Nat
deriving DecidableEq

def Conflict.message (c : Conflict) : String :=
  s!"grammar is not LL(1): {c.head.name} on '{c.terminal.lexeme}' "
    ++ s!"selects productions {c.previous} and {c.index}"

/-- The predictions of all productions, in their order, and what can follow their heads. -/
structure Table where
  predictions : List Prediction
  facts : Facts
deriving DecidableEq

namespace Table

/-- The first production of `head` that `t` predicts. -/
def predicted? (predictions : List Prediction) (head : Nonterminal) (t : Terminal) : Option Nat :=
  predictions.findIdx? fun p => p.head == head && p.lookaheads.contains t

/-- The first terminal of `p`, production number `index`, that an earlier production claims. -/
def clash? (earlier : List Prediction) (index : Nat) (p : Prediction) : Option Conflict :=
  p.lookaheads.toList.findSome? fun t =>
    (predicted? earlier p.head t).map fun previous => ⟨p.head, t, previous, index⟩

/-- The first production that clashes with one before it. -/
def firstClash? (predictions : List Prediction) : Option Conflict :=
  predictions.zipIdx.findSome? fun (p, index) => clash? (predictions.take index) index p

/-- **The table of a grammar,** or the first clash of two productions. -/
def build (productions : List Production) (start : Nonterminal) : Except Conflict Table :=
  let facts := Facts.ofProductions productions start
  let predictions := productions.map fun p => ⟨p.head, facts.lookaheads p.head p.body⟩
  match firstClash? predictions with
  | some clash => .error clash
  | none => .ok ⟨predictions, facts⟩

/-- The production that `head` is expanded by on a lookahead. -/
def production? (table : Table) (head : Nonterminal) (t : Terminal) : Option Nat :=
  predicted? table.predictions head t

/-- Whether a terminal can come right after a phrase. -/
def follows (table : Table) (head : Nonterminal) (t : Terminal) : Bool :=
  (table.facts.phrase head).follow.contains t

end Table

end OnePass.Grammar
