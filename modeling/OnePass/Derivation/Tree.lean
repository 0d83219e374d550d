/-!
# Labelled trees that grow

A tree grows by giving a node new children, and shrinks by dropping a node with all
that is below it. Nodes are numbered in the order they are made, from the root's 0; a
number is never given out twice, and one that is no longer in the tree names nothing.

A forest is a row of siblings: the first with its children, then the others.

* `Tree.addChildren`, `Tree.addChild`, `Tree.relabel`, `Tree.drop`: what changes a tree.
* `Tree.draw`: one line for every node, with guides that show its depth and parent.
-/

namespace OnePass.Derivation

/-- A row of numbered and labelled siblings, each with the row of its children. -/
inductive Forest where
  | nil
  | cons (id : Nat) (label : String) (children rest : Forest)
deriving DecidableEq, Inhabited

namespace Forest

/-- One row after another. -/
def append : Forest → Forest → Forest
  | nil, other => other
  | cons id label children rest, other => cons id label children (rest.append other)

/-- A row of childless siblings, numbered on from `next`. -/
def leaves (next : Nat) : List String → Forest
  | [] => nil
  | label :: labels => cons next label nil (leaves (next + 1) labels)

def isNil : Forest → Bool
  | nil => true
  | cons .. => false

/-- The numbers in the order the nodes are written. -/
def ids : Forest → List Nat
  | nil => []
  | cons id _ children rest => id :: (children.ids ++ rest.ids)

/-- Puts a row behind the children that node `target` has. -/
def graft (target : Nat) (row : Forest) : Forest → Forest
  | nil => nil
  | cons id label children rest =>
    if id = target then cons id label (children.append row) rest
    else cons id label (graft target row children) (graft target row rest)

/-- Gives node `target` another label. -/
def relabel (target : Nat) (newLabel : String) : Forest → Forest
  | nil => nil
  | cons id label children rest =>
    if id = target then cons id newLabel children rest
    else cons id label (relabel target newLabel children) (relabel target newLabel rest)

/-- Takes node `target` out, with all that is below it. -/
def prune (target : Nat) : Forest → Forest
  | nil => nil
  | cons id label children rest =>
    if id = target then rest
    else cons id label (prune target children) (prune target rest)

/-- The guide before a node: the last sibling's turns the corner. -/
def branch (last : Bool) : String := if last then "└── " else "├── "

/-- The guide before what is below a node: it goes on where siblings follow. -/
def trunk (last : Bool) : String := if last then "    " else "│   "

/-- The lines of a row, each behind the guides of the nodes above it. -/
def lines (guides : String) : Forest → List String
  | nil => []
  | cons _ label children rest =>
    (guides ++ branch rest.isNil ++ label)
      :: (lines (guides ++ trunk rest.isNil) children ++ lines guides rest)

end Forest

/-- A root, what is below it, and the number of the next node. -/
structure Tree where
  label : String
  children : Forest
  next : Nat
deriving DecidableEq, Inhabited

namespace Tree

/-- The number of the root. -/
def root : Nat := 0

/-- A root without children. -/
def ofLabel (label : String) : Tree := ⟨label, .nil, root + 1⟩

/-- Gives a node new children, behind those it has. They are numbered on from `next`, also if the
node is no longer part of the tree. -/
def addChildren (t : Tree) (parent : Nat) (labels : List String) : Tree :=
  let row := Forest.leaves t.next labels
  { t with
    children := if parent = root then t.children.append row else Forest.graft parent row t.children
    next := t.next + labels.length }

/-- Gives a node one new child, whose number is the tree's `next`. -/
def addChild (t : Tree) (parent : Nat) (label : String) : Tree := t.addChildren parent [label]

def relabel (t : Tree) (node : Nat) (label : String) : Tree :=
  if node = root then { t with label := label }
  else { t with children := t.children.relabel node label }

/-- Drops a node and all that is below it. The root stays. -/
def drop (t : Tree) (node : Nat) : Tree :=
  if node = root then t else { t with children := t.children.prune node }

/-- The root's label, then a line for every node below it. -/
def lines (t : Tree) : List String := t.label :: t.children.lines ""

/-- **The tree as text,** every line ended by a newline. -/
def draw (t : Tree) : String := String.join (t.lines.map (· ++ "\n"))

end Tree

end OnePass.Derivation
