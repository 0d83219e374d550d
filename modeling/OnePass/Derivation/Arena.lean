import OnePass.Access
import OnePass.Derivation.Tree

/-!
# Trees kept in an array

The nodes of a growing tree stand in an array, in the order they are made. Each knows its
parent and its children by their numbers. A node that is taken out loses its parent, and its
parent loses it; it keeps what is below it, and its number. A number that no node has stops what
is being done.

* `Arena.addChild`, `Arena.setLabel`, `Arena.detach`: what changes the nodes.
* `Arena.tree`: the tree that is read off from the root on.
-/

namespace OnePass.Derivation

/-- A node, with its parent and its children by number. -/
structure Node where
  label : String
  parent : Option Nat
  children : List Nat
deriving DecidableEq

/-- The nodes that have been made. -/
structure Arena where
  nodes : Array Node
deriving DecidableEq

namespace Arena

/-- A root without children. -/
def ofLabel (label : String) : Arena := ⟨#[⟨label, none, []⟩]⟩

variable (a : Arena)

def node (n : Nat) : Checked Node := Checked.item a.nodes n (.node n)

def change (n : Nat) (f : Node → Node) : Checked Arena :=
  return ⟨← Checked.change a.nodes n f (.node n)⟩

/-- Makes a node, the last child of another. Its number is handed out. -/
def addChild (parent : Nat) (label : String) : Checked (Nat × Arena) := do
  let id := a.nodes.size
  let made : Arena := ⟨a.nodes.push ⟨label, some parent, []⟩⟩
  return (id, ← made.change parent fun p => { p with children := p.children ++ [id] })

def setLabel (n : Nat) (label : String) : Checked Arena :=
  a.change n fun node => { node with label := label }

/-- Takes a node out from under its parent, if it has one. -/
def detach (n : Nat) : Checked Arena := do
  match (← a.node n).parent with
  | none => return a
  | some parent =>
    let freed ← a.change n fun node => { node with parent := none }
    freed.change parent fun p => { p with children := p.children.filter (· ≠ n) }

/-- A row of siblings with all that is below them. A node stands behind its parent, or nothing is
read off. -/
def row (above : Nat) (siblings : List Nat) : Checked Forest :=
  match siblings with
  | [] => return .nil
  | n :: rest =>
    if hn : n < a.nodes.size then
      if above < n then do
        let children ← row n a.nodes[n].children
        return .cons n a.nodes[n].label children (← row above rest)
      else .error .standstill
    else .error (.node n)
termination_by (a.nodes.size - above, siblings.length)

/-- The tree from the root on. -/
def tree : Checked Tree := do
  let root ← a.node Tree.root
  return ⟨root.label, ← a.row Tree.root root.children, a.nodes.size⟩

end Arena

end OnePass.Derivation
