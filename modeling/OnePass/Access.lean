/-!
# Accesses that can go astray

Rows, scopes, nodes and productions are found by their number, and text by its place in
bytes. A number that leads nowhere stops what is being done, and so does a count that is taken
below zero, a list that is cut behind its end, or a loop that does not get on. Nothing stands in
for what is not there.

* `Access`: what went astray. `Checked`: a computation that stops there.
* `Checked.item`, `Checked.change`: the item of a number.
* `Checked.minus`, `Checked.splitOff`: a count taken down, and a list cut in two.
-/

namespace OnePass

/-- An access outside of its domain. -/
inductive Access where
  | row (index : Nat)
  | scope (index : Nat)
  | node (index : Nat)
  | production (index : Nat)
  /-- A place in the text that no character begins at. -/
  | text (offset : Nat)
  /-- A count that is taken below zero. -/
  | underflow
  /-- A list that is cut behind its end. -/
  | split (mark : Nat)
  /-- A loop that does not get on: a walk that goes up where it has to go down, or text that is
  not used up. -/
  | standstill
deriving DecidableEq

def Access.message : Access → String
  | .row index => s!"no row {index}"
  | .scope index => s!"no scope {index}"
  | .node index => s!"no node {index}"
  | .production index => s!"no production {index}"
  | .text offset => s!"no character begins at byte {offset}"
  | .underflow => "count below zero"
  | .split mark => s!"no item in front of {mark}"
  | .standstill => "no way on"

/-- **A computation whose accesses are checked.** -/
abbrev Checked := Except Access

namespace Checked

variable {α β : Type}

@[simp] theorem ok_bind (a : α) (f : α → Checked β) : (Except.ok a >>= f) = f a := rfl

/-- The item of a number. -/
def item (items : Array α) (index : Nat) (astray : Access) : Checked α :=
  match items[index]? with
  | some a => .ok a
  | none => .error astray

theorem item_eq {items : Array α} {index : Nat} {a : α} {astray : Access}
    (h : items[index]? = some a) : item items index astray = .ok a := by
  rw [item, h]

/-- The item of a number is changed. -/
def change (items : Array α) (index : Nat) (f : α → α) (astray : Access) : Checked (Array α) :=
  if index < items.size then .ok (items.modify index f) else .error astray

theorem change_eq {items : Array α} {index : Nat} {f : α → α} {astray : Access}
    (h : index < items.size) : change items index f astray = .ok (items.modify index f) :=
  if_pos h

/-- The first count less the second. -/
def minus (count less : Nat) : Checked Nat :=
  if less ≤ count then .ok (count - less) else .error .underflow

/-- The items in front of a mark, and those behind it. -/
def splitOff (items : List α) (mark : Nat) : Checked (List α × List α) :=
  if mark ≤ items.length then .ok (items.take mark, items.drop mark) else .error (.split mark)

end Checked

end OnePass
