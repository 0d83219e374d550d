import OnePass.Grammar.Symbol

/-!
# Sets of terminals

A set is kept as a number whose bits say which terminals belong to it, by their index.

* `mem_singleton`, `mem_union`, `not_mem_empty`: what the operations do to membership.
* `size`: how many terminals belong to a set. It grows with the set.
-/

namespace OnePass.Grammar

/-- The bit of each member's index is set. -/
structure TerminalSet where
  bits : Nat
deriving DecidableEq, Inhabited

namespace TerminalSet

def empty : TerminalSet := ⟨0⟩

def contains (s : TerminalSet) (t : Terminal) : Bool := s.bits.testBit t.index

instance : Membership Terminal TerminalSet := ⟨fun s t => s.contains t = true⟩

instance (t : Terminal) (s : TerminalSet) : Decidable (t ∈ s) :=
  inferInstanceAs (Decidable (s.contains t = true))

def singleton (t : Terminal) : TerminalSet := ⟨1 <<< t.index⟩

def union (a b : TerminalSet) : TerminalSet := ⟨a.bits ||| b.bits⟩

instance : Union TerminalSet := ⟨union⟩

def inter (a b : TerminalSet) : TerminalSet := ⟨a.bits &&& b.bits⟩

instance : Inter TerminalSet := ⟨inter⟩

/-- The set if the condition holds, else the empty set. -/
def onlyIf (condition : Bool) (s : TerminalSet) : TerminalSet := if condition then s else empty

/-- The members in order. -/
def toList (s : TerminalSet) : List Terminal := Terminal.all.filter s.contains

/-- How many terminals belong to the set. -/
def size (s : TerminalSet) : Nat := s.toList.length

theorem index_inj {a b : Terminal} : a.index = b.index ↔ a = b := by
  constructor
  · intro same
    have found := Terminal.get_all a
    rw [same, Terminal.get_all b] at found
    exact (Option.some.inj found).symm
  · exact congrArg _

theorem mem_def {t : Terminal} {s : TerminalSet} : t ∈ s ↔ s.contains t = true := Iff.rfl

@[simp] theorem not_mem_empty (t : Terminal) : ¬ t ∈ empty := by
  simp [mem_def, contains, empty]

@[simp] theorem mem_singleton {a b : Terminal} : a ∈ singleton b ↔ a = b := by
  rw [mem_def, contains, singleton, Nat.one_shiftLeft, Nat.testBit_two_pow, decide_eq_true_eq,
    index_inj]
  exact eq_comm

@[simp] theorem mem_union {t : Terminal} {a b : TerminalSet} : t ∈ a ∪ b ↔ t ∈ a ∨ t ∈ b := by
  simp [mem_def, contains, Union.union, union]

@[simp] theorem mem_inter {t : Terminal} {a b : TerminalSet} : t ∈ a ∩ b ↔ t ∈ a ∧ t ∈ b := by
  simp [mem_def, contains, Inter.inter, inter]

@[simp] theorem mem_onlyIf {t : Terminal} {c : Bool} {s : TerminalSet} :
    t ∈ s.onlyIf c ↔ c = true ∧ t ∈ s := by
  cases c <;> simp [onlyIf]

@[simp] theorem mem_toList {t : Terminal} {s : TerminalSet} : t ∈ s.toList ↔ t ∈ s := by
  have listed : t ∈ Terminal.all := List.mem_of_getElem? (Terminal.get_all t)
  simp [toList, mem_def, listed]

theorem size_le (s : TerminalSet) : s.size ≤ Terminal.all.length := List.length_filter_le ..

theorem size_le_of_subset {a b : TerminalSet} (h : ∀ t, t ∈ a → t ∈ b) : a.size ≤ b.size := by
  unfold size toList
  rw [← List.countP_eq_length_filter, ← List.countP_eq_length_filter]
  exact List.countP_mono_left fun t _ ht => h t ht

end TerminalSet

end OnePass.Grammar
