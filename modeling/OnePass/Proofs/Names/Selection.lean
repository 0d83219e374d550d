import Mathlib.Data.List.Sort
import OnePass.Proofs.Names.Overloads

/-!
# The functions that a call may select

The rows that an open scope owns are those of the scope, the latest first. So the functions of a
name in it are known from what its rows stand for, and those that can be seen from a scope are
known from those in the scopes around it.

* `SymbolTable.pairwise_ownRows`: the rows of a scope, the latest first.
* `SymbolTable.mem_functionsIn`: the functions of a name in an open scope.
* `SymbolTable.functionsIn_eq`: **they are any list of the same rows,** the latest first.
* `SymbolTable.le_of_latestIn`: the latest row of a name in a scope.
-/

namespace OnePass.Names.SymbolTable

variable {t : SymbolTable} {s row i : Nat} {name : String}

/-- **The rows of a scope, the latest first.** -/
theorem pairwise_ownRows (t : SymbolTable) (s : Nat) : (t.ownRows s).Pairwise (· > ·) := by
  unfold ownRows
  split
  · exact .nil
  · exact (List.pairwise_reverse.2 List.pairwise_lt_range').filter _

theorem pairwise_functionsIn (t : SymbolTable) (s : Nat) (name : String) :
    (t.functionsIn s name).Pairwise (· > ·) :=
  (t.pairwise_ownRows s).filter _

/-- **The functions of a name in an open scope** are on the rows of the scope that carry the name. -/
theorem mem_functionsIn (h : t.Housed) (hs : t.Opened s) : i ∈ t.functionsIn s name ↔
    t.scope? i = some s ∧ t.name? i = some name ∧ (t.function? i).isSome := by
  simp only [functionsIn, List.mem_filter, carries, Bool.and_eq_true, Bool.not_false, Bool.true_or,
    and_true, beq_iff_eq]
  exact and_congr_left fun _ => ⟨scope?_of_mem_ownRows, h.mem_ownRows hs⟩

/-- **A list of these rows, the latest first,** is that of the functions. -/
theorem functionsIn_eq (h : t.Housed) (hs : t.Opened s) {l : List Nat} (hl : l.Pairwise (· > ·))
    (hmem : ∀ i, i ∈ l ↔ t.scope? i = some s ∧ t.name? i = some name ∧ (t.function? i).isSome) :
    t.functionsIn s name = l :=
  (t.pairwise_functionsIn s name).eq_of_mem_iff hl fun i => by rw [mem_functionsIn h hs, hmem]

/-- No row of the name in the scope comes behind the latest one. -/
theorem le_of_latestIn (h : t.Housed) (hs : t.Opened s) (hrow : t.latestIn s name false = some row)
    (hi : t.scope? i = some s) (hn : t.name? i = some name) : i ≤ row := by
  have hcarries : t.carries name false i = true := by
    rw [carries, hn]
    simp
  obtain ⟨-, before, behind, hsplit, hbefore⟩ := List.find?_eq_some_iff_append.1 hrow
  have hmem := h.mem_ownRows hs hi
  have hpair := t.pairwise_ownRows s
  rw [hsplit] at hmem hpair
  rcases List.mem_append.1 hmem with hmem | hmem
  · have hnot := hbefore i hmem
    rw [hcarries] at hnot
    cases hnot
  · rcases List.mem_cons.1 hmem with rfl | hmem
    · exact Nat.le_refl _
    · have hbehind := (List.pairwise_append.1 hpair).2.1
      exact Nat.le_of_lt ((List.pairwise_cons.1 hbehind).1 i hmem)

end OnePass.Names.SymbolTable
