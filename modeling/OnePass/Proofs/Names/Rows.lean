import OnePass.Failure
import OnePass.Names.SymbolTable

/-!
# Rows of a symbol table

What each operation of the table does to the name, the scope and the meaning of a row,
and what it leaves of the scopes. Rows stay where they are.

* `meaning?_setMeaning`, `name?_setMeaning`, …: one lemma for each operation and field.
* `Scopes.At`: what a scope is and where it stands; neither changes.
* `rowFor_spec`, `record_cases`: a row is found, or appended.
-/

namespace OnePass.Names

open Lexical (Token TokenKind)

namespace Scopes

/-- What a scope stands for, and the scope around it. -/
def At (t : Scopes) (s : Nat) (region : Region) (parent : Option Nat) : Prop :=
  ∃ scope, t.all[s]? = some scope ∧ scope.region = region ∧ scope.parent = parent

variable {t : Scopes} {s : Nat} {region : Region} {parent : Option Nat}

theorem At.region? (h : t.At s region parent) : t.region? s = some region := by
  obtain ⟨scope, hs, rfl, -⟩ := h
  rw [Scopes.region?, hs]
  rfl

theorem At.enter (h : t.At s region parent) (r : Region) (firstRow : Nat) :
    (t.enter r firstRow).At s region parent := by
  obtain ⟨scope, hs, h⟩ := h
  have hlt := (Array.getElem?_eq_some_iff.1 hs).1
  refine ⟨scope, ?_, h⟩
  rw [Scopes.enter, Array.getElem?_push, if_neg (Nat.ne_of_lt hlt)]
  exact hs

theorem at_enter (t : Scopes) (r : Region) (firstRow : Nat) :
    (t.enter r firstRow).At (t.enter r firstRow).current r (some t.current) :=
  ⟨_, by rw [Scopes.enter, Array.getElem?_push, if_pos rfl], rfl, rfl⟩

theorem At.leave (h : t.At s region parent) (endRow : Nat) : (t.leave endRow).At s region parent := by
  obtain ⟨scope, hs, h⟩ := h
  unfold Scopes.leave
  split
  · rename_i current hc
    split
    · refine ⟨if t.current = s then { current with endRow := some endRow } else scope, ?_, ?_⟩
      · have hlt := (Array.getElem?_eq_some_iff.1 hs).1
        rw [Array.getElem?_setIfInBounds]
        split
        · rename_i heq
          rw [if_pos (heq ▸ hlt)]
        · exact hs
      · split
        · rename_i heq
          rw [heq, hs] at hc
          cases hc
          exact h
        · exact h
    · exact ⟨scope, hs, h⟩
  · exact ⟨scope, hs, h⟩

theorem current_leave (h : t.At t.current region (some s)) (endRow : Nat) :
    (t.leave endRow).current = s := by
  obtain ⟨scope, hs, -, hp⟩ := h
  simp [Scopes.leave, hs, hp]

/-- The outermost scope is open from the first row on. -/
def Rooted (t : Scopes) : Prop := t.all[outermost]? = some ⟨none, .program, 0, none⟩

theorem Rooted.at (h : t.Rooted) : t.At outermost .program none := ⟨_, h, rfl, rfl⟩

theorem Rooted.enter (h : t.Rooted) (r : Region) (firstRow : Nat) : (t.enter r firstRow).Rooted := by
  have hlt := (Array.getElem?_eq_some_iff.1 h).1
  rw [Rooted, Scopes.enter, Array.getElem?_push, if_neg (Nat.ne_of_lt hlt)]
  exact h

theorem Rooted.leave (h : t.Rooted) (endRow : Nat) : (t.leave endRow).Rooted := by
  unfold Scopes.leave
  split
  · rename_i current hc
    split
    · rename_i hp
      have hne : t.current ≠ outermost := by
        intro heq
        rw [heq, h] at hc
        cases hc
        cases hp
      rw [Rooted, Array.getElem?_setIfInBounds_ne hne]
      exact h
    · exact h
  · exact h

end Scopes

namespace SymbolTable

variable {t : SymbolTable} {row i : Nat} {name : String} {kind : TokenKind} {m : Meaning}

/-- The scope that owns a row. -/
def scope? (t : SymbolTable) (row : Nat) : Option Nat := t.rows[row]?.map (·.scope)

@[simp] theorem name?_setMeaning : (t.setMeaning row m).name? i = t.name? i := by
  simp only [name?, setMeaning, modifyRow, Array.getElem?_modify]
  split <;> simp [Function.comp_def]

@[simp] theorem scope?_setMeaning : (t.setMeaning row m).scope? i = t.scope? i := by
  simp only [scope?, setMeaning, modifyRow, Array.getElem?_modify]
  split <;> simp [Function.comp_def]

theorem meaning?_setMeaning : (t.setMeaning row m).meaning? i =
    if row = i then (t.meaning? i).map fun _ => m else t.meaning? i := by
  simp only [meaning?, setMeaning, modifyRow, Array.getElem?_modify]
  split <;> simp [Function.comp_def]

@[simp] theorem size_setMeaning : (t.setMeaning row m).rows.size = t.rows.size := by
  simp [setMeaning, modifyRow]

@[simp] theorem scopes_setMeaning : (t.setMeaning row m).scopes = t.scopes := rfl

@[simp] theorem meaning?_retire : (t.retire row).meaning? i = t.meaning? i := by
  simp only [meaning?, retire, modifyRow, Array.getElem?_modify]
  split
  · simp only [Option.map_map]
    congr 1
    funext r
    simp only [Function.comp_apply, Row.retire]
    split <;> rfl
  · rfl

@[simp] theorem scope?_retire : (t.retire row).scope? i = t.scope? i := by
  simp only [scope?, retire, modifyRow, Array.getElem?_modify]
  split
  · simp only [Option.map_map]
    congr 1
    funext r
    simp only [Function.comp_apply, Row.retire]
    split <;> rfl
  · rfl

theorem name?_retire_ne (h : row ≠ i) : (t.retire row).name? i = t.name? i := by
  simp only [name?, retire, modifyRow, Array.getElem?_modify, if_neg h]

@[simp] theorem size_retire : (t.retire row).rows.size = t.rows.size := by
  simp [retire, modifyRow]

@[simp] theorem scopes_retire : (t.retire row).scopes = t.scopes := rfl

theorem name?_appendRow : (t.appendRow name kind).2.name? i =
    if i = t.rows.size then some name else t.name? i := by
  simp only [name?, appendRow, Array.getElem?_push]
  split <;> rfl

theorem scope?_appendRow : (t.appendRow name kind).2.scope? i =
    if i = t.rows.size then some t.currentScope else t.scope? i := by
  simp only [scope?, appendRow, Array.getElem?_push]
  split <;> rfl

theorem meaning?_appendRow : (t.appendRow name kind).2.meaning? i =
    if i = t.rows.size then some .unused else t.meaning? i := by
  simp only [meaning?, appendRow, Array.getElem?_push]
  split <;> rfl

@[simp] theorem scopes_appendRow : (t.appendRow name kind).2.scopes = t.scopes := rfl

@[simp] theorem size_appendRow : (t.appendRow name kind).2.rows.size = t.rows.size + 1 := by
  simp [appendRow]

section Keywords

variable {keywords : List String}

/-- All reserved words are unused at first. -/
theorem meaning?_ofKeywords (h : (ofKeywords keywords).meaning? i = some m) : m = .unused := by
  unfold meaning? ofKeywords at h
  simp only [List.getElem?_toArray, List.getElem?_map, Option.map_map] at h
  obtain ⟨_, -, rfl⟩ := Option.map_eq_some_iff.1 h
  rfl

/-- There are no functions at first. -/
theorem function?_ofKeywords (keywords : List String) (row : Nat) :
    (ofKeywords keywords).function? row = none := by
  rw [function?]
  cases hm : (ofKeywords keywords).meaning? row with
  | none => rfl
  | some m =>
    rw [meaning?_ofKeywords hm]
    rfl

/-- No name has a cell at first. -/
theorem cell?_ofKeywords (keywords : List String) (row : Nat) :
    (ofKeywords keywords).cell? row = none := by
  rw [cell?]
  cases hm : (ofKeywords keywords).meaning? row with
  | none => rfl
  | some m =>
    rw [meaning?_ofKeywords hm]
    rfl

end Keywords

theorem name?_of_latestIn {scope : Nat} {withCell : Bool}
    (h : t.latestIn scope name withCell = some row) : t.name? row = some name := by
  have := List.find?_some h
  rw [carries, Bool.and_eq_true, beq_iff_eq] at this
  exact this.1

/-- **A row for a name** carries it; it is found, or appended with no meaning yet. -/
theorem rowFor_spec (t : SymbolTable) (name : String) (kind : TokenKind) (reuse : Meaning → Bool) :
    (t.rowFor name kind reuse).2.name? (t.rowFor name kind reuse).1 = some name ∧
      ((t.rowFor name kind reuse).2 = t ∧
          (t.meaning? (t.rowFor name kind reuse).1).any reuse = true ∨
        t.rowFor name kind reuse = t.appendRow name kind) := by
  have happend : (t.appendRow name kind).2.name? (t.appendRow name kind).1 = some name := by
    rw [name?_appendRow]
    exact if_pos rfl
  unfold rowFor
  split
  · rename_i row hrow
    split
    · rename_i hr
      exact ⟨name?_of_latestIn hrow, .inl ⟨rfl, hr⟩⟩
    · exact ⟨happend, .inr rfl⟩
  · exact ⟨happend, .inr rfl⟩

/-- A token that is recorded finds its row or gets one; a reserved word that has a row finds it. -/
theorem record_cases (t : SymbolTable) (token : Token) : t.record token = t ∨
    (t.record token = (t.appendRow token.lexeme token.kind).2 ∧
      (token.kind = .identifier ∨
        t.latestIn Scopes.outermost token.lexeme false = none)) := by
  unfold record
  split
  · rename_i hw
    unfold recordWord
    split
    · exact .inl rfl
    · rename_i hnone
      have hkind : token.kind = .identifier ∨
          t.latestIn Scopes.outermost token.lexeme false = none := by
        split at hnone
        · exact .inr hnone
        · rename_i hk
          unfold Token.isWord at hw
          cases hkind : token.kind <;> simp_all
      rcases (rowFor_spec t token.lexeme token.kind fun m => !m.isFunction).2 with ⟨h, -⟩ | h
      · exact .inl h
      · rw [h]
        exact .inr ⟨rfl, hkind⟩
  · exact .inl rfl

end SymbolTable

end OnePass.Names
