import OnePass.Proofs.Names.Usable

/-!
# Variables in sight

A variable is in sight if its row has a cell and belongs to the current scope or to one
around it. These are the rows that a name can be read from or assigned to.

* `Unmarked`, `SymbolTable.Lives`: names, and rows, that are not those of retired functions.
* `SymbolTable.Sees`: a variable in sight, with its cell. `exists_sees_of_resolve`.
* `SymbolTable.Fades`: what is in sight stays as it is or goes out of sight. `fades_appendRow`,
  `fades_enterScope`, `fades_leaveScope`, …: steps that do no more than that.
* `sees_setVariable`: what is in sight when a row is given a cell.
-/

namespace OnePass.Names

open Lexical (Token TokenKind)

/-- **A text that no retired name begins like.** -/
def Unmarked (name : String) : Prop := retiredMark.toList.isPrefixOf name.toList = false

theorem Row.isRetired_retire (r : Row) : r.retire.isRetired = true := by
  unfold Row.retire
  split
  · assumption
  · rw [Row.isRetired, String.toList_append, List.isPrefixOf_iff_prefix]
    exact List.prefix_append _ _

namespace Scopes

variable {t : Scopes} {s parent endRow : Nat} {region : Region}

theorem mem_enclosing_self (h : s < t.all.size) : s ∈ t.enclosing s := by
  rw [enclosing.eq_def, Array.getElem?_eq_getElem h]
  exact List.mem_cons_self

/-- Around a scope lies what lies around its parent. -/
theorem At.mem_enclosing (h : t.At s region (some parent)) (hn : t.Nested) {i : Nat}
    (hi : i ∈ t.enclosing parent) : i ∈ t.enclosing s := by
  obtain ⟨scope, hs, -, hp⟩ := h
  rw [enclosing.eq_def, hs]
  dsimp only
  rw [hp]
  dsimp only
  rw [if_pos (hn.parents s scope parent hs hp)]
  exact List.mem_cons_of_mem _ hi

theorem mem_of_mem_throughLoops {scopes : List Nat} {i : Nat} (h : i ∈ t.throughLoops scopes) :
    i ∈ scopes := by
  induction scopes with
  | nil => exact h
  | cons s rest ih =>
    rw [throughLoops] at h
    split at h
    · exact (List.mem_cons.1 h).elim (fun heq => heq ▸ List.mem_cons_self) fun h =>
        List.mem_cons_of_mem _ (ih h)
    · exact List.mem_singleton.1 h ▸ List.mem_cons_self

theorem At.lt (h : t.At s region (some parent)) (hn : t.Nested) : parent < s := by
  obtain ⟨scope, hs, -, hp⟩ := h
  exact hn.parents s scope parent hs hp

theorem At.lt_size {p : Option Nat} (h : t.At s region p) : s < t.all.size := by
  obtain ⟨scope, hs, -⟩ := h
  exact (Array.getElem?_eq_some_iff.1 hs).1

end Scopes

namespace SymbolTable

/-- A row whose name is not that of a retired function. -/
def Lives (t : SymbolTable) (row : Nat) : Prop := ∃ name, t.name? row = some name ∧ Unmarked name

/-- **A variable in sight,** with its cell. -/
def Sees (t : SymbolTable) (row a : Nat) : Prop :=
  t.cell? row = some a ∧ ∃ s, t.scope? row = some s ∧ s ∈ t.scopes.enclosing t.currentScope

variable {t t' t'' : SymbolTable} {row i a s : Nat} {name : String} {kind : TokenKind} {m : Meaning}
  {withCell : Bool} {reuse : Meaning → Bool}

theorem lt_of_cell? (h : t.cell? row = some a) : row < t.rows.size := by
  obtain ⟨m, hm, -⟩ := Option.bind_eq_some_iff.1 h
  exact lt_of_meaning? hm

theorem cell?_of_function? {f : FunctionInfo} (h : t.function? row = some f) :
    t.cell? row = none := by
  obtain ⟨m, hm, hf⟩ := Option.bind_eq_some_iff.1 h
  rw [cell?, hm]
  rcases m with cell | info | record
  · cases hf
  · rfl
  · rfl

theorem cell?_appendRow : (t.appendRow name kind).2.cell? i = t.cell? i := by
  rw [cell?, meaning?_appendRow, cell?]
  split
  · rename_i hi
    have hnone : t.meaning? i = none := by simp [meaning?, hi]
    rw [hnone]
    rfl
  · rfl

theorem cell?_setMeaning : (t.setMeaning row m).cell? i =
    if row = i then (t.meaning? i).bind fun _ => m.cell? else t.cell? i := by
  rw [cell?, meaning?_setMeaning]
  split
  · cases t.meaning? i <;> rfl
  · rfl

theorem cell?_retire : (t.retire row).cell? i = t.cell? i := by rw [cell?, meaning?_retire, cell?]

theorem lives_retire_ne (h : row ≠ i) : (t.retire row).Lives i ↔ t.Lives i := by
  rw [Lives, name?_retire_ne h, Lives]

/-- A retired row lives no more. -/
theorem not_lives_retire (t : SymbolTable) (row : Nat) : ¬(t.retire row).Lives row := by
  rintro ⟨name, hname, hu⟩
  rw [name?, retire, modifyRow, Array.getElem?_modify, if_pos rfl, Option.map_map] at hname
  obtain ⟨r, -, rfl⟩ := Option.map_eq_some_iff.1 hname
  rw [Unmarked] at hu
  change r.retire.isRetired = false at hu
  rw [Row.isRetired_retire] at hu
  cases hu

/-- Rows keep their names when one is appended. -/
theorem name?_appendRow_of_some {n : String} (h : t.name? i = some n) :
    (t.appendRow name kind).2.name? i = some n := by
  obtain ⟨r, hr, -⟩ := Option.map_eq_some_iff.1 h
  rw [name?_appendRow, if_neg (Nat.ne_of_lt (Array.getElem?_eq_some_iff.1 hr).1)]
  exact h

theorem name?_rowFor_of_some {n : String} (h : t.name? i = some n) :
    (t.rowFor name kind reuse).2.name? i = some n := by
  rcases (rowFor_spec t name kind reuse).2 with ⟨h', -⟩ | h'
  · rw [h']
    exact h
  · rw [h']
    exact name?_appendRow_of_some h

theorem name?_record_of_some {n : String} (h : t.name? i = some n) (token : Token) :
    (t.record token).name? i = some n := by
  rcases record_cases t token with h' | ⟨h', -⟩
  · rw [h']
    exact h
  · rw [h']
    exact name?_appendRow_of_some h

/-- A row that lives and stands for a function has lived before, if rows keep their names. -/
theorem lives_of_names {f : FunctionInfo} (hn : ∀ i n, t.name? i = some n → t'.name? i = some n)
    (hf : t.function? row = some f) (h : t'.Lives row) : t.Lives row := by
  obtain ⟨n, hname, hu⟩ := h
  obtain ⟨r, hr⟩ : ∃ r, t.rows[row]? = some r :=
    ⟨_, Array.getElem?_eq_getElem (lt_of_function? hf)⟩
  have hold : t.name? row = some r.name := by rw [name?, hr]; rfl
  obtain rfl : r.name = n := Option.some.inj ((hn row _ hold).symm.trans hname)
  exact ⟨r.name, hold, hu⟩

section Lookups

/-- A scope owns no row twice. -/
theorem nodup_ownRows (t : SymbolTable) (scope : Nat) : (t.ownRows scope).Nodup := by
  unfold ownRows
  split
  · exact List.nodup_nil
  · exact (List.nodup_reverse.2 List.nodup_range').filter _

theorem cell?_isSome_of_latestIn (h : t.latestIn s name true = some row) :
    (t.cell? row).isSome = true := by
  have hcarries := List.find?_some h
  rw [carries, Bool.and_eq_true] at hcarries
  exact hcarries.2

theorem scope?_of_latestIn (h : t.latestIn s name withCell = some row) : t.scope? row = some s :=
  scope?_of_mem_ownRows (List.mem_of_find?_eq_some h)

/-- **A name that is found stands for a variable in sight.** -/
theorem exists_sees_of_resolve
    (h : (t.resolve name t.currentScope true true).bind t.cell? = some a) :
    ∃ row, t.name? row = some name ∧ t.Sees row a := by
  obtain ⟨row, hrow, ha⟩ := Option.bind_eq_some_iff.1 h
  obtain ⟨s, hs, hlatest⟩ := List.exists_of_findSome?_eq_some hrow
  exact ⟨row, name?_of_latestIn hlatest, ha, s, scope?_of_latestIn hlatest, hs⟩

/-- So does one that is found in the function body or at the top level. -/
theorem exists_sees_of_sameBody
    (h : (t.scopes.sameBody t.currentScope).findSome?
      (fun s => (t.latestIn s name true).bind t.cell?) = some a) :
    ∃ row, t.name? row = some name ∧ t.Sees row a := by
  obtain ⟨s, hs, hfound⟩ := List.exists_of_findSome?_eq_some h
  obtain ⟨row, hlatest, ha⟩ := Option.bind_eq_some_iff.1 hfound
  exact ⟨row, name?_of_latestIn hlatest, ha, s, scope?_of_latestIn hlatest,
    Scopes.mem_of_mem_throughLoops hs⟩

/-- Where a name has no row with a cell, none of its rows has one. -/
theorem cell?_eq_none_of_latestIn (h : t.latestIn s name true = none) (hi : i ∈ t.ownRows s)
    (hn : t.name? i = some name) : t.cell? i = none := by
  have hcarries := List.find?_eq_none.1 h i hi
  rw [carries, hn] at hcarries
  simpa using hcarries

/-- A name that cannot be read has no row with a cell in the current scope. -/
theorem latestIn_of_resolve (hn : t.scopes.Nested)
    (h : (t.resolve name t.currentScope true true).bind t.cell? = none) :
    t.latestIn t.currentScope name true = none := by
  have hnone : t.resolve name t.currentScope true true = none := by
    cases hr : t.resolve name t.currentScope true true with
    | none => rfl
    | some row =>
      obtain ⟨s, -, hlatest⟩ := List.exists_of_findSome?_eq_some hr
      have hsome := cell?_isSome_of_latestIn hlatest
      rw [hr] at h
      change t.cell? row = none at h
      rw [h] at hsome
      cases hsome
  exact List.findSome?_eq_none_iff.1 hnone _ (Scopes.mem_enclosing_self hn.current)

/-- The row for a name that has no row with a cell has none either. -/
theorem cell?_rowFor (h : t.latestIn t.currentScope name true = none) :
    (t.rowFor name kind reuse).2.cell? (t.rowFor name kind reuse).1 = none := by
  have happend : (t.appendRow name kind).2.cell? (t.appendRow name kind).1 = none := by
    rw [cell?, meaning?_appendRow]
    simp [appendRow, Meaning.unused, Meaning.cell?]
  unfold rowFor
  split
  · rename_i row hrow
    split
    · exact cell?_eq_none_of_latestIn h (List.mem_of_find?_eq_some hrow) (name?_of_latestIn hrow)
    · exact happend
  · exact happend

end Lookups

/-- **What is in sight stays as it is or goes out of sight.** -/
structure Fades (t t' : SymbolTable) : Prop where
  orderly : t'.Orderly
  rooted : t'.scopes.Rooted
  sees : ∀ row a, t'.Sees row a → t.Sees row a
  cells : ∀ row, t'.cell? row = t.cell? row
  scopes : ∀ row s, t.scope? row = some s → t'.scope? row = some s
  names : ∀ row a, t.cell? row = some a → t'.name? row = t.name? row
  places : ∀ s region parent, t.scopes.At s region parent → t'.scopes.At s region parent
  bodies : ∀ s row, t'.scopes.region? s = some (.body row) →
    t.scopes.region? s = some (.body row) ∨ ∃ s', t'.scope? row = some s' ∧ s' < s

section Fades

theorem Fades.refl (ho : t.Orderly) (hr : t.scopes.Rooted) : Fades t t :=
  ⟨ho, hr, fun _ _ h => h, fun _ => rfl, fun _ _ h => h, fun _ _ _ => rfl, fun _ _ _ h => h,
    fun _ _ => .inl⟩

/-- Rows are added, or change in what is not in sight. -/
theorem Fades.of_scopes (ho : t.Orderly) (hr : t.scopes.Rooted) (hl : t.Longer t')
    (hs : t'.scopes = t.scopes) (hc : ∀ row, t'.cell? row = t.cell? row)
    (hn : ∀ row a, t.cell? row = some a → t'.name? row = t.name? row) : Fades t t' where
  orderly := by
    refine ⟨hs ▸ ho.nested, fun row s hrow => ?_⟩
    rw [hs]
    rcases hl.fresh row s hrow with hrow | rfl
    · exact ho.placed row s hrow
    · exact ho.nested.current
  rooted := hs ▸ hr
  sees row a h := by
    obtain ⟨hcell, s, hrow, hmem⟩ := h
    rw [hc] at hcell
    rw [currentScope, hs] at hmem
    obtain ⟨m, hm, -⟩ := Option.bind_eq_some_iff.1 hcell
    obtain ⟨r, hr, -⟩ := Option.map_eq_some_iff.1 hm
    have hold : t.scope? row = some r.scope := by rw [scope?, hr]; rfl
    obtain rfl : r.scope = s := Option.some.inj ((hl.places row _ hold).symm.trans hrow)
    exact ⟨hcell, r.scope, hold, hmem⟩
  cells := hc
  scopes := hl.places
  names := hn
  places _ _ _ h := hs ▸ h
  bodies s row h := .inl (hs ▸ h)

theorem fades_appendRow (ho : t.Orderly) (hr : t.scopes.Rooted) :
    Fades t (t.appendRow name kind).2 := by
  refine .of_scopes ho hr (longer_appendRow t name kind) rfl (fun _ => cell?_appendRow) ?_
  intro row a ha
  rw [name?_appendRow, if_neg (Nat.ne_of_lt (lt_of_cell? ha))]

theorem fades_rowFor (ho : t.Orderly) (hr : t.scopes.Rooted) :
    Fades t (t.rowFor name kind reuse).2 := by
  rcases (rowFor_spec t name kind reuse).2 with ⟨h, -⟩ | h
  · rw [h]
    exact .refl ho hr
  · rw [h]
    exact fades_appendRow ho hr

theorem fades_record (ho : t.Orderly) (hr : t.scopes.Rooted) (token : Token) :
    Fades t (t.record token) := by
  rcases record_cases t token with h | ⟨h, -⟩
  · rw [h]
    exact .refl ho hr
  · rw [h]
    exact fades_appendRow ho hr

/-- A row without a cell may mean anything that is no variable. -/
theorem fades_setMeaning (ho : t.Orderly) (hr : t.scopes.Rooted) (hc : t.cell? row = none)
    (hm : m.cell? = none) : Fades t (t.setMeaning row m) := by
  refine .of_scopes ho hr (.of_eq fun _ => scope?_setMeaning) rfl (fun i => ?_)
    fun _ _ _ => name?_setMeaning
  rw [cell?_setMeaning]
  split
  · rename_i hi
    subst hi
    rw [hc, hm]
    cases t.meaning? row <;> rfl
  · rfl

/-- A row without a cell may be retired. -/
theorem fades_retire (ho : t.Orderly) (hr : t.scopes.Rooted) (hc : t.cell? row = none) :
    Fades t (t.retire row) := by
  refine .of_scopes ho hr (.of_eq fun _ => scope?_retire) rfl (fun _ => cell?_retire) ?_
  intro i a ha
  refine name?_retire_ne ?_
  rintro rfl
  rw [hc] at ha
  cases ha

/-- A scope that is entered has no rows yet. -/
theorem fades_enterScope (ho : t.Orderly) (hr : t.scopes.Rooted) {region : Region}
    (hb : ∀ row, region = .body row → ∃ s, t.scope? row = some s ∧ s < t.scopes.all.size) :
    Fades t (t.enterScope region) where
  orderly := by
    have hturns : t.Turns 0 (t.enterScope region) := turns_enterScope ho region
    exact hturns.orderly
  rooted := hr.enter region _
  sees row a h := by
    obtain ⟨hcell, s, hrow, hmem⟩ := h
    refine ⟨hcell, s, hrow, ?_⟩
    rcases Scopes.mem_enclosing_enter ho.nested hmem with rfl | hmem
    · exact absurd (ho.placed row _ hrow) (Nat.lt_irrefl _)
    · exact hmem
  cells _ := rfl
  scopes _ _ h := h
  names _ _ _ := rfl
  places s region' parent h := h.enter region _
  bodies s row h := by
    rw [enterScope, Scopes.region?_enter] at h
    split at h
    · rename_i hs
      obtain ⟨s', hrow, hlt⟩ := hb row (Option.some.inj h)
      exact .inr ⟨s', hrow, hs ▸ hlt⟩
    · exact .inl h

theorem fades_leaveScope (ho : t.Orderly) (hr : t.scopes.Rooted) : Fades t t.leaveScope where
  orderly := by
    have hturns : t.Turns 0 t.leaveScope := turns_leaveScope ho
    exact hturns.orderly
  rooted := hr.leave _
  sees row a h := by
    obtain ⟨hcell, s, hrow, hmem⟩ := h
    exact ⟨hcell, s, hrow, Scopes.mem_enclosing_leave ho.nested hmem⟩
  cells _ := rfl
  scopes _ _ h := h
  names _ _ _ := rfl
  places s region parent h := h.leave _
  bodies s row h := by
    rw [leaveScope, Scopes.region?_leave] at h
    exact .inl h

end Fades

/-- **A row is given a cell:** what is in sight is that cell on that row, or was in sight. -/
theorem sees_setVariable (h : (t.setMeaning row (.variable (some a))).Sees i s) :
    (i = row ∧ s = a) ∨ (i ≠ row ∧ t.Sees i s) := by
  obtain ⟨hcell, s', hs, hmem⟩ := h
  rw [cell?_setMeaning] at hcell
  rw [scope?_setMeaning] at hs
  split at hcell
  · rename_i hi
    obtain ⟨_, -, hcell⟩ := Option.bind_eq_some_iff.1 hcell
    cases hcell
    exact .inl ⟨hi.symm, rfl⟩
  · rename_i hi
    exact .inr ⟨Ne.symm hi, hcell, s', hs, hmem⟩

end SymbolTable

end OnePass.Names
