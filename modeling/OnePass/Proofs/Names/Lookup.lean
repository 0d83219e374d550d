import OnePass.Proofs.Names.Sight

/-!
# The cells of names in open scopes

What a name stands for in a scope is decided by the latest of its rows there that has a cell.
While a scope is open its rows go up to the last of the table, so that a row that gets a
cell decides from then on, and nothing else changes what any name stands for.

* `SymbolTable.cellIn?`: the cell of a name in a scope. `Opened`: a scope that is still open.
* `resolve_eq_findSome?`: reading a name asks the scopes around one after another.
* `cellIn?_setVariable`: the row of a name gets a cell. `latestIn_rowFor`: it is the latest.
* `cellIn?_record`, `cellIn?_setMeaning`, `cellIn?_retire`, …: nothing changes.
-/

namespace OnePass.Names

namespace SymbolTable

variable {t t' : SymbolTable} {s row i a : Nat} {x y name : String}
  {kind : Lexical.TokenKind} {m : Meaning} {reuse : Meaning → Bool}

/-- **The cell that a name stands for in a scope,** the scopes around it left out. -/
def cellIn? (t : SymbolTable) (s : Nat) (name : String) : Option Nat :=
  (t.latestIn s name true).bind t.cell?

/-- **A scope that is still open.** -/
def Opened (t : SymbolTable) (s : Nat) : Prop :=
  ∃ scope, t.scopes.all[s]? = some scope ∧ scope.endRow = none ∧ scope.firstRow ≤ t.rows.size

/-- The first row that is found has a cell, and so it is the first whose cell is found. -/
theorem findSome?_bind_of_isSome {α β γ : Type} {f : α → Option β} {g : β → Option γ} {l : List α}
    (h : ∀ s r, f s = some r → (g r).isSome) :
    (l.findSome? f).bind g = l.findSome? fun s => (f s).bind g := by
  induction l with
  | nil => rfl
  | cons s l ih =>
    rw [List.findSome?_cons, List.findSome?_cons]
    cases hf : f s with
    | none => exact ih
    | some r =>
      obtain ⟨c, hc⟩ := Option.isSome_iff_exists.1 (h s r hf)
      simp [hc]

/-- **Reading a name** asks the scopes around for its cell, one after the other. -/
theorem resolve_eq_findSome? (t : SymbolTable) (name : String) (s : Nat) :
    (t.resolve name s true true).bind t.cell? =
      (t.scopes.enclosing s).findSome? (t.cellIn? · name) :=
  findSome?_bind_of_isSome fun _ _ h => cell?_isSome_of_latestIn h

/-- The rows of a scope depend on its range and on what scopes the rows belong to. -/
theorem ownRows_congr (hs : t'.scopes.all[s]? = t.scopes.all[s]?)
    (hsize : t'.rows.size = t.rows.size) (hscope : ∀ i, t'.scope? i = t.scope? i) :
    t'.ownRows s = t.ownRows s := by
  unfold ownRows
  rw [hs]
  split
  · rfl
  · rw [hsize]
    exact List.filter_congr fun i _ => congrArg (· == some s) (hscope i)

/-- **Names stand for what they did** if the rows are as they were, as far as they have cells. -/
theorem cellIn?_congr (hrows : t'.ownRows s = t.ownRows s) (hcell : ∀ i, t'.cell? i = t.cell? i)
    (hname : ∀ i, (t.cell? i).isSome → t'.name? i = t.name? i) :
    t'.cellIn? s name = t.cellIn? s name := by
  have hcarries : ∀ i, t'.carries name true i = t.carries name true i := by
    intro i
    rw [carries, carries, hcell]
    cases hc : t.cell? i with
    | none => simp
    | some c => rw [hname i (by simp [hc])]
  have hlatest : t'.latestIn s name true = t.latestIn s name true := by
    rw [latestIn, latestIn, hrows]
    exact find?_congr fun i _ => hcarries i
  rw [cellIn?, cellIn?, hlatest]
  exact congrArg _ (funext hcell)

section Rows

/-- The rows of an open scope go up to the last of the table. -/
theorem ownRows_appendRow (h : t.Opened s) : (t.appendRow x kind).2.ownRows s =
    if t.currentScope = s then t.rows.size :: t.ownRows s else t.ownRows s := by
  obtain ⟨scope, hs, hend, hle⟩ := h
  have hcount : t.rows.size + 1 - scope.firstRow = t.rows.size - scope.firstRow + 1 := by omega
  have hlast : scope.firstRow + (t.rows.size - scope.firstRow) = t.rows.size := by omega
  have hold : ∀ i ∈ (List.range' scope.firstRow (t.rows.size - scope.firstRow)).reverse,
      ((t.appendRow x kind).2.rows[i]?.map (·.scope) == some s) =
        (t.rows[i]?.map (·.scope) == some s) := by
    intro i hi
    rw [List.mem_reverse, List.mem_range'_1] at hi
    have hplace : (t.appendRow x kind).2.scope? i = t.scope? i := by
      rw [scope?_appendRow, if_neg (by omega)]
    exact congrArg (· == some s) hplace
  unfold ownRows
  rw [scopes_appendRow, hs]
  dsimp only
  rw [hend, Option.getD_none, Option.getD_none, size_appendRow, hcount, List.range'_1_concat, hlast,
    List.reverse_append, List.reverse_singleton, List.singleton_append, List.filter_cons]
  have hnew : (t.appendRow x kind).2.rows[t.rows.size]?.map (·.scope) = some t.currentScope := by
    have hplace : (t.appendRow x kind).2.scope? t.rows.size = some t.currentScope := by
      rw [scope?_appendRow, if_pos rfl]
    exact hplace
  rw [hnew, List.filter_congr hold]
  by_cases heq : t.currentScope = s <;> simp [heq]

theorem cellIn?_appendRow (h : t.Opened s) :
    (t.appendRow x kind).2.cellIn? s name = t.cellIn? s name := by
  have hlatest : (t.appendRow x kind).2.latestIn s name true = t.latestIn s name true := by
    have hnew : (t.appendRow x kind).2.carries name true t.rows.size = false := by
      rw [carries, cell?_appendRow]
      have hnone : t.cell? t.rows.size = none := by simp [cell?, meaning?]
      simp [hnone]
    have hold : ∀ i ∈ t.ownRows s, (t.appendRow x kind).2.carries name true i =
        t.carries name true i := by
      intro i hi
      have hlt := lt_of_scope? (scope?_of_mem_ownRows hi)
      rw [carries, carries, cell?_appendRow, name?_appendRow, if_neg (Nat.ne_of_lt hlt)]
    rw [latestIn, latestIn, ownRows_appendRow h]
    split
    · rw [List.find?_cons, hnew]
      exact find?_congr hold
    · exact find?_congr hold
  rw [cellIn?, cellIn?, hlatest]
  exact congrArg _ (funext fun _ => cell?_appendRow)

theorem Opened.appendRow (h : t.Opened s) : (t.appendRow x kind).2.Opened s := by
  obtain ⟨scope, hs, hend, hle⟩ := h
  exact ⟨scope, hs, hend, by rw [size_appendRow]; omega⟩

/-- What holds of a table and is kept when a row is appended is kept when a row is asked for. -/
theorem rowFor_induction {P : SymbolTable → Prop} (h : P t) (happend : P (t.appendRow x kind).2) :
    P (t.rowFor x kind reuse).2 := by
  rcases (rowFor_spec t x kind reuse).2 with ⟨heq, -⟩ | heq
  · rw [heq]
    exact h
  · rw [heq]
    exact happend

theorem Opened.rowFor (h : t.Opened s) : (t.rowFor x kind reuse).2.Opened s :=
  rowFor_induction (P := fun t' => t'.Opened s) h h.appendRow

theorem cellIn?_rowFor (h : t.Opened s) :
    (t.rowFor x kind reuse).2.cellIn? s name = t.cellIn? s name :=
  rowFor_induction (P := fun t' => t'.cellIn? s name = t.cellIn? s name) rfl (cellIn?_appendRow h)

theorem Opened.record (h : t.Opened s) (token : Lexical.Token) : (t.record token).Opened s := by
  rcases record_cases t token with heq | ⟨heq, -⟩
  · rwa [heq]
  · rw [heq]
    exact h.appendRow

/-- **Recording a token** changes no name. -/
theorem cellIn?_record (h : t.Opened s) (token : Lexical.Token) :
    (t.record token).cellIn? s name = t.cellIn? s name := by
  rcases record_cases t token with heq | ⟨heq, -⟩
  · rw [heq]
  · rw [heq]
    exact cellIn?_appendRow h

/-- **The row that a name gets** is the latest of the name in the current scope. -/
theorem latestIn_rowFor (h : t.Opened t.currentScope) :
    (t.rowFor x kind reuse).2.latestIn t.currentScope x false = some (t.rowFor x kind reuse).1 := by
  have happend : (t.appendRow x kind).2.latestIn t.currentScope x false =
      some (t.appendRow x kind).1 := by
    have hcarries : (t.appendRow x kind).2.carries x false t.rows.size = true := by
      rw [carries, name?_appendRow]
      simp
    rw [latestIn, ownRows_appendRow h, if_pos rfl, List.find?_cons, hcarries]
    rfl
  unfold rowFor
  split
  · rename_i row hrow
    split
    · exact hrow
    · exact happend
  · exact happend

/-- **A name has a row in a scope:** the latest of that name there, and it stands for no
function. -/
def Registered (t : SymbolTable) (s : Nat) (name : String) : Prop :=
  ∃ row r, t.latestIn s name false = some row ∧ t.rows[row]? = some r ∧ r.name = name ∧
    r.scope = s ∧ r.isFunction = false

/-- **A name that is recorded** has a row in the current scope. -/
theorem registered_record (h : t.Opened t.currentScope) {token : Lexical.Token}
    (hkind : token.kind = .identifier) :
    (t.record token).Registered t.currentScope token.lexeme := by
  have heq : t.record token =
      (t.rowFor token.lexeme token.kind fun meaning => !meaning.isFunction).2 := by
    rw [record, Lexical.Token.isWord, hkind]
    rfl
  have hlatest : (t.rowFor token.lexeme token.kind fun m => !m.isFunction).2.latestIn
      t.currentScope token.lexeme false = some (t.rowFor token.lexeme token.kind
        fun m => !m.isFunction).1 := latestIn_rowFor h
  rw [heq]
  obtain ⟨m, hmeaning, hm⟩ := meaning?_rowFor t token.lexeme token.kind fun m => !m.isFunction
  obtain ⟨r, hr, rfl⟩ := Option.map_eq_some_iff.1 hmeaning
  have hname := name?_of_latestIn hlatest
  have hscope := scope?_of_latestIn hlatest
  rw [name?, hr] at hname
  rw [scope?, hr] at hscope
  refine ⟨_, r, hlatest, hr, Option.some.inj hname, Option.some.inj hscope, ?_⟩
  rcases hm with hm | hm
  · rw [Row.isFunction]
    simpa using hm
  · rw [Row.isFunction, hm]
    rfl

end Rows

section Meanings

theorem ownRows_setMeaning : (t.setMeaning row m).ownRows s = t.ownRows s :=
  ownRows_congr rfl size_setMeaning fun _ => scope?_setMeaning

theorem Opened.setMeaning (h : t.Opened s) : (t.setMeaning row m).Opened s := by
  obtain ⟨scope, hs, hend, hle⟩ := h
  exact ⟨scope, hs, hend, by rwa [size_setMeaning]⟩

/-- A row without a cell may come to mean anything else that has none. -/
theorem cellIn?_setMeaning (hrow : t.cell? row = none) (hm : m.cell? = none) :
    (t.setMeaning row m).cellIn? s name = t.cellIn? s name := by
  refine cellIn?_congr ownRows_setMeaning (fun i => ?_) fun i _ => name?_setMeaning
  rw [cell?_setMeaning]
  split
  · rename_i heq
    rw [← heq, hrow]
    cases t.meaning? row <;> simp [hm]
  · rfl

/-- **A name gets a cell** in a scope where its latest row is, and no other name does. -/
theorem cellIn?_setVariable (hlatest : t.latestIn i x false = some row) :
    (t.setMeaning row (.variable (some a))).cellIn? s y =
      if s = i ∧ y = x then some a else t.cellIn? s y := by
  have hname := name?_of_latestIn hlatest
  have hplace := scope?_of_latestIn hlatest
  have hcell : (t.setMeaning row (.variable (some a))).cell? row = some a := by
    obtain ⟨r, hr, -⟩ := Option.map_eq_some_iff.1 hname
    have hm : t.meaning? row = some r.meaning := by
      rw [meaning?, hr]
      rfl
    rw [cell?_setMeaning, if_pos rfl, hm]
    rfl
  have hothers : ∀ k, k ≠ row → (t.setMeaning row (.variable (some a))).carries y true k =
      t.carries y true k := by
    intro k hk
    rw [carries, carries, name?_setMeaning, cell?_setMeaning, if_neg (Ne.symm hk)]
  split
  · rename_i h
    obtain ⟨rfl, rfl⟩ := h
    -- behind the row no other carries the name, with a cell or without
    obtain ⟨-, before, after, hrows, hbefore⟩ := List.find?_eq_some_iff_append.1 hlatest
    have hfound : (t.setMeaning row (.variable (some a))).latestIn s y true = some row := by
      rw [latestIn, ownRows_setMeaning]
      refine List.find?_eq_some_iff_append.2 ⟨?_, before, after, hrows, fun k hk => ?_⟩
      · rw [carries, name?_setMeaning, hname, hcell]
        simp
      · have hk' := hbefore k hk
        rw [carries] at hk' ⊢
        rw [name?_setMeaning]
        simp only [Bool.not_false, Bool.true_or, Bool.and_true, Bool.not_true, beq_eq_false_iff_ne,
          ne_eq, Bool.not_eq_eq_eq_not] at hk'
        simp [hk']
    rw [cellIn?, hfound, Option.bind_some, hcell]
  · rename_i h
    have hrow : ∀ k ∈ t.ownRows s, (t.setMeaning row (.variable (some a))).carries y true k =
        t.carries y true k := by
      intro k hk
      by_cases heq : k = row
      · subst heq
        have hne : y ≠ x := by
          rintro rfl
          exact h ⟨Option.some.inj ((scope?_of_mem_ownRows hk).symm.trans hplace), rfl⟩
        have hother : (some x == some y) = false := by simpa using Ne.symm hne
        rw [carries, carries, name?_setMeaning, hname, hother, Bool.false_and, Bool.false_and]
      · exact hothers k heq
    have hlatest' : (t.setMeaning row (.variable (some a))).latestIn s y true =
        t.latestIn s y true := by
      rw [latestIn, latestIn, ownRows_setMeaning]
      exact find?_congr hrow
    rw [cellIn?, cellIn?, hlatest']
    cases hl : t.latestIn s y true with
    | none => rfl
    | some k =>
      have hk := List.find?_some hl
      have hmem := List.mem_of_find?_eq_some hl
      rw [Option.bind_some, Option.bind_some, cell?_setMeaning, if_neg]
      rintro rfl
      rw [carries, hname, Bool.and_eq_true, beq_iff_eq, Option.some.injEq] at hk
      exact h ⟨Option.some.inj ((scope?_of_mem_ownRows hmem).symm.trans hplace), hk.1.symm⟩

theorem Opened.retire (h : t.Opened s) : (t.retire row).Opened s := by
  obtain ⟨scope, hs, hend, hle⟩ := h
  exact ⟨scope, hs, hend, by rwa [size_retire]⟩

/-- A function is retired, which has no cell as a variable does. -/
theorem cellIn?_retire (hrow : t.cell? row = none) :
    (t.retire row).cellIn? s name = t.cellIn? s name := by
  refine cellIn?_congr (ownRows_congr rfl size_retire fun _ => scope?_retire)
    (fun _ => cell?_retire) fun i hi => name?_retire_ne ?_
  rintro rfl
  rw [hrow] at hi
  cases hi

end Meanings

section Scopes

variable {region : Region}

theorem Opened.lt (h : t.Opened s) : s < t.scopes.all.size := by
  obtain ⟨scope, hs, -⟩ := h
  exact (Array.getElem?_eq_some_iff.1 hs).1

theorem getElem?_enterScope (h : s < t.scopes.all.size) :
    (t.enterScope region).scopes.all[s]? = t.scopes.all[s]? := by
  rw [enterScope, Scopes.enter, Array.getElem?_push, if_neg (Nat.ne_of_lt h)]

theorem Opened.enterScope (h : t.Opened s) : (t.enterScope region).Opened s := by
  obtain ⟨scope, hs, hend, hle⟩ := h
  exact ⟨scope, (getElem?_enterScope (Opened.lt ⟨scope, hs, hend, hle⟩)).trans hs, hend, hle⟩

theorem cellIn?_enterScope (h : s < t.scopes.all.size) :
    (t.enterScope region).cellIn? s name = t.cellIn? s name :=
  cellIn?_congr (ownRows_congr (getElem?_enterScope h) rfl fun _ => rfl) (fun _ => rfl) fun _ _ => rfl

/-- The new scope is open. -/
theorem opened_enterScope (t : SymbolTable) (region : Region) :
    (t.enterScope region).Opened (t.enterScope region).currentScope :=
  ⟨⟨some t.currentScope, region, t.rows.size, none⟩,
    by rw [currentScope, enterScope, Scopes.enter, Array.getElem?_push, if_pos rfl]; rfl, rfl,
    Nat.le_refl _⟩

/-- It has no names yet. -/
theorem cellIn?_enterScope_current (t : SymbolTable) (region : Region) (name : String) :
    (t.enterScope region).cellIn? (t.enterScope region).currentScope name = none := by
  have hrows : (t.enterScope region).ownRows (t.enterScope region).currentScope = [] := by
    unfold ownRows
    rw [currentScope, enterScope, Scopes.enter, Array.getElem?_push, if_pos rfl]
    simp
  rw [cellIn?, latestIn, hrows]
  rfl

theorem getElem?_leaveScope (h : s ≠ t.currentScope) :
    t.leaveScope.scopes.all[s]? = t.scopes.all[s]? := by
  rw [leaveScope]
  unfold Scopes.leave
  split
  · split
    · exact Array.getElem?_setIfInBounds_ne (Ne.symm h)
    · rfl
  · rfl

theorem Opened.leaveScope (h : t.Opened s) (hs : s ≠ t.currentScope) : t.leaveScope.Opened s := by
  obtain ⟨scope, hscope, hend, hle⟩ := h
  exact ⟨scope, (getElem?_leaveScope hs).trans hscope, hend, hle⟩

theorem cellIn?_leaveScope (h : s ≠ t.currentScope) :
    t.leaveScope.cellIn? s name = t.cellIn? s name :=
  cellIn?_congr (ownRows_congr (getElem?_leaveScope h) rfl fun _ => rfl) (fun _ => rfl) fun _ _ => rfl

end Scopes

end SymbolTable

end OnePass.Names
