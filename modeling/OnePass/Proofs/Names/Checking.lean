import OnePass.Names.Strict
import OnePass.Proofs.Names.Usable

/-!
# Lookups never go astray

In a table whose numbers lead somewhere, a lookup from one of its scopes only touches scopes and
rows that are there. So the checked form of a lookup finds what the lookup finds.

* `Checked.filterM_eq`, `Checked.findM?_eq`, …: walks whose steps do not fail.
* `Strict.enclosing_eq`, `Strict.insideBody_eq`, …: scopes.
* `Strict.latestIn_eq`, `Strict.resolve_eq`, `Strict.callee?_eq`, …: rows.
* `Strict.leave?_eq`: the lists of a loop are cut within their ends.
-/

namespace OnePass

namespace Checked

variable {α β : Type} {l : List α}

theorem mapM_eq {f : α → Checked β} {g : α → β} (h : ∀ a ∈ l, f a = .ok (g a)) :
    l.mapM f = .ok (l.map g) := by
  induction l with
  | nil => rfl
  | cons a l ih =>
    obtain ⟨ha, hl⟩ := List.forall_mem_cons.1 h
    rw [List.mapM_cons, ha, ok_bind, ih hl]
    rfl

theorem anyM_eq {f : α → Checked Bool} {p : α → Bool} (h : ∀ a ∈ l, f a = .ok (p a)) :
    l.anyM f = .ok (l.any p) := by
  induction l with
  | nil => rfl
  | cons a l ih =>
    obtain ⟨ha, hl⟩ := List.forall_mem_cons.1 h
    rw [List.anyM, ha, ok_bind, List.any_cons]
    cases p a with
    | true => rfl
    | false => exact ih hl

theorem findM?_eq {f : α → Checked Bool} {p : α → Bool} (h : ∀ a ∈ l, f a = .ok (p a)) :
    l.findM? f = .ok (l.find? p) := by
  induction l with
  | nil => rfl
  | cons a l ih =>
    obtain ⟨ha, hl⟩ := List.forall_mem_cons.1 h
    rw [List.findM?, ha, ok_bind, List.find?_cons]
    cases p a with
    | true => rfl
    | false => exact ih hl

theorem findSomeM?_eq {f : α → Checked (Option β)} {g : α → Option β}
    (h : ∀ a ∈ l, f a = .ok (g a)) : l.findSomeM? f = .ok (l.findSome? g) := by
  induction l with
  | nil => rfl
  | cons a l ih =>
    obtain ⟨ha, hl⟩ := List.forall_mem_cons.1 h
    rw [List.findSomeM?, ha, ok_bind, List.findSome?_cons]
    cases g a with
    | some b => rfl
    | none => exact ih hl

theorem filterM_eq {f : α → Checked Bool} {p : α → Bool} (h : ∀ a ∈ l, f a = .ok (p a)) :
    l.filterM f = .ok (l.filter p) := by
  -- the walk collects what it keeps in reverse
  have hcollected : ∀ {l : List α}, (∀ a ∈ l, f a = .ok (p a)) → ∀ kept : List α,
      List.filterAuxM f l kept = .ok ((l.filter p).reverse ++ kept) := by
    intro l
    induction l with
    | nil => exact fun _ _ => rfl
    | cons a l ih =>
      intro h kept
      obtain ⟨ha, hl⟩ := List.forall_mem_cons.1 h
      rw [List.filterAuxM, ha, ok_bind, ih hl, List.filter_cons]
      cases p a <;> simp
  rw [List.filterM, hcollected h, ok_bind, List.append_nil, List.reverse_reverse]
  rfl

end Checked

namespace Names.Strict

open Lexical (Token TokenKind)

section Scopes

variable {t : Scopes} {s : Nat}

theorem exists_scopeAt (hs : s < t.all.size) :
    ∃ scope, t.all[s]? = some scope ∧ scopeAt t s = .ok scope :=
  ⟨t.all[s], Array.getElem?_eq_getElem hs, Checked.item_eq (Array.getElem?_eq_getElem hs)⟩

/-- **The walk outward** meets scopes only, and comes to its end. -/
theorem enclosing_eq (h : t.Nested) (hs : s < t.all.size) :
    enclosing t s = .ok (t.enclosing s) := by
  induction s using Nat.strongRecOn with
  | ind s ih =>
    obtain ⟨scope, hscope, hat⟩ := exists_scopeAt hs
    rw [enclosing, hat, Checked.ok_bind, Scopes.enclosing.eq_def, hscope]
    dsimp only
    cases hp : scope.parent with
    | none => rfl
    | some parent =>
      have hlt := h.parents s scope parent hscope hp
      dsimp only
      rw [if_pos hlt, if_pos hlt, ih parent hlt (Nat.lt_trans hlt hs)]
      rfl

/-- All scopes that are met are there. -/
theorem lt_of_mem_enclosing (hs : s < t.all.size) {i : Nat} (hi : i ∈ t.enclosing s) :
    i < t.all.size :=
  Nat.lt_of_le_of_lt (Scopes.le_of_mem_enclosing hi) hs

theorem region?_eq {scope : Scope} (h : t.all[s]? = some scope) :
    t.region? s = some scope.region := by
  rw [Scopes.region?, h]
  rfl

theorem throughLoops_eq {scopes : List Nat} (h : ∀ s ∈ scopes, s < t.all.size) :
    throughLoops t scopes = .ok (t.throughLoops scopes) := by
  induction scopes with
  | nil => rfl
  | cons s rest ih =>
    obtain ⟨hs, hrest⟩ := List.forall_mem_cons.1 h
    obtain ⟨scope, hscope, hat⟩ := exists_scopeAt hs
    rw [throughLoops, hat, Checked.ok_bind, Scopes.throughLoops, region?_eq hscope]
    by_cases hloop : scope.region = .loop
    · rw [if_pos hloop, if_pos (congrArg some hloop), ih hrest]
      rfl
    · rw [if_neg hloop, if_neg (hloop ∘ Option.some.inj)]
      rfl

theorem sameBody_eq (h : t.Nested) (hs : s < t.all.size) : sameBody t s = .ok (t.sameBody s) := by
  rw [sameBody, enclosing_eq h hs, Checked.ok_bind]
  exact throughLoops_eq fun _ => lt_of_mem_enclosing hs

theorem isLoop_eq (hs : s < t.all.size) : isLoop t s = .ok (t.isLoop s) := by
  obtain ⟨scope, hscope, hat⟩ := exists_scopeAt hs
  rw [isLoop, hat, Scopes.isLoop, region?_eq hscope]
  rfl

theorem insideBody_eq (h : t.Nested) (hs : s < t.all.size) (row : Nat) :
    insideBody t s row = .ok (t.insideBody s row) := by
  rw [insideBody, enclosing_eq h hs, Checked.ok_bind]
  refine Checked.anyM_eq fun outer houter => ?_
  obtain ⟨scope, hscope, hat⟩ := exists_scopeAt (lt_of_mem_enclosing hs houter)
  rw [hat, region?_eq hscope]
  rfl

theorem leave_eq (h : t.Nested) (endRow : Nat) : leave t endRow = .ok (t.leave endRow) := by
  obtain ⟨scope, hscope, hat⟩ := exists_scopeAt h.current
  rw [leave, hat, Checked.ok_bind, Scopes.leave, hscope]
  dsimp only
  cases hp : scope.parent with
  | none => rfl
  | some parent =>
    dsimp only
    rw [Checked.change_eq h.current, Checked.ok_bind]
    have hmodify : t.all.modify t.current (fun s => { s with endRow := some endRow }) =
        t.all.setIfInBounds t.current { scope with endRow := some endRow } := by
      refine Array.ext_getElem? fun i => ?_
      rw [Array.getElem?_modify, Array.getElem?_setIfInBounds]
      split
      · rename_i heq
        rw [← heq, hscope, if_pos h.current]
        rfl
      · rfl
    rw [hmodify, hp]
    rfl

end Scopes

section Rows

variable {t : SymbolTable} {s i : Nat} {name : String} {withCell : Bool}

theorem exists_rowAt (hi : i < t.rows.size) : ∃ r, t.rows[i]? = some r ∧ rowAt t i = .ok r :=
  ⟨t.rows[i], Array.getElem?_eq_getElem hi, Checked.item_eq (Array.getElem?_eq_getElem hi)⟩

/-- **The range of a scope** lies within the table. -/
theorem ownRows_eq (h : t.Indexed) (hs : s < t.scopes.all.size) :
    ownRows t s = .ok (t.ownRows s) := by
  obtain ⟨scope, hscope, hat⟩ := exists_scopeAt hs
  have hrange := h.ranges s scope hscope
  rw [ownRows, hat, Checked.ok_bind, SymbolTable.ownRows, hscope]
  refine Checked.filterM_eq fun i hi => ?_
  rw [List.mem_reverse, List.mem_range'_1] at hi
  obtain ⟨r, hr, hrow⟩ := exists_rowAt (t := t) (i := i) (by omega)
  rw [hrow, hr]
  rfl

theorem lt_of_mem_ownRows (hi : i ∈ t.ownRows s) : i < t.rows.size :=
  SymbolTable.lt_of_scope? (SymbolTable.scope?_of_mem_ownRows hi)

theorem carries_eq (hi : i < t.rows.size) : carries t name withCell i = .ok (t.carries name withCell i) := by
  obtain ⟨r, hr, hrow⟩ := exists_rowAt hi
  rw [carries, hrow, SymbolTable.carries, SymbolTable.name?, SymbolTable.cell?,
    SymbolTable.meaning?, hr]
  rfl

theorem latestIn_eq (h : t.Indexed) (hs : s < t.scopes.all.size) :
    latestIn t s name withCell = .ok (t.latestIn s name withCell) := by
  rw [latestIn, ownRows_eq h hs, Checked.ok_bind]
  exact Checked.findM?_eq fun i hi => carries_eq (lt_of_mem_ownRows hi)

theorem lt_of_latestIn (h : t.latestIn s name withCell = some i) : i < t.rows.size :=
  lt_of_mem_ownRows (List.mem_of_find?_eq_some h)

theorem resolve_eq (h : t.Indexed) (hs : s < t.scopes.all.size) (outward : Bool) :
    resolve t name s withCell outward = .ok (t.resolve name s withCell outward) := by
  cases outward with
  | true =>
    rw [resolve, if_pos rfl, enclosing_eq h.orderly.nested hs, Checked.ok_bind]
    exact Checked.findSomeM?_eq fun s' hs' => latestIn_eq h (lt_of_mem_enclosing hs hs')
  | false =>
    have hself : ∀ s' ∈ [s], latestIn t s' name withCell = .ok (t.latestIn s' name withCell) :=
      fun s' hs' => latestIn_eq h (List.mem_singleton.1 hs' ▸ hs)
    exact Checked.findSomeM?_eq hself

theorem lt_of_resolve {outward : Bool} (h : t.resolve name s withCell outward = some i) :
    i < t.rows.size := by
  obtain ⟨s', -, hs'⟩ := List.exists_of_findSome?_eq_some h
  exact lt_of_latestIn hs'

theorem cell?_eq (hi : i < t.rows.size) : cell? t i = .ok (t.cell? i) := by
  obtain ⟨r, hr, hrow⟩ := exists_rowAt hi
  rw [cell?, hrow, SymbolTable.cell?, SymbolTable.meaning?, hr]
  rfl

theorem function?_eq (hi : i < t.rows.size) : function? t i = .ok (t.function? i) := by
  obtain ⟨r, hr, hrow⟩ := exists_rowAt hi
  rw [function?, hrow, SymbolTable.function?, SymbolTable.meaning?, hr]
  rfl

theorem functionsIn_eq (h : t.Indexed) (hs : s < t.scopes.all.size) :
    functionsIn t s name = .ok (t.functionsIn s name) := by
  rw [functionsIn, ownRows_eq h hs, Checked.ok_bind]
  refine Checked.filterM_eq fun i hi => ?_
  obtain ⟨r, hr, hrow⟩ := exists_rowAt (lt_of_mem_ownRows hi)
  rw [hrow, SymbolTable.carries, SymbolTable.name?, SymbolTable.function?, SymbolTable.meaning?, hr]
  have hfunction : r.isFunction = r.meaning.function?.isSome := by
    rw [Row.isFunction]
    cases r.meaning <;> rfl
  change Except.ok (r.name == name && r.isFunction) = _
  rw [hfunction]
  simp

theorem lt_of_mem_functionsIn (hi : i ∈ t.functionsIn s name) : i < t.rows.size :=
  lt_of_mem_ownRows (List.mem_filter.1 hi).1

theorem visibleFunctions_eq (h : t.Indexed) (hs : s < t.scopes.all.size) :
    visibleFunctions t s name = .ok (t.visibleFunctions s name) := by
  rw [visibleFunctions, enclosing_eq h.orderly.nested hs, Checked.ok_bind,
    Checked.mapM_eq fun s' hs' => functionsIn_eq h (lt_of_mem_enclosing hs hs')]
  rfl

theorem callee?_eq {count : Nat} :
    callee? t (t.visibleFunctions s name) count = .ok (t.callee? s name count) := by
  refine Checked.findSomeM?_eq fun row hrow => ?_
  obtain ⟨s', -, hs'⟩ := List.mem_flatMap.1 hrow
  rw [function?_eq (lt_of_mem_functionsIn hs')]
  rfl

theorem rowFor_eq (h : t.Indexed) (name : String) (kind : TokenKind) (reuse : Meaning → Bool) :
    rowFor t name kind reuse = .ok (t.rowFor name kind reuse) := by
  have hlatest : latestIn t t.currentScope name false = .ok (t.latestIn t.currentScope name false) :=
    latestIn_eq h h.orderly.nested.current
  rw [rowFor, hlatest, Checked.ok_bind, SymbolTable.rowFor]
  cases hrow : t.latestIn t.currentScope name false with
  | none => rfl
  | some row =>
    obtain ⟨r, hr, hat⟩ := exists_rowAt (lt_of_latestIn hrow)
    dsimp only
    rw [hat, Checked.ok_bind, SymbolTable.meaning?, hr]
    cases hreuse : reuse r.meaning <;> simp [hreuse] <;> rfl

theorem recordWord_eq (h : t.Indexed) (word : String) (kind : TokenKind) :
    recordWord t word kind = .ok (t.recordWord word kind) := by
  have hroot : latestIn t Scopes.outermost word false = .ok (t.latestIn Scopes.outermost word false) :=
    latestIn_eq h (Nat.zero_lt_of_lt h.orderly.nested.current)
  rw [recordWord, SymbolTable.recordWord]
  by_cases hkind : kind = .keyword
  · rw [if_pos hkind, if_pos hkind, hroot, Checked.ok_bind]
    cases t.latestIn Scopes.outermost word false with
    | some row => rfl
    | none => exact rowFor_eq h word kind fun meaning => !meaning.isFunction
  · rw [if_neg hkind, if_neg hkind]
    exact rowFor_eq h word kind fun meaning => !meaning.isFunction

theorem record_eq (h : t.Indexed) (token : Token) : record t token = .ok (t.record token) := by
  rw [record, SymbolTable.record, recordWord_eq h]
  split <;> rfl

theorem setMeaning_eq (hi : i < t.rows.size) (m : Meaning) :
    setMeaning t i m = .ok (t.setMeaning i m) := by
  rw [setMeaning, modifyRow, Checked.change_eq hi]
  rfl

theorem retire_eq (hi : i < t.rows.size) : retire t i = .ok (t.retire i) := by
  rw [retire, modifyRow, Checked.change_eq hi]
  rfl

theorem leaveScope_eq (h : t.scopes.Nested) : leaveScope t = .ok t.leaveScope := by
  rw [leaveScope, leave_eq h]
  rfl

end Rows

/-- **The lists of a loop are cut within their ends,** and where the marks say. -/
theorem leave?_eq (l : LoopRecord) : leave? l = .ok l.leave? := by
  have hcut : ∀ (slots : List Nat) (mark : Nat),
      Checked.splitOff slots (min mark slots.length) = .ok (slots.take mark, slots.drop mark) := by
    intro slots mark
    rw [Checked.splitOff, if_pos (Nat.min_le_right _ _), ← List.take_eq_take_min,
      ← List.drop_eq_drop_min]
  unfold leave? LoopRecord.leave?
  cases l.starts with
  | nil => rfl
  | cons start starts =>
    dsimp only
    rw [hcut, Checked.ok_bind]
    dsimp only
    rw [hcut]
    rfl

end Names.Strict

end OnePass
