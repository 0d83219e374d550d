import OnePass.Proofs.Names.Lookup

/-!
# Functions by scope, name and number of parameters

Calls tell functions apart by their scope, their name and their number of parameters. A function
that is retired keeps all three: its name is there behind the mark.

* `title`, `SymbolTable.signature?`: what calls tell a function apart by. `signature?_retire`.
* `SymbolTable.Retired`, `SymbolTable.retiredCount`: retired rows. `retired_foldl_retire`.
* `SymbolTable.Housed`: rows within the ranges of their scopes. `Housed.mem_ownRows`.
* `SymbolTable.Lengthens`: a change of the table in which all new rows have one name.
-/

namespace OnePass.Names

open Lexical (Token TokenKind)

section Titles

variable {name : String}

/-- **The name that a row was entered with:** a retired one has it behind the mark. -/
def title (name : String) : String :=
  if retiredMark.toList.isPrefixOf name.toList then
    String.ofList (name.toList.drop retiredMark.toList.length)
  else name

theorem title_of_unmarked (h : Unmarked name) : title name = name := by
  rw [title, h]
  rfl

theorem title_mark (name : String) : title (retiredMark ++ name) = name := by
  have hmarked : retiredMark.toList.isPrefixOf (retiredMark ++ name).toList = true := by
    rw [String.toList_append, List.isPrefixOf_iff_prefix]
    exact List.prefix_append _ _
  rw [title, if_pos hmarked, String.toList_append, List.drop_left, String.ofList_toList]

end Titles

/-- **What calls tell functions apart by.** -/
structure Signature where
  scope : Nat
  name : String
  arity : Nat
deriving DecidableEq

namespace Row

/-- The signature of the function on a row, if it stands for one. -/
def signature? (r : Row) : Option Signature :=
  r.meaning.function?.map fun info => ⟨r.scope, title r.name, info.arity⟩

variable (r : Row)

theorem title_retire : title r.retire.name = title r.name := by
  unfold Row.retire
  split
  · rfl
  · rename_i hr
    rw [Bool.not_eq_true] at hr
    exact (title_mark r.name).trans (title_of_unmarked hr).symm

/-- **A function that is retired keeps its signature.** -/
theorem signature?_retire : r.retire.signature? = r.signature? := by
  rw [signature?, signature?, title_retire]
  unfold Row.retire
  split <;> rfl

end Row

namespace Scopes

variable {t : Scopes} {n s : Nat} {scope : Scope}

/-- What a scope that may have been left was before. -/
theorem exists_of_leave (h : (t.leave n).all[s]? = some scope) : ∃ scope', t.all[s]? = some scope' ∧
    scope'.firstRow = scope.firstRow ∧ scope'.region = scope.region ∧
      scope'.parent = scope.parent := by
  unfold Scopes.leave at h
  split at h
  · rename_i current hc
    split at h
    · rw [Array.getElem?_setIfInBounds] at h
      split at h
      · rename_i heq
        subst heq
        rw [if_pos (Array.getElem?_eq_some_iff.1 hc).1] at h
        cases h
        exact ⟨current, hc, rfl, rfl, rfl⟩
      · exact ⟨scope, h, rfl, rfl, rfl⟩
    · exact ⟨scope, h, rfl, rfl, rfl⟩
  · exact ⟨scope, h, rfl, rfl, rfl⟩

end Scopes

namespace SymbolTable

variable {t t' t'' : SymbolTable} {row i s : Nat} {x : String} {kind : TokenKind} {m : Meaning}
  {σ : Signature} {info : FunctionInfo}

/-- **The signature of the function on a row,** if it stands for one. -/
def signature? (t : SymbolTable) (row : Nat) : Option Signature := t.rows[row]?.bind Row.signature?

/-- **A retired row.** -/
def Retired (t : SymbolTable) (row : Nat) : Prop := ∃ r, t.rows[row]? = some r ∧ r.isRetired = true

/-- How many rows are retired. -/
def retiredCount (t : SymbolTable) : Nat := t.rows.toList.countP Row.isRetired

section Signatures

theorem signature?_eq_some_iff : t.signature? row = some σ ↔ ∃ info name,
    t.function? row = some info ∧ t.scope? row = some σ.scope ∧ t.name? row = some name ∧
      title name = σ.name ∧ info.arity = σ.arity := by
  rw [signature?, function?, meaning?, scope?, name?]
  obtain ⟨scope, name, arity⟩ := σ
  cases t.rows[row]? with
  | none => simp
  | some r =>
    simp only [Option.bind_some, Option.map_some, Row.signature?, Option.map_eq_some_iff,
      Signature.mk.injEq, Option.some.injEq]
    constructor
    · rintro ⟨info, hf, rfl, rfl, rfl⟩
      exact ⟨info, r.name, hf, rfl, rfl, rfl, rfl⟩
    · rintro ⟨info, n, hf, rfl, rfl, rfl, rfl⟩
      exact ⟨info, hf, rfl, rfl, rfl⟩

/-- The rows with a signature are those of functions. -/
theorem isSome_signature? : (t.signature? row).isSome = (t.function? row).isSome := by
  rw [signature?, function?, meaning?]
  cases t.rows[row]? with
  | none => rfl
  | some r => exact Option.isSome_map

/-- Rows with the same scope and name, and as many parameters, have the same signature. -/
theorem signature?_congr (hf : (t'.function? row).map (·.arity) = (t.function? row).map (·.arity))
    (hs : ∀ s, t.scope? row = some s → t'.scope? row = some s)
    (hn : ∀ n, t.name? row = some n → t'.name? row = some n) :
    t'.signature? row = t.signature? row := by
  cases hsig : t.signature? row with
  | some σ =>
    obtain ⟨info, name, hinfo, hscope, hname, htitle, harity⟩ := signature?_eq_some_iff.1 hsig
    rw [hinfo] at hf
    obtain ⟨info', hinfo', harity'⟩ := Option.map_eq_some_iff.1 hf
    exact signature?_eq_some_iff.2 ⟨info', name, hinfo', hs _ hscope, hn _ hname, htitle,
      harity'.trans harity⟩
  | none =>
    cases hsig' : t'.signature? row with
    | none => rfl
    | some σ =>
      obtain ⟨info', -, hinfo', -⟩ := signature?_eq_some_iff.1 hsig'
      rw [hinfo'] at hf
      obtain ⟨info, hinfo, -⟩ := Option.map_eq_some_iff.1 hf.symm
      have hsome : (t.signature? row).isSome = (t.function? row).isSome := isSome_signature?
      rw [hsig, hinfo] at hsome
      cases hsome

theorem signature?_retire : (t.retire row).signature? i = t.signature? i := by
  rw [signature?, signature?, retire, modifyRow, Array.getElem?_modify]
  split
  · cases t.rows[i]? with
    | none => rfl
    | some r => exact r.signature?_retire
  · rfl

end Signatures

section Retired

theorem retired_iff_name? : t.Retired row ↔ ∃ name, t.name? row = some name ∧ ¬Unmarked name := by
  simp only [name?, Option.map_eq_some_iff, Unmarked, Bool.not_eq_false]
  constructor
  · rintro ⟨r, hr, hm⟩
    exact ⟨r.name, ⟨r, hr, rfl⟩, hm⟩
  · rintro ⟨_, ⟨r, hr, rfl⟩, hm⟩
    exact ⟨r, hr, hm⟩

/-- A row that is not retired lives. -/
theorem lives_iff_not_retired (h : row < t.rows.size) : t.Lives row ↔ ¬t.Retired row := by
  have hr := Array.getElem?_eq_getElem h
  constructor
  · rintro ⟨name, hname, hu⟩ ⟨r, hr', hm⟩
    rw [name?, hr', Option.map_some, Option.some.injEq] at hname
    subst hname
    rw [Unmarked] at hu
    change r.isRetired = false at hu
    rw [hu] at hm
    cases hm
  · intro hlive
    refine ⟨t.rows[row].name, by rw [name?, hr]; rfl, ?_⟩
    by_contra hm
    rw [Unmarked, Bool.not_eq_false] at hm
    exact hlive ⟨_, hr, hm⟩

/-- **One row is retired,** and no other. -/
theorem retired_retire (h : row < t.rows.size) :
    (t.retire row).Retired i ↔ t.Retired i ∨ i = row := by
  rw [Retired, retire, modifyRow, Array.getElem?_modify]
  split
  · rename_i heq
    subst heq
    rw [Array.getElem?_eq_getElem h]
    exact ⟨fun _ => .inr rfl, fun _ => ⟨_, rfl, t.rows[row].isRetired_retire⟩⟩
  · rename_i hne
    exact ⟨.inl, fun h => h.resolve_right (Ne.symm hne)⟩

/-- It counts if it has not been retired before. -/
theorem retiredCount_retire (h : row < t.rows.size) (hr : ¬t.Retired row) :
    (t.retire row).retiredCount = t.retiredCount + 1 := by
  have hlive : t.rows.toList[row].isRetired = false := by
    rw [Array.getElem_toList]
    by_contra hm
    exact hr ⟨_, Array.getElem?_eq_getElem h, by simpa using hm⟩
  have hrows : (t.retire row).rows.toList = t.rows.toList.set row t.rows.toList[row].retire := by
    rw [retire, modifyRow, Array.toList_modify, List.modify_eq_set_getElem?,
      List.getElem?_eq_getElem (by simpa using h)]
    rfl
  have hlength : row < t.rows.toList.length := by simpa using h
  rw [retiredCount, retiredCount, hrows, List.countP_set hlength, hlive, Row.isRetired_retire]
  rfl

/-- **Rows are retired,** one after another. -/
theorem retired_foldl_retire {l : List Nat} : ∀ {t : SymbolTable}, (∀ i ∈ l, i < t.rows.size) →
    ((l.foldl retire t).Retired i ↔ t.Retired i ∨ i ∈ l) := by
  induction l with
  | nil => simp
  | cons row l ih =>
    intro t hl
    obtain ⟨hrow, hl⟩ := List.forall_mem_cons.1 hl
    rw [List.foldl_cons, ih (by simpa using hl), retired_retire hrow, List.mem_cons, or_assoc]

theorem retiredCount_foldl_retire {l : List Nat} : ∀ {t : SymbolTable}, l.Nodup →
    (∀ i ∈ l, i < t.rows.size ∧ ¬t.Retired i) →
      (l.foldl retire t).retiredCount = t.retiredCount + l.length := by
  induction l with
  | nil => exact fun _ _ => rfl
  | cons row l ih =>
    intro t hnodup hl
    obtain ⟨hmem, hnodup⟩ := List.nodup_cons.1 hnodup
    obtain ⟨⟨hrow, hlive⟩, hl⟩ := List.forall_mem_cons.1 hl
    rw [List.foldl_cons, ih hnodup, retiredCount_retire hrow hlive, List.length_cons, Nat.add_assoc,
      Nat.add_comm 1]
    intro i hi
    rw [size_retire, retired_retire hrow]
    exact ⟨(hl i hi).1, fun h => h.elim (hl i hi).2 fun heq => hmem (heq ▸ hi)⟩

theorem signature?_foldl_retire {l : List Nat} : ∀ {t : SymbolTable},
    (l.foldl retire t).signature? i = t.signature? i := by
  induction l with
  | nil => exact rfl
  | cons row l ih =>
    intro t
    rw [List.foldl_cons, ih, signature?_retire]

end Retired

section Housed

/-- **A table whose rows lie where their scopes are:** behind the first row of the scope. The scope
of a body lies in the one that owns the row of its function. -/
structure Housed (t : SymbolTable) : Prop extends Orderly t where
  begins : ∀ (s : Nat) (scope : Scope), t.scopes.all[s]? = some scope → scope.firstRow ≤ t.rows.size
  behind : ∀ (row s : Nat) (scope : Scope), t.scope? row = some s → t.scopes.all[s]? = some scope →
    scope.firstRow ≤ row
  bodies : ∀ s row outer, t.scopes.At s (.body row) (some outer) → t.scope? row = some outer

/-- **An open scope owns all of its rows.** -/
theorem Housed.mem_ownRows (h : t.Housed) (hs : t.Opened s) (hrow : t.scope? row = some s) :
    row ∈ t.ownRows s := by
  obtain ⟨scope, hscope, hend, -⟩ := hs
  have hle := h.behind row s scope hrow hscope
  have hlt := lt_of_scope? hrow
  rw [ownRows, hscope]
  dsimp only
  rw [hend, Option.getD_none, List.mem_filter, List.mem_reverse, List.mem_range'_1]
  exact ⟨by omega, beq_iff_eq.2 hrow⟩

/-- Rows may change but for their scopes. -/
theorem Housed.congr (h : t.Housed) (hscopes : t'.scopes = t.scopes)
    (hsize : t'.rows.size = t.rows.size) (hscope : ∀ i, t'.scope? i = t.scope? i) : t'.Housed where
  nested := hscopes ▸ h.nested
  placed row s hs := by
    rw [hscopes]
    exact h.placed row s ((hscope row).symm.trans hs)
  begins s scope hs := by
    rw [hsize]
    exact h.begins s scope (hscopes ▸ hs)
  behind row s scope hrow hs :=
    h.behind row s scope ((hscope row).symm.trans hrow) (hscopes ▸ hs)
  bodies s row outer hat := (hscope row).trans (h.bodies s row outer (hscopes ▸ hat))

theorem Housed.appendRow (h : t.Housed) : (t.appendRow x kind).2.Housed where
  nested := h.nested
  placed row s hs := by
    rw [scope?_appendRow] at hs
    split at hs
    · cases hs
      exact h.nested.current
    · exact h.placed row s hs
  begins s scope hs := by
    rw [size_appendRow]
    exact Nat.le_succ_of_le (h.begins s scope hs)
  behind row s scope hrow hs := by
    rw [scope?_appendRow] at hrow
    split at hrow
    · rename_i heq
      rw [heq]
      exact h.begins s scope hs
    · exact h.behind row s scope hrow hs
  bodies s row outer hat := by
    have hrow := h.bodies s row outer hat
    rw [scope?_appendRow, if_neg (Nat.ne_of_lt (lt_of_scope? hrow))]
    exact hrow

/-- **A scope is entered;** that of a body in the scope of its function's row. -/
theorem Housed.enterScope (h : t.Housed) {region : Region}
    (hr : ∀ row, region = .body row → t.scope? row = some t.currentScope) :
    (t.enterScope region).Housed where
  nested := h.nested.enter
  placed row s hs := by
    rw [SymbolTable.enterScope, Scopes.size_enter]
    exact Nat.lt_succ_of_lt (h.placed row s hs)
  begins s scope hs := by
    rw [SymbolTable.enterScope, Scopes.enter, Array.getElem?_push] at hs
    split at hs
    · cases hs
      exact Nat.le_refl _
    · exact h.begins s scope hs
  behind row s scope hrow hs := by
    have hlt := h.placed row s hrow
    rw [getElem?_enterScope hlt] at hs
    exact h.behind row s scope hrow hs
  bodies s row outer hat := by
    obtain ⟨scope, hs, hregion, hparent⟩ := hat
    rw [SymbolTable.enterScope, Scopes.enter, Array.getElem?_push] at hs
    split at hs
    · cases hs
      cases hparent
      exact hr row hregion
    · exact h.bodies s row outer ⟨scope, hs, hregion, hparent⟩

theorem Housed.leaveScope (h : t.Housed) : t.leaveScope.Housed where
  nested := h.nested.leave
  placed row s hs := by
    rw [SymbolTable.leaveScope, Scopes.size_leave]
    exact h.placed row s hs
  begins s scope hs := by
    obtain ⟨scope', hs', heq, -⟩ := Scopes.exists_of_leave hs
    exact heq ▸ h.begins s scope' hs'
  behind row s scope hrow hs := by
    obtain ⟨scope', hs', heq, -⟩ := Scopes.exists_of_leave hs
    exact heq ▸ h.behind row s scope' hrow hs'
  bodies s row outer hat := by
    obtain ⟨scope, hs, hregion, hparent⟩ := hat
    obtain ⟨scope', hs', -, hregion', hparent'⟩ := Scopes.exists_of_leave hs
    exact h.bodies s row outer ⟨scope', hs', hregion'.trans hregion, hparent'.trans hparent⟩

/-- Only the names of rows change. -/
theorem Housed.retire (h : t.Housed) (row : Nat) : (t.retire row).Housed :=
  h.congr rfl size_retire fun _ => scope?_retire

theorem Housed.foldl_retire (h : t.Housed) (l : List Nat) : (l.foldl SymbolTable.retire t).Housed := by
  induction l generalizing t with
  | nil => exact h
  | cons i l ih => exact ih (h.retire i)

theorem housed_ofKeywords (keywords : List String) : (ofKeywords keywords).Housed where
  toOrderly := (usable_ofKeywords keywords).indexed.orderly
  begins s scope hs := by
    obtain rfl : s = 0 := Nat.lt_one_iff.1 (Array.getElem?_eq_some_iff.1 hs).1
    cases hs
    exact Nat.zero_le _
  behind row s scope _ hs := by
    obtain rfl : s = 0 := Nat.lt_one_iff.1 (Array.getElem?_eq_some_iff.1 hs).1
    cases hs
    exact Nat.zero_le _
  bodies s row outer hat := by
    obtain ⟨scope, hs, hregion, -⟩ := hat
    obtain rfl : s = 0 := Nat.lt_one_iff.1 (Array.getElem?_eq_some_iff.1 hs).1
    cases hs
    cases hregion

end Housed

section Lengthens

/-- The names of the rows. -/
def names (t : SymbolTable) : List String := t.rows.toList.map (·.name)

theorem name?_eq_names : t.name? row = t.names[row]? := by
  rw [names, List.getElem?_map, Array.getElem?_toList, name?]

theorem retiredCount_eq_names :
    t.retiredCount = t.names.countP (retiredMark.toList.isPrefixOf ·.toList) := by
  rw [retiredCount, names, List.countP_map]
  rfl

/-- **A change of the table in which rows stay where they are,** and all new rows have this name. -/
structure Lengthens (x : String) (t t' : SymbolTable) : Prop where
  names : ∃ count, t'.names = t.names ++ List.replicate count x
  places : ∀ row s, t.scope? row = some s → t'.scope? row = some s
  housed : t.Housed → t'.Housed

theorem Lengthens.refl (x : String) (t : SymbolTable) : Lengthens x t t :=
  ⟨⟨0, (List.append_nil _).symm⟩, fun _ _ h => h, id⟩

theorem Lengthens.trans (h : Lengthens x t t') (h' : Lengthens x t' t'') : Lengthens x t t'' where
  names := by
    obtain ⟨count, heq⟩ := h.names
    obtain ⟨count', heq'⟩ := h'.names
    exact ⟨count + count', by rw [heq', heq, List.append_assoc, List.replicate_append_replicate]⟩
  places row s hs := h'.places row s (h.places row s hs)
  housed ht := h'.housed (h.housed ht)

/-- **A row keeps its name.** -/
theorem Lengthens.name? (h : Lengthens x t t') {name : String} (hn : t.name? row = some name) :
    t'.name? row = some name := by
  obtain ⟨count, heq⟩ := h.names
  rw [name?_eq_names] at hn ⊢
  rw [heq, List.getElem?_append_left (List.getElem?_eq_some_iff.1 hn).1]
  exact hn

/-- **No row is retired,** if the new name is not that of a retired one. -/
theorem Lengthens.retired (h : Lengthens x t t') (hx : Unmarked x) :
    t'.Retired row ↔ t.Retired row := by
  rw [retired_iff_name?, retired_iff_name?]
  constructor
  · rintro ⟨name, hname, hm⟩
    obtain ⟨count, heq⟩ := h.names
    rw [name?_eq_names, heq] at hname
    refine ⟨name, ?_, hm⟩
    rw [name?_eq_names]
    by_cases hlt : row < t.names.length
    · rwa [List.getElem?_append_left hlt] at hname
    · rw [List.getElem?_append_right (Nat.le_of_not_lt hlt)] at hname
      obtain rfl := List.eq_of_mem_replicate (List.mem_of_getElem? hname)
      exact absurd hx hm
  · rintro ⟨name, hname, hm⟩
    exact ⟨name, h.name? hname, hm⟩

theorem Lengthens.retiredCount (h : Lengthens x t t') (hx : Unmarked x) :
    t'.retiredCount = t.retiredCount := by
  obtain ⟨count, heq⟩ := h.names
  rw [retiredCount_eq_names, retiredCount_eq_names, heq, List.countP_append,
    List.countP_replicate, hx]
  rfl

theorem lengthens_appendRow : Lengthens x t (t.appendRow x kind).2 where
  names := ⟨1, by simp [SymbolTable.names, SymbolTable.appendRow]⟩
  places row s hs := by
    rw [scope?_appendRow, if_neg (Nat.ne_of_lt (lt_of_scope? hs))]
    exact hs
  housed h := h.appendRow

theorem lengthens_rowFor {reuse : Meaning → Bool} : Lengthens x t (t.rowFor x kind reuse).2 :=
  rowFor_induction (P := Lengthens x t) (.refl x t) lengthens_appendRow

theorem lengthens_record (token : Token) : Lengthens token.lexeme t (t.record token) := by
  rcases record_cases t token with h | ⟨h, -⟩
  · rw [h]
    exact .refl _ t
  · rw [h]
    exact lengthens_appendRow

theorem lengthens_setMeaning : Lengthens x t (t.setMeaning row m) where
  names := by
    refine ⟨0, ?_⟩
    rw [List.replicate_zero, List.append_nil]
    exact List.ext_getElem? fun i => by
      rw [← name?_eq_names, ← name?_eq_names, name?_setMeaning]
  places _ _ hs := scope?_setMeaning.trans hs
  housed h := h.congr rfl size_setMeaning fun _ => scope?_setMeaning

theorem lengthens_enterLoop : Lengthens x t (t.enterScope .loop) where
  names := (Lengthens.refl x t).names
  places _ _ hs := hs
  housed h := h.enterScope nofun

theorem lengthens_leaveScope : Lengthens x t t.leaveScope where
  names := (Lengthens.refl x t).names
  places _ _ hs := hs
  housed h := h.leaveScope

/-- **The row of a function is found, and the scope of its body entered.** -/
theorem lengthens_enterBody {reuse : Meaning → Bool} : Lengthens x t
    ((t.rowFor x kind reuse).2.enterScope (.body (t.rowFor x kind reuse).1)) := by
  refine lengthens_rowFor.trans ⟨(Lengthens.refl x _).names, fun _ _ hs => hs, fun h => ?_⟩
  refine h.enterScope fun row heq => ?_
  cases heq
  rw [currentScope, scopes_rowFor]
  exact scope?_rowFor _ _ _ _

end Lengthens

section Overloads

/-- **The functions of a table** by their rows: the definitions of some are open, those of others
have ended, the latest first. Of functions that are `settled`, those are retired behind which
another with their signature has been defined. -/
structure Overloads (opened defined settled : List Nat) (t : SymbolTable) : Prop where
  housed : t.Housed
  nodup : (opened ++ defined).Nodup
  functions : ∀ row, (t.function? row).isSome → row ∈ opened ++ defined
  made : ∀ row ∈ defined, (t.function? row).isSome
  within : settled ⊆ defined
  retired : ∀ row, t.Retired row ↔
    ∃ later, [later, row].Sublist settled ∧ t.signature? later = t.signature? row

variable {opened defined settled l : List Nat}

/-- **Functions stay as they are,** but for those whose definitions are open. -/
theorem Overloads.lengthens (h : t.Overloads opened defined settled) (hl : Lengthens x t t')
    (hx : Unmarked x) (hf : ∀ row, row ∉ opened →
      (t'.function? row).map (·.arity) = (t.function? row).map (·.arity)) :
    t'.Overloads opened defined settled := by
  have hsome : ∀ row, row ∉ opened → (t'.function? row).isSome = (t.function? row).isSome :=
    fun row hrow => by rw [← Option.isSome_map, hf row hrow, Option.isSome_map]
  have hclosed : ∀ row ∈ defined, row ∉ opened := fun row hrow ho =>
    (List.nodup_append.1 h.nodup).2.2 row ho row hrow rfl
  refine ⟨hl.housed h.housed, h.nodup, fun row hrow => ?_, fun row hrow => ?_, h.within,
    fun row => ?_⟩
  · by_cases ho : row ∈ opened
    · exact List.mem_append_left _ ho
    · exact h.functions row ((hsome row ho).symm.trans hrow)
  · exact (hsome row (hclosed row hrow)).trans (h.made row hrow)
  · have hsig : ∀ row ∈ settled, t'.signature? row = t.signature? row := fun row hrow =>
      signature?_congr (hf row (hclosed row (h.within hrow))) (hl.places row) fun _ => hl.name?
    rw [hl.retired hx, h.retired]
    refine exists_congr fun later => and_congr_right fun hsub => ?_
    rw [hsig later (hsub.subset List.mem_cons_self),
      hsig row (hsub.subset (List.mem_cons_of_mem _ List.mem_cons_self))]

/-- **A definition begins** on a row of no function. -/
theorem Overloads.begin (h : t.Overloads opened defined settled) (hrow : row ∉ opened ++ defined) :
    t.Overloads (row :: opened) defined settled where
  housed := h.housed
  nodup := List.nodup_cons.2 ⟨hrow, h.nodup⟩
  functions i hi := List.mem_cons_of_mem _ (h.functions i hi)
  made := h.made
  within := h.within
  retired := h.retired

/-- **A definition ends,** and its rivals are still there. -/
theorem Overloads.close (h : t.Overloads (row :: opened) defined settled)
    (hrow : (t.function? row).isSome) : t.Overloads opened (row :: defined) settled where
  housed := h.housed
  nodup := List.perm_middle.nodup_iff.2 h.nodup
  functions i hi := List.perm_middle.mem_iff.2 (h.functions i hi)
  made := List.forall_mem_cons.2 ⟨hrow, h.made⟩
  within := List.subset_cons_of_subset _ h.within
  retired := h.retired

/-- A function that has just been defined is not retired. -/
theorem Overloads.not_retired (h : t.Overloads opened (row :: settled) settled) :
    ¬t.Retired row := by
  rw [h.retired]
  rintro ⟨later, hsub, -⟩
  have hnodup := (List.nodup_append.1 h.nodup).2.1
  exact (List.nodup_cons.1 hnodup).1 (hsub.subset (List.mem_cons_of_mem _ List.mem_cons_self))

/-- **Its rivals are retired.** They are none of the functions whose definitions are open, which lie
in other scopes. -/
theorem Overloads.settle (h : t.Overloads opened (row :: settled) settled)
    (hs : t.scope? row = some s) (ho : ∀ i ∈ opened, t.scope? i ≠ some s)
    (hl : ∀ i, i ∈ l ↔ i ≠ row ∧ ¬t.Retired i ∧ t.signature? i = t.signature? row) :
    (l.foldl retire t).Overloads opened (row :: settled) (row :: settled) := by
  obtain ⟨σ, hσ⟩ := Option.isSome_iff_exists.1
    (isSome_signature?.trans (h.made row List.mem_cons_self))
  obtain ⟨-, -, -, hscope, -⟩ := signature?_eq_some_iff.1 hσ
  -- a function with the signature of the row has been defined before it
  have hbefore : ∀ i, i ≠ row → t.signature? i = t.signature? row → i ∈ settled := by
    intro i hne hi
    obtain ⟨info', -, hinfo', hscope', -⟩ := signature?_eq_some_iff.1 (hi.trans hσ)
    rcases List.mem_append.1 (h.functions i (by rw [hinfo']; rfl)) with hmem | hmem
    · exact absurd (hscope'.trans (hscope.symm.trans hs)) (ho i hmem)
    · exact (List.mem_cons.1 hmem).resolve_left hne
  have hsize : ∀ i ∈ l, i < t.rows.size := by
    intro i hi
    obtain ⟨info', -, hinfo', -⟩ := signature?_eq_some_iff.1 (((hl i).1 hi).2.2.trans hσ)
    exact lt_of_function? hinfo'
  have hfunction : ∀ i, ((l.foldl retire t).function? i).isSome = (t.function? i).isSome := fun i => by
    rw [← isSome_signature?, ← isSome_signature?, signature?_foldl_retire]
  refine ⟨h.housed.foldl_retire l, h.nodup, fun i hi => h.functions i ((hfunction i).symm.trans hi),
    fun i hi => (hfunction i).trans (h.made i hi), List.Subset.refl _, fun i => ?_⟩
  simp only [signature?_foldl_retire]
  rw [retired_foldl_retire hsize, h.retired, hl]
  constructor
  · rintro (⟨later, hsub, hsig⟩ | ⟨hne, -, hsig⟩)
    · exact ⟨later, hsub.cons _, hsig⟩
    · exact ⟨row, (List.singleton_sublist.2 (hbefore i hne hsig)).cons_cons _, hsig.symm⟩
  · rintro ⟨later, hsub, hsig⟩
    by_cases hretired : t.Retired i
    · exact .inl ((h.retired i).1 hretired)
    · rcases List.sublist_cons_iff.1 hsub with hsub | ⟨_, heq, hsub⟩
      · exact .inl ⟨later, hsub, hsig⟩
      · obtain ⟨rfl, rfl⟩ := List.cons.inj heq
        have hmem := List.singleton_sublist.1 hsub
        have hnodup := (List.nodup_append.1 h.nodup).2.1
        refine .inr ⟨?_, hretired, hsig.symm⟩
        rintro rfl
        exact (List.nodup_cons.1 hnodup).1 hmem

/-- **Functions that calls can tell apart,** where these have been defined, the latest first: no two
that live have the same scope and name and as many parameters. Of those with one signature the one
that has been defined last lives, and the others are retired, as is nothing else. -/
structure Unambiguous (defined : List Nat) (t : SymbolTable) : Prop where
  nodup : defined.Nodup
  functions : ∀ row, (t.function? row).isSome ↔ row ∈ defined
  distinct : ∀ row row' info info', t.Lives row → t.Lives row' → t.function? row = some info →
    t.function? row' = some info' → t.scope? row = t.scope? row' → t.name? row = t.name? row' →
      info.arity = info'.arity → row = row'
  survivor : ∀ row ∈ defined, t.Lives row ↔
    ∀ later, [later, row].Sublist defined → t.signature? later ≠ t.signature? row
  retired : ∀ row, t.Retired row → (t.function? row).isSome

/-- Of two items of a list one comes before the other. -/
theorem sublist_pair {i j : Nat} (hi : i ∈ l) (hj : j ∈ l) (hne : i ≠ j) :
    [i, j].Sublist l ∨ [j, i].Sublist l := by
  induction l with
  | nil => cases hi
  | cons k l ih =>
    rcases List.mem_cons.1 hi with rfl | hi'
    · have hj' := (List.mem_cons.1 hj).resolve_left (Ne.symm hne)
      exact .inl ((List.singleton_sublist.2 hj').cons_cons _)
    · rcases List.mem_cons.1 hj with rfl | hj'
      · exact .inr ((List.singleton_sublist.2 hi').cons_cons _)
      · exact (ih hi' hj').imp (.cons _) (.cons _)

/-- **Functions can be told apart** when all that have been defined are settled. -/
theorem Overloads.unambiguous (h : t.Overloads [] defined defined) : t.Unambiguous defined := by
  have hsize : ∀ row ∈ defined, row < t.rows.size := fun row hrow => by
    obtain ⟨info, hinfo⟩ := Option.isSome_iff_exists.1 (h.made row hrow)
    exact lt_of_function? hinfo
  have hsurvivor : ∀ row ∈ defined, t.Lives row ↔
      ∀ later, [later, row].Sublist defined → t.signature? later ≠ t.signature? row := by
    intro row hrow
    rw [lives_iff_not_retired (hsize row hrow), h.retired]
    exact ⟨fun hlive later hsub heq => hlive ⟨later, hsub, heq⟩,
      fun hlive ⟨later, hsub, heq⟩ => hlive later hsub heq⟩
  refine ⟨h.nodup, fun row => ⟨h.functions row, h.made row⟩, ?_, hsurvivor, fun row hrow => ?_⟩
  · intro row row' info info' hlive hlive' hinfo hinfo' hscope hname harity
    by_contra hne
    have hmem := h.functions row (by rw [hinfo]; rfl)
    have hmem' := h.functions row' (by rw [hinfo']; rfl)
    -- rows with one scope, name and number of parameters have one signature
    have hsig : t.signature? row = t.signature? row' := by
      obtain ⟨σ, hσ⟩ := Option.isSome_iff_exists.1
        (isSome_signature?.trans (h.made row' hmem'))
      obtain ⟨_, name, hf, hs, hn, htitle, ha⟩ := signature?_eq_some_iff.1 hσ
      rw [hinfo', Option.some.injEq] at hf
      subst hf
      rw [hσ]
      exact signature?_eq_some_iff.2 ⟨info, name, hinfo, hscope.trans hs, hname.trans hn, htitle,
        harity.trans ha⟩
    rcases sublist_pair hmem hmem' hne with hsub | hsub
    · exact (hsurvivor row' hmem').1 hlive' row hsub hsig
    · exact (hsurvivor row hmem).1 hlive row' hsub hsig.symm
  · obtain ⟨later, hsub, -⟩ := (h.retired row).1 hrow
    exact h.made row (hsub.subset (List.mem_cons_of_mem _ List.mem_cons_self))

end Overloads

end SymbolTable

end OnePass.Names
