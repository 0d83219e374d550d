import OnePass.Proofs.Names.Rows

/-!
# The row of the loops

The record of the open loops stands on the row of the loop keyword. As no other row that
names can be given to is called so, whatever happens to names leaves the record alone.

* `SymbolTable.loops?`: the record, if the keyword has a row that can hold it.
* `loops?_setMeaning`, `loops?_rowFor`, `loops?_retire`, …: what leaves it alone.
* `loops?_setLoops`: what changes it.
-/

namespace OnePass.Names

open Lexical (Token TokenKind)

/-- The record of the loops in a meaning that can hold it. -/
def Meaning.asLoops? : Meaning → Option LoopRecord
  | .loops record => some record
  | .variable _ => some .empty
  | .function _ => none

namespace SymbolTable

/-- The row that records the loops. -/
def loopRow? (t : SymbolTable) : Option Nat := t.latestIn Scopes.outermost loopKeyword false

/-- **The record of the open loops.** -/
def loops? (t : SymbolTable) : Option LoopRecord :=
  t.loopRow?.bind fun row => (t.meaning? row).bind Meaning.asLoops?

variable {t t' : SymbolTable} {row : Nat} {name : String} {kind : TokenKind} {m : Meaning}

/-- Whether a row is one of the loop keyword in the outermost scope. -/
def isLoopRow (t : SymbolTable) (i : Nat) : Bool :=
  t.scope? i == some Scopes.outermost && t.name? i == some loopKeyword

theorem loopRow?_eq (h : t.scopes.Rooted) :
    t.loopRow? = (List.range t.rows.size).reverse.find? t.isLoopRow := by
  unfold loopRow? latestIn ownRows
  rw [h]
  dsimp only
  rw [List.find?_filter, List.range_eq_range']
  congr 1
  funext i
  simp only [isLoopRow, scope?, carries, Bool.not_false, Bool.true_or, Bool.and_true,
    Bool.decide_and, Bool.decide_eq_true]

theorem isLoopRow_of_loopRow? (h : t.scopes.Rooted) (hrow : t.loopRow? = some row) :
    t.isLoopRow row = true := by
  rw [loopRow?_eq h] at hrow
  exact List.find?_some hrow

theorem find?_congr {α : Type} {p q : α → Bool} {l : List α} (h : ∀ a ∈ l, p a = q a) :
    l.find? p = l.find? q := by
  induction l with
  | nil => rfl
  | cons a l ih =>
    rw [List.find?_cons, List.find?_cons, h a List.mem_cons_self,
      ih fun b hb => h b (List.mem_cons_of_mem _ hb)]

/-- Tables that agree on the rows of the loop keyword agree on the loops. -/
theorem loops?_congr (h : t.scopes.Rooted) (h' : t'.scopes.Rooted)
    (hsize : t'.rows.size = t.rows.size) (hrow : ∀ i, t'.isLoopRow i = t.isLoopRow i)
    (hm : ∀ i, t.isLoopRow i = true → t'.meaning? i = t.meaning? i) : t'.loops? = t.loops? := by
  have heq : t'.loopRow? = t.loopRow? := by
    rw [loopRow?_eq h, loopRow?_eq h', hsize]
    exact find?_congr fun i _ => hrow i
  unfold loops?
  rw [heq]
  cases hl : t.loopRow? with
  | none => rfl
  | some row => simp [hm row (isLoopRow_of_loopRow? h hl)]

theorem loops?_setMeaning (h : t.scopes.Rooted) (hn : t.name? row ≠ some loopKeyword) :
    (t.setMeaning row m).loops? = t.loops? := by
  refine loops?_congr h h size_setMeaning (fun i => by simp [isLoopRow]) fun i hi => ?_
  rw [meaning?_setMeaning, if_neg]
  rintro rfl
  simp [isLoopRow, hn] at hi

theorem loops?_appendRow (h : t.scopes.Rooted) (hn : name ≠ loopKeyword) :
    (t.appendRow name kind).2.loops? = t.loops? := by
  have hold : ∀ i, i < t.rows.size →
      (t.appendRow name kind).2.isLoopRow i = t.isLoopRow i ∧
        (t.appendRow name kind).2.meaning? i = t.meaning? i := by
    intro i hi
    simp [isLoopRow, name?_appendRow, scope?_appendRow, meaning?_appendRow, Nat.ne_of_lt hi]
  have hrow : (t.appendRow name kind).2.loopRow? = t.loopRow? := by
    have hnew : (t.appendRow name kind).2.isLoopRow t.rows.size = false := by
      simp [isLoopRow, name?_appendRow, hn]
    have h' : (t.appendRow name kind).2.scopes.Rooted := h
    rw [loopRow?_eq h, loopRow?_eq h', size_appendRow, List.range_succ, List.reverse_append,
      List.reverse_singleton, List.singleton_append, List.find?_cons, hnew]
    refine find?_congr fun i hi => (hold i ?_).1
    simpa using hi
  unfold loops?
  rw [hrow]
  cases hl : t.loopRow? with
  | none => rfl
  | some row =>
    rw [loopRow?_eq h] at hl
    have hlt : row < t.rows.size := by simpa using List.mem_of_find?_eq_some hl
    simp [(hold row hlt).2]

theorem loops?_rowFor (h : t.scopes.Rooted) (hn : name ≠ loopKeyword) (reuse : Meaning → Bool) :
    (t.rowFor name kind reuse).2.loops? = t.loops? := by
  rcases (rowFor_spec t name kind reuse).2 with ⟨h', -⟩ | h'
  · rw [h']
  · rw [h']
    exact loops?_appendRow h hn

theorem loops?_enterScope (h : t.scopes.Rooted) (region : Region) :
    (t.enterScope region).loops? = t.loops? :=
  loops?_congr (t := t) h (h.enter region _) rfl (fun _ => rfl) fun _ _ => rfl

theorem loops?_leaveScope (h : t.scopes.Rooted) : t.leaveScope.loops? = t.loops? :=
  loops?_congr (t := t) h (h.leave _) rfl (fun _ => rfl) fun _ _ => rfl

theorem name?_retire (t : SymbolTable) (row : Nat) : (t.retire row).name? row ≠ some loopKeyword ∨
    (t.retire row).name? row = t.name? row := by
  simp only [name?, retire, modifyRow, Array.getElem?_modify, if_pos]
  cases hr : t.rows[row]? with
  | none => exact .inr rfl
  | some r =>
    simp only [Option.map_some, Row.retire]
    split
    · exact .inr rfl
    · refine .inl ?_
      simp only [ne_eq, Option.some.injEq]
      intro hc
      have hhead := congrArg (fun s : String => s.toList.head?) hc
      rw [String.toList_append] at hhead
      have hmark : retiredMark.toList = '~' :: "dead~".toList := by decide
      rw [hmark] at hhead
      cases hhead

theorem loops?_retire (h : t.scopes.Rooted) (hn : t.name? row ≠ some loopKeyword) :
    (t.retire row).loops? = t.loops? := by
  refine loops?_congr h h size_retire (fun i => ?_) fun i _ => meaning?_retire
  unfold isLoopRow
  rw [scope?_retire]
  by_cases hi : row = i
  · subst hi
    rcases name?_retire t row with h' | h'
    · rw [beq_eq_false_iff_ne.2 h', beq_eq_false_iff_ne.2 hn]
    · rw [h']
  · rw [name?_retire_ne hi]

/-- Recording a token leaves the loops alone, if no name is the loop keyword. -/
theorem loops?_record (h : t.scopes.Rooted) {token : Token} {record : LoopRecord}
    (hl : t.loops? = some record) (hid : token.kind = .identifier → token.lexeme ≠ loopKeyword) :
    (t.record token).loops? = some record := by
  rcases record_cases t token with h' | ⟨h', hkind⟩
  · rw [h', hl]
  · have hne : token.lexeme ≠ loopKeyword := by
      rcases hkind with hkind | hnone
      · exact hid hkind
      · intro heq
        rw [heq] at hnone
        rw [loops?, loopRow?, hnone] at hl
        cases hl
    rw [h', loops?_appendRow h hne, hl]

theorem loopRow?_setMeaning (h : t.scopes.Rooted) : (t.setMeaning row m).loopRow? = t.loopRow? := by
  rw [loopRow?_eq (t := t.setMeaning row m) h, size_setMeaning, loopRow?_eq h]
  exact find?_congr fun i _ => by simp [isLoopRow]

/-- The record is changed on its row. -/
theorem loops?_setLoops (h : t.scopes.Rooted) (hrow : t.loopRow? = some row)
    {record : LoopRecord} (hl : t.loops?.isSome) :
    (t.setMeaning row (.loops record)).loops? = some record := by
  have hrow' : (t.setMeaning row (.loops record)).loopRow? = some row :=
    (loopRow?_setMeaning h).trans hrow
  rw [loops?, hrow] at hl
  obtain ⟨r, hr⟩ := Option.isSome_iff_exists.1 hl
  rw [Option.bind_some] at hr
  obtain ⟨m, hm, -⟩ := Option.bind_eq_some_iff.1 hr
  rw [loops?, hrow', Option.bind_some, meaning?_setMeaning, if_pos rfl, hm]
  rfl

end SymbolTable

end OnePass.Names
