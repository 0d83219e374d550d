import OnePass.Proofs.Emission.Places

/-!
# Tables that every action can use

The numbers in a table lead somewhere: a scope lies in an older one, a row belongs to a
scope, the rows of a scope are rows of the table, and the marks of the open loops lie
within the lists that they cut. Besides, the loop keyword keeps its row where it is
reserved, as no function is ever called so.

* `LoopRecord.Marked`: the marks of the open loops.
* `SymbolTable.Indexed`: a table whose numbers lead somewhere.
* `SymbolTable.Usable`: such a table, with the row that loops ask for.
* `Usable.setMeaning`, `Usable.rowFor`, `Usable.enterScope`, …: what keeps it usable.
-/

namespace OnePass.Names

open Lexical (Token TokenKind)

namespace LoopRecord

/-- **Marks cut the lists they stand for:** every open loop has one of each kind, an outer loop's is
no greater than an inner one's, and none is greater than the length of its list. -/
structure Marked (l : LoopRecord) : Prop where
  breakMarks : l.breakMarks.length = l.starts.length
  continueMarks : l.continueMarks.length = l.starts.length
  breaks : (l.breaks.length :: l.breakMarks).Pairwise (· ≥ ·)
  continues : (l.continues.length :: l.continueMarks).Pairwise (· ≥ ·)

variable {l outer : LoopRecord} {closed : ClosedLoop}

theorem marked_empty : empty.Marked := ⟨rfl, rfl, by simp [empty], by simp [empty]⟩

/-- One more slot waits. -/
theorem pairwise_push {slots marks : List Nat} (h : (slots.length :: marks).Pairwise (· ≥ ·))
    (slot : Nat) : ((slots ++ [slot]).length :: marks).Pairwise (· ≥ ·) := by
  rw [List.pairwise_cons] at h ⊢
  refine ⟨fun m hm => ?_, h.2⟩
  rw [List.length_append]
  exact Nat.le_trans (h.1 m hm) (Nat.le_add_right _ _)

/-- What is left of a list behind its first mark has the other marks. -/
theorem pairwise_take {slots marks : List Nat} (h : (slots.length :: marks).Pairwise (· ≥ ·))
    (hne : marks ≠ []) :
    ((slots.take (marks.headD 0)).length :: marks.tail).Pairwise (· ≥ ·) := by
  cases marks with
  | nil => exact absurd rfl hne
  | cons mark marks =>
    have hle : mark ≤ slots.length := (List.pairwise_cons.1 h).1 mark List.mem_cons_self
    rw [List.headD_cons, List.length_take, Nat.min_eq_left hle]
    exact h.of_cons

theorem Marked.enter (h : l.Marked) (start : Nat) : (l.enter start).Marked where
  breakMarks := congrArg (· + 1) h.breakMarks
  continueMarks := congrArg (· + 1) h.continueMarks
  breaks := by
    have hmarks := (List.pairwise_cons.1 h.breaks).1
    exact List.pairwise_cons.2 ⟨List.forall_mem_cons.2 ⟨Nat.le_refl _, hmarks⟩, h.breaks⟩
  continues := by
    have hmarks := (List.pairwise_cons.1 h.continues).1
    exact List.pairwise_cons.2 ⟨List.forall_mem_cons.2 ⟨Nat.le_refl _, hmarks⟩, h.continues⟩

theorem Marked.addBreak (h : l.Marked) (slot : Nat) : (l.addBreak slot).Marked :=
  { h with breaks := pairwise_push h.breaks slot }

theorem Marked.addContinue (h : l.Marked) (slot : Nat) : (l.addContinue slot).Marked :=
  { h with continues := pairwise_push h.continues slot }

theorem Marked.leave (h : l.Marked) (hl : l.leave? = some (closed, outer)) : outer.Marked := by
  unfold leave? at hl
  split at hl
  · cases hl
  · rename_i start starts hs
    have hb := h.breakMarks
    have hc := h.continueMarks
    rw [hs, List.length_cons] at hb hc
    cases hl
    refine ⟨?_, ?_, ?_, ?_⟩
    · rw [List.length_tail, hb, Nat.add_sub_cancel]
    · rw [List.length_tail, hc, Nat.add_sub_cancel]
    · refine pairwise_take h.breaks fun hnil => ?_
      rw [hnil] at hb
      cases hb
    · refine pairwise_take h.continues fun hnil => ?_
      rw [hnil] at hc
      cases hc

end LoopRecord

namespace Scopes

variable {t : Scopes} {s endRow size : Nat} {scope : Scope} {region : Region}

/-- What a scope stands for never changes. -/
theorem region?_leave (t : Scopes) (endRow s : Nat) : (t.leave endRow).region? s = t.region? s := by
  unfold Scopes.leave
  split
  · rename_i scope hc
    split
    · rw [region?, region?, Array.getElem?_setIfInBounds]
      split
      · rename_i heq
        subst heq
        rw [if_pos (Array.getElem?_eq_some_iff.1 hc).1, hc]
        rfl
      · rfl
    · rfl
  · rfl

theorem region?_enter (t : Scopes) (region : Region) (firstRow s : Nat) :
    (t.enter region firstRow).region? s =
      if s = t.all.size then some region else t.region? s := by
  rw [region?, Scopes.enter, Array.getElem?_push]
  split <;> rfl

/-- A scope that is left ends behind the last row. -/
theorem endRow_leave (hs : (t.leave endRow).all[s]? = some scope) :
    scope.endRow = some endRow ∨ t.all[s]? = some scope := by
  unfold Scopes.leave at hs
  split at hs
  · split at hs
    · dsimp only at hs
      rw [Array.getElem?_setIfInBounds] at hs
      split at hs
      · split at hs
        · cases hs
          exact .inl rfl
        · cases hs
      · exact .inr hs
    · exact .inr hs
  · exact .inr hs

/-- A scope that is left begins where it did. -/
theorem firstRow_leave (hs : (t.leave endRow).all[s]? = some scope) :
    ∃ scope', t.all[s]? = some scope' ∧ scope.firstRow = scope'.firstRow := by
  unfold Scopes.leave at hs
  split at hs
  · rename_i current hcurrent
    split at hs
    · dsimp only at hs
      rw [Array.getElem?_setIfInBounds] at hs
      split at hs
      · rename_i heq
        split at hs
        · cases hs
          exact ⟨current, heq ▸ hcurrent, rfl⟩
        · cases hs
      · exact ⟨scope, hs, rfl⟩
    · exact ⟨scope, hs, rfl⟩
  · exact ⟨scope, hs, rfl⟩

end Scopes

namespace SymbolTable

/-- **A table whose numbers lead somewhere.** Scopes are nested and rows belong to them, the rows
that a scope owns are rows of the table, and the marks of loops lie within their lists. -/
structure Indexed (t : SymbolTable) : Prop where
  orderly : t.Orderly
  begins : ∀ (s : Nat) (scope : Scope), t.scopes.all[s]? = some scope →
    scope.firstRow ≤ t.rows.size
  ranges : ∀ (s : Nat) (scope : Scope), t.scopes.all[s]? = some scope →
    scope.endRow.getD t.rows.size ≤ t.rows.size
  marked : ∀ row record, t.meaning? row = some (.loops record) → record.Marked

/-- **A table that every action can use.** Where the loop keyword is reserved it has a row, which no
function takes; where it is not there are no loops. -/
structure Usable (keywords : List String) (t : SymbolTable) : Prop where
  indexed : t.Indexed
  rooted : t.scopes.Rooted
  keyword : keywords.contains loopKeyword = true → ∃ row, t.isLoopRow row = true
  functions : keywords.contains loopKeyword = true → ∀ row, (t.function? row).isSome →
    t.name? row ≠ some loopKeyword
  loopless : keywords.contains loopKeyword = false → ∀ s, t.scopes.region? s ≠ some .loop
  recordless : keywords.contains loopKeyword = false → ∀ row record,
    t.meaning? row ≠ some (.loops record)

variable {keywords : List String} {t t' : SymbolTable} {row : Nat} {name : String}
  {kind : TokenKind} {m : Meaning}

/-- Rows may be added while scopes stay as they are. -/
theorem Indexed.of_scopes (h : t.Indexed) (ho : t'.Orderly) (hs : t'.scopes = t.scopes)
    (hsize : t.rows.size ≤ t'.rows.size)
    (hm : ∀ row record, t'.meaning? row = some (.loops record) → record.Marked) : t'.Indexed := by
  refine ⟨ho, fun s scope hscope => ?_, fun s scope hscope => ?_, hm⟩
  · exact Nat.le_trans (h.begins s scope (hs ▸ hscope)) hsize
  rw [hs] at hscope
  have hrange := h.ranges s scope hscope
  cases hend : scope.endRow with
  | none => exact Nat.le_refl _
  | some e =>
    rw [hend] at hrange
    exact Nat.le_trans hrange hsize

theorem lt_of_meaning? (h : t.meaning? row = some m) : row < t.rows.size := by
  obtain ⟨r, hr, -⟩ := Option.map_eq_some_iff.1 h
  exact (Array.getElem?_eq_some_iff.1 hr).1

theorem lt_of_scope? {s : Nat} (h : t.scope? row = some s) : row < t.rows.size := by
  obtain ⟨r, hr, -⟩ := Option.map_eq_some_iff.1 h
  exact (Array.getElem?_eq_some_iff.1 hr).1

theorem lt_of_function? {info : FunctionInfo} (h : t.function? row = some info) :
    row < t.rows.size := by
  obtain ⟨m, hm, -⟩ := Option.bind_eq_some_iff.1 h
  exact lt_of_meaning? hm

/-- A row that a name is given means what `reuse` accepts, or nothing yet. -/
theorem meaning?_rowFor (t : SymbolTable) (name : String) (kind : TokenKind)
    (reuse : Meaning → Bool) : ∃ m,
      (t.rowFor name kind reuse).2.meaning? (t.rowFor name kind reuse).1 = some m ∧
        (reuse m = true ∨ m = .unused) := by
  rcases (rowFor_spec t name kind reuse).2 with ⟨heq, hany⟩ | heq
  · rw [heq]
    cases hm : t.meaning? (t.rowFor name kind reuse).1 with
    | none =>
      rw [hm] at hany
      cases hany
    | some m =>
      rw [hm] at hany
      exact ⟨m, rfl, .inl hany⟩
  · rw [heq]
    refine ⟨.unused, ?_, .inr rfl⟩
    rw [meaning?_appendRow]
    exact if_pos rfl

namespace Usable

/-- **The loops have their row,** and it stands for no function. -/
theorem exists_loopRow (h : t.Usable keywords) (hk : keywords.contains loopKeyword = true) :
    ∃ row m, t.loopRow? = some row ∧ t.meaning? row = some m ∧ m.isFunction = false := by
  obtain ⟨i, hi⟩ := h.keyword hk
  have hsome : t.loopRow?.isSome := by
    rw [loopRow?_eq h.rooted, List.find?_isSome]
    rw [isLoopRow, Bool.and_eq_true, beq_iff_eq] at hi
    refine ⟨i, by simpa using lt_of_scope? hi.1, ?_⟩
    rw [isLoopRow, Bool.and_eq_true, beq_iff_eq]
    exact hi
  obtain ⟨row, hrow⟩ := Option.isSome_iff_exists.1 hsome
  have hloop := isLoopRow_of_loopRow? h.rooted hrow
  rw [isLoopRow, Bool.and_eq_true, beq_iff_eq, beq_iff_eq] at hloop
  obtain ⟨r, hr, -⟩ := Option.map_eq_some_iff.1 hloop.1
  have hm : t.meaning? row = some r.meaning := by rw [meaning?, hr]; rfl
  refine ⟨row, r.meaning, hrow, hm, ?_⟩
  rcases hf : r.meaning with cell | info | record
  · rfl
  · refine absurd hloop.2 (h.functions hk row ?_)
    rw [function?, hm, hf]
    rfl
  · rfl

/-- **A row that is no function's may mean anything but a function,** and a row that is not called
like the loop keyword may mean that, too. -/
theorem setMeaning (h : t.Usable keywords)
    (hm : ∀ record, m = .loops record → record.Marked ∧ keywords.contains loopKeyword = true)
    (hf : m.isFunction = true → keywords.contains loopKeyword = true →
      t.name? row ≠ some loopKeyword) : (t.setMeaning row m).Usable keywords where
  indexed := by
    have ho : (t.setMeaning row m).Orderly :=
      ⟨h.indexed.orderly.nested, fun i s hs => h.indexed.orderly.placed i s
        (scope?_setMeaning.symm.trans hs)⟩
    refine h.indexed.of_scopes ho rfl (Nat.le_of_eq size_setMeaning.symm) fun i record hi => ?_
    rw [meaning?_setMeaning] at hi
    split at hi
    · obtain ⟨_, -, hm'⟩ := Option.map_eq_some_iff.1 hi
      exact (hm record hm').1
    · exact h.indexed.marked i record hi
  rooted := h.rooted
  keyword hk := by
    obtain ⟨i, hi⟩ := h.keyword hk
    exact ⟨i, by rw [isLoopRow, scope?_setMeaning, name?_setMeaning]; exact hi⟩
  functions hk i hi := by
    rw [name?_setMeaning]
    rcases Emission.isSome_function?_setMeaning hi with ⟨rfl, hm'⟩ | hi
    · exact hf hm' hk
    · exact h.functions hk i hi
  loopless := h.loopless
  recordless hk i record hi := by
    rw [meaning?_setMeaning] at hi
    split at hi
    · obtain ⟨_, -, hm'⟩ := Option.map_eq_some_iff.1 hi
      rw [(hm record hm').2] at hk
      cases hk
    · exact h.recordless hk i record hi

theorem appendRow (h : t.Usable keywords) : (t.appendRow name kind).2.Usable keywords where
  indexed := by
    refine h.indexed.of_scopes ⟨h.indexed.orderly.nested, fun i s hs => ?_⟩ rfl
      (by rw [size_appendRow]; exact Nat.le_succ _) fun i record hi => ?_
    · rw [scope?_appendRow] at hs
      split at hs
      · cases hs
        exact h.indexed.orderly.nested.current
      · exact h.indexed.orderly.placed i s hs
    · rw [meaning?_appendRow] at hi
      split at hi
      · cases hi
      · exact h.indexed.marked i record hi
  rooted := h.rooted
  keyword hk := by
    obtain ⟨i, hi⟩ := h.keyword hk
    have hlt : i < t.rows.size := by
      rw [isLoopRow, Bool.and_eq_true, beq_iff_eq] at hi
      exact lt_of_scope? hi.1
    refine ⟨i, ?_⟩
    rw [isLoopRow, scope?_appendRow, name?_appendRow, if_neg (Nat.ne_of_lt hlt),
      if_neg (Nat.ne_of_lt hlt)]
    exact hi
  functions hk i hi := by
    rw [function?_appendRow] at hi
    obtain ⟨info, hinfo⟩ := Option.isSome_iff_exists.1 hi
    rw [name?_appendRow, if_neg (Nat.ne_of_lt (lt_of_function? hinfo))]
    exact h.functions hk i hi
  loopless := h.loopless
  recordless hk i record hi := by
    rw [meaning?_appendRow] at hi
    split at hi
    · cases hi
    · exact h.recordless hk i record hi

theorem rowFor (h : t.Usable keywords) (reuse : Meaning → Bool) :
    (t.rowFor name kind reuse).2.Usable keywords := by
  rcases (rowFor_spec t name kind reuse).2 with ⟨h', -⟩ | h'
  · rw [h']
    exact h
  · rw [h']
    exact h.appendRow

/-- **Reading a token** keeps the table usable. -/
theorem record (h : t.Usable keywords) (token : Token) : (t.record token).Usable keywords := by
  rcases record_cases t token with h' | ⟨h', -⟩
  · rw [h']
    exact h
  · rw [h']
    exact h.appendRow

/-- A loop may be entered where its keyword is reserved. -/
theorem enterScope (h : t.Usable keywords) {region : Region}
    (hr : region = .loop → keywords.contains loopKeyword = true) :
    (t.enterScope region).Usable keywords where
  indexed := by
    have hturns : t.Turns 0 (t.enterScope region) := turns_enterScope h.indexed.orderly region
    refine ⟨hturns.orderly, fun s scope hs => ?_, fun s scope hs => ?_, h.indexed.marked⟩ <;>
      rw [SymbolTable.enterScope, Scopes.enter, Array.getElem?_push] at hs <;> split at hs
    · cases hs
      exact Nat.le_refl _
    · exact h.indexed.begins s scope hs
    · cases hs
      exact Nat.le_refl _
    · exact h.indexed.ranges s scope hs
  rooted := h.rooted.enter region _
  keyword := h.keyword
  functions := h.functions
  loopless hk s hs := by
    rw [SymbolTable.enterScope, Scopes.region?_enter] at hs
    split at hs
    · cases hs
      rw [hr rfl] at hk
      cases hk
    · exact h.loopless hk s hs
  recordless := h.recordless

theorem leaveScope (h : t.Usable keywords) : t.leaveScope.Usable keywords where
  indexed := by
    have hturns : t.Turns 0 t.leaveScope := turns_leaveScope h.indexed.orderly
    refine ⟨hturns.orderly, fun s scope hs => ?_, fun s scope hs => ?_, h.indexed.marked⟩
    · obtain ⟨scope', hs', hfirst⟩ := Scopes.firstRow_leave hs
      exact hfirst ▸ h.indexed.begins s scope' hs'
    · rcases Scopes.endRow_leave hs with hend | hs
      · rw [hend]
        exact Nat.le_refl _
      · exact h.indexed.ranges s scope hs
  rooted := h.rooted.leave _
  keyword := h.keyword
  functions := h.functions
  loopless hk s hs := by
    rw [SymbolTable.leaveScope, Scopes.region?_leave] at hs
    exact h.loopless hk s hs
  recordless := h.recordless

/-- Only functions are retired, so the loops keep their row. -/
theorem retire (h : t.Usable keywords) (hr : (t.function? row).isSome) :
    (t.retire row).Usable keywords where
  indexed := by
    refine h.indexed.of_scopes ⟨h.indexed.orderly.nested, fun i s hs => h.indexed.orderly.placed i s
      (scope?_retire.symm.trans hs)⟩ rfl (Nat.le_of_eq size_retire.symm) fun i record hi => ?_
    rw [meaning?_retire] at hi
    exact h.indexed.marked i record hi
  rooted := h.rooted
  keyword hk := by
    obtain ⟨i, hi⟩ := h.keyword hk
    have hname : t.name? i = some loopKeyword := by
      rw [isLoopRow, Bool.and_eq_true, beq_iff_eq, beq_iff_eq] at hi
      exact hi.2
    have hne : row ≠ i := by
      rintro rfl
      exact h.functions hk row hr hname
    exact ⟨i, by rw [isLoopRow, scope?_retire, name?_retire_ne hne]; exact hi⟩
  functions hk i hi := by
    rw [function?_retire] at hi
    by_cases heq : row = i
    · subst heq
      rcases name?_retire t row with h' | h'
      · exact h'
      · rw [h']
        exact h.functions hk row hr
    · rw [name?_retire_ne heq]
      exact h.functions hk i hi
  loopless := h.loopless
  recordless hk i record hi := by
    rw [meaning?_retire] at hi
    exact h.recordless hk i record hi

end Usable

/-- **Every table is usable at first.** -/
theorem usable_ofKeywords (keywords : List String) :
    (ofKeywords keywords).Usable keywords where
  indexed := by
    refine ⟨⟨Scopes.nested_initial, fun row s hs => ?_⟩, fun s scope hs => ?_, fun s scope hs => ?_,
      fun row record hm => ?_⟩
    · rw [scope?, ofKeywords] at hs
      simp only [List.getElem?_toArray, List.getElem?_map, Option.map_map] at hs
      obtain ⟨_, -, rfl⟩ := Option.map_eq_some_iff.1 hs
      exact Nat.zero_lt_one
    · have hlt : s < 1 := (Array.getElem?_eq_some_iff.1 hs).1
      obtain rfl := Nat.lt_one_iff.1 hlt
      cases hs
      exact Nat.zero_le _
    · have hlt : s < 1 := (Array.getElem?_eq_some_iff.1 hs).1
      obtain rfl := Nat.lt_one_iff.1 hlt
      cases hs
      exact Nat.le_refl _
    · have hunused := meaning?_ofKeywords hm
      cases hunused
  rooted := rfl
  keyword hk := by
    have hl := Derivation.loops?_ofKeywords hk
    obtain ⟨row, hrow, -⟩ := Option.bind_eq_some_iff.1 hl
    exact ⟨row, isLoopRow_of_loopRow? rfl hrow⟩
  functions _ row hr := by
    rw [function?_ofKeywords] at hr
    cases hr
  loopless _ s hs := by
    obtain ⟨scope, hscope, hr⟩ := Option.map_eq_some_iff.1 hs
    have hlt : s < 1 := (Array.getElem?_eq_some_iff.1 hscope).1
    obtain rfl := Nat.lt_one_iff.1 hlt
    cases hscope
    cases hr
  recordless _ row record hm := by
    have hunused := meaning?_ofKeywords hm
    cases hunused

end SymbolTable

end OnePass.Names
