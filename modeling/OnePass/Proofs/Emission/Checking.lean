import OnePass.Emission.Strict
import OnePass.Proofs.Emission.Aloof
import OnePass.Proofs.Emission.Unfailing
import OnePass.Proofs.Names.Checking
import OnePass.Proofs.Names.Sight

/-!
# Actions never go astray

In a calm state, the rows and scopes that an action touches are there: the current scope and
the scopes around it, the rows that lookups give, and the rows of the definitions around. So
the checked form of an action does what the action does.

* `bind_eq`: two steps that agree, one part after the other.
* `look_eq`, `change_eq`: lookups and changes of the table that are within it.
* `readName_eq`, `endLoop_eq`, `resolveCall_eq`, …: the actions that touch rows and scopes.
* `Strict.perform_eq`, `Strict.callMain_eq`: any action, and the end of a program.
-/

namespace OnePass.Emission.Strict

open Grammar (Action)
open Names Target

variable {α β : Type} {g g' : Generator} {name : String} {line row : Nat}

section Steps

/-- **Steps agree** where their parts do, one after the other. -/
theorem bind_eq {x y : Emit α} {f f' : α → Emit β} {Q : α → Generator → Prop} (hx : x g = y g)
    (hy : Ends y g Q) (hf : ∀ a g₁, Q a g₁ → f a g₁ = f' a g₁) :
    (x >>= f) g = (y >>= f') g := by
  change EStateM.bind x f g = EStateM.bind y f' g
  unfold EStateM.bind
  rw [hx]
  cases hres : y g with
  | ok a g₁ => exact hf a g₁ (hy a g₁ hres)
  | error => rfl

/-- The same step follows steps that agree. -/
theorem bind_congr {x y : Emit α} (hx : x g = y g) {f : α → Emit β} : (x >>= f) g = (y >>= f) g :=
  bind_eq (Q := fun _ _ => True) hx (fun _ _ _ => trivial) fun _ _ _ => rfl

/-- A step that is known is followed by the next. -/
theorem bind_ok {x : Emit α} {a : α} (hx : x g = .ok a g') (f : α → Emit β) :
    (x >>= f) g = f a g' := by
  change EStateM.bind x f g = _
  unfold EStateM.bind
  rw [hx]

theorem get_bind (f : Generator → Emit β) : (get >>= f) g = f g g := rfl

theorem modify_bind (change : Generator → Generator) (f : Unit → Emit β) :
    (modify change >>= f) g = f () (change g) := rfl

/-- **A lookup within the table** only looks. -/
theorem look_eq {lookup : SymbolTable → Checked α} {a : α} (h : lookup g.symbols = .ok a) :
    look lookup g = .ok a g := by
  rw [look, get_bind, h]
  rfl

/-- **A change within the table** leaves all else as it is. -/
theorem change_eq {f : SymbolTable → Checked SymbolTable} {t : SymbolTable}
    (h : f g.symbols = .ok t) : change f g = .ok () { g with symbols := t } :=
  bind_ok (look_eq h) _

theorem setMeaning_eq {m : Meaning} (hrow : row < g.symbols.rows.size) :
    change (Names.Strict.setMeaning · row m) g = .ok () (g.setMeaning row m) :=
  change_eq (Names.Strict.setMeaning_eq hrow m)

theorem leaveScope_eq (h : g.symbols.scopes.Nested) :
    change Names.Strict.leaveScope g = .ok () g.leaveScope :=
  change_eq (Names.Strict.leaveScope_eq h)

/-- A step of the memory image has nothing to do with the table. -/
theorem ends_onMemory_symbols {op : Memory → Except MemoryError (α × Memory)} :
    Ends (onMemory op) g fun _ g' => g'.symbols = g.symbols :=
  ends_onMemory.2 fun _ _ _ => rfl

/-- What only moves operands and code leaves the table alone. -/
theorem aloof_symbols (t : SymbolTable) : Aloof fun g => g.symbols = t :=
  .of_symbols (P := (· = t))

/-- The current scope is one of the scopes. -/
theorem current_lt (h : g.symbols.Indexed) :
    g.symbols.currentScope < g.symbols.scopes.all.size := h.orderly.nested.current

end Steps

section Names

theorem rowFor_eq (h : g.symbols.Indexed) (reuse : Meaning → Bool) :
    rowFor name reuse g = .ok (g.rowFor name reuse).1 (g.rowFor name reuse).2 := by
  rw [rowFor, bind_ok (look_eq (Names.Strict.rowFor_eq h name .identifier reuse))]
  rfl

/-- The row that a name is given is one of the table. -/
theorem lt_rowFor (g : Generator) (name : String) (reuse : Meaning → Bool) :
    (g.rowFor name reuse).1 < (g.rowFor name reuse).2.symbols.rows.size := by
  obtain ⟨m, hm, -⟩ := SymbolTable.meaning?_rowFor g.symbols name .identifier reuse
  exact SymbolTable.lt_of_meaning? hm

theorem cellIn?_eq {t : SymbolTable} {s : Nat} (h : t.Indexed) (hs : s < t.scopes.all.size) :
    cellIn? t name s = .ok ((t.latestIn s name true).bind t.cell?) := by
  rw [cellIn?, Names.Strict.latestIn_eq h hs, Checked.ok_bind]
  cases hrow : t.latestIn s name true with
  | none => rfl
  | some row => exact Names.Strict.cell?_eq (Names.Strict.lt_of_latestIn hrow)

theorem readCell?_eq (h : g.symbols.Indexed) : readCell? name g = .ok (g.readCell? name) g := by
  refine look_eq ?_
  rw [Names.Strict.resolve_eq h (current_lt h), Checked.ok_bind, Generator.readCell?,
    Generator.currentScope]
  cases hrow : g.symbols.resolve name g.symbols.currentScope true true with
  | none => rfl
  | some row => exact Names.Strict.cell?_eq (Names.Strict.lt_of_resolve hrow)

theorem ownCell?_eq (h : g.symbols.Indexed) : ownCell? name g = .ok (g.ownCell? name) g := by
  refine look_eq ?_
  rw [Names.Strict.sameBody_eq h.orderly.nested (current_lt h), Checked.ok_bind]
  refine Checked.findSomeM?_eq fun s hs => cellIn?_eq h ?_
  exact Names.Strict.lt_of_mem_enclosing (current_lt h) (Scopes.mem_of_mem_throughLoops hs)

/-- **A name is given a cell** on a row of the table. -/
theorem bindFresh_eq (h : g.symbols.Indexed) :
    bindFresh name g = Emission.bindFresh name g := by
  rw [bindFresh, bind_ok (rowFor_eq h _)]
  refine bind_eq rfl ends_onMemory_symbols fun cell g₁ hsame => ?_
  rw [bind_ok (setMeaning_eq (hsame ▸ lt_rowFor g name _))]
  rfl

theorem readName_eq (h : g.symbols.Indexed) : readName name g = Emission.readName name g := by
  rw [readName, bind_ok (readCell?_eq h), Emission.readName, get_bind]
  cases g.readCell? name with
  | some cell => rfl
  | none => exact bind_congr (bindFresh_eq h)

theorem assignTo_eq (h : g.symbols.Indexed) : assignTo name g = Emission.assignTo name g := by
  rw [assignTo, bind_ok (ownCell?_eq h), Emission.assignTo, get_bind]
  cases g.ownCell? name with
  | some cell => rfl
  | none => exact bind_congr (bindFresh_eq h)

theorem requireCell_eq (h : g.symbols.Indexed) :
    requireCell name line g = Emission.requireCell name line g := by
  rw [requireCell, bind_ok (readCell?_eq h)]
  rfl

theorem bindGlobal_eq (h : g.symbols.Indexed) :
    bindGlobal name line g = Emission.bindGlobal name line g := by
  have hroot : Scopes.outermost < g.symbols.scopes.all.size := Nat.zero_lt_of_lt (current_lt h)
  rw [bindGlobal, get_bind, Emission.bindGlobal, get_bind]
  split
  · rfl
  · rw [bind_ok (look_eq (cellIn?_eq h hroot))]
    cases (g.symbols.latestIn Scopes.outermost name true).bind g.symbols.cell? with
    | none => rfl
    | some cell =>
      dsimp only
      rw [bind_ok (rowFor_eq h _), setMeaning_eq (lt_rowFor g name _)]
      rfl

end Names

section Loops

/-- **The row that records the loops** is one of the table. -/
theorem loopRecord_eq (h : g.symbols.Indexed) : loopRecord g = Emission.loopRecord g := by
  have hroot : Scopes.outermost < g.symbols.scopes.all.size := Nat.zero_lt_of_lt (current_lt h)
  rw [loopRecord, bind_ok (look_eq (Names.Strict.latestIn_eq h hroot)), Emission.loopRecord,
    get_bind]
  cases hrow : g.symbols.latestIn Scopes.outermost loopKeyword false with
  | none => rfl
  | some row =>
    have hlt := Names.Strict.lt_of_latestIn hrow
    obtain ⟨r, hr, hat⟩ := Names.Strict.exists_rowAt hlt
    dsimp only
    rw [bind_ok (look_eq hat), SymbolTable.meaning?, hr]
    dsimp only [Option.map_some]
    rcases r.meaning with cell | info | record
    · dsimp only
      rw [bind_ok (setMeaning_eq hlt)]
      rfl
    · rfl
    · rfl

theorem ends_loopRecord_row : Ends Emission.loopRecord g fun p g' =>
    p.1 < g'.symbols.rows.size ∧ g'.symbols.scopes = g.symbols.scopes := by
  rw [Emission.loopRecord, ends_bind, ends_get]
  dsimp only
  split
  · exact ends_defect
  · rename_i row hrow
    have hlt := Names.Strict.lt_of_latestIn hrow
    split
    · exact (ends_pure _).2 ⟨hlt, rfl⟩
    · rw [ends_bind, ends_modify, ends_pure]
      exact ⟨Nat.lt_of_lt_of_eq hlt SymbolTable.size_setMeaning.symm, rfl⟩
    · exact ends_defect

theorem startLoop_eq (h : g.symbols.Indexed) : startLoop g = Emission.startLoop g := by
  rw [startLoop, get_bind, Emission.startLoop, get_bind]
  refine bind_eq (loopRecord_eq h) ends_loopRecord_row ?_
  rintro ⟨row, record⟩ g₁ ⟨hrow, -⟩
  dsimp only
  rw [bind_ok (setMeaning_eq hrow)]
  rfl

/-- **A loop that ends** cuts the lists of its record where they can be cut. -/
theorem endLoop_eq (h : g.symbols.Indexed) : endLoop g = Emission.endLoop g := by
  refine bind_eq rfl ((aloof_symbols g.symbols).heldSlot g rfl) fun slot g₁ h₁ => ?_
  refine bind_eq rfl ((aloof_symbols g.symbols).pop g₁ h₁) fun condition g₂ h₂ => ?_
  refine bind_eq (loopRecord_eq (h₂ ▸ h)) ends_loopRecord_row ?_
  rintro ⟨row, record⟩ g₃ ⟨hrow, hscopes⟩
  have hnested : g₃.symbols.scopes.Nested := by
    rw [hscopes, h₂]
    exact h.orderly.nested
  dsimp only
  rw [bind_ok (look_eq (Names.Strict.leave?_eq record))]
  cases record.leave? with
  | none =>
    dsimp only
    exact leaveScope_eq hnested
  | some exit =>
    obtain ⟨closed, outer⟩ := exit
    dsimp only
    rw [bind_ok (setMeaning_eq hrow), modify_bind]
    refine bind_eq rfl ((aloof_symbols _).settleLoop _ rfl) fun _ g₄ h₄ => ?_
    refine leaveScope_eq ?_
    rw [h₄]
    exact hnested

theorem leaveLoop_eq (h : g.symbols.Indexed) {outside : SemanticFault}
    {add : LoopRecord → Nat → LoopRecord} :
    leaveLoop line outside add g = Emission.leaveLoop line outside add g := by
  rw [leaveLoop, bind_ok (look_eq (Names.Strict.isLoop_eq (current_lt h))), Emission.leaveLoop,
    get_bind]
  change (if g.symbols.scopes.isLoop g.symbols.currentScope = true then _ else _ : Emit Unit) g =
    (if g.symbols.scopes.isLoop g.symbols.currentScope = true then _ else _ : Emit Unit) g
  split
  · refine bind_eq rfl ends_onMemory_symbols fun slot g₁ h₁ => ?_
    refine bind_eq (loopRecord_eq (h₁ ▸ h)) ends_loopRecord_row ?_
    rintro ⟨row, record⟩ g₂ ⟨hrow, -⟩
    exact setMeaning_eq hrow
  · rfl

end Loops

section Calls

theorem functionOn_eq (hrow : row < g.symbols.rows.size) :
    functionOn row g = Emission.functionOn row g := by
  obtain ⟨r, hr, hat⟩ := Names.Strict.exists_rowAt hrow
  rw [functionOn, bind_ok (look_eq hat), Emission.functionOn, get_bind,
    SymbolTable.function?, SymbolTable.meaning?, SymbolTable.name?, hr]
  dsimp only [Option.map_some, Option.bind_some]
  cases r.meaning.function? <;> rfl

theorem callFunction_eq (h : g.symbols.Indexed) {info : FunctionInfo} {arguments : List Operand} :
    callFunction row info arguments g = Emission.callFunction row info arguments g := by
  have hsame := aloof_symbols g.symbols
  refine bind_eq rfl (upholds_forM (fun _ => hsame.emit) g rfl) fun _ g₁ h₁ => ?_
  refine bind_eq rfl (hsame.preserves_jumpInto.upholds g₁ h₁) fun _ g₂ h₂ => ?_
  refine bind_eq rfl (hsame.preserves_freshTemp.upholds g₂ h₂) fun result g₃ h₃ => ?_
  refine bind_eq rfl (hsame.emit g₃ h₃) fun _ g₄ h₄ => ?_
  have hinside : Names.Strict.insideBody g₄.symbols.scopes g₄.symbols.currentScope row =
      .ok (g₄.symbols.scopes.insideBody g₄.currentScope row) := by
    rw [Generator.currentScope, h₄]
    exact Names.Strict.insideBody_eq h.orderly.nested (current_lt h) row
  rw [get_bind]
  cases info.returnsValue with
  | true => rfl
  | false =>
    change (look _ >>= _ : Emit Unit) g₄ = _
    rw [bind_ok (look_eq hinside)]
    cases g₄.symbols.scopes.insideBody g₄.currentScope row <;> rfl

theorem resolveCall_eq (h : g.symbols.Indexed) : resolveCall line g = Emission.resolveCall line g := by
  have hsame := aloof_symbols g.symbols
  refine bind_eq rfl (hsame.pop g rfl) fun counter g₁ h₁ => ?_
  rw [get_bind, get_bind]
  refine bind_eq rfl (hsame.takeValues _ g₁ h₁) fun arguments g₂ h₂ => ?_
  rw [get_bind, get_bind]
  rw [modify_bind, modify_bind, get_bind]
  generalize hg : ({ g₂ with pendingCalls := g₂.pendingCalls.tail } : Generator) = g₃
  have h₃ : g₃.symbols.Indexed := hg ▸ h₂ ▸ h
  rw [bind_ok (look_eq (Names.Strict.visibleFunctions_eq h₃ (current_lt h₃))),
    bind_ok (look_eq Names.Strict.callee?_eq)]
  dsimp only
  cases g₃.symbols.callee? g₃.symbols.currentScope _ _ with
  | some found => exact callFunction_eq h₃
  | none =>
    dsimp only
    rw [SymbolTable.nearestFunction]
    cases g₃.symbols.visibleFunctions g₃.symbols.currentScope _ <;> rfl

end Calls

section Definitions

theorem startFunction_eq (h : g.symbols.Indexed) :
    startFunction name g = Emission.startFunction name g := by
  refine bind_eq rfl ends_onMemory_symbols fun aroundSlot g₁ h₁ => ?_
  refine bind_eq rfl ends_onMemory_symbols fun result g₂ h₂ => ?_
  refine bind_eq rfl ends_onMemory_symbols fun returnCell g₃ h₃ => ?_
  have hindexed : g₃.symbols.Indexed := by
    rw [h₃, h₂, h₁]
    exact h
  rw [bind_ok (rowFor_eq hindexed _)]
  rfl

theorem addParameter_eq (h : g.symbols.Indexed) :
    addParameter name g = Emission.addParameter name g :=
  bind_congr (bindFresh_eq h)

theorem giveMeaning_eq (hrow : row < g.symbols.rows.size)
    {f : Meaning → Except MeaningError Meaning} :
    giveMeaning row f g = Emission.giveMeaning row f g := by
  obtain ⟨r, hr, hat⟩ := Names.Strict.exists_rowAt hrow
  rw [giveMeaning, bind_ok (look_eq hat), Emission.giveMeaning, get_bind, SymbolTable.meaning?, hr]
  dsimp only [Option.map_some]
  cases f r.meaning with
  | ok changed => exact setMeaning_eq hrow
  | error => rfl

/-- **The function is put on a row** that its definition has had from the beginning. -/
theorem publish_eq (hrows : ∀ d ∈ g.definitions, d.row < g.symbols.rows.size) :
    publish g = Emission.publish g := by
  rw [publish, get_bind, Emission.publish, get_bind]
  cases hdefs : g.definitions with
  | nil => rfl
  | cons d rest =>
    dsimp only
    cases d.header with
    | none => rfl
    | some info =>
      dsimp only
      rw [modify_bind, modify_bind]
      refine giveMeaning_eq ?_
      exact hrows d (hdefs ▸ List.mem_cons_self)

/-- That a function returns a value is noted on its row. -/
theorem noteValue_eq {info : FunctionInfo} (h : g.symbols.function? row = some info) :
    noteValue row g =
      .ok () (g.setMeaning row (.function { info with returnsValue := true })) := by
  obtain ⟨m, hm, hinfo⟩ := Option.bind_eq_some_iff.1 h
  obtain ⟨r, hr, rfl⟩ := Option.map_eq_some_iff.1 hm
  have hrow := (Array.getElem?_eq_some_iff.1 hr).1
  have hmeaning : r.meaning = .function info := by
    rcases hr : r.meaning with cell | info' | record
    · simp [hr, Meaning.function?] at hinfo
    · simp only [hr, Meaning.function?, Option.some.injEq] at hinfo
      rw [hinfo]
    · simp [hr, Meaning.function?] at hinfo
  refine (change_eq (t := g.symbols.setMeaning row
    (.function { info with returnsValue := true })) ?_).trans rfl
  rw [Names.Strict.modifyRow, Checked.change_eq hrow, Checked.ok_bind, SymbolTable.setMeaning,
    SymbolTable.modifyRow]
  refine congrArg (fun rows => Except.ok ({ g.symbols with rows := rows } : SymbolTable)) ?_
  refine Array.ext_getElem? fun i => ?_
  rw [Array.getElem?_modify, Array.getElem?_modify]
  split
  · rename_i heq
    rw [← heq, hr, Option.map_some, Option.map_some, hmeaning]
    rfl
  · rfl

variable {keywords : List String}

/-- **A return notes its value** on the row of the innermost definition. -/
theorem returnWith_eq (h : Calm keywords false g) :
    returnWith line g = Emission.returnWith line g := by
  refine bind_eq rfl (firm_takeValue g h).ends fun value g₁ h₁ => ?_
  refine bind_eq rfl (secure_returningFrom (P := fun _ => True) h₁).ends ?_
  rintro (_ | row) g₂ ⟨-, hrow⟩
  · rfl
  · obtain ⟨info, hinfo⟩ := Option.isSome_iff_exists.1 (hrow row rfl)
    dsimp only
    refine bind_eq (functionOn_eq (SymbolTable.lt_of_function? hinfo))
      (secure_functionOn (P := fun _ => True) (hrow row rfl)).ends ?_
    rintro info _ ⟨rfl, hfound⟩
    refine bind_eq rfl ((aloof_symbols _).emitReturn _ rfl) fun _ g₃ h₃ => ?_
    exact noteValue_eq (h₃ ▸ hfound)

theorem returnNothing_eq (h : Calm keywords false g) :
    returnNothing g = Emission.returnNothing g := by
  refine bind_eq rfl (secure_returningFrom (P := fun _ => True) h).ends ?_
  rintro (_ | row) g₁ ⟨-, hrow⟩
  · rfl
  · obtain ⟨info, hinfo⟩ := Option.isSome_iff_exists.1 (hrow row rfl)
    exact bind_congr (functionOn_eq (SymbolTable.lt_of_function? hinfo))

/-- **The end of a body** finds the row of its definition, and a scope to leave. -/
theorem endFunction_eq (h : Calm keywords false g) : endFunction g = Emission.endFunction g := by
  have hrows := h.standing.lt
  refine bind_eq (publish_eq hrows) (secure_publish_published (P := fun _ => True) h).ends
    fun _ g₁ hsame => ?_
  rw [hsame, get_bind, get_bind]
  cases hdefs : g.definitions with
  | nil => rfl
  | cons d rest =>
    dsimp only
    rw [modify_bind, modify_bind]
    generalize hg : ({ g with definitions := rest } : Generator) = g₁
    have h₁ : g₁.symbols = g.symbols := hg ▸ rfl
    have hclose : ∀ g₂ : Generator, g₂.symbols = g.symbols →
        (do
          settle (some d.aroundSlot) (.jump (← get).programNext)
          change Names.Strict.leaveScope
          modify ({ · with lastDefined := some d.row }) : Emit Unit) g₂ =
        (do
          settle (some d.aroundSlot) (.jump (← get).programNext)
          modify (·.leaveScope)
          modify ({ · with lastDefined := some d.row }) : Emit Unit) g₂ := by
      intro g₂ h₂
      rw [get_bind, get_bind]
      refine bind_eq rfl ((aloof_symbols g.symbols).settle g₂ h₂) fun _ g₃ h₃ => ?_
      refine bind_congr (leaveScope_eq ?_)
      rw [h₃]
      exact h.table.indexed.orderly.nested
    cases d.alwaysReturns with
    | true => exact hclose g₁ h₁
    | false =>
      have hrow : d.row < g₁.symbols.rows.size := by
        rw [h₁]
        exact hrows d (hdefs ▸ List.mem_cons_self)
      refine bind_eq (functionOn_eq hrow)
        (Remote.functionOn (I := (·.symbols = g.symbols)) g₁ h₁) fun info g₂ h₂ => ?_
      exact bind_eq rfl ((aloof_symbols g.symbols).emitReturn g₂ h₂) fun _ g₃ h₃ => hclose g₃ h₃

end Definitions

section Rivals

theorem retireFunction_eq (hrow : row < g.symbols.rows.size) :
    retireFunction row g = .ok () (g.retireFunction row) := by
  rw [retireFunction, bind_ok (look_eq (Names.Strict.function?_eq hrow)),
    bind_ok (change_eq (Names.Strict.retire_eq hrow))]
  rfl

theorem rivals_eq (h : g.symbols.Indexed) {r : Row} {info : FunctionInfo}
    (hr : g.symbols.rows[row]? = some r) (hinfo : r.meaning.function? = some info) :
    rivals g.symbols row r info = .ok (g.rivals row) := by
  have hscope : r.scope < g.symbols.scopes.all.size :=
    h.orderly.placed row r.scope (by rw [SymbolTable.scope?, hr]; rfl)
  have hfunction : g.symbols.function? row = some info := by
    rw [SymbolTable.function?, SymbolTable.meaning?, hr]
    exact hinfo
  rw [rivals, Names.Strict.functionsIn_eq h hscope, Checked.ok_bind, Generator.rivals, hr, hfunction]
  refine Checked.filterM_eq fun other hother => ?_
  rw [Names.Strict.function?_eq (Names.Strict.lt_of_mem_functionsIn hother)]
  by_cases hself : other = row
  · rw [if_pos hself]
    simp [hself]
    rfl
  · rw [if_neg hself]
    simp [hself]

/-- A loop over a list does what another does, if each step does and keeps what that asks for. -/
theorem forM_eq {γ : Type} {f f' : γ → Emit Unit} {I : Generator → Prop} {items : List γ}
    (hg : I g) (h : ∀ x ∈ items, ∀ g, I g → f x g = f' x g ∧ Ends (f' x) g fun _ g' => I g') :
    items.forM f g = items.forM f' g := by
  induction items generalizing g with
  | nil => rfl
  | cons x items ih =>
    obtain ⟨hx, hrest⟩ := List.forall_mem_cons.1 h
    change (f x >>= fun _ => items.forM f) g = (f' x >>= fun _ => items.forM f') g
    exact bind_eq (hx g hg).1 (hx g hg).2 fun _ g₁ h₁ => ih h₁ hrest

/-- **Rivals are retired** on rows of the table. -/
theorem retireRivals_eq (h : Calm keywords false g) :
    retireRivals line g = Emission.retireRivals line g := by
  rw [retireRivals, get_bind, Emission.retireRivals, get_bind]
  cases hlast : g.lastDefined with
  | none => rfl
  | some row =>
    obtain ⟨r, hr, hat⟩ := Names.Strict.exists_rowAt (h.last row hlast)
    dsimp only
    rw [modify_bind, modify_bind, bind_ok (look_eq hat), SymbolTable.name?, hr]
    dsimp only [Option.map_some, Option.getD_some]
    cases hinfo : r.meaning.function? with
    | none =>
      have hnone : g.rivals row = [] := by
        rw [Generator.rivals, hr, SymbolTable.function?, SymbolTable.meaning?, hr]
        dsimp only [Option.map_some, Option.bind_some]
        rw [hinfo]
      rw [hnone]
      rfl
    | some info =>
      dsimp only
      rw [bind_ok (look_eq (rivals_eq h.table.indexed hr hinfo))]
      refine forM_eq (I := fun g' => g'.symbols.rows.size = g.symbols.rows.size) rfl
        fun other hother g₁ h₁ => ⟨?_, ?_⟩
      · obtain ⟨info', hinfo'⟩ := Option.isSome_iff_exists.1 (Sound.function?_of_mem_rivals hother)
        have hlt : other < (g₁.report line (.redefined r.name)).symbols.rows.size :=
          Nat.lt_of_lt_of_eq (SymbolTable.lt_of_function? hinfo') h₁.symm
        exact retireFunction_eq hlt
      · rw [ends_bind, ends_report, ends_modify]
        exact SymbolTable.size_retire.trans h₁

end Rivals

/-- **Any action does what it does without checks** in a calm state. While parameters are read
there are only those. -/
theorem perform_eq {header : Bool} {a : Action} {lexeme : String} (h : Calm keywords header g)
    (hheader : header = true → a = .param ∨ a = .paramsDone) :
    perform a lexeme line g = Emission.perform a lexeme line g := by
  have hindexed := h.table.indexed
  have hrows := h.standing.lt
  cases header with
  | true =>
    rcases hheader rfl with rfl | rfl
    · exact addParameter_eq hindexed
    · exact publish_eq hrows
  | false =>
    cases a with
    | pushId => exact readName_eq hindexed
    | pushTarget => exact assignTo_eq hindexed
    | checkDefined => exact requireCell_eq hindexed
    | global => exact bindGlobal_eq hindexed
    | breakLoop | continueLoop => exact leaveLoop_eq hindexed
    | loopBegin => exact startLoop_eq hindexed
    | loopEnd => exact endLoop_eq hindexed
    | dispatch => exact resolveCall_eq hindexed
    | enterFunction => exact startFunction_eq hindexed
    | param => exact addParameter_eq hindexed
    | paramsDone => exact publish_eq hrows
    | returnValue => exact returnWith_eq h
    | returnVoid => exact returnNothing_eq h
    | exitFunction => exact endFunction_eq h
    | checkOverload => exact retireRivals_eq h
    | _ => rfl

/-- **The end of a program** finds the scope and the row that it looks for. -/
theorem callMain_eq (h : g.symbols.Indexed) : callMain line g = Emission.callMain line g := by
  have hroot : Scopes.outermost < g.symbols.scopes.all.size := Nat.zero_lt_of_lt (current_lt h)
  rw [callMain, bind_ok (look_eq (Names.Strict.functionsIn_eq h hroot)), Emission.callMain, get_bind]
  cases hmain : (g.symbols.functionsIn Scopes.outermost mainName).head? with
  | none => rfl
  | some row =>
    have hrow := Names.Strict.lt_of_mem_functionsIn (List.mem_of_mem_head? hmain)
    exact bind_congr (functionOn_eq hrow)

end OnePass.Emission.Strict
