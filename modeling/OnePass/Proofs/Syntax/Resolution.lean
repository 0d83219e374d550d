import OnePass.Proofs.Derivation.Recovery
import OnePass.Proofs.Emission.Indifferent
import OnePass.Proofs.Syntax.Binding

/-!
# Scopes keep to the maps of a text

Whatever errors a program has, the scopes around a place show the maps that names are looked up
in there. An action changes them as it should, and the cell that it pushes for a name and the
error that it reports are those that the maps say.

* `Depicts`: a table whose scopes show maps. `Depicts.bind`, `Depicts.retire`, …
* `Unpublished`: definitions whose parameters are being read.
* `Resolution.Done`: what a use leaves of a state. `Depicts.assignTo`, `Depicts.readName`, …:
  **uses come to what the maps say.**
* `Depicts.perform`: **scopes show the maps behind every action.**
* `Depicts.untaken`: a new cell is no name's and no function's.
-/

namespace OnePass

namespace Target.Memory

/-- The cell that a variable is given next. -/
def nextCell (m : Memory) : Nat := m.spareCells.headD m.dataNext

theorem eq_nextCell {m m' : Memory} {cell : Nat} (h : m.takeCell = .ok (cell, m')) :
    cell = m.nextCell := by
  rw [takeCell_eq] at h
  unfold nextCell
  split at h
  · rename_i hs
    rw [hs]
    cases h
    rfl
  · rename_i hs
    rw [takeNextCell_eq] at h
    rw [hs]
    split at h
    · cases h
    · cases h
      rfl

end Target.Memory

namespace Names.SymbolTable

variable {t : SymbolTable} {row : Nat} {m : Meaning} {name : String} {kind : Lexical.TokenKind}
  {reuse : Meaning → Bool}

/-- Names other than the loop keyword may mean anything, and all rows what has no cell. -/
theorem ReservesLoops.setMeaning (h : t.ReservesLoops)
    (hm : m.cell? = none ∨ t.name? row ≠ some loopKeyword) : (t.setMeaning row m).ReservesLoops := by
  intro i hi
  rw [name?_setMeaning] at hi
  rw [cell?_setMeaning]
  split
  · rename_i heq
    subst heq
    rw [hm.resolve_right fun hne => hne hi]
    cases t.meaning? row <;> rfl
  · exact h i hi

theorem ReservesLoops.appendRow (h : t.ReservesLoops) : (t.appendRow name kind).2.ReservesLoops := by
  intro i hi
  rw [cell?_appendRow]
  rw [name?_appendRow] at hi
  split at hi
  · rename_i heq
    subst heq
    simp [cell?, meaning?]
  · exact h i hi

theorem ReservesLoops.rowFor (h : t.ReservesLoops) : (t.rowFor name kind reuse).2.ReservesLoops :=
  rowFor_induction h h.appendRow

theorem ReservesLoops.record (h : t.ReservesLoops) (token : Lexical.Token) :
    (t.record token).ReservesLoops := by
  rcases record_cases t token with heq | ⟨heq, -⟩
  · rwa [heq]
  · rw [heq]
    exact h.appendRow

theorem ReservesLoops.retire (h : t.ReservesLoops) : (t.retire row).ReservesLoops := by
  intro i hi
  rw [cell?_retire]
  refine h i ?_
  by_contra hne
  exact name?_retire_ne_loopKeyword hne hi

end Names.SymbolTable

namespace Syntax

open OnePass.Derivation Emission Names Target
open Grammar (Action)

/-- **A table whose scopes show maps.** Where loops can be, no variable is on their row. -/
structure Depicts (keywords : List String) (frames : List Frame) (t : SymbolTable) : Prop where
  mirror : Mirror t frames t.currentScope
  rooted : t.scopes.Rooted
  reserved : keywords.contains loopKeyword = true → t.ReservesLoops

namespace Depicts

variable {keywords : List String} {frames : List Frame} {t : SymbolTable} {x : String}
  {kind : Lexical.TokenKind} {reuse : Meaning → Bool} {row : Nat} {m : Meaning}

theorem setMeaning (h : Depicts keywords frames t) (hrow : t.cell? row = none)
    (hm : m.cell? = none) : Depicts keywords frames (t.setMeaning row m) where
  mirror := h.mirror.ofTable rfl (fun _ ho => ho.setMeaning) fun _ _ _ =>
    SymbolTable.cellIn?_setMeaning hrow hm
  rooted := h.rooted
  reserved hk := (h.reserved hk).setMeaning (.inl hm)

theorem rowFor (h : Depicts keywords frames t) :
    Depicts keywords frames (t.rowFor x kind reuse).2 where
  mirror := by
    rw [SymbolTable.currentScope, SymbolTable.scopes_rowFor]
    exact h.mirror.rowFor
  rooted := by
    rw [SymbolTable.scopes_rowFor]
    exact h.rooted
  reserved hk := (h.reserved hk).rowFor

theorem record (h : Depicts keywords frames t) (token : Lexical.Token) :
    Depicts keywords frames (t.record token) where
  mirror := by
    rw [SymbolTable.currentScope, SymbolTable.scopes_record]
    exact h.mirror.ofTable (SymbolTable.scopes_record _ _) (fun _ ho => ho.record token)
      fun _ _ ho => SymbolTable.cellIn?_record ho token
  rooted := by
    rw [SymbolTable.scopes_record]
    exact h.rooted
  reserved hk := (h.reserved hk).record token

/-- **A name is bound** on its row in the current scope. -/
theorem bind (h : Depicts keywords frames t)
    (hn : keywords.contains loopKeyword = true → x ≠ loopKeyword) (cell : Nat) :
    Depicts keywords (Frame.bind frames x cell)
      ((t.rowFor x kind reuse).2.setMeaning (t.rowFor x kind reuse).1 (.variable (some cell))) where
  mirror := by
    have hcurrent : (t.rowFor x kind reuse).2.currentScope = t.currentScope :=
      congrArg Scopes.current (SymbolTable.scopes_rowFor _ _ _ _)
    change Mirror _ _ (t.rowFor x kind reuse).2.currentScope
    rw [hcurrent]
    exact h.mirror.rowFor.bind (SymbolTable.latestIn_rowFor h.mirror.opened)
  rooted := h.rowFor.rooted
  reserved hk := (h.rowFor.reserved hk).setMeaning <| .inr fun hname => by
    rw [(SymbolTable.rowFor_spec t x kind reuse).1] at hname
    exact hn hk (Option.some.inj hname)

theorem retire (h : Depicts keywords frames t) (hrow : t.cell? row = none) :
    Depicts keywords frames (t.retire row) where
  mirror := h.mirror.ofTable rfl (fun _ ho => ho.retire) fun _ _ _ =>
    SymbolTable.cellIn?_retire hrow
  rooted := h.rooted
  reserved hk := (h.reserved hk).retire

theorem enter (h : Depicts keywords frames t) (region : Region) :
    Depicts keywords (Frame.empty (region == .loop) :: frames) (t.enterScope region) :=
  ⟨h.mirror.enter region, h.rooted.enter _ _, h.reserved⟩

theorem leave (h : Depicts keywords frames t) (hne : frames.tail ≠ []) :
    Depicts keywords frames.tail t.leaveScope :=
  ⟨h.mirror.leave hne, h.rooted.leave _, h.reserved⟩

/-- **Maps do not mind rows without cells.** -/
theorem indifferent (keywords : List String) (frames : List Frame) :
    Indifferent fun g => Depicts keywords frames g.symbols :=
  .of_symbols fun h hrow hm => h.setMeaning hrow hm

end Depicts

/-- **What a use leaves of a state:** the cell that it pushes, and the error if there is one. A new
cell has been handed out. -/
structure Resolution.Done (r : Resolution) (x : String) (line : Nat) (g g' : Generator) : Prop where
  stack : g'.stack = (r.cell.map Operand.direct).toList ++ g.stack
  errors : g'.errors.toList =
    g.errors.toList ++ if r.isUndefined then [⟨line, .undefined x⟩] else []
  taken : r.isNew = true → ∃ m, g.memory.takeCell = .ok (g.memory.nextCell, m)

/-- Before a use only operands, errors and cells matter. -/
theorem Resolution.Done.congr {r : Resolution} {x : String} {line : Nat} {g₀ g g' : Generator}
    (h : r.Done x line g g') (hs : g.stack = g₀.stack) (he : g.errors = g₀.errors)
    (hm : g.memory = g₀.memory) : r.Done x line g₀ g' :=
  ⟨hs ▸ h.stack, he ▸ h.errors, hm ▸ h.taken⟩

/-- What stands for nothing has been reported before it gets a new cell. -/
theorem Resolution.Done.reported {found : Option Nat} {x : String} {new line : Nat}
    {frames : List Frame} {g₀ g g' : Generator}
    (h : (Resolution.orNew found x new frames).Done x line g g') (hs : g.stack = g₀.stack)
    (hm : g.memory = g₀.memory) (he : g.errors.toList =
      g₀.errors.toList ++ if found.isNone then [⟨line, .undefined x⟩] else []) :
    Resolution.Done { Resolution.orNew found x new frames with isUndefined := found.isNone }
      x line g₀ g' := by
  have hnone : (Resolution.orNew found x new frames).isUndefined = false := by cases found <;> rfl
  have herrors := h.errors
  rw [hnone, if_neg nofun, List.append_nil] at herrors
  exact ⟨hs ▸ h.stack, herrors.trans he, hm ▸ h.taken⟩

section Uses

variable {keywords : List String} {frames : List Frame} {g : Generator} {x : String} {line : Nat}
  (h : Depicts keywords frames g.symbols)
include h

theorem Depicts.readCell? : g.readCell? x = Frame.nearest? frames x := h.mirror.nearest? h.rooted x

theorem Depicts.ownCell? : g.ownCell? x = Frame.own? frames x := h.mirror.own? h.rooted x

/-- **A name gets a new cell,** and nothing else happens. -/
theorem Depicts.bindFresh (hn : keywords.contains loopKeyword = true → x ≠ loopKeyword) :
    Ends (bindFresh x) g fun cell g' => cell = g.memory.nextCell ∧
      Depicts keywords (Frame.bind frames x cell) g'.symbols ∧
        (∃ m, g.memory.takeCell = .ok (g.memory.nextCell, m)) ∧ g'.stack = g.stack ∧
          g'.errors = g.errors ∧ g'.definitions = g.definitions := by
  simp only [Emission.bindFresh, ends_bind, ends_modifyGet, ends_onMemory, ends_modify, ends_pure]
  intro cell m hm
  obtain rfl := Memory.eq_nextCell hm
  exact ⟨rfl, h.bind hn _, ⟨m, hm⟩, rfl, rfl, rfl⟩

/-- A parameter gets a cell of its own. -/
theorem Depicts.addParameter (line : Nat)
    (hn : keywords.contains loopKeyword = true → x ≠ loopKeyword) :
    Ends (addParameter x) g fun _ g' =>
      Depicts keywords (Use.parameter.resolve x g.memory.nextCell frames).frames g'.symbols ∧
        (Use.parameter.resolve x g.memory.nextCell frames).Done x line g g' := by
  simp only [Emission.addParameter, ends_bind, ends_modify]
  refine (h.bindFresh hn).mono ?_
  rintro _ g' ⟨rfl, h', htaken, hstack, herrors, -⟩
  exact ⟨h', hstack, by simp [Use.resolve, Generator.mapDefinition, herrors], fun _ => htaken⟩

/-- **A name is declared global.** -/
theorem Depicts.bindGlobal (hn : keywords.contains loopKeyword = true → x ≠ loopKeyword) :
    Ends (bindGlobal x line) g fun _ g' =>
      Depicts keywords (Use.global.resolve x g.memory.nextCell frames).frames g'.symbols ∧
        (Use.global.resolve x g.memory.nextCell frames).Done x line g g' := by
  have houter : g.currentScope = Scopes.outermost ↔ frames.tail = [] := h.mirror.eq_outermost_iff
  simp only [Emission.bindGlobal, ends_bind, ends_get, h.mirror.global? x]
  split
  · rename_i hs
    rw [ends_pure, Use.resolve, houter.1 hs]
    exact ⟨h, rfl, by simp, fun hc => by cases hc⟩
  · rename_i hs
    obtain ⟨f, outer, htail⟩ := List.exists_cons_of_ne_nil fun hnil => hs (houter.2 hnil)
    rw [Use.resolve, htail]
    cases Frame.global? frames x with
    | none => exact ends_report.2 ⟨h, rfl, by simp [Generator.report], fun hc => by cases hc⟩
    | some cell =>
      simp only [ends_bind, ends_modifyGet, ends_modify]
      exact ⟨h.bind hn cell, rfl, by simp [Generator.setMeaning, Generator.rowFor],
        fun hc => by cases hc⟩

/-- **The cell that has been found is pushed,** or a new one. -/
theorem Depicts.orNew (line : Nat)
    (hn : keywords.contains loopKeyword = true → x ≠ loopKeyword) (found : Option Nat) :
    Ends (do
      let cell ← match found with
        | some cell => pure cell
        | none => Emission.bindFresh x
      push (.direct cell)) g fun _ g' =>
        Depicts keywords (Resolution.orNew found x g.memory.nextCell frames).frames g'.symbols ∧
          (Resolution.orNew found x g.memory.nextCell frames).Done x line g g' := by
  cases found with
  | some cell =>
    refine ends_bind.2 ((ends_pure _).2 (ends_push.2 ⟨h, rfl, ?_, nofun⟩))
    simp [Resolution.orNew, Generator.push]
  | none =>
    refine ends_bind.2 ((h.bindFresh hn).mono ?_)
    rintro _ g' ⟨rfl, h', htaken, hstack, herrors, -⟩
    rw [ends_push]
    exact ⟨h', congrArg _ hstack, by simp [Resolution.orNew, Generator.push, herrors],
      fun _ => htaken⟩

/-- **A name is assigned to.** -/
theorem Depicts.assignTo (line : Nat)
    (hn : keywords.contains loopKeyword = true → x ≠ loopKeyword) :
    Ends (assignTo x) g fun _ g' =>
      Depicts keywords (Use.target.resolve x g.memory.nextCell frames).frames g'.symbols ∧
        (Use.target.resolve x g.memory.nextCell frames).Done x line g g' := by
  rw [Emission.assignTo, ends_bind, ends_get, h.ownCell?]
  exact h.orNew line hn _

/-- What is read has to stand for something. -/
theorem Depicts.requireCell : Ends (requireCell x line) g fun _ g' =>
    g' = { g with errors := g'.errors } ∧ g'.errors.toList = g.errors.toList ++
      if (Frame.nearest? frames x).isNone then [⟨line, .undefined x⟩] else [] := by
  simp only [Emission.requireCell, ends_bind, ends_get, h.readCell?]
  split
  · exact ends_report.2 ⟨rfl, by simp [Generator.report]⟩
  · exact (ends_pure _).2 ⟨rfl, by simp⟩

/-- **A name is read,** which has been looked at before. -/
theorem Depicts.readName (line : Nat)
    (hn : keywords.contains loopKeyword = true → x ≠ loopKeyword) :
    Ends (readName x) g fun _ g' =>
      Depicts keywords (Use.value.resolve x g.memory.nextCell frames).frames g'.symbols ∧
        (Resolution.orNew (Frame.nearest? frames x) x g.memory.nextCell frames).Done x line g g' := by
  rw [Emission.readName, ends_bind, ends_get, h.readCell?]
  exact h.orNew line hn _

end Uses

section Definitions

/-- **The definitions whose parameters are being read** are on rows without cells, which belong to
other scopes than the current one. -/
def Unpublished (t : SymbolTable) (definitions : List Definition) : Prop :=
  ∀ d ∈ definitions, d.header.isSome → t.cell? d.row = none ∧
    ∃ s, t.scope? d.row = some s ∧ s ≠ t.currentScope

variable {keywords : List String} {t : SymbolTable} {definitions : List Definition} {x : String}
  {kind : Lexical.TokenKind} {reuse : Meaning → Bool} {row : Nat} {m : Meaning} {g : Generator}

theorem Unpublished.appendRow (h : Unpublished t definitions) :
    Unpublished (t.appendRow x kind).2 definitions := by
  intro d hd hheader
  obtain ⟨hcell, s, hs, hne⟩ := h d hd hheader
  refine ⟨SymbolTable.cell?_appendRow.trans hcell, s, ?_, hne⟩
  rw [SymbolTable.scope?_appendRow, if_neg (Nat.ne_of_lt (SymbolTable.lt_of_scope? hs))]
  exact hs

theorem Unpublished.rowFor (h : Unpublished t definitions) :
    Unpublished (t.rowFor x kind reuse).2 definitions :=
  SymbolTable.rowFor_induction (P := fun t => Unpublished t definitions) h h.appendRow

theorem Unpublished.record (h : Unpublished t definitions) (token : Lexical.Token) :
    Unpublished (t.record token) definitions := by
  rcases SymbolTable.record_cases t token with heq | ⟨heq, -⟩
  · rwa [heq]
  · rw [heq]
    exact h.appendRow

/-- Rows of the current scope may mean anything. -/
theorem Unpublished.setMeaning (h : Unpublished t definitions)
    (hrow : t.scope? row = some t.currentScope) : Unpublished (t.setMeaning row m) definitions := by
  intro d hd hheader
  obtain ⟨hcell, s, hs, hne⟩ := h d hd hheader
  refine ⟨?_, s, SymbolTable.scope?_setMeaning.trans hs, hne⟩
  rw [SymbolTable.cell?_setMeaning, if_neg]
  · exact hcell
  · rintro rfl
    exact hne (Option.some.inj (hs.symm.trans hrow))

/-- While no parameters are read there are no such definitions. -/
theorem unpublished_of_calm (h : Calm keywords false g) : Unpublished g.symbols g.definitions := by
  intro d hd hheader
  rw [(h.standing d hd).1] at hheader
  cases hheader

/-- A parameter is bound in the scope of its function, and so not on the row of that. -/
theorem Unpublished.addParameter (h : Unpublished g.symbols g.definitions)
    (ho : g.symbols.Opened g.currentScope) :
    Ends (addParameter x) g fun _ g' => Unpublished g'.symbols g'.definitions := by
  simp only [Emission.addParameter, Emission.bindFresh, ends_bind, ends_modifyGet, ends_onMemory,
    ends_modify, ends_pure]
  intro cell m _
  have hscope : (g.rowFor x Meaning.isVariable).2.symbols.scope?
      (g.rowFor x Meaning.isVariable).1 = some g.currentScope :=
    SymbolTable.scope?_of_latestIn (SymbolTable.latestIn_rowFor ho)
  have hcurrent : (g.rowFor x Meaning.isVariable).2.symbols.currentScope = g.currentScope :=
    congrArg Scopes.current (SymbolTable.scopes_rowFor _ _ _ _)
  have hbound : Unpublished ((g.rowFor x Meaning.isVariable).2.symbols.setMeaning
      (g.rowFor x Meaning.isVariable).1 (.variable (some cell))) g.definitions :=
    Unpublished.setMeaning h.rowFor (hscope.trans (congrArg some hcurrent.symm))
  intro d hd hheader
  unfold Generator.mapDefinition at hd
  dsimp only [Generator.setMeaning, Generator.rowFor] at hd
  cases hdefs : g.definitions with
  | nil =>
    rw [hdefs] at hd
    cases hd
  | cons innermost rest =>
    rw [hdefs] at hd hbound
    rcases List.mem_cons.1 hd with rfl | hd
    · exact hbound innermost List.mem_cons_self (by simpa using hheader)
    · exact hbound d (List.mem_cons_of_mem _ hd) hheader

end Definitions

section Actions

variable {keywords : List String} {frames : List Frame} {g : Generator} {x : String} {line : Nat}
  {header : Bool} {a : Action}

/-- The row that a function is going to be put on has no cell. -/
theorem cell?_rowFor_unused (t : SymbolTable) (x : String) (kind : Lexical.TokenKind) :
    (t.rowFor x kind (· = .unused)).2.cell? (t.rowFor x kind (· = .unused)).1 = none := by
  rcases (SymbolTable.rowFor_spec t x kind (· = .unused)).2 with ⟨heq, hany⟩ | heq
  · rw [heq]
    obtain ⟨m, hm, hunused⟩ := (Option.any_eq_true _ _).1 hany
    rw [SymbolTable.cell?, hm, of_decide_eq_true hunused]
    rfl
  · rw [heq, SymbolTable.cell?_appendRow]
    simp [SymbolTable.appendRow, SymbolTable.cell?, SymbolTable.meaning?]

/-- **A definition begins** with a scope in which nothing is bound. -/
theorem Depicts.startFunction (h : Depicts keywords frames g.symbols)
    (hcalm : Calm keywords false g) : Ends (startFunction x) g fun _ g' =>
      Depicts keywords (Frame.empty false :: frames) g'.symbols ∧
        Unpublished g'.symbols g'.definitions := by
  simp only [Emission.startFunction, ends_bind, ends_onMemory, ends_modifyGet, ends_get,
    ends_modify]
  intro around m₀ _ result m₁ _ returnCell m₂ _
  have hscope : (g.symbols.rowFor x .identifier (· = .unused)).2.scope?
      (g.symbols.rowFor x .identifier (· = .unused)).1 = some g.currentScope :=
    SymbolTable.scope?_of_latestIn (SymbolTable.latestIn_rowFor h.mirror.opened)
  have hsize : (g.symbols.rowFor x .identifier (· = .unused)).2.scopes.all.size =
      g.symbols.scopes.all.size := by rw [SymbolTable.scopes_rowFor]
  refine ⟨h.rowFor.enter (.body _), List.forall_mem_cons.2 ⟨fun _ => ?_, fun d hd hheader => ?_⟩⟩
  · refine ⟨cell?_rowFor_unused g.symbols x .identifier, g.currentScope, hscope, ?_⟩
    exact Nat.ne_of_lt (Nat.lt_of_lt_of_eq h.mirror.opened.lt hsize.symm)
  · rw [(hcalm.standing d hd).1] at hheader
    cases hheader

/-- **Functions are retired** on rows without cells. -/
theorem Depicts.retireRivals (h : Depicts keywords frames g.symbols) :
    Ends (retireRivals line) g fun _ g' => Depicts keywords frames g'.symbols := by
  simp only [Emission.retireRivals, ends_bind, ends_get]
  split
  · exact (ends_pure _).2 h
  · rename_i row _
    simp only [ends_bind, ends_modify]
    refine (ends_forM (g := { g with lastDefined := none })
      (P := fun g' => Depicts keywords frames g'.symbols ∧
        ∀ other ∈ g.rivals row, (g'.symbols.function? other).isSome)
      ⟨h, fun other hother => Sound.function?_of_mem_rivals hother⟩ ?_).mono fun _ _ h => h.1
    rintro other hother g₁ ⟨h₁, hrivals⟩
    simp only [ends_bind, ends_report, ends_modify]
    obtain ⟨info, hinfo⟩ := Option.isSome_iff_exists.1 (hrivals other hother)
    refine ⟨h₁.retire (SymbolTable.cell?_of_function? hinfo), fun i hi => ?_⟩
    change ((g₁.symbols.retire other).function? i).isSome
    rw [SymbolTable.function?_retire]
    exact hrivals i hi

/-- Actions that change operands and code only bind nothing. -/
theorem Frame.behind_aside {new : Nat} (ha : isAside a = true) :
    Frame.behind frames a x new = frames := by
  unfold Frame.behind
  split <;> first | rfl | cases ha

/-- **Scopes show the maps behind every action,** whatever errors there are. -/
theorem Depicts.perform (h : Depicts keywords frames g.symbols)
    (hunpublished : Unpublished g.symbols g.definitions) (hcalm : Calm keywords header g)
    (hheader : header = true → a = .param ∨ a = .paramsDone)
    (hn : a.behind? = some .identifier → keywords.contains loopKeyword = true → x ≠ loopKeyword)
    (hloop : a = .loopBegin ∨ a = .loopEnd → keywords.contains loopKeyword = true)
    (hclose : a = .exitFunction ∨ a = .loopEnd → frames.tail ≠ [])
    (hexit : a = .exitFunction → g.definitions ≠ []) :
    Ends (perform a x line) g fun _ g' =>
      Depicts keywords (Frame.behind frames a x g.memory.nextCell) g'.symbols ∧
        Unpublished g'.symbols g'.definitions := by
  have hfalse : ¬(a = .param ∨ a = .paramsDone) → header = false := fun hne =>
    Bool.eq_false_iff.2 fun ht => hne (hheader ht)
  have hindifferent := Depicts.indifferent keywords frames
  have hcells := fun d hd hsome => (hunpublished d hd hsome).1
  by_cases hparam : a = .param
  · subst hparam
    exact ((h.addParameter line (hn rfl)).and (hunpublished.addParameter h.mirror.opened)).mono
      fun _ _ h' => ⟨h'.1.1, h'.2⟩
  by_cases henter : a = .enterFunction
  · subst henter
    exact h.startFunction (hfalse nofun ▸ hcalm)
  -- behind all other actions no parameters are read
  have hbehind : heading header a = false := by
    cases ha : a with
    | param => exact absurd ha hparam
    | enterFunction => exact absurd ha henter
    | paramsDone => rfl
    | _ => exact hfalse (by rw [ha]; nofun)
  suffices hends : Ends (Emission.perform a x line) g fun _ g' =>
      Depicts keywords (Frame.behind frames a x g.memory.nextCell) g'.symbols by
    refine (hends.and (secure_perform hcalm hheader (fun ha => hn (ha ▸ rfl)) hloop).ends).mono ?_
    rintro _ g' ⟨h', hcalm'⟩
    rw [hbehind] at hcalm'
    exact ⟨h', unpublished_of_calm hcalm'⟩
  by_cases haside : isAside a = true
  · rw [Frame.behind_aside haside]
    exact hindifferent.perform haside g h
  cases a with
  | pushId => exact (h.readName line (hn rfl)).mono fun _ _ h' => h'.1
  | pushTarget => exact (h.assignTo line (hn rfl)).mono fun _ _ h' => h'.1
  | global => exact (h.bindGlobal (hn rfl)).mono fun _ _ h' => h'.1
  | listItem =>
    refine ends_bind.2 ((hindifferent.takeValue g h).mono fun value g₁ h₁ => ?_)
    refine ends_bind.2 (ends_onMemory.2 fun cell m _ => ?_)
    exact hindifferent.emit _ h₁
  | param => exact absurd rfl hparam
  | enterFunction => exact absurd rfl henter
  | paramsDone => exact hindifferent.publish h hcells
  | returnValue => exact hindifferent.returnWith h
  | checkOverload => exact h.retireRivals
  | exitFunction =>
    refine (hindifferent.endFunction h (hexit rfl) hcells).mono ?_
    rintro _ _ ⟨g₁, row, h₁, rfl⟩
    exact h₁.leave (hclose (.inl rfl))
  | loopBegin =>
    refine (hindifferent.startLoop h (h.reserved (hloop (.inl rfl)))).mono ?_
    rintro _ _ ⟨g₁, h₁, rfl⟩
    exact h₁.enter .loop
  | loopEnd =>
    refine (hindifferent.endLoop h (h.reserved (hloop (.inr rfl)))).mono ?_
    rintro _ _ ⟨g₁, h₁, rfl⟩
    exact h₁.leave (hclose (.inr rfl))
  | breakLoop | continueLoop =>
    refine hindifferent.leaveLoop h fun hin => h.reserved ?_
    by_contra hk
    rw [Bool.not_eq_true] at hk
    exact hcalm.table.loopless hk _ (eq_of_beq hin)
  | _ => exact absurd rfl haside

/-- Every frame is shown by one of the scopes. -/
theorem exists_shows {t : SymbolTable} {scopes : List Nat}
    (h : List.Forall₂ (Shows t) frames scopes) {f : Frame} (hf : f ∈ frames) :
    ∃ s ∈ scopes, Shows t f s := by
  induction h with
  | nil => exact absurd hf List.not_mem_nil
  | cons hfirst _ ih =>
    rcases List.mem_cons.1 hf with rfl | hf
    · exact ⟨_, List.mem_cons_self, hfirst⟩
    · obtain ⟨s, hs, hshows⟩ := ih hf
      exact ⟨s, List.mem_cons_of_mem _ hs, hshows⟩

/-- **A cell that nothing stands for:** it is no name's in any of the maps, and no function's. -/
structure Untaken (frames : List Frame) (g : Generator) (cell : Nat) : Prop where
  names : ∀ f ∈ frames, ∀ x, f.cells x ≠ some cell
  functions : ∀ row info, g.Has row info → cell ∉ info.cells

/-- **A new cell is taken by nothing else.** -/
theorem Depicts.untaken (h : Depicts keywords frames g.symbols) {c : Config} (hs : Settled c g)
    (hu : 0 < c.unit) {cell : Nat} {m : Memory} (ht : g.memory.takeCell = .ok (cell, m)) :
    Untaken frames g cell := by
  obtain ⟨globals, others, layers, hkept⟩ := hs.kept
  have howned := hkept.owned.takeCell hu ht
  refine ⟨fun f hf y hy => ?_, fun row info hrow => howned.not_mem_cells hrow⟩
  -- a name in one of the maps has a row in sight
  obtain ⟨s, hs, hshows⟩ := exists_shows (h.mirror.forall₂ h.rooted) hf
  obtain ⟨row, hrow, hcell⟩ := Option.bind_eq_some_iff.1 ((hshows.cells y).trans hy)
  exact howned.not_sees ⟨hcell, s, SymbolTable.scope?_of_latestIn hrow, hs⟩

end Actions

end Syntax

end OnePass
