import OnePass.Proofs.Emission.Overloads

/-!
# Cells that are handed out once

As long as no function is retired no cell is given back, so each new cell lies behind all that were
handed out before. The cell of a list item is named nowhere, so nothing that has a name or belongs
to a function ever comes to have that cell.

* `Generator.Mentions`: the cells of variables and of functions, be they in sight or not.
* `Stored`: **cells of items that nothing mentions.** `stored_aloof`: most actions do not matter.
* `Stored.ends_takeCell`, `Stored.setMeaning`: new cells, and the rows that get them.
* `ends_storeItem_eq`, `Stored.ends_storeItem`: an item gets the next cell.
* `Stored.perform`: **every action keeps the items apart.**
-/

namespace OnePass.Names

/-- The cells that a meaning has to do with. -/
def Meaning.cells : Meaning → List Nat
  | .variable cell => cell.toList
  | .function f => f.cells
  | .loops _ => []

end OnePass.Names

namespace OnePass.Emission

open Grammar (Action)
open Names Target

/-- **A cell of a variable or of a function:** it is that of a row, or of a function whose parameters
are being read. -/
def Generator.Mentions (g : Generator) (a : Nat) : Prop :=
  (∃ row m, g.symbols.meaning? row = some m ∧ a ∈ m.cells) ∨
    ∃ d ∈ g.definitions, ∃ f, d.header = some f ∧ a ∈ f.cells

/-- **Cells of items that nothing mentions.** No cell has been given back, and those below the floor
have been handed out. Some cells are held, as they are about to be mentioned. -/
structure Stored (floor : Nat) (items held : List Nat) (g : Generator) : Prop where
  unit : 0 < g.memory.unit
  spare : g.memory.spareCells = []
  above : floor ≤ g.memory.dataNext
  behind : ∀ a ∈ items, a < g.memory.dataNext
  apart : ∀ a ∈ held, a < g.memory.dataNext ∧ a ∉ items
  mentions : ∀ a, g.Mentions a → a < g.memory.dataNext ∧ a ∉ items

variable {floor : Nat} {items held held' : List Nat} {g g' : Generator} {a row line : Nat} {name : String}

namespace Generator

theorem mentions_of_cell? (h : g.symbols.cell? row = some a) : g.Mentions a := by
  obtain ⟨cell | _ | _, hm, hcell⟩ := Option.bind_eq_some_iff.1 h
  · obtain rfl : cell = some a := hcell
    exact .inl ⟨row, _, hm, List.mem_singleton_self a⟩
  · cases hcell
  · cases hcell

theorem mentions_of_function? {f : FunctionInfo} (h : g.symbols.function? row = some f)
    (ha : a ∈ f.cells) : g.Mentions a := by
  obtain ⟨_ | f' | _, hm, hf⟩ := Option.bind_eq_some_iff.1 h
  · cases hf
  · obtain rfl : f' = f := Option.some.inj hf
    exact .inl ⟨row, _, hm, ha⟩
  · cases hf

end Generator

namespace Stored

/-- A step that hands out nothing, and mentions nothing but what was mentioned or is held. -/
theorem congr (h : Stored floor items held g) (hunit : g'.memory.unit = g.memory.unit)
    (hspare : g'.memory.spareCells = g.memory.spareCells)
    (hnext : g'.memory.dataNext = g.memory.dataNext)
    (hmentions : ∀ a, g'.Mentions a → a ∈ held ∨ g.Mentions a) : Stored floor items held g' where
  unit := hunit ▸ h.unit
  spare := hspare.trans h.spare
  above := hnext ▸ h.above
  behind := hnext ▸ h.behind
  apart := hnext ▸ h.apart
  mentions a ha := hnext ▸ (hmentions a ha).elim (h.apart a) (h.mentions a)

/-- The floor can be raised up to the next cell. -/
theorem raise (h : Stored floor items held g) : Stored g.memory.dataNext items held g :=
  { h with above := Nat.le_refl _ }

theorem mono (h : Stored floor items held g) (hsub : held' ⊆ held) : Stored floor items held' g :=
  { h with apart := fun a ha => h.apart a (hsub ha) }

/-- Cells that are mentioned can be mentioned elsewhere. -/
theorem hold (h : Stored floor items held g) {cells : List Nat} (hc : ∀ a ∈ cells, g.Mentions a) :
    Stored floor items (cells ++ held) g :=
  { h with apart := fun a ha =>
      (List.mem_append.1 ha).elim (fun ha => h.mentions a (hc a ha)) (h.apart a) }

section Cells

/-- The next cell lies behind all others. -/
theorem next (h : Stored floor items held g) : g.memory.dataNext ∉ items := fun hmem =>
  absurd (h.behind _ hmem) (Nat.lt_irrefl _)

theorem advance (h : Stored floor items held g) : Stored floor items (g.memory.dataNext :: held)
    { g with memory := { g.memory with dataNext := g.memory.dataNext + g.memory.unit } } where
  unit := h.unit
  spare := h.spare
  above := Nat.le_add_right_of_le h.above
  behind a ha := Nat.lt_add_right _ (h.behind a ha)
  apart := List.forall_mem_cons.2 ⟨⟨Nat.lt_add_of_pos_right h.unit, h.next⟩,
    fun a ha => (h.apart a ha).imp_left (Nat.lt_add_right _)⟩
  mentions a ha := (h.mentions a ha).imp_left (Nat.lt_add_right _)

/-- A cell that is handed out and never mentioned. -/
theorem store (h : Stored floor items held g) : Stored floor (g.memory.dataNext :: items) held
    { g with memory := { g.memory with dataNext := g.memory.dataNext + g.memory.unit } } := by
  have hold : ∀ a, a < g.memory.dataNext ∧ a ∉ items →
      a < g.memory.dataNext + g.memory.unit ∧ a ∉ g.memory.dataNext :: items := fun a ⟨hlt, ha⟩ =>
    ⟨Nat.lt_add_right _ hlt, List.not_mem_cons_of_ne_of_not_mem (Nat.ne_of_lt hlt) ha⟩
  refine ⟨h.unit, h.spare, Nat.le_add_right_of_le h.above, List.forall_mem_cons.2 ⟨Nat.lt_add_of_pos_right h.unit, ?_⟩,
    fun a ha => hold a (h.apart a ha), fun a ha => hold a (h.mentions a ha)⟩
  exact fun a ha => Nat.lt_add_right _ (h.behind a ha)

/-- **A new cell** lies behind all others. -/
theorem ends_takeCell (h : Stored floor items held g) :
    Ends (onMemory (·.takeCell)) g fun cell g' => Stored floor items (cell :: held) g' := by
  rw [ends_onMemory]
  intro cell m hm
  rw [Memory.takeCell_eq, h.spare] at hm
  change g.memory.takeNextCell = _ at hm
  rw [Memory.takeNextCell_eq] at hm
  split at hm
  · cases hm
  · cases hm
    exact h.advance

end Cells

section Rows

/-- **A row comes to mean something else,** that has to do with cells which are held only. -/
theorem setMeaning (h : Stored floor items held g) {m : Meaning} (hm : ∀ a ∈ m.cells, a ∈ held)
    (row : Nat) : Stored floor items held (g.setMeaning row m) := by
  refine h.congr rfl rfl rfl fun a ha => ?_
  rcases ha with ⟨row', m', hm', ha⟩ | hd
  · have hmeaning : (g.symbols.setMeaning row m).meaning? row' = some m' := hm'
    rw [SymbolTable.meaning?_setMeaning] at hmeaning
    split at hmeaning
    · obtain ⟨_, -, rfl⟩ := Option.map_eq_some_iff.1 hmeaning
      exact .inl (hm a ha)
    · exact .inr (.inl ⟨row', m', hmeaning, ha⟩)
  · exact .inr (.inr hd)

/-- The same rows, and maybe one that means nothing yet. -/
theorem table (h : Stored floor items held g) {t : SymbolTable}
    (ht : ∀ i m, t.meaning? i = some m → g.symbols.meaning? i = some m ∨ m = .unused) :
    Stored floor items held { g with symbols := t } := by
  refine h.congr rfl rfl rfl fun a ha => .inr ?_
  rcases ha with ⟨row, m, hm, ha⟩ | hd
  · rcases ht row m hm with hm | rfl
    · exact .inl ⟨row, m, hm, ha⟩
    · cases ha
  · exact .inr hd

theorem appendRow (h : Stored floor items held g) (kind : Lexical.TokenKind) :
    Stored floor items held { g with symbols := (g.symbols.appendRow name kind).2 } := by
  refine h.table fun i m hm => ?_
  rw [SymbolTable.meaning?_appendRow] at hm
  split at hm
  · exact .inr (Option.some.inj hm).symm
  · exact .inl hm

theorem rowFor (h : Stored floor items held g) (reuse : Meaning → Bool) :
    Stored floor items held (g.rowFor name reuse).2 :=
  SymbolTable.rowFor_induction (P := fun t => Stored floor items held { g with symbols := t }) h
    (h.appendRow _)

theorem record (h : Stored floor items held g) (token : Lexical.Token) :
    Stored floor items held { g with symbols := g.symbols.record token } := by
  rcases SymbolTable.record_cases g.symbols token with heq | ⟨heq, -⟩
  · rw [heq]
    exact h
  · rw [heq]
    exact h.appendRow _

end Rows

section Headers

theorem definitions (h : Stored floor items held g) {defs : List Definition}
    (hd : ∀ d ∈ defs, ∀ f, d.header = some f → ∀ a ∈ f.cells, a ∈ held ∨ g.Mentions a) :
    Stored floor items held { g with definitions := defs } := by
  refine h.congr rfl rfl rfl fun a ha => ?_
  rcases ha with hrow | ⟨d, hmem, f, hf, ha⟩
  · exact .inr (.inl hrow)
  · exact hd d hmem f hf a ha

/-- **The innermost definition changes.** Its header gets cells that are held only. -/
theorem mapDefinition (h : Stored floor items held g) {change : Definition → Definition}
    (hc : ∀ d f, (change d).header = some f → ∀ a ∈ f.cells,
      a ∈ held ∨ ∃ f', d.header = some f' ∧ a ∈ f'.cells) :
    Stored floor items held (g.mapDefinition change) := by
  refine h.definitions fun d hmem f hf a ha => ?_
  cases hdefs : g.definitions with
  | nil =>
    rw [hdefs] at hmem
    cases hmem
  | cons first rest =>
    rw [hdefs] at hmem
    rcases List.mem_cons.1 hmem with rfl | hmem
    · exact (hc first f hf a ha).imp_right fun ⟨f', hf', ha'⟩ =>
        .inr ⟨first, hdefs ▸ List.mem_cons_self, f', hf', ha'⟩
    · exact .inr (.inr ⟨d, hdefs ▸ List.mem_cons_of_mem _ hmem, f, hf, ha⟩)

end Headers

end Stored

/-- **Operands, code and calls do not matter.** -/
theorem stored_aloof : Aloof (Stored floor items held) where
  aside h hs hm hd _ _ := by
    refine h.congr (by rw [hm]) (by rw [hm]) (by rw [hm]) fun a ha => .inr ?_
    rwa [Generator.Mentions, hs, hd] at ha
  append _ h _ := h.congr rfl rfl rfl fun _ => .inr
  filled _ _ h := h.congr rfl rfl rfl fun _ => .inr
  withTemp h _ := h.congr rfl rfl rfl fun _ => .inr
  dropTemp {g} cell h := by
    refine h.congr ?_ ?_ (g.dataNext_dropTemp cell) fun _ => .inr
    all_goals
      unfold Generator.dropTemp Memory.dropTemp
      split <;> rfl
  mapDefinition h _ _ hheader := h.mapDefinition fun d f hf _ ha =>
    .inr ⟨f, (hheader d).symm.trans hf, ha⟩
  calls _ h := h.congr rfl rfl rfl fun _ => .inr

/-- Actions that only compute hand out no cell. -/
theorem aloof_dataNext (next : Nat) : Aloof fun g => g.memory.dataNext = next where
  aside h _ hm _ _ _ := hm ▸ h
  append _ h _ := h
  filled _ _ h := h
  withTemp h _ := h
  dropTemp {g} cell h := (g.dataNext_dropTemp cell).trans h
  mapDefinition h _ _ _ := h
  calls _ h := h

/-- **An item gets the next cell.** -/
theorem ends_storeItem_eq {value : Operand} {st : OperandStack} (h : g.stack = value :: st) :
    Ends (storeItem line) g fun _ g' => ∃ g₁, Took line [value] g st g₁ ∧
      g' = ({ g₁ with memory := { g₁.memory with
        dataNext := g₁.memory.dataNext + g₁.memory.unit } } : Generator).append
          (some (.assign value (.direct g₁.memory.dataNext))) := by
  simp only [storeItem, ends_bind, ends_takeValue, ends_onMemory, ends_emit]
  obtain ⟨hvalue, htook⟩ := took_takeValue h line
  intro cell m hm _
  rw [Memory.takeNextCell_eq] at hm
  split at hm
  · cases hm
  · cases hm
    exact ⟨_, htook, by rw [hvalue]⟩

namespace Stored

section Names

theorem ends_bindFresh (h : Stored floor items held g) :
    Ends (bindFresh name) g fun cell g' => Stored floor items (cell :: held) g' := by
  simp only [bindFresh, ends_bind, ends_modifyGet, ends_modify, ends_pure]
  refine (h.rowFor Meaning.isVariable).ends_takeCell.mono fun cell g₁ h₁ => ?_
  refine h₁.setMeaning (fun a ha => ?_) _
  exact List.mem_cons.2 (.inl (List.mem_singleton.1 ha))

theorem readName : Upholds (Stored floor items held) (readName name) := by
  refine upholds_bind upholds_get fun g₁ => ?_
  split
  · exact upholds_bind (upholds_pure _) fun _ => stored_aloof.push
  · refine upholds_bind (fun g h => ?_) fun _ => stored_aloof.push
    exact h.ends_bindFresh.mono fun cell _ h => h.mono (List.subset_cons_self cell held)

theorem assignTo : Upholds (Stored floor items held) (assignTo name) := by
  refine upholds_bind upholds_get fun g₁ => ?_
  split
  · exact upholds_bind (upholds_pure _) fun _ => stored_aloof.push
  · refine upholds_bind (fun g h => ?_) fun _ => stored_aloof.push
    exact h.ends_bindFresh.mono fun cell _ h => h.mono (List.subset_cons_self cell held)

/-- The cell of a global name is mentioned already. -/
theorem bindGlobal : Upholds (Stored floor items held) (bindGlobal name line) := by
  intro g h
  simp only [Emission.bindGlobal, ends_bind, ends_get]
  split
  · exact (ends_pure ()).2 h
  · split
    · exact stored_aloof.report g h
    · rename_i cell hcell
      obtain ⟨row, -, hrow⟩ := Option.bind_eq_some_iff.1 hcell
      simp only [ends_bind, ends_modifyGet, ends_modify]
      have hheld : Stored floor items ([cell] ++ held) g := h.hold fun a ha =>
        List.mem_singleton.1 ha ▸ Generator.mentions_of_cell? hrow
      refine ((hheld.rowFor Meaning.isVariable).setMeaning (fun a ha => ?_) _).mono
        (List.subset_cons_self cell held)
      exact List.mem_cons.2 (.inl (List.mem_singleton.1 ha))

end Names

/-- **An item is stored** in a cell that nothing mentions. -/
theorem ends_storeItem (h : Stored floor items held g) :
    Ends (storeItem line) g fun _ g' => Stored floor (g.memory.dataNext :: items) held g' := by
  have haloof : Aloof fun g' => Stored floor items held g' ∧ g'.memory.dataNext = g.memory.dataNext :=
    stored_aloof.and (aloof_dataNext _)
  rw [storeItem, ends_bind]
  refine (haloof.takeValue g ⟨h, rfl⟩).mono fun value g₁ htaken => ?_
  obtain ⟨h₁, hnext⟩ := htaken
  rw [ends_bind, ends_onMemory, ← hnext]
  intro cell m hm
  rw [Memory.takeNextCell_eq] at hm
  split at hm
  · cases hm
  · cases hm
    exact stored_aloof.emit _ h₁.store

section Loops

theorem loopRecord : Upholds (Stored floor items held) loopRecord := by
  refine upholds_bind upholds_get fun g₁ => ?_
  dsimp only
  split
  · exact upholds_defect
  · split
    · exact upholds_pure _
    · refine upholds_bind (upholds_modify fun _ h => h.setMeaning ?_ _) fun _ => upholds_pure _
      exact fun _ ha => absurd ha List.not_mem_nil
    · exact upholds_defect

theorem setLoops (record : LoopRecord) :
    Upholds (Stored floor items held) (modify (·.setMeaning row (.loops record))) :=
  upholds_modify fun _ h => h.setMeaning (fun _ ha => absurd ha List.not_mem_nil) _

/-- Scopes do not matter. -/
theorem scopes {t : Scopes} (h : Stored floor items held g) :
    Stored floor items held { g with symbols := { g.symbols with scopes := t } } :=
  h.congr rfl rfl rfl fun _ => .inr

theorem startLoop : Upholds (Stored floor items held) startLoop := by
  refine upholds_bind upholds_get fun _ => upholds_bind loopRecord fun p => ?_
  exact upholds_bind (setLoops _) fun _ => upholds_modify fun _ h => h.scopes

theorem endLoop : Upholds (Stored floor items held) endLoop := by
  refine upholds_bind stored_aloof.heldSlot fun _ => upholds_bind stored_aloof.pop fun _ =>
    upholds_bind loopRecord fun p => ?_
  have hleave : Upholds (Stored floor items held) (modify (·.leaveScope)) :=
    upholds_modify fun _ h => h.scopes
  dsimp only
  split
  · exact upholds_bind (setLoops _) fun _ => upholds_bind stored_aloof.settleLoop fun _ => hleave
  · exact hleave

theorem leaveLoop {outside : SemanticFault} {add : LoopRecord → Nat → LoopRecord} :
    Upholds (Stored floor items held) (leaveLoop line outside add) := by
  refine upholds_bind upholds_get fun _ => ?_
  dsimp only
  split
  · exact upholds_bind stored_aloof.reserve fun _ => upholds_bind loopRecord fun p => setLoops _
  · exact stored_aloof.report

end Loops

section Functions

theorem startFunction : Upholds (Stored floor items held) (startFunction name) := by
  refine upholds_bind stored_aloof.reserve fun aroundSlot g h => ?_
  rw [ends_bind]
  refine h.ends_takeCell.mono fun result g₁ h₁ => ?_
  rw [ends_bind]
  refine h₁.ends_takeCell.mono fun returnCell g₂ h₂ => ?_
  simp only [ends_bind, ends_modifyGet, ends_get, ends_modify]
  have h₃ : Stored floor items _ (g₂.rowFor name (· = .unused)).2 := h₂.rowFor _
  generalize (g₂.rowFor name (· = .unused)).2 = g₃ at h₃
  refine ((h₃.scopes (t := (g₃.enterScope _).symbols.scopes)).definitions ?_).mono
    fun a ha => List.mem_cons_of_mem _ (List.mem_cons_of_mem _ ha)
  rintro d hd f hf a ha
  rcases List.mem_cons.1 hd with rfl | hd
  · obtain rfl := Option.some.inj hf
    have hcell : a = result ∨ a = returnCell := by simpa [FunctionInfo.cells, FunctionInfo.fresh] using ha
    rcases hcell with rfl | rfl
    · exact .inl (List.mem_cons_of_mem _ List.mem_cons_self)
    · exact .inl List.mem_cons_self
  · exact .inr (.inr ⟨d, hd, f, hf, ha⟩)

theorem addParameter : Upholds (Stored floor items held) (addParameter name) := by
  intro g h
  rw [Emission.addParameter, ends_bind]
  refine h.ends_bindFresh.mono fun cell g₁ h₁ => ?_
  refine ends_modify.2 ((h₁.mapDefinition fun d f hf a ha => ?_).mono
    (List.subset_cons_self cell held))
  obtain ⟨info, hinfo, rfl⟩ := Option.map_eq_some_iff.1 hf
  simp only [FunctionInfo.cells, List.append_assoc, List.mem_append, List.mem_singleton] at ha
  rcases ha with ha | rfl | ha
  · exact .inr ⟨info, hinfo, List.mem_append_left _ ha⟩
  · exact .inl List.mem_cons_self
  · exact .inr ⟨info, hinfo, List.mem_append_right _ ha⟩

theorem giveMeaning {info : FunctionInfo} (h : Stored floor items held g)
    (hc : ∀ a ∈ info.cells, a ∈ held) :
    Ends (giveMeaning row (·.becomeFunction info)) g fun _ g' => Stored floor items held g' := by
  simp only [Emission.giveMeaning, ends_bind, ends_get]
  split
  · exact (ends_pure _).2 h
  · split
    · rename_i hchange
      unfold Meaning.becomeFunction at hchange
      split at hchange
      · cases hchange
        exact ends_modify.2 (h.setMeaning (m := .function info) hc _)
      · cases hchange
    · exact ends_defect

/-- The cells of a function are mentioned in its header before they are on its row. -/
theorem publish : Upholds (Stored floor items held) publish := by
  intro g h
  simp only [Emission.publish, ends_bind, ends_get]
  split
  · exact (ends_pure _).2 h
  · rename_i d rest hdefs
    split
    · exact (ends_pure _).2 h
    · rename_i info hinfo
      simp only [ends_bind, ends_modify]
      have hheld := h.hold fun a ha => .inr ⟨d, hdefs ▸ List.mem_cons_self, info, hinfo, ha⟩
      have hmap : Stored floor items (info.cells ++ held)
          (g.mapDefinition fun d => { d with header := none }) :=
        hheld.mapDefinition fun _ _ hf => by cases hf
      have hcells : ∀ a ∈ ({ info with start := g.programNext } : FunctionInfo).cells,
          a ∈ info.cells ++ held := fun a ha => List.mem_append_left _ ha
      exact (hmap.giveMeaning hcells).mono fun _ g₁ h₁ => h₁.mono (List.subset_append_right _ _)

theorem returnWith : Upholds (Stored floor items held) (returnWith line) := by
  refine upholds_bind stored_aloof.takeValue fun value =>
    upholds_bind stored_aloof.returningFrom fun row? => ?_
  split
  · exact upholds_pure ()
  · rename_i row
    intro g h
    rw [ends_bind]
    refine ends_functionOn.mono ?_
    rintro info _ ⟨rfl, hf⟩
    have hheld := h.hold fun a ha => Generator.mentions_of_function? hf ha
    rw [ends_bind]
    refine (stored_aloof.emitReturn _ hheld).mono fun _ g₁ h₁ => ?_
    have hcells : ∀ a ∈ (Meaning.function { info with returnsValue := true }).cells,
        a ∈ info.cells ++ held := fun a ha => List.mem_append_left _ ha
    exact ends_modify.2 ((h₁.setMeaning hcells _).mono (List.subset_append_right _ _))

theorem endFunction : Upholds (Stored floor items held) endFunction := by
  have hclose : ∀ g₁ slot row, Stored floor items held g₁ → Ends (settle slot (.jump g₁.programNext)) g₁
      fun _ g₂ => Stored floor items held { g₂.leaveScope with lastDefined := some row } :=
    fun g₁ slot row h₁ => (stored_aloof.settle g₁ h₁).mono fun _ g₂ h₂ =>
      h₂.scopes.congr rfl rfl rfl fun _ => .inr
  intro g h
  rw [Emission.endFunction, ends_bind]
  refine (publish g h).mono fun _ g₁ h₁ => ?_
  simp only [ends_bind, ends_get]
  split
  · exact (ends_pure ()).2 h₁
  · rename_i d rest hdefs
    simp only [ends_bind, ends_modify]
    have h₂ : Stored floor items held { g₁ with definitions := rest } :=
      h₁.definitions fun d' hd f hf a ha =>
        .inr (.inr ⟨d', hdefs ▸ List.mem_cons_of_mem d hd, f, hf, ha⟩)
    split
    · simp only [ends_bind, ends_get, ends_modify]
      refine ends_functionOn.mono ?_
      rintro info _ ⟨rfl, -⟩
      exact (stored_aloof.emitReturn _ h₂).mono fun _ g₃ h₃ => hclose g₃ _ _ h₃
    · simp only [ends_bind, ends_get, ends_modify]
      exact hclose _ _ _ h₂

end Functions

/-- **Every action keeps items apart,** and may store another, as long as nothing is reported. -/
theorem perform (h : Stored floor items held g) (a : Action) (x : String) : Ends (perform a x line) g
    fun _ g' => g'.errors = #[] → Stored floor (g.newItems a ++ items) held g' := by
  by_cases hitem : a = .listItem
  · subst hitem
    exact h.ends_storeItem.mono fun _ _ h' _ => h'
  have hnone : g.newItems a = [] := if_neg hitem
  rw [hnone, List.nil_append]
  by_cases hcheck : a = .checkOverload
  · subst hcheck
    refine ends_retireRivals_clean.mono fun _ g' hclean herrors => ?_
    obtain ⟨last, rfl⟩ := hclean herrors
    exact h.congr rfl rfl rfl fun _ => .inr
  refine Ends.mono (?_ : Ends _ g fun _ g' => Stored floor items held g') fun _ _ h' _ => h'
  by_cases haside : isAside a = true
  · exact stored_aloof.perform haside g h
  cases a with
  | pushId => exact readName g h
  | pushTarget => exact assignTo g h
  | global => exact bindGlobal g h
  | breakLoop => exact leaveLoop g h
  | continueLoop => exact leaveLoop g h
  | loopBegin => exact startLoop g h
  | loopEnd => exact endLoop g h
  | enterFunction => exact startFunction g h
  | param => exact addParameter g h
  | paramsDone => exact publish g h
  | returnValue => exact returnWith g h
  | exitFunction => exact endFunction g h
  | listItem => exact absurd rfl hitem
  | checkOverload => exact absurd rfl hcheck
  | _ => exact absurd rfl haside

end Stored

end OnePass.Emission
