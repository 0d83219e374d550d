import OnePass.Proofs.Emission.Nesting

/-!
# Actions keep cells apart

Whatever an action finds, it takes cells that nobody has, binds them to names or keeps them
for functions and lists, and gives those of a retired function back only when nothing else
can name them. So cells have one owner behind every action.

* `Kept.ends_bindFresh`, `Kept.ends_bindGlobal`, `Kept.ends_storeItem`: names and lists.
* `Kept.ends_startFunction`, `Kept.ends_publish`, `Kept.ends_endFunction`: definitions.
* `Kept.ends_retireRivals`: the end of functions.
* `kept_perform`: **every action keeps it so** that cells have one owner.
-/

namespace OnePass.Emission

open Grammar (Action Layer)
open Names Target

variable {c : Config} {globals others : List Nat} {layers : List Layer} {g g' : Generator}
  {line row : Nat} {name : String}

/-- The row that a name is bound to a global one on, if that is done. -/
def Generator.boundRow? (g : Generator) (name : String) : Option Nat :=
  if g.currentScope = Scopes.outermost then none
  else ((g.symbols.latestIn Scopes.outermost name true).bind g.symbols.cell?).map fun _ =>
    (g.rowFor name Meaning.isVariable).1

namespace Kept

section Names

/-- **A name that has no cell in the current scope** gets one. -/
theorem ends_bindFresh (h : Kept c globals others layers g) (hu : 0 < c.unit)
    (hn : c.keywords.contains loopKeyword = true → name ≠ loopKeyword)
    (hnew : g.symbols.latestIn g.currentScope name true = none) :
    Ends (bindFresh name) g fun _ g' => Kept c globals others layers g' := by
  simp only [bindFresh, ends_bind, ends_modifyGet, ends_onMemory, ends_modify, ends_pure]
  intro cell m hm
  have h' := h.rowFor name Meaning.isVariable
  have hname := (SymbolTable.rowFor_spec g.symbols name .identifier Meaning.isVariable).1
  have hscope := SymbolTable.scope?_rowFor g.symbols name .identifier Meaning.isVariable
  have hcurrent := congrArg Scopes.current
    (SymbolTable.scopes_rowFor g.symbols name .identifier Meaning.isVariable)
  have hcell : (g.rowFor name Meaning.isVariable).2.symbols.cell?
      (g.rowFor name Meaning.isVariable).1 = none := SymbolTable.cell?_rowFor hnew
  refine ⟨(h'.owned.takeCell hu hm).bind ?_ (fun hk hc => ?_) (.inl hcell) fun hmem => ?_, ?_⟩
  · exact SymbolTable.function?_rowFor_isVariable g.symbols name .identifier
  · exact hn hk (Option.some.inj (hname.symm.trans hc))
  · obtain ⟨⟨a, ha⟩, -⟩ := h'.owned.globals _ hmem
    rw [hcell] at ha
    cases ha
  · exact h'.nesting.setMeaning h'.owned.orderly (hscope.trans (congrArg some hcurrent.symm)) _

theorem ends_readName (h : Kept c globals others layers g) (hu : 0 < c.unit)
    (hn : c.keywords.contains loopKeyword = true → name ≠ loopKeyword) :
    Ends (readName name) g fun _ g' => Kept c globals others layers g' := by
  simp only [readName, ends_bind, ends_get]
  split
  · exact ends_push.2 (aloof_kept.aside h rfl rfl rfl rfl rfl)
  · rename_i hnone
    refine ends_bind.2 ((h.ends_bindFresh hu hn ?_).mono fun cell g' h' => aloof_kept.push g' h')
    exact SymbolTable.latestIn_of_resolve h.owned.orderly.nested hnone

/-- A name that cannot be assigned to has no cell in the current scope. -/
theorem latestIn_of_ownCell? (ho : g.symbols.Orderly) (h : g.ownCell? name = none) :
    g.symbols.latestIn g.currentScope name true = none := by
  have hmem : g.currentScope ∈ g.symbols.scopes.sameBody g.currentScope := by
    have hlt : g.currentScope < g.symbols.scopes.all.size := ho.nested.current
    unfold Scopes.sameBody
    rw [Scopes.enclosing.eq_def, Array.getElem?_eq_getElem hlt]
    dsimp only
    rw [Scopes.throughLoops]
    split <;> exact List.mem_cons_self
  have hnone := List.findSome?_eq_none_iff.1 h _ hmem
  cases hl : g.symbols.latestIn g.currentScope name true with
  | none => rfl
  | some row =>
    have hsome := SymbolTable.cell?_isSome_of_latestIn hl
    rw [hl] at hnone
    change g.symbols.cell? row = none at hnone
    rw [hnone] at hsome
    cases hsome

theorem ends_assignTo (h : Kept c globals others layers g) (hu : 0 < c.unit)
    (hn : c.keywords.contains loopKeyword = true → name ≠ loopKeyword) :
    Ends (assignTo name) g fun _ g' => Kept c globals others layers g' := by
  simp only [assignTo, ends_bind, ends_get]
  split
  · exact ends_push.2 (aloof_kept.aside h rfl rfl rfl rfl rfl)
  · rename_i hnone
    refine ends_bind.2 ((h.ends_bindFresh hu hn ?_).mono fun cell g' h' => aloof_kept.push g' h')
    exact latestIn_of_ownCell? h.owned.orderly hnone

/-- **An item of a list** gets the next cell in line. -/
theorem ends_storeItem (h : Kept c globals others layers g) (hu : 0 < c.unit) :
    Ends (storeItem line) g fun _ g' => Kept c globals (g.memory.dataNext :: others) layers g' := by
  simp only [storeItem, ends_bind, ends_takeValue, ends_onMemory]
  intro cell m hm
  obtain ⟨st, voids, errors, hst⟩ := g.takeValue_frame line
  have h' : Kept c globals others layers (g.takeValue line).2 := by
    rw [hst]
    exact aloof_kept.aside h rfl rfl rfl rfl rfl
  have hcell : cell = g.memory.dataNext := by
    rw [hst] at hm
    rw [Memory.takeNextCell_eq] at hm
    split at hm
    · cases hm
    · cases hm
      rfl
  rw [← hcell]
  have hkept : Kept c globals (cell :: others) layers { (g.takeValue line).2 with memory := m } :=
    ⟨h'.owned.takeNextCell hu hm, h'.nesting⟩
  exact aloof_kept.emit _ hkept

/-- **A name is bound to a global one,** or that is reported to be missing. -/
theorem ends_bindGlobal (h : Kept c globals others layers g)
    (hs : Layer.steady layers = true) : Ends (bindGlobal name line) g fun _ g' =>
      Kept c ((g.boundRow? name).toList ++ globals) others layers g' := by
  simp only [bindGlobal, ends_bind, ends_get]
  unfold Generator.boundRow?
  split
  · exact (ends_pure _).2 h
  · rename_i houter
    cases hcell : (g.symbols.latestIn Scopes.outermost name true).bind g.symbols.cell? with
    | none => exact aloof_kept.report g h
    | some a =>
      simp only [ends_bind, ends_modifyGet, ends_modify]
      obtain ⟨k, hk, ha⟩ := Option.bind_eq_some_iff.1 hcell
      have h' := h.rowFor name Meaning.isVariable
      have hname := (SymbolTable.rowFor_spec g.symbols name .identifier Meaning.isVariable).1
      have hscope := SymbolTable.scope?_rowFor g.symbols name .identifier Meaning.isVariable
      have hscopes := SymbolTable.scopes_rowFor g.symbols name .identifier Meaning.isVariable
      have hfades : g.symbols.Fades (g.symbols.rowFor name .identifier Meaning.isVariable).2 :=
        SymbolTable.fades_rowFor h.owned.orderly h.owned.rooted
      have hkscope := hfades.scopes k _ (SymbolTable.scope?_of_latestIn hk)
      refine ⟨h'.owned.bindGlobal ⟨(hfades.cells k).trans ha, _, hkscope, ?_⟩ hkscope hscope houter
        ?_ (SymbolTable.function?_rowFor_isVariable g.symbols name .identifier), ?_⟩
      · exact h'.nesting.outermost_mem h'.owned.orderly h'.owned.rooted
      · exact (SymbolTable.name?_rowFor_of_some (SymbolTable.name?_of_latestIn hk)).trans hname.symm
      · have hset := h'.nesting.setMeaning h'.owned.orderly
          (hscope.trans (congrArg (fun t => some t.current) hscopes.symm)) (.variable (some a))
        exact hset.withGlobals hs

end Names

section Loops

/-- **The record of the loops** is found on the row of their keyword. -/
theorem ends_loopRecord (h : Kept c globals others layers g)
    (hk : c.keywords.contains loopKeyword = true) : Ends loopRecord g fun x g' =>
      Kept c globals others layers g' ∧ g'.symbols.name? x.1 = some loopKeyword ∧
        g'.symbols.function? x.1 = none := by
  simp only [loopRecord, ends_bind, ends_get]
  split
  · exact ends_defect
  · rename_i row hrow
    have hn := SymbolTable.name?_of_latestIn hrow
    have hf : ∀ m, g.symbols.meaning? row = some m → m.function? = none →
        g.symbols.function? row = none := fun m hm hnone => by
      rw [SymbolTable.function?, hm]
      exact hnone
    split
    · rename_i hm
      exact (ends_pure _).2 ⟨h, hn, hf _ hm rfl⟩
    · rename_i hm
      have hnone := hf _ hm rfl
      simp only [ends_bind, ends_modify, ends_pure]
      refine ⟨h.setLoops hk hn hnone .empty, SymbolTable.name?_setMeaning.trans hn, ?_⟩
      exact (SymbolTable.function?_setMeaning hnone rfl).trans hnone
    · exact ends_defect

theorem ends_startLoop (h : Kept c globals others layers g) (hs : Layer.steady layers = true)
    (hk : c.keywords.contains loopKeyword = true) :
    Ends startLoop g fun _ g' => Kept c globals others (.loop :: layers) g' := by
  simp only [startLoop, ends_bind, ends_get, ends_modify]
  refine (h.ends_loopRecord hk).mono ?_
  rintro ⟨row, record⟩ g' ⟨h', hn, hf⟩
  exact (h'.setLoops hk hn hf _).enterLoop hs

theorem ends_endLoop (h : Kept c globals others (.loop :: layers) g)
    (hk : c.keywords.contains loopKeyword = true) :
    Ends endLoop g fun _ g' => Kept c globals others layers g' := by
  rw [endLoop, ends_bind]
  refine (aloof_kept.heldSlot g h).mono fun slot g₁ h₁ => ?_
  rw [ends_bind]
  refine (aloof_kept.pop g₁ h₁).mono fun condition g₂ h₂ => ?_
  rw [ends_bind]
  refine (h₂.ends_loopRecord hk).mono ?_
  rintro ⟨row, record⟩ g₃ ⟨h₃, hn, hf⟩
  dsimp only
  split
  · simp only [ends_bind, ends_modify]
    refine (aloof_kept.settleLoop _ (h₃.setLoops hk hn hf _)).mono fun _ g₄ h₄ => ?_
    exact h₄.leaveLoop
  · exact ends_modify.2 h₃.leaveLoop

/-- A jump out of a loop waits in the record. There are loops only where their keyword is
reserved. -/
theorem ends_leaveLoop (h : Kept c globals others layers g) {outside : SemanticFault}
    {add : LoopRecord → Nat → LoopRecord}
    (hk : g.symbols.scopes.isLoop g.currentScope = true →
      c.keywords.contains loopKeyword = true) :
    Ends (Emission.leaveLoop line outside add) g fun _ g' => Kept c globals others layers g' := by
  simp only [Emission.leaveLoop, ends_bind, ends_get]
  split
  · rename_i hloop
    rw [ends_bind]
    refine (aloof_kept.reserve g h).mono fun slot g₁ h₁ => ?_
    rw [ends_bind]
    refine (h₁.ends_loopRecord (hk hloop)).mono ?_
    rintro ⟨row, record⟩ g₂ ⟨h₂, hn, hf⟩
    exact ends_modify.2 (h₂.setLoops (hk hloop) hn hf _)
  · exact aloof_kept.report g h

end Loops

section Functions

/-- **The parameters of a definition are read** in a scope of its own, with two cells in hand. -/
theorem enterBody {result returnCell start : Nat} {d : Definition}
    (h : Kept c globals (returnCell :: result :: others) layers g)
    (hs : Layer.steady layers = true) (hd : d.header = some (.fresh result returnCell start))
    (hscope : g.symbols.scope? d.row = some g.currentScope) (hl : g.symbols.Lives d.row)
    (hc : g.symbols.cell? d.row = none) :
    Kept c globals others (.header :: layers)
      { g.enterScope (.body d.row) with definitions := d :: g.definitions } := by
  have ho := h.owned.orderly
  have hfades : g.symbols.Fades (g.symbols.enterScope (.body d.row)) := by
    refine SymbolTable.fades_enterScope ho h.owned.rooted ?_
    rintro _ ⟨⟩
    exact ⟨g.currentScope, hscope, ho.nested.current⟩
  have howned : Owned c globals (returnCell :: result :: others) (g.enterScope (.body d.row)) :=
    h.owned.fades hfades h.owned.memory rfl rfl fun row f hr => ⟨f, hr, rfl, rfl⟩
  refine ⟨howned.openHeader hd, ?_⟩
  have hheader : d.header.isSome := by rw [hd]; rfl
  refine .header hs hheader (Scopes.at_enter _ _ _) hscope hl hc (fun row hrow => ?_) ?_
  · -- the rows of global names are older than the scope
    obtain ⟨-, ⟨s, hrow, -⟩, -⟩ := h.owned.globals row hrow
    exact ⟨s, hrow, Nat.ne_of_lt (ho.placed row s hrow)⟩
  · exact h.nesting.mono hfades.places hfades.scopes (fun _ _ => rfl) fun _ _ hl => hl

/-- **A definition begins** with a cell for its result and one for the slot to return to. -/
theorem ends_startFunction (h : Kept c globals others layers g) (hu : 0 < c.unit)
    (hs : Layer.steady layers = true) (hname : Unmarked name) :
    Ends (startFunction name) g fun _ g' => Kept c globals others (.header :: layers) g' := by
  rw [startFunction, ends_bind]
  refine (aloof_kept.reserve g h).mono fun aroundSlot g₁ h₁ => ?_
  simp only [ends_bind, ends_onMemory, ends_modifyGet, ends_get, ends_modify]
  intro result m₁ htake₁ returnCell m₂ htake₂
  have h₂ : Kept c globals (returnCell :: result :: others) layers { g₁ with memory := m₂ } :=
    ⟨(h₁.owned.takeCell hu htake₁).takeCell hu htake₂, h₁.nesting⟩
  have hrow := SymbolTable.rowFor_spec g₁.symbols name .identifier (· = .unused)
  obtain ⟨m, hm, hunused⟩ := SymbolTable.meaning?_rowFor g₁.symbols name .identifier (· = .unused)
  have hscope := SymbolTable.scope?_rowFor g₁.symbols name .identifier (· = .unused)
  have hcurrent := congrArg Scopes.current
    (SymbolTable.scopes_rowFor g₁.symbols name .identifier (· = .unused))
  obtain rfl : m = .unused := by simpa using hunused
  have h₃ := h₂.rowFor name (· = .unused)
  refine h₃.enterBody (d := ⟨_, _, aroundSlot, some (.fresh result returnCell _), 0, false⟩) hs rfl
    ?_ ⟨name, hrow.1, hname⟩ ?_
  · exact hscope.trans (congrArg some hcurrent.symm)
  · exact congrArg (·.bind Meaning.cell?) hm

/-- **A parameter gets a cell,** which is its function's. -/
theorem ends_addParameter (h : Kept c globals others (.header :: layers) g) (hu : 0 < c.unit)
    (hn : c.keywords.contains loopKeyword = true → name ≠ loopKeyword) :
    Ends (addParameter name) g fun _ g' => Kept c globals others (.header :: layers) g' := by
  simp only [addParameter, bindFresh, ends_bind, ends_modifyGet, ends_onMemory, ends_modify,
    ends_pure]
  intro cell m hm
  have h' := h.rowFor name Meaning.isVariable
  have hname := (SymbolTable.rowFor_spec g.symbols name .identifier Meaning.isVariable).1
  have hscope := SymbolTable.scope?_rowFor g.symbols name .identifier Meaning.isVariable
  have hcurrent := congrArg Scopes.current
    (SymbolTable.scopes_rowFor g.symbols name .identifier Meaning.isVariable)
  have hrow := hscope.trans (congrArg some hcurrent.symm)
  obtain ⟨d, rest, info, outer, hdefs, hsteady, hheader, hat, hs, hl, hc, hg, hrest⟩ :=
    h'.nesting.of_header
  refine ⟨(h'.owned.takeCell hu hm).addParameter (d := d) hdefs hheader ?_ (fun hk hc => ?_) hrow
    hat.region? fun hmem => ?_, ?_⟩
  · exact SymbolTable.function?_rowFor_isVariable g.symbols name .identifier
  · exact hn hk (Option.some.inj (hname.symm.trans hc))
  · obtain ⟨s, hs, hne⟩ := hg _ hmem
    exact hne (Option.some.inj (hs.symm.trans hrow))
  · have hset := h'.nesting.setMeaning h'.owned.orderly hrow (.variable (some cell))
    rw [hdefs] at hset
    have hmap := hset.mapDefinition (f := fun d =>
      { d with header := d.header.map fun info => { info with params := info.params ++ [cell] } })
      (fun _ => rfl) fun d => by rw [Option.isSome_map]
    unfold Generator.mapDefinition
    dsimp only [Generator.setMeaning]
    rw [hdefs]
    exact hmap

/-- **A function moves from its header to its row** with its cells. -/
theorem toRow {d : Definition} {rest : List Definition} {info info' : FunctionInfo}
    (h : Kept c globals others (.header :: layers) g) (hdefs : g.definitions = d :: rest)
    (hheader : d.header = some info) (hcells : info'.cells = info.cells)
    (hparams : info'.params = info.params) :
    Kept c globals others (.body :: layers)
      { g with
        symbols := g.symbols.setMeaning d.row (.function info')
        definitions := { d with header := none } :: rest } := by
  obtain ⟨d', rest', _, outer, hdefs', hsteady, -, hat, hs, hl, hc, -, hrest⟩ :=
    h.nesting.of_header
  obtain ⟨rfl, rfl⟩ := List.cons.inj (hdefs.symm.trans hdefs')
  have hfades : g.symbols.Fades (g.symbols.setMeaning d.row (.function info')) :=
    SymbolTable.fades_setMeaning h.owned.orderly h.owned.rooted hc rfl
  have hlives : ∀ {i}, (g.symbols.setMeaning d.row (.function info')).Lives i ↔
      g.symbols.Lives i := fun {i} => by
    rw [SymbolTable.Lives, SymbolTable.name?_setMeaning, SymbolTable.Lives]
  refine ⟨h.owned.fades hfades h.owned.memory rfl rfl ?_, ?_⟩
  · rintro i f (⟨hf, hi⟩ | ⟨d', hd', rfl, hf⟩)
    · change (g.symbols.setMeaning d.row (.function info')).function? i = some f at hf
      rw [SymbolTable.function?, SymbolTable.meaning?_setMeaning] at hf
      split at hf
      · rename_i hrow
        subst hrow
        obtain ⟨m, hm, hf⟩ := Option.bind_eq_some_iff.1 hf
        obtain ⟨_, -, rfl⟩ := Option.map_eq_some_iff.1 hm
        obtain rfl := Option.some.inj hf
        exact ⟨info, .inr ⟨d, hdefs ▸ List.mem_cons_self, rfl, hheader⟩, hcells, hparams⟩
      · exact ⟨f, .inl ⟨hf, hlives.1 hi⟩, rfl, rfl⟩
    · rcases List.mem_cons.1 hd' with rfl | hd'
      · cases hf
      · exact ⟨f, .inr ⟨d', hdefs ▸ List.mem_cons_of_mem _ hd', rfl, hf⟩, rfl, rfl⟩
  · refine .body hsteady rfl (hfades.places _ _ _ hat) (hfades.scopes _ _ hs) (hlives.2 hl) ?_
    exact hrest.mono hfades.places hfades.scopes (fun d _ => hfades.cells d.row)
      fun _ _ => hlives.2

/-- **The function is put on its row,** where calls find it. -/
theorem ends_publish (h : Kept c globals others (.header :: layers) g) :
    Ends publish g fun _ g' => Kept c globals others (.body :: layers) g' := by
  obtain ⟨d, rest, info, outer, hdefs, -, hheader, -, hs, -⟩ := h.nesting.of_header
  obtain ⟨r, hr, -⟩ := Option.map_eq_some_iff.1 hs
  have hm : g.symbols.meaning? d.row = some r.meaning := by rw [SymbolTable.meaning?, hr]; rfl
  have hmap : g.mapDefinition (fun d => { d with header := none }) =
      { g with definitions := { d with header := none } :: rest } := by
    rw [Generator.mapDefinition, hdefs]
  simp only [publish, ends_bind, ends_get, hdefs, hheader, ends_modify, giveMeaning, hmap, hm]
  split
  · rename_i m' hchange
    unfold Meaning.becomeFunction at hchange
    split at hchange
    · cases hchange
      exact ends_modify.2 (h.toRow hdefs hheader rfl rfl)
    · cases hchange
  · exact ends_defect

/-- **A return** says of the function only that it gives a value. -/
theorem ends_returnWith (h : Kept c globals others layers g) :
    Ends (returnWith line) g fun _ g' => Kept c globals others layers g' := by
  rw [returnWith, ends_bind]
  refine (aloof_kept.takeValue g h).mono fun value g₁ h₁ => ?_
  rw [ends_bind]
  refine (aloof_kept.returningFrom g₁ h₁).mono fun row? g₂ h₂ => ?_
  split
  · exact (ends_pure ()).2 h₂
  · rename_i row
    simp only [ends_bind]
    refine ends_functionOn.mono ?_
    rintro info _ ⟨rfl, hf⟩
    have haloof : Aloof fun g => Kept c globals others layers g ∧
        g.symbols.function? row = some info :=
      aloof_kept.and (.of_symbols (P := fun t => t.function? row = some info))
    refine (haloof.emitReturn _ ⟨h₂, hf⟩).mono fun _ g₃ h₃ => ?_
    exact ends_modify.2 (h₃.1.setFunction h₃.2 rfl rfl)

/-- **A definition ends** in the scope of its row, with its function there. -/
theorem ends_endFunction (h : Kept c globals others (.body :: layers) g) :
    Ends endFunction g fun _ g' => Kept c globals others layers g' ∧ ∃ row,
      g'.lastDefined = some row ∧ g'.symbols.scope? row = some g'.currentScope ∧
        g'.symbols.Lives row := by
  obtain ⟨d, rest, outer, hdefs, hsteady, hheader, hat, hs, hl, hrest⟩ := h.nesting.of_body
  simp only [endFunction, publish, ends_bind, ends_get, hdefs, hheader, ends_pure, ends_modify]
  -- its code is still to be completed in the scope of the body, which is no longer a layer
  have haloof : Aloof fun g' => Owned c globals others g' ∧
      Nesting g'.symbols globals layers g'.definitions outer ∧ g'.symbols = g.symbols :=
    aloof_owned.and ((aloof_nesting fun _ => outer).and
      (.of_symbols (P := fun t => t = g.symbols)))
  have hdefined : Owned c globals others { g with definitions := rest } := by
    refine h.owned.of_eq rfl h.owned.memory rfl rfl fun d' hd' f hf => ⟨d', ?_, rfl, hf⟩
    rw [hdefs]
    exact List.mem_cons_of_mem _ hd'
  have hclose : ∀ g₁, Owned c globals others g₁ ∧
      Nesting g₁.symbols globals layers g₁.definitions outer ∧ g₁.symbols = g.symbols →
        Ends (settle (some d.aroundSlot) (.jump g₁.programNext)) g₁ fun _ g₂ =>
          Kept c globals others layers { g₂.leaveScope with lastDefined := some d.row } ∧
            ∃ row, some d.row = some row ∧ g₂.leaveScope.symbols.scope? row =
              some g₂.leaveScope.currentScope ∧ g₂.leaveScope.symbols.Lives row := by
    intro g₁ h₁
    refine (haloof.settle g₁ h₁).mono fun _ g₂ hsettled => ?_
    obtain ⟨howned, hnesting, hsame⟩ := hsettled
    have hat₂ : g₂.symbols.scopes.At g₂.currentScope (.body d.row) (some outer) := by
      rw [Generator.currentScope, hsame]
      exact hat
    have h₂ := leaveScope howned hat₂ hnesting
    have hcurrent : g₂.leaveScope.currentScope = outer := Scopes.current_leave hat₂ _
    refine ⟨⟨h₂.owned.of_eq rfl h₂.owned.memory rfl rfl fun d' hd' f hf => ⟨d', hd', rfl, hf⟩,
      h₂.nesting⟩, d.row, rfl, ?_, ?_⟩
    · rw [hcurrent]
      change g₂.symbols.scope? d.row = some outer
      rw [hsame]
      exact hs
    · change g₂.symbols.Lives d.row
      rw [hsame]
      exact hl
  split
  · simp only [ends_bind, ends_get, ends_modify]
    refine ends_functionOn.mono ?_
    rintro info _ ⟨rfl, -⟩
    exact (haloof.emitReturn _ ⟨hdefined, hrest, rfl⟩).mono fun _ g₁ h₁ => hclose g₁ h₁
  · simp only [ends_bind, ends_get, ends_modify]
    exact hclose _ ⟨hdefined, hrest, rfl⟩

/-- A function of the current scope that can be retired: its body is out of sight. -/
def Retirable (g : Generator) (row : Nat) : Prop :=
  g.symbols.scope? row = some g.currentScope ∧ (g.symbols.function? row).isSome ∧
    g.symbols.Lives row

/-- The rivals of a function of the current scope are different rows that can be retired. -/
theorem retirable_of_mem_rivals (hs : g.symbols.scope? row = some g.currentScope)
    (hl : g.symbols.Lives row) :
    (g.rivals row).Nodup ∧ ∀ other ∈ g.rivals row, Retirable g other := by
  unfold Generator.rivals
  split
  · rename_i r info hr hf
    obtain ⟨name, hname, hu⟩ := hl
    rw [SymbolTable.scope?, hr] at hs
    rw [SymbolTable.name?, hr] at hname
    have hscope : r.scope = g.currentScope := Option.some.inj hs
    obtain rfl : r.name = name := Option.some.inj hname
    refine ⟨?_, fun other hother => ?_⟩
    · exact ((SymbolTable.nodup_ownRows g.symbols r.scope).filter _).filter _
    · have hmem := List.mem_of_mem_filter hother
      have hown : other ∈ g.symbols.ownRows r.scope := List.mem_of_mem_filter hmem
      have hcarries := List.of_mem_filter hmem
      simp only [SymbolTable.carries, Bool.and_eq_true, beq_iff_eq] at hcarries
      refine ⟨?_, hcarries.2, r.name, hcarries.1.1, hu⟩
      rw [← hscope]
      exact SymbolTable.scope?_of_mem_ownRows hown
  · exact ⟨List.nodup_nil, List.forall_mem_nil _⟩

/-- **A rival is retired,** and its cells are free again. -/
theorem retireFunction (h : Kept c globals others layers g) (hs : Layer.steady layers = true)
    (hr : Retirable g row) : Kept c globals others layers (g.retireFunction row) := by
  obtain ⟨hscope, hf, hl⟩ := hr
  obtain ⟨f, hf⟩ := Option.isSome_iff_exists.1 hf
  have hretire := h.owned.retire hf hl (h.nesting.headers hs) fun s hregion hmem => by
    -- the body lies within the scope that is current
    obtain ⟨s', hs', hlt⟩ := h.owned.bodies s row hregion
    obtain rfl := Option.some.inj (hs'.symm.trans hscope)
    exact absurd (Scopes.le_of_mem_enclosing hmem) (Nat.not_le.2 hlt)
  have hnesting : Nesting (g.symbols.retire row) globals layers g.definitions g.currentScope := by
    refine h.nesting.mono (fun _ _ _ h => h) (fun _ _ hs => SymbolTable.scope?_retire.trans hs)
      (fun _ _ => SymbolTable.cell?_retire) fun d hd hlives => ?_
    obtain ⟨s, hs, hlt⟩ := h.nesting.lt_current h.owned.orderly d hd
    refine (SymbolTable.lives_retire_ne ?_).2 hlives
    rintro rfl
    exact absurd (Option.some.inj (hs.symm.trans hscope)) (Nat.ne_of_lt hlt)
  unfold Generator.retireFunction
  rw [hf]
  exact ⟨hretire.freeCells, hnesting⟩

theorem ends_retireAll (hs : Layer.steady layers = true) {fault : SemanticFault} {rivals : List Nat}
    (hnodup : rivals.Nodup) (h : Kept c globals others layers g)
    (hrivals : ∀ other ∈ rivals, Retirable g other) :
    Ends (rivals.forM fun other => do report line fault; modify (·.retireFunction other)) g
      fun _ g' => Kept c globals others layers g' := by
  induction rivals generalizing g with
  | nil => exact (ends_pure ()).2 h
  | cons other rivals ih =>
    obtain ⟨hnew, hnodup⟩ := List.nodup_cons.1 hnodup
    obtain ⟨hother, hrivals⟩ := List.forall_mem_cons.1 hrivals
    rw [List.forM_eq_forM, List.forM_cons]
    simp only [ends_bind, ends_report, ends_modify]
    have hreported : Kept c globals others layers (g.report line fault) :=
      aloof_kept.aside h rfl rfl rfl rfl rfl
    refine ih hnodup (hreported.retireFunction hs hother) fun row hrow => ?_
    -- the row that has been retired is none of the rivals that are left
    obtain ⟨hscope, hf, hl⟩ := hrivals row hrow
    have hne : other ≠ row := fun heq => hnew (heq ▸ hrow)
    refine ⟨SymbolTable.scope?_retire.trans hscope, ?_, (SymbolTable.lives_retire_ne hne).2 hl⟩
    change ((g.symbols.retire other).function? row).isSome
    rw [SymbolTable.function?_retire]
    exact hf

/-- **The rivals of the function that has just ended are retired.** -/
theorem ends_retireRivals (h : Kept c globals others layers g) (hs : Layer.steady layers = true)
    (hl : g.lastDefined = some row) (hrow : g.symbols.scope? row = some g.currentScope)
    (hlives : g.symbols.Lives row) :
    Ends (retireRivals line) g fun _ g' => Kept c globals others layers g' := by
  simp only [retireRivals, ends_bind, ends_get, hl, ends_modify]
  obtain ⟨hnodup, hrivals⟩ := retirable_of_mem_rivals hrow hlives
  refine ends_retireAll hs hnodup ?_ hrivals
  exact ⟨h.owned.of_eq rfl h.owned.memory rfl rfl fun d hd f hf => ⟨d, hd, rfl, hf⟩, h.nesting⟩

end Functions

end Kept

/-- **Cells have one owner behind an action:** also where a definition has just ended, with its
function on a row of the current scope. -/
def Nests (c : Config) (globals others : List Nat) (layers : List Layer) (g : Generator) : Prop :=
  match layers with
  | .ended :: layers => Kept c globals others layers g ∧ Layer.steady layers = true ∧ ∃ row,
      g.lastDefined = some row ∧ g.symbols.scope? row = some g.currentScope ∧ g.symbols.Lives row
  | layers => Kept c globals others layers g

theorem nests_of_steady (hs : Layer.steady layers = true) :
    Nests c globals others layers g ↔ Kept c globals others layers g := by
  unfold Nests
  split
  · cases hs
  · rfl

theorem Nests.kept (h : Nests c globals others layers g) :
    ∃ layers, Kept c globals others layers g := by
  rcases layers with _ | ⟨l, layers⟩
  · exact ⟨_, h⟩
  · cases l with
    | loop | header | body => exact ⟨_, h⟩
    | ended => exact ⟨_, h.1⟩

/-- **A token is recorded** wherever the machine is. -/
theorem Nests.record (h : Nests c globals others layers g) (token : Lexical.Token) :
    Nests c globals others layers { g with symbols := g.symbols.record token } := by
  have hkept : ∀ layers, Kept c globals others layers g →
      Kept c globals others layers { g with symbols := g.symbols.record token } := fun _ h =>
    h.record token
  rcases layers with _ | ⟨l, layers⟩
  · exact hkept _ h
  · cases l with
    | loop | header | body => exact hkept _ h
    | ended =>
      obtain ⟨h, hsteady, row, hlast, hscope, name, hname, hu⟩ := h
      have hfades := SymbolTable.fades_record h.owned.orderly h.owned.rooted token
      have hcurrent : (g.symbols.record token).currentScope = g.currentScope :=
        congrArg Scopes.current (SymbolTable.scopes_record _ _)
      refine ⟨hkept _ h, hsteady, row, hlast, ?_, name,
        SymbolTable.name?_record_of_some hname token, hu⟩
      exact (hfades.scopes row _ hscope).trans (congrArg some hcurrent.symm)

/-- The rows that an action binds to global names. -/
def Generator.newGlobals (g : Generator) (a : Action) (lexeme : String) : List Nat :=
  if a = .global then (g.boundRow? lexeme).toList else []

/-- The cells that an action gives to items of lists. -/
def Generator.newItems (g : Generator) (a : Action) : List Nat :=
  if a = .listItem then [g.memory.dataNext] else []

theorem layerStep_of_isAside {a : Action} (ha : isAside a = true) : a.layerStep = .stays := by
  cases a <;> first | rfl | cases ha

/-- **Every action keeps cells with one owner,** whatever it finds. What uses a name is not called
like the loop keyword where that is reserved, and no name is that of a retired function. -/
theorem nests_perform {layers' : List Layer} {a : Action} {lexeme : String}
    (h : Nests c globals others layers g) (hu : 0 < c.unit) (hturn : a.turn layers = some layers')
    (hn : a.behind? = some .identifier → c.keywords.contains loopKeyword = true →
      lexeme ≠ loopKeyword)
    (hmark : Unmarked lexeme)
    (hloop : a = .loopBegin ∨ a = .loopEnd → c.keywords.contains loopKeyword = true)
    (hinside : g.symbols.scopes.isLoop g.currentScope = true →
      c.keywords.contains loopKeyword = true) :
    Ends (perform a lexeme line) g fun _ g' =>
      Nests c (g.newGlobals a lexeme ++ globals) (g.newItems a ++ others) layers' g' := by
  have hstays : a.layerStep = .stays → Layer.steady layers = true ∧ layers' = layers := by
    intro ha
    rw [Action.turn, ha] at hturn
    obtain ⟨hs, heq⟩ := Option.ite_none_right_eq_some.1 hturn
    exact ⟨hs, (Option.some.inj heq).symm⟩
  by_cases haside : isAside a = true
  · obtain ⟨hs, rfl⟩ := hstays (layerStep_of_isAside haside)
    rw [nests_of_steady hs] at h
    have hg : g.newGlobals a lexeme = [] := if_neg (by rintro rfl; cases haside)
    have hi : g.newItems a = [] := if_neg (by rintro rfl; cases haside)
    rw [hg, hi]
    exact (aloof_kept.perform haside g h).mono fun _ _ h' => (nests_of_steady hs).2 h'
  cases a with
  | pushId =>
    obtain ⟨hs, rfl⟩ := hstays rfl
    exact (((nests_of_steady hs).1 h).ends_readName hu (hn rfl)).mono fun _ _ =>
      (nests_of_steady hs).2
  | pushTarget =>
    obtain ⟨hs, rfl⟩ := hstays rfl
    exact (((nests_of_steady hs).1 h).ends_assignTo hu (hn rfl)).mono fun _ _ =>
      (nests_of_steady hs).2
  | listItem =>
    obtain ⟨hs, rfl⟩ := hstays rfl
    exact (((nests_of_steady hs).1 h).ends_storeItem hu).mono fun _ _ => (nests_of_steady hs).2
  | global =>
    obtain ⟨hs, rfl⟩ := hstays rfl
    exact (((nests_of_steady hs).1 h).ends_bindGlobal hs).mono fun _ _ => (nests_of_steady hs).2
  | breakLoop | continueLoop =>
    obtain ⟨hs, rfl⟩ := hstays rfl
    exact (((nests_of_steady hs).1 h).ends_leaveLoop hinside).mono fun _ _ =>
      (nests_of_steady hs).2
  | returnValue =>
    obtain ⟨hs, rfl⟩ := hstays rfl
    exact ((nests_of_steady hs).1 h).ends_returnWith.mono fun _ _ => (nests_of_steady hs).2
  | loopBegin =>
    obtain ⟨hs, heq⟩ := Option.ite_none_right_eq_some.1 hturn
    cases heq
    exact ((nests_of_steady hs).1 h).ends_startLoop hs (hloop (.inl rfl))
  | loopEnd =>
    obtain ⟨hhead, heq⟩ := Option.ite_none_right_eq_some.1 hturn
    cases heq
    rw [Layer.eq_cons_of_head? hhead] at h
    exact (Kept.ends_endLoop h (hloop (.inr rfl))).mono fun _ _ =>
      (nests_of_steady (Kept.nesting h).steady_tail).2
  | enterFunction =>
    obtain ⟨hs, heq⟩ := Option.ite_none_right_eq_some.1 hturn
    cases heq
    exact ((nests_of_steady hs).1 h).ends_startFunction hu hs hmark
  | param =>
    obtain ⟨hhead, heq⟩ := Option.ite_none_right_eq_some.1 hturn
    cases heq
    rw [Layer.eq_cons_of_head? hhead] at h
    exact Kept.ends_addParameter h hu (hn rfl)
  | paramsDone =>
    obtain ⟨hhead, heq⟩ := Option.ite_none_right_eq_some.1 hturn
    cases heq
    rw [Layer.eq_cons_of_head? hhead] at h
    exact Kept.ends_publish h
  | exitFunction =>
    obtain ⟨hhead, heq⟩ := Option.ite_none_right_eq_some.1 hturn
    cases heq
    rw [Layer.eq_cons_of_head? hhead] at h
    exact (Kept.ends_endFunction h).mono fun _ _ h' =>
      ⟨h'.1, (Kept.nesting h).steady_tail, h'.2⟩
  | checkOverload =>
    obtain ⟨hhead, heq⟩ := Option.ite_none_right_eq_some.1 hturn
    cases heq
    rw [Layer.eq_cons_of_head? hhead] at h
    obtain ⟨h, hs, row, hlast, hscope, hlives⟩ := h
    exact (h.ends_retireRivals hs hlast hscope hlives).mono fun _ _ => (nests_of_steady hs).2
  | _ => exact absurd rfl haside

end OnePass.Emission
