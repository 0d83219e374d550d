import OnePass.Proofs.Emission.Cells
import OnePass.Proofs.Emission.Frames

/-!
# Actions leave frames in step

Four actions begin and end functions and loops, and with them their scopes, definitions and
places in the record of the loops. Jumps out of loops are added to the record of an open
loop. All other actions leave the frames alone, whatever they find on the stack.

* `Rests`: a state with the frames of another. `rests_bindFresh`, `rests_retireRivals`, …
* `rests_perform`: all other actions.
* `Generator.Framed.ends_startLoop`, `Generator.Framed.ends_endFunction`, …: the four, and jumps.
* `framed_perform`: **every action leaves frames in step,** and calls with their names.
-/

namespace OnePass.Emission

open Grammar (Action)
open Names Target

section Rests

/-- **A state with the frames of another,** and with these calls that wait. -/
structure Rests (keywords : List String) (g : Generator) (calls : List String) (g' : Generator) :
    Prop where
  rooted : g'.symbols.scopes.Rooted
  scopes : g'.symbols.scopes = g.symbols.scopes
  places : g'.definitions.map Definition.place = g.definitions.map Definition.place
  calls : g'.pendingCalls = calls
  loops : ∀ record, keywords.contains loopKeyword = true → g.symbols.loops? = some record →
    g'.symbols.loops? = some record

variable {keywords calls : List String} {g g' g'' : Generator} {name : String} {row line : Nat}

theorem Rests.refl (h : g.symbols.scopes.Rooted) : Rests keywords g g.pendingCalls g :=
  ⟨h, rfl, rfl, rfl, fun _ _ h => h⟩

/-- Only the table, the definitions and the calls matter. -/
theorem Rests.of_eq (h : Rests keywords g calls g') (hs : g''.symbols = g'.symbols)
    (hd : g''.definitions.map Definition.place = g'.definitions.map Definition.place)
    (hc : g''.pendingCalls = g'.pendingCalls) : Rests keywords g calls g'' where
  rooted := hs ▸ h.rooted
  scopes := hs ▸ h.scopes
  places := hd.trans h.places
  calls := hc.trans h.calls
  loops := hs ▸ h.loops

theorem places_mapDefinition {f : Definition → Definition} (hf : ∀ d, (f d).place = d.place) :
    (g.mapDefinition f).definitions.map Definition.place =
      g.definitions.map Definition.place := by
  rw [Generator.mapDefinition]
  cases g.definitions with
  | nil => rfl
  | cons d rest => exact congrArg (· :: rest.map Definition.place) (hf d)

theorem Rests.mapDefinition (h : Rests keywords g calls g') {f : Definition → Definition}
    (hf : ∀ d, (f d).place = d.place) : Rests keywords g calls (g'.mapDefinition f) :=
  h.of_eq rfl (places_mapDefinition hf) rfl

/-- A step on the table that keeps the scopes and the loops. -/
theorem Rests.table (h : Rests keywords g calls g') {t : SymbolTable}
    (hs : t.scopes = g'.symbols.scopes)
    (hl : keywords.contains loopKeyword = true → t.loops? = g'.symbols.loops?) :
    Rests keywords g calls { g' with symbols := t } where
  rooted := hs ▸ h.rooted
  scopes := hs.trans h.scopes
  places := h.places
  calls := h.calls
  loops record hk hr := (hl hk).trans (h.loops record hk hr)

theorem Rests.rowFor (h : Rests keywords g calls g')
    (hn : keywords.contains loopKeyword = true → name ≠ loopKeyword) (reuse : Meaning → Bool) :
    Rests keywords g calls (g'.rowFor name reuse).2 :=
  h.table (t := (g'.symbols.rowFor name .identifier reuse).2) (SymbolTable.scopes_rowFor _ _ _ _)
    fun hk => SymbolTable.loops?_rowFor h.rooted (hn hk) reuse

/-- A row that is not the one of the loops may mean anything. -/
theorem Rests.setMeaning (h : Rests keywords g calls g')
    (hn : keywords.contains loopKeyword = true → g'.symbols.name? row ≠ some loopKeyword)
    (m : Meaning) : Rests keywords g calls (g'.setMeaning row m) :=
  h.table (t := g'.symbols.setMeaning row m) rfl fun hk =>
    SymbolTable.loops?_setMeaning h.rooted (hn hk)

/-- Operands and code have nothing to do with frames. -/
theorem remote_rests : Remote (Rests keywords g calls) where
  aside h hs _ hd _ hc := h.of_eq hs (congrArg _ hd) hc
  append _ h _ := h.of_eq rfl rfl rfl
  filled _ _ h := h.of_eq rfl rfl rfl
  withTemp h _ := h.of_eq rfl rfl rfl
  dropTemp _ h := h.of_eq rfl rfl rfl
  mapDefinition h hr hs _ := h.mapDefinition fun d => by rw [Definition.place, hr, hs]; rfl

section Names

variable (hn : keywords.contains loopKeyword = true → name ≠ loopKeyword)
include hn

theorem rests_bindFresh : Upholds (Rests keywords g calls) (bindFresh name) := by
  intro g' h
  simp only [bindFresh, ends_bind, ends_modifyGet, ends_onMemory, ends_modify, ends_pure]
  intro cell m _
  have hname := (SymbolTable.rowFor_spec g'.symbols name .identifier Meaning.isVariable).1
  have hrow : Rests keywords g calls { (g'.rowFor name Meaning.isVariable).2 with memory := m } :=
    (h.rowFor hn Meaning.isVariable).of_eq rfl rfl rfl
  exact hrow.setMeaning (fun hk hc => hn hk (Option.some.inj (hname.symm.trans hc))) _

theorem rests_readName : Upholds (Rests keywords g calls) (readName name) := by
  refine upholds_bind upholds_get fun g₁ => ?_
  split
  · exact upholds_bind (upholds_pure _) fun _ => remote_rests.push
  · exact upholds_bind (rests_bindFresh hn) fun _ => remote_rests.push

theorem rests_assignTo : Upholds (Rests keywords g calls) (assignTo name) := by
  refine upholds_bind upholds_get fun g₁ => ?_
  split
  · exact upholds_bind (upholds_pure _) fun _ => remote_rests.push
  · exact upholds_bind (rests_bindFresh hn) fun _ => remote_rests.push

theorem rests_bindGlobal : Upholds (Rests keywords g calls) (bindGlobal name line) := by
  refine upholds_bind upholds_get fun g₁ => ?_
  split
  · exact upholds_pure _
  · split
    · exact remote_rests.report
    · intro g' h
      simp only [ends_bind, ends_modifyGet, ends_modify]
      have hname := (SymbolTable.rowFor_spec g'.symbols name .identifier Meaning.isVariable).1
      exact (h.rowFor hn Meaning.isVariable).setMeaning
        (fun hk hc => hn hk (Option.some.inj (hname.symm.trans hc))) _

theorem rests_addParameter : Upholds (Rests keywords g calls) (addParameter name) :=
  upholds_bind (rests_bindFresh hn) fun _ => upholds_modify fun _ h => h.mapDefinition fun _ => rfl

end Names

theorem rests_storeItem : Upholds (Rests keywords g calls) (storeItem line) :=
  upholds_bind remote_rests.takeValue fun _ => upholds_bind
    (fun _ h => ends_onMemory.2 fun _ _ _ => h.of_eq rfl rfl rfl) fun _ => remote_rests.emit

/-- **A function is put on its row,** which is not the one of the loops. -/
theorem rests_publish {header : Bool} (h : Calm keywords header g) :
    Ends publish g fun _ g' => Rests keywords g g.pendingCalls g' := by
  have hrefl : Rests keywords g g.pendingCalls g := .refl h.table.rooted
  cases header with
  | false =>
    refine (secure_publish_published (P := fun _ => True) h).ends.mono ?_
    rintro _ _ rfl
    exact hrefl
  | true =>
    have hstanding := h.standing
    simp only [publish, ends_bind, ends_get]
    cases hdefs : g.definitions with
    | nil =>
      rw [hdefs] at hstanding
      exact hstanding.elim
    | cons d rest =>
      rw [hdefs] at hstanding
      obtain ⟨⟨hsome, ⟨cell, hm⟩, hname⟩, -⟩ := hstanding
      obtain ⟨info, hinfo⟩ := Option.isSome_iff_exists.1 hsome
      have hmeaning : (g.mapDefinition fun d => { d with header := none }).symbols.meaning? d.row =
          some (.variable cell) := hm
      simp only [hinfo, giveMeaning, ends_bind, ends_modify, ends_get, hmeaning,
        Meaning.becomeFunction, Meaning.isVariable, if_true]
      exact (hrefl.mapDefinition (f := fun d => { d with header := none }) fun _ => rfl).setMeaning
        hname _

/-- **A return** says of the function that it gives a value. -/
theorem rests_returnWith (h : Calm keywords false g) :
    Ends (returnWith line) g fun _ g' => Rests keywords g g.pendingCalls g' := by
  have hremote : Remote fun g' => Rests keywords g g.pendingCalls g' ∧ Calm keywords false g' :=
    remote_rests.and aloof_calm.toRemote
  rw [returnWith, ends_bind]
  refine (hremote.takeValue g ⟨.refl h.table.rooted, h⟩).mono fun value g₁ h₁ => ?_
  rw [ends_bind]
  refine ((hremote.returningFrom g₁ h₁).and
    (secure_returningFrom (P := fun _ => True) h₁.2).ends).mono ?_
  rintro row? g₂ ⟨h₂, -, hrow⟩
  split
  · exact (ends_pure ()).2 h₂.1
  · rename_i row
    have hfunction : Remote fun g' => (g'.symbols.function? row).isSome :=
      (Aloof.of_symbols (P := fun t => (t.function? row).isSome)).toRemote
    simp only [ends_bind]
    refine ends_functionOn.mono ?_
    rintro info _ ⟨rfl, -⟩
    refine ((hremote.and hfunction).emitReturn _ ⟨h₂, hrow row rfl⟩).mono fun _ g₃ h₃ => ?_
    obtain ⟨⟨hrests, hcalm⟩, hf⟩ := h₃
    exact ends_modify.2 (hrests.setMeaning (fun hk => hcalm.table.functions hk row hf) _)

/-- **Only functions are retired,** so the loops keep their row. -/
theorem rests_retireRivals (h : Calm keywords false g) :
    Ends (retireRivals line) g fun _ g' => Rests keywords g g.pendingCalls g' := by
  have hrefl : Rests keywords g g.pendingCalls g := .refl h.table.rooted
  simp only [retireRivals, ends_bind, ends_get]
  cases g.lastDefined with
  | none => exact (ends_pure ()).2 hrefl
  | some row =>
    simp only [ends_bind, ends_modify]
    have hnames : ∀ other ∈ g.rivals row, keywords.contains loopKeyword = true →
        g.symbols.name? other ≠ some loopKeyword := fun other hother hk =>
      h.table.functions hk other (Sound.function?_of_mem_rivals hother)
    refine (ends_forM (g := { g with lastDefined := none })
      (P := fun g' => Rests keywords g g.pendingCalls g' ∧
        ∀ other ∈ g.rivals row, keywords.contains loopKeyword = true →
          g'.symbols.name? other ≠ some loopKeyword)
      ⟨hrefl.of_eq rfl rfl rfl, hnames⟩ ?_).mono fun _ _ h => h.1
    rintro other hother g₁ ⟨h₁, hnames₁⟩
    simp only [ends_bind, ends_report, ends_modify]
    refine ⟨?_, fun i hi hk => SymbolTable.name?_retire_ne_loopKeyword (hnames₁ i hi hk)⟩
    have hretire : Rests keywords g g.pendingCalls { g₁ with symbols := g₁.symbols.retire other } :=
      h₁.table rfl fun hk => SymbolTable.loops?_retire h₁.rooted (hnames₁ other hother hk)
    exact hretire.of_eq rfl rfl rfl

section Calls

/-- The calls that wait are no frames. -/
theorem Rests.withCalls (h : Rests keywords g calls g') (names : List String) :
    Rests keywords g names { g' with pendingCalls := names } :=
  { h with calls := rfl }

theorem rests_startCall (hr : g.symbols.scopes.Rooted) : Ends (startCall name) g fun _ g' =>
    Rests keywords g (name :: g.pendingCalls) g' := by
  have hrefl : Rests keywords g g.pendingCalls g := .refl hr
  rw [startCall, ends_bind]
  refine (remote_rests.push g hrefl).mono fun _ g₁ h₁ => ends_modify.2 ?_
  rw [h₁.calls]
  exact h₁.withCalls _

theorem rests_resolveCall (hr : g.symbols.scopes.Rooted) : Ends (resolveCall line) g fun _ g' =>
    Rests keywords g g.pendingCalls.tail g' := by
  have hrefl : Rests keywords g g.pendingCalls g := .refl hr
  rw [resolveCall, ends_bind]
  refine (remote_rests.pop g hrefl).mono fun counter g₁ h₁ => ?_
  simp only [ends_bind, ends_get]
  refine (remote_rests.takeValues _ g₁ h₁).mono fun arguments g₂ h₂ => ?_
  simp only [ends_modify]
  have h₃ : Rests keywords g g.pendingCalls.tail { g₂ with pendingCalls := g₂.pendingCalls.tail } := by
    rw [h₂.calls]
    exact h₂.withCalls _
  split
  · exact remote_rests.callFunction _ h₃
  · exact upholds_bind remote_rests.report (fun _ => remote_rests.push) _ h₃

end Calls

/-- Actions that begin or end a function or a loop, or jump out of a loop. -/
def isFraming : Action → Bool
  | .enterFunction | .exitFunction | .loopBegin | .loopEnd | .breakLoop | .continueLoop => true
  | _ => false

/-- **All other actions leave frames alone.** -/
theorem rests_perform {a : Action} {header : Bool} {lexeme : String} (ha : isFraming a = false)
    (h : Calm keywords header g) (hheader : header = true → a = .param ∨ a = .paramsDone)
    (hn : a.behind? = some .identifier → keywords.contains loopKeyword = true →
      lexeme ≠ loopKeyword) :
    Ends (perform a lexeme line) g fun _ g' => ∃ names, Rests keywords g names g' ∧
      ∀ count, a.calls g.pendingCalls.length = some count → names.length = count := by
  have hrefl : Rests keywords g g.pendingCalls g := .refl h.table.rooted
  have hfalse : ¬(a = .param ∨ a = .paramsDone) → header = false := fun hne =>
    Bool.eq_false_iff.2 fun ht => hne (hheader ht)
  -- only two actions change the calls that wait
  have hsame : a ≠ .beginCall → a ≠ .dispatch →
      Ends (perform a lexeme line) g (fun _ g' => Rests keywords g g.pendingCalls g') →
      Ends (perform a lexeme line) g fun _ g' => ∃ names, Rests keywords g names g' ∧
        ∀ count, a.calls g.pendingCalls.length = some count → names.length = count := by
    intro hbegin hdispatch hends
    refine hends.mono fun _ g' h' => ⟨_, h', fun count hc => ?_⟩
    rw [Action.calls, if_neg hbegin, if_neg hdispatch] at hc
    exact Option.some.inj hc
  by_cases haside : isAside a = true
  · by_cases hbegin : a = .beginCall
    · subst hbegin
      refine (rests_startCall h.table.rooted).mono fun _ g' h' => ⟨_, h', ?_⟩
      rintro count ⟨⟩
      rfl
    · by_cases hdispatch : a = .dispatch
      · subst hdispatch
        refine (rests_resolveCall h.table.rooted).mono fun _ g' h' => ⟨_, h', fun count hc => ?_⟩
        obtain ⟨-, hc⟩ := Option.ite_none_left_eq_some.1 hc
        rw [List.length_tail]
        exact Option.some.inj hc
      · exact hsame hbegin hdispatch (remote_rests.perform haside hbegin hdispatch g hrefl)
  refine hsame (by rintro rfl; exact haside rfl) (by rintro rfl; exact haside rfl) ?_
  cases a with
  | pushId => exact rests_readName (hn rfl) g hrefl
  | pushTarget => exact rests_assignTo (hn rfl) g hrefl
  | listItem => exact rests_storeItem g hrefl
  | global => exact rests_bindGlobal (hn rfl) g hrefl
  | param => exact rests_addParameter (hn rfl) g hrefl
  | paramsDone => exact rests_publish h
  | returnValue => exact rests_returnWith (hfalse nofun ▸ h)
  | checkOverload => exact rests_retireRivals (hfalse nofun ▸ h)
  | enterFunction | exitFunction | loopBegin | loopEnd | breakLoop | continueLoop => cases ha
  | _ => exact absurd rfl haside

end Rests

namespace Generator.Framed

variable {keywords : List String} {g g' : Generator} {constructs : List Construct}
  {name : String} {line : Nat}

/-- Frames stay in step where they are left alone. -/
theorem rests (h : g.Framed constructs) {calls : List String} (hr : Rests keywords g calls g')
    (ht : g.symbols.Usable keywords) (ht' : g'.symbols.Usable keywords) :
    g'.Framed constructs := by
  rw [Generator.Framed, hr.scopes, hr.places, ht.openLoops_congr ht' hr.loops]
  exact h

/-- **A loop is recorded and entered.** -/
theorem ends_startLoop (h : g.Framed constructs) (ht : g.symbols.Usable keywords)
    (hk : keywords.contains loopKeyword = true) : Ends startLoop g fun _ g' =>
      g'.Framed (.loop g.symbols.scopes.all.size g.programNext :: constructs) ∧
        g'.pendingCalls = g.pendingCalls := by
  refine (ends_startLoop_eq ht.rooted (ht.loops?_eq hk)).mono ?_
  rintro _ _ ⟨t, rfl, hrecorded⟩
  refine ⟨?_, rfl⟩
  have hroot : t.scopes.Rooted := hrecorded.scopes ▸ ht.rooted
  have hloops : (t.enterScope .loop).openLoops = g.symbols.openLoops.enter g.programNext :=
    SymbolTable.openLoops_eq ((SymbolTable.loops?_enterScope hroot .loop).trans hrecorded.loops)
  have hscopes : (t.enterScope .loop).scopes = g.symbols.scopes.enter .loop t.rows.size := by
    rw [SymbolTable.enterScope, hrecorded.scopes]
  change Emission.Framed _ (t.enterScope .loop).scopes _ (t.enterScope .loop).openLoops
  rw [hloops, hscopes]
  exact h.enterLoop _ _

/-- **A loop is left,** whatever the stack holds. -/
theorem ends_endLoop {s start : Nat} (h : g.Framed (.loop s start :: constructs))
    (ht : g.symbols.Usable keywords) (hk : keywords.contains loopKeyword = true) :
    Ends endLoop g fun _ g' => g'.Framed constructs ∧ g'.pendingCalls = g.pendingCalls := by
  have hrefl : Rests keywords g g.pendingCalls g := .refl ht.rooted
  obtain ⟨closed, outer, hleave, hframed⟩ := h.leaveLoop ht.indexed.orderly.nested
  rw [endLoop, ends_bind]
  refine (remote_rests.heldSlot g hrefl).mono fun slot g₁ h₁ => ?_
  rw [ends_bind]
  refine (remote_rests.pop g₁ h₁).mono fun condition g₂ h₂ => ?_
  rw [ends_bind]
  refine (ends_loopRecord_eq h₂.rooted (h₂.loops _ hk (ht.loops?_eq hk))).mono ?_
  rintro ⟨row, record⟩ _ ⟨hrecord, t, rfl, hrow, hrecorded⟩
  obtain rfl : record = g.symbols.openLoops := hrecord
  simp only [hleave, ends_bind, ends_modify]
  have hclosed : g₂.symbols.Recorded (t.setMeaning row (.loops outer)) outer :=
    hrecorded.again h₂.rooted hrow
  have hrefl₃ : Rests keywords { g₂ with symbols := t.setMeaning row (.loops outer) }
      g.pendingCalls { g₂ with symbols := t.setMeaning row (.loops outer) } :=
    ⟨hclosed.scopes ▸ h₂.rooted, rfl, rfl, h₂.calls, fun _ _ h => h⟩
  refine (remote_rests.settleLoop _ hrefl₃).mono fun _ g₃ h₃ => ⟨?_, h₃.calls⟩
  have hloops : g₃.symbols.leaveScope.openLoops = outer := SymbolTable.openLoops_eq
    ((SymbolTable.loops?_leaveScope h₃.rooted).trans (h₃.loops outer hk hclosed.loops))
  have hscopes : g₃.symbols.leaveScope.scopes =
      g.symbols.scopes.leave g₃.symbols.rows.size := by
    rw [SymbolTable.leaveScope, h₃.scopes, ← h₂.scopes, ← hclosed.scopes]
  change Emission.Framed _ g₃.symbols.leaveScope.scopes (g₃.definitions.map Definition.place)
    g₃.symbols.leaveScope.openLoops
  rw [hloops, hscopes, h₃.places, h₂.places]
  exact hframed _

/-- **A jump out of a loop** waits with its jumps; out of no loop it is an error. -/
theorem ends_leaveLoop {outside : SemanticFault} {add : LoopRecord → Nat → LoopRecord}
    (h : g.Framed constructs) (ht : g.symbols.Usable keywords)
    (hstarts : ∀ record slot, (add record slot).starts = record.starts)
    (hadd : ∀ record slot loops limit, Balanced record (loops + 1) limit →
      Balanced (add record slot) (loops + 1) limit) :
    Ends (leaveLoop line outside add) g fun _ g' =>
      g'.Framed constructs ∧ g'.pendingCalls = g.pendingCalls := by
  cases hin : g.symbols.scopes.isLoop g.currentScope with
  | false =>
    refine (ends_leaveLoop_stray hin).mono ?_
    rintro _ _ rfl
    exact ⟨h, rfl⟩
  | true =>
    have hk : keywords.contains loopKeyword = true := by
      by_contra hk
      rw [Bool.not_eq_true] at hk
      exact ht.loopless hk _ (eq_of_beq hin)
    refine (ends_leaveLoop_eq ht.rooted (ht.loops?_eq hk) hin).mono ?_
    rintro _ _ ⟨t, rfl, hrecorded⟩
    refine ⟨?_, rfl⟩
    obtain ⟨start, starts, hopen⟩ := List.exists_cons_of_ne_nil
      (h.framing.starts_ne_nil h.rooted hin)
    have hlength : g.symbols.openLoops.starts.length = starts.length + 1 := by rw [hopen]; rfl
    obtain ⟨limit, hb⟩ := h.balanced
    rw [hlength] at hb
    change Emission.Framed _ t.scopes (g.definitions.map Definition.place) t.openLoops
    rw [SymbolTable.openLoops_eq hrecorded.loops, hrecorded.scopes]
    refine ⟨h.rooted, ?_, h.unended, limit, ?_⟩
    · rw [hstarts]
      exact h.framing
    · rw [hstarts, hlength]
      exact hadd _ _ _ _ hb

/-- **A definition begins** in a scope of its own. -/
theorem ends_startFunction (h : g.Framed constructs) (hcalm : Calm keywords false g)
    (hn : keywords.contains loopKeyword = true → name ≠ loopKeyword) :
    Ends (startFunction name) g fun _ g' =>
      g'.Framed (.function g.symbols.scopes.all.size :: constructs) ∧
        g'.pendingCalls = g.pendingCalls := by
  have ht := hcalm.table
  have hrefl : Rests keywords g g.pendingCalls g := .refl ht.rooted
  refine (Ends.and ?_ (secure_startFunction hcalm hn).ends).mono
    (P := fun _ g' => (∃ g₁ row, Rests keywords g g.pendingCalls g₁ ∧
      g'.symbols = g₁.symbols.enterScope (.body row) ∧
      g'.definitions.map Definition.place =
        (row, g₁.symbols.scopes.all.size) :: g₁.definitions.map Definition.place ∧
      g'.pendingCalls = g₁.pendingCalls) ∧ Calm keywords true g') ?_
  · rw [startFunction, ends_bind]
    refine (remote_rests.reserve g hrefl).mono fun aroundSlot g₁ h₁ => ?_
    simp only [ends_bind, ends_onMemory, ends_modifyGet, ends_get, ends_modify]
    intro result m₁ _ returnCell m₂ _
    have h₂ : Rests keywords g g.pendingCalls { g₁ with memory := m₂ } := h₁.of_eq rfl rfl rfl
    exact ⟨_, _, h₂.rowFor hn (· = .unused), rfl, rfl, rfl⟩
  · rintro _ g' ⟨⟨g₁, row, h₁, hsymbols, hplaces, hcalls⟩, hcalm'⟩
    refine ⟨?_, hcalls.trans h₁.calls⟩
    have hloops : g'.symbols.openLoops = g.symbols.openLoops := by
      refine ht.openLoops_congr hcalm'.table fun record hk hr => ?_
      rw [hsymbols, SymbolTable.loops?_enterScope h₁.rooted]
      exact h₁.loops record hk hr
    rw [Generator.Framed, hloops, hplaces, hsymbols, h₁.places, SymbolTable.enterScope, h₁.scopes]
    exact h.enterBody _ _

/-- **A definition ends,** and its scope is left. -/
theorem ends_endFunction {s : Nat} (h : g.Framed (.function s :: constructs))
    (hcalm : Calm keywords false g) : Ends endFunction g fun _ g' =>
      g'.Framed constructs ∧ g'.pendingCalls = g.pendingCalls := by
  have ht := hcalm.table
  obtain ⟨row, places, hplaces, hframed⟩ := h.leaveBody ht.indexed.orderly.nested
  obtain ⟨d, rest, hdefs, -, rfl⟩ := List.map_eq_cons_iff.1 hplaces
  have hheader : d.header = none := (hcalm.standing d (hdefs ▸ List.mem_cons_self)).1
  -- its code is completed with the definition gone and its scope still current
  have hrefl : Rests keywords { g with definitions := rest } g.pendingCalls
      { g with definitions := rest } := ⟨ht.rooted, rfl, rfl, rfl, fun _ _ h => h⟩
  refine (Ends.and ?_ (firm_endFunction g hcalm).ends).mono
    (P := fun _ g' => (∃ g₁, Rests keywords { g with definitions := rest } g.pendingCalls g₁ ∧
      g' = { g₁.leaveScope with lastDefined := some d.row }) ∧ Calm keywords false g') ?_
  · simp only [endFunction, publish, ends_bind, ends_get, hdefs, hheader, ends_pure, ends_modify]
    split
    · simp only [ends_bind, ends_get, ends_modify]
      refine ends_functionOn.mono ?_
      rintro info _ ⟨rfl, -⟩
      refine (remote_rests.emitReturn _ hrefl).mono fun _ g₁ h₁ => ?_
      exact (remote_rests.settle g₁ h₁).mono fun _ g₂ h₂ => ⟨g₂, h₂, rfl⟩
    · simp only [ends_bind, ends_get, ends_modify]
      exact (remote_rests.settle _ hrefl).mono fun _ g₂ h₂ => ⟨g₂, h₂, rfl⟩
  · rintro _ _ ⟨⟨g₁, h₁, rfl⟩, hcalm'⟩
    refine ⟨?_, h₁.calls⟩
    have hloops : g₁.symbols.leaveScope.openLoops = g.symbols.openLoops := by
      refine ht.openLoops_congr hcalm'.table fun record hk hr => ?_
      exact (SymbolTable.loops?_leaveScope h₁.rooted).trans (h₁.loops record hk hr)
    have hscopes : g₁.symbols.leaveScope.scopes =
        g.symbols.scopes.leave g₁.symbols.rows.size := by
      rw [SymbolTable.leaveScope, h₁.scopes]
    change Emission.Framed _ g₁.symbols.leaveScope.scopes (g₁.definitions.map Definition.place)
      g₁.symbols.leaveScope.openLoops
    rw [hloops, hscopes, h₁.places]
    exact hframed _

end Generator.Framed

variable {keywords : List String} {g : Generator} {constructs : List Construct} {header : Bool}
  {a : Action} {lexeme : String} {line : Nat}

/-- **Every action leaves frames in step,** and calls with their names. A definition ends where the
innermost construct is a function, and a loop where it is a loop. -/
theorem framed_perform (h : g.Framed constructs) (hcalm : Calm keywords header g)
    (hheader : header = true → a = .param ∨ a = .paramsDone)
    (hn : a.behind? = some .identifier → keywords.contains loopKeyword = true →
      lexeme ≠ loopKeyword)
    (hloop : a = .loopBegin ∨ a = .loopEnd → keywords.contains loopKeyword = true)
    (hexit : a = .exitFunction → ∃ s rest, constructs = .function s :: rest)
    (hend : a = .loopEnd → ∃ s start rest, constructs = .loop s start :: rest) :
    Ends (perform a lexeme line) g fun _ g' => g'.Framed (g.constructs a constructs) ∧
      ∀ count, a.calls g.pendingCalls.length = some count → g'.pendingCalls.length = count := by
  have ht := hcalm.table
  have hfalse : ¬(a = .param ∨ a = .paramsDone) → header = false := fun hne =>
    Bool.eq_false_iff.2 fun ht => hne (hheader ht)
  cases hframing : isFraming a with
  | false =>
    have hconstructs : g.constructs a constructs = constructs := by
      unfold Generator.constructs
      split <;> first | rfl | cases hframing
    rw [hconstructs]
    refine ((rests_perform hframing hcalm hheader hn).and
      (secure_perform hcalm hheader (fun ha => hn (ha ▸ rfl)) hloop).ends).mono ?_
    rintro _ g' ⟨⟨names, hrests, hcalls⟩, hcalm'⟩
    refine ⟨h.rests hrests ht hcalm'.table, fun count hc => ?_⟩
    rw [hrests.calls]
    exact hcalls count hc
  | true =>
    have hsame : a.calls g.pendingCalls.length = some g.pendingCalls.length := by
      rw [Action.calls, if_neg (by rintro rfl; cases hframing), if_neg (by rintro rfl; cases hframing)]
    suffices hends : Ends (perform a lexeme line) g fun _ g' =>
        g'.Framed (g.constructs a constructs) ∧ g'.pendingCalls = g.pendingCalls by
      refine hends.mono fun _ g' h' => ⟨h'.1, fun count hc => ?_⟩
      rw [h'.2]
      exact Option.some.inj (hsame.symm.trans hc)
    cases a with
    | enterFunction => exact h.ends_startFunction (hfalse nofun ▸ hcalm) (hn rfl)
    | exitFunction =>
      obtain ⟨s, rest, rfl⟩ := hexit rfl
      exact h.ends_endFunction (hfalse nofun ▸ hcalm)
    | loopBegin => exact h.ends_startLoop ht (hloop (.inl rfl))
    | loopEnd =>
      obtain ⟨s, start, rest, rfl⟩ := hend rfl
      exact h.ends_endLoop ht (hloop (.inr rfl))
    | breakLoop =>
      exact h.ends_leaveLoop ht (fun _ _ => rfl) fun _ slot _ _ hb => hb.addBreak slot
    | continueLoop =>
      exact h.ends_leaveLoop ht (fun _ _ => rfl) fun _ slot _ _ hb => hb.addContinue slot
    | _ => cases hframing

end OnePass.Emission
