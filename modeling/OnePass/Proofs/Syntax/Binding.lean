import OnePass.Proofs.Derivation.Ownership
import OnePass.Proofs.Emission.Indifferent
import OnePass.Proofs.Emission.Overloads
import OnePass.Proofs.Syntax.Scoping

/-!
# Actions bind names as the text says

Where there are no errors, every action leaves the scopes as the bindings of the text want
them: a name gets a cell, or the cell of a global name, and scopes open and close.

* `Settled`: what is known of every state of an accepted text.
* `Agrees.assignTo`, `Agrees.bindGlobal`: names. `Agrees.startLoop`, `Agrees.endLoop`: loops.
* `Agrees.startFunction`, `Agrees.endFunction`, …: functions.
-/

namespace OnePass.Syntax

open OnePass.Derivation Emission Names Target
open Grammar (Action Mark Layer Terminal)

/-- **What is known of every state of an accepted text:** cells have one owner, and there are loops
only where their keyword is reserved. -/
structure Settled (c : Config) (g : Generator) : Prop where
  kept : ∃ globals others layers, Kept c globals others layers g
  loops : g.symbols.scopes.isLoop g.currentScope = true →
    c.keywords.contains loopKeyword = true

section Actions

variable {c : Config} {b : Bindings} {g : Generator} {x : String} {line : Nat}

/-- A definition whose parameters are being read is on a row without a cell. -/
theorem cell?_of_header {t : SymbolTable} {globals : List Nat} {layers : List Layer}
    {defs : List Definition} {cur : Nat} (h : Nesting t globals layers defs cur) :
    ∀ d ∈ defs, d.header.isSome → t.cell? d.row = none := by
  induction h with
  | outermost => nofun
  | loop _ _ _ ih => exact ih
  | header hsteady _ _ _ _ hc _ h _ =>
    refine List.forall_mem_cons.2 ⟨fun _ => hc, fun d hd hheader => ?_⟩
    rw [h.headers hsteady d hd] at hheader
    cases hheader
  | body _ hd _ _ _ _ ih =>
    refine List.forall_mem_cons.2 ⟨fun hheader => ?_, ih⟩
    rw [hd] at hheader
    cases hheader

/-- What is read has been bound, or else it is reported. -/
theorem Agrees.requireCell (h : Agrees b g) : Ends (requireCell x line) g fun _ g' =>
    g'.errors = #[] → g' = g ∧ (b.read? x).isSome := by
  simp only [Emission.requireCell, ends_bind, ends_get]
  split
  · rw [ends_report]
    intro hnone
    simp [Generator.report] at hnone
  · rename_i hsome
    rw [ends_pure, ← h.read? x]
    exact fun _ => ⟨rfl, by simpa [Option.isSome_iff_ne_none] using hsome⟩

/-- A name that is bound is read from its cell. -/
theorem Agrees.readName (h : Agrees b g) {cell : Nat} (hx : b.read? x = some cell) :
    Ends (readName x) g fun _ g' => g' = g.push (.direct cell) := by
  simp only [Emission.readName, ends_bind, ends_get, h.read? x, hx, ends_pure, ends_push]

/-- A name is bound to its own cell behind the place where it gets one. -/
theorem own?_bind {f : Frame} {outer : List Frame} {cell : Nat} (hb : b.frames = f :: outer) :
    (b.bind x cell).own? x = some cell := by
  rw [Bindings.own?, Bindings.bind, hb]
  dsimp only
  rw [Bindings.sameBody]
  split <;> simp

/-- **A name is assigned.** -/
theorem Agrees.assignTo (h : Agrees b g) : Ends (assignTo x) g fun _ g' =>
    Agrees (b.assign x) g' ∧ ∃ cell, (b.assign x).own? x = some cell ∧
      g'.stack = .direct cell :: g.stack ∧ g'.programNext = g.programNext ∧
        g'.memory.tempNext = g.memory.tempNext := by
  simp only [Emission.assignTo, ends_bind, ends_get, h.own? x]
  cases hx : b.own? x with
  | some cell =>
    have hassign : b.assign x = b := by simp [Bindings.assign, hx]
    rw [hassign]
    simp only [ends_bind, ends_pure, ends_push]
    exact ⟨h.congr rfl rfl rfl rfl, cell, hx, rfl, rfl, rfl⟩
  | none =>
    have hassign : b.assign x = b.fresh x := by simp [Bindings.assign, hx]
    obtain ⟨f, outer, hframes⟩ := h.mirror.exists_cons
    have hown : (b.fresh x).own? x = some b.next := own?_bind hframes
    rw [hassign, hown]
    refine ends_bind.2 fun cell g' hg' => ?_
    obtain ⟨rfl, h', hstack, hnext, htemp⟩ := h.bindFresh x cell g' hg'
    rw [ends_push]
    exact ⟨h'.congr rfl rfl rfl rfl, _, rfl, congrArg _ hstack, hnext, htemp⟩

/-- **A name is declared global.** -/
theorem Agrees.bindGlobal (h : Agrees b g) : Ends (bindGlobal x line) g fun _ g' =>
    g'.errors = #[] → Agrees (b.global x) g' := by
  simp only [Emission.bindGlobal, ends_bind, ends_get]
  split
  · rename_i houter
    rw [ends_pure, Bindings.global, h.mirror.eq_outermost_iff.1 houter]
    exact fun _ => h
  · rename_i houter
    obtain ⟨f, outer, hframes⟩ := h.mirror.exists_cons
    have hmirror := h.mirror
    rw [hframes] at hmirror
    obtain ⟨region, parent, -, -, ho⟩ := hmirror.around houter
    obtain ⟨last, hlast, hshows⟩ := ho.getLast?
    have hglobal : b.frames.tail.getLast?.bind (·.cells x) =
        (g.symbols.latestIn Scopes.outermost x true).bind g.symbols.cell? := by
      rw [hframes, List.tail_cons, hlast, Option.bind_some, ← hshows.cells x]
      rfl
    rw [Bindings.global, hglobal]
    cases (g.symbols.latestIn Scopes.outermost x true).bind g.symbols.cell? with
    | none =>
      rw [ends_report]
      intro hnone
      simp [Generator.report] at hnone
    | some cell =>
      simp only [ends_bind, ends_modifyGet, ends_modify]
      exact fun _ => h.bind x cell

/-- **Bindings do not mind rows without cells.** -/
theorem indifferent_agrees (b : Bindings) : Indifferent (Agrees b) where
  toAloof := aloof_agrees b
  setMeaning h hrow hm := h.setMeaning hrow hm
  definitions _ h := h.congr rfl rfl rfl rfl

section Loops

/-- No variable is on the row of the loops. -/
theorem Settled.reservesLoops (h : Settled c g)
    (hk : c.keywords.contains loopKeyword = true) : g.symbols.ReservesLoops := by
  obtain ⟨globals, others, layers, hkept⟩ := h.kept
  exact hkept.owned.keyword hk

theorem Agrees.startLoop (h : Agrees b g) (hs : Settled c g)
    (hk : c.keywords.contains loopKeyword = true) :
    Ends startLoop g fun _ g' => Agrees (b.enter true) g' := by
  refine ((indifferent_agrees b).startLoop h (hs.reservesLoops hk)).mono ?_
  rintro _ _ ⟨g₁, h₁, rfl⟩
  exact h₁.enter .loop

theorem Agrees.endLoop (h : Agrees b g) (hs : Settled c g)
    (hk : c.keywords.contains loopKeyword = true) (hb : b.frames.tail ≠ []) :
    Ends endLoop g fun _ g' => Agrees b.leave g' := by
  refine ((indifferent_agrees b).endLoop h (hs.reservesLoops hk)).mono ?_
  rintro _ _ ⟨g₁, h₁, rfl⟩
  exact h₁.leave hb

theorem Agrees.leaveLoop (h : Agrees b g) (hs : Settled c g) {outside : SemanticFault}
    {add : LoopRecord → Nat → LoopRecord} :
    Ends (leaveLoop line outside add) g fun _ g' => Agrees b g' :=
  (indifferent_agrees b).leaveLoop h fun hloop => hs.reservesLoops (hs.loops hloop)

end Loops

section Functions

/-- **A definition begins** with two cells, and its scope is a new frame. -/
theorem Agrees.startFunction (h : Agrees b g) :
    Ends (startFunction x) g fun _ g' => Agrees ((b.skip 2).enter false) g' := by
  rw [Emission.startFunction, ends_bind]
  refine ((aloof_agrees b).reserve g h).mono fun around g₁ h₁ => ?_
  simp only [ends_bind, ends_onMemory, ends_modifyGet, ends_get, ends_modify]
  intro result m₁ ht₁ returnCell m₂ ht₂
  obtain ⟨-, -, h₂⟩ := h₁.takeCell ht₁
  obtain ⟨-, -, h₃⟩ := h₂.takeCell (g := { g₁ with memory := m₁ }) ht₂
  have hskip : (b.skip 1).skip 1 = b.skip 2 := by
    simp only [Bindings.skip, Bindings.mk.injEq, true_and, and_true]
    omega
  rw [hskip] at h₃
  exact ((h₃.rowFor x (· = .unused)).enter (.body _)).congr rfl rfl rfl rfl

/-- A parameter gets a cell of its own. -/
theorem Agrees.addParameter (h : Agrees b g) :
    Ends (addParameter x) g fun _ g' => Agrees (b.fresh x) g' := by
  simp only [Emission.addParameter, ends_bind, ends_modify]
  exact (h.bindFresh x).mono fun _ _ h' => h'.2.1.congr rfl rfl rfl rfl

/-- The rows of definitions whose parameters are being read have no cells. -/
theorem Settled.header (h : Settled c g) :
    ∀ d ∈ g.definitions, d.header.isSome → g.symbols.cell? d.row = none := by
  obtain ⟨globals, others, layers, hkept⟩ := h.kept
  exact cell?_of_header hkept.nesting

/-- A function is put on a row without a cell. -/
theorem Agrees.publish (h : Agrees b g) (hs : Settled c g) :
    Ends publish g fun _ g' => Agrees b g' :=
  (indifferent_agrees b).publish h hs.header

theorem Agrees.returnWith (h : Agrees b g) :
    Ends (returnWith line) g fun _ g' => Agrees b g' :=
  (indifferent_agrees b).returnWith h

/-- In a scope that is neither the outermost nor a loop a definition is open. -/
theorem definitions_ne_nil {t : SymbolTable} {globals : List Nat} {layers : List Layer}
    {defs : List Definition} {cur : Nat} (h : Nesting t globals layers defs cur)
    (hcur : cur ≠ Scopes.outermost) (hloop : t.scopes.isLoop cur = false) : defs ≠ [] := by
  cases h with
  | outermost => exact absurd rfl hcur
  | loop _ hat =>
    rw [Scopes.isLoop, hat.region?] at hloop
    cases hloop
  | header | body => exact List.cons_ne_nil _ _

/-- **A definition ends,** and its scope is left. -/
theorem Agrees.endFunction (h : Agrees b g) (hs : Settled c g) {f : Frame} {outer : List Frame}
    (hframes : b.frames = f :: outer) (hf : f.isLoop = false) (ho : outer ≠ []) :
    Ends endFunction g fun _ g' => Agrees b.leave g' := by
  have hb : b.frames.tail ≠ [] := by rwa [hframes]
  have hd : g.definitions ≠ [] := by
    obtain ⟨globals, others, layers, hkept⟩ := hs.kept
    have hmirror := h.mirror
    rw [hframes] at hmirror
    exact definitions_ne_nil hkept.nesting (hmirror.ne_outermost ho) (hmirror.shows.loop.trans hf)
  refine ((indifferent_agrees b).endFunction h hd hs.header).mono ?_
  rintro _ _ ⟨g₁, row, h₁, rfl⟩
  exact (h₁.leave hb).congr rfl rfl rfl rfl

theorem Agrees.retireRivals (h : Agrees b g) : Ends (retireRivals line) g fun _ g' =>
    g'.errors = #[] → Agrees b g' :=
  ends_retireRivals_clean.mono fun _ _ hclean hnone => by
    obtain ⟨_, rfl⟩ := hclean hnone
    exact h.congr rfl rfl rfl rfl

end Functions

end Actions

end OnePass.Syntax
