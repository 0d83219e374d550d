import OnePass.Proofs.Emission.Nesting
import OnePass.Proofs.Names.Lookup
import OnePass.Proofs.Syntax.Uses

/-!
# The scopes of the compiler show the bindings of the text

The scopes around a place in the text are the stretches that names are bound in there, and in
every scope a name has the cell that it is bound to. So reading and assigning a name, and
declaring it global, find the cells that the text means.

* `Shows`, `Mirror`: a scope shows a frame, and the scopes around a place show the frames.
* `Mirror.nearest?`, `Mirror.own?`, `Mirror.global?`: names have the cells that they are bound to.
* `Mirror.bind`, `Mirror.enter`, `Mirror.leave`: steps that both sides take.
* `Agrees`: a state of generation agrees with bindings. `aloof_agrees`, `Agrees.bindFresh`.
-/

namespace OnePass.Syntax

open Emission Names Target

/-- **A scope shows a frame:** it is open, and names have the same cells in both. -/
structure Shows (t : SymbolTable) (f : Frame) (s : Nat) : Prop where
  opened : t.Opened s
  loop : t.scopes.isLoop s = f.isLoop
  cells : ∀ x, t.cellIn? s x = f.cells x

/-- **The scopes around a scope show frames,** the innermost first. -/
inductive Mirror (t : SymbolTable) : List Frame → Nat → Prop
  | outermost {f : Frame} (h : Shows t f Scopes.outermost) : Mirror t [f] Scopes.outermost
  | inside {f : Frame} {outer : List Frame} {s parent : Nat} {region : Region} (h : Shows t f s)
      (hat : t.scopes.At s region (some parent)) (hlt : parent < s) (ho : Mirror t outer parent) :
      Mirror t (f :: outer) s

section Mirror

variable {t t' : SymbolTable} {f : Frame} {frames outer : List Frame} {s : Nat} {x : String}

theorem Mirror.shows (h : Mirror t (f :: outer) s) : Shows t f s := by
  cases h <;> assumption

theorem Mirror.opened (h : Mirror t frames s) : t.Opened s := by
  cases h with
  | outermost h => exact h.opened
  | inside h => exact h.opened

theorem Mirror.exists_cons (h : Mirror t frames s) : ∃ f outer, frames = f :: outer := by
  cases h <;> exact ⟨_, _, rfl⟩

/-- The scopes stay as they are, and so does what they show. -/
theorem Mirror.mono (h : Mirror t frames s)
    (hat : ∀ i r p, t.scopes.At i r p → t'.scopes.At i r p)
    (hshows : ∀ i ≤ s, ∀ f, Shows t f i → Shows t' f i) : Mirror t' frames s := by
  induction h with
  | outermost h => exact .outermost (hshows _ (Nat.le_refl _) _ h)
  | inside h ha hlt _ ih =>
    exact .inside (hshows _ (Nat.le_refl _) _ h) (hat _ _ _ ha) hlt
      (ih fun i hi => hshows i (Nat.le_trans hi (Nat.le_of_lt hlt)))

/-- The scopes around a scope, one for each frame. -/
theorem Mirror.forall₂ (h : Mirror t frames s) (hr : t.scopes.Rooted) :
    List.Forall₂ (Shows t) frames (t.scopes.enclosing s) := by
  induction h with
  | outermost h =>
    rw [Scopes.enclosing.eq_def, hr]
    exact .cons h .nil
  | @inside f outer s parent region h hat hlt _ ih =>
    obtain ⟨scope, hs, -, hp⟩ := hat
    rw [Scopes.enclosing.eq_def, hs]
    dsimp only
    rw [hp]
    dsimp only
    rw [if_pos hlt]
    exact .cons h ih

/-- Names are looked up alike in scopes and in what they show. -/
theorem findSome?_of_shows {scopes : List Nat} (h : List.Forall₂ (Shows t) frames scopes) :
    scopes.findSome? (t.cellIn? · x) = frames.findSome? (·.cells x) := by
  induction h with
  | nil => rfl
  | cons h _ ih => rw [List.findSome?_cons, List.findSome?_cons, h.cells, ih]

theorem forall₂_sameBody {scopes : List Nat} (h : List.Forall₂ (Shows t) frames scopes) :
    List.Forall₂ (Shows t) (Bindings.sameBody frames) (t.scopes.throughLoops scopes) := by
  induction h with
  | nil => exact .nil
  | @cons f s _ _ h _ ih =>
    have hloop := h.loop
    rw [Scopes.isLoop] at hloop
    rw [Bindings.sameBody, Scopes.throughLoops]
    cases hf : f.isLoop with
    | true =>
      rw [hf, beq_iff_eq] at hloop
      rw [if_pos hloop, if_pos rfl]
      exact .cons h ih
    | false =>
      rw [hf, beq_eq_false_iff_ne] at hloop
      rw [if_neg hloop, if_neg (by simp)]
      exact .cons h .nil

/-- The last frame is that of the outermost scope. -/
theorem Mirror.getLast? (h : Mirror t frames s) :
    ∃ f, frames.getLast? = some f ∧ Shows t f Scopes.outermost := by
  induction h with
  | outermost h => exact ⟨_, rfl, h⟩
  | @inside _ outer _ _ _ _ _ _ ho ih =>
    obtain ⟨f, hf, h⟩ := ih
    obtain ⟨g, rest, rfl⟩ := ho.exists_cons
    exact ⟨f, by rw [List.getLast?_cons_cons, hf], h⟩

theorem Mirror.around (h : Mirror t (f :: outer) s) (hs : s ≠ Scopes.outermost) :
    ∃ region parent, t.scopes.At s region (some parent) ∧ parent < s ∧ Mirror t outer parent := by
  cases h with
  | outermost => exact absurd rfl hs
  | inside _ hat hlt ho => exact ⟨_, _, hat, hlt, ho⟩

/-- The outermost scope shows the only frame. -/
theorem Mirror.eq_outermost_iff (h : Mirror t frames s) :
    s = Scopes.outermost ↔ frames.tail = [] := by
  cases h with
  | outermost => exact ⟨fun _ => rfl, fun _ => rfl⟩
  | inside _ _ hlt ho =>
    obtain ⟨_, _, rfl⟩ := ho.exists_cons
    refine ⟨?_, nofun⟩
    rintro rfl
    exact absurd hlt (Nat.not_lt_zero _)

theorem Mirror.ne_outermost (h : Mirror t (f :: outer) s) (hne : outer ≠ []) :
    s ≠ Scopes.outermost :=
  fun hs => hne (h.eq_outermost_iff.1 hs)

/-- A name is read from the cell that it is bound to nearest. -/
theorem Mirror.nearest? (h : Mirror t frames s) (hr : t.scopes.Rooted) (x : String) :
    (t.resolve x s true true).bind t.cell? = Frame.nearest? frames x := by
  rw [SymbolTable.resolve_eq_findSome?]
  exact findSome?_of_shows (h.forall₂ hr)

/-- And it is assigned to the cell that it is bound to in the same body. -/
theorem Mirror.own? (h : Mirror t frames s) (hr : t.scopes.Rooted) (x : String) :
    ((t.scopes.sameBody s).findSome? fun s => (t.latestIn s x true).bind t.cell?) =
      Frame.own? frames x :=
  findSome?_of_shows (forall₂_sameBody (h.forall₂ hr))

/-- The outermost scope has the cells of global names. -/
theorem Mirror.global? (h : Mirror t frames s) (x : String) :
    (t.latestIn Scopes.outermost x true).bind t.cell? = Frame.global? frames x := by
  obtain ⟨f, hf, hshows⟩ := h.getLast?
  rw [Frame.global?, hf, Option.bind_some, ← hshows.cells x]
  rfl

/-- **A step on the table** in which the scopes stay, and names keep their cells. -/
theorem Mirror.ofTable (h : Mirror t frames s) (hs : t'.scopes = t.scopes)
    (ho : ∀ s, t.Opened s → t'.Opened s)
    (hc : ∀ s x, t.Opened s → t'.cellIn? s x = t.cellIn? s x) : Mirror t' frames s := by
  refine h.mono (fun i r p hi => by rwa [hs]) fun i _ f hf => ⟨ho i hf.opened, ?_, fun x => ?_⟩
  · rw [hs]
    exact hf.loop
  · exact (hc i x hf.opened).trans (hf.cells x)

theorem Mirror.rowFor (h : Mirror t frames s) {kind : Lexical.TokenKind}
    {reuse : Meaning → Bool} : Mirror (t.rowFor x kind reuse).2 frames s :=
  h.ofTable (SymbolTable.scopes_rowFor _ _ _ _) (fun _ ho => ho.rowFor) fun _ _ ho =>
    SymbolTable.cellIn?_rowFor ho

/-- **The latest row of a name gets a cell,** and so the name is bound. -/
theorem Mirror.bind (h : Mirror t frames s) {row cell : Nat}
    (hlatest : t.latestIn s x false = some row) :
    Mirror (t.setMeaning row (.variable (some cell))) (Frame.bind frames x cell) s := by
  obtain ⟨f, outer, rfl⟩ := h.exists_cons
  have hshows : Shows (t.setMeaning row (.variable (some cell)))
      { f with cells := Function.update f.cells x (some cell) } s :=
    ⟨h.shows.opened.setMeaning, h.shows.loop, fun y => by
      rw [SymbolTable.cellIn?_setVariable hlatest]
      by_cases hy : y = x
      · subst hy
        rw [if_pos ⟨rfl, rfl⟩]
        exact (Function.update_self y (some cell) f.cells).symm
      · rw [if_neg fun hc => hy hc.2]
        exact (h.shows.cells y).trans (Function.update_of_ne hy _ _).symm⟩
  have hothers : ∀ i < s, ∀ f', Shows t f' i →
      Shows (t.setMeaning row (.variable (some cell))) f' i := fun i hi f' hf' =>
    ⟨hf'.opened.setMeaning, hf'.loop, fun y => by
      rw [SymbolTable.cellIn?_setVariable hlatest, if_neg fun hc => Nat.ne_of_lt hi hc.1]
      exact hf'.cells y⟩
  rw [Frame.bind]
  by_cases hs : s = Scopes.outermost
  · subst hs
    cases h with
    | outermost => exact .outermost hshows
    | inside _ _ hlt => exact absurd hlt (Nat.not_lt_zero _)
  · obtain ⟨region, parent, hat, hlt, ho⟩ := h.around hs
    exact .inside hshows hat hlt (ho.mono (fun _ _ _ h => h) fun i hi =>
      hothers i (Nat.lt_of_le_of_lt hi hlt))

/-- **A new scope** shows a new frame. -/
theorem Mirror.enter (h : Mirror t frames t.currentScope) (region : Region) :
    Mirror (t.enterScope region) (Frame.empty (region == .loop) :: frames)
      (t.enterScope region).currentScope := by
  have hlt := h.opened.lt
  have hnew : Shows (t.enterScope region) (Frame.empty (region == .loop))
      (t.enterScope region).currentScope := by
    refine ⟨SymbolTable.opened_enterScope t region, ?_,
      SymbolTable.cellIn?_enterScope_current t region⟩
    have hregion : (t.enterScope region).scopes.region? (t.enterScope region).currentScope =
        some region := (Scopes.region?_enter _ _ _ _).trans (if_pos rfl)
    rw [Scopes.isLoop, hregion]
    rfl
  have hold : Mirror (t.enterScope region) frames t.currentScope := by
    refine h.mono (fun _ _ _ hi => hi.enter region _) fun i hi f hf => ?_
    have hi' := Nat.lt_of_le_of_lt hi hlt
    refine ⟨hf.opened.enterScope, ?_,
      fun x => (SymbolTable.cellIn?_enterScope hi').trans (hf.cells x)⟩
    rw [Scopes.isLoop, SymbolTable.enterScope, Scopes.region?_enter, if_neg (Nat.ne_of_lt hi')]
    exact hf.loop
  exact .inside hnew (Scopes.at_enter _ _ _) hlt hold

/-- **The innermost scope is left,** which is not the outermost. -/
theorem Mirror.leave (h : Mirror t frames t.currentScope) (hne : frames.tail ≠ []) :
    Mirror t.leaveScope frames.tail t.leaveScope.currentScope := by
  obtain ⟨f, outer, rfl⟩ := h.exists_cons
  obtain ⟨region, parent, hat, hlt, ho⟩ := h.around (h.ne_outermost hne)
  have hcurrent : t.leaveScope.currentScope = parent := Scopes.current_leave hat _
  rw [hcurrent]
  refine ho.mono (fun _ _ _ hi => hi.leave t.rows.size) fun i hi f hf => ?_
  have hi' : i ≠ t.currentScope := Nat.ne_of_lt (Nat.lt_of_le_of_lt hi hlt)
  refine ⟨hf.opened.leaveScope hi', ?_,
    fun x => (SymbolTable.cellIn?_leaveScope hi').trans (hf.cells x)⟩
  have hregion : t.leaveScope.scopes.region? i = t.scopes.region? i := Scopes.region?_leave _ _ _
  rw [Scopes.isLoop, hregion]
  exact hf.loop

end Mirror

/-- **A state of generation agrees with bindings.** No cell has been given back. -/
structure Agrees (b : Bindings) (g : Generator) : Prop where
  mirror : Mirror g.symbols b.frames g.currentScope
  rooted : g.symbols.scopes.Rooted
  unit : g.memory.unit = b.unit
  next : g.memory.dataNext = b.next
  spare : g.memory.spareCells = []

section Agrees

variable {b : Bindings} {g g' : Generator} {t : SymbolTable} {x : String} {cell : Nat}

/-- A name is read from the cell that it is bound to. -/
theorem Agrees.read? (h : Agrees b g) (x : String) : g.readCell? x = b.read? x :=
  h.mirror.nearest? h.rooted x

/-- And it is assigned to the cell that it is bound to. -/
theorem Agrees.own? (h : Agrees b g) (x : String) : g.ownCell? x = b.own? x :=
  h.mirror.own? h.rooted x

/-- What has to do neither with names nor with variable cells makes no difference. -/
theorem Agrees.congr (h : Agrees b g) (hs : g'.symbols = g.symbols)
    (hu : g'.memory.unit = g.memory.unit) (hn : g'.memory.dataNext = g.memory.dataNext)
    (hspare : g'.memory.spareCells = g.memory.spareCells) : Agrees b g' where
  mirror := by
    rw [Generator.currentScope, hs]
    exact h.mirror
  rooted := hs ▸ h.rooted
  unit := hu.trans h.unit
  next := hn.trans h.next
  spare := hspare.trans h.spare

/-- Operands and code make no difference. -/
theorem aloof_agrees (b : Bindings) : Aloof (Agrees b) where
  aside h hs hm _ _ _ := h.congr hs (by rw [hm]) (by rw [hm]) (by rw [hm])
  append _ h _ := h.congr rfl rfl rfl rfl
  filled _ _ h := h.congr rfl rfl rfl rfl
  withTemp h _ := h.congr rfl rfl rfl rfl
  dropTemp {g} cell h := by
    have hkept : (g.memory.dropTemp cell).unit = g.memory.unit ∧
        (g.memory.dropTemp cell).spareCells = g.memory.spareCells := by
      unfold Memory.dropTemp
      split <;> exact ⟨rfl, rfl⟩
    exact h.congr rfl hkept.1 (g.dataNext_dropTemp cell) hkept.2
  mapDefinition h _ _ _ := h.congr rfl rfl rfl rfl
  calls _ h := h.congr rfl rfl rfl rfl

/-- **A step on the table** in which the scopes stay, and names keep their cells. -/
theorem Agrees.ofTable (h : Agrees b g) (hs : t.scopes = g.symbols.scopes)
    (ho : ∀ s, g.symbols.Opened s → t.Opened s)
    (hc : ∀ s x, g.symbols.Opened s → t.cellIn? s x = g.symbols.cellIn? s x) :
    Agrees b { g with symbols := t } where
  mirror := by
    have hcurrent : t.currentScope = g.currentScope := congrArg Scopes.current hs
    change Mirror t b.frames t.currentScope
    rw [hcurrent]
    exact h.mirror.ofTable hs ho hc
  rooted := by
    change t.scopes.Rooted
    rw [hs]
    exact h.rooted
  unit := h.unit
  next := h.next
  spare := h.spare

/-- **A token is recorded.** -/
theorem Agrees.record (h : Agrees b g) (token : Lexical.Token) :
    Agrees b { g with symbols := g.symbols.record token } :=
  h.ofTable (SymbolTable.scopes_record _ _) (fun _ ho => ho.record token) fun _ _ ho =>
    SymbolTable.cellIn?_record ho token

theorem Agrees.rowFor (h : Agrees b g) (x : String) (reuse : Meaning → Bool) :
    Agrees b (g.rowFor x reuse).2 :=
  h.ofTable (SymbolTable.scopes_rowFor _ _ _ _) (fun _ ho => ho.rowFor) fun _ _ ho =>
    SymbolTable.cellIn?_rowFor ho

/-- A row without a cell changes its meaning to another without one. -/
theorem Agrees.setMeaning (h : Agrees b g) {row : Nat} {m : Meaning}
    (hrow : g.symbols.cell? row = none) (hm : m.cell? = none) : Agrees b (g.setMeaning row m) :=
  h.ofTable rfl (fun _ ho => ho.setMeaning) fun _ _ _ => SymbolTable.cellIn?_setMeaning hrow hm

/-- A name is bound in the innermost frame, and nothing else changes. -/
theorem bind_eq (b : Bindings) (x : String) (cell : Nat) :
    b.bind x cell = { b with frames := Frame.bind b.frames x cell } := by
  obtain ⟨unit, next, frames⟩ := b
  cases frames <;> rfl

/-- **A name is bound** in the innermost frame and in the current scope. -/
theorem Agrees.bind (h : Agrees b g) (x : String) (cell : Nat) :
    Agrees (b.bind x cell) ((g.rowFor x Meaning.isVariable).2.setMeaning
      (g.rowFor x Meaning.isVariable).1 (.variable (some cell))) := by
  have h' := h.rowFor x Meaning.isVariable
  have hcurrent : (g.rowFor x Meaning.isVariable).2.currentScope = g.currentScope :=
    congrArg Scopes.current (SymbolTable.scopes_rowFor _ _ _ _)
  have hmirror := h'.mirror
  rw [hcurrent] at hmirror
  rw [bind_eq]
  refine ⟨?_, h'.rooted, h.unit, h.next, h.spare⟩
  change Mirror _ _ (g.rowFor x Meaning.isVariable).2.currentScope
  rw [hcurrent]
  exact hmirror.bind (SymbolTable.latestIn_rowFor h.mirror.opened)

/-- **A new scope** shows a new frame. -/
theorem Agrees.enter (h : Agrees b g) (region : Region) :
    Agrees (b.enter (region == .loop)) (g.enterScope region) where
  mirror := h.mirror.enter region
  rooted := h.rooted.enter _ _
  unit := h.unit
  next := h.next
  spare := h.spare

/-- **The innermost scope is left,** which is not the outermost. -/
theorem Agrees.leave (h : Agrees b g) (hb : b.frames.tail ≠ []) : Agrees b.leave g.leaveScope where
  mirror := h.mirror.leave hb
  rooted := h.rooted.leave _
  unit := h.unit
  next := h.next
  spare := h.spare

/-- Cells are handed out one behind the other. -/
theorem Agrees.takeCell (h : Agrees b g) {m : Memory} (ht : g.memory.takeCell = .ok (cell, m)) :
    cell = b.next ∧ m = { g.memory with dataNext := g.memory.dataNext + g.memory.unit } ∧
      Agrees (b.skip 1) { g with memory := m } := by
  rw [Memory.takeCell_eq, h.spare] at ht
  dsimp only at ht
  rw [Memory.takeNextCell_eq] at ht
  split at ht
  · cases ht
  · cases ht
    refine ⟨h.next, rfl, h.mirror, h.rooted, h.unit, ?_, h.spare⟩
    change g.memory.dataNext + g.memory.unit = b.next + 1 * b.unit
    rw [h.next, h.unit, Nat.one_mul]

/-- **A name gets a cell of its own,** and nothing else happens. -/
theorem Agrees.bindFresh (h : Agrees b g) (x : String) : Ends (bindFresh x) g fun cell g' =>
    cell = b.next ∧ Agrees (b.fresh x) g' ∧ g'.stack = g.stack ∧ g'.programNext = g.programNext ∧
      g'.memory.tempNext = g.memory.tempNext := by
  simp only [Emission.bindFresh, ends_bind, ends_modifyGet, ends_onMemory, ends_modify, ends_pure]
  intro cell m hm
  obtain ⟨rfl, rfl, h'⟩ := h.takeCell (g := g) hm
  have hbound := h.bind x b.next
  rw [Bindings.fresh, bind_eq]
  rw [bind_eq] at hbound
  exact ⟨rfl, ⟨hbound.mirror, hbound.rooted, h'.unit, h'.next, h'.spare⟩, rfl, rfl, rfl⟩

end Agrees

end OnePass.Syntax
