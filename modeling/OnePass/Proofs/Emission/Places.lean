import OnePass.Proofs.Emission.Bodies

/-!
# What becomes visible, and what is hidden for good

Scopes are nested, and one that has been left is never entered again. A function stays on
its row and begins where it was published. So what can be called at some later time could
be called before, or begins behind all that there was before.

* `Scopes.Nested`: scopes lie in older ones. `Scopes.mem_enclosing_leave`.
* `SymbolTable.Turns`: what a step may do to a table. `turns_perform`: all actions do so.
* `Later`: a state that comes after another one. `Later.visible`.
-/

namespace OnePass.Names

namespace Scopes

/-- **The scopes are nested:** the current one exists, and a scope lies in an older one. -/
structure Nested (t : Scopes) : Prop where
  current : t.current < t.all.size
  parents : ∀ s (scope : Scope) p, t.all[s]? = some scope → scope.parent = some p → p < s

/-- What lies around a scope only has to do with the older scopes. -/
theorem enclosing_congr {t t' : Scopes} {s : Nat}
    (h : ∀ i ≤ s, t'.all[i]?.map (·.parent) = t.all[i]?.map (·.parent)) :
    t'.enclosing s = t.enclosing s := by
  induction s using Nat.strongRecOn with
  | ind s ih =>
    have hs := h s (Nat.le_refl s)
    rw [enclosing.eq_def t', enclosing.eq_def t]
    cases ht : t.all[s]? with
    | none =>
      rw [ht, Option.map_none, Option.map_eq_none_iff] at hs
      rw [hs]
    | some scope =>
      rw [ht, Option.map_some] at hs
      obtain ⟨scope', ht', hparent⟩ := Option.map_eq_some_iff.1 hs
      rw [ht']
      dsimp only
      rw [hparent]
      congr 1
      split
      · split
        · rename_i p _ hlt
          exact ih p hlt fun i hi => h i (by omega)
        · rfl
      · rfl

theorem le_of_mem_enclosing {t : Scopes} {s x : Nat} (h : s ∈ t.enclosing x) : s ≤ x := by
  induction x using Nat.strongRecOn with
  | ind x ih =>
    rw [enclosing.eq_def] at h
    split at h
    · cases h
    · rcases List.mem_cons.1 h with rfl | h
      · exact Nat.le_refl _
      · split at h
        · split at h
          · rename_i hlt
            exact Nat.le_trans (ih _ hlt h) (Nat.le_of_lt hlt)
          · cases h
        · cases h

theorem nested_initial : initial.Nested where
  current := by decide
  parents s scope p hs hp := by
    have hlt := (Array.getElem?_eq_some_iff.1 hs).1
    obtain rfl : s = 0 := Nat.lt_one_iff.1 hlt
    cases hs
    cases hp

variable {t : Scopes} {region : Region} {row : Nat}

theorem Nested.enter (h : t.Nested) : (t.enter region row).Nested where
  current := by simp [Scopes.enter]
  parents s scope p hs hp := by
    rw [Scopes.enter, Array.getElem?_push] at hs
    split at hs
    · rename_i heq
      cases hs
      cases hp
      rw [heq]
      exact h.current
    · exact h.parents s scope p hs hp

theorem size_enter : (t.enter region row).all.size = t.all.size + 1 := by simp [Scopes.enter]

/-- Around a scope that is entered lies what lay around the one before. -/
theorem mem_enclosing_enter (h : t.Nested) {s : Nat}
    (hs : s ∈ (t.enter region row).enclosing (t.enter region row).current) :
    s = t.all.size ∨ s ∈ t.enclosing t.current := by
  have hcurrent : (t.enter region row).current = t.all.size := rfl
  have hall : (t.enter region row).all = t.all.push ⟨some t.current, region, row, none⟩ := rfl
  rw [hcurrent, enclosing.eq_def, hall, Array.getElem?_push, if_pos rfl] at hs
  dsimp only at hs
  rw [if_pos h.current] at hs
  rcases List.mem_cons.1 hs with rfl | hs
  · exact .inl rfl
  · refine .inr ?_
    rwa [enclosing_congr] at hs
    intro i hi
    rw [hall, Array.getElem?_push, if_neg (by have := h.current; omega)]

theorem parent_leave (t : Scopes) (row i : Nat) :
    (t.leave row).all[i]?.map (·.parent) = t.all[i]?.map (·.parent) := by
  unfold Scopes.leave
  split
  · rename_i scope hc
    split
    · dsimp only
      rw [Array.getElem?_setIfInBounds]
      split
      · rename_i heq
        subst heq
        rw [if_pos (Array.getElem?_eq_some_iff.1 hc).1, hc]
        rfl
      · rfl
    · rfl
  · rfl

theorem size_leave : (t.leave row).all.size = t.all.size := by
  unfold Scopes.leave
  split
  · split
    · simp
    · rfl
  · rfl

theorem Nested.leave (h : t.Nested) : (t.leave row).Nested where
  current := by
    rw [size_leave]
    unfold Scopes.leave
    split
    · rename_i scope hc
      split
      · rename_i p hp
        exact Nat.lt_trans (h.parents _ _ _ hc hp) h.current
      · exact h.current
    · exact h.current
  parents s scope p hs hp := by
    have hsame := parent_leave t row s
    rw [hs, Option.map_some, hp] at hsame
    obtain ⟨scope', hs', hp'⟩ := Option.map_eq_some_iff.1 hsame.symm
    exact h.parents s scope' p hs' hp'

/-- **Leaving a scope hides only what belongs to it.** -/
theorem mem_enclosing_leave (h : t.Nested) {s : Nat}
    (hs : s ∈ (t.leave row).enclosing (t.leave row).current) : s ∈ t.enclosing t.current := by
  rw [enclosing_congr fun i _ => parent_leave t row i] at hs
  unfold Scopes.leave at hs
  split at hs
  · rename_i scope hc
    split at hs
    · rename_i p hp
      rw [enclosing.eq_def, hc]
      dsimp only
      rw [hp]
      dsimp only
      rw [if_pos (h.parents _ _ _ hc hp)]
      exact List.mem_cons_of_mem _ hs
    · exact hs
  · exact hs

end Scopes

namespace SymbolTable

/-- **A table in order:** its scopes are nested, and its rows belong to them. -/
structure Orderly (t : SymbolTable) : Prop where
  nested : t.scopes.Nested
  placed : ∀ row s, t.scope? row = some s → s < t.scopes.all.size

/-- **What a step does to a table:** it enters scopes or leaves them, adds rows, and makes functions
that begin at `next`. A function that is there may only come to return a value. -/
structure Turns (next : Nat) (t t' : SymbolTable) : Prop where
  orderly : t'.Orderly
  scopes : t.scopes.all.size ≤ t'.scopes.all.size
  seen : ∀ s ∈ t'.scopes.enclosing t'.currentScope,
    s ∈ t.scopes.enclosing t.currentScope ∨ t.scopes.all.size ≤ s
  places : ∀ row s, t.scope? row = some s → t'.scope? row = some s
  kept : ∀ row f, t.function? row = some f → ∃ f', t'.function? row = some f' ∧ f'.bare = f.bare
  made : ∀ row f', t'.function? row = some f' →
    (∃ f, t.function? row = some f ∧ f'.bare = f.bare) ∨ f'.start = next

section Turns

variable {t t' t'' : SymbolTable} {next row : Nat}

theorem Turns.refl (h : t.Orderly) (next : Nat) : Turns next t t :=
  ⟨h, Nat.le_refl _, fun _ => .inl, fun _ _ h => h, fun _ f h => ⟨f, h, rfl⟩,
    fun _ f h => .inl ⟨f, h, rfl⟩⟩

theorem Turns.trans (h : Turns next t t') (h' : Turns next t' t'') : Turns next t t'' where
  orderly := h'.orderly
  scopes := Nat.le_trans h.scopes h'.scopes
  seen s hs := by
    rcases h'.seen s hs with hs | hs
    · exact h.seen s hs
    · exact .inr (Nat.le_trans h.scopes hs)
  places row s hs := h'.places row s (h.places row s hs)
  kept row f hf := by
    obtain ⟨f', hf', hbare⟩ := h.kept row f hf
    obtain ⟨f'', hf'', hbare'⟩ := h'.kept row f' hf'
    exact ⟨f'', hf'', hbare'.trans hbare⟩
  made row f hf := by
    rcases h'.made row f hf with ⟨f', hf', hbare'⟩ | hstart
    · refine (h.made row f' hf').imp ?_ fun hstart => ?_
      · rintro ⟨f₀, hf₀, hbare⟩
        exact ⟨f₀, hf₀, hbare'.trans hbare⟩
      · have hsame : f.bare.start = f'.bare.start := congrArg FunctionInfo.start hbare'
        exact hsame.trans hstart
    · exact .inr hstart

/-- A step that only adds rows, and gives no function to any. -/
theorem Turns.of_longer (h : t.Orderly) (hl : t.Longer t') (hscopes : t'.scopes = t.scopes)
    (hf : ∀ row, t'.function? row = t.function? row) : Turns next t t' where
  orderly := by
    refine ⟨hscopes ▸ h.nested, fun row s hs => ?_⟩
    rw [hscopes]
    rcases hl.fresh row s hs with hs | rfl
    · exact h.placed row s hs
    · exact h.nested.current
  scopes := by rw [hscopes]
  seen s hs := by
    rw [currentScope, hscopes] at hs
    exact .inl hs
  places := hl.places
  kept row f hrow := ⟨f, (hf row).trans hrow, rfl⟩
  made row f hrow := .inl ⟨f, (hf row).symm.trans hrow, rfl⟩

theorem turns_rowFor (h : t.Orderly) (name : String) (kind : Lexical.TokenKind)
    (reuse : Meaning → Bool) : Turns next t (t.rowFor name kind reuse).2 :=
  .of_longer h (longer_rowFor t name kind reuse) (scopes_rowFor t name kind reuse)
    fun _ => function?_rowFor reuse

/-- A meaning that is no function is given to a row that stands for none. -/
theorem turns_setMeaning {m : Meaning} (h : t.Orderly) (hrow : t.function? row = none)
    (hm : m.function? = none) : Turns next t (t.setMeaning row m) :=
  .of_longer h (.of_eq fun _ => scope?_setMeaning) rfl fun _ => function?_setMeaning hrow hm

/-- **A function is put on a row** that stood for none, or for the same but for its value. -/
theorem turns_setFunction {f : FunctionInfo} (h : t.Orderly)
    (hkept : ∀ f₀, t.function? row = some f₀ → f.bare = f₀.bare)
    (hmade : t.function? row = none → f.start = next) :
    Turns next t (t.setMeaning row (.function f)) := by
  have hget : ∀ i, (t.setMeaning row (.function f)).function? i =
      if row = i then (t.meaning? i).map fun _ => f else t.function? i := by
    intro i
    rw [function?, meaning?_setMeaning]
    split
    · cases t.meaning? i <;> rfl
    · rfl
  exact
    { orderly := ⟨h.nested, fun i s hs => h.placed i s (scope?_setMeaning.symm.trans hs)⟩
      scopes := Nat.le_refl _
      seen := fun _ => .inl
      places := fun i s hs => scope?_setMeaning.trans hs
      kept := fun i f₀ hf₀ => by
        rw [hget]
        split
        · rename_i heq
          subst heq
          obtain ⟨m, hm, -⟩ := Option.bind_eq_some_iff.1 hf₀
          exact ⟨f, by rw [hm]; rfl, hkept f₀ hf₀⟩
        · exact ⟨f₀, hf₀, rfl⟩
      made := fun i f' hf' => by
        rw [hget] at hf'
        split at hf'
        · rename_i heq
          subst heq
          obtain ⟨m, hm, rfl⟩ := Option.map_eq_some_iff.1 hf'
          cases hrow : t.function? row with
          | none => exact .inr (hmade hrow)
          | some f₀ => exact .inl ⟨f₀, rfl, hkept f₀ hrow⟩
        · exact .inl ⟨f', hf', rfl⟩ }

theorem turns_enterScope (h : t.Orderly) (region : Region) : Turns next t (t.enterScope region) where
  orderly := by
    refine ⟨h.nested.enter, fun row s hs => ?_⟩
    have hlt := h.placed row s hs
    rw [enterScope, Scopes.size_enter]
    omega
  scopes := by
    rw [enterScope, Scopes.size_enter]
    exact Nat.le_succ _
  seen s hs := by
    rcases Scopes.mem_enclosing_enter h.nested hs with rfl | hs
    · exact .inr (Nat.le_refl _)
    · exact .inl hs
  places _ _ h := h
  kept _ f h := ⟨f, h, rfl⟩
  made _ f h := .inl ⟨f, h, rfl⟩

theorem turns_leaveScope (h : t.Orderly) : Turns next t t.leaveScope where
  orderly := by
    refine ⟨h.nested.leave, fun row s hs => ?_⟩
    rw [leaveScope, Scopes.size_leave]
    exact h.placed row s hs
  scopes := by
    rw [leaveScope, Scopes.size_leave]
  seen s hs := .inl (Scopes.mem_enclosing_leave h.nested hs)
  places _ _ h := h
  kept _ f h := ⟨f, h, rfl⟩
  made _ f h := .inl ⟨f, h, rfl⟩

theorem turns_retire (h : t.Orderly) (row : Nat) : Turns next t (t.retire row) :=
  .of_longer h (.of_eq fun _ => scope?_retire) rfl fun _ => function?_retire

end Turns

end SymbolTable

end OnePass.Names

namespace OnePass.Emission

open Grammar (Action)
open Names Target

/-- **A step of generation that keeps the table in order,** and makes no function. -/
def Turning {α : Type} (x : Emit α) : Prop :=
  ∀ g, g.symbols.Orderly → ∀ next, Ends x g fun _ g' => g.symbols.Turns next g'.symbols

section Turning

variable {α β : Type} {line row : Nat} {name : String}

theorem turning_pure (a : α) : Turning (pure a) := fun _ hg next =>
  (ends_pure a).2 (.refl hg next)

theorem turning_bind {x : Emit α} {f : α → Emit β} (hx : Turning x) (hf : ∀ a, Turning (f a)) :
    Turning (x >>= f) := fun g hg next =>
  ends_bind.2 ((hx g hg next).mono fun a g₁ h₁ =>
    (hf a g₁ h₁.orderly next).mono fun _ _ h₂ => h₁.trans h₂)

theorem turning_get : Turning get := fun _ hg next => ends_get.2 (.refl hg next)

theorem turning_modify {f : Generator → Generator}
    (h : ∀ (g : Generator) next, g.symbols.Orderly → g.symbols.Turns next (f g).symbols) :
    Turning (modify f) := fun g hg next => ends_modify.2 (h g next hg)

/-- A step that leaves the table alone. -/
theorem turning_of_eq {x : Emit α} (h : ∀ g, Ends x g fun _ g' => g'.symbols = g.symbols) :
    Turning x := fun g hg next => (h g).mono fun _ _ heq => by
  rw [heq]
  exact .refl hg next

theorem turning_onMemory {op : Memory → Except MemoryError (α × Memory)} :
    Turning (onMemory op) :=
  turning_of_eq fun _ => ends_onMemory.2 fun _ _ _ => rfl

theorem turning_report {fault : SemanticFault} : Turning (report line fault) :=
  turning_of_eq fun _ => ends_report.2 rfl

theorem turning_push {o : Operand} : Turning (push o) := turning_of_eq fun _ => ends_push.2 rfl

theorem turning_pop : Turning pop := turning_of_eq fun g => by
  rw [ends_pop]
  obtain ⟨st, hst⟩ := g.pop_frame
  rw [hst]

theorem turning_takeValue : Turning (takeValue line) := turning_of_eq fun g => by
  rw [ends_takeValue]
  obtain ⟨st, voids, errors, hst⟩ := g.takeValue_frame line
  rw [hst]

theorem turning_emit {i : Instruction} : Turning (emit i) :=
  turning_of_eq fun _ => ends_emit.2 fun _ => rfl

theorem turning_settle {slot : Option Nat} {i : Instruction} : Turning (settle slot i) := by
  cases slot with
  | none => exact turning_pure ()
  | some slot =>
    refine turning_bind turning_get fun g => ?_
    split
    · exact turning_onMemory
    · exact turning_pure ()

theorem turning_forM {γ : Type} {f : γ → Emit Unit} {items : List γ} (h : ∀ x, Turning (f x)) :
    Turning (items.forM f) := fun g hg next =>
  ends_forM (P := fun g' => g.symbols.Turns next g'.symbols) (.refl hg next)
    fun x _ g₁ h₁ => (h x g₁ h₁.orderly next).mono fun _ _ h₂ => h₁.trans h₂

theorem turning_bindFresh : Turning (bindFresh name) := fun g hg next => by
  simp only [bindFresh, ends_bind, ends_modifyGet, ends_modify, ends_pure, ends_onMemory]
  intro cell m _
  have hrow : SymbolTable.Turns next _ _ :=
    SymbolTable.turns_rowFor hg name .identifier Meaning.isVariable
  have hnone := SymbolTable.function?_rowFor_isVariable g.symbols name .identifier
  exact hrow.trans (SymbolTable.turns_setMeaning hrow.orderly hnone rfl)

theorem turning_holdSlot : Turning holdSlot :=
  turning_bind turning_onMemory fun _ => turning_bind turning_push fun _ =>
    turning_modify fun _ _ hg => .refl hg _

theorem turning_heldSlot : Turning heldSlot :=
  turning_bind (turning_modify fun _ _ hg => .refl hg _) fun _ =>
    turning_bind turning_pop fun _ => turning_pure _

theorem turning_settleCondition {distance : Nat} : Turning (settleCondition distance) :=
  turning_bind turning_heldSlot fun _ => turning_bind turning_pop fun _ =>
    turning_bind turning_get fun _ => turning_settle

theorem turning_endElse : Turning endElse :=
  turning_bind turning_heldSlot fun _ => turning_bind turning_get fun _ => turning_settle

theorem turning_settleLoop {slot : Option Nat} {condition : Operand} {closed : ClosedLoop} :
    Turning (settleLoop slot condition closed) :=
  turning_bind turning_emit fun _ => turning_bind turning_get fun _ =>
    turning_bind turning_settle fun _ => turning_bind (turning_forM fun _ => turning_settle) fun _ =>
      turning_forM fun _ => turning_settle

theorem turning_emitReturn {info : FunctionInfo} {value : Operand} :
    Turning (emitReturn info value) :=
  turning_bind turning_emit fun _ => turning_emit

theorem turning_leaveScope : Turning (modify (·.leaveScope)) :=
  turning_modify fun _ _ hg => SymbolTable.turns_leaveScope hg

/-- The row of the loops stands for no function. -/
theorem ends_loopRecord_turning {g : Generator} (hg : g.symbols.Orderly) (next : Nat) :
    Ends loopRecord g fun found g' => g.symbols.Turns next g'.symbols ∧
      g'.symbols.function? found.1 = none := by
  simp only [loopRecord, ends_bind, ends_get]
  split
  · exact ends_defect
  · rename_i row _
    split
    · rename_i record hm
      exact (ends_pure _).2 ⟨.refl hg next, by rw [SymbolTable.function?, hm]; rfl⟩
    · rename_i cell hm
      have hnone : g.symbols.function? row = none := by
        rw [SymbolTable.function?, hm]
        rfl
      rw [ends_bind, ends_modify, ends_pure]
      exact ⟨SymbolTable.turns_setMeaning hg hnone rfl,
        (SymbolTable.function?_setMeaning hnone rfl).trans hnone⟩
    · exact ends_defect

/-- The record of the loops is changed, and then something else is done. -/
theorem turning_record (change : LoopRecord → LoopRecord) {x : Emit Unit} (hx : Turning x) :
    Turning (do
      let (row, record) ← loopRecord
      modify (·.setMeaning row (.loops (change record)))
      x) := fun g hg next => by
  rw [ends_bind]
  refine (ends_loopRecord_turning hg next).mono ?_
  rintro ⟨row, record⟩ g₁ ⟨hturns, hnone⟩
  rw [ends_bind, ends_modify]
  have hset : SymbolTable.Turns next _ _ :=
    SymbolTable.turns_setMeaning (m := .loops (change record)) hturns.orderly hnone rfl
  exact (hx _ hset.orderly next).mono fun _ _ h => (hturns.trans hset).trans h

theorem turning_startLoop : Turning startLoop :=
  turning_bind turning_get fun g => turning_record (·.enter g.programNext)
    (turning_modify fun _ _ hg => SymbolTable.turns_enterScope hg .loop)

theorem turning_leaveLoop {outside : SemanticFault} {add : LoopRecord → Nat → LoopRecord} :
    Turning (leaveLoop line outside add) := by
  refine turning_bind turning_get fun g => ?_
  split
  · exact turning_bind turning_onMemory fun slot =>
      turning_record (add · slot) (turning_pure ())
  · exact turning_report

theorem turning_endLoop : Turning endLoop := by
  refine turning_bind turning_heldSlot fun slot => turning_bind turning_pop fun condition => ?_
  intro g hg next
  rw [ends_bind]
  refine (ends_loopRecord_turning hg next).mono ?_
  rintro ⟨row, record⟩ g₁ ⟨hturns, hnone⟩
  dsimp only
  split
  · rename_i closed outer _
    rw [ends_bind, ends_modify, ends_bind]
    have hset : SymbolTable.Turns next _ _ :=
      SymbolTable.turns_setMeaning (m := .loops outer) hturns.orderly hnone rfl
    refine (turning_settleLoop _ hset.orderly next).mono fun _ g₂ h₂ => ?_
    exact (turning_leaveScope g₂ h₂.orderly next).mono fun _ _ h₃ =>
      ((hturns.trans hset).trans h₂).trans h₃
  · exact (turning_leaveScope g₁ hturns.orderly next).mono fun _ _ h => hturns.trans h

theorem turning_startFunction : Turning (startFunction name) := by
  refine turning_bind turning_onMemory fun _ => turning_bind turning_onMemory fun _ =>
    turning_bind turning_onMemory fun _ => ?_
  refine turning_bind (fun g hg next => ends_modifyGet.2 ?_) fun row =>
    turning_bind turning_get fun _ =>
      turning_bind (turning_modify fun _ _ hg => SymbolTable.turns_enterScope hg (.body row))
        fun _ => turning_modify fun _ _ hg => .refl hg _
  exact SymbolTable.turns_rowFor hg name .identifier _

theorem turning_addParameter : Turning (addParameter name) :=
  turning_bind turning_bindFresh fun _ => turning_modify fun _ _ hg => .refl hg _

theorem turning_returningFrom : Turning returningFrom := by
  refine turning_bind turning_get fun g => ?_
  split
  · exact turning_pure _
  · split
    · exact turning_bind (turning_modify fun _ _ hg => .refl hg _) fun _ => turning_pure _
    · exact turning_pure _

theorem turning_functionOn : Turning (functionOn row) :=
  turning_of_eq fun _ => ends_functionOn.mono fun _ _ h => by rw [h.1]

theorem turning_returnNothing : Turning returnNothing := by
  refine turning_bind turning_returningFrom fun row? => ?_
  split
  · exact turning_pure ()
  · exact turning_bind turning_functionOn fun _ => turning_emit

/-- **A return with a value** only says of its function that it returns one. -/
theorem turning_returnWith : Turning (returnWith line) := by
  refine turning_bind turning_takeValue fun value => turning_bind turning_returningFrom fun row? => ?_
  split
  · exact turning_pure ()
  · rename_i row
    intro g hg next
    rw [ends_bind]
    refine ends_functionOn.mono ?_
    rintro info g₁ ⟨rfl, hinfo⟩
    rw [ends_bind]
    refine ends_emitReturn_eq.mono ?_
    rintro _ g₂ rfl
    refine ends_modify.2 (SymbolTable.turns_setFunction hg (fun f hf => ?_) fun hnone => ?_)
    · rw [hinfo] at hf
      obtain rfl := Option.some.inj hf
      rfl
    · rw [hinfo] at hnone
      cases hnone

theorem turning_retireRivals : Turning (retireRivals line) := by
  refine turning_bind turning_get fun g => ?_
  split
  · exact turning_pure ()
  · exact turning_bind (turning_modify fun _ _ hg => .refl hg _) fun _ =>
      turning_forM fun other => turning_bind turning_report fun _ =>
        turning_modify fun _ _ hg => SymbolTable.turns_retire hg other

/-- **Publishing makes one function,** which begins at the next slot. -/
theorem turns_publish {g : Generator} (hg : g.symbols.Orderly) : Ends publish g fun _ g' =>
    g.symbols.Turns g.programNext g'.symbols := by
  simp only [publish, ends_bind, ends_get]
  split
  · exact (ends_pure ()).2 (.refl hg _)
  · split
    · exact (ends_pure ()).2 (.refl hg _)
    · rename_i d _ _ _ info _
      simp only [ends_bind, ends_modify, giveMeaning, ends_get]
      split
      · exact (ends_pure ()).2 (.refl hg _)
      · rename_i current hm
        rcases current with cell | f | record
        · simp only [Meaning.becomeFunction, Meaning.isVariable, if_true, ends_modify]
          have hnone : g.symbols.function? d.row = none := by
            rw [SymbolTable.function?]
            exact (congrArg (·.bind Meaning.function?) hm).trans rfl
          refine SymbolTable.turns_setFunction hg (fun f hf => ?_) fun _ => rfl
          rw [hnone] at hf
          cases hf
        · exact ends_defect
        · exact ends_defect

theorem turns_endFunction {g : Generator} (hg : g.symbols.Orderly) : Ends endFunction g fun _ g' =>
    g.symbols.Turns g.programNext g'.symbols := by
  rw [endFunction, ends_bind]
  refine (turns_publish hg).mono fun _ g₁ h₁ => ?_
  refine Ends.mono (?_ : Ends _ g₁ fun _ g' => g₁.symbols.Turns g.programNext g'.symbols)
    fun _ _ h => h₁.trans h
  refine turning_bind turning_get (fun g₂ => ?_) g₁ h₁.orderly g.programNext
  split
  · exact turning_pure ()
  · rename_i d rest _
    have hclose : Turning (do
        settle (some d.aroundSlot) (.jump (← get).programNext)
        modify (·.leaveScope)
        modify ({ · with lastDefined := some d.row })) :=
      turning_bind turning_get fun _ => turning_bind turning_settle fun _ =>
        turning_bind turning_leaveScope fun _ => turning_modify fun _ _ hg => .refl hg _
    refine turning_bind (turning_modify fun _ _ hg => .refl hg _) fun _ => ?_
    dsimp only
    split
    · exact turning_bind turning_functionOn fun _ => turning_bind turning_emitReturn fun _ => hclose
    · exact hclose

end Turning

/-- **Whatever an action does,** it keeps the table in order, and makes no function but at the next
slot. -/
theorem turns_perform {E : Setting} {a : Action} {lexeme : String} {line : Nat} {g : Generator}
    (hg : g.symbols.Orderly) (hn : a.behind? = some .identifier → E.Bindable lexeme) :
    Ends (perform a lexeme line) g fun _ g' => g.symbols.Turns g.programNext g'.symbols := by
  by_cases ha : Computes a = true
  · exact (hushes_perform ha hn g).mono fun _ _ h => .of_longer hg h.rows h.scopes h.functions
  cases a with
  | save => exact turning_holdSlot g hg _
  | falseJump => exact turning_settleCondition g hg _
  | falseJumpSave => exact turning_bind turning_settleCondition (fun _ => turning_holdSlot) g hg _
  | jump => exact turning_endElse g hg _
  | loopBegin => exact turning_startLoop g hg _
  | loopEnd => exact turning_endLoop g hg _
  | breakLoop => exact turning_leaveLoop g hg _
  | continueLoop => exact turning_leaveLoop g hg _
  | enterFunction => exact turning_startFunction g hg _
  | param => exact turning_addParameter g hg _
  | paramsDone => exact turns_publish hg
  | returnValue => exact turning_returnWith g hg _
  | returnVoid => exact turning_returnNothing g hg _
  | exitFunction => exact turns_endFunction hg
  | checkOverload => exact turning_retireRivals g hg _
  | _ => exact absurd rfl ha

/-- **A state that comes after another one.** The program has only grown since, and functions that
were made since begin in what is new. -/
structure Later (g g' : Generator) : Prop where
  scopes : g.symbols.scopes.all.size ≤ g'.symbols.scopes.all.size
  seen : ∀ s ∈ g'.symbols.scopes.enclosing g'.currentScope,
    s ∈ g.symbols.scopes.enclosing g.currentScope ∨ g.symbols.scopes.all.size ≤ s
  places : ∀ row s, g.symbols.scope? row = some s → g'.symbols.scope? row = some s
  kept : ∀ row f, g.symbols.function? row = some f →
    ∃ f', g'.symbols.function? row = some f' ∧ f'.bare = f.bare
  made : ∀ row f', g'.symbols.function? row = some f' →
    (∃ f, g.symbols.function? row = some f ∧ f'.bare = f.bare) ∨
      (g.programNext ≤ f'.start ∧ f'.start ≤ g'.programNext)
  program : g.programNext ≤ g'.programNext

section Later

variable {g g' g'' : Generator}

theorem Later.refl (g : Generator) : Later g g :=
  ⟨Nat.le_refl _, fun _ => .inl, fun _ _ h => h, fun _ f h => ⟨f, h, rfl⟩,
    fun _ f h => .inl ⟨f, h, rfl⟩, Nat.le_refl _⟩

theorem Later.of_turns (h : g.symbols.Turns g.programNext g'.symbols)
    (hprogram : g.programNext ≤ g'.programNext) : Later g g' where
  scopes := h.scopes
  seen := h.seen
  places := h.places
  kept := h.kept
  made row f hf := (h.made row f hf).imp_right fun hs =>
    ⟨Nat.le_of_eq hs.symm, Nat.le_trans (Nat.le_of_eq hs) hprogram⟩
  program := hprogram

theorem Later.trans (h : Later g g') (h' : Later g' g'') : Later g g'' where
  scopes := Nat.le_trans h.scopes h'.scopes
  seen s hs := by
    rcases h'.seen s hs with hs | hs
    · exact h.seen s hs
    · exact .inr (Nat.le_trans h.scopes hs)
  places row s hs := h'.places row s (h.places row s hs)
  kept row f hf := by
    obtain ⟨f', hf', hbare⟩ := h.kept row f hf
    obtain ⟨f'', hf'', hbare'⟩ := h'.kept row f' hf'
    exact ⟨f'', hf'', hbare'.trans hbare⟩
  made row f hf := by
    rcases h'.made row f hf with ⟨f', hf', hbare'⟩ | ⟨hle, hend⟩
    · refine (h.made row f' hf').imp ?_ fun ⟨hle, hend⟩ => ?_
      · rintro ⟨f₀, hf₀, hbare⟩
        exact ⟨f₀, hf₀, hbare'.trans hbare⟩
      · have hsame : f.bare.start = f'.bare.start := congrArg FunctionInfo.start hbare'
        rw [FunctionInfo.start_bare, FunctionInfo.start_bare] at hsame
        rw [hsame]
        exact ⟨hle, Nat.le_trans hend h'.program⟩
    · exact .inr ⟨Nat.le_trans h.program hle, hend⟩
  program := Nat.le_trans h.program h'.program

/-- **What can be called later** could be called before, or begins in what is new. -/
theorem Later.visible (h : Later g g') (hg : g.symbols.Orderly) {f' : FunctionInfo}
    (hv : g'.symbols.Visible f') :
    (∃ f, g.symbols.Visible f ∧ f'.bare = f.bare) ∨ g.programNext ≤ f'.start := by
  obtain ⟨row, s, hrow, hs, hmem⟩ := hv
  refine (h.made row f' hrow).imp ?_ And.left
  rintro ⟨f, hf, hbare⟩
  obtain ⟨s₀, hs₀⟩ := SymbolTable.exists_scope? hf
  obtain rfl : s₀ = s := Option.some.inj ((h.places row s₀ hs₀).symm.trans hs)
  rcases h.seen s₀ hmem with hmem | hle
  · exact ⟨f, ⟨row, s₀, hf, hs₀, hmem⟩, hbare⟩
  · exact absurd (hg.placed row s₀ hs₀) (Nat.not_lt.2 hle)

end Later

end OnePass.Emission
