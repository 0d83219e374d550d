import OnePass.Proofs.Emission.Histories
import OnePass.Proofs.Emission.Ranks

/-!
# Temporaries that operands name

Variable cells lie below all temporaries, whatever is asked of code generation. So the operands
that name temporaries are those that were pushed with a temporary of their own; along any history
they lie upon one another, and what is handed out next lies above them all.

* `Zoned`: a state whose variable cells lie below the temporaries. `Change.zoned`.
* `Ranked.nodup`: operands whose temporaries lie upon one another name each of them once.
* `operands_apart`: **no temporary is handed out that an operand names.**
-/

namespace OnePass

open Names Target

/-- **Variable cells below the temporaries** are all that a memory image gives out. -/
structure Target.Memory.Zoned (c : Config) (m : Memory) : Prop where
  unit : m.unit = c.unit
  tempsFrom : m.tempsFrom = c.tempsFrom
  spare : ∀ a ∈ m.spareCells, a < c.tempsFrom

namespace Target.Memory.Zoned

variable {c : Config} {m m' : Memory} {a : Nat}

theorem takeNextCell (h : m.Zoned c) (hu : 0 < c.unit) (ht : m.takeNextCell = .ok (a, m')) :
    a < c.tempsFrom ∧ m'.Zoned c := by
  have hunit := h.unit
  have hfrom := h.tempsFrom
  rw [Memory.takeNextCell_eq] at ht
  split at ht
  · cases ht
  · cases ht
    exact ⟨by omega, h.unit, h.tempsFrom, h.spare⟩

theorem takeCell (h : m.Zoned c) (hu : 0 < c.unit) (ht : m.takeCell = .ok (a, m')) :
    a < c.tempsFrom ∧ m'.Zoned c := by
  rw [Memory.takeCell_eq] at ht
  split at ht
  · rename_i cell rest hs
    cases ht
    have hspare := h.spare
    rw [hs, List.forall_mem_cons] at hspare
    exact ⟨hspare.1, h.unit, h.tempsFrom, hspare.2⟩
  · exact h.takeNextCell hu ht

theorem freeCells {cells : List Nat} (h : m.Zoned c) (hcells : ∀ a ∈ cells, a < c.tempsFrom) :
    (cells.foldl Memory.freeCell m).Zoned c := by
  induction cells generalizing m with
  | nil => exact h
  | cons a cells ih =>
    rw [List.forall_mem_cons] at hcells
    refine ih ?_ hcells.2
    unfold Memory.freeCell
    split
    · exact h
    · exact ⟨h.unit, h.tempsFrom, List.forall_mem_cons.2 ⟨hcells.1, h.spare⟩⟩

end Target.Memory.Zoned

namespace Emission

variable {c : Config} {g g' : Generator} {row : Nat} {m : Meaning}

/-- **A state whose variable cells lie below the temporaries:** those of variables and of functions,
on their rows or with their parameters being read. -/
structure Zoned (c : Config) (g : Generator) : Prop where
  memory : g.memory.Zoned c
  cells : ∀ row a, g.symbols.cell? row = some a → a < c.tempsFrom
  functions : ∀ row f, g.symbols.function? row = some f → ∀ a ∈ f.cells, a < c.tempsFrom
  headers : ∀ d ∈ g.definitions, ∀ f, d.header = some f → ∀ a ∈ f.cells, a < c.tempsFrom

namespace Zoned

theorem setMeaning (h : Zoned c g) (hv : ∀ a, m.cell? = some a → a < c.tempsFrom)
    (hf : ∀ f, m.function? = some f → ∀ a ∈ f.cells, a < c.tempsFrom) :
    Zoned c (g.setMeaning row m) where
  memory := h.memory
  cells i a hi := by
    change (g.symbols.setMeaning row m).cell? i = some a at hi
    rw [SymbolTable.cell?, SymbolTable.meaning?_setMeaning] at hi
    split at hi
    · obtain ⟨_, hm, ha⟩ := Option.bind_eq_some_iff.1 hi
      obtain ⟨_, -, rfl⟩ := Option.map_eq_some_iff.1 hm
      exact hv a ha
    · exact h.cells i a hi
  functions i f hi := by
    change (g.symbols.setMeaning row m).function? i = some f at hi
    rw [SymbolTable.function?, SymbolTable.meaning?_setMeaning] at hi
    split at hi
    · obtain ⟨_, hm, ha⟩ := Option.bind_eq_some_iff.1 hi
      obtain ⟨_, -, rfl⟩ := Option.map_eq_some_iff.1 hm
      exact hf f ha
    · exact h.functions i f hi
  headers := h.headers

/-- A variable's row means a cell below the temporaries. -/
theorem setVariable {a : Nat} (h : Zoned c g) (ha : a < c.tempsFrom) :
    Zoned c (g.setMeaning row (.variable (some a))) :=
  h.setMeaning (fun _ hb => Option.some.inj hb ▸ ha) fun _ hf => by cases hf

theorem setFunction {f : FunctionInfo} (h : Zoned c g) (hf : ∀ a ∈ f.cells, a < c.tempsFrom) :
    Zoned c (g.setMeaning row (.function f)) :=
  h.setMeaning (fun _ hb => by cases hb) fun _ hf' => Option.some.inj hf' ▸ hf

/-- The innermost definition changes. -/
theorem mapDefinition {f : Definition → Definition} (h : Zoned c g)
    (hf : ∀ d ∈ g.definitions, ∀ info, (f d).header = some info →
      ∀ a ∈ info.cells, a < c.tempsFrom) : Zoned c (g.mapDefinition f) where
  memory := h.memory
  cells := h.cells
  functions := h.functions
  headers d hd := by
    unfold Generator.mapDefinition at hd
    cases hdefs : g.definitions with
    | nil =>
      rw [hdefs] at hd
      exact absurd hd List.not_mem_nil
    | cons innermost rest =>
      rw [hdefs, List.mem_cons] at hd
      rcases hd with rfl | hd
      · exact hf innermost (hdefs ▸ List.mem_cons_self)
      · exact h.headers d (hdefs ▸ List.mem_cons_of_mem _ hd)

end Zoned

/-- **Every change leaves variable cells below the temporaries.** -/
theorem Change.zoned {x : String} (h : Change x g g') (hu : 0 < c.unit) (hz : Zoned c g) :
    Zoned c g' := by
  cases h with
  | aside h =>
    refine ⟨?_, ?_, ?_, fun d hd f hf => ?_⟩
    · rw [h.memory]
      exact ⟨hz.memory.unit, hz.memory.tempsFrom, hz.memory.spare⟩
    · rw [h.symbols]
      exact hz.cells
    · rw [h.symbols]
      exact hz.functions
    · have hmem := List.mem_map_of_mem (f := fun d : Definition => (d.row, d.header)) hd
      rw [h.definitions] at hmem
      obtain ⟨d₀, hd₀, heq⟩ := List.mem_map.1 hmem
      exact hz.headers d₀ hd₀ f ((congrArg Prod.snd heq).trans hf)
  | appendRow kind =>
    refine ⟨hz.memory, fun i a hi => ?_, fun i f hi => ?_, hz.headers⟩
    · exact hz.cells i a (SymbolTable.cell?_appendRow.symm.trans hi)
    · exact hz.functions i f (SymbolTable.function?_appendRow.symm.trans hi)
  | enterScope region => exact ⟨hz.memory, hz.cells, hz.functions, hz.headers⟩
  | leaveScope => exact ⟨hz.memory, hz.cells, hz.functions, hz.headers⟩
  | takeCell ht => exact { hz with memory := (hz.memory.takeCell hu ht).2 }
  | takeNextCell ht => exact { hz with memory := (hz.memory.takeNextCell hu ht).2 }
  | bind _ _ ht =>
    obtain ⟨ha, hm⟩ := hz.memory.takeCell hu ht
    exact Zoned.setVariable { hz with memory := hm } ha
  | bindTo _ _ hcell => exact hz.setVariable (hz.cells _ _ hcell)
  | recordLoops record _ _ => exact hz.setMeaning (fun _ hb => by cases hb) fun _ hf => by cases hf
  | openHeader _ _ ht ht' hd =>
    obtain ⟨hresult, hm⟩ := hz.memory.takeCell hu ht
    obtain ⟨hreturn, hm'⟩ := hm.takeCell hu ht'
    refine { hz with memory := hm', headers := List.forall_mem_cons.2 ⟨fun f hf => ?_, hz.headers⟩ }
    rw [hd, Option.some_inj] at hf
    subst hf
    simp only [FunctionInfo.cells, FunctionInfo.fresh, List.nil_append, List.forall_mem_cons]
    exact ⟨hresult, hreturn, fun _ ha => absurd ha List.not_mem_nil⟩
  | addParam hcell =>
    refine hz.mapDefinition fun d hd info hinfo a ha => ?_
    obtain ⟨f, hf, rfl⟩ := Option.map_eq_some_iff.1 hinfo
    have hcells := hz.headers d hd f hf
    simp only [FunctionInfo.cells, List.mem_append, List.mem_singleton] at ha hcells
    rcases ha with (ha | rfl) | ha
    · exact hcells a (.inl ha)
    · exact hz.cells _ _ hcell
    · exact hcells a (.inr ha)
  | dropHeader => exact hz.mapDefinition fun d hd info hinfo => by cases hinfo
  | publish start hd hi hv =>
    have hcells := hz.headers _ (hd ▸ List.mem_cons_self) _ hi
    exact Zoned.setFunction (hz.mapDefinition fun d hd info hinfo => by cases hinfo) hcells
  | noteValue hf =>
    have hcells := hz.functions _ _ hf
    exact hz.setFunction hcells
  | closeDefinition hd =>
    exact { hz with headers := fun d hmem => hz.headers d (hd ▸ List.mem_cons_of_mem _ hmem) }
  | @retire row hf =>
    -- only the cells of the function that is retired are handed back
    refine ⟨hz.memory.freeCells fun a ha => ?_, fun i a hi => ?_, fun i f hi => ?_, hz.headers⟩
    · obtain ⟨f, hf⟩ := Option.isSome_iff_exists.1 hf
      rw [hf] at ha
      exact hz.functions row f hf a ha
    · exact hz.cells i a (SymbolTable.cell?_retire.symm.trans hi)
    · exact hz.functions i f (SymbolTable.function?_retire.symm.trans hi)

section Histories

variable {first unit next : Nat} {st : OperandStack}

/-- **Operands whose temporaries lie upon one another** name each of them once. -/
theorem Ranked.nodup (h : Ranked first unit next st) (hunit : 0 < unit) {p : Operand → Bool}
    (hp : ∀ o, p o = true → o.mode ≠ .immediate ∧ first ≤ o.value) :
    ((st.filter p).map (·.value)).Nodup := by
  induction h with
  | nil => exact List.nodup_nil
  | @low _ o _ ho _ ih =>
    have hout : ¬p o = true := fun hpo => by
      obtain ⟨hmode, hle⟩ := hp o hpo
      rcases ho with ho | ho
      · exact hmode ho
      · omega
    rw [List.filter_cons_of_neg hout]
    exact ih
  | @temp _ a o _ ho hfirst _ h ih =>
    -- all that lie below name smaller cells
    by_cases hpo : p o = true
    · rw [List.filter_cons_of_pos hpo, List.map_cons, List.nodup_cons]
      refine ⟨fun hmem => ?_, ih⟩
      obtain ⟨o', ho', heq⟩ := List.mem_map.1 hmem
      obtain ⟨hmem', hpo'⟩ := List.mem_filter.1 ho'
      have hlt := h.lt hunit hfirst o' hmem' (hp o' hpo').1
      omega
    · rw [List.filter_cons_of_neg hpo]
      exact ih

theorem zoned_ofConfig (c : Config) : Zoned c (.ofConfig c) := by
  refine ⟨⟨rfl, rfl, fun _ ha => absurd ha List.not_mem_nil⟩, fun row a h => ?_, fun row f h => ?_,
    fun _ hd => absurd hd List.not_mem_nil⟩
  · cases (SymbolTable.cell?_ofKeywords c.keywords row).symm.trans h
  · cases (SymbolTable.function?_ofKeywords c.keywords row).symm.trans h

theorem heaped_ofConfig (c : Config) : Heaped c (.ofConfig c) :=
  ⟨c.tempsFrom, Nat.le_refl _, rfl, rfl, rfl, .nil, Nat.le_refl _⟩

theorem Changes.zoned {x : String} (h : Changes x g g') (hu : 0 < c.unit) (hz : Zoned c g) :
    Zoned c g' := by
  induction h with
  | refl => exact hz
  | tail _ hlast ih => exact hlast.zoned hu ih

/-- Ending the program takes no temporary. -/
theorem preserves_callMain {limit used line : Nat} :
    Preserves (Under c limit used) (callMain line) := by
  refine preserves_bind preserves_get fun g => ?_
  split
  · exact preserves_bind preserves_functionOn fun info => preserves_jumpInto
  · exact preserves_report

variable (hu : 0 < c.unit) (hsmall : c.capacity ≤ 2 ^ 63)
include hu hsmall

/-- **Every demand leaves operands upon one another,** and variable cells below the temporaries. -/
theorem heaped_demand (hfrom : c.tempsFrom ≤ 2 ^ 63) (d : Demand)
    (h : Heaped c g ∧ Zoned c g) :
    Heaped c (stateAfter d.step g) ∧ Zoned c (stateAfter d.step g) := by
  obtain ⟨hheaped, hz⟩ := h
  obtain ⟨x, hchanges⟩ := changes_demand d g
  refine ⟨?_, hchanges.zoned hu hz⟩
  cases d with
  | perform r =>
    have hcell (row : Option Nat) (cell : Nat) (h : row.bind g.symbols.cell? = some cell) :
        cell < c.tempsFrom := by
      obtain ⟨row, -, hrow⟩ := Option.bind_eq_some_iff.1 h
      exact hz.cells row cell hrow
    have hfound (name : String) (cell : Nat)
        (h : g.readCell? name = some cell ∨ g.ownCell? name = some cell) : cell < c.tempsFrom := by
      rcases h with h | h
      · exact hcell _ cell h
      · obtain ⟨s, -, hs⟩ := List.exists_of_findSome?_eq_some h
        exact hcell _ cell hs
    exact (hheaped.perform hu hsmall hfrom hfound
      (fun cell m h => (hz.memory.takeCell hu h).1) r.lexeme).stateAfter
  | register word kind =>
    obtain ⟨limit, hlimit, hunder⟩ := hheaped
    exact ⟨limit, hlimit, hunder.aside (List.Sublist.refl _) rfl⟩
  | finish line =>
    obtain ⟨limit, hlimit, hunder⟩ := hheaped
    exact (preserves_callMain.heaps hlimit hunder).stateAfter

end Histories

/-- The operands that name a cell in the zone of the temporaries. -/
def Generator.temporaries (g : Generator) : OperandStack :=
  g.stack.filter fun o => o.mode != .immediate && g.memory.inTempZone o.value

/-- **No temporary is handed out that an operand names.** Along every history of a configuration
whose addresses are words, in every state, failures included: the operands that name temporaries
name different ones, all below the next, and neither that one nor any that an action takes from
there is named by an operand that the stack still holds. -/
theorem operands_apart (c : Config) (demands : List Demand) (hc : c.validate = .ok ())
    (hsmall : c.capacity ≤ 2 ^ 63) :
    ∀ g ∈ states (.ofConfig c) (demands.map Demand.step),
      (g.temporaries.map (·.value)).Nodup ∧
      (∀ o ∈ g.temporaries, o.value < g.memory.tempNext) ∧
      ∀ o ∈ g.stack, o.mode ≠ .immediate →
        (∀ cell m, g.memory.takeTemp = .ok (cell, m) → o.value ≠ cell) ∧
        ∀ (r : Request) (cell : Nat), Takes r.action g (stateAfter r.step g) cell →
          o.value ≠ cell := by
  obtain ⟨hu, hle⟩ := c.validate_eq_ok_iff.1 hc
  have hkept : ∀ g ∈ states (.ofConfig c) (demands.map Demand.step), Heaped c g ∧ Zoned c g := by
    refine forall_mem_states (I := fun g => Heaped c g ∧ Zoned c g) (fun x hx g hg => ?_)
      ⟨heaped_ofConfig c, zoned_ofConfig c⟩
    obtain ⟨d, -, rfl⟩ := List.mem_map.1 hx
    exact heaped_demand hu hsmall (Nat.le_trans hle hsmall) d hg
  intro g hg
  obtain ⟨⟨limit, hlimit, hunder⟩, -⟩ := hkept g hg
  have hbelow (o : Operand) (ho : o ∈ g.stack) (hmode : o.mode ≠ .immediate) :
      o.value < g.memory.tempNext := by
    have := hunder.ranked.lt hu hlimit o ho hmode
    have := hunder.used
    omega
  refine ⟨hunder.ranked.nodup hu fun o ho => ?_, fun o ho => ?_, fun o ho hmode => ⟨?_, ?_⟩⟩
  · rw [Bool.and_eq_true, bne_iff_ne, Memory.inTempZone, Bool.and_eq_true, decide_eq_true_eq,
      hunder.tempsFrom] at ho
    exact ⟨ho.1, ho.2.1⟩
  · obtain ⟨hmem, hp⟩ := List.mem_filter.1 ho
    rw [Bool.and_eq_true, bne_iff_ne] at hp
    exact hbelow o hmem hp.1
  · intro cell m hcell
    have hlt := hbelow o ho hmode
    rw [Memory.takeTemp_eq] at hcell
    split at hcell
    · cases hcell
    · cases hcell
      omega
  · rintro r cell ⟨⟨k, rfl⟩, -⟩
    have hlt := hbelow o ho hmode
    have : 0 ≤ k * g.memory.unit := Nat.zero_le _
    omega

/-- With room for three temporaries: a sum, a difference, and a power that finds the zone full when
it has taken the operands. -/
theorem operands_apart_in_small_zone :
    let c : Config := ⟨4, 100, 400, 512, [], false⟩
    let demands : List Demand := [.perform ⟨.pushNumber, "1", 1⟩, .perform ⟨.pushNumber, "2", 1⟩,
      .perform ⟨.add, "", 1⟩, .register "x" .identifier, .perform ⟨.pushId, "x", 2⟩,
      .perform ⟨.pushNumber, "2", 2⟩, .perform ⟨.sub, "", 2⟩, .perform ⟨.pushNumber, "2", 3⟩,
      .perform ⟨.power, "", 3⟩, .finish 4]
    c.validate = .ok () ∧ c.capacity ≤ 2 ^ 63 ∧
      ((states (.ofConfig c) (demands.map Demand.step)).map fun g => g.temporaries.map (·.value)) =
        [[], [], [], [500], [500], [500], [500], [504, 500], [504, 500], [500], [500]] ∧
      ∀ g ∈ states (.ofConfig c) (demands.map Demand.step),
        (g.temporaries.map (·.value)).Nodup ∧ ∀ o ∈ g.temporaries, o.value < g.memory.tempNext := by
  intro c demands
  have hc : c.validate = .ok () := rfl
  have hsmall : c.capacity ≤ 2 ^ 63 := by decide
  refine ⟨hc, hsmall, by decide +kernel, fun g hg => ?_⟩
  obtain ⟨hnodup, hlt, -⟩ := operands_apart c demands hc hsmall g hg
  exact ⟨hnodup, hlt⟩

end Emission

end OnePass
