import OnePass.Proofs.Emission.Owning

/-!
# The cells in use

The cells of functions, of variables in sight and of list items, each counted for its
owner: a parameter's cell for its function, and that of a global name for the variable of
the outermost scope. Where cells have one owner no cell is counted twice.

* `Generator.functions`, `Generator.inSight`: functions and variables, with their rows.
* `Generator.usedCells`: **the cells in use,** by their owners.
* `Apart`: no two owners share a cell, and none that is free. `Kept.apart`.
-/

namespace OnePass.Emission

open Grammar (Layer)
open Names Target

namespace Generator

variable (g : Generator) (globals items : List Nat)

/-- **The functions of the program** with their rows: those that have not been retired, and the one
whose parameters are being read. -/
def functions : List (Nat × FunctionInfo) :=
  ((List.range g.symbols.rows.size).filterMap fun row =>
    if (g.symbols.rows[row]?).any Row.isRetired then none
    else (g.symbols.function? row).map (row, ·)) ++
      g.definitions.filterMap fun d => d.header.map (d.row, ·)

/-- **The variables in sight** with their rows and cells. -/
def inSight : List (Nat × Nat) :=
  (List.range g.symbols.rows.size).filterMap fun row =>
    if (g.symbols.scope? row).any (g.symbols.scopes.enclosing g.currentScope).contains then
      (g.symbols.cell? row).map (row, ·)
    else none

/-- Whether a variable is a parameter of the function in whose body it stands. -/
def isParameter (v : Nat × Nat) : Bool :=
  g.functions.any fun f => f.2.params.contains v.2 &&
    (g.symbols.scope? v.1).bind g.symbols.scopes.region? == some (.body f.1)

/-- **The variables that own their cells:** those in sight that are neither parameters nor bound to
global names. -/
def owners : List (Nat × Nat) :=
  g.inSight.filter fun v => !globals.contains v.1 && !g.isParameter v

/-- **The cells in use:** those of functions, of variables and of list items. -/
def usedCells : List Nat :=
  g.functions.flatMap (·.2.cells) ++ (g.owners globals).map (·.2) ++ items

end Generator

variable {c : Config} {globals items : List Nat} {layers : List Layer} {g g' : Generator}
  {row a : Nat} {name : String} {f : FunctionInfo}

theorem mem_functions : (row, f) ∈ g.functions ↔ g.Has row f := by
  unfold Generator.functions Generator.Has
  rw [List.mem_append, List.mem_filterMap, List.mem_filterMap]
  refine or_congr ⟨?_, ?_⟩ ⟨?_, ?_⟩
  · rintro ⟨i, -, h⟩
    split at h
    · cases h
    · rename_i hlive
      obtain ⟨f', hf, heq⟩ := Option.map_eq_some_iff.1 h
      cases heq
      obtain ⟨r, hr⟩ : ∃ r, g.symbols.rows[row]? = some r :=
        ⟨_, Array.getElem?_eq_getElem (SymbolTable.lt_of_function? hf)⟩
      rw [hr, Option.any_some, Bool.not_eq_true] at hlive
      exact ⟨hf, r.name, by rw [SymbolTable.name?, hr]; rfl, hlive⟩
  · rintro ⟨hf, n, hn, hu⟩
    obtain ⟨r, hr, rfl⟩ := Option.map_eq_some_iff.1 hn
    refine ⟨row, List.mem_range.2 (SymbolTable.lt_of_function? hf), ?_⟩
    have hlive : r.isRetired = false := hu
    rw [hr, Option.any_some, hlive, hf]
    rfl
  · rintro ⟨d, hd, h⟩
    obtain ⟨f', hf, heq⟩ := Option.map_eq_some_iff.1 h
    cases heq
    exact ⟨d, hd, rfl, hf⟩
  · rintro ⟨d, hd, rfl, hf⟩
    exact ⟨d, hd, by rw [hf]; rfl⟩

theorem mem_inSight : (row, a) ∈ g.inSight ↔ g.symbols.Sees row a := by
  unfold Generator.inSight SymbolTable.Sees
  rw [List.mem_filterMap]
  constructor
  · rintro ⟨i, -, h⟩
    obtain ⟨hscope, h⟩ := Option.ite_none_right_eq_some.1 h
    obtain ⟨a', ha, heq⟩ := Option.map_eq_some_iff.1 h
    cases heq
    cases hs : g.symbols.scope? row with
    | none =>
      rw [hs] at hscope
      cases hscope
    | some s =>
      rw [hs, Option.any_some, List.contains_iff_mem] at hscope
      exact ⟨ha, s, rfl, hscope⟩
  · rintro ⟨ha, s, hs, hmem⟩
    have hcontains : (g.symbols.scopes.enclosing g.currentScope).contains s = true :=
      List.contains_iff_mem.2 hmem
    refine ⟨row, List.mem_range.2 (SymbolTable.lt_of_cell? ha), ?_⟩
    rw [hs, Option.any_some, if_pos hcontains, ha]
    rfl

/-- A variable in sight is listed once. -/
theorem nodup_inSight (g : Generator) : g.inSight.Nodup := by
  refine List.Nodup.filterMap ?_ List.nodup_range
  intro i j v hi hj
  obtain ⟨-, hi⟩ := Option.ite_none_right_eq_some.1 (Option.mem_def.1 hi)
  obtain ⟨-, hj⟩ := Option.ite_none_right_eq_some.1 (Option.mem_def.1 hj)
  obtain ⟨_, -, rfl⟩ := Option.map_eq_some_iff.1 hi
  obtain ⟨_, -, heq⟩ := Option.map_eq_some_iff.1 hj
  exact (congrArg Prod.fst heq).symm

theorem mem_owners : (row, a) ∈ g.owners globals ↔
    g.symbols.Sees row a ∧ row ∉ globals ∧ g.isParameter (row, a) = false := by
  rw [Generator.owners, List.mem_filter, mem_inSight, Bool.and_eq_true, Bool.not_eq_true',
    Bool.not_eq_true', ← Bool.not_eq_true, List.contains_iff_mem]

theorem mem_usedCells : a ∈ g.usedCells globals items ↔
    (∃ row f, g.Has row f ∧ a ∈ f.cells) ∨ (∃ row, (row, a) ∈ g.owners globals) ∨ a ∈ items := by
  have hfunctions : a ∈ g.functions.flatMap (·.2.cells) ↔ ∃ row f, g.Has row f ∧ a ∈ f.cells := by
    simp only [List.mem_flatMap, Prod.exists, mem_functions]
  have howners : a ∈ (g.owners globals).map (·.2) ↔ ∃ row, (row, a) ∈ g.owners globals := by
    simp only [List.mem_map, Prod.exists, exists_eq_right]
  rw [Generator.usedCells, List.mem_append, List.mem_append, hfunctions, howners, or_assoc]

/-- At most one function has its parameters being read, and it is on no row yet. -/
theorem headers_cases {keywords : List String} {header : Bool} (h : Calm keywords header g) :
    g.definitions.filterMap (fun d => d.header.map (d.row, ·)) = [] ∨ ∃ row f,
      g.definitions.filterMap (fun d => d.header.map (d.row, ·)) = [(row, f)] ∧
        g.symbols.function? row = none := by
  have hnone : ∀ definitions : List Definition, (∀ d ∈ definitions, d.Published g.symbols) →
      definitions.filterMap (fun d => d.header.map (d.row, ·)) = [] := by
    intro definitions hall
    refine List.filterMap_eq_nil_iff.2 fun d hd => ?_
    rw [(hall d hd).1]
    rfl
  have hstanding := h.standing
  cases header with
  | false => exact .inl (hnone _ hstanding)
  | true =>
    cases hdefs : g.definitions with
    | nil =>
      rw [hdefs] at hstanding
      exact hstanding.elim
    | cons d rest =>
      rw [hdefs] at hstanding
      obtain ⟨⟨hsome, ⟨cell, hm⟩, -⟩, hrest⟩ := hstanding
      obtain ⟨f, hf⟩ := Option.isSome_iff_exists.1 hsome
      refine .inr ⟨d.row, f, ?_, ?_⟩
      · rw [List.filterMap_cons, hf, hnone rest hrest]
        rfl
      · rw [SymbolTable.function?, hm]
        rfl

/-- **A function has one row.** -/
theorem pairwise_functions {keywords : List String} {header : Bool}
    (h : Calm keywords header g) : g.functions.Pairwise fun p q => p.1 ≠ q.1 := by
  have hrow : ∀ {row p}, (if (g.symbols.rows[row]?).any Row.isRetired then none
      else (g.symbols.function? row).map (row, ·)) = some p →
        p.1 = row ∧ g.symbols.function? row = some p.2 := by
    intro row p hp
    obtain ⟨-, hp⟩ := Option.ite_none_left_eq_some.1 hp
    obtain ⟨f, hf, rfl⟩ := Option.map_eq_some_iff.1 hp
    exact ⟨rfl, hf⟩
  rw [Generator.functions, List.pairwise_append]
  refine ⟨?_, ?_, ?_⟩
  · rw [List.pairwise_filterMap]
    refine List.nodup_range.imp fun hne p hp q hq heq => hne ?_
    rw [← (hrow hp).1, ← (hrow hq).1, heq]
  · rcases headers_cases h with hnil | ⟨row, f, hone, -⟩
    · rw [hnil]
      exact .nil
    · rw [hone]
      exact List.pairwise_singleton _ _
  · intro p hp q hq heq
    obtain ⟨row, -, hp⟩ := List.mem_filterMap.1 hp
    obtain ⟨rfl, hf⟩ := hrow hp
    rcases headers_cases h with hnil | ⟨row', f', hone, hnone⟩
    · rw [hnil] at hq
      cases hq
    · rw [hone, List.mem_singleton] at hq
      subst hq
      rw [heq, hnone] at hf
      cases hf

/-- **No two owners share a cell,** and none of their cells is free. -/
structure Generator.Apart (c : Config) (globals items : List Nat) (g : Generator) : Prop where
  nodup : (g.usedCells globals items).Nodup
  zone : ∀ a ∈ g.usedCells globals items, DataCell c c.tempsFrom a
  spare : ∀ a ∈ g.usedCells globals items, a ∉ g.memory.spareCells
  /-- No cell in use is ever handed out. -/
  taken : ∀ a m, g.memory.takeCell = .ok (a, m) ∨ g.memory.takeNextCell = .ok (a, m) →
    a ∉ g.usedCells globals items
  /-- A row that has been bound to a global name stands for the variable of the outermost scope. -/
  bound : ∀ row a, (row, a) ∈ g.inSight → row ∈ globals → ∃ k, (k, a) ∈ g.owners globals ∧
    g.symbols.scope? k = some Scopes.outermost ∧ g.symbols.name? k = g.symbols.name? row
  /-- Names are found among the variables in sight. -/
  found : ∀ name a, g.readCell? name = some a ∨ g.ownCell? name = some a →
    ∃ row, g.symbols.name? row = some name ∧ (row, a) ∈ g.inSight

/-- A variable with a function's cell is one of its parameters. -/
theorem Owned.isParameter (h : Owned c globals items g) (hs : g.symbols.Sees row a) {r : Nat}
    (hr : g.Has r f) (ha : a ∈ f.cells) : g.isParameter (row, a) = true := by
  obtain ⟨hp, s, hscope, hregion⟩ := h.parameters row a r f hs hr ha
  rw [Generator.isParameter, List.any_eq_true]
  refine ⟨(r, f), mem_functions.2 hr, ?_⟩
  rw [hscope, Option.bind_some, hregion, List.contains_iff_mem.2 hp, beq_self_eq_true]
  rfl

theorem Owned.held (h : Owned c globals items g) :
    ∀ a ∈ g.usedCells globals items, Held c g.memory a := by
  intro a ha
  rcases mem_usedCells.1 ha with ⟨row, f, hr, ha⟩ | ⟨row, hrow⟩ | ha
  · exact ((h.functions row f hr).2 a ha).1
  · exact (h.seen row a (mem_owners.1 hrow).1).1
  · exact h.inHand a ha

theorem Owned.nodup_usedCells {keywords : List String} {header : Bool}
    (h : Owned c globals items g) (hcalm : Calm keywords header g) :
    (g.usedCells globals items).Nodup := by
  have hfunctions : (g.functions.flatMap (·.2.cells)).Nodup := by
    refine List.nodup_flatMap.2 ⟨fun p hp => (h.functions _ _ (mem_functions.1 hp)).1, ?_⟩
    refine (pairwise_functions hcalm).imp_of_mem fun {p q} hp hq hne a ha ha' => hne ?_
    exact h.apart _ _ _ _ a (mem_functions.1 hp) (mem_functions.1 hq) ha ha'
  have howners : ((g.owners globals).map (·.2)).Nodup := by
    refine List.Nodup.map_on ?_ ((nodup_inSight g).filter _)
    rintro ⟨row, a⟩ hv ⟨row', a'⟩ hv' heq
    obtain rfl : a = a' := heq
    obtain ⟨hs, hg, -⟩ := mem_owners.1 hv
    obtain ⟨hs', hg', -⟩ := mem_owners.1 hv'
    rw [h.distinct row row' a hs hs' hg hg']
  rw [Generator.usedCells, List.append_assoc]
  refine List.nodup_append.2 ⟨hfunctions, List.nodup_append.2 ⟨howners, h.nodup, ?_⟩, ?_⟩
  · rintro a ha b hb rfl
    obtain ⟨⟨row, _⟩, hv, rfl⟩ := List.mem_map.1 ha
    exact (h.seen row _ (mem_owners.1 hv).1).2 hb
  · rintro a ha b hb rfl
    obtain ⟨p, hp, ha⟩ := List.mem_flatMap.1 ha
    have hr := mem_functions.1 hp
    rcases List.mem_append.1 hb with hb | hb
    · obtain ⟨⟨row, _⟩, hv, rfl⟩ := List.mem_map.1 hb
      obtain ⟨hs, -, hparameter⟩ := mem_owners.1 hv
      rw [h.isParameter hs hr ha] at hparameter
      cases hparameter
    · exact ((h.functions _ _ hr).2 a ha).2 hb

/-- **Where cells have one owner, no two owners share a cell.** -/
theorem apart_of_kept {keywords : List String} {header : Bool} (h : Kept c globals items layers g)
    (hu : 0 < c.unit) (hcalm : Calm keywords header g) : g.Apart c globals items where
  nodup := h.owned.nodup_usedCells hcalm
  zone a ha := by
    obtain ⟨⟨hlt, hk⟩, -⟩ := h.owned.held a ha
    exact ⟨Nat.lt_of_lt_of_le hlt h.owned.memory.data_le, hk⟩
  spare a ha := (h.owned.held a ha).2
  taken a m htaken ha := by
    -- a cell in hand is none that is in use
    have howned : Owned c globals (a :: items) { g with memory := m } :=
      htaken.elim (h.owned.takeCell hu) (h.owned.takeNextCell hu)
    rcases mem_usedCells.1 ha with ⟨row, f, hr, ha⟩ | ⟨row, hrow⟩ | ha
    · exact howned.not_mem_cells hr ha
    · exact howned.not_sees (mem_owners.1 hrow).1
    · exact (List.nodup_cons.1 howned.nodup).1 ha
  bound row a hrow hmem := by
    obtain ⟨-, -, hk⟩ := h.owned.globals row hmem
    obtain ⟨k, hscope, hcell, hname⟩ := hk a (mem_inSight.1 hrow)
    have hsees : g.symbols.Sees k a := ⟨hcell, Scopes.outermost, hscope,
      h.nesting.outermost_mem h.owned.orderly h.owned.rooted⟩
    refine ⟨k, mem_owners.2 ⟨hsees, fun hk => ?_, ?_⟩, hscope, hname⟩
    · obtain ⟨-, ⟨s, hs, hne⟩, -⟩ := h.owned.globals k hk
      exact hne (Option.some.inj (hs.symm.trans hscope))
    · rw [Generator.isParameter, List.any_eq_false]
      rintro ⟨r, f⟩ -
      rw [hscope, Option.bind_some, h.owned.rooted.at.region?]
      simp
  found name a hname := by
    rcases hname with hname | hname
    · obtain ⟨row, hrow, hs⟩ := SymbolTable.exists_sees_of_resolve hname
      exact ⟨row, hrow, mem_inSight.2 hs⟩
    · obtain ⟨row, hrow, hs⟩ := SymbolTable.exists_sees_of_sameBody hname
      exact ⟨row, hrow, mem_inSight.2 hs⟩

/-- A state that no action fails in stays one, whatever becomes of operands and code. -/
theorem aloof_calm {keywords : List String} {header : Bool} : Aloof (Calm keywords header) where
  aside h hs _ hd hl _ := h.of_eq hs hd hl
  append _ h _ := h.of_eq rfl rfl rfl
  filled _ _ h := h.of_eq rfl rfl rfl
  withTemp h _ := h.of_eq rfl rfl rfl
  dropTemp _ h := h.of_eq rfl rfl rfl
  mapDefinition h hrow _ hheader :=
    h.mapDefinition hrow fun d => congrArg Option.isSome (hheader d)
  calls _ h := h.of_eq rfl rfl rfl

end OnePass.Emission
