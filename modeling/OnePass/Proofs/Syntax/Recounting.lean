import OnePass.Proofs.Syntax.Nests

/-!
# Scopes keep to the functions of a text

Whatever errors a program has, the scopes around a place own the functions of the stretches around
it, and every action changes the one as it changes the other.

* `Counts`, `Recounts`: a state whose scopes own the functions of stretches.
* `Recounts.ends_startFunction`, `Recounts.ends_publish`, `Recounts.ends_endFunction`, …: definitions,
  loops and returns.
* `Recounts.perform`: **scopes own the functions of stretches behind every action.**
-/

namespace OnePass.Syntax

open Emission Names
open Grammar (Action)

variable {made : Nat → Made} {k : Known} {stretches : List Stretch} {x : String}
  {g g' : Generator} {header : Bool} {keywords : List String} {line place : Nat} {a : Action}
  {constructs : List Construct}

/-- **What the functions of a state are those of:** stretches, of which the innermost may be that of
a definition whose parameters are being read. -/
inductive Counts (made : Nat → Made) (g : Generator) : Bool → List Stretch → Prop
  | steady {stretches : List Stretch}
      (h : Nest g.symbols made stretches g.currentScope (g.definitions.map (·.row))) :
      Counts made g false stretches
  | heading {f : String} {outer : List Stretch} {d : Definition} {rest : List Definition}
      {info : FunctionInfo} (hd : g.definitions = d :: rest) (hh : d.header = some info)
      (hplain : info.returnsValue = false)
      (h : Heading g.symbols made f d.row g.currentScope outer (rest.map (·.row))) :
      Counts made g true (⟨.header f info.arity, []⟩ :: outer)

/-- **A state whose scopes own the functions of stretches.** Those whose definitions are open have
not ended. -/
structure Recounts (made : Nat → Made) (header : Bool) (stretches : List Stretch) (g : Generator) :
    Prop where
  housed : g.symbols.Housed
  counts : Counts made g header stretches
  ended : ∀ k ∈ Stretch.all stretches,
    k.ended = !(g.definitions.map (·.row)).contains (k.row made)

/-- The latest function of the innermost stretch. -/
def Stretch.latest? (stretches : List Stretch) : Option Known :=
  stretches.head?.bind (·.known.head?)

theorem Recounts.nest (h : Recounts made false stretches g) :
    Nest g.symbols made stretches g.currentScope (g.definitions.map (·.row)) := by
  cases h.counts
  assumption

/-- **Tables in which no function has moved** own the same functions. -/
theorem Recounts.unmoved (h : Recounts made false stretches g)
    (hu : g.symbols.Unmoved x g'.symbols)
    (hrows : g'.definitions.map (·.row) = g.definitions.map (·.row)) :
    Recounts made false stretches g' := by
  refine ⟨hu.lengthens.housed h.housed, .steady ?_, ?_⟩
  · have hcurrent : g'.currentScope = g.currentScope := congrArg Scopes.current hu.scopes
    rw [hcurrent, hrows]
    exact h.nest.unmoved h.housed.nested hu
  · rw [hrows]
    exact h.ended

/-- A token is recorded. -/
theorem Recounts.record (h : Recounts made header stretches g) (token : Lexical.Token) :
    Recounts made header stretches { g with symbols := g.symbols.record token } := by
  have hu := SymbolTable.unmoved_record g.symbols token
  have hcurrent : (g.symbols.record token).currentScope = g.symbols.currentScope :=
    congrArg Scopes.current hu.scopes
  obtain ⟨hhoused, hcounts, hended⟩ := h
  refine ⟨hu.lengthens.housed hhoused, ?_, hended⟩
  cases hcounts with
  | steady h =>
    refine .steady ?_
    change Nest (g.symbols.record token) made stretches (g.symbols.record token).currentScope _
    rw [hcurrent]
    exact h.unmoved hhoused.nested hu
  | heading hd hh hplain h =>
    refine .heading hd hh hplain ?_
    change Heading (g.symbols.record token) made _ _ (g.symbols.record token).currentScope _ _
    rw [hcurrent]
    exact h.unmoved hhoused.nested hu

/-- **Most actions move no function.** -/
theorem Recounts.ends_unmoved (h : Recounts made false stretches g)
    (ha : movesFunctions a = false)
    (hn : a.behind? = some .identifier → keywords.contains loopKeyword = true → x ≠ loopKeyword) :
    Ends (perform a x line) g fun _ g' =>
      Recounts made false (Stretch.behind stretches a x place) g' := by
  have hkeeps : keepsTitles a = true := by cases a <;> first | rfl | cases ha
  refine ((unmoved_perform ha hn).and (retains_perform hkeeps)).mono ?_
  rintro _ g' ⟨hu, hr⟩
  have hbehind : Stretch.behind stretches a x place = stretches := by
    cases a with
    | param => exact (h.nest.behind_param x place).1
    | _ => first | rfl | cases ha
  rw [hbehind]
  exact h.unmoved hu hr.rows

/-- **A parameter is read.** -/
theorem Recounts.ends_addParameter (h : Recounts made true stretches g)
    (hn : keywords.contains loopKeyword = true → x ≠ loopKeyword) :
    Ends (addParameter x) g fun _ g' =>
      Recounts made true (Stretch.behind stretches .param x place) g' := by
  obtain ⟨hhoused, hcounts, hended⟩ := h
  cases hcounts with
  | @heading f outer d rest info hd hh hplain h =>
    have hunmoved : Ends (perform .param x 0) g fun _ g' => g.symbols.Unmoved x g'.symbols :=
      unmoved_perform rfl fun _ => hn
    refine (hunmoved.and definitions_addParameter).mono ?_
    rintro _ g' ⟨hu, cell, hd'⟩
    have hdefs : g'.definitions = d.addParam cell :: rest := by
      rw [hd', Generator.mapDefinition, hd]
    have hcurrent : g'.currentScope = g.currentScope := congrArg Scopes.current hu.scopes
    have hheader : (d.addParam cell).header = some { info with params := info.params ++ [cell] } := by
      rw [Definition.addParam, hh]
      rfl
    have hcount : info.arity + 1 = ({ info with params := info.params ++ [cell] } : FunctionInfo).arity :=
      by simp [FunctionInfo.arity]
    refine ⟨hu.lengthens.housed hhoused, ?_, ?_⟩
    · rw [Stretch.behind, hcount]
      refine .heading hdefs hheader hplain ?_
      rw [hcurrent]
      exact h.unmoved hhoused.nested hu
    · rw [hdefs]
      rwa [hd] at hended

/-- **The parameters have been read,** and the function is known. -/
theorem Recounts.ends_publish (h : Recounts made true stretches g)
    (hmade : ∀ d ∈ g.definitions.head?, ∀ info ∈ d.header,
      made place = ⟨d.row, { info with start := g.programNext }⟩) :
    Ends publish g fun _ g' =>
      Recounts made false (Stretch.behind stretches .paramsDone x place) g' := by
  obtain ⟨hhoused, hcounts, hended⟩ := h
  cases hcounts with
  | @heading f outer d rest info hd hh hplain h =>
    obtain ⟨p, hat, hout⟩ := h.around
    refine (ends_publish_eq hd hh ⟨p, hhoused.bodies _ _ _ hat⟩).mono ?_
    rintro _ _ ⟨-, rfl⟩
    rw [hd] at hmade hended
    have hmade := hmade d rfl info hh
    refine ⟨SymbolTable.lengthens_setMeaning (x := "").housed hhoused, .steady ?_, ?_⟩
    · exact h.publish hhoused hmade hplain
    · intro k hk
      obtain _ | ⟨st, outer⟩ := outer
      · cases hout
      have hcases : k = ⟨f, info.arity, place, false, false⟩ ∨ k ∈ Stretch.all (st :: outer) := by
        simpa [Stretch.behind, Stretch.add] using hk
      rcases hcases with rfl | hk
      · have hrow : Known.row made ⟨f, info.arity, place, false, false⟩ = d.row := by
          rw [Known.row, hmade]
        rw [hrow]
        simp [Generator.setMeaning]
      · exact hended k hk

/-- **A definition begins.** -/
theorem Recounts.ends_startFunction (h : Recounts made false stretches g)
    (hframed : g.Framed constructs) (hx : Unmarked x) : Ends (startFunction x) g fun _ g' =>
      Recounts made true (Stretch.behind stretches .enterFunction x place) g' := by
  have hnest := h.nest
  refine (ends_startFunction_table.and lengthens_startFunction).mono ?_
  rintro _ g' ⟨⟨d, hd, ⟨info, hh, hparams, hplain⟩, hrow, hsymbols⟩, hl⟩
  have hcount : 0 = info.arity := by rw [FunctionInfo.arity, hparams]; rfl
  have hopened := hframed.opened h.housed.nested h.housed.begins
  have hheading := hnest.enterBody h.housed hopened hx hrow hsymbols
  refine ⟨hl.housed h.housed, ?_, fun k hk => ?_⟩
  · rw [Stretch.behind, hcount]
    exact .heading hd hh hplain hheading
  · have hk : k ∈ Stretch.all stretches := by simpa [Stretch.behind] using hk
    rw [h.ended k hk, hd, List.map_cons, List.contains_cons]
    have hne : k.row made ≠ d.row := by
      intro hc
      have hsome := (hnest.stands hk).function
      have hnone := hheading.unpublished
      rw [← hc, hsymbols] at hnone
      have hsame := (SymbolTable.unmoved_rowFor g.symbols x (· = .unused)).functions (k.row made)
      have hnone : (g.symbols.rowFor x .identifier (· = .unused)).2.function? (k.row made) = none :=
        hnone
      rw [← hsame, hnone] at hsome
      cases hsome
    simp [hne]

/-- **A definition ends,** and its function is the latest of the stretch around. -/
theorem Recounts.ends_endFunction (h : Recounts made false stretches g)
    (hframed : g.Framed constructs) (hcalm : Calm keywords false g)
    (hexit : ∃ s rest, constructs = .function s :: rest) : Ends endFunction g fun _ g' =>
      Recounts made false (Stretch.behind stretches .exitFunction x place) g' ∧
        ∃ k, Stretch.latest? (Stretch.behind stretches .exitFunction x place) = some k ∧
          g'.lastDefined = some (k.row made) := by
  have hnest := h.nest
  obtain ⟨s, below, rfl⟩ := hexit
  obtain ⟨d, rest, hd, -⟩ := hframed.head h.housed
  obtain ⟨i, p, hat⟩ : ∃ i p, g.symbols.scopes.At g.currentScope (.body i) p := by
    have hframing := hframed.framing
    generalize hcur : g.symbols.scopes.current = cur at hframing
    generalize g.definitions.map Definition.place = places at hframing
    cases hframing with
    | function hat _ => exact ⟨_, _, hcur.symm ▸ hat⟩
  obtain ⟨fs, e, k, before, outer, rfl⟩ := hnest.of_body hcalm.table.rooted hat
  refine (ends_endFunction_row hcalm hd).mono ?_
  rintro _ g' ⟨hsymbols, hrows, hlast⟩
  rw [hd, List.map_cons] at hnest
  obtain ⟨hrow, hleft⟩ := hnest.leaveBody h.housed
  refine ⟨⟨hsymbols ▸ h.housed.leaveScope, .steady ?_, fun k' hk' => ?_⟩, _, rfl, ?_⟩
  · rw [hrows, Generator.currentScope, hsymbols]
    exact hleft
  · rw [hrows]
    have hnested := h.housed.leaveScope.nested
    have hcases : k' = { k with ended := true } ∨ k' ∈ before ++ Stretch.all outer := by
      simpa [Stretch.behind, Stretch.change] using hk'
    rcases hcases with rfl | hk'
    · simpa using hleft.latest_not_mem_rows hnested
    · -- a definition that has not ended is none of the function's either, so its row is as before
      have hne : k'.row made ≠ k.row made := hleft.row_ne_latest hnested hk'
      have hmem : k' ∈ Stretch.all (⟨.body, fs⟩ :: ⟨e, k :: before⟩ :: outer) := by
        simp only [Stretch.all_cons, List.mem_append, List.mem_cons] at hk' ⊢
        tauto
      rw [h.ended k' hmem, hd, List.map_cons, List.contains_cons, hrow]
      simp [hne]
  · rw [hlast, hrow]
    rfl

/-- **A loop begins.** -/
theorem Recounts.ends_startLoop (h : Recounts made false stretches g) :
    Ends startLoop g fun _ g' =>
      Recounts made false (Stretch.behind stretches .loopBegin x place) g' := by
  have hretains : Ends (perform .loopBegin "" 0) g fun _ g' => Retains "" g g' :=
    retains_perform rfl
  refine ((ends_startLoop_table "").and hretains).mono ?_
  rintro _ g' ⟨⟨t, hu, hsymbols⟩, hr⟩
  have ht := hu.lengthens.housed h.housed
  have hcurrent : g.currentScope = t.currentScope := (congrArg Scopes.current hu.scopes).symm
  have hnest := h.nest.unmoved h.housed.nested hu
  rw [hcurrent] at hnest
  refine ⟨hr.table.housed h.housed, .steady ?_, ?_⟩
  · rw [hr.rows, Generator.currentScope, hsymbols]
    exact hnest.enterLoop ht
  · rw [hr.rows]
    exact fun k hk => h.ended k (by simpa [Stretch.behind] using hk)

/-- **A loop ends.** -/
theorem Recounts.ends_endLoop (h : Recounts made false stretches g) (hframed : g.Framed constructs)
    (hend : ∃ s start rest, constructs = .loop s start :: rest) : Ends endLoop g fun _ g' =>
      Recounts made false (Stretch.behind stretches .loopEnd x place) g' := by
  obtain ⟨s, start, below, rfl⟩ := hend
  obtain ⟨p, hat⟩ : ∃ p, g.symbols.scopes.At g.currentScope .loop p := by
    have hframing := hframed.framing
    generalize hcur : g.symbols.scopes.current = cur at hframing
    generalize g.symbols.openLoops.starts = starts at hframing
    cases hframing with
    | loop hat _ => exact ⟨_, hcur.symm ▸ hat⟩
  obtain ⟨fs, outer, rfl⟩ := h.nest.of_loop hframed.rooted hat
  have hretains : Ends (perform .loopEnd "" 0) g fun _ g' => Retains "" g g' :=
    retains_perform rfl
  refine ((ends_endLoop_table "").and hretains).mono ?_
  rintro _ g' ⟨⟨t, hu, hsymbols⟩, hr⟩
  have ht := hu.lengthens.housed h.housed
  have hcurrent : g.currentScope = t.currentScope := (congrArg Scopes.current hu.scopes).symm
  have hnest := h.nest.unmoved h.housed.nested hu
  rw [hcurrent] at hnest
  refine ⟨hr.table.housed h.housed, .steady ?_, ?_⟩
  · rw [hr.rows, Generator.currentScope, hsymbols]
    exact hnest.leaveLoop ht
  · rw [hr.rows]
    exact fun k hk => h.ended k (List.mem_append_right _ hk)

/-- Functions stay where they are when a return says that one gives a value. -/
theorem Stretch.mem_all_giveValue (hk : k ∈ all (giveValue stretches)) :
    ∃ k' ∈ all stretches, k.title = k'.title ∧ k.ended = k'.ended := by
  fun_induction giveValue stretches with
  | case1 known outer ih =>
    rcases List.mem_append.1 hk with hk | hk
    · exact ⟨k, List.mem_append_left _ hk, rfl, rfl⟩
    · obtain ⟨k', hk', heq⟩ := ih hk
      exact ⟨k', List.mem_append_right _ hk', heq⟩
  | case2 known outer =>
    rcases List.mem_append.1 hk with hk | hk
    · exact ⟨k, List.mem_append_left _ hk, rfl, rfl⟩
    · obtain _ | ⟨⟨e, _ | ⟨latest, before⟩⟩, outer⟩ := outer
      · cases hk
      · exact ⟨k, List.mem_append_right _ hk, rfl, rfl⟩
      · rcases List.mem_cons.1 hk with rfl | hk
        · exact ⟨latest, List.mem_append_right _ List.mem_cons_self, rfl, rfl⟩
        · exact ⟨k, List.mem_append_right _ (List.mem_cons_of_mem _ hk), rfl, rfl⟩
  | case3 => exact ⟨k, hk, rfl, rfl⟩

/-- **A return with a value.** -/
theorem Recounts.ends_returnWith (h : Recounts made false stretches g)
    (hcalm : Calm keywords false g) : Ends (returnWith line) g fun _ g' =>
      Recounts made false (Stretch.behind stretches .returnValue x place) g' := by
  have hnest := h.nest
  have hretains : Ends (perform .returnValue "" line) g fun _ g' => Retains "" g g' :=
    retains_perform rfl
  cases hd : g.definitions with
  | nil =>
    refine ((symbols_returnWith_none hd).and hretains).mono ?_
    rintro _ g' ⟨hsymbols, hr⟩
    rw [hd] at hnest
    rw [Stretch.behind, hnest.giveValue_nil]
    exact h.unmoved (x := "") (hsymbols ▸ .refl _ _) hr.rows
  | cons d rest =>
    obtain ⟨info, hinfo⟩ := Option.isSome_iff_exists.1
      (hcalm.standing d (hd ▸ List.mem_cons_self)).2
    refine ((ends_returnWith_table hd hinfo).and hretains).mono ?_
    rintro _ g' ⟨hsymbols, hr⟩
    have hcurrent : g'.currentScope = g.currentScope := by
      rw [Generator.currentScope, hsymbols]
      rfl
    rw [hd] at hnest
    refine ⟨hr.table.housed h.housed, .steady ?_, fun k hk => ?_⟩
    · rw [hr.rows, hcurrent, hsymbols, hd]
      exact hnest.giveValue h.housed.nested hinfo
    · obtain ⟨k', hk', htitle, hended⟩ := Stretch.mem_all_giveValue hk
      have hplace : k.place = k'.place := congrArg (·.2.2) htitle
      have hrow : k.row made = k'.row made := by rw [Known.row, hplace, Known.row]
      rw [hended, h.ended k' hk', hr.rows, hrow]

/-- **The latest function is settled.** -/
theorem Recounts.ends_retireRivals (h : Recounts made false stretches g)
    (hframed : g.Framed constructs) (hlatest : Stretch.latest? stretches = some k)
    (hlast : g.lastDefined = some (k.row made)) : Ends (retireRivals line) g fun _ g' =>
      Recounts made false (Stretch.behind stretches .checkOverload x place) g' := by
  have hnest := h.nest
  obtain ⟨⟨e, known⟩, hhead, hknown⟩ := Option.bind_eq_some_iff.1 hlatest
  obtain ⟨outer, rfl⟩ := List.head?_eq_some_iff.1 hhead
  obtain ⟨fs, rfl⟩ := List.head?_eq_some_iff.1 hknown
  have howns := hnest.owns
  have hopened := hframed.opened h.housed.nested h.housed.begins
  have hmem : ∀ other, other ∈ g.rivals (k.row made) ↔ other ≠ k.row made ∧
      ¬g.symbols.Retired other ∧ g.symbols.signature? other =
        g.symbols.signature? (k.row made) := fun other =>
    mem_rivals h.housed (howns.placed k List.mem_cons_self) hopened
      (by rw [(howns.stands k List.mem_cons_self).function]; rfl)
      (howns.not_retired List.mem_cons_self)
  refine (ends_retireRivals_foldl hlast).mono ?_
  rintro _ g' ⟨hsymbols, hdefinitions, -⟩
  have hcurrent : g'.currentScope = g.currentScope := by
    rw [Generator.currentScope, hsymbols, SymbolTable.currentScope,
      (SymbolTable.foldl_retire_same _ _ 0).2.2]
    rfl
  refine ⟨hsymbols ▸ h.housed.foldl_retire _, .steady ?_, fun k' hk' => ?_⟩
  · rw [hdefinitions, hcurrent, hsymbols]
    exact hnest.settle h.housed.nested hmem
  · rw [hdefinitions]
    refine h.ended k' ?_
    rcases List.mem_append.1 hk' with hk' | hk'
    · rcases List.mem_cons.1 hk' with rfl | hk'
      · exact List.mem_append_left _ List.mem_cons_self
      · exact List.mem_append_left _ (List.mem_cons_of_mem _ (List.mem_filter.1 hk').1)
    · exact List.mem_append_right _ hk'

/-- **Scopes own the functions of stretches behind every action.** -/
theorem Recounts.perform (h : Recounts made header stretches g) (hframed : g.Framed constructs)
    (hcalm : Calm keywords header g) (hheader : header = true → a = .param ∨ a = .paramsDone)
    (hx : Unmarked x)
    (hn : a.behind? = some .identifier → keywords.contains loopKeyword = true → x ≠ loopKeyword)
    (hexit : a = .exitFunction → ∃ s rest, constructs = .function s :: rest)
    (hend : a = .loopEnd → ∃ s start rest, constructs = .loop s start :: rest)
    (hmade : a = .paramsDone → ∀ d ∈ g.definitions.head?, ∀ info ∈ d.header,
      made place = ⟨d.row, { info with start := g.programNext }⟩)
    (hlast : a = .checkOverload → ∃ k, Stretch.latest? stretches = some k ∧
      g.lastDefined = some (k.row made)) :
    Ends (perform a x line) g fun _ g' =>
      Recounts made (heading header a) (Stretch.behind stretches a x place) g' := by
  cases header with
  | true =>
    rcases hheader rfl with rfl | rfl
    · exact h.ends_addParameter (hn rfl)
    · exact h.ends_publish (hmade rfl)
  | false =>
    by_cases hmoves : movesFunctions a = false
    · have hheading : heading false a = false := by cases a <;> first | rfl | cases hmoves
      rw [hheading]
      exact h.ends_unmoved hmoves hn
    cases a with
    | enterFunction => exact h.ends_startFunction hframed hx
    | paramsDone =>
      refine (secure_publish_published (P := fun _ => True) hcalm).ends.mono ?_
      rintro _ _ rfl
      rw [(h.nest.behind_param x place).2]
      exact h
    | exitFunction => exact (h.ends_endFunction hframed hcalm (hexit rfl)).mono fun _ _ h => h.1
    | checkOverload =>
      obtain ⟨k, hlatest, hlast⟩ := hlast rfl
      exact h.ends_retireRivals hframed hlatest hlast
    | returnValue => exact h.ends_returnWith hcalm
    | loopBegin => exact h.ends_startLoop
    | loopEnd => exact h.ends_endLoop hframed (hend rfl)
    | _ => exact absurd rfl hmoves

end OnePass.Syntax
