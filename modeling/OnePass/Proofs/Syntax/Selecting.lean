import OnePass.Proofs.Syntax.Calls
import OnePass.Proofs.Syntax.Recounting

/-!
# The functions that are known at every place of a text

A text says at every place which functions are known there and where. In an accepted text the
scopes around the place own these functions, so that calls select among them.

* `Trace.stretches`: **the functions that are known at every place** of a derivation.
* `Trace.made`: what a function becomes at the end of its parameters.
* `Trace.header_of_known`: a function is known behind its parameters.
* `Trace.Tells.recounted`: scopes own the functions that are known, all along.
* `Trace.Tells.callee?`, `Trace.Tells.nearestFunction`: **a call selects among them.**
-/

namespace OnePass

namespace Syntax.Stretch

open Grammar (Action)

variable {k : Known} {stretches : List Stretch} {x : String} {place : Nat} {a : Action}

theorem mem_all_change {f : Known → Known} (hf : ∀ k, (f k).title = k.title)
    (h : k ∈ all (change f stretches)) : ∃ k' ∈ all stretches, k.title = k'.title := by
  obtain _ | ⟨⟨e, _ | ⟨latest, before⟩⟩, outer⟩ := stretches
  · cases h
  · exact ⟨k, h, rfl⟩
  · rcases List.mem_cons.1 h with rfl | h
    · exact ⟨latest, List.mem_cons_self, hf latest⟩
    · exact ⟨k, List.mem_cons_of_mem _ h, rfl⟩

theorem mem_all_settle (h : k ∈ all (settle stretches)) : k ∈ all stretches := by
  obtain _ | ⟨⟨e, _ | ⟨latest, before⟩⟩, outer⟩ := stretches
  · exact h
  · exact h
  · rcases List.mem_append.1 h with h | h
    · rcases List.mem_cons.1 h with rfl | h
      · exact List.mem_append_left _ List.mem_cons_self
      · exact List.mem_append_left _ (List.mem_cons_of_mem _ (List.mem_filter.1 h).1)
    · exact List.mem_append_right _ h

/-- **A function is known** only where it has been before, or behind the end of its parameters. -/
theorem mem_all_behind (h : k ∈ all (behind stretches a x place)) :
    (∃ k' ∈ all stretches, k.title = k'.title) ∨
      a = .paramsDone ∧ ∃ f count known outer,
        stretches = ⟨.header f count, known⟩ :: outer ∧ k.title = (f, count, place) := by
  have hsame : k ∈ all stretches → (∃ k' ∈ all stretches, k.title = k'.title) ∨
      a = .paramsDone ∧ ∃ f count known outer,
        stretches = ⟨.header f count, known⟩ :: outer ∧ k.title = (f, count, place) :=
    fun h => .inl ⟨k, h, rfl⟩
  have htail : ∀ {k : Known}, k ∈ all stretches.tail → k ∈ all stretches := by
    intro k h
    cases stretches with
    | nil => exact h
    | cons s outer => exact List.mem_append_right _ h
  cases a with
  | enterFunction | loopBegin => exact hsame (by simpa [behind] using h)
  | param =>
    unfold behind at h
    dsimp only at h
    split at h <;> exact hsame h
  | paramsDone =>
    unfold behind at h
    dsimp only at h
    split at h
    · rename_i f count known outer
      obtain _ | ⟨s, outer⟩ := outer
      · exact hsame h
      · rw [add, all_cons, all_cons, List.mem_append, List.mem_append, List.mem_cons] at h
        rcases h with h | (rfl | h) | h
        · exact hsame (List.mem_append_left _ h)
        · exact .inr ⟨rfl, f, count, known, _, rfl, rfl⟩
        · exact hsame (List.mem_append_right _ (List.mem_append_left _ h))
        · exact hsame (List.mem_append_right _ (List.mem_append_right _ h))
    · exact hsame h
  | returnValue =>
    obtain ⟨k', hk', htitle, -⟩ := mem_all_giveValue h
    exact .inl ⟨k', hk', htitle⟩
  | exitFunction =>
    obtain ⟨k', hk', htitle⟩ :=
      mem_all_change (f := ({ · with ended := true })) (fun _ => rfl) h
    exact .inl ⟨k', htail hk', htitle⟩
  | checkOverload => exact hsame (mem_all_settle h)
  | loopEnd => exact hsame (htail h)
  | _ => exact hsame h

end Syntax.Stretch

namespace Derivation

open Emission Names Syntax
open Grammar (Action Mark Table Terminal)
open Machine

section Stretches

variable {E : Setting} {w : List Mark} {i : Nat} {x : String}

/-- **The functions that are known at every place.** In the beginning there are none. -/
def Trace.stretches (tr : Trace E w) : Nat → List Stretch
  | 0 => [⟨.text, []⟩]
  | i + 1 =>
    match w[i]? with
    | some (.act a) => Stretch.behind (tr.stretches i) a (tr.lexeme i) i
    | _ => tr.stretches i

theorem Trace.stretches_act (tr : Trace E w) {a : Action} (h : w[i]? = some (.act a)) :
    tr.stretches (i + 1) = Stretch.behind (tr.stretches i) a (tr.lexeme i) i := by
  rw [stretches, h]

theorem Trace.stretches_read (tr : Trace E w) {t : Terminal} (h : w[i]? = some (.read t x)) :
    tr.stretches (i + 1) = tr.stretches i := by
  rw [stretches, h]

/-- **What a function becomes** whose parameters have been read before a place: it is put on the row
of its definition, and its body starts at the next slot. -/
def Trace.made (tr : Trace E w) (place : Nat) : Made :=
  ((tr.state place).definitions.head?.bind fun d => d.header.map fun info =>
    ⟨d.row, { info with start := (tr.state place).programNext }⟩).getD ⟨0, .fresh 0 0 0⟩

/-- The parameters of a function are counted in its header. -/
theorem Trace.stretches_further (tr : Trace E w) {params : List String} {f : String} {count j : Nat}
    {known : List Known} {outer : List Stretch} (h : Span w i j (furtherParamMarks params))
    (hi : tr.stretches i = ⟨.header f count, known⟩ :: outer) :
    tr.stretches j = ⟨.header f (count + params.length), known⟩ :: outer := by
  induction params generalizing i count with
  | nil =>
    obtain rfl : i = j := h
    exact hi
  | cons x rest ih =>
    obtain ⟨hcomma, hread, hact, hrest⟩ := h
    have hone : tr.stretches (i + 1 + 1 + 1) = ⟨.header f (count + 1), known⟩ :: outer := by
      rw [tr.stretches_act hact, tr.stretches_read hread, tr.stretches_read hcomma, hi]
      rfl
    rw [ih hrest hone, List.length_cons, Nat.add_assoc, Nat.add_comm 1]

/-- **A header is read up to the end of its parameters.** -/
theorem Trace.stretches_header (tr : Trace E w) {params : List String} {f : String} {n : Nat}
    (h : Span w n (i + 1) (headerMarks f params)) :
    tr.stretches i = ⟨.header f params.length, []⟩ :: tr.stretches n := by
  rw [headerMarks, span_cons, span_cons, span_cons, span_cons, span_append] at h
  obtain ⟨hdef, hname, hact, hopen, j, hparams, hclose, -, heq⟩ := h
  obtain rfl : j + 1 = i := Nat.succ.inj heq
  have hbegun : tr.stretches (n + 1 + 1 + 1 + 1) = ⟨.header f 0, []⟩ :: tr.stretches n := by
    rw [tr.stretches_read hopen, tr.stretches_act hact, tr.stretches_read hname,
      tr.stretches_read hdef, (tr.reads hname).1]
    rfl
  rw [tr.stretches_read hclose]
  cases params with
  | nil =>
    obtain rfl : n + 1 + 1 + 1 + 1 = j := hparams
    exact hbegun
  | cons x rest =>
    obtain ⟨hread, hparam, hrest⟩ := hparams
    have hone : tr.stretches (n + 1 + 1 + 1 + 1 + 1 + 1) = ⟨.header f 1, []⟩ :: tr.stretches n := by
      rw [tr.stretches_act hparam, tr.stretches_read hread, hbegun]
      rfl
    rw [tr.stretches_further hrest hone, List.length_cons, Nat.add_comm]

/-- **A function is known behind its parameters,** under the name and with the number of parameters
that its header has. -/
theorem Trace.header_of_known (tr : Trace E w) (hw : ∀ i, Whole w i) {k : Known}
    (hk : k ∈ Stretch.all (tr.stretches i)) : k.place < i ∧ ∃ (n : Nat) (params : List String),
      Span w n (k.place + 1) (headerMarks k.name params) ∧ params.length = k.arity := by
  induction i generalizing k with
  | zero => cases hk
  | succ i ih =>
    have hsame : k ∈ Stretch.all (tr.stretches i) → k.place < i + 1 ∧ ∃ n params,
        Span w n (k.place + 1) (headerMarks k.name params) ∧ params.length = k.arity := fun h =>
      ⟨Nat.lt_succ_of_lt (ih h).1, (ih h).2⟩
    cases hmark : w[i]? with
    | none =>
      rw [stretches, hmark] at hk
      exact hsame hk
    | some mark =>
      cases mark with
      | read t x => exact hsame (tr.stretches_read hmark ▸ hk)
      | act a =>
        rw [tr.stretches_act hmark] at hk
        rcases Stretch.mem_all_behind hk with ⟨k', hk', htitle⟩ | ⟨rfl, f, count, known, outer, hi, htitle⟩
        · obtain ⟨hname, harity, hplace⟩ : k.name = k'.name ∧ k.arity = k'.arity ∧
              k.place = k'.place := by simpa [Known.title] using htitle
          rw [hname, harity, hplace]
          exact ⟨Nat.lt_succ_of_lt (ih hk').1, (ih hk').2⟩
        · obtain ⟨hname, harity, hplace⟩ : k.name = f ∧ k.arity = count ∧ k.place = i := by
            simpa [Known.title] using htitle
          obtain ⟨n, f', params, hspan⟩ := (hw i).publishes hmark
          have hheader := tr.stretches_header hspan
          rw [hi, List.cons.injEq, Stretch.mk.injEq, Extent.header.injEq] at hheader
          obtain ⟨⟨⟨rfl, rfl⟩, -⟩, -⟩ := hheader
          rw [hname, harity, hplace]
          exact ⟨Nat.lt_succ_self i, n, params, hspan, rfl⟩

end Stretches

section Machines

variable {c : Config} {source : String} {m : Machine} {constructs : List Construct}
  {stretches : List Stretch} {made : Nat → Made} {header header' : Bool} {g : Generator}
  {a : Action} {rest : List Goal} {table : Table} {past : List Machine} {place : Nat}

/-- Whether parameters are being read is seen from the innermost definition. -/
theorem calm_unique (h : Calm c.keywords header g) (h' : Calm c.keywords header' g) :
    header = header' := by
  have hfalse : Calm c.keywords true g → Calm c.keywords false g → False := by
    intro ht hf
    have hstanding := ht.standing
    have hpublished := hf.standing
    cases hd : g.definitions with
    | nil =>
      rw [hd] at hstanding
      exact hstanding
    | cons d rest =>
      rw [hd] at hstanding hpublished
      have hsome := hstanding.1.1
      rw [(hpublished d List.mem_cons_self).1] at hsome
      cases hsome
  cases header with
  | true =>
    cases header' with
    | true => rfl
    | false => exact (hfalse h h').elim
  | false =>
    cases header' with
    | true => exact (hfalse h' h).elim
    | false => rfl

/-- **A state whose scopes own the functions of stretches,** and in which no action fails. -/
def Recounted (c : Config) (made : Nat → Made) (stretches : List Stretch) (g : Generator) : Prop :=
  ∃ header, Calm c.keywords header g ∧ Recounts made header stretches g

/-- **Scopes own the functions of stretches behind the next action.** -/
theorem Machine.Framed.recounted (h : m.Framed c constructs) (place : Nat) (hx : m.Unmarked)
    (hg : m.goals = .act a :: rest) (hr : Recounted c made stretches m.generator)
    (hmade : a = .paramsDone → ∀ d ∈ m.generator.definitions.head?, ∀ info ∈ d.header,
      made place = ⟨d.row, { info with start := m.generator.programNext }⟩)
    (hlast : a = .checkOverload → ∃ k, Stretch.latest? stretches = some k ∧
      m.generator.lastDefined = some (k.row made)) :
    Ends (perform a m.lastLexeme m.lastLine) m.generator fun _ g' =>
      Recounted c made (Stretch.behind stretches a m.lastLexeme place) g' := by
  obtain ⟨header, hcalm, hrecounts⟩ := hr
  obtain ⟨header', hcalm', hheader⟩ := h.secured.perform hg
  obtain rfl := calm_unique hcalm' hcalm
  have hn := h.naming
  rw [hg] at hn
  have hname := hn.act.1
  have hloop := h.secured.loops a (hg ▸ List.mem_cons_self)
  refine ((secure_perform hcalm hheader (fun ha => hname (ha ▸ rfl)) hloop).ends.and
    (hrecounts.perform h.framed hcalm hheader hx.last hname ?_ ?_ hmade hlast)).mono
      fun _ _ h' => ⟨_, h'⟩
  · rintro rfl
    exact h.inStep.exits rest hg
  · rintro rfl
    exact h.inStep.ends rest hg

/-- **A function whose definition ends** is the latest of the stretch around. -/
theorem Machine.Framed.ends_latest (h : m.Framed c constructs) (place : Nat)
    (hg : m.goals = .act .exitFunction :: rest) (hr : Recounted c made stretches m.generator) :
    Ends (perform .exitFunction m.lastLexeme m.lastLine) m.generator fun _ g' => ∃ k,
      Stretch.latest? (Stretch.behind stretches .exitFunction m.lastLexeme place) = some k ∧
        g'.lastDefined = some (k.row made) := by
  obtain ⟨header, hcalm, hrecounts⟩ := hr
  obtain ⟨header', hcalm', hheader⟩ := h.secured.perform hg
  obtain rfl := calm_unique hcalm' hcalm
  have hfalse : header' = false := Bool.eq_false_iff.2 fun ht => absurd (hheader ht) (by simp)
  subst hfalse
  exact (hrecounts.ends_endFunction h.framed hcalm (h.inStep.exits rest hg)).mono
    fun _ _ h' => h'.2

/-- **A derivation begins** where no function is known. -/
theorem recounts_begun (c : Config) (source : String) (made : Nat → Made) :
    Recounts made false [⟨.text, []⟩] (begun c source).generator := by
  have hconfig : Recounts made false [⟨.text, []⟩] (Generator.ofConfig c) := by
    refine ⟨SymbolTable.housed_ofKeywords c.keywords, .steady (.text ?_), nofun⟩
    refine ⟨nofun, nofun, fun i _ hsome => ?_, .nil⟩
    have hnone : (SymbolTable.ofKeywords c.keywords).function? i = none :=
      SymbolTable.function?_ofKeywords _ _
    rw [show (Generator.ofConfig c).symbols = SymbolTable.ofKeywords c.keywords from rfl,
      hnone] at hsome
    cases hsome
  rcases generator_begun c source with heq | ⟨-, heq⟩
  · rw [heq]
    exact hconfig
  · rw [heq]
    exact hconfig.record _

theorem recounted_begun (c : Config) (source : String) (made : Nat → Made) :
    Recounted c made [⟨.text, []⟩] (begun c source).generator := by
  obtain ⟨header, -, hcalm⟩ := (secured_begun c source).calm
  cases header with
  | false => exact ⟨false, hcalm, recounts_begun c source made⟩
  | true =>
    have hstanding := hcalm.standing
    rw [(stands_begun c source).2.1] at hstanding
    exact hstanding.elim

end Machines

section Trace

variable {c : Config} {source : String} {w : List Mark} {i : Nat} {x : String} {a : Action}
  {tr : Trace (.reserving c.keywords) w}

/-- **An action leaves scopes that own the functions that are known.** Where it ends a definition, the
function of that is the latest of the innermost stretch. -/
theorem Trace.Tells.recounted_act (h : tr.Tells source) (hk : w[i]? = some (.act a))
    (hr : Recounted c tr.made (tr.stretches i) (tr.state i))
    (hlast : a = .checkOverload → ∃ k, Stretch.latest? (tr.stretches i) = some k ∧
      (tr.state i).lastDefined = some (k.row tr.made)) :
    Recounted c tr.made (tr.stretches (i + 1)) (tr.state (i + 1)) ∧
      (a = .exitFunction → ∃ k, Stretch.latest? (tr.stretches (i + 1)) = some k ∧
        (tr.state (i + 1)).lastDefined = some (k.row tr.made)) := by
  have hi := Nat.le_of_lt (List.getElem?_eq_some_iff.1 hk).1
  obtain ⟨m, ⟨table, htable, hm⟩, hgen, hlexeme, hline, hgoals⟩ := h.comes i hi
  obtain ⟨rest, hg⟩ := hgoals a hk
  obtain ⟨past, hpassed⟩ := reaches_iff_passed.1 hm.reaches
  have hframed := framed_of_passed htable hpassed
  rw [← hgen] at hr hlast
  -- what a definition is made of is read off the state in which its parameters have been read
  have hmade : a = .paramsDone → ∀ d ∈ m.generator.definitions.head?, ∀ info ∈ d.header,
      tr.made i = ⟨d.row, { info with start := m.generator.programNext }⟩ := by
    rintro - d hd info hinfo
    rw [hgen] at hd ⊢
    have hinfo : d.header = some info := hinfo
    have hd : (tr.state i).definitions.head? = some d := hd
    rw [Trace.made, hd, Option.bind_some, hinfo]
    rfl
  have hends := hframed.recounted i (unmarked_of_passed hpassed) hg hr hmade hlast
  rw [hgen, hlexeme, hline] at hends
  rw [tr.stretches_act hk]
  refine ⟨hends _ _ (tr.acts hk).1, ?_⟩
  rintro rfl
  have hlatest := hframed.ends_latest i hg hr
  rw [hgen, hlexeme, hline] at hlatest
  exact hlatest _ _ (tr.acts hk).1

/-- A token that is read changes none of this. -/
theorem Trace.recounted_read {t : Terminal} (hk : w[i]? = some (.read t x))
    (hr : Recounted c tr.made (tr.stretches i) (tr.state i)) :
    Recounted c tr.made (tr.stretches (i + 1)) (tr.state (i + 1)) := by
  rw [tr.stretches_read hk]
  rcases (tr.reads hk).2 with hstate | ⟨token, -, hstate⟩
  · exact hstate ▸ hr
  · obtain ⟨header, hcalm, hrecounts⟩ := hr
    rw [hstate]
    exact ⟨header, hcalm.withSymbols (hcalm.table.record token) (stays_record token),
      hrecounts.record token⟩

/-- **Scopes own the functions that are known, all along.** Where a definition has just ended, its
function is the latest of the innermost stretch. -/
theorem Trace.Tells.recounted (h : tr.Tells source) (hw : ∀ i, Whole w i) : ∀ i ≤ w.length,
    Recounted c tr.made (tr.stretches i) (tr.state i) ∧
      ∀ j, i = j + 1 → w[j]? = some (.act .exitFunction) → ∃ k,
        Stretch.latest? (tr.stretches i) = some k ∧
          (tr.state i).lastDefined = some (k.row tr.made) := by
  intro i
  induction i with
  | zero => exact fun _ => ⟨h.start ▸ recounted_begun c source tr.made, nofun⟩
  | succ i ih =>
    intro hi
    obtain ⟨hrecounted, hlatest⟩ := ih (Nat.le_of_succ_le hi)
    cases hk : w[i]? with
    | none =>
      have hle := List.getElem?_eq_none_iff.1 hk
      omega
    | some k =>
      cases k with
      | act a =>
        -- what settles a function stands behind the end of its definition
        have hlast : a = .checkOverload → ∃ k, Stretch.latest? (tr.stretches i) = some k ∧
            (tr.state i).lastDefined = some (k.row tr.made) := by
          rintro rfl
          obtain ⟨j, rfl, hexit⟩ := (hw i).settles hk
          exact hlatest j rfl hexit
        obtain ⟨hbehind, hended⟩ := h.recounted_act hk hrecounted hlast
        refine ⟨hbehind, fun j heq hexit => hended ?_⟩
        obtain rfl : i = j := Nat.succ.inj heq
        rw [hk, Option.some.injEq, Mark.act.injEq] at hexit
        exact hexit
      | read t y =>
        refine ⟨Trace.recounted_read hk hrecounted, fun j heq hexit => ?_⟩
        obtain rfl : i = j := Nat.succ.inj heq
        rw [hk] at hexit
        cases hexit

/-- Every scope around a place is open. -/
theorem Trace.Tells.opened (h : tr.Tells source) (hi : i ≤ w.length)
    (ht : (tr.state i).symbols.Housed) :
    ∀ s ∈ (tr.state i).symbols.scopes.enclosing (tr.state i).currentScope,
      (tr.state i).symbols.Opened s := by
  obtain ⟨m, ⟨table, htable, hm⟩, hgen, -⟩ := h.comes i hi
  obtain ⟨past, hpassed⟩ := reaches_iff_passed.1 hm.reaches
  have hframed := (framed_of_passed htable hpassed).framed
  rw [hgen] at hframed
  intro s hs
  rw [show (tr.state i).symbols.scopes.enclosing (tr.state i).currentScope = _ from
    hframed.framing.enclosing hframed.rooted ht.nested] at hs
  obtain ⟨scope, hscope, hend⟩ := (hframed.unended s).2 hs
  exact ⟨scope, hscope, hend, ht.begins _ scope hscope⟩

/-- **Calls stand where no parameters are read.** The scopes around own the functions that are
known. -/
theorem Trace.Tells.counted (h : tr.Tells source) (hw : ∀ i, Whole w i)
    (hk : w[i]? = some (.act .dispatch)) : Calm c.keywords false (tr.state i) ∧
      Recounts tr.made false (tr.stretches i) (tr.state i) := by
  have hi := Nat.le_of_lt (List.getElem?_eq_some_iff.1 hk).1
  obtain ⟨header, hcalm, hrecounts⟩ := (h.recounted hw i hi).1
  obtain ⟨m, ⟨table, htable, hm⟩, hgen, -, -, hgoals⟩ := h.comes i hi
  obtain ⟨rest, hg⟩ := hgoals _ hk
  obtain ⟨past, hpassed⟩ := reaches_iff_passed.1 hm.reaches
  obtain ⟨header', hcalm', hheader⟩ := (framed_of_passed htable hpassed).secured.perform hg
  rw [hgen] at hcalm'
  obtain rfl := calm_unique hcalm' hcalm
  have hfalse : header' = false := Bool.eq_false_iff.2 fun ht => absurd (hheader ht) (by simp)
  subst hfalse
  exact ⟨hcalm, hrecounts⟩

/-- **A call selects** the function that the stretches around it say. -/
theorem Trace.Tells.callee? (h : tr.Tells source) (hw : ∀ i, Whole w i)
    (hk : w[i]? = some (.act .dispatch)) (hx : Unmarked x) (count : Nat) :
    (tr.state i).symbols.callee? (tr.state i).currentScope x count =
      (Stretch.callee? (tr.stretches i) x count).map fun k =>
        (k.row tr.made, k.info tr.made) := by
  have hi := Nat.le_of_lt (List.getElem?_eq_some_iff.1 hk).1
  obtain ⟨hcalm, hrecounts⟩ := h.counted hw hk
  exact hrecounts.nest.callee? hrecounts.housed hcalm.table.rooted
    (h.opened hi hrecounts.housed) hx count

/-- **A name is that of a function** for a call if the stretches around say so. -/
theorem Trace.Tells.nearestFunction (h : tr.Tells source) (hw : ∀ i, Whole w i)
    (hk : w[i]? = some (.act .dispatch)) (hx : Unmarked x) :
    (tr.state i).symbols.nearestFunction (tr.state i).currentScope x =
      (Stretch.visible (tr.stretches i) x).head?.map (·.row tr.made) := by
  have hi := Nat.le_of_lt (List.getElem?_eq_some_iff.1 hk).1
  obtain ⟨hcalm, hrecounts⟩ := h.counted hw hk
  rw [SymbolTable.nearestFunction, hrecounts.nest.visibleFunctions hrecounts.housed
    hcalm.table.rooted (h.opened hi hrecounts.housed) hx, List.head?_map]

/-- The definition of a function has ended if the call is not in its body. -/
theorem Trace.Tells.insideBody (h : tr.Tells source) (hw : ∀ i, Whole w i)
    (hk : w[i]? = some (.act .dispatch)) {k : Known} (hmem : k ∈ Stretch.all (tr.stretches i)) :
    (tr.state i).symbols.scopes.insideBody (tr.state i).currentScope (k.row tr.made) =
      !k.ended := by
  obtain ⟨hcalm, hrecounts⟩ := h.counted hw hk
  rw [hrecounts.nest.insideBody hcalm.table.rooted hrecounts.housed.nested,
    hrecounts.ended k hmem, Bool.not_not]

/-- No word of a text is the name of a retired function. -/
theorem Trace.Tells.unmarked (h : tr.Tells source) (hi : i ≤ w.length) :
    Unmarked (tr.lexeme i) := by
  obtain ⟨m, ⟨table, htable, hm⟩, -, hlexeme, -⟩ := h.comes i hi
  obtain ⟨past, hpassed⟩ := reaches_iff_passed.1 hm.reaches
  exact hlexeme ▸ (unmarked_of_passed hpassed).last

end Trace

end Derivation

end OnePass
