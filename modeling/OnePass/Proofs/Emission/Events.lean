import OnePass.Proofs.Derivation.Acceptance
import OnePass.Proofs.Derivation.Trace
import OnePass.Proofs.Emission.Runs

/-!
# The actions of a derivation

A text that is derived without repairs has its actions performed one after another, each
in a sound state. What one of them writes is there at the end.

* `Accepted`: a text that is derived without repairs.
* `Event`: an action in the derivation of a text.
* `Accepted.ready`, `Accepted.final`: the states between the actions, and the last.
* `Event.sound`, `Event.lasts`: an action finds what it takes, and what it writes stays.
* `trace_of_parse`: an accepted text is that of a block, along whose marks it has a trace.
-/

namespace OnePass.Derivation

open Emission Names Target
open Grammar (Action Item Mark Shaped Terminal counted productions counted_le_of_derives)
open Machine
open Syntax (Block blockMarks)

/-- **A text that is derived without repairs.** All addresses are words, and so is the length of
the text. -/
structure Accepted (config : Config) (source : String) (o : Outcome) : Prop where
  valid : config.validate = .ok ()
  addressable : config.capacity ≤ 2 ^ 63
  storable : source.length < 2 ^ 63
  parsed : parse config source = .ok o
  derived : o.syntaxErrors = []

/-- **An action in the derivation of a text,** behind these marks. -/
structure Event (config : Config) (source : String) where
  marks : List Mark
  machine : Machine
  action : Action
  after : Generator
  comes : Comes config source marks machine
  performs : machine.Performs action after

namespace Event

variable {config : Config} {source : String}

/-- The state that the action begins in. -/
def before (e : Event config source) : Generator := e.machine.generator

/-- The action comes before another. -/
def Before (e e' : Event config source) : Prop := (e.marks ++ [.act e.action]) <+: e'.marks

end Event

/-- **A temporary that was handed out** in the derivation of a text. -/
def HandedOut (config : Config) (source : String) (cell : Nat) : Prop :=
  ∃ e : Event config source, Takes e.action e.before e.after cell

/-- There are no more arguments than characters. -/
theorem counted_le_length {config : Config} {source : String} {o : Outcome}
    (h : parse config source = .ok o) {w : List Mark}
    (hd : Grammar.Derives productions [.nonterminal Grammar.start] w)
    (hs : Mark.Spelled w o.scan.tokens) : counted w ≤ source.length := by
  have hscan : o.scan = Lexical.scan config.keywords source := scan_of_parse h
  have htokens : o.scan.tokens.length ≤ source.length := by
    rw [hscan]
    exact Lexical.length_scan_le
  have hreadings : (Mark.readings w).length = o.scan.tokens.length := by
    simpa using (congrArg List.length hs).symm
  have hcounted := counted_le_of_derives hd
  omega

namespace Accepted

variable {config : Config} {source : String} {o : Outcome}

theorem unit_pos (h : Accepted config source o) : 0 < config.unit :=
  ((config.validate_eq_ok_iff).1 h.valid).1

theorem zones (h : Accepted config source o) : config.tempsFrom ≤ config.capacity :=
  ((config.validate_eq_ok_iff).1 h.valid).2

/-- The configuration of the text, with these of the temporaries. -/
def setting (h : Accepted config source o) (temp : Nat → Prop) : Setting where
  config := config
  unit_pos := h.unit_pos
  zones := h.zones
  small := h.addressable
  temp cell := TempCell config cell ∧ temp cell
  temp_lt cell hcell := by
    have h1 := hcell.1.1
    have h2 := h.unit_pos
    have h3 := h.addressable
    omega

/-- There are fewer arguments than words. -/
theorem counted_le (h : Accepted config source o) {w : List Mark}
    (hd : Grammar.Derives productions [.nonterminal Grammar.start] w)
    (hs : Mark.Spelled w o.scan.tokens) : counted w ≤ 2 ^ 63 - 1 := by
  have hle := counted_le_length h.parsed hd hs
  have hlt := h.storable
  omega

/-- **The states between the actions are sound,** with the temporaries that have been taken, and
from each of them the derivation goes on to the end. -/
theorem ready (h : Accepted config source o) {temp : Nat → Prop} {u : List Mark} {m : Machine}
    (hc : Comes config source u m)
    (ht : ∀ e : Event config source, (e.marks ++ [.act e.action]) <+: u → ∀ cell,
      Takes e.action e.before e.after cell → temp cell) :
    ∃ table bound last items, Grammar.table = .ok table ∧
      Ready (h.setting temp) bound last items m ∧
      ∃ v last' m', Along table v m m' ∧ Shaped ⟨last, items⟩ v ⟨last', []⟩ ∧
        bound + counted v ≤ 2 ^ 63 - 1 ∧ m'.goals = [.textEnd] ∧ o.generator = m'.generator := by
  obtain ⟨table, hu⟩ := hc
  obtain ⟨htable, hu⟩ := hu
  obtain ⟨table', w, m', htable', hd, hs, hw, hgoals, -, -, hgen, -⟩ :=
    along_of_parse h.parsed h.derived
  obtain rfl : table' = table := by
    rw [htable] at htable'
    exact (Except.ok.inj htable').symm
  have hcount := h.counted_le hd hs
  have hsplit : ∃ v, w = u ++ v ∧ Along table' v m m' := by
    rcases along_comparable hu hw with h' | ⟨v, rfl, hv⟩
    · exact h'
    · cases hv with
      | refl => exact ⟨[], by simp, .refl _⟩
      | act hg | shift hg | expand hg => simp [hgoals] at hg
  obtain ⟨v, rfl, hv⟩ := hsplit
  obtain ⟨last', hshaped⟩ := Grammar.shaped_of_derives hd
  obtain ⟨⟨last, items⟩, hsu, hsv⟩ := hshaped.of_append
  have hcu : counted (u ++ v) = counted u + counted v := List.countP_append
  have hready := (ready_along hu hsu (ready_begun (h.setting temp) source) (by omega)
    fun u₁ v₁ m₁ a g cell hsplit hu₁ hp hcell htakes => ⟨hcell, ?_⟩).1
  · exact ⟨table', 0 + counted u, last, items, htable, hready, v, last', m', hv, hsv, by omega, hgoals,
      hgen⟩
  · refine ht ⟨u₁, m₁, a, g, ⟨table', htable, hu₁⟩, hp⟩ ⟨v₁, ?_⟩ cell htakes
    simp [hsplit]

/-- **From every machine on,** the derivation goes on in sound states, and what stands in the
program stays. -/
theorem final (h : Accepted config source o) {temp : Nat → Prop} {u : List Mark} {m : Machine}
    (hc : Comes config source u m)
    (ht : ∀ e : Event config source, ∀ cell, Takes e.action e.before e.after cell → temp cell) :
    (∃ bound, Sound (h.setting temp) 0 bound [] none o.generator []) ∧
      Extends (fun _ => True) m.generator.memory.program o.generator.memory.program := by
  obtain ⟨table, bound, last, items, htable, hready, v, last', m', hv, hs, hb, -, hgen⟩ :=
    h.ready hc fun e _ => ht e
  obtain ⟨table', htable', hu⟩ := hc
  obtain rfl : table' = table := by
    rw [htable] at htable'
    exact (Except.ok.inj htable').symm
  obtain ⟨h1, h2⟩ := ready_along hv hs hready hb fun u₁ v₁ m₁ a g cell _ hu₁ hp hcell htakes =>
    ⟨hcell, ht ⟨u ++ u₁, m₁, a, g, ⟨table', htable, along_append hu hu₁⟩, hp⟩ cell htakes⟩
  rw [hgen]
  exact ⟨⟨_, h1.sound⟩, h2⟩

end Accepted

namespace Event

variable {config : Config} {source : String} {o : Outcome}

/-- Behind the action the derivation goes on. -/
theorem comes_after (e : Event config source) : ∃ rest,
    Comes config source (e.marks ++ [.act e.action])
      { e.machine with goals := rest, generator := e.after } := by
  obtain ⟨table, htable, hw⟩ := e.comes
  obtain ⟨⟨rest, hg⟩, hp⟩ := e.performs
  exact ⟨rest, table, htable, along_append hw (.act hg hp (.refl _))⟩

/-- **What an action leaves in the program** is there at the end. -/
theorem lasts (e : Event config source) (h : Accepted config source o) :
    Extends (fun _ => True) e.after.memory.program o.generator.memory.program := by
  obtain ⟨rest, hc⟩ := e.comes_after
  exact (h.final hc fun _ _ _ => trivial).2

/-- **An action finds what it takes,** in a sound state, and its effect on the program stays. -/
theorem sound (e : Event config source) (h : Accepted config source o) {temp : Nat → Prop}
    (ht : ∀ e' : Event config source, e'.Before e → ∀ cell,
      Takes e'.action e'.before e'.after cell → temp cell) :
    ∃ bound rest, Sound (h.setting temp) 0 bound [] none e.before (e.action.takes ++ rest) := by
  obtain ⟨table, bound, last, items, -, hready, v, last', m', hv, hs, -, hgoals, -⟩ :=
    h.ready e.comes ht
  obtain ⟨⟨rest, hg⟩, -⟩ := e.performs
  cases hv with
  | refl => simp [hgoals] at hg
  | act hg' =>
    obtain ⟨rfl, -⟩ : _ ∧ _ := by simpa using hg.symm.trans hg'
    cases hs with
    | act => exact ⟨bound, _, hready.sound⟩
  | shift hg' | expand hg' => simp [hg] at hg'

end Event

/-- **An accepted text is the text of a block,** and has a trace along the marks of the block. -/
theorem trace_of_parse {config : Config} {source : String} {o : Outcome}
    (h : parse config source = .ok o) (he : o.syntaxErrors = []) :
    ∃ (b : Block) (tr : Trace (.reserving config.keywords) (blockMarks b)),
      (∀ s ∈ b, s.Graded) ∧ Mark.Spelled (blockMarks b) o.scan.tokens ∧
        Grammar.counted (blockMarks b) ≤ source.length ∧
        tr.state 0 = (begun config source).generator ∧
        tr.state (blockMarks b).length = o.generator ∧
        ∀ i ≤ (blockMarks b).length, ∃ m, Comes config source ((blockMarks b).take i) m ∧
          m.generator = tr.state i := by
  obtain ⟨table, w, m, htable, hd, hs, hw, -, -, -, hgen, -⟩ := along_of_parse h he
  obtain ⟨b, rfl, hgraded⟩ := Syntax.exists_block hd hs
  obtain ⟨tr, hstart, hend, hcomes⟩ := trace_of_along htable hd hw
  refine ⟨b, tr, hgraded, hs, counted_le_length h hd hs, hstart, hend.trans hgen.symm, fun i hi => ?_⟩
  obtain ⟨m₁, hm₁, hgen₁, -⟩ := hcomes i hi
  exact ⟨m₁, hm₁, hgen₁⟩

end OnePass.Derivation
