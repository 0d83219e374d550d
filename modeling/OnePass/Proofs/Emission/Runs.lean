import OnePass.Proofs.Derivation.Beginning
import OnePass.Proofs.Emission.Actions
import OnePass.Proofs.Emission.Writes

/-!
# Derivations keep generation sound

The marks of a derivation fit together, and the tokens suit the actions behind them. So
a derivation without repairs goes from sound state to sound state.

* `Machine.Performs`: an action that a machine performs.
* `Ready`: a machine in the midst of a derivation, with a sound state.
* `ready_along`: a run along marks that fit together.
-/

namespace OnePass.Derivation

open Emission
open Grammar (Action Item Mark Shape Shaped Table Terminal Derives counted)
open Lexical (Token)
open Machine
open Names Target

/-- **An action is performed** by a machine, and leaves this state of generation. -/
def Machine.Performs (m : Machine) (a : Action) (g : Generator) : Prop :=
  (∃ rest, m.goals = .act a :: rest) ∧
    perform a m.lastLexeme m.lastLine m.generator = .ok () g

/-- **A machine in the midst of a derivation,** behind a terminal and with these items left. -/
structure Ready (E : Setting) (bound : Nat) (last : Option Terminal) (items : List Item)
    (m : Machine) : Prop where
  sound : Sound E 0 bound [] none m.generator items
  suits : Suits E last m.lastLexeme
  upcoming : ∀ t ∈ m.upcoming, t.Fits E.config.keywords
  lookahead : m.lookahead.isEndOfInput = true ∨ m.lookahead.Fits E.config.keywords
  marker : m.endMarker.isEndOfInput = true

variable {E : Setting} {bound : Nat} {last : Option Terminal} {items : List Item} {m : Machine}

/-- Recording a token keeps the state sound. -/
theorem Ready.advance (h : Ready E bound last items m) : Ready E bound last items m.advance := by
  unfold Machine.advance
  split
  · exact { h with lookahead := .inl h.marker }
  · rename_i t rest hu
    have hup := h.upcoming
    rw [hu, List.forall_mem_cons] at hup
    obtain ⟨held, loops, record, -, -, hr, -⟩ := h.sound.layers
    obtain ⟨hs, ht⟩ := record_steady h.sound.table hup.1 ⟨record, hr⟩
    exact ⟨h.sound.withSymbols hs ht, h.suits, hup.2, .inr hup.1, h.marker⟩

/-- The text of a token suits the actions behind its terminal. -/
theorem suits_of_ofToken? {token : Token} {t : Terminal}
    (ht : Terminal.ofToken? token = some t)
    (hf : token.isEndOfInput = true ∨ token.Fits E.config.keywords) :
    Suits E (some t) token.lexeme := by
  rcases hf with hf | hf
  · rw [Grammar.Terminal.ofToken?_eq_endMarker.2 hf, Option.some.injEq] at ht
    subst ht
    exact ⟨fun hc => (by cases hc), fun hc => by cases hc⟩
  constructor
  · intro hid hk heq
    rw [Option.some.injEq] at hid
    subst hid
    have := hf.identifier (Terminal.ofToken?_eq_identifier.1 ht)
    rw [heq, hk] at this
    cases this
  · intro hw
    rw [Option.some.injEq] at hw
    subst hw
    -- the text of a literal terminal is its own, which is too long for a symbol
    have hlexeme : ∀ x, Terminal.ofLexeme? x = some .kwWhile → x = loopKeyword := by
      intro x hx
      have := List.find?_some hx
      rw [Bool.and_eq_true, beq_iff_eq] at this
      exact this.2.symm
    unfold Terminal.ofToken? at ht
    cases hkind : token.kind with
    | keyword =>
      simp only [hkind] at ht
      rw [← hlexeme _ ht]
      exact hf.keyword hkind
    | symbol =>
      simp only [hkind] at ht
      have := hf.symbol hkind
      rw [hlexeme _ ht] at this
      exact absurd this (by decide)
    | identifier | number | endOfInput =>
      simp only [hkind] at ht
      cases ht

theorem Ready.shift {t : Terminal} (h : Ready E bound last items m)
    (ht : Terminal.ofToken? m.lookahead = some t) (node : Nat) :
    Ready E bound (some t) items (m.shift node) := by
  refine Ready.advance ⟨h.sound, ?_, h.upcoming, h.lookahead, h.marker⟩
  exact suits_of_ofToken? ht h.lookahead

/-- An address in line with the temporaries, with room for one. -/
def TempCell (c : Config) (a : Nat) : Prop :=
  a + c.unit ≤ c.capacity ∧ ∃ k, a = c.tempsFrom + k * c.unit

/-- **An action is performed.** -/
theorem Ready.act {a : Action} {g : Generator} {below : List Item}
    (h : Ready E bound last (a.takes ++ below) m) (rest : List Goal) (hb : bound + counts a ≤ 2 ^ 63 - 1)
    (hbehind : a.behind? = none ∨ a.behind? = last)
    (hp : perform a m.lastLexeme m.lastLine m.generator = .ok () g)
    (ht : ∀ cell, TempCell E.config cell → Takes a m.generator g cell → E.temp cell) :
    Ready E (bound + counts a) last (a.leaves ++ below) { m with goals := rest, generator := g } := by
  have htemps : E.Temps m.generator (temps a m.generator) := by
    intro k hk
    obtain ⟨hroom, htakes⟩ := ends_takes h.sound.memory.from_le a m.lastLexeme () g hp k hk
    refine ht _ ⟨?_, ?_⟩ htakes
    · rw [← h.sound.memory.unit, ← h.sound.memory.capacity]
      exact hroom
    · obtain ⟨n, hn⟩ := h.sound.memory.temps
      refine ⟨n + k, ?_⟩
      rw [hn, h.sound.memory.unit, Nat.add_mul, Nat.add_assoc]
  exact ⟨h.sound.ends_perform hb h.suits hbehind htemps () g hp, h.suits, h.upcoming, h.lookahead,
    h.marker⟩

theorem counted_act (a : Action) (w : List Mark) : counted (.act a :: w) = counts a + counted w := by
  unfold counted counts
  rw [List.countP_cons]
  simp only [Mark.act.injEq, decide_eq_true_eq]
  omega

/-- Reading a token leaves the memory image alone. -/
theorem memory_shift (node : Nat) : (m.shift node).generator.memory = m.generator.memory := by
  unfold Machine.shift Machine.advance
  split <;> rfl

/-- **Sound states all along.** A run along marks that fit together takes what is there and leaves
what the marks do. -/
theorem ready_along {table : Table} {w : List Mark} {m' : Machine} (h : Along table w m m')
    {last' : Option Terminal} {items' : List Item}
    (hs : Shaped ⟨last, items⟩ w ⟨last', items'⟩) (hm : Ready E bound last items m)
    (hb : bound + counted w ≤ 2 ^ 63 - 1)
    (ht : ∀ u v m₁ a g cell, w = u ++ .act a :: v → Along table u m m₁ → m₁.Performs a g →
      TempCell E.config cell → Takes a m₁.generator g cell → E.temp cell) :
    Ready E (bound + counted w) last' items' m' ∧
      Extends (fun _ => True) m.generator.memory.program m'.generator.memory.program := by
  induction h generalizing bound last items with
  | refl m =>
    cases hs
    exact ⟨hm, .refl _ _⟩
  | @act m m' w a rest g hg h _ ih =>
    cases hs with
    | act hbehind hs =>
      rw [counted_act, ← Nat.add_assoc] at hb ⊢
      have hext := hm.sound.ends_writes () g h
      have hnext := hm.act rest (by omega) hbehind h fun cell hc hk =>
        ht [] w m a g cell rfl (.refl m) ⟨⟨rest, hg⟩, h⟩ hc hk
      obtain ⟨h1, h2⟩ := ih hs hnext hb fun u v m₁ b g₁ cell hw hr =>
        ht _ v m₁ b g₁ cell (congrArg (_ :: ·) hw) (.act hg h hr)
      exact ⟨h1, (hext.mono fun _ _ => trivial).trans h2⟩
  | @shift m m' w t node rest hg h _ ih =>
    cases hs with
    | read x hs =>
      have hnext := Ready.shift (m := { m with goals := rest })
        ⟨hm.sound, hm.suits, hm.upcoming, hm.lookahead, hm.marker⟩ h node
      obtain ⟨h1, h2⟩ := ih hs hnext hb fun u v m₁ b g₁ cell hw hr =>
        ht _ v m₁ b g₁ cell (congrArg (_ :: ·) hw) (.shift hg h hr)
      rw [memory_shift] at h2
      exact ⟨h1, h2⟩
  | @expand m m' w n node rest body hg h _ ih =>
    exact ih hs ⟨hm.sound, hm.suits, hm.upcoming, hm.lookahead, hm.marker⟩ hb
      fun u v m₁ b g₁ cell hw hr => ht u v m₁ b g₁ cell hw (.expand hg h hr)

section Begun

variable {source : String}

/-- No loop is open at first. -/
theorem loops?_ofKeywords {keywords : List String} (h : keywords.contains loopKeyword = true) :
    (SymbolTable.ofKeywords keywords).loops? = some .empty := by
  have hroot : (SymbolTable.ofKeywords keywords).scopes.Rooted := rfl
  obtain ⟨i, hi, hword⟩ := List.getElem_of_mem (List.contains_iff_mem.1 h)
  have hrow : (SymbolTable.ofKeywords keywords).isLoopRow i = true := by
    simp [SymbolTable.isLoopRow, SymbolTable.scope?, SymbolTable.name?, SymbolTable.ofKeywords, hi,
      hword]
  have hsome : (SymbolTable.ofKeywords keywords).loopRow?.isSome := by
    rw [SymbolTable.loopRow?_eq hroot, List.find?_isSome]
    refine ⟨i, ?_, hrow⟩
    simpa [SymbolTable.ofKeywords] using hi
  obtain ⟨row, hrow⟩ := Option.isSome_iff_exists.1 hsome
  have hlt : row < keywords.length := by
    rw [SymbolTable.loopRow?_eq hroot] at hrow
    simpa [SymbolTable.ofKeywords] using List.mem_of_find?_eq_some hrow
  have hm : (SymbolTable.ofKeywords keywords).meaning? row = some .unused := by
    simp [SymbolTable.meaning?, SymbolTable.ofKeywords, hlt]
  rw [SymbolTable.loops?, hrow, Option.bind_some, hm]
  rfl

/-- **Generation begins in a sound state.** -/
theorem sound_ofConfig (E : Setting) : Sound E 0 0 [] none (.ofConfig E.config) [] := by
  refine ⟨Memory.regular_ofConfig E.zones, ?_, ⟨rfl, ?_, ?_⟩, ?_, [], 0, .empty, .nil, .empty, ?_, ?_⟩
  · intro s i hi
    simp [Generator.ofConfig, Memory.ofConfig] at hi
  · intro i m hm
    rw [SymbolTable.meaning?_ofKeywords hm]
    exact fun a ha => by cases ha
  · intro i hi
    rw [show (Generator.ofConfig E.config).symbols = .ofKeywords E.config.keywords from rfl,
      SymbolTable.function?_ofKeywords] at hi
    cases hi
  · intro row hrow
    cases hrow
  · unfold Setting.Records
    split
    · rename_i hk
      exact loops?_ofKeywords hk
    · rfl
  · exact ⟨List.nodup_nil, fun s => by
      simp [Generator.ofConfig, Memory.ofConfig, LoopRecord.empty]⟩

theorem ready_begun (E : Setting) (source : String) :
    Ready E 0 none [] (begun E.config source) := by
  refine Ready.advance ⟨sound_ofConfig E, ?_, fun t ht => Lexical.fits_of_mem_scan ht, .inl rfl, rfl⟩
  exact ⟨fun hc => (by cases hc), fun hc => by cases hc⟩

end Begun

section Order

variable {table : Table} {u w : List Mark} {m' m₁ m₂ : Machine}

theorem along_append (hu : Along table u m m₁) (hw : Along table w m₁ m₂) :
    Along table (u ++ w) m m₂ := by
  induction hu with
  | refl => exact hw
  | act hg h _ ih => exact .act hg h (ih hw)
  | shift hg h _ ih => exact .shift hg h (ih hw)
  | expand hg h _ ih => exact .expand hg h (ih hw)

/-- **There is only one run without repairs:** of two machines it comes to, one comes before the
other. -/
theorem along_comparable (h₁ : Along table u m m₁) (h₂ : Along table w m m₂) :
    (∃ v, w = u ++ v ∧ Along table v m₁ m₂) ∨ ∃ v, u = w ++ v ∧ Along table v m₂ m₁ := by
  induction h₁ generalizing w with
  | refl m => exact .inl ⟨w, rfl, h₂⟩
  | act hg h hr ih =>
    cases h₂ with
    | refl => exact .inr ⟨_, rfl, .act hg h hr⟩
    | act hg' h' hr' =>
      obtain ⟨rfl, rfl⟩ : _ ∧ _ := by simpa using hg.symm.trans hg'
      obtain rfl : _ = _ := by simpa using h.symm.trans h'
      rcases ih hr' with ⟨v, rfl, hv⟩ | ⟨v, rfl, hv⟩
      · exact .inl ⟨v, rfl, hv⟩
      · exact .inr ⟨v, rfl, hv⟩
    | shift hg' | expand hg' => simp [hg] at hg'
  | shift hg h hr ih =>
    cases h₂ with
    | refl => exact .inr ⟨_, rfl, .shift hg h hr⟩
    | shift hg' h' hr' =>
      obtain ⟨⟨rfl, rfl⟩, rfl⟩ : _ ∧ _ := by simpa using hg.symm.trans hg'
      rcases ih hr' with ⟨v, rfl, hv⟩ | ⟨v, rfl, hv⟩
      · exact .inl ⟨v, rfl, hv⟩
      · exact .inr ⟨v, rfl, hv⟩
    | act hg' | expand hg' => simp [hg] at hg'
  | expand hg h hr ih =>
    cases h₂ with
    | refl => exact .inr ⟨_, rfl, .expand hg h hr⟩
    | expand hg' h' hr' =>
      obtain ⟨⟨rfl, rfl⟩, rfl⟩ : _ ∧ _ := by simpa using hg.symm.trans hg'
      obtain rfl : _ = _ := by simpa using h.symm.trans h'
      exact ih hr'
    | act hg' | shift hg' => simp [hg] at hg'

end Order

end OnePass.Derivation
