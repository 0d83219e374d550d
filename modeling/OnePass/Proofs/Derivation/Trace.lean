import OnePass.Proofs.Emission.Quiet
import OnePass.Proofs.Syntax.Reading

/-!
# The states along a derivation

A derivation without repairs is told by the state of generation before each of its marks.
Between two marks an action is performed, or a token is passed and the next one recorded.

* `Span`: marks that stand between two places among others.
* `Trace`: the states along marks, with the token read last.
* `exists_trace`, `trace_of_along`: runs without repairs have traces.
-/

namespace OnePass.Derivation

open Emission Names
open Grammar (Action Item Mark Shape Shaped Table Terminal)
open Lexical (Token)
open Machine
open Syntax (Block blockMarks)

/-- **Marks that stand between two places** among others. -/
def Span (w : List Mark) : Nat → Nat → List Mark → Prop
  | i, j, [] => i = j
  | i, j, k :: rest => w[i]? = some k ∧ Span w (i + 1) j rest

section Span

variable {w u v : List Mark} {i j : Nat} {k : Mark}

@[simp] theorem span_nil : Span w i j [] ↔ i = j := Iff.rfl

@[simp] theorem span_cons : Span w i j (k :: v) ↔ w[i]? = some k ∧ Span w (i + 1) j v := Iff.rfl

@[simp] theorem span_append : Span w i j (u ++ v) ↔ ∃ n, Span w i n u ∧ Span w n j v := by
  induction u generalizing i with
  | nil => simp
  | cons k u ih => simp only [List.cons_append, span_cons, ih, and_assoc, exists_and_left]

theorem Span.eq_add (h : Span w i j v) : j = i + v.length := by
  induction v generalizing i with
  | nil => exact h.symm
  | cons k v ih =>
    rw [ih h.2, List.length_cons]
    omega

theorem span_shift (h : Span u i j v) : Span (k :: u) (i + 1) (j + 1) v := by
  induction v generalizing i with
  | nil => exact congrArg (· + 1) h
  | cons k' v ih => exact ⟨by simpa using h.1, ih h.2⟩

theorem span_self (w : List Mark) : Span w 0 w.length w := by
  induction w with
  | nil => rfl
  | cons k w ih => exact ⟨rfl, span_shift ih⟩

end Span

/-- **The states before each mark,** with the lexeme and the line of the token read last. -/
structure Trace (E : Setting) (w : List Mark) where
  state : Nat → Generator
  lexeme : Nat → String
  line : Nat → Nat
  /-- An action leads from its state to the next. -/
  acts : ∀ {i : Nat} {a : Action}, w[i]? = some (.act a) →
    perform a (lexeme i) (line i) (state i) = .ok () (state (i + 1)) ∧ lexeme (i + 1) = lexeme i
  /-- The token before an action suits it. -/
  suits : ∀ {i : Nat} {a : Action}, w[i]? = some (.act a) →
    a.behind? = none ∨ Suits E a.behind? (lexeme i)
  /-- A token is passed, and the one behind it is recorded. -/
  reads : ∀ {i : Nat} {t : Terminal} {x : String}, w[i]? = some (.read t x) →
    lexeme (i + 1) = x ∧
      (state (i + 1) = state i ∨ ∃ token : Token, token.Fits E.config.keywords ∧
        state (i + 1) = { state i with symbols := (state i).symbols.record token })

/-- A sequence with one more before the first. -/
def before {α : Type} (a : α) (f : Nat → α) : Nat → α
  | 0 => a
  | i + 1 => f i

@[simp] theorem before_zero {α : Type} (a : α) (f : Nat → α) : before a f 0 = a := rfl

@[simp] theorem before_succ {α : Type} (a : α) (f : Nat → α) (i : Nat) :
    before a f (i + 1) = f i := rfl

/-- **A trace with one more mark** before the first. -/
def Trace.cons {E : Setting} {w : List Mark} (tr : Trace E w) (k : Mark) (g : Generator)
    (lexeme : String) (line : Nat)
    (hact : ∀ a, k = .act a → (perform a lexeme line g = .ok () (tr.state 0) ∧
      tr.lexeme 0 = lexeme) ∧ (a.behind? = none ∨ Suits E a.behind? lexeme))
    (hread : ∀ t x, k = .read t x → tr.lexeme 0 = x ∧
      (tr.state 0 = g ∨ ∃ token : Token, token.Fits E.config.keywords ∧
        tr.state 0 = { g with symbols := g.symbols.record token })) : Trace E (k :: w) where
  state := before g tr.state
  lexeme := before lexeme tr.lexeme
  line := before line tr.line
  acts {i a} ha := by
    cases i with
    | zero => exact (hact a (by simpa using ha)).1
    | succ i => exact tr.acts (by simpa using ha)
  suits {i a} ha := by
    cases i with
    | zero => exact (hact a (by simpa using ha)).2
    | succ i => exact tr.suits (by simpa using ha)
  reads {i t x} hx := by
    cases i with
    | zero => exact hread t x (by simpa using hx)
    | succ i => exact tr.reads (by simpa using hx)

/-- **The trace of the derivation of a text:** its states are those that the machine comes to, and it
comes to every action. -/
def Trace.Follows {E : Setting} {w : List Mark} (tr : Trace E w) (table : Table)
    (m m' : Machine) : Prop :=
  tr.state w.length = m'.generator ∧
    ∀ i ≤ w.length, ∃ m₁, Along table (w.take i) m m₁ ∧ m₁.generator = tr.state i ∧
      m₁.lastLexeme = tr.lexeme i ∧ m₁.lastLine = tr.line i ∧
      ∀ a, w[i]? = some (.act a) → ∃ rest, m₁.goals = .act a :: rest

/-- A machine whose tokens are those of a scan. -/
structure Scanning (E : Setting) (m : Machine) : Prop where
  upcoming : ∀ t ∈ m.upcoming, t.Fits E.config.keywords
  lookahead : m.lookahead.isEndOfInput = true ∨ m.lookahead.Fits E.config.keywords
  marker : m.endMarker.isEndOfInput = true

section Scanning

variable {E : Setting} {m m' : Machine} {table : Table} {w : List Mark}

/-- Passing a token records the one behind it, if there is one. -/
theorem Scanning.advance (h : Scanning E m) : Scanning E m.advance ∧
    (m.advance.generator = m.generator ∨ (m.advance.lookahead.Fits E.config.keywords ∧
      m.advance.generator =
        { m.generator with symbols := m.generator.symbols.record m.advance.lookahead })) := by
  unfold Machine.advance
  split
  · exact ⟨⟨h.upcoming, .inl h.marker, h.marker⟩, .inl rfl⟩
  · rename_i t rest hu
    have hup := h.upcoming
    rw [hu, List.forall_mem_cons] at hup
    exact ⟨⟨hup.2, .inr hup.1, h.marker⟩, .inr ⟨hup.1, rfl⟩⟩

theorem lastLexeme_advance : m.advance.lastLexeme = m.lastLexeme := by
  unfold Machine.advance
  split <;> rfl

/-- **Every run along marks has a trace.** -/
theorem exists_trace (h : Along table w m m') (hm : Scanning E m) {last : Option Terminal}
    {items : List Item} {after : Shape} (hs : Shaped ⟨last, items⟩ w after)
    (hlast : Suits E last m.lastLexeme) : ∃ tr : Trace E w,
      tr.lexeme 0 = m.lastLexeme ∧ tr.line 0 = m.lastLine ∧ tr.state 0 = m.generator ∧
        tr.Follows table m m' := by
  induction h generalizing last items with
  | refl m =>
    refine ⟨⟨fun _ => m.generator, fun _ => m.lastLexeme, fun _ => m.lastLine, by simp, by simp,
      by simp⟩, rfl, rfl, rfl, rfl, ?_⟩
    intro i hi
    exact ⟨m, by rw [List.take_nil]; exact .refl m, rfl, rfl, rfl, fun _ hc => by cases hc⟩
  | @act m m' w a rest g hg h hw ih =>
    cases hs with | act hbehind hs => ?_
    obtain ⟨tr, hlexeme, hline, hstate, hend, hcomes⟩ :=
      ih ⟨hm.upcoming, hm.lookahead, hm.marker⟩ hs hlast
    refine ⟨tr.cons (.act a) m.generator m.lastLexeme m.lastLine ?_ (by simp), rfl, rfl, rfl,
      hend, ?_⟩
    · rintro _ ⟨⟩
      rw [hstate]
      exact ⟨⟨h, hlexeme⟩, hbehind.imp_right fun (heq : a.behind? = last) => heq ▸ hlast⟩
    · intro i hi
      cases i with
      | zero => exact ⟨m, .refl m, rfl, rfl, rfl, by rintro _ ⟨⟩; exact ⟨rest, hg⟩⟩
      | succ i =>
        obtain ⟨m₁, hm₁, hfacts⟩ := hcomes i (by simpa using hi)
        exact ⟨m₁, .act hg h hm₁, hfacts⟩
  | @shift m m' w t node rest hg h hw ih =>
    have hscan : Scanning E { ({ m with goals := rest } : Machine) with
        tree := m.tree.relabel node m.lookahead.display
        lastLexeme := m.lookahead.lexeme
        lastLine := m.lookahead.line } := ⟨hm.upcoming, hm.lookahead, hm.marker⟩
    obtain ⟨hnext, hrecord⟩ := hscan.advance
    have hsuits : Suits E (some t) m.lookahead.lexeme := suits_of_ofToken? h hm.lookahead
    cases hs with | read _ hs => ?_
    obtain ⟨tr, hlexeme, hline, hstate, hend, hcomes⟩ :=
      ih hnext hs (by rw [Machine.shift, lastLexeme_advance]; exact hsuits)
    refine ⟨tr.cons (.read t m.lookahead.lexeme) m.generator m.lastLexeme m.lastLine (by simp) ?_,
      rfl, rfl, rfl, hend, ?_⟩
    · rintro _ _ ⟨⟩
      rw [hstate]
      exact ⟨hlexeme.trans lastLexeme_advance, hrecord.imp_right fun hrecorded => ⟨_, hrecorded⟩⟩
    · intro i hi
      cases i with
      | zero => exact ⟨m, .refl m, rfl, rfl, rfl, fun _ hc => by cases hc⟩
      | succ i =>
        obtain ⟨m₁, hm₁, hfacts⟩ := hcomes i (by simpa using hi)
        exact ⟨m₁, .shift hg h hm₁, hfacts⟩
  | expand hg h hw ih =>
    obtain ⟨tr, hlexeme, hline, hstate, hend, hcomes⟩ :=
      ih ⟨hm.upcoming, hm.lookahead, hm.marker⟩ hs hlast
    refine ⟨tr, hlexeme, hline, hstate, hend, fun i hi => ?_⟩
    obtain ⟨m₁, hm₁, hfacts⟩ := hcomes i hi
    exact ⟨m₁, .expand hg h hm₁, hfacts⟩

end Scanning

/-- The machine that a text begins with has its tokens from a scan. -/
theorem scanning_begun (config : Config) (source : String) :
    Scanning (.reserving config.keywords) (begun config source) :=
  (Scanning.advance ⟨fun _ ht => Lexical.fits_of_mem_scan ht, .inl rfl, rfl⟩).1

/-- At first there is nothing, but for the first token. -/
theorem generator_begun (config : Config) (source : String) :
    (begun config source).generator = .ofConfig config ∨
      ((begun config source).lookahead.Fits config.keywords ∧
        (begun config source).generator = { Generator.ofConfig config with
          symbols := (SymbolTable.ofKeywords config.keywords).record
            (begun config source).lookahead }) :=
  (Scanning.advance (E := .reserving config.keywords)
    ⟨fun _ ht => Lexical.fits_of_mem_scan ht, .inl rfl, rfl⟩).2

/-- **A derivation without repairs has a trace,** whose states are those of the machines that it comes
to, before every action as well. -/
theorem trace_of_along {config : Config} {source : String} {table : Table} {w : List Mark}
    {m : Machine} (htable : Grammar.table = .ok table)
    (hd : Grammar.Derives Grammar.productions [.nonterminal Grammar.start] w)
    (h : Along table w (begun config source) m) :
    ∃ tr : Trace (.reserving config.keywords) w,
      tr.state 0 = (begun config source).generator ∧ tr.state w.length = m.generator ∧
        ∀ i ≤ w.length, ∃ m₁, Comes config source (w.take i) m₁ ∧ m₁.generator = tr.state i ∧
          m₁.lastLexeme = tr.lexeme i ∧ m₁.lastLine = tr.line i ∧
            ∀ a, w[i]? = some (.act a) → ∃ rest, m₁.goals = .act a :: rest := by
  obtain ⟨last, hshaped⟩ := Grammar.shaped_of_derives hd
  obtain ⟨tr, -, -, hstart, hend, hcomes⟩ := exists_trace h (scanning_begun config source) hshaped
    ⟨fun hc => (by cases hc), fun hc => by cases hc⟩
  refine ⟨tr, hstart, hend, fun i hi => ?_⟩
  obtain ⟨m₁, hm₁, hfacts⟩ := hcomes i hi
  exact ⟨m₁, ⟨table, htable, hm₁⟩, hfacts⟩

end OnePass.Derivation
