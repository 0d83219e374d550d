import OnePass.Proofs.Derivation.Ownership
import OnePass.Proofs.Derivation.Preamble
import OnePass.Proofs.Emission.Room
import OnePass.Proofs.Emission.Zones

/-!
# The capacity is only a limit

No operand of a run names a cell beyond the capacity, be it in error or not. So a run that ends does
so with more room for temporaries, too: it takes the same steps, and what it leaves behind is the
same but for the room, of which a compilation tells nothing.

* `inBounds_of_passed`: the operands of a run.
* `run_withRoom`: a run with more room.
* `compile_withCapacity`: **a compilation that succeeds does not depend on the capacity.**
-/

namespace OnePass

namespace Derivation

open Emission Names
open Grammar (Table)
open Machine

variable {table : Table} {m m' : Machine} {c : Config} {room : Nat} {goal : Goal}
  {rest : List Goal}

section Operands

variable (hu : 0 < c.unit) (hsmall : c.capacity ≤ 2 ^ 63) (hfrom : c.tempsFrom ≤ 2 ^ 63)
include hu hsmall hfrom

theorem heaped_record {g : Generator} (token : Lexical.Token) (h : Heaped c g ∧ Zoned c g) :
    Heaped c { g with symbols := g.symbols.record token } ∧
      Zoned c { g with symbols := g.symbols.record token } := by
  unfold SymbolTable.record
  split
  · exact heaped_demand hu hsmall hfrom (.register token.lexeme token.kind) h
  · exact h

/-- **Every move leaves operands upon one another.** -/
theorem heaped_move (hscan : Scanning (.reserving c.keywords) m) (hmove : Move table m m')
    (h : Heaped c m.generator ∧ Zoned c m.generator) :
    Heaped c m'.generator ∧ Zoned c m'.generator := by
  by_cases hact : ∃ a rest, m.goals = .act a :: rest
  · obtain ⟨a, rest, hg⟩ := hact
    obtain ⟨g, hp, rfl⟩ := exists_perform hg hmove
    have hdemand := heaped_demand hu hsmall hfrom (.perform ⟨a, m.lastLexeme, m.lastLine⟩) h
    have hafter : stateAfter (perform a m.lastLexeme m.lastLine) m.generator = g := by
      rw [stateAfter, hp]
    rw [← hafter]
    exact hdemand
  · have hne : ∀ a rest, m.goals ≠ .act a :: rest := fun a rest hg => hact ⟨a, rest, hg⟩
    rcases generator_move hscan hne hmove with hgen | ⟨-, hgen⟩
    · rw [hgen]
      exact h
    · rw [hgen]
      exact heaped_record hu hsmall hfrom m'.lookahead h

theorem heaped_begun (source : String) :
    Heaped c (begun c source).generator ∧ Zoned c (begun c source).generator := by
  have hstart : Heaped c (.ofConfig c) ∧ Zoned c (.ofConfig c) :=
    ⟨heaped_ofConfig c, zoned_ofConfig c⟩
  unfold begun start Machine.advance
  dsimp only
  split
  · exact hstart
  · exact heaped_record hu hsmall hfrom _ hstart

end Operands

/-- **No operand of a run names a cell beyond the capacity.** -/
theorem inBounds_of_passed (htable : Grammar.table = .ok table) (hc : c.validate = .ok ())
    (hsmall : c.capacity ≤ 2 ^ 63) {source : String} {past : List Machine}
    (h : Passed table (begun c source) past m) : InBounds m.generator := by
  obtain ⟨hu, hle⟩ := c.validate_eq_ok_iff.1 hc
  have hfrom : c.tempsFrom ≤ 2 ^ 63 := Nat.le_trans hle hsmall
  have hheaped : Heaped c m.generator ∧ Zoned c m.generator := by
    induction h with
    | start => exact heaped_begun hu hsmall hfrom source
    | move hpast hmove ih =>
      exact heaped_move hu hsmall hfrom (tended_of_passed htable hc hpast).secured.scanning hmove ih
  obtain ⟨⟨limit, hlimit, hunder⟩, -⟩ := hheaped
  obtain ⟨_, -, hnests⟩ := (tended_of_passed htable hc h).nests
  obtain ⟨_, hkept⟩ := hnests.kept
  have htemps := hkept.owned.memory.temps_le
  intro o ho hmode
  have hbelow := hunder.ranked.lt hu hlimit o ho (by rw [hmode]; decide)
  have hused := hunder.used
  rw [hunder.capacity]
  omega

section Runs

/-- The machine with more room for temporaries. -/
def Machine.withRoom (room : Nat) (m : Machine) : Machine :=
  { m with generator := m.generator.withRoom room }

theorem advance_withRoom (m : Machine) : (m.withRoom room).advance = m.advance.withRoom room := by
  unfold Machine.advance Machine.withRoom
  dsimp only
  split <;> rfl

theorem drop_withRoom (m : Machine) (goal : Goal) :
    (m.withRoom room).drop goal = (m.drop goal).withRoom room := by
  unfold Machine.drop Machine.withRoom
  dsimp only
  split <;> rfl

theorem skip_withRoom (m : Machine) : (m.withRoom room).skip = m.skip.withRoom room :=
  advance_withRoom (m.complain _)

theorem giveUp_withRoom (m : Machine) (goal : Goal) (name : String) :
    (m.withRoom room).giveUp goal name = (m.giveUp goal name).withRoom room :=
  drop_withRoom (m.complain _) goal

theorem shift_withRoom (m : Machine) (node : Nat) :
    (m.withRoom room).shift node = (m.shift node).withRoom room :=
  advance_withRoom (m := { m with
    tree := m.tree.relabel node m.lookahead.display
    lastLexeme := m.lookahead.lexeme
    lastLine := m.lookahead.line })

theorem abandon_withRoom (m : Machine) : (m.withRoom room).abandon = m.abandon.withRoom room := by
  have hdrop : ∀ (goals : List Goal) (m : Machine),
      goals.foldl Machine.drop (m.withRoom room) = (goals.foldl Machine.drop m).withRoom room := by
    intro goals
    induction goals with
    | nil => exact fun _ => rfl
    | cons goal goals ih =>
      intro m
      rw [List.foldl_cons, List.foldl_cons, drop_withRoom, ih]
  have hfold := hdrop m.goals (m.complain .unexpectedEnd)
  change { m.goals.foldl Machine.drop ((m.complain .unexpectedEnd).withRoom room) with
    goals := [] } = _
  rw [hfold]
  rfl

/-- **A step with more room** is the same step. -/
theorem step_withRoom (hm : InBounds m.generator) (h : m.step table goal rest = .ok m') :
    (m.withRoom room).step table goal rest = .ok (m'.withRoom room) := by
  unfold step at h ⊢
  cases goal with
  | act a =>
    simp only [Machine.act] at h ⊢
    split at h
    · rename_i g hp
      cases h
      have hroom : perform a (m.withRoom room).lastLexeme (m.withRoom room).lastLine
          (m.withRoom room).generator = .ok () (g.withRoom room) := roomyAt_perform a hm () g hp
      rw [hroom]
      rfl
    · cases h
  | textEnd =>
    simp only at h ⊢
    split at h
    · cases h
      exact if_pos ‹_›
    · cases h
      rw [skip_withRoom]
      exact if_neg ‹_›
  | leaf t node =>
    simp only at h ⊢
    split at h
    · cases h
      rw [← shift_withRoom]
      exact if_pos ‹_›
    · cases h
      rw [← giveUp_withRoom]
      exact if_neg ‹_›
  | phrase n node =>
    have hpredicted : (m.withRoom room).predicted? table n = m.predicted? table n := rfl
    have hfollow : (m.withRoom room).canFollow table n = m.canFollow table n := rfl
    have hend : (m.withRoom room).lookahead = m.lookahead := rfl
    simp only [hpredicted, hfollow, hend, skip_withRoom, abandon_withRoom] at h ⊢
    split at h
    · cases h
      rfl
    · split at h
      · cases h
        rw [← giveUp_withRoom]
        exact if_pos ‹_›
      · split at h
        · cases h
          rw [if_neg ‹_›, if_pos ‹_›]
        · cases h
          rw [if_neg ‹_›, if_neg ‹_›]

/-- **A run with more room** takes the same steps. -/
theorem run_withRoom (htable : Grammar.table = .ok table) (hc : c.validate = .ok ())
    (hsmall : c.capacity ≤ 2 ^ 63) {source : String} {past : List Machine} {bound : Nat}
    (hpast : Passed table (begun c source) past m) (h : m.run table bound = .ok m') :
    (m.withRoom room).run table bound = .ok (m'.withRoom room) := by
  induction bound generalizing m past with
  | zero =>
    simp only [run, Except.ok.injEq] at h ⊢
    rw [h]
  | succ bound ih =>
    have hgoals : (m.withRoom room).goals = m.goals := rfl
    unfold run at h ⊢
    rw [hgoals]
    split at h
    · cases ‹bound + 1 = 0›
    · cases h
      rfl
    · rename_i goal rest hbound hg
      cases hbound
      cases hstep : m.step table goal rest with
      | error e =>
        rw [hstep] at h
        cases h
      | ok next =>
        rw [hstep] at h
        have hnext : (m.withRoom room).step table goal rest = .ok (next.withRoom room) :=
          step_withRoom (inBounds_of_passed htable hc hsmall hpast) hstep
        simp only [hnext]
        exact ih (hpast.move (move_of_step hg hstep)) h

theorem begun_withRoom (c : Config) (source : String) :
    begun { c with capacity := c.capacity + room } source = (begun c source).withRoom room :=
  advance_withRoom (m := {
    generator := .ofConfig c
    tree := .ofLabel Grammar.start.name
    goals := [.phrase Grammar.start Tree.root, .textEnd]
    lookahead := (Lexical.scan c.keywords source).endMarker
    upcoming := (Lexical.scan c.keywords source).tokens
    endMarker := (Lexical.scan c.keywords source).endMarker
    lastLexeme := ""
    lastLine := 1
    errors := #[] })

/-- **A derivation with more room** leaves the same behind, but for the room. -/
theorem parse_withRoom (hc : c.validate = .ok ()) (hsmall : c.capacity ≤ 2 ^ 63) {source : String}
    {o : Outcome} (h : parse c source = .ok o) :
    parse { c with capacity := c.capacity + room } source =
      .ok { o with generator := o.generator.withRoom room } := by
  obtain ⟨table, m, htable, hrun, -, rfl⟩ := run_of_parse h
  have hmore : ((begun c source).withRoom room).run table
      (stepBound (Lexical.scan c.keywords source).tokens.length) = .ok (m.withRoom room) :=
    run_withRoom htable hc hsmall .start hrun
  rw [← begun_withRoom] at hmore
  rw [parse_eq, htable, parseBy]
  dsimp only
  rw [hmore]
  rfl

end Runs

end Derivation

open OnePass.Derivation Emission in
/-- **The capacity is only a limit.** What compiles under some capacity compiles under any larger
one that leaves addresses words, and to the same: tokens, errors, rows, tree and code. -/
theorem compile_withCapacity {c : Config} {source : String} {r : Compilation} {capacity : Nat}
    (hmore : c.capacity ≤ capacity) (hsmall : capacity < 2 ^ 63) (h : compile c source = .ok r) :
    compile { c with capacity := capacity } source = .ok r := by
  obtain ⟨hc, o, g, ho, hmain, rfl⟩ := outcome_of_compile h
  obtain ⟨room, rfl⟩ := Nat.exists_eq_add_of_le hmore
  obtain ⟨hu, hle⟩ := c.validate_eq_ok_iff.1 hc
  have hvalid : ({ c with capacity := c.capacity + room } : Config).validate = .ok () :=
    (Config.validate_eq_ok_iff _).2 ⟨hu, Nat.le_trans hle (Nat.le_add_right _ _)⟩
  have hparse : parse { c with capacity := c.capacity + room } (c.preamble source) =
      .ok { o with generator := o.generator.withRoom room } := parse_withRoom hc (by omega) ho
  have hend : callMain o.lastLine (o.generator.withRoom room) = .ok () (g.withRoom room) :=
    roomy_callMain o.generator () g hmain
  have hpreamble : ({ c with capacity := c.capacity + room } : Config).preamble source =
      c.preamble source := rfl
  rw [compile_eq, hvalid]
  dsimp only
  rw [hpreamble, ← parse_eq, hparse, Compilation.ofOutcome]
  dsimp only
  rw [hend]
  rfl

open OnePass.Derivation in
/-- A text with an item that is assigned, a result that is dropped and a bracket that is too much,
where the zone of the temporaries has room for three. -/
theorem compile_withCapacity_of_three :
    let c : Config := { Config.standard with capacity := 512 }
    let source := "def f ( ) : ; def main ( ) : x = [ 1 , 2 ] ; x [ 1 ] = 3 ; f ( ) ; ) ;"
    ∃ r, compile c source = .ok r ∧ r.syntaxErrors = [⟨1, .illegal ")"⟩] ∧
      compile { c with capacity := 900 } source = .ok r := by
  intro c source
  obtain ⟨r, hr, herrors⟩ : ∃ r, compile c source = .ok r ∧ r.syntaxErrors = [⟨1, .illegal ")"⟩] :=
    exists_of_toOption_map <| by
      rw [compile_eq, Grammar.table_eq_ok]
      decide +kernel
  exact ⟨r, hr, herrors, compile_withCapacity (by decide : c.capacity ≤ 900) (by decide) hr⟩

end OnePass
