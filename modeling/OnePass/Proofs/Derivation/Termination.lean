import OnePass.Proofs.Derivation.Accounting
import OnePass.Proofs.Lexical.Calls

/-!
# Every derivation ends

The loop of the machine without a bound on its turns, with the scanner beside it that is asked for
a token whenever one is passed. Whatever the text is, the loop ends: no phrase begins with
itself, so between two tokens the potential of the machine falls with every turn.

* `Loop`: the turns of the loop and the calls of the scanner, up to the end.
* `exists_loop`: the loop ends, after no more turns than the potential, and no more calls than there
  are characters ahead and one. `run_of_loop`: where the bounded run ends.
* `parse_terminates`: both, for every text.
-/

namespace OnePass.Derivation

open Grammar
open Lexical (Token Scanner)
open Machine

variable {config : Config} {source : String} {table : Table} {m m' : Machine} {s s' : Scanner}
  {fates : List (Fate × Token)} {r : Except Failure Machine} {turns calls : Nat}

/-- **A token is asked for if one is passed,** and becomes the next one. -/
inductive Fetched : Option Fate → Scanner → Nat → Token → Scanner → Prop
  | kept {s : Scanner} {t : Token} : Fetched none s 0 t s
  | pulled {fate : Fate} {s s' : Scanner} {calls : Nat} {t : Token} (h : s.Pulls calls t s') :
      Fetched (some fate) s calls t s'

/-- **The loop** from a machine and a scanner: so many turns, and so many calls of the scanner, until
no goal is left or an action fails. -/
inductive Loop (table : Table) : Machine → Scanner → Nat → Nat → Except Failure Machine → Prop
  | done {m : Machine} {s : Scanner} (hg : m.goals = []) : Loop table m s 0 0 (.ok m)
  | failed {m : Machine} {s : Scanner} {goal : Goal} {rest : List Goal} {e : Failure}
      (hg : m.goals = goal :: rest) (hstep : m.step table goal rest = .error e) :
      Loop table m s 1 0 (.error e)
  | turn {m m' : Machine} {s s' : Scanner} {goal : Goal} {rest : List Goal} {fate? : Option Fate}
      {asked turns calls : Nat} {r : Except Failure Machine} (hg : m.goals = goal :: rest)
      (hstep : m.step table goal rest = .ok m') (hturn : Turn table m fate? m')
      (hfetch : Fetched fate? s asked m'.lookahead s') (hloop : Loop table m' s' turns calls r) :
      Loop table m s (turns + 1) (asked + calls) r

/-- **A run that may take as many turns as the loop** ends where the loop ends. -/
theorem run_of_loop (h : Loop table m s turns calls r) {bound : Nat} (hb : turns ≤ bound) :
    m.run table bound = r := by
  induction h generalizing bound with
  | done hg =>
    cases bound with
    | zero => rfl
    | succ bound => simp only [run, hg]
  | failed hg hstep =>
    obtain ⟨bound, rfl⟩ : ∃ b, bound = b + 1 := ⟨bound - 1, by omega⟩
    unfold run
    simp only [hg, hstep]
  | turn hg hstep _ _ _ ih =>
    obtain ⟨bound, rfl⟩ : ∃ b, bound = b + 1 := ⟨bound - 1, by omega⟩
    unfold run
    simp only [hg, hstep]
    exact ih (by omega)

/-- What is asked for during a turn: the token that becomes the next one, if one is passed. The
calls are paid for by the characters that they take off, and by the end of the text that is met
once. -/
theorem exists_fetched {fate? : Option Fate} (h : Course table (begun config source) fates m)
    (hturn : Turn table m fate? m') : ∃ asked s',
      Fetched fate? ((Scanner.start config.keywords source).after (fates.length + 1)) asked
        m'.lookahead s' ∧
      s' = (Scanner.start config.keywords source).after
        ((fates ++ fate?.toList.map fun fate => (fate, m.lookahead)).length + 1) ∧
      asked + s'.ahead.length + (if m'.lookahead.isEndOfInput then 0 else 1) ≤
        ((Scanner.start config.keywords source).after (fates.length + 1)).ahead.length +
          if m.lookahead.isEndOfInput then 0 else 1 := by
  cases fate? with
  | none =>
    have hsame : m'.lookahead = m.lookahead := by
      have htokens := (h.turn hturn).lookahead (orderly_begun config source) lookahead_begun
      rw [h.lookahead (orderly_begun config source) lookahead_begun, htokens]
      simp
    refine ⟨0, _, .kept, by simp, ?_⟩
    rw [hsame, Nat.zero_add]
  | some fate =>
    have hnext := (h.turn hturn).pull
    have hlength : (fates ++ (some fate).toList.map fun fate => (fate, m.lookahead)).length =
        fates.length + 1 := by simp
    rw [hlength] at hnext ⊢
    obtain ⟨asked, hpulls, hasked⟩ :=
      ((Scanner.start config.keywords source).after (fates.length + 1)).pulls_pull
    rw [hnext, ← Scanner.after_succ] at hpulls hasked
    refine ⟨asked, _, .pulled hpulls, rfl, ?_⟩
    -- only a token is passed, never the end of the text
    have hend : m.lookahead.isEndOfInput = false := by
      have htokens := (h.turn hturn).tokens (orderly_begun config source)
      have hmem : m.lookahead ∈ (begun config source).pending := by
        rw [htokens]
        simp
      rw [pending_begun] at hmem
      exact isEndOfInput_of_mem_scan _ hmem
    rw [hend]
    cases hlast : m'.lookahead.isEndOfInput <;> rw [hlast] at hasked
    all_goals
      simp only [Bool.false_eq_true, if_false, if_true] at hasked ⊢
      omega

/-- **The loop ends.** Every turn makes the potential smaller. -/
theorem exists_loop (htable : Grammar.table = .ok table) {potential : Nat}
    (h : Course table (begun config source) fates m)
    (hpotential : m.potential table.facts ≤ potential) : ∃ turns calls r,
      Loop table m ((Scanner.start config.keywords source).after (fates.length + 1)) turns calls r ∧
      turns ≤ potential ∧
      calls ≤ ((Scanner.start config.keywords source).after (fates.length + 1)).ahead.length +
        if m.lookahead.isEndOfInput then 0 else 1 := by
  induction potential generalizing m fates with
  | zero =>
    -- a goal that is left has weight
    have hg : m.goals = [] := by
      cases hg : m.goals with
      | nil => rfl
      | cons goal rest =>
        have hpos := goal.weight_pos
        rw [potential, hg, weights_cons] at hpotential
        omega
    exact ⟨0, 0, _, .done hg, Nat.le_refl _, Nat.zero_le _⟩
  | succ potential ih =>
    cases hg : m.goals with
    | nil => exact ⟨0, 0, _, .done hg, Nat.zero_le _, Nat.zero_le _⟩
    | cons goal rest =>
      cases hstep : m.step table goal rest with
      | error e => exact ⟨1, 0, _, .failed hg hstep, by omega, Nat.zero_le _⟩
      | ok m' =>
        obtain ⟨fate?, hturn⟩ := turn_of_step hg hstep
        have hfalls := potential_lt_of_move htable (h.orderly (orderly_begun config source))
          hturn.move
        obtain ⟨asked, s', hfetch, rfl, hasked⟩ := exists_fetched h hturn
        obtain ⟨turns, calls, r, hloop, hturns, hcalls⟩ := ih (h.turn hturn) (by omega)
        refine ⟨turns + 1, asked + calls, r, .turn hg hstep hturn hfetch hloop, by omega, ?_⟩
        omega

/-- There is no way to go on for ever. -/
theorem not_forever (htable : Grammar.table = .ok table) {states : Nat → Machine}
    (h0 : (states 0).Orderly) : ¬∀ i, Move table (states i) (states (i + 1)) := by
  intro hmoves
  have horderly : ∀ i, (states i).Orderly := by
    intro i
    induction i with
    | zero => exact h0
    | succ i ih => exact ih.move (hmoves i)
  have hfalls : ∀ i, (states i).potential table.facts + i ≤ (states 0).potential table.facts := by
    intro i
    induction i with
    | zero => exact Nat.le_refl _
    | succ i ih =>
      have := potential_lt_of_move htable (horderly i) (hmoves i)
      omega
  have := hfalls ((states 0).potential table.facts + 1)
  omega

/-- **Every derivation ends.** From the first token of any text the loop comes to an end, after no
more turns than are allowed for and with no more calls of the scanner than the text has
characters, and one; what it leaves is what the derivation leaves. It cannot go on for ever, and
every call of the scanner that does not report the end of the text has moved it on. -/
theorem parse_terminates (config : Config) (source : String) : ∃ table, Grammar.table = .ok table ∧
    (∃ first s turns calls r,
      (Scanner.start config.keywords source).Pulls first (begun config source).lookahead s ∧
      Loop table (begun config source) s turns calls r ∧
      turns ≤ stepBound (Lexical.scan config.keywords source).tokens.length ∧
      first + calls ≤ source.toList.length + 1 ∧
      parse config source = Outcome.ofRun (Lexical.scan config.keywords source) r) ∧
    (∀ states : Nat → Machine, states 0 = begun config source →
      ¬∀ i, Move table (states i) (states (i + 1))) ∧
    ∀ (s s' : Scanner) (piece : Except Lexical.Rejection Token),
      s.nextPiece = (some piece, s') → s.offset < s'.offset ∧
        ∃ text, text ≠ [] ∧ s.ahead = text ++ s'.ahead := by
  have htable := table_eq_ok
  refine ⟨_, htable, ?_, ?_, ?_⟩
  · have hcourse : Course ⟨predictions, languageFacts⟩ (begun config source) []
        (begun config source) := .start
    obtain ⟨first, hpulls, hfirst⟩ := (Scanner.start config.keywords source).pulls_pull
    have hlookahead : (Scanner.start config.keywords source).pull.1 =
        (begun config source).lookahead := hcourse.pull
    obtain ⟨turns, calls, r, hloop, hturns, hcalls⟩ := exists_loop htable hcourse
      (potential_start_le config isEndOfInput_of_mem_scan rfl _)
    rw [hlookahead] at hpulls hfirst
    refine ⟨first, _, turns, calls, r, hpulls, hloop, hturns, ?_, ?_⟩
    · have hpaid : first + (Scanner.start config.keywords source).pull.2.ahead.length ≤
          source.toList.length + if (begun config source).lookahead.isEndOfInput then 1 else 0 :=
        hfirst
      have hleft : calls ≤ (Scanner.start config.keywords source).pull.2.ahead.length +
          if (begun config source).lookahead.isEndOfInput then 0 else 1 := hcalls
      -- the end of the text is met by the first pull or later
      cases hlast : (begun config source).lookahead.isEndOfInput <;> rw [hlast] at hpaid hleft
      all_goals
        simp only [Bool.false_eq_true, if_false, if_true] at hpaid hleft
        omega
    · rw [parse_eq, htable, parseBy, run_of_loop hloop hturns]
  · rintro states h0
    exact not_forever htable (h0 ▸ orderly_begun config source)
  · intro s s' piece h
    have hlt := (Scanner.nextPiece_forward h).offset_lt
    obtain ⟨text, hne, hahead, -⟩ := Scanner.nextPiece_forward h
    exact ⟨hlt, text, hne, hahead⟩

end OnePass.Derivation
