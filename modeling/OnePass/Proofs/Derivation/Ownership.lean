import OnePass.Proofs.Derivation.Naming
import OnePass.Proofs.Derivation.Strictness
import OnePass.Proofs.Emission.Cells

/-!
# Cells have one owner on any run

Whatever the text is, no cell is ever in use for two owners at a time, and none is handed
out that is in use. What has been bound to a global name, and which cells are those of
list items, is told by the actions that a run has performed.

* `Passed`: a run with the machines that it has passed. `globalRows`, `itemCells`.
* `Machine.Tended`: a machine in which cells have one owner. `Tended.move`, `tended_begun`.
* `compile_apart`: **no two owners share a cell** in any machine of a compilation.
-/

namespace OnePass

namespace Derivation

open Emission Names
open Grammar (Layer Table)
open Machine

/-- **A run with the machines that it has passed,** the latest first. -/
inductive Passed (table : Table) (m₀ : Machine) : List Machine → Machine → Prop
  | start : Passed table m₀ [] m₀
  | move {past : List Machine} {m m' : Machine} (h : Passed table m₀ past m)
      (hmove : Move table m m') : Passed table m₀ (m :: past) m'

/-- The rows that the next step binds to global names. -/
def Machine.newGlobals (m : Machine) : List Nat :=
  match m.goals with
  | .act a :: _ => m.generator.newGlobals a m.lastLexeme
  | _ => []

/-- The cells that the next step gives to items of lists. -/
def Machine.newItems (m : Machine) : List Nat :=
  match m.goals with
  | .act a :: _ => m.generator.newItems a
  | _ => []

/-- **The rows that have been bound to global names.** -/
def globalRows (past : List Machine) : List Nat := past.flatMap Machine.newGlobals

/-- **The cells of list items.** -/
def itemCells (past : List Machine) : List Nat := past.flatMap Machine.newItems

variable {table : Table} {m m' m₀ : Machine} {c : Config} {globals items : List Nat}
  {layers : List Layer}

/-- A machine that is reached has been come to by passing others. -/
theorem reaches_iff_passed : Reaches table m₀ m ↔ ∃ past, Passed table m₀ past m := by
  constructor
  · intro h
    induction h with
    | refl => exact ⟨[], .start⟩
    | tail _ hmove ih =>
      obtain ⟨past, hpast⟩ := ih
      exact ⟨_, hpast.move hmove⟩
  · rintro ⟨past, h⟩
    induction h with
    | start => exact .refl
    | move _ hmove ih => exact .tail ih hmove

theorem unmarked_of_passed {source : String} {past : List Machine}
    (h : Passed table (begun c source) past m) : m.Unmarked := by
  induction h with
  | start => exact unmarked_begun c source
  | move _ hmove ih => exact unmarked_move ih hmove

/-- **A machine in which cells have one owner,** and goals that leave it so. -/
structure Machine.Tended (c : Config) (globals items : List Nat) (m : Machine) : Prop where
  secured : m.Secured c
  unmarked : m.Unmarked
  naming : Naming c.keywords m.lookahead m.lastLexeme m.goals
  nests : ∃ layers, Closing layers m.goals ∧ Nests c globals items layers m.generator

theorem nests_advance (h : Nests c globals items layers m.generator) :
    Nests c globals items layers m.advance.generator := by
  unfold Machine.advance
  split
  · exact h
  · exact h.record _

/-- There are loops only where their keyword is reserved. -/
theorem Machine.Secured.loopless (h : m.Secured c)
    (hl : m.generator.symbols.scopes.isLoop m.generator.currentScope = true) :
    c.keywords.contains loopKeyword = true := by
  obtain ⟨header, -, hcalm⟩ := h.calm
  by_contra hk
  rw [Bool.not_eq_true] at hk
  exact hcalm.table.loopless hk _ (eq_of_beq hl)

/-- Before an action there is no other move. -/
theorem exists_perform {a : Grammar.Action} {rest : List Goal} (hg : m.goals = .act a :: rest)
    (hmove : Move table m m') : ∃ g,
      perform a m.lastLexeme m.lastLine m.generator = .ok () g ∧
        m' = { m with goals := rest, generator := g } := by
  cases hmove with
  | @act a' rest' g hg' hp =>
    obtain ⟨heq, rfl⟩ := List.cons.inj (hg.symm.trans hg')
    cases heq
    exact ⟨g, hp, rfl⟩
  | close hg' | shift hg' | expand hg' | abandon hg' =>
    rw [hg] at hg'
    cases hg'
  | giveUp hg' hgoal =>
    obtain ⟨rfl, -⟩ := List.cons.inj (hg.symm.trans hg')
    rcases hgoal with ⟨_, _, heq, -⟩ | ⟨_, _, heq, -⟩ <;> cases heq
  | skip _ hgoal =>
    rcases hgoal with ⟨_, hg'⟩ | ⟨_, _, _, hg', -⟩ <;> rw [hg] at hg' <;> cases hg'

/-- **Every move leaves cells with one owner.** -/
theorem Machine.Tended.move (htable : Grammar.table = .ok table) (hu : 0 < c.unit)
    (h : m.Tended c globals items) (hmove : Move table m m') :
    m'.Tended c (m.newGlobals ++ globals) (m.newItems ++ items) := by
  refine ⟨h.secured.move htable hmove, unmarked_move h.unmarked hmove,
    naming_move htable h.secured.scanning h.naming hmove, ?_⟩
  obtain ⟨layers, hclosing, hnests⟩ := h.nests
  by_cases hact : ∃ a rest, m.goals = .act a :: rest
  · obtain ⟨a, rest, hg⟩ := hact
    have hglobals : m.newGlobals = m.generator.newGlobals a m.lastLexeme := by
      rw [Machine.newGlobals, hg]
    have hitems : m.newItems = m.generator.newItems a := by rw [Machine.newItems, hg]
    have hnaming := h.naming
    rw [hg] at hclosing hnaming
    obtain ⟨layers', hturn, hrest⟩ := hclosing.act
    rw [hglobals, hitems]
    obtain ⟨g, hp, rfl⟩ := exists_perform hg hmove
    exact ⟨layers', hrest, nests_perform hnests hu hturn hnaming.act.1 h.unmarked.last
      (h.secured.loops a (hg ▸ List.mem_cons_self)) h.secured.loopless _ _ hp⟩
  · have hne : ∀ a rest, m.goals ≠ .act a :: rest := fun a rest hg => hact ⟨a, rest, hg⟩
    have hglobals : m.newGlobals = [] := by
      unfold Machine.newGlobals
      split
      · exact absurd ‹_› (hne _ _)
      · rfl
    have hitems : m.newItems = [] := by
      unfold Machine.newItems
      split
      · exact absurd ‹_› (hne _ _)
      · rfl
    rw [hglobals, hitems]
    refine ⟨layers, hclosing.move htable hne hmove, ?_⟩
    rcases generator_move h.secured.scanning hne hmove with hgen | ⟨-, hgen⟩
    · rw [hgen]
      exact hnests
    · rw [hgen]
      exact hnests.record m'.lookahead

/-- At first there are neither functions nor variables. -/
theorem owned_ofConfig (hc : c.tempsFrom ≤ c.capacity) :
    Owned c [] [] (Generator.ofConfig c) := by
  have hsees : ∀ row a, ¬(SymbolTable.ofKeywords c.keywords).Sees row a := fun row a h => by
    rw [SymbolTable.Sees, SymbolTable.cell?_ofKeywords] at h
    cases h.1
  have hhas : ∀ row f, ¬(Generator.ofConfig c).Has row f := by
    rintro row f (⟨hf, -⟩ | ⟨d, hd, -⟩)
    · cases (SymbolTable.function?_ofKeywords c.keywords row).symm.trans hf
    · cases hd
  have husable := SymbolTable.usable_ofKeywords c.keywords
  exact
    { orderly := husable.indexed.orderly
      rooted := husable.rooted
      memory := Target.Memory.regular_ofConfig hc
      spare := List.nodup_nil
      nodup := List.nodup_nil
      inHand := nofun
      functions := fun row f h => absurd h (hhas row f)
      apart := fun row f _ _ _ h => absurd h (hhas row f)
      seen := fun row a h => absurd h (hsees row a)
      parameters := fun row a _ _ h => absurd h (hsees row a)
      distinct := fun row _ a h => absurd h (hsees row a)
      globals := nofun
      keyword := fun _ row _ => SymbolTable.cell?_ofKeywords c.keywords row
      bodies := fun s row h => by
        obtain ⟨scope, hs, hr⟩ := Option.map_eq_some_iff.1 h
        have hlt : s < 1 := (Array.getElem?_eq_some_iff.1 hs).1
        obtain rfl := Nat.lt_one_iff.1 hlt
        cases hs
        cases hr }

theorem tended_begun (hc : c.validate = .ok ()) (source : String) :
    (begun c source).Tended c [] [] := by
  refine ⟨secured_begun c source, unmarked_begun c source, ?_, [], closing_begun c source, ?_⟩
  · rw [goals_begun]
    exact .nameless rfl
  · obtain ⟨-, hc⟩ := (c.validate_eq_ok_iff).1 hc
    exact nests_advance ⟨owned_ofConfig hc, .outermost⟩

/-- **Every run leaves cells with one owner.** -/
theorem tended_of_passed (htable : Grammar.table = .ok table) (hc : c.validate = .ok ())
    {source : String} {past : List Machine} (h : Passed table (begun c source) past m) :
    m.Tended c (globalRows past) (itemCells past) := by
  obtain ⟨hu, -⟩ := (c.validate_eq_ok_iff).1 hc
  induction h with
  | start => exact tended_begun hc source
  | move _ hmove ih => exact ih.move htable hu hmove

/-- Cells with one owner are not shared, and stay so when the program is ended. -/
theorem Machine.Tended.apart (h : m.Tended c globals items) (hu : 0 < c.unit) :
    m.generator.Apart c globals items ∧
      ∀ line, Ends (callMain line) m.generator fun _ g => g.Apart c globals items := by
  obtain ⟨_, -, hnests⟩ := h.nests
  obtain ⟨_, -, hcalm⟩ := h.secured.calm
  obtain ⟨_, hkept⟩ := hnests.kept
  refine ⟨apart_of_kept hkept hu hcalm, fun line => ?_⟩
  exact ((aloof_kept.and aloof_calm).callMain _ ⟨hkept, hcalm⟩).mono fun _ _ h =>
    apart_of_kept h.1 hu h.2

end Derivation

open OnePass.Derivation Emission Machine in
/-- **No two owners share a cell** in any machine that a compilation comes to, and none is free or
handed out while it is in use. -/
theorem compile_apart (c : Config) (source : String) (hc : c.validate = .ok ()) :
    ∃ table, Grammar.table = .ok table ∧
      (∀ m, Reaches table (begun c (c.preamble source)) m ↔
        ∃ past, Passed table (begun c (c.preamble source)) past m) ∧
      ∀ past m, Passed table (begun c (c.preamble source)) past m →
        m.generator.Apart c (globalRows past) (itemCells past) ∧
          ∀ line, Ends (callMain line) m.generator fun _ g =>
            g.Apart c (globalRows past) (itemCells past) := by
  obtain ⟨hu, -⟩ := (c.validate_eq_ok_iff).1 hc
  exact ⟨_, Grammar.table_eq_ok, fun _ => reaches_iff_passed, fun past m h =>
    (tended_of_passed Grammar.table_eq_ok hc h).apart hu⟩

open OnePass.Derivation Emission Machine in
/-- A text with a parameter that is named twice, a global name, and functions that are retired. -/
theorem compile_apart_rivals : Config.standard.validate = .ok () ∧
    ∃ table, Grammar.table = .ok table ∧ ∀ m,
      Reaches table (begun .standard "x = 1 ; def f ( a , a ) : global x ; def f ( b , c ) : ;") m →
        ∃ past, m.generator.Apart .standard (globalRows past) (itemCells past) := by
  have hvalid : Config.standard.validate = .ok () := by decide
  obtain ⟨table, htable, hpassed, hapart⟩ := compile_apart .standard
    "x = 1 ; def f ( a , a ) : global x ; def f ( b , c ) : ;" hvalid
  refine ⟨hvalid, table, htable, fun m hm => ?_⟩
  obtain ⟨past, hpast⟩ := (hpassed m).1 hm
  exact ⟨past, (hapart past m hpast).1⟩

end OnePass
