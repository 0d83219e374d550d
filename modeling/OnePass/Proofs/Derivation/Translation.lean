import OnePass.Proofs.Derivation.Acceptance
import OnePass.Proofs.Grammar.LanguageTable
import OnePass.Proofs.Grammar.Trees

/-!
# Translation directed by the syntax

The actions that the machine performs on a text without syntax errors are those of its
derivation tree, met from left to right. Each is performed with the token that is the
nearest leaf to its left.

* `Machine.performed`: the actions that a run performs, with what they are given.
  `step_of_performs`: generation is given just that.
* `Row.performed`: those that are read off a derivation tree and the tokens at its leaves.
* `performed_of_parse`: they are the same, and there is only one derivation tree.
-/

namespace OnePass

open Grammar (Action Leaf Row Symbol Table Terminal productions)
open Lexical (Token)

/-- **An action as it is performed,** with the lexeme and the line that it is given. -/
structure Performed where
  action : Action
  lexeme : String
  line : Nat
deriving DecidableEq

/-- What is met from left to right, as it is performed: an action is given the lexeme and the line
of the last token before it, or `last` where there is none. -/
def Grammar.Leaf.performed (last : String × Nat) : List Leaf → List Token → List Performed
  | [], _ => []
  | .action a :: rest, tokens => ⟨a, last.1, last.2⟩ :: performed last rest tokens
  | .terminal _ :: rest, token :: tokens => performed (token.lexeme, token.line) rest tokens
  | .terminal _ :: rest, [] => performed last rest []

/-- **The actions of a derivation tree** from left to right, with these tokens at its leaves. -/
def Grammar.Row.performed (r : Row) (last : String × Nat) (tokens : List Token) :
    List Performed :=
  Leaf.performed last r.leaves tokens

/-- A derivation tree of a text with these tokens. -/
structure Grammar.Row.Derives (r : Row) (tokens : List Token) : Prop where
  symbols : r.symbols = [.nonterminal Grammar.start]
  valid : r.Valid productions
  yield : tokens.map Terminal.ofToken? = r.yield.map some

namespace Derivation

open Machine

/-- What a step performs. -/
def Machine.performs (m : Machine) : Goal → List Performed
  | .act a => [⟨a, m.lastLexeme, m.lastLine⟩]
  | _ => []

/-- **The actions that a run performs,** in their order. -/
def Machine.performed (table : Table) (bound : Nat) (m : Machine) : List Performed :=
  match bound, m.goals with
  | 0, _ => []
  | _, [] => []
  | bound + 1, goal :: rest =>
    m.performs goal ++
      match m.step table goal rest with
      | .ok next => performed table bound next
      | .error _ => []

/-- The actions that the derivation of a text performs by a table, if there is one. -/
def performedBy (config : Config) (source : String) :
    Except Grammar.Conflict Table → List Performed
  | .error _ => []
  | .ok table =>
    (begun config source).performed table
      (stepBound (Lexical.scan config.keywords source).tokens.length)

/-- **The actions that the derivation of a text performs.** -/
def performed (config : Config) (source : String) : List Performed :=
  performedBy config source Grammar.table

variable {config : Config} {source : String} {o : Outcome} {table : Table} {m m' mf : Machine}
  {w : List Grammar.Mark} {bound : Nat}

/-- **What the log says is what is done:** a step with an entry gives the action, the lexeme and the
line of the entry to generation, and takes over what that leaves. -/
theorem Machine.step_of_performs {goal : Goal} {rest : List Goal} {p : Performed}
    (h : p ∈ m.performs goal) : m.step table goal rest =
      match Emission.perform p.action p.lexeme p.line m.generator with
      | .ok _ g => .ok { m with goals := rest, generator := g }
      | .error e _ => .error e := by
  cases goal with
  | act a =>
    obtain rfl := List.mem_singleton.1 h
    rfl
  | _ => exact absurd h List.not_mem_nil

/-- A run that is not finished takes a step. -/
theorem Machine.exists_step {goal : Goal} {rest : List Goal} (hg : m.goals = goal :: rest)
    (hrun : run table bound m = .ok mf) (hf : mf.goals = []) :
    ∃ b next, bound = b + 1 ∧ m.step table goal rest = .ok next ∧ run table b next = .ok mf ∧
      m.performed table bound = m.performs goal ++ next.performed table b := by
  cases bound with
  | zero =>
    simp only [run, Except.ok.injEq] at hrun
    subst hrun
    rw [hg] at hf
    cases hf
  | succ b =>
    unfold run at hrun
    rw [hg] at hrun
    dsimp only at hrun
    cases hstep : m.step table goal rest with
    | error e =>
      rw [hstep] at hrun
      cases hrun
    | ok next =>
      rw [hstep] at hrun
      refine ⟨b, next, rfl, rfl, hrun, ?_⟩
      conv_lhs => unfold Machine.performed
      rw [hg]
      dsimp only
      rw [hstep]

/-- A run without goals performs nothing. -/
theorem Machine.performed_of_goals_nil (h : m.goals = []) : m.performed table bound = [] := by
  unfold Machine.performed
  split
  · rfl
  · rfl
  · rename_i hg
    rw [h] at hg
    cases hg

/-- Passing over a token changes nothing about the token matched last. -/
theorem Machine.last_advance :
    (m.advance.lastLexeme, m.advance.lastLine) = (m.lastLexeme, m.lastLine) := by
  unfold Machine.advance
  split <;> rfl

/-- **A run without repairs** performs the actions of its marks, each with the token read last. -/
theorem performed_of_along (h : Along table w m m') (hm : m.Orderly) (hg : m'.goals = [.textEnd])
    (hend : m'.lookahead.isEndOfInput = true) (hrun : run table bound m = .ok mf)
    (hf : mf.goals = []) : m.performed table bound =
      Leaf.performed (m.lastLexeme, m.lastLine) (w.map Grammar.Mark.leaf) m.pending := by
  induction h generalizing bound with
  | refl m =>
    obtain ⟨b, next, -, hstep, -, hperformed⟩ := exists_step hg hrun hf
    rw [step, if_pos hend] at hstep
    cases hstep
    rw [hperformed, performed_of_goals_nil rfl]
    rfl
  | @act m m' w a rest g hgoals hp _ ih =>
    obtain ⟨b, next, -, hstep, hnext, hperformed⟩ := exists_step hgoals hrun hf
    rw [step] at hstep
    dsimp only [Machine.act] at hstep
    rw [hp] at hstep
    cases hstep
    have hmove : Move table m _ := .act hgoals hp
    rw [hperformed, ih (hm.move hmove) hg hend hnext]
    rfl
  | @shift m m' w t node rest hgoals ht _ ih =>
    obtain ⟨b, next, -, hstep, hnext, hperformed⟩ := exists_step hgoals hrun hf
    rw [step, if_pos ht] at hstep
    cases hstep
    have hmove : Move table m _ := .shift hgoals ht
    have hne : t ≠ .endMarker := hm.goals t node (by rw [hgoals]; exact List.mem_cons_self)
    have hrest : Orderly { m with goals := rest } := hm.of_goals fun u v hmem =>
      hm.goals u v (by rw [hgoals]; exact List.mem_cons_of_mem _ hmem)
    have hpending : m.pending = m.lookahead :: m.upcoming :=
      pending_eq_cons (isEndOfInput_of_ofToken? ht hne)
    have htail : ({ m with goals := rest }.shift node).pending = m.upcoming :=
      (pending_shift hrest node).trans (congrArg List.tail hpending)
    have hlast : (({ m with goals := rest }.shift node).lastLexeme,
        ({ m with goals := rest }.shift node).lastLine) =
          (m.lookahead.lexeme, m.lookahead.line) := last_advance
    rw [hperformed, ih (hm.move hmove) hg hend hnext, hpending, htail, hlast]
    rfl
  | @expand m m' w n node rest body hgoals hb _ ih =>
    obtain ⟨b, next, -, hstep, hnext, hperformed⟩ := exists_step hgoals hrun hf
    rw [step, hb] at hstep
    cases hstep
    have hmove : Move table m _ := .expand hgoals hb
    rw [hperformed, ih (hm.move hmove) hg hend hnext]
    rfl

/-- Before the first token an action is given no text and the first line. -/
theorem last_begun (config : Config) (source : String) :
    ((begun config source).lastLexeme, (begun config source).lastLine) = ("", 1) :=
  last_advance

/-- **A text without syntax errors has one derivation tree,** and what its derivation performs are
the actions of that tree from left to right, each with the token to the left of it. -/
theorem performed_of_parse (h : parse config source = .ok o) (he : o.syntaxErrors = []) :
    ∃ tree : Row, tree.Derives o.scan.tokens ∧
      (∀ other : Row, other.Derives o.scan.tokens → other = tree) ∧
      performed config source = tree.performed ("", 1) o.scan.tokens := by
  obtain ⟨table, w, m, htable, hd, hs, hw, hg, hend, -⟩ := along_of_parse h he
  obtain ⟨tree, hsymbols, hvalid, hleaves, hyield⟩ := Grammar.exists_row hd
  have hclosed : table.facts.Closed productions Grammar.start :=
    (Grammar.build_eq_ok htable).1 ▸ Grammar.Facts.closed_ofProductions productions Grammar.start
  have htree : tree.Derives o.scan.tokens := ⟨hsymbols, hvalid, by rw [hyield, hs.classes_eq]⟩
  refine ⟨tree, htree, fun other hother => ?_, ?_⟩
  · have hsame : other.symbols = tree.symbols := hother.symbols.trans htree.symbols.symm
    have hterminals : other.yield = tree.yield :=
      List.map_injective_iff.2 (Option.some_injective _) (hother.yield.symm.trans htree.yield)
    refine Row.eq_of_yield htable hother.valid htree.valid hsame hterminals ?_
    rw [hother.symbols]
    exact Grammar.followed_start hclosed
  · rw [parse_eq] at h
    rw [performed, htable, performedBy]
    rw [htable, parseBy] at h
    -- the tokens of the outcome are those of the scan, whatever the run does
    have hscan : o.scan = Lexical.scan config.keywords source := by
      cases hrun : run table (stepBound (Lexical.scan config.keywords source).tokens.length)
          (begun config source) with
      | error e =>
        rw [hrun] at h
        cases h
      | ok mf =>
        rw [hrun] at h
        cases h
        rfl
    cases hrun : run table (stepBound (Lexical.scan config.keywords source).tokens.length)
        (begun config source) with
    | error e =>
      rw [hrun] at h
      cases h
    | ok mf =>
      have hfinished : mf.goals = [] :=
        goals_of_run htable (orderly_begun config source)
          (potential_start_le config isEndOfInput_of_mem_scan rfl _) hrun
      rw [performed_of_along hw (orderly_begun config source) hg hend hrun hfinished, last_begun,
        pending_begun, Row.performed, hleaves, hscan]

theorem performed_print_sum :
    ∃ o, ∃ tree : Row, parse .standard "x = 1 ;\nprint ( x ) ;" = .ok o ∧ o.syntaxErrors = [] ∧
      tree.Derives o.scan.tokens ∧ tree.performed ("", 1) o.scan.tokens =
        [⟨.pushTarget, "x", 1⟩, ⟨.pushNumber, "1", 1⟩, ⟨.assign, "1", 1⟩, ⟨.checkDefined, "x", 2⟩,
          ⟨.pushId, "x", 2⟩, ⟨.print, ")", 2⟩] := by
  have h : (parse .standard "x = 1 ;\nprint ( x ) ;").toOption.map (·.syntaxErrors) =
      some [] := by
    rw [parse_eq, Grammar.table_eq_ok]
    decide +kernel
  have hlist : performed .standard "x = 1 ;\nprint ( x ) ;" =
      [⟨.pushTarget, "x", 1⟩, ⟨.pushNumber, "1", 1⟩, ⟨.assign, "1", 1⟩, ⟨.checkDefined, "x", 2⟩,
        ⟨.pushId, "x", 2⟩, ⟨.print, ")", 2⟩] := by
    rw [performed, Grammar.table_eq_ok]
    decide +kernel
  cases ho : parse .standard "x = 1 ;\nprint ( x ) ;" with
  | error e =>
    rw [ho] at h
    cases h
  | ok o =>
    rw [ho] at h
    have he : o.syntaxErrors = [] := by simpa [Except.toOption] using h
    obtain ⟨tree, htree, -, hperformed⟩ := performed_of_parse ho he
    exact ⟨o, tree, rfl, he, htree, hperformed.symm.trans hlist⟩

end Derivation

end OnePass
