import OnePass.Proofs.Derivation.Accounting
import OnePass.Proofs.Emission.Changes
import OnePass.Proofs.Emission.Faults
import OnePass.Proofs.Lexical.Lines

/-!
# The lines of errors

An error of the syntax is noted on the line of the next token, an error of the program on that of
the token before it, and the machine never goes back. So the errors come in the order of their
lines, whatever is wrong with the text.

* `Ascends`: lines in order, up to a line.
* `Machine.Lined`: a machine whose errors are in order. `Lined.move`: every step keeps it.
* `lines_of_parse`: **lines are counted right, and all that is reported comes in their order.**
-/

namespace OnePass.Derivation

open Emission (Generator Noted callMain reports_callMain reports_perform stateAfter)
open Grammar (Table)
open Lexical (Token byteLength newlines)

/-- **Lines in order,** none behind the limit. -/
def Ascends (lines : List Nat) (limit : Nat) : Prop :=
  lines.Pairwise (· ≤ ·) ∧ ∀ n ∈ lines, n ≤ limit

section Ascends

variable {lines new : List Nat} {limit limit' : Nat}

theorem ascends_nil (limit : Nat) : Ascends [] limit := ⟨.nil, fun _ h => absurd h List.not_mem_nil⟩

theorem Ascends.mono (h : Ascends lines limit) (hle : limit ≤ limit') : Ascends lines limit' :=
  ⟨h.1, fun n hn => Nat.le_trans (h.2 n hn) hle⟩

/-- What is added on the last line comes last. -/
theorem Ascends.append (h : Ascends lines limit) (hnew : ∀ n ∈ new, n = limit) :
    Ascends (lines ++ new) limit := by
  refine ⟨List.pairwise_append.2 ⟨h.1, ?_, fun n hn k hk => ?_⟩, fun n hn => ?_⟩
  · refine List.pairwise_of_forall_mem_list fun n hn k hk => ?_
    rw [hnew n hn, hnew k hk]
  · rw [hnew k hk]
    exact h.2 n hn
  · rcases List.mem_append.1 hn with hn | hn
    · exact h.2 n hn
    · exact Nat.le_of_eq (hnew n hn)

end Ascends

/-- The lines of the errors of a program. -/
def errorLines (g : Generator) : List Nat := g.errors.toList.map (·.line)

/-- Errors that are all found on the last line come last. -/
theorem Ascends.noted {g g' : Generator} {line : Nat} {faulty : SemanticError → Prop}
    (h : Ascends (errorLines g) line) (hn : Noted faulty g g')
    (hline : ∀ e, faulty e → e.line = line) : Ascends (errorLines g') line := by
  obtain ⟨new, heq, hnew⟩ := hn
  rw [errorLines, heq, List.map_append]
  refine h.append fun n hmem => ?_
  obtain ⟨e, he, rfl⟩ := List.mem_map.1 hmem
  exact hline e (hnew e he)

namespace Machine

variable {table : Table} {m m' : Machine}

/-- **A machine whose lines are in order:** those of the tokens ahead, and of the errors behind. -/
structure Lined (m : Machine) : Prop where
  ahead : ((m.lookahead :: m.upcoming) ++ [m.endMarker]).Pairwise (·.line ≤ ·.line)
  passed : m.lastLine ≤ m.lookahead.line
  syntaxErrors : Ascends (m.errors.toList.map (·.line)) m.lookahead.line
  semanticErrors : Ascends (errorLines m.generator) m.lastLine

/-- The machine goes on to a later line, if not to the same. -/
theorem Lined.advance (h : m.Lined) : m.advance.Lined := by
  have hahead := h.ahead
  unfold Machine.advance
  cases hu : m.upcoming with
  | nil =>
    rw [hu] at hahead
    have hle : m.lookahead.line ≤ m.endMarker.line :=
      (List.pairwise_cons.1 hahead).1 m.endMarker (List.mem_singleton_self _)
    refine ⟨?_, Nat.le_trans h.passed hle, h.syntaxErrors.mono hle, h.semanticErrors⟩
    exact List.pairwise_pair.2 (Nat.le_refl _)
  | cons t rest =>
    rw [hu] at hahead
    have hle : m.lookahead.line ≤ t.line := (List.pairwise_cons.1 hahead).1 t List.mem_cons_self
    exact ⟨(List.pairwise_cons.1 hahead).2, Nat.le_trans h.passed hle, h.syntaxErrors.mono hle,
      h.semanticErrors⟩

/-- A complaint stands on the line of the next token. -/
theorem Lined.complain (h : m.Lined) (fault : SyntaxFault) : (m.complain fault).Lined where
  ahead := h.ahead
  passed := h.passed
  syntaxErrors := by
    rw [Machine.complain, Array.toList_push, List.map_append]
    exact h.syntaxErrors.append fun n hn => List.mem_singleton.1 hn
  semanticErrors := h.semanticErrors

/-- **Every step keeps the lines in order.** -/
theorem Lined.move (h : m.Lined) (hmove : Move table m m') : m'.Lined := by
  cases hmove with
  | @act a rest g hg hp =>
    refine ⟨h.ahead, h.passed, h.syntaxErrors, ?_⟩
    have hnoted := (reports_perform a m.lastLexeme m.lastLine).ends m.generator () g hp
    exact h.semanticErrors.noted hnoted fun e he => he.1
  | close => exact ⟨h.ahead, h.passed, h.syntaxErrors, h.semanticErrors⟩
  | shift =>
    -- the token behind is now the one that was ahead, so the lines of errors have room to its line
    refine Lined.advance ⟨h.ahead, Nat.le_refl _, h.syntaxErrors, ?_⟩
    exact h.semanticErrors.mono h.passed
  | expand => exact ⟨h.ahead, h.passed, h.syntaxErrors, h.semanticErrors⟩
  | @giveUp goal name rest =>
    obtain ⟨tree, heq⟩ := giveUp_eq (m := { m with goals := rest }) goal name
    have hnoted := h.complain (.missing name)
    rw [heq]
    exact ⟨hnoted.ahead, hnoted.passed, hnoted.syntaxErrors, hnoted.semanticErrors⟩
  | skip => exact (h.complain _).advance
  | abandon =>
    obtain ⟨tree, heq⟩ := abandon_eq (m := m)
    have hnoted := h.complain .unexpectedEnd
    rw [heq]
    exact ⟨hnoted.ahead, hnoted.passed, hnoted.syntaxErrors, hnoted.semanticErrors⟩

theorem Lined.reaches (h : m.Lined) (hr : Reaches table m m') : m'.Lined := by
  induction hr with
  | refl => exact h
  | tail _ hmove ih => exact ih.move hmove

theorem lined_start (config : Config) {tokens : List Token} {endMarker : Token}
    (hsorted : (tokens ++ [endMarker]).Pairwise (·.line ≤ ·.line))
    (hfirst : ∀ t ∈ tokens ++ [endMarker], 1 ≤ t.line) : (start config tokens endMarker).Lined := by
  cases tokens with
  | nil =>
    have hends : [endMarker, endMarker].Pairwise (·.line ≤ ·.line) :=
      List.pairwise_pair.2 (Nat.le_refl endMarker.line)
    exact ⟨hends, hfirst endMarker List.mem_cons_self, ascends_nil _, ascends_nil _⟩
  | cons t rest => exact ⟨hsorted, hfirst t List.mem_cons_self, ascends_nil _, ascends_nil _⟩

/-- **So they are at the start:** tokens come in the order of their lines, from the first line
on. -/
theorem lined_begun (config : Config) (source : String) : (begun config source).Lined := by
  have hmarker := Lexical.endMarker_scan config.keywords source
  refine lined_start config ?_ fun t ht => ?_
  · refine List.pairwise_append.2 ⟨List.pairwise_map.1 (Lexical.pairwise_tokens _ _),
      List.pairwise_singleton _ _, fun t ht u hu => ?_⟩
    rw [List.mem_singleton.1 hu]
    exact Lexical.line_le_endMarker ht
  · rcases List.mem_append.1 ht with ht | ht
    · obtain ⟨before, -, -, hline, -, -⟩ := Lexical.lies_of_mem_tokens ht
      omega
    · rw [List.mem_singleton.1 ht, hmarker]
      exact Nat.le_add_right 1 _

end Machine

variable {config : Config} {source : String} {o : Outcome}

/-- **Lines are counted right, and all that is reported comes in their order.** Whatever is wrong
with a text, each token and each rejected piece stands on the line on which it begins, and the end
on the last line; and tokens, rejected pieces, errors of the syntax and, when the program has been
ended, errors of the program come in the order of their lines. -/
theorem lines_of_parse (h : parse config source = .ok o) :
    (∀ t ∈ o.scan.tokens, t.Lies source) ∧ (∀ e ∈ o.scan.errors, e.Lies source) ∧
      o.scan.endMarker = .endOfInput (1 + newlines source.toList) (byteLength source.toList) ∧
      o.lastLine = 1 + newlines source.toList ∧
      (o.scan.tokens.map (·.line)).Pairwise (· ≤ ·) ∧
      (o.scan.errors.map (·.line)).Pairwise (· ≤ ·) ∧
      (o.syntaxErrors.map (·.line)).Pairwise (· ≤ ·) ∧
      (errorLines (stateAfter (callMain o.lastLine) o.generator)).Pairwise (· ≤ ·) := by
  obtain ⟨table, fates, m, htable, hcourse, hgoals, rfl⟩ := course_of_parse h
  have hlined := (Machine.lined_begun config source).reaches hcourse.reaches
  have hmarker := Lexical.endMarker_scan config.keywords source
  have hlast : m.lookahead.line = 1 + newlines source.toList := by
    have hne : (Machine.begun config source).goals ≠ [] := by
      rw [goals_begun]
      exact List.cons_ne_nil _ _
    -- with errors or without, a run that ends has the marker ahead
    rcases hcourse.grounded htable (grounded_begun table config source)
      (errors_begun config source) hne with ⟨hne, -⟩ | ⟨-, hend, -⟩
    · exact absurd hgoals hne
    · rw [hcourse.lookahead_of_end (orderly_begun config source) lookahead_begun hend,
        endMarker_begun, hmarker]
      rfl
  refine ⟨fun t => Lexical.lies_of_mem_tokens, fun e => Lexical.lies_of_mem_errors, hmarker, hlast,
    Lexical.pairwise_tokens _ _, Lexical.pairwise_errors _ _, hlined.syntaxErrors.1, ?_⟩
  have hfinal : Noted (fun e => e = ⟨m.lookahead.line, .noMain⟩) m.generator
      (stateAfter (callMain m.lookahead.line) m.generator) :=
    (reports_callMain m.lookahead.line m.generator).stateAfter (.of_eq rfl)
  exact ((hlined.semanticErrors.mono hlined.passed).noted hfinal fun e he => by rw [he]).1

/-- A text with an error of every sort: a stray sign and a number run into letters, brackets that
nothing opens or closes, a `break` in no loop, no `main`, and a comment that the end of the text
cuts off. A comment that is closed goes over two lines, and a number gives the newline behind it
back. -/
theorem lines_of_many_errors :
    let source := "break ; @\n/* two\nlines */ a = ( 1 ;\nx = 2\n; break ;\n3a = 4 )\n/* open\n"
    ∃ o, parse .standard source = .ok o ∧
      o.scan.errors.map (fun e => (e.lexeme, e.line)) = [("@", 1), ("3a", 6), ("/* open\n", 7)] ∧
      o.syntaxErrors.map (·.line) = [3, 6, 6, 6] ∧
      errorLines (stateAfter (callMain o.lastLine) o.generator) = [1, 5, 8] ∧
      (∀ t ∈ o.scan.tokens, t.Lies source) ∧ (∀ e ∈ o.scan.errors, e.Lies source) ∧
      o.lastLine = 1 + newlines source.toList ∧
      (errorLines (stateAfter (callMain o.lastLine) o.generator)).Pairwise (· ≤ ·) := by
  intro source
  have hrun : (parse .standard source).toOption.map (fun o =>
      (o.scan.errors.map (fun e => (e.lexeme, e.line)), o.syntaxErrors.map (·.line),
        errorLines (stateAfter (callMain o.lastLine) o.generator))) =
      some ([("@", 1), ("3a", 6), ("/* open\n", 7)], [3, 6, 6, 6], [1, 5, 8]) := by
    rw [parse_eq, Grammar.table_eq_ok]
    decide +kernel
  cases ho : parse .standard source with
  | error e =>
    rw [ho] at hrun
    cases hrun
  | ok o =>
    rw [ho] at hrun
    simp only [Except.toOption, Option.map_some, Option.some.injEq, Prod.mk.injEq] at hrun
    obtain ⟨hrejected, hsyntax, hsemantic⟩ := hrun
    obtain ⟨htokens, hrejections, -, hlast, -, -, -, hsorted⟩ := lines_of_parse ho
    exact ⟨o, rfl, hrejected, hsyntax, hsemantic, htokens, hrejections, hlast, hsorted⟩

end OnePass.Derivation
