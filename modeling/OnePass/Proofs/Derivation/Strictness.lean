import OnePass.Compilation
import OnePass.Proofs.Derivation.Acceptance
import OnePass.Proofs.Lexical.Spans

/-!
# No compilation goes astray

Whatever the text is, every step of its derivation finds the rows, scopes, nodes and productions
that it looks for, cuts the text where characters begin, and counts no line below the first. The
only thing that can stop it is a zone of the memory image that is full.

* `Engine.Passed`: an engine that the derivation of a text comes to. `step_of_passed`: its step.
* `compile_eq`: no check of a compilation makes a difference.
* `compile_secure`: a compilation ends, or a zone is full.
-/

namespace OnePass

namespace Derivation

open Emission
open Grammar (Table)
open Lexical (Token scan)
open Machine

variable {config : Config} {source : String} {table : Table} {e : Engine}

/-- **An engine that the derivation of a text comes to,** step by step. -/
inductive Engine.Passed (config : Config) (source : String) (table : Table) : Engine → Prop
  | first {e : Engine} (h : Engine.begin config source = .ok e) : Passed config source table e
  | next {e e' : Engine} {goal : Goal} {rest : List Goal} (h : Passed config source table e)
      (hg : e.goals = goal :: rest) (hstep : e.step table goal rest = .ok e') :
      Passed config source table e'

/-- It is in step with a machine that no move fails in. -/
theorem Engine.Passed.exists_attends (htable : Grammar.table = .ok table)
    (h : e.Passed config source table) : ∃ n m, e.Attends config source n m ∧
      Reaches table (begun config source) m ∧ m.Secured config := by
  induction h with
  | first h =>
    obtain ⟨e', hbegin, hattends⟩ := Engine.exists_begin config source
    rw [h, Except.ok.injEq] at hbegin
    subst hbegin
    exact ⟨0, _, hattends, .refl, secured_begun config source⟩
  | @next e e' goal rest _ hg hstep ih =>
    obtain ⟨n, m, hattends, hreaches, hsecured⟩ := ih
    have hgoals : m.goals = goal :: rest := hattends.goals ▸ hg
    have hagree := hattends.step hsecured htable hgoals
    rw [hstep] at hagree
    obtain ⟨m', n', hm, hattends'⟩ := hagree.of_ok
    have hmove := move_of_step hgoals hm
    exact ⟨n', m', hattends', hreaches.tail hmove, hsecured.move htable hmove⟩

/-- **An engine that does not go astray:** its step goes through or finds a zone full, and what is
left when no goal is can be read off. -/
structure Engine.Sure (table : Table) (e : Engine) : Prop where
  step : ∀ goal rest, e.goals = goal :: rest → (∃ e', e.step table goal rest = .ok e') ∨
    ∃ f, e.step table goal rest = .error f ∧ f.IsFull
  outcome : e.goals = [] → ∃ o, e.outcome = .ok o

theorem Engine.Passed.sure (htable : Grammar.table = .ok table)
    (h : e.Passed config source table) : e.Sure table := by
  obtain ⟨n, m, hattends, -, hsecured⟩ := h.exists_attends htable
  refine ⟨fun goal rest hg => ?_, fun hg => ⟨_, hattends.outcome (hattends.goals ▸ hg)⟩⟩
  have hgoals : m.goals = goal :: rest := hattends.goals ▸ hg
  have hagree := hattends.step hsecured htable hgoals
  cases he : e.step table goal rest with
  | ok e' => exact .inl ⟨e', rfl⟩
  | error f =>
    rw [he] at hagree
    exact .inr ⟨f, rfl, full_of_step hsecured hgoals hagree.of_error⟩

/-- A derivation comes to its end, or a zone is full. -/
theorem parse_cases (config : Config) (source : String) :
    (∃ o, parse config source = .ok o) ∨ ∃ e, parse config source = .error e ∧ e.IsFull := by
  cases h : parse config source with
  | ok o => exact .inl ⟨o, rfl⟩
  | error e =>
    refine .inr ⟨e, rfl, ?_⟩
    rw [parse_eq, Grammar.table_eq_ok, parseBy] at h
    cases hrun : run _ _ (begun config source) with
    | ok m =>
      rw [hrun] at h
      cases h
    | error e' =>
      rw [hrun] at h
      cases h
      exact full_of_run Grammar.table_eq_ok (secured_begun config source) hrun

end Derivation

open OnePass.Derivation Lexical Machine

/-- **No check makes a difference:** a compilation is what it would be without. -/
theorem compile_eq (c : Config) (source : String) : compile c source =
    match c.validate with
    | .error e => .error (.config e)
    | .ok () =>
      Compilation.ofOutcome Emission.callMain
        (parseBy c (c.preamble source) Grammar.table) := by
  rw [compile, ← parse_eq]
  cases c.validate with
  | error e => rfl
  | ok u =>
    dsimp only
    cases ho : parse c (c.preamble source) with
    | error e => rfl
    | ok o =>
      obtain ⟨table, m, htable, hm, -, rfl⟩ := reaches_of_parse ho
      have hsecured := (secured_begun c (c.preamble source)).reaches htable hm
      rw [Compilation.ofOutcome, Compilation.ofOutcome,
        Emission.Strict.callMain_eq hsecured.inRange.symbols]

/-- **A compilation ends, or a zone is full,** whatever the text is: nothing else stops it. No step
of its derivation goes astray, and each finds its rows, scopes, nodes and productions, and its place
in the text. Tokens and rejections are cut out of the text on the lines they are said to stand on. -/
theorem compile_secure (c : Config) (source : String) (hc : c.validate = .ok ()) :
    ∃ table, Grammar.table = .ok table ∧
      ((∃ r m, compile c source = .ok r ∧
          Reaches table (.begun c (c.preamble source)) m ∧ m.goals = []) ∨
        ∃ zone limit, compile c source = .error (.memory (.exhausted zone limit))) ∧
      (∀ defect, compile c source ≠ .error (.defect defect)) ∧
      (∃ e, Engine.begin c (c.preamble source) = .ok e) ∧
      (∀ e : Engine, e.Passed c (c.preamble source) table → e.Sure table) ∧
      (∀ m, Reaches table (.begun c (c.preamble source)) m → m.InRange) ∧
      (∀ n t i, table.production? n t = some i → i < Grammar.productions.length) ∧
      (∀ t ∈ (scan c.keywords (c.preamble source)).tokens, t.Lies (c.preamble source)) ∧
      ∀ e ∈ (scan c.keywords (c.preamble source)).errors, e.Lies (c.preamble source) := by
  have hcompile : compile c source =
      Compilation.ofOutcome Emission.callMain (parse c (c.preamble source)) := by
    rw [compile_eq, hc, parse_eq]
  have hends : (∃ r m, compile c source = .ok r ∧
      Reaches ⟨Grammar.predictions, Grammar.languageFacts⟩ (.begun c (c.preamble source)) m ∧
        m.goals = []) ∨
      ∃ zone limit, compile c source = .error (.memory (.exhausted zone limit)) := by
    rcases parse_cases c (c.preamble source) with ⟨o, ho⟩ | ⟨e, he, hfull⟩
    · obtain ⟨table, m, htable, hm, hgoals, -⟩ := reaches_of_parse ho
      rw [Grammar.table_eq_ok, Except.ok.injEq] at htable
      subst htable
      have hmain : Emission.Secure (fun _ => True) (Emission.callMain o.lastLine) o.generator
          fun _ _ => True := Emission.secure_callMain o.generator
      rw [hcompile, ho, Compilation.ofOutcome]
      cases hcall : Emission.callMain o.lastLine o.generator with
      | ok u g => exact .inl ⟨_, m, rfl, hm, hgoals⟩
      | error e g =>
        obtain ⟨zone, limit, rfl⟩ := (hmain.error hcall).1
        exact .inr ⟨zone, limit, rfl⟩
    · obtain ⟨zone, limit, rfl⟩ := hfull
      rw [hcompile, he]
      exact .inr ⟨zone, limit, rfl⟩
  refine ⟨_, Grammar.table_eq_ok, hends, fun defect hdefect => ?_, ?_,
    fun e he => he.sure Grammar.table_eq_ok, fun m hm => ?_, fun n t i hi => ?_,
    fun t ht => lies_of_mem_tokens ht, fun e he => lies_of_mem_errors he⟩
  · rcases hends with ⟨r, _, hr, -⟩ | ⟨zone, limit, hfull⟩
    · rw [hr] at hdefect
      cases hdefect
    · rw [hfull] at hdefect
      cases hdefect
  · obtain ⟨e, he, -⟩ := Engine.exists_begin c (c.preamble source)
    exact ⟨e, he⟩
  · exact ((secured_begun c _).reaches Grammar.table_eq_ok hm).inRange
  · exact lt_of_production? Grammar.table_eq_ok hi

/-- A text whose definition is named by a keyword and whose comment has no end compiles: nothing goes
astray, and all that is wrong with it is told. -/
theorem compile_secure_malformed : Config.standard.validate = .ok () ∧
    ∃ r, compile .standard "def while ( 3 break ; ) /* é" = .ok r ∧
      r.lexicalErrors = [⟨.unclosedComment, "/* é", 1, 24, 29⟩] ∧
      r.syntaxErrors.map SyntaxError.fault = [.missing "ID", .missing "(", .illegal "while",
        .illegal "(", .illegal "NUM", .illegal "break", .illegal ";", .missing ":", .missing ";"] ∧
      r.semanticErrors = [⟨1, .noMain⟩] := by
  have hvalid : Config.standard.validate = .ok () := by decide
  have h : (compile .standard "def while ( 3 break ; ) /* é").toOption.map
      (fun r => (r.lexicalErrors, r.syntaxErrors.map SyntaxError.fault, r.semanticErrors)) =
      some ([⟨.unclosedComment, "/* é", 1, 24, 29⟩], [.missing "ID", .missing "(",
        .illegal "while", .illegal "(", .illegal "NUM", .illegal "break", .illegal ";",
        .missing ":", .missing ";"], [⟨1, .noMain⟩]) := by
    rw [compile_eq, Grammar.table_eq_ok]
    decide +kernel
  obtain ⟨table, -, hends, -⟩ :=
    compile_secure .standard "def while ( 3 break ; ) /* é" hvalid
  refine ⟨hvalid, ?_⟩
  rcases hends with ⟨r, _, hr, -⟩ | ⟨zone, limit, hfull⟩
  · rw [hr] at h
    obtain ⟨hlexical, hothers⟩ := Prod.mk.inj (Option.some.inj h)
    obtain ⟨hfaults, hmeaning⟩ := Prod.mk.inj hothers
    exact ⟨r, hr, hlexical, hfaults, hmeaning⟩
  · rw [hfull] at h
    cases h

end OnePass
