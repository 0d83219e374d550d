import OnePass.Proofs.Derivation.Strictness
import OnePass.Proofs.Lexical.Composition

/-!
# What is compiled ahead of a program

A definition of `output` may be compiled ahead of a program. It ends with a blank, so the program
is scanned behind it as if it stood alone, on the same lines.

* `outcome_of_compile`: a compilation is that of a derivation.
* `scan_of_compile`: the tokens and the rejected pieces of a compilation.
* `scan_composes`: **scanning composes, and a program behind the definition is scanned as it is.**
-/

namespace OnePass

open OnePass.Derivation Emission
open Lexical (EndsBlank Rejection Token scan)

variable {c : Config} {source : String} {r : Compilation}

/-- **A compilation is that of a derivation,** whose program has been ended. -/
theorem outcome_of_compile (h : compile c source = .ok r) : c.validate = .ok () ∧
    ∃ o g, parse c (c.preamble source) = .ok o ∧ callMain o.lastLine o.generator = .ok () g ∧
      r = o.conclude g := by
  rw [compile_eq, ← parse_eq] at h
  cases hc : c.validate with
  | error e =>
    rw [hc] at h
    cases h
  | ok u =>
    rw [hc] at h
    cases ho : parse c (c.preamble source) with
    | error e =>
      rw [ho] at h
      cases h
    | ok o =>
      rw [ho, Compilation.ofOutcome] at h
      cases hmain : callMain o.lastLine o.generator with
      | error e g =>
        rw [hmain] at h
        cases h
      | ok u g =>
        rw [hmain] at h
        cases h
        exact ⟨rfl, o, g, rfl, hmain, rfl⟩

/-- What is known of a compilation is known to be of one. -/
theorem exists_of_toOption_map {α : Type} {f : Compilation → α} {x : α}
    (h : (compile c source).toOption.map f = some x) : ∃ r, compile c source = .ok r ∧ f r = x := by
  cases hr : compile c source with
  | error e =>
    rw [hr] at h
    cases h
  | ok r =>
    rw [hr] at h
    exact ⟨r, rfl, Option.some.inj h⟩

/-- What a compilation has of tokens and rejected pieces is the scan of the text. -/
theorem scan_of_compile (h : compile c source = .ok r) :
    r.tokens = (scan c.keywords (c.preamble source)).tokens ∧
      r.lexicalErrors = (scan c.keywords (c.preamble source)).errors := by
  obtain ⟨-, o, g, ho, -, rfl⟩ := outcome_of_compile h
  rw [← scan_of_parse ho]
  exact ⟨rfl, rfl⟩

theorem endsBlank_outputDefinition : EndsBlank outputDefinition.toList :=
  ⟨' ', rfl, by decide⟩

/-- Nothing of the definition of `output` is rejected, whatever words are reserved. -/
theorem errors_outputDefinition (keywords : List String) :
    (scan keywords outputDefinition).errors = [] := by
  obtain ⟨-, herrors⟩ :=
    Lexical.scan_of_segmented keywords (Lexical.segmented_segmentsOf outputDefinition.toList)
  rw [herrors]
  exact Lexical.rejections_eq_nil keywords (by decide +kernel) 1 0

/-- **Scanning composes.** Behind a text whose scan ends by skipping a blank another is scanned as
if it stood alone, as many lines and bytes further on as the first takes. So a program behind the
definition of `output` has its own tokens and rejected pieces, on their lines. -/
theorem scan_composes :
    (∀ (keywords : List String) (s t : String), EndsBlank s.toList →
      (scan keywords (s ++ t)).tokens = (scan keywords s).tokens ++
          (scan keywords t).tokens.map (Token.shift (Lexical.newlines s.toList) s.utf8ByteSize) ∧
        (scan keywords (s ++ t)).errors = (scan keywords s).errors ++ (scan keywords t).errors.map
          (Rejection.shift (Lexical.newlines s.toList) s.utf8ByteSize)) ∧
    ∀ (c : Config) (source : String), c.builtinOutput = true →
      let whole := scan c.keywords (c.preamble source)
      whole.tokens = (scan c.keywords outputDefinition).tokens ++
          (scan c.keywords source).tokens.map (Token.shift 0 46) ∧
        whole.errors = (scan c.keywords source).errors.map (Rejection.shift 0 46) ∧
        ∀ r, compile c source = .ok r → r.tokens = whole.tokens ∧ r.lexicalErrors = whole.errors := by
  refine ⟨fun keywords s t h => Lexical.scan_append keywords h, fun c source hbuiltin => ?_⟩
  -- the definition has no end of line, so the lines stay, and the bytes move by its length
  have hpreamble : c.preamble source = outputDefinition ++ source := if_pos hbuiltin
  have hlines : Lexical.newlines outputDefinition.toList = 0 := by decide +kernel
  have hbytes : outputDefinition.utf8ByteSize = 46 := by decide +kernel
  obtain ⟨htokens, herrors⟩ :=
    Lexical.scan_append c.keywords (t := source) endsBlank_outputDefinition
  rw [← hpreamble, hlines, hbytes] at htokens herrors
  rw [errors_outputDefinition, List.nil_append] at herrors
  exact ⟨htokens, herrors, fun r hr => scan_of_compile hr⟩

/-- Behind a comment with a letter of two bytes, and behind the definition of `output`. -/
theorem scan_composes_comment_and_output :
    let c : Config := { Config.standard with builtinOutput := true }
    EndsBlank "x # é\n".toList ∧
      (scan c.keywords ("x # é\n" ++ "print 1a")).tokens =
        [⟨.identifier, "x", 1, 0, 1⟩, ⟨.keyword, "print", 2, 7, 12⟩] ∧
      ∃ r, compile c "output ( 7 ) ; ?" = .ok r ∧
        r.lexicalErrors = [⟨.invalidInput, "?", 1, 61, 62⟩] := by
  intro c
  have hblank : EndsBlank "x # é\n".toList := ⟨'\n', rfl, by decide +kernel⟩
  have hcompile : (compile c "output ( 7 ) ; ?").toOption.isSome = true := by
    rw [compile_eq, Grammar.table_eq_ok]
    decide +kernel
  refine ⟨hblank, ?_, ?_⟩
  · rw [(scan_composes.1 c.keywords _ "print 1a" hblank).1]
    decide +kernel
  · obtain ⟨-, herrors, hsame⟩ := scan_composes.2 c "output ( 7 ) ; ?" rfl
    cases hr : compile c "output ( 7 ) ; ?" with
    | error e =>
      rw [hr] at hcompile
      cases hcompile
    | ok r =>
      refine ⟨r, rfl, ?_⟩
      rw [(hsame r hr).2, herrors]
      decide +kernel

end OnePass
