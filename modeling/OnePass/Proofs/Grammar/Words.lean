import Mathlib.Computability.ContextFreeGrammar
import OnePass.Grammar.Language
import OnePass.Proofs.Grammar.Derives

/-!
# The words of a grammar

With its actions erased, a list of productions is a context-free grammar, and a
derivation with marks is a derivation of that grammar.

* `contextFree`: the context-free grammar of a list of productions.
* `mem_language_iff`: its words are the terminals of what the start symbol derives.
-/

namespace OnePass

open Grammar (Mark Terminal Nonterminal Production Derives)

/-- A symbol that is no action. -/
def plain? : Grammar.Symbol → Option (Symbol Terminal Nonterminal)
  | .terminal t => some (.terminal t)
  | .nonterminal n => some (.nonterminal n)
  | .action _ => none

/-- A string of symbols with its actions erased. -/
def plain (symbols : List Grammar.Symbol) : List (Symbol Terminal Nonterminal) :=
  symbols.filterMap plain?

/-- **The context-free grammar of a list of productions.** -/
def contextFree (rules : List Production) (start : Nonterminal) : ContextFreeGrammar Terminal where
  NT := Nonterminal
  initial := start
  rules := (rules.map fun p => ⟨p.head, plain p.body⟩).toFinset

/-- The grammar of the language. -/
def grammar : ContextFreeGrammar Terminal := contextFree Grammar.productions Grammar.start

variable {rules : List Production} {start : Nonterminal}

theorem mem_rules {r : ContextFreeRule Terminal Nonterminal} :
    r ∈ (contextFree rules start).rules ↔ ∃ p ∈ rules, r = ⟨p.head, plain p.body⟩ := by
  refine List.mem_toFinset.trans (List.mem_map.trans ?_)
  exact exists_congr fun p => and_congr_right fun _ => eq_comm

theorem plain_append (a b : List Grammar.Symbol) : plain (a ++ b) = plain a ++ plain b :=
  List.filterMap_append

/-- A derivation with marks is a derivation of the grammar. -/
theorem derives_plain {symbols : List Grammar.Symbol} {w : List Mark} (h : Derives rules symbols w) :
    (contextFree rules start).Derives (plain symbols) ((Mark.classes w).map .terminal) := by
  induction h with
  | nil => exact .refl _
  | terminal x _ ih => exact ih.append_left [.terminal _]
  | action _ ih => exact ih
  | @phrase p hp rest u w _ _ ihu ih =>
    have hstep : (contextFree rules start).Produces (plain (.nonterminal p.head :: rest))
        (plain p.body ++ plain rest) :=
      ⟨⟨p.head, plain p.body⟩, mem_rules.2 ⟨p, hp, rfl⟩, .head _⟩
    rw [Mark.classes_append, List.map_append]
    exact hstep.trans_derives ((ihu.append_right _).trans (ih.append_left _))

/-- A string that is plainly `a`, a nonterminal and `b` has that nonterminal at a place. -/
theorem exists_split {symbols : List Grammar.Symbol} {a b : List (Symbol Terminal Nonterminal)}
    {n : Nonterminal} (h : plain symbols = a ++ [.nonterminal n] ++ b) :
    ∃ x y, symbols = x ++ .nonterminal n :: y ∧ plain x = a ∧ plain y = b := by
  unfold plain at h
  rw [List.append_assoc, List.filterMap_eq_append_iff] at h
  obtain ⟨x, y, rfl, hx, hy⟩ := h
  rw [List.singleton_append, List.filterMap_eq_cons_iff] at hy
  obtain ⟨z, s, y', rfl, hz, hs, hy'⟩ := hy
  refine ⟨x ++ z, y', ?_, ?_, hy'⟩
  · cases s with
    | terminal t => simp [plain?] at hs
    | action a => simp [plain?] at hs
    | nonterminal m =>
      simp only [plain?, Option.some.injEq, Symbol.nonterminal.injEq] at hs
      rw [hs, List.append_assoc]
  · rw [plain_append, show plain z = [] from List.filterMap_eq_nil_iff.2 hz, List.append_nil]
    exact hx

/-- A string of terminals and actions derives itself, however the terminals are spelled. -/
theorem derives_of_terminals {symbols : List Grammar.Symbol} {ts : List Terminal}
    (h : plain symbols = ts.map .terminal) :
    ∃ w, Derives rules symbols w ∧ Mark.classes w = ts := by
  induction symbols generalizing ts with
  | nil =>
    have hts : ts = [] := by simpa [plain] using h.symm
    exact ⟨[], .nil, hts.symm⟩
  | cons s rest ih =>
    cases s with
    | terminal t =>
      cases ts with
      | nil => simp [plain, plain?] at h
      | cons u ts =>
        have hcons : (Symbol.terminal t : Symbol Terminal Nonterminal) :: plain rest =
            .terminal u :: ts.map .terminal := h
        rw [List.cons.injEq, Symbol.terminal.injEq] at hcons
        obtain ⟨rfl, hrest⟩ := hcons
        obtain ⟨w, hw, hc⟩ := ih hrest
        exact ⟨.read t t.lexeme :: w, .terminal _ hw, by rw [Mark.classes_read, hc]⟩
    | action a =>
      obtain ⟨w, hw, hc⟩ := @ih ts h
      exact ⟨.act a :: w, .action hw, hc⟩
    | nonterminal n =>
      have hcons : (Symbol.nonterminal n : Symbol Terminal Nonterminal) :: plain rest =
          ts.map .terminal := h
      cases ts with
      | nil => simp at hcons
      | cons u ts => simp at hcons

/-- A derivation of the grammar can be given its marks back. -/
theorem exists_marks {v : List (Symbol Terminal Nonterminal)} {ts : List Terminal}
    (h : (contextFree rules start).Derives v (ts.map .terminal)) {symbols : List Grammar.Symbol}
    (hs : plain symbols = v) : ∃ w, Derives rules symbols w ∧ Mark.classes w = ts := by
  induction h using Relation.ReflTransGen.head_induction_on generalizing symbols with
  | refl => exact derives_of_terminals hs
  | head hstep _ ih =>
    obtain ⟨r, hr, hrw⟩ := hstep
    obtain ⟨p, hp, rfl⟩ := mem_rules.1 hr
    obtain ⟨a, b, rfl, rfl⟩ := hrw.exists_parts
    obtain ⟨x, y, rfl, rfl, rfl⟩ := exists_split hs
    have hplain : plain (x ++ (p.body ++ y)) = plain x ++ plain p.body ++ plain y := by
      rw [plain_append, plain_append, List.append_assoc]
    obtain ⟨w, hw, hc⟩ := ih hplain
    obtain ⟨u, v, rfl, hu, hv⟩ := hw.of_append
    obtain ⟨v, z, rfl, hv, hz⟩ := hv.of_append
    refine ⟨u ++ (v ++ z), hu.append (.phrase hp hv hz), hc⟩

/-- **The words of the grammar** are the terminals of what the start symbol derives. -/
theorem mem_language_iff {ts : List Terminal} : ts ∈ (contextFree rules start).language ↔
    ∃ w, Derives rules [.nonterminal start] w ∧ Mark.classes w = ts := by
  constructor
  · intro h
    exact exists_marks h rfl
  · rintro ⟨w, hw, rfl⟩
    exact derives_plain hw

end OnePass
