import OnePass.Proofs.Derivation.Engine
import OnePass.Proofs.Grammar.Words

/-!
# What is accepted

A text is derived without complaint just when its tokens make up a word of the grammar,
and then the tree is a derivation tree of that word.

* `along_of_parse`: a derivation without complaint is a run along marks.
* `along_of_spelled`: a text that spells a derivation is run along its marks.
* `syntaxErrors_eq_nil_iff`: acceptance, and the tree of what is accepted.
-/

namespace OnePass.Derivation

open Grammar
open Lexical (Token)
open Mark (classes Spelled)
open Machine

variable {config : Config} {source : String} {o : Outcome}

/-- **A derivation is a run to the end.** -/
theorem run_of_parse (h : parse config source = .ok o) : ∃ table m,
    Grammar.table = .ok table ∧ (begun config source).run table
        (stepBound (Lexical.scan config.keywords source).tokens.length) = .ok m ∧ m.goals = [] ∧
      o = ⟨Lexical.scan config.keywords source, m.errors.toList, m.tree, m.generator,
        m.lookahead.line⟩ := by
  rw [parse_eq] at h
  cases htable : Grammar.table with
  | error c =>
    rw [htable] at h
    cases h
  | ok table =>
    rw [htable, parseBy] at h
    cases hrun : (begun config source).run table
        (stepBound (Lexical.scan config.keywords source).tokens.length) with
    | error e =>
      rw [hrun] at h
      cases h
    | ok m =>
      rw [hrun] at h
      cases h
      refine ⟨table, m, rfl, hrun, ?_, rfl⟩
      exact goals_of_run htable (orderly_begun config source)
        (potential_start_le config isEndOfInput_of_mem_scan rfl _) hrun

/-- The machine that is left is reached from the first. -/
theorem reaches_of_parse (h : parse config source = .ok o) : ∃ table m,
    Grammar.table = .ok table ∧ Reaches table (begun config source) m ∧ m.goals = [] ∧
      o = ⟨Lexical.scan config.keywords source, m.errors.toList, m.tree, m.generator,
        m.lookahead.line⟩ := by
  obtain ⟨table, m, htable, hrun, hgoals, rfl⟩ := run_of_parse h
  exact ⟨table, m, htable, reaches_of_run hrun, hgoals, rfl⟩

/-- What is recorded of the tokens is the scan of the text. -/
theorem scan_of_parse (h : parse config source = .ok o) :
    o.scan = Lexical.scan config.keywords source := by
  obtain ⟨_, _, -, -, -, rfl⟩ := reaches_of_parse h
  rfl

/-- **A derivation without complaint** runs along the marks of a derivation that the text spells. -/
theorem along_of_parse (h : parse config source = .ok o) (he : o.syntaxErrors = []) :
    ∃ table w m, Grammar.table = .ok table ∧ Derives productions [.nonterminal Grammar.start] w ∧
      Spelled w o.scan.tokens ∧ Along table w (begun config source) m ∧ m.goals = [.textEnd] ∧
      m.lookahead.isEndOfInput = true ∧ o.tree = m.close.tree ∧ o.generator = m.generator ∧
      o.lastLine = m.lookahead.line := by
  obtain ⟨table, m, htable, hr, hg, rfl⟩ := reaches_of_parse h
  have hsize : m.errors.size = (begun config source).errors.size := by
    rw [errors_begun, ← Array.length_toList]
    exact congrArg List.length he
  obtain ⟨w, m₁, hw, hg₁, hend, rfl⟩ := along_of_reaches hr hg hsize (awaits_begun config source)
  refine ⟨table, w, m₁, htable, ?_, ?_, hw, hg₁, hend, rfl, rfl, rfl⟩
  · have := derives_of_along htable hw (by rw [hg₁]; rfl)
    rw [goals_begun] at this
    exact this
  · obtain ⟨tokens, h1, h2⟩ := spelled_of_along (orderly_begun config source) hw
    rw [pending_begun, pending, if_pos hend, List.append_nil] at h1
    rw [h1]
    exact h2

/-- **A text that spells a derivation** is derived along just its marks, without complaint. -/
theorem along_of_spelled (h : parse config source = .ok o) {w : List Mark}
    (hd : Derives productions [.nonterminal Grammar.start] w) (hs : Spelled w o.scan.tokens) :
    ∃ table m, Grammar.table = .ok table ∧ Along table w (begun config source) m ∧
      m.goals = [.textEnd] ∧ m.lookahead.isEndOfInput = true ∧ o.syntaxErrors = [] ∧
      o.tree = m.close.tree ∧ o.generator = m.generator ∧ o.lastLine = m.lookahead.line := by
  obtain ⟨table, m, htable, hr, hg, rfl⟩ := reaches_of_parse h
  have hclosed := (build_eq_ok htable).1 ▸ Facts.closed_ofProductions productions Grammar.start
  obtain ⟨m₁, hw, hg₁, hend, rfl⟩ := along_of_derives htable (orderly_begun config source) hr hg
    (awaits_begun config source) hd (by rw [pending_begun]; exact hs) (followed_start hclosed)
  refine ⟨table, m₁, htable, hw, hg₁, hend, ?_, rfl, rfl, rfl⟩
  have := errors_of_along hw
  rw [errors_begun] at this
  exact congrArg Array.toList this

/-- **A derivation tree of a whole text:** a tree for the start symbol, with the end of the text as
the last child of its root. -/
def Tree.Derives (t : Tree) (tokens : List Token) : Prop :=
  ∃ kids id, t.label = Grammar.start.name ∧
    t.children = kids.append (.cons id Terminal.endMarker.lexeme .nil .nil) ∧
    Forest.Parses [.nonterminal Grammar.start] tokens
      (.cons Tree.root Grammar.start.name kids .nil) ∧
    kids.frontier = tokens.map Token.display

/-- The tree of a run from the start is a derivation tree. -/
theorem tree_derives_of_along {table : Table} {w : List Mark} {m : Machine}
    (htable : Grammar.table = .ok table) (h : Along table w (begun config source) m)
    (hg : m.goals = [.textEnd]) (hend : m.lookahead.isEndOfInput = true) :
    m.close.tree.Derives (Lexical.scan config.keywords source).tokens := by
  obtain ⟨tokens, gs, h1, h2, h3, -⟩ := grown_of_along htable (orderly_begun config source)
    (numbered_begun config source) h (by rw [hg]; rfl)
  rw [pending_begun, pending, if_pos hend, List.append_nil] at h2
  rw [goals_begun] at h1
  rw [tree_begun] at h3
  obtain ⟨p, hp, hhead, kids, ts, others, hs, hrow, hrest, rfl, rfl⟩ := h1.of_phrase
  cases hrest
  have hforest : m.tree.forest = .cons Tree.root Grammar.start.name kids .nil := h3
  rw [Tree.forest, Forest.cons.injEq] at hforest
  obtain ⟨-, hlabel, hkids, -⟩ := hforest
  have hparses := hrow.parses hp Tree.root .nil
  rw [hhead, ← h2] at hparses
  refine ⟨kids, m.tree.next, hlabel, ?_, hparses, ?_⟩
  · rw [← hkids]
    rfl
  · have hf := hparses.frontier
    rw [Forest.frontier, hrow.isNil, Bool.not_false, if_pos rfl, Forest.frontier,
      List.append_nil] at hf
    exact hf

/-- **A text is accepted just when it is a word of the grammar,** and what is accepted has a
derivation tree. -/
theorem syntaxErrors_eq_nil_iff (h : parse config source = .ok o) :
    o.scan = Lexical.scan config.keywords source ∧
      (o.syntaxErrors = [] ↔
        ∃ word ∈ grammar.language, o.scan.tokens.map Terminal.ofToken? = word.map some) ∧
      (o.syntaxErrors = [] → o.tree.Derives o.scan.tokens) := by
  obtain ⟨_, _, -, -, -, ho⟩ := reaches_of_parse h
  have hscan : o.scan = Lexical.scan config.keywords source := congrArg Outcome.scan ho
  refine ⟨hscan, ⟨fun he => ?_, fun ⟨word, hword, hw⟩ => ?_⟩, fun he => ?_⟩
  · obtain ⟨_, w, _, -, hd, hs, -⟩ := along_of_parse h he
    exact ⟨classes w, mem_language_iff.2 ⟨w, hd, rfl⟩, hs.classes_eq⟩
  · obtain ⟨w, hd, rfl⟩ := mem_language_iff.1 hword
    obtain ⟨w', hd', hs'⟩ := hd.respell hw
    obtain ⟨_, _, -, -, -, -, he, -⟩ := along_of_spelled h hd' hs'
    exact he
  · obtain ⟨_, w, m, htable, -, -, hw, hg, hend, htree, -⟩ := along_of_parse h he
    rw [htree, hscan]
    exact tree_derives_of_along htable hw hg hend

theorem derives_print_sum : ∃ o, parse .standard "x = 1 ; print ( x + 2 ) ;" = .ok o ∧
    o.syntaxErrors = [] ∧ o.tree.Derives o.scan.tokens := by
  have h : (parse .standard "x = 1 ; print ( x + 2 ) ;").toOption.map (·.syntaxErrors) =
      some [] := by
    rw [parse_eq, table_eq_ok]
    decide +kernel
  cases ho : parse .standard "x = 1 ; print ( x + 2 ) ;" with
  | error e =>
    rw [ho] at h
    cases h
  | ok o =>
    rw [ho] at h
    have he : o.syntaxErrors = [] := by simpa [Except.toOption] using h
    exact ⟨o, rfl, he, (syntaxErrors_eq_nil_iff ho).2.2 he⟩

end OnePass.Derivation
