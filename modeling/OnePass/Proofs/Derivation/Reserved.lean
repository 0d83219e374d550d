import OnePass.Proofs.Derivation.Recovery
import OnePass.Proofs.Emission.Histories
import OnePass.Proofs.Emission.Reserved

/-!
# Reserved words stay what they are

A repair may leave out a name. The action that uses it is then given the word before the missing
name, and such a word may be reserved. So a definition without a name makes a function of the
keyword that it begins with. All other rows of reserved words stay as they are, whatever is wrong
with a text.

* `confined_of_passed`: no other word comes to mean anything, but for the loops.
* `ages_of_passed`: rows only age while a text is read.
* `reserved_of_parse`: **what becomes of the rows of reserved words.**
-/

namespace OnePass.Derivation

open Emission Names
open Grammar (Action Table Terminal)
open Machine

variable {table : Table} {config : Config} {source : String} {past : List Machine} {m m' : Machine}
  {w : String}

/-- A word that an action is given instead of a name is the one that leads to it. -/
theorem Machine.Framed.led {constructs : List Construct} (h : m.Framed config constructs)
    {a : Action} {rest : List Goal} (hg : m.goals = .act a :: rest)
    (ha : a.behind? = some .identifier) (hk : config.keywords.contains m.lastLexeme = true)
    (hcomma : m.lastLexeme ≠ Terminal.comma.lexeme) :
    a = .global ∨ a = .enterFunction ∧ m.lastLexeme = Terminal.kwDef.lexeme := by
  have hnaming := h.naming
  rw [hg] at hnaming
  obtain ⟨t, ht, hleads⟩ := hnaming.led ha hk
  rw [← ht] at hcomma ⊢
  cases t with
  | comma => exact absurd rfl hcomma
  | kwGlobal => exact .inl (Option.some.inj hleads).symm
  | kwDef => exact .inr ⟨(Option.some.inj hleads).symm, rfl⟩
  | _ => cases hleads

/-- **What holds of generation all along a run:** what is true at first, and stays true when a token
is recorded and when an action is performed. -/
theorem generator_of_passed {I : Generator → Prop} (htable : Grammar.table = .ok table)
    (hstart : I (.ofConfig config))
    (hrecord : ∀ g token, I g → I { g with symbols := g.symbols.record token })
    (hact : ∀ past m a rest, Passed table (begun config source) past m →
      m.goals = .act a :: rest → I m.generator →
        I (stateAfter (perform a m.lastLexeme m.lastLine) m.generator))
    (h : Passed table (begun config source) past m) : I m.generator := by
  induction h with
  | start =>
    rcases generator_begun config source with hgen | ⟨-, hgen⟩ <;> rw [hgen]
    · exact hstart
    · exact hrecord (.ofConfig config) (begun config source).lookahead hstart
  | @move past m m' hpassed hmove ih =>
    by_cases hgoal : ∃ a rest, m.goals = .act a :: rest
    · obtain ⟨a, rest, hg⟩ := hgoal
      obtain ⟨g, hp, rfl⟩ := exists_perform hg hmove
      have hafter := hact past m a rest hpassed hg ih
      rwa [stateAfter, hp] at hafter
    · have hscan := (framed_of_passed htable hpassed).secured.scanning
      rcases generator_move hscan (fun a rest hg => hgoal ⟨a, rest, hg⟩) hmove
        with hgen | ⟨-, hgen⟩ <;> rw [hgen]
      · exact ih
      · exact hrecord m.generator m'.lookahead ih

/-- **A reserved word means nothing,** but for the loops and the definitions without a name. -/
theorem confined_of_passed (htable : Grammar.table = .ok table)
    (h : Passed table (begun config source) past m) (hw : config.keywords.contains w = true)
    (hcomma : w ≠ Terminal.comma.lexeme) : Confined w m.generator := by
  refine generator_of_passed htable ?_ (fun g token hg => ?_)
    (fun past m a rest hpassed hg ih => ?_) h
  · refine ⟨fun i m _ hm => ?_, fun _ h => absurd h List.not_mem_nil⟩
    rw [SymbolTable.meaning?_ofKeywords hm]
    rfl
  · exact hg.withSymbols (hg.rows.record token) fun _ _ hn =>
      SymbolTable.name?_record_of_some hn token
  · refine confined_perform ih (unmarked_of_passed hpassed).last fun ha hx => ?_
    obtain rfl := hx
    exact (framed_of_passed htable hpassed).led hg ha hw hcomma

/-- **Rows only age** while a text is read. -/
theorem ages_of_passed (htable : Grammar.table = .ok table)
    (h : Passed table (begun config source) past m) :
    (SymbolTable.ofKeywords config.keywords).Ages m.generator.symbols := by
  refine generator_of_passed (I := fun g => (SymbolTable.ofKeywords config.keywords).Ages g.symbols)
    htable (.refl _) (fun g token hg => ?_) (fun past m a rest _ _ ih => ?_) h
  · rcases SymbolTable.record_cases g.symbols token with heq | ⟨heq, -⟩
    · exact hg.trans (SymbolTable.ages_of_rows (congrArg SymbolTable.rows heq))
    · refine hg.trans ?_
      change g.symbols.Ages (g.symbols.record token)
      rw [heq]
      exact SymbolTable.ages_appendRow g.symbols token.lexeme token.kind
  · exact ih.trans (changes_perform a m.lastLexeme m.lastLine m.generator).ages

/-- **What becomes of the rows of reserved words.** Whatever is wrong with a text, under the usual
reserved words each of them has its row in the outermost scope, and that row is a keyword's. It
is the word's and means nothing, but for two: the loops are recorded on the row of theirs, and a
definition without a name makes a function of the row of `def`, which may be retired. -/
theorem reserved_of_parse {o : Outcome} (hk : config.keywords = Config.standard.keywords)
    (h : parse config source = .ok o) {i : Nat} (hi : config.keywords[i]? = some w) :
    ∃ r, o.generator.symbols.rows[i]? = some r ∧ r.kind = .keyword ∧ r.scope = Scopes.outermost ∧
      r.meaning.Fits w ∧
      (r.name = w ∨
        w = Terminal.kwDef.lexeme ∧ r.isFunction = true ∧ r.name = retiredMark ++ w) := by
  obtain ⟨table, m, htable, hreaches, -, rfl⟩ := reaches_of_parse h
  obtain ⟨past, hpassed⟩ := reaches_iff_passed.1 hreaches
  have hmem : w ∈ config.keywords := List.mem_of_getElem? hi
  have hplain : ∀ word ∈ Config.standard.keywords,
      retiredMark.toList.isPrefixOf word.toList = false ∧ word ≠ Terminal.comma.lexeme := by
    decide
  obtain ⟨hunmarked, hcomma⟩ := hplain w (hk ▸ hmem)
  have hconfined := confined_of_passed htable hpassed (List.contains_iff_mem.2 hmem) hcomma
  have hrow : (SymbolTable.ofKeywords config.keywords).rows[i]? =
      some ⟨w, .keyword, Scopes.outermost, .unused⟩ := by
    simp [SymbolTable.ofKeywords, hi]
  obtain ⟨r, hr, hage⟩ := ages_of_passed htable hpassed i _ hrow
  have hname : r.name = w ∨ r.isFunction = true ∧ r.name = retiredMark ++ w :=
    hage.name.imp_right And.right
  -- a row that is retired has the word behind the mark
  have htitle : title r.name = w := by
    rcases hname with hname | ⟨-, hname⟩ <;> rw [hname]
    · exact title_of_unmarked hunmarked
    · exact title_mark w
  have hfits : r.meaning.Fits w :=
    hconfined.rows i r.meaning (by rw [SymbolTable.title?, SymbolTable.name?, hr, ← htitle]; rfl)
      (by rw [SymbolTable.meaning?, hr]; rfl)
  exact ⟨r, hr, hage.kind, hage.scope, hfits, hname.imp_right fun hretired =>
    ⟨hfits.eq_of_isFunction hretired.1, hretired⟩⟩

/-- Of two definitions without names, the second takes the place of the first. -/
example : (parse .standard "def ( ) : ; def ( ) : ;").toOption.map (fun o =>
    [o.generator.symbols.rows[2]?, o.generator.symbols.rows[9]?].map
      (Option.map fun r => (r.name, r.kind, r.isFunction))) =
    some [some ("~dead~def", .keyword, true), some ("def", .identifier, true)] := by
  rw [parse_eq, Grammar.table_eq_ok]
  decide +kernel

end OnePass.Derivation
