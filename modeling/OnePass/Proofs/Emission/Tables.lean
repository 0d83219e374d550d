import OnePass.Proofs.Emission.Steps
import OnePass.Proofs.Lexical.Tokens

/-!
# Steps on the symbol table that keep generation sound

Names that are bound, functions that are put on their rows and scopes that open and
close leave the record of the loops alone, and all rows tidy.

* `Steady`: a change of the table that a sound state does not notice.
* `Sound.withSymbols`: such a change keeps it sound.
* `Sound.setMeaning`, `Sound.rowFor`, `Sound.ends_bindFresh`: names that are bound.
-/

namespace OnePass.Emission

open Grammar (Item)
open Names Target
open Lexical (Token)

/-- **A change of the table that a sound state does not notice.** -/
structure Steady (E : Setting) (t t' : SymbolTable) : Prop where
  current : t'.currentScope = t.currentScope
  scopes : ∀ s r p, t.scopes.At s r p → t'.scopes.At s r p
  safe : ∀ row, E.Safe t row → E.Safe t' row
  records : ∀ record, E.Records t record → E.Records t' record

section Steady

variable {E : Setting} {t t' : SymbolTable} {next limit row : Nat} {m : Meaning} {name : String}
  {kind : Lexical.TokenKind}

theorem Steady.refl (E : Setting) (t : SymbolTable) : Steady E t t :=
  ⟨rfl, fun _ _ _ h => h, fun _ h => h, fun _ h => h⟩

theorem Steady.trans {t'' : SymbolTable} (h : Steady E t t') (h' : Steady E t' t'') :
    Steady E t t'' :=
  ⟨h'.current.trans h.current, fun s r p ha => h'.scopes s r p (h.scopes s r p ha),
    fun row hr => h'.safe row (h.safe row hr), fun r hr => h'.records r (h.records r hr)⟩

/-- The loops are steady if they are where the keyword is reserved. -/
theorem records_of_loops? (h : E.config.keywords.contains loopKeyword = true → t'.loops? = t.loops?)
    (record : LoopRecord) (hr : E.Records t record) : E.Records t' record := by
  unfold Setting.Records at hr ⊢
  split
  · rename_i hk
    rw [if_pos hk] at hr
    rw [h hk]
    exact hr
  · rename_i hk
    rw [if_neg hk] at hr
    exact hr

theorem steady_setMeaning (ht : t.scopes.Rooted) (hr : E.Safe t row) :
    Steady E t (t.setMeaning row m) where
  current := rfl
  scopes _ _ _ h := h
  safe i h hk := by
    rw [SymbolTable.name?_setMeaning]
    exact h hk
  records := records_of_loops? fun hk => SymbolTable.loops?_setMeaning ht (hr hk)

theorem steady_appendRow (ht : t.scopes.Rooted)
    (hn : E.config.keywords.contains loopKeyword = true → name ≠ loopKeyword) :
    Steady E t (t.appendRow name kind).2 where
  current := rfl
  scopes _ _ _ h := h
  safe i h hk := by
    rw [SymbolTable.name?_appendRow]
    split
    · simpa using hn hk
    · exact h hk
  records := records_of_loops? fun hk => SymbolTable.loops?_appendRow ht (hn hk)

theorem steady_retire (ht : t.scopes.Rooted) (hr : E.Safe t row) : Steady E t (t.retire row) where
  current := rfl
  scopes _ _ _ h := h
  safe i h hk := by
    by_cases hi : row = i
    · subst hi
      rcases SymbolTable.name?_retire t row with h' | h'
      · exact h'
      · rw [h']
        exact hr hk
    · rw [SymbolTable.name?_retire_ne hi]
      exact h hk
  records := records_of_loops? fun hk => SymbolTable.loops?_retire ht (hr hk)

theorem Tidy.mono {next' limit' : Nat} (h : Tidy E next limit t) (hn : next ≤ next')
    (hl : limit ≤ limit') : Tidy E next' limit' t :=
  ⟨h.rooted, fun i m hm => (h.fits i m hm).mono hn hl, h.functions⟩

theorem isFunction_of_function? {info : FunctionInfo} (h : m.function? = some info) :
    m.isFunction = true := by
  rcases m with cell | f | record
  · cases h
  · rfl
  · cases h

/-- A function is on a row that has got one as its meaning, or was there before. -/
theorem isSome_function?_setMeaning {i : Nat} (h : ((t.setMeaning row m).function? i).isSome) :
    (row = i ∧ m.isFunction = true) ∨ (t.function? i).isSome := by
  rw [SymbolTable.function?, SymbolTable.meaning?_setMeaning] at h
  split at h
  · obtain ⟨info, hinfo⟩ := Option.isSome_iff_exists.1 h
    obtain ⟨m', hm', hf⟩ := Option.bind_eq_some_iff.1 hinfo
    obtain ⟨_, -, rfl⟩ := Option.map_eq_some_iff.1 hm'
    exact .inl ⟨‹_›, isFunction_of_function? hf⟩
  · exact .inr h

theorem Tidy.setMeaning (h : Tidy E next limit t) (hm : Fits E next limit m)
    (hf : m.isFunction = true → E.Safe t row) : Tidy E next limit (t.setMeaning row m) where
  rooted := h.rooted
  fits i m' hm' := by
    rw [SymbolTable.meaning?_setMeaning] at hm'
    split at hm'
    · obtain ⟨_, -, rfl⟩ := Option.map_eq_some_iff.1 hm'
      exact hm
    · exact h.fits i m' hm'
  functions i hi hk := by
    rw [SymbolTable.name?_setMeaning]
    rcases isSome_function?_setMeaning hi with ⟨rfl, hm⟩ | hi
    · exact hf hm hk
    · exact h.functions i hi hk

theorem Tidy.appendRow (h : Tidy E next limit t) : Tidy E next limit (t.appendRow name kind).2 where
  rooted := h.rooted
  fits i m hm := by
    rw [SymbolTable.meaning?_appendRow] at hm
    split at hm
    · cases hm
      exact fun a ha => by cases ha
    · exact h.fits i m hm
  functions i hi hk := by
    rw [SymbolTable.function?, SymbolTable.meaning?_appendRow] at hi
    rw [SymbolTable.name?_appendRow]
    split at hi
    · simp [Meaning.unused, Meaning.function?] at hi
    · rename_i hne
      rw [if_neg hne]
      exact h.functions i hi hk

theorem Tidy.retire (h : Tidy E next limit t) (hr : E.Safe t row) :
    Tidy E next limit (t.retire row) where
  rooted := h.rooted
  fits i m hm := by
    rw [SymbolTable.meaning?_retire] at hm
    exact h.fits i m hm
  functions i hi := by
    rw [SymbolTable.function?, SymbolTable.meaning?_retire] at hi
    exact (steady_retire h.rooted hr).safe i (h.functions i hi)

theorem rowFor_steady (kind : Lexical.TokenKind) (h : Tidy E next limit t)
    (hn : E.config.keywords.contains loopKeyword = true → name ≠ loopKeyword)
    (reuse : Meaning → Bool) :
    Steady E t (t.rowFor name kind reuse).2 ∧ Tidy E next limit (t.rowFor name kind reuse).2 ∧
      E.Safe (t.rowFor name kind reuse).2 (t.rowFor name kind reuse).1 := by
  obtain ⟨hname, hcase⟩ := SymbolTable.rowFor_spec t name kind reuse
  refine ⟨?_, ?_, fun hk => ?_⟩
  · rcases hcase with ⟨h', -⟩ | h'
    · rw [h']
      exact .refl E t
    · rw [h']
      exact steady_appendRow h.rooted hn
  · rcases hcase with ⟨h', -⟩ | h'
    · rw [h']
      exact h
    · rw [h']
      exact h.appendRow
  · rw [hname]
    simpa using hn hk

/-- **Reading a token** is not noticed. -/
theorem record_steady {token : Token} (h : Tidy E next limit t) (ht : token.Fits E.config.keywords)
    (hr : ∃ record, E.Records t record) :
    Steady E t (t.record token) ∧ Tidy E next limit (t.record token) := by
  rcases SymbolTable.record_cases t token with h' | ⟨h', hkind⟩
  · rw [h']
    exact ⟨.refl E t, h⟩
  · rw [h']
    refine ⟨steady_appendRow h.rooted fun hk hc => ?_, h.appendRow⟩
    rcases hkind with hkind | hnone
    · have := ht.identifier hkind
      rw [hc, hk] at this
      cases this
    · obtain ⟨record, hr⟩ := hr
      rw [Setting.Records, if_pos hk, SymbolTable.loops?, SymbolTable.loopRow?, ← hc, hnone] at hr
      cases hr

end Steady

namespace Sound

variable {E : Setting} {slack bound : Nat} {extra : List Nat} {away : Option Nat}
  {g : Generator} {items : List Item}

/-- **A change of the table that is not noticed** keeps the state sound. -/
theorem withSymbols (h : Sound E slack bound extra away g items) {t : SymbolTable}
    (hs : Steady E g.symbols t) (ht : Tidy E g.memory.dataNext (g.programNext + slack) t) :
    Sound E slack bound extra away { g with symbols := t } items := by
  obtain ⟨held, loops, record, h1, h2, h3, h4⟩ := h.layers
  refine ⟨h.memory, h.code, ht, fun row hr => hs.safe row (h.last row hr), held, loops, record, ?_,
    h2, hs.records record h3, h4⟩
  have hcurrent : Generator.currentScope { g with symbols := t } = g.currentScope := hs.current
  rw [hcurrent]
  exact h1.mono (Nat.le_refl _) (Nat.le_refl _) hs.scopes hs.safe

theorem setMeaning (h : Sound E slack bound extra away g items) {row : Nat} {m : Meaning}
    (hr : E.Safe g.symbols row) (hm : Fits E g.memory.dataNext (g.programNext + slack) m) :
    Sound E slack bound extra away (g.setMeaning row m) items :=
  h.withSymbols (steady_setMeaning h.table.rooted hr) (h.table.setMeaning hm fun _ => hr)

theorem rowFor (h : Sound E slack bound extra away g items) {name : String}
    (hn : E.config.keywords.contains loopKeyword = true → name ≠ loopKeyword)
    (reuse : Meaning → Bool) :
    E.Safe (g.rowFor name reuse).2.symbols (g.rowFor name reuse).1 ∧
      (g.rowFor name reuse).2.memory = g.memory ∧
      Sound E slack bound extra away (g.rowFor name reuse).2 items := by
  obtain ⟨h1, h2, h3⟩ := rowFor_steady .identifier h.table hn reuse
  exact ⟨h3, rfl, h.withSymbols h1 h2⟩

/-- **Every name can get a cell of its own.** -/
theorem ends_bindFresh (h : Sound E slack bound extra away g items) {name : String}
    (hn : E.config.keywords.contains loopKeyword = true → name ≠ loopKeyword) :
    Ends (bindFresh name) g fun cell g' => DataCell E.config g'.memory.dataNext cell ∧
      g'.definitions = g.definitions ∧ Sound E slack bound extra away g' items := by
  simp only [bindFresh, ends_bind, ends_modifyGet, ends_modify, ends_pure]
  obtain ⟨hr, -, h⟩ := h.rowFor hn Meaning.isVariable
  refine h.ends_takeCell.mono ?_
  rintro cell g₁ ⟨hcell, ⟨m, rfl⟩, -, h⟩
  exact ⟨hcell, rfl, h.setMeaning hr fun a ha => by cases ha; exact hcell⟩

end Sound

end OnePass.Emission
