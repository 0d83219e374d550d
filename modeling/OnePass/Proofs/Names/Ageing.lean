import OnePass.Proofs.Names.Usable

/-!
# How rows age

Rows are appended and stay where they are. What may become of one later is little: a
variable becomes anything, a function stays the function it is, the record of the loops stays
one, and only a function is ever renamed, once, when it is retired.

* `Meaning.Ages`, `Row.Ages`, `SymbolTable.Ages`: what becomes of a meaning, a row, a table.
* `ages_setMeaning`, `ages_retire`: single changes that are nothing else.
-/

namespace OnePass.Names

open Lexical (TokenKind)

/-- **What a meaning may become.** A function keeps its cells and its first slot; whether it gives a
value may turn out later. -/
inductive Meaning.Ages : Meaning → Meaning → Prop
  | ofVariable (cell : Option Nat) (m : Meaning) : Meaning.Ages (.variable cell) m
  | function (f : FunctionInfo) {gives : Bool} (h : f.returnsValue = true → gives = true) :
      Meaning.Ages (.function f) (.function { f with returnsValue := gives })
  | loops (l l' : LoopRecord) : Meaning.Ages (.loops l) (.loops l')

theorem Meaning.Ages.refl : (m : Meaning) → m.Ages m
  | .variable cell => .ofVariable cell _
  | .function f => .function f id
  | .loops l => .loops l l

theorem Meaning.Ages.trans {m m' m'' : Meaning} (h : m.Ages m') (h' : m'.Ages m'') :
    m.Ages m'' := by
  cases h with
  | ofVariable cell => exact .ofVariable cell m''
  | function f hf =>
    cases h' with
    | function _ hf' => exact .function f fun h => hf' (hf h)
  | loops l =>
    cases h' with
    | loops _ l'' => exact .loops l l''

/-- A function stays one. -/
theorem Meaning.Ages.isFunction {m m' : Meaning} (h : m.Ages m') (hm : m.isFunction = true) :
    m'.isFunction = true := by
  cases h with
  | ofVariable => cases hm
  | function => rfl
  | loops => cases hm

/-- **What may become of a row.** It is as it was read, in its scope, and under its name unless it
is a function that has been retired. -/
structure Row.Ages (r r' : Row) : Prop where
  kind : r'.kind = r.kind
  scope : r'.scope = r.scope
  meaning : r.meaning.Ages r'.meaning
  name : r'.name = r.name ∨
    r.isRetired = false ∧ r'.isFunction = true ∧ r'.name = retiredMark ++ r.name

namespace Row

variable {r r' r'' : Row}

theorem Ages.refl (r : Row) : r.Ages r := ⟨rfl, rfl, .refl _, .inl rfl⟩

/-- A name that starts with the mark is not given it again. -/
theorem isRetired_of_name (h : r'.name = retiredMark ++ r.name) : r'.isRetired = true := by
  rw [isRetired, h, String.toList_append, List.isPrefixOf_iff_prefix]
  exact List.prefix_append _ _

theorem Ages.trans (h : r.Ages r') (h' : r'.Ages r'') : r.Ages r'' where
  kind := h'.kind.trans h.kind
  scope := h'.scope.trans h.scope
  meaning := h.meaning.trans h'.meaning
  name := by
    rcases h.name with hn | ⟨hlive, hf, hn⟩
    · rcases h'.name with hn' | ⟨hlive', hf', hn'⟩
      · exact .inl (hn'.trans hn)
      · rw [isRetired, hn] at hlive'
        exact .inr ⟨hlive', hf', hn'.trans (by rw [hn])⟩
    · rcases h'.name with hn' | ⟨hlive', -, -⟩
      · exact .inr ⟨hlive, h'.meaning.isFunction hf, hn'.trans hn⟩
      · rw [isRetired_of_name hn] at hlive'
        cases hlive'

/-- A function is retired. -/
theorem ages_retire (h : r.isFunction = true) : r.Ages r.retire := by
  unfold retire
  cases hlive : r.isRetired with
  | true => exact .refl r
  | false => exact ⟨rfl, rfl, .refl _, .inr ⟨hlive, h, rfl⟩⟩

end Row

namespace SymbolTable

variable {t t' t'' : SymbolTable} {row i : Nat} {m : Meaning}

/-- **What may become of a table:** each of its rows is where it was. -/
def Ages (t t' : SymbolTable) : Prop :=
  ∀ (i : Nat) (r : Row), t.rows[i]? = some r → ∃ r', t'.rows[i]? = some r' ∧ r.Ages r'

theorem Ages.refl (t : SymbolTable) : t.Ages t := fun _ r h => ⟨r, h, .refl r⟩

theorem Ages.trans (h : t.Ages t') (h' : t'.Ages t'') : t.Ages t'' := fun i r hr => by
  obtain ⟨r', hr', hage⟩ := h i r hr
  obtain ⟨r'', hr'', hage'⟩ := h' i r' hr'
  exact ⟨r'', hr'', hage.trans hage'⟩

/-- No row is lost. -/
theorem Ages.size_le (h : t.Ages t') : t.rows.size ≤ t'.rows.size := by
  by_contra hlt
  rw [Nat.not_le] at hlt
  obtain ⟨r', hr', -⟩ := h _ _ (Array.getElem?_eq_getElem hlt)
  exact absurd (Array.getElem?_eq_some_iff.1 hr').1 (Nat.lt_irrefl _)

theorem ages_of_rows (h : t'.rows = t.rows) : t.Ages t' := fun _ r hr => ⟨r, h ▸ hr, .refl r⟩

theorem ages_appendRow (t : SymbolTable) (name : String) (kind : TokenKind) :
    t.Ages (t.appendRow name kind).2 := fun i r hr => by
  have hlt := (Array.getElem?_eq_some_iff.1 hr).1
  refine ⟨r, ?_, .refl r⟩
  rw [appendRow, Array.getElem?_push, if_neg (Nat.ne_of_lt hlt)]
  exact hr

/-- One row changes. -/
theorem ages_modifyRow {f : Row → Row} (h : ∀ r, t.rows[row]? = some r → r.Ages (f r)) :
    t.Ages (t.modifyRow row f) := fun i r hr => by
  refine ⟨if row = i then f r else r, ?_, ?_⟩
  · rw [modifyRow, Array.getElem?_modify]
    split
    · rw [hr]
      rfl
    · exact hr
  · split
    · rename_i heq
      exact h r (heq ▸ hr)
    · exact .refl r

/-- **A row comes to mean something else,** if its meaning may become that. -/
theorem ages_setMeaning (h : ∀ old, t.meaning? row = some old → old.Ages m) :
    t.Ages (t.setMeaning row m) :=
  ages_modifyRow fun r hr => ⟨rfl, rfl, h _ (by rw [meaning?, hr]; rfl), .inl rfl⟩

/-- **A function is retired.** -/
theorem ages_retire (h : (t.function? row).isSome) : t.Ages (t.retire row) :=
  ages_modifyRow fun r hr => by
    refine Row.ages_retire ?_
    rw [function?, meaning?, hr, Option.map_some, Option.bind_some] at h
    unfold Row.isFunction
    cases hm : r.meaning with
    | function f => rfl
    | _ =>
      rw [hm] at h
      cases h

end SymbolTable

end OnePass.Names
