import OnePass.Proofs.Emission.Changes
import OnePass.Proofs.Names.Overloads

/-!
# Rows of reserved words

An action changes rows of the lexeme that it is given, rows of the loop keyword and rows of
functions. So the rows of a reserved word stay as they are as long as no action is given the word
as a name. Of the actions that may be given one, `global` looks for a cell, which no row of the
word has, and only the one that begins a definition makes something of such a row.

* `Meaning.Fits`: what a row of a word may mean. `SymbolTable.Confines`: a table where all do.
* `Confined`: a state where no definition waits to become more. `Change.confined`: changes for
  other names keep it so.
* `confined_perform`: **every action does,** if it may be given the word at all.
-/

namespace OnePass.Names

open Grammar (Terminal)
open Lexical (Token TokenKind)

/-- **What a row of a word may mean:** nothing yet, the loops on a row of their keyword, and a
function on a row of the word that definitions begin with. -/
def Meaning.Fits (w : String) : Meaning → Prop
  | .variable cell => cell = none
  | .function _ => w = Terminal.kwDef.lexeme
  | .loops _ => w = loopKeyword

/-- Such a row has no cell. -/
theorem Meaning.Fits.cell?_eq {w : String} : {m : Meaning} → m.Fits w → m.cell? = none
  | .variable _, h => h
  | .function _, _ => rfl
  | .loops _, _ => rfl

/-- Where it is a function's, the word is the one that definitions begin with. -/
theorem Meaning.Fits.eq_of_isFunction {w : String} : {m : Meaning} → m.Fits w →
    m.isFunction = true → w = Terminal.kwDef.lexeme
  | .function _, h, _ => h
  | .variable _, _, hf => by cases hf
  | .loops _, _, hf => by cases hf

namespace SymbolTable

variable {w x : String} {t t' : SymbolTable} {row i : Nat} {m : Meaning}

/-- The name that a row was entered with. -/
def title? (t : SymbolTable) (row : Nat) : Option String := (t.name? row).map title

theorem title?_retire : (t.retire row).title? i = t.title? i := by
  rw [title?, title?, name?, name?, retire, modifyRow, Array.getElem?_modify]
  split
  · cases t.rows[i]? with
    | none => rfl
    | some r => exact congrArg some r.title_retire
  · rfl

/-- **A table whose rows of a word** mean no more than they may, if they are retired as well. -/
def Confines (t : SymbolTable) (w : String) : Prop :=
  ∀ i m, t.title? i = some w → t.meaning? i = some m → m.Fits w

/-- A row that may become a function, as far as a word is concerned. -/
def MayDefine (t : SymbolTable) (w : String) (row : Nat) : Prop :=
  ∃ n, t.title? row = some n ∧ (n = w → w = Terminal.kwDef.lexeme)

/-- A row that is appended means nothing yet. -/
theorem Confines.appendRow (h : t.Confines w) (kind : TokenKind) :
    (t.appendRow x kind).2.Confines w := fun i m hn hm => by
  rw [meaning?_appendRow] at hm
  split at hm
  · cases hm
    rfl
  · rename_i hi
    rw [title?, name?_appendRow, if_neg hi] at hn
    exact h i m hn hm

theorem Confines.rowFor (h : t.Confines w) (kind : TokenKind) (reuse : Meaning → Bool) :
    (t.rowFor x kind reuse).2.Confines w :=
  rowFor_induction (P := (Confines · w)) h (h.appendRow kind)

theorem Confines.record (h : t.Confines w) (token : Token) : (t.record token).Confines w := by
  rcases record_cases t token with heq | ⟨heq, -⟩ <;> rw [heq]
  · exact h
  · exact h.appendRow token.kind

/-- **One row comes to mean something else.** -/
theorem Confines.setMeaning (h : t.Confines w) (hm : t.title? row = some w → m.Fits w) :
    (t.setMeaning row m).Confines w := fun i m' hn hm' => by
  rw [title?, name?_setMeaning] at hn
  rw [meaning?_setMeaning] at hm'
  split at hm'
  · rename_i heq
    obtain ⟨_, -, rfl⟩ := Option.map_eq_some_iff.1 hm'
    exact hm (heq ▸ hn)
  · exact h i m' hn hm'

theorem Confines.retire (h : t.Confines w) : (t.retire row).Confines w := fun i m hn hm =>
  h i m (title?_retire ▸ hn) (meaning?_retire ▸ hm)

theorem MayDefine.of_names (h : t.MayDefine w row)
    (hn : ∀ i n, t.name? i = some n → t'.name? i = some n) : t'.MayDefine w row := by
  obtain ⟨_, htitle, hw⟩ := h
  obtain ⟨n, hname, rfl⟩ := Option.map_eq_some_iff.1 htitle
  exact ⟨title n, by rw [title?, hn row n hname]; rfl, hw⟩

end SymbolTable

end OnePass.Names

namespace OnePass.Emission

open Grammar (Action Terminal)
open Names Target

/-- **A state where a word stays what it is:** none of its rows means more than it may, and none
waits to become more. -/
structure Confined (w : String) (g : Generator) : Prop where
  rows : g.symbols.Confines w
  pending : ∀ row ∈ g.definitions.map Definition.row, g.symbols.MayDefine w row

variable {w x y : String} {line : Nat} {g g' : Generator}

namespace Confined

/-- Only names, meanings and the rows of open definitions count. -/
theorem of_eq (h : Confined w g) (hs : g'.symbols = g.symbols)
    (hd : g'.definitions.map Definition.row = g.definitions.map Definition.row) : Confined w g' :=
  ⟨hs ▸ h.rows, hs ▸ hd ▸ h.pending⟩

theorem like (h : Confined w g) (hlike : g.Like g') : Confined w g' := by
  refine h.of_eq hlike.symbols ?_
  have hrows := congrArg (List.map Prod.fst) hlike.definitions
  rwa [List.map_map, List.map_map] at hrows

theorem withMemory (h : Confined w g) (m : Memory) : Confined w { g with memory := m } :=
  h.of_eq rfl rfl

/-- The table changes, and every row keeps its name. -/
theorem withSymbols (h : Confined w g) {t : SymbolTable} (ht : t.Confines w)
    (hn : ∀ i n, g.symbols.name? i = some n → t.name? i = some n) :
    Confined w { g with symbols := t } := ⟨ht, fun row hrow => (h.pending row hrow).of_names hn⟩

theorem setMeaning (h : Confined w g) {row : Nat} {m : Meaning}
    (hm : g.symbols.title? row = some w → m.Fits w) : Confined w (g.setMeaning row m) :=
  h.withSymbols (h.rows.setMeaning hm) fun _ _ hn => SymbolTable.name?_setMeaning.trans hn

theorem rowFor (h : Confined w g) (reuse : Meaning → Bool) : Confined w (g.rowFor x reuse).2 :=
  h.withSymbols (h.rows.rowFor _ reuse) fun _ _ hn => SymbolTable.name?_rowFor_of_some hn

theorem enterScope (h : Confined w g) (region : Region) : Confined w (g.enterScope region) :=
  h.withSymbols (t := g.symbols.enterScope region) h.rows fun _ _ hn => hn

/-- A definition begins, on a row that may become a function. -/
theorem define (h : Confined w g) {d : Definition} (hd : g.symbols.MayDefine w d.row) :
    Confined w { g with definitions := d :: g.definitions } :=
  ⟨h.rows, List.forall_mem_cons.2 ⟨hd, h.pending⟩⟩

theorem mapDefinition (h : Confined w g) {f : Definition → Definition}
    (hf : ∀ d, (f d).row = d.row) : Confined w (g.mapDefinition f) := by
  refine h.of_eq rfl ?_
  unfold Generator.mapDefinition
  cases g.definitions with
  | nil => rfl
  | cons d rest => exact congrArg (· :: rest.map Definition.row) (hf d)

end Confined

/-- **Changes for another name** leave a word what it is. -/
theorem Change.confined (hchange : Change x g g') (hx : title x ≠ w) (h : Confined w g) :
    Confined w g' := by
  have htitle {row : Nat} {n : String} (hn : g.symbols.name? row = some n) :
      g.symbols.title? row = some (title n) := congrArg (Option.map title) hn
  have hother {row : Nat} {m : Meaning} (hn : g.symbols.name? row = some x) :
      g.symbols.title? row = some w → m.Fits w := fun hw =>
    absurd (Option.some.inj ((htitle hn).symm.trans hw)) hx
  cases hchange with
  | aside hlike => exact h.like hlike
  | appendRow kind =>
    exact h.withSymbols (h.rows.appendRow kind) fun _ _ hn => SymbolTable.name?_appendRow_of_some hn
  | enterScope region => exact h.enterScope region
  | leaveScope => exact h.withSymbols (t := g.symbols.leaveScope) h.rows fun _ _ hn => hn
  | takeCell | takeNextCell => exact h.withMemory _
  | bind hn => exact (h.withMemory _).setMeaning (hother hn)
  | bindTo hn => exact h.setMeaning (hother hn)
  | recordLoops record hn =>
    exact h.setMeaning fun hw => Option.some.inj (hw.symm.trans (htitle hn))
  | @openHeader d result returnCell start m m' hn =>
    exact (h.withMemory m').define ⟨_, htitle hn, fun heq => absurd heq hx⟩
  | addParam => exact h.mapDefinition fun _ => rfl
  | dropHeader => exact h.mapDefinition fun _ => rfl
  | @publish d rest info start hd =>
    have hdrop := h.mapDefinition (f := ({ · with header := none })) fun _ => rfl
    refine hdrop.setMeaning fun hw => ?_
    -- a definition waits on no row of the word, unless it is the one they begin with
    obtain ⟨n, hn, hdef⟩ := h.pending d.row (hd ▸ List.mem_cons_self)
    exact hdef (Option.some.inj (hn.symm.trans hw))
  | @noteValue row info hf =>
    obtain ⟨m, hm, hfunction⟩ := Option.bind_eq_some_iff.1 hf
    refine h.setMeaning fun hw => ?_
    -- what holds of a function holds of it with a value
    have hfits := h.rows row m hw hm
    cases m <;> cases hfunction
    exact hfits
  | closeDefinition hd =>
    exact ⟨h.rows, fun row hrow => h.pending row (hd ▸ List.mem_cons_of_mem _ hrow)⟩
  | retire =>
    refine ⟨h.rows.retire, fun row hrow => ?_⟩
    obtain ⟨n, hn, hdef⟩ := h.pending row hrow
    exact ⟨n, SymbolTable.title?_retire.trans hn, hdef⟩

theorem Changes.confined (hchanges : Changes x g g') (hx : title x ≠ w) (h : Confined w g) :
    Confined w g' := by
  induction hchanges with
  | refl => exact h
  | tail _ hlast ih => exact hlast.confined hx ih

theorem aloof_confined (w : String) : Aloof (Confined w) := aloof_of_like Confined.like

/-- The word is no global name, as none of its rows has a cell. -/
theorem preserves_bindGlobal_word (hw : Unmarked w) :
    Preserves (Confined w) (bindGlobal w line) := by
  refine fun g h => ensures_bind (ensures_get ?_)
  split
  · exact h
  · split
    · exact (aloof_confined w).preserves_report g h
    · rename_i cell hcell
      obtain ⟨row, hrow, hcell⟩ := Option.bind_eq_some_iff.1 hcell
      obtain ⟨m, hm, hcell⟩ := Option.bind_eq_some_iff.1 hcell
      have htitle : g.symbols.title? row = some w := by
        rw [SymbolTable.title?, SymbolTable.name?_of_latestIn hrow]
        exact congrArg some (title_of_unmarked hw)
      rw [(h.rows row m htitle hm).cell?_eq] at hcell
      cases hcell

/-- A definition without a name is given the word that it begins with. -/
theorem preserves_startFunction_word (hw : w = Terminal.kwDef.lexeme) :
    Preserves (Confined w) (startFunction w) := by
  refine preserves_bind (aloof_confined w).preserves_reserve fun aroundSlot g h => ?_
  refine ensures_bind (ensures_onMemory h fun result m _ => ?_)
  refine ensures_bind (ensures_onMemory (h.withMemory m) fun returnCell m' _ => ?_)
  refine ensures_bind (ensures_modifyGet (ensures_bind (ensures_get ?_)))
  refine ensures_bind (ensures_modify (ensures_modify ?_))
  have hn := (g.symbols.rowFor_spec w .identifier (· = .unused)).1
  exact (((h.withMemory m').rowFor (· = .unused)).enterScope (.body _)).define
    ⟨title w, congrArg (Option.map title) hn, fun _ => hw⟩

/-- **Every action leaves a word what it is,** if it is not given the word as a name, but for a
definition on the one that definitions begin with. -/
theorem confined_perform {a : Action} (h : Confined w g) (hlexeme : Unmarked x)
    (hx : a.behind? = some .identifier → x = w →
      a = .global ∨ a = .enterFunction ∧ w = Terminal.kwDef.lexeme) :
    Confined w (stateAfter (perform a x line) g) := by
  by_cases hname : a.behind? = some .identifier ∧ x = w
  · obtain ⟨ha, rfl⟩ := hname
    rcases hx ha rfl with rfl | ⟨rfl, hw⟩
    · exact (preserves_bindGlobal_word hlexeme).stateAfter h
    · exact (preserves_startFunction_word hw).stateAfter h
  · -- an action that uses no name does the same whatever lexeme it is given
    obtain ⟨y, hy, hsame⟩ : ∃ y, title y ≠ w ∧ (a.behind? = some .identifier → x = y) := by
      by_cases ha : a.behind? = some .identifier
      · exact ⟨x, fun heq => hname ⟨ha, title_of_unmarked hlexeme ▸ heq⟩, fun _ => rfl⟩
      · refine ⟨retiredMark ++ (w ++ "'"), ?_, fun hc => absurd hc ha⟩
        rw [title_mark]
        simp
    have hchanges : Changes y g (stateAfter (perform a x line) g) :=
      (Changes.preserves_perform a hsame).stateAfter .refl
    exact hchanges.confined hy h

end OnePass.Emission
