import OnePass.Proofs.Emission.Control
import OnePass.Proofs.Names.Sight
import OnePass.Proofs.Names.Usable

/-!
# Functions and loops that are open

What has begun and has not ended is a stack of functions and loops. Each has a scope, which
lies in that of the one around it; a function has its definition, and a loop its place in the
record of the loops.

* `Scopes.Unended`, `SymbolTable.openLoops`: what the table says is open.
* `Construct`, `Generator.constructs`: what is open behind an action.
* `Framing`, `Framed`: **scopes, definitions and open loops, one for each construct.**
* `Framed.enterLoop`, `Framed.enterBody`, `Framed.leaveLoop`, `Framed.leaveBody`: what begins
  and what ends.
-/

namespace OnePass.Names

namespace Scopes

variable {t : Scopes} {s n : Nat} {region : Region} {outer : Nat}

/-- **A scope that has not been closed.** -/
def Unended (t : Scopes) (s : Nat) : Prop := ∃ scope, t.all[s]? = some scope ∧ scope.endRow = none

theorem unended_enter : (t.enter region n).Unended s ↔ s = t.all.size ∨ t.Unended s := by
  rw [Unended, Scopes.enter, Array.getElem?_push]
  split
  · rename_i hs
    exact ⟨fun _ => .inl hs, fun _ => ⟨_, rfl, rfl⟩⟩
  · rename_i hs
    exact ⟨.inr, fun h => h.resolve_left hs⟩

/-- The current scope is closed, and no other. -/
theorem unended_leave (h : t.At t.current region (some outer)) :
    (t.leave n).Unended s ↔ s ≠ t.current ∧ t.Unended s := by
  obtain ⟨scope, hs, -, hp⟩ := h
  have hleave : (t.leave n).all =
      t.all.setIfInBounds t.current { scope with endRow := some n } := by
    rw [Scopes.leave, hs]
    dsimp only
    rw [hp]
  rw [Unended, hleave, Array.getElem?_setIfInBounds]
  split
  · rename_i heq
    subst heq
    refine ⟨fun hunended => ?_, fun h => absurd rfl h.1⟩
    obtain ⟨scope', hs', hend⟩ := hunended
    rw [if_pos (Array.getElem?_eq_some_iff.1 hs).1] at hs'
    cases hs'
    cases hend
  · rename_i hne
    exact ⟨fun h => ⟨Ne.symm hne, h⟩, And.right⟩

theorem At.enclosing (h : t.At s region (some outer)) (hn : t.Nested) :
    t.enclosing s = s :: t.enclosing outer := by
  have hlt := h.lt hn
  obtain ⟨scope, hs, -, hp⟩ := h
  rw [Scopes.enclosing.eq_def, hs]
  dsimp only
  rw [hp]
  dsimp only
  rw [if_pos hlt]

theorem Rooted.enclosing (h : t.Rooted) : t.enclosing outermost = [outermost] := by
  rw [Scopes.enclosing.eq_def, h]

end Scopes

namespace LoopRecord

/-- The loop that is closed is the innermost. -/
theorem starts_leave {l outer : LoopRecord} {closed : ClosedLoop}
    (h : l.leave? = some (closed, outer)) : l.starts = closed.start :: outer.starts := by
  unfold leave? at h
  split at h
  · cases h
  · rename_i start starts hs
    cases h
    exact hs

end LoopRecord

namespace SymbolTable

/-- **The open loops,** none if no loop has been recorded yet. -/
def openLoops (t : SymbolTable) : LoopRecord := t.loops?.getD .empty

variable {t t' : SymbolTable} {keywords : List String} {record : LoopRecord} {row i : Nat}

/-- No row is renamed to the loop keyword. -/
theorem name?_retire_ne_loopKeyword (h : t.name? i ≠ some loopKeyword) :
    (t.retire row).name? i ≠ some loopKeyword := by
  by_cases hi : row = i
  · subst hi
    rcases name?_retire t row with h' | h'
    · exact h'
    · rwa [h']
  · rwa [name?_retire_ne hi]

theorem openLoops_eq (h : t.loops? = some record) : t.openLoops = record := by
  rw [openLoops, h, Option.getD_some]

/-- Where their keyword is reserved, the open loops are recorded on its row. -/
theorem Usable.loops?_eq (h : t.Usable keywords) (hk : keywords.contains loopKeyword = true) :
    t.loops? = some t.openLoops := by
  obtain ⟨row, m, hrow, hm, hf⟩ := h.exists_loopRow hk
  have hloops : t.loops? = m.asLoops? := by
    rw [loops?, hrow, Option.bind_some, hm, Option.bind_some]
  rcases m with cell | info | record
  · rw [openLoops, hloops]
    rfl
  · cases hf
  · rw [openLoops, hloops]
    rfl

/-- Where it is not, there are none. -/
theorem Usable.openLoops_of_unreserved (h : t.Usable keywords)
    (hk : keywords.contains loopKeyword = false) : t.openLoops = .empty := by
  rw [openLoops, loops?]
  cases t.loopRow? with
  | none => rfl
  | some row =>
    rw [Option.bind_some]
    cases hm : t.meaning? row with
    | none => rfl
    | some m =>
      rcases m with cell | info | record
      · rfl
      · rfl
      · exact absurd hm (h.recordless hk row record)

/-- A table that keeps the record keeps the open loops. -/
theorem Usable.openLoops_congr (h : t.Usable keywords) (h' : t'.Usable keywords)
    (hl : ∀ record, keywords.contains loopKeyword = true → t.loops? = some record →
      t'.loops? = some record) : t'.openLoops = t.openLoops := by
  by_cases hk : keywords.contains loopKeyword = true
  · exact openLoops_eq (hl _ hk (h.loops?_eq hk))
  · rw [Bool.not_eq_true] at hk
    rw [h.openLoops_of_unreserved hk, h'.openLoops_of_unreserved hk]

end SymbolTable

end OnePass.Names

namespace OnePass.Emission

open Grammar (Action)
open Names Target

/-- **What has begun and has not ended,** with its scope; a loop also with its first slot. -/
inductive Construct where
  | function (scope : Nat)
  | loop (scope start : Nat)
deriving DecidableEq

/-- The scope of a function's body or of a loop. -/
def Construct.scope : Construct → Nat
  | .function scope | .loop scope _ => scope

/-- **What is open behind an action,** innermost first: four actions begin and end it. -/
def Generator.constructs (g : Generator) (a : Action) (before : List Construct) : List Construct :=
  match a with
  | .enterFunction => .function g.symbols.scopes.all.size :: before
  | .loopBegin => .loop g.symbols.scopes.all.size g.programNext :: before
  | .exitFunction | .loopEnd => before.tail
  | _ => before

/-- The row and the scope of a definition. -/
def Definition.place (d : Definition) : Nat × Nat := (d.row, d.scope)

/-- **Frames for what is open:** the scope of each function is the one of its definition, and the
body of the row that this is on; a loop has a scope and a start. -/
inductive Framing (t : Scopes) :
    List Construct → List (Nat × Nat) → List Nat → Nat → Prop
  | outermost : Framing t [] [] [] Scopes.outermost
  | function {constructs : List Construct} {places : List (Nat × Nat)} {starts : List Nat}
      {s row outer : Nat} (hat : t.At s (.body row) (some outer))
      (h : Framing t constructs places starts outer) :
      Framing t (.function s :: constructs) ((row, s) :: places) starts s
  | loop {constructs : List Construct} {places : List (Nat × Nat)} {starts : List Nat}
      {s start outer : Nat} (hat : t.At s .loop (some outer))
      (h : Framing t constructs places starts outer) :
      Framing t (.loop s start :: constructs) places (start :: starts) s

/-- **Scopes and frames in step:** the scopes that are not closed are those of what is open, and the
jumps that wait belong to the open loops. -/
structure Framed (constructs : List Construct) (t : Scopes) (places : List (Nat × Nat))
    (record : LoopRecord) : Prop where
  rooted : t.Rooted
  framing : Framing t constructs places record.starts t.current
  unended : ∀ s, t.Unended s ↔ s ∈ constructs.map Construct.scope ++ [Scopes.outermost]
  balanced : ∃ limit, Balanced record record.starts.length limit

/-- **A state whose frames are in step.** -/
def Generator.Framed (constructs : List Construct) (g : Generator) : Prop :=
  Emission.Framed constructs g.symbols.scopes (g.definitions.map Definition.place)
    g.symbols.openLoops

/-- Where no loop is open, nothing waits for the end of one. -/
theorem Balanced.eq_empty {record : LoopRecord} {limit : Nat} (h : Balanced record 0 limit) :
    record = .empty := by
  obtain ⟨breaks, continues, starts, breakMarks, continueMarks⟩ := record
  obtain ⟨rfl, rfl⟩ := h.none rfl
  obtain rfl := List.eq_nil_of_length_eq_zero h.starts
  obtain rfl := List.eq_nil_of_length_eq_zero h.breakMarks
  obtain rfl := List.eq_nil_of_length_eq_zero h.continueMarks
  rfl

section Framing

variable {t t' : Scopes} {constructs : List Construct} {places : List (Nat × Nat)}
  {starts : List Nat} {cur : Nat}

theorem Framing.mono (h : Framing t constructs places starts cur)
    (hat : ∀ s r p, t.At s r p → t'.At s r p) : Framing t' constructs places starts cur := by
  induction h with
  | outermost => exact .outermost
  | function ha _ ih => exact .function (hat _ _ _ ha) ih
  | loop ha _ ih => exact .loop (hat _ _ _ ha) ih

/-- **The scopes around a place** are those of what is open, and the outermost. -/
theorem Framing.enclosing (h : Framing t constructs places starts cur) (hr : t.Rooted)
    (hn : t.Nested) :
    t.enclosing cur = constructs.map Construct.scope ++ [Scopes.outermost] := by
  induction h with
  | outermost => exact hr.enclosing
  | function ha _ ih | loop ha _ ih =>
    rw [ha.enclosing hn, ih]
    rfl

/-- In a loop a loop is open. -/
theorem Framing.starts_ne_nil (h : Framing t constructs places starts cur) (hr : t.Rooted)
    (hl : t.isLoop cur = true) : starts ≠ [] := by
  unfold Scopes.isLoop at hl
  cases h with
  | outermost =>
    rw [hr.at.region?] at hl
    cases hl
  | function ha _ =>
    rw [ha.region?] at hl
    cases hl
  | loop => nofun

end Framing

namespace Framed

variable {t : Scopes} {constructs : List Construct} {places : List (Nat × Nat)}
  {record : LoopRecord} {n start s : Nat}

/-- Nothing is open at first. -/
theorem initial : Framed [] Scopes.initial [] .empty where
  rooted := rfl
  framing := .outermost
  unended s := by
    rw [List.map_nil, List.nil_append, List.mem_singleton]
    constructor
    · rintro ⟨scope, hs, -⟩
      exact Nat.lt_one_iff.1 (Array.getElem?_eq_some_iff.1 hs).1
    · rintro rfl
      exact ⟨_, rfl, rfl⟩
  balanced := ⟨0, Balanced.empty⟩

theorem unended_enter (h : Framed constructs t places record) (region : Region)
    {c : Construct} (hc : c.scope = t.all.size) (s : Nat) :
    (t.enter region n).Unended s ↔
      s ∈ (c :: constructs).map Construct.scope ++ [Scopes.outermost] := by
  rw [Scopes.unended_enter, h.unended, List.map_cons, List.cons_append, List.mem_cons, hc]

/-- **A loop begins.** -/
theorem enterLoop (h : Framed constructs t places record) (n start : Nat) :
    Framed (.loop t.all.size start :: constructs) (t.enter .loop n) places
      (record.enter start) where
  rooted := h.rooted.enter _ _
  framing := .loop (Scopes.at_enter t .loop n) (h.framing.mono fun _ _ _ ha => ha.enter _ _)
  unended := h.unended_enter .loop rfl
  balanced := by
    obtain ⟨limit, hb⟩ := h.balanced
    exact ⟨max limit start, (hb.mono (Nat.le_max_left _ _)).enter (Nat.le_max_right _ _)⟩

/-- **A definition begins.** -/
theorem enterBody (h : Framed constructs t places record) (row n : Nat) :
    Framed (.function t.all.size :: constructs) (t.enter (.body row) n)
      ((row, t.all.size) :: places) record where
  rooted := h.rooted.enter _ _
  framing := .function (Scopes.at_enter t (.body row) n)
    (h.framing.mono fun _ _ _ ha => ha.enter _ _)
  unended := h.unended_enter (.body row) rfl
  balanced := h.balanced

/-- The innermost scope is closed. -/
theorem unended_leave {c : Construct} {region : Region} {outer : Nat} {starts : List Nat}
    (h : ∀ s, t.Unended s ↔ s ∈ (c :: constructs).map Construct.scope ++ [Scopes.outermost])
    (hc : c.scope = t.current) (hat : t.At t.current region (some outer))
    (hf : Framing t constructs places starts outer) (hr : t.Rooted) (hn : t.Nested) (s : Nat) :
    (t.leave n).Unended s ↔ s ∈ constructs.map Construct.scope ++ [Scopes.outermost] := by
  have houter : t.current ∉ constructs.map Construct.scope ++ [Scopes.outermost] := fun hmem => by
    rw [← hf.enclosing hr hn] at hmem
    exact absurd (Scopes.le_of_mem_enclosing hmem) (Nat.not_le.2 (hat.lt hn))
  rw [Scopes.unended_leave hat, h, List.map_cons, List.cons_append, List.mem_cons, hc]
  refine ⟨fun ⟨hne, hmem⟩ => hmem.resolve_left hne, fun hmem => ⟨?_, .inr hmem⟩⟩
  rintro rfl
  exact houter hmem

/-- **A loop ends,** and takes its jumps along. -/
theorem leaveLoop (h : Framed (.loop s start :: constructs) t places record)
    (hn : t.Nested) : ∃ closed outer, record.leave? = some (closed, outer) ∧
      ∀ n, Framed constructs (t.leave n) places outer := by
  obtain ⟨limit, hb⟩ := h.balanced
  have hframing := h.framing
  generalize hcur : t.current = cur at hframing
  generalize hstarts : record.starts = starts at hframing hb
  cases hframing with
  | @loop _ _ rest _ _ outerScope hat hf =>
    rw [List.length_cons] at hb
    obtain ⟨closed, outer, hleave, hbalanced, -⟩ := hb.leave
    have hrest := LoopRecord.starts_leave hleave
    rw [hstarts] at hrest
    obtain ⟨-, rfl⟩ := List.cons.inj hrest
    subst hcur
    refine ⟨closed, outer, hleave, fun n => ⟨h.rooted.leave n, ?_, ?_, limit, hbalanced⟩⟩
    · rw [Scopes.current_leave hat]
      exact hf.mono fun _ _ _ ha => ha.leave n
    · exact unended_leave h.unended rfl hat hf h.rooted hn

/-- **A definition ends.** -/
theorem leaveBody (h : Framed (.function s :: constructs) t places record)
    (hn : t.Nested) : ∃ row rest, places = (row, s) :: rest ∧
      ∀ n, Framed constructs (t.leave n) rest record := by
  have hframing := h.framing
  generalize hcur : t.current = cur at hframing
  generalize hstarts : record.starts = starts at hframing
  cases hframing with
  | @function _ rest _ _ row outer hat hf =>
    subst hcur hstarts
    refine ⟨row, rest, rfl, fun n => ⟨h.rooted.leave n, ?_, ?_, h.balanced⟩⟩
    · rw [Scopes.current_leave hat]
      exact hf.mono fun _ _ _ ha => ha.leave n
    · exact unended_leave h.unended rfl hat hf h.rooted hn

end Framed

end OnePass.Emission
