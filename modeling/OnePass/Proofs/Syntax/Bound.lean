import OnePass.Proofs.Syntax.Calls

/-!
# What is read has been bound

Names get their cells where they are bound: as parameters, by being declared global, or as the
targets of assignments. A text without errors reads no other names, and where one is read a
binding in sight stands before that place. It need not be over: what is assigned to a name may
itself read the name, since the target has its cell by then.

* `Targeted`: marks whose targets are those of assignments. `targeted_block`.
* `Binding`, `around`, `InSight`: bindings of a name, and from where they are seen.
* `Sourced`: maps whose cells go back to bindings. `Trace.Tells.sourced`.
* `bound_of_compile`: **every name that is read has been bound.**
* `unbound_within_assignment`: it may be only just being bound.
-/

namespace OnePass.Syntax

open OnePass.Derivation
open Grammar (Action Mark)

section Targets

variable {u w : List Mark} {k : Mark}

/-- **Marks whose targets are those of assignments.** -/
def Targeted (w : List Mark) : Prop :=
  ∀ p, w[p]? = some (.act .pushTarget) →
    ∃ k n x value, p = k + 1 ∧ Span w k n (Statement.assign x value).marks

theorem Targeted.append (hu : Targeted u) (hw : Targeted w) : Targeted (u ++ w) := by
  intro p hp
  rcases Nat.lt_or_ge p u.length with hlt | hge
  · rw [List.getElem?_append_left hlt] at hp
    obtain ⟨k, n, x, value, heq, hspan⟩ := hu p hp
    exact ⟨k, n, x, value, heq, span_append_right hspan w⟩
  · rw [List.getElem?_append_right hge] at hp
    obtain ⟨k, n, x, value, heq, hspan⟩ := hw _ hp
    exact ⟨u.length + k, _, x, value, by omega, hspan.append_left u⟩

theorem targeted_of_not_mem (h : .act .pushTarget ∉ w) : Targeted w :=
  fun _ hp => absurd (List.mem_of_getElem? hp) h

theorem targeted_nil : Targeted [] := targeted_of_not_mem nofun

theorem Targeted.cons (h : Targeted w) (hk : k ≠ .act .pushTarget) : Targeted (k :: w) :=
  (targeted_of_not_mem fun hm => hk (List.mem_singleton.1 hm).symm : Targeted [k]).append h

/-- Nothing is assigned to within a value. -/
theorem Expr.not_mem_marks (e : Expr) : .act .pushTarget ∉ e.marks := fun h => nomatch e.acting _ h

theorem not_mem_rowMarks {a : Action} (ha : a ≠ .pushTarget) (es : List Expr) :
    .act .pushTarget ∉ rowMarks a es := fun h =>
  of_decide_eq_true (acting_row (P := fun b => decide (b ≠ .pushTarget))
    (fun b hb => by cases b <;> first | rfl | cases hb) (decide_eq_true ha) es _ h) rfl

theorem Relation.targeted (r : Relation) : Targeted r.marks := by
  refine targeted_of_not_mem ?_
  unfold Relation.marks Relation.marker
  cases r.equal <;> simp [word, r.left.not_mem_marks, r.right.not_mem_marks]

theorem Assigned.not_mem_marks (v : Assigned) : .act .pushTarget ∉ v.marks := by
  cases v with
  | value e => exact e.not_mem_marks
  | list first rest =>
    simp [Assigned.marks, word, not_mem_rowMarks (a := .listItem) nofun (first :: rest)]

/-- An assignment has one target. -/
theorem targeted_assign (x : String) (value : Assigned) :
    Targeted (Statement.assign x value).marks := by
  intro p hp
  match p with
  | 0 => cases hp
  | 1 => exact ⟨0, _, x, value, rfl, span_self _⟩
  | p + 2 =>
    change (word .assign :: (value.marks ++ [.act .assign]))[p]? = _ at hp
    refine absurd (List.mem_of_getElem? hp) ?_
    simp [word, value.not_mem_marks]

mutual

theorem Statement.targeted (s : Statement) : Targeted s.marks := by
  cases s with
  | assign x value => exact targeted_assign x value
  | assignElement x index value =>
    refine targeted_of_not_mem ?_
    simp [Statement.marks, nameMark, word, index.not_mem_marks, value.not_mem_marks]
  | call f arguments =>
    refine targeted_of_not_mem ?_
    simp [Statement.marks, nameMark, word, not_mem_rowMarks (a := .takeArgument) nofun arguments]
  | returnValue e | print e =>
    refine targeted_of_not_mem ?_
    simp [Statement.marks, word, e.not_mem_marks]
  | returnNothing | global x =>
    refine targeted_of_not_mem ?_
    simp [Statement.marks, word, nameMark]
  | leave exit =>
    refine targeted_of_not_mem ?_
    cases exit <;> simp [Statement.marks, word, Exit.action]
  | define f params body =>
    have hparams : Targeted (paramMarks params) := targeted_of_not_mem fun hm => by
      rcases mem_paramMarks hm with hk | ⟨_, hk⟩ | hk <;> cases hk
    rw [Statement.marks]
    exact .cons (.cons (.cons (.cons (hparams.append (.cons (.cons (.cons ((targeted_block body).append
      (.cons (.cons targeted_nil nofun) nofun)) nofun) nofun) nofun)) nofun) nofun) nofun) nofun
  | ifThen test body =>
    rw [Statement.marks]
    exact .cons (test.targeted.append (.cons (.cons ((targeted_block body).append
      (.cons targeted_nil nofun)) nofun) nofun)) nofun
  | ifElse test body other =>
    rw [Statement.marks]
    exact .cons (test.targeted.append (.cons (.cons ((targeted_block body).append
      (.cons (.cons (.cons ((targeted_block other).append (.cons targeted_nil nofun)) nofun) nofun)
        nofun)) nofun) nofun)) nofun
  | loop test body =>
    rw [Statement.marks]
    exact .cons (.cons (.cons (test.targeted.append (.cons (.cons ((targeted_block body).append
      (.cons targeted_nil nofun)) nofun) nofun)) nofun) nofun) nofun

/-- **Every target in a text** is that of an assignment. -/
theorem targeted_block (b : List Statement) : Targeted (blockMarks b) := by
  cases b with
  | nil =>
    rw [blockMarks]
    exact targeted_nil
  | cons s rest =>
    rw [blockMarks]
    exact s.targeted.append (.cons (targeted_block rest) nofun)

end

end Targets

end OnePass.Syntax

namespace OnePass.Derivation

open Emission Names Syntax
open Grammar (Action Mark Terminal)

section Sources

variable {w : List Mark} {i j k n : Nat} {x : String} {frames : List Frame} {cell : Nat}

/-- **A binding of a name** between two places: it is a parameter, is declared global, or is assigned
to. -/
inductive Binding (w : List Mark) (x : String) (k n : Nat) : Prop
  | parameter (h : Span w k n (Use.parameter.marks x))
  | global (h : Span w k n (Use.global.marks x))
  | assignment (value : Assigned) (h : Span w k n (Statement.assign x value).marks)

/-- Where the functions and the loops around a place begin, innermost first. -/
def around (w : List Mark) : Nat → List Nat
  | 0 => []
  | i + 1 =>
    match w[i]? with
    | some (.act .enterFunction) | some (.act .loopBegin) => i :: around w i
    | some (.act .exitFunction) | some (.act .loopEnd) => (around w i).tail
    | _ => around w i

/-- **A place that is seen from a later one:** all that is around it is around the other, too. -/
def InSight (w : List Mark) (k i : Nat) : Prop := k < i ∧ around w k <:+ around w i

/-- **Maps whose cells go back to bindings,** each in the stretch of text that its map is for. -/
def Sourced (w : List Mark) (i : Nat) (frames : List Frame) : Prop :=
  ∀ n f, frames[n]? = some f → ∀ x cell, f.cells x = some cell →
    ∃ k m, Binding w x k m ∧ k < i ∧ around w k = (around w i).drop n

theorem around_read {t : Terminal} (h : w[i]? = some (.read t x)) :
    around w (i + 1) = around w i := by
  rw [around, h]

/-- At first nothing is bound. -/
theorem sourced_start (w : List Mark) (isLoop : Bool) : Sourced w 0 [Frame.empty isLoop] := by
  intro n f hf x cell hx
  obtain rfl := List.mem_singleton.1 (List.mem_of_getElem? hf)
  cases hx

/-- What has been bound stays bound in the same stretch of text. -/
theorem Sourced.later (h : Sourced w i frames) (hij : i ≤ j) (ha : around w j = around w i) :
    Sourced w j frames := by
  intro n f hf x cell hx
  obtain ⟨k, m, hb, hk, hat⟩ := h n f hf x cell hx
  exact ⟨k, m, hb, Nat.lt_of_lt_of_le hk hij, hat.trans (by rw [ha])⟩

/-- A name is bound in the innermost stretch. -/
theorem Sourced.bind (h : Sourced w i frames) (hb : Binding w x k n) (hk : k < i)
    (ha : around w k = around w i) : Sourced w i (Frame.bind frames x cell) := by
  intro m f hf y c hy
  unfold Frame.bind at hf
  split at hf
  · cases hf
  · rename_i outermost outer
    cases m with
    | zero =>
      cases hf
      by_cases hyx : y = x
      · subst hyx
        exact ⟨k, n, hb, hk, ha⟩
      · exact h 0 _ rfl y c ((Function.update_of_ne hyx _ _).symm.trans hy)
    | succ m => exact h (m + 1) f hf y c hy

/-- A function or a loop begins with nothing bound in it. -/
theorem Sourced.enter (h : Sourced w i frames) (isLoop : Bool)
    (ha : around w (i + 1) = i :: around w i) : Sourced w (i + 1) (Frame.empty isLoop :: frames) := by
  intro n f hf x cell hx
  cases n with
  | zero =>
    cases hf
    cases hx
  | succ n =>
    obtain ⟨k, m, hb, hk, hat⟩ := h n f hf x cell hx
    exact ⟨k, m, hb, Nat.lt_succ_of_lt hk, hat.trans (by rw [ha, List.drop_succ_cons])⟩

/-- A function or a loop ends, and what has been bound in it is out of sight. -/
theorem Sourced.leave (h : Sourced w i frames) (ha : around w (i + 1) = (around w i).tail) :
    Sourced w (i + 1) frames.tail := by
  intro n f hf x cell hx
  rw [List.getElem?_tail] at hf
  obtain ⟨k, m, hb, hk, hat⟩ := h (n + 1) f hf x cell hx
  exact ⟨k, m, hb, Nat.lt_succ_of_lt hk, hat.trans (by rw [ha, List.drop_tail])⟩

/-- **What a name stands for** has been bound in sight. -/
theorem Sourced.inSight (h : Sourced w i frames) (hx : Frame.nearest? frames x = some cell) :
    ∃ k n, Binding w x k n ∧ InSight w k i := by
  obtain ⟨f, hf, hcell⟩ := List.exists_of_findSome?_eq_some hx
  obtain ⟨n, hn⟩ := List.getElem?_of_mem hf
  obtain ⟨k, m, hb, hk, hat⟩ := h n f hn x cell hcell
  exact ⟨k, m, hb, hk, hat ▸ List.drop_suffix _ _⟩

end Sources

section Trace

variable {c : Config} {source : String} {w : List Mark} {i j n : Nat} {x : String} {a : Action}
  {u : Use} {tr : Trace (.reserving c.keywords) w}

/-- A name that is looked for stands for something, or gets a cell by being assigned to. -/
theorem Sourced.orNew {frames : List Frame} {k cell : Nat} {found : Option Nat}
    (h : Sourced w i frames) (hb : found = none → ∃ n, Binding w x k n) (hk : k < i)
    (ha : around w k = around w i) :
    Sourced w i (Resolution.orNew found x cell frames).frames := by
  cases found with
  | some cell => exact h
  | none =>
    obtain ⟨n, hb⟩ := hb rfl
    exact h.bind hb hk ha

/-- Where a name is used no function and no loop begins or ends. -/
theorem around_use (hspan : Span w i j (u.marks x)) : around w j = around w i := by
  cases u with
  | parameter | global | target =>
    obtain ⟨hname, hact, rfl⟩ := hspan
    rw [around, hact]
    exact around_read hname
  | value =>
    obtain ⟨hname, hcheck, hpush, rfl⟩ := hspan
    rw [around, hpush]
    dsimp only
    rw [around, hcheck]
    exact around_read hname

/-- What is read without an error stands for something. -/
theorem Trace.Tells.defined (h : tr.Tells source) (hspan : Span w i j (Use.value.marks x))
    (hclean : (tr.state j).errors = #[]) : ∃ cell, Frame.nearest? (tr.frames i) x = some cell := by
  refine Option.ne_none_iff_exists'.1 fun hnone => ?_
  have herrors := (h.use hspan).2.errors
  rw [hclean] at herrors
  simp [Use.resolve, hnone] at herrors

/-- **What a use binds it binds in sight,** and what is read without an error has been bound. -/
theorem Trace.Tells.sourced_use (h : tr.Tells source) (ht : Targeted w)
    (hspan : Span w i j (u.marks x)) (hclean : (tr.state j).errors = #[])
    (ih : Sourced w i (tr.frames i)) : Sourced w j (tr.frames j) := by
  have hframes := (h.use hspan).1
  have hij : i < j := by
    rw [hspan.eq_add]
    exact Nat.lt_add_of_pos_right (Nat.succ_pos _)
  have haround := around_use hspan
  have hnext := ih.later (Nat.le_of_lt hij) haround
  rw [hframes]
  cases u with
  | parameter => exact hnext.bind (.parameter hspan) hij haround.symm
  | global =>
    unfold Use.resolve
    dsimp only
    split
    · exact hnext
    · exact hnext.bind (.global hspan) hij haround.symm
    · exact hnext
  | target =>
    obtain ⟨hname, htarget, -⟩ := hspan
    obtain ⟨k, n, y, value, heq, hassign⟩ := ht _ htarget
    obtain rfl : i = k := Nat.succ_injective heq
    obtain rfl : x = y := by
      cases hname.symm.trans hassign.1
      rfl
    exact hnext.orNew (fun _ => ⟨n, .assignment value hassign⟩) hij haround.symm
  | value =>
    obtain ⟨cell, hcell⟩ := h.defined hspan hclean
    exact hnext.orNew (fun hnone => by cases hcell.symm.trans hnone) hij haround.symm

/-- **All along a trace without errors** the cells of names go back to bindings in sight. -/
theorem Trace.Tells.sourced (h : tr.Tells source) (ht : Targeted w) (hplaced : ∀ i, Placed w i)
    (hclean : ∀ i ≤ w.length, (tr.state i).errors = #[]) :
    ∀ i ≤ w.length, Sourced w i (tr.frames i) := by
  intro i
  induction i using Nat.strong_induction_on with
  | _ i ih =>
    intro hi
    cases i with
    | zero => exact sourced_start w false
    | succ i =>
      have hlast := ih i (Nat.lt_succ_self i) (Nat.le_of_succ_le hi)
      rcases hk : w[i] with ⟨t, y⟩ | a
      · have hk := List.getElem?_eq_some_iff.2 ⟨hi, hk⟩
        rw [tr.frames_read hk]
        exact hlast.later (Nat.le_succ i) (around_read hk)
      · have hk := List.getElem?_eq_some_iff.2 ⟨hi, hk⟩
        have hframes := tr.frames_act hk
        cases a with
        | enterFunction | loopBegin =>
          rw [hframes]
          exact hlast.enter _ (by rw [around, hk])
        | exitFunction | loopEnd =>
          rw [hframes]
          exact hlast.leave (by rw [around, hk])
        | param | global | pushTarget | pushId =>
          -- the use that this action belongs to ends with it
          obtain ⟨u, x, n, hn, hspan⟩ := (hplaced i).ends hk rfl nofun
          exact h.sourced_use ht hspan (hclean _ hi) (ih n (by omega) (by omega))
        | _ =>
          rw [hframes]
          exact hlast.later (Nat.le_succ i) (by rw [around, hk])

/-- **A place within what is assigned** to a name. -/
def Within (w : List Mark) (x : String) (k n i : Nat) : Prop :=
  ∃ value m, Span w k n (Statement.assign x value).marks ∧ Span w (k + 3) m value.marks ∧
    k + 3 ≤ i ∧ i < m

/-- A name behind the beginning of a binding stands behind all of it, or within what is assigned. -/
theorem Binding.over {k : Nat} {y : String} (h : Binding w x k n) (hi : w[i]? = some (nameMark y))
    (hk : k < i) : n ≤ i ∨ Within w x k n i := by
  have hother : ∀ {l : Nat} {mark : Mark}, w[l]? = some mark → mark ≠ nameMark y → i ≠ l := by
    rintro l mark hl hne rfl
    exact hne (Option.some.inj (hl.symm.trans hi))
  cases h with
  | parameter h | global h =>
    obtain ⟨-, hact, rfl⟩ := h
    have hne := hother hact nofun
    exact .inl (by omega)
  | assignment value h =>
    have hspan := h
    obtain ⟨-, htarget, hsign, h⟩ := h
    obtain ⟨m, hvalue, hassign, rfl⟩ := span_append.1 h
    have htarget := hother htarget nofun
    have hsign := hother hsign nofun
    have hassign := hother hassign nofun
    rcases Nat.lt_or_ge i m with hlt | hge
    · exact .inr ⟨value, m, hspan, hvalue, by omega, hlt⟩
    · exact .inl (by omega)

end Trace

end OnePass.Derivation

namespace OnePass

open OnePass.Derivation Emission Syntax
open Grammar (Mark)

/-- **Every name that is read has been bound.** A text that is compiled without an error is a block.
Wherever a name is read in it, or an element is assigned of what a name stands for, a binding of
the name begins before that place and is in sight. It is over by then, or it is an assignment of
the very value that the name is read in. -/
theorem bound_of_compile (c : Config) (source : String) {r : Compilation}
    (h : compile c source = .ok r) (hclean : r.hasErrors = false) :
    (∃ b : Block, (∀ s ∈ b, s.Graded) ∧ Mark.Spelled (blockMarks b) r.tokens) ∧
      ∀ b : Block, (∀ s ∈ b, s.Graded) → Mark.Spelled (blockMarks b) r.tokens →
        ∀ x i j, Span (blockMarks b) i j (Use.value.marks x) →
          ∃ k n, Binding (blockMarks b) x k n ∧ InSight (blockMarks b) k i ∧
            (n ≤ i ∨ Within (blockMarks b) x k n i) := by
  obtain ⟨hc, o, g, ho, hmain, rfl⟩ := outcome_of_compile h
  obtain ⟨-, hsyntax, hsemantic⟩ := hasErrors_eq_false hclean
  obtain ⟨b, -, hgraded, hspelled, -⟩ := trace_of_parse ho hsyntax
  refine ⟨⟨b, hgraded, hspelled⟩, fun b hb hs x i j hspan => ?_⟩
  obtain ⟨tr, htells, hend⟩ := tells_of_spelled ho hb hs
  obtain ⟨herrors, -⟩ := ends_callMain_clean () g hmain hsemantic
  have hnone : tr.Clean c := ⟨rfl, fun i hi => htells.settled hc hi, hend ▸ herrors⟩
  have hsourced := htells.sourced (targeted_block b) (placed_of_inUses (inUses_block b))
    fun i hi => hnone.no_errors hi
  obtain ⟨hi, hj⟩ := span_bounds hspan (List.cons_ne_nil _ _)
  obtain ⟨cell, hcell⟩ := htells.defined hspan (hnone.no_errors hj)
  obtain ⟨k, n, hb, hsight⟩ := (hsourced i (Nat.le_of_lt hi)).inSight hcell
  exact ⟨k, n, hb, hsight, hb.over hspan.1 hsight.1⟩

/-- A parameter, a global name and a target are read in loops and behind them. -/
theorem bound_in_loops :
    let source := "n = 1 ; def f ( a ) : global n ; while ( n < a ) y = n ; n = y + 1 ; ; return n ; ; def main ( ) : print ( f ( 9 ) ) ; ;"
    ∃ (r : Compilation) (b : Block), compile .standard source = .ok r ∧ r.hasErrors = false ∧
      (∀ s ∈ b, s.Graded) ∧ Mark.Spelled (blockMarks b) r.tokens ∧
        ∀ x i j, Span (blockMarks b) i j (Use.value.marks x) →
          ∃ k n, Binding (blockMarks b) x k n ∧ InSight (blockMarks b) k i ∧
            (n ≤ i ∨ Within (blockMarks b) x k n i) := by
  intro source
  have hrun : (compile .standard source).toOption.map (·.hasErrors) = some false := by
    rw [compile_eq, Grammar.table_eq_ok]
    decide +kernel
  cases hr : compile .standard source with
  | error e =>
    rw [hr] at hrun
    cases hrun
  | ok r =>
    rw [hr] at hrun
    have hclean : r.hasErrors = false := Option.some.inj hrun
    obtain ⟨⟨b, hb, hs⟩, hbound⟩ := bound_of_compile .standard source hr hclean
    exact ⟨r, b, rfl, hclean, hb, hs, hbound b hb hs⟩

/-- **A name can be read while it is being bound.** Here nothing has been bound for good before the name
is read for the first time, and still there is no error. -/
theorem unbound_within_assignment :
    let source := "def main ( ) : x = x + 1 ; print ( x ) ; ;"
    ∃ (r : Compilation) (b : Block), compile .standard source = .ok r ∧ r.hasErrors = false ∧
      (∀ s ∈ b, s.Graded) ∧ Mark.Spelled (blockMarks b) r.tokens ∧
        ∃ i j, Span (blockMarks b) i j (Use.value.marks "x") ∧
          ¬∃ k n, Binding (blockMarks b) "x" k n ∧ InSight (blockMarks b) k i ∧ n ≤ i := by
  intro source
  let text : Block := [.define "main" []
    [.assign "x" (.value (.combine .add (.name "x") (.number "1"))), .print (.name "x")]]
  have hrun : (compile .standard source).toOption.map (fun r =>
      (r.hasErrors, decide (Mark.Spelled (blockMarks text) r.tokens))) = some (false, true) := by
    rw [compile_eq, Grammar.table_eq_ok]
    decide +kernel
  have hgraded : ∀ s ∈ text, s.Graded := by decide
  cases hr : compile .standard source with
  | error e =>
    rw [hr] at hrun
    cases hrun
  | ok r =>
    rw [hr] at hrun
    obtain ⟨hclean, hspelled⟩ := Prod.mk.inj (Option.some.inj hrun)
    refine ⟨r, text, rfl, hclean, hgraded, of_decide_eq_true hspelled, 10, 13, ⟨rfl, rfl, rfl, rfl⟩, ?_⟩
    rintro ⟨k, n, hb, -, hn⟩
    -- the only binding of the name that begins before it is read is the assignment
    have honly : ∀ k < 10, (blockMarks text)[k]? = some (nameMark "x") → k = 7 := by decide +kernel
    cases hb with
    | parameter h | global h =>
      obtain ⟨hname, hact, rfl⟩ := h
      obtain rfl := honly k (by omega) hname
      cases hact
    | assignment value h =>
      have heq := h.eq_add
      simp only [Statement.marks, List.length_cons, List.length_append, List.length_nil] at heq
      obtain rfl := honly k (by omega) h.1
      omega

end OnePass
