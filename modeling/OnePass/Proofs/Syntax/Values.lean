import OnePass.Proofs.Derivation.Trace
import OnePass.Proofs.Emission.Operands

/-!
# Values along a derivation

A value is compiled by actions that only compute, and leaves one operand on the stack. So
does a relation, and the statements that only compute leave the stack as it was.

* `Acting`: marks whose actions are all of one kind. `Expr.acting`: those of values.
* `Trace.quiet`: marks of computing actions lead from a state to one that is like it.
* `Expr.pushes`, `Relation.pushes`, `Assigned.pushes`: one operand more.
* `Statement.isSimple`: the statements that only compute. `Statement.stack_eq`.
-/

namespace OnePass.Derivation

open Emission Names Target
open Grammar (Action Mark Terminal)
open Lexical (Token)

/-- Recording a token only binds a name. -/
theorem quiet_record {E : Setting} {token : Token} (ht : token.Fits E.config.keywords)
    (g : Generator) : Quiet E g { g with symbols := g.symbols.record token } where
  scopes := SymbolTable.scopes_record _ _
  rows := SymbolTable.longer_record _ _
  functions _ := SymbolTable.function?_record _ _
  steady hroot hr := by
    rcases SymbolTable.record_cases g.symbols token with h | ⟨h, hkind⟩
    · dsimp only
      rw [h]
      exact .refl E _
    · dsimp only
      rw [h]
      refine steady_appendRow hroot fun hk hc => ?_
      rcases hkind with hkind | hnone
      · have hfits := ht.identifier hkind
        rw [hc, hk] at hfits
        cases hfits
      · -- a reserved word has a row already
        obtain ⟨record, hr⟩ := hr
        rw [Setting.Records, if_pos hk, SymbolTable.loops?, SymbolTable.loopRow?, ← hc, hnone] at hr
        cases hr
  definitions := rfl
  lastDefined := rfl
  program := ⟨[], by simp, .nil _⟩

/-- **All actions among marks** have a property. -/
def Acting (P : Action → Bool) (v : List Mark) : Prop := ∀ a, .act a ∈ v → P a = true

section Acting

variable {P Q : Action → Bool} {u v : List Mark}

theorem Acting.mono (h : Acting P v) (hPQ : ∀ a, P a = true → Q a = true) : Acting Q v :=
  fun a ha => hPQ a (h a ha)

@[simp] theorem acting_nil : Acting P [] := nofun

@[simp] theorem acting_read {t : Terminal} {x : String} : Acting P (.read t x :: v) ↔ Acting P v := by
  simp [Acting]

@[simp] theorem acting_act {a : Action} : Acting P (.act a :: v) ↔ P a = true ∧ Acting P v := by
  simp [Acting, or_imp, forall_and]

@[simp] theorem acting_append : Acting P (u ++ v) ↔ Acting P u ∧ Acting P v := by
  simp [Acting, or_imp, forall_and]

@[simp] theorem acting_word {t : Terminal} : Acting P (Syntax.word t :: v) ↔ Acting P v := acting_read

@[simp] theorem acting_nameMark {x : String} : Acting P (Syntax.nameMark x :: v) ↔ Acting P v := acting_read

end Acting

/-- **Marks that only compute:** all their actions do. -/
def Computing (v : List Mark) : Prop := ∀ a, .act a ∈ v → Computes a = true

section Computing

variable {u v : List Mark}

@[simp] theorem computing_nil : Computing [] := acting_nil

@[simp] theorem computing_read {t : Terminal} {x : String} :
    Computing (.read t x :: v) ↔ Computing v := acting_read

@[simp] theorem computing_act {a : Action} :
    Computing (.act a :: v) ↔ Computes a = true ∧ Computing v := acting_act

@[simp] theorem computing_append : Computing (u ++ v) ↔ Computing u ∧ Computing v := acting_append

@[simp] theorem computing_word {t : Terminal} :
    Computing (Syntax.word t :: v) ↔ Computing v := computing_read

@[simp] theorem computing_nameMark {x : String} :
    Computing (Syntax.nameMark x :: v) ↔ Computing v := computing_read

end Computing

namespace Trace

variable {E : Setting} {w v : List Mark} (tr : Trace E w) {i j : Nat} {t : Terminal} {x : String}
  {a : Action}

/-- How many slots there are before a mark. -/
def slots (i : Nat) : Nat := (tr.state i).programNext

theorem quiet_read (h : w[i]? = some (.read t x)) : Quiet E (tr.state i) (tr.state (i + 1)) := by
  rcases (tr.reads h).2 with heq | ⟨token, hfits, heq⟩
  · rw [heq]
    exact .refl E _
  · rw [heq]
    exact quiet_record hfits _

theorem memory_read (h : w[i]? = some (.read t x)) :
    (tr.state (i + 1)).memory = (tr.state i).memory := by
  rcases (tr.reads h).2 with heq | ⟨token, -, heq⟩
  · rw [heq]
  · rw [heq]

theorem stack_read (h : w[i]? = some (.read t x)) :
    (tr.state (i + 1)).stack = (tr.state i).stack := by
  rcases (tr.reads h).2 with heq | ⟨token, -, heq⟩
  · rw [heq]
  · rw [heq]

theorem errors_read (h : w[i]? = some (.read t x)) :
    (tr.state (i + 1)).errors = (tr.state i).errors := by
  rcases (tr.reads h).2 with heq | ⟨token, -, heq⟩
  · rw [heq]
  · rw [heq]

/-- What is known of the ends of a step holds of the step that is taken. -/
theorem of_ends {Q : Unit → Generator → Prop} (h : w[i]? = some (.act a))
    (hq : Ends (perform a (tr.lexeme i) (tr.line i)) (tr.state i) Q) : Q () (tr.state (i + 1)) :=
  hq _ _ (tr.acts h).1

theorem bindable (h : w[i]? = some (.act a)) (ha : a.behind? = some .identifier) :
    E.Bindable (tr.lexeme i) := by
  rcases tr.suits h with hnone | hsuits
  · rw [ha] at hnone
    cases hnone
  · exact hsuits.name ha

include tr in
/-- A loop begins behind its keyword, which is reserved. -/
theorem reserved (h : w[i]? = some (.act .loopBegin)) :
    E.config.keywords.contains loopKeyword = true := by
  rcases tr.suits h with hnone | hsuits
  · cases hnone
  · exact hsuits.loop rfl

theorem quiet_act (h : w[i]? = some (.act a)) (ha : Computes a = true) :
    Quiet E (tr.state i) (tr.state (i + 1)) :=
  tr.of_ends h (hushes_perform ha (tr.bindable h) _)

theorem trades (h : w[i]? = some (.act a)) :
    Trades a (tr.state i).stack (tr.state (i + 1)).stack :=
  tr.of_ends h (ends_trades a _)

/-- **The program only gets more.** -/
theorem extends_step (hi : i < w.length) : Extends (fun _ => True)
    (tr.state i).memory.program (tr.state (i + 1)).memory.program := by
  rcases hk : w[i] with ⟨t, x⟩ | a
  · rw [tr.memory_read (List.getElem?_eq_some_iff.2 ⟨hi, hk⟩)]
    exact .refl _ _
  · have hact := List.getElem?_eq_some_iff.2 ⟨hi, hk⟩
    exact tr.of_ends hact (extends_perform (tr.bindable hact))

theorem extends_le (hij : i ≤ j) (hj : j ≤ w.length) : Extends (fun _ => True)
    (tr.state i).memory.program (tr.state j).memory.program := by
  induction hij with
  | refl => exact .refl _ _
  | step hij ih => exact (ih (by omega)).trans (tr.extends_step (by omega))

/-- **Where marks only compute,** the state at their end is like the one at their beginning. -/
theorem quiet (h : Span w i j v) (hv : Computing v) :
    Quiet E (tr.state i) (tr.state j) := by
  induction v generalizing i with
  | nil =>
    obtain rfl : i = j := h
    exact .refl E _
  | cons k v ih =>
    cases k with
    | read t x => exact (tr.quiet_read h.1).trans (ih h.2 (computing_read.1 hv))
    | act a => exact (tr.quiet_act h.1 (computing_act.1 hv).1).trans (ih h.2 (computing_act.1 hv).2)

end Trace

end OnePass.Derivation

namespace OnePass.Syntax

open OnePass.Derivation Emission Target
open Grammar (Action Mark Terminal counted)

section Computing

/-- The actions that values are made of. -/
def isOfValue : Action → Bool
  | .pushNumber | .checkDefined | .pushId | .elementValue | .beginCall | .takeArgument | .dispatch
  | .power | .add | .sub | .mult => true
  | _ => false

theorem computes_of_isOfValue {a : Action} (ha : isOfValue a = true) : Computes a = true := by
  cases a <;> first | rfl | cases ha

mutual

/-- **Values are made of a few actions.** -/
theorem Expr.acting : ∀ e : Expr, Acting isOfValue e.marks
  | .number digits => by simp [Expr.marks, isOfValue]
  | .name x => by simp [Expr.marks, isOfValue]
  | .element x index => by simp [Expr.marks, isOfValue, index.acting]
  | .call f arguments => by
    simp [Expr.marks, isOfValue, acting_row (a := .takeArgument) (fun _ => id) rfl arguments]
  | .power base exponent => by simp [Expr.marks, isOfValue, base.acting, exponent.acting]
  | .combine op left right => by
    have hop : isOfValue op.action = true := by cases op <;> rfl
    simp [Expr.marks, hop, left.acting, right.acting]

theorem acting_row {P : Action → Bool} {a : Action} (hP : ∀ b, isOfValue b = true → P b = true)
    (ha : P a = true) : ∀ es : List Expr, Acting P (rowMarks a es)
  | [] => by simp [rowMarks]
  | e :: rest => by simp [rowMarks, ha, e.acting.mono hP, acting_rest hP ha rest]

theorem acting_rest {P : Action → Bool} {a : Action} (hP : ∀ b, isOfValue b = true → P b = true)
    (ha : P a = true) : ∀ es : List Expr, Acting P (restMarks a es)
  | [] => by simp [restMarks]
  | e :: rest => by simp [restMarks, ha, e.acting.mono hP, acting_rest hP ha rest]

end

/-- Values only compute. -/
theorem Expr.computing (e : Expr) : Computing e.marks := e.acting.mono fun _ => computes_of_isOfValue

theorem computing_row {a : Action} (ha : Computes a = true) (es : List Expr) :
    Computing (rowMarks a es) := acting_row (fun _ => computes_of_isOfValue) ha es

theorem Relation.computing (r : Relation) : Computing r.marks := by
  have hmarker : Computes r.marker = true := by
    unfold marker
    split <;> rfl
  have hcompare : Computes .compare = true := rfl
  simp [marks, hmarker, hcompare, r.left.computing, r.right.computing]

theorem Assigned.computing (v : Assigned) : Computing v.marks := by
  cases v with
  | value e => exact e.computing
  | list first rest => simp [marks, Computes, computing_row (a := .listItem) rfl]

end Computing

section Counted

/-- Each value of a row with its action counts as an argument. -/
theorem length_le_counted_rest (es : List Expr) :
    es.length ≤ counted (restMarks .takeArgument es) := by
  induction es with
  | nil => simp
  | cons e rest ih =>
    simp only [counted, restMarks, List.length_cons, List.countP_cons, List.countP_append,
      decide_true, if_true] at ih ⊢
    omega

theorem length_le_counted_row (es : List Expr) :
    es.length ≤ counted (rowMarks .takeArgument es) := by
  cases es with
  | nil => simp
  | cons e rest =>
    have hrest := length_le_counted_rest rest
    simp only [counted, rowMarks, List.length_cons, List.countP_cons, List.countP_append,
      decide_true, if_true] at hrest ⊢
    omega

/-- Marks between two places count no more than all of them. -/
theorem counted_le_of_span {w v : List Mark} {i j : Nat} (h : Span w i j v) :
    counted v ≤ counted w := by
  have hstarts : ∀ {v : List Mark} {i : Nat}, Span w i j v → v <+: w.drop i := by
    intro v
    induction v with
    | nil => exact fun _ => List.nil_prefix
    | cons k v ih =>
      intro i h
      have hlt := (List.getElem?_eq_some_iff.1 h.1).1
      rw [List.drop_eq_getElem_cons hlt, (List.getElem?_eq_some_iff.1 h.1).2]
      exact List.cons_prefix_cons.2 ⟨rfl, ih h.2⟩
  exact ((hstarts h).sublist.trans (List.drop_sublist i w)).countP_le

end Counted

section Pushes

variable {E : Setting} {w : List Mark} (tr : Trace E w) {i j : Nat}

/-- The stack between two marks has one operand more. -/
def Pushes (i j : Nat) : Prop := ∃ o, (tr.state j).stack = o :: (tr.state i).stack

mutual

/-- **A value leaves one operand.** -/
theorem Expr.pushes (hcount : counted w < 2 ^ 63) : ∀ (e : Expr) {i j : Nat}, Span w i j e.marks →
    Pushes tr i j
  | .number digits, i, j, h => by
    simp only [Expr.marks, span_cons, span_nil] at h
    obtain ⟨hread, hact, rfl⟩ := h
    obtain ⟨o, ho⟩ := tr.trades hact
    exact ⟨o, by rw [ho, tr.stack_read hread]⟩
  | .name x, i, j, h => by
    simp only [Expr.marks, span_cons, span_nil] at h
    obtain ⟨hread, hcheck, hact, rfl⟩ := h
    obtain ⟨o, ho⟩ := tr.trades hact
    have hsame : _ = _ := tr.trades hcheck
    exact ⟨o, by rw [ho, hsame, tr.stack_read hread]⟩
  | .element x index, i, j, h => by
    simp only [Expr.marks, span_cons, span_append, span_nil] at h
    obtain ⟨hread, hcheck, hname, hopen, n, hindex, hclose, hact, rfl⟩ := h
    obtain ⟨base, hbase⟩ := tr.trades hname
    have hsame : _ = _ := tr.trades hcheck
    obtain ⟨o, ho⟩ := index.pushes hcount hindex
    obtain ⟨result, hresult⟩ := tr.trades hact o base (tr.state i).stack
      (by rw [tr.stack_read hclose, ho, tr.stack_read hopen, hbase, hsame, tr.stack_read hread])
    exact ⟨result, hresult⟩
  | .call f arguments, i, j, h => by
    have hlength : arguments.length < 2 ^ 63 := by
      have hrow := length_le_counted_row arguments
      simp only [Expr.marks, span_cons, span_append] at h
      obtain ⟨-, -, -, n, hspan, -⟩ := h
      have hle := counted_le_of_span hspan
      omega
    simp only [Expr.marks, span_cons, span_append, span_nil] at h
    obtain ⟨hread, hbegin, hopen, n, hrow, hclose, hact, rfl⟩ := h
    have hstart : _ = _ := tr.trades hbegin
    obtain ⟨values, hvalues⟩ := row_pushes hcount arguments hrow hlength (tr.state i).stack
      (by rw [tr.stack_read hopen, hstart, tr.stack_read hread])
    obtain ⟨result, hresult⟩ := tr.trades hact values (tr.state i).stack
      (by rw [tr.stack_read hclose, hvalues])
    exact ⟨result, hresult⟩
  | .power base exponent, i, j, h => by
    simp only [Expr.marks, span_cons, span_append, span_nil] at h
    obtain ⟨n, hbase, hread, m, hexponent, hact, rfl⟩ := h
    obtain ⟨b, hb⟩ := base.pushes hcount hbase
    obtain ⟨o, ho⟩ := exponent.pushes hcount hexponent
    obtain ⟨result, hresult⟩ := tr.trades hact o b (tr.state i).stack
      (by rw [ho, tr.stack_read hread, hb])
    exact ⟨result, hresult⟩
  | .combine op left right, i, j, h => by
    simp only [Expr.marks, span_cons, span_append, span_nil] at h
    obtain ⟨n, hleft, hread, m, hright, hact, rfl⟩ := h
    obtain ⟨l, hl⟩ := left.pushes hcount hleft
    obtain ⟨r, hr⟩ := right.pushes hcount hright
    have htrades := tr.trades hact
    have hstack : (tr.state m).stack = r :: l :: (tr.state i).stack := by
      rw [hr, tr.stack_read hread, hl]
    cases op with
    | add | sub | mult => exact htrades r l _ hstack

/-- **The arguments of a call** lie below their number. -/
theorem row_pushes (hcount : counted w < 2 ^ 63) : ∀ (es : List Expr) {i j : Nat},
    Span w i j (rowMarks .takeArgument es) → es.length < 2 ^ 63 → ∀ st : OperandStack,
      (tr.state i).stack = .immediate 0 :: st →
        ∃ values : List Operand,
          (tr.state j).stack = .immediate values.length :: (values ++ st)
  | [], i, j, h, _, st, hst => by
    obtain rfl : i = j := h
    exact ⟨[], hst⟩
  | e :: rest, i, j, h, hlength, st, hst => by
    simp only [rowMarks, span_cons, span_append] at h
    obtain ⟨n, he, hact, hrest⟩ := h
    obtain ⟨o, ho⟩ := e.pushes hcount he
    have htaken := tr.trades hact o (.immediate 0) st (by rw [ho, hst])
    have hone : (Operand.immediate 0).increment = 1 := rfl
    rw [hone] at htaken
    exact rest_pushes hcount rest hrest [o] st htaken (by simpa [Nat.add_comm] using hlength)

theorem rest_pushes (hcount : counted w < 2 ^ 63) : ∀ (es : List Expr) {i j : Nat},
    Span w i j (restMarks .takeArgument es) → ∀ (values : List Operand) (st : OperandStack),
      (tr.state i).stack = .immediate values.length :: (values ++ st) →
        values.length + es.length < 2 ^ 63 →
          ∃ values' : List Operand,
            (tr.state j).stack = .immediate values'.length :: (values' ++ st)
  | [], i, j, h, values, st, hst, _ => by
    obtain rfl : i = j := h
    exact ⟨values, hst⟩
  | e :: rest, i, j, h, values, st, hst, hlength => by
    simp only [restMarks, span_cons, span_append] at h
    obtain ⟨hread, n, he, hact, hrest⟩ := h
    obtain ⟨o, ho⟩ := e.pushes hcount he
    have htaken := tr.trades hact o (.immediate values.length) (values ++ st)
      (by rw [ho, tr.stack_read hread, hst])
    have hnext : (Operand.immediate values.length).increment = ((o :: values).length : Int) := by
      rw [List.length_cons] at hlength
      unfold Operand.increment Operand.maxWord
      rw [if_pos (by simp only [Operand.immediate]; omega)]
      rfl
    rw [hnext] at htaken
    exact rest_pushes hcount rest hrest (o :: values) st htaken (by
      rw [List.length_cons] at hlength ⊢
      omega)

end

theorem Relation.pushes (hcount : counted w < 2 ^ 63) (r : Relation) (h : Span w i j r.marks) :
    Pushes tr i j := by
  simp only [Relation.marks, span_cons, span_append, span_nil] at h
  obtain ⟨n, hleft, hread, hmarker, m, hright, hact, rfl⟩ := h
  obtain ⟨l, hl⟩ := r.left.pushes tr hcount hleft
  obtain ⟨o, ho⟩ := r.right.pushes tr hcount hright
  have hpushed := tr.trades hmarker
  obtain ⟨marker, hm⟩ : ∃ marker, (tr.state (n + 1 + 1)).stack = marker :: (tr.state (n + 1)).stack := by
    unfold Relation.marker at hpushed
    split at hpushed
    · exact hpushed
    · exact hpushed
  obtain ⟨result, hresult⟩ := tr.trades hact o marker l (tr.state i).stack
    (by rw [ho, hm, tr.stack_read hread, hl])
  exact ⟨result, hresult⟩

/-- The items of a list are stored, and nothing is left of them. -/
theorem items_stack_eq (hcount : counted w < 2 ^ 63) : ∀ (es : List Expr) {i j : Nat},
    Span w i j (restMarks .listItem es) → (tr.state j).stack = (tr.state i).stack
  | [], i, j, h => by
    obtain rfl : i = j := h
    rfl
  | e :: rest, i, j, h => by
    simp only [restMarks, span_cons, span_append] at h
    obtain ⟨hread, n, he, hact, hrest⟩ := h
    obtain ⟨o, ho⟩ := e.pushes tr hcount he
    rw [items_stack_eq hcount rest hrest, tr.trades hact o _ ho, tr.stack_read hread]

theorem Assigned.pushes (hcount : counted w < 2 ^ 63) (v : Assigned) (h : Span w i j v.marks) :
    Pushes tr i j := by
  cases v with
  | value e => exact e.pushes tr hcount h
  | list first rest =>
    simp only [Assigned.marks, rowMarks, span_cons, span_append, span_nil] at h
    obtain ⟨hopen, hbegin, n, ⟨m, hfirst, hact, hrest⟩, hclose, rfl⟩ := h
    obtain ⟨address, haddress⟩ := tr.trades hbegin
    obtain ⟨o, ho⟩ := first.pushes tr hcount hfirst
    refine ⟨address, ?_⟩
    rw [tr.stack_read hclose, items_stack_eq tr hcount rest hrest, tr.trades hact o _ ho, haddress,
      tr.stack_read hopen]

end Pushes

/-- The statements that only compute. -/
def Statement.isSimple : Statement → Bool
  | .assign .. | .assignElement .. | .call .. | .global _ | .print _ => true
  | _ => false

namespace Statement

variable {E : Setting} {w : List Mark} (tr : Trace E w) {i j : Nat} {s : Statement}

theorem computing (hs : s.isSimple = true) : Computing s.marks := by
  cases s with
  | assign x value => simp [marks, Computes, value.computing]
  | assignElement x index value => simp [marks, Computes, index.computing, value.computing]
  | call f arguments => simp [marks, Computes, computing_row (a := .takeArgument) rfl arguments]
  | global x => simp [marks, Computes]
  | print e => simp [marks, Computes, e.computing]
  | _ => cases hs

/-- **A statement that only computes** leaves the stack as it was. -/
theorem stack_eq (hcount : counted w < 2 ^ 63) (hs : s.isSimple = true) (h : Span w i j s.marks) :
    (tr.state j).stack = (tr.state i).stack := by
  cases s with
  | assign x value =>
    simp only [marks, span_cons, span_append, span_nil] at h
    obtain ⟨hread, htarget, hassign, n, hvalue, hact, rfl⟩ := h
    obtain ⟨target, ht⟩ := tr.trades htarget
    obtain ⟨o, ho⟩ := value.pushes tr hcount hvalue
    exact tr.trades hact o target _ (by rw [ho, tr.stack_read hassign, ht, tr.stack_read hread])
  | assignElement x index value =>
    simp only [marks, span_cons, span_append, span_nil] at h
    obtain ⟨hread, hcheck, hname, hopen, n, hindex, hclose, haddress, hassign, m, hvalue, hact,
      rfl⟩ := h
    obtain ⟨base, hbase⟩ := tr.trades hname
    obtain ⟨i', hi⟩ := index.pushes tr hcount hindex
    have hsame : _ = _ := tr.trades hcheck
    obtain ⟨target, ht⟩ := tr.trades haddress i' base (tr.state i).stack
      (by rw [tr.stack_read hclose, hi, tr.stack_read hopen, hbase, hsame, tr.stack_read hread])
    obtain ⟨o, ho⟩ := value.pushes tr hcount hvalue
    exact tr.trades hact o target _ (by rw [ho, tr.stack_read hassign, ht])
  | call f arguments =>
    -- the call as a value, and then its result is dropped
    simp only [marks, span_cons, span_append, span_nil] at h
    obtain ⟨hread, hbegin, hopen, n, hrow, hclose, hact, hdrop, rfl⟩ := h
    have hcall : Span w i (n + 1 + 1) (Expr.call f arguments).marks := by
      simp only [Expr.marks, span_cons, span_append, span_nil]
      exact ⟨hread, hbegin, hopen, n, hrow, hclose, hact, rfl⟩
    obtain ⟨o, ho⟩ := Expr.pushes tr hcount _ hcall
    exact tr.trades hdrop o _ ho
  | global x =>
    simp only [marks, span_cons, span_nil] at h
    obtain ⟨hread, hname, hact, rfl⟩ := h
    have hsame : _ = _ := tr.trades hact
    rw [hsame, tr.stack_read hname, tr.stack_read hread]
  | print e =>
    simp only [marks, span_cons, span_append, span_nil] at h
    obtain ⟨hread, hopen, n, he, hclose, hact, rfl⟩ := h
    obtain ⟨o, ho⟩ := e.pushes tr hcount he
    exact tr.trades hact o _
      (by rw [tr.stack_read hclose, ho, tr.stack_read hopen, tr.stack_read hread])
  | _ => cases hs

end Statement

end OnePass.Syntax
