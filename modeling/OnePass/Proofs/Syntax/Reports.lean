import OnePass.Proofs.Derivation.Translation
import OnePass.Proofs.Syntax.Definitions
import OnePass.Proofs.Syntax.Voids

/-!
# What is reported of void results

Behind every statement nothing is void, so that all that is reported of a text are the void results
that are used in it, one by one. An error is reported on the line of the token that has been read
last when the result is used.

* `Trace.Clears`, `Statement.clears`: behind a statement nothing is void.
* `lineBefore`, `Trace.Tells.line_eq`: the line that an error is reported on.
* `voids_of_parse`: **the void operands of an accepted text** are the uses of results of functions
  that give no value.
-/

namespace OnePass.Derivation

open Emission Names Syntax Target
open Grammar (Action Mark Terminal)

section Clears

variable {c : Config} {source : String} {w : List Mark} {i j m n count : Nat}
  {used used' results : List UsedResult} {values operands : List Operand} {a : Action} {t : Terminal}
  {x : String} {tr : Trace (.reserving c.keywords) w} {g : Generator} {st : OperandStack}

/-- **Marks behind which nothing is void** if nothing was before them, with what they report. -/
def Trace.Clears (tr : Trace (.reserving c.keywords) w) (i j : Nat) (used : List UsedResult) : Prop :=
  (tr.state i).voidResults = [] → (tr.state j).voidResults = [] ∧
    (tr.state j).voidErrors = (tr.state i).voidErrors ++ tr.reports used

theorem Trace.Clears.trans (h : tr.Clears i n used) (h' : tr.Clears n j used') :
    tr.Clears i j (used ++ used') := by
  intro hi
  obtain ⟨hn, herrors⟩ := h hi
  obtain ⟨hj, herrors'⟩ := h' hn
  exact ⟨hj, by rw [herrors', herrors, tr.reports_append, List.append_assoc]⟩

theorem Trace.clears_of_heedless (h : Heedless (tr.state i) (tr.state j)) : tr.Clears i j [] := by
  intro hi
  refine ⟨?_, by rw [h.errors, tr.reports_nil, List.append_nil]⟩
  rw [(Low.of_voids_eq_nil hi).voids h, hi]

/-- **Marks that use nothing.** -/
theorem Trace.heedless_span {v : List Mark} (h : Span w i j v)
    (hv : ∀ a, .act a ∈ v → isMinding a = false) : Heedless (tr.state i) (tr.state j) := by
  induction v generalizing i with
  | nil =>
    obtain rfl : i = j := h
    exact .refl _
  | cons k v ih =>
    have hrest := ih h.2 fun a ha => hv a (List.mem_cons_of_mem _ ha)
    cases k with
    | read t x => exact (tr.heedless_read h.1).trans hrest
    | act a => exact (tr.heedless_act h.1 (hv a List.mem_cons_self)).trans hrest

theorem Trace.clears_span {v : List Mark} (h : Span w i j v)
    (hv : ∀ a, .act a ∈ v → isMinding a = false) : tr.Clears i j [] :=
  tr.clears_of_heedless (tr.heedless_span h hv)

/-- Operands may be left, if none of them is void. -/
theorem Trace.Clears.of_stacks (h : tr.Low i → ∃ values, tr.Stacks i j values 0 used) :
    tr.Clears i j used := by
  intro hi
  obtain ⟨values, hs⟩ := h (.of_voids_eq_nil hi)
  exact ⟨hs.piled.eq_of_zero.trans hi, hs.reported⟩

end Clears

end OnePass.Derivation

namespace OnePass.Syntax

open OnePass.Derivation Emission Names Target
open Grammar (Action Mark Terminal)

section Statements

variable {c : Config} {source : String} {w : List Mark} {i j m n : Nat} {a : Action} {t : Terminal}
  {x : String} {tr : Trace (.reserving c.keywords) w}

/-- **A value is used** by an action that takes it alone. -/
theorem Expr.used_alone (e : Expr) {s k : Nat} {o : Operand} {used : List UsedResult}
    (h : tr.Stacks s n [o] (tr.voids e k) used) (hact : w[n]? = some (.act a))
    (huses : Ends (perform a (tr.lexeme n) (tr.line n)) (tr.state n) fun _ g =>
      Uses (tr.line n) [o] (tr.state n) (tr.state s).stack g) :
    tr.Stacks s (n + 1) [] 0 (used ++ e.result k n) :=
  h.uses h.piled (tr.of_ends hact huses) (fun _ => Expr.user_of_mem_result) (tr.countP_result e k n)

/-- **What is assigned is used,** with the cell below it. -/
theorem Assigned.clears (hf : tr.Fitted source) (v : Assigned) (h : Span w i n v.marks)
    (hact : w[n]? = some (.act .assign)) {target : Operand} {st : OperandStack}
    (hst : (tr.state i).stack = target :: st) :
    tr.Clears i (n + 1) (v.inner i ++ v.result i n) := by
  intro hi
  obtain ⟨o, ho⟩ := v.stacks hf h (.of_voids_eq_nil hi)
  have hstack : (tr.state n).stack = o :: target :: st := by rw [ho.stack, hst]; rfl
  -- only what is taken of the value can be void: the cell below it is none of the void results
  obtain ⟨g, htook, hg, -⟩ := tr.of_ends hact (uses_store hstack)
  have hresults : ∀ u ∈ v.result i n, u.user = n := by
    cases v with
    | value e => exact fun _ => Expr.user_of_mem_result
    | list first rest => exact nofun
  have hcount : (v.result i n).countP tr.isVoid = (v.result i 0).countP tr.isVoid := by
    cases v with
    | value e => exact tr.countP_result e i n
    | list first rest => rfl
  obtain ⟨hvoids, herrors, -⟩ := ho.took ho.piled htook hg hresults hcount
  exact ⟨hvoids.trans hi, herrors⟩

/-- **A call that is a statement** has its result dropped. -/
theorem clears_call (hf : tr.Fitted source) {f : String} {arguments : List Expr}
    (h : Span w i j (Statement.call f arguments).marks) :
    tr.Clears i j ((Expr.call f arguments).inner i) := by
  intro hi
  rw [Statement.marks_call] at h
  simp only [span_append, span_cons, span_nil] at h
  obtain ⟨n, hcall, hdrop, rfl⟩ := h
  have hn := Nat.le_of_lt (List.getElem?_eq_some_iff.1 hdrop).1
  obtain ⟨o, ho⟩ := (Expr.call f arguments).stacks hf hcall (.of_voids_eq_nil hi)
  obtain ⟨-, hle, -, hzone, hcapacity⟩ := (hf.settled n hn).temps
  have hdropped := tr.of_ends hdrop (ends_dropResult_piled ho.stack ho.piled fun cell hc => by
    obtain ⟨hfrom, hlt⟩ := ho.fresh cell hc
    exact ⟨hzone ▸ hfrom, hcapacity ▸ Nat.lt_of_lt_of_le hlt hle⟩)
  exact ⟨hdropped.1.trans hi, hdropped.2.trans ho.reported⟩

/-- A relation is tested, and no mark of it is left. -/
theorem Relation.clears (hf : tr.Fitted source) (r : Relation) (h : Span w i j r.marks) :
    tr.Clears i j (r.used i) := by
  refine .of_stacks fun hl => ?_
  obtain ⟨o, ho⟩ := r.stacks hf h hl
  exact ⟨_, ho⟩

theorem isMinding_header {f : String} {params : List String} :
    ∀ a, .act a ∈ headerMarks f params → isMinding a = false := by
  intro a ha
  simp only [headerMarks, List.mem_cons, List.mem_append, List.not_mem_nil] at ha
  rcases ha with ha | ha | ha | ha | ha | ha | ha | ha
  · cases ha
  · cases ha
  · cases ha
    rfl
  · cases ha
  · rcases mem_paramMarks ha with h | ⟨x, h⟩ | h
    · cases h
    · cases h
    · cases h
      rfl
  · cases ha
  · cases ha
    rfl
  · cases ha

mutual

/-- **Behind a statement nothing is void.** -/
theorem Statement.clears (hf : tr.Fitted source) : ∀ (s : Statement) {i j : Nat},
    Span w i j s.marks → tr.Clears i j (s.used i)
  | .assign x value, i, j, h => by
    simp only [Statement.marks, span_cons, span_append, span_nil] at h
    obtain ⟨hread, htarget, hequal, n, hvalue, hact, rfl⟩ := h
    obtain ⟨target, hpushed⟩ := tr.trades htarget
    have hassign := value.clears hf hvalue hact ((tr.stack_read hequal).trans hpushed)
    have hbefore : tr.Clears i (i + 3) [] := tr.clears_of_heedless ((tr.heedless_read hread).trans
      ((tr.heedless_act htarget rfl).trans (tr.heedless_read hequal)))
    obtain rfl := hvalue.eq_add
    exact hbefore.trans hassign
  | .assignElement x index value, i, j, h => by
    simp only [Statement.marks, span_cons, span_append, span_nil] at h
    obtain ⟨hread, hcheck, hname, hopen, n, hindex, hclose, haddress, hequal, m, hvalue, hact, rfl⟩ := h
    intro hi
    have hl : tr.Low i := .of_voids_eq_nil hi
    have hpast := (hl.stays (tr.heedless_read hread) (tr.stack_read hread)).act hcheck rfl
      (tr.trades hcheck)
    obtain ⟨base, hnamed⟩ := hf.named hpast.fresh hname
    have hbase := (hpast.trans hnamed).read hopen
    obtain ⟨o, ho⟩ := index.stacks hf hindex hbase.fresh
    obtain ⟨target, htarget⟩ := hf.combines haddress (by simp) ((hbase.trans ho).read hclose)
      (fun _ => Expr.user_of_mem_result) (tr.countP_result index _ _)
    have hready := htarget.read hequal
    have haddressed : tr.Clears i (n + 3) _ := .of_stacks fun _ => ⟨_, hready⟩
    have hassign := value.clears hf hvalue hact hready.stack
    obtain rfl := hindex.eq_add
    obtain rfl := hvalue.eq_add
    exact haddressed.trans hassign hi
  | .call f arguments, i, j, h => clears_call hf h
  | .returnValue e, i, j, h => by
    simp only [Statement.marks, span_cons, span_append, span_nil] at h
    obtain ⟨hread, n, he, hact, rfl⟩ := h
    refine (tr.clears_of_heedless (tr.heedless_read hread)).trans (.of_stacks fun hl => ?_)
    obtain ⟨o, ho⟩ := e.stacks hf he hl
    have hused := e.used_alone ho hact (uses_returnWith ho.stack)
    obtain rfl := he.eq_add
    exact ⟨_, hused⟩
  | .print e, i, j, h => by
    simp only [Statement.marks, span_cons, span_append, span_nil] at h
    obtain ⟨hread, hopen, n, he, hclose, hact, rfl⟩ := h
    have hbefore : tr.Clears i (i + 2) [] :=
      tr.clears_of_heedless ((tr.heedless_read hread).trans (tr.heedless_read hopen))
    refine hbefore.trans (.of_stacks fun hl => ?_)
    obtain ⟨o, ho⟩ := e.stacks hf he hl
    have hpast := ho.read hclose
    have hused := e.used_alone hpast hact (uses_printValue hpast.stack)
    obtain rfl := he.eq_add
    exact ⟨_, hused⟩
  | .returnNothing, i, j, h | .global x, i, j, h => tr.clears_span h (by
    simp [Statement.marks, word, nameMark, isMinding])
  | .leave exit, i, j, h => tr.clears_span h (by
    cases exit <;> simp [Statement.marks, word, Exit.action, isMinding])
  | .define f params body, i, j, h => by
    rw [Statement.marks_define] at h
    simp only [span_append, span_cons, span_nil] at h
    obtain ⟨n, hheader, hcolon, m, hbody, hexit, hcheck, rfl⟩ := h
    have hbefore := (tr.clears_span hheader isMinding_header).trans
      (tr.clears_of_heedless (tr.heedless_read hcolon))
    have hinside := block_clears hf body hbody
    have hbehind : tr.Clears m (m + 2) [] := tr.clears_of_heedless
      ((tr.heedless_act hexit rfl).trans (tr.heedless_act hcheck rfl))
    -- the header and the colon are so many marks
    have hlength : n + 1 = i + 4 + (paramMarks params).length + 3 := by
      rw [hheader.eq_add]
      simp only [headerMarks, List.length_cons, List.length_append, List.length_nil]
      omega
    have hall := (hbefore.trans hinside).trans hbehind
    rw [hlength, List.append_nil] at hall
    exact hall
  | .ifThen test body, i, j, h => by
    simp only [Statement.marks, span_cons, span_append, span_nil] at h
    obtain ⟨hread, n, htest, hsave, hcolon, m, hbody, hjump, rfl⟩ := h
    have htested := (tr.clears_of_heedless (tr.heedless_read hread)).trans (test.clears hf htest)
    have hsaved : tr.Clears n (n + 2) [] := tr.clears_of_heedless
      ((tr.heedless_act hsave rfl).trans (tr.heedless_read hcolon))
    have hinside := block_clears hf body hbody
    have hbehind := tr.clears_of_heedless (tr.heedless_act hjump rfl)
    have hall := ((htested.trans hsaved).trans hinside).trans hbehind
    obtain rfl := htest.eq_add
    rw [List.append_nil, List.append_nil] at hall
    exact hall
  | .ifElse test body other, i, j, h => by
    simp only [Statement.marks, span_cons, span_append, span_nil] at h
    obtain ⟨hread, n, htest, hsave, hcolon, m, hbody, helse, hfalse, hcolon', l, hother, hjump, rfl⟩ := h
    have htested := (tr.clears_of_heedless (tr.heedless_read hread)).trans (test.clears hf htest)
    have hsaved : tr.Clears n (n + 2) [] := tr.clears_of_heedless
      ((tr.heedless_act hsave rfl).trans (tr.heedless_read hcolon))
    have hinside := block_clears hf body hbody
    have hbetween : tr.Clears m (m + 3) [] := tr.clears_of_heedless
      ((tr.heedless_read helse).trans ((tr.heedless_act hfalse rfl).trans (tr.heedless_read hcolon')))
    have houtside := block_clears hf other hother
    have hbehind := tr.clears_of_heedless (tr.heedless_act hjump rfl)
    have hall := ((htested.trans hsaved).trans hinside).trans ((hbetween.trans houtside).trans hbehind)
    obtain rfl := htest.eq_add
    obtain rfl := hbody.eq_add
    rw [List.append_nil, List.append_nil, List.append_assoc] at hall
    exact hall
  | .loop test body, i, j, h => by
    simp only [Statement.marks, span_cons, span_append, span_nil] at h
    obtain ⟨hread, hbegin, hopen, n, htest, hclose, hsave, m, hbody, hend, rfl⟩ := h
    have hbefore : tr.Clears i (i + 3) [] := tr.clears_of_heedless ((tr.heedless_read hread).trans
      ((tr.heedless_act hbegin rfl).trans (tr.heedless_read hopen)))
    have htested := hbefore.trans (test.clears hf htest)
    have hsaved : tr.Clears n (n + 2) [] := tr.clears_of_heedless
      ((tr.heedless_read hclose).trans (tr.heedless_act hsave rfl))
    have hinside := block_clears hf body hbody
    have hbehind := tr.clears_of_heedless (tr.heedless_act hend rfl)
    have hall := ((htested.trans hsaved).trans hinside).trans hbehind
    obtain rfl := htest.eq_add
    rw [List.append_nil, List.append_nil] at hall
    exact hall

/-- **Behind a body nothing is void.** -/
theorem block_clears (hf : tr.Fitted source) : ∀ (b : List Statement) {i j : Nat},
    Span w i j (blockMarks b) → tr.Clears i j (blockUsed b i)
  | [], i, j, h => tr.clears_span h (by simp [blockMarks])
  | s :: rest, i, j, h => by
    simp only [blockMarks, span_append, span_cons] at h
    obtain ⟨n, hs, hread, hrest⟩ := h
    have hstatement := s.clears hf hs
    have hbody := block_clears hf rest hrest
    obtain rfl := hs.eq_add
    exact hstatement.trans ((tr.clears_of_heedless (tr.heedless_read hread)).trans hbody)

end

end Statements

end OnePass.Syntax

namespace OnePass.Derivation

open Emission Syntax
open Grammar (Action Mark Table Terminal)
open Lexical (Token)
open Machine

section Lines

variable {table : Table} {m m' : Machine} {w : List Mark} {tokens : List Token} {i : Nat}

/-- **The line of the last token before a place** among marks. In front of the first token it is the
first line. -/
def lineBefore (tokens : List Token) (w : List Mark) (i : Nat) : Nat :=
  ((tokens.take (Mark.classes (w.take i)).length).getLast?.map (·.line)).getD 1

/-- **A run along marks** is on the line of the last token that it passes. -/
theorem line_of_along (hm : m.Orderly) (h : Along table w m m') : ∃ tokens,
    m.pending = tokens ++ m'.pending ∧ tokens.length = (Mark.classes w).length ∧
      m'.lastLine = (tokens.getLast?.map (·.line)).getD m.lastLine := by
  induction h with
  | refl m => exact ⟨[], rfl, rfl, rfl⟩
  | @act m m' w a rest g hg h _ ih =>
    have hmove : Move table m _ := .act hg h
    exact ih (hm.move hmove)
  | @shift m m' w t node rest hg h _ ih =>
    have hmove : Move table m _ := .shift hg h
    obtain ⟨tokens, hpending, hlength, hline⟩ := ih (hm.move hmove)
    have hne : t ≠ .endMarker := hm.goals t node (by rw [hg]; exact List.mem_cons_self)
    -- the token that is passed is the first of those pending, and from now on the last that was read
    have hp := pending_eq_cons (isEndOfInput_of_ofToken? h hne)
    have hrest : Orderly { m with goals := rest } := hm.of_goals fun u v hmem =>
      hm.goals u v (by rw [hg]; exact List.mem_cons_of_mem _ hmem)
    have hlast : ({ m with goals := rest }.shift node).lastLine = m.lookahead.line :=
      (Prod.ext_iff.1 last_advance).2
    rw [pending_shift hrest] at hpending
    refine ⟨m.lookahead :: tokens, ?_, congrArg (· + 1) hlength, ?_⟩
    · rw [hp, List.cons_append, ← hpending]
      exact congrArg (_ :: ·) (congrArg List.tail hp).symm
    · rw [hline, hlast, List.getLast?_cons]
      cases tokens.getLast? <;> rfl
  | expand hg h _ ih => exact ih (hm.move (.expand hg h))

variable {c : Config} {source : String} {tr : Trace (.reserving c.keywords) w}

/-- **The line that an action is given** is that of the last token before it. -/
theorem Trace.Tells.line_eq (h : tr.Tells source) (hi : i ≤ w.length) :
    tr.line i = lineBefore (Lexical.scan c.keywords source).tokens w i := by
  obtain ⟨m, ⟨table, -, hm⟩, -, -, hline, -⟩ := h.comes i hi
  obtain ⟨tokens, hpending, hlength, hlast⟩ := line_of_along (orderly_begun c source) hm
  have hfirst : (begun c source).lastLine = 1 := (Prod.ext_iff.1 (last_begun c source)).2
  rw [pending_begun] at hpending
  rw [lineBefore, hpending, ← hlength, List.take_left, ← hline, hlast, hfirst]

end Lines

section Parse

variable {config : Config} {source : String} {o : Outcome}

/-- **Exactly the void results that are used are reported,** one by one and in the order of their
uses, each on the line of the last token before its use. A result is used by an action that uses
values, unless the call is a statement, and is void if the call selects a function that gives none.
Such a function is defined in the text: its definition has ended before the call, and no return with
a value belongs to its body. No text in memory is as long as `2 ^ 63`. -/
theorem voids_of_parse (hvalid : config.validate = .ok ()) (hcapacity : config.capacity ≤ 2 ^ 63)
    (h : parse config source = .ok o) (he : o.syntaxErrors = [])
    (hsource : source.length < 2 ^ 63) :
    ∃ (b : Block) (tr : Trace (.reserving config.keywords) (blockMarks b)),
      (∀ s ∈ b, s.Graded) ∧ Mark.Spelled (blockMarks b) o.scan.tokens ∧
      tr.Tells source ∧ tr.state (blockMarks b).length = o.generator ∧
      ((blockUsed b 0).map (·.call)).Nodup ∧
      (∀ d, d ∈ (blockUsed b 0).map (·.call) ↔ (blockMarks b)[d]? = some (.act .dispatch) ∧
        (blockMarks b)[d + 1]? ≠ some (.act .discardResult)) ∧
      (∀ u ∈ blockUsed b 0, IsUser (blockMarks b) u.user ∧ ∃ (i : Nat) (arguments : List Expr),
        Span (blockMarks b) i (u.call + 1) (Expr.call u.name arguments).marks ∧
          arguments.length = u.count) ∧
      (∀ d, (blockMarks b)[d]? = some (.act .dispatch) → ∀ k ∈ Stretch.all (tr.stretches d),
        Defined (blockMarks b) d d k) ∧
      o.generator.errors.toList.filter (fun e => e.fault = .voidOperand) =
        ((blockUsed b 0).filter tr.isVoid).map fun u =>
          ⟨lineBefore o.scan.tokens (blockMarks b) u.user, .voidOperand⟩ := by
  obtain ⟨b, -, hgraded, hs, hcount, -⟩ := trace_of_parse h he
  obtain ⟨-, tr, hstart, hend, hcomes⟩ := trace_of_spelled h hgraded hs
  have htells : tr.Tells source := ⟨hstart, hcomes⟩
  have haccounts := accounts_block b (span_self (blockMarks b))
  refine ⟨b, tr, hgraded, hs, htells, hend, haccounts.nodup, haccounts.mem_iff, haccounts.calls,
    fun d hd k hk => tr.defined_of_known hd hk, ?_⟩
  have hf : tr.Fitted source := {
    start := hstart
    comes := hcomes
    whole := whole_of_calling (calling_block b)
    counted := by omega
    settled := fun i hi => by
      obtain ⟨m, hm, hgen, -⟩ := hcomes i hi
      exact hgen ▸ settled_of_comes hvalid hm
    unit := (config.validate_eq_ok_iff.1 hvalid).1
    capacity := hcapacity }
  -- at first there are neither void results nor errors
  have hnone : (tr.state 0).voidResults = [] ∧ (tr.state 0).voidErrors = [] := by
    rw [hstart]
    rcases generator_begun config source with heq | ⟨-, heq⟩ <;> rw [heq] <;> exact ⟨rfl, rfl⟩
  obtain ⟨-, herrors⟩ := block_clears hf b (span_self (blockMarks b)) hnone.1
  rw [hnone.2, List.nil_append, hend] at herrors
  have hscan : o.scan = Lexical.scan config.keywords source := scan_of_parse h
  refine herrors.trans (List.map_congr_left fun u hu => ?_)
  obtain ⟨⟨a, ha, -⟩, -⟩ := haccounts.calls u (List.mem_filter.1 hu).1
  rw [htells.line_eq (Nat.le_of_lt (List.getElem?_eq_some_iff.1 ha).1), hscan]

/-- Calls of functions without values: as operands, as what is printed, as an argument, as an item, and
as statements. One of them stands in the body of its own function, and in another a function lies
that gives a value. -/
theorem voids_of_uses :
    let source := "def p ( x ) : print ( x ) ; ;\ndef g ( ) : def h ( ) : return 1 ; ; ;\ndef q ( ) : y = q ( ) ; ;\na = p ( 1 ) + p ( 2 ) ;\nprint ( g ( ) ) ;\np ( p ( 3 ) ) ;\na = [ q ( ) , 1 ] ;\nq ( ) ;"
    ∃ o, parse .standard source = .ok o ∧ o.syntaxErrors = [] ∧
      o.generator.errors = #[⟨4, .voidOperand⟩, ⟨4, .voidOperand⟩, ⟨5, .voidOperand⟩,
        ⟨6, .voidOperand⟩, ⟨7, .voidOperand⟩] ∧
      ∃ (b : Block) (tr : Trace (.reserving Config.standard.keywords) (blockMarks b)),
        Mark.Spelled (blockMarks b) o.scan.tokens ∧
          o.generator.errors.toList.filter (fun e => e.fault = .voidOperand) =
            ((blockUsed b 0).filter tr.isVoid).map fun u =>
              ⟨lineBefore o.scan.tokens (blockMarks b) u.user, .voidOperand⟩ := by
  intro source
  have hrun : (parse .standard source).toOption.map (fun o => (o.syntaxErrors, o.generator.errors)) =
      some ([], #[⟨4, .voidOperand⟩, ⟨4, .voidOperand⟩, ⟨5, .voidOperand⟩, ⟨6, .voidOperand⟩,
        ⟨7, .voidOperand⟩]) := by
    rw [parse_eq, Grammar.table_eq_ok]
    decide +kernel
  cases ho : parse .standard source with
  | error e =>
    rw [ho] at hrun
    cases hrun
  | ok o =>
    rw [ho] at hrun
    simp only [Except.toOption, Option.map_some, Option.some.injEq, Prod.mk.injEq] at hrun
    obtain ⟨hnone, herrors⟩ := hrun
    obtain ⟨b, tr, -, hs, -, -, -, -, -, -, hvoids⟩ :=
      voids_of_parse (by decide) (by decide) ho hnone (by decide +kernel)
    exact ⟨o, rfl, hnone, herrors, b, tr, hs, hvoids⟩

end Parse

end OnePass.Derivation
