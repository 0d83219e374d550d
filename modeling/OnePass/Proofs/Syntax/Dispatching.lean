import OnePass.Proofs.Emission.Resolving
import OnePass.Proofs.Syntax.Selecting

/-!
# Every call of a text

The name of a call waits below those of the calls in its arguments, and the operands of its
arguments lie below their number. So a call is dispatched with its own name and its own arguments,
however deep it is nested, and comes to what the functions known around it say.

* `Expr.waiting`: the calls that wait before a value wait behind it.
* `Trace.Operands`: the operands that a row of values leaves. `operands_row`: arguments do.
* `Trace.Comes`: what a call comes to. `Trace.Dispatched`, `Trace.Tells.dispatched`: **the call that
  stands between two marks.**
* `selection_of_parse`: **every call of an accepted text** selects among the functions around it.
-/

namespace OnePass.Derivation

open Emission
open Grammar (Action Mark Terminal)

section Waiting

variable {E : Setting} {w : List Mark} (tr : Trace E w) {i : Nat} {t : Terminal} {x : String}
  {a : Action}

theorem Trace.waiting_read (h : w[i]? = some (.read t x)) :
    (tr.state (i + 1)).pendingCalls = (tr.state i).pendingCalls := by
  rcases (tr.reads h).2 with heq | ⟨token, -, heq⟩
  · rw [heq]
  · rw [heq]

theorem Trace.waiting_act (h : w[i]? = some (.act a)) (ha : isAside a = true ∨ a = .pushId)
    (hbegin : a ≠ .beginCall) (hdispatch : a ≠ .dispatch) :
    (tr.state (i + 1)).pendingCalls = (tr.state i).pendingCalls :=
  tr.of_ends h (waiting_perform ha hbegin hdispatch _ rfl)

end Waiting

end OnePass.Derivation

namespace OnePass.Syntax

open OnePass.Derivation Emission Target
open Grammar (Action Mark Terminal counted)

section Waiting

variable {E : Setting} {w : List Mark} (tr : Trace E w)

mutual

/-- **The calls that wait before a value** wait behind it. -/
theorem Expr.waiting : ∀ (e : Expr) {i j : Nat}, Span w i j e.marks →
    (tr.state j).pendingCalls = (tr.state i).pendingCalls
  | .number digits, i, j, h => by
    simp only [Expr.marks, span_cons, span_nil] at h
    obtain ⟨hread, hact, rfl⟩ := h
    rw [tr.waiting_act hact (.inl rfl) nofun nofun, tr.waiting_read hread]
  | .name x, i, j, h => by
    simp only [Expr.marks, span_cons, span_nil] at h
    obtain ⟨hread, hcheck, hact, rfl⟩ := h
    rw [tr.waiting_act hact (.inr rfl) nofun nofun, tr.waiting_act hcheck (.inl rfl) nofun nofun,
      tr.waiting_read hread]
  | .element x index, i, j, h => by
    simp only [Expr.marks, span_cons, span_append, span_nil] at h
    obtain ⟨hread, hcheck, hname, hopen, n, hindex, hclose, hact, rfl⟩ := h
    rw [tr.waiting_act hact (.inl rfl) nofun nofun, tr.waiting_read hclose, index.waiting hindex,
      tr.waiting_read hopen, tr.waiting_act hname (.inr rfl) nofun nofun,
      tr.waiting_act hcheck (.inl rfl) nofun nofun, tr.waiting_read hread]
  | .call f arguments, i, j, h => by
    simp only [Expr.marks, span_cons, span_append, span_nil] at h
    obtain ⟨hread, hbegin, hopen, n, hrow, hclose, hact, rfl⟩ := h
    have hstart := tr.of_ends hbegin waiting_startCall
    have hend := tr.of_ends hact waiting_resolveCall
    rw [hend, tr.waiting_read hclose, waiting_row arguments hrow, tr.waiting_read hopen, hstart,
      List.tail_cons, tr.waiting_read hread]
  | .power base exponent, i, j, h => by
    simp only [Expr.marks, span_cons, span_append, span_nil] at h
    obtain ⟨n, hbase, hread, m, hexponent, hact, rfl⟩ := h
    rw [tr.waiting_act hact (.inl rfl) nofun nofun, exponent.waiting hexponent,
      tr.waiting_read hread, base.waiting hbase]
  | .combine op left right, i, j, h => by
    simp only [Expr.marks, span_cons, span_append, span_nil] at h
    obtain ⟨n, hleft, hread, m, hright, hact, rfl⟩ := h
    have hop : isAside op.action = true ∧ op.action ≠ .beginCall ∧ op.action ≠ .dispatch := by
      cases op <;> exact ⟨rfl, nofun, nofun⟩
    rw [tr.waiting_act hact (.inl hop.1) hop.2.1 hop.2.2, right.waiting hright,
      tr.waiting_read hread, left.waiting hleft]

theorem waiting_row : ∀ (es : List Expr) {i j : Nat}, Span w i j (rowMarks .takeArgument es) →
    (tr.state j).pendingCalls = (tr.state i).pendingCalls
  | [], i, j, h => by
    obtain rfl : i = j := h
    rfl
  | e :: rest, i, j, h => by
    simp only [rowMarks, span_cons, span_append] at h
    obtain ⟨n, he, hact, hrest⟩ := h
    rw [waiting_rest rest hrest, tr.waiting_act hact (.inl rfl) nofun nofun, e.waiting he]

theorem waiting_rest : ∀ (es : List Expr) {i j : Nat}, Span w i j (restMarks .takeArgument es) →
    (tr.state j).pendingCalls = (tr.state i).pendingCalls
  | [], i, j, h => by
    obtain rfl : i = j := h
    rfl
  | e :: rest, i, j, h => by
    simp only [restMarks, span_cons, span_append] at h
    obtain ⟨hread, n, he, hact, hrest⟩ := h
    rw [waiting_rest rest hrest, tr.waiting_act hact (.inl rfl) nofun nofun, e.waiting he,
      tr.waiting_read hread]

end

end Waiting

end OnePass.Syntax

namespace OnePass.Derivation

open Emission Names Syntax Target
open Grammar (Mark counted)

section Operands

variable {E : Setting} {w : List Mark} (tr : Trace E w)

/-- **The operands that a row of values leaves,** one behind the other. Each value leaves its own on
top of what was there before, and is counted as an argument. -/
inductive Trace.Operands : Nat → List Expr → List Operand → Prop
  | nil {i : Nat} : Operands i [] []
  | cons {i n : Nat} {e : Expr} {rest : List Expr} {o : Operand} {operands : List Operand}
      (he : Span w i n e.marks) (hstack : (tr.state n).stack = o :: (tr.state i).stack)
      (htake : w[n]? = some (.act .takeArgument)) (h : Operands (n + 2) rest operands) :
      Operands i (e :: rest) (o :: operands)

variable {tr} {i j : Nat}

/-- A call has no more arguments than its text has marks. -/
theorem length_lt_of_span (hcount : counted w < 2 ^ 63) {f : String} {arguments : List Expr}
    (hspan : Span w i j (Expr.call f arguments).marks) : arguments.length < 2 ^ 63 := by
  have hrow := length_le_counted_row arguments
  rw [Expr.marks, span_cons, span_cons, span_cons, span_append] at hspan
  obtain ⟨-, -, -, n, hargs, -⟩ := hspan
  have hle := counted_le_of_span hargs
  omega

theorem Trace.Operands.length_eq {es : List Expr} {operands : List Operand}
    (h : tr.Operands i es operands) : operands.length = es.length := by
  induction h with
  | nil => rfl
  | cons _ _ _ _ ih => rw [List.length_cons, List.length_cons, ih]

/-- One argument more lies below the number. -/
theorem Trace.takes (htake : w[i]? = some (.act .takeArgument)) {o : Operand}
    {values : List Operand} {st : OperandStack}
    (hst : (tr.state i).stack = o :: .immediate values.length :: (values ++ st))
    (hlength : values.length + 1 < 2 ^ 63) :
    (tr.state (i + 1)).stack = .immediate (o :: values).length :: ((o :: values) ++ st) := by
  have hnext : (Operand.immediate values.length).increment = ((o :: values).length : Int) := by
    unfold Operand.increment Operand.maxWord
    rw [if_pos (by simp only [Operand.immediate]; omega)]
    rfl
  rw [← hnext]
  exact tr.trades htake o _ _ hst

theorem operands_rest (hcount : counted w < 2 ^ 63) (es : List Expr)
    (h : Span w i j (restMarks .takeArgument es)) {values : List Operand} {st : OperandStack}
    (hst : (tr.state i).stack = .immediate values.length :: (values ++ st))
    (hlength : values.length + es.length < 2 ^ 63) :
    ∃ operands, tr.Operands (i + 1) es operands ∧ (tr.state j).stack =
      .immediate (operands.reverse ++ values).length :: (operands.reverse ++ values ++ st) := by
  induction es generalizing i values with
  | nil =>
    obtain rfl : i = j := h
    exact ⟨[], .nil, hst⟩
  | cons e rest ih =>
    rw [List.length_cons] at hlength
    simp only [restMarks, span_cons, span_append] at h
    obtain ⟨hread, n, he, htake, hrest⟩ := h
    obtain ⟨o, ho⟩ := e.pushes tr hcount he
    have htaken := tr.takes htake (by rw [ho, tr.stack_read hread, hst]) (by omega)
    obtain ⟨operands, hoperands, hstack⟩ := ih hrest htaken (by
      rw [List.length_cons]
      omega)
    refine ⟨o :: operands, .cons he ho htake hoperands, ?_⟩
    rw [hstack, List.reverse_cons, List.append_assoc operands.reverse [o] values]
    rfl

/-- **The arguments of a call** leave their operands below their number. -/
theorem operands_row (hcount : counted w < 2 ^ 63) (es : List Expr)
    (h : Span w i j (rowMarks .takeArgument es)) {st : OperandStack}
    (hst : (tr.state i).stack = .immediate 0 :: st) (hlength : es.length < 2 ^ 63) :
    ∃ operands, tr.Operands i es operands ∧
      (tr.state j).stack = .immediate operands.length :: (operands.reverse ++ st) := by
  cases es with
  | nil =>
    obtain rfl : i = j := h
    exact ⟨[], .nil, hst⟩
  | cons e rest =>
    rw [List.length_cons] at hlength
    simp only [rowMarks, span_cons, span_append] at h
    obtain ⟨n, he, htake, hrest⟩ := h
    obtain ⟨o, ho⟩ := e.pushes tr hcount he
    have htop : (tr.state n).stack = o :: .immediate ([] : List Operand).length :: ([] ++ st) := by
      rw [ho, hst]
      rfl
    have htaken := tr.takes htake htop (by decide)
    obtain ⟨operands, hoperands, hstack⟩ := operands_rest hcount rest hrest htaken (by
      rw [List.length_singleton]
      omega)
    refine ⟨o :: operands, .cons he ho htake hoperands, ?_⟩
    rw [hstack, ← List.reverse_cons, List.length_reverse]

end Operands

section Calls

variable {c : Config} {source : String} {w : List Mark} {i d : Nat} {f : String}
  {arguments : List Expr} {operands : List Operand} {st : OperandStack}
  {tr : Trace (.reserving c.keywords) w}

/-- **What a call comes to:** instructions, what is reported of the call itself behind what is
reported of its arguments, and one operand, its result. -/
structure Trace.Comes {E : Setting} (tr : Trace E w) (d : Nat) (st : OperandStack)
    (code : List Instruction) (faults : List SemanticFault) (result : Operand) : Prop where
  program : (tr.state (d + 1)).memory.program =
    (tr.state d).memory.program ++ (code.map some).toArray
  errors : ∃ count, (tr.state (d + 1)).errors.toList = (tr.state d).errors.toList ++
    List.replicate count ⟨tr.line d, .voidOperand⟩ ++ faults.map (⟨tr.line d, ·⟩)
  stack : (tr.state (d + 1)).stack = result :: st

/-- **A call is dispatched** at a place with a name and operands: the function that the stretches
around say is called. If there is none, one error is reported, and no code is left. -/
structure Trace.Selects {E : Setting} (tr : Trace E w) (d : Nat) (f : String)
    (operands : List Operand) (st : OperandStack) : Prop where
  callee : (tr.state d).symbols.callee? (tr.state d).currentScope f operands.length =
    (Stretch.callee? (tr.stretches d) f operands.length).map fun k =>
      (k.row tr.made, k.info tr.made)
  selected : ∀ k, Stretch.callee? (tr.stretches d) f operands.length = some k →
    tr.Comes d st (callCode (k.info tr.made) operands (tr.state d).programNext
      (tr.state d).memory.tempNext) [] (.direct (tr.state d).memory.tempNext)
  mismatched : Stretch.callee? (tr.stretches d) f operands.length = none →
    Stretch.visible (tr.stretches d) f ≠ [] →
      tr.Comes d st [] [.argumentCount f] (.immediate 0)
  undefined : Stretch.visible (tr.stretches d) f = [] →
    tr.Comes d st [] [.undefined f] (.immediate 0)

/-- **The call that stands between two marks** is dispatched with its own name and the operands of its
own arguments in their order, and the calls and operands that wait for more stay as they are. -/
structure Trace.Dispatched {E : Setting} (tr : Trace E w) (i d : Nat) (f : String)
    (arguments : List Expr) : Prop where
  dispatches : w[d]? = some (.act .dispatch)
  name : (tr.state d).pendingCalls = f :: (tr.state i).pendingCalls
  calls : (tr.state (d + 1)).pendingCalls = (tr.state i).pendingCalls
  resolved : ∃ operands, tr.Operands (i + 3) arguments operands ∧
    (tr.state d).stack =
      .immediate operands.length :: (operands.reverse ++ (tr.state i).stack) ∧
        tr.Selects d f operands (tr.state i).stack

/-- What an action makes of a call whose arguments have been used. -/
theorem Trace.resolves {E : Setting} {tr : Trace E w} (hk : w[d]? = some (.act .dispatch))
    {calls : List String} (hcalls : (tr.state d).pendingCalls = f :: calls)
    (hst : (tr.state d).stack = .immediate operands.length :: (operands.reverse ++ st)) :
    ∃ g, Took (tr.line d) operands.reverse (tr.state d) st g ∧ tr.state (d + 1) =
      ({ g with pendingCalls := calls } : Generator).resolved (tr.line d) f operands := by
  rw [← List.length_reverse] at hst
  obtain ⟨g, htook, hstate⟩ := tr.of_ends hk (ends_resolveCall_eq hst hcalls)
  rw [List.reverse_reverse] at hstate
  exact ⟨g, htook, hstate⟩

/-- **A call is resolved** by the functions that are known around it. -/
theorem Trace.Tells.resolves (h : tr.Tells source) (hw : ∀ i, Whole w i)
    (hk : w[d]? = some (.act .dispatch)) (hx : Unmarked f) {calls : List String}
    (hcalls : (tr.state d).pendingCalls = f :: calls)
    (hst : (tr.state d).stack = .immediate operands.length :: (operands.reverse ++ st)) :
    ∃ g, Took (tr.line d) operands.reverse (tr.state d) st g ∧ tr.state (d + 1) =
      match Stretch.callee? (tr.stretches d) f operands.length with
      | some k => ({ g with pendingCalls := calls } : Generator).called (k.row tr.made)
          (k.info tr.made) operands
      | none => (({ g with pendingCalls := calls } : Generator).report (tr.line d)
          (if Stretch.visible (tr.stretches d) f = [] then .undefined f
            else .argumentCount f)).push (.immediate 0) := by
  obtain ⟨g, htook, hstate⟩ := tr.resolves hk hcalls hst
  refine ⟨g, htook, ?_⟩
  have hcallee := h.callee? hw hk hx operands.length
  have hnearest := h.nearestFunction hw hk hx
  have hscope : (tr.state d).currentScope =
      ({ g with pendingCalls := calls } : Generator).currentScope :=
    (congrArg SymbolTable.currentScope htook.symbols).symm
  rw [← htook.symbols, hscope] at hcallee hnearest
  rw [hstate, Generator.resolved, hcallee, hnearest]
  cases Stretch.callee? (tr.stretches d) f operands.length with
  | some k => rfl
  | none =>
    dsimp only [Option.map_none]
    cases Stretch.visible (tr.stretches d) f with
    | nil => rfl
    | cons k ks => rfl

/-- **A call selects** among the functions around it, by its name and the number of its arguments. -/
theorem Trace.Tells.selects (h : tr.Tells source) (hw : ∀ i, Whole w i)
    (hk : w[d]? = some (.act .dispatch)) (hx : Unmarked f) {calls : List String}
    (hcalls : (tr.state d).pendingCalls = f :: calls)
    (hst : (tr.state d).stack = .immediate operands.length :: (operands.reverse ++ st)) :
    tr.Selects d f operands st := by
  obtain ⟨g, htook, hstate⟩ := h.resolves hw hk hx hcalls hst
  have hmemory := htook.memory
  have hstack := htook.stack
  obtain ⟨count, herrors⟩ := Generator.toList_errors_useAll { tr.state d with stack := st }
    (tr.line d) operands.reverse
  rw [← show g = Generator.useAll _ _ _ from htook] at herrors
  have hnone : Stretch.callee? (tr.stretches d) f operands.length = none →
      tr.Comes d st [] [if Stretch.visible (tr.stretches d) f = [] then .undefined f
        else .argumentCount f] (.immediate 0) := by
    intro hnone
    rw [hnone] at hstate
    refine ⟨?_, ⟨count, ?_⟩, ?_⟩
    · rw [hstate]
      exact (congrArg Memory.program hmemory).trans Array.append_empty.symm
    · rw [hstate]
      exact Array.toList_push.trans (congrArg (· ++ _) herrors)
    · rw [hstate]
      exact congrArg (_ :: ·) hstack
  refine ⟨h.callee? hw hk hx _, fun k hsome => ?_, fun hnone' hvisible => ?_, fun hvisible => ?_⟩
  · rw [hsome] at hstate
    refine ⟨?_, ⟨count, ?_⟩, ?_⟩
    · rw [hstate]
      exact Generator.program_called.trans (by rw [Generator.programNext, hmemory]; rfl)
    · rw [hstate]
      exact (congrArg Array.toList Generator.errors_called).trans
        (herrors.trans (List.append_nil _).symm)
    · rw [hstate]
      exact Generator.stack_called.trans (by rw [hmemory, hstack])
  · have hcomes := hnone hnone'
    rwa [if_neg hvisible] at hcomes
  · have hcomes := hnone (by rw [Stretch.callee?, hvisible, List.find?_nil])
    rwa [if_pos hvisible] at hcomes

/-- **The name of a call waits** when it is dispatched. -/
theorem Trace.Tells.waits (h : tr.Tells source)
    (hspan : Span w i (d + 1) (Expr.call f arguments).marks) :
    (tr.state d).pendingCalls = f :: (tr.state i).pendingCalls ∧ Unmarked f := by
  rw [Expr.marks, span_cons, span_cons, span_cons, span_append] at hspan
  obtain ⟨hread, hbegin, hopen, n, hrow, hclose, -, heq⟩ := hspan
  obtain rfl : n + 1 = d := Nat.succ.inj heq
  have hlexeme : tr.lexeme (i + 1) = f := (tr.reads hread).1
  refine ⟨?_, hlexeme ▸ h.unmarked (Nat.le_of_lt (List.getElem?_eq_some_iff.1 hbegin).1)⟩
  rw [tr.waiting_read hclose, waiting_row tr arguments hrow, tr.waiting_read hopen,
    tr.of_ends hbegin waiting_startCall, hlexeme, tr.waiting_read hread]

/-- **Every call is dispatched,** with its own name and its own arguments. -/
theorem Trace.Tells.dispatched (h : tr.Tells source) (hw : ∀ i, Whole w i)
    (hcount : Grammar.counted w < 2 ^ 63) (hspan : Span w i (d + 1) (Expr.call f arguments).marks) :
    tr.Dispatched i d f arguments := by
  obtain ⟨hname, hx⟩ := h.waits hspan
  have hcalls := Expr.waiting tr _ hspan
  have hlength := length_lt_of_span hcount hspan
  rw [Expr.marks, span_cons, span_cons, span_cons, span_append] at hspan
  obtain ⟨hread, hbegin, hopen, n, hrow, hclose, hk, heq⟩ := hspan
  obtain rfl : n + 1 = d := Nat.succ.inj heq
  have hstart : (tr.state (i + 3)).stack = .immediate 0 :: (tr.state i).stack := by
    rw [tr.stack_read hopen, ← tr.stack_read hread]
    exact tr.trades hbegin
  obtain ⟨operands, hoperands, hstack⟩ := operands_row hcount arguments hrow hstart hlength
  have hst := (tr.stack_read hclose).trans hstack
  exact ⟨hk, hname, hcalls, operands, hoperands, hst, h.selects hw hk hx hname hst⟩

end Calls

section Parse

variable {config : Config} {source : String} {o : Outcome}

/-- **Every call of an accepted text selects** among the functions that are known around it, whatever
errors the program has. Dispatches stand at the ends of calls only, and a function is known behind
the end of its parameters. No text in memory is as long as `2 ^ 63`. -/
theorem selection_of_parse (h : parse config source = .ok o) (he : o.syntaxErrors = [])
    (hsource : source.length < 2 ^ 63) :
    ∃ (b : Block) (tr : Trace (.reserving config.keywords) (blockMarks b)),
      (∀ s ∈ b, s.Graded) ∧ Mark.Spelled (blockMarks b) o.scan.tokens ∧
      tr.Tells source ∧ tr.state (blockMarks b).length = o.generator ∧
      (∀ i, Whole (blockMarks b) i) ∧
      (∀ i, ∀ k ∈ Stretch.all (tr.stretches i), k.place < i ∧ ∃ (n : Nat) (params : List String),
        Span (blockMarks b) n (k.place + 1) (headerMarks k.name params) ∧
          params.length = k.arity) ∧
      ∀ (f : String) (arguments : List Expr) (i d : Nat),
        Span (blockMarks b) i (d + 1) (Expr.call f arguments).marks →
          tr.Dispatched i d f arguments := by
  obtain ⟨b, -, hgraded, hs, hcount, -⟩ := trace_of_parse h he
  obtain ⟨-, tr, hstart, hend, hcomes⟩ := trace_of_spelled h hgraded hs
  have htells : tr.Tells source := ⟨hstart, hcomes⟩
  have hw : ∀ i, Whole (blockMarks b) i := whole_of_calling (calling_block b)
  refine ⟨b, tr, hgraded, hs, htells, hend, hw, fun i k hk => tr.header_of_known hw hk, ?_⟩
  intro f arguments i d hspan
  exact htells.dispatched hw (by omega) hspan

/-- A text with two functions of one name, whose calls stand in the arguments of one another, with a
call that none of them fits and with one of a name that is not known. -/
theorem selection_of_nested :
    let source := "def f ( a ) : return a ; ; def f ( a , b ) : return f ( b ) ; ; print ( f ( f ( 1 ) , f ( 2 , 3 ) ) ) ; f ( ) ; g ( f ( 1 ) ) ;"
    ∃ o, parse .standard source = .ok o ∧ o.syntaxErrors = [] ∧
      o.generator.errors = #[⟨1, .argumentCount "f"⟩, ⟨1, .undefined "g"⟩] ∧
      ∃ (b : Block) (tr : Trace (.reserving Config.standard.keywords) (blockMarks b)),
        Mark.Spelled (blockMarks b) o.scan.tokens ∧
          ∀ (f : String) (arguments : List Expr) (i d : Nat),
            Span (blockMarks b) i (d + 1) (Expr.call f arguments).marks →
              tr.Dispatched i d f arguments := by
  intro source
  have hrun : (parse .standard source).toOption.map (fun o => (o.syntaxErrors, o.generator.errors)) =
      some ([], #[⟨1, .argumentCount "f"⟩, ⟨1, .undefined "g"⟩]) := by
    rw [parse_eq, Grammar.table_eq_ok]
    decide +kernel
  cases ho : parse .standard source with
  | error e =>
    rw [ho] at hrun
    cases hrun
  | ok o =>
    rw [ho] at hrun
    simp only [Except.toOption, Option.map_some, Option.some.injEq, Prod.mk.injEq] at hrun
    obtain ⟨hnone, herrors⟩ := hrun
    obtain ⟨b, tr, -, hs, -, -, -, -, hcalls⟩ := selection_of_parse ho hnone (by decide +kernel)
    exact ⟨o, rfl, hnone, herrors, b, tr, hs, hcalls⟩

end Parse

end OnePass.Derivation
