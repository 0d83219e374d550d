import OnePass.Proofs.Syntax.Calls

/-!
# Calls whose results are used

The result of a call is used as a value wherever the call stands in one, as an operand, an index, an
argument or an item, or is what is printed, returned or assigned. Only that of a call which is a
statement is dropped. The trees of a text say in which order results are used, and where: those of
two operands by their operator, the right one first, those of arguments by their call, the last one
first, and the others right behind them.

* `UsedResult`: a call and the action that uses its result.
* `Expr.result`, `Expr.inner`: the results that a value is and that are used in it.
* `Statement.used`, `blockUsed`: **the results that are used in a text,** in their order.
* `Accounts`, `accounts_block`: **every call of a text** is used once, or else dropped.
-/

namespace OnePass.Syntax

open OnePass.Derivation
open Grammar (Action Mark Terminal)

/-- **A call whose result is used.** -/
structure UsedResult where
  name : String
  /-- How many arguments it has. -/
  count : Nat
  /-- The place where it is dispatched. -/
  call : Nat
  /-- The place of the action that uses its result. -/
  user : Nat
deriving DecidableEq

/-- The result that a value is, if it is a call; the value begins at the place `i` and is used at the
place `user`. -/
def Expr.result (e : Expr) (i user : Nat) : List UsedResult :=
  match e with
  | .call f arguments =>
    [⟨f, arguments.length, i + 3 + (rowMarks .takeArgument arguments).length + 1, user⟩]
  | _ => []

/-- The results that a row of values is, the last one first; they are all used at one place. -/
def rowResults : List Expr → Nat → Nat → List UsedResult
  | [], _, _ => []
  | e :: rest, i, user => rowResults rest (i + e.marks.length + 2) user ++ e.result i user

mutual

/-- **The results that are used in a value,** which begins at the place `i`. -/
def Expr.inner : Expr → Nat → List UsedResult
  | .number _, _ | .name _, _ => []
  | .element _ index, i =>
    index.inner (i + 4) ++ index.result (i + 4) (i + 4 + index.marks.length + 1)
  | .call _ arguments, i =>
    rowInner arguments (i + 3) ++
      rowResults arguments (i + 3) (i + 3 + (rowMarks .takeArgument arguments).length + 1)
  | .power base exponent, i =>
    base.inner i ++ (exponent.inner (i + base.marks.length + 1) ++
      (exponent.result (i + base.marks.length + 1)
          (i + base.marks.length + 1 + exponent.marks.length) ++
        base.result i (i + base.marks.length + 1 + exponent.marks.length)))
  | .combine _ left right, i =>
    left.inner i ++ (right.inner (i + left.marks.length + 1) ++
      (right.result (i + left.marks.length + 1)
          (i + left.marks.length + 1 + right.marks.length) ++
        left.result i (i + left.marks.length + 1 + right.marks.length)))

/-- Those that are used in the values of a row, each of which has an action and a comma behind it. -/
def rowInner : List Expr → Nat → List UsedResult
  | [], _ => []
  | e :: rest, i => e.inner i ++ rowInner rest (i + e.marks.length + 2)

end

/-- The results that are used in a relation, which uses those of its two sides itself. -/
def Relation.used (r : Relation) (i : Nat) : List UsedResult :=
  r.left.inner i ++ (r.right.inner (i + r.left.marks.length + 2) ++
    (r.right.result (i + r.left.marks.length + 2)
        (i + r.left.marks.length + 2 + r.right.marks.length) ++
      r.left.result i (i + r.left.marks.length + 2 + r.right.marks.length)))

/-- The results that are used in the items of a list, each of which is stored behind its value. -/
def itemsUsed : List Expr → Nat → List UsedResult
  | [], _ => []
  | e :: rest, i =>
    e.inner i ++ (e.result i (i + e.marks.length) ++ itemsUsed rest (i + e.marks.length + 2))

/-- The result that is assigned, if what is assigned is a call. -/
def Assigned.result (v : Assigned) (i user : Nat) : List UsedResult :=
  match v with
  | .value e => e.result i user
  | .list .. => []

/-- The results that are used in what is assigned. -/
def Assigned.inner (v : Assigned) (i : Nat) : List UsedResult :=
  match v with
  | .value e => e.inner i
  | .list first rest => itemsUsed (first :: rest) (i + 2)

mutual

/-- **The results that are used in a statement,** which begins at the place `i`. That of a call which
is a statement is not. -/
def Statement.used : Statement → Nat → List UsedResult
  | .assign _ value, i =>
    value.inner (i + 3) ++ value.result (i + 3) (i + 3 + value.marks.length)
  | .assignElement _ index value, i =>
    (index.inner (i + 4) ++ index.result (i + 4) (i + 4 + index.marks.length + 1)) ++
      (value.inner (i + 4 + index.marks.length + 3) ++
        value.result (i + 4 + index.marks.length + 3)
          (i + 4 + index.marks.length + 3 + value.marks.length))
  | .call f arguments, i => (Expr.call f arguments).inner i
  | .returnValue e, i => e.inner (i + 1) ++ e.result (i + 1) (i + 1 + e.marks.length)
  | .print e, i => e.inner (i + 2) ++ e.result (i + 2) (i + 2 + e.marks.length + 1)
  | .returnNothing, _ | .global _, _ | .leave _, _ => []
  | .define _ params body, i => blockUsed body (i + 4 + (paramMarks params).length + 3)
  | .ifThen test body, i =>
    test.used (i + 1) ++ blockUsed body (i + 1 + test.marks.length + 2)
  | .ifElse test body other, i =>
    test.used (i + 1) ++ (blockUsed body (i + 1 + test.marks.length + 2) ++
      blockUsed other (i + 1 + test.marks.length + 2 + (blockMarks body).length + 3))
  | .loop test body, i =>
    test.used (i + 3) ++ blockUsed body (i + 3 + test.marks.length + 2)

/-- **The results that are used in a body.** -/
def blockUsed : List Statement → Nat → List UsedResult
  | [], _ => []
  | s :: rest, i => s.used i ++ blockUsed rest (i + s.marks.length + 1)

end

/-- Whether an action uses values. -/
def usesValues : Action → Bool
  | .elementAddress | .elementValue | .listItem | .add | .sub | .mult | .power | .compare | .assign
  | .print | .dispatch | .returnValue => true
  | _ => false

/-- An action that uses values stands at a place. -/
def IsUser (w : List Mark) (m : Nat) : Prop :=
  ∃ a, w[m]? = some (.act a) ∧ usesValues a = true

/-- **Marks with the results that are used among them.** Every call among them is used once, or else
its result is dropped by the mark behind it; and what is used are calls, and by actions that use
values. -/
structure Accounts (w v : List Mark) (i : Nat) (used : List UsedResult) : Prop where
  once : ∀ d, (v.findIdxs (· = .act .dispatch) i).count d =
    (used.map (·.call)).count d + (v.findIdxs (· = .act .discardResult) i).count (d + 1)
  calls : ∀ u ∈ used, IsUser w u.user ∧ ∃ (n : Nat) (arguments : List Expr),
    Span w n (u.call + 1) (Expr.call u.name arguments).marks ∧ arguments.length = u.count

section Accounts

variable {w v v' : List Mark} {i j n m : Nat} {k : Mark} {used used' : List UsedResult}

theorem accounts_nil : Accounts w [] i [] := ⟨fun _ => rfl, List.forall_mem_nil _⟩

theorem Accounts.append (h : Accounts w v i used) (h' : Accounts w v' (i + v.length) used') :
    Accounts w (v ++ v') i (used ++ used') where
  once d := by
    have hd := h.once d
    have hd' := h'.once d
    rw [List.findIdxs_append, List.findIdxs_append, List.map_append, List.count_append,
      List.count_append, List.count_append]
    omega
  calls u hu := (List.mem_append.1 hu).elim (h.calls u) (h'.calls u)

/-- A mark that neither dispatches a call nor drops a result. -/
theorem Accounts.mark (hk : k ≠ .act .dispatch ∧ k ≠ .act .discardResult)
    (h : Accounts w v (i + 1) used) : Accounts w (k :: v) i used where
  once d := by
    rw [List.findIdxs_cons, List.findIdxs_cons, if_neg (by simpa using hk.1),
      if_neg (by simpa using hk.2)]
    exact h.once d
  calls := h.calls

theorem Accounts.snoc (h : Accounts w v i used)
    (hk : k ≠ .act .dispatch ∧ k ≠ .act .discardResult) : Accounts w (v ++ [k]) i used := by
  have hlast := h.append (.mark hk accounts_nil)
  rwa [List.append_nil] at hlast

theorem Accounts.perm (h : Accounts w v i used) (hp : used.Perm used') :
    Accounts w v i used' where
  once d := by
    rw [← (hp.map _).count_eq]
    exact h.once d
  calls u hu := h.calls u (hp.mem_iff.2 hu)

/-- **A call is dispatched** whose result is used. -/
theorem accounts_dispatch {f : String} {arguments : List Expr} (hm : IsUser w m)
    (h : Span w n (i + 1) (Expr.call f arguments).marks) :
    Accounts w [.act .dispatch] i [⟨f, arguments.length, i, m⟩] where
  once d := by
    rw [List.findIdxs_singleton, List.findIdxs_singleton, if_pos (by simp), if_neg (by simp)]
    rfl
  calls u hu := by
    obtain rfl := List.mem_singleton.1 hu
    exact ⟨hm, n, arguments, h, rfl⟩

/-- **The result of the last call is dropped.** -/
theorem Accounts.drop {u : UsedResult} (h : Accounts w v i (used ++ [u]))
    (hu : u.call + 1 = i + v.length) : Accounts w (v ++ [.act .discardResult]) i used where
  once d := by
    have hd := h.once d
    rw [List.map_append, List.count_append, List.map_singleton, List.count_singleton] at hd
    rw [List.findIdxs_append, List.findIdxs_append, List.findIdxs_singleton,
      List.findIdxs_singleton, if_neg (by simp), if_pos (by simp), List.append_nil,
      List.count_append, List.count_singleton, hd, ← hu]
    simp only [beq_iff_eq, Nat.add_right_cancel_iff]
    omega
  calls u' hu' := h.calls u' (List.mem_append_left _ hu')

/-- Operands with their results, which are used behind both of them. -/
theorem Accounts.both {results results' : List UsedResult} (h : Accounts w v i (used ++ results))
    (h' : Accounts w v' (i + v.length) (used' ++ results')) :
    Accounts w (v ++ v') i (used ++ (used' ++ (results' ++ results))) := by
  refine (h.append h').perm (List.perm_iff_count.2 fun u => ?_)
  simp only [List.count_append]
  omega

mutual

/-- **The calls in a value,** and the one that it is. -/
theorem Expr.accounts : ∀ (e : Expr) {i j m : Nat}, IsUser w m → Span w i j e.marks →
    Accounts w e.marks i (e.inner i ++ e.result i m)
  | .number digits, i, j, m, _, h => .mark (by simp) (.mark (by simp) accounts_nil)
  | .name x, i, j, m, _, h => .mark (by simp [nameMark]) (.mark (by simp) (.mark (by simp) accounts_nil))
  | .element x index, i, j, m, _, h => by
    simp only [Expr.marks, span_cons, span_append, span_nil] at h
    obtain ⟨-, -, -, -, n, hindex, -, hact, -⟩ := h
    have hinside := index.accounts ⟨_, hact, rfl⟩ hindex
    obtain rfl := hindex.eq_add
    have hbehind := (hinside.snoc (k := word .rightBracket) (by simp [word])).snoc
      (k := .act .elementValue) (by simp)
    have hnone : (Expr.element x index).result i m = [] := rfl
    rw [List.append_assoc] at hbehind
    rw [hnone, List.append_nil]
    exact .mark (by simp [nameMark]) (.mark (by simp) (.mark (by simp) (.mark (by simp [word]) hbehind)))
  | .call f arguments, i, j, m, hm, h => by
    have hspan := h
    simp only [Expr.marks, span_cons, span_append, span_nil] at h
    obtain ⟨-, -, -, n, hrow, -, hact, rfl⟩ := h
    have hinside := accounts_row (a := .takeArgument) (by simp) arguments ⟨_, hact, rfl⟩ hrow
    obtain rfl := hrow.eq_add
    have hclosed := hinside.snoc (k := word .rightParen) (by simp [word])
    have hplace : i + 3 + (rowMarks .takeArgument arguments ++ [word .rightParen]).length =
        i + 3 + (rowMarks .takeArgument arguments).length + 1 := by
      rw [List.length_append, List.length_singleton]
      rfl
    -- the arguments are used by the call, and the call where its value is
    have hcall : Accounts w _ (i + 3) (_ ++ (Expr.call f arguments).result i m) :=
      hclosed.append (by rw [hplace]; exact accounts_dispatch hm hspan)
    rw [List.append_assoc] at hcall
    exact .mark (by simp [nameMark]) (.mark (by simp) (.mark (by simp [word]) hcall))
  | .power base exponent, i, j, m, _, h => by
    simp only [Expr.marks, span_cons, span_append, span_nil] at h
    obtain ⟨n, hbase, -, l, hexponent, hact, -⟩ := h
    have hbefore := base.accounts ⟨_, hact, rfl⟩ hbase
    have hbehind := exponent.accounts ⟨_, hact, rfl⟩ hexponent
    obtain rfl := hbase.eq_add
    obtain rfl := hexponent.eq_add
    have hnone : (Expr.power base exponent).result i m = [] := rfl
    rw [hnone, List.append_nil]
    exact hbefore.both (.mark (by simp [word]) (hbehind.snoc (by simp)))
  | .combine op left right, i, j, m, _, h => by
    simp only [Expr.marks, span_cons, span_append, span_nil] at h
    obtain ⟨n, hleft, -, l, hright, hact, -⟩ := h
    have huser : IsUser w l := ⟨_, hact, by cases op <;> rfl⟩
    have hbefore := left.accounts huser hleft
    have hbehind := right.accounts huser hright
    obtain rfl := hleft.eq_add
    obtain rfl := hright.eq_add
    have hnone : (Expr.combine op left right).result i m = [] := rfl
    rw [hnone, List.append_nil]
    exact hbefore.both (.mark (by simp [word]) (hbehind.snoc (by cases op <;> simp [Operator.action])))

/-- The calls in a row of values. -/
theorem accounts_row {a : Action} (ha : a ≠ .dispatch ∧ a ≠ .discardResult) :
    ∀ (es : List Expr) {i j m : Nat}, IsUser w m → Span w i j (rowMarks a es) →
      Accounts w (rowMarks a es) i (rowInner es i ++ rowResults es i m)
  | [], _, _, _, _, _ => accounts_nil
  | e :: rest, i, j, m, hm, h => by
    simp only [rowMarks, span_append, span_cons] at h
    obtain ⟨n, he, -, hrest⟩ := h
    have hfirst := e.accounts hm he
    have hbehind := accounts_rest ha rest hm hrest
    obtain rfl := he.eq_add
    rw [rowInner, rowResults, List.append_assoc]
    exact hfirst.both (.mark (by simpa using ha) hbehind)

theorem accounts_rest {a : Action} (ha : a ≠ .dispatch ∧ a ≠ .discardResult) :
    ∀ (es : List Expr) {i j m : Nat}, IsUser w m → Span w i j (restMarks a es) →
      Accounts w (restMarks a es) i (rowInner es (i + 1) ++ rowResults es (i + 1) m)
  | [], _, _, _, _, _ => accounts_nil
  | e :: rest, i, j, m, hm, h => by
    simp only [restMarks, span_append, span_cons] at h
    obtain ⟨-, n, he, -, hrest⟩ := h
    have hfirst := e.accounts hm he
    have hbehind := accounts_rest ha rest hm hrest
    obtain rfl := he.eq_add
    rw [rowInner, rowResults, List.append_assoc]
    exact .mark (by simp [word]) (hfirst.both (.mark (by simpa using ha) hbehind))

end

theorem Relation.accounts (r : Relation) (h : Span w i j r.marks) :
    Accounts w r.marks i (r.used i) := by
  simp only [Relation.marks, span_append, span_cons, span_nil] at h
  obtain ⟨n, hleft, -, -, m, hright, hact, -⟩ := h
  have hbefore := r.left.accounts ⟨_, hact, rfl⟩ hleft
  have hbehind := r.right.accounts ⟨_, hact, rfl⟩ hright
  obtain rfl := hleft.eq_add
  obtain rfl := hright.eq_add
  have hmarker : r.marker ≠ .dispatch ∧ r.marker ≠ .discardResult := by
    unfold Relation.marker
    split <;> simp
  exact hbefore.both (.mark (by simp [word]) (.mark (by simpa using hmarker)
    (hbehind.snoc (by simp))))

/-- The calls in the items of a list. -/
theorem accounts_items : ∀ (es : List Expr) {i j : Nat}, Span w i j (restMarks .listItem es) →
    Accounts w (restMarks .listItem es) i (itemsUsed es (i + 1)) := by
  intro es
  induction es with
  | nil => exact fun _ => accounts_nil
  | cons e rest ih =>
    intro i j h
    simp only [restMarks, span_append, span_cons] at h
    obtain ⟨-, n, he, hact, hrest⟩ := h
    have hitem := e.accounts ⟨_, hact, rfl⟩ he
    have hbehind := ih hrest
    obtain rfl := he.eq_add
    rw [itemsUsed, ← List.append_assoc]
    exact .mark (by simp [word]) (hitem.append (.mark (by simp) hbehind))

theorem Assigned.accounts (v : Assigned) (hm : IsUser w m) (h : Span w i j v.marks) :
    Accounts w v.marks i (v.inner i ++ v.result i m) := by
  cases v with
  | value e => exact e.accounts hm h
  | list first rest =>
    simp only [Assigned.marks, rowMarks, span_cons, span_append, span_nil] at h
    obtain ⟨-, -, l, ⟨n, hfirst, hact, hrest⟩, -⟩ := h
    have hitem := first.accounts ⟨_, hact, rfl⟩ hfirst
    have hbehind := accounts_items rest hrest
    obtain rfl := hfirst.eq_add
    have hitems := hitem.append (.mark (k := .act .listItem) (by simp) hbehind)
    rw [List.append_assoc] at hitems
    rw [Assigned.result, List.append_nil]
    exact .mark (by simp [word]) (.mark (by simp) (hitems.snoc (by simp [word])))

/-- The result of a call that is a statement is dropped. -/
theorem accounts_call {f : String} {arguments : List Expr}
    (h : Span w i j (Statement.call f arguments).marks) :
    Accounts w (Statement.call f arguments).marks i ((Expr.call f arguments).inner i) := by
  rw [Statement.marks_call] at h ⊢
  simp only [span_append, span_cons, span_nil] at h
  obtain ⟨n, hcall, -, rfl⟩ := h
  have huser : IsUser w (n - 1) := by
    have hmarks := hcall
    simp only [Expr.marks, span_cons, span_append, span_nil] at hmarks
    obtain ⟨-, -, -, l, -, -, hact, rfl⟩ := hmarks
    exact ⟨_, hact, rfl⟩
  refine ((Expr.call f arguments).accounts huser hcall).drop ?_
  rw [Expr.marks, List.length_cons, List.length_cons, List.length_cons, List.length_append]
  dsimp only [List.length_cons, List.length_nil]
  omega

theorem accounts_params {params : List String} : Accounts w (paramMarks params) i [] := by
  have hall : ∀ (v : List Mark) {i : Nat},
      (∀ k ∈ v, k ≠ .act .dispatch ∧ k ≠ .act .discardResult) → Accounts w v i [] := by
    intro v
    induction v with
    | nil => exact fun _ => accounts_nil
    | cons k v ih =>
      intro i hv
      exact .mark (hv k List.mem_cons_self) (ih fun k hk => hv k (List.mem_cons_of_mem _ hk))
  refine hall _ fun k hk => ?_
  rcases mem_paramMarks hk with rfl | ⟨x, rfl⟩ | rfl
  · simp [word]
  · simp [nameMark]
  · simp

mutual

/-- **The calls in a statement.** -/
theorem Statement.accounts : ∀ (s : Statement) {i j : Nat}, Span w i j s.marks →
    Accounts w s.marks i (s.used i)
  | .assign x value, i, j, h => by
    simp only [Statement.marks, span_cons, span_append, span_nil] at h
    obtain ⟨-, -, -, n, hvalue, hact, -⟩ := h
    have hassign := value.accounts ⟨_, hact, rfl⟩ hvalue
    obtain rfl := hvalue.eq_add
    exact .mark (by simp [nameMark]) (.mark (by simp) (.mark (by simp [word])
      (hassign.snoc (by simp))))
  | .assignElement x index value, i, j, h => by
    simp only [Statement.marks, span_cons, span_append, span_nil] at h
    obtain ⟨-, -, -, -, n, hindex, -, haddress, -, m, hvalue, hact, -⟩ := h
    have haddressed := index.accounts ⟨_, haddress, rfl⟩ hindex
    have hassign := value.accounts ⟨_, hact, rfl⟩ hvalue
    obtain rfl := hindex.eq_add
    obtain rfl := hvalue.eq_add
    have hbehind := haddressed.append (.mark (k := word .rightBracket) (by simp [word])
      (.mark (k := .act .elementAddress) (by simp) (.mark (k := word .assign) (by simp [word])
        (hassign.snoc (k := .act .assign) (by simp)))))
    exact .mark (by simp [nameMark]) (.mark (by simp) (.mark (by simp) (.mark (by simp [word])
      hbehind)))
  | .call f arguments, i, j, h => accounts_call h
  | .returnValue e, i, j, h => by
    simp only [Statement.marks, span_cons, span_append, span_nil] at h
    obtain ⟨-, n, he, hact, -⟩ := h
    have hvalue := e.accounts ⟨_, hact, rfl⟩ he
    obtain rfl := he.eq_add
    exact .mark (by simp [word]) (hvalue.snoc (by simp))
  | .print e, i, j, h => by
    simp only [Statement.marks, span_cons, span_append, span_nil] at h
    obtain ⟨-, -, n, he, -, hact, -⟩ := h
    have hvalue := e.accounts ⟨_, hact, rfl⟩ he
    obtain rfl := he.eq_add
    have hprint := (hvalue.snoc (k := word .rightParen) (by simp [word])).snoc
      (k := .act .print) (by simp)
    rw [List.append_assoc] at hprint
    exact .mark (by simp [word]) (.mark (by simp [word]) hprint)
  | .returnNothing, i, j, h => .mark (by simp [word]) (.mark (by simp) accounts_nil)
  | .global x, i, j, h => .mark (by simp [word]) (.mark (by simp [nameMark])
    (.mark (by simp) accounts_nil))
  | .leave exit, i, j, h => .mark (by simp [word]) (.mark (by cases exit <;> simp [Exit.action])
    accounts_nil)
  | .define f params body, i, j, h => by
    simp only [Statement.marks, span_cons, span_append, span_nil] at h
    obtain ⟨-, -, -, -, n, hparams, -, -, -, m, hbody, -⟩ := h
    have hinside := accounts_block body hbody
    obtain rfl := hparams.eq_add
    have hdone := (hinside.snoc (k := .act .exitFunction) (by simp)).snoc
      (k := .act .checkOverload) (by simp)
    rw [List.append_assoc] at hdone
    have hbehind := accounts_params.append (.mark (k := word .rightParen) (by simp [word])
      (.mark (k := .act .paramsDone) (by simp) (.mark (k := word .colon) (by simp [word]) hdone)))
    exact .mark (by simp [word]) (.mark (by simp [nameMark]) (.mark (by simp) (.mark (by simp [word])
      hbehind)))
  | .ifThen test body, i, j, h => by
    simp only [Statement.marks, span_cons, span_append, span_nil] at h
    obtain ⟨-, n, htest, -, -, m, hbody, -⟩ := h
    have htested := test.accounts htest
    have hinside := accounts_block body hbody
    obtain rfl := htest.eq_add
    exact .mark (by simp [word]) (htested.append (.mark (by simp) (.mark (by simp [word])
      (hinside.snoc (by simp)))))
  | .ifElse test body other, i, j, h => by
    simp only [Statement.marks, span_cons, span_append, span_nil] at h
    obtain ⟨-, n, htest, -, -, m, hbody, -, -, -, l, hother, -⟩ := h
    have htested := test.accounts htest
    have hinside := accounts_block body hbody
    have houtside := accounts_block other hother
    obtain rfl := htest.eq_add
    obtain rfl := hbody.eq_add
    exact .mark (by simp [word]) (htested.append (.mark (by simp) (.mark (by simp [word])
      (hinside.append (.mark (by simp [word]) (.mark (by simp) (.mark (by simp [word])
        (houtside.snoc (by simp)))))))))
  | .loop test body, i, j, h => by
    simp only [Statement.marks, span_cons, span_append, span_nil] at h
    obtain ⟨-, -, -, n, htest, -, -, m, hbody, -⟩ := h
    have htested := test.accounts htest
    have hinside := accounts_block body hbody
    obtain rfl := htest.eq_add
    exact .mark (by simp [word]) (.mark (by simp) (.mark (by simp [word]) (htested.append
      (.mark (by simp [word]) (.mark (by simp) (hinside.snoc (by simp)))))))

/-- **The calls in a body.** -/
theorem accounts_block : ∀ (b : List Statement) {i j : Nat}, Span w i j (blockMarks b) →
    Accounts w (blockMarks b) i (blockUsed b i)
  | [], _, _, _ => accounts_nil
  | s :: rest, i, j, h => by
    simp only [blockMarks, span_append, span_cons] at h
    obtain ⟨n, hs, -, hrest⟩ := h
    have hfirst := s.accounts hs
    have hbehind := accounts_block rest hrest
    obtain rfl := hs.eq_add
    exact hfirst.append (.mark (by simp [word]) hbehind)

end

theorem count_findIdxs (w : List Mark) (k : Mark) (d : Nat) :
    (w.findIdxs (· = k)).count d = if w[d]? = some k then 1 else 0 := by
  have hmem : d ∈ w.findIdxs (· = k) ↔ w[d]? = some k := by
    simp [List.getElem?_eq_some_iff]
  split
  · rename_i hd
    exact List.count_eq_one_of_mem List.nodup_findIdxs (hmem.2 hd)
  · rename_i hd
    exact List.count_eq_zero_of_not_mem (mt hmem.1 hd)

/-- No call of a text is used twice. -/
theorem Accounts.nodup (h : Accounts w w 0 used) : (used.map (·.call)).Nodup := by
  refine List.nodup_iff_count_le_one.2 fun d => ?_
  have honce := h.once d
  rw [count_findIdxs] at honce
  split at honce <;> omega

/-- **Of the calls of a text** those are used whose results are not dropped. -/
theorem Accounts.mem_iff (h : Accounts w w 0 used) (d : Nat) : d ∈ used.map (·.call) ↔
    w[d]? = some (.act .dispatch) ∧ w[d + 1]? ≠ some (.act .discardResult) := by
  have honce := h.once d
  rw [count_findIdxs, count_findIdxs] at honce
  rw [← List.count_pos_iff]
  split at honce
  · rename_i hcall
    split at honce
    · rename_i hdrop
      exact ⟨fun hd => by omega, fun hd => absurd hdrop hd.2⟩
    · rename_i hdrop
      exact ⟨fun _ => ⟨hcall, hdrop⟩, fun _ => by omega⟩
  · rename_i hcall
    exact ⟨fun hd => by omega, fun hd => absurd hd.1 hcall⟩

end Accounts

end OnePass.Syntax
