import OnePass.Proofs.Syntax.Occurrences

/-!
# Calls among the marks of a text

Where a call begins among the marks of a text a call stands with all of its arguments, however deep
it is nested, and where one is dispatched one ends. Where a function becomes known its parameters
end, and what settles it stands right behind the end of its definition.

* `Calling`: marks that fall into whole calls, headers and others. `calling_block`: those of a text.
* `Whole`, `whole_of_calling`: **marks that belong to calls** stand in them.
-/

namespace OnePass.Syntax

open OnePass.Derivation
open Grammar (Action Mark Terminal)

/-- Marks that have to stand in the right place: the beginning and the end of a call, the end of the
parameters of a function, and what settles it. -/
def isBound : Mark → Bool
  | .act .beginCall | .act .dispatch | .act .paramsDone | .act .checkOverload => true
  | _ => false

/-- The marks of a definition up to the end of its parameters. -/
def headerMarks (f : String) (params : List String) : List Mark :=
  word .kwDef :: nameMark f :: .act .enterFunction :: word .leftParen ::
    (paramMarks params ++ [word .rightParen, .act .paramsDone])

/-- **Marks that fall into whole calls,** headers and others. -/
inductive Calling : List Mark → Prop
  | nil : Calling []
  | call (f : String) {arguments : List Expr} {w : List Mark}
      (ha : Calling (rowMarks .takeArgument arguments)) (h : Calling w) :
    Calling ((Expr.call f arguments).marks ++ w)
  | header (f : String) (params : List String) {w : List Mark} (h : Calling w) :
    Calling (headerMarks f params ++ w)
  | settle {w : List Mark} (h : Calling w) :
    Calling (.act .exitFunction :: .act .checkOverload :: w)
  | mark {k : Mark} {w : List Mark} (hk : isBound k = false) (h : Calling w) : Calling (k :: w)

theorem Calling.append {u w : List Mark} (hu : Calling u) (hw : Calling w) : Calling (u ++ w) := by
  induction hu with
  | nil => exact hw
  | call f ha _ _ ih =>
    rw [List.append_assoc]
    exact .call f ha ih
  | header f params _ ih =>
    rw [List.append_assoc]
    exact .header f params ih
  | settle _ ih => exact .settle ih
  | mark hk _ ih => exact .mark hk ih

section Trees

mutual

theorem Expr.calling (e : Expr) : Calling e.marks := by
  cases e with
  | number digits =>
    rw [Expr.marks]
    exact .mark rfl (.mark rfl .nil)
  | name x =>
    rw [Expr.marks]
    exact .mark rfl (.mark rfl (.mark rfl .nil))
  | element x index =>
    rw [Expr.marks]
    exact .mark rfl (.mark rfl (.mark rfl (.mark rfl
      (index.calling.append (.mark rfl (.mark rfl .nil))))))
  | call f arguments =>
    have h := Calling.call f (calling_row rfl arguments) .nil
    rwa [List.append_nil] at h
  | power base exponent =>
    rw [Expr.marks]
    exact base.calling.append (.mark rfl (exponent.calling.append (.mark rfl .nil)))
  | combine op left right =>
    rw [Expr.marks]
    cases op <;> exact left.calling.append (.mark rfl (right.calling.append (.mark rfl .nil)))

theorem calling_row {a : Action} (ha : isBound (.act a) = false) (es : List Expr) :
    Calling (rowMarks a es) := by
  cases es with
  | nil =>
    rw [rowMarks]
    exact .nil
  | cons e rest =>
    rw [rowMarks]
    exact e.calling.append (.mark ha (calling_rest ha rest))

theorem calling_rest {a : Action} (ha : isBound (.act a) = false) (es : List Expr) :
    Calling (restMarks a es) := by
  cases es with
  | nil =>
    rw [restMarks]
    exact .nil
  | cons e rest =>
    rw [restMarks]
    exact .mark rfl (e.calling.append (.mark ha (calling_rest ha rest)))

end

theorem Relation.calling (r : Relation) : Calling r.marks := by
  unfold Relation.marks Relation.terminal Relation.marker
  cases r.equal <;> exact r.left.calling.append
    (.mark rfl (.mark rfl (r.right.calling.append (.mark rfl .nil))))

theorem Assigned.calling (v : Assigned) : Calling v.marks := by
  cases v with
  | value e => exact e.calling
  | list first rest => exact .mark rfl (.mark rfl ((calling_row rfl _).append (.mark rfl .nil)))

/-- Parameters are names with commas between them, and an action behind each. -/
theorem mem_paramMarks {params : List String} {k : Mark} (hk : k ∈ paramMarks params) :
    k = word .comma ∨ (∃ x, k = nameMark x) ∨ k = .act .param := by
  have hfurther : ∀ rest : List String, ∀ k ∈ furtherParamMarks rest,
      k = word .comma ∨ (∃ x, k = nameMark x) ∨ k = .act .param := by
    intro rest
    induction rest with
    | nil => exact nofun
    | cons x rest ih =>
      intro k hk
      simp only [furtherParamMarks, List.mem_cons] at hk
      rcases hk with rfl | rfl | rfl | hk
      · exact .inl rfl
      · exact .inr (.inl ⟨x, rfl⟩)
      · exact .inr (.inr rfl)
      · exact ih k hk
  cases params with
  | nil => cases hk
  | cons x rest =>
    simp only [paramMarks, List.mem_cons] at hk
    rcases hk with rfl | rfl | hk
    · exact .inr (.inl ⟨x, rfl⟩)
    · exact .inr (.inr rfl)
    · exact hfurther rest k hk

/-- Parameters can stand anywhere. -/
theorem isBound_params {params : List String} {k : Mark} (hk : k ∈ paramMarks params) :
    isBound k = false := by
  rcases mem_paramMarks hk with rfl | ⟨x, rfl⟩ | rfl
  · rfl
  · rfl
  · rfl

/-- A definition begins with its header. -/
theorem Statement.marks_define (f : String) (params : List String) (body : List Statement) :
    (Statement.define f params body).marks = headerMarks f params ++ word .colon ::
      (blockMarks body ++ [.act .exitFunction, .act .checkOverload]) := by
  simp [Statement.marks, headerMarks]

/-- A call that is a statement is a call with its result dropped. -/
theorem Statement.marks_call (f : String) (arguments : List Expr) :
    (Statement.call f arguments).marks =
      (Expr.call f arguments).marks ++ [.act .discardResult] := by
  simp [Statement.marks, Expr.marks]

mutual

theorem Statement.calling (s : Statement) : Calling s.marks := by
  cases s with
  | assign x value =>
    rw [Statement.marks]
    exact .mark rfl (.mark rfl (.mark rfl (value.calling.append (.mark rfl .nil))))
  | assignElement x index value =>
    rw [Statement.marks]
    exact .mark rfl (.mark rfl (.mark rfl (.mark rfl (index.calling.append (.mark rfl
      (.mark rfl (.mark rfl (value.calling.append (.mark rfl .nil)))))))))
  | call f arguments =>
    rw [Statement.marks_call]
    exact (Expr.call f arguments).calling.append (.mark rfl .nil)
  | returnValue e =>
    rw [Statement.marks]
    exact .mark rfl (e.calling.append (.mark rfl .nil))
  | returnNothing =>
    rw [Statement.marks]
    exact .mark rfl (.mark rfl .nil)
  | global x =>
    rw [Statement.marks]
    exact .mark rfl (.mark rfl (.mark rfl .nil))
  | print e =>
    rw [Statement.marks]
    exact .mark rfl (.mark rfl (e.calling.append (.mark rfl (.mark rfl .nil))))
  | leave exit =>
    rw [Statement.marks]
    cases exit <;> exact .mark rfl (.mark rfl .nil)
  | define f params body =>
    rw [Statement.marks_define]
    exact .header f params (.mark rfl ((calling_block body).append (.settle .nil)))
  | ifThen test body =>
    rw [Statement.marks]
    exact .mark rfl (test.calling.append (.mark rfl (.mark rfl
      ((calling_block body).append (.mark rfl .nil)))))
  | ifElse test body other =>
    rw [Statement.marks]
    exact .mark rfl (test.calling.append (.mark rfl (.mark rfl ((calling_block body).append
      (.mark rfl (.mark rfl (.mark rfl ((calling_block other).append (.mark rfl .nil)))))))))
  | loop test body =>
    rw [Statement.marks]
    exact .mark rfl (.mark rfl (.mark rfl (test.calling.append (.mark rfl (.mark rfl
      ((calling_block body).append (.mark rfl .nil)))))))

/-- **The marks of a text** fall into whole calls and others. -/
theorem calling_block (b : List Statement) : Calling (blockMarks b) := by
  cases b with
  | nil =>
    rw [blockMarks]
    exact .nil
  | cons s rest =>
    rw [blockMarks]
    exact s.calling.append (.mark rfl (calling_block rest))

end

end Trees

section Places

variable {u v w : List Mark} {i j : Nat} {k : Mark}

theorem span_append_right (h : Span w i j v) (u : List Mark) : Span (w ++ u) i j v := by
  induction v generalizing i with
  | nil => exact h
  | cons k v ih =>
    refine ⟨?_, ih h.2⟩
    rw [List.getElem?_append_left (List.getElem?_eq_some_iff.1 h.1).1]
    exact h.1

/-- **A mark in its place:** a call begins and is dispatched in one, with all of its arguments; the
parameters of a function end in its header, and it is settled behind the end of its definition. -/
structure Whole (w : List Mark) (i : Nat) : Prop where
  begins : w[i]? = some (.act .beginCall) → ∃ (n j : Nat) (f : String) (arguments : List Expr),
    Span w n j (Expr.call f arguments).marks ∧ i = n + 1
  dispatches : w[i]? = some (.act .dispatch) → ∃ (n : Nat) (f : String) (arguments : List Expr),
    Span w n (i + 1) (Expr.call f arguments).marks
  publishes : w[i]? = some (.act .paramsDone) → ∃ (n : Nat) (f : String) (params : List String),
    Span w n (i + 1) (headerMarks f params)
  settles : w[i]? = some (.act .checkOverload) → ∃ n, i = n + 1 ∧
    w[n]? = some (.act .exitFunction)

theorem Whole.append_left (h : Whole w i) (u : List Mark) : Whole (u ++ w) (u.length + i) := by
  have hget : ∀ n, (u ++ w)[u.length + n]? = w[n]? := fun n => by
    rw [List.getElem?_append_right (Nat.le_add_right _ _), Nat.add_sub_cancel_left]
  refine ⟨fun hk => ?_, fun hk => ?_, fun hk => ?_, fun hk => ?_⟩
  · rw [hget] at hk
    obtain ⟨n, j, f, arguments, hspan, rfl⟩ := h.begins hk
    exact ⟨_, _, f, arguments, hspan.append_left u, rfl⟩
  · rw [hget] at hk
    obtain ⟨n, f, arguments, hspan⟩ := h.dispatches hk
    exact ⟨_, f, arguments, hspan.append_left u⟩
  · rw [hget] at hk
    obtain ⟨n, f, params, hspan⟩ := h.publishes hk
    exact ⟨_, f, params, hspan.append_left u⟩
  · rw [hget] at hk
    obtain ⟨n, rfl, hn⟩ := h.settles hk
    exact ⟨u.length + n, rfl, (hget n).trans hn⟩

theorem Whole.cons (h : Whole w i) (k : Mark) : Whole (k :: w) (i + 1) := by
  rw [Nat.add_comm]
  exact h.append_left [k]

theorem Whole.append_right (h : Whole w i) (hi : i < w.length) (u : List Mark) :
    Whole (w ++ u) i := by
  refine ⟨fun hk => ?_, fun hk => ?_, fun hk => ?_, fun hk => ?_⟩
  all_goals rw [List.getElem?_append_left hi] at hk
  · obtain ⟨n, j, f, arguments, hspan, heq⟩ := h.begins hk
    exact ⟨n, j, f, arguments, span_append_right hspan u, heq⟩
  · obtain ⟨n, f, arguments, hspan⟩ := h.dispatches hk
    exact ⟨n, f, arguments, span_append_right hspan u⟩
  · obtain ⟨n, f, params, hspan⟩ := h.publishes hk
    exact ⟨n, f, params, span_append_right hspan u⟩
  · obtain ⟨n, rfl, hn⟩ := h.settles hk
    refine ⟨n, rfl, ?_⟩
    rw [List.getElem?_append_left (List.getElem?_eq_some_iff.1 hn).1, hn]

/-- A mark that is bound to no place can be anywhere. -/
theorem whole_of_free (h : ∀ k, w[i]? = some k → isBound k = false) : Whole w i :=
  ⟨fun hk => absurd (h _ hk) nofun, fun hk => absurd (h _ hk) nofun,
    fun hk => absurd (h _ hk) nofun, fun hk => absurd (h _ hk) nofun⟩

/-- The marks of a call around those of its arguments. -/
theorem marks_call_eq (f : String) (arguments : List Expr) : (Expr.call f arguments).marks =
    nameMark f :: .act .beginCall :: word .leftParen ::
      (rowMarks .takeArgument arguments ++ [word .rightParen, .act .dispatch]) := by
  rw [Expr.marks]

/-- **The marks of a call** are in their places if those of its arguments are. -/
theorem whole_call (f : String) {arguments : List Expr}
    (ha : ∀ i, Whole (rowMarks .takeArgument arguments) i) (i : Nat) :
    Whole (Expr.call f arguments).marks i := by
  have hspan := span_self (Expr.call f arguments).marks
  have heq := marks_call_eq f arguments
  match i with
  | 0 => exact whole_of_free fun k hk => by rw [heq] at hk; cases hk; rfl
  | 1 =>
    refine ⟨fun _ => ⟨0, _, f, arguments, hspan, rfl⟩, fun hk => ?_, fun hk => ?_, fun hk => ?_⟩
    all_goals
      rw [heq] at hk
      cases hk
  | 2 => exact whole_of_free fun k hk => by rw [heq] at hk; cases hk; rfl
  | n + 3 =>
    by_cases hn : n < (rowMarks .takeArgument arguments).length
    · rw [heq]
      exact ((((ha n).append_right hn _).cons _).cons _).cons _
    · -- behind the arguments there are two marks
      obtain ⟨r, rfl⟩ := Nat.exists_eq_add_of_le (Nat.not_lt.1 hn)
      have hget : (Expr.call f arguments).marks[(rowMarks .takeArgument arguments).length + r + 3]? =
          [word .rightParen, .act .dispatch][r]? := by
        rw [heq, List.getElem?_cons_succ, List.getElem?_cons_succ, List.getElem?_cons_succ,
          List.getElem?_append_right (Nat.le_add_right _ _), Nat.add_sub_cancel_left]
      match r with
      | 0 => exact whole_of_free fun k hk => by rw [hget] at hk; cases hk; rfl
      | 1 =>
        have hlength : (Expr.call f arguments).marks.length =
            (rowMarks .takeArgument arguments).length + 1 + 3 + 1 := by
          rw [heq]
          simp
        rw [hlength] at hspan
        refine ⟨fun hk => ?_, fun _ => ⟨0, f, arguments, hspan⟩, fun hk => ?_, fun hk => ?_⟩
        all_goals
          rw [hget] at hk
          cases hk
      | r + 2 => exact whole_of_free fun k hk => by rw [hget] at hk; cases hk

/-- **The marks of a header** are in their places. -/
theorem whole_header (f : String) (params : List String) (i : Nat) :
    Whole (headerMarks f params) i := by
  have hspan := span_self (headerMarks f params)
  obtain ⟨u, hu⟩ : ∃ u, u = word .kwDef :: nameMark f :: .act .enterFunction :: word .leftParen ::
    (paramMarks params ++ [word .rightParen]) := ⟨_, rfl⟩
  have heq : headerMarks f params = u ++ [.act .paramsDone] := by
    rw [hu, headerMarks]
    simp
  have hlength : (headerMarks f params).length = u.length + 1 := by
    rw [heq, List.length_append]
    rfl
  rw [hlength] at hspan
  by_cases hi : i < u.length
  · refine whole_of_free fun k hk => ?_
    rw [heq, List.getElem?_append_left hi] at hk
    have hmem := List.mem_of_getElem? hk
    simp only [hu, List.mem_cons, List.mem_append, List.not_mem_nil, or_false] at hmem
    rcases hmem with rfl | rfl | rfl | rfl | hmem | rfl
    · rfl
    · rfl
    · rfl
    · rfl
    · exact isBound_params hmem
    · rfl
  · obtain ⟨r, rfl⟩ := Nat.exists_eq_add_of_le (Nat.not_lt.1 hi)
    have hget : (headerMarks f params)[u.length + r]? = [Mark.act .paramsDone][r]? := by
      rw [heq, List.getElem?_append_right (Nat.le_add_right _ _), Nat.add_sub_cancel_left]
    cases r with
    | zero =>
      refine ⟨fun hk => ?_, fun hk => ?_, fun _ => ⟨0, f, params, hspan⟩, fun hk => ?_⟩
      all_goals
        rw [hget] at hk
        cases hk
    | succ r => exact whole_of_free fun k hk => by rw [hget] at hk; cases hk

/-- **Marks that belong to calls** stand in them. -/
theorem whole_of_calling (h : Calling w) (i : Nat) : Whole w i := by
  -- what stands whole in each of two parts stands whole in both together
  have happend : ∀ {u w : List Mark} {i : Nat}, (∀ i, Whole u i) → (∀ i, Whole w i) →
      Whole (u ++ w) i := by
    intro u w i hu hw
    by_cases hi : i < u.length
    · exact (hu i).append_right hi w
    · obtain ⟨n, rfl⟩ := Nat.exists_eq_add_of_le (Nat.not_lt.1 hi)
      exact (hw n).append_left _
  induction h generalizing i with
  | nil => exact whole_of_free nofun
  | call f _ _ iha ih => exact happend (whole_call f iha) ih
  | header f params _ ih => exact happend (whole_header f params) ih
  | settle _ ih =>
    match i with
    | 0 => exact whole_of_free fun k hk => by cases hk; rfl
    | 1 => exact ⟨nofun, nofun, nofun, fun _ => ⟨0, rfl, rfl⟩⟩
    | i + 2 => exact ((ih i).cons _).cons _
  | mark hk _ ih =>
    cases i with
    | zero => exact whole_of_free fun k' hk' => by cases hk'; exact hk
    | succ i => exact (ih i).cons _

end Places

end OnePass.Syntax
