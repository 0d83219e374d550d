import OnePass.Proofs.Emission.Titles
import OnePass.Proofs.Syntax.Binding
import OnePass.Proofs.Syntax.Compiling

/-!
# States agree with the bindings of the text

In a text without errors the scopes before a mark agree with the bindings at that place. What
a statement binds lies in the stretch of text that it stands in: what loops and functions
bind within goes with them.

* `Bindings.Stays`: the same stretch of text. `Statement.stays`, `block_stays`.
* `Trace.Clean`: a trace without errors. `reads_name`: a name that is read has been bound.
* `Expr.agrees`, `Statement.agrees`, `block_agrees`: the states behind agree, too.
-/

namespace OnePass.Syntax

open OnePass.Derivation Emission Names Target
open Grammar (Action Mark Terminal)

namespace Bindings

variable {b b' b'' : Bindings} {x : String} {cell count : Nat} {f : Frame} {outer : List Frame}

/-- **The same stretch of text:** only the innermost frame may have changed, and in its names only. -/
def Stays (b b' : Bindings) : Prop :=
  b'.frames.tail = b.frames.tail ∧
    b'.frames.head?.map (·.isLoop) = b.frames.head?.map (·.isLoop)

theorem Stays.refl (b : Bindings) : b.Stays b := ⟨rfl, rfl⟩

theorem Stays.trans (h : b.Stays b') (h' : b'.Stays b'') : b.Stays b'' :=
  ⟨h'.1.trans h.1, h'.2.trans h.2⟩

theorem stays_bind (b : Bindings) (x : String) (cell : Nat) : b.Stays (b.bind x cell) := by
  unfold bind
  split
  · exact .refl b
  · rename_i f outer hframes
    exact ⟨by rw [hframes]; rfl, by rw [hframes]; rfl⟩

theorem stays_fresh (b : Bindings) (x : String) : b.Stays (b.fresh x) := b.stays_bind x b.next

theorem stays_assign (b : Bindings) (x : String) : b.Stays (b.assign x) := by
  unfold assign
  split
  · exact .refl b
  · exact b.stays_fresh x

theorem stays_global (b : Bindings) (x : String) : b.Stays (b.global x) := by
  unfold global
  split
  · exact b.stays_bind x _
  · exact .refl b

theorem stays_header (b : Bindings) (params : List String) :
    ((b.skip 2).enter false).Stays (b.header params) := by
  have hall : ∀ (params : List String) (b : Bindings), b.Stays (params.foldl fresh b) := by
    intro params
    induction params with
    | nil => exact fun b => .refl b
    | cons x params ih => exact fun b => (b.stays_fresh x).trans (ih _)
  exact hall params _

/-- What is entered and left is as it was. -/
theorem Stays.frames_leave {isLoop : Bool} (h : (b.enter isLoop).Stays b') :
    b'.leave.frames = b.frames := h.1

theorem Stays.exists_cons (h : b.Stays b') (hb : b.frames = f :: outer) :
    ∃ f', b'.frames = f' :: outer ∧ f'.isLoop = f.isLoop := by
  obtain ⟨htail, hhead⟩ := h
  rw [hb] at htail hhead
  cases hframes : b'.frames with
  | nil =>
    rw [hframes] at hhead
    cases hhead
  | cons f' outer' =>
    rw [hframes] at htail hhead
    exact ⟨f', congrArg (f' :: ·) htail, Option.some.inj hhead⟩

end Bindings

mutual

/-- A statement binds names in its own stretch of text. -/
theorem Statement.stays : ∀ (s : Statement) (b : Bindings), b.Stays (s.binds b)
  | .assign x _, b => b.stays_assign x
  | .global x, b => b.stays_global x
  | .define _ params body, b =>
    have h := (b.stays_header params).trans (block_stays body (b.header params))
    ⟨congrArg List.tail h.frames_leave, congrArg (·.head?.map (·.isLoop)) h.frames_leave⟩
  | .ifThen _ body, b => block_stays body b
  | .ifElse _ body other, b => (block_stays body b).trans (block_stays other _)
  | .loop _ body, b =>
    have h := block_stays body (b.enter true)
    ⟨congrArg List.tail h.frames_leave, congrArg (·.head?.map (·.isLoop)) h.frames_leave⟩
  | .assignElement .., b | .call .., b | .returnValue _, b | .returnNothing, b | .print _, b
  | .leave _, b => .refl b

theorem block_stays : ∀ (s : List Statement) (b : Bindings), b.Stays (blockBinds s b)
  | [], b => .refl b
  | s :: rest, b => (s.stays b).trans (block_stays rest _)

end

end OnePass.Syntax

namespace OnePass.Derivation

open Emission Names Syntax
open Grammar (Action Mark Terminal)

/-- **A trace without errors,** whose states are settled. -/
structure Trace.Clean {E : Setting} {w : List Mark} (tr : Trace E w) (c : Config) : Prop where
  keywords : E.config.keywords = c.keywords
  settled : ∀ i ≤ w.length, Settled c (tr.state i)
  errors : (tr.state w.length).errors = #[]

namespace Trace

variable {E : Setting} {w : List Mark} {tr : Trace E w} {i : Nat} {t : Terminal} {x : String}
  {a : Action} {b : Bindings} {c : Config}

/-- **Errors stay.** -/
theorem noted (tr : Trace E w) (hi : i ≤ w.length) :
    Noted (fun _ => True) (tr.state i) (tr.state w.length) := by
  induction hi using Nat.decreasingInduction with
  | self => exact .of_eq rfl
  | of_succ i hi ih =>
    refine Noted.trans ?_ ih
    rcases hk : w[i] with ⟨t, x⟩ | a
    · exact .of_eq (tr.errors_read (List.getElem?_eq_some_iff.2 ⟨hi, hk⟩))
    · exact (tr.of_ends (List.getElem?_eq_some_iff.2 ⟨hi, hk⟩)
        ((reports_perform a (tr.lexeme i) (tr.line i)).ends (tr.state i))).mono fun _ _ => trivial

theorem Clean.no_errors (hc : tr.Clean c) (hi : i ≤ w.length) : (tr.state i).errors = #[] := by
  obtain ⟨new, hnew, -⟩ := tr.noted hi
  rw [hc.errors] at hnew
  simpa using (List.append_eq_nil_iff.1 hnew.symm).1

theorem Clean.settled_of (hc : tr.Clean c) {m : Mark} (h : w[i]? = some m) : Settled c (tr.state i) :=
  hc.settled i (Nat.le_of_lt (List.getElem?_eq_some_iff.1 h).1)

theorem Clean.errors_act (hc : tr.Clean c) (h : w[i]? = some (.act a)) :
    (tr.state (i + 1)).errors = #[] :=
  hc.no_errors (List.getElem?_eq_some_iff.1 h).1

/-- A token is passed. -/
theorem agrees_read (h : w[i]? = some (.read t x)) (hb : Agrees b (tr.state i)) :
    Agrees b (tr.state (i + 1)) := by
  rcases (tr.reads h).2 with heq | ⟨token, -, heq⟩
  · rwa [heq]
  · rw [heq]
    exact hb.record token

/-- An action changes operands and code only. -/
theorem agrees_aside (h : w[i]? = some (.act a)) (ha : isAside a = true)
    (hb : Agrees b (tr.state i)) : Agrees b (tr.state (i + 1)) :=
  tr.of_ends h ((aloof_agrees b).perform ha _ hb)

/-- **A row keeps its name** in a text without errors. -/
theorem Clean.named (hc : tr.Clean c) {j row : Nat} (hij : i ≤ j) (hj : j ≤ w.length)
    (h : Named row x (tr.state i)) : Named row x (tr.state j) := by
  induction hij with
  | refl => exact h
  | @step k hik ih =>
    have hk := ih (Nat.le_of_lt hj)
    rcases hm : w[k] with ⟨t, y⟩ | a
    · rcases (tr.reads (List.getElem?_eq_some_iff.2 ⟨hj, hm⟩)).2 with heq | ⟨token, -, heq⟩
      · rwa [heq]
      · rw [heq]
        exact SymbolTable.name?_record_of_some hk token
    · have hact := List.getElem?_eq_some_iff.2 ⟨hj, hm⟩
      by_cases ha : a = .checkOverload
      · subst ha
        obtain ⟨last, hlast⟩ := tr.of_ends hact ends_retireRivals_clean (hc.errors_act hact)
        rw [hlast]
        exact hk
      · exact tr.of_ends hact (named_perform ha _ hk)

/-- Marks that neither begin nor end a definition leave names and open definitions alone. -/
theorem titular_span {I : Generator → Prop} (h : ∀ x, Titular x I) : ∀ {v : List Mark} {i j : Nat},
    Span w i j v → (∀ a, .act a ∈ v → keepsTitles a = true) → I (tr.state i) → I (tr.state j)
  | [], i, j, hv, _, hi => by
    obtain rfl : i = j := hv
    exact hi
  | m :: v, i, j, hv, hkeeps, hi => by
    obtain ⟨hm, hv⟩ := span_cons.1 hv
    refine titular_span h hv (fun a ha => hkeeps a (List.mem_cons_of_mem _ ha)) ?_
    rcases m with ⟨t, x⟩ | a
    · rcases (tr.reads hm).2 with heq | ⟨token, -, heq⟩
      · rwa [heq]
      · rw [heq]
        exact (h _).table hi (SymbolTable.lengthens_record token)
    · exact tr.of_ends hm ((h _).perform (hkeeps a List.mem_cons_self) _ hi)

/-- The action behind a token is given its text. -/
theorem lexeme_read (h : w[i]? = some (.read t x)) : tr.lexeme (i + 1) = x := (tr.reads h).1

end Trace

end OnePass.Derivation

namespace OnePass.Syntax

open OnePass.Derivation Emission Names Target
open Grammar (Action Mark Terminal)

section Binds

variable {E : Setting} {w : List Mark} {tr : Trace E w} {b : Bindings} {c : Config}

/-- **A name that is read** has been bound. -/
theorem reads_name (hc : tr.Clean c) {x : String} {i j : Nat} (h : Span w i j (Expr.name x).marks)
    (hb : Agrees b (tr.state i)) : ∃ cell, b.read? x = some cell ∧
      tr.state j = (tr.state (i + 1)).push (.direct cell) ∧ Agrees b (tr.state j) := by
  simp only [Expr.marks, span_cons, span_nil] at h
  obtain ⟨hread, hcheck, hname, rfl⟩ := h
  have hx : tr.lexeme (i + 1) = x := tr.lexeme_read hread
  have hx' : tr.lexeme (i + 1 + 1) = x := (tr.acts hcheck).2.trans hx
  have hb₁ := tr.agrees_read hread hb
  have hchecked := tr.of_ends hcheck (hb₁.requireCell (x := tr.lexeme (i + 1)))
    (hc.errors_act hcheck)
  rw [hx] at hchecked
  obtain ⟨hsame, hsome⟩ := hchecked
  obtain ⟨cell, hcell⟩ := Option.isSome_iff_exists.1 hsome
  have hb₂ : Agrees b (tr.state (i + 1 + 1)) := hsame ▸ hb₁
  have hpushed := tr.of_ends hname (hb₂.readName (x := tr.lexeme (i + 1 + 1)) (by rw [hx', hcell]))
  rw [hsame] at hpushed
  exact ⟨cell, hcell, hpushed, hpushed ▸ hb₁.congr rfl rfl rfl rfl⟩

/-- **Values bind nothing.** -/
theorem Expr.agrees (hc : tr.Clean c) : ∀ (e : Expr) {i j : Nat}, e.isPlain = true →
    Span w i j e.marks → Agrees b (tr.state i) → Agrees b (tr.state j)
  | .number digits, i, j, _, h, hb => by
    simp only [Expr.marks, span_cons, span_nil] at h
    obtain ⟨hread, hact, rfl⟩ := h
    exact tr.agrees_aside hact rfl (tr.agrees_read hread hb)
  | .name x, i, j, _, h, hb => by
    obtain ⟨-, -, -, hb⟩ := reads_name hc h hb
    exact hb
  | .power base exponent, i, j, hp, h, hb => by
    obtain ⟨hbase, hexponent⟩ := Bool.and_eq_true_iff.1 hp
    simp only [Expr.marks, span_cons, span_append, span_nil] at h
    obtain ⟨n, h₁, hread, m, h₂, hact, rfl⟩ := h
    have hb₁ := tr.agrees_read hread (base.agrees hc hbase h₁ hb)
    exact tr.agrees_aside hact rfl (exponent.agrees hc hexponent h₂ hb₁)
  | .combine op left right, i, j, hp, h, hb => by
    obtain ⟨hleft, hright⟩ := Bool.and_eq_true_iff.1 hp
    simp only [Expr.marks, span_cons, span_append, span_nil] at h
    obtain ⟨n, h₁, hread, m, h₂, hact, rfl⟩ := h
    have hb₁ := tr.agrees_read hread (left.agrees hc hleft h₁ hb)
    exact tr.agrees_aside hact (by cases op <;> rfl) (right.agrees hc hright h₂ hb₁)

theorem Relation.isAside_marker (r : Relation) : isAside r.marker = true := by
  unfold marker
  split <;> rfl

theorem Relation.agrees (hc : tr.Clean c) (r : Relation) {i j : Nat} (hp : r.isPlain = true)
    (h : Span w i j r.marks) (hb : Agrees b (tr.state i)) : Agrees b (tr.state j) := by
  obtain ⟨hleft, hright⟩ := Bool.and_eq_true_iff.1 hp
  simp only [Relation.marks, span_cons, span_append, span_nil] at h
  obtain ⟨n, h₁, hread, hmarker, m, h₂, hact, rfl⟩ := h
  have hb₁ := tr.agrees_read hread (r.left.agrees hc hleft h₁ hb)
  exact tr.agrees_aside hact rfl
    (r.right.agrees hc hright h₂ (tr.agrees_aside hmarker r.isAside_marker hb₁))

theorem furtherParams_agrees : ∀ (params : List String) {i j : Nat} {b : Bindings},
    Span w i j (furtherParamMarks params) → Agrees b (tr.state i) →
      Agrees (params.foldl Bindings.fresh b) (tr.state j)
  | [], i, j, b, h, hb => by
    obtain rfl : i = j := h
    exact hb
  | x :: rest, i, j, b, h, hb => by
    simp only [furtherParamMarks, span_cons] at h
    obtain ⟨hcomma, hname, hact, hrest⟩ := h
    have hb₁ := tr.agrees_read hname (tr.agrees_read hcomma hb)
    have hb₂ := tr.of_ends hact (hb₁.addParameter (x := tr.lexeme (i + 1 + 1)))
    rw [tr.lexeme_read hname] at hb₂
    exact furtherParams_agrees rest hrest hb₂

/-- **Parameters** get cells in their order. -/
theorem params_agrees (params : List String) {i j : Nat} (h : Span w i j (paramMarks params))
    (hb : Agrees b (tr.state i)) : Agrees (params.foldl Bindings.fresh b) (tr.state j) := by
  cases params with
  | nil =>
    obtain rfl : i = j := h
    exact hb
  | cons x rest =>
    simp only [paramMarks, span_cons] at h
    obtain ⟨hname, hact, hrest⟩ := h
    have hb₁ := tr.of_ends hact
      ((tr.agrees_read hname hb).addParameter (x := tr.lexeme (i + 1)))
    rw [tr.lexeme_read hname] at hb₁
    exact furtherParams_agrees rest hrest hb₁

theorem keepsTitles_furtherParams : ∀ (params : List String) (a : Action),
    .act a ∈ furtherParamMarks params → keepsTitles a = true
  | [], _, h => absurd h List.not_mem_nil
  | _ :: rest, a, h => by
    simp only [furtherParamMarks, word, nameMark, List.mem_cons, reduceCtorEq, false_or,
      Mark.act.injEq] at h
    rcases h with rfl | h
    · rfl
    · exact keepsTitles_furtherParams rest a h

theorem keepsTitles_params (params : List String) (a : Action) (h : .act a ∈ paramMarks params) :
    keepsTitles a = true := by
  cases params with
  | nil => exact absurd h List.not_mem_nil
  | cons _ rest =>
    simp only [paramMarks, nameMark, List.mem_cons, reduceCtorEq, false_or, Mark.act.injEq] at h
    rcases h with rfl | h
    · rfl
    · exact keepsTitles_furtherParams rest a h

/-- **The header of a definition,** up to its body, which begins with the definition on a row with
its name. -/
theorem header_agrees (hc : tr.Clean c) {f : String} {params : List String} {v : List Mark} {i j : Nat}
    (h : Span w i j (word .kwDef :: nameMark f :: .act .enterFunction :: word .leftParen ::
      (paramMarks params ++ word .rightParen :: .act .paramsDone :: word .colon :: v)))
    (hb : Agrees b (tr.state i)) :
    ∃ n, Span w n j v ∧ Agrees (b.header params) (tr.state n) ∧ Headed f (tr.state n) := by
  simp only [span_cons, span_append] at h
  obtain ⟨hread, hname, henter, hopen, k, hparams, hclose, hdone, hcolon, hv⟩ := h
  have hb₁ := tr.agrees_read hname (tr.agrees_read hread hb)
  have hb₂ := tr.agrees_read hopen (tr.of_ends henter (hb₁.startFunction))
  have hb₃ := tr.agrees_read hclose (params_agrees params hparams hb₂)
  have hb₄ := tr.of_ends hdone (hb₃.publish (hc.settled_of hdone))
  have hheaded := tr.of_ends henter (headed_startFunction (x := tr.lexeme (i + 1 + 1)))
  rw [tr.lexeme_read hname] at hheaded
  have hrest : Span w (i + 1 + 1 + 1) (k + 1 + 1 + 1) (word .leftParen :: (paramMarks params ++
      [word .rightParen, .act .paramsDone, word .colon])) := by
    simp only [span_cons, span_append, span_nil]
    exact ⟨hopen, k, hparams, hclose, hdone, hcolon, rfl⟩
  refine ⟨_, hv, tr.agrees_read hcolon hb₄, tr.titular_span (titular_headed f) hrest ?_ hheaded⟩
  intro a ha
  simp only [word, List.mem_cons, List.mem_append, reduceCtorEq, false_or, Mark.act.injEq,
    List.not_mem_nil, or_false] at ha
  rcases ha with ha | rfl
  · exact keepsTitles_params params a ha
  · rfl

mutual

/-- **The states behind a statement agree with the bindings behind it.** -/
theorem Statement.agrees (hc : tr.Clean c) : ∀ (s : Statement) {inFunction : Bool} {i j : Nat}
    {b : Bindings}, s.isPlain inFunction = true → Span w i j s.marks → Agrees b (tr.state i) →
      Agrees (s.binds b) (tr.state j)
  | .assign x (.value e), _, i, j, b, hp, h, hb => by
    simp only [Statement.marks, Assigned.marks, span_cons, span_append, span_nil] at h
    obtain ⟨hread, htarget, hassign, n, he, hact, rfl⟩ := h
    have hb₁ := (tr.of_ends htarget
      ((tr.agrees_read hread hb).assignTo (x := tr.lexeme (i + 1)))).1
    rw [tr.lexeme_read hread] at hb₁
    exact tr.agrees_aside hact rfl (e.agrees hc hp he (tr.agrees_read hassign hb₁))
  | .print e, _, i, j, b, hp, h, hb => by
    simp only [Statement.marks, span_cons, span_append, span_nil] at h
    obtain ⟨hread, hopen, n, he, hclose, hact, rfl⟩ := h
    have hb₁ := e.agrees hc hp he (tr.agrees_read hopen (tr.agrees_read hread hb))
    exact tr.agrees_aside hact rfl (tr.agrees_read hclose hb₁)
  | .returnValue e, _, i, j, b, hp, h, hb => by
    simp only [Statement.marks, span_cons, span_append, span_nil] at h
    obtain ⟨hread, n, he, hact, rfl⟩ := h
    have hb₁ := e.agrees hc (Bool.and_eq_true_iff.1 hp).2 he (tr.agrees_read hread hb)
    exact tr.of_ends hact hb₁.returnWith
  | .returnNothing, _, i, j, b, _, h, hb => by
    simp only [Statement.marks, span_cons, span_nil] at h
    obtain ⟨hread, hact, rfl⟩ := h
    exact tr.agrees_aside hact rfl (tr.agrees_read hread hb)
  | .global x, _, i, j, b, _, h, hb => by
    simp only [Statement.marks, span_cons, span_nil] at h
    obtain ⟨hread, hname, hact, rfl⟩ := h
    have hb₁ := tr.of_ends hact
      ((tr.agrees_read hname (tr.agrees_read hread hb)).bindGlobal (x := tr.lexeme (i + 1 + 1)))
      (hc.errors_act hact)
    rw [tr.lexeme_read hname] at hb₁
    exact hb₁
  | .leave exit, _, i, j, b, _, h, hb => by
    simp only [Statement.marks, span_cons, span_nil] at h
    obtain ⟨hread, hact, rfl⟩ := h
    have hleft : Ends (perform exit.action (tr.lexeme (i + 1)) (tr.line (i + 1)))
        (tr.state (i + 1)) fun _ g => Agrees b g := by
      rw [perform_exit]
      exact (tr.agrees_read hread hb).leaveLoop (hc.settled_of hact)
    exact tr.of_ends hact hleft
  | .define f params body, _, i, j, b, hp, h, hb => by
    obtain ⟨n, hbody, hb₁, -⟩ := header_agrees hc h hb
    simp only [span_cons, span_append, span_nil] at hbody
    obtain ⟨m, hbody, hact, hretire, rfl⟩ := hbody
    have hb₂ := block_agrees hc body hp hbody hb₁
    obtain ⟨top, hframes, hloop⟩ :=
      ((b.stays_header params).trans (block_stays body _)).exists_cons rfl
    have hne : b.frames ≠ [] := by
      obtain ⟨_, _, heq⟩ := hb.mirror.exists_cons
      rw [heq]
      exact List.cons_ne_nil _ _
    have hb₃ := tr.of_ends hact (hb₂.endFunction (hc.settled_of hact) hframes hloop hne)
    exact tr.of_ends hretire hb₃.retireRivals (hc.errors_act hretire)
  | .ifThen test body, _, i, j, b, hp, h, hb => by
    obtain ⟨htest, hbody⟩ := Bool.and_eq_true_iff.1 hp
    simp only [Statement.marks, span_cons, span_append, span_nil] at h
    obtain ⟨hread, c, h₁, hsave, hcolon, n, h₂, hact, rfl⟩ := h
    have hb₁ := test.agrees hc htest h₁ (tr.agrees_read hread hb)
    have hb₂ := tr.agrees_read hcolon (tr.agrees_aside hsave rfl hb₁)
    exact tr.agrees_aside hact rfl (block_agrees hc body hbody h₂ hb₂)
  | .ifElse test body other, _, i, j, b, hp, h, hb => by
    obtain ⟨hp, hother⟩ := Bool.and_eq_true_iff.1 hp
    obtain ⟨htest, hbody⟩ := Bool.and_eq_true_iff.1 hp
    simp only [Statement.marks, span_cons, span_append, span_nil] at h
    obtain ⟨hread, c, h₁, hsave, hcolon, n, h₂, helse, hbranch, hcolon', m, h₃, hact, rfl⟩ := h
    have hb₁ := test.agrees hc htest h₁ (tr.agrees_read hread hb)
    have hb₂ := tr.agrees_read hcolon (tr.agrees_aside hsave rfl hb₁)
    have hb₃ := tr.agrees_read helse (block_agrees hc body hbody h₂ hb₂)
    have hb₄ := tr.agrees_read hcolon' (tr.agrees_aside hbranch rfl hb₃)
    exact tr.agrees_aside hact rfl (block_agrees hc other hother h₃ hb₄)
  | .loop test body, _, i, j, b, hp, h, hb => by
    obtain ⟨htest, hbody⟩ := Bool.and_eq_true_iff.1 hp
    simp only [Statement.marks, span_cons, span_append, span_nil] at h
    obtain ⟨hread, hbegin, hopen, k, h₁, hclose, hsave, n, h₂, hact, rfl⟩ := h
    have hk : c.keywords.contains loopKeyword = true := hc.keywords ▸ tr.reserved hbegin
    have hb₁ := tr.of_ends hbegin
      ((tr.agrees_read hread hb).startLoop (hc.settled_of hbegin) hk)
    have hb₂ := test.agrees hc htest h₁ (tr.agrees_read hopen hb₁)
    have hb₃ := tr.agrees_aside hsave rfl (tr.agrees_read hclose hb₂)
    have hb₄ := block_agrees hc body hbody h₂ hb₃
    refine tr.of_ends hact (hb₄.endLoop (hc.settled_of hact) hk ?_)
    rw [(block_stays body (b.enter true)).1]
    obtain ⟨_, _, heq⟩ := hb.mirror.exists_cons
    change b.frames ≠ []
    rw [heq]
    exact List.cons_ne_nil _ _

/-- **The states behind a block agree with the bindings behind it.** -/
theorem block_agrees (hc : tr.Clean c) : ∀ (s : List Statement) {inFunction : Bool} {i j : Nat}
    {b : Bindings}, blockIsPlain s inFunction = true → Span w i j (blockMarks s) →
      Agrees b (tr.state i) → Agrees (blockBinds s b) (tr.state j)
  | [], _, i, j, b, _, h, hb => by
    obtain rfl : i = j := h
    exact hb
  | s :: rest, _, i, j, b, hp, h, hb => by
    obtain ⟨hs, hrest⟩ := Bool.and_eq_true_iff.1 hp
    simp only [blockMarks, span_append, span_cons] at h
    obtain ⟨k, h₁, hread, h₂⟩ := h
    exact block_agrees hc rest hrest h₂ (tr.agrees_read hread (Statement.agrees hc s hs h₁ hb))

end

end Binds

end OnePass.Syntax
