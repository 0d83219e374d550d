import OnePass.Proofs.Names.Usable
import OnePass.Proofs.Syntax.Compiling

/-!
# The record of the loops as a stack of frames

All loops share one record: two flat lists of slots, and marks for how long these were when a loop
began. Whatever the record is asked for and in whatever order, even where no loop is open, it is
a stack of frames, one for each loop that has begun and not ended, and the marks cut the lists
where one frame ends and the next one begins.

* `Request`, `after`, `answers`: what the record is asked for, and what it answers.
* `Frames`: the stack. `Frames.record`: its frames behind one another, in flat lists with marks.
* `Frames.record_after`, `Frames.leave?_record`: the record does what the stack does.
* `AllEnded`, `Innermost`: which loops are open, told from the requests alone.
* `Since`: requests behind the beginning of a loop, in which no other one is open. `Since.run`: what
  they do to a record.
* `Laid`: which requests the frames go back to.
* `nests_of_requests`: **the end of a loop takes what waits for it and nothing else.**
-/

namespace OnePass.Syntax

theorem Waiting.append_assoc (a b c : Waiting) : (a.append b).append c = a.append (b.append c) :=
  funext fun _ => List.append_assoc _ _ _

end OnePass.Syntax

namespace OnePass.Names

open Syntax (Exit Waiting)

/-- The slots that a loop hands over, for each way out. -/
def ClosedLoop.waiting (closed : ClosedLoop) : Waiting
  | .breaks => closed.breaks
  | .continues => closed.continues

@[simp] theorem ClosedLoop.waiting_mk (start : Nat) (waiting : Waiting) :
    ClosedLoop.waiting ⟨start, waiting .breaks, waiting .continues⟩ = waiting := by
  funext exit
  cases exit <;> rfl

namespace LoopRecord

section Requests

/-- **What the record of the loops is asked for:** a loop begins, a jump out of a turn is added to
those that wait, or the innermost loop ends. -/
inductive Request where
  | enter (start : Nat)
  | add (exit : Exit) (slot : Nat)
  | leave
deriving DecidableEq

/-- The record behind a request. The end of a loop leaves it alone if none is open. -/
def after (l : LoopRecord) : Request → LoopRecord
  | .enter start => l.enter start
  | .add exit slot => exit.add l slot
  | .leave => (l.leave?.map Prod.snd).getD l

/-- What is answered: the end of a loop gets what it has to fill in, if a loop is open. -/
def answer? (l : LoopRecord) : Request → Option ClosedLoop
  | .leave => l.leave?.map Prod.fst
  | _ => none

/-- All that is answered to requests, one behind the other. -/
def answers (l : LoopRecord) : List Request → List ClosedLoop
  | [] => []
  | r :: rest => (l.answer? r).toList ++ (l.after r).answers rest

/-- The record behind requests, before which no loop had begun. -/
def recordOf (requests : List Request) : LoopRecord := requests.foldl after .empty

variable {l outer : LoopRecord} {closed : ClosedLoop}

theorem after_leave (h : l.leave? = some (closed, outer)) : l.after .leave = outer := by
  rw [after, h]
  rfl

theorem answer?_leave (h : l.leave? = some (closed, outer)) : l.answer? .leave = some closed := by
  rw [answer?, h]
  rfl

theorem recordOf_append (requests tail : List Request) :
    recordOf (requests ++ tail) = tail.foldl after (recordOf requests) :=
  List.foldl_append

theorem Marked.after (h : l.Marked) (r : Request) : (l.after r).Marked := by
  cases r with
  | enter start => exact h.enter start
  | add exit slot =>
    cases exit with
    | breaks => exact h.addBreak slot
    | continues => exact h.addContinue slot
  | leave =>
    cases hl : l.leave? with
    | none =>
      rw [LoopRecord.after, hl]
      exact h
    | some p =>
      rw [after_leave hl]
      exact h.leave hl

/-- Along any requests the marks lie within the lists that they cut. -/
theorem marked_recordOf (requests : List Request) : (recordOf requests).Marked := by
  have hmarked : ∀ l : LoopRecord, l.Marked → (requests.foldl LoopRecord.after l).Marked := by
    induction requests with
    | nil => exact fun _ h => h
    | cons r requests ih => exact fun l h => ih (l.after r) (h.after r)
  exact hmarked _ marked_empty

end Requests

/-- **A stack of frames:** for each loop that is open its first slot and what waits for its end. At
the bottom is what has been added while no loop was open. -/
inductive Frames where
  | bottom (waiting : Waiting)
  | loop (start : Nat) (waiting : Waiting) (outer : Frames)

namespace Frames

/-- More waits in the topmost frame. -/
def await (more : Waiting) : Frames → Frames
  | bottom waiting => bottom (waiting.append more)
  | loop start waiting outer => loop start (waiting.append more) outer

/-- The topmost frame is taken off, if it is a loop's. -/
def leave? : Frames → Option (ClosedLoop × Frames)
  | bottom _ => none
  | loop start waiting outer => some (⟨start, waiting .breaks, waiting .continues⟩, outer)

def after (f : Frames) : Request → Frames
  | .enter start => loop start .none f
  | .add exit slot => f.await (.one exit slot)
  | .leave => (f.leave?.map Prod.snd).getD f

/-- The slots of all frames, from the bottom to the top. -/
def slots (exit : Exit) : Frames → List Nat
  | bottom waiting => waiting exit
  | loop _ waiting outer => outer.slots exit ++ waiting exit

def starts : Frames → List Nat
  | bottom _ => []
  | loop start _ outer => start :: outer.starts

/-- How many slots lie below the frame of each loop, the innermost first. -/
def marks (exit : Exit) : Frames → List Nat
  | bottom _ => []
  | loop _ _ outer => (outer.slots exit).length :: outer.marks exit

/-- **The frames in flat lists,** with marks between them. -/
def record (f : Frames) : LoopRecord where
  breaks := f.slots .breaks
  continues := f.slots .continues
  starts := f.starts
  breakMarks := f.marks .breaks
  continueMarks := f.marks .continues

@[simp] theorem await_none (f : Frames) : f.await .none = f := by cases f <;> simp [await]

theorem slots_await (f : Frames) (more : Waiting) (exit : Exit) :
    (f.await more).slots exit = f.slots exit ++ more exit := by
  cases f <;> simp [await, slots, Waiting.append]

theorem record_await (f : Frames) (more : Waiting) :
    (f.await more).record = Syntax.awaiting f.record more := by
  have hstarts : (f.await more).starts = f.starts := by cases f <;> rfl
  have hmarks : ∀ exit, (f.await more).marks exit = f.marks exit := by cases f <;> exact fun _ => rfl
  simp [record, Syntax.awaiting, slots_await, hstarts, hmarks]

theorem record_loop (start : Nat) (waiting : Waiting) (outer : Frames) :
    (loop start waiting outer).record = Syntax.awaiting (outer.record.enter start) waiting := rfl

/-- **The end of a loop** takes the topmost frame out of the flat lists, and leaves the others. -/
theorem leave?_record (f : Frames) : f.record.leave? = f.leave?.map (Prod.map id record) := by
  cases f with
  | bottom waiting => rfl
  | loop start waiting outer =>
    rw [record_loop, Syntax.leave?_awaiting]
    rfl

/-- **The record does what the stack does.** -/
theorem record_after (f : Frames) (r : Request) : (f.after r).record = f.record.after r := by
  cases r with
  | enter start => rw [after, record_loop, Syntax.awaiting_none, LoopRecord.after]
  | add exit slot => rw [after, record_await, Syntax.awaiting_one, LoopRecord.after]
  | leave =>
    rw [after, LoopRecord.after, leave?_record]
    cases f <;> rfl

/-- The frames behind requests, before which there was none. -/
def ofRequests (requests : List Request) : Frames := requests.foldl after (bottom .none)

theorem ofRequests_concat (requests : List Request) (r : Request) :
    ofRequests (requests ++ [r]) = (ofRequests requests).after r :=
  List.foldl_concat ..

/-- **Along any requests the record is the stack,** in flat lists. -/
theorem record_ofRequests (requests : List Request) :
    (ofRequests requests).record = recordOf requests := by
  have hrun : ∀ f : Frames, (requests.foldl after f).record =
      requests.foldl LoopRecord.after f.record := by
    induction requests with
    | nil => exact fun _ => rfl
    | cons r requests ih =>
      intro f
      rw [List.foldl_cons, List.foldl_cons, ih, record_after]
  exact hrun _

end Frames

section Nesting

/-- **Whether a loop ends** in the requests behind its beginning, where `depth` more have begun in it
and are still open. An end is that of the loop that has begun last. -/
def ended : Nat → List Request → Bool
  | _, [] => false
  | depth, .enter _ :: rest => ended (depth + 1) rest
  | depth, .add _ _ :: rest => ended depth rest
  | 0, .leave :: _ => true
  | depth + 1, .leave :: rest => ended depth rest

/-- Every loop that begins in these requests ends in them. -/
def AllEnded (requests : List Request) : Prop :=
  ∀ (before : List Request) (start : Nat) (since : List Request),
    requests = before ++ .enter start :: since → ended 0 since = true

/-- **The innermost loop that is open:** it has not ended, but all that have begun in it have. -/
structure Innermost (requests before : List Request) (start : Nat) (since : List Request) :
    Prop where
  split : requests = before ++ .enter start :: since
  unended : ended 0 since = false
  within : AllEnded since

/-- All slots that are added, for each way out. -/
def added : List Request → Waiting
  | [] => .none
  | .add exit slot :: rest => (Waiting.one exit slot).append (added rest)
  | _ :: rest => added rest

/-- **Requests behind the beginning of a loop,** in which the loops that begin end and no other one
does. Slots that are added outside of these loops wait, and the end of each loop is answered
with those that waited for it. -/
inductive Since : List Request → Waiting → List ClosedLoop → Prop
  | nil : Since [] .none []
  | add {rest : List Request} {waiting : Waiting} {closed : List ClosedLoop} (exit : Exit)
      (slot : Nat) (h : Since rest waiting closed) :
      Since (.add exit slot :: rest) ((Waiting.one exit slot).append waiting) closed
  | loop {inner rest : List Request} {within waiting : Waiting} {closed closed' : List ClosedLoop}
      (start : Nat) (h : Since inner within closed) (h' : Since rest waiting closed') :
      Since (.enter start :: (inner ++ .leave :: rest)) waiting
        (closed ++ ⟨start, within .breaks, within .continues⟩ :: closed')

variable {requests tail since : List Request} {waiting waiting' : Waiting}
  {closed closed' : List ClosedLoop} {f : Frames}

theorem ended_append (depth : Nat) (h : ended depth requests = true) (tail : List Request) :
    ended depth (requests ++ tail) = true := by
  fun_induction ended depth requests with
  | case1 => cases h
  | case2 depth _ rest ih | case3 depth _ _ rest ih | case5 depth rest ih => exact ih h
  | case4 => rfl

theorem allEnded_nil : AllEnded [] := by
  intro before start since h
  exact absurd h (by simp)

theorem allEnded_cons {r : Request} :
    AllEnded (r :: requests) ↔
      (∀ start, r = .enter start → ended 0 requests = true) ∧ AllEnded requests := by
  constructor
  · intro h
    refine ⟨fun start hr => h [] start requests (by rw [hr]; rfl), fun before start since hs => ?_⟩
    exact h (r :: before) start since (by rw [hs]; rfl)
  · rintro ⟨hr, h⟩ before start since hs
    cases before with
    | nil =>
      obtain ⟨rfl, rfl⟩ := List.cons.inj hs
      exact hr start rfl
    | cons r' before => exact h before start since (List.cons.inj hs).2

theorem AllEnded.append (h : AllEnded requests) (h' : AllEnded tail) :
    AllEnded (requests ++ tail) := by
  induction requests with
  | nil => exact h'
  | cons r requests ih =>
    rw [allEnded_cons] at h
    rw [List.cons_append, allEnded_cons]
    exact ⟨fun start hr => ended_append 0 (h.1 start hr) tail, ih h.2⟩

theorem added_append (requests tail : List Request) :
    added (requests ++ tail) = (added requests).append (added tail) := by
  fun_induction added requests with
  | case1 => rfl
  | case2 exit slot rest ih => rw [List.cons_append, added, ih, Waiting.append_assoc]
  | case3 r rest hr ih =>
    rw [List.cons_append, added, ih]
    exact hr

theorem added_loop (inner rest : List Request) (start : Nat) :
    added (.enter start :: (inner ++ .leave :: rest)) = (added inner).append (added rest) := by
  rw [added, added_append, added] <;> nofun

theorem answers_append (l : LoopRecord) (requests tail : List Request) :
    l.answers (requests ++ tail) =
      l.answers requests ++ (requests.foldl after l).answers tail := by
  induction requests generalizing l with
  | nil => rfl
  | cons r requests ih =>
    rw [List.cons_append, answers, answers, ih, List.append_assoc, List.foldl_cons]

namespace Since

theorem append (h : Since requests waiting closed) (h' : Since tail waiting' closed') :
    Since (requests ++ tail) (waiting.append waiting') (closed ++ closed') := by
  induction h with
  | nil => exact h'
  | add exit slot _ ih =>
    rw [Waiting.append_assoc]
    exact ih.add exit slot
  | loop start hinner _ _ ih =>
    simp only [List.cons_append, List.append_assoc]
    exact hinner.loop start ih

/-- **They end no loop around them:** whether one ends is told from what comes next. -/
theorem ended_append (h : Since requests waiting closed) (depth : Nat) (tail : List Request) :
    ended depth (requests ++ tail) = ended depth tail := by
  induction h generalizing depth tail with
  | nil => rfl
  | add exit slot _ ih => exact ih depth tail
  | loop start _ _ ihinner ih =>
    rw [List.cons_append, List.append_assoc, ended, ihinner]
    exact ih depth tail

theorem unended (h : Since requests waiting closed) : ended 0 requests = false := by
  rw [← List.append_nil requests, h.ended_append]
  rfl

theorem allEnded (h : Since requests waiting closed) : AllEnded requests := by
  induction h with
  | nil => exact allEnded_nil
  | add exit slot _ ih => exact allEnded_cons.2 ⟨nofun, ih⟩
  | loop start hinner _ ihinner ih =>
    refine allEnded_cons.2 ⟨fun _ _ => ?_, ihinner.append (allEnded_cons.2 ⟨nofun, ih⟩)⟩
    rw [hinner.ended_append]
    rfl

/-- **What they do to a record:** their slots wait, and all else is as it was. -/
theorem run (h : Since requests waiting closed) (l : LoopRecord) :
    requests.foldl after l = Syntax.awaiting l waiting ∧ l.answers requests = closed := by
  induction h generalizing l with
  | nil => exact ⟨(Syntax.awaiting_none l).symm, rfl⟩
  | add exit slot _ ih =>
    obtain ⟨hrun, hanswers⟩ := ih (exit.add l slot)
    refine ⟨?_, hanswers⟩
    rw [Syntax.awaiting_append, Syntax.awaiting_one]
    exact hrun
  | @loop inner rest within _ _ _ start _ _ ihinner ih =>
    obtain ⟨hinner, hanswers⟩ := ihinner (l.enter start)
    obtain ⟨hrun, hanswers'⟩ := ih l
    -- the end of the loop finds the record as its beginning left it, with its own slots behind
    have hleave : (inner.foldl after (l.enter start)).leave? =
        some (⟨start, within .breaks, within .continues⟩, l) := by
      rw [hinner, Syntax.leave?_awaiting]
    constructor
    · rw [List.foldl_cons, List.foldl_append, List.foldl_cons, after, after_leave hleave, hrun]
    · rw [answers, after, answers_append, hanswers, answers, answer?_leave hleave,
        after_leave hleave, hanswers']
      rfl

/-- What waits was added, in this order. -/
theorem sublist (h : Since requests waiting closed) (exit : Exit) :
    (waiting exit).Sublist (added requests exit) := by
  induction h with
  | nil => exact .refl _
  | add _ _ _ ih => exact ih.append_left _
  | loop start _ _ _ ih =>
    rw [added_loop]
    exact ih.trans (List.sublist_append_right _ _)

/-- **Every slot that was added** waits, or the end of a loop has been answered with it. -/
theorem perm (h : Since requests waiting closed) (exit : Exit) :
    (added requests exit).Perm (waiting exit ++ closed.flatMap (·.waiting exit)) := by
  induction h with
  | nil => exact .refl _
  | add _ _ _ ih =>
    rw [added, Waiting.append, Waiting.append, List.append_assoc]
    exact ih.append_left _
  | @loop inner rest within waiting closed closed' start _ _ ihinner ih =>
    rw [added_loop, Waiting.append, List.flatMap_append, List.flatMap_cons,
      ClosedLoop.waiting_mk, List.perm_iff_count]
    intro slot
    have hinner := ihinner.count_eq slot
    have hrest := ih.count_eq slot
    simp only [List.count_append] at hinner hrest ⊢
    omega

end Since

/-- **What frames go back to:** each is there for a loop that has begun and not ended, and keeps what
has been added since. -/
inductive Laid : List Request → Frames → Prop
  | bottom {requests : List Request} {waiting : Waiting} (h : AllEnded requests) :
      Laid requests (.bottom waiting)
  | loop {before since : List Request} {waiting : Waiting} {closed : List ClosedLoop} {f : Frames}
      (start : Nat) (h : Laid before f) (h' : Since since waiting closed) :
      Laid (before ++ .enter start :: since) (.loop start waiting f)

theorem Laid.append (h : Laid requests f) (h' : Since tail waiting closed) :
    Laid (requests ++ tail) (f.await waiting) := by
  cases h with
  | bottom h => exact .bottom (h.append h'.allEnded)
  | loop start h hs =>
    rw [List.append_assoc, List.cons_append]
    exact h.loop start (hs.append h')

/-- **The frames behind any requests** go back to them. -/
theorem laid_ofRequests (requests : List Request) : Laid requests (Frames.ofRequests requests) := by
  induction requests using List.reverseRecOn with
  | nil => exact .bottom allEnded_nil
  | append_singleton requests r ih =>
    rw [Frames.ofRequests_concat]
    cases r with
    | enter start => exact ih.loop start .nil
    | add exit slot =>
      have hframes := ih.append (.add exit slot .nil)
      rwa [Waiting.append_none] at hframes
    | leave =>
      generalize Frames.ofRequests requests = f at ih
      cases ih with
      | bottom h => exact .bottom (h.append (allEnded_cons.2 ⟨nofun, allEnded_nil⟩))
      | loop start h hs =>
        -- the whole loop has ended, which leaves the frames behind what came before it
        have hframes := h.append (hs.loop start .nil)
        rw [Frames.await_none] at hframes
        rw [List.append_assoc]
        exact hframes

/-- **A loop that has not ended is ended:** the answer is what waits since it began, and the record
is the one that it was entered in. -/
theorem leave?_since (h : Since since waiting closed) (before : List Request) (start : Nat) :
    (recordOf (before ++ .enter start :: since)).leave? =
        some (⟨start, waiting .breaks, waiting .continues⟩, recordOf before) ∧
      (recordOf (before ++ [.enter start])).answers since = closed := by
  obtain ⟨hrun, hanswers⟩ := h.run ((recordOf before).enter start)
  have hentered : recordOf (before ++ [.enter start]) = (recordOf before).enter start :=
    recordOf_append before [.enter start]
  constructor
  · rw [List.append_cons, recordOf_append, hentered, hrun, Syntax.leave?_awaiting]
  · rw [hentered, hanswers]

/-- **Every loop has ended, or one is the innermost that has not.** -/
theorem allEnded_or_since (requests : List Request) :
    (AllEnded requests ∧ (recordOf requests).leave? = none) ∨
      ∃ before start since waiting closed,
        requests = before ++ .enter start :: since ∧ Since since waiting closed := by
  have hlaid := laid_ofRequests requests
  have hleave := (Frames.ofRequests requests).leave?_record
  rw [Frames.record_ofRequests] at hleave
  generalize Frames.ofRequests requests = f at hlaid hleave
  cases hlaid with
  | bottom h => exact .inl ⟨h, hleave⟩
  | loop start _ hs => exact .inr ⟨_, start, _, _, _, rfl, hs⟩

/-- **An end is refused** exactly where every loop has ended. -/
theorem leave?_eq_none_iff : (recordOf requests).leave? = none ↔ AllEnded requests := by
  rcases allEnded_or_since requests with ⟨h, hnone⟩ | ⟨before, start, since, _, _, rfl, hs⟩
  · exact ⟨fun _ => h, fun _ => hnone⟩
  · rw [(leave?_since hs before start).1]
    refine ⟨nofun, fun h => ?_⟩
    have hended := h before start since rfl
    rw [hs.unended] at hended
    cases hended

/-- **The answer to the end of a loop:** of the slots that were added since the loop began, in this
order, all but those that the ends of loops within it have been answered with. -/
structure Answers (closed : ClosedLoop) (since : List Request) (inner : List ClosedLoop) :
    Prop where
  nested : Since since closed.waiting inner
  ordered : ∀ exit, (closed.waiting exit).Sublist (added since exit)
  shared : ∀ exit, (added since exit).Perm
    (closed.waiting exit ++ inner.flatMap (·.waiting exit))

/-- **An end is that of the innermost loop that is open,** and what was there before this loop began
is there again. -/
theorem leave?_eq_some_iff {outer : LoopRecord} {closed : ClosedLoop} :
    (recordOf requests).leave? = some (closed, outer) ↔
      ∃ before since, Innermost requests before closed.start since ∧
        Answers closed since ((recordOf (before ++ [.enter closed.start])).answers since) ∧
        outer = recordOf before := by
  constructor
  · intro h
    rcases allEnded_or_since requests with
      ⟨-, hnone⟩ | ⟨before, start, since, waiting, _, hsplit, hs⟩
    · rw [hnone] at h
      cases h
    · obtain ⟨hleave, hanswers⟩ := leave?_since hs before start
      rw [← hsplit, h] at hleave
      cases hleave
      rw [← ClosedLoop.waiting_mk start waiting] at hs
      refine ⟨before, since, ⟨hsplit, hs.unended, hs.allEnded⟩, ?_, rfl⟩
      rw [hanswers]
      exact ⟨hs, hs.sublist, hs.perm⟩
  · rintro ⟨before, since, hin, hanswers, rfl⟩
    rw [hin.split, (leave?_since hanswers.nested before closed.start).1]
    rfl

/-- **Loops nest,** though they share one record. -/
structure Nests (requests : List Request) : Prop where
  /-- The record is the stack of the open loops' frames, in flat lists. -/
  frames : recordOf requests = (Frames.ofRequests requests).record
  /-- An end is answered with the topmost frame, and the frames below stay. -/
  leave : (recordOf requests).leave? =
    (Frames.ofRequests requests).leave?.map (Prod.map id Frames.record)
  /-- It is refused exactly where every loop has ended. -/
  refused : (recordOf requests).leave? = none ↔ AllEnded requests
  /-- Otherwise it ends the innermost loop that is open, and leaves what was there before that. -/
  closed : ∀ closed outer, (recordOf requests).leave? = some (closed, outer) ↔
    ∃ before since, Innermost requests before closed.start since ∧
      Answers closed since ((recordOf (before ++ [.enter closed.start])).answers since) ∧
      outer = recordOf before
  /-- The marks are as many as the open loops, and lie within the lists. -/
  marked : (recordOf requests).Marked

/-- **Whatever the record of the loops is asked for,** loops nest in it. -/
theorem nests_of_requests (requests : List Request) : Nests requests where
  frames := (Frames.record_ofRequests requests).symm
  leave := by rw [← Frames.record_ofRequests, Frames.leave?_record]
  refused := leave?_eq_none_iff
  closed _ _ := leave?_eq_some_iff
  marked := marked_recordOf requests

/-- The inner loop has ended and taken its two slots, one waits for the outer loop, and one was added
before any loop began. -/
example :
    (recordOf [.add .breaks 1, .enter 2, .add .breaks 5, .enter 7, .add .breaks 9,
      .add .continues 10, .leave]).leave? = some (⟨2, [5], []⟩, recordOf [.add .breaks 1]) := by
  decide

end Nesting

end LoopRecord

end OnePass.Names
