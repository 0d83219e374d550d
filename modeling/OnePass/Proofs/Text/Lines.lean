import OnePass.Report

/-!
# The lines of a text

A text is cut at its newlines. What was written line by line is read back, with an empty line
behind the last newline, as long as no line has a newline of its own.

* `textLines`: the lines of a text. `oneLine_of_mem_textLines`: none of them is broken.
* `textLines_unlines`: the lines of a text written line by line.
-/

namespace OnePass

/-- **The lines of a text:** what stands before, between and behind its newlines. -/
def textLines (text : String) : List String := (text.toList.splitOn '\n').map String.ofList

/-- A text without a newline. -/
def OneLine (text : String) : Prop := '\n' ∉ text.toList

instance (text : String) : Decidable (OneLine text) :=
  inferInstanceAs (Decidable ('\n' ∉ text.toList))

variable {a b : String} {lines others : List String}

@[simp] theorem oneLine_append : OneLine (a ++ b) ↔ OneLine a ∧ OneLine b := by
  unfold OneLine
  rw [String.toList_append, List.mem_append, not_or]

theorem oneLine_intercalate (ha : OneLine a) :
    OneLine (a.intercalate lines) ↔ ∀ line ∈ lines, OneLine line := by
  induction lines with
  | nil => simp [OneLine]
  | cons line lines ih =>
    by_cases hlines : lines = []
    · simp [hlines]
    · rw [String.intercalate_cons_of_ne_nil hlines, oneLine_append, oneLine_append, ih,
        List.forall_mem_cons]
      exact ⟨fun h => ⟨h.1.1, h.2⟩, fun h => ⟨⟨h.1, ha⟩, h.2⟩⟩

theorem oneLine_toString (n : Nat) : OneLine (toString n) := by
  unfold OneLine
  rw [Nat.toString_eq_ofList_toDigits, String.toList_ofList]
  intro h
  exact absurd (Nat.isDigit_of_mem_toDigits (by decide) (by decide) h) (by decide)

/-- No line of a text has a newline of its own. -/
theorem oneLine_of_mem_textLines {text line : String} (h : line ∈ textLines text) :
    OneLine line := by
  obtain ⟨piece, hpiece, rfl⟩ := List.mem_map.1 h
  unfold OneLine
  rw [String.toList_ofList]
  generalize text.toList = chars at hpiece
  clear h
  induction chars generalizing piece with
  | nil => simp_all
  | cons c chars ih =>
    rw [List.splitOn_cons_eq_if_modifyHead] at hpiece
    by_cases hc : c = '\n'
    · rw [if_pos (by simpa using hc)] at hpiece
      rcases List.mem_cons.1 hpiece with rfl | hpiece
      · exact List.not_mem_nil
      · exact ih piece hpiece
    · rw [if_neg (by simpa using hc)] at hpiece
      cases hsplit : chars.splitOn '\n' with
      | nil => simp [hsplit] at hpiece
      | cons first others =>
        rw [hsplit, List.modifyHead_cons] at hpiece
        rcases List.mem_cons.1 hpiece with rfl | hpiece
        · refine fun hmem => (List.mem_cons.1 hmem).elim (fun h => hc h.symm) ?_
          exact ih first (by rw [hsplit]; exact List.mem_cons_self)
        · exact ih piece (by rw [hsplit]; exact List.mem_cons_of_mem _ hpiece)

theorem unlines_cons (line : String) (lines : List String) :
    unlines (line :: lines) = line ++ "\n" ++ unlines lines := by
  simp [unlines, String.join_cons]

/-- A text written line by line has a newline between any two of its lines, and a last line that
is empty. -/
theorem toList_unlines (lines : List String) :
    (unlines lines).toList = ['\n'].intercalate (lines.map String.toList ++ [[]]) := by
  induction lines with
  | nil => rfl
  | cons line lines ih =>
    rw [unlines_cons, String.toList_append, String.toList_append, ih, List.map_cons,
      List.cons_append, List.intercalate_cons_of_ne_nil (by simp)]
    simp

/-- **What is written line by line is read back,** if no line is broken. -/
theorem textLines_unlines (h : ∀ line ∈ lines, OneLine line) :
    textLines (unlines lines) = lines ++ [""] := by
  have hpieces : ∀ piece ∈ lines.map String.toList ++ [[]], '\n' ∉ piece := by
    intro piece hpiece
    rcases List.mem_append.1 hpiece with hpiece | hpiece
    · obtain ⟨line, hline, rfl⟩ := List.mem_map.1 hpiece
      exact h line hline
    · rw [List.mem_singleton.1 hpiece]
      exact List.not_mem_nil
  rw [textLines, toList_unlines, List.splitOn_intercalate _ hpieces (by simp)]
  simp [Function.comp_def]

theorem eq_of_unlines_eq (h : ∀ line ∈ lines, OneLine line) (h' : ∀ line ∈ others, OneLine line)
    (heq : unlines lines = unlines others) : lines = others := by
  have hlines := congrArg textLines heq
  rw [textLines_unlines h, textLines_unlines h'] at hlines
  exact List.append_cancel_right hlines

end OnePass
