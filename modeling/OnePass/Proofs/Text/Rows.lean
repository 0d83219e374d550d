import OnePass.Proofs.Derivation.Preamble
import OnePass.Proofs.Lexical.Lines
import OnePass.Proofs.Lexical.Rescanning
import OnePass.Proofs.Text.Lines
import Mathlib.Data.List.SplitBy

/-!
# The rows of the grouped reports

Entries that come in the order of their lines are grouped into one row for each line. The lexeme of
a token has no newline, so that the rows of the tokens are the lines of their report. A rejected
piece may have one: the front of an unclosed comment is quoted as it stands, and where it goes over
a line its row is broken.

* `splitBy_of_sorted`: what is grouped, if the entries are in order.
* `oneLine_lexeme`, `oneLine_rejection`: where newlines are not.
* `textLines_tokensReport`: **the rows of the tokens,** one for each line that has some.
* `textLines_lexicalReport_iff`: the rows of the rejected pieces are the lines of their report
  just if no quoted piece goes over a line.
-/

namespace OnePass

open Lexical (Token Rejection scan)

section Grouping

variable {entries : List (Nat × String)} {n : Nat}

/-- **The row of a line:** its number, and what is on it with spaces between. -/
def rowOf (n : Nat) (entries : List String) : String := s!"{n}.\t" ++ " ".intercalate entries

/-- The entries that are on a line. -/
def onLine (n : Nat) (entries : List (Nat × String)) : List (Nat × String) :=
  entries.filter fun e => e.1 = n

/-- The entries of the first line of a sorted list stand in front. -/
theorem onLine_of_sorted {others : List (Nat × String)} (hn : ∀ e ∈ entries, e.1 = n)
    (hothers : ∀ e ∈ others, n < e.1) (m : Nat) :
    onLine m (entries ++ others) = if m = n then entries else onLine m others := by
  unfold onLine
  rw [List.filter_append]
  split
  · rename_i hm
    rw [List.filter_eq_self.2 fun e he => by simp [hn e he, hm],
      List.filter_eq_nil_iff.2 fun e he => by simpa [hm] using Nat.ne_of_gt (hothers e he),
      List.append_nil]
  · rename_i hm
    rw [List.filter_eq_nil_iff.2 fun e he => by simpa [hn e he] using Ne.symm hm, List.nil_append]

/-- The front of a sorted list that is on one line, and what is behind it. -/
theorem exists_front {e : Nat × String} {rest : List (Nat × String)}
    (h : (e :: rest).Pairwise fun a b => a.1 ≤ b.1) :
    ∃ front others, e :: rest = e :: front ++ others ∧ (∀ x ∈ e :: front, x.1 = e.1) ∧
      (∀ x ∈ others, e.1 < x.1) := by
  induction rest with
  | nil => exact ⟨[], [], rfl, by simp, by simp⟩
  | cons x rest ih =>
    obtain ⟨hfirst, hrest⟩ := List.pairwise_cons.1 h
    by_cases hx : x.1 = e.1
    · obtain ⟨hx', hrest'⟩ := List.pairwise_cons.1 hrest
      obtain ⟨front, others, heq, hfront, hothers⟩ :=
        ih (List.pairwise_cons.2 ⟨fun y hy => hfirst y (List.mem_cons_of_mem _ hy), hrest'⟩)
      refine ⟨x :: front, others, ?_, ?_, hothers⟩
      · rw [(List.cons.inj heq).2, List.cons_append, List.cons_append]
        rfl
      · intro y hy
        rcases List.mem_cons.1 hy with rfl | hy
        · rfl
        · exact (List.mem_cons.1 hy).elim (fun h => h ▸ hx) fun h =>
            hfront y (List.mem_cons_of_mem _ h)
    · have hlt : e.1 < x.1 := Nat.lt_of_le_of_ne (hfirst x List.mem_cons_self) (Ne.symm hx)
      refine ⟨[], x :: rest, rfl, by simp, fun y hy => ?_⟩
      rcases List.mem_cons.1 hy with rfl | hy
      · exact hlt
      · exact Nat.lt_of_lt_of_le hlt ((List.pairwise_cons.1 hrest).1 y hy)

/-- **What is grouped.** If the entries come in the order of their lines, there is one group for
each line that has some, and it has all of them. -/
theorem splitBy_of_sorted (h : entries.Pairwise fun a b => a.1 ≤ b.1) :
    ∃ numbers : List Nat, numbers.Pairwise (· < ·) ∧ (∀ n, n ∈ numbers ↔ ∃ e ∈ entries, e.1 = n) ∧
      (entries.splitBy fun a b => a.1 == b.1) = numbers.map fun n => onLine n entries := by
  induction hlength : entries.length using Nat.strong_induction_on generalizing entries with
  | _ k ih =>
    cases entries with
    | nil => exact ⟨[], .nil, by simp, rfl⟩
    | cons e rest =>
      obtain ⟨front, others, heq, hfront, hothers⟩ := exists_front h
      rw [heq] at h hlength ⊢
      have hlater : others.Pairwise fun a b => a.1 ≤ b.1 := (List.pairwise_append.1 h).2.1
      obtain ⟨numbers, hsorted, hmem, hgroups⟩ :=
        ih others.length (by simp at hlength; omega) hlater rfl
      have hless : ∀ n ∈ numbers, e.1 < n := by
        intro n hn
        obtain ⟨x, hx, rfl⟩ := (hmem n).1 hn
        exact hothers x hx
      refine ⟨e.1 :: numbers, List.pairwise_cons.2 ⟨hless, hsorted⟩, fun n => ?_, ?_⟩
      · -- a line is the first one, or one of those behind it
        constructor
        · intro hn
          rcases List.mem_cons.1 hn with rfl | hn
          · exact ⟨e, by simp, rfl⟩
          · obtain ⟨x, hx, hxn⟩ := (hmem n).1 hn
            exact ⟨x, List.mem_append_right _ hx, hxn⟩
        · rintro ⟨x, hx, rfl⟩
          rcases List.mem_append.1 hx with hx | hx
          · exact hfront x hx ▸ List.mem_cons_self
          · exact List.mem_cons_of_mem _ ((hmem x.1).2 ⟨x, hx, rfl⟩)
      · -- the first group ends where the line changes
        have hchange : ∀ x ∈ (e :: front).getLast?, ∀ y ∈ others.head?, (x.1 == y.1) = false := by
          intro x hx y hy
          have hxline := hfront x (List.mem_of_getLast? hx)
          have hyline := hothers y (List.mem_of_head? hy)
          simp only [beq_eq_false_iff_ne]
          omega
        have hchain : (e :: front).IsChain fun x y => (x.1 == y.1) = true :=
          List.Pairwise.isChain (List.pairwise_of_forall_mem_list fun x hx y hy => by
            simp [hfront x hx, hfront y hy])
        have hrows : (numbers.map fun n => onLine n (e :: front ++ others)) =
            numbers.map fun n => onLine n others := by
          refine List.map_congr_left fun n hn => ?_
          rw [onLine_of_sorted hfront hothers, if_neg (by have := hless n hn; omega)]
        rw [List.splitBy_append hchange, List.splitBy_of_isChain (by simp) hchain, hgroups,
          List.map_cons, onLine_of_sorted hfront hothers, if_pos rfl, hrows]
        rfl

/-- The row that is written for the entries of a line is the row of the line. -/
theorem lineRow_onLine (h : ∃ e ∈ entries, e.1 = n) :
    lineRow (onLine n entries) = rowOf n ((onLine n entries).map (·.2)) := by
  obtain ⟨e, he, hen⟩ := h
  have hmem : e ∈ onLine n entries := List.mem_filter.2 ⟨he, by simpa using hen⟩
  have hhead : ((onLine n entries).head?.map (·.1)).getD 0 = n := by
    cases hline : onLine n entries with
    | nil => simp [hline] at hmem
    | cons x rest =>
      have hx : x ∈ onLine n entries := by rw [hline]; exact List.mem_cons_self
      simpa using (List.mem_filter.1 hx).2
  rw [lineRow, hhead, rowOf]

theorem oneLine_rowOf {texts : List String} :
    OneLine (rowOf n texts) ↔ ∀ text ∈ texts, OneLine text := by
  have hfront : OneLine (toString n ++ ".\t") := oneLine_append.2 ⟨oneLine_toString n, by decide⟩
  have hrow : rowOf n texts = toString n ++ ".\t" ++ " ".intercalate texts := by
    simp [rowOf, toString]
  rw [hrow, oneLine_append, oneLine_intercalate (by decide)]
  exact ⟨fun h => h.2, fun h => ⟨hfront, h⟩⟩

/-- **The rows of a grouped report** are its lines just if no entry goes over a line. -/
theorem rows_of_grouped (h : entries.Pairwise fun a b => a.1 ≤ b.1) :
    ∃ numbers : List Nat, numbers.Pairwise (· < ·) ∧ (∀ n, n ∈ numbers ↔ ∃ e ∈ entries, e.1 = n) ∧
      (textLines (groupedByLine entries) =
          numbers.map (fun n => rowOf n ((onLine n entries).map (·.2))) ++ [""] ↔
        ∀ e ∈ entries, OneLine e.2) := by
  obtain ⟨numbers, hsorted, hmem, hgroups⟩ := splitBy_of_sorted h
  refine ⟨numbers, hsorted, hmem, ?_⟩
  have hrows : groupedByLine entries =
      unlines (numbers.map fun n => rowOf n ((onLine n entries).map (·.2))) := by
    rw [groupedByLine, hgroups, List.map_map]
    exact congrArg unlines (List.map_congr_left fun n hn => lineRow_onLine ((hmem n).1 hn))
  constructor
  · -- an entry is part of a line of the report, and those are not broken
    intro hlines e he
    have hn := (hmem e.1).2 ⟨e, he, rfl⟩
    have hrow : rowOf e.1 ((onLine e.1 entries).map (·.2)) ∈ textLines (groupedByLine entries) := by
      rw [hlines]
      exact List.mem_append_left _ (List.mem_map_of_mem hn)
    exact oneLine_rowOf.1 (oneLine_of_mem_textLines hrow) e.2
      (List.mem_map_of_mem (List.mem_filter.2 ⟨he, by simp⟩))
  · intro hentries
    rw [hrows]
    refine textLines_unlines fun line hline => ?_
    obtain ⟨n, -, rfl⟩ := List.mem_map.1 hline
    refine oneLine_rowOf.2 fun text htext => ?_
    obtain ⟨e, he, rfl⟩ := List.mem_map.1 htext
    exact hentries e (List.mem_filter.1 he).1

end Grouping

section Lexemes

variable {keywords : List String} {source : String}

open Lexical

/-- What is reported of a text is reported of one of its segments. -/
theorem exists_segment_of_mem_reports {segments : List Segment} {line start : Nat}
    {x : Except Rejection Token} (h : x ∈ reports keywords line start segments) :
    ∃ g ∈ segments, ∃ l s, g.report? keywords l s = some x := by
  induction segments generalizing line start with
  | nil => exact absurd h List.not_mem_nil
  | cons g segments ih =>
    rcases List.mem_append.1 h with h | h
    · exact ⟨g, List.mem_cons_self, line, start, Option.mem_toList.1 h⟩
    · obtain ⟨g', hg', hreport⟩ := ih h
      exact ⟨g', List.mem_cons_of_mem _ hg', hreport⟩

/-- What may be reported: a text of one line, or the front of an unclosed comment. -/
def KeepsLine : Except Rejection Token → Prop
  | .ok t => OneLine t.lexeme
  | .error e => e.fault ≠ .unclosedComment → OneLine e.lexeme

theorem keepsLine_of_report? {g : Segment} {behind : List Char} {line start : Nat}
    {x : Except Rejection Token} (hrule : Rule g.piece g.text behind)
    (h : g.report? keywords line start = some x) : KeepsLine x := by
  obtain ⟨piece, text⟩ := g
  have htext : piece ≠ .skipped → piece ≠ .fault .unclosedComment →
      OneLine (String.ofList text) := by
    intro hskipped hcomment
    rw [OneLine, String.toList_ofList]
    exact newline_not_mem_of_rule hrule hskipped hcomment
  cases piece with
  | skipped => cases h
  | number | word | symbol =>
    cases h
    exact htext (by decide) (by decide)
  | fault cause =>
    cases h
    intro hcause
    have hquoted : Scanner.quoted cause text = String.ofList text := if_neg fun h => hcause h.1
    exact hquoted ▸ htext (by simp) fun h => hcause (Piece.fault.inj h)

theorem keepsLine_of_mem_reports {segments : List Segment} (h : Segmented segments source.toList) :
    ∀ x ∈ reports keywords 1 0 segments, KeepsLine x := by
  intro x hx
  obtain ⟨g, hg, l, s, hreport⟩ := exists_segment_of_mem_reports hx
  obtain ⟨behind, hrule⟩ := h.rule_of_mem g hg
  exact keepsLine_of_report? hrule hreport

/-- **A token is of one line.** -/
theorem oneLine_lexeme {t : Token} (h : t ∈ (scan keywords source).tokens) : OneLine t.lexeme := by
  obtain ⟨segments, hsegmented⟩ := exists_segmented source.toList
  rw [(scan_of_segmented keywords hsegmented).1] at h
  obtain ⟨x, hx, hxt⟩ := List.mem_filterMap.1 h
  match x, hxt with
  | .ok _, rfl => exact keepsLine_of_mem_reports hsegmented _ hx

/-- **So is what is quoted of a rejected piece,** unless that is an unclosed comment. -/
theorem oneLine_rejection {e : Rejection} (h : e ∈ (scan keywords source).errors)
    (hfault : e.fault ≠ .unclosedComment) : OneLine e.lexeme := by
  obtain ⟨segments, hsegmented⟩ := exists_segmented source.toList
  rw [(scan_of_segmented keywords hsegmented).2] at h
  obtain ⟨x, hx, hxe⟩ := List.mem_filterMap.1 h
  match x, hxe with
  | .error _, rfl => exact keepsLine_of_mem_reports hsegmented _ hx hfault

theorem oneLine_display {t : Token} (h : OneLine t.lexeme) : OneLine t.display := by
  have hkind : OneLine t.kind.name := by cases t.kind <;> decide
  have hdisplay : t.display =
      if t.isEndOfInput then "$" else "(" ++ t.kind.name ++ ", " ++ t.lexeme ++ ")" := by
    simp [Token.display, toString]
  rw [hdisplay]
  split
  · decide
  · simp only [oneLine_append]
    exact ⟨⟨⟨⟨by decide, hkind⟩, by decide⟩, h⟩, by decide⟩

theorem oneLine_display_iff (e : Rejection) : OneLine e.display ↔ OneLine e.lexeme := by
  have hfault : OneLine e.fault.name := by cases e.fault <;> decide
  have hdisplay : e.display = "(" ++ e.lexeme ++ ", " ++ e.fault.name ++ ")" := by
    simp [Rejection.display, toString]
  rw [hdisplay]
  simp only [oneLine_append]
  exact ⟨fun h => h.1.1.1.2, fun h => ⟨⟨⟨⟨by decide, h⟩, by decide⟩, hfault⟩, by decide⟩⟩

end Lexemes

section Reports

variable {c : Config} {source : String} {r : Compilation}

/-- **The rows of the tokens.** The report of the tokens has one line for each line of the text that
has a token, in their order, with all tokens of that line. -/
theorem textLines_tokensReport (h : compile c source = .ok r) :
    ∃ numbers : List Nat, numbers.Pairwise (· < ·) ∧
      (∀ n, n ∈ numbers ↔ ∃ t ∈ r.tokens, t.line = n) ∧
      textLines r.tokensReport = numbers.map (fun n =>
        rowOf n ((r.tokens.filter fun t => t.line = n).map Token.display)) ++ [""] := by
  have htokens := (scan_of_compile h).1
  have hlater : (r.tokens.map fun t => (t.line, t.display)).Pairwise fun a b => a.1 ≤ b.1 := by
    rw [List.pairwise_map, htokens]
    exact List.pairwise_map.1 (Lexical.pairwise_tokens _ _)
  obtain ⟨numbers, hsorted, hmem, hrows⟩ := rows_of_grouped hlater
  refine ⟨numbers, hsorted, by simpa using hmem, ?_⟩
  have hlines := hrows.2 fun e he => by
    obtain ⟨t, ht, rfl⟩ := List.mem_map.1 he
    rw [htokens] at ht
    exact oneLine_display (oneLine_lexeme ht)
  rw [Compilation.tokensReport, hlines]
  simp [onLine, List.filter_map, Function.comp_def]

/-- **The rows of the rejected pieces** are the lines of their report just if no quoted piece goes
over a line; only an unclosed comment can. -/
theorem textLines_lexicalReport_iff (h : compile c source = .ok r) (hne : r.lexicalErrors ≠ []) :
    ∃ numbers : List Nat, numbers.Pairwise (· < ·) ∧
      (∀ n, n ∈ numbers ↔ ∃ e ∈ r.lexicalErrors, e.line = n) ∧
      (textLines r.lexicalReport = numbers.map (fun n =>
          rowOf n ((r.lexicalErrors.filter fun e => e.line = n).map Rejection.display)) ++ [""] ↔
        ∀ e ∈ r.lexicalErrors, e.fault = .unclosedComment → OneLine e.lexeme) := by
  have herrors := (scan_of_compile h).2
  have hlater : (r.lexicalErrors.map fun e => (e.line, e.display)).Pairwise
      fun a b => a.1 ≤ b.1 := by
    rw [List.pairwise_map, herrors]
    exact List.pairwise_map.1 (Lexical.pairwise_errors _ _)
  obtain ⟨numbers, hsorted, hmem, hrows⟩ := rows_of_grouped hlater
  refine ⟨numbers, hsorted, by simpa using hmem, ?_⟩
  have hreport : r.lexicalReport =
      groupedByLine (r.lexicalErrors.map fun e => (e.line, e.display)) :=
    if_neg (by simpa using hne)
  have hdisplay : (∀ x ∈ r.lexicalErrors.map fun e => (e.line, e.display), OneLine x.2) ↔
      ∀ e ∈ r.lexicalErrors, e.fault = .unclosedComment → OneLine e.lexeme := by
    rw [List.forall_mem_map]
    refine forall₂_congr fun e he => ?_
    rw [oneLine_display_iff]
    refine ⟨fun h _ => h, fun h => ?_⟩
    by_cases hfault : e.fault = .unclosedComment
    · exact h hfault
    · rw [herrors] at he
      exact oneLine_rejection he hfault
  rw [← hdisplay, ← hrows, hreport]
  simp [onLine, List.filter_map, Function.comp_def]

/-- A comment that is never closed and goes over a line. -/
example : (scan [] "/*\nx").errors.map Rejection.display = ["(/*\nx, Unclosed comment)"] := by
  decide +kernel

end Reports

end OnePass
