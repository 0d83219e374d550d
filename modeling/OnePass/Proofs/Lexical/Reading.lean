import OnePass.Lexical.Reader
import OnePass.Proofs.Lexical.Calls

/-!
# The reader never goes astray

A reader and a scanner go over a text side by side. The bytes that a reader stands at, moves
back to and cuts between all lie where a character begins, it never goes back further than it
has come, and every loop takes text off. So it reads what the scanner does.

* `Reader.Reads`: a reader at the place of a scanner.
* `exists_place`, `slice_eq`: where a text is parted, it can be cut.
* `Reads.advance`, `Reads.drive`, `Reads.weigh`, …: each step of the one is that of the other.
* `Reads.pull`: both come to the same token.
-/

namespace OnePass.Lexical

theorem utf8ByteSize_ofList (text : List Char) :
    (String.ofList text).utf8ByteSize = byteLength text := by
  induction text with
  | nil => rfl
  | cons c text ih =>
    rw [String.ofList_cons, String.utf8ByteSize_append, ih, String.utf8ByteSize_singleton]
    rfl

/-- **A reader at the place of a scanner.** What the scanner has ahead is the text behind the
reader's byte. -/
structure Reader.Reads (r : Reader) (s : Scanner) : Prop where
  keywords : r.keywords = s.keywords
  source : ∃ front, r.source = String.ofList (front ++ s.ahead) ∧ byteLength front = s.offset
  cursor : r.cursor = s.offset
  line : r.line = s.line
  tokens : r.tokens = s.tokens
  errors : r.errors = s.errors

namespace Reader

variable {r r' : Reader} {s s' : Scanner}

section Places

variable {front back piece : List Char} {offset : Nat}

/-- **Where a text is parted, a character begins.** -/
theorem exists_place (h : r.source = String.ofList (front ++ back))
    (ho : byteLength front = offset) : ∃ p : r.source.Pos, r.place offset = .ok p ∧
      p.Splits (String.ofList front) (String.ofList back) := by
  have happend : r.source = String.ofList front ++ String.ofList back := by
    rw [h, String.ofList_append]
  have hraw : (⟨offset⟩ : String.Pos.Raw) = (String.ofList front).rawEndPos := by
    rw [String.rawEndPos, utf8ByteSize_ofList, ho]
  have hvalid : (String.Pos.Raw.mk offset).IsValid r.source :=
    String.Pos.Raw.isValid_iff_exists_append.2 ⟨_, _, happend, hraw⟩
  refine ⟨r.source.pos ⟨offset⟩ hvalid, ?_, happend, hraw⟩
  rw [place, dif_pos hvalid]

/-- The character that begins there is the first one behind. -/
theorem get?_of_splits {p : r.source.Pos} (h : p.Splits (String.ofList front) (String.ofList back)) :
    p.get? = back.head? := by
  cases back with
  | nil => exact String.Pos.get?_eq_none_iff.2 (h.eq_endPos_iff.2 rfl)
  | cons c rest =>
    rw [String.ofList_cons] at h
    have hne := h.ne_endPos_of_singleton
    obtain ⟨others, hothers⟩ := h.exists_eq_singleton_append hne
    have hchars := congrArg String.toList hothers
    simp only [String.toList_append, String.toList_singleton, List.cons_append, List.nil_append,
      List.cons.injEq] at hchars
    rw [String.Pos.get?_eq_some_get hne, ← hchars.1]
    rfl

/-- **What lies between two such places is cut out.** -/
theorem slice_eq (h : r.source = String.ofList (front ++ (piece ++ back))) :
    r.slice (byteLength front) (byteLength front + byteLength piece) =
      .ok (String.ofList piece) := by
  obtain ⟨p, hp, hpsplits⟩ := exists_place h rfl
  have hbehind : r.source = String.ofList ((front ++ piece) ++ back) := by
    rw [h, List.append_assoc]
  obtain ⟨q, hq, hqsplits⟩ := exists_place hbehind (byteLength_append front piece)
  rw [String.ofList_append] at hpsplits hqsplits
  have hle : p ≤ q := (hpsplits.le_iff_exists_eq_append hqsplits).2 ⟨_, rfl, rfl⟩
  obtain ⟨_, hcopy⟩ := String.Slice.copy_slice_eq_iff_splits.2
    ⟨_, _, hpsplits.toSlice, hqsplits.toSlice⟩
  rw [slice, hp]
  change (r.place _ >>= _) = _
  rw [hq]
  change (if _ : p ≤ q then _ else _) = _
  rw [dif_pos hle]
  exact congrArg Except.ok hcopy

theorem behind_eq (h : r.source = String.ofList (front ++ back)) :
    r.behind (byteLength front) = .ok (String.ofList back) := by
  obtain ⟨p, hp, hsplits⟩ := exists_place h rfl
  rw [behind, hp]
  exact congrArg Except.ok hsplits.copy_sliceFrom_eq

end Places

namespace Reads

theorem peek (h : r.Reads s) : r.peek = .ok s.ahead.head? := by
  obtain ⟨front, hsource, hfront⟩ := h.source
  obtain ⟨p, hp, hsplits⟩ := exists_place hsource (hfront.trans h.cursor.symm)
  rw [Reader.peek, hp]
  exact congrArg Except.ok (get?_of_splits hsplits)

/-- Behind a character, the reader is where the scanner is. -/
theorem past {c : Char} {rest : List Char} (h : r.Reads s) (hahead : s.ahead = c :: rest) :
    (r.past c).Reads (s.pass [c] rest) where
  keywords := h.keywords
  source := by
    obtain ⟨front, hsource, hfront⟩ := h.source
    refine ⟨front ++ [c], ?_, ?_⟩
    · rw [List.append_assoc, Reader.past, hsource, hahead]
      rfl
    · rw [byteLength_append, hfront]
      rfl
  cursor := congrArg (· + c.utf8Size) h.cursor
  line := by
    by_cases hc : c = '\n'
    · simp [Reader.past, Scanner.pass, newlines, h.line, hc]
    · simp [Reader.past, Scanner.pass, newlines, h.line, hc]
  tokens := h.tokens
  errors := h.errors

/-- What has just been counted up can be counted down. -/
theorem retreat_past (r : Reader) (c : Char) : (r.past c).retreat c = .ok r := by
  have hcursor : Checked.minus (r.past c).cursor c.utf8Size = .ok r.cursor := by
    rw [Reader.past, Checked.minus, if_pos (Nat.le_add_left _ _), Nat.add_sub_cancel]
  rw [retreat, hcursor, Checked.ok_bind]
  by_cases hc : c = '\n'
  · have hline : Checked.minus (r.past c).line 1 = .ok r.line := by
      rw [Reader.past, if_pos hc, Checked.minus, if_pos (Nat.le_add_left _ _), Nat.add_sub_cancel]
    rw [if_pos hc, hline]
    rfl
  · rw [if_neg hc, Reader.past, if_neg hc]
    rfl

/-- **The next character is taken,** and it can be given back. -/
theorem advance (h : r.Reads s) : ∃ r', r.advance = .ok (s.advance.1, r') ∧
    r'.Reads s.advance.2 ∧ r'.source = r.source ∧
      ∀ a, ∃ r'', r'.giveBack a s.advance.1 = .ok r'' ∧
        r''.Reads (s.advance.2.giveBack a s.advance.1) ∧ r''.source = r.source := by
  rw [Reader.advance, h.peek]
  cases hahead : s.ahead with
  | nil =>
    rw [Scanner.advance_nil hahead]
    exact ⟨r, rfl, h, rfl, fun a => ⟨r, rfl, h, rfl⟩⟩
  | cons c rest =>
    rw [Scanner.advance_cons hahead]
    refine ⟨r.past c, rfl, h.past hahead, rfl, fun a => ?_⟩
    unfold Reader.giveBack Scanner.giveBack
    dsimp only
    split
    · rw [Scanner.retreat_pass hahead]
      exact ⟨r, retreat_past r c, h, rfl⟩
    · exact ⟨_, rfl, h.past hahead, rfl⟩

/-- **The piece between two readers** of one text. -/
theorem parted (h : r.Reads s) (h' : r'.Reads s') (hsource : r'.source = r.source)
    (hahead : s'.ahead.length ≤ s.ahead.length) : ∃ front piece,
      r.source = String.ofList (front ++ (piece ++ s'.ahead)) ∧ s.ahead = piece ++ s'.ahead ∧
        byteLength front = s.offset ∧ s'.offset = s.offset + byteLength piece := by
  obtain ⟨front, htext, hfront⟩ := h.source
  obtain ⟨front', htext', hfront'⟩ := h'.source
  have hboth : front' ++ s'.ahead = front ++ s.ahead := by
    rw [← String.ofList_inj, ← htext, ← htext', hsource]
  obtain ⟨piece, hpiece, hrest⟩ : ∃ piece, front' = front ++ piece ∧ s.ahead = piece ++ s'.ahead := by
    rcases List.append_eq_append_iff.1 hboth with ⟨piece, rfl, hrest⟩ | ⟨piece, rfl, hrest⟩
    · have hnil : piece = [] := by
        have hlength := congrArg List.length hrest
        rw [List.length_append] at hlength
        exact List.eq_nil_of_length_eq_zero (by omega)
      subst hnil
      exact ⟨[], by simp, by simpa using hrest.symm⟩
    · exact ⟨piece, rfl, hrest⟩
  refine ⟨front, piece, ?_, hrest, hfront, ?_⟩
  · rw [htext, hrest]
  · rw [← hfront', hpiece, byteLength_append, hfront]

/-- Less lies ahead of a reader further on in its text. -/
theorem left_lt (h : r.Reads s) (h' : r'.Reads s') (hsource : r'.source = r.source)
    (hahead : s'.ahead.length < s.ahead.length) : r'.left < r.left := by
  obtain ⟨front, piece, htext, hpiece, hfront, hoffset⟩ :=
    h.parted h' hsource (Nat.le_of_lt hahead)
  have hpos : 0 < byteLength piece := by
    cases piece with
    | nil => simp [hpiece] at hahead
    | cons c _ => exact Nat.add_pos_left c.utf8Size_pos _
  have hsize : r.source.utf8ByteSize =
      s.offset + (byteLength piece + byteLength s'.ahead) := by
    rw [htext, utf8ByteSize_ofList, byteLength_append, byteLength_append, hfront]
  rw [left, left, hsource, h.cursor, h'.cursor]
  omega

/-- **An automaton is driven over the same text.** -/
theorem drive {a : Automaton} (h : r.Reads s) : ∃ r',
    Reader.drive a r = .ok ((Scanner.drive a s).1, (Scanner.drive a s).2.1, r') ∧
      r'.Reads (Scanner.drive a s).2.2 ∧ r'.source = r.source := by
  fun_induction Scanner.drive a s generalizing r with
  | case1 a s next step shorter ih =>
    obtain ⟨r₁, hadvance, h₁, hsource, -⟩ := h.advance
    obtain ⟨r₂, hdrive, h₂, hsource₂⟩ := ih h₁
    refine ⟨r₂, ?_, h₂, hsource₂.trans hsource⟩
    rw [Reader.drive, hadvance, Checked.ok_bind]
    dsimp only
    rw [step]
    dsimp only
    rw [if_pos (h.left_lt h₁ hsource shorter), hdrive]
  | case2 a s verdict last hends step =>
    obtain ⟨r₁, hadvance, -, hsource, hback⟩ := h.advance
    obtain ⟨r₂, hgive, h₂, hsource₂⟩ := hback last
    refine ⟨r₂, ?_, h₂, hsource₂⟩
    rw [Reader.drive, hadvance, Checked.ok_bind]
    dsimp only
    rw [step]
    cases verdict with
    | running => exact (hends rfl).elim
    | accepted | rejected =>
      dsimp only
      rw [hgive]
      rfl

section Verdicts

variable (h : r.Reads s) (h' : r'.Reads s') (hsource : r'.source = r.source)
  (hahead : s'.ahead.length ≤ s.ahead.length)
include h h' hsource hahead

/-- **The lexeme is cut out** between two readers. -/
theorem lexemeTo : r.lexemeTo r' = .ok (s.lexemeTo s') := by
  obtain ⟨front, piece, htext, hpiece, hfront, hoffset⟩ := h.parted h' hsource hahead
  have hupTo : s.upTo s' = piece := by
    rw [Scanner.upTo, hpiece, List.length_append, Nat.add_sub_cancel, List.take_left]
  rw [Reader.lexemeTo, h.cursor, h'.cursor, hoffset, ← hfront, slice_eq htext, Scanner.lexemeTo,
    hupTo]

theorem tokenTo (kind : Automaton.Kind) : r.tokenTo r' kind = .ok (s.tokenTo s' kind) := by
  have hkind : ∀ lexeme, r.kindOf kind lexeme = s.kindOf kind lexeme := fun lexeme => by
    cases kind <;>
      simp only [Reader.kindOf, Scanner.kindOf, Reader.wordKind, Scanner.wordKind, h.keywords]
  rw [Reader.tokenTo, h.lexemeTo h' hsource hahead, Checked.ok_bind, hkind, h.cursor, h'.cursor,
    h'.line]
  rfl

theorem rejectedTo (cause : LexicalFault) :
    r.rejectedTo r' cause = .ok (s.rejectedTo s' cause) := by
  rw [Reader.rejectedTo, h.lexemeTo h' hsource hahead, Checked.ok_bind, h.cursor, h'.cursor,
    h'.line]
  rfl

theorem unclosedTo : r.unclosedTo r' = .ok (s.unclosedTo s') := by
  obtain ⟨front, piece, htext, hpiece, hfront, hoffset⟩ := h.parted h' hsource hahead
  have hlength : Checked.minus r'.cursor r.cursor = .ok (s'.offset - s.offset) := by
    rw [h.cursor, h'.cursor, Checked.minus, if_pos (hoffset ▸ Nat.le_add_right _ _)]
  have hbehind : r.behind r.cursor = .ok (String.ofList s.ahead) := by
    rw [h.cursor, ← hfront, hpiece]
    exact behind_eq htext
  rw [Reader.unclosedTo, hbehind, Checked.ok_bind, String.toList_ofList]
  dsimp only
  rw [hlength, Checked.ok_bind, h.line, h.cursor, h'.cursor]
  rfl

/-- **A piece is weighed by the same text.** -/
theorem weigh (verdict : Verdict) (a : Automaton) :
    r.weigh r' verdict a = .ok (s.weigh s' verdict a) := by
  have hlexeme := h.lexemeTo h' hsource hahead
  have htoken := h.tokenTo h' hsource hahead
  have hrejected := h.rejectedTo h' hsource hahead
  unfold Reader.weigh Scanner.weigh
  cases verdict with
  | accepted =>
    cases a.kind with
    | blank | comment => rfl
    | symbol | word => exact htoken _
    | number =>
      dsimp only
      rw [hlexeme, Checked.ok_bind, Scanner.lexemeTo, String.toList_ofList]
      split
      · exact hrejected _
      · exact htoken _
  | running | rejected =>
    cases a.kind with
    | number | blank | word => exact hrejected _
    | comment =>
      dsimp only
      split
      · exact h.unclosedTo h' hsource hahead
      · exact hrejected _
    | symbol =>
      dsimp only
      rw [hlexeme, Checked.ok_bind]
      split
      · exact hrejected _
      · exact hrejected _

end Verdicts

/-- The end of the text is seen. -/
theorem next?_none (h : r.Reads s) (hnone : s.next? = none) : r.next? = .ok none := by
  have hahead : s.ahead = [] := by
    unfold Scanner.next? at hnone
    split at hnone
    · assumption
    · split at hnone <;> cases hnone
  rw [Reader.next?, h.peek, Checked.ok_bind, hahead]
  rfl

/-- **The next piece is found.** -/
theorem next?_some {x : Scanned} (h : r.Reads s) (hsome : s.next? = some (x, s')) :
    ∃ r', r.next? = .ok (some (x, r')) ∧ r'.Reads s' ∧ r'.source = r.source := by
  have hshorter := Nat.le_of_lt (Scanner.next?_ahead_lt hsome)
  rw [Reader.next?, h.peek, Checked.ok_bind]
  unfold Scanner.next? at hsome
  split at hsome
  · cases hsome
  · rename_i c rest hahead
    rw [hahead]
    dsimp only [List.head?_cons]
    cases hselect : Automaton.select? c with
    | none =>
      rw [hselect] at hsome
      cases hsome
      obtain ⟨r', hadvance, h', hsource, -⟩ := h.advance
      refine ⟨r', ?_, h', hsource⟩
      dsimp only
      rw [hadvance, Checked.ok_bind]
      dsimp only
      rw [h.rejectedTo h' hsource hshorter]
      rfl
    | some a =>
      rw [hselect] at hsome
      cases hsome
      obtain ⟨r', hdrive, h', hsource⟩ := h.drive (a := a)
      refine ⟨r', ?_, h', hsource⟩
      dsimp only
      rw [hdrive, Checked.ok_bind]
      dsimp only
      rw [h.weigh h' hsource hshorter]
      rfl

/-- **The next token or rejected piece is found.** -/
theorem nextPiece (h : r.Reads s) : ∃ r', r.nextPiece = .ok (s.nextPiece.1, r') ∧
    r'.Reads s.nextPiece.2 ∧ r'.source = r.source := by
  fun_induction Scanner.nextPiece s generalizing r with
  | case1 s hnone =>
    refine ⟨r, ?_, h, rfl⟩
    rw [Reader.nextPiece, h.next?_none hnone]
    rfl
  | case2 s s₁ step shorter ih =>
    obtain ⟨r₁, hnext, h₁, hsource⟩ := h.next?_some step
    obtain ⟨r₂, hrest, h₂, hsource₂⟩ := ih h₁
    refine ⟨r₂, ?_, h₂, hsource₂.trans hsource⟩
    rw [Reader.nextPiece, hnext, Checked.ok_bind]
    dsimp only
    rw [if_pos (h.left_lt h₁ hsource shorter), hrest]
  | case3 s t s₁ step =>
    obtain ⟨r₁, hnext, h₁, hsource⟩ := h.next?_some step
    refine ⟨r₁, ?_, h₁, hsource⟩
    rw [Reader.nextPiece, hnext]
    rfl
  | case4 s e s₁ step =>
    obtain ⟨r₁, hnext, h₁, hsource⟩ := h.next?_some step
    refine ⟨r₁, ?_, h₁, hsource⟩
    rw [Reader.nextPiece, hnext]
    rfl

/-- **The next token is read,** or the marker of the end. -/
theorem pull (h : r.Reads s) : ∃ r', r.pull = .ok (s.pull.1, r') ∧ r'.Reads s.pull.2 ∧
    r'.source = r.source := by
  fun_induction Scanner.pull s generalizing r with
  | case1 s s₁ step =>
    obtain ⟨r₁, hpiece, h₁, hsource⟩ := h.nextPiece
    rw [step] at hpiece h₁
    refine ⟨r₁, ?_, h₁, hsource⟩
    rw [Reader.pull, hpiece, Checked.ok_bind]
    dsimp only
    rw [h₁.line, h₁.cursor]
    rfl
  | case2 s t s₁ step =>
    obtain ⟨r₁, hpiece, h₁, hsource⟩ := h.nextPiece
    rw [step] at hpiece h₁
    refine ⟨{ r₁ with tokens := r₁.tokens.push t }, ?_,
      { h₁ with tokens := congrArg (·.push t) h₁.tokens }, hsource⟩
    rw [Reader.pull, hpiece]
    rfl
  | case3 s e s₁ step shorter ih =>
    obtain ⟨r₁, hpiece, h₁, hsource⟩ := h.nextPiece
    rw [step] at hpiece h₁
    have hnoted : Reads { r₁ with errors := r₁.errors.push e }
        { s₁ with errors := s₁.errors.push e } :=
      { h₁ with errors := congrArg (·.push e) h₁.errors }
    obtain ⟨r₂, hpull, h₂, hsource₂⟩ := ih hnoted
    refine ⟨r₂, ?_, h₂, hsource₂.trans hsource⟩
    have hleft := h.left_lt hnoted hsource shorter
    rw [Reader.pull, hpiece, Checked.ok_bind]
    dsimp only
    rw [if_pos hleft, hpull]

end Reads

/-- Both begin at the front of the text. -/
theorem reads_start (keywords : List String) (source : String) :
    (start keywords source).Reads (.start keywords source) where
  keywords := rfl
  source := ⟨[], String.ofList_toList.symm, rfl⟩
  cursor := rfl
  line := rfl
  tokens := rfl
  errors := rfl

end Reader

end OnePass.Lexical
