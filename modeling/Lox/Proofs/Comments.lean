/-
**Comments.** A comment ends right behind its first close.

* `OpensAt` and `ClosesAt` say where in a text the marks stand that open and close a comment. The
  star of an opening is no part of a close (`closesBehind`).
* `CommentEnds` says where a comment ends: right behind the first close, or else with the text.
* `extract_mem_closedComment` and `extract_mem_openComment` say the same of the two patterns for
  comments: the one with a close does not skip any, and the one without does not run past any.
* `segments_split`: behind each segment a text is cut as if it began there.
* `segments_comment`: the segment of a comment ends where the comment does.
-/

import Lox.Proofs.LongestMatch
import Mathlib.Order.Bounds.Basic

namespace Lox

open Pattern

/-! ### Openings and closes -/

/-- A comment opens at an offset: there is a slash, and directly behind it a star. -/
def OpensAt (text : List Char) (offset : Nat) : Prop :=
  text[offset]? = some '/' ∧ text[offset + 1]? = some '*'

/-- A comment may close at an offset: there is a star, and directly behind it a slash. -/
def ClosesAt (text : List Char) (offset : Nat) : Prop :=
  text[offset]? = some '*' ∧ text[offset + 1]? = some '/'

/-- The offsets of the closes behind the opening of a comment. -/
def closesBehind (text : List Char) (start : Nat) : Set Nat :=
  {offset | start + 2 ≤ offset ∧ ClosesAt text offset}

/-- Where a comment ends that opens at an offset: right behind the first close, or with the text if
there is none. -/
inductive CommentEnds (text : List Char) (start : Nat) : (stop : Nat) → Prop
  | closed {close : Nat} (first : IsLeast (closesBehind text start) close) :
      CommentEnds text start (close + 2)
  | unclosed (never : closesBehind text start = ∅) : CommentEnds text start text.length

theorem closesAt_append (front rest : List Char) (offset : Nat) :
    ClosesAt (front ++ rest) (front.length + offset) ↔ ClosesAt rest offset := by
  have behind : ∀ index, (front ++ rest)[front.length + index]? = rest[index]? := fun index => by
    rw [List.getElem?_append_right (Nat.le_add_right _ _), Nat.add_sub_cancel_left]
  rw [ClosesAt, ClosesAt, Nat.add_assoc, behind, behind]

/-- A part from the front has the closes that lie in it as a whole. -/
theorem closesAt_take {text : List Char} {size offset : Nat} :
    ClosesAt (text.take size) offset ↔ ClosesAt text offset ∧ offset + 2 ≤ size := by
  simp only [ClosesAt, List.getElem?_take]
  by_cases inside : offset + 1 < size
  · rw [if_pos inside, if_pos (by omega)]
    exact ⟨fun here => ⟨here, inside⟩, And.left⟩
  · rw [if_neg inside]
    refine iff_of_false (fun here => ?_) fun here => inside here.2
    cases here.2

theorem unclosed_iff {text : List Char} : Unclosed text ↔ ∀ offset, ¬ ClosesAt text offset := by
  rw [Unclosed, List.isChain_iff_getElem]
  constructor
  · rintro apart offset ⟨star, slash⟩
    obtain ⟨_, star⟩ := List.getElem?_eq_some_iff.mp star
    obtain ⟨inside, slash⟩ := List.getElem?_eq_some_iff.mp slash
    exact apart offset inside ⟨star, slash⟩
  · rintro never offset inside ⟨star, slash⟩
    exact never offset ⟨List.getElem?_eq_some_iff.mpr ⟨_, star⟩,
      List.getElem?_eq_some_iff.mpr ⟨inside, slash⟩⟩

/-- Behind an opening stands the rest of a text, and the closes in that are those of the comment. -/
theorem OpensAt.split {text : List Char} {start : Nat} (opens : OpensAt text start) :
    ∃ rest, text.drop start = '/' :: '*' :: rest ∧ text.length = start + 2 + rest.length ∧
      ∀ offset, start + 2 + offset ∈ closesBehind text start ↔ ClosesAt rest offset := by
  obtain ⟨inside, slash⟩ := List.getElem?_eq_some_iff.mp opens.1
  obtain ⟨next, star⟩ := List.getElem?_eq_some_iff.mp opens.2
  have whole : text.drop start = '/' :: '*' :: text.drop (start + 2) := by
    rw [List.drop_eq_getElem_cons inside, List.drop_eq_getElem_cons next, slash, star]
  refine ⟨text.drop (start + 2), whole, by rw [List.length_drop]; omega, fun offset => ?_⟩
  have moved := closesAt_append (text.take (start + 2)) (text.drop (start + 2)) offset
  rw [List.take_append_drop, List.length_take_of_le next] at moved
  exact ⟨fun here => moved.mp here.2, fun here => ⟨Nat.le_add_right _ _, moved.mpr here⟩⟩

/-- A close behind an opening, as an offset in the rest of the text. -/
theorem exists_offset {text : List Char} {start close : Nat}
    (member : close ∈ closesBehind text start) : ∃ offset, close = start + 2 + offset :=
  ⟨close - (start + 2), (Nat.add_sub_cancel' member.1).symm⟩

section Behind

variable {text rest : List Char} {start : Nat}
  (behind : ∀ offset, start + 2 + offset ∈ closesBehind text start ↔ ClosesAt rest offset)

include behind

/-- The first close is the one in front of which nothing is closed. -/
theorem isLeast_closesBehind {body more : List Char} (split : rest = body ++ '*' :: '/' :: more)
    (unclosed : Unclosed (body ++ ['*'])) :
    IsLeast (closesBehind text start) (start + 2 + body.length) := by
  subst split
  constructor
  · exact (behind _).mpr ((closesAt_append body _ 0).mpr ⟨rfl, rfl⟩)
  · intro close member
    obtain ⟨offset, rfl⟩ := exists_offset member
    by_contra nearer
    have part : (body ++ '*' :: '/' :: more).take (body.length + 1) = body ++ ['*'] := by
      simp [List.take_append]
    refine unclosed_iff.mp unclosed offset ?_
    rw [← part]
    exact closesAt_take.mpr ⟨(behind offset).mp member, by omega⟩

theorem closesBehind_eq_empty : closesBehind text start = ∅ ↔ Unclosed rest := by
  rw [unclosed_iff, Set.eq_empty_iff_forall_notMem]
  constructor
  · exact fun none offset here => none _ ((behind offset).mpr here)
  · intro never close member
    obtain ⟨offset, rfl⟩ := exists_offset member
    exact never offset ((behind offset).mp member)

/-- Cutting a text off behind its first close finds the end of the comment. -/
theorem commentEnds_splitClose (size : text.length = start + 2 + rest.length) :
    CommentEnds text start (start + 2 + (Segment.splitClose rest).1.length) := by
  rcases splitClose_cases rest with ⟨body, more, split, cut, unclosed⟩ | ⟨cut, unclosed⟩
  · have ends := CommentEnds.closed (isLeast_closesBehind behind split unclosed)
    rw [cut, List.length_append]
    exact ends
  · rw [cut, ← size]
    exact .unclosed ((closesBehind_eq_empty behind).mpr unclosed)

end Behind

namespace CommentEnds

variable {text : List Char} {start stop : Nat} (ends : CommentEnds text start stop)

include ends

theorem eq_of_isLeast {close : Nat} (first : IsLeast (closesBehind text start) close) :
    stop = close + 2 := by
  cases ends with
  | closed first' => rw [first'.unique first]
  | unclosed never => exact absurd (never ▸ first.1) (Set.notMem_empty close)

/-- No comment reaches beyond a close. -/
theorem le_of_mem {close : Nat} (member : close ∈ closesBehind text start) : stop ≤ close + 2 := by
  cases ends with
  | closed first => exact Nat.add_le_add_right (first.2 member) 2
  | unclosed never => exact absurd (never ▸ member) (Set.notMem_empty close)

theorem le_length : stop ≤ text.length := by
  cases ends with
  | closed first =>
      obtain ⟨inside, _⟩ := List.getElem?_eq_some_iff.mp first.1.2.2
      exact inside
  | unclosed => exact Nat.le_refl _

/-- An opening inside a comment opens nothing: the comment is over when another one that would
begin there is over. -/
theorem le_of_inner {inner other : Nat} (inside : start ≤ inner)
    (others : CommentEnds text inner other) : stop ≤ other := by
  cases others with
  | closed first => exact ends.le_of_mem ⟨Nat.le_trans (by omega) first.1.1, first.1.2⟩
  | unclosed => exact ends.le_length

/-- The star of an opening is not that of a close. -/
theorem eq_length_or : stop = text.length ∨ start + 4 ≤ stop := by
  cases ends with
  | closed first =>
      have far := first.1.1
      exact .inr (by omega)
  | unclosed => exact .inl rfl

/-- Stars in a row close a comment if a slash comes next. -/
theorem eq_of_stars {first last : Nat} (behind : start + 2 ≤ first) (some_ : first ≤ last)
    (stars : ∀ offset, first ≤ offset → offset ≤ last → text[offset]? = some '*')
    (slash : text[last + 1]? = some '/')
    (earlier : ∀ close ∈ closesBehind text start, first ≤ close) : stop = last + 2 := by
  have closes : last ∈ closesBehind text start :=
    ⟨Nat.le_trans behind some_, stars last some_ (Nat.le_refl _), slash⟩
  refine ends.eq_of_isLeast ⟨closes, fun close member => ?_⟩
  by_contra nearer
  have star := stars (close + 1) (Nat.le_succ_of_le (earlier close member)) (by omega)
  rw [member.2.2] at star
  exact absurd (Option.some.inj star) (by decide)

end CommentEnds

/-! ### What the patterns take -/

/-- What begins with an opening has at least its two characters. -/
theorem two_le_of_extract {text body : List Char} {start stop : Nat}
    (same : text.extract start stop = '/' :: '*' :: body) : start + 2 ≤ stop := by
  have width := congrArg List.length same
  rw [List.extract_eq_take_drop, List.length_take, List.length_cons, List.length_cons] at width
  omega

/-- The part of a text from an opening on. -/
theorem extract_of_drop {text rest : List Char} {start : Nat}
    (whole : text.drop start = '/' :: '*' :: rest) (size : Nat) :
    text.extract start (start + 2 + size) = '/' :: '*' :: rest.take size := by
  have width : start + 2 + size - start = size + 2 := by omega
  rw [List.extract_eq_take_drop, whole, width]
  rfl

/-- **A comment without a close does not run past one.** -/
theorem extract_mem_openComment {text : List Char} {start : Nat} (opens : OpensAt text start)
    (stop : Nat) : text.extract start stop ∈ openComment.language ↔
      start + 2 ≤ stop ∧ ∀ close ∈ closesBehind text start, stop < close + 2 := by
  obtain ⟨rest, whole, _, behind⟩ := opens.split
  rw [mem_openComment]
  constructor
  · rintro ⟨body, same, unclosed⟩
    obtain ⟨size, rfl⟩ := Nat.exists_eq_add_of_le (two_le_of_extract same)
    rw [extract_of_drop whole] at same
    obtain rfl : rest.take size = body := (List.cons.inj (List.cons.inj same).2).2
    refine ⟨Nat.le_add_right _ _, fun close member => ?_⟩
    obtain ⟨offset, rfl⟩ := exists_offset member
    by_contra past
    exact unclosed_iff.mp unclosed offset
      (closesAt_take.mpr ⟨(behind offset).mp member, by omega⟩)
  · rintro ⟨far, short⟩
    obtain ⟨size, rfl⟩ := Nat.exists_eq_add_of_le far
    refine ⟨rest.take size, extract_of_drop whole size, unclosed_iff.mpr fun offset closes => ?_⟩
    obtain ⟨here, past⟩ := closesAt_take.mp closes
    have before := short _ ((behind offset).mpr here)
    omega

/-- **A comment with a close does not skip one.** -/
theorem extract_mem_closedComment {text : List Char} {start : Nat} (opens : OpensAt text start)
    {stop : Nat} (inside : stop ≤ text.length) :
    text.extract start stop ∈ closedComment.language ↔
      ∃ close, IsLeast (closesBehind text start) close ∧ stop = close + 2 := by
  obtain ⟨rest, whole, length, behind⟩ := opens.split
  rw [mem_closedComment]
  constructor
  · rintro ⟨body, same, unclosed⟩
    obtain ⟨size, rfl⟩ := Nat.exists_eq_add_of_le (two_le_of_extract same)
    rw [extract_of_drop whole] at same
    have part : rest.take size = body ++ ['*', '/'] := (List.cons.inj (List.cons.inj same).2).2
    have width : size = body.length + 2 := by
      have counted := congrArg List.length part
      rw [List.length_take_of_le (by omega), List.length_append] at counted
      exact counted
    have split : rest = body ++ '*' :: '/' :: rest.drop size := by
      have joined := List.take_append_drop size rest
      rw [part, List.append_assoc] at joined
      exact joined.symm
    exact ⟨_, isLeast_closesBehind behind split unclosed, by omega⟩
  · rintro ⟨close, first, rfl⟩
    rcases splitClose_cases rest with ⟨body, more, split, _, unclosed⟩ | ⟨_, unclosed⟩
    · obtain rfl := first.unique (isLeast_closesBehind behind split unclosed)
      refine ⟨body, ?_, unclosed⟩
      have part : rest.take (body.length + 2) = body ++ ['*', '/'] := by
        rw [split]
        simp [List.take_append]
      rw [Nat.add_assoc, extract_of_drop whole, part]
      rfl
    · have none := (closesBehind_eq_empty behind).mpr unclosed
      exact absurd (none ▸ first.1) (Set.notMem_empty close)

/-! ### Segments -/

/-- Behind some of its segments, a text is cut as if it began there. -/
theorem segments_split {text : List Char} {before more : List Segment}
    (division : segments text = before ++ more) :
    ∃ rest, text = before.flatMap (·.chars) ++ rest ∧ more = segments rest := by
  induction before generalizing text with
  | nil => exact ⟨text, rfl, division.symm⟩
  | cons first before ih =>
      cases text with
      | nil =>
          rw [segments] at division
          cases division
      | cons c rest =>
          rw [segments, List.cons_append] at division
          obtain ⟨here, behind⟩ := List.cons.inj division
          obtain ⟨back, split, cut⟩ := ih behind
          refine ⟨back, ?_, cut⟩
          rw [List.flatMap_cons, List.append_assoc, ← split, ← here, Segment.cut_append]

/-- **From an opening on, the first segment is the comment**, and what follows it is cut anew. -/
theorem OpensAt.segments {text : List Char} {start : Nat} (opens : OpensAt text start) :
    ∃ stop, CommentEnds text start stop ∧ segments (text.drop start) =
      ⟨.ignored, text.extract start stop⟩ :: segments (text.drop stop) := by
  obtain ⟨rest, whole, length, behind⟩ := opens.split
  refine ⟨_, commentEnds_splitClose behind length, ?_⟩
  have cut : Segment.cut '/' ('*' :: rest) =
      (⟨.ignored, '/' :: '*' :: (Segment.splitClose rest).1⟩, (Segment.splitClose rest).2) := rfl
  have joined := Segment.splitClose_append rest
  rw [whole, Lox.segments, cut, extract_of_drop whole, ← List.drop_drop, ← List.drop_drop, whole]
  clear cut
  generalize Segment.splitClose rest = parts at joined ⊢
  subst joined
  rw [List.take_left]
  show _ = _ :: Lox.segments (List.drop parts.1.length (parts.1 ++ parts.2))
  rw [List.drop_left]

/-- **A comment ends at its first close.** Wherever a segment of a text begins with an opening, it
is ignored, and it ends right behind the first close from there on, or with the text if there is
none; behind it the text is cut as if it began there. An opening inside does not put the end off,
the opening is not closed by its own star, and a row of stars with a slash behind it closes. Of the
two patterns for comments, the one with a close matches just up to the first close, and the one
without just as far as no close is complete. -/
theorem segments_comment (text : String) (before after : List Segment) (comment : Segment)
    (division : segments text.toList = before ++ comment :: after) (start stop : Nat)
    (begins : start = (before.flatMap (·.chars)).length)
    (ends : stop = start + comment.chars.length) (opens : OpensAt text.toList start) :
    comment = ⟨.ignored, text.toList.extract start stop⟩ ∧
    CommentEnds text.toList start stop ∧
    after = segments (text.toList.drop stop) ∧
    (∀ inner other, start ≤ inner → OpensAt text.toList inner →
      CommentEnds text.toList inner other → stop ≤ other) ∧
    (stop = text.length ∨ start + 4 ≤ stop) ∧
    (∀ first last, start + 2 ≤ first → first ≤ last →
      (∀ offset, first ≤ offset → offset ≤ last → text.toList[offset]? = some '*') →
      text.toList[last + 1]? = some '/' →
      (∀ close ∈ closesBehind text.toList start, first ≤ close) → stop = last + 2) ∧
    ∀ part ≤ text.length,
      (text.toList.extract start part ∈ closedComment.language ↔
        ∃ close, IsLeast (closesBehind text.toList start) close ∧ part = close + 2) ∧
      (text.toList.extract start part ∈ openComment.language ↔
        start + 2 ≤ part ∧ ∀ close ∈ closesBehind text.toList start, part < close + 2) := by
  obtain ⟨back, split, cut⟩ := segments_split division
  obtain ⟨stop', ended, here⟩ := opens.segments
  have left : text.toList.drop start = back := by
    rw [split, begins, List.drop_left]
  rw [← left, here] at cut
  obtain ⟨same, behind⟩ := List.cons.inj cut
  obtain rfl : stop = stop' := by
    obtain ⟨inside, _⟩ := List.getElem?_eq_some_iff.mp opens.1
    have far := ended.eq_length_or
    have near := ended.le_length
    rw [ends, same, List.extract_eq_take_drop, List.length_take, List.length_drop]
    omega
  rw [← String.length_toList]
  exact ⟨same, ended, behind, fun _ _ inside _ => ended.le_of_inner inside, ended.eq_length_or,
    fun _ _ => ended.eq_of_stars, fun part inside =>
      ⟨extract_mem_closedComment opens inside, extract_mem_openComment opens part⟩⟩

/-- A text with a comment in which the opening comes twice, and is followed by a slash, and that two
stars close. Behind it stands another close. -/
def crowdedText : String := "a/*/ /* **/b*/"

theorem segments_comment_crowded :
    let text := crowdedText.toList
    segments text = [⟨.token .name, ['a']⟩] ++ ⟨.ignored, "/*/ /* **/".toList⟩ ::
      [⟨.token .name, ['b']⟩, ⟨.token .star, ['*']⟩, ⟨.token .slash, ['/']⟩] ∧
    OpensAt text 1 ∧ OpensAt text 5 ∧ CommentEnds text 1 11 ∧
    text.extract 1 11 ∈ closedComment.language ∧ text.extract 1 14 ∉ closedComment.language ∧
    text.extract 1 10 ∈ openComment.language ∧ text.extract 1 11 ∉ openComment.language := by
  intro text
  have division : segments text = [⟨.token .name, ['a']⟩] ++ ⟨.ignored, "/*/ /* **/".toList⟩ ::
      [⟨.token .name, ['b']⟩, ⟨.token .star, ['*']⟩, ⟨.token .slash, ['/']⟩] := by decide +kernel
  have opens : OpensAt text 1 := ⟨rfl, rfl⟩
  have closes : 9 ∈ closesBehind text 1 := ⟨by decide, rfl, rfl⟩
  obtain ⟨_, ended, _, _, _, _, parts⟩ :=
    segments_comment crowdedText _ _ _ division 1 11 rfl rfl opens
  refine ⟨division, opens, ⟨rfl, rfl⟩, ended, (parts 11 (by decide)).1.mpr ⟨9, ⟨closes, ?_⟩, rfl⟩,
    fun inside => ?_, (parts 10 (by decide)).2.mpr ⟨by decide, fun close => ended.le_of_mem⟩,
    fun inside => ?_⟩
  · intro close member
    have past := ended.le_of_mem member
    omega
  · obtain ⟨close, first, far⟩ := (parts 14 (by decide)).1.mp inside
    have near := first.2 closes
    omega
  · exact Nat.lt_irrefl 11 (((parts 11 (by decide)).2.mp inside).2 9 closes)

end Lox
