/-
**The tokens of a text.** What every scan has in common, whatever the text.

* `scan_spelled`: a token's class and lexeme agree (`Token.Spelled`): a word is reserved exactly if
  it is spelled so. No token is a gap.
* `scan_increasing`: the tokens stand at growing offsets, so that no two stand at the same one.
* `scan_closed`: the last token closes the text, and no other one does.
* `feed_tokens`: grouping a scan by its tokens loses none of them.
-/

import Lox.Proofs.Progress
import Lox.Resolve

namespace Lox

/-! ### Spelling -/

/-- Whether tokens of a class are words: the names and the reserved words. -/
def Terminal.isWord (kind : Terminal) : Bool :=
  kind = .name || Terminal.reserved.any (fun word => word.2 = kind)

/-- A token's class and lexeme agree, and the token stands for something in the text. -/
structure Token.Spelled (token : Token) : Prop where
  word : token.kind.isWord → Terminal.ofWord token.lexeme = token.kind
  noGap : token.kind ≠ .gap

/-- A name that the language does not use for itself. -/
def ProperName (name : String) : Prop :=
  name ≠ thisName ∧ name ≠ superName

/-- A word with another class than a name is one of the reserved words. -/
theorem Terminal.mem_reserved {word : String} {kind : Terminal} (spelled : ofWord word = kind)
    (different : kind ≠ .name) : (word, kind) ∈ reserved := by
  unfold ofWord at spelled
  cases found : reserved.lookup word with
  | none =>
      rw [found] at spelled
      exact absurd spelled.symm different
  | some listed =>
      rw [found] at spelled
      obtain ⟨front, rest, split, _⟩ := List.lookup_eq_some_iff.mp found
      rw [split, ← show listed = kind from spelled]
      simp

theorem Token.Spelled.this {token : Token} (spelled : token.Spelled) (kind : token.kind = .this_) :
    token.lexeme = thisName := by
  have word := spelled.word (by rw [kind]; decide)
  have listed := Terminal.mem_reserved word (by rw [kind]; decide)
  simpa [kind, Terminal.reserved, thisName] using listed

theorem Token.Spelled.super {token : Token} (spelled : token.Spelled)
    (kind : token.kind = .super_) : token.lexeme = superName := by
  have word := spelled.word (by rw [kind]; decide)
  have listed := Terminal.mem_reserved word (by rw [kind]; decide)
  simpa [kind, Terminal.reserved, superName] using listed

theorem Token.Spelled.name {token : Token} (spelled : token.Spelled) (kind : token.kind = .name) :
    ProperName token.lexeme := by
  have word := spelled.word (by rw [kind]; decide)
  rw [kind] at word
  constructor
  · intro same
    rw [same] at word
    exact absurd word (by decide)
  · intro same
    rw [same] at word
    exact absurd word (by decide)

/-! ### Segments -/

/-- A segment from which a well spelled token can be made, if it is one: it is not empty, and a
word is classed by how it is spelled. -/
structure Segment.Sound (segment : Segment) : Prop where
  nonempty : segment.chars ≠ []
  word : ∀ kind, segment.form = .token kind → kind.isWord →
    Terminal.ofWord (String.ofList segment.chars) = kind
  inside : ∀ kind, segment.form = .token kind → kind ≠ .gap ∧ kind ≠ .eof

namespace Segment

/-- A segment that is no token only has to hold something. -/
theorem sound_of_no_token {segment : Segment} (nonempty : segment.chars ≠ [])
    (other : ∀ kind, segment.form ≠ .token kind) : segment.Sound :=
  ⟨nonempty, fun kind form => absurd form (other kind), fun kind form => absurd form (other kind)⟩

/-- A token that is no word has to be of a class that texts can have. -/
theorem sound_of_no_word {kind : Terminal} {chars : List Char} (nonempty : chars ≠ [])
    (other : kind.isWord = false) (gap : kind ≠ .gap) (eof : kind ≠ .eof) :
    Segment.Sound ⟨.token kind, chars⟩ := by
  refine ⟨nonempty, ?_, ?_⟩
  · rintro found ⟨rfl⟩ word
    rw [other] at word
    exact absurd word (by decide)
  · rintro found ⟨rfl⟩
    exact ⟨gap, eof⟩

/-- The class of a word is a name or reserved, and so neither a gap nor the end of a text. -/
theorem ofWord_inside (word : String) :
    Terminal.ofWord word ≠ .gap ∧ Terminal.ofWord word ≠ .eof := by
  constructor
  · intro same
    have listed := Terminal.mem_reserved same (by decide)
    simp [Terminal.reserved] at listed
  · intro same
    have listed := Terminal.mem_reserved same (by decide)
    simp [Terminal.reserved] at listed

theorem cutMark_sound (c : Char) (rest : List Char) : (cutMark c rest).1.Sound := by
  fun_cases cutMark c rest with
  | case1 single double after found =>
      unfold equalMark? at found
      split at found <;> simp at found
      all_goals
        obtain ⟨-, rfl⟩ := found
        exact sound_of_no_word (by simp) (by decide) (by decide) (by decide)
  | case2 single double other found =>
      unfold equalMark? at found
      split at found <;> simp at found
      all_goals
        obtain ⟨rfl, -⟩ := found
        exact sound_of_no_word (by simp) (by decide) (by decide) (by decide)
  | case3 _ _ kind found =>
      unfold singleMark? at found
      split at found <;> simp at found
      all_goals
        subst found
        exact sound_of_no_word (by simp) (by decide) (by decide) (by decide)
  | case4 => exact sound_of_no_token (by simp) (by simp)

theorem cutSlash_sound (rest : List Char) : (cutSlash rest).1.Sound := by
  fun_cases cutSlash rest with
  | case1 => exact sound_of_no_token (by simp) (by simp)
  | case2 => exact sound_of_no_token (by simp) (by simp)
  | case3 => exact sound_of_no_word (by simp) (by decide) (by decide) (by decide)

theorem cutString_sound (rest : List Char) : (cutString rest).1.Sound := by
  fun_cases cutString rest with
  | case1 => exact sound_of_no_token (by simp) (by simp)
  | case2 => exact sound_of_no_word (by simp) (by decide) (by decide) (by decide)

theorem cutWord_sound (c : Char) (rest : List Char) : (cutWord c rest).1.Sound := by
  refine ⟨by simp [cutWord], ?_, ?_⟩
  · rintro kind ⟨rfl⟩ _
    rfl
  · rintro kind ⟨rfl⟩
    exact ofWord_inside _

/-- Every segment that is cut off a text is sound. -/
theorem cut_sound (c : Char) (rest : List Char) : (cut c rest).1.Sound := by
  unfold cut
  split
  · exact sound_of_no_token (by simp [cutSpace]) (by simp [cutSpace])
  split
  · exact cutSlash_sound rest
  split
  · exact cutString_sound rest
  split
  · exact sound_of_no_word (by simp) (by decide) (by decide) (by decide)
  split
  · exact cutWord_sound c rest
  · exact cutMark_sound c rest

end Segment

theorem segments_sound (text : List Char) : ∀ segment ∈ segments text, segment.Sound := by
  fun_induction segments text with
  | case1 => simp
  | case2 c rest ih =>
      intro segment member
      rcases List.mem_cons.mp member with rfl | later
      · exact Segment.cut_sound c rest
      · exact ih segment later

/-! ### Scans -/

namespace Scan

/-- A segment contributes at most one token, which has its class, its characters and its place. -/
theorem tokensOf_ofSegments_cons (segment : Segment) (more : List Segment) (line offset : Nat) :
    ∃ own : List Token,
      (∀ token ∈ own, segment.form = .token token.kind ∧
        token.lexeme = String.ofList segment.chars ∧ token.offset = offset) ∧
      own.length ≤ 1 ∧
      tokensOf (ofSegments (segment :: more) line offset) =
        own ++ tokensOf
          (ofSegments more (line + lineFeeds segment.chars) (offset + segment.chars.length)) := by
  obtain ⟨form, chars⟩ := segment
  cases form with
  | token kind =>
      refine ⟨[⟨kind, String.ofList chars, literal kind chars, line, offset⟩], ?_, by simp, ?_⟩
      · intro token member
        rw [List.mem_singleton.mp member]
        exact ⟨rfl, rfl, rfl⟩
      · simp [ofSegments, ofSegment, tokensOf]
  | ignored => exact ⟨[], by simp, by simp, by simp [ofSegments, ofSegment]⟩
  | unterminated => exact ⟨[], by simp, by simp, by simp [ofSegments, ofSegment, tokensOf]⟩
  | stuck => exact ⟨[], by simp, by simp, by simp [ofSegments, ofSegment, tokensOf]⟩

theorem ofSegments_closing (segments : List Segment) (line offset : Nat) :
    ∃ inner last, ofSegments segments line offset = inner ++ [.token last] := by
  induction segments generalizing line offset with
  | nil => exact ⟨[], closing line offset, rfl⟩
  | cons segment more ih =>
      obtain ⟨inner, last, same⟩ :=
        ih (line + lineFeeds segment.chars) (offset + segment.chars.length)
      rw [ofSegments, same]
      cases ofSegment segment line offset with
      | none => exact ⟨inner, last, rfl⟩
      | some scanned => exact ⟨scanned :: inner, last, rfl⟩

variable {segments : List Segment} (sound : ∀ segment ∈ segments, segment.Sound)

include sound

theorem ofSegments_spelled (line offset : Nat) :
    ∀ token ∈ tokensOf (ofSegments segments line offset), token.Spelled := by
  induction segments generalizing line offset with
  | nil =>
      intro token member
      rw [List.mem_singleton.mp (show token ∈ [closing line offset] from member)]
      exact ⟨fun word => absurd (show Terminal.eof.isWord = true from word) (by decide),
        show Terminal.eof ≠ .gap by decide⟩
  | cons segment more ih =>
      obtain ⟨own, made, _, split⟩ := tokensOf_ofSegments_cons segment more line offset
      obtain ⟨first, others⟩ := List.forall_mem_cons.mp sound
      intro token member
      rw [split] at member
      rcases List.mem_append.mp member with here | later
      · obtain ⟨form, lexeme, _⟩ := made token here
        refine ⟨fun word => ?_, (first.inside _ form).1⟩
        rw [lexeme]
        exact first.word _ form word
      · exact ih others _ _ token later

theorem ofSegments_offset (line offset : Nat) :
    ∀ token ∈ tokensOf (ofSegments segments line offset), offset ≤ token.offset := by
  induction segments generalizing line offset with
  | nil =>
      intro token member
      rw [List.mem_singleton.mp (show token ∈ [closing line offset] from member)]
      exact Nat.le_refl offset
  | cons segment more ih =>
      obtain ⟨own, made, _, split⟩ := tokensOf_ofSegments_cons segment more line offset
      intro token member
      rw [split] at member
      rcases List.mem_append.mp member with here | later
      · exact Nat.le_of_eq (made token here).2.2.symm
      · exact Nat.le_trans (Nat.le_add_right _ _)
          (ih (List.forall_mem_cons.mp sound).2 _ _ token later)

/-- The tokens of sound segments stand at growing offsets: a segment is not empty, so that what
follows it stands further on. -/
theorem ofSegments_increasing (line offset : Nat) :
    (tokensOf (ofSegments segments line offset)).Pairwise (·.offset < ·.offset) := by
  induction segments generalizing line offset with
  | nil => exact List.pairwise_singleton _ _
  | cons segment more ih =>
      obtain ⟨own, made, short, split⟩ := tokensOf_ofSegments_cons segment more line offset
      obtain ⟨first, others⟩ := List.forall_mem_cons.mp sound
      have after := ih others (line + lineFeeds segment.chars) (offset + segment.chars.length)
      rw [split, List.pairwise_append]
      refine ⟨?_, after, ?_⟩
      · rcases own with _ | ⟨token, _ | ⟨second, others⟩⟩
        · exact .nil
        · exact List.pairwise_singleton _ token
        · simp at short
      · intro token here later member
        have further := ofSegments_offset others _ _ later member
        have positive := List.length_pos_iff.mpr first.nonempty
        rw [(made token here).2.2]
        omega

theorem ofSegments_closed (line offset : Nat) :
    ∃ front last, tokensOf (ofSegments segments line offset) = front ++ [last] ∧
      last.kind = .eof ∧ ∀ token ∈ front, token.kind ≠ .eof := by
  induction segments generalizing line offset with
  | nil => exact ⟨[], closing line offset, rfl, rfl, by simp⟩
  | cons segment more ih =>
      obtain ⟨own, made, _, split⟩ := tokensOf_ofSegments_cons segment more line offset
      obtain ⟨first, others⟩ := List.forall_mem_cons.mp sound
      obtain ⟨front, last, whole, ending, inner⟩ := ih others _ _
      refine ⟨own ++ front, last, by rw [split, whole, List.append_assoc], ending, ?_⟩
      intro token member
      rcases List.mem_append.mp member with here | later
      · exact (first.inside _ (made token here).1).2
      · exact inner token later

end Scan

/-- **The tokens of a text are well spelled.** -/
theorem scan_spelled (text : String) : ∀ token ∈ tokensOf (scan text), token.Spelled :=
  Scan.ofSegments_spelled (segments_sound _) 1 0

/-- **The tokens of a text stand at growing offsets.** -/
theorem scan_increasing (text : String) :
    (tokensOf (scan text)).Pairwise (·.offset < ·.offset) :=
  Scan.ofSegments_increasing (segments_sound _) 1 0

/-- **One token closes the text, the last one.** -/
theorem scan_closed (text : String) :
    ∃ front last, tokensOf (scan text) = front ++ [last] ∧
      last.kind = .eof ∧ ∀ token ∈ front, token.kind ≠ .eof :=
  Scan.ofSegments_closed (segments_sound _) 1 0

theorem scan_closing (text : String) : ∃ inner last, scan text = inner ++ [.token last] :=
  Scan.ofSegments_closing _ 1 0

/-! ### Feeds -/

theorem feedFrom_tokens (pending : List Fault) (scanned : List Scanned) :
    (feedFrom pending scanned).map Feed.token = tokensOf scanned := by
  induction scanned generalizing pending with
  | nil => rfl
  | cons item more ih =>
      cases item with
      | fault fault => exact ih _
      | token token => exact congrArg (token :: ·) (ih [])

/-- The tokens that are fed to the automaton are those of the scan. -/
theorem feed_tokens (text : String) : (feed text).map Feed.token = tokensOf (scan text) :=
  feedFrom_tokens [] _

end Lox
