import Derusting.Http.Request

/-!
# The end of the head

The head of a request ends at the first blank line of the stream.  `split_request` searches for the
blank line only behind the end of the start line, so that it does not see the one that a start line
without header fields is part of.  It cuts the request where the head ends exactly if the head is
not of that kind, or is no text anyway.
-/

namespace Derusting.Http

open Foundations.Text

/-- `parts` are start line, header block and body of a buffer that is cut at its first blank
line. -/
def CutAtBlankLine (buf : List UInt8) (parts : List Char × List Char × List UInt8) : Prop :=
  ∃ lineEnd headEnd, OccursFirst crlf buf lineEnd ∧ OccursFirst blankLine buf headEnd ∧
    fromUtf8 (buf.take lineEnd) = some parts.1 ∧
    fromUtf8 ((buf.take headEnd).drop (lineEnd + 2)) = some parts.2.1 ∧
    buf.drop (headEnd + 4) = parts.2.2

/-- The start line is text and the blank line follows it directly. -/
def BareStartLine (buf : List UInt8) : Prop :=
  ∃ lineEnd, OccursFirst crlf buf lineEnd ∧ OccursFirst blankLine buf lineEnd ∧
    (fromUtf8 (buf.take lineEnd)).isSome

theorem crlf_prefix_of_blankLine {text : List UInt8} (h : blankLine <+: text) : crlf <+: text :=
  (List.prefix_append crlf crlf).trans h

/-- No blank line begins one byte behind the beginning of a line end. -/
theorem not_blankLine_of_crlf {buf : List UInt8} {lineEnd : ℕ} (h : crlf <+: buf.drop lineEnd) :
    ¬ blankLine <+: buf.drop (lineEnd + 1) := by
  obtain ⟨rest, hrest⟩ := h
  have hfeed : buf.drop (lineEnd + 1) = 10 :: rest := by
    rw [← List.drop_drop, ← hrest]
    rfl
  rw [hfeed]
  intro hblank
  exact absurd (List.cons_prefix_cons.mp hblank).1 (by decide)

/-- The first blank line begins with the first line end or behind it. -/
theorem headEnd_cases {buf : List UInt8} {lineEnd headEnd : ℕ} (hline : OccursFirst crlf buf lineEnd)
    (hhead : OccursFirst blankLine buf headEnd) :
    headEnd = lineEnd ∨ lineEnd + 2 ≤ headEnd := by
  have hle : lineEnd ≤ headEnd := hline.le (crlf_prefix_of_blankLine hhead.1)
  have hne : headEnd ≠ lineEnd + 1 := by
    rintro rfl
    exact not_blankLine_of_crlf hline.1 hhead.1
  omega

/-- `split_request` cuts at the first blank line behind the end of the start line. -/
theorem splitRequest_eq_some_iff {buf : List UInt8} {parts : List Char × List Char × List UInt8} :
    splitRequest buf = some parts ↔
      ∃ lineEnd, OccursFirst crlf buf lineEnd ∧
        ∃ length, OccursFirst blankLine (buf.drop (lineEnd + 2)) length ∧
          fromUtf8 (buf.take lineEnd) = some parts.1 ∧
          fromUtf8 ((buf.drop (lineEnd + 2)).take length) = some parts.2.1 ∧
          buf.drop (lineEnd + 2 + length + 4) = parts.2.2 := by
  obtain ⟨startLine, headers, body⟩ := parts
  have hcrlf {text : List UInt8} {index : ℕ} :
      position crlf text = some index ↔ OccursFirst crlf text index :=
    position_eq_some_iff_occursFirst (by decide)
  have hblank {text : List UInt8} {index : ℕ} :
      position blankLine text = some index ↔ OccursFirst blankLine text index :=
    position_eq_some_iff_occursFirst (by decide)
  simp only [splitRequest, Option.bind_eq_bind, Option.bind_eq_some_iff, hcrlf, List.drop_drop,
    hblank, Option.some.injEq, Prod.mk.injEq]
  constructor
  · rintro ⟨lineEnd, hline, length, hlength, _, hstart, _, hheaders, rfl, rfl, rfl⟩
    exact ⟨lineEnd, hline, length, hlength, hstart, hheaders, rfl⟩
  · rintro ⟨lineEnd, hline, length, hlength, hstart, hheaders, rfl⟩
    exact ⟨lineEnd, hline, length, hlength, _, hstart, _, hheaders, rfl, rfl, rfl⟩

/-- Behind a start line that is not bare, the search finds the first blank line of the buffer. -/
theorem occursFirst_drop_iff {buf : List UInt8} {lineEnd headEnd : ℕ}
    (hhead : OccursFirst blankLine buf headEnd) (hbehind : lineEnd + 2 ≤ headEnd) {length : ℕ} :
    OccursFirst blankLine (buf.drop (lineEnd + 2)) length ↔ lineEnd + 2 + length = headEnd := by
  constructor
  · rintro ⟨hoccurs, hnone⟩
    rw [List.drop_drop] at hoccurs
    have hle : headEnd ≤ lineEnd + 2 + length := hhead.le hoccurs
    have hge : ¬ headEnd - (lineEnd + 2) < length := by
      intro hlt
      apply hnone _ hlt
      rw [List.drop_drop, Nat.add_sub_cancel' hbehind]
      exact hhead.1
    omega
  · rintro rfl
    refine ⟨?_, fun earlier hearlier ↦ ?_⟩
    · rw [List.drop_drop]
      exact hhead.1
    · rw [List.drop_drop]
      exact hhead.2 _ (Nat.add_lt_add_left hearlier _)

/-- A head that ends behind the end of the start line is cut at its end. -/
theorem splitRequest_iff_of_behind {buf : List UInt8} {lineEnd headEnd : ℕ}
    (hline : OccursFirst crlf buf lineEnd) (hhead : OccursFirst blankLine buf headEnd)
    (hbehind : lineEnd + 2 ≤ headEnd) (parts : List Char × List Char × List UInt8) :
    splitRequest buf = some parts ↔ CutAtBlankLine buf parts := by
  rw [splitRequest_eq_some_iff]
  constructor
  · rintro ⟨otherEnd, hother, length, hlength, hstart, hheaders, hbody⟩
    obtain rfl := hline.unique hother
    obtain rfl := (occursFirst_drop_iff hhead hbehind).mp hlength
    refine ⟨lineEnd, _, hline, hhead, hstart, ?_, hbody⟩
    rw [List.drop_take, Nat.add_sub_cancel_left]
    exact hheaders
  · rintro ⟨otherEnd, otherHead, hother, hotherHead, hstart, hheaders, hbody⟩
    obtain rfl := hline.unique hother
    obtain rfl := hhead.unique hotherHead
    refine ⟨lineEnd, hline, headEnd - (lineEnd + 2), ?_, hstart, ?_, ?_⟩
    · exact (occursFirst_drop_iff hhead hbehind).mpr (Nat.add_sub_cancel' hbehind)
    · rw [← List.drop_take]
      exact hheaders
    · rw [Nat.add_sub_cancel' hbehind]
      exact hbody

/-- The body never begins as early as a blank line that ends the start line itself would end. -/
theorem splitRequest_ne_of_crlf {buf : List UInt8} {lineEnd : ℕ}
    (hline : OccursFirst crlf buf lineEnd) {startLine headers : List Char} :
    splitRequest buf ≠ some (startLine, headers, buf.drop (lineEnd + 4)) := by
  intro hsplit
  obtain ⟨otherEnd, hother, length, hlength, -, -, hbody⟩ := splitRequest_eq_some_iff.mp hsplit
  obtain rfl := hline.unique hother
  have hfits := hlength.add_length_le (by decide)
  have hfour : blankLine.length = 4 := rfl
  have hlengths := congrArg List.length hbody
  rw [List.length_drop] at hfits
  rw [List.length_drop, List.length_drop] at hlengths
  omega

/-- What a request with a bare start line should be cut into, and is not. -/
theorem exists_cutAtBlankLine_of_bare {buf : List UInt8} (h : BareStartLine buf) :
    ∃ parts, CutAtBlankLine buf parts ∧ splitRequest buf ≠ some parts := by
  obtain ⟨lineEnd, hline, hhead, hstart⟩ := h
  obtain ⟨startLine, hstart⟩ := Option.isSome_iff_exists.mp hstart
  have hempty : fromUtf8 ((buf.take lineEnd).drop (lineEnd + 2)) = some [] := by
    rw [List.drop_eq_nil_of_le ((List.length_take_le _ _).trans (Nat.le_add_right _ _))]
    rfl
  exact ⟨(startLine, [], buf.drop (lineEnd + 4)),
    ⟨lineEnd, lineEnd, hline, hhead, hstart, hempty, rfl⟩, splitRequest_ne_of_crlf hline⟩

/-- `split_request` cuts a buffer where its head ends, and nothing else, exactly if the start line
is not directly followed by the blank line, or is no text. -/
theorem splitRequest_cuts_iff (buf : List UInt8) :
    (∀ parts, splitRequest buf = some parts ↔ CutAtBlankLine buf parts) ↔ ¬ BareStartLine buf := by
  constructor
  · intro hcuts hbare
    obtain ⟨parts, hcut, hne⟩ := exists_cutAtBlankLine_of_bare hbare
    exact hne ((hcuts parts).mpr hcut)
  · intro hbare parts
    by_cases hblank : ∃ headEnd, OccursFirst blankLine buf headEnd
    · obtain ⟨headEnd, hhead⟩ := hblank
      obtain ⟨lineEnd, hline⟩ := exists_occursFirst ⟨headEnd, crlf_prefix_of_blankLine hhead.1⟩
      rcases headEnd_cases hline hhead with rfl | hbehind
      · -- the start line is bare, so it is no text
        have hinvalid : fromUtf8 (buf.take headEnd) = none := by
          by_contra hvalid
          exact hbare ⟨headEnd, hline, hhead, Option.isSome_iff_ne_none.mpr hvalid⟩
        rw [splitRequest_eq_some_iff]
        constructor
        · rintro ⟨otherEnd, hother, -, -, hstart, -⟩
          obtain rfl := hline.unique hother
          rw [hinvalid] at hstart
          cases hstart
        · rintro ⟨otherEnd, -, hother, -, hstart, -⟩
          obtain rfl := hline.unique hother
          rw [hinvalid] at hstart
          cases hstart
      · exact splitRequest_iff_of_behind hline hhead hbehind parts
    · rw [splitRequest_eq_some_iff]
      constructor
      · rintro ⟨lineEnd, -, length, hlength, -⟩
        have hoccurs := hlength.1
        rw [List.drop_drop] at hoccurs
        exact absurd (exists_occursFirst ⟨_, hoccurs⟩) hblank
      · rintro ⟨-, headEnd, -, hhead, -⟩
        exact absurd ⟨headEnd, hhead⟩ hblank

/-- A request without header fields, the body of which looks like a header block. -/
def bareRequest : List UInt8 := asBytes "PUT / HTTP/1.1\r\n\r\nGuid: 7\r\n\r\n".toList

example : splitRequest bareRequest =
    some ("PUT / HTTP/1.1".toList, "\r\nGuid: 7".toList, []) := by decide +kernel

/-- The body of such a request is taken for header fields. -/
theorem splitRequest_misses_bareRequest :
    ¬ ∀ parts, splitRequest bareRequest = some parts ↔ CutAtBlankLine bareRequest parts := by
  intro hcuts
  have hline : OccursFirst crlf bareRequest 14 :=
    (position_eq_some_iff_occursFirst (by decide)).mp (by decide +kernel)
  have hhead : OccursFirst blankLine bareRequest 14 :=
    (position_eq_some_iff_occursFirst (by decide)).mp (by decide +kernel)
  have hstart : (fromUtf8 (bareRequest.take 14)).isSome := by decide +kernel
  obtain ⟨parts, hcut, hne⟩ := exists_cutAtBlankLine_of_bare ⟨14, hline, hhead, hstart⟩
  exact hne ((hcuts parts).mpr hcut)

end Derusting.Http
