import Mathlib.Data.List.Basic
import Mathlib.Data.List.Infix

/-!
# Filling a buffer with random bytes

`tasks/rng.rs`.  `getrandom` has its buffers filled by asking the hardware for one word after the
other; the keys of messages and the guids of jobs are made of these bytes.  The answers of the
hardware are a list here.  A busy generator is asked again without a bound, so a call may use up
every answer of a list and wait for another one.
-/

namespace Derusting.Hardware

/-- `HalStatus`. -/
inductive HalStatus where
  | ok
  | error
  | busy
  | timeout
deriving DecidableEq

/-- The discriminants of `HalStatus`. -/
def HalStatus.code : HalStatus → UInt32
  | .ok => 0x00
  | .error => 0x01
  | .busy => 0x02
  | .timeout => 0x03

/-- One call of `HAL_RNG_GenerateRandomNumber`: what it returns, and what is in `random_val` after
it. -/
structure Answer where
  status : UInt32
  randomVal : UInt32
deriving DecidableEq

namespace Answer

def Ok (answer : Answer) : Prop := answer.status = HalStatus.ok.code

def Busy (answer : Answer) : Prop := answer.status = HalStatus.busy.code

instance (answer : Answer) : Decidable answer.Ok :=
  inferInstanceAs (Decidable (answer.status = HalStatus.ok.code))

instance (answer : Answer) : Decidable answer.Busy :=
  inferInstanceAs (Decidable (answer.status = HalStatus.busy.code))

theorem Busy.not_ok {answer : Answer} (h : answer.Busy) : ¬ answer.Ok := by
  intro hok
  have hsame : HalStatus.busy.code = HalStatus.ok.code := h.symm.trans hok
  exact absurd hsame (by decide)

end Answer

/-- `u32::to_le_bytes`. -/
def toLeBytes (word : UInt32) : List UInt8 :=
  [word.toUInt8, (word >>> 8).toUInt8, (word >>> 16).toUInt8, (word >>> 24).toUInt8]

@[simp]
theorem length_toLeBytes (word : UInt32) : (toLeBytes word).length = 4 := rfl

/-- `buf[start..stop].copy_from_slice(source)`, which panics on a range that is not in the buffer or
not as long as the source. -/
def copyFromSlice (buf : List UInt8) (start stop : ℕ) (source : List UInt8) :
    Option (List UInt8) :=
  if start ≤ stop ∧ stop ≤ buf.length ∧ source.length = stop - start then
    some (buf.take start ++ source ++ buf.drop stop)
  else none

/-- A source that fits goes behind the first `start` bytes and leaves those behind it. -/
theorem exists_copyFromSlice {buf source : List UInt8} {start : ℕ}
    (h : start + source.length ≤ buf.length) :
    ∃ next, copyFromSlice buf start (start + source.length) source = some next ∧
      next.length = buf.length ∧ next.take (start + source.length) = buf.take start ++ source ∧
      next.drop (start + source.length) = buf.drop (start + source.length) := by
  have hhead : (buf.take start ++ source).length = start + source.length := by
    rw [List.length_append, List.length_take]
    omega
  refine ⟨buf.take start ++ source ++ buf.drop (start + source.length), ?_, ?_, ?_, ?_⟩
  · rw [copyFromSlice, if_pos]
    exact ⟨Nat.le_add_right _ _, h, (Nat.add_sub_cancel_left _ _).symm⟩
  · rw [List.length_append, hhead, List.length_drop]
    omega
  · rw [← hhead, List.take_left]
  · rw [← hhead, List.drop_left]

/-- How far a call has come with the answers it was given. -/
inductive Outcome where
  | ok
  | err
  | panic
  /-- All answers are used up and the buffer is not full. -/
  | waiting
deriving DecidableEq

/-- What a call makes of its buffer, and the answers it leaves for later calls. -/
structure Fill where
  outcome : Outcome
  buf : List UInt8
  left : List Answer
deriving DecidableEq

/-- The loop of `__getrandom_v03_custom` from the index `i` on. -/
def fillFrom (buf : List UInt8) (i : ℕ) : List Answer → Fill
  | [] => if i < buf.length then ⟨.waiting, buf, []⟩ else ⟨.ok, buf, []⟩
  | answer :: left =>
      if i < buf.length then
        if answer.Ok then
          let bytes := toLeBytes answer.randomVal
          let take := min (buf.length - i) 4
          match copyFromSlice buf i (i + take) (bytes.take take) with
          | none => ⟨.panic, buf, left⟩
          | some buf => fillFrom buf (i + take) left
        else if answer.Busy then fillFrom buf i left
        else ⟨.err, buf, left⟩
      else ⟨.ok, buf, answer :: left⟩

/-- `__getrandom_v03_custom`. -/
def getrandomV03Custom (buf : List UInt8) (answers : List Answer) : Fill := fillFrom buf 0 answers

example : getrandomV03Custom [0, 0, 0, 0, 0] [⟨0, 0x04030201⟩, ⟨2, 7⟩, ⟨0, 0x08070605⟩, ⟨1, 0⟩] =
    ⟨.ok, [1, 2, 3, 4, 5], [⟨1, 0⟩]⟩ := by decide

/-! ## The words behind the bytes -/

/-- The words of the successful calls, in order. -/
def words (answers : List Answer) : List UInt32 :=
  (answers.filter fun answer ↦ answer.Ok).map Answer.randomVal

/-- The number of words that a buffer takes: a quarter of its length, rounded up. -/
def wordsFor (len : ℕ) : ℕ := (len + 3) / 4

/-- The bytes of words, each with its lowest byte first. -/
def bytesOf (words : List UInt32) : List UInt8 := words.flatMap toLeBytes

theorem words_append (left right : List Answer) :
    words (left ++ right) = words left ++ words right := by
  rw [words, List.filter_append, List.map_append, words, words]

theorem words_of_ok {answer : Answer} (h : answer.Ok) : words [answer] = [answer.randomVal] := by
  simp [words, h]

theorem words_of_not_ok {answer : Answer} (h : ¬ answer.Ok) : words [answer] = [] := by
  simp [words, h]

theorem length_words_le {left right : List Answer} (h : left <+: right) :
    (words left).length ≤ (words right).length := by
  obtain ⟨more, rfl⟩ := h
  rw [words_append, List.length_append]
  exact Nat.le_add_right _ _

theorem length_bytesOf (words : List UInt32) : (bytesOf words).length = 4 * words.length := by
  induction words with
  | nil => rfl
  | cons word words ih =>
      rw [bytesOf, List.flatMap_cons, List.length_append, length_toLeBytes, ← bytesOf, ih,
        List.length_cons]
      omega

/-- One more word, as far as there is room for it behind whole words. -/
theorem take_bytesOf_append {words : List UInt32} {len : ℕ} (h : 4 * words.length ≤ len)
    (word : UInt32) :
    (bytesOf (words ++ [word])).take len =
      bytesOf words ++ (toLeBytes word).take (len - 4 * words.length) := by
  have hold : (bytesOf words).take len = bytesOf words :=
    List.take_of_length_le (by rw [length_bytesOf]; exact h)
  have hbytes : bytesOf (words ++ [word]) = bytesOf words ++ toLeBytes word := by
    rw [bytesOf, List.flatMap_append, List.flatMap_singleton, ← bytesOf]
  rw [hbytes, List.take_append, hold, length_bytesOf]

/-- The loop has written the first `i` bytes of a buffer from the answers `seen`. -/
structure Filled (start : List UInt8) (seen : List Answer) (buf : List UInt8) (i : ℕ) : Prop where
  length : buf.length = start.length
  index : i = min (4 * (words seen).length) start.length
  written : buf.take i = (bytesOf (words seen)).take start.length
  untouched : buf.drop i = start.drop i
  sound : ∀ answer ∈ seen, answer.Ok ∨ answer.Busy
  needed : 4 * (words seen).length < start.length + 4

namespace Filled

variable {start buf : List UInt8} {seen : List Answer} {i : ℕ}

theorem nil (start : List UInt8) : Filled start [] start 0 where
  length := rfl
  index := (Nat.zero_min _).symm
  written := by rw [List.take_zero]; exact List.take_nil.symm
  untouched := rfl
  sound _ hmem := by cases hmem
  needed := by
    rw [words, List.filter_nil, List.map_nil, List.length_nil]
    omega

/-- A busy answer is not written anywhere. -/
theorem busy (h : Filled start seen buf i) {answer : Answer} (hbusy : answer.Busy) :
    Filled start (seen ++ [answer]) buf i := by
  have hwords : words (seen ++ [answer]) = words seen := by
    rw [words_append, words_of_not_ok hbusy.not_ok, List.append_nil]
  constructor
  · exact h.length
  · rw [hwords]; exact h.index
  · rw [hwords]; exact h.written
  · exact h.untouched
  · exact List.forall_mem_append.mpr ⟨h.sound, List.forall_mem_singleton.mpr (.inr hbusy)⟩
  · rw [hwords]; exact h.needed

/-- The bytes of a word go behind those written, as far as there is room. -/
theorem word (h : Filled start seen buf i) (hroom : i < buf.length) {answer : Answer}
    (hok : answer.Ok) :
    ∃ next, copyFromSlice buf i (i + min (buf.length - i) 4)
        ((toLeBytes answer.randomVal).take (min (buf.length - i) 4)) = some next ∧
      Filled start (seen ++ [answer]) next (i + min (buf.length - i) 4) := by
  have hlength := h.length
  have hindex := h.index
  -- there is room, so all words before this one are written to their last byte
  have hfull : i = 4 * (words seen).length := by omega
  have hold : buf.take i = bytesOf (words seen) := by
    rw [h.written, List.take_of_length_le]
    rw [length_bytesOf]
    omega
  have hwords : words (seen ++ [answer]) = words seen ++ [answer.randomVal] := by
    rw [words_append, words_of_ok hok]
  have hcount : (words (seen ++ [answer])).length = (words seen).length + 1 := by
    rw [hwords, List.length_append, List.length_singleton]
  generalize hsource : (toLeBytes answer.randomVal).take (min (buf.length - i) 4) = source
  have htake : min (buf.length - i) 4 = source.length := by
    rw [← hsource, List.length_take, length_toLeBytes]
    omega
  have hroomy : i + source.length ≤ buf.length := by omega
  obtain ⟨next, hnext, hsame, hhead, hrest⟩ := exists_copyFromSlice hroomy
  rw [htake]
  refine ⟨next, hnext, ?_⟩
  constructor
  · rw [hsame, hlength]
  · rw [hcount]
    omega
  · calc
      next.take (i + source.length) = bytesOf (words seen) ++ source := by rw [hhead, hold]
      _ = bytesOf (words seen) ++ (toLeBytes answer.randomVal).take (start.length - i) := by
        rw [← hsource, hlength, ← length_toLeBytes answer.randomVal, ← List.take_take,
          List.take_length]
      _ = (bytesOf (words (seen ++ [answer]))).take start.length := by
        rw [hwords, take_bytesOf_append (by omega), ← hfull]
  · rw [hrest, ← List.drop_drop, ← List.drop_drop, h.untouched]
  · exact List.forall_mem_append.mpr ⟨h.sound, List.forall_mem_singleton.mpr (.inl hok)⟩
  · rw [hcount]
    omega

theorem full (h : Filled start seen buf i) (hroom : ¬ i < buf.length) :
    Filled start seen buf start.length := by
  have hindex := h.index
  have hlength := h.length
  obtain rfl : i = start.length := by omega
  exact h

/-- A full buffer has taken the words it needs and no more. -/
theorem length_words (h : Filled start seen buf start.length) :
    (words seen).length = wordsFor start.length := by
  have hindex := h.index
  have hneeded := h.needed
  rw [wordsFor]
  omega

/-- A buffer with room has not taken all the words it needs. -/
theorem length_words_lt (h : Filled start seen buf i) (hroom : i < start.length) :
    (words seen).length < wordsFor start.length := by
  have hindex := h.index
  rw [wordsFor]
  omega

end Filled

/-- How a call ends on a list of answers. -/
inductive Ends (start : List UInt8) (answers : List Answer) : Fill → Prop
  | ok {used left : List Answer} {buf : List UInt8} (hanswers : answers = used ++ left)
      (hfilled : Filled start used buf start.length) : Ends start answers ⟨.ok, buf, left⟩
  | err {used left : List Answer} {answer : Answer} {buf : List UInt8} {i : ℕ}
      (hanswers : answers = used ++ answer :: left) (hfilled : Filled start used buf i)
      (hroom : i < start.length) (hok : ¬ answer.Ok) (hbusy : ¬ answer.Busy) :
      Ends start answers ⟨.err, buf, left⟩
  | waiting {buf : List UInt8} {i : ℕ} (hfilled : Filled start answers buf i)
      (hroom : i < start.length) : Ends start answers ⟨.waiting, buf, []⟩

theorem Filled.ends {start buf : List UInt8} {seen answers : List Answer} {i : ℕ}
    (h : Filled start seen buf i) : Ends start (seen ++ answers) (fillFrom buf i answers) := by
  induction answers generalizing seen buf i with
  | nil =>
      rw [List.append_nil, fillFrom]
      by_cases hroom : i < buf.length
      · rw [if_pos hroom]
        exact .waiting h (h.length ▸ hroom)
      · rw [if_neg hroom]
        exact .ok (List.append_nil seen).symm (h.full hroom)
  | cons answer left ih =>
      have hmove : seen ++ answer :: left = (seen ++ [answer]) ++ left := by
        rw [List.append_assoc, List.singleton_append]
      rw [fillFrom]
      by_cases hroom : i < buf.length
      · rw [if_pos hroom]
        by_cases hok : answer.Ok
        · obtain ⟨next, hnext, hfilled⟩ := h.word hroom hok
          rw [if_pos hok]
          simp only [hnext]
          rw [hmove]
          exact ih hfilled
        · rw [if_neg hok]
          by_cases hbusy : answer.Busy
          · rw [if_pos hbusy, hmove]
            exact ih (h.busy hbusy)
          · rw [if_neg hbusy]
            exact .err rfl h (h.length ▸ hroom) hok hbusy
      · rw [if_neg hroom]
        exact .ok rfl (h.full hroom)

theorem ends_getrandom (buf : List UInt8) (answers : List Answer) :
    Ends buf answers (getrandomV03Custom buf answers) :=
  (Filled.nil buf).ends

/-- Of two parts at the head of the answers, the one without a failed answer has no more words than
the one that leads up to it. -/
theorem mem_or_length_words_le {used left before after : List Answer} {answer : Answer}
    (h : used ++ left = before ++ answer :: after) (hok : ¬ answer.Ok) :
    answer ∈ used ∨ (words used).length ≤ (words before).length := by
  have hfirst : used <+: before ++ answer :: after := ⟨left, h⟩
  have hsecond : before ++ [answer] <+: before ++ answer :: after :=
    ⟨after, by rw [List.append_assoc, List.singleton_append]⟩
  rcases List.prefix_or_prefix_of_prefix hfirst hsecond with hshort | hlong
  · have hwords : words (before ++ [answer]) = words before := by
      rw [words_append, words_of_not_ok hok, List.append_nil]
    exact .inr (hwords ▸ length_words_le hshort)
  · exact .inl (hlong.subset (List.mem_append_right before List.mem_cons_self))

namespace Ends

variable {start : List UInt8} {answers : List Answer} {fill : Fill}

theorem not_panic (h : Ends start answers fill) : fill.outcome ≠ .panic := by
  cases h <;> exact fun hpanic ↦ nomatch hpanic

theorem length (h : Ends start answers fill) : fill.buf.length = start.length := by
  cases h with
  | ok _ hfilled => exact hfilled.length
  | err _ hfilled => exact hfilled.length
  | waiting hfilled => exact hfilled.length

theorem filled (h : Ends start answers fill) (hok : fill.outcome = .ok) :
    ∃ used, answers = used ++ fill.left ∧ Filled start used fill.buf start.length := by
  cases h with
  | ok hanswers hfilled => exact ⟨_, hanswers, hfilled⟩
  | err => cases hok
  | waiting => cases hok

/-- A call returns with `Ok` if the words come before a failed answer. -/
theorem ok_of_words (h : Ends start answers fill) {used left : List Answer}
    (hanswers : answers = used ++ left) (hsound : ∀ answer ∈ used, answer.Ok ∨ answer.Busy)
    (hwords : wordsFor start.length ≤ (words used).length) : fill.outcome = .ok := by
  cases h with
  | ok => rfl
  | err hfailed hfilled hroom hok hbusy =>
      have hfew := hfilled.length_words_lt hroom
      rcases mem_or_length_words_le (hanswers.symm.trans hfailed) hok with hmem | hle
      · exact ((hsound _ hmem).elim hok hbusy).elim
      · omega
  | waiting hfilled hroom =>
      have hfew := hfilled.length_words_lt hroom
      have hle := length_words_le ⟨left, hanswers.symm⟩
      omega

/-- A call returns with `Err` if a failed answer comes before the last word. -/
theorem err_of_failed (h : Ends start answers fill) {before after : List Answer} {answer : Answer}
    (hanswers : answers = before ++ answer :: after)
    (hwords : (words before).length < wordsFor start.length) (hok : ¬ answer.Ok)
    (hbusy : ¬ answer.Busy) : fill.outcome = .err := by
  cases h with
  | ok hused hfilled =>
      have hall := hfilled.length_words
      rcases mem_or_length_words_le (hused.symm.trans hanswers) hok with hmem | hle
      · exact ((hfilled.sound _ hmem).elim hok hbusy).elim
      · omega
  | err => rfl
  | waiting hfilled hroom =>
      have hmem : answer ∈ answers := by
        rw [hanswers]
        exact List.mem_append_right before List.mem_cons_self
      exact ((hfilled.sound answer hmem).elim hok hbusy).elim

theorem failed (h : Ends start answers fill) (herr : fill.outcome = .err) :
    ∃ before answer after, answers = before ++ answer :: after ∧
      (words before).length < wordsFor start.length ∧ ¬ answer.Ok ∧ ¬ answer.Busy := by
  cases h with
  | ok => cases herr
  | err hfailed hfilled hroom hok hbusy =>
      exact ⟨_, _, _, hfailed, hfilled.length_words_lt hroom, hok, hbusy⟩
  | waiting => cases herr

end Ends

/-- A call never leaves its buffer.  It returns with `Ok` if and only if the hardware has delivered
a word for every four bytes before it fails; these words, in order, are the buffer.  It returns with
`Err` if and only if an answer that is neither `Ok` nor `Busy` comes before the last of them. -/
theorem getrandom_fills (buf : List UInt8) (answers : List Answer) :
    let fill := getrandomV03Custom buf answers
    (fill.outcome ≠ .panic ∧ fill.buf.length = buf.length) ∧
      (fill.outcome = .ok → ∃ used, answers = used ++ fill.left ∧
        (∀ answer ∈ used, answer.Ok ∨ answer.Busy) ∧
        (words used).length = wordsFor buf.length ∧
        fill.buf = (bytesOf (words used)).take buf.length) ∧
      (fill.outcome = .ok ↔ ∃ used left, answers = used ++ left ∧
        (∀ answer ∈ used, answer.Ok ∨ answer.Busy) ∧
        wordsFor buf.length ≤ (words used).length) ∧
      (fill.outcome = .err ↔ ∃ before answer after, answers = before ++ answer :: after ∧
        (words before).length < wordsFor buf.length ∧ ¬ answer.Ok ∧ ¬ answer.Busy) := by
  intro fill
  have hends : Ends buf answers fill := ends_getrandom buf answers
  refine ⟨⟨hends.not_panic, hends.length⟩, fun hok ↦ ?_, ⟨fun hok ↦ ?_, ?_⟩,
    hends.failed, ?_⟩
  · obtain ⟨used, hused, hfilled⟩ := hends.filled hok
    refine ⟨used, hused, hfilled.sound, hfilled.length_words, ?_⟩
    rw [← hfilled.written, List.take_of_length_le hends.length.le]
  · obtain ⟨used, hused, hfilled⟩ := hends.filled hok
    exact ⟨used, _, hused, hfilled.sound, hfilled.length_words.ge⟩
  · rintro ⟨used, left, hused, hsound, hwords⟩
    exact hends.ok_of_words hused hsound hwords
  · rintro ⟨before, answer, after, hanswers, hwords, hok, hbusy⟩
    exact hends.err_of_failed hanswers hwords hok hbusy

end Derusting.Hardware
