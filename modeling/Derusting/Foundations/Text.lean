import Mathlib.Data.List.Basic
import Mathlib.Data.List.DropRight
import Mathlib.Data.Nat.Find

/-!
# Bytes and text

The string functions of Rust's standard library that small protocol parsers are written with, on
lists of bytes and characters: substring search, UTF-8, lines, splitting, trimming, case-insensitive
comparison and unsigned integers.  The lemmas evaluate them on text that is put together from known
pieces, which is what a round trip through a parser needs.
-/

namespace Foundations.Text

/-! ## Searching and splitting -/

section Occurrence

variable {α : Type*}

/-- `needle` occurs in `text` at `index` and nowhere before. -/
def OccursFirst (needle text : List α) (index : ℕ) : Prop :=
  needle <+: text.drop index ∧ ∀ earlier < index, ¬ needle <+: text.drop earlier

theorem OccursFirst.le {needle text : List α} {index other : ℕ}
    (h : OccursFirst needle text index) (hother : needle <+: text.drop other) : index ≤ other := by
  by_contra hlt
  exact h.2 other (Nat.not_le.mp hlt) hother

theorem OccursFirst.unique {needle text : List α} {index other : ℕ}
    (h : OccursFirst needle text index) (hother : OccursFirst needle text other) : index = other :=
  Nat.le_antisymm (h.le hother.1) (hother.le h.1)

/-- What occurs somewhere occurs somewhere first. -/
theorem exists_occursFirst {needle text : List α} (h : ∃ index, needle <+: text.drop index) :
    ∃ index, OccursFirst needle text index := by
  classical
  exact ⟨Nat.find h, Nat.find_spec h, fun _ ↦ Nat.find_min h⟩

theorem OccursFirst.add_length_le {needle text : List α} {index : ℕ} (hne : needle ≠ [])
    (h : OccursFirst needle text index) : index + needle.length ≤ text.length := by
  have hlength := h.1.length_le
  have hpos : 0 < needle.length := List.length_pos_iff.mpr hne
  rw [List.length_drop] at hlength
  omega

end Occurrence

section Search

variable {α : Type*} [DecidableEq α]

/-- The first position of a nonempty `needle`: `windows(..).position(..)` on a slice. -/
def position (needle : List α) : List α → Option ℕ
  | [] => none
  | head :: rest =>
      if needle <+: head :: rest then some 0 else (position needle rest).map (· + 1)

/-- `str::split_once` at a character. -/
def splitOnce (separator : α) : List α → Option (List α × List α)
  | [] => none
  | head :: rest =>
      if head = separator then some ([], rest)
      else (splitOnce separator rest).map fun (left, right) ↦ (head :: left, right)

/-- What precedes a place without the first element of the needle cannot contain the needle. -/
theorem position_append_of_notMem {first : α} {needle before after : List α}
    (h : first ∉ before) :
    position (first :: needle) (before ++ after) =
      (position (first :: needle) after).map (· + before.length) := by
  induction before with
  | nil => simp
  | cons head before ih =>
      rw [List.mem_cons, not_or] at h
      obtain ⟨hhead, hrest⟩ := h
      have hno : ¬ (first :: needle) <+: head :: (before ++ after) := fun hprefix ↦
        hhead (List.cons_prefix_cons.mp hprefix).1
      rw [List.cons_append, position, if_neg hno, ih hrest, Option.map_map]
      rfl

theorem position_self (needle rest : List α) (h : needle ≠ []) :
    position needle (needle ++ rest) = some 0 := by
  cases needle with
  | nil => exact absurd rfl h
  | cons first needle =>
      rw [List.cons_append, position, if_pos]
      exact List.prefix_append _ _

/-- A needle is found in a text exactly if it is found at the same place when the text goes on, and
ends before that. -/
theorem position_eq_some_iff {needle left : List α} (right : List α) (h : needle ≠ [])
    {index : ℕ} :
    position needle left = some index ↔
      position needle (left ++ right) = some index ∧ index + needle.length ≤ left.length := by
  have hpos : 0 < needle.length := List.length_pos_iff.mpr h
  induction left generalizing index with
  | nil =>
      constructor
      · intro hnone
        cases hnone
      · rintro ⟨-, hlength⟩
        rw [List.length_nil] at hlength
        omega
  | cons head left ih =>
      rw [List.cons_append, position, position, List.length_cons]
      by_cases hshort : needle <+: head :: left
      · have hlong : needle <+: head :: (left ++ right) :=
          hshort.trans (List.prefix_append (head :: left) right)
        have hlength : needle.length ≤ left.length + 1 := hshort.length_le
        rw [if_pos hshort, if_pos hlong]
        constructor
        · intro hfound
          obtain rfl := Option.some.inj hfound
          exact ⟨rfl, by omega⟩
        · exact fun hfound ↦ hfound.1
      · rw [if_neg hshort]
        by_cases hlong : needle <+: head :: (left ++ right)
        · -- the needle begins here but ends beyond `left`
          have hbeyond : left.length + 1 < needle.length := by
            by_contra hle
            exact hshort (List.prefix_of_prefix_length_le hlong
              (List.prefix_append (head :: left) right) (Nat.not_lt.mp hle))
          rw [if_pos hlong, Option.map_eq_some_iff]
          constructor
          · rintro ⟨later, hlater, rfl⟩
            have hlength := (ih.mp hlater).2
            omega
          · intro hfound
            have hlength := hfound.2
            omega
        · rw [if_neg hlong, Option.map_eq_some_iff, Option.map_eq_some_iff]
          constructor
          · rintro ⟨later, hlater, rfl⟩
            obtain ⟨hfound, hlength⟩ := ih.mp hlater
            exact ⟨⟨later, hfound, rfl⟩, by omega⟩
          · rintro ⟨⟨later, hlater, rfl⟩, hlength⟩
            exact ⟨later, ih.mpr ⟨hlater, by omega⟩, rfl⟩

/-- The search finds the first occurrence, and finds one if there is one. -/
theorem position_eq_some_iff_occursFirst {needle text : List α} {index : ℕ} (h : needle ≠ []) :
    position needle text = some index ↔ OccursFirst needle text index := by
  induction text generalizing index with
  | nil =>
      constructor
      · intro hnone
        cases hnone
      · rintro ⟨hoccurs, -⟩
        rw [List.drop_nil] at hoccurs
        exact absurd (List.prefix_nil.mp hoccurs) h
  | cons head text ih =>
      rw [position]
      by_cases hhere : needle <+: head :: text
      · rw [if_pos hhere, Option.some.injEq]
        constructor
        · rintro rfl
          exact ⟨hhere, fun earlier hearlier ↦ absurd hearlier (Nat.not_lt_zero earlier)⟩
        · rintro ⟨-, hnone⟩
          by_contra hne
          exact hnone 0 (Nat.pos_of_ne_zero (Ne.symm hne)) hhere
      · rw [if_neg hhere, Option.map_eq_some_iff]
        constructor
        · rintro ⟨later, hlater, rfl⟩
          obtain ⟨hoccurs, hnone⟩ := ih.mp hlater
          refine ⟨hoccurs, fun earlier hearlier ↦ ?_⟩
          cases earlier with
          | zero => exact hhere
          | succ earlier => exact hnone earlier (Nat.lt_of_succ_lt_succ hearlier)
        · rintro ⟨hoccurs, hnone⟩
          cases index with
          | zero => exact absurd hoccurs hhere
          | succ later =>
              exact ⟨later, ih.mpr ⟨hoccurs, fun earlier hearlier ↦
                hnone (earlier + 1) (Nat.succ_lt_succ hearlier)⟩, rfl⟩

theorem splitOnce_append {separator : α} {left right : List α} (h : separator ∉ left) :
    splitOnce separator (left ++ separator :: right) = some (left, right) := by
  induction left with
  | nil => simp [splitOnce]
  | cons head left ih =>
      rw [List.mem_cons, not_or] at h
      obtain ⟨hhead, hrest⟩ := h
      rw [List.cons_append, splitOnce, if_neg (Ne.symm hhead), ih hrest]
      rfl

end Search

/-! ## UTF-8 -/

/-- The bytes of a text: `str::as_bytes`. -/
def asBytes (text : List Char) : List UInt8 := text.flatMap String.utf8EncodeChar

/-- A character of which some bytes are still owed: how many, the range of the next one, and the
value so far. -/
structure Owed where
  count : ℕ
  low : UInt8
  high : UInt8
  value : ℕ

/-- What the first byte of a character announces. -/
def leadByte (byte : UInt8) : Option (Char ⊕ Owed) :=
  if byte ≤ 0x7f then some (.inl (Char.ofNat byte.toNat))
  else if 0xc2 ≤ byte ∧ byte ≤ 0xdf then some (.inr ⟨1, 0x80, 0xbf, byte.toNat - 0xc0⟩)
  else if byte = 0xe0 then some (.inr ⟨2, 0xa0, 0xbf, 0⟩)
  else if byte = 0xed then some (.inr ⟨2, 0x80, 0x9f, 0xd⟩)
  else if 0xe1 ≤ byte ∧ byte ≤ 0xef then some (.inr ⟨2, 0x80, 0xbf, byte.toNat - 0xe0⟩)
  else if byte = 0xf0 then some (.inr ⟨3, 0x90, 0xbf, 0⟩)
  else if 0xf1 ≤ byte ∧ byte ≤ 0xf3 then some (.inr ⟨3, 0x80, 0xbf, byte.toNat - 0xf0⟩)
  else if byte = 0xf4 then some (.inr ⟨3, 0x80, 0x8f, 4⟩)
  else none

/-- Decode from between two characters, or from inside one. -/
def decodeFrom : Option Owed → List UInt8 → Option (List Char)
  | none, [] => some []
  | some _, [] => none
  | none, byte :: rest =>
      match leadByte byte with
      | none => none
      | some (.inl char) => (decodeFrom none rest).map (char :: ·)
      | some (.inr owed) => decodeFrom (some owed) rest
  | some owed, byte :: rest =>
      if owed.low ≤ byte ∧ byte ≤ owed.high then
        let value := owed.value * 64 + (byte.toNat - 0x80)
        if owed.count ≤ 1 then (decodeFrom none rest).map (Char.ofNat value :: ·)
        else decodeFrom (some ⟨owed.count - 1, 0x80, 0xbf, value⟩) rest
      else none

/-- `str::from_utf8`. -/
def fromUtf8 (bytes : List UInt8) : Option (List Char) := decodeFrom none bytes

/-- Text of characters below 128. -/
def Ascii (text : List Char) : Prop := ∀ char ∈ text, char.toNat < 128

instance (text : List Char) : Decidable (Ascii text) :=
  List.decidableBAll _ text

theorem Ascii.append {left right : List Char} (hleft : Ascii left) (hright : Ascii right) :
    Ascii (left ++ right) := by
  intro char hmem
  rcases List.mem_append.mp hmem with h | h
  · exact hleft char h
  · exact hright char h

theorem asBytes_append (left right : List Char) :
    asBytes (left ++ right) = asBytes left ++ asBytes right :=
  List.flatMap_append

theorem asBytes_cons_of_lt {char : Char} {text : List Char} (h : char.toNat < 128) :
    asBytes (char :: text) = UInt8.ofNat char.toNat :: asBytes text := by
  have hle : char.val.toNat ≤ 0x7f := by
    have : char.val.toNat < 128 := h
    omega
  simp only [asBytes, List.flatMap_cons, String.utf8EncodeChar, hle, if_true]
  rfl

/-- An ASCII text has one byte a character. -/
theorem Ascii.asBytes_eq {text : List Char} (h : Ascii text) :
    asBytes text = text.map fun char ↦ UInt8.ofNat char.toNat := by
  induction text with
  | nil => rfl
  | cons char text ih =>
      rw [asBytes_cons_of_lt (h char List.mem_cons_self),
        ih fun other hother ↦ h other (List.mem_cons_of_mem _ hother), List.map_cons]

theorem Ascii.length_asBytes {text : List Char} (h : Ascii text) :
    (asBytes text).length = text.length := by
  rw [h.asBytes_eq, List.length_map]

/-- ASCII text survives the round trip through its bytes. -/
theorem Ascii.fromUtf8_asBytes {text : List Char} (h : Ascii text) :
    fromUtf8 (asBytes text) = some text := by
  induction text with
  | nil => rfl
  | cons char text ih =>
      have hlt := h char List.mem_cons_self
      have htail := ih fun other hother ↦ h other (List.mem_cons_of_mem _ hother)
      have hnat : (UInt8.ofNat char.toNat).toNat = char.toNat := by
        rw [UInt8.toNat_ofNat']
        omega
      have hlead : leadByte (UInt8.ofNat char.toNat) = some (.inl char) := by
        have hle : UInt8.ofNat char.toNat ≤ 0x7f := by
          rw [UInt8.le_iff_toNat_le, hnat]
          exact Nat.lt_succ_iff.mp hlt
        rw [leadByte, if_pos hle, hnat, Char.ofNat_toNat]
      rw [asBytes_cons_of_lt hlt, fromUtf8, decodeFrom, hlead]
      rw [fromUtf8] at htail
      rw [htail]
      rfl

/-- A byte below 128 occurs among the bytes of an ASCII text only as its character. -/
theorem Ascii.notMem_asBytes {text : List Char} (h : Ascii text) {char : Char}
    (hchar : char.toNat < 128) (hmem : char ∉ text) : UInt8.ofNat char.toNat ∉ asBytes text := by
  rw [h.asBytes_eq]
  intro hbyte
  obtain ⟨other, hother, hsame⟩ := List.mem_map.mp hbyte
  have hnat := congrArg UInt8.toNat hsame
  have hlt := h other hother
  rw [UInt8.toNat_ofNat', UInt8.toNat_ofNat', Nat.mod_eq_of_lt (by omega),
    Nat.mod_eq_of_lt (by omega)] at hnat
  have heq : other = char := by
    rw [← Char.ofNat_toNat other, hnat, Char.ofNat_toNat]
  exact hmem (heq ▸ hother)

theorem toNat_ofNat_byte {value : ℕ} (h : value < 256) : (UInt8.ofNat value).toNat = value := by
  rw [UInt8.toNat_ofNat', Nat.mod_eq_of_lt h]

/-- The cases of the first byte, by its value. -/
theorem leadByte_ofNat {value : ℕ} (h : value < 256) :
    leadByte (UInt8.ofNat value) =
      if value ≤ 127 then some (.inl (Char.ofNat value))
      else if 194 ≤ value ∧ value ≤ 223 then some (.inr ⟨1, 0x80, 0xbf, value - 192⟩)
      else if value = 224 then some (.inr ⟨2, 0xa0, 0xbf, 0⟩)
      else if value = 237 then some (.inr ⟨2, 0x80, 0x9f, 0xd⟩)
      else if 225 ≤ value ∧ value ≤ 239 then some (.inr ⟨2, 0x80, 0xbf, value - 224⟩)
      else if value = 240 then some (.inr ⟨3, 0x90, 0xbf, 0⟩)
      else if 241 ≤ value ∧ value ≤ 243 then some (.inr ⟨3, 0x80, 0xbf, value - 240⟩)
      else if value = 244 then some (.inr ⟨3, 0x80, 0x8f, 4⟩)
      else none := by
  have hbyte := toNat_ofNat_byte h
  simp only [leadByte, UInt8.le_iff_toNat_le, ← UInt8.toNat_inj, hbyte]
  rfl

/-- A byte that continues a character of which more is owed. -/
theorem decodeFrom_owed {owed : Owed} {value : ℕ} (rest : List UInt8) (h : value < 256)
    (hlow : owed.low.toNat ≤ value) (hhigh : value ≤ owed.high.toNat) (hmore : 1 < owed.count) :
    decodeFrom (some owed) (UInt8.ofNat value :: rest) =
      decodeFrom (some ⟨owed.count - 1, 0x80, 0xbf, owed.value * 64 + (value - 128)⟩) rest := by
  have hbyte := toNat_ofNat_byte h
  rw [decodeFrom, if_pos]
  · simp only [hbyte]
    rw [if_neg (by omega)]
  · rw [UInt8.le_iff_toNat_le, UInt8.le_iff_toNat_le, hbyte]
    exact ⟨hlow, hhigh⟩

/-- The last byte of a character. -/
theorem decodeFrom_owed_last {owed : Owed} {value : ℕ} (rest : List UInt8) (h : value < 256)
    (hlow : owed.low.toNat ≤ value) (hhigh : value ≤ owed.high.toNat) (hlast : owed.count ≤ 1) :
    decodeFrom (some owed) (UInt8.ofNat value :: rest) =
      (decodeFrom none rest).map (Char.ofNat (owed.value * 64 + (value - 128)) :: ·) := by
  have hbyte := toNat_ofNat_byte h
  rw [decodeFrom, if_pos]
  · simp only [hbyte]
    rw [if_pos hlast]
  · rw [UInt8.le_iff_toNat_le, UInt8.le_iff_toNat_le, hbyte]
    exact ⟨hlow, hhigh⟩

theorem decodeFrom_lead {value : ℕ} (owed : Owed) (rest : List UInt8)
    (hlead : leadByte (UInt8.ofNat value) = some (.inr owed)) :
    decodeFrom none (UInt8.ofNat value :: rest) = decodeFrom (some owed) rest := by
  rw [decodeFrom, hlead]

/-- What the first byte of a character of three bytes announces. -/
theorem leadByte_three {code : ℕ} (hlow : 0x7ff < code) (hhigh : code ≤ 0xffff)
    (hvalid : code < 0xd800 ∨ 0xdfff < code) :
    ∃ low high : UInt8,
      leadByte (UInt8.ofNat (code / 4096 % 16 + 224)) = some (.inr ⟨2, low, high, code / 4096⟩) ∧
        low.toNat ≤ code / 64 % 64 + 128 ∧ code / 64 % 64 + 128 ≤ high.toNat := by
  rw [leadByte_ofNat (by omega), if_neg (by omega), if_neg (by omega)]
  by_cases hfirst : code / 4096 % 16 + 224 = 224
  · have hzero : code / 4096 = 0 := by omega
    rw [if_pos hfirst, hzero]
    refine ⟨_, _, rfl, ?_⟩
    change 160 ≤ _ ∧ _ ≤ 191
    omega
  · rw [if_neg hfirst]
    by_cases hsurrogate : code / 4096 % 16 + 224 = 237
    · have hvalue : code / 4096 = 13 := by omega
      rw [if_pos hsurrogate, hvalue]
      refine ⟨_, _, rfl, ?_⟩
      change 128 ≤ _ ∧ _ ≤ 159
      omega
    · have hvalue : code / 4096 % 16 + 224 - 224 = code / 4096 := by omega
      rw [if_neg hsurrogate, if_pos (by omega), hvalue]
      refine ⟨_, _, rfl, ?_⟩
      change 128 ≤ _ ∧ _ ≤ 191
      omega

/-- What the first byte of a character of four bytes announces. -/
theorem leadByte_four {code : ℕ} (hlow : 0xffff < code) (hhigh : code < 0x110000) :
    ∃ low high : UInt8,
      leadByte (UInt8.ofNat (code / 262144 % 8 + 240)) =
          some (.inr ⟨3, low, high, code / 262144⟩) ∧
        low.toNat ≤ code / 4096 % 64 + 128 ∧ code / 4096 % 64 + 128 ≤ high.toNat := by
  rw [leadByte_ofNat (by omega), if_neg (by omega), if_neg (by omega), if_neg (by omega),
    if_neg (by omega), if_neg (by omega)]
  by_cases hfirst : code / 262144 % 8 + 240 = 240
  · have hzero : code / 262144 = 0 := by omega
    rw [if_pos hfirst, hzero]
    refine ⟨_, _, rfl, ?_⟩
    change 144 ≤ _ ∧ _ ≤ 191
    omega
  · rw [if_neg hfirst]
    by_cases hlast : code / 262144 % 8 + 240 = 244
    · have hvalue : code / 262144 = 4 := by omega
      rw [if_neg (by omega), if_pos hlast, hvalue]
      refine ⟨_, _, rfl, ?_⟩
      change 128 ≤ _ ∧ _ ≤ 143
      omega
    · have hvalue : code / 262144 % 8 + 240 - 240 = code / 262144 := by omega
      rw [if_pos (by omega), hvalue]
      refine ⟨_, _, rfl, ?_⟩
      change 128 ≤ _ ∧ _ ≤ 191
      omega

/-- A character is read back from its bytes. -/
theorem decodeFrom_utf8EncodeChar (char : Char) (rest : List UInt8) :
    decodeFrom none (String.utf8EncodeChar char ++ rest) =
      (decodeFrom none rest).map (char :: ·) := by
  have hvalid : char.val.toNat < 0xd800 ∨ 0xdfff < char.val.toNat ∧ char.val.toNat < 0x110000 :=
    char.valid
  have hchar : ∀ value, value = char.val.toNat → Char.ofNat value = char := by
    rintro value rfl
    exact Char.ofNat_toNat char
  have hlow : (0x80 : UInt8).toNat = 128 := rfl
  have hhigh : (0xbf : UInt8).toNat = 191 := rfl
  generalize hcode : char.val.toNat = code at hvalid hchar
  rw [String.utf8EncodeChar, hcode]
  by_cases hone : code ≤ 0x7f
  · rw [if_pos hone, List.singleton_append, decodeFrom, leadByte_ofNat (by omega), if_pos hone]
    simp only [hchar code rfl]
  by_cases htwo : code ≤ 0x7ff
  · have hlead : leadByte (UInt8.ofNat (code / 64 % 32 + 192)) =
        some (.inr ⟨1, 0x80, 0xbf, code / 64⟩) := by
      have hvalue : code / 64 % 32 + 192 - 192 = code / 64 := by omega
      rw [leadByte_ofNat (by omega), if_neg (by omega), if_pos (by omega), hvalue]
    rw [if_neg hone, if_pos htwo, List.cons_append, List.singleton_append, decodeFrom_lead _ _ hlead,
      decodeFrom_owed_last rest (by omega) (by simp only [hlow]; omega) (by simp only [hhigh]; omega)
        le_rfl, hchar _ (by simp only; omega)]
  by_cases hthree : code ≤ 0xffff
  · obtain ⟨low, high, hlead, hfirst, hlast⟩ :=
      leadByte_three (Nat.not_le.mp htwo) hthree (hvalid.imp_right And.left)
    rw [if_neg hone, if_neg htwo, if_pos hthree, List.cons_append, List.cons_append,
      List.singleton_append, decodeFrom_lead _ _ hlead,
      decodeFrom_owed _ (by omega) hfirst hlast (by simp only; omega),
      decodeFrom_owed_last rest (by omega) (by simp only [hlow]; omega) (by simp only [hhigh]; omega)
        le_rfl, hchar _ (by simp only; omega)]
  · obtain ⟨low, high, hlead, hfirst, hlast⟩ :=
      leadByte_four (Nat.not_le.mp hthree) (by omega)
    rw [if_neg hone, if_neg htwo, if_neg hthree, List.cons_append, List.cons_append,
      List.cons_append, List.singleton_append, decodeFrom_lead _ _ hlead,
      decodeFrom_owed _ (by omega) hfirst hlast (by simp only; omega),
      decodeFrom_owed _ (by omega) (by simp only [hlow]; omega) (by simp only [hhigh]; omega)
        (by simp only; omega),
      decodeFrom_owed_last rest (by omega) (by simp only [hlow]; omega) (by simp only [hhigh]; omega)
        (by simp only; omega), hchar _ (by simp only; omega)]

/-- Text is read back from its bytes. -/
theorem fromUtf8_asBytes (text : List Char) : fromUtf8 (asBytes text) = some text := by
  induction text with
  | nil => rfl
  | cons char text ih =>
      have hbytes : asBytes (char :: text) = String.utf8EncodeChar char ++ asBytes text := rfl
      rw [fromUtf8] at ih
      rw [fromUtf8, hbytes, decodeFrom_utf8EncodeChar, ih, Option.map_some]

/-! ## Lines, blanks and case -/

/-- Drop one carriage return from the end. -/
def stripReturn (line : List Char) : List Char :=
  if line.getLast? = some '\r' then line.dropLast else line

/-- The lines of `current` followed by the text, where `current` has no line feed. -/
def linesFrom (current : List Char) : List Char → List (List Char)
  | [] => if current = [] then [] else [current]
  | head :: rest =>
      if head = '\n' then stripReturn current :: linesFrom [] rest
      else linesFrom (current ++ [head]) rest

/-- `str::lines`: lines end with a line feed or a carriage return and a line feed, the last one may
end with the text. -/
def lines (text : List Char) : List (List Char) := linesFrom [] text

/-- `char::is_whitespace`. -/
def isWhitespace (char : Char) : Bool :=
  let code := char.toNat
  decide (9 ≤ code ∧ code ≤ 13) || code == 0x20 || code == 0x85 || code == 0xa0 || code == 0x1680 ||
    decide (0x2000 ≤ code ∧ code ≤ 0x200a) || code == 0x2028 || code == 0x2029 ||
    code == 0x202f || code == 0x205f || code == 0x3000

/-- `str::trim`. -/
def trim (text : List Char) : List Char :=
  (text.dropWhile isWhitespace).rdropWhile isWhitespace

/-- `str::eq_ignore_ascii_case`. -/
def eqIgnoreAsciiCase (left right : List Char) : Bool :=
  left.map Char.toLower == right.map Char.toLower

theorem linesFrom_append {current line rest : List Char} (h : '\n' ∉ line) :
    linesFrom current (line ++ rest) = linesFrom (current ++ line) rest := by
  induction line generalizing current with
  | nil => simp
  | cons head line ih =>
      rw [List.mem_cons, not_or] at h
      rw [List.cons_append, linesFrom, if_neg (Ne.symm h.1), ih h.2, List.append_assoc,
        List.singleton_append]

theorem stripReturn_append_return (line : List Char) : stripReturn (line ++ ['\r']) = line := by
  simp [stripReturn]

/-- A line that ends with a carriage return and a line feed. -/
theorem lines_append {line rest : List Char} (h : '\n' ∉ line) :
    lines (line ++ '\r' :: '\n' :: rest) = line :: lines rest := by
  have hsplit : line ++ '\r' :: '\n' :: rest = (line ++ ['\r']) ++ '\n' :: rest := by simp
  have hfeed : '\n' ∉ line ++ ['\r'] := by simpa using h
  rw [hsplit, lines, linesFrom_append hfeed, linesFrom, if_pos rfl, List.nil_append,
    stripReturn_append_return, lines]

/-- The last line, without an end. -/
theorem lines_last {line : List Char} (h : '\n' ∉ line) (hne : line ≠ []) : lines line = [line] := by
  calc
    lines line = linesFrom [] (line ++ []) := by rw [List.append_nil, lines]
    _ = linesFrom line [] := by rw [linesFrom_append h, List.nil_append]
    _ = [line] := by rw [linesFrom, if_neg hne]

/-- Lines joined by a carriage return and a line feed. -/
def joinLines : List (List Char) → List Char
  | [] => []
  | [line] => line
  | line :: next :: rest => line ++ '\r' :: '\n' :: joinLines (next :: rest)

/-- The lines are read back. -/
theorem lines_joinLines {block : List (List Char)} (h : ∀ line ∈ block, line ≠ [] ∧ '\n' ∉ line) :
    lines (joinLines block) = block := by
  induction block using joinLines.induct with
  | case1 => rfl
  | case2 line =>
      obtain ⟨hne, hfeed⟩ := h line List.mem_cons_self
      exact lines_last hfeed hne
  | case3 line next rest ih =>
      obtain ⟨-, hfeed⟩ := h line List.mem_cons_self
      rw [joinLines, lines_append hfeed, ih fun other hother ↦ h other (List.mem_cons_of_mem _ hother)]

theorem ascii_joinLines {block : List (List Char)} (h : ∀ line ∈ block, Ascii line) :
    Ascii (joinLines block) := by
  induction block using joinLines.induct with
  | case1 => exact fun _ hmem ↦ by cases hmem
  | case2 line => exact h line List.mem_cons_self
  | case3 line next rest ih =>
      have hreturn : Ascii ['\r', '\n'] := by decide
      have hrest := ih fun other hother ↦ h other (List.mem_cons_of_mem _ hother)
      exact (h line List.mem_cons_self).append (hreturn.append hrest)

theorem joinLines_cons (line : List Char) (rest : List (List Char)) :
    ∃ more, joinLines (line :: rest) = line ++ more := by
  cases rest with
  | nil => exact ⟨[], (List.append_nil line).symm⟩
  | cons next rest => exact ⟨_, rfl⟩

/-- Text without blanks. -/
def Unblank (text : List Char) : Prop := ∀ char ∈ text, isWhitespace char = false

instance (text : List Char) : Decidable (Unblank text) := List.decidableBAll _ text

/-- Text without blanks is not trimmed. -/
theorem Unblank.trim_eq {text : List Char} (h : Unblank text) : trim text = text := by
  have hleft : text.dropWhile isWhitespace = text := by
    cases text with
    | nil => rfl
    | cons head rest => rw [List.dropWhile_cons, h head List.mem_cons_self]; rfl
  rw [trim, hleft, List.rdropWhile, List.dropWhile_eq_self_iff.mpr, List.reverse_reverse]
  intro hpos hblank
  have hmem : text.reverse[0] ∈ text := List.mem_reverse.mp (List.getElem_mem hpos)
  rw [h _ hmem] at hblank
  cases hblank

/-- The visible ASCII characters are no blanks. -/
theorem isWhitespace_of_visible {char : Char} (hlow : 33 ≤ char.toNat) (hhigh : char.toNat ≤ 126) :
    isWhitespace char = false := by
  rw [Bool.eq_false_iff]
  intro hblank
  simp [isWhitespace] at hblank
  omega

/-- One leading blank is trimmed. -/
theorem Unblank.trim_cons_space {text : List Char} (h : Unblank text) :
    trim (' ' :: text) = text := by
  have hdrop : (' ' :: text).dropWhile isWhitespace = text.dropWhile isWhitespace := rfl
  rw [trim, hdrop]
  exact h.trim_eq

/-! ## Unsigned integers -/

/-- `str::parse` for an unsigned integer type with `bound` values: an optional plus sign and at least
one decimal digit. -/
def parseUnsigned (bound : ℕ) (text : List Char) : Option ℕ :=
  let digits := if text.head? = some '+' then text.tail else text
  if digits ≠ [] ∧ digits.all Char.isDigit ∧ Nat.ofDigitChars 10 digits 0 < bound then
    some (Nat.ofDigitChars 10 digits 0)
  else none

theorem toNat_of_mem_toDigits {value : ℕ} {char : Char} (h : char ∈ Nat.toDigits 10 value) :
    48 ≤ char.toNat ∧ char.toNat ≤ 57 :=
  Char.isDigit_iff_toNat.mp (Nat.isDigit_of_mem_toDigits (by decide) (by decide) h)

/-- A number is read back from its decimal digits. -/
theorem parseUnsigned_toDigits {bound value : ℕ} (h : value < bound) :
    parseUnsigned bound (Nat.toDigits 10 value) = some value := by
  have hdigit : ∀ char ∈ Nat.toDigits 10 value, char.isDigit = true := fun char hmem ↦
    Nat.isDigit_of_mem_toDigits (by decide) (by decide) hmem
  have hne : Nat.toDigits 10 value ≠ [] := List.ne_nil_of_length_pos Nat.length_toDigits_pos
  have hplus : (Nat.toDigits 10 value).head? ≠ some '+' := by
    intro hhead
    have := hdigit '+' (List.mem_of_mem_head? hhead)
    exact absurd this (by decide)
  rw [parseUnsigned, if_neg hplus, Nat.ofDigitChars_ten_toDigits, if_pos]
  exact ⟨hne, List.all_eq_true.mpr hdigit, h⟩

end Foundations.Text
