import Derusting.Foundations.Text
import Derusting.Ring.Kinds

/-!
# Job files on the USB stick

Job files are named after their guid (`make_path` of `fs.rs`).  How a guid is written and read is
the `uuid` crate's business; `UuidText` states what the firmware relies on.  `Files` is the USB
stick as far as an upload goes: the files by path and at most one handle opened for writing, with
the outcome of every call left to the caller.
-/

namespace Derusting

open Foundations.Text

/-! ## Guids as text -/

/-- `Uuid`'s `Display` and `FromStr`: 36 lower-case hexadecimal digits and hyphens, which are read
back. -/
structure UuidText where
  display : Uuid → List Char
  parse : List Char → Option Uuid
  parse_display : ∀ guid, parse (display guid) = some guid
  length_display : ∀ guid, (display guid).length = 36
  mem_display : ∀ guid, ∀ char ∈ display guid,
    char = '-' ∨ char.isDigit = true ∨ 'a' ≤ char ∧ char ≤ 'f'

namespace UuidText

/-- The last `count` hexadecimal digits of a number. -/
def hexDigits : ℕ → ℕ → List Char
  | 0, _ => []
  | count + 1, value => hexDigits count (value / 16) ++ [Nat.digitChar (value % 16)]

def hexValue (char : Char) : ℕ := if char.isDigit then char.toNat - 48 else char.toNat - 87

/-- The digits in groups of 8, 4, 4, 4 and 12. -/
def hyphenate (hex : List Char) : List Char :=
  hex.take 8 ++ '-' :: ((hex.drop 8).take 4 ++ '-' :: ((hex.drop 12).take 4 ++
    '-' :: ((hex.drop 16).take 4 ++ '-' :: hex.drop 20)))

def format (guid : Uuid) : List Char := hyphenate (hexDigits 32 guid.bits.toNat)

/-- Read hyphenated text in lower case. -/
def read (text : List Char) : Option Uuid :=
  let value := (text.filter (· ≠ '-')).foldl (fun value char ↦ value * 16 + hexValue char) 0
  let guid : Uuid := ⟨BitVec.ofNat 128 value⟩
  if format guid = text then some guid else none

theorem length_hexDigits (count value : ℕ) : (hexDigits count value).length = count := by
  induction count generalizing value with
  | zero => rfl
  | succ count ih => rw [hexDigits, List.length_append, ih, List.length_singleton]

/-- The digit characters of the hexadecimal system. -/
theorem digitChar_hex {digit : ℕ} (h : digit < 16) :
    (digit.digitChar.isDigit = true ∨ 'a' ≤ digit.digitChar ∧ digit.digitChar ≤ 'f') ∧
      digit.digitChar ≠ '-' ∧ hexValue digit.digitChar = digit := by
  interval_cases digit <;> decide

theorem mem_hexDigits {count value : ℕ} {char : Char} (h : char ∈ hexDigits count value) :
    (char.isDigit = true ∨ 'a' ≤ char ∧ char ≤ 'f') ∧ char ≠ '-' := by
  induction count generalizing value with
  | zero => cases h
  | succ count ih =>
      rw [hexDigits, List.mem_append, List.mem_singleton] at h
      rcases h with h | rfl
      · exact ih h
      · have hdigit := digitChar_hex (Nat.mod_lt value (by decide : 0 < 16))
        exact ⟨hdigit.1, hdigit.2.1⟩

theorem foldl_hexDigits (count value : ℕ) :
    (hexDigits count value).foldl (fun value char ↦ value * 16 + hexValue char) 0 =
      value % 16 ^ count := by
  induction count generalizing value with
  | zero => simp [hexDigits, Nat.mod_one]
  | succ count ih =>
      have hdigit := (digitChar_hex (Nat.mod_lt value (by decide : 0 < 16))).2.2
      rw [hexDigits, List.foldl_append, ih, List.foldl_cons, List.foldl_nil, hdigit, pow_succ',
        Nat.mod_mul]
      ring

theorem filter_hyphenate {hex : List Char} (h : ∀ char ∈ hex, char ≠ '-') :
    (hyphenate hex).filter (· ≠ '-') = hex := by
  have hkeep {part : List Char} (hpart : ∀ char ∈ part, char ∈ hex) :
      part.filter (· ≠ '-') = part :=
    List.filter_eq_self.mpr fun char hmem ↦ by simpa using h char (hpart char hmem)
  have hrest (count : ℕ) : (hex.drop count).filter (· ≠ '-') = hex.drop count :=
    hkeep fun char hmem ↦ List.mem_of_mem_drop hmem
  have hpart (skip count : ℕ) :
      ((hex.drop skip).take count).filter (· ≠ '-') = (hex.drop skip).take count :=
    hkeep fun char hmem ↦ List.mem_of_mem_drop (List.mem_of_mem_take hmem)
  have hjoin (skip count : ℕ) :
      (hex.drop skip).take count ++ hex.drop (skip + count) = hex.drop skip := by
    rw [← List.drop_drop, List.take_append_drop]
  have hhyphen (tail : List Char) : ('-' :: tail).filter (· ≠ '-') = tail.filter (· ≠ '-') := by
    simp
  have hhead := hpart 0 8
  rw [List.drop_zero] at hhead
  simp only [hyphenate, List.filter_append, hhyphen, hhead, hpart, hrest]
  rw [hjoin 16 4, hjoin 12 4, hjoin 8 4, List.take_append_drop]

theorem mem_hyphenate {hex : List Char} {char : Char} (h : char ∈ hyphenate hex) :
    char = '-' ∨ char ∈ hex := by
  simp only [hyphenate, List.mem_append, List.mem_cons] at h
  rcases h with h | h | h | h | h | h | h | h | h
  · exact .inr (List.mem_of_mem_take h)
  · exact .inl h
  · exact .inr (List.mem_of_mem_drop (List.mem_of_mem_take h))
  · exact .inl h
  · exact .inr (List.mem_of_mem_drop (List.mem_of_mem_take h))
  · exact .inl h
  · exact .inr (List.mem_of_mem_drop (List.mem_of_mem_take h))
  · exact .inl h
  · exact .inr (List.mem_of_mem_drop h)

/-- The `Display` of the `uuid` crate, and a `parse` that reads just what it writes; that of the
crate also reads upper case, and the simple, braced and URN forms. -/
def hyphenated : UuidText where
  display := format
  parse := read
  parse_display := by
    intro guid
    have hvalue : ((format guid).filter (· ≠ '-')).foldl
        (fun value char ↦ value * 16 + hexValue char) 0 = guid.bits.toNat := by
      rw [format, filter_hyphenate fun char hmem ↦ (mem_hexDigits hmem).2, foldl_hexDigits]
      exact Nat.mod_eq_of_lt (lt_of_lt_of_eq guid.bits.isLt (by norm_num))
    have hguid : (⟨BitVec.ofNat 128 guid.bits.toNat⟩ : Uuid) = guid := by
      simp
    simp only [read, hvalue, hguid, if_true]
  length_display := by
    intro guid
    simp [format, hyphenate, length_hexDigits]
  mem_display := by
    intro guid char hmem
    exact (mem_hyphenate hmem).imp id fun hhex ↦ (mem_hexDigits hhex).1

/-- What a guid is written with is visible ASCII without colons. -/
theorem toNat_of_mem_display (uuid : UuidText) {guid : Uuid} {char : Char}
    (h : char ∈ uuid.display guid) :
    45 ≤ char.toNat ∧ char.toNat ≤ 102 ∧ char.toNat ≠ 58 := by
  rcases uuid.mem_display guid char h with rfl | hdigit | ⟨hlow, hhigh⟩
  · decide
  · obtain ⟨hlow, hhigh⟩ := Char.isDigit_iff_toNat.mp hdigit
    have hlow' : 48 ≤ char.toNat := hlow
    have hhigh' : char.toNat ≤ 57 := hhigh
    omega
  · have hlow' : 97 ≤ char.toNat := hlow
    have hhigh' : char.toNat ≤ 102 := hhigh
    omega

end UuidText

/-! ## Paths and files -/

/-- `make_path`. -/
def makePath (uuid : UuidText) (guid : Uuid) (isPartial : Bool) : List Char :=
  "/usb/".toList ++ uuid.display guid ++
    if isPartial then ".partial".toList else ".gcode".toList

/-- A path fits its `CString<64>` with the nul, so building it does not panic. -/
theorem length_makePath_lt (uuid : UuidText) (guid : Uuid) (isPartial : Bool) :
    (makePath uuid guid isPartial).length < 64 := by
  have hlength := uuid.length_display guid
  cases isPartial <;> simp [makePath, hlength]

/-- An upload never writes to the path a job is printed from. -/
theorem makePath_partial_ne (uuid : UuidText) (guid : Uuid) :
    makePath uuid guid true ≠ makePath uuid guid false := by
  intro hsame
  have hsuffix := List.append_cancel_left hsame
  exact absurd hsuffix (by decide)

/-- How the file-system calls of one upload turn out: whether `fopen` succeeds, how many bytes the
`fwrite` with a given number leaves out, and whether `rename` and `unlink` return zero. -/
structure Outcomes where
  opened : Bool
  missing : ℕ → ℕ
  renamed : Bool
  unlinked : Bool

/-- Every call succeeds in full. -/
def Outcomes.success : Outcomes := ⟨true, fun _ ↦ 0, true, true⟩

/-- The files on the USB stick, the path opened for writing and the number of `fwrite` calls made
so far. -/
structure Files where
  content : List Char → Option (List UInt8)
  handle : Option (List Char)
  writes : ℕ

namespace Files

/-- `fopen` in mode `wb`, which truncates. -/
def fopen (files : Files) (outcomes : Outcomes) (path : List Char) : Files :=
  if outcomes.opened then
    { files with content := Function.update files.content path (some []), handle := some path }
  else files

/-- `fwrite` at the end of the open file. -/
def fwrite (files : Files) (outcomes : Outcomes) (bytes : List UInt8) : Files :=
  match files.handle with
  | none => files
  | some path =>
      let written := bytes.take (bytes.length - outcomes.missing files.writes)
      { files with
        content := Function.update files.content path
          (some ((files.content path).getD [] ++ written))
        writes := files.writes + 1 }

def fclose (files : Files) : Files := { files with handle := none }

def unlink (files : Files) (outcomes : Outcomes) (path : List Char) : Files :=
  if outcomes.unlinked then { files with content := Function.update files.content path none }
  else files

def rename (files : Files) (outcomes : Outcomes) (old new : List Char) : Files :=
  if outcomes.renamed then
    { files with
      content := Function.update (Function.update files.content new (files.content old)) old none }
  else files

@[simp]
theorem handle_rename (files : Files) (outcomes : Outcomes) (old new : List Char) :
    (files.rename outcomes old new).handle = files.handle := by
  unfold rename
  split <;> rfl

/-- The file at the new path after `rename`. -/
theorem content_rename_new (files : Files) (outcomes : Outcomes) {old new : List Char}
    (h : old ≠ new) :
    (files.rename outcomes old new).content new =
      if outcomes.renamed then files.content old else files.content new := by
  unfold rename
  split
  · exact (Function.update_of_ne h.symm _ _).trans (Function.update_self _ _ _)
  · rfl

end Files

end Derusting
