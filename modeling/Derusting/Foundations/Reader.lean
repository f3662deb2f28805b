import Derusting.Foundations.Serializer
import Mathlib.Tactic

/-!
# Readers of formats

A reader takes a value off the front of its input and leaves the rest.  What it makes of the input
depends on nothing but what it takes: with more bytes behind the input it reads the same and leaves
more.  So a reader of whole encodings reads them whatever follows, and reads no proper part from the
front of one.

`Reader.varint` reads what `varint` of `Foundations.Serializer` writes.
-/

namespace Foundations

universe u v

/-- A way to take a value off the front of a list of bytes. -/
structure Reader (α : Type u) where
  read : List UInt8 → Option (α × List UInt8)
  read_append : ∀ {input value rest}, read input = some (value, rest) →
    ∀ more, read (input ++ more) = some (value, rest ++ more)

namespace Reader

variable {α : Type u} {β : Type u}

/-- Read a value and forget what follows it. -/
def run (reader : Reader α) (input : List UInt8) : Option α := (reader.read input).map Prod.fst

/-- Go on with what is left of the input. -/
def andThen (reader : Reader α) (next : α → Reader β) : Reader β where
  read input := (reader.read input).bind fun (value, rest) ↦ (next value).read rest
  read_append := by
    intro input value rest h more
    obtain ⟨⟨first, left⟩, hfirst, hnext⟩ := Option.bind_eq_some_iff.mp h
    rw [reader.read_append hfirst more, Option.bind_some]
    exact (next first).read_append hnext more

/-- A value that is there already, or is refused. -/
def ofOption (value : Option α) : Reader α where
  read input := value.map fun value ↦ (value, input)
  read_append := by
    intro input result rest h more
    obtain ⟨value, rfl, hsame⟩ := Option.map_eq_some_iff.mp h
    obtain ⟨rfl, rfl⟩ := Prod.mk.inj hsame
    rfl

instance : Monad Reader where
  pure value := ofOption (some value)
  bind := andThen

def fail : Reader α := ofOption none

/-- One byte. -/
def byte : Reader UInt8 where
  read
    | [] => none
    | first :: rest => some (first, rest)
  read_append := by
    intro input value rest h more
    cases input with
    | nil => cases h
    | cons first input =>
        obtain ⟨rfl, rfl⟩ := Prod.mk.inj (Option.some.inj h)
        rfl

/-- So many bytes. -/
def take (count : ℕ) : Reader (List UInt8) where
  read input := if count ≤ input.length then some (input.take count, input.drop count) else none
  read_append := by
    intro input value rest h more
    obtain ⟨hle, hsame⟩ := Option.ite_none_right_eq_some.mp h
    obtain ⟨rfl, rfl⟩ := Prod.mk.inj (Option.some.inj hsame)
    rw [if_pos (by rw [List.length_append]; omega), List.take_append_of_le_length hle,
      List.drop_append_of_le_length hle]

/-- A number in at most `count` bytes, seven bits each with the lowest first; the last of `count`
bytes is not above `largest`. -/
def varint (largest : ℕ) : ℕ → Reader ℕ
  | 0 => fail
  | count + 1 => do
      let first ← byte
      if first.toNat < 128 then
        if count = 0 ∧ largest < first.toNat then fail else pure first.toNat
      else
        let high ← varint largest count
        pure (first.toNat % 128 + 128 * high)

/-! ## Whole encodings -/

/-- The bytes are an encoding of the value, to the last one. -/
def Reads (reader : Reader α) (bytes : List UInt8) (value : α) : Prop :=
  reader.read bytes = some (value, [])

variable {reader : Reader α} {bytes : List UInt8} {value : α}

theorem reads_pure (value : α) : (pure value : Reader α).Reads [] value := rfl

theorem reads_ofOption {value : α} {found : Option α} (h : found = some value) :
    (ofOption found).Reads [] value := by
  rw [h]
  rfl

theorem reads_byte (first : UInt8) : byte.Reads [first] first := rfl

theorem reads_take (bytes : List UInt8) : (take bytes.length).Reads bytes bytes := by
  change ite _ _ _ = _
  rw [if_pos le_rfl, List.take_length, List.drop_length]

/-- An encoding is read whatever follows it. -/
theorem Reads.append (h : reader.Reads bytes value) (rest : List UInt8) :
    reader.read (bytes ++ rest) = some (value, rest) :=
  reader.read_append h rest

theorem Reads.run_append (h : reader.Reads bytes value) (rest : List UInt8) :
    reader.run (bytes ++ rest) = some value := by
  rw [run, h.append rest, Option.map_some]

/-- Nothing is read from a proper part of an encoding. -/
theorem Reads.run_front (h : reader.Reads bytes value) {front : List UInt8}
    (hfront : front <+: bytes) (hne : front ≠ bytes) : reader.run front = none := by
  obtain ⟨back, rfl⟩ := hfront
  cases hread : reader.read front with
  | none => rw [run, hread, Option.map_none]
  | some result =>
      obtain ⟨other, rest⟩ := result
      have hwhole := (reader.read_append hread back).symm.trans h
      obtain ⟨-, hback⟩ := List.append_eq_nil_iff.mp (Prod.mk.inj (Option.some.inj hwhole)).2
      rw [hback, List.append_nil] at hne
      exact absurd rfl hne

/-- One encoding behind the other. -/
theorem Reads.bind {next : α → Reader β} {more : List UInt8} {result : β}
    (h : reader.Reads bytes value) (hnext : (next value).Reads more result) :
    (reader >>= next).Reads (bytes ++ more) result := by
  change (reader.read (bytes ++ more)).bind _ = _
  rw [h.append more, Option.bind_some]
  exact hnext

/-- A last look at the value that has been read. -/
theorem Reads.finish {next : α → Reader β} {result : β} (h : reader.Reads bytes value)
    (hnext : (next value).Reads [] result) : (reader >>= next).Reads bytes result := by
  have hboth := h.bind hnext
  rwa [List.append_nil] at hboth

/-- A number is read back. -/
theorem reads_varint {largest count value : ℕ} (hlargest : largest < 128)
    (h : value < 128 ^ count * (largest + 1)) :
    (varint largest (count + 1)).Reads (Foundations.varint (count + 1) value) value := by
  induction count generalizing value with
  | zero =>
      have hsmall : value < 128 := by omega
      have hbyte : (UInt8.ofNat value).toNat = value := by
        rw [UInt8.toNat_ofNat', Nat.mod_eq_of_lt (by omega)]
      rw [Foundations.varint, if_pos hsmall, varint]
      refine (reads_byte _).finish ?_
      rw [hbyte, if_pos hsmall, if_neg (by omega)]
      exact reads_pure value
  | succ count ih =>
      rw [Foundations.varint, varint]
      by_cases hsmall : value < 128
      · have hbyte : (UInt8.ofNat value).toNat = value := by
          rw [UInt8.toNat_ofNat', Nat.mod_eq_of_lt (by omega)]
        rw [if_pos hsmall]
        refine (reads_byte _).finish ?_
        rw [hbyte, if_pos hsmall, if_neg (by omega)]
        exact reads_pure value
      · have hbyte : (UInt8.ofNat (value % 128 + 128)).toNat = value % 128 + 128 := by
          rw [UInt8.toNat_ofNat', Nat.mod_eq_of_lt (by omega)]
        have hhigh : value / 128 < 128 ^ count * (largest + 1) := by
          rw [Nat.div_lt_iff_lt_mul (by decide)]
          calc
            value < 128 ^ (count + 1) * (largest + 1) := h
            _ = 128 ^ count * (largest + 1) * 128 := by ring
        have hvalue : (value % 128 + 128) % 128 + 128 * (value / 128) = value := by omega
        rw [if_neg hsmall]
        refine (reads_byte _).bind ?_
        rw [hbyte, if_neg (by omega)]
        refine (ih hhigh).finish ?_
        rw [hvalue]
        exact reads_pure value

end Reader

end Foundations
