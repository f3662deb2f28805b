import Mathlib.Data.List.Basic
import Mathlib.Algebra.Order.Ring.Nat

/-!
# Serialisers that measure before they write

A serialiser hands its bytes to a sink: one sink counts them, another writes them to a slice and
gives up when the slice is full.  Whoever makes the slice as long as the count says gets all bytes.
A codec also reads values back, from all of their bytes and from no proper part of them.

`Serializer.ofPieces` is the serialiser of a format that is written piece by piece, and `varint` the
usual piece for a number, seven bits a byte.
-/

namespace Foundations

universe u

/-- The bytes of a value, if it has some, and what is written of them to a slice with `len` bytes
and whether that was all. -/
structure Serializer (α : Type u) where
  encode : α → Option (List UInt8)
  toSlice : α → ℕ → List UInt8 × Bool
  toSlice_of_le : ∀ {value bytes len}, encode value = some bytes → bytes.length ≤ len →
    toSlice value len = (bytes, true)

namespace Serializer

variable {α : Type u}

/-- The number of bytes a value takes. -/
def size (serializer : Serializer α) (value : α) : Option ℕ :=
  (serializer.encode value).map List.length

/-- A slice of the size that was counted takes all bytes. -/
theorem exists_of_size {serializer : Serializer α} {value : α} {size : ℕ}
    (h : serializer.size value = some size) :
    ∃ bytes, serializer.encode value = some bytes ∧ bytes.length = size ∧
      serializer.toSlice value size = (bytes, true) := by
  obtain ⟨bytes, hbytes, hlength⟩ := Option.map_eq_some_iff.mp h
  exact ⟨bytes, hbytes, hlength, serializer.toSlice_of_le hbytes hlength.le⟩

/-- Write pieces as long as there is room for a whole one. -/
def writePieces : ℕ → List (List UInt8) → List UInt8 × Bool
  | _, [] => ([], true)
  | room, piece :: rest =>
      if piece.length ≤ room then
        let (bytes, fits) := writePieces (room - piece.length) rest
        (piece ++ bytes, fits)
      else ([], false)

theorem writePieces_of_le {room : ℕ} {pieces : List (List UInt8)}
    (h : pieces.flatten.length ≤ room) : writePieces room pieces = (pieces.flatten, true) := by
  induction pieces generalizing room with
  | nil => rfl
  | cons piece rest ih =>
      rw [List.flatten_cons, List.length_append] at h
      have hrest : writePieces (room - piece.length) rest = (rest.flatten, true) :=
        ih (by omega)
      rw [writePieces, if_pos (by omega), hrest, List.flatten_cons]

/-- A format that is written piece by piece. -/
def ofPieces (pieces : α → List (List UInt8)) : Serializer α where
  encode value := some (pieces value).flatten
  toSlice value len := writePieces len (pieces value)
  toSlice_of_le {value _ _} h hle := by
    obtain rfl := Option.some.inj h
    exact writePieces_of_le hle

theorem size_ofPieces (pieces : α → List (List UInt8)) (value : α) :
    (ofPieces pieces).size value = some (pieces value).flatten.length := rfl

end Serializer

/-- A serialiser and what reads its values back, where these have less than `limit` bytes: a reader
that meets the end of its input before the end of the value reads nothing. -/
structure Codec (α : Type u) (limit : ℕ) extends Serializer α where
  fromBytes : List UInt8 → Option α
  fromBytes_encode : ∀ {value bytes}, encode value = some bytes → bytes.length < limit →
    fromBytes bytes = some value
  fromBytes_front : ∀ {value bytes front}, encode value = some bytes → bytes.length < limit →
    front <+: bytes → front ≠ bytes → fromBytes front = none

/-- A number in at most `count` bytes, seven bits each with the lowest first; all bytes but the last
have their highest bit set. -/
def varint : ℕ → ℕ → List UInt8
  | 0, _ => []
  | count + 1, value =>
      if value < 128 then [UInt8.ofNat value]
      else UInt8.ofNat (value % 128 + 128) :: varint count (value / 128)

theorem length_varint {count value : ℕ} (digits : ℕ) (hcount : digits < count)
    (hlow : digits = 0 ∨ 128 ^ digits ≤ value) (hhigh : value < 128 ^ (digits + 1)) :
    (varint count value).length = digits + 1 := by
  induction digits generalizing count value with
  | zero =>
      obtain ⟨count, rfl⟩ := Nat.exists_eq_add_of_lt hcount
      rw [Nat.zero_add, varint, if_pos (by omega), List.length_singleton]
  | succ digits ih =>
      obtain ⟨count, rfl⟩ := Nat.exists_eq_add_of_lt hcount
      have hpow : 128 ^ (digits + 1) ≤ value := hlow.resolve_left (Nat.succ_ne_zero digits)
      have hlarge : 128 ≤ value := by
        refine le_trans ?_ hpow
        exact Nat.le_self_pow (Nat.succ_ne_zero digits) 128
      have hrest : (varint (digits + 1 + count) (value / 128)).length = digits + 1 := by
        refine ih (by omega) (.inr ?_) ?_
        · rw [Nat.le_div_iff_mul_le (by decide), ← Nat.pow_succ]
          exact hpow
        · rw [Nat.div_lt_iff_lt_mul (by decide), ← Nat.pow_succ]
          exact hhigh
      rw [varint, if_neg (by omega), List.length_cons, hrest]

end Foundations
