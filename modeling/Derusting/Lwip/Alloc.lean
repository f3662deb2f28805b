import Derusting.Foundations.Serializer
import Derusting.Lwip.PacketBuffer

/-!
# Packets that are allocated for a message

`PacketBuffer::alloc` of `lwip/packet_buffer.rs`.  The size of the message goes to `pbuf_alloc` in
16 bits, while the slice that is written to has the size itself as its length.  What lwIP answers
and the serialiser of the message are parameters; the calls to lwIP and the bytes that are written
are recorded in the order in which they happen.
-/

namespace Derusting.Lwip

open Foundations

universe u

variable {α : Type u}

/-- A pbuf in RAM as `pbuf_alloc` returns it: its payload is one piece. -/
structure PbufRam where
  inner : ℕ
  payload : ℕ
deriving DecidableEq

/-- What `alloc` does to lwIP and to memory. -/
inductive AllocEffect where
  | pbufAlloc (length : UInt16)
  | write (address : ℕ) (byte : UInt8)
  | pbufFree (inner : ℕ)
deriving DecidableEq

/-- Bytes written to a slice from its beginning on. -/
def writes (payload : ℕ) (bytes : List UInt8) : List AllocEffect :=
  (Segment.mk payload bytes).cells.map fun (address, byte) ↦ .write address byte

/-- Bytes that are written lie in a slice of their number. -/
theorem mem_writes {payload address : ℕ} {bytes : List UInt8} {byte : UInt8}
    (h : .write address byte ∈ writes payload bytes) :
    payload ≤ address ∧ address < payload + bytes.length := by
  obtain ⟨⟨start, value⟩, hcell, hwrite⟩ := List.mem_map.mp h
  obtain ⟨rfl, -⟩ := AllocEffect.write.inj hwrite
  have haddress : start ∈ (Segment.mk payload bytes).cells.map Prod.fst :=
    List.mem_map_of_mem hcell
  rw [Segment.addresses_cells] at haddress
  obtain ⟨index, hindex, rfl⟩ := List.mem_map.mp haddress
  have hlt : index < bytes.length := List.mem_range.mp hindex
  exact ⟨Nat.le_add_right payload index, Nat.add_lt_add_left hlt payload⟩

theorem pbufAlloc_notMem_writes (payload : ℕ) (bytes : List UInt8) (length : UInt16) :
    .pbufAlloc length ∉ writes payload bytes := by
  intro h
  obtain ⟨cell, -, hwrite⟩ := List.mem_map.mp h
  cases hwrite

namespace PacketBuffer

/-- A packet of one pbuf, with what has been written to the bytes that were requested for it. -/
def single (pbuf : PbufRam) (bytes : List UInt8) : PacketBuffer where
  inner := pbuf.inner
  chain := [⟨pbuf.payload, bytes⟩]
  nodup := by
    rw [List.flatMap_singleton]
    exact Segment.nodup_cells _

/-- `PacketBuffer::alloc`, when `pbuf_alloc` answers requests by `pbufAlloc`. -/
def alloc (serializer : Serializer α) (pbufAlloc : UInt16 → Option PbufRam) (msg : α) :
    Option PacketBuffer × List AllocEffect :=
  match serializer.size msg with
  | none => (none, [])
  | some size =>
      -- `size as u16`
      let length := UInt16.ofNat size
      match pbufAlloc length with
      | none => (none, [.pbufAlloc length])
      | some pbuf =>
          -- the slice has `size` bytes
          let (bytes, isOk) := serializer.toSlice msg size
          let effects := .pbufAlloc length :: writes pbuf.payload bytes
          if isOk then (some (single pbuf (bytes.take length.toNat)), effects)
          else (none, effects ++ [.pbufFree pbuf.inner])

section Cases

variable {serializer : Serializer α} {pbufAlloc : UInt16 → Option PbufRam} {msg : α}

theorem alloc_of_size_eq_none (h : serializer.size msg = none) :
    alloc serializer pbufAlloc msg = (none, []) := by
  rw [alloc, h]

theorem alloc_of_null {size : ℕ} (hsize : serializer.size msg = some size)
    (hnull : pbufAlloc (UInt16.ofNat size) = none) :
    alloc serializer pbufAlloc msg = (none, [.pbufAlloc (UInt16.ofNat size)]) := by
  simp only [alloc, hsize, hnull]

/-- Whatever length lwIP was asked for, all bytes of the message are written. -/
theorem alloc_of_pbuf {bytes : List UInt8} (hbytes : serializer.encode msg = some bytes)
    {pbuf : PbufRam} (hpbuf : pbufAlloc (UInt16.ofNat bytes.length) = some pbuf) :
    alloc serializer pbufAlloc msg =
      (some (single pbuf (bytes.take (UInt16.ofNat bytes.length).toNat)),
        .pbufAlloc (UInt16.ofNat bytes.length) :: writes pbuf.payload bytes) := by
  have hsize : serializer.size msg = some bytes.length := by
    rw [Serializer.size, hbytes, Option.map_some]
  have hslice : serializer.toSlice msg bytes.length = (bytes, true) :=
    serializer.toSlice_of_le hbytes le_rfl
  simp only [alloc, hsize, hpbuf, hslice, if_true]

end Cases

/-- A call asks lwIP for what the message takes and writes within what it has asked for, or it
returns nothing. -/
structure Contained (serializer : Serializer α) (pbufAlloc : UInt16 → Option PbufRam) (msg : α) :
    Prop where
  requested : (alloc serializer pbufAlloc msg).1.isSome → ∃ length : UInt16,
    .pbufAlloc length ∈ (alloc serializer pbufAlloc msg).2 ∧
      serializer.size msg = some length.toNat
  within : ∀ length pbuf, .pbufAlloc length ∈ (alloc serializer pbufAlloc msg).2 →
    pbufAlloc length = some pbuf → ∀ address byte,
      .write address byte ∈ (alloc serializer pbufAlloc msg).2 →
        pbuf.payload ≤ address ∧ address < pbuf.payload + length.toNat
  refused : ∀ size, serializer.size msg = some size → 2 ^ 16 ≤ size →
    (alloc serializer pbufAlloc msg).1 = none

section Contained

variable {serializer : Serializer α} {pbufAlloc : UInt16 → Option PbufRam} {msg : α}

/-- A message that lwIP has given a pbuf for has a size of 16 bits, if the call is contained. -/
theorem Contained.size_lt (h : Contained serializer pbufAlloc msg) {size : ℕ}
    (hsize : serializer.size msg = some size) {pbuf : PbufRam}
    (hpbuf : pbufAlloc (UInt16.ofNat size) = some pbuf) : size < 2 ^ 16 := by
  by_contra hlarge
  obtain ⟨bytes, hbytes, rfl, -⟩ := Serializer.exists_of_size hsize
  have hrefused := h.refused _ hsize (Nat.not_lt.mp hlarge)
  rw [alloc_of_pbuf hbytes hpbuf] at hrefused
  cases hrefused

/-- A call that is given no pbuf writes nothing. -/
theorem contained_of_null {size : ℕ} (hsize : serializer.size msg = some size)
    (hnull : pbufAlloc (UInt16.ofNat size) = none) : Contained serializer pbufAlloc msg where
  requested h := by
    rw [alloc_of_null hsize hnull] at h
    cases h
  within length pbuf hlength hpbuf := by
    rw [alloc_of_null hsize hnull, List.mem_singleton] at hlength
    obtain rfl := AllocEffect.pbufAlloc.inj hlength
    rw [hnull] at hpbuf
    cases hpbuf
  refused _ _ _ := by rw [alloc_of_null hsize hnull]

/-- A size of 16 bits is what lwIP is asked for. -/
theorem contained_of_lt {size : ℕ} (hsize : serializer.size msg = some size)
    (hlt : size < 2 ^ 16) : Contained serializer pbufAlloc msg := by
  cases hpbuf : pbufAlloc (UInt16.ofNat size) with
  | none => exact contained_of_null hsize hpbuf
  | some pbuf =>
      obtain ⟨bytes, hbytes, rfl, -⟩ := Serializer.exists_of_size hsize
      have hnat : (UInt16.ofNat bytes.length).toNat = bytes.length := by
        rw [UInt16.toNat_ofNat']
        exact Nat.mod_eq_of_lt hlt
      constructor
      · intro _
        refine ⟨UInt16.ofNat bytes.length, ?_, by rw [hsize, hnat]⟩
        rw [alloc_of_pbuf hbytes hpbuf]
        exact List.mem_cons_self
      · intro length other hlength hother address byte hwrite
        rw [alloc_of_pbuf hbytes hpbuf] at hlength hwrite
        rcases List.mem_cons.mp hlength with hrequest | hlength
        · obtain rfl := AllocEffect.pbufAlloc.inj hrequest
          rw [hpbuf] at hother
          obtain rfl := Option.some.inj hother
          rcases List.mem_cons.mp hwrite with hnot | hwrite
          · cases hnot
          · rw [hnat]
            exact mem_writes hwrite
        · exact absurd hlength (pbufAlloc_notMem_writes _ _ _)
      · intro other hother hlarge
        rw [hsize] at hother
        obtain rfl := Option.some.inj hother
        exact absurd hlt (Nat.not_lt.mpr hlarge)

theorem contained_of_size_eq_none (h : serializer.size msg = none) :
    Contained serializer pbufAlloc msg where
  requested hsome := by
    rw [alloc_of_size_eq_none h] at hsome
    cases hsome
  within _ _ hlength := by
    rw [alloc_of_size_eq_none h] at hlength
    cases hlength
  refused _ _ _ := by rw [alloc_of_size_eq_none h]

/-- A packet that has been allocated for a size of 16 bits holds the whole message. -/
theorem chunks_alloc {bytes : List UInt8} (hbytes : serializer.encode msg = some bytes)
    (hlt : bytes.length < 2 ^ 16) {packet : PacketBuffer}
    (h : (alloc serializer pbufAlloc msg).1 = some packet) : packet.chunks = [bytes] := by
  have hsize : serializer.size msg = some bytes.length := by
    rw [Serializer.size, hbytes, Option.map_some]
  cases hpbuf : pbufAlloc (UInt16.ofNat bytes.length) with
  | none =>
      rw [alloc_of_null hsize hpbuf] at h
      cases h
  | some pbuf =>
      rw [alloc_of_pbuf hbytes hpbuf] at h
      obtain rfl := Option.some.inj h
      have htake : bytes.take (UInt16.ofNat bytes.length).toNat = bytes := by
        rw [UInt16.toNat_ofNat', Nat.mod_eq_of_lt hlt, List.take_length]
      rw [chunks, single, htake]
      rfl

end Contained

end PacketBuffer

end Derusting.Lwip
