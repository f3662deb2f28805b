import Derusting.Foundations.Regions
import Mathlib.Data.List.Nodup

/-!
# Packet buffers and their slices

`lwip/packet_buffer.rs` on memory.  A packet buffer owns a chain of pbufs and frees it when it is
dropped.  Its iterator owns the packet buffer and yields the payload of one pbuf after the other as
a slice, an address and a length, whose lifetime `'a` is not tied to the iterator: the compiler
accepts uses of a slice after the iterator is gone.
-/

namespace Derusting.Lwip

open Foundations.Regions

/-- A program of a task that works on packets in memory. -/
abbrev Routine (α : Type) := Program ℕ UInt8 α

/-- One pbuf of a chain, with the bytes that arrived in it; its `len` is their number. -/
structure Segment where
  payload : ℕ
  bytes : List UInt8
deriving DecidableEq

/-- The memory of the payload. -/
def Segment.cells (segment : Segment) : List (ℕ × UInt8) :=
  segment.bytes.mapIdx fun index byte ↦ (segment.payload + index, byte)

theorem Segment.addresses_cells (segment : Segment) :
    segment.cells.map Prod.fst =
      (List.range segment.bytes.length).map fun index ↦ segment.payload + index := by
  apply List.ext_getElem
  · simp [Segment.cells]
  · intro index _ _
    simp [Segment.cells]

/-- One pbuf alone never overlaps itself. -/
theorem Segment.nodup_cells (segment : Segment) : (segment.cells.map Prod.fst).Nodup := by
  rw [Segment.addresses_cells]
  exact List.nodup_range.map fun _ _ ↦ Nat.add_left_cancel

/-- `PacketBuffer`: the chain `inner` points to. lwIP does not hand out overlapping pbufs. -/
structure PacketBuffer where
  inner : ℕ
  chain : List Segment
  nodup : ((chain.flatMap Segment.cells).map Prod.fst).Nodup

/-- A `&[u8]`. -/
structure Slice where
  payload : ℕ
  len : ℕ
deriving DecidableEq

/-- `PacketBufferIterator`. -/
structure PacketBufferIterator where
  inner : PacketBuffer
  current : List Segment

namespace PacketBuffer

/-- The memory that `pbuf_free` gives back. -/
def region (packet : PacketBuffer) : Region ℕ UInt8 :=
  ⟨packet.inner, packet.chain.flatMap Segment.cells, packet.nodup⟩

/-- The chunks as they arrived. -/
def chunks (packet : PacketBuffer) : List (List UInt8) := packet.chain.map Segment.bytes

/-- A packet that has been received comes into the scope of the task. -/
def received (packet : PacketBuffer) : Routine Unit := .acquire packet.region (.done ())

/-- `PacketBuffer::drop`. -/
def drop (packet : PacketBuffer) : Routine Unit := .free packet.region (.done ())

/-- `PacketBuffer::into_iter`. -/
def intoIter (packet : PacketBuffer) : PacketBufferIterator := ⟨packet, packet.chain⟩

end PacketBuffer

namespace Slice

/-- The first `count` bytes. -/
def take (slice : Slice) (count : ℕ) : Slice := ⟨slice.payload, min count slice.len⟩

/-- What is behind the first `count` bytes. -/
def drop (slice : Slice) (count : ℕ) : Slice := ⟨slice.payload + count, slice.len - count⟩

/-- Read so many bytes from an address on, behind those read already. -/
def readOnto : ℕ → ℕ → List UInt8 → Routine (List UInt8)
  | 0, _, seen => .done seen
  | len + 1, payload, seen => .read payload fun byte ↦ readOnto len (payload + 1) (seen ++ [byte])

/-- Read the bytes of a slice. -/
def read (slice : Slice) : Routine (List UInt8) := readOnto slice.len slice.payload []

end Slice

/-- The payload of one pbuf. -/
def Segment.slice (segment : Segment) : Slice := ⟨segment.payload, segment.bytes.length⟩

/-- `PacketBufferIterator::next`. -/
def PacketBufferIterator.next (iter : PacketBufferIterator) :
    Option Slice × PacketBufferIterator :=
  match iter.current with
  | [] => (none, iter)
  | segment :: rest => (some segment.slice, { iter with current := rest })

/-! ## Slices of packets that are held -/

variable {held : List (Region ℕ UInt8)} {slice : Slice} {bytes : List UInt8}

theorem evaluates_received (packet : PacketBuffer) :
    packet.received.Evaluates held () (packet.region :: held) := .acquire (.done _ ())

theorem evaluates_drop (packet : PacketBuffer) :
    packet.drop.Evaluates (packet.region :: held) () held := by
  refine .free List.mem_cons_self ?_
  rw [List.erase_cons_head]
  exact .done held ()

/-- The slice covers bytes that have arrived in packets the task holds. -/
structure Covers (held : List (Region ℕ UInt8)) (slice : Slice) (bytes : List UInt8) : Prop where
  len : slice.len = bytes.length
  cell : ∀ (index : ℕ) (h : index < bytes.length),
    ∃ region ∈ held, (slice.payload + index, bytes[index]) ∈ region.cells

theorem covers_segment {packet : PacketBuffer} {segment : Segment} (hheld : packet.region ∈ held)
    (hmem : segment ∈ packet.chain) : Covers held segment.slice segment.bytes where
  len := rfl
  cell index h := by
    refine ⟨packet.region, hheld, List.mem_flatMap.mpr ⟨segment, hmem, ?_⟩⟩
    exact List.mem_mapIdx.mpr ⟨index, h, rfl⟩

theorem Covers.take (h : Covers held slice bytes) (count : ℕ) :
    Covers held (slice.take count) (bytes.take count) where
  len := by rw [Slice.take, h.len, List.length_take]
  cell index hindex := by
    obtain ⟨region, hheld, hcell⟩ := h.cell index (by
      rw [List.length_take] at hindex
      omega)
    rw [List.getElem_take]
    exact ⟨region, hheld, hcell⟩

theorem Covers.drop (h : Covers held slice bytes) (count : ℕ) :
    Covers held (slice.drop count) (bytes.drop count) where
  len := by rw [Slice.drop, h.len, List.length_drop]
  cell index hindex := by
    rw [List.length_drop] at hindex
    obtain ⟨region, hheld, hcell⟩ := h.cell (count + index) (by omega)
    rw [List.getElem_drop, Slice.drop, Nat.add_assoc]
    exact ⟨region, hheld, hcell⟩

theorem evaluates_readOnto (h : Covers held slice bytes) (seen : List UInt8) :
    (Slice.readOnto slice.len slice.payload seen).Evaluates held (seen ++ bytes) held := by
  induction bytes generalizing slice seen with
  | nil =>
      rw [h.len, List.append_nil]
      exact .done held seen
  | cons byte bytes ih =>
      obtain ⟨region, hheld, hcell⟩ := h.cell 0 (Nat.zero_lt_succ _)
      have hrest := ih (h.drop 1) (seen ++ [byte])
      rw [List.append_assoc] at hrest
      have hlen : slice.len = (slice.drop 1).len + 1 := by rw [Slice.drop, h.len]; rfl
      rw [hlen]
      exact .read hheld hcell hrest

/-- Reading a slice of packets that are held gives the bytes that arrived. -/
theorem Covers.evaluates_read (h : Covers held slice bytes) :
    slice.read.Evaluates held bytes held := evaluates_readOnto h []

end Derusting.Lwip
