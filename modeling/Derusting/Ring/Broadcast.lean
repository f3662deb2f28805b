import Derusting.Foundations.Text
import Derusting.Lwip.Alloc
import Derusting.Ring.Reception

/-!
# Messages that are sent

`Message::send` of `tasks/messages.rs`, for any serialiser.  A message of a size that fits in 16
bits goes out as it is; a longer one is written beyond the packet that lwIP has allocated for it.

Logs can be that long.  To show one, there is a serialiser in the documented format of `postcard`,
which writes the fields of a message one after the other, with the length before everything of
variable length.
-/

namespace Derusting

open Foundations Foundations.Text Lwip Lwip.PacketBuffer

/-! ## The format of a message -/

/-- `postcard` on a `usize` or `u32` of the target. -/
def varint32 (value : ℕ) : List UInt8 := varint 5 value

/-- `Uuid::as_bytes`. -/
def Uuid.asBytes (guid : Uuid) : List UInt8 :=
  (List.range 16).map fun index ↦ UInt8.ofNat (guid.bits.toNat / 256 ^ (15 - index))

/-- `Ipv4Addr::octets`. -/
def Ipv4Addr.octets (addr : Ipv4Addr) : List UInt8 :=
  [(addr.bits >>> 24).toUInt8, (addr.bits >>> 16).toUInt8, (addr.bits >>> 8).toUInt8,
    addr.bits.toUInt8]

/-- A guid is serialised as a slice of bytes. -/
def Uuid.pieces (guid : Uuid) : List (List UInt8) := [varint32 16, guid.asBytes]

/-- A payload is serialised as the number of its variant and its fields. -/
def Payload.pieces : Payload → List (List UInt8)
  | .heartbeat alive => [varint32 0, [if alive then 1 else 0]]
  | .newJob guid => varint32 1 :: guid.pieces
  | .ledger carried =>
      varint32 2 :: carried.owner.octets.map (fun octet ↦ [octet]) ++
        varint32 carried.jobs.toList.length :: carried.jobs.toList.flatMap Uuid.pieces
  | .log text => [varint32 3, varint32 (asBytes text).length, asBytes text]

/-- The pieces `postcard` writes a message in. -/
def Message.pieces (message : Message) : List (List UInt8) :=
  message.idempotency.pieces ++ message.payload.pieces

/-- A serialiser that writes messages as `postcard` does. -/
def postcard : Serializer Message := .ofPieces Message.pieces

example : (postcard.encode ⟨⟨7⟩, .heartbeat true⟩).bind sampleDecode =
    some ⟨⟨7⟩, .heartbeat true⟩ := by decide

theorem Uuid.length_pieces (guid : Uuid) : guid.pieces.flatten.length = 17 := by
  simp [Uuid.pieces, Uuid.asBytes, varint32, varint]

/-- What a log adds to its text: the key, the number of the variant and the length. -/
theorem size_log (idempotency : Uuid) (text : List Char) :
    postcard.size ⟨idempotency, .log text⟩ =
      some (18 + (varint32 (asBytes text).length).length + (asBytes text).length) := by
  have hvariant : (varint32 3).length = 1 := rfl
  rw [postcard, Serializer.size_ofPieces, Message.pieces, List.flatten_append, List.length_append,
    Uuid.length_pieces, Payload.pieces]
  simp only [List.flatten_cons, List.flatten_nil, List.length_append, List.append_nil, hvariant]
  rw [Option.some.injEq]
  omega

/-- A log has a size of 16 bits if and only if its text has at most 65514 bytes. -/
theorem size_log_lt_iff (idempotency : Uuid) (text : List Char) :
    (∀ size, postcard.size ⟨idempotency, .log text⟩ = some size → size < 2 ^ 16) ↔
      (asBytes text).length ≤ 65514 := by
  rw [size_log]
  simp only [Option.some.injEq, forall_eq']
  generalize (asBytes text).length = count
  by_cases hsmall : count < 16384
  · have hlength : (varint32 count).length ≤ 2 := by
      by_cases htiny : count < 128
      · exact (length_varint 0 (by decide) (.inl rfl) htiny).le.trans (by decide)
      · exact (length_varint 1 (by decide) (.inr (by omega)) hsmall).le
    omega
  · by_cases hlarge : count < 128 ^ 3
    · have hlength : (varint32 count).length = 3 :=
        length_varint 2 (by decide) (.inr (by omega)) hlarge
      omega
    · omega

/-! ## Sending -/

/-- `Message::send`: one packet for each repeat, until one cannot be allocated. The list has what
lwIP answers in each repeat. -/
def Message.send (serializer : Serializer Message) (message : Message) :
    List (UInt16 → Option PbufRam) → List (Option PacketBuffer × List AllocEffect)
  | [] => []
  | pbufAlloc :: repeats =>
      let allocated := alloc serializer pbufAlloc message
      if allocated.1.isNone then [allocated]
      else allocated :: message.send serializer repeats

/-- What goes out in any of the repeats is the whole message in one pbuf, if its size fits in 16
bits. -/
theorem Message.chunks_of_send {serializer : Serializer Message} {message : Message}
    {bytes : List UInt8} (hbytes : serializer.encode message = some bytes)
    (hlt : bytes.length < 2 ^ 16) {repeats : List (UInt16 → Option PbufRam)}
    {packet : PacketBuffer} (h : some packet ∈ (message.send serializer repeats).map Prod.fst) :
    packet.chunks = [bytes] := by
  induction repeats with
  | nil => cases h
  | cons pbufAlloc repeats ih =>
      rw [Message.send] at h
      cases hfirst : (alloc serializer pbufAlloc message).1 with
      | none =>
          simp only [hfirst, Option.isNone_none, if_true, List.map_cons, List.map_nil,
            List.mem_singleton] at h
          cases h
      | some allocated =>
          simp only [hfirst, Option.isNone_some, Bool.false_eq_true, if_false, List.map_cons,
            List.mem_cons, Option.some.injEq] at h
          rcases h with rfl | hlater
          · exact chunks_alloc hbytes hlt hfirst
          · exact ih hlater

/-- A message that cannot be serialised does not go out. -/
theorem Message.encode_of_send {serializer : Serializer Message} {message : Message}
    {repeats : List (UInt16 → Option PbufRam)} {packet : PacketBuffer}
    (h : some packet ∈ (message.send serializer repeats).map Prod.fst) :
    ∃ bytes, serializer.encode message = some bytes := by
  cases hbytes : serializer.encode message with
  | some bytes => exact ⟨bytes, rfl⟩
  | none =>
      have hsize : serializer.size message = none := by
        rw [Serializer.size, hbytes, Option.map_none]
      cases repeats with
      | nil => cases h
      | cons pbufAlloc repeats =>
          simp [Message.send, alloc_of_size_eq_none hsize] at h

/-- For every serialiser, every message and every state of lwIP: a call of `alloc` is contained if
and only if the size of the message fits in 16 bits or lwIP has no pbuf for it. -/
theorem alloc_contained_iff {α : Type*} (serializer : Serializer α)
    (pbufAlloc : UInt16 → Option PbufRam) (msg : α) :
    Contained serializer pbufAlloc msg ↔ ∀ size, serializer.size msg = some size →
      size < 2 ^ 16 ∨ pbufAlloc (UInt16.ofNat size) = none := by
  constructor
  · intro h size hsize
    cases hpbuf : pbufAlloc (UInt16.ofNat size) with
    | none => exact .inr rfl
    | some pbuf => exact .inl (h.size_lt hsize hpbuf)
  · intro h
    cases hsize : serializer.size msg with
    | none => exact contained_of_size_eq_none hsize
    | some size =>
        rcases h size hsize with hlt | hnull
        · exact contained_of_lt hsize hlt
        · exact contained_of_null hsize hnull

/-- A log of 65515 bytes: lwIP is asked for 0 bytes, and 65536 are written. -/
theorem not_contained_longLog :
    ¬ Contained postcard (fun _ ↦ some ⟨0, 16⟩) ⟨⟨7⟩, .log (List.replicate 65515 'a')⟩ := by
  intro h
  have hascii : Ascii (List.replicate 65515 'a') := by
    intro char hmem
    rw [List.eq_of_mem_replicate hmem]
    decide
  have hlength : (asBytes (List.replicate 65515 'a')).length = 65515 := by
    rw [hascii.length_asBytes, List.length_replicate]
  have hle := (size_log_lt_iff ⟨7⟩ (List.replicate 65515 'a')).mp fun size hsize ↦
    h.size_lt hsize rfl
  omega

end Derusting
