import Derusting.Foundations.Reader
import Derusting.Ring.Broadcast

/-!
# A codec for messages

What `Ring.Packets` needs of `postcard` is a parameter there: a message is read back from its bytes,
and from no proper part of them.  Here is an instance to run examples on.  It reads what the
serialiser of `Ring.Broadcast` writes, in the documented format of `postcard` with `uuid`,
`core::net` and `heapless` for the fields; no result about packets depends on that format.
-/

namespace Derusting

open Foundations Foundations.Bounded Foundations.Text

/-! ## Reading a message -/

/-- A `usize` or `u32` of the target. -/
def readVarint32 : Reader ℕ := Reader.varint 15 5

/-- `Uuid::from_slice`. -/
def Uuid.fromSlice (bytes : List UInt8) : Option Uuid :=
  if bytes.length = 16 then
    some ⟨BitVec.ofNat 128 (bytes.foldl (fun bits byte ↦ bits * 256 + byte.toNat) 0)⟩
  else none

/-- A guid is deserialised from a slice of bytes. -/
def Uuid.reader : Reader Uuid := do
  let len ← readVarint32
  let bytes ← Reader.take len
  Reader.ofOption (Uuid.fromSlice bytes)

/-- An address is deserialised from its octets. -/
def Ipv4Addr.reader : Reader Ipv4Addr := do
  let a ← Reader.byte
  let b ← Reader.byte
  let c ← Reader.byte
  let d ← Reader.byte
  pure (.new a b c d)

/-- A byte that is neither 0 nor 1 is no `bool`. -/
def readBool : Reader Bool := do
  let byte ← Reader.byte
  if byte = 0 then pure false else if byte = 1 then pure true else Reader.fail

/-- `FnvIndexSet::insert` with its result: `none` when a new value meets a full set. -/
def tryInsert (set : IndexSet Uuid 8) (guid : Uuid) : Option (IndexSet Uuid 8) :=
  if guid ∈ set.toList ∨ set.toList.length < 8 then some (set.insert guid) else none

/-- So many elements of a set, inserted one after the other. -/
def readJobs : ℕ → IndexSet Uuid 8 → Reader (IndexSet Uuid 8)
  | 0, set => pure set
  | count + 1, set => do
      let guid ← Uuid.reader
      let set ← Reader.ofOption (tryInsert set guid)
      readJobs count set

/-- The number of a variant and its fields. -/
def Payload.reader : Reader Payload := do
  let variant ← readVarint32
  match variant with
  | 0 => do
      let alive ← readBool
      pure (.heartbeat alive)
  | 1 => do
      let guid ← Uuid.reader
      pure (.newJob guid)
  | 2 => do
      let owner ← Ipv4Addr.reader
      let count ← readVarint32
      let jobs ← readJobs count .empty
      pure (.ledger ⟨owner, jobs⟩)
  | 3 => do
      let len ← readVarint32
      let bytes ← Reader.take len
      let text ← Reader.ofOption (fromUtf8 bytes)
      pure (.log text)
  | _ => Reader.fail

/-- The fields of a message in their order. -/
def Message.reader : Reader Message := do
  let idempotency ← Uuid.reader
  let payload ← Payload.reader
  pure ⟨idempotency, payload⟩

/-- A message from the front of some bytes; what follows it is ignored. -/
def Message.fromBytes : List UInt8 → Option Message := Message.reader.run

/-! ## Fields are read back -/

theorem reads_varint32 {value : ℕ} (h : value < 2 ^ 32) :
    readVarint32.Reads (varint32 value) value :=
  Reader.reads_varint (by decide) (lt_of_lt_of_eq h (by norm_num))

/-- The big-endian bytes of a number, folded up again. -/
theorem foldl_bytes (count value : ℕ) :
    ((List.range count).map fun index ↦ UInt8.ofNat (value / 256 ^ (count - 1 - index))).foldl
        (fun bits byte ↦ bits * 256 + byte.toNat) 0 = value % 256 ^ count := by
  induction count generalizing value with
  | zero => simp [Nat.mod_one]
  | succ count ih =>
      have hfront : ((List.range count).map fun index ↦
          UInt8.ofNat (value / 256 ^ (count + 1 - 1 - index))) =
            (List.range count).map fun index ↦
              UInt8.ofNat (value / 256 / 256 ^ (count - 1 - index)) := by
        apply List.map_congr_left
        intro index hindex
        have hlt : index < count := List.mem_range.mp hindex
        have hpow : count + 1 - 1 - index = count - 1 - index + 1 := by omega
        rw [hpow, pow_succ', Nat.div_div_eq_div_mul]
      have hlast : (UInt8.ofNat (value / 256 ^ (count + 1 - 1 - count))).toNat = value % 256 := by
        rw [UInt8.toNat_ofNat', Nat.add_sub_cancel, Nat.sub_self, pow_zero, Nat.div_one]
      rw [List.range_succ, List.map_append, List.foldl_append, hfront, ih, List.map_singleton,
        List.foldl_cons, List.foldl_nil, hlast, pow_succ', Nat.mod_mul]
      ring

theorem Uuid.fromSlice_asBytes (guid : Uuid) : Uuid.fromSlice guid.asBytes = some guid := by
  have hlength : guid.asBytes.length = 16 := by rw [asBytes, List.length_map, List.length_range]
  have hvalue := foldl_bytes 16 guid.bits.toNat
  rw [Nat.mod_eq_of_lt (lt_of_lt_of_eq guid.bits.isLt (by norm_num))] at hvalue
  have hguid : (⟨BitVec.ofNat 128 guid.bits.toNat⟩ : Uuid) = guid := by simp
  rw [fromSlice, if_pos hlength, asBytes, hvalue, hguid]

theorem Uuid.reads (guid : Uuid) : Uuid.reader.Reads guid.pieces.flatten guid := by
  have hlength : guid.asBytes.length = 16 := by rw [asBytes, List.length_map, List.length_range]
  have hbytes := Reader.reads_take guid.asBytes
  rw [hlength] at hbytes
  rw [pieces, List.flatten_cons, List.flatten_singleton]
  refine (reads_varint32 (by decide)).bind (hbytes.finish ?_)
  exact Reader.reads_ofOption guid.fromSlice_asBytes

theorem Ipv4Addr.new_octets (addr : Ipv4Addr) :
    Ipv4Addr.new (addr.bits >>> 24).toUInt8 (addr.bits >>> 16).toUInt8 (addr.bits >>> 8).toUInt8
      addr.bits.toUInt8 = addr := by
  have hbits := addr.bits.toNat_lt
  apply Ipv4Addr.ext
  rw [← UInt32.toNat_inj, Ipv4Addr.toNat_new]
  simp [UInt32.toNat_shiftRight, Nat.shiftRight_eq_div_pow]
  omega

theorem Ipv4Addr.reads (addr : Ipv4Addr) : Ipv4Addr.reader.Reads addr.octets addr := by
  have hpure : (pure (Ipv4Addr.new (addr.bits >>> 24).toUInt8 (addr.bits >>> 16).toUInt8
      (addr.bits >>> 8).toUInt8 addr.bits.toUInt8) : Reader Ipv4Addr).Reads [] addr := by
    rw [addr.new_octets]
    exact Reader.reads_pure addr
  exact (Reader.reads_byte _).bind <| (Reader.reads_byte _).bind <|
    (Reader.reads_byte _).bind <| (Reader.reads_byte _).finish hpure

theorem readBool_reads (flag : Bool) : readBool.Reads [if flag then 1 else 0] flag := by
  cases flag <;> exact (Reader.reads_byte _).finish (Reader.reads_pure _)

/-- Guids that are all different and fit are inserted in their order. -/
theorem readJobs_reads {set jobs : IndexSet Uuid 8} {guids : List Uuid}
    (h : jobs.toList = set.toList ++ guids) :
    (readJobs guids.length set).Reads (guids.flatMap Uuid.pieces).flatten jobs := by
  induction guids generalizing set with
  | nil =>
      rw [List.append_nil] at h
      rw [IndexSet.ext h]
      exact Reader.reads_pure set
  | cons guid guids ih =>
      have hnodup := jobs.nodup
      have hlength := jobs.length_le
      rw [h] at hnodup hlength
      rw [List.length_append, List.length_cons] at hlength
      have hnew : guid ∉ set.toList := fun hmem ↦
        (List.nodup_append.mp hnodup).2.2 guid hmem guid List.mem_cons_self rfl
      have hroom : set.toList.length < 8 := by omega
      have hinserted : (set.insert guid).toList = set.toList ++ [guid] :=
        IndexSet.toList_insert hnew hroom
      have hinsert : tryInsert set guid = some (set.insert guid) := if_pos (.inr hroom)
      rw [List.flatMap_cons, List.flatten_append]
      refine guid.reads.bind ((Reader.reads_ofOption hinsert).bind (ih ?_))
      rw [h, hinserted, List.append_assoc, List.singleton_append]

theorem Payload.reads {payload : Payload}
    (h : ∀ text, payload = .log text → (asBytes text).length < 2 ^ 32) :
    Payload.reader.Reads payload.pieces.flatten payload := by
  cases payload with
  | heartbeat alive =>
      exact (reads_varint32 (by decide)).bind ((readBool_reads alive).finish (Reader.reads_pure _))
  | newJob guid =>
      exact (reads_varint32 (by decide)).bind (guid.reads.finish (Reader.reads_pure _))
  | ledger carried =>
      have hcount : carried.jobs.toList.length < 2 ^ 32 :=
        carried.jobs.length_le.trans_lt (by decide)
      have hjobs : (readJobs carried.jobs.toList.length .empty).Reads
          (carried.jobs.toList.flatMap Uuid.pieces).flatten carried.jobs := readJobs_reads rfl
      have hpieces : (Payload.ledger carried).pieces.flatten =
          varint32 2 ++ (carried.owner.octets ++ (varint32 carried.jobs.toList.length ++
            (carried.jobs.toList.flatMap Uuid.pieces).flatten)) := rfl
      rw [hpieces]
      refine (reads_varint32 (by decide)).bind (carried.owner.reads.bind ?_)
      exact (reads_varint32 hcount).bind (hjobs.finish (Reader.reads_pure _))
  | log text =>
      have hpieces : (Payload.log text).pieces.flatten =
          varint32 3 ++ (varint32 (asBytes text).length ++ asBytes text) := by
        simp [pieces]
      have htext := Reader.reads_ofOption (fromUtf8_asBytes text)
      rw [hpieces]
      refine (reads_varint32 (by decide)).bind ((reads_varint32 (h text rfl)).bind ?_)
      exact (Reader.reads_take _).finish (htext.finish (Reader.reads_pure _))

/-! ## Messages are read back -/

/-- A message is read back from its bytes. -/
theorem Message.reads {message : Message}
    (h : ∀ text, message.payload = .log text → (asBytes text).length < 2 ^ 32) :
    Message.reader.Reads message.pieces.flatten message := by
  rw [pieces, List.flatten_append]
  exact message.idempotency.reads.bind ((Payload.reads h).finish (Reader.reads_pure _))

/-- A text in a message is no longer than the message. -/
theorem Message.length_text_le {message : Message} {text : List Char}
    (h : message.payload = .log text) : (asBytes text).length ≤ message.pieces.flatten.length := by
  rw [pieces, List.flatten_append, List.length_append, h, Payload.pieces]
  simp only [List.flatten_cons, List.length_append]
  omega

/-- A message of less than `2 ^ 32` bytes is what is read from the front of them. -/
theorem Message.reads_encoded {message : Message} {bytes : List UInt8}
    (hbytes : postcard.encode message = some bytes) (hlt : bytes.length < 2 ^ 32) :
    Message.reader.Reads bytes message := by
  obtain rfl := Option.some.inj hbytes
  exact Message.reads fun text htext ↦ (length_text_le htext).trans_lt hlt

/-- `postcard` with what reads messages back, on a target of 32 bits. -/
def postcardCodec : Codec Message (2 ^ 32) where
  toSerializer := postcard
  fromBytes := Message.fromBytes
  fromBytes_encode {message bytes} hbytes hlt := by
    have hread := (Message.reads_encoded hbytes hlt).run_append []
    rwa [List.append_nil] at hread
  fromBytes_front hbytes hlt := (Message.reads_encoded hbytes hlt).run_front

end Derusting
