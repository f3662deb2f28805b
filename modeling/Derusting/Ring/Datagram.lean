import Derusting.Http.Chunks
import Derusting.Ring.Reception

/-!
# What a datagram is decoded from

`udp_receiver` takes the first chunk of a packet from an iterator that is a temporary of the `let`,
and decodes it afterwards.  The temporary owns the packet, so that the packet is freed between the
two, and what is decoded is whatever lies where the chunk was.  `handle_conn` binds its iterators or
loops over them, and reads every chunk while it holds the packet.
-/

namespace Derusting.InPlace

open Foundations.Regions Foundations.Transition Lwip

variable {decode : List UInt8 → Option Message} {packet : PacketBuffer}

/-- What follows once `udp_receiver` has the first chunk, if there is one. -/
def decodeChunk (decode : List UInt8 → Option Message) : Option Slice → Routine (Option Message)
  | none => return none
  | some msg => do return decode (← msg.read)

/-- `udp_receiver` up to the message it goes on with; without one the packet is skipped. -/
def udpReceiver (decode : List UInt8 → Option Message) (packet : PacketBuffer) :
    Routine (Option Message) := do
  packet.received
  let (msg, temporary) := packet.intoIter.next
  -- the end of the `let` drops the iterator, and with it the packet
  temporary.inner.drop
  decodeChunk decode msg

/-- How far `udp_receiver` has come with a packet, where `Seen` holds of the bytes it has read. -/
inductive Progress (decode : List UInt8 → Option Message) (packet : PacketBuffer)
    (Seen : List UInt8 → Prop) :
    List (Region ℕ UInt8) → Routine (Option Message) → Prop
  | waiting : Progress decode packet Seen [] (udpReceiver decode packet)
  | received : Progress decode packet Seen [packet.region]
      (packet.intoIter.next.2.inner.drop >>= fun _ ↦ decodeChunk decode packet.intoIter.next.1)
  | skipped (hempty : packet.chain = []) : Progress decode packet Seen [] (pure none)
  | reading {first : Segment} {rest : List Segment} (hchain : packet.chain = first :: rest)
      {seen : List UInt8} {left : ℕ} (hlength : seen.length + left = first.bytes.length)
      (hseen : Seen seen) :
      Progress decode packet Seen []
        (Slice.readOnto left (first.payload + seen.length) seen >>= fun bytes ↦ pure (decode bytes))

theorem inner_next (iter : PacketBufferIterator) : iter.next.2.inner = iter.inner := by
  unfold PacketBufferIterator.next
  split <;> rfl

/-- The temporary owns the packet. -/
theorem erase_dropped (packet : PacketBuffer) :
    [packet.region].erase packet.intoIter.next.2.inner.region = [] := by
  rw [inner_next]
  exact List.erase_cons_head _ _

variable {Seen : List UInt8 → Prop} {pool after : Pool ℕ UInt8 (Option Message)}

/-- Each step keeps to the course of `udp_receiver`, if `Seen` goes on to hold with the byte that is
read next. -/
theorem Progress.step (h : Progress decode packet Seen pool.held pool.program)
    (hnil : Seen []) {access : Access ℕ UInt8}
    (hread : ∀ first ∈ packet.chain.head?, ∀ seen, Seen seen → seen.length < first.bytes.length →
      access = .proceed → (∃ next, pool.program = .read (first.payload + seen.length) next) →
        Seen (seen ++ [pool.memory (first.payload + seen.length)]))
    (hstep : pool.step access = some after) :
    Progress decode packet Seen after.held after.program := by
  rcases Pool.step_cases hstep with ⟨haccess, hproceed⟩ | ⟨hheld, hprogram⟩
  · obtain ⟨memory, live, held, program⟩ := pool
    cases h with
    | waiting =>
        obtain ⟨-, hafter⟩ := Option.ite_none_right_eq_some.mp hproceed
        obtain rfl := Option.some.inj hafter
        exact .received
    | received =>
        obtain rfl := Option.some.inj hproceed
        simp only [erase_dropped]
        cases hchain : packet.chain with
        | nil =>
            rw [PacketBuffer.intoIter, PacketBufferIterator.next, hchain]
            exact .skipped hchain
        | cons first rest =>
            rw [PacketBuffer.intoIter, PacketBufferIterator.next, hchain]
            exact .reading hchain (Nat.zero_add _) hnil
    | skipped hempty => cases hproceed
    | @reading first rest hchain seen left hlength hseen =>
        cases left with
        | zero => cases hproceed
        | succ left =>
            obtain rfl := Option.some.inj hproceed
            have hshort : seen.length < first.bytes.length := by omega
            have hmore := hread first (by rw [hchain]; rfl) seen hseen hshort haccess ⟨_, rfl⟩
            have hnext : first.payload + seen.length + 1 = first.payload +
                (seen ++ [memory (first.payload + seen.length)]).length := by
              rw [List.length_append, List.length_singleton, Nat.add_assoc]
            have hlater : (seen ++ [memory (first.payload + seen.length)]).length + left =
                first.bytes.length := by
              rw [List.length_append, List.length_singleton]
              omega
            have hreading : Progress decode packet Seen [] _ := .reading hchain hlater hmore
            rw [← hnext] at hreading
            exact hreading
  · rw [hheld, hprogram]
    exact h

/-- The message is decoded from as many bytes as the first chunk has. -/
theorem Progress.result {held : List (Region ℕ UInt8)} {routine : Routine (Option Message)}
    (h : Progress decode packet Seen held routine) {found : Option Message}
    (hfound : routine.result? = some found) :
    (packet.chain = [] ∧ found = none) ∨ ∃ first rest seen, packet.chain = first :: rest ∧
      seen.length = first.bytes.length ∧ Seen seen ∧ found = decode seen := by
  cases h with
  | waiting => cases hfound
  | received => cases hfound
  | skipped hempty => exact .inl ⟨hempty, (Option.some.inj hfound).symm⟩
  | @reading first rest hchain seen left hlength hseen =>
      cases left with
      | zero => exact .inr ⟨first, rest, seen, hchain, hlength, hseen, (Option.some.inj hfound).symm⟩
      | succ left => cases hfound

/-- As long as it has not begun to read, `udp_receiver` accesses only what it holds. -/
theorem Progress.holds (h : Progress decode packet Seen pool.held pool.program)
    (hempty : ∀ first ∈ packet.chain.head?, first.bytes = []) : pool.Holds := by
  obtain ⟨memory, live, held, program⟩ := pool
  cases h with
  | waiting => trivial
  | received =>
      change packet.intoIter.next.2.inner.region ∈ [packet.region]
      rw [inner_next]
      exact List.mem_cons_self
  | skipped _ => trivial
  | @reading first rest hchain seen left hlength _ =>
      have hnil : first.bytes = [] := hempty first (by rw [hchain]; rfl)
      rw [hnil, List.length_nil] at hlength
      obtain rfl : left = 0 := by omega
      trivial

/-! ## Undisturbed runs -/

/-- Whenever the program reads a byte, it finds the one that arrived there in the packet. -/
def FindsArrived (packet : PacketBuffer) (pool : Pool ℕ UInt8 (Option Message))
    (access : Access ℕ UInt8) : Prop :=
  access = .proceed → ∀ address next, pool.program = .read address next →
    (address, pool.memory address) ∈ packet.region.cells

/-- What has been read is the beginning of the first chunk. -/
def Begins (packet : PacketBuffer) (seen : List UInt8) : Prop :=
  ∀ first ∈ packet.chain.head?, seen <+: first.bytes

theorem begins_append {first : Segment} {rest : List Segment}
    (hchain : packet.chain = first :: rest) {seen : List UInt8} (hseen : Begins packet seen)
    (hshort : seen.length < first.bytes.length) {byte : UInt8}
    (hcell : (first.payload + seen.length, byte) ∈ packet.region.cells) :
    Begins packet (seen ++ [byte]) := by
  have hown : (first.payload + seen.length, first.bytes[seen.length]) ∈ packet.region.cells := by
    refine List.mem_flatMap.mpr ⟨first, by simp [hchain], ?_⟩
    exact List.mem_mapIdx.mpr ⟨seen.length, hshort, rfl⟩
  have hsame := List.inj_on_of_nodup_map packet.nodup hcell hown rfl
  obtain rfl : byte = first.bytes[seen.length] := congrArg Prod.snd hsame
  intro other hother
  obtain rfl : first = other := by simpa [hchain] using hother
  obtain ⟨left, hleft⟩ := hseen first (by simp [hchain])
  have htake : first.bytes.take seen.length = seen := by rw [← hleft, List.take_left]
  have hnext : first.bytes.take (seen.length + 1) = seen ++ [first.bytes[seen.length]] := by
    rw [List.take_succ_eq_append_getElem hshort, htake]
  rw [← hnext]
  exact List.take_prefix _ _

/-- If every byte is still in its place when it is read, the message is decoded from those that
arrived. -/
theorem found_of_findsArrived {memory : ℕ → UInt8}
    (hreach : Reaches Pool.step (FindsArrived packet)
      (Pool.start memory (udpReceiver decode packet)) pool) {found : Option Message}
    (hfound : pool.program.result? = some found) : found = message? decode packet.chunks := by
  have hprogress : Progress decode packet (Begins packet) pool.held pool.program := by
    refine hreach.invariant
      (fun pool ↦ Progress decode packet (Begins packet) pool.held pool.program) .waiting ?_
    intro before access after hbefore hguard hstep
    refine hbefore.step (fun _ _ ↦ List.nil_prefix) ?_ hstep
    intro first hfirst seen hseen hshort haccess ⟨next, hnext⟩
    obtain ⟨rest, hchain⟩ := List.head?_eq_some_iff.mp hfirst
    exact begins_append hchain hseen hshort (hguard haccess _ _ hnext)
  rcases hprogress.result hfound with ⟨hempty, rfl⟩ | ⟨first, rest, seen, hchain, hlength, hseen, rfl⟩
  · simp [message?, PacketBuffer.chunks, hempty]
  · have hall : seen = first.bytes := (hseen first (by simp [hchain])).eq_of_length hlength
    simp [message?, PacketBuffer.chunks, hchain, hall]

/-! ## Disturbed runs -/

/-- The datagram is received, its first chunk is taken and it is freed. -/
theorem reaches_dropped (decode : List UInt8 → Option Message) (packet : PacketBuffer)
    (memory : ℕ → UInt8) :
    Reaches Pool.step Unrestricted (Pool.start memory (udpReceiver decode packet))
      ⟨packet.region.store memory, [], [], decodeChunk decode packet.intoIter.next.1⟩ := by
  have harrive := Pool.step_arrive memory [] (udpReceiver decode packet) packet.region
  have hreceive : Pool.step ⟨packet.region.store memory, [packet.region], [],
      udpReceiver decode packet⟩ .proceed = some ⟨packet.region.store memory, [packet.region],
        [packet.region], packet.intoIter.next.2.inner.drop >>= fun _ ↦
          decodeChunk decode packet.intoIter.next.1⟩ :=
    if_pos ⟨List.mem_cons_self, List.not_mem_nil⟩
  have hdrop : Pool.step ⟨packet.region.store memory, [packet.region], [packet.region],
      packet.intoIter.next.2.inner.drop >>= fun _ ↦ decodeChunk decode packet.intoIter.next.1⟩
      .proceed = some ⟨packet.region.store memory, [], [],
        decodeChunk decode packet.intoIter.next.1⟩ := by
    change some _ = _
    simp only [erase_dropped]
    rfl
  exact ((Reaches.refl.tail trivial harrive).tail trivial hreceive).tail trivial hdrop

/-- With nothing happening in between, a slice is read as it lies in memory. -/
theorem reaches_read {memory : ℕ → UInt8} {live held : List (Region ℕ UInt8)}
    {start : Pool ℕ UInt8 (Option Message)} {next : List UInt8 → Routine (Option Message)}
    {bytes : List UInt8} {payload : ℕ} {seen : List UInt8}
    (hbytes : ∀ (index : ℕ) (h : index < bytes.length), memory (payload + index) = bytes[index])
    (hreach : Reaches Pool.step Unrestricted start
      ⟨memory, live, held, Slice.readOnto bytes.length payload seen >>= next⟩) :
    Reaches Pool.step Unrestricted start ⟨memory, live, held, next (seen ++ bytes)⟩ := by
  induction bytes generalizing payload seen with
  | nil =>
      rw [List.append_nil]
      exact hreach
  | cons byte bytes ih =>
      have hread : Pool.step ⟨memory, live, held,
          Slice.readOnto (byte :: bytes).length payload seen >>= next⟩ .proceed = some ⟨memory, live,
            held, Slice.readOnto bytes.length (payload + 1) (seen ++ [memory payload]) >>= next⟩ :=
        rfl
      have hbyte : memory payload = byte := hbytes 0 (Nat.zero_lt_succ _)
      rw [hbyte] at hread
      have hrest : ∀ (index : ℕ) (h : index < bytes.length),
          memory (payload + 1 + index) = bytes[index] := by
        intro index hindex
        rw [Nat.add_assoc, Nat.add_comm 1]
        exact hbytes (index + 1) (Nat.succ_lt_succ hindex)
      have hlast := ih hrest (hreach.tail trivial hread)
      rw [List.append_assoc] at hlast
      exact hlast

theorem next_intoIter {first : Segment} {rest : List Segment}
    (hchain : packet.chain = first :: rest) : packet.intoIter.next.1 = some first.slice := by
  rw [PacketBuffer.intoIter, PacketBufferIterator.next, hchain]

/-- Whatever comes to lie in the place of the first chunk can be what is decoded. -/
theorem exists_reaches_decoded (decode : List UInt8 → Option Message) {first : Segment}
    {rest : List Segment} (hchain : packet.chain = first :: rest) {bytes : List UInt8}
    (hlength : bytes.length = first.bytes.length) (memory : ℕ → UInt8) :
    ∃ pool, Reaches Pool.step Unrestricted (Pool.start memory (udpReceiver decode packet)) pool ∧
      pool.program.result? = some (decode bytes) := by
  let other : Segment := ⟨first.payload, bytes⟩
  let region : Region ℕ UInt8 := ⟨packet.inner, other.cells, other.nodup_cells⟩
  have hdropped := reaches_dropped decode packet memory
  have harrive := Pool.step_arrive (packet.region.store memory) []
    (decodeChunk decode packet.intoIter.next.1) region
  have hreused := hdropped.tail trivial harrive
  have hstart : decodeChunk decode packet.intoIter.next.1 =
      (Slice.readOnto bytes.length first.payload [] >>= fun bytes ↦ pure (decode bytes)) := by
    rw [next_intoIter hchain, hlength]
    rfl
  rw [hstart] at hreused
  refine ⟨_, reaches_read (fun index hindex ↦ ?_) hreused, rfl⟩
  have hcell : (first.payload + index, bytes[index]) ∈ region.cells :=
    List.mem_mapIdx.mpr ⟨index, hindex, rfl⟩
  exact store_of_mem hcell _

theorem progress_of_reaches {memory : ℕ → UInt8}
    (hreach : Reaches Pool.step Unrestricted (Pool.start memory (udpReceiver decode packet)) pool) :
    Progress decode packet (fun _ ↦ True) pool.held pool.program :=
  hreach.invariant (fun pool ↦ Progress decode packet (fun _ ↦ True) pool.held pool.program)
    .waiting fun _ _ _ hbefore _ hstep ↦
      hbefore.step trivial (fun _ _ _ _ _ _ _ ↦ trivial) hstep

theorem yields_iff (decode : List UInt8 → Option Message) (packet : PacketBuffer) :
    (udpReceiver decode packet).Yields (message? decode packet.chunks) ↔
      ∀ first ∈ packet.chunks.head?, ∀ bytes, bytes.length = first.length →
        decode bytes = decode first := by
  cases hchain : packet.chain with
  | nil =>
      refine iff_of_true (fun memory pool hreach found hfound ↦ ?_) ?_
      · rcases (progress_of_reaches hreach).result hfound with ⟨-, rfl⟩ | ⟨_, _, _, hcons, -⟩
        · simp [message?, PacketBuffer.chunks, hchain]
        · cases hchain.symm.trans hcons
      · simp [PacketBuffer.chunks, hchain]
  | cons first rest =>
      have hown : message? decode packet.chunks = decode first.bytes := by
        simp [message?, PacketBuffer.chunks, hchain]
      have hhead : packet.chunks.head? = some first.bytes := by
        simp [PacketBuffer.chunks, hchain]
      simp only [hown, hhead, Option.mem_some_iff, forall_eq']
      constructor
      · intro hyields bytes hlength
        obtain ⟨pool, hreach, hfound⟩ := exists_reaches_decoded decode hchain hlength fun _ ↦ 0
        exact hyields _ pool hreach _ hfound
      · intro halike memory pool hreach found hfound
        rcases (progress_of_reaches hreach).result hfound with
          ⟨hnil, -⟩ | ⟨other, _, seen, hcons, hlength, -, rfl⟩
        · cases hchain.symm.trans hnil
        · obtain ⟨rfl, -⟩ := List.cons.inj (hchain.symm.trans hcons)
          exact halike seen hlength

theorem staysInHeld_iff (decode : List UInt8 → Option Message) (packet : PacketBuffer) :
    (udpReceiver decode packet).StaysInHeld ↔ ∀ first ∈ packet.chunks.head?, first = [] := by
  have hhead : packet.chunks.head? = packet.chain.head?.map Segment.bytes := List.head?_map
  simp only [hhead, Option.mem_map, forall_exists_index, and_imp, forall_apply_eq_imp_iff₂]
  constructor
  · intro hstays first hfirst
    obtain ⟨rest, hchain⟩ := List.head?_eq_some_iff.mp hfirst
    have hholds := hstays (fun _ ↦ 0) _ (reaches_dropped decode packet fun _ ↦ 0)
    rw [next_intoIter hchain] at hholds
    by_contra hbytes
    obtain ⟨byte, bytes, hcons⟩ := List.exists_cons_of_ne_nil hbytes
    have hlen : first.slice = ⟨first.payload, bytes.length + 1⟩ := by
      rw [Segment.slice, hcons, List.length_cons]
    rw [hlen] at hholds
    obtain ⟨region, hheld, -⟩ := hholds
    cases hheld
  · exact fun hempty memory pool hreach ↦ (progress_of_reaches hreach).holds hempty

/-! ## Where packets are read -/

/-- What `udp_receiver` decodes and where it reads.  Undisturbed, the message is decoded from the
bytes that arrived; in every interleaving it is so exactly if all chunks of that length decode alike;
and no byte is read from a freed packet exactly if the first chunk is empty.  `handle_conn` serves
the bytes that arrived and reads and frees only packets it holds, in every interleaving. -/
theorem decoded_where_read (decode : List UInt8 → Option Message) (datagram : PacketBuffer)
    (server : Http.Server) (opened : Bool) (stream : List PacketBuffer) :
    (∀ memory pool, Reaches Pool.step (FindsArrived datagram)
        (Pool.start memory (udpReceiver decode datagram)) pool →
      ∀ found, pool.program.result? = some found → found = message? decode datagram.chunks) ∧
    ((udpReceiver decode datagram).Yields (message? decode datagram.chunks) ↔
      ∀ first ∈ datagram.chunks.head?, ∀ bytes, bytes.length = first.length →
        decode bytes = decode first) ∧
    ((udpReceiver decode datagram).StaysInHeld ↔ ∀ first ∈ datagram.chunks.head?, first = []) ∧
    (Http.InPlace.handleConn server opened stream).Yields
      (Http.handleConn server opened (stream.map PacketBuffer.chunks)) ∧
    (Http.InPlace.handleConn server opened stream).StaysInHeld := by
  have hconn : (Http.InPlace.handleConn server opened stream).Evaluates []
      (Http.handleConn server opened (stream.map PacketBuffer.chunks)) [] :=
    Http.InPlace.evaluates_handleConn server opened stream
  exact ⟨fun _ _ hreach _ hfound ↦ found_of_findsArrived hreach hfound, yields_iff decode datagram,
    staysInHeld_iff decode datagram, hconn.yields, hconn.staysInHeld⟩

/-- A ledger that names the machine `10.0.0.last` as owner, in one pbuf at address 1000. -/
def ledgerDatagram (key last : UInt8) : PacketBuffer where
  inner := 984
  chain := [⟨1000, (samplePacket key [2, 10, 0, 0, last, 0]).flatten⟩]
  nodup := by
    rw [List.flatMap_singleton]
    exact Segment.nodup_cells _

/-- A second datagram takes the place of the first one before that is decoded. -/
def overtaken : List (Access ℕ UInt8) :=
  [.arrive (ledgerDatagram 7 1).region, .proceed, .proceed, .arrive (ledgerDatagram 9 9).region] ++
    List.replicate 23 .proceed

/-- What is processed as the first datagram is the message of the second one. -/
theorem decoded_from_overtaken :
    (∃ pool, Reaches Pool.step Unrestricted
        (Pool.start (fun _ ↦ 0) (udpReceiver sampleDecode (ledgerDatagram 7 1))) pool ∧
      pool.program.result? = some (some ⟨⟨9⟩, .ledger ⟨.new 10 0 0 9, .empty⟩⟩)) ∧
    message? sampleDecode (ledgerDatagram 7 1).chunks =
      some ⟨⟨7⟩, .ledger ⟨.new 10 0 0 1, .empty⟩⟩ ∧
    ¬ (udpReceiver sampleDecode (ledgerDatagram 7 1)).StaysInHeld := by
  refine ⟨?_, by decide, fun hstays ↦ ?_⟩
  · exact exists_reaches_of_runIf Pool.step Unrestricted
      (Pool.start (fun _ ↦ 0) (udpReceiver sampleDecode (ledgerDatagram 7 1))) overtaken
      (fun pool ↦ pool.program.result? = some (some ⟨⟨9⟩, .ledger ⟨.new 10 0 0 9, .empty⟩⟩))
      (by decide +kernel)
  · exact absurd ((staysInHeld_iff _ _).mp hstays _ rfl) (by decide)

end Derusting.InPlace
