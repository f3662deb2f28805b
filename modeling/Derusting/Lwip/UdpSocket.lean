import Derusting.Foundations.Transition
import Derusting.Lwip.Tcp
import Derusting.Ring.Kinds

/-!
# The UDP socket

`UdpSocket` of `lwip/udp.rs` with lwIP's side of it: lwIP hands every datagram that arrives on a
bound pcb to `_recv` and gives up its buffer with it.  A datagram is queued with its sender unless
the channel is full, when it is dropped and its buffer freed.  So the receiver gets the datagrams
that find room, in the order in which they arrive, and every buffer has one owner all the time.

A second `bind` would leave the first pcb behind, with the socket as its argument for good; nothing
in the socket prevents it, and `embassy_main` binds once.
-/

namespace Derusting.Lwip

open Foundations.Bounded Foundations.Transition
open scoped List

/-! ## Addresses in network byte order -/

/-- `u32::to_be` and `u32::from_be` of a little-endian target. -/
def swapBytes (word : UInt32) : UInt32 :=
  (Ipv4Addr.new word.toUInt8 (word >>> 8).toUInt8 (word >>> 16).toUInt8 (word >>> 24).toUInt8).bits

theorem toNat_swapBytes (word : UInt32) :
    (swapBytes word).toNat =
      ((word.toNat % 256 * 256 + word.toNat / 256 % 256) * 256 + word.toNat / 65536 % 256) * 256 +
        word.toNat / 16777216 % 256 := by
  rw [swapBytes, Ipv4Addr.toNat_new]
  simp [UInt32.toNat_shiftRight, Nat.shiftRight_eq_div_pow]

/-- The digits of a word to the base 256 change places. -/
theorem toNat_swapBytes_of_digits {word : UInt32} {a b c d : ℕ} (ha : a < 256) (hb : b < 256)
    (hc : c < 256) (hd : d < 256) (h : word.toNat = ((a * 256 + b) * 256 + c) * 256 + d) :
    (swapBytes word).toNat = ((d * 256 + c) * 256 + b) * 256 + a := by
  have hlast : word.toNat % 256 = d := by omega
  have hthird : word.toNat / 256 % 256 = c := by omega
  have hsecond : word.toNat / 65536 % 256 = b := by omega
  have hfirst : word.toNat / 16777216 % 256 = a := by omega
  rw [toNat_swapBytes, hlast, hthird, hsecond, hfirst]

theorem swapBytes_swapBytes (word : UInt32) : swapBytes (swapBytes word) = word := by
  have hlt := word.toNat_lt
  obtain ⟨a, b, c, d, ha, hb, hc, hd, hword⟩ : ∃ a b c d, a < 256 ∧ b < 256 ∧ c < 256 ∧ d < 256 ∧
      word.toNat = ((a * 256 + b) * 256 + c) * 256 + d :=
    ⟨word.toNat / 16777216, word.toNat / 65536 % 256, word.toNat / 256 % 256, word.toNat % 256,
      by omega, by omega, by omega, by omega, by omega⟩
  have hswapped := toNat_swapBytes_of_digits ha hb hc hd hword
  rw [← UInt32.toNat_inj, toNat_swapBytes_of_digits hd hc hb ha hswapped, hword]

/-- `ip_addr_t` of an address. -/
def toIpAddr (addr : Ipv4Addr) : UInt32 := swapBytes addr.bits

/-- `Ipv4Addr::from_bits` of what lwIP has stored. -/
def fromIpAddr (addr : UInt32) : Ipv4Addr := ⟨swapBytes addr⟩

theorem fromIpAddr_toIpAddr (addr : Ipv4Addr) : fromIpAddr (toIpAddr addr) = addr := by
  rw [fromIpAddr, toIpAddr, swapBytes_swapBytes]

/-! ## The socket -/

/-- `UdpSocket`: the cached pcb, if it is not null, and the datagrams that wait with their senders. -/
structure UdpSocket (capacity : ℕ) where
  pcb : Option ℕ
  channel : Channel (Ipv4Addr × Pbuf) capacity

namespace UdpSocket

variable {capacity : ℕ}

/-- `UdpSocket::new`. -/
def new : UdpSocket capacity := ⟨none, .empty⟩

/-- `UdpSocket::bind`, by the answers of `udp_new` and `udp_bind`: its result, the socket, and the
pcb that delivers to `_recv` from now on. -/
def bind (sock : UdpSocket capacity) (udpNew : Option ℕ) (udpBind : Err) :
    Except Err Unit × UdpSocket capacity × Option ℕ :=
  match udpNew with
  | none => (.error .mem, sock, none)
  | some pcb =>
      if udpBind = .ok then (.ok (), { sock with pcb := some pcb }, some pcb)
      -- `udp_remove`
      else (.error udpBind, sock, none)

/-- `UdpSocket::broadcast`, by the answer of `udp_sendto`. -/
def broadcast (sock : UdpSocket capacity) (udpSendto : Err) : Except Err Unit :=
  match sock.pcb with
  | none => .error .val
  | some _ => if udpSendto = .ok then .ok () else .error udpSendto

/-- `UdpSocket::receive`, when a datagram is waiting. -/
def receive (sock : UdpSocket capacity) : Option ((Ipv4Addr × Pbuf) × UdpSocket capacity) :=
  sock.channel.tryReceive.map fun (item, channel) ↦ (item, { sock with channel := channel })

/-- `UdpSocket::_recv`: the socket after it and the buffers it has passed to `pbuf_free`. A datagram
that does not fit is dropped inside the failed `try_send`. -/
def recv (arg : Option (UdpSocket capacity)) (pbuf : Option Pbuf) (addr : UInt32) :
    Option (UdpSocket capacity) × List Pbuf :=
  match arg with
  | none => (none, [])
  | some sock =>
      match pbuf with
      | none => (some sock, [])
      | some pbuf =>
          match sock.channel.trySend (fromIpAddr addr, pbuf) with
          | some channel => (some { sock with channel := channel }, [])
          | none => (some sock, [pbuf])

/-- A datagram is queued with its sender or, when the channel is full, freed. -/
theorem recv_cases (sock : UdpSocket capacity) (pbuf : Pbuf) (src : Ipv4Addr) :
    (sock.channel.isFull = true ∧ recv (some sock) (some pbuf) (toIpAddr src) =
      (some sock, [pbuf])) ∨
    ∃ channel, sock.channel.isFull = false ∧ channel.queue = sock.channel.queue ++ [(src, pbuf)] ∧
      recv (some sock) (some pbuf) (toIpAddr src) = (some { sock with channel := channel }, []) := by
  cases hsend : sock.channel.trySend (src, pbuf) with
  | none =>
      refine .inl ⟨Channel.trySend_eq_none_iff.mp hsend, ?_⟩
      simp only [recv, fromIpAddr_toIpAddr, hsend]
  | some channel =>
      have hroom : sock.channel.isFull = false := by
        rw [Bool.eq_false_iff]
        intro hfull
        cases (Channel.trySend_eq_none_iff.mpr hfull).symm.trans hsend
      refine .inr ⟨channel, hroom, Channel.queue_of_trySend hsend, ?_⟩
      simp only [recv, fromIpAddr_toIpAddr, hsend]

theorem receive_eq_some {sock after : UdpSocket capacity} {item : Ipv4Addr × Pbuf}
    (h : sock.receive = some (item, after)) :
    after.pcb = sock.pcb ∧ sock.channel.queue = item :: after.channel.queue := by
  obtain ⟨⟨first, channel⟩, hreceive, hsame⟩ := Option.map_eq_some_iff.mp h
  obtain ⟨rfl, rfl⟩ := Prod.mk.inj hsame
  exact ⟨rfl, Channel.queue_of_tryReceive hreceive⟩

end UdpSocket

/-! ## A socket in use -/

/-- A datagram that lwIP has passed up, and whether it found room in the channel. -/
structure Arrival where
  src : Ipv4Addr
  pbuf : Pbuf
  room : Bool

/-- The socket until it is dropped, the pcbs with `_recv` as their callback, and what has become of
the buffers: what arrived, what `receive` has returned, the packets the tasks hold, those allocated
to be sent and those freed. `stale` marks a callback with a socket that is gone. -/
structure UdpLink (capacity : ℕ) where
  socket : Option (UdpSocket capacity)
  pcbs : List ℕ
  arrivals : List Arrival
  received : List (Ipv4Addr × Pbuf)
  held : List Pbuf
  sent : List Pbuf
  freed : List Pbuf
  stale : Bool

inductive UdpEvent where
  | bind (udpNew : Option ℕ) (udpBind : Err)
  | datagram (pcb : ℕ) (src : Ipv4Addr) (pbuf : Pbuf)
  | receive
  | release (pbuf : Pbuf)
  | broadcast (pbuf : Pbuf)
  | drop

namespace UdpLink

variable {capacity : ℕ} {link after : UdpLink capacity}

def new : UdpLink capacity := ⟨some .new, [], [], [], [], [], [], false⟩

/-- Every buffer so far. -/
def seen (link : UdpLink capacity) : List Pbuf :=
  link.arrivals.map Arrival.pbuf ++ link.sent

/-- The datagrams that wait in the channel. -/
def queue (link : UdpLink capacity) : List (Ipv4Addr × Pbuf) :=
  link.socket.elim [] fun sock ↦ sock.channel.queue

/-- The datagrams that have found room, with their senders. -/
def queued (link : UdpLink capacity) : List (Ipv4Addr × Pbuf) :=
  (link.arrivals.filter Arrival.room).map fun arrival ↦ (arrival.src, arrival.pbuf)

/-- One step. lwIP allocates buffers and pcbs that are not in use. -/
def step (link : UdpLink capacity) : UdpEvent → Option (UdpLink capacity)
  | .bind udpNew udpBind =>
      link.socket.bind fun sock ↦
        if udpNew.any (· ∈ link.pcbs) then none
        else
          let (_, sock, pcb) := sock.bind udpNew udpBind
          some { link with socket := some sock, pcbs := pcb.toList ++ link.pcbs }
  | .datagram pcb src pbuf =>
      if pcb ∈ link.pcbs ∧ pbuf ∉ link.seen then
        let room := link.socket.any fun sock ↦ !sock.channel.isFull
        let (socket, freed) := UdpSocket.recv link.socket (some pbuf) (toIpAddr src)
        some { link with
          socket := socket
          arrivals := link.arrivals ++ [⟨src, pbuf, room⟩]
          freed := link.freed ++ freed
          stale := link.stale || link.socket.isNone }
      else none
  | .receive =>
      link.socket.bind fun sock ↦ sock.receive.map fun (item, sock) ↦
        { link with
          socket := some sock
          received := link.received ++ [item]
          held := link.held ++ [item.2] }
  | .release pbuf =>
      if pbuf ∈ link.held then
        some { link with held := link.held.erase pbuf, freed := link.freed ++ [pbuf] }
      else none
  | .broadcast pbuf =>
      if link.socket.isSome ∧ pbuf ∉ link.seen then
        -- the packet is dropped when `broadcast` returns, whatever it returns
        some { link with sent := link.sent ++ [pbuf], freed := link.freed ++ [pbuf] }
      else none
  | .drop =>
      link.socket.map fun sock ↦
        { link with
          socket := none
          pcbs := link.pcbs.filter fun pcb ↦ some pcb ≠ sock.pcb
          freed := link.freed ++ sock.channel.queue.map Prod.snd }

/-- The socket is bound at most once. -/
def BoundOnce (link : UdpLink capacity) : UdpEvent → Prop
  | .bind _ _ => ∀ sock ∈ link.socket, sock.pcb = none
  | .datagram _ _ _ | .receive | .release _ | .broadcast _ | .drop => True

instance (link : UdpLink capacity) : (event : UdpEvent) → Decidable (link.BoundOnce event)
  | .bind _ _ => inferInstanceAs (Decidable (∀ sock ∈ link.socket, sock.pcb = none))
  | .datagram _ _ _ | .receive | .release _ | .broadcast _ | .drop =>
      inferInstanceAs (Decidable True)

/-! ## The invariant -/

/-- Every buffer is in one place, the datagrams that found room are the received ones followed by
the waiting ones, and the only pcb is that of the socket. -/
structure Kept (link : UdpLink capacity) : Prop where
  nodup : link.seen.Nodup
  places : link.queue.map Prod.snd ++ (link.held ++ link.freed) ~ link.seen
  order : link.socket.isSome → link.received ++ link.queue = link.queued
  earlier : link.received <+: link.queued
  pcbs : ∀ pcb ∈ link.pcbs, ∃ sock ∈ link.socket, sock.pcb = some pcb
  stale : link.stale = false

theorem kept_new : (new : UdpLink capacity).Kept := by
  constructor <;> simp [new, seen, queue, queued, UdpSocket.new]

theorem Kept.bind (h : link.Kept) {sock : UdpSocket capacity} (hsock : link.socket = some sock)
    (hunbound : sock.pcb = none) (udpNew : Option ℕ) (udpBind : Err) :
    Kept { link with
      socket := some (sock.bind udpNew udpBind).2.1
      pcbs := (sock.bind udpNew udpBind).2.2.toList ++ link.pcbs } := by
  have hnone : link.pcbs = [] := by
    rw [List.eq_nil_iff_forall_not_mem]
    intro pcb hpcb
    obtain ⟨other, hother, hbound⟩ := h.pcbs pcb hpcb
    obtain rfl := Option.some.inj (hsock.symm.trans hother)
    cases hunbound.symm.trans hbound
  have hqueue : link.queue = sock.channel.queue := by rw [queue, hsock, Option.elim_some]
  have hplaces := h.places
  have horder := h.order (by rw [hsock, Option.isSome_some])
  rw [hqueue] at hplaces horder
  have hchannel : (sock.bind udpNew udpBind).2.1.channel = sock.channel := by
    cases udpNew with
    | none => rfl
    | some pcb => by_cases hok : udpBind = .ok <;> simp [UdpSocket.bind, hok]
  refine ⟨h.nodup, ?_, fun _ ↦ ?_, h.earlier, ?_, h.stale⟩
  · rw [queue, Option.elim_some, hchannel]
    exact hplaces
  · rw [queue, Option.elim_some, hchannel]
    exact horder
  · intro pcb hpcb
    rw [hnone, List.append_nil, Option.mem_toList] at hpcb
    refine ⟨_, rfl, ?_⟩
    cases udpNew with
    | none => cases hpcb
    | some other =>
        by_cases hok : udpBind = .ok
        · rw [UdpSocket.bind, if_pos hok] at hpcb ⊢
          exact hpcb
        · rw [UdpSocket.bind, if_neg hok] at hpcb
          cases hpcb

theorem Kept.datagram (h : link.Kept) {sock : UdpSocket capacity} (hsock : link.socket = some sock)
    (src : Ipv4Addr) {pbuf : Pbuf} (hnew : pbuf ∉ link.seen) :
    Kept { link with
      socket := (UdpSocket.recv link.socket (some pbuf) (toIpAddr src)).1
      arrivals := link.arrivals ++
        [⟨src, pbuf, link.socket.any fun sock ↦ !sock.channel.isFull⟩]
      freed := link.freed ++ (UdpSocket.recv link.socket (some pbuf) (toIpAddr src)).2
      stale := link.stale || link.socket.isNone } := by
  have hqueue : link.queue = sock.channel.queue := by rw [queue, hsock, Option.elim_some]
  have hplaces := h.places
  have horder := h.order (by rw [hsock, Option.isSome_some])
  have hpcbs := h.pcbs
  have hnodup : (link.arrivals.map Arrival.pbuf ++ [pbuf] ++ link.sent).Nodup := by
    rw [List.append_assoc, List.singleton_append, List.nodup_middle, List.nodup_cons]
    exact ⟨hnew, h.nodup⟩
  have hmore : link.arrivals.map Arrival.pbuf ++ [pbuf] ++ link.sent ~ pbuf :: link.seen := by
    rw [List.append_assoc, List.singleton_append]
    exact List.perm_middle
  rw [hqueue] at hplaces horder
  rw [hsock] at hpcbs ⊢
  rcases UdpSocket.recv_cases sock pbuf src with ⟨hfull, hrecv⟩ | ⟨channel, hroom, hafter, hrecv⟩
  · simp only [hrecv, Option.any_some, hfull, Bool.not_true, Option.isNone_some, Bool.or_false]
    have hqueued : queued { link with arrivals := link.arrivals ++ [⟨src, pbuf, false⟩] } =
        link.queued := by
      simp [queued]
    refine ⟨by simpa [seen] using hnodup, ?_, fun _ ↦ ?_, ?_, hpcbs, h.stale⟩
    · rw [queue, Option.elim_some]
      calc
        sock.channel.queue.map Prod.snd ++ (link.held ++ (link.freed ++ [pbuf])) =
            sock.channel.queue.map Prod.snd ++ (link.held ++ link.freed) ++ [pbuf] := by
          simp only [List.append_assoc]
        _ ~ pbuf :: link.seen :=
          (List.perm_append_singleton _ _).trans (hplaces.cons pbuf)
        _ ~ _ := by simpa [seen] using hmore.symm
    · exact horder.trans hqueued.symm
    · rw [queued] at hqueued
      rw [queued, hqueued]
      exact h.earlier
  · simp only [hrecv, Option.any_some, hroom, Bool.not_false, Option.isNone_some, Bool.or_false,
      List.append_nil]
    have hqueued : queued { link with arrivals := link.arrivals ++ [⟨src, pbuf, true⟩] } =
        link.queued ++ [(src, pbuf)] := by
      simp [queued]
    refine ⟨by simpa [seen] using hnodup, ?_, fun _ ↦ ?_, ?_, ?_, h.stale⟩
    · rw [queue, Option.elim_some, hafter, List.map_append, List.append_assoc,
        List.map_singleton, List.singleton_append]
      calc
        sock.channel.queue.map Prod.snd ++ pbuf :: (link.held ++ link.freed) ~
            pbuf :: (sock.channel.queue.map Prod.snd ++ (link.held ++ link.freed)) :=
          List.perm_middle
        _ ~ pbuf :: link.seen := hplaces.cons pbuf
        _ ~ _ := by simpa [seen] using hmore.symm
    · rw [queue, Option.elim_some, hafter, ← List.append_assoc]
      exact (congrArg (· ++ [(src, pbuf)]) horder).trans hqueued.symm
    · rw [queued] at hqueued
      rw [queued, hqueued]
      exact h.earlier.trans (List.prefix_append _ _)
    · intro pcb hpcb
      obtain ⟨other, hother, hbound⟩ := hpcbs pcb hpcb
      obtain rfl := Option.some.inj hother
      exact ⟨_, rfl, hbound⟩

theorem Kept.receive (h : link.Kept) {sock later : UdpSocket capacity}
    (hsock : link.socket = some sock) {item : Ipv4Addr × Pbuf}
    (hreceive : sock.receive = some (item, later)) :
    Kept { link with
      socket := some later
      received := link.received ++ [item]
      held := link.held ++ [item.2] } := by
  obtain ⟨hpcb, hcons⟩ := UdpSocket.receive_eq_some hreceive
  have hqueue : link.queue = item :: later.channel.queue := by
    rw [queue, hsock, Option.elim_some, hcons]
  have hplaces := h.places
  have horder := h.order (by rw [hsock, Option.isSome_some])
  rw [hqueue] at hplaces horder
  have hmoved : (link.received ++ [item]) ++ later.channel.queue = link.queued := by
    rw [List.append_assoc, List.singleton_append, horder]
  refine ⟨h.nodup, ?_, fun _ ↦ hmoved, hmoved ▸ List.prefix_append _ _, ?_, h.stale⟩
  · calc
      later.channel.queue.map Prod.snd ++ (link.held ++ [item.2] ++ link.freed) =
          (later.channel.queue.map Prod.snd ++ link.held) ++ item.2 :: link.freed := by
        simp only [List.append_assoc, List.singleton_append]
      _ ~ item.2 :: ((later.channel.queue.map Prod.snd ++ link.held) ++ link.freed) :=
        List.perm_middle
      _ = (item :: later.channel.queue).map Prod.snd ++ (link.held ++ link.freed) := by
        simp only [List.map_cons, List.cons_append, List.append_assoc]
      _ ~ link.seen := hplaces
  · intro pcb hmem
    obtain ⟨other, hother, hbound⟩ := h.pcbs pcb hmem
    obtain rfl := Option.some.inj (hsock.symm.trans hother)
    exact ⟨_, rfl, hpcb.trans hbound⟩

theorem Kept.release (h : link.Kept) {pbuf : Pbuf} (hheld : pbuf ∈ link.held) :
    Kept { link with held := link.held.erase pbuf, freed := link.freed ++ [pbuf] } := by
  refine ⟨h.nodup, ?_, h.order, h.earlier, h.pcbs, h.stale⟩
  refine List.Perm.trans (List.Perm.append_left _ ?_) h.places
  calc
    link.held.erase pbuf ++ (link.freed ++ [pbuf]) =
        link.held.erase pbuf ++ link.freed ++ [pbuf] := (List.append_assoc _ _ _).symm
    _ ~ pbuf :: (link.held.erase pbuf ++ link.freed) := List.perm_append_singleton _ _
    _ ~ link.held ++ link.freed := (List.perm_cons_erase hheld).symm.append_right link.freed

theorem Kept.broadcast (h : link.Kept) {pbuf : Pbuf} (hnew : pbuf ∉ link.seen) :
    Kept { link with sent := link.sent ++ [pbuf], freed := link.freed ++ [pbuf] } := by
  have hseen : seen { link with sent := link.sent ++ [pbuf], freed := link.freed ++ [pbuf] } =
      link.seen ++ [pbuf] := (List.append_assoc _ _ _).symm
  refine ⟨?_, ?_, h.order, h.earlier, h.pcbs, h.stale⟩
  · rw [hseen]
    exact (List.perm_append_singleton pbuf link.seen).nodup_iff.mpr
      (List.nodup_cons.mpr ⟨hnew, h.nodup⟩)
  · rw [hseen]
    calc
      link.queue.map Prod.snd ++ (link.held ++ (link.freed ++ [pbuf])) =
          link.queue.map Prod.snd ++ (link.held ++ link.freed) ++ [pbuf] := by
        simp only [List.append_assoc]
      _ ~ link.seen ++ [pbuf] := h.places.append_right [pbuf]

theorem Kept.drop (h : link.Kept) {sock : UdpSocket capacity} (hsock : link.socket = some sock) :
    Kept ({ link with
      socket := none
      pcbs := link.pcbs.filter fun pcb ↦ some pcb ≠ sock.pcb
      freed := link.freed ++ sock.channel.queue.map Prod.snd } : UdpLink capacity) := by
  have hplaces := h.places
  rw [queue, hsock, Option.elim_some] at hplaces
  refine ⟨h.nodup, ?_, ?_, h.earlier, ?_, h.stale⟩
  · calc
      link.held ++ (link.freed ++ sock.channel.queue.map Prod.snd) =
          link.held ++ link.freed ++ sock.channel.queue.map Prod.snd :=
        (List.append_assoc _ _ _).symm
      _ ~ sock.channel.queue.map Prod.snd ++ (link.held ++ link.freed) := List.perm_append_comm
      _ ~ link.seen := hplaces
  · intro hsome
    cases hsome
  · intro pcb hpcb
    obtain ⟨hmem, hother⟩ := List.mem_filter.mp hpcb
    obtain ⟨bound, hbound, hsame⟩ := h.pcbs pcb hmem
    obtain rfl := Option.some.inj (hsock.symm.trans hbound)
    exact absurd hsame.symm (of_decide_eq_true hother)

theorem Kept.step (h : link.Kept) {event : UdpEvent} (honce : link.BoundOnce event)
    (hstep : link.step event = some after) : after.Kept := by
  cases event with
  | bind udpNew udpBind =>
      obtain ⟨sock, hsock, hrest⟩ := Option.bind_eq_some_iff.mp hstep
      obtain ⟨-, hafter⟩ := Option.ite_none_left_eq_some.mp hrest
      obtain rfl := Option.some.inj hafter
      exact h.bind hsock (honce sock hsock) udpNew udpBind
  | datagram pcb src pbuf =>
      obtain ⟨⟨hpcb, hnew⟩, hafter⟩ := Option.ite_none_right_eq_some.mp hstep
      obtain rfl := Option.some.inj hafter
      obtain ⟨sock, hsock, -⟩ := h.pcbs pcb hpcb
      exact h.datagram hsock src hnew
  | receive =>
      obtain ⟨sock, hsock, hrest⟩ := Option.bind_eq_some_iff.mp hstep
      obtain ⟨⟨item, later⟩, hreceive, rfl⟩ := Option.map_eq_some_iff.mp hrest
      exact h.receive hsock hreceive
  | release pbuf =>
      obtain ⟨hheld, hafter⟩ := Option.ite_none_right_eq_some.mp hstep
      obtain rfl := Option.some.inj hafter
      exact h.release hheld
  | broadcast pbuf =>
      obtain ⟨⟨-, hnew⟩, hafter⟩ := Option.ite_none_right_eq_some.mp hstep
      obtain rfl := Option.some.inj hafter
      exact h.broadcast hnew
  | drop =>
      obtain ⟨sock, hsock, rfl⟩ := Option.map_eq_some_iff.mp hstep
      exact h.drop hsock

/-- In every run of a socket that is bound at most once: each buffer that lwIP has passed up or
allocated is in exactly one place, waiting, held or freed once; `receive` has returned the datagrams
that found room, with their senders and in the order in which they arrived, and those not returned
yet are waiting; and lwIP has no callback into a socket that is gone. -/
theorem delivered_in_order (h : Reaches step BoundOnce new link) :
    (link.queue.map Prod.snd ++ (link.held ++ link.freed) ~ link.seen ∧ link.seen.Nodup) ∧
    (link.received <+: link.queued ∧
      (link.socket.isSome → link.received ++ link.queue = link.queued)) ∧
    (link.stale = false ∧ (link.socket = none → link.pcbs = [])) := by
  have hkept : link.Kept :=
    h.invariant Kept kept_new fun _ _ _ hbefore honce hstep ↦ hbefore.step honce hstep
  refine ⟨⟨hkept.places, hkept.nodup⟩, ⟨hkept.earlier, hkept.order⟩, hkept.stale, fun hgone ↦ ?_⟩
  rw [List.eq_nil_iff_forall_not_mem]
  intro pcb hpcb
  obtain ⟨sock, hsock, -⟩ := hkept.pcbs pcb hpcb
  cases hgone.symm.trans hsock

/-- Three datagrams for a channel of two, one of which is received; the last one is too late. -/
def crowded : List UdpEvent :=
  [.bind (some 5) .ok, .datagram 5 (.new 10 0 0 1) ⟨1, [[1]]⟩, .datagram 5 (.new 10 0 0 2) ⟨2, [[2]]⟩,
    .datagram 5 (.new 10 0 0 3) ⟨3, [[3]]⟩, .receive, .broadcast ⟨4, [[4]]⟩, .release ⟨1, [[1]]⟩]

theorem delivered_in_order_crowded :
    ∃ link : UdpLink 2, Reaches step BoundOnce new link ∧ link.arrivals.length = 3 ∧
      link.received ++ link.queue = [(.new 10 0 0 1, ⟨1, [[1]]⟩), (.new 10 0 0 2, ⟨2, [[2]]⟩)] := by
  obtain ⟨link, hreach, hsome, harrivals, hqueued⟩ :=
    exists_reaches_of_runIf step BoundOnce (new : UdpLink 2) crowded
      (fun link ↦ link.socket.isSome = true ∧ link.arrivals.length = 3 ∧
        link.queued = [(.new 10 0 0 1, ⟨1, [[1]]⟩), (.new 10 0 0 2, ⟨2, [[2]]⟩)]) (by decide +kernel)
  exact ⟨link, hreach, harrivals, ((delivered_in_order hreach).2.1.2 hsome).trans hqueued⟩

end UdpLink

end Derusting.Lwip
