import Derusting.Lwip.UdpSocket
import Derusting.Ring.Acceptance
import Derusting.Ring.Wire

/-!
# The network, packet by packet

`Ring.Network` hands messages over as values.  Here they travel as UDP packets: `Message::send`
serialises a message for each of its repeats, UDP delays, reorders, duplicates and loses the
datagrams, lwIP passes a datagram to `_recv` in a chain of pbufs that is cut anyhow, the socket
queues it or drops it, and `udp_receiver` decodes what it finds in the first pbuf.  `postcard` is a
parameter, of which only its codec's laws are used.

Every run of this network shows what some run of `Ring.Network` shows, so that what holds of the one
holds of the other, if two things are true of its steps: the messages that are sent fit into a
datagram, and the bytes of a packet are still in place when `udp_receiver` decodes them.  The code
sees to neither; it frees the packet before it decodes it (`Ring.Datagram`).
-/

namespace Derusting

open Foundations Foundations.Bounded Foundations.Transition Lwip

/-! ## The network -/

/-- `UDP_CHANNEL_SIZE`. -/
def udpChannelSize : ℕ := 12

/-- One repeat of `Message::send`: what lwIP answers `pbuf_alloc` and `udp_sendto`. -/
structure Attempt where
  pbufAlloc : UInt16 → Option PbufRam
  udpSendto : Err

/-- lwIP has a pbuf and sends it. -/
def Attempt.smooth : Attempt := ⟨fun _ ↦ some ⟨0, 16⟩, .ok⟩

/-- How often `send_heartbeat`, `send_new_job_alert`, `send_ledger` and `send_log` repeat. -/
def Payload.repeats : Payload → ℕ
  | .heartbeat _ => 1
  | .newJob _ => 3
  | .ledger _ => 3
  | .log _ => 2

/-- The datagrams `Message::send` broadcasts on a socket. -/
def Message.datagrams (serializer : Serializer Message) (sock : UdpSocket udpChannelSize)
    (message : Message) (attempts : List Attempt) : List (List UInt8) :=
  let attempts := attempts.take message.payload.repeats
  let packets := (message.send serializer (attempts.map Attempt.pbufAlloc)).map Prod.fst
  (packets.zip attempts).filterMap fun (packet, attempt) ↦
    if (sock.broadcast attempt.udpSendto).isOk then
      packet.map fun packet ↦ packet.chunks.flatten
    else none

/-- A datagram that has been broadcast. -/
structure Datagram where
  src : Ipv4Addr
  bytes : List UInt8

/-- The machines with their sockets, the datagrams broadcast so far and the observations of the run
that `System` has too. -/
structure Packets where
  machines : Ipv4Addr → Machine
  sockets : Ipv4Addr → UdpSocket udpChannelSize
  sent : List Datagram
  issued : List Uuid
  filed : List Uuid
  accepted : List (Ipv4Addr × Uuid)

/-- What happens to a machine: one of its tasks acts, lwIP passes datagram `index` up in `pbuf`, or
`udp_receiver` takes the next packet and finds the bytes `found` where its first pbuf was. -/
inductive PacketAction where
  | task (action : Action) (attempts : List (List Attempt))
  | arrive (index : ℕ) (pbuf : Pbuf)
  | process (found : List UInt8)

structure PacketEvent where
  addr : Ipv4Addr
  action : PacketAction

/-- The chunks of a packet with other bytes in the first one. -/
def overwritten (found : List UInt8) : List (List UInt8) → List (List UInt8)
  | [] => []
  | _ :: rest => found :: rest

namespace Packets

/-- The network right after all machines have bound their sockets. -/
def boot : Packets where
  machines := fun _ ↦ .boot
  sockets := fun _ ↦ (UdpSocket.new.bind (some 0) .ok).2.1
  sent := []
  issued := []
  filed := []
  accepted := []

/-- What the tasks of a machine see; no message reaches them but through the socket. -/
def view (packets : Packets) : System where
  machines := packets.machines
  sent := []
  delivered := []
  issued := packets.issued
  filed := packets.filed
  accepted := packets.accepted

/-- Record what a task of the machine at `addr` has done. -/
def commit (serializer : Serializer Message) (packets : Packets) (addr : Ipv4Addr)
    (ids : List Uuid) (attempts : List (List Attempt)) (outcome : Outcome) : Packets :=
  let datagrams := (outcome.sent.zip attempts).flatMap fun (message, attempts) ↦
    message.datagrams serializer (packets.sockets addr) attempts
  { packets with
    machines := Function.update packets.machines addr outcome.machine
    sent := packets.sent ++ datagrams.map (Datagram.mk addr)
    issued := packets.issued ++ ids
    filed := packets.filed ++ outcome.filed.toList
    accepted := packets.accepted ++ outcome.accepted.toList.map (Prod.mk addr) }

/-- What a step does at the machine `addr`. -/
def act (codec : Codec Message (2 ^ 32)) (packets : Packets) (addr : Ipv4Addr) :
    PacketAction → Option Packets
  | .task action attempts =>
      if action.ids.Nodup ∧ ∀ id ∈ action.ids, id ∉ packets.issued then
        (packets.view.act addr action).map
          (packets.commit codec.toSerializer addr action.ids attempts)
      else none
  | .arrive index pbuf =>
      packets.sent[index]?.bind fun datagram ↦
        if datagram.src ≠ addr ∧ pbuf.chunks.flatten = datagram.bytes then
          (UdpSocket.recv (some (packets.sockets addr)) (some pbuf) (toIpAddr datagram.src)).1.map
            fun socket ↦ { packets with sockets := Function.update packets.sockets addr socket }
        else none
  | .process found =>
      (packets.sockets addr).receive.map fun ((sender, pbuf), socket) ↦
        { packets with
          machines := Function.update packets.machines addr
            (udpReceiver codec.fromBytes sender (overwritten found pbuf.chunks)
              (packets.machines addr))
          sockets := Function.update packets.sockets addr socket }

/-- One step of a machine of the ring. -/
def step (codec : Codec Message (2 ^ 32)) (ring : Finset Ipv4Addr) (packets : Packets)
    (event : PacketEvent) : Option Packets :=
  if event.addr ∈ ring then packets.act codec event.addr event.action else none

/-- The messages a task sends fit into a datagram, and a packet is decoded from the bytes that have
arrived, although it has been freed. -/
def Undisturbed (serializer : Serializer Message) (packets : Packets) (event : PacketEvent) :
    Prop :=
  match event.action with
  | .task action _ => ∀ outcome ∈ packets.view.act event.addr action, ∀ message ∈ outcome.sent,
      ∀ bytes ∈ serializer.encode message, bytes.length < 2 ^ 16
  | .arrive _ _ => True
  | .process found => ∀ item ∈ (packets.sockets event.addr).channel.queue.head?,
      overwritten found item.2.chunks = item.2.chunks

instance (serializer : Serializer Message) (packets : Packets) :
    (event : PacketEvent) → Decidable (packets.Undisturbed serializer event)
  | ⟨addr, .task action _⟩ => inferInstanceAs (Decidable (∀ outcome ∈ packets.view.act addr action,
      ∀ message ∈ outcome.sent, ∀ bytes ∈ serializer.encode message, bytes.length < 2 ^ 16))
  | ⟨_, .arrive _ _⟩ => inferInstanceAs (Decidable True)
  | ⟨addr, .process found⟩ =>
      inferInstanceAs (Decidable (∀ item ∈ (packets.sockets addr).channel.queue.head?,
        overwritten found item.2.chunks = item.2.chunks))

/-! ## What the packets carry -/

/-- A run of `Ring.Network` shows the same: the machines, and who has filed and accepted what. -/
structure Shows (packets : Packets) (system : System) : Prop where
  machines : system.machines = packets.machines
  issued : system.issued = packets.issued
  filed : system.filed = packets.filed
  accepted : system.accepted = packets.accepted

/-- The bytes are those of a message of the run from `src`. -/
def Carried (serializer : Serializer Message) (system : System) (src : Ipv4Addr)
    (bytes : List UInt8) : Prop :=
  ∃ index : ℕ, ∃ envelope ∈ system.sent[index]?, envelope.src = src ∧
    serializer.encode envelope.message = some bytes ∧ bytes.length < 2 ^ 16

/-- All datagrams, those that wait in the sockets included, are messages of the run from other
machines. -/
structure Refines (serializer : Serializer Message) (packets : Packets) (system : System) : Prop
    extends packets.Shows system where
  sent : ∀ datagram ∈ packets.sent, Carried serializer system datagram.src datagram.bytes
  queued : ∀ addr, ∀ item ∈ (packets.sockets addr).channel.queue,
    item.1 ≠ addr ∧ Carried serializer system item.1 item.2.chunks.flatten

variable {ring : Finset Ipv4Addr} {packets after : Packets} {system : System} {addr : Ipv4Addr}
variable {serializer : Serializer Message} {codec : Codec Message (2 ^ 32)}

theorem refines_boot : boot.Refines serializer System.boot where
  machines := rfl
  issued := rfl
  filed := rfl
  accepted := rfl
  sent := by simp [boot]
  queued := by simp [boot, UdpSocket.bind, UdpSocket.new]

theorem Carried.commit {src : Ipv4Addr} {bytes : List UInt8}
    (h : Carried serializer system src bytes) (addr : Ipv4Addr) (ids : List Uuid)
    (outcome : Outcome) : Carried serializer (system.commit addr ids outcome) src bytes := by
  obtain ⟨index, envelope, henvelope, hrest⟩ := h
  exact ⟨index, envelope, System.mem_sent_commit_of_mem henvelope, hrest⟩

/-- A message that fits goes out as it is, in each of its repeats. -/
theorem encode_of_mem_datagrams {sock : UdpSocket udpChannelSize} {message : Message}
    {attempts : List Attempt} {bytes : List UInt8}
    (hfits : ∀ bytes ∈ serializer.encode message, bytes.length < 2 ^ 16)
    (h : bytes ∈ message.datagrams serializer sock attempts) :
    serializer.encode message = some bytes := by
  obtain ⟨⟨packet, attempt⟩, hmem, hsome⟩ := List.mem_filterMap.mp h
  obtain ⟨-, hpacket⟩ := Option.ite_none_right_eq_some.mp hsome
  obtain ⟨packet, rfl, rfl⟩ := Option.map_eq_some_iff.mp hpacket
  have hsent := (List.of_mem_zip hmem).1
  obtain ⟨encoded, hencoded⟩ := Message.encode_of_send hsent
  rw [Message.chunks_of_send hencoded (hfits encoded hencoded) hsent, List.flatten_singleton,
    hencoded]

/-! ## The simulation -/

/-- What a task does depends on its machine alone, and no message is delivered to it. -/
theorem act_of_view {action : Action} {outcome : Outcome}
    (hmachines : system.machines = packets.machines)
    (h : packets.view.act addr action = some outcome) : system.act addr action = some outcome := by
  cases action with
  | deliver index => cases h
  | upload guid key => rw [← h, System.act, System.act, view, hmachines]
  | tick env logKey ledgerKey => rw [← h, System.act, System.act, view, hmachines]
  | heartbeat key => rw [← h, System.act, System.act, view, hmachines]
  | log text key => rw [← h, System.act, System.act, view, hmachines]
  | lifetimeCheck => rw [← h, System.act, System.act, view, hmachines]
  | elapse ticks => rw [← h, System.act, System.act, view, hmachines]

/-- A task does the same above, and its messages are there. -/
theorem Refines.task (h : packets.Refines serializer system) (addr : Ipv4Addr) (ids : List Uuid)
    (outcome : Outcome) (attempts : List (List Attempt))
    (hfits : ∀ message ∈ outcome.sent, ∀ bytes ∈ serializer.encode message,
      bytes.length < 2 ^ 16) :
    (packets.commit serializer addr ids attempts outcome).Refines serializer
      (system.commit addr ids outcome) where
  machines := by rw [System.commit, commit, h.machines]
  issued := by rw [System.commit, commit, h.issued]
  filed := by rw [System.commit, commit, h.filed]
  accepted := by rw [System.commit, commit, h.accepted]
  sent := by
    intro datagram hmem
    rcases List.mem_append.mp hmem with hold | hnew
    · exact (h.sent datagram hold).commit addr ids outcome
    · obtain ⟨bytes, hbytes, rfl⟩ := List.mem_map.mp hnew
      obtain ⟨⟨message, repeats⟩, hpair, hmem⟩ := List.mem_flatMap.mp hbytes
      have hmessage : message ∈ outcome.sent := (List.of_mem_zip hpair).1
      have hencoded := encode_of_mem_datagrams (hfits message hmessage) hmem
      have hsent : (⟨addr, message⟩ : Envelope) ∈ (system.commit addr ids outcome).sent :=
        List.mem_append_right _ (List.mem_map_of_mem hmessage)
      obtain ⟨index, hindex⟩ := List.mem_iff_getElem?.mp hsent
      exact ⟨index, _, hindex, rfl, hencoded, hfits message hmessage bytes hencoded⟩
  queued := by
    intro other item hitem
    obtain ⟨hne, hcarried⟩ := h.queued other item hitem
    exact ⟨hne, hcarried.commit addr ids outcome⟩

/-- A datagram that arrives waits in the socket or is dropped. -/
theorem Refines.arrive (h : packets.Refines serializer system) {datagram : Datagram} {pbuf : Pbuf}
    (hmem : datagram ∈ packets.sent) (hsrc : datagram.src ≠ addr)
    (hbytes : pbuf.chunks.flatten = datagram.bytes) {socket : UdpSocket udpChannelSize}
    (hrecv : (UdpSocket.recv (some (packets.sockets addr)) (some pbuf)
      (toIpAddr datagram.src)).1 = some socket) :
    Refines serializer
      { packets with sockets := Function.update packets.sockets addr socket } system where
  machines := h.machines
  issued := h.issued
  filed := h.filed
  accepted := h.accepted
  sent := h.sent
  queued := by
    intro other item hitem
    by_cases hother : other = addr
    · subst hother
      simp only [Function.update_self] at hitem
      rcases UdpSocket.recv_cases (packets.sockets other) pbuf datagram.src with
        ⟨-, hfull⟩ | ⟨channel, -, hqueue, hroom⟩
      · rw [hfull] at hrecv
        obtain rfl := Option.some.inj hrecv
        exact h.queued other item hitem
      · rw [hroom] at hrecv
        obtain rfl := Option.some.inj hrecv
        rw [hqueue] at hitem
        rcases List.mem_append.mp hitem with hold | hnew
        · exact h.queued other item hold
        · obtain rfl := List.mem_singleton.mp hnew
          exact ⟨hsrc, hbytes ▸ h.sent datagram hmem⟩
    · simp only [Function.update_of_ne hother] at hitem
      exact h.queued other item hitem

/-- A packet that is taken from the socket leaves the others there. -/
theorem Refines.take (h : packets.Refines serializer system) {item : Ipv4Addr × Pbuf}
    {socket : UdpSocket udpChannelSize}
    (hreceive : (packets.sockets addr).receive = some (item, socket)) :
    Refines serializer
      { packets with sockets := Function.update packets.sockets addr socket } system where
  machines := h.machines
  issued := h.issued
  filed := h.filed
  accepted := h.accepted
  sent := h.sent
  queued := by
    intro other waiting hwaiting
    by_cases hother : other = addr
    · subst hother
      simp only [Function.update_self] at hwaiting
      refine h.queued other waiting ?_
      rw [(UdpSocket.receive_eq_some hreceive).2]
      exact List.mem_cons_of_mem item hwaiting
    · simp only [Function.update_of_ne hother] at hwaiting
      exact h.queued other waiting hwaiting

/-- What `udp_receiver` makes of a packet is nothing, or the processing of the message that the
packet carries. -/
theorem udpReceiver_of_carried {chunks : List (List UInt8)} {message : Message}
    (hencoded : codec.encode message = some chunks.flatten)
    (hlt : chunks.flatten.length < 2 ^ 16) (sender : Ipv4Addr) (machine : Machine) :
    udpReceiver codec.fromBytes sender chunks machine = machine ∨
      udpReceiver codec.fromBytes sender chunks machine =
        receiveMessage sender message machine := by
  have hlt' : chunks.flatten.length < 2 ^ 32 := hlt.trans (by decide)
  cases chunks with
  | nil => exact .inl rfl
  | cons chunk rest =>
      have hprefix : chunk <+: (chunk :: rest).flatten := by
        rw [List.flatten_cons]
        exact List.prefix_append _ _
      by_cases hwhole : chunk = (chunk :: rest).flatten
      · have hsome : codec.fromBytes chunk = some message := by
          rw [hwhole]
          exact codec.fromBytes_encode hencoded hlt'
        exact .inr (by simp [udpReceiver, hsome])
      · have hnone : codec.fromBytes chunk = none :=
          codec.fromBytes_front hencoded hlt' hprefix hwhole
        exact .inl (by simp [udpReceiver, hnone])

/-- A packet whose message is decoded is a delivery above; any other step on it is none. -/
theorem Refines.process (h : packets.Refines codec.toSerializer system) (haddr : addr ∈ ring)
    {item : Ipv4Addr × Pbuf} {socket : UdpSocket udpChannelSize}
    (hreceive : (packets.sockets addr).receive = some (item, socket)) :
    ∃ later, Reaches (System.step ring) Unrestricted system later ∧
      Refines codec.toSerializer { packets with
        machines := Function.update packets.machines addr
          (udpReceiver codec.fromBytes item.1 item.2.chunks (packets.machines addr))
        sockets := Function.update packets.sockets addr socket } later := by
  have htaken := h.take hreceive
  have hitem : item ∈ (packets.sockets addr).channel.queue := by
    rw [(UdpSocket.receive_eq_some hreceive).2]
    exact List.mem_cons_self
  obtain ⟨hsrc, index, envelope, henvelope, hsender, hencoded, hlt⟩ := h.queued addr item hitem
  rcases udpReceiver_of_carried hencoded hlt item.1 (packets.machines addr) with
    hnothing | hmessage
  · refine ⟨system, .refl, ?_⟩
    rw [hnothing, Function.update_eq_self]
    exact htaken
  · have hdeliver : system.step ring ⟨addr, .deliver index⟩ =
        some (system.commit addr [] ⟨receiveMessage item.1 envelope.message
          (packets.machines addr), [], none, none, some index⟩) := by
      have hne : envelope.src ≠ addr := hsender ▸ hsrc
      rw [System.step, if_pos ⟨haddr, List.nodup_nil, by simp [Action.ids]⟩, System.act,
        Option.mem_def.mp henvelope, Option.bind_some, if_neg hne, hsender, h.machines]
      rfl
    refine ⟨_, .tail .refl trivial hdeliver, ?_⟩
    rw [hmessage]
    have hdone := htaken.task addr [] ⟨receiveMessage item.1 envelope.message
      (packets.machines addr), [], none, none, some index⟩ [] (by simp)
    simpa only [commit, List.zip_nil_right, List.flatMap_nil, List.map_nil, List.append_nil,
      Option.toList_none] using hdone

/-- One step shows up above as at most one step. -/
theorem Refines.step (h : packets.Refines codec.toSerializer system) {event : PacketEvent}
    (hundisturbed : packets.Undisturbed codec.toSerializer event)
    (hstep : packets.step codec ring event = some after) :
    ∃ later, Reaches (System.step ring) Unrestricted system later ∧
      after.Refines codec.toSerializer later := by
  obtain ⟨addr, action⟩ := event
  obtain ⟨haddr, hact⟩ := Option.ite_none_right_eq_some.mp hstep
  cases action with
  | task action attempts =>
      obtain ⟨⟨hnodup, hfresh⟩, hsome⟩ := Option.ite_none_right_eq_some.mp hact
      obtain ⟨outcome, houtcome, rfl⟩ := Option.map_eq_some_iff.mp hsome
      have habove := act_of_view h.machines houtcome
      have htask : system.step ring ⟨addr, action⟩ =
          some (system.commit addr action.ids outcome) := by
        rw [System.step, if_pos ⟨haddr, hnodup, by rw [h.issued]; exact hfresh⟩, habove,
          Option.map_some]
      exact ⟨_, .tail .refl trivial htask, h.task addr action.ids outcome attempts
        (hundisturbed outcome houtcome)⟩
  | arrive index pbuf =>
      obtain ⟨datagram, hdatagram, hrest⟩ := Option.bind_eq_some_iff.mp hact
      obtain ⟨⟨hsrc, hbytes⟩, hsome⟩ := Option.ite_none_right_eq_some.mp hrest
      obtain ⟨socket, hrecv, rfl⟩ := Option.map_eq_some_iff.mp hsome
      exact ⟨system, .refl, h.arrive (List.mem_of_getElem? hdatagram) hsrc hbytes hrecv⟩
  | process found =>
      obtain ⟨⟨item, socket⟩, hreceive, rfl⟩ := Option.map_eq_some_iff.mp hact
      have hhead : item ∈ (packets.sockets addr).channel.queue.head? := by
        rw [(UdpSocket.receive_eq_some hreceive).2]
        rfl
      simp only [hundisturbed item hhead]
      exact h.process haddr hreceive

/-- Every undisturbed run of the packets is a run of the messages: there is one that shows the same
machines, the same uploads and the same accepted jobs. -/
theorem messages_of_packets {codec : Codec Message (2 ^ 32)} {ring : Finset Ipv4Addr}
    {packets : Packets}
    (h : Reaches (Packets.step codec ring) (Undisturbed codec.toSerializer) boot packets) :
    ∃ system, Reaches (System.step ring) Unrestricted .boot system ∧ packets.Shows system := by
  obtain ⟨system, hreach, hrefines⟩ := h.simulates (Refines codec.toSerializer) refines_boot
    fun _ _ _ _ hrefines hundisturbed hstep ↦ hrefines.step hundisturbed hstep
  exact ⟨system, hreach, hrefines.toShows⟩

/-- The bytes of the ledger that `alpha` creates, under the key 101. -/
def createdBytes : List UInt8 :=
  Message.pieces ⟨⟨101⟩, .ledger ⟨System.alpha, .empty⟩⟩ |>.flatten

/-- `alpha` creates a ledger, files a job and prints it; `beta` gets the ledger twice, once in two
pbufs and once in one. -/
def printedOnPackets : List PacketEvent :=
  [⟨System.alpha, .task (.tick (System.printer System.alpha false) ⟨100⟩ ⟨101⟩)
      [List.replicate 3 .smooth]⟩,
    ⟨System.alpha, .task (.upload ⟨4⟩ ⟨5⟩) []⟩,
    ⟨System.beta, .arrive 0 ⟨1, [createdBytes.take 9, createdBytes.drop 9]⟩⟩,
    ⟨System.beta, .arrive 2 ⟨2, [createdBytes]⟩⟩,
    ⟨System.alpha, .task (.tick (System.printer System.alpha true) ⟨102⟩ ⟨103⟩) []⟩,
    ⟨System.beta, .process (createdBytes.take 9)⟩,
    ⟨System.beta, .process createdBytes⟩,
    ⟨System.alpha, .task (.tick (System.printer System.alpha true) ⟨104⟩ ⟨105⟩) []⟩]

theorem exists_printedOnPackets :
    ∃ packets, Reaches (Packets.step postcardCodec {System.alpha, System.beta})
        (Undisturbed postcard) boot packets ∧
      packets.accepted = [(System.alpha, ⟨4⟩)] ∧
      (packets.machines System.beta).owner? = some System.alpha :=
  exists_reaches_of_runIf (Packets.step postcardCodec {System.alpha, System.beta})
    (Undisturbed postcard) boot printedOnPackets
    (fun packets ↦ packets.accepted = [(System.alpha, ⟨4⟩)] ∧
      (packets.machines System.beta).owner? = some System.alpha) (by decide +kernel)

theorem messages_of_packets_printed :
    ∃ system, Reaches (System.step {System.alpha, System.beta}) Unrestricted .boot system ∧
      system.accepted = [(System.alpha, ⟨4⟩)] ∧
      (system.machines System.beta).owner? = some System.alpha := by
  obtain ⟨packets, hreach, haccepted, howner⟩ := exists_printedOnPackets
  obtain ⟨system, habove, hshows⟩ := messages_of_packets hreach
  exact ⟨system, habove, hshows.accepted.trans haccepted, by rw [hshows.machines]; exact howner⟩

/-! ## Nothing is made up on the way -/

/-- Every job that is listed, named in a message or accepted has been filed. -/
structure Traced (ring : Finset Ipv4Addr) (system : System) : Prop where
  charted : System.Charted (· ∈ system.filed) ring system
  accepted : ∀ guid, system.Accepted guid → guid ∈ system.filed

theorem Traced.step (h : Traced ring system) {event : Event} {later : System}
    (hstep : system.step ring event = some later) : Traced ring later := by
  obtain ⟨haddr, -, -, outcome, hacts, rfl⟩ := System.exists_of_step hstep
  have hnew : ∀ guid, outcome.filed = some guid →
      guid ∈ system.filed ++ outcome.filed.toList := by
    intro guid hfiled
    rw [hfiled]
    exact List.mem_append_right _ (List.mem_singleton_self guid)
  refine ⟨(h.charted.mono fun guid hguid ↦ List.mem_append_left _ hguid).commit haddr hacts hnew,
    ?_⟩
  intro guid haccepted
  apply List.mem_append_left
  rcases System.accepted_commit_iff.mp haccepted with hbefore | hprinted
  · exact h.accepted guid hbefore
  · exact h.charted.listed _ haddr guid (hacts.of_accepted hprinted)

theorem traced_boot (ring : Finset Ipv4Addr) : Traced ring System.boot where
  charted := ⟨by simp [System.boot, Machine.boot, Machine.Lists], by simp [System.boot]⟩
  accepted := by simp [System.boot, System.Accepted]

/-- In every undisturbed run, a job that some machine lists or has accepted was filed by a machine
that it was uploaded to, and an address book holds only other machines of the ring. -/
theorem nothing_made_up {codec : Codec Message (2 ^ 32)} {ring : Finset Ipv4Addr}
    {packets : Packets}
    (h : Reaches (Packets.step codec ring) (Undisturbed codec.toSerializer) boot packets) :
    (∀ addr ∈ ring, ∀ guid, (packets.machines addr).Lists guid → guid ∈ packets.filed) ∧
    (∀ entry ∈ packets.accepted, entry.2 ∈ packets.filed) ∧
    ∀ addr ∈ ring, ∀ other ∈ (packets.machines addr).addresses.keys,
      other ∈ ring ∧ other ≠ addr := by
  obtain ⟨system, hreach, hshows⟩ := messages_of_packets h
  have htraced : Traced ring system :=
    hreach.invariant (Traced ring) (traced_boot ring) fun _ _ _ hbefore _ hstep ↦ hbefore.step hstep
  have hwell : System.WellFormed ring system :=
    hreach.invariant (System.WellFormed ring) (.boot ring) fun _ _ _ hbefore _ hstep ↦
      hbefore.step hstep
  refine ⟨?_, ?_, ?_⟩
  · intro addr haddr guid hlists
    rw [← hshows.machines] at hlists
    rw [← hshows.filed]
    exact htraced.charted.listed addr haddr guid hlists
  · intro entry hentry
    rw [← hshows.accepted] at hentry
    rw [← hshows.filed]
    exact htraced.accepted entry.2 (List.mem_map_of_mem hentry)
  · intro addr haddr other hother
    rw [← hshows.machines] at hother
    exact hwell.book_mem addr haddr other hother

theorem nothing_made_up_printed :
    ∃ packets, Reaches (Packets.step postcardCodec {System.alpha, System.beta})
        (Undisturbed postcard) boot packets ∧
      packets.accepted = [(System.alpha, ⟨4⟩)] ∧ ⟨4⟩ ∈ packets.filed := by
  obtain ⟨packets, hreach, haccepted, -⟩ := exists_printedOnPackets
  refine ⟨packets, hreach, haccepted, (nothing_made_up hreach).2.1 (System.alpha, ⟨4⟩) ?_⟩
  rw [haccepted]
  exact List.mem_singleton_self _

end Packets

end Derusting
