import Derusting.Lwip.Window

/-!
# The stream of an accepted connection

TCP keeps the order of the data, and lwIP passes the packets of a connection up in that order.  On
their way to the worker they may be refused, kept by lwIP and passed up again, by a retry, by
`attach_callbacks` or by the drop; and they wait in the channel of the `TcpConnection`, which may be
full.  `receive` still hands these buffers out in the order in which they arrived, each of them once
and without a gap, and it only reports the end of the stream behind the last of them, unless an
error has cut the stream off.

That is about which buffers are handed out.  A packet that is refused by a full channel has been
freed by `_recv` (`Lwip.Ownership`); it is passed up and handed out all the same, and nothing is
known then of the bytes in it.  As long as no delivery has met a full channel, whatever is on its
way or with the worker has not been freed.
-/

namespace Derusting.Lwip

open Foundations.Bounded Foundations.Transition

namespace Link

variable {capacity : ℕ} {link after : Link capacity} {pbuf : Pbuf} {handed extra : List Pbuf}

/-- The packets that have got past `_recv`: those handed out before and those still on their way. -/
def through (handed : List Pbuf) (link : Link capacity) : List Pbuf :=
  handed ++ (link.pending.toList ++ link.conn.channel.queue.reduceOption)

/-- The packets are in the order in which they arrived, where lwIP has those of `extra` in hand. In
the channel of a live connection the end of the stream comes last, and lwIP has announced it. -/
structure InOrder (extra handed : List Pbuf) (link : Link capacity) : Prop where
  order : link.Live → link.through handed ++ extra ++ link.pcb.refused.toList = link.seen
  earlier : link.through handed <+: link.seen
  told : link.Live → (link.obtained = true ∨ none ∈ link.conn.channel.queue) →
    link.pcb.gotFin = true ∧ extra = [] ∧ link.pcb.refused = none
  last : link.Live → ∃ packets : List Pbuf, link.conn.channel.queue = packets.map some ∨
    (link.conn.channel.queue = packets.map some ++ [none] ∧ link.obtained = false)
  finished : link.Live → link.obtained = true → link.conn.channel.queue = []
  fin : link.stage ≠ .dropped → link.pcb.fin = true → link.pcb.gotFin = true
  purged : link.stage ≠ .dropped → link.pcb.freed = true → link.pcb.refused = none

theorem inOrder_accepted : InOrder [] [] (accepted : Link capacity) where
  order _ := rfl
  earlier := List.nil_prefix
  told _ := by simp [accepted, TcpConnection.new]
  last _ := ⟨[], .inl rfl⟩
  finished _ _ := rfl
  fin := by simp [accepted]
  purged := by simp [accepted]

/-- What leaves the channel, the packets and the pcb's side of the stream alone keeps the order. -/
theorem InOrder.of_eq (h : InOrder extra handed link)
    (hstage : after.stage ≠ .dropped → link.stage ≠ .dropped)
    (hqueue : after.conn.channel.queue = link.conn.channel.queue)
    (hpending : after.pending = link.pending) (hobtained : after.obtained = link.obtained)
    (hseen : after.seen = link.seen) (hrefused : after.pcb.refused = link.pcb.refused)
    (hfin : after.pcb.fin = true → link.pcb.fin = true)
    (hgotFin : after.pcb.gotFin = link.pcb.gotFin) (hfreed : after.pcb.freed = link.pcb.freed) :
    InOrder extra handed after := by
  have hlive (hafter : after.Live) : link.Live := ⟨hfreed ▸ hafter.1, hstage hafter.2⟩
  exact {
    order := by
      intro hafter
      rw [through, hpending, hqueue, hrefused, hseen]
      exact h.order (hlive hafter)
    earlier := by
      rw [through, hpending, hqueue, hseen]
      exact h.earlier
    told := by
      intro hafter
      rw [hobtained, hqueue, hgotFin, hrefused]
      exact h.told (hlive hafter)
    last := by
      intro hafter
      rw [hqueue, hobtained]
      exact h.last (hlive hafter)
    finished := by
      intro hafter
      rw [hobtained, hqueue]
      exact h.finished (hlive hafter)
    fin := by
      intro hafter hset
      rw [hgotFin]
      exact h.fin (hstage hafter) (hfin hset)
    purged := by
      intro hafter
      rw [hfreed, hrefused]
      exact h.purged (hstage hafter) }

/-- Before the end has been announced, the channel only holds packets. -/
theorem InOrder.untold (h : InOrder extra handed link) (hlive : link.Live)
    (hopen : link.pcb.gotFin = false ∨ extra ≠ [] ∨ link.pcb.refused ≠ none) :
    link.obtained = false ∧ none ∉ link.conn.channel.queue ∧
      ∃ packets : List Pbuf, link.conn.channel.queue = packets.map some := by
  have hnot : ¬ (link.obtained = true ∨ none ∈ link.conn.channel.queue) := by
    intro htold
    obtain ⟨hgot, hnone, hrefused⟩ := h.told hlive htold
    rcases hopen with hopen | hextra | hkept
    · rw [hgot] at hopen
      cases hopen
    · exact hextra hnone
    · exact hkept hrefused
  rw [not_or, Bool.not_eq_true] at hnot
  refine ⟨hnot.1, hnot.2, ?_⟩
  obtain ⟨packets, hqueue | ⟨hqueue, -⟩⟩ := h.last hlive
  · exact ⟨packets, hqueue⟩
  · exact absurd (hqueue ▸ List.mem_append_right _ (List.mem_singleton_self none)) hnot.2

/-! ## Callbacks -/

theorem Frame.live_iff (h : Frame link after) : after.Live ↔ link.Live := by
  rw [Live, Live, h.pcbFreed, h.stage]

theorem Frame.live (h : Frame link after) (hlive : link.Live) : after.Live := h.live_iff.mpr hlive

/-- A packet in hand joins the queue, or stays in hand. -/
theorem InOrder.deliver (h : InOrder [pbuf] handed link) (hlive : link.Live)
    (hhooks : link.Attached ∨ link.Holding) :
    ((link.deliver pbuf).1 = .ok ∧ InOrder [] handed (link.deliver pbuf).2 ∧
      (link.deliver pbuf).2.obtained = false ∧
      none ∉ (link.deliver pbuf).2.conn.channel.queue) ∨
    ((link.deliver pbuf).1 ≠ .ok ∧ InOrder [pbuf] handed (link.deliver pbuf).2) := by
  have hframe := frame_deliver link pbuf
  have hpending : (link.deliver pbuf).2.pending = link.pending := pending_deliver
  have hseen : (link.deliver pbuf).2.seen = link.seen := seen_deliver
  have hpcb : (link.deliver pbuf).2.pcb = link.pcb := pcb_deliver
  have hback : (link.deliver pbuf).2.stage ≠ .dropped → link.stage ≠ .dropped := by
    rw [hframe.stage]
    exact id
  rcases deliver_cases pbuf hhooks with ⟨hok, -, -, hqueue⟩ | ⟨hno, hqueue⟩
  · obtain ⟨hobtained, hnotold, packets, hpackets⟩ :=
      h.untold hlive (.inr (.inl (List.cons_ne_nil _ _)))
    have hthrough : (link.deliver pbuf).2.through handed = link.through handed ++ [pbuf] := by
      simp [through, hpending, hqueue, List.reduceOption_append]
    have horder := h.order hlive
    refine .inl ⟨hok, ?_, hframe.obtained.trans hobtained, by simp [hqueue, hnotold]⟩
    exact {
      order := by
        intro _
        rw [hthrough, hpcb, hseen, List.append_nil]
        exact horder
      earlier := by
        rw [hthrough, hseen, ← horder]
        exact List.prefix_append _ _
      told := by
        intro _ htold
        rw [hframe.obtained, hobtained, hqueue] at htold
        simp [hnotold] at htold
      last := by
        intro _
        refine ⟨packets ++ [pbuf], .inl ?_⟩
        rw [hqueue, hpackets, List.map_append]
        rfl
      finished := by
        intro _ hafter
        rw [hframe.obtained, hobtained] at hafter
        cases hafter
      fin := by
        rw [hpcb, hframe.stage]
        exact h.fin
      purged := by
        rw [hpcb, hframe.stage]
        exact h.purged }
  · refine .inr ⟨hno, h.of_eq hback hqueue hpending hframe.obtained hseen ?_ ?_ ?_ ?_⟩
    · rw [hpcb]
    · rw [hpcb]
      exact id
    · rw [hpcb]
    · rw [hpcb]

/-- lwIP keeps a packet that was refused. -/
theorem InOrder.refuse (h : InOrder [pbuf] handed link) (hlive : link.Live)
    (hnone : link.pcb.refused = none) :
    InOrder [] handed { link with pcb := { link.pcb with refused := some pbuf } } where
  order _ := by
    have horder := h.order hlive
    rw [hnone, Option.toList_none, List.append_nil] at horder
    rw [List.append_nil]
    exact horder
  earlier := h.earlier
  told _ htold := absurd (h.told hlive htold).2.1 (List.cons_ne_nil _ _)
  last _ := h.last hlive
  finished _ := h.finished hlive
  fin := h.fin
  purged _ hfreed := by
    rw [show link.pcb.freed = false from hlive.1] at hfreed
    cases hfreed

/-- The end of the stream is queued, or lost. -/
theorem queue_offer_none (conn : TcpConnection capacity) :
    (conn.offer none).channel.queue = conn.channel.queue ∨
      (conn.offer none).channel.queue = conn.channel.queue ++ [none] := by
  rw [TcpConnection.offer]
  cases hsend : conn.channel.trySend none with
  | none => exact .inl rfl
  | some channel => exact .inr (Channel.queue_of_trySend hsend)

theorem queue_signalEnd (link : Link capacity) :
    link.signalEnd.conn.channel.queue = link.conn.channel.queue ∨
      link.signalEnd.conn.channel.queue = link.conn.channel.queue ++ [none] := by
  cases hfn : link.pcb.recvFn with
  | null => exact .inl (by rw [Link.signalEnd, hfn])
  | holdRecv => exact .inl (by rw [Link.signalEnd, hfn])
  | recv =>
      cases harg : link.pcb.arg with
      | false =>
          refine .inl ?_
          simp [Link.signalEnd, hfn, Link.arg, harg, TcpConnection.recv]
      | true =>
          simp only [Link.signalEnd, hfn, Link.arg, harg, if_true, TcpConnection.recv,
            Option.getD_some]
          exact queue_offer_none link.conn

theorem seen_signalEnd : link.signalEnd.seen = link.seen := by
  unfold signalEnd
  split <;> rfl

/-- lwIP announces the end once nothing is refused any more. -/
theorem InOrder.signalEnd (h : InOrder [] handed link) (hlive : link.Live)
    (hgot : link.pcb.gotFin = true) (hnone : link.pcb.refused = none)
    (huntold : link.obtained = false ∧ none ∉ link.conn.channel.queue) :
    InOrder [] handed link.signalEnd := by
  have hframe := frame_signalEnd link
  have hthrough : link.signalEnd.through handed = link.through handed := by
    rcases queue_signalEnd link with hqueue | hqueue <;>
      simp [through, pending_signalEnd, hqueue, List.reduceOption_append]
  obtain ⟨packets, hpackets⟩ : ∃ packets : List Pbuf,
      link.conn.channel.queue = packets.map some := by
    obtain ⟨packets, hqueue | ⟨hqueue, -⟩⟩ := h.last hlive
    · exact ⟨packets, hqueue⟩
    · exact absurd (hqueue ▸ List.mem_append_right _ (List.mem_singleton_self none)) huntold.2
  exact {
    order := by
      intro _
      rw [hthrough, pcb_signalEnd, seen_signalEnd]
      exact h.order hlive
    earlier := by
      rw [hthrough, seen_signalEnd]
      exact h.earlier
    told := by
      intro _ _
      rw [pcb_signalEnd]
      exact ⟨hgot, rfl, hnone⟩
    last := by
      intro _
      refine ⟨packets, ?_⟩
      rw [hframe.obtained]
      rcases queue_signalEnd link with hqueue | hqueue
      · exact .inl (hqueue.trans hpackets)
      · exact .inr ⟨by rw [hqueue, hpackets], huntold.1⟩
    finished := by
      intro _ hobtained
      rw [hframe.obtained, huntold.1] at hobtained
      cases hobtained
    fin := by
      rw [pcb_signalEnd, hframe.stage]
      exact h.fin
    purged := by
      rw [pcb_signalEnd, hframe.stage]
      exact h.purged }

theorem InOrder.processRefusedData (h : InOrder [] handed link)
    (hhooks : link.Attached ∨ link.Holding) (hstage : link.stage ≠ .dropped) :
    InOrder [] handed link.processRefusedData := by
  cases hrefused : link.pcb.refused with
  | none =>
      rw [Link.processRefusedData, hrefused]
      exact h
  | some pbuf =>
      have hlive : link.Live := by
        refine ⟨?_, hstage⟩
        by_contra hfreed
        rw [h.purged hstage (by simpa using hfreed)] at hrefused
        cases hrefused
      obtain ⟨hobtained, hnotold, -⟩ := h.untold hlive (.inr (.inr (by simp [hrefused])))
      have hhand : InOrder [pbuf] handed { link with pcb := { link.pcb with refused := none } } := {
        order := by
          intro _
          have horder := h.order hlive
          rw [hrefused, List.append_nil] at horder
          rw [Option.toList_none, List.append_nil]
          exact horder
        earlier := h.earlier
        told := by
          intro _ htold
          simp [hobtained, hnotold] at htold
        last := fun _ ↦ h.last hlive
        finished := fun _ ↦ h.finished hlive
        fin := h.fin
        purged := fun _ _ ↦ rfl }
      have hhooks' : { link with pcb := { link.pcb with refused := none } }.Attached ∨
          { link with pcb := { link.pcb with refused := none } }.Holding :=
        hooks_of_eq hhooks rfl rfl rfl
      have hframe := frame_deliver { link with pcb := { link.pcb with refused := none } } pbuf
      have hlater : ({ link with pcb := { link.pcb with refused := none } }.deliver pbuf).2.Live :=
        hframe.live ⟨hlive.1, hlive.2⟩
      have hpcb : ({ link with pcb := { link.pcb with refused := none } }.deliver pbuf).2.pcb =
          { link.pcb with refused := none } := pcb_deliver
      simp only [Link.processRefusedData, hrefused]
      rcases hhand.deliver ⟨hlive.1, hlive.2⟩ hhooks' with ⟨hok, hafter, huntold⟩ | ⟨hno, hafter⟩
      · simp only [hok, if_true]
        split
        next hfin =>
          rw [hpcb] at hfin
          apply InOrder.signalEnd
          · exact hafter.of_eq id rfl rfl rfl rfl rfl (fun hfin ↦ by cases hfin) rfl rfl
          · exact hlater
          · rw [hpcb]
            exact h.fin hstage hfin
          · rw [hpcb]
          · exact huntold
        next => exact hafter
      · simp only [hno, if_false]
        exact hafter.refuse hlater (by rw [hpcb])

/-- New data arrives behind everything that has arrived before. -/
theorem InOrder.input (h : InOrder [] handed link) (hlive : link.Live)
    (hhooks : link.Attached ∨ link.Holding) (hnone : link.pcb.refused = none)
    (hopen : link.pcb.gotFin = false) (pbuf : Pbuf) : InOrder [] handed (link.input pbuf) := by
  obtain ⟨hobtained, hnotold, -⟩ := h.untold hlive (.inl hopen)
  have hhand : InOrder [pbuf] handed { link with seen := link.seen ++ [pbuf] } := {
    order := by
      intro _
      have horder := h.order hlive
      rw [hnone, List.append_nil, Option.toList_none, List.append_nil] at horder
      rw [hnone, Option.toList_none, List.append_nil, ← horder]
      rfl
    earlier := h.earlier.trans (List.prefix_append _ _)
    told := by
      intro _ htold
      simp [hobtained, hnotold] at htold
    last := fun _ ↦ h.last hlive
    finished := fun _ ↦ h.finished hlive
    fin := h.fin
    purged := h.purged }
  have hhooks' : { link with seen := link.seen ++ [pbuf] }.Attached ∨
      { link with seen := link.seen ++ [pbuf] }.Holding := hooks_of_eq hhooks rfl rfl rfl
  have hframe := frame_deliver { link with seen := link.seen ++ [pbuf] } pbuf
  simp only [Link.input]
  rcases hhand.deliver ⟨hlive.1, hlive.2⟩ hhooks' with ⟨hok, hafter, -⟩ | ⟨hno, hafter⟩
  · simp only [hok, if_true]
    exact hafter
  · simp only [hno, if_false]
    refine hafter.refuse (hframe.live ⟨hlive.1, hlive.2⟩) ?_
    rw [pcb_deliver]
    exact hnone

theorem InOrder.inputFin (h : InOrder [] handed link) (hlive : link.Live)
    (hopen : link.pcb.gotFin = false) : InOrder [] handed link.inputFin := by
  obtain ⟨hobtained, hnotold, -⟩ := h.untold hlive (.inl hopen)
  have hgot : InOrder [] handed { link with pcb := { link.pcb with gotFin := true } } := {
    order := fun _ ↦ h.order hlive
    earlier := h.earlier
    told := by
      intro _ htold
      simp [hobtained, hnotold] at htold
    last := fun _ ↦ h.last hlive
    finished := fun _ ↦ h.finished hlive
    fin := fun _ _ ↦ rfl
    purged := h.purged }
  simp only [Link.inputFin]
  split
  next hrefused =>
    exact {
      order := fun _ ↦ h.order hlive
      earlier := h.earlier
      told := by
        intro _ htold
        simp [hobtained, hnotold] at htold
      last := fun _ ↦ h.last hlive
      finished := fun _ ↦ h.finished hlive
      fin := fun _ _ ↦ rfl
      purged := h.purged }
  next hnone =>
    apply hgot.signalEnd ⟨hlive.1, hlive.2⟩ rfl _ ⟨hobtained, hnotold⟩
    simpa using hnone

/-- An error cuts the stream off behind what has got past `_recv`. -/
theorem InOrder.fatalError (h : InOrder [] handed link) : InOrder [] handed link.fatalError := by
  have hcut (conn : TcpConnection capacity) (ended : Bool)
      (hconn : conn.channel.queue.reduceOption = link.conn.channel.queue.reduceOption) :
      InOrder [] handed { link.purge with conn := conn, ended := ended } := by
    have hdead : ¬ Live { link.purge with conn := conn, ended := ended } := by
      rintro ⟨hfreed, -⟩
      cases hfreed
    exact {
      order := fun hlive ↦ absurd hlive hdead
      earlier := by
        rw [through, hconn]
        exact h.earlier
      told := fun hlive ↦ absurd hlive hdead
      last := fun hlive ↦ absurd hlive hdead
      finished := fun hlive ↦ absurd hlive hdead
      fin := h.fin
      purged := fun _ _ ↦ rfl }
  simp only [Link.fatalError]
  split
  next herr =>
    apply hcut
    cases harg : link.pcb.arg with
    | false => simp [Link.purge, Link.arg, harg, TcpConnection.err]
    | true =>
        simp only [Link.purge, Link.arg, harg, if_true, TcpConnection.err, Option.map_some,
          Option.getD_some]
        exact reduceOption_offer_none { link.conn with pcb := false }
  next => exact hcut link.conn link.ended rfl

/-! ## The worker -/

theorem InOrder.attachCallbacks (h : InOrder [] handed link) (hstage : link.stage ≠ .dropped) :
    InOrder [] handed link.attachCallbacks := by
  simp only [Link.attachCallbacks]
  split
  · split
    · apply InOrder.processRefusedData
      · exact h.of_eq id rfl rfl rfl rfl rfl id rfl rfl
      · exact .inl ⟨rfl, rfl, rfl⟩
      · exact hstage
    · exact h.of_eq id rfl rfl rfl rfl rfl id rfl rfl
  · exact h

theorem InOrder.receive (h : InOrder [] handed link) (hpending : link.pending = none)
    (hreceive : link.receive = some after) : InOrder [] handed after := by
  obtain ⟨⟨item, channel⟩, htake, rfl⟩ := Option.map_eq_some_iff.mp hreceive
  have hqueue := Channel.queue_of_tryReceive htake
  cases item with
  | none =>
      have hthrough : through handed
          { link with conn := { link.conn with channel := channel }, obtained := true } =
            link.through handed := by
        simp [through, hqueue]
      have hlast (hlive : link.Live) : channel.queue = [] := by
        obtain ⟨packets, hpackets | ⟨hpackets, -⟩⟩ := h.last hlive
        · rw [hqueue] at hpackets
          cases packets <;> cases hpackets
        · rw [hqueue] at hpackets
          cases packets with
          | nil => exact (List.cons.inj hpackets).2
          | cons packet packets => cases hpackets
      exact {
        order := by
          intro hlive
          rw [hthrough]
          exact h.order hlive
        earlier := by
          rw [hthrough]
          exact h.earlier
        told := fun hlive _ ↦ h.told hlive (.inr (by simp [hqueue]))
        last := fun hlive ↦ ⟨[], .inl (hlast hlive)⟩
        finished := fun hlive _ ↦ hlast hlive
        fin := h.fin
        purged := h.purged }
  | some packet =>
      have hthrough : through handed
          { link with conn := { link.conn with channel := channel }, pending := some packet } =
            link.through handed := by
        simp [through, hqueue, hpending]
      exact {
        order := by
          intro hlive
          rw [hthrough]
          exact h.order hlive
        earlier := by
          rw [hthrough]
          exact h.earlier
        told := by
          intro hlive htold
          apply h.told hlive
          rw [hqueue]
          exact htold.imp id (List.mem_cons_of_mem _)
        last := by
          intro hlive
          obtain ⟨packets, hpackets | ⟨hpackets, hobtained⟩⟩ := h.last hlive
          · rw [hqueue] at hpackets
            cases packets with
            | nil => cases hpackets
            | cons first packets => exact ⟨packets, .inl (List.cons.inj hpackets).2⟩
          · rw [hqueue] at hpackets
            cases packets with
            | nil => cases hpackets
            | cons first packets => exact ⟨packets, .inr ⟨(List.cons.inj hpackets).2, hobtained⟩⟩
        finished := by
          intro hlive hobtained
          have hempty := h.finished hlive hobtained
          rw [hqueue] at hempty
          cases hempty
        fin := h.fin
        purged := h.purged }

/-- `receive` hands the packet out. -/
theorem InOrder.credit (h : InOrder [] handed link) (posted : Bool)
    (hpending : link.pending = some pbuf) :
    InOrder [] (handed ++ [pbuf]) (link.credit posted pbuf) := by
  have hthrough : (link.credit posted pbuf).through (handed ++ [pbuf]) = link.through handed := by
    simp only [Link.credit, through, hpending]
    split <;> simp [call]
  have hframe : (link.credit posted pbuf).pcb = link.pcb ∧
      (link.credit posted pbuf).conn = link.conn ∧
      (link.credit posted pbuf).stage = link.stage ∧
      (link.credit posted pbuf).obtained = link.obtained ∧
      (link.credit posted pbuf).seen = link.seen := by
    simp only [Link.credit]
    split <;> exact ⟨rfl, rfl, rfl, rfl, rfl⟩
  obtain ⟨hpcb, hconn, hstage, hobtained, hseen⟩ := hframe
  have hback : (link.credit posted pbuf).Live → link.Live := by
    rw [Live, Live, hpcb, hstage]
    exact id
  exact {
    order := by
      intro hlive
      rw [hthrough, hpcb, hseen]
      exact h.order (hback hlive)
    earlier := by
      rw [hthrough, hseen]
      exact h.earlier
    told := by
      intro hlive
      rw [hobtained, hconn, hpcb]
      exact h.told (hback hlive)
    last := by
      intro hlive
      rw [hobtained, hconn]
      exact h.last (hback hlive)
    finished := by
      intro hlive
      rw [hobtained, hconn]
      exact h.finished (hback hlive)
    fin := by
      rw [hpcb, hstage]
      exact h.fin
    purged := by
      rw [hpcb, hstage]
      exact h.purged }

theorem seen_processRefusedData : link.processRefusedData.seen = link.seen := by
  simp only [Link.processRefusedData]
  split
  · rfl
  · split
    · split
      · exact seen_signalEnd.trans seen_deliver
      · exact seen_deliver
    · exact seen_deliver

theorem seen_drop (link : Link capacity) (closeErr : Err) :
    (link.drop closeErr).seen = link.seen := by
  have hlast : link.lastChance.seen = link.seen := by
    simp only [lastChance]
    split
    · exact seen_processRefusedData
    · rfl
  simp only [Link.drop]
  split
  · simp only [Link.close]
    split <;> exact hlast
  · rfl

theorem pending_drop (link : Link capacity) (closeErr : Err) :
    (link.drop closeErr).pending = link.pending := by
  simp only [Link.drop]
  split
  · simp only [Link.close]
    split <;> exact pending_lastChance
  · rfl

/-- The drop hands nothing out. -/
theorem InOrder.drop (h : InOrder [] handed link) (hpending : link.pending = none)
    (closeErr : Err) : InOrder [] handed (link.drop closeErr) := by
  have hdead : ¬ (link.drop closeErr).Live := fun hlive ↦ hlive.2 rfl
  have hkept : (link.drop closeErr).pending = link.pending := pending_drop link closeErr
  exact {
    order := fun hlive ↦ absurd hlive hdead
    earlier := by
      have hthrough : (link.drop closeErr).through handed = handed := by
        rw [through, hkept, hpending]
        exact List.append_nil handed
      rw [hthrough, seen_drop]
      exact (List.prefix_append _ _).trans h.earlier
    told := fun hlive ↦ absurd hlive hdead
    last := fun hlive ↦ absurd hlive hdead
    finished := fun hlive ↦ absurd hlive hdead
    fin := fun hstage ↦ absurd rfl hstage
    purged := fun hstage ↦ absurd rfl hstage }

/-- What `receive` hands to the worker in a step: the packet it has just credited. -/
def handsOut (link : Link capacity) : Event → List Pbuf
  | .credit _ => link.pending.toList
  | _ => []

theorem InOrder.step (h : InOrder [] handed link) (hwired : link.Wired) {event : Event}
    (hstep : link.step event = some after) : InOrder [] (handed ++ link.handsOut event) after := by
  cases steps_of_step hstep with
  | data hlive hnone hopen _ =>
      simp only [handsOut, List.append_nil]
      exact h.input hlive (hwired.hooks hlive.2) hnone hopen _
  | fin hlive hopen =>
      simp only [handsOut, List.append_nil]
      exact h.inputFin hlive hopen
  | retry hlive _ =>
      simp only [handsOut, List.append_nil]
      exact h.processRefusedData (hwired.hooks hlive.2) hlive.2
  | fatal _ =>
      simp only [handsOut, List.append_nil]
      exact h.fatalError
  | take hqueued =>
      simp only [handsOut, List.append_nil]
      exact h.of_eq (fun _ ↦ by simp [hqueued]) rfl rfl rfl rfl rfl id rfl rfl
  | attached htaken =>
      simp only [handsOut, List.append_nil]
      have hattached := h.attachCallbacks (by simp [htaken])
      exact hattached.of_eq (fun _ ↦ by simp [stage_attachCallbacks, htaken]) rfl rfl rfl rfl rfl
        id rfl rfl
  | unattached htaken =>
      simp only [handsOut, List.append_nil]
      exact h.of_eq (fun _ ↦ by simp [htaken]) rfl rfl rfl rfl rfl id rfl rfl
  | receive hidle hreceive =>
      simp only [handsOut, List.append_nil]
      exact h.receive hidle.2 hreceive
  | @credit posted _ _ hpending =>
      rw [handsOut, hpending]
      exact h.credit posted hpending
  | respond _ =>
      simp only [handsOut, List.append_nil]
      simp only [response]
      split
      · split <;> exact h.of_eq id rfl rfl rfl rfl rfl id rfl rfl
      · exact h
  | release _ =>
      simp only [handsOut, List.append_nil]
      exact h.of_eq id rfl rfl rfl rfl rfl id rfl rfl
  | drop hidle _ =>
      simp only [handsOut, List.append_nil]
      exact h.drop hidle.2 _

end Link

/-! ## Runs -/

/-- A connection, the packets that `receive` has handed to the worker so far, and whether each
delivery to `_recv` so far has found room. -/
structure Reading (capacity : ℕ) where
  link : Link capacity
  handed : List Pbuf
  roomy : Bool

namespace Reading

variable {capacity : ℕ} {reading : Reading capacity}

def accepted : Reading capacity where
  link := .accepted
  handed := []
  roomy := true

def step (reading : Reading capacity) (event : Link.Event) : Option (Reading capacity) :=
  (reading.link.step event).map fun link ↦
    ⟨link, reading.handed ++ reading.link.handsOut event,
      reading.roomy && decide (reading.link.FindsRoom event)⟩

theorem inOrder_of_reaches (h : Reaches step Unrestricted accepted reading) :
    reading.link.Wired ∧ reading.link.InOrder [] reading.handed := by
  apply h.invariant (fun reading ↦ reading.link.Wired ∧ reading.link.InOrder [] reading.handed)
  · exact ⟨Link.wired_accepted, Link.inOrder_accepted⟩
  · rintro before event after ⟨hwired, horder⟩ - hstep
    obtain ⟨link, hlink, rfl⟩ := Option.map_eq_some_iff.mp hstep
    exact ⟨hwired.step hlink, horder.step hwired hlink⟩

/-- As long as deliveries find room, each packet is in one place. -/
theorem carries_of_reaches (h : Reaches step Unrestricted accepted reading)
    (hroomy : reading.roomy = true) : reading.link.Carries [] := by
  refine (h.invariant (fun reading ↦ reading.link.Wired ∧
    (reading.roomy = true → reading.link.Carries [])) ?_ ?_).2 hroomy
  · exact ⟨Link.wired_accepted, fun _ ↦ Link.carries_accepted⟩
  · rintro before event after ⟨hwired, hcarries⟩ - hstep
    obtain ⟨link, hlink, rfl⟩ := Option.map_eq_some_iff.mp hstep
    refine ⟨hwired.step hlink, fun hroomy ↦ ?_⟩
    obtain ⟨hbefore, hroom⟩ := Bool.and_eq_true_iff.mp hroomy
    exact (hcarries hbefore).step hwired (of_decide_eq_true hroom) hlink

/-- In every run, what `receive` has handed out are the first of the packets that arrived, each once
and in their order. On a live connection the others are on their way, queued or refused, and in that
order; and there `receive` has only returned `None` if the peer has closed and all were handed out.
As long as deliveries find room, no packet is freed on its way or while the worker has it. -/
theorem received_in_order (h : Reaches step Unrestricted accepted reading) :
    reading.handed <+: reading.link.seen ∧
      (reading.link.Live →
        reading.handed ++ reading.link.pending.toList ++
            reading.link.conn.channel.queue.reduceOption ++ reading.link.pcb.refused.toList =
          reading.link.seen) ∧
      (reading.link.Live → reading.link.obtained = true →
        reading.link.pcb.gotFin = true ∧
          reading.handed ++ reading.link.pending.toList = reading.link.seen) ∧
      (reading.roomy = true →
        ∀ pbuf ∈ reading.link.underway ++ reading.link.held, pbuf ∉ reading.link.freed) := by
  obtain ⟨-, horder⟩ := inOrder_of_reaches h
  have hall (hlive : reading.link.Live) :
      reading.handed ++ reading.link.pending.toList ++
          reading.link.conn.channel.queue.reduceOption ++ reading.link.pcb.refused.toList =
        reading.link.seen := by
    have hseen := horder.order hlive
    rwa [Link.through, List.append_nil, ← List.append_assoc] at hseen
  refine ⟨(List.prefix_append _ _).trans horder.earlier, hall, ?_, fun hroomy _ hmem ↦
    (carries_of_reaches h hroomy).notMem_freed_of_mem hmem⟩
  intro hlive hobtained
  obtain ⟨hfin, -, hnone⟩ := horder.told hlive (.inl hobtained)
  have hseen := hall hlive
  rw [horder.finished hlive hobtained, hnone] at hseen
  exact ⟨hfin, by simpa using hseen⟩

/-- A packet is refused twice before the callbacks are attached, and then passed up with them; two
more arrive, the peer closes, and the worker reads on until `receive` returns `None`. -/
def untilNone : List Link.Event :=
  [.data ⟨0, [[0]]⟩, .take, .retry, .attach true, .data ⟨1, [[1], [2]]⟩, .receive, .credit true,
    .data ⟨2, [[3]]⟩, .fin, .receive, .credit true, .release ⟨0, [[0]]⟩, .receive, .credit true,
    .receive]

theorem received_in_order_untilNone :
    ∃ reading : Reading 12, reading.link.obtained = true ∧
      reading.handed = [⟨0, [[0]]⟩, ⟨1, [[1], [2]]⟩, ⟨2, [[3]]⟩] ∧
      (∀ pbuf ∈ reading.link.underway ++ reading.link.held, pbuf ∉ reading.link.freed) ∧
      reading.handed <+: reading.link.seen ∧
      (reading.link.Live →
        reading.handed ++ reading.link.pending.toList ++
            reading.link.conn.channel.queue.reduceOption ++ reading.link.pcb.refused.toList =
          reading.link.seen) ∧
      (reading.link.Live → reading.link.obtained = true →
        reading.link.pcb.gotFin = true ∧
          reading.handed ++ reading.link.pending.toList = reading.link.seen) := by
  obtain ⟨reading, hreach, hobtained, hhanded, hroomy⟩ :=
    exists_reaches_of_runIf step Unrestricted (accepted : Reading 12) untilNone
      (fun reading ↦ reading.link.obtained = true ∧
        reading.handed = [⟨0, [[0]]⟩, ⟨1, [[1], [2]]⟩, ⟨2, [[3]]⟩] ∧ reading.roomy = true)
      (by decide +kernel)
  obtain ⟨hfirst, hothers, hend, hintact⟩ := received_in_order hreach
  exact ⟨reading, hobtained, hhanded, hintact hroomy, hfirst, hothers, hend⟩

end Reading

end Derusting.Lwip
