import Derusting.Lwip.Tcp

/-!
# The end of the stream

lwIP announces the end of a stream once, by a receive callback with a null buffer or by the error
callback.  The connection passes it on as a `None` in its channel, which is what the worker waits
for.  The announcement is lost when it reaches `_hold_recv`, which ignores it, or when it meets a
full channel, where the failed `try_send` is ignored.  `EndFindsRoom` excludes both, and then a
worker that has not been told yet always finds the `None` in its channel.
-/

namespace Derusting.Lwip

open Foundations.Bounded Foundations.Transition

namespace Link

variable {capacity : ℕ} {link after : Link capacity} {pbuf : Pbuf}

/-- While the worker has the connection, an end that was signalled and that it has not obtained is
in the channel, so `receive` does not block. -/
def EndKept (link : Link capacity) : Prop :=
  (link.stage = .taken ∨ link.stage = .serving) → link.ended = true → link.obtained = false →
    none ∈ link.conn.channel.queue ∧ link.receive ≠ none

/-- Each announcement of the end finds the callbacks attached and a free slot. A FIN kept behind a
refused packet is announced when that packet is accepted, and needs a second slot; an error may
also find the end already queued or obtained. -/
def EndFindsRoom (link : Link capacity) : Event → Prop
  | .fin => link.pcb.refused = none →
      link.pcb.recvFn = .recv ∧ link.conn.channel.isFull = false
  | .retry => link.pcb.fin = true → link.pcb.recvFn = .recv →
      link.conn.channel.isFull = true ∨ link.conn.channel.queue.length + 2 ≤ capacity
  | .attach true => link.pcb.fin = true →
      link.conn.channel.isFull = true ∨ link.conn.channel.queue.length + 2 ≤ capacity
  | .fatal => link.pcb.errFn = true →
      link.conn.channel.isFull = false ∨ none ∈ link.conn.channel.queue ∨ link.obtained = true
  | _ => True

instance (link : Link capacity) : (event : Event) → Decidable (link.EndFindsRoom event)
  | .fin => inferInstanceAs (Decidable (link.pcb.refused = none → _))
  | .retry => inferInstanceAs (Decidable (link.pcb.fin = true → _ → _))
  | .attach true => inferInstanceAs (Decidable (link.pcb.fin = true → _))
  | .fatal => inferInstanceAs (Decidable (link.pcb.errFn = true → _))
  | .attach false | .data _ | .drop _ | .take | .receive | .credit _ | .respond _ _ _ |
    .release _ => inferInstanceAs (Decidable True)

/-- Until the drop, an end that was signalled has been obtained or is in the channel. -/
def Heard (link : Link capacity) : Prop :=
  link.stage ≠ .dropped → link.ended = true →
    link.obtained = true ∨ none ∈ link.conn.channel.queue

theorem Heard.endKept (h : link.Heard) : link.EndKept := by
  intro hstage hended hobtained
  have hlive : link.stage ≠ .dropped := by
    rcases hstage with hstage | hstage <;> simp [hstage]
  have hmem : none ∈ link.conn.channel.queue := by
    rcases h hlive hended with htold | hmem
    · simp [htold] at hobtained
    · exact hmem
  refine ⟨hmem, ?_⟩
  rw [Link.receive, ne_eq, Option.map_eq_none_iff, Channel.tryReceive_eq_none_iff]
  exact List.ne_nil_of_mem hmem

/-! ## Callbacks -/

/-- Whatever is offered, what is queued stays queued. -/
theorem mem_queue_offer {conn : TcpConnection capacity} {item offered : Option Pbuf}
    (h : item ∈ conn.channel.queue) : item ∈ (conn.offer offered).channel.queue := by
  rw [TcpConnection.offer]
  cases hsend : conn.channel.trySend offered with
  | none => exact h
  | some channel =>
      rw [Option.getD_some, Channel.queue_of_trySend hsend]
      exact List.mem_append_left _ h

/-- An offer that finds a free slot is queued. -/
theorem mem_queue_offer_self {conn : TcpConnection capacity} (offered : Option Pbuf)
    (h : conn.channel.isFull = false) : offered ∈ (conn.offer offered).channel.queue := by
  rw [TcpConnection.offer]
  cases hsend : conn.channel.trySend offered with
  | none =>
      rw [Channel.trySend_eq_none_iff, h] at hsend
      cases hsend
  | some channel =>
      rw [Option.getD_some, Channel.queue_of_trySend hsend]
      exact List.mem_append_right _ (List.mem_singleton_self _)

/-- A delivery is queued by an attached connection that has a free slot, or refused. -/
theorem deliver_cases (pbuf : Pbuf) (hhooks : link.Attached ∨ link.Holding) :
    ((link.deliver pbuf).1 = .ok ∧ link.conn.channel.isFull = false ∧ link.Attached ∧
      (link.deliver pbuf).2.conn.channel.queue = link.conn.channel.queue ++ [some pbuf]) ∨
    ((link.deliver pbuf).1 ≠ .ok ∧
      (link.deliver pbuf).2.conn.channel.queue = link.conn.channel.queue) := by
  rcases hhooks with hattached | hholding
  · cases hsend : link.conn.channel.trySend (some pbuf) with
    | none =>
        refine .inr ?_
        simp [deliver, hattached.recvFn, Link.arg, hattached.arg, TcpConnection.recv, hsend]
    | some channel =>
        refine .inl ⟨?_, ?_, hattached, ?_⟩
        · simp [deliver, hattached.recvFn, Link.arg, hattached.arg, TcpConnection.recv, hsend]
        · rw [Bool.eq_false_iff]
          intro hfull
          have hnone : link.conn.channel.trySend (some pbuf) = none :=
            Channel.trySend_eq_none_iff.mpr hfull
          simp [hsend] at hnone
        · simp [deliver, hattached.recvFn, Link.arg, hattached.arg, TcpConnection.recv, hsend,
            Channel.queue_of_trySend hsend]
  · refine .inr ?_
    simp [deliver, hholding.recvFn]

theorem ended_deliver : (link.deliver pbuf).2.ended = link.ended := by
  unfold deliver
  split <;> rfl

/-- A delivery loses no announcement. -/
theorem Heard.deliver (h : link.Heard) (pbuf : Pbuf) (hhooks : link.Attached ∨ link.Holding) :
    (link.deliver pbuf).2.Heard := by
  intro hstage hended
  rw [(frame_deliver link pbuf).stage] at hstage
  rw [ended_deliver] at hended
  rw [(frame_deliver link pbuf).obtained]
  refine (h hstage hended).imp id fun hmem ↦ ?_
  rcases deliver_cases pbuf hhooks with ⟨_, _, _, hqueue⟩ | ⟨_, hqueue⟩
  · rw [hqueue]
    exact List.mem_append_left _ hmem
  · rw [hqueue]
    exact hmem

/-- An end announced to an attached connection with a free slot is queued. -/
theorem heard_signalEnd (hattached : link.Attached) (hroom : link.conn.channel.isFull = false) :
    link.signalEnd.Heard := by
  intro _ _
  refine .inr ?_
  simp only [signalEnd, hattached.recvFn, Link.arg, hattached.arg, if_true, TcpConnection.recv,
    Option.getD_some]
  exact mem_queue_offer_self none hroom

theorem Heard.processRefusedData (h : link.Heard) (hhooks : link.Attached ∨ link.Holding)
    (hroom : link.pcb.fin = true → link.pcb.recvFn = .recv →
      link.conn.channel.isFull = true ∨ link.conn.channel.queue.length + 2 ≤ capacity) :
    link.processRefusedData.Heard := by
  cases hrefused : link.pcb.refused with
  | none =>
      rw [Link.processRefusedData, hrefused]
      exact h
  | some pbuf =>
      have hclear : { link with pcb := { link.pcb with refused := none } }.Heard := h
      have hhooks' : { link with pcb := { link.pcb with refused := none } }.Attached ∨
          { link with pcb := { link.pcb with refused := none } }.Holding :=
        hooks_of_eq hhooks rfl rfl rfl
      have hdelivered := hclear.deliver pbuf hhooks'
      have hframe := frame_deliver { link with pcb := { link.pcb with refused := none } } pbuf
      simp only [Link.processRefusedData, hrefused]
      rcases deliver_cases pbuf hhooks' with ⟨hok, hfree, hattached, hqueue⟩ | ⟨hno, _⟩
      · simp only [hok, if_true]
        split
        next hfin =>
          rw [pcb_deliver] at hfin
          have hslots := (hroom hfin hattached.recvFn).resolve_left (by simpa using hfree)
          refine heard_signalEnd ⟨hframe.recvFn.trans hattached.recvFn,
            hframe.errFn.trans hattached.errFn, hframe.arg.trans hattached.arg⟩ ?_
          simp only [Channel.isFull, hqueue, List.length_append, List.length_singleton,
            decide_eq_false_iff_not]
          omega
        next => exact hdelivered
      · simp only [hno, if_false]
        exact hdelivered

theorem Heard.input (h : link.Heard) (pbuf : Pbuf) (hhooks : link.Attached ∨ link.Holding) :
    (link.input pbuf).Heard := by
  have hseen : { link with seen := link.seen ++ [pbuf] }.Heard := h
  have hhooks' : { link with seen := link.seen ++ [pbuf] }.Attached ∨
      { link with seen := link.seen ++ [pbuf] }.Holding :=
    hooks_of_eq hhooks rfl rfl rfl
  have hdelivered := hseen.deliver pbuf hhooks'
  simp only [Link.input]
  split <;> exact hdelivered

theorem Heard.inputFin (h : link.Heard) (hhooks : link.Attached ∨ link.Holding)
    (hroom : link.pcb.refused = none →
      link.pcb.recvFn = .recv ∧ link.conn.channel.isFull = false) : link.inputFin.Heard := by
  simp only [Link.inputFin]
  split
  next => exact h
  next hnone =>
    obtain ⟨hrecv, hfree⟩ := hroom (by simpa using hnone)
    rcases hhooks with hattached | hholding
    · exact heard_signalEnd ⟨hattached.recvFn, hattached.errFn, hattached.arg⟩ hfree
    · rw [hholding.recvFn] at hrecv
      cases hrecv

theorem Heard.attachCallbacks (h : link.Heard)
    (hroom : link.pcb.fin = true →
      link.conn.channel.isFull = true ∨ link.conn.channel.queue.length + 2 ≤ capacity) :
    link.attachCallbacks.Heard := by
  simp only [Link.attachCallbacks]
  split
  · split
    · exact Heard.processRefusedData h (.inl ⟨rfl, rfl, rfl⟩) fun hfin _ ↦ hroom hfin
    · exact h
  · exact h

theorem Heard.fatalError (h : link.Heard) (hhooks : link.Attached ∨ link.Holding)
    (hroom : link.pcb.errFn = true →
      link.conn.channel.isFull = false ∨ none ∈ link.conn.channel.queue ∨ link.obtained = true) :
    link.fatalError.Heard := by
  simp only [Link.fatalError]
  split
  next herr =>
    have harg : link.pcb.arg = true := by
      rcases hhooks with hattached | hholding
      · exact hattached.arg
      · rw [Link.purge, hholding.errFn] at herr
        cases herr
    intro _ _
    simp only [Link.purge, Link.arg, harg, if_true, TcpConnection.err, Option.map_some,
      Option.getD_some]
    rcases hroom herr with hfree | hmem | hobtained
    · exact .inr (mem_queue_offer_self none hfree)
    · exact .inr (mem_queue_offer hmem)
    · exact .inl hobtained
  next => exact h

/-! ## The worker -/

theorem Heard.receive (h : link.Heard) (hreceive : link.receive = some after) : after.Heard := by
  obtain ⟨⟨item, channel⟩, htake, rfl⟩ := Option.map_eq_some_iff.mp hreceive
  have hqueue := Channel.queue_of_tryReceive htake
  cases item with
  | none => exact fun _ _ ↦ .inl rfl
  | some pbuf =>
      intro hstage hended
      refine (h hstage hended).imp id fun hmem ↦ ?_
      rw [hqueue] at hmem
      exact (List.mem_cons.mp hmem).resolve_left (by simp)

theorem Heard.step (h : link.Heard) (hwired : link.Wired) {event : Event}
    (hguard : link.EndFindsRoom event) (hstep : link.step event = some after) : after.Heard := by
  cases steps_of_step hstep with
  | data hlive _ _ _ => exact h.input _ (hwired.hooks hlive.2)
  | fin hlive _ => exact h.inputFin (hwired.hooks hlive.2) hguard
  | retry hlive _ => exact h.processRefusedData (hwired.hooks hlive.2) hguard
  | fatal hlive => exact h.fatalError (hwired.hooks hlive.2) hguard
  | take hqueued => exact fun _ ↦ h (by simp [hqueued])
  | unattached htaken => exact fun _ ↦ h (by simp [htaken])
  | attached htaken =>
      have hattached := h.attachCallbacks hguard
      exact fun _ ↦ hattached (by simp [stage_attachCallbacks, htaken])
  | receive _ hreceive => exact h.receive hreceive
  | credit _ _ =>
      simp only [credit]
      split <;> exact h
  | respond _ =>
      simp only [response]
      split
      · split <;> exact h
      · exact h
  | release _ => exact h
  | drop _ _ => exact fun hstage ↦ absurd rfl hstage

/-- In every run in which each announcement of the end finds the callbacks attached and a free slot,
the end of the stream is not lost. -/
theorem end_kept_of_endFindsRoom {capacity : ℕ} {link : Link capacity}
    (h : Reaches Link.step EndFindsRoom Link.accepted link) : link.EndKept := by
  have hinv : link.Wired ∧ link.Heard := by
    refine h.invariant (fun link ↦ link.Wired ∧ link.Heard) ⟨wired_accepted, ?_⟩
      fun _ _ _ hbefore hguard hstep ↦
        ⟨hbefore.1.step hstep, hbefore.2.step hbefore.1 hguard hstep⟩
    exact fun _ hended ↦ by cases hended
  exact hinv.2.endKept

/-- A packet and a FIN that arrive after the callbacks are attached. -/
def orderly : List Event := [.take, .attach true, .data ⟨0, [[1]]⟩, .fin]

theorem end_kept_after_orderly :
    ∃ link : Link 12, Reaches Link.step EndFindsRoom Link.accepted link ∧
      link.ended = true ∧ link.stage = .serving ∧ link.EndKept := by
  obtain ⟨link, hreach, hended, hstage⟩ := exists_reaches_of_runIf Link.step EndFindsRoom
    (Link.accepted : Link 12) orderly (fun link ↦ link.ended = true ∧ link.stage = .serving)
    (by decide +kernel)
  exact ⟨link, hreach, hended, hstage, end_kept_of_endFindsRoom hreach⟩

/-- A peer that closes before the worker gets to the connection. -/
def early : List Event := [.fin, .take, .attach true]

/-- The end announced to `_hold_recv` is never queued, and `receive` blocks. -/
theorem end_lost_after_early :
    ∃ link : Link 12, Reaches Link.step Unrestricted Link.accepted link ∧
      link.receive.isNone = true ∧ ¬ link.EndKept := by
  obtain ⟨link, hreach, hstage, hended, hobtained, hblocked⟩ := exists_reaches_of_runIf Link.step
    Unrestricted (Link.accepted : Link 12) early (fun link ↦ link.stage = .serving ∧
      link.ended = true ∧ link.obtained = false ∧ link.receive.isNone = true) (by decide +kernel)
  refine ⟨link, hreach, hblocked, fun hkept ↦ ?_⟩
  exact (hkept (.inr hstage) hended hobtained).2 (Option.isNone_iff_eq_none.mp hblocked)

end Link

end Derusting.Lwip
