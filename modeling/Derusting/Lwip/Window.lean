import Derusting.Lwip.EndOfStream
import Derusting.Lwip.Ownership

/-!
# The receive window

lwIP closes a connection with a reset unless everything it has passed up has been credited with
`tcp_recved` and nothing is refused.  `receive` credits the packets it hands out, and the drop those
it finds in the channel after it has had refused data delivered once more.

The books of a connection compare the bytes lwIP has passed up with those credited, refused, queued
or on their way through `receive`.  What is missing from them is what a `receive` whose closure
`tcpip_callback` did not accept has left uncredited.

A packet that a full channel has refused is freed (`Lwip.Ownership`), and passed up again all the
same.  `receive` and the drop then credit what they find as its length; here that is the length with
which it arrived.
-/

namespace Derusting.Lwip

open Foundations.Bounded Foundations.Transition

/-- By how much a call opens the receive window. -/
def TcpCall.window : TcpCall → ℕ
  | .recved len => len
  | _ => 0

/-- The bytes of some packets. -/
def totalLens (packets : List Pbuf) : ℕ := (packets.map Pbuf.totalLen).sum

@[simp]
theorem totalLens_nil : totalLens [] = 0 := rfl

@[simp]
theorem totalLens_cons (pbuf : Pbuf) (packets : List Pbuf) :
    totalLens (pbuf :: packets) = pbuf.totalLen + totalLens packets := by
  simp [totalLens]

@[simp]
theorem totalLens_append (left right : List Pbuf) :
    totalLens (left ++ right) = totalLens left + totalLens right := by
  simp [totalLens]

namespace Link

variable {capacity : ℕ}

/-- What `tcp_recved` has been told in all. -/
def credited (link : Link capacity) : ℕ := (link.calls.map fun entry ↦ entry.1.window).sum

/-- The packets that are refused, queued or on their way through `receive`. -/
def underway (link : Link capacity) : List Pbuf :=
  link.pcb.refused.toList ++ (link.conn.channel.queue.reduceOption ++ link.pending.toList)

/-- A packet with one place is not freed while it is refused, queued, in `receive` or held. -/
theorem Carries.notMem_freed_of_mem {link : Link capacity} (h : Carries [] link) {pbuf : Pbuf}
    (hmem : pbuf ∈ link.underway ++ link.held) : pbuf ∉ link.freed := by
  have howners : link.owners = (link.underway ++ link.held) ++ link.freed := by
    simp only [owners, underway, List.append_assoc]
  have hnodup := h.nodup
  rw [List.nil_append, howners] at hnodup
  exact fun hfreed ↦ List.disjoint_of_nodup_append hnodup hmem hfreed

/-- The connection as `tcp_close` finds it in the drop. -/
def closing (link : Link capacity) : Link capacity := link.lastChance.drain.detach

/-- At `tcp_close` everything lwIP has passed up is credited, and nothing is refused or queued. -/
def Restored (link : Link capacity) : Prop :=
  link.closing.credited = totalLens link.closing.seen ∧ link.closing.pcb.refused = none ∧
    link.closing.conn.channel.queue = []

instance (link : Link capacity) : Decidable link.Restored := inferInstanceAs (Decidable (_ ∧ _))

/-- A packet that `receive` hands out is credited, unless it is empty. -/
def Credits (link : Link capacity) : Event → Prop
  | .credit posted => posted = true ∨ totalLens link.pending.toList = 0
  | _ => True

instance (link : Link capacity) (event : Event) : Decidable (link.Credits event) := by
  cases event <;> unfold Credits <;> infer_instance

/-- The channel has a slot for what is refused, and the connection is there to take it. -/
def TakesRefused (link : Link capacity) : Prop :=
  link.pcb.refused = none ∨ (link.Attached ∧ link.conn.channel.isFull = false)

/-! ## The books -/

/-- Credited, under way and lost bytes add up to those lwIP has passed up. -/
structure Books (lost : ℕ) (link : Link capacity) : Prop where
  pcb : link.conn.pcb = true
  total : link.credited + totalLens link.underway + lost = totalLens link.seen

variable {link after : Link capacity} {lost : ℕ} {pbuf : Pbuf}

theorem books_accepted : Books 0 (accepted : Link capacity) := ⟨rfl, rfl⟩

/-- The books depend on the pointer, on the calls, on what is under way and on what was seen. -/
theorem Books.of_eq (h : Books lost link) (hpcb : after.conn.pcb = link.conn.pcb)
    (hcredited : after.credited = link.credited)
    (hunderway : totalLens after.underway = totalLens link.underway)
    (hseen : after.seen = link.seen) : Books lost after := by
  refine ⟨hpcb.trans h.pcb, ?_⟩
  rw [hcredited, hunderway, hseen]
  exact h.total

theorem credited_call (tcpCall : TcpCall) :
    (link.call tcpCall).credited = link.credited + tcpCall.window := by
  simp [call, credited]

/-- A call that credits nothing leaves the books as they are. -/
theorem Books.call (h : Books lost link) {tcpCall : TcpCall} (hwindow : tcpCall.window = 0) :
    Books lost (link.call tcpCall) := by
  refine h.of_eq rfl ?_ rfl rfl
  rw [credited_call, hwindow, Nat.add_zero]

/-! ## Callbacks -/

theorem seen_deliver : (link.deliver pbuf).2.seen = link.seen := by
  unfold deliver
  split <;> rfl

theorem pending_deliver : (link.deliver pbuf).2.pending = link.pending := by
  unfold deliver
  split <;> rfl

/-- A packet that is delivered is queued, or stays out of the books. -/
theorem Books.deliver (h : Books (lost + pbuf.totalLen) link)
    (hhooks : link.Attached ∨ link.Holding) :
    ((link.deliver pbuf).1 = .ok ∧ Books lost (link.deliver pbuf).2) ∨
      ((link.deliver pbuf).1 ≠ .ok ∧ Books (lost + pbuf.totalLen) (link.deliver pbuf).2) := by
  have hframe := frame_deliver link pbuf
  have hcredited : (link.deliver pbuf).2.credited = link.credited := by
    rw [credited, hframe.calls, credited]
  rcases deliver_cases pbuf hhooks with ⟨hok, -, -, hqueue⟩ | ⟨hno, hqueue⟩
  · refine .inl ⟨hok, hframe.connPcb.trans h.pcb, ?_⟩
    have htotal := h.total
    simp only [underway, pcb_deliver, pending_deliver, seen_deliver, hqueue, hcredited,
      List.reduceOption_append, List.reduceOption_singleton, totalLens_append,
      Option.toList_some, totalLens_cons, totalLens_nil] at htotal ⊢
    omega
  · refine .inr ⟨hno, h.of_eq hframe.connPcb hcredited ?_ seen_deliver⟩
    simp only [underway, pcb_deliver, pending_deliver, hqueue]

/-- lwIP keeps a packet that was refused. -/
theorem Books.refuse (h : Books (lost + pbuf.totalLen) link) (hnone : link.pcb.refused = none) :
    Books lost { link with pcb := { link.pcb with refused := some pbuf } } := by
  have htotal := h.total
  refine ⟨h.pcb, ?_⟩
  simp only [underway, hnone, credited, Option.toList_some, Option.toList_none, totalLens_append,
    totalLens_cons, totalLens_nil] at htotal ⊢
  omega

theorem deliver_of_room (hattached : link.Attached) (hroom : link.conn.channel.isFull = false) :
    (link.deliver pbuf).1 = .ok := by
  cases hsend : link.conn.channel.trySend (some pbuf) with
  | none =>
      rw [Channel.trySend_eq_none_iff, hroom] at hsend
      cases hsend
  | some channel =>
      simp [Link.deliver, hattached.recvFn, Link.arg, hattached.arg, TcpConnection.recv, hsend]

theorem pcb_signalEnd : link.signalEnd.pcb = link.pcb := by
  unfold signalEnd
  split <;> rfl

theorem pending_signalEnd : link.signalEnd.pending = link.pending := by
  unfold signalEnd
  split <;> rfl

/-- The end of the stream carries no bytes. -/
theorem underway_signalEnd : link.signalEnd.underway = link.underway := by
  cases hfn : link.pcb.recvFn with
  | null => rw [signalEnd, hfn]
  | holdRecv =>
      rw [signalEnd, hfn]
      rfl
  | recv =>
      cases harg : link.pcb.arg with
      | false => simp [signalEnd, hfn, Link.arg, harg, TcpConnection.recv, underway]
      | true =>
          simp [signalEnd, hfn, Link.arg, harg, TcpConnection.recv, underway,
            reduceOption_offer_none]

theorem Books.signalEnd (h : Books lost link) : Books lost link.signalEnd := by
  have hframe := frame_signalEnd link
  refine h.of_eq hframe.connPcb ?_ (congrArg totalLens underway_signalEnd) ?_
  · rw [credited, hframe.calls, credited]
  · unfold Link.signalEnd
    split <;> rfl

theorem pending_processRefusedData : link.processRefusedData.pending = link.pending := by
  simp only [Link.processRefusedData]
  split
  · rfl
  · split
    · split
      · exact pending_signalEnd.trans pending_deliver
      · exact pending_deliver
    · exact pending_deliver

theorem Books.processRefusedData (h : Books lost link) (hhooks : link.Attached ∨ link.Holding) :
    Books lost link.processRefusedData := by
  cases hrefused : link.pcb.refused with
  | none =>
      rw [Link.processRefusedData, hrefused]
      exact h
  | some pbuf =>
      have hhand : Books (lost + pbuf.totalLen)
          { link with pcb := { link.pcb with refused := none } } := by
        have htotal := h.total
        refine ⟨h.pcb, ?_⟩
        simp only [underway, hrefused, credited, Option.toList_some, Option.toList_none,
          totalLens_append, totalLens_cons, totalLens_nil] at htotal ⊢
        omega
      have hhooks' : { link with pcb := { link.pcb with refused := none } }.Attached ∨
          { link with pcb := { link.pcb with refused := none } }.Holding :=
        hooks_of_eq hhooks rfl rfl rfl
      simp only [Link.processRefusedData, hrefused]
      rcases hhand.deliver hhooks' with ⟨hok, hafter⟩ | ⟨hno, hafter⟩
      · simp only [hok, if_true]
        split
        · exact Books.signalEnd (hafter.of_eq rfl rfl rfl rfl)
        · exact hafter
      · simp only [hno, if_false]
        exact hafter.refuse (by rw [pcb_deliver])

/-- A replay leaves nothing refused exactly if there is nothing to take or it can be taken. -/
theorem refused_processRefusedData_iff (hhooks : link.Attached ∨ link.Holding) :
    link.processRefusedData.pcb.refused = none ↔ link.TakesRefused := by
  cases hrefused : link.pcb.refused with
  | none => simp [Link.processRefusedData, TakesRefused, hrefused]
  | some pbuf =>
      have hhooks' : { link with pcb := { link.pcb with refused := none } }.Attached ∨
          { link with pcb := { link.pcb with refused := none } }.Holding :=
        hooks_of_eq hhooks rfl rfl rfl
      simp only [Link.processRefusedData, hrefused, TakesRefused, reduceCtorEq, false_or]
      rcases deliver_cases pbuf hhooks' with ⟨hok, hroom, hattached, -⟩ | ⟨hno, -⟩
      · have htakes : link.Attached ∧ link.conn.channel.isFull = false :=
          ⟨⟨hattached.recvFn, hattached.errFn, hattached.arg⟩, hroom⟩
        simp only [hok, if_true, htakes, and_self, iff_true]
        split
        · rw [pcb_signalEnd]
          simp only [pcb_deliver]
        · rw [pcb_deliver]
      · simp only [hno, if_false, reduceCtorEq, false_iff]
        rintro ⟨hattached, hroom⟩
        exact hno (deliver_of_room ⟨hattached.recvFn, hattached.errFn, hattached.arg⟩ hroom)

theorem Books.input (h : Books lost link) (hhooks : link.Attached ∨ link.Holding)
    (hnone : link.pcb.refused = none) (pbuf : Pbuf) : Books lost (link.input pbuf) := by
  have hhand : Books (lost + pbuf.totalLen) { link with seen := link.seen ++ [pbuf] } := by
    have htotal := h.total
    refine ⟨h.pcb, ?_⟩
    simp only [underway, credited, totalLens_append, totalLens_cons, totalLens_nil] at htotal ⊢
    omega
  have hhooks' : { link with seen := link.seen ++ [pbuf] }.Attached ∨
      { link with seen := link.seen ++ [pbuf] }.Holding :=
    hooks_of_eq hhooks rfl rfl rfl
  simp only [Link.input]
  rcases hhand.deliver hhooks' with ⟨hok, hafter⟩ | ⟨hno, hafter⟩
  · simp only [hok, if_true]
    exact hafter
  · simp only [hno, if_false]
    exact hafter.refuse (by rw [pcb_deliver, hnone])

theorem Books.inputFin (h : Books lost link) : Books lost link.inputFin := by
  simp only [Link.inputFin]
  split
  · exact h.of_eq rfl rfl rfl rfl
  · exact Books.signalEnd (h.of_eq rfl rfl rfl rfl)

/-! ## The worker -/

theorem Books.register (h : Books lost link) : Books lost link.register := by
  have hcalled : Books lost
      (((((link.call .arg).call .recv).call .err).call .sent).call .hasRefusedData) :=
    ((((h.call rfl).call rfl).call rfl).call rfl).call rfl
  exact hcalled.of_eq rfl rfl rfl rfl

theorem Books.attachCallbacks (h : Books lost link) : Books lost link.attachCallbacks := by
  simp only [Link.attachCallbacks]
  split
  · split
    · exact (h.register.call rfl).processRefusedData (.inl ⟨rfl, rfl, rfl⟩)
    · exact h.register
  · exact h

theorem Books.receive (h : Books lost link) (hpending : link.pending = none)
    (hreceive : link.receive = some after) : Books lost after := by
  obtain ⟨⟨item, channel⟩, htake, rfl⟩ := Option.map_eq_some_iff.mp hreceive
  have hqueue := Channel.queue_of_tryReceive htake
  refine h.of_eq ?_ ?_ ?_ ?_
  · cases item <;> rfl
  · cases item <;> rfl
  · cases item with
    | none => simp [underway, hqueue, hpending]
    | some pbuf =>
        simp only [underway, hqueue, hpending, Option.toList_some, Option.toList_none,
          List.reduceOption_cons_of_some, totalLens_append, totalLens_cons, totalLens_nil]
        omega
  · cases item <;> rfl

/-- What is lost by a step. -/
def skipped (link : Link capacity) : Event → ℕ
  | .credit posted => if posted then 0 else totalLens link.pending.toList
  | _ => 0

theorem skipped_eq_zero_iff (event : Event) : link.skipped event = 0 ↔ link.Credits event := by
  cases event with
  | credit posted => cases posted <;> simp [skipped, Credits]
  | _ => simp [skipped, Credits]

theorem Books.credit (h : Books lost link) (posted : Bool) (hpending : link.pending = some pbuf) :
    Books (lost + link.skipped (.credit posted)) (link.credit posted pbuf) := by
  have htotal := h.total
  cases posted with
  | true =>
      have hcredited := link.credited_call (.recved pbuf.totalLen)
      refine ⟨?_, ?_⟩ <;> simp only [Link.credit, h.pcb, Bool.and_self, if_true]
      · exact h.pcb
      · simp only [underway, credited, Link.call, TcpCall.window, hpending, skipped, if_true,
          Option.toList_some, Option.toList_none, totalLens_append, totalLens_cons,
          totalLens_nil] at htotal hcredited ⊢
        omega
  | false =>
      refine ⟨h.pcb, ?_⟩
      simp only [Link.credit, underway, credited, hpending, skipped, Bool.false_and,
        Bool.false_eq_true, if_false, Option.toList_some, Option.toList_none, totalLens_append,
        totalLens_cons, totalLens_nil] at htotal ⊢
      omega

theorem Books.response (h : Books lost link) (bytes : List UInt8) (posted : Bool) (writeErr : Err) :
    Books lost (link.response bytes posted writeErr) := by
  simp only [Link.response]
  split
  · split
    · exact (h.call rfl).call rfl
    · exact h.call rfl
  · exact h

/-! ## Runs -/

theorem pcbFreed_attachCallbacks : link.attachCallbacks.pcb.freed = link.pcb.freed := by
  simp only [attachCallbacks]
  split
  · split
    · exact (frame_processRefusedData _).pcbFreed
    · rfl
  · rfl

/-- A pcb that is live after a step was live before it. -/
theorem Live.of_step {event : Event} (hlive : after.Live) (hstep : link.step event = some after) :
    link.Live := by
  cases steps_of_step hstep with
  | data hbefore _ _ _ => exact hbefore
  | fin hbefore _ => exact hbefore
  | retry hbefore _ => exact hbefore
  | fatal hbefore => exact hbefore
  | take hqueued => exact ⟨hlive.1, by simp [hqueued]⟩
  | unattached htaken => exact ⟨hlive.1, by simp [htaken]⟩
  | attached htaken => exact ⟨pcbFreed_attachCallbacks.symm.trans hlive.1, by simp [htaken]⟩
  | receive hidle hreceive =>
      obtain ⟨⟨item, channel⟩, -, rfl⟩ := Option.map_eq_some_iff.mp hreceive
      refine ⟨?_, by simp [hidle.1]⟩
      cases item <;> exact hlive.1
  | credit hserving _ =>
      refine ⟨?_, by simp [hserving]⟩
      have hfreed := hlive.1
      simp only [Link.credit] at hfreed
      split at hfreed <;> exact hfreed
  | respond hidle =>
      refine ⟨?_, by simp [hidle.1]⟩
      have hfreed := hlive.1
      simp only [Link.response] at hfreed
      split at hfreed
      · split at hfreed <;> exact hfreed
      · exact hfreed
  | release _ => exact hlive
  | drop _ _ => exact absurd rfl hlive.2

theorem pcbFreed_fatalError : link.fatalError.pcb.freed = true := by
  simp only [fatalError]
  split <;> rfl

/-- While the pcb is live, a step loses what it skips and nothing else. -/
theorem Books.step (h : Books lost link) (hwired : link.Wired) (hlive : after.Live) {event : Event}
    (hstep : link.step event = some after) : Books (lost + link.skipped event) after := by
  have hooks := hwired.hooks (hlive.of_step hstep).2
  cases steps_of_step hstep with
  | data _ hnone _ _ => exact h.input hooks hnone _
  | fin _ _ => exact h.inputFin
  | retry _ _ => exact h.processRefusedData hooks
  | fatal _ => cases pcbFreed_fatalError.symm.trans hlive.1
  | take _ => exact h.of_eq rfl rfl rfl rfl
  | unattached _ => exact h.of_eq rfl rfl rfl rfl
  | attached _ => exact h.attachCallbacks.of_eq rfl rfl rfl rfl
  | receive hidle hreceive => exact h.receive hidle.2 hreceive
  | credit _ hpending => exact h.credit _ hpending
  | respond _ => exact h.response _ _ _
  | release _ => exact h.of_eq rfl rfl rfl rfl
  | drop _ _ => exact absurd rfl hlive.2

theorem Live.of_run {events : List Event} (hlive : after.Live)
    (hrun : runIf Link.step Unrestricted link events = some after) : link.Live := by
  induction events generalizing link with
  | nil =>
      obtain rfl : link = after := Option.some.inj hrun
      exact hlive
  | cons event events ih =>
      obtain ⟨-, next, hnext, hrest⟩ := runIf_cons.mp hrun
      exact (ih hrest).of_step hnext

/-- Over a run nothing more is lost exactly if every packet handed out is credited. -/
theorem Books.run (h : Books lost link) (hwired : link.Wired) {events : List Event}
    (hlive : after.Live) (hrun : runIf Link.step Unrestricted link events = some after) :
    after.Wired ∧ ∃ more, Books (lost + more) after ∧
      (more = 0 ↔ runIf Link.step Credits link events = some after) := by
  induction events generalizing link lost with
  | nil =>
      obtain rfl : link = after := Option.some.inj hrun
      exact ⟨hwired, 0, h, by simp [runIf]⟩
  | cons event events ih =>
      obtain ⟨-, next, hnext, hrest⟩ := runIf_cons.mp hrun
      obtain ⟨hafter, more, hbooks, hmore⟩ :=
        ih (h.step hwired (hlive.of_run hrest) hnext) (hwired.step hnext) hrest
      refine ⟨hafter, link.skipped event + more, by rwa [← Nat.add_assoc], ?_⟩
      rw [Nat.add_eq_zero_iff, skipped_eq_zero_iff, hmore, runIf_cons]
      constructor
      · rintro ⟨hcredits, hothers⟩
        exact ⟨hcredits, next, hnext, hothers⟩
      · rintro ⟨hcredits, other, hother, hothers⟩
        obtain rfl := Option.some.inj (hother.symm.trans hnext)
        exact ⟨hcredits, hothers⟩

/-! ## The drop -/

theorem Books.lastChance (h : Books lost link) (hhooks : link.Attached ∨ link.Holding) :
    Books lost link.lastChance := by
  simp only [Link.lastChance]
  split
  · exact ((h.call rfl).call rfl).processRefusedData (hooks_of_eq hhooks rfl rfl rfl)
  · exact h.call rfl

/-- A call changes nothing about who takes what is refused. -/
theorem takesRefused_call (tcpCall : TcpCall) :
    (link.call tcpCall).TakesRefused ↔ link.TakesRefused := by
  have hattached : (link.call tcpCall).Attached ↔ link.Attached :=
    ⟨fun h ↦ ⟨h.recvFn, h.errFn, h.arg⟩, fun h ↦ ⟨h.recvFn, h.errFn, h.arg⟩⟩
  exact or_congr Iff.rfl (and_congr_left' hattached)

theorem refused_lastChance_iff (hhooks : link.Attached ∨ link.Holding) :
    link.lastChance.pcb.refused = none ↔ link.TakesRefused := by
  simp only [Link.lastChance]
  split
  next hsome =>
    have hasked : ((link.call .hasRefusedData).call .processRefusedData).Attached ∨
        ((link.call .hasRefusedData).call .processRefusedData).Holding :=
      hooks_of_eq hhooks rfl rfl rfl
    rw [refused_processRefusedData_iff hasked, takesRefused_call, takesRefused_call]
  next hnone =>
    have hnone : link.pcb.refused = none := by simpa [Link.call] using hnone
    simp [Link.call, TakesRefused, hnone]

/-- The drain credits what is queued. -/
theorem credited_closing :
    link.closing.credited =
      link.lastChance.credited + totalLens link.lastChance.conn.channel.queue.reduceOption := by
  simp only [closing, detach, drain, call, credited, List.map_append, List.map_map, List.sum_append]
  simp [TcpCall.window, totalLens, Function.comp_def]

theorem pending_lastChance : link.lastChance.pending = link.pending := by
  simp only [Link.lastChance]
  split
  · exact pending_processRefusedData
  · rfl

/-- What the drop finds at `tcp_close`: the books as they were, less what was still queued. -/
theorem restored_iff_of_books (h : Books lost link) (hhooks : link.Attached ∨ link.Holding)
    (hpending : link.pending = none) : link.Restored ↔ lost = 0 ∧ link.TakesRefused := by
  have htotal := (h.lastChance hhooks).total
  have hseen : link.closing.seen = link.lastChance.seen := rfl
  have hrefused : link.closing.pcb.refused = link.lastChance.pcb.refused := rfl
  have hqueue : link.closing.conn.channel.queue = [] := rfl
  rw [Restored, credited_closing, hseen, hrefused, ← refused_lastChance_iff hhooks]
  simp only [underway, pending_lastChance, hpending, hqueue, Option.toList_none,
    List.append_nil, totalLens_append, and_true] at htotal ⊢
  cases hkept : link.lastChance.pcb.refused with
  | none =>
      simp only [hkept, Option.toList_none, totalLens_nil] at htotal
      simp only [and_true]
      omega
  | some pbuf => simp

/-- In every run at whose end the worker drops the connection with a live pcb, the receive window
is restored exactly if every packet handed out was credited and the drop could take over what was
refused, where packets keep the lengths with which they arrived. -/
theorem restored_iff {capacity : ℕ} {events : List Event} {link : Link capacity}
    (hrun : runIf Link.step Unrestricted accepted events = some link)
    (hlive : link.pcb.freed = false) (hidle : link.Idle) :
    link.Restored ↔
      runIf Link.step Credits accepted events = some link ∧ link.TakesRefused := by
  have hstage : link.stage ≠ .dropped := by simp [hidle.1]
  obtain ⟨hwired, more, hbooks, hmore⟩ := books_accepted.run wired_accepted ⟨hlive, hstage⟩ hrun
  rw [← hmore, ← Nat.zero_add more]
  exact restored_iff_of_books hbooks (hwired.hooks hstage) hidle.2

/-- A packet is refused until the callbacks are attached, and then handed out; a second one waits in
the channel, where the drop credits it. -/
def drained : List Event :=
  [.data ⟨0, [[0]]⟩, .take, .retry, .attach true, .data ⟨1, [[1], [2]]⟩, .receive, .credit true,
    .release ⟨0, [[0]]⟩]

theorem restored_after_drained :
    ∃ link : Link 12, runIf Link.step Unrestricted accepted drained = some link ∧
      link.conn.channel.queue = [some ⟨1, [[1], [2]]⟩] ∧ link.Restored := by
  obtain ⟨link, hcredits, hqueue, hlive, hidle, hnone⟩ :=
    exists_of_runIf Link.step Credits (accepted : Link 12) drained
      (fun link ↦ link.conn.channel.queue = [some ⟨1, [[1], [2]]⟩] ∧ link.pcb.freed = false ∧
        link.Idle ∧ link.pcb.refused = none) (by decide +kernel)
  have hrun := runIf_imp (fun _ _ _ ↦ trivial) hcredits
  exact ⟨link, hrun, hqueue, (restored_iff hrun hlive hidle).mpr ⟨hcredits, .inl hnone⟩⟩

/-- Twelve packets fill the channel and a thirteenth is refused. -/
def crowded : List Event :=
  [.take, .attach true] ++ (List.range 13).map fun id ↦ .data ⟨id, [[0]]⟩

/-- The connection is dropped at the end of the run and the window is not restored. -/
def Unrestored (events : List Event) : Prop :=
  ∃ link : Link 12, runIf Link.step Unrestricted accepted events = some link ∧
    link.pcb.freed = false ∧ (link.step (.drop .ok)).isSome ∧ ¬ link.Restored

theorem unrestored_of_runIf {events : List Event}
    (h : (runIf Link.step Unrestricted (accepted : Link 12) events).any (fun link ↦
      decide (link.pcb.freed = false ∧ (link.step (.drop .ok)).isSome ∧ ¬ link.Restored)) = true) :
    Unrestored events :=
  exists_of_runIf Link.step Unrestricted accepted events _ h

/-- The connection is dropped with the channel full, without ever having been attached, or after
a packet was handed out without credit. -/
theorem not_restored_at_drop :
    Unrestored crowded ∧ Unrestored [.take, .data ⟨0, [[0]]⟩, .attach false] ∧
      Unrestored [.take, .attach true, .data ⟨0, [[0]]⟩, .receive, .credit false,
        .release ⟨0, [[0]]⟩] := by
  refine ⟨?_, ?_, ?_⟩ <;> exact unrestored_of_runIf (by decide +kernel)

end Link

end Derusting.Lwip
