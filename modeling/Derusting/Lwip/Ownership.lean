import Derusting.Lwip.Tcp
import Mathlib.Data.List.ReduceOption

/-!
# One owner for every packet buffer

A buffer that lwIP has passed up is at any time in exactly one place: refused and kept by lwIP, in
the channel, taken by `receive`, held by the worker, or freed.  Each step moves buffers between
these places, so that the list of all of them only changes by a permutation and the buffers that
arrive.

This fails when `_recv` meets a full channel: the packet inside the failed `try_send` is dropped,
and with it the buffer freed, although the code returned makes lwIP keep it as refused data.
`FindsRoom` excludes these deliveries.
-/

namespace Derusting.Lwip

open Foundations.Bounded Foundations.Transition
open scoped List

/-- The callback reports `Ok` exactly when it has kept the buffer, has not freed a buffer it
reports as refused, and was not given a buffer that had been freed. -/
def Delivery.Sound (delivery : Delivery) : Prop :=
  (delivery.result = .ok ↔ delivery.taken = true) ∧
    (delivery.result ≠ .ok → delivery.freed = false) ∧ delivery.late = false

instance (delivery : Delivery) : Decidable delivery.Sound :=
  inferInstanceAs (Decidable (_ ∧ _))

/-- A block in the middle can be taken out to the front. -/
theorem perm_append_middle (left middle block right : List Pbuf) :
    left ++ ((middle ++ block) ++ right) ~ block ++ (left ++ (middle ++ right)) := by
  calc
    left ++ ((middle ++ block) ++ right) = (left ++ middle) ++ block ++ right := by
      simp only [List.append_assoc]
    _ ~ block ++ (left ++ middle) ++ right := List.perm_append_comm.append_right right
    _ = block ++ (left ++ (middle ++ right)) := by simp only [List.append_assoc]

namespace Link

variable {capacity : ℕ} {link after : Link capacity} {pbuf : Pbuf} {extra : List Pbuf}

/-- Every delivery was sound, and no buffer has been freed twice. -/
def SoleOwner (link : Link capacity) : Prop :=
  (∀ delivery ∈ link.deliveries, delivery.Sound) ∧ link.freed.Nodup

instance (link : Link capacity) : Decidable link.SoleOwner :=
  inferInstanceAs (Decidable (_ ∧ _))

/-- A delivery to `_recv` would find a free slot. -/
def Ready (link : Link capacity) : Prop :=
  link.pcb.recvFn = .recv → link.conn.channel.isFull = false

instance (link : Link capacity) : Decidable link.Ready := inferInstanceAs (Decidable (_ → _))

/-- Every step that delivers a buffer to `_recv` finds a free slot in the channel. -/
def FindsRoom (link : Link capacity) : Event → Prop
  | .data _ => link.Ready
  | .retry => link.Ready
  | .attach true => link.pcb.refused ≠ none → link.conn.channel.isFull = false
  | .drop _ => link.pcb.refused ≠ none → link.Ready
  | _ => True

instance (link : Link capacity) : (event : Event) → Decidable (link.FindsRoom event)
  | .data _ | .retry => inferInstanceAs (Decidable link.Ready)
  | .attach true => inferInstanceAs (Decidable (link.pcb.refused ≠ none → _))
  | .drop _ => inferInstanceAs (Decidable (link.pcb.refused ≠ none → _))
  | .attach false | .fin | .fatal | .take | .receive | .credit _ | .respond _ _ _ | .release _ =>
      inferInstanceAs (Decidable True)

/-! ## The places of a buffer -/

/-- All buffers passed up so far, place by place. -/
def owners (link : Link capacity) : List Pbuf :=
  link.pcb.refused.toList ++ (link.conn.channel.queue.reduceOption ++
    (link.pending.toList ++ (link.held ++ link.freed)))

/-- Every buffer has one place, where lwIP itself has the buffers `extra` in hand. -/
structure Carries (extra : List Pbuf) (link : Link capacity) : Prop where
  nodup : (extra ++ link.owners).Nodup
  mem_seen : ∀ pbuf ∈ extra ++ link.owners, pbuf ∈ link.seen
  arg : link.pcb.recvFn = .recv → link.pcb.arg = true
  sound : ∀ delivery ∈ link.deliveries, delivery.Sound

theorem Carries.notMem_freed (h : Carries (pbuf :: extra) link) : pbuf ∉ link.freed := by
  intro hmem
  have hnodup := h.nodup
  rw [List.cons_append, List.nodup_cons] at hnodup
  apply hnodup.1
  simp [owners, hmem]

theorem Carries.soleOwner (h : Carries extra link) : link.SoleOwner := by
  refine ⟨h.sound, ?_⟩
  have hnodup := h.nodup
  simp only [owners, ← List.append_assoc] at hnodup
  exact hnodup.of_append_right

/-- Moving buffers between places keeps them apart. -/
theorem Carries.of_perm {moved : List Pbuf} (h : Carries extra link)
    (hperm : (moved ++ after.owners).Perm (extra ++ link.owners)) (hseen : after.seen = link.seen)
    (hdeliveries : after.deliveries = link.deliveries)
    (harg : after.pcb.recvFn = .recv → after.pcb.arg = true) : Carries moved after where
  nodup := hperm.nodup_iff.mpr h.nodup
  mem_seen := by
    intro pbuf hmem
    rw [hseen]
    exact h.mem_seen pbuf (hperm.mem_iff.mp hmem)
  arg := harg
  sound := by
    rw [hdeliveries]
    exact h.sound

theorem carries_accepted : Carries [] (accepted : Link capacity) where
  nodup := List.nodup_nil
  mem_seen := by simp [owners, accepted, TcpConnection.new]
  arg := by simp [accepted]
  sound := by simp [accepted]

/-! ## Callbacks -/

/-- Everything a delivery can do when it finds room. -/
inductive Delivers (link : Link capacity) (pbuf : Pbuf) : Err × Link capacity → Prop
  | held : Delivers link pbuf (.mem, { link with
      deliveries := link.deliveries ++ [⟨pbuf, .mem, false, false, decide (pbuf ∈ link.freed)⟩] })
  | queued {channel : Channel (Option Pbuf) capacity}
      (hqueue : channel.queue = link.conn.channel.queue ++ [some pbuf]) :
      Delivers link pbuf (.ok, { link with
        conn := { link.conn with channel := channel }
        deliveries := link.deliveries ++ [⟨pbuf, .ok, true, false, decide (pbuf ∈ link.freed)⟩] })

theorem delivers_deliver (hnull : link.pcb.recvFn ≠ .null)
    (harg : link.pcb.recvFn = .recv → link.pcb.arg = true) (hready : link.Ready) :
    Delivers link pbuf (link.deliver pbuf) := by
  cases hfn : link.pcb.recvFn with
  | null => exact absurd hfn hnull
  | holdRecv =>
      simp only [deliver, hfn]
      exact .held
  | recv =>
      cases hsend : link.conn.channel.trySend (some pbuf) with
      | none =>
          rw [Channel.trySend_eq_none_iff, hready hfn] at hsend
          cases hsend
      | some channel =>
          have hqueue := Channel.queue_of_trySend hsend
          have hmem : some pbuf ∈ channel.queue := by simp [hqueue]
          simp only [deliver, hfn, Link.arg, harg hfn, if_true, TcpConnection.recv, hsend,
            Option.getD_some, hmem, decide_true, List.append_nil, List.not_mem_nil, decide_false]
          exact .queued hqueue

/-- A buffer that finds room is either taken over or left to lwIP. -/
theorem Carries.deliver (h : Carries [pbuf] link) (hnull : link.pcb.recvFn ≠ .null)
    (hready : link.Ready) :
    ((link.deliver pbuf).1 = .ok ∧ Carries [] (link.deliver pbuf).2) ∨
      ((link.deliver pbuf).1 ≠ .ok ∧ Carries [pbuf] (link.deliver pbuf).2) := by
  have hlate := h.notMem_freed
  have hspec : Delivers link pbuf (link.deliver pbuf) :=
    delivers_deliver hnull h.arg hready
  generalize link.deliver pbuf = outcome at hspec
  cases hspec with
  | held =>
      refine .inr ⟨by simp, h.nodup, h.mem_seen, h.arg, ?_⟩
      intro delivery hmem
      rcases List.mem_append.mp hmem with hold | hnew
      · exact h.sound delivery hold
      · rw [List.mem_singleton.mp hnew]
        simp [Delivery.Sound, hlate]
  | @queued channel hqueue =>
      have hperm : (link.pcb.refused.toList ++ (channel.queue.reduceOption ++
          (link.pending.toList ++ (link.held ++ link.freed)))).Perm ([pbuf] ++ link.owners) := by
        rw [hqueue, List.reduceOption_append]
        exact perm_append_middle _ _ [pbuf] _
      refine .inl ⟨rfl, hperm.nodup_iff.mpr h.nodup, ?_, h.arg, ?_⟩
      · intro other hmem
        exact h.mem_seen other (hperm.mem_iff.mp hmem)
      · intro delivery hmem
        rcases List.mem_append.mp hmem with hold | hnew
        · exact h.sound delivery hold
        · rw [List.mem_singleton.mp hnew]
          simp [Delivery.Sound, hlate]

/-- The end of the stream moves no buffer. -/
theorem reduceOption_offer_none (conn : TcpConnection capacity) :
    (conn.offer none).channel.queue.reduceOption = conn.channel.queue.reduceOption := by
  rw [TcpConnection.offer]
  cases hsend : conn.channel.trySend none with
  | none => rfl
  | some channel =>
      rw [Option.getD_some, Channel.queue_of_trySend hsend, List.reduceOption_append]
      simp

theorem Carries.signalEnd (h : Carries extra link) : Carries extra link.signalEnd := by
  cases hfn : link.pcb.recvFn with
  | null =>
      rw [Link.signalEnd, hfn]
      exact h
  | holdRecv =>
      rw [Link.signalEnd, hfn]
      exact h.of_perm (List.Perm.refl _) rfl rfl h.arg
  | recv =>
      have howners : link.signalEnd.owners = link.owners := by
        simp only [Link.signalEnd, hfn, Link.arg, h.arg hfn, if_true, TcpConnection.recv,
          Option.getD_some, owners, reduceOption_offer_none]
      refine h.of_perm (by rw [howners]) ?_ ?_ ?_ <;>
        simp only [Link.signalEnd, hfn]
      exact fun _ ↦ h.arg hfn

/-- lwIP keeps a buffer that was refused. -/
theorem Carries.refuse (h : Carries [pbuf] link) (hnone : link.pcb.refused = none) :
    Carries [] { link with pcb := { link.pcb with refused := some pbuf } } := by
  refine h.of_perm ?_ rfl rfl h.arg
  simp [owners, hnone]

theorem Carries.processRefusedData (h : Carries [] link) (hnull : link.pcb.recvFn ≠ .null)
    (hready : link.pcb.refused ≠ none → link.Ready) : Carries [] link.processRefusedData := by
  cases hrefused : link.pcb.refused with
  | none =>
      rw [Link.processRefusedData, hrefused]
      exact h
  | some pbuf =>
      have hhand : Carries [pbuf] { link with pcb := { link.pcb with refused := none } } := by
        refine h.of_perm ?_ rfl rfl h.arg
        simp [owners, hrefused]
      simp only [Link.processRefusedData, hrefused]
      rcases hhand.deliver hnull (hready (by simp [hrefused])) with ⟨hok, hafter⟩ | ⟨hno, hafter⟩
      · simp only [hok, if_true]
        split
        · apply Carries.signalEnd
          exact hafter.of_perm (List.Perm.refl _) rfl rfl hafter.arg
        · exact hafter
      · simp only [hno, if_false]
        exact hafter.refuse (by rw [pcb_deliver])

theorem Carries.input (h : Carries [] link) (hnull : link.pcb.recvFn ≠ .null)
    (hready : link.Ready) (hnone : link.pcb.refused = none) (hnew : pbuf ∉ link.seen) :
    Carries [] (link.input pbuf) := by
  have hhand : Carries [pbuf] { link with seen := link.seen ++ [pbuf] } := by
    refine ⟨?_, ?_, h.arg, h.sound⟩
    · exact List.nodup_cons.mpr ⟨fun hmem ↦ hnew (h.mem_seen pbuf hmem), h.nodup⟩
    · intro other hmem
      rcases List.mem_cons.mp hmem with rfl | hold
      · exact List.mem_append_right _ (List.mem_singleton_self _)
      · exact List.mem_append_left _ (h.mem_seen other hold)
  simp only [Link.input]
  rcases hhand.deliver hnull hready with ⟨hok, hafter⟩ | ⟨hno, hafter⟩
  · simpa only [hok, if_true] using hafter
  · simp only [hno, if_false]
    exact hafter.refuse (by rw [pcb_deliver]; exact hnone)

theorem Carries.inputFin (h : Carries [] link) : Carries [] link.inputFin := by
  have hgot : Carries [] { link with pcb := { link.pcb with gotFin := true } } :=
    h.of_perm (List.Perm.refl _) rfl rfl h.arg
  simp only [Link.inputFin]
  split
  · exact hgot.of_perm (List.Perm.refl _) rfl rfl hgot.arg
  · exact hgot.signalEnd

/-- Purging frees what lwIP had kept. -/
theorem Carries.purge (h : Carries [] link) : Carries [] link.purge := by
  refine h.of_perm ?_ rfl rfl h.arg
  rw [List.nil_append, List.nil_append]
  calc
    link.purge.owners = (link.conn.channel.queue.reduceOption ++
        (link.pending.toList ++ (link.held ++ link.freed))) ++ link.pcb.refused.toList := by
      simp only [owners, Link.purge, Option.toList_none, List.nil_append, List.append_assoc]
    _ ~ link.owners := List.perm_append_comm

theorem Carries.fatalError (h : Carries [] link) : Carries [] link.fatalError := by
  simp only [Link.fatalError]
  split
  · refine h.purge.of_perm ?_ rfl rfl h.purge.arg
    cases harg : link.pcb.arg with
    | false => simp [Link.arg, Link.purge, harg, TcpConnection.err, owners]
    | true =>
        simp only [Link.arg, Link.purge, harg, if_true, TcpConnection.err, Option.map_some,
          Option.getD_some, owners, reduceOption_offer_none]
        exact List.Perm.refl _
  · exact h.purge

/-! ## The worker -/

theorem Carries.call (h : Carries extra link) (tcpCall : TcpCall) :
    Carries extra (link.call tcpCall) :=
  h.of_perm (List.Perm.refl _) rfl rfl h.arg


theorem Carries.attachCallbacks (h : Carries [] link)
    (hroom : link.pcb.refused ≠ none → link.conn.channel.isFull = false) :
    Carries [] link.attachCallbacks := by
  simp only [Link.attachCallbacks]
  split
  · have hregistered : Carries [] link.register :=
      h.of_perm (List.Perm.refl _) rfl rfl fun _ ↦ rfl
    split
    · exact (hregistered.call _).processRefusedData (by simp [Link.register, Link.call])
        fun hsome _ ↦ hroom hsome
    · exact hregistered
  · exact h

theorem Carries.receive (h : Carries [] link) (hpending : link.pending = none)
    (hreceive : link.receive = some after) : Carries [] after := by
  obtain ⟨⟨item, channel⟩, htake, rfl⟩ := Option.map_eq_some_iff.mp hreceive
  have hqueue := Channel.queue_of_tryReceive htake
  cases item with
  | none =>
      refine h.of_perm ?_ rfl rfl h.arg
      simp [owners, hqueue]
  | some pbuf =>
      refine h.of_perm ?_ rfl rfl h.arg
      simp only [owners, hqueue, hpending, List.reduceOption_cons_of_some, Option.toList_some,
        Option.toList_none, List.nil_append, List.cons_append]
      exact List.perm_middle.append_left _

theorem Carries.credit (h : Carries [] link) (posted : Bool) (hpending : link.pending = some pbuf) :
    Carries [] (link.credit posted pbuf) := by
  have hmoved : Carries [] { link with pending := none, held := link.held ++ [pbuf] } := by
    refine h.of_perm ?_ rfl rfl h.arg
    simp only [owners, hpending, Option.toList_none, Option.toList_some, List.nil_append,
      List.append_assoc, List.singleton_append]
    exact (List.perm_middle.append_left _).append_left _
  simp only [Link.credit]
  split
  · exact hmoved.of_perm (List.Perm.refl _) rfl rfl hmoved.arg
  · exact hmoved

theorem Carries.response (h : Carries [] link) (bytes : List UInt8) (posted : Bool)
    (writeErr : Err) : Carries [] (link.response bytes posted writeErr) := by
  simp only [Link.response]
  split
  · split
    · exact (h.call _).call _
    · exact h.call _
  · exact h

theorem Carries.release (h : Carries [] link) (hheld : pbuf ∈ link.held) :
    Carries [] (link.release pbuf) := by
  refine h.of_perm ?_ rfl rfl h.arg
  have hmoved : link.held.erase pbuf ++ (link.freed ++ [pbuf]) ~ link.held ++ link.freed := by
    calc
      link.held.erase pbuf ++ (link.freed ++ [pbuf]) ~
          link.held.erase pbuf ++ (pbuf :: link.freed) :=
        (List.perm_append_singleton pbuf link.freed).append_left _
      _ ~ pbuf :: link.held.erase pbuf ++ link.freed := List.perm_middle
      _ ~ link.held ++ link.freed := (List.perm_cons_erase hheld).symm.append_right _
  exact ((hmoved.append_left _).append_left _).append_left _

theorem Carries.lastChance (h : Carries [] link) (hnull : link.pcb.recvFn ≠ .null)
    (hready : link.pcb.refused ≠ none → link.Ready) : Carries [] link.lastChance := by
  simp only [Link.lastChance]
  split
  · exact ((h.call _).call _).processRefusedData hnull hready
  · exact h.call _

theorem Carries.detach (h : Carries [] link) : Carries [] link.detach :=
  h.of_perm (List.Perm.refl _) rfl rfl fun hrecv ↦ by cases hrecv

theorem Carries.drain (h : Carries [] link) : Carries [] link.drain := by
  refine h.of_perm ?_ rfl rfl h.arg
  apply List.Perm.append_left link.pcb.refused.toList
  change ([] : List (Option Pbuf)).reduceOption ++ _ ~ _
  calc
    ([] : List (Option Pbuf)).reduceOption ++ (link.pending.toList ++ (link.held ++
        (link.freed ++ link.conn.channel.queue.reduceOption))) =
        (link.pending.toList ++ (link.held ++ link.freed)) ++
          link.conn.channel.queue.reduceOption := by
      simp only [List.reduceOption_nil, List.nil_append, List.append_assoc]
    _ ~ link.conn.channel.queue.reduceOption ++
        (link.pending.toList ++ (link.held ++ link.freed)) := List.perm_append_comm

theorem Carries.close (h : Carries [] link) (closeErr : Err) :
    Carries [] (link.close closeErr) := by
  simp only [Link.close]
  split
  · exact (h.call _).purge
  · exact h.call _

theorem Carries.drop (h : Carries [] link) (hnull : link.pcb.recvFn ≠ .null)
    (hready : link.pcb.refused ≠ none → link.Ready) (closeErr : Err) :
    Carries [] (link.drop closeErr) := by
  have hclear {link : Link capacity} (h : Carries [] link) :
      Carries [] { link with
        conn := ⟨false, .empty⟩
        stage := .dropped
        freed := link.freed ++ link.conn.channel.queue.reduceOption } :=
    h.drain.of_perm (List.Perm.refl _) rfl rfl h.arg
  simp only [Link.drop]
  apply hclear
  split
  · exact (h.lastChance hnull hready).drain.detach.close closeErr
  · exact h

/-! ## Whole runs -/

theorem Carries.step (h : Carries [] link) (hwired : link.Wired) {event : Event}
    (hguard : link.FindsRoom event) (hstep : link.step event = some after) : Carries [] after := by
  have hnull (hstage : link.stage ≠ .dropped) : link.pcb.recvFn ≠ .null := by
    rcases hwired.hooks hstage with hhooks | hhooks <;> simp [hhooks.recvFn]
  cases steps_of_step hstep with
  | data hlive hnone _ hnew => exact h.input (hnull hlive.2) hguard hnone hnew
  | fin _ _ => exact h.inputFin
  | retry hlive _ => exact h.processRefusedData (hnull hlive.2) fun _ ↦ hguard
  | fatal _ => exact h.fatalError
  | take _ => exact h.of_perm (List.Perm.refl _) rfl rfl h.arg
  | unattached _ => exact h.of_perm (List.Perm.refl _) rfl rfl h.arg
  | attached _ =>
      have hattached := h.attachCallbacks hguard
      exact hattached.of_perm (List.Perm.refl _) rfl rfl hattached.arg
  | receive hidle hreceive => exact h.receive hidle.2 hreceive
  | credit _ hpending => exact h.credit _ hpending
  | respond _ => exact h.response _ _ _
  | release hheld => exact h.release hheld
  | drop hidle _ => exact h.drop (hnull (by simp [hidle.1])) hguard _

/-- In every run in which each delivery to `_recv` finds room, buffers have one owner. -/
theorem sole_owner_of_findsRoom {capacity : ℕ} {link : Link capacity}
    (h : Reaches Link.step FindsRoom Link.accepted link) : link.SoleOwner := by
  have hinv : link.Wired ∧ Carries [] link := by
    exact h.invariant (fun link ↦ link.Wired ∧ Carries [] link) ⟨wired_accepted, carries_accepted⟩
      fun _ _ _ hbefore hguard hstep ↦
        ⟨hbefore.1.step hstep, hbefore.2.step hbefore.1 hguard hstep⟩
  exact hinv.2.soleOwner

/-- A channel of two slots that the worker empties in time; the last packet is refused before the
callbacks are attached. -/
def unhurried : List Event :=
  [.data ⟨0, [[1]]⟩, .fin, .take, .attach true, .receive, .credit true, .release ⟨0, [[1]]⟩,
    .receive, .drop .ok]

theorem sole_owner_after_unhurried :
    ∃ link : Link 2, Reaches Link.step FindsRoom Link.accepted link ∧
      link.freed = [⟨0, [[1]]⟩] ∧ link.SoleOwner := by
  obtain ⟨link, hreach, hfreed⟩ := exists_reaches_of_runIf Link.step FindsRoom
    (Link.accepted : Link 2) unhurried (fun link ↦ link.freed = [⟨0, [[1]]⟩]) (by decide +kernel)
  exact ⟨link, hreach, hfreed, sole_owner_of_findsRoom hreach⟩

/-- Two packets for a channel of one slot: the second is freed, delivered again and freed again. -/
def overrun : List Event :=
  [.take, .attach true, .data ⟨0, [[1]]⟩, .data ⟨1, [[2]]⟩, .receive, .credit true, .retry,
    .release ⟨0, [[1]]⟩, .receive, .credit true, .release ⟨1, [[2]]⟩]

/-- A full channel is enough to have a buffer freed that lwIP keeps and delivers again. -/
theorem freed_twice_after_overrun :
    ∃ link : Link 1, Reaches Link.step Unrestricted Link.accepted link ∧ ¬ link.freed.Nodup ∧
      ¬ link.SoleOwner :=
  exists_reaches_of_runIf Link.step Unrestricted (Link.accepted : Link 1) overrun
    (fun link ↦ ¬ link.freed.Nodup ∧ ¬ link.SoleOwner) (by decide +kernel)

end Link

end Derusting.Lwip
