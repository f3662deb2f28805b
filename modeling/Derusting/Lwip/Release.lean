import Derusting.Lwip.Outcome

/-!
# What becomes of the pcb of a `PUT`

`put_file` from beginning to end: `PutRequest::new`, the closure that `send` posts to lwIP's thread,
the callbacks until the task finds the signal and the request is dropped, and the drop.  The pcb is
first a local variable of the closure, then a field that `_err` clears because lwIP has freed the
pcb, and last handed to `tcp_close` by `Drop`.  A pcb that is closed stays with lwIP until the peer
has answered, so `Drop` takes the callback argument off it first.  The run keeps the books on what
lwIP does with it.
-/

namespace Derusting.Lwip

open Foundations.Bounded Foundations.Text Foundations.Transition

/-- The ways in which a pcb is released. -/
inductive Release where
  | closed
  | freed
deriving DecidableEq

/-- A pcb that `tcp_new` has returned: whether its callback argument is the request, and its
releases. -/
structure OutboundPcb where
  arg : Bool
  released : List Release
deriving DecidableEq

/-- What a call of `put_file` meets: whether the job file can be opened, the codes of
`tcpip_callback`, `tcp_connect` and `tcp_close`, whether `tcp_new` returns a pcb, the callbacks
lwIP makes before the request is dropped, and how many of them come before the task finds the
signal. -/
structure PutRun where
  opened : Bool
  posted : Err
  allocated : Bool
  connect : Err
  callbacks : List Transfer.Event
  polled : ℕ
  close : Err

/-- A transfer with its pcb. -/
structure Outbound where
  transfer : Transfer
  pcb : OutboundPcb

namespace PutRequest

theorem pcb_sent (request : PutRequest) (turn : Turn) :
    (request.sent turn).2.1.pcb = request.pcb := by
  have hstaged : (request.refill turn.read).pcb = request.pcb := by
    unfold refill
    dsimp only
    split <;> rfl
  obtain ⟨signal, hsame⟩ := report_request (request.pump turn)
  rw [sent, hsame]
  obtain hidle | ⟨count, -, -, -, ⟨-, hrefused⟩ | ⟨-, rest, -, htaken⟩⟩ := pump_cases request turn
  · rwa [hidle]
  · rwa [hrefused]
  · rwa [htaken]

theorem pcb_connected (uuid : UuidText) (request : PutRequest) (err : Err) (turn : Turn) :
    (request.connected uuid err turn).2.1.pcb = request.pcb := by
  by_cases herr : err = .ok
  · rw [herr, connected_greeting]
    exact pcb_sent _ turn
  · rw [connected_err uuid herr]

end PutRequest

namespace Transfer

/-- A fatal error: lwIP frees the pcb and then calls `_err`. -/
def Event.isFatal : Event → Bool
  | .err _ => true
  | .connected _ _ | .sent _ | .recv _ _ => false

/-- Callbacks are made while the pcb is there, and it stays unless the error is fatal. -/
theorem pcb_step {uuid : UuidText} {transfer after : Transfer} {event : Event}
    (h : transfer.step uuid event = some after) :
    transfer.request.pcb = true ∧ after.request.pcb = !event.isFatal := by
  cases steps_of_step h with
  | connected hpcb _ => exact ⟨hpcb, (PutRequest.pcb_connected uuid _ _ _).trans hpcb⟩
  | sent hpcb _ => exact ⟨hpcb, (PutRequest.pcb_sent _ _).trans hpcb⟩
  | @recv pbuf err hpcb _ =>
      obtain ⟨signal, hsame⟩ := PutRequest.recv_request transfer.request pbuf err
      rw [hsame]
      exact ⟨hpcb, hpcb⟩
  | err hpcb => exact ⟨hpcb, rfl⟩

end Transfer

namespace Outbound

/-- One callback; a fatal one comes after the pcb has been freed. -/
def step (uuid : UuidText) (outbound : Outbound) (event : Transfer.Event) : Option Outbound :=
  (outbound.transfer.step uuid event).map fun transfer ↦
    let pcb := outbound.pcb
    ⟨transfer,
      if event.isFatal then { pcb with released := pcb.released ++ [.freed] } else pcb⟩

/-- `tcp_connect` has succeeded and the pcb is stored. -/
def start (guid : Uuid) (fsize : UInt32) (file : List UInt8) (pcb : OutboundPcb) : Outbound :=
  ⟨.start guid fsize file, pcb⟩

variable {uuid : UuidText} {outbound after : Outbound} {event : Transfer.Event}

/-- The field is cleared exactly if lwIP has freed the pcb. -/
def Booked (outbound : Outbound) : Prop :=
  outbound.pcb = ⟨true, if outbound.transfer.request.pcb then [] else [.freed]⟩

theorem booked_start {guid : Uuid} {fsize : UInt32} {file : List UInt8} :
    (start guid fsize file ⟨true, []⟩).Booked :=
  rfl

theorem Booked.step (h : outbound.Booked) (hstep : outbound.step uuid event = some after) :
    after.Booked := by
  obtain ⟨transfer, htransfer, rfl⟩ := Option.map_eq_some_iff.mp hstep
  obtain ⟨hpcb, hafter⟩ := Transfer.pcb_step htransfer
  unfold Booked at h ⊢
  rw [hpcb, if_pos rfl] at h
  rw [h, hafter]
  cases event.isFatal <;> rfl

/-- After a run of callbacks the field is set if it was before and no callback was fatal. -/
theorem pcb_run {callbacks : List Transfer.Event} {final : Outbound}
    (hrun : runIf (step uuid) Unrestricted outbound callbacks = some final) :
    final.transfer.request.pcb =
      (outbound.transfer.request.pcb && !callbacks.any Transfer.Event.isFatal) := by
  induction callbacks generalizing outbound with
  | nil =>
      obtain rfl : outbound = final := Option.some.inj hrun
      simp
  | cons event callbacks ih =>
      obtain ⟨-, next, hstep, hrest⟩ := runIf_cons.mp hrun
      obtain ⟨transfer, htransfer, rfl⟩ := Option.map_eq_some_iff.mp hstep
      obtain ⟨hpcb, hafter⟩ := Transfer.pcb_step htransfer
      rw [ih hrest, hpcb, hafter, List.any_cons, Bool.not_or, Bool.true_and]

theorem booked_run {callbacks : List Transfer.Event} {final : Outbound} (h : outbound.Booked)
    (hrun : runIf (step uuid) Unrestricted outbound callbacks = some final) : final.Booked :=
  (Reaches.of_runIf hrun).invariant Booked h fun _ _ _ hbefore _ hstep ↦ hbefore.step hstep

end Outbound

/-- `PutRequest::drop`: the callbacks are taken off a pcb that is still there, and it is closed. -/
def PutRequest.drop (request : PutRequest) (close : Err) (pcb : OutboundPcb) : OutboundPcb :=
  if request.pcb then
    let pcb := { pcb with arg := false }
    if close ≠ .ok then pcb else { pcb with released := pcb.released ++ [.closed] }
  else pcb

/-- `put_file`, with what has become of the pcb if there was one; `none` if the callbacks are not
ones lwIP makes or the task goes on waiting. -/
def putFile (uuid : UuidText) (guid : Uuid) (fsize : UInt32) (file : List UInt8) (run : PutRun) :
    Option (Except Err Unit × Option OutboundPcb) :=
  if run.opened = false then some (.error .val, none)
  else if run.posted ≠ .ok then some (.error run.posted, none)
  else if run.allocated = false then some (.error .mem, none)
  else
    let pcb : OutboundPcb := ⟨true, []⟩
    if run.connect = .ok then do
      let outbound ←
        runIf (Outbound.step uuid) Unrestricted (.start guid fsize file pcb) run.callbacks
      let result ←
        Transfer.resultAfter uuid (.start guid fsize file) (run.callbacks.take run.polled)
      some (result, some (outbound.transfer.request.drop run.close outbound.pcb))
    else
      -- the closure returns without storing or closing the pcb
      some (.error run.connect, some ((PutRequest.new guid fsize file).drop run.close pcb))

/-- Every pcb that was obtained has been released once, and lwIP holds none whose callback argument
is the request: it has freed the pcb, or goes on closing it without its callback argument. -/
def Released (fate : Option OutboundPcb) : Prop :=
  ∀ pcb ∈ fate, pcb.released = [.freed] ∨ pcb.released = [.closed] ∧ pcb.arg = false

instance (fate : Option OutboundPcb) : Decidable (Released fate) :=
  inferInstanceAs (Decidable (∀ pcb ∈ fate, _))

namespace PutRun

/-- `tcp_new` is reached and returns a pcb. -/
def Obtains (run : PutRun) : Prop :=
  run.opened = true ∧ run.posted = .ok ∧ run.allocated = true

instance (run : PutRun) : Decidable run.Obtains := inferInstanceAs (Decidable (_ ∧ _))

/-- If a pcb is obtained, `tcp_connect` succeeds, and either a fatal error frees the pcb or
`tcp_close` succeeds. -/
def Orderly (run : PutRun) : Prop :=
  run.Obtains → run.connect = .ok ∧
    (run.callbacks.any Transfer.Event.isFatal = true ∨ run.close = .ok)

instance (run : PutRun) : Decidable run.Orderly := inferInstanceAs (Decidable (_ → _))

end PutRun

section Fate

variable {uuid : UuidText} {guid : Uuid} {fsize : UInt32} {file : List UInt8} {run : PutRun}
  {result : Except Err Unit} {fate : Option OutboundPcb}

/-- Without a pcb there is nothing to release. -/
theorem fate_of_not_obtains (hobtains : ¬ run.Obtains)
    (h : putFile uuid guid fsize file run = some (result, fate)) : fate = none := by
  unfold putFile at h
  split at h
  · exact (Prod.mk.inj (Option.some.inj h)).2.symm
  · split at h
    · exact (Prod.mk.inj (Option.some.inj h)).2.symm
    · split at h
      · exact (Prod.mk.inj (Option.some.inj h)).2.symm
      next hopened hposted hallocated =>
        have hrun : run.Obtains :=
          ⟨Bool.eq_true_of_not_eq_false hopened, not_not.mp hposted,
            Bool.eq_true_of_not_eq_false hallocated⟩
        exact absurd hrun hobtains

/-- A pcb that is not connected stays with the closure that has obtained it. -/
theorem fate_of_not_connected (hobtains : run.Obtains) (hconnect : run.connect ≠ .ok)
    (h : putFile uuid guid fsize file run = some (result, fate)) : fate = some ⟨true, []⟩ := by
  obtain ⟨hopened, hposted, hallocated⟩ := hobtains
  simp only [putFile, hopened, hposted, hallocated, hconnect, Bool.true_eq_false, ne_eq, not_true,
    if_false, Option.some.injEq, Prod.mk.injEq] at h
  exact h.2.symm

/-- A pcb that is connected goes through the callbacks and the drop. -/
theorem fate_of_connected (hobtains : run.Obtains) (hconnect : run.connect = .ok)
    (h : putFile uuid guid fsize file run = some (result, fate)) :
    ∃ outbound, runIf (Outbound.step uuid) Unrestricted (.start guid fsize file ⟨true, []⟩)
        run.callbacks = some outbound ∧
      fate = some (outbound.transfer.request.drop run.close outbound.pcb) := by
  obtain ⟨hopened, hposted, hallocated⟩ := hobtains
  simp only [putFile, hopened, hposted, hallocated, hconnect, Bool.true_eq_false, ne_eq, not_true,
    if_false, if_true] at h
  obtain ⟨outbound, hrun, hrest⟩ := Option.bind_eq_some_iff.mp h
  obtain ⟨polled, -, hfate⟩ := Option.bind_eq_some_iff.mp hrest
  exact ⟨outbound, hrun, (Prod.mk.inj (Option.some.inj hfate)).2.symm⟩

end Fate

/-- When the request is dropped, its pcb is released if lwIP has freed it before or closes it
now. -/
theorem released_drop {outbound : Outbound} (h : outbound.Booked) (close : Err) :
    Released (some (outbound.transfer.request.drop close outbound.pcb)) ↔
      outbound.transfer.request.pcb = false ∨ close = .ok := by
  unfold Outbound.Booked at h
  rw [h, PutRequest.drop]
  cases outbound.transfer.request.pcb with
  | false => simp [Released]
  | true => by_cases hclose : close = .ok <;> simp [Released, hclose]

/-- When `put_file` returns, its pcb has been released exactly if the run was orderly. -/
theorem released_iff_orderly (uuid : UuidText) (guid : Uuid) (fsize : UInt32) (file : List UInt8)
    (run : PutRun) {result : Except Err Unit} {fate : Option OutboundPcb}
    (h : putFile uuid guid fsize file run = some (result, fate)) : Released fate ↔ run.Orderly := by
  by_cases hobtains : run.Obtains
  · by_cases hconnect : run.connect = .ok
    · obtain ⟨outbound, hrun, hfate⟩ := fate_of_connected hobtains hconnect h
      have hbooked : outbound.Booked := Outbound.booked_run Outbound.booked_start hrun
      have hpcb := Outbound.pcb_run hrun
      rw [hfate, released_drop hbooked, hpcb]
      simp [PutRun.Orderly, hobtains, hconnect, Outbound.start, Transfer.start]
    · rw [fate_of_not_connected hobtains hconnect h]
      simp [PutRun.Orderly, Released, hobtains, hconnect]
  · rw [fate_of_not_obtains hobtains h]
    simp [PutRun.Orderly, Released, hobtains]

/-- A transfer whose answer is found before the peer closes. -/
def PutRun.smooth : PutRun where
  opened := true
  posted := .ok
  allocated := true
  connect := .ok
  callbacks := Transfer.answeredAndClosed
  polled := 2
  close := .ok

theorem released_of_smooth :
    putFile .hyphenated ⟨7⟩ 3 (asBytes "G28".toList) .smooth =
        some (.ok (), some ⟨false, [.closed]⟩) ∧
      Released (some ⟨false, [.closed]⟩) := by
  have hput : putFile .hyphenated ⟨7⟩ 3 (asBytes "G28".toList) .smooth =
      some (.ok (), some ⟨false, [.closed]⟩) := by decide +kernel
  exact ⟨hput, (released_iff_orderly .hyphenated ⟨7⟩ 3 _ .smooth hput).mpr (by decide)⟩

/-- A pcb that does not connect is left with the request as its callback argument, and one that does
not close is left without. -/
theorem not_released_after_failures :
    putFile .hyphenated ⟨7⟩ 3 (asBytes "G28".toList) { PutRun.smooth with connect := .rte } =
        some (.error .rte, some ⟨true, []⟩) ∧
      putFile .hyphenated ⟨7⟩ 3 (asBytes "G28".toList) { PutRun.smooth with close := .mem } =
        some (.ok (), some ⟨false, []⟩) ∧
      ¬ Released (some ⟨true, []⟩) ∧ ¬ Released (some ⟨false, []⟩) := by
  decide +kernel

end Derusting.Lwip
