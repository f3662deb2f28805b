import Derusting.Lwip.Tcp
import Mathlib.Data.List.Nodup

/-!
# Accepted connections and the life of their pcbs

`TcpListener` of `lwip/tcp.rs` with all the connections it has accepted.  A pcb waits in the
listener's channel as a raw pointer until a worker takes it; only `attach_callbacks` registers the
error callback through which the connection learns that lwIP has freed the pcb.

A pcb is therefore used after it was freed when a fatal error hits it before the error callback is
registered.  And `_accept` reports `ERR_OK` for a pcb it has just aborted because the channel was
full.  Runs in which neither happens (`Guarded`) only ever use live pcbs.
-/

namespace Derusting.Lwip

open Foundations.Bounded Foundations.Transition

namespace Link

variable {capacity : ℕ}

/-- The owner of a waiting pcb calls `tcp_abort`: no error callback is registered. -/
def abandon (link : Link capacity) : Link capacity :=
  { (link.call .abort).purge with stage := .dropped }

end Link

/-- `TcpListener`: the pcbs it has accepted, in order, and the channel of those that wait for a
worker. `accepts` observes for each call of `_accept` whether it has aborted the pcb, and the code
it returned. -/
structure TcpListener (waiting capacity : ℕ) where
  links : List (Link capacity)
  channel : Channel ℕ waiting
  closed : Bool
  accepts : List (Bool × Err)

namespace TcpListener

variable {waiting capacity : ℕ}

/-- `TcpListener::new`, listening. -/
def new : TcpListener waiting capacity := ⟨[], .empty, false, []⟩

/-- `TcpListener::_accept`. -/
def accept (listener : TcpListener waiting capacity) (pcb : Bool) (err : Err) :
    TcpListener waiting capacity :=
  let report := fun (listener : TcpListener waiting capacity) (aborted : Bool) (code : Err) ↦
    { listener with accepts := listener.accepts ++ [(aborted, code)] }
  if err ≠ .ok then report listener false .ok
  else if !pcb then report listener false .ok
  else
    match listener.channel.trySend listener.links.length with
    | some channel =>
        report { listener with links := listener.links ++ [.accepted], channel := channel } false .ok
    | none =>
        report { listener with links := listener.links ++ [Link.accepted.abandon] } true .ok

/-- `TcpListener::drop`: the connections nobody has taken are aborted. -/
def drop (listener : TcpListener waiting capacity) : TcpListener waiting capacity :=
  { listener with
    links := listener.channel.queue.foldl (fun links index ↦ links.modify index Link.abandon)
      listener.links
    channel := .empty
    closed := true }

/-- What lwIP, the workers and the owner of the listener can do. -/
inductive Event where
  | accept (pcb : Bool) (err : Err)
  | take
  | link (index : ℕ) (event : Link.Event)
  | drop

/-- Let the connection `index` take a step. -/
def stepLink (listener : TcpListener waiting capacity) (index : ℕ) (event : Link.Event) :
    Option (TcpListener waiting capacity) :=
  listener.links[index]?.bind fun link ↦ (link.step event).map fun after ↦
    { listener with links := listener.links.set index after }

/-- One step. A worker only gets hold of a connection through the channel. -/
def step (listener : TcpListener waiting capacity) : Event → Option (TcpListener waiting capacity)
  | .accept pcb err => if listener.closed then none else some (listener.accept pcb err)
  | .take => listener.channel.tryReceive.bind fun (index, channel) ↦
      { listener with channel := channel }.stepLink index .take
  | .link _ .take => none
  | .link index event => listener.stepLink index event
  | .drop => if listener.closed then none else some listener.drop

/-- Every call was made on a live pcb, and whenever `_accept` has aborted a pcb it said so. -/
def NoStaleUse (listener : TcpListener waiting capacity) : Prop :=
  (∀ link ∈ listener.links, ∀ entry ∈ link.calls, entry.2 = true) ∧
    ∀ entry ∈ listener.accepts, entry.1 = true → entry.2 = .abrt

instance (listener : TcpListener waiting capacity) : Decidable listener.NoStaleUse :=
  inferInstanceAs (Decidable (_ ∧ _))

/-- A connection is accepted only while the channel has a free slot, and a fatal error only hits
pcbs whose error callback is registered. -/
def Guarded (listener : TcpListener waiting capacity) : Event → Prop
  | .accept pcb err => pcb = true ∧ err = .ok → listener.channel.isFull = false
  | .link index .fatal => ∀ link ∈ listener.links[index]?, link.pcb.errFn = true
  | _ => True

instance (listener : TcpListener waiting capacity) :
    (event : Event) → Decidable (listener.Guarded event)
  | .accept _ _ => inferInstanceAs (Decidable (_ ∧ _ → listener.channel.isFull = false))
  | .link index .fatal => inferInstanceAs (Decidable (∀ link ∈ listener.links[index]?, _))
  | .take | .drop => inferInstanceAs (Decidable True)
  | .link _ (.data _) | .link _ .fin | .link _ .retry | .link _ .take | .link _ (.attach _) |
    .link _ .receive | .link _ (.credit _) | .link _ (.respond _ _ _) | .link _ (.release _) |
    .link _ (.drop _) => inferInstanceAs (Decidable True)

end TcpListener

/-! ## One connection -/

namespace Link

variable {capacity : ℕ} {link after : Link capacity}

/-- All calls were made on a live pcb, and the pcb is live unless the connection has been told that
it is not. -/
structure Usable (link : Link capacity) : Prop where
  live : link.stage ≠ .dropped →
    link.pcb.freed = false ∨ link.conn.pcb = false ∧ link.stage = .serving
  calls : ∀ entry ∈ link.calls, entry.2 = true

theorem usable_accepted : (accepted : Link capacity).Usable :=
  ⟨fun _ ↦ .inl rfl, by simp [accepted]⟩

/-- While the cached pointer is not null, the pcb is live. -/
theorem Usable.freed_eq_false (h : link.Usable) (hstage : link.stage ≠ .dropped)
    (hpcb : link.conn.pcb = true) : link.pcb.freed = false := by
  rcases h.live hstage with hlive | ⟨hnull, _⟩
  · exact hlive
  · simp [hnull] at hpcb

theorem Usable.of_frame (h : link.Usable) (hframe : Frame link after) : after.Usable where
  live := by
    rw [hframe.stage, hframe.pcbFreed, hframe.connPcb]
    exact h.live
  calls := by
    rw [hframe.calls]
    exact h.calls

theorem calls_call (hcalls : ∀ entry ∈ link.calls, entry.2 = true)
    (hlive : link.pcb.freed = false) (tcpCall : TcpCall) :
    ∀ entry ∈ (link.call tcpCall).calls, entry.2 = true := by
  intro entry hmem
  rcases List.mem_append.mp hmem with hold | hnew
  · exact hcalls entry hold
  · rw [List.mem_singleton.mp hnew, hlive]
    rfl

/-- The error callback tells the connection that its pcb is gone. -/
theorem Usable.fatalError (h : link.Usable) (hwired : link.Wired) (hstage : link.stage ≠ .dropped)
    (herr : link.pcb.errFn = true) : link.fatalError.Usable := by
  rcases hwired.resolve_left hstage with ⟨hattached, hserving⟩ | hholding
  · have hconn : link.fatalError.conn.pcb = false := by
      simp [Link.fatalError, Link.purge, herr, Link.arg, hattached.arg, TcpConnection.err,
        TcpConnection.offer]
    refine ⟨fun _ ↦ .inr ⟨hconn, ?_⟩, ?_⟩
    · simpa [Link.fatalError, Link.purge, herr] using hserving
    · simpa [Link.fatalError, Link.purge, herr] using h.calls
  · rw [hholding.errFn] at herr
    cases herr

theorem Usable.attachCallbacks (h : link.Usable) (hstage : link.stage ≠ .dropped) :
    link.attachCallbacks.Usable := by
  cases hpcb : link.conn.pcb with
  | false => simpa [Link.attachCallbacks, hpcb] using h
  | true =>
      have hlive := h.freed_eq_false hstage hpcb
      have hregistered : link.register.Usable := by
        refine ⟨fun _ ↦ .inl hlive, ?_⟩
        simpa [Link.register, Link.call, hlive, or_imp, forall_and] using h.calls
      simp only [Link.attachCallbacks, hpcb, if_true]
      split
      · refine Usable.of_frame ?_ (frame_processRefusedData _)
        exact ⟨fun _ ↦ .inl hlive, calls_call hregistered.calls hlive _⟩
      · exact hregistered

theorem Usable.credit (h : link.Usable) (hserving : link.stage = .serving) (posted : Bool)
    (pbuf : Pbuf) : (link.credit posted pbuf).Usable := by
  simp only [Link.credit]
  split
  next hcall =>
    rw [Bool.and_eq_true] at hcall
    have hlive := h.freed_eq_false (by simp [hserving]) hcall.2
    exact ⟨fun _ ↦ .inl hlive, calls_call h.calls hlive _⟩
  next => exact ⟨h.live, h.calls⟩

theorem Usable.response (h : link.Usable) (hserving : link.stage = .serving) (bytes : List UInt8)
    (posted : Bool) (writeErr : Err) : (link.response bytes posted writeErr).Usable := by
  simp only [Link.response]
  split
  next hcall =>
    have hlive := h.freed_eq_false (by simp [hserving]) hcall.2.2
    have hwrite := calls_call h.calls hlive (.write bytes.length)
    split
    · exact ⟨fun _ ↦ .inl hlive, calls_call hwrite hlive _⟩
    · exact ⟨fun _ ↦ .inl hlive, hwrite⟩
  next => exact h

/-- Draining the channel credits a live pcb. -/
theorem calls_drain (hcalls : ∀ entry ∈ link.calls, entry.2 = true)
    (hlive : link.pcb.freed = false) : ∀ entry ∈ link.drain.calls, entry.2 = true := by
  intro entry hmem
  rcases List.mem_append.mp hmem with hold | hnew
  · exact hcalls entry hold
  · obtain ⟨pbuf, _, rfl⟩ := List.mem_map.mp hnew
    simp [hlive]

theorem Usable.lastChance (h : link.Usable) (hlive : link.pcb.freed = false) :
    link.lastChance.pcb.freed = false ∧ ∀ entry ∈ link.lastChance.calls, entry.2 = true := by
  have hlook := calls_call h.calls hlive .hasRefusedData
  simp only [Link.lastChance]
  split
  · rw [(frame_processRefusedData _).pcbFreed, (frame_processRefusedData _).calls]
    exact ⟨hlive, calls_call hlook hlive _⟩
  · exact ⟨hlive, hlook⟩

theorem calls_detach (hcalls : ∀ entry ∈ link.calls, entry.2 = true)
    (hlive : link.pcb.freed = false) : ∀ entry ∈ link.detach.calls, entry.2 = true := by
  simpa [Link.detach, Link.call, hlive, or_imp, forall_and] using hcalls

theorem calls_close (hcalls : ∀ entry ∈ link.calls, entry.2 = true)
    (hlive : link.pcb.freed = false) (closeErr : Err) :
    ∀ entry ∈ (link.close closeErr).calls, entry.2 = true := by
  simp only [Link.close]
  split <;> exact calls_call hcalls hlive .close

theorem Usable.drop (h : link.Usable) (hstage : link.stage ≠ .dropped) (closeErr : Err) :
    (link.drop closeErr).Usable := by
  refine ⟨fun hlive ↦ absurd rfl hlive, ?_⟩
  simp only [Link.drop]
  split
  next hpcb =>
    obtain ⟨hlive, hcalls⟩ := h.lastChance (h.freed_eq_false hstage hpcb)
    exact calls_close (calls_detach (calls_drain hcalls hlive) hlive) hlive closeErr
  next => exact h.calls

theorem Usable.step (h : link.Usable) (hwired : link.Wired) {event : Event}
    (hguard : event = .fatal → link.pcb.errFn = true) (hstep : link.step event = some after) :
    after.Usable := by
  cases steps_of_step hstep with
  | data _ _ _ _ => exact h.of_frame (frame_input link _)
  | fin _ _ => exact h.of_frame (frame_inputFin link)
  | retry _ _ => exact h.of_frame (frame_processRefusedData link)
  | fatal hlive => exact h.fatalError hwired hlive.2 (hguard rfl)
  | take hqueued =>
      refine ⟨fun _ ↦ ?_, h.calls⟩
      rcases h.live (by simp [hqueued]) with hlive | ⟨_, hserving⟩
      · exact .inl hlive
      · rw [hqueued] at hserving
        cases hserving
  | unattached htaken =>
      have hlive := h.live (by simp [htaken])
      exact ⟨fun _ ↦ hlive.imp id fun hnull ↦ ⟨hnull.1, rfl⟩, h.calls⟩
  | attached htaken =>
      have hattached := h.attachCallbacks (by simp [htaken])
      have hlive := hattached.live (by simp [stage_attachCallbacks, htaken])
      exact ⟨fun _ ↦ hlive.imp id fun hnull ↦ ⟨hnull.1, rfl⟩, hattached.calls⟩
  | receive _ hreceive =>
      obtain ⟨⟨item, channel⟩, _, rfl⟩ := Option.map_eq_some_iff.mp hreceive
      cases item <;> exact ⟨h.live, h.calls⟩
  | credit hserving _ => exact h.credit hserving _ _
  | respond hidle => exact h.response hidle.1 _ _ _
  | release _ => exact ⟨h.live, h.calls⟩
  | drop hidle _ => exact h.drop (by simp [hidle.1]) _

/-- A connection that waits in the channel keeps waiting until it is taken. -/
theorem stage_step_of_queued (hqueued : link.stage = .queued) {event : Event}
    (hevent : event ≠ .take) (hstep : link.step event = some after) : after.stage = .queued := by
  cases steps_of_step hstep with
  | data _ _ _ _ => exact (frame_input link _).stage.trans hqueued
  | fin _ _ => exact (frame_inputFin link).stage.trans hqueued
  | retry _ _ => exact (frame_processRefusedData link).stage.trans hqueued
  | fatal _ =>
      simp only [Link.fatalError]
      split <;> exact hqueued
  | take _ => exact absurd rfl hevent
  | unattached htaken => cases hqueued.symm.trans htaken
  | attached htaken => cases hqueued.symm.trans htaken
  | receive hidle _ => cases hqueued.symm.trans hidle.1
  | credit hserving _ => cases hqueued.symm.trans hserving
  | respond hidle => cases hqueued.symm.trans hidle.1
  | release _ => exact hqueued
  | drop hidle _ => cases hqueued.symm.trans hidle.1

/-- Aborting a connection that waits is a call on a live pcb. -/
theorem Usable.abandon (h : link.Usable) (hqueued : link.stage = .queued) : link.abandon.Usable := by
  refine ⟨fun hstage ↦ absurd rfl hstage, ?_⟩
  rcases h.live (by simp [hqueued]) with hlive | ⟨_, hserving⟩
  · exact calls_call h.calls hlive .abort
  · rw [hqueued] at hserving
    cases hserving

end Link

namespace TcpListener

variable {waiting capacity : ℕ} {listener after : TcpListener waiting capacity}

/-! ## All connections -/

/-- Every connection is usable, the channel holds each connection that waits at most once and
nothing else, and no pcb was aborted behind lwIP's back. -/
structure Tidy (listener : TcpListener waiting capacity) : Prop where
  wired : ∀ link ∈ listener.links, link.Wired
  usable : ∀ link ∈ listener.links, link.Usable
  queued : ∀ index ∈ listener.channel.queue, ∃ link ∈ listener.links[index]?, link.stage = .queued
  nodup : listener.channel.queue.Nodup
  accepts : ∀ entry ∈ listener.accepts, entry.1 = false

theorem Tidy.noStaleUse (h : listener.Tidy) : listener.NoStaleUse := by
  refine ⟨fun link hlink ↦ (h.usable link hlink).calls, fun entry hentry haborted ↦ ?_⟩
  rw [h.accepts entry hentry] at haborted
  cases haborted

theorem tidy_new : (new : TcpListener waiting capacity).Tidy where
  wired := by simp [new]
  usable := by simp [new]
  queued := by simp [new]
  nodup := List.nodup_nil
  accepts := by simp [new]

theorem Tidy.lt_of_mem (h : listener.Tidy) {index : ℕ} (hmem : index ∈ listener.channel.queue) :
    index < listener.links.length := by
  obtain ⟨link, hlink, _⟩ := h.queued index hmem
  exact (List.getElem?_eq_some_iff.mp hlink).1

theorem Tidy.accept (h : listener.Tidy) (pcb : Bool) (err : Err)
    (hroom : pcb = true → err = .ok → listener.channel.isFull = false) :
    (listener.accept pcb err).Tidy := by
  have hreport : { listener with accepts := listener.accepts ++ [(false, Err.ok)] }.Tidy := by
    refine ⟨h.wired, h.usable, h.queued, h.nodup, fun entry hentry ↦ ?_⟩
    rcases List.mem_append.mp hentry with hold | hnew
    · exact h.accepts entry hold
    · rw [List.mem_singleton.mp hnew]
  simp only [TcpListener.accept]
  split
  · exact hreport
  next herr =>
    split
    · exact hreport
    next hpcb =>
      have hfree := hroom (by simpa using hpcb) (by simpa using herr)
      split
      next channel hsend =>
        have hqueue := Channel.queue_of_trySend hsend
        refine ⟨?_, ?_, ?_, ?_, hreport.accepts⟩
        · intro link hlink
          rcases List.mem_append.mp hlink with hold | hnew
          · exact h.wired link hold
          · rw [List.mem_singleton.mp hnew]
            exact Link.wired_accepted
        · intro link hlink
          rcases List.mem_append.mp hlink with hold | hnew
          · exact h.usable link hold
          · rw [List.mem_singleton.mp hnew]
            exact Link.usable_accepted
        · intro index hindex
          rw [hqueue] at hindex
          rcases List.mem_append.mp hindex with hold | hnew
          · obtain ⟨link, hlink, hstage⟩ := h.queued index hold
            exact ⟨link, by rwa [List.getElem?_append_left (h.lt_of_mem hold)], hstage⟩
          · rw [List.mem_singleton.mp hnew]
            exact ⟨.accepted, List.getElem?_concat_length, rfl⟩
        · rw [hqueue, ← List.concat_eq_append]
          exact h.nodup.concat fun hmem ↦ (h.lt_of_mem hmem).false
      next hsend =>
        rw [Channel.trySend_eq_none_iff, hfree] at hsend
        cases hsend

/-- A step of one connection leaves the others alone. -/
theorem Tidy.stepLink (h : listener.Tidy) {index : ℕ} {event : Link.Event}
    (hguard : ∀ link ∈ listener.links[index]?, event = .fatal → link.pcb.errFn = true)
    (hevent : event = .take → index ∉ listener.channel.queue)
    (hstep : listener.stepLink index event = some after) : after.Tidy := by
  obtain ⟨link, hlink, hrest⟩ := Option.bind_eq_some_iff.mp hstep
  obtain ⟨next, hnext, rfl⟩ := Option.map_eq_some_iff.mp hrest
  have hmem := List.mem_of_getElem? hlink
  refine ⟨?_, ?_, ?_, h.nodup, h.accepts⟩
  · intro other hother
    rcases List.mem_or_eq_of_mem_set hother with hold | rfl
    · exact h.wired other hold
    · exact (h.wired link hmem).step hnext
  · intro other hother
    rcases List.mem_or_eq_of_mem_set hother with hold | rfl
    · exact h.usable other hold
    · exact (h.usable link hmem).step (h.wired link hmem) (hguard link hlink) hnext
  · intro position hposition
    obtain ⟨other, hother, hqueued⟩ := h.queued position hposition
    by_cases hsame : position = index
    · subst hsame
      obtain rfl : link = other := Option.some.inj (hlink.symm.trans hother)
      refine ⟨next, ?_, Link.stage_step_of_queued hqueued (fun htake ↦ hevent htake hposition) hnext⟩
      rw [Option.mem_def, List.getElem?_set_self (List.getElem?_eq_some_iff.mp hlink).1]
    · exact ⟨other, by rwa [Option.mem_def, List.getElem?_set_ne (Ne.symm hsame)], hqueued⟩

theorem Tidy.take (h : listener.Tidy) (hstep : listener.step .take = some after) : after.Tidy := by
  obtain ⟨⟨index, channel⟩, htake, hrest⟩ := Option.bind_eq_some_iff.mp hstep
  have hqueue := Channel.queue_of_tryReceive htake
  have hnodup := h.nodup
  rw [hqueue, List.nodup_cons] at hnodup
  have hpopped : { listener with channel := channel }.Tidy := by
    refine ⟨h.wired, h.usable, fun position hposition ↦ ?_, hnodup.2, h.accepts⟩
    exact h.queued position (by rw [hqueue]; exact List.mem_cons_of_mem _ hposition)
  exact hpopped.stepLink (fun _ _ hfatal ↦ by cases hfatal) (fun _ ↦ hnodup.1) hrest

/-- Aborting the connections that wait, each once, only uses live pcbs. -/
theorem abandon_all {queue : List ℕ} {links : List (Link capacity)} (hnodup : queue.Nodup)
    (hqueued : ∀ index ∈ queue, ∃ link ∈ links[index]?, link.stage = .queued)
    (hgood : ∀ link ∈ links, link.Wired ∧ link.Usable) :
    ∀ link ∈ queue.foldl (fun links index ↦ links.modify index Link.abandon) links,
      link.Wired ∧ link.Usable := by
  induction queue generalizing links with
  | nil => exact hgood
  | cons index queue ih =>
      obtain ⟨hfresh, hrest⟩ := List.nodup_cons.mp hnodup
      rw [List.foldl_cons]
      apply ih hrest
      · intro position hposition
        obtain ⟨link, hlink, hstage⟩ := hqueued position (List.mem_cons_of_mem _ hposition)
        have hne : index ≠ position := fun hsame ↦ hfresh (hsame ▸ hposition)
        exact ⟨link, by rwa [Option.mem_def, List.getElem?_modify_ne _ _ hne], hstage⟩
      · obtain ⟨link, hlink, hstage⟩ := hqueued index List.mem_cons_self
        intro other hother
        obtain ⟨position, hposition⟩ := List.getElem?_of_mem hother
        rw [List.getElem?_modify] at hposition
        obtain ⟨before, hbefore, hafter⟩ := Option.map_eq_some_iff.mp hposition
        split at hafter
        next hsame =>
          subst hsame
          obtain rfl : link = before := Option.some.inj (hlink.symm.trans hbefore)
          rw [← hafter]
          exact ⟨.inl rfl, (hgood link (List.mem_of_getElem? hlink)).2.abandon hstage⟩
        next =>
          rw [← hafter]
          exact hgood before (List.mem_of_getElem? hbefore)

theorem Tidy.drop (h : listener.Tidy) : listener.drop.Tidy := by
  have hall := abandon_all h.nodup h.queued fun link hlink ↦
    ⟨h.wired link hlink, h.usable link hlink⟩
  exact ⟨fun link hlink ↦ (hall link hlink).1, fun link hlink ↦ (hall link hlink).2,
    by simp [TcpListener.drop], List.nodup_nil, h.accepts⟩

theorem Tidy.step (h : listener.Tidy) {event : Event} (hguard : listener.Guarded event)
    (hstep : listener.step event = some after) : after.Tidy := by
  cases event with
  | accept pcb err =>
      obtain ⟨_, hafter⟩ := Option.ite_none_left_eq_some.mp hstep
      obtain rfl := Option.some.inj hafter
      exact h.accept pcb err fun hpcb herr ↦ hguard ⟨hpcb, herr⟩
  | take => exact h.take hstep
  | link index event =>
      cases event with
      | take => cases hstep
      | fatal => exact h.stepLink (fun link hlink _ ↦ hguard link hlink) (by simp) hstep
      | _ => exact h.stepLink (by simp) (by simp) hstep
  | drop =>
      obtain ⟨_, hafter⟩ := Option.ite_none_left_eq_some.mp hstep
      obtain rfl := Option.some.inj hafter
      exact h.drop

/-! ## Whole runs -/

/-- In every run in which connections are only accepted while there is room and fatal errors only
hit pcbs with an error callback, every call is made on a live pcb. -/
theorem no_stale_use_of_guarded {waiting capacity : ℕ} {listener : TcpListener waiting capacity}
    (h : Reaches TcpListener.step Guarded TcpListener.new listener) : listener.NoStaleUse := by
  have hinv : listener.Tidy := h.invariant Tidy tidy_new fun _ _ _ hbefore hguard hstep ↦
    hbefore.step hguard hstep
  exact hinv.noStaleUse

/-- Two connections, the first of which is reset while the worker serves it. -/
def resetWhileServed : List Event :=
  [.accept true .ok, .accept true .ok, .take, .link 0 (.attach true), .link 0 (.data ⟨0, [[1]]⟩),
    .link 0 .fatal, .link 0 .receive, .link 0 (.credit true), .link 0 (.release ⟨0, [[1]]⟩),
    .link 0 (.drop .ok), .take, .link 1 (.attach true), .link 1 (.respond [1] true .ok)]

theorem no_stale_use_after_reset_while_served :
    ∃ listener : TcpListener 2 12, Reaches TcpListener.step Guarded TcpListener.new listener ∧
      listener.links.map (fun link ↦ link.pcb.freed) = [true, false] ∧ listener.NoStaleUse := by
  obtain ⟨listener, hreach, hfreed⟩ := exists_reaches_of_runIf TcpListener.step Guarded
    (TcpListener.new : TcpListener 2 12) resetWhileServed
    (fun listener ↦ listener.links.map (fun link ↦ link.pcb.freed) = [true, false])
    (by decide +kernel)
  exact ⟨listener, hreach, hfreed, no_stale_use_of_guarded hreach⟩

/-- A connection that is reset while it waits in the channel. -/
def resetWhileQueued : List Event :=
  [.accept true .ok, .link 0 .fatal, .take, .link 0 (.attach true)]

/-- More connections than the channel holds. -/
def crowded : List Event := [.accept true .ok, .accept true .ok]

/-- The worker registers its callbacks on a pcb lwIP has freed, and `_accept` reports `ERR_OK` for a
pcb it has aborted. -/
theorem stale_use_after_reset_while_queued :
    (∃ listener : TcpListener 2 12,
      Reaches TcpListener.step Unrestricted TcpListener.new listener ∧ ¬ listener.NoStaleUse) ∧
    ∃ listener : TcpListener 1 12, Reaches TcpListener.step Unrestricted TcpListener.new listener ∧
      (true, Err.ok) ∈ listener.accepts ∧ ¬ listener.NoStaleUse :=
  ⟨exists_reaches_of_runIf TcpListener.step Unrestricted (TcpListener.new : TcpListener 2 12)
      resetWhileQueued (fun listener ↦ ¬ listener.NoStaleUse) (by decide +kernel),
    exists_reaches_of_runIf TcpListener.step Unrestricted (TcpListener.new : TcpListener 1 12)
      crowded (fun listener ↦ (true, Err.ok) ∈ listener.accepts ∧ ¬ listener.NoStaleUse)
      (by decide +kernel)⟩

end TcpListener

end Derusting.Lwip
