import Derusting.Foundations.Bounded
import Derusting.Foundations.Transition

/-!
# One accepted TCP connection

`TcpConnection` of `lwip/tcp.rs` together with lwIP's side of the connection, from the moment
`TcpListener::_accept` has installed `_hold_recv` until the connection is dropped.  Everything that
runs under the core lock is one step: a segment that arrives, a fatal error, the closure an
`async_lwip` call posts, a drop.  Between such steps the worker and lwIP interleave freely.

lwIP's own part follows its raw-API contract.  Data the receive callback refuses is kept and
delivered again; a FIN that arrives behind refused data is kept with it; the callback with a null
buffer that announces the end of the stream is made once; a fatal error frees the control block and
then calls the error callback if there is one.
-/

namespace Derusting.Lwip

open Foundations.Bounded

/-- `err_t`. -/
inductive Err where
  | ok
  | mem
  | buf
  | timeout
  | rte
  | inProgress
  | val
  | wouldBlock
  | use
  | already
  | isConn
  | conn
  | netif
  | abrt
  | rst
  | clsd
  | arg
deriving DecidableEq

/-- A chain of packet buffers with an identity of its own. -/
structure Pbuf where
  id : ℕ
  chunks : List (List UInt8)
deriving DecidableEq

/-- `PacketBuffer::total_len`: lwIP's `tot_len` of the chain. -/
def Pbuf.totalLen (pbuf : Pbuf) : ℕ := (pbuf.chunks.map List.length).sum

/-- What is registered with `tcp_recv`. -/
inductive RecvFn where
  | null
  | holdRecv
  | recv
deriving DecidableEq

/-- lwIP's control block, as far as its callbacks go. `fin` marks refused data that a FIN followed,
and `gotFin` that a FIN has arrived at all. -/
structure Pcb where
  recvFn : RecvFn
  errFn : Bool
  /-- Whether the callback argument is the connection; otherwise it is null. -/
  arg : Bool
  refused : Option Pbuf
  fin : Bool
  gotFin : Bool
  freed : Bool
deriving DecidableEq

/-- `TcpConnection`: whether the cached `pcb` pointer is not null, and the channel of received
packets, in which `none` is the end of the stream. -/
structure TcpConnection (capacity : ℕ) where
  pcb : Bool
  channel : Channel (Option Pbuf) capacity

namespace TcpConnection

variable {capacity : ℕ}

/-- `TcpConnection::new` on a pcb. -/
def new : TcpConnection capacity := ⟨true, .empty⟩

/-- `try_send` with its result ignored. -/
def offer (conn : TcpConnection capacity) (item : Option Pbuf) : TcpConnection capacity :=
  { conn with channel := (conn.channel.trySend item).getD conn.channel }

/-- `TcpConnection::_recv`: the code it returns, the connection after it and the buffers it has
passed to `pbuf_free`. A packet that does not fit is dropped inside the failed `try_send`. -/
def recv (arg : Option (TcpConnection capacity)) (pbuf : Option Pbuf) :
    Err × Option (TcpConnection capacity) × List Pbuf :=
  match arg with
  | none => (.val, none, pbuf.toList)
  | some conn =>
      match pbuf with
      | none => (.ok, some (conn.offer none), [])
      | some pbuf =>
          match conn.channel.trySend (some pbuf) with
          | some channel => (.ok, some { conn with channel := channel }, [])
          | none => (.mem, some conn, [pbuf])

/-- `TcpConnection::_err`: forget the pcb, which lwIP has freed, and wake the reader. -/
def err (arg : Option (TcpConnection capacity)) : Option (TcpConnection capacity) :=
  arg.map fun conn ↦ { conn with pcb := false }.offer none

end TcpConnection

/-- The calls into lwIP that take the pcb of an accepted connection. -/
inductive TcpCall where
  | arg
  | recv
  | err
  | sent
  | hasRefusedData
  | processRefusedData
  | recved (len : ℕ)
  | write (len : ℕ)
  | output
  | close
  | abort
deriving DecidableEq

/-- One delivery of a buffer to a receive callback: the code returned, whether the callback has
kept the buffer, whether it has freed it, and whether it had been freed before. -/
structure Delivery where
  pbuf : Pbuf
  result : Err
  taken : Bool
  freed : Bool
  late : Bool
deriving DecidableEq

/-- Where the connection stands with the worker. -/
inductive Stage where
  | queued
  | taken
  | serving
  | dropped
deriving DecidableEq

/-- A connection: lwIP's control block, the `TcpConnection`, the packet `receive` has yet to credit,
the packets the worker holds and whether it has obtained `None`. The other fields observe the run:
buffers lwIP has passed up, `pbuf_free` calls, deliveries, calls with whether the pcb was live, and
whether the end of the stream has been signalled. -/
structure Link (capacity : ℕ) where
  pcb : Pcb
  conn : TcpConnection capacity
  stage : Stage
  pending : Option Pbuf
  held : List Pbuf
  obtained : Bool
  seen : List Pbuf
  freed : List Pbuf
  deliveries : List Delivery
  calls : List (TcpCall × Bool)
  ended : Bool

namespace Link

variable {capacity : ℕ}

/-- A pcb that `_accept` has just put into the listener's channel. -/
def accepted : Link capacity where
  pcb := ⟨.holdRecv, false, false, none, false, false, false⟩
  conn := .new
  stage := .queued
  pending := none
  held := []
  obtained := false
  seen := []
  freed := []
  deliveries := []
  calls := [(.arg, true), (.recv, true)]
  ended := false

/-! ## lwIP calls back -/

/-- The connection lwIP finds behind the callback argument. -/
def arg (link : Link capacity) : Option (TcpConnection capacity) :=
  if link.pcb.arg then some link.conn else none

/-- `TCP_EVENT_RECV` with a buffer. -/
def deliver (link : Link capacity) (pbuf : Pbuf) : Err × Link capacity :=
  let late := decide (pbuf ∈ link.freed)
  match link.pcb.recvFn with
  | .null =>
      -- `tcp_recv_null` frees the data
      (.ok, { link with freed := link.freed ++ [pbuf] })
  | .holdRecv =>
      (.mem, { link with deliveries := link.deliveries ++ [⟨pbuf, .mem, false, false, late⟩] })
  | .recv =>
      let (result, conn, freed) := TcpConnection.recv link.arg (some pbuf)
      let conn := conn.getD link.conn
      let taken := decide (some pbuf ∈ conn.channel.queue)
      let delivery := ⟨pbuf, result, taken, decide (pbuf ∈ freed), late⟩
      (result, { link with
        conn := conn
        freed := link.freed ++ freed
        deliveries := link.deliveries ++ [delivery] })

/-- `TCP_EVENT_CLOSED`: the receive callback with a null buffer. -/
def signalEnd (link : Link capacity) : Link capacity :=
  match link.pcb.recvFn with
  | .null => link
  | .holdRecv => { link with ended := true }
  | .recv =>
      let (_, conn, _) := TcpConnection.recv link.arg none
      { link with conn := conn.getD link.conn, ended := true }

/-- `tcp_process_refused_data`. -/
def processRefusedData (link : Link capacity) : Link capacity :=
  match link.pcb.refused with
  | none => link
  | some pbuf =>
      let (result, link) := { link with pcb := { link.pcb with refused := none } }.deliver pbuf
      if result = .ok then
        if link.pcb.fin then { link with pcb := { link.pcb with fin := false } }.signalEnd else link
      else { link with pcb := { link.pcb with refused := some pbuf } }

/-- What no delivery changes: the callbacks, the life of the pcb, the calls made and where the
worker stands. -/
structure Frame (link after : Link capacity) : Prop where
  recvFn : after.pcb.recvFn = link.pcb.recvFn
  errFn : after.pcb.errFn = link.pcb.errFn
  arg : after.pcb.arg = link.pcb.arg
  pcbFreed : after.pcb.freed = link.pcb.freed
  connPcb : after.conn.pcb = link.conn.pcb
  calls : after.calls = link.calls
  stage : after.stage = link.stage
  obtained : after.obtained = link.obtained

theorem Frame.refl (link : Link capacity) : Frame link link :=
  ⟨rfl, rfl, rfl, rfl, rfl, rfl, rfl, rfl⟩

theorem Frame.trans {link middle after : Link capacity} (hfirst : Frame link middle)
    (hsecond : Frame middle after) : Frame link after where
  recvFn := hsecond.recvFn.trans hfirst.recvFn
  errFn := hsecond.errFn.trans hfirst.errFn
  arg := hsecond.arg.trans hfirst.arg
  pcbFreed := hsecond.pcbFreed.trans hfirst.pcbFreed
  connPcb := hsecond.connPcb.trans hfirst.connPcb
  calls := hsecond.calls.trans hfirst.calls
  stage := hsecond.stage.trans hfirst.stage
  obtained := hsecond.obtained.trans hfirst.obtained

/-- `_recv` never touches the cached pcb pointer. -/
theorem pcb_recv (link : Link capacity) (pbuf : Option Pbuf) :
    ((TcpConnection.recv link.arg pbuf).2.1.getD link.conn).pcb = link.conn.pcb := by
  unfold Link.arg
  cases link.pcb.arg with
  | false => rfl
  | true =>
      cases pbuf with
      | none => rfl
      | some pbuf =>
          simp only [TcpConnection.recv, if_true]
          split <;> rfl

theorem frame_deliver (link : Link capacity) (pbuf : Pbuf) : Frame link (link.deliver pbuf).2 := by
  unfold deliver
  cases link.pcb.recvFn with
  | null => exact ⟨rfl, rfl, rfl, rfl, rfl, rfl, rfl, rfl⟩
  | holdRecv => exact ⟨rfl, rfl, rfl, rfl, rfl, rfl, rfl, rfl⟩
  | recv => exact ⟨rfl, rfl, rfl, rfl, pcb_recv link _, rfl, rfl, rfl⟩

/-- A delivery leaves the pcb alone. -/
theorem pcb_deliver {link : Link capacity} {pbuf : Pbuf} :
    (link.deliver pbuf).2.pcb = link.pcb := by
  unfold deliver
  split <;> rfl

theorem frame_signalEnd (link : Link capacity) : Frame link link.signalEnd := by
  unfold signalEnd
  cases link.pcb.recvFn with
  | null => exact .refl link
  | holdRecv => exact ⟨rfl, rfl, rfl, rfl, rfl, rfl, rfl, rfl⟩
  | recv => exact ⟨rfl, rfl, rfl, rfl, pcb_recv link _, rfl, rfl, rfl⟩

theorem frame_processRefusedData (link : Link capacity) : Frame link link.processRefusedData := by
  simp only [processRefusedData]
  split
  · exact .refl link
  next pbuf _ =>
    have hcleared : Frame link { link with pcb := { link.pcb with refused := none } } :=
      ⟨rfl, rfl, rfl, rfl, rfl, rfl, rfl, rfl⟩
    have hframe := hcleared.trans (frame_deliver _ pbuf)
    split
    · split
      · refine hframe.trans (Frame.trans ?_ (frame_signalEnd _))
        exact ⟨rfl, rfl, rfl, rfl, rfl, rfl, rfl, rfl⟩
      · exact hframe
    · exact hframe.trans ⟨rfl, rfl, rfl, rfl, rfl, rfl, rfl, rfl⟩

/-- A data segment arrives while nothing is refused. -/
def input (link : Link capacity) (pbuf : Pbuf) : Link capacity :=
  let (result, link) := { link with seen := link.seen ++ [pbuf] }.deliver pbuf
  if result = .ok then link else { link with pcb := { link.pcb with refused := some pbuf } }

theorem frame_input (link : Link capacity) (pbuf : Pbuf) : Frame link (link.input pbuf) := by
  simp only [input]
  have hseen : Frame link { link with seen := link.seen ++ [pbuf] } :=
    ⟨rfl, rfl, rfl, rfl, rfl, rfl, rfl, rfl⟩
  have hframe := hseen.trans (frame_deliver _ pbuf)
  split
  · exact hframe
  · exact hframe.trans ⟨rfl, rfl, rfl, rfl, rfl, rfl, rfl, rfl⟩

/-- A FIN arrives. -/
def inputFin (link : Link capacity) : Link capacity :=
  let link := { link with pcb := { link.pcb with gotFin := true } }
  if link.pcb.refused.isSome then { link with pcb := { link.pcb with fin := true } }
  else link.signalEnd

theorem frame_inputFin (link : Link capacity) : Frame link link.inputFin := by
  simp only [inputFin]
  have hgot : Frame link { link with pcb := { link.pcb with gotFin := true } } :=
    ⟨rfl, rfl, rfl, rfl, rfl, rfl, rfl, rfl⟩
  split
  · exact ⟨rfl, rfl, rfl, rfl, rfl, rfl, rfl, rfl⟩
  · exact hgot.trans (frame_signalEnd _)

/-- lwIP purges the pcb: what is refused is freed. -/
def purge (link : Link capacity) : Link capacity :=
  { link with
    pcb := { link.pcb with refused := none, freed := true }
    freed := link.freed ++ link.pcb.refused.toList }

/-- A reset or another fatal error. -/
def fatalError (link : Link capacity) : Link capacity :=
  let link := link.purge
  if link.pcb.errFn then
    { link with conn := (TcpConnection.err link.arg).getD link.conn, ended := true }
  else link

/-! ## The worker calls in -/

/-- Record a call on the pcb and whether the pcb is live. -/
def call (link : Link capacity) (tcpCall : TcpCall) : Link capacity :=
  { link with calls := link.calls ++ [(tcpCall, !link.pcb.freed)] }

/-- The registrations of `attach_callbacks`, and its look at the refused data. -/
def register (link : Link capacity) : Link capacity :=
  let link := { link.call .arg with pcb := { link.pcb with arg := true } }
  let link := { link.call .recv with pcb := { link.pcb with recvFn := .recv } }
  let link := { link.call .err with pcb := { link.pcb with errFn := true } }
  (link.call .sent).call .hasRefusedData

/-- The closure of `attach_callbacks`. -/
def attachCallbacks (link : Link capacity) : Link capacity :=
  if link.conn.pcb then
    let link := link.register
    if link.pcb.refused.isSome then (link.call .processRefusedData).processRefusedData else link
  else link

/-- `receive` takes the next item off the channel. -/
def receive (link : Link capacity) : Option (Link capacity) :=
  link.conn.channel.tryReceive.map fun (item, channel) ↦
    let link := { link with conn := { link.conn with channel := channel } }
    match item with
    | none => { link with obtained := true }
    | some pbuf => { link with pending := some pbuf }

/-- The second half of `receive`: credit the receive window and hand the packet to the caller. -/
def credit (link : Link capacity) (posted : Bool) (pbuf : Pbuf) : Link capacity :=
  let link := if posted && link.conn.pcb then link.call (.recved pbuf.totalLen) else link
  { link with pending := none, held := link.held ++ [pbuf] }

/-- `response`. -/
def response (link : Link capacity) (bytes : List UInt8) (posted : Bool) (writeErr : Err) :
    Link capacity :=
  if bytes.length ≤ 65535 ∧ posted ∧ link.conn.pcb then
    let link := link.call (.write bytes.length)
    if writeErr = .ok then link.call .output else link
  else link

/-- The worker drops a packet it holds. -/
def release (link : Link capacity) (pbuf : Pbuf) : Link capacity :=
  { link with held := link.held.erase pbuf, freed := link.freed ++ [pbuf] }

/-- The drop's last chance to drain refused data. -/
def lastChance (link : Link capacity) : Link capacity :=
  let link := link.call .hasRefusedData
  if link.pcb.refused.isSome then (link.call .processRefusedData).processRefusedData else link

/-- Credit and drop everything that is left in the channel. -/
def drain (link : Link capacity) : Link capacity :=
  let packets := link.conn.channel.queue.reduceOption
  let calls := packets.map fun pbuf ↦ (TcpCall.recved pbuf.totalLen, !link.pcb.freed)
  { link with
    conn := { link.conn with channel := .empty }
    freed := link.freed ++ packets
    calls := link.calls ++ calls }

/-- Take the callbacks away and flush the output. -/
def detach (link : Link capacity) : Link capacity :=
  let link := { link.call .recv with pcb := { link.pcb with recvFn := .null } }
  let link := { link.call .err with pcb := { link.pcb with errFn := false } }
  let link := { (link.call .sent).call .arg with pcb := { link.pcb with arg := false } }
  link.call .output

/-- `tcp_close`: with data refused lwIP resets the connection and frees the data; otherwise the pcb
is gone unless the call fails. -/
def close (link : Link capacity) (closeErr : Err) : Link capacity :=
  let link := link.call .close
  if link.pcb.refused.isSome ∨ closeErr = .ok then link.purge else link

/-- `TcpConnection::drop`. -/
def drop (link : Link capacity) (closeErr : Err) : Link capacity :=
  let link := if link.conn.pcb then link.lastChance.drain.detach.close closeErr else link
  -- `channel.clear()` drops what is still queued
  { link with
    conn := ⟨false, .empty⟩
    stage := .dropped
    freed := link.freed ++ link.conn.channel.queue.reduceOption }

/-! ## Runs -/

/-- What lwIP and the worker can do. The error codes are those of the calls made in the step, and
`posted` is whether `tcpip_callback` accepts the closure of `async_lwip`. -/
inductive Event where
  | data (pbuf : Pbuf)
  | fin
  | retry
  | fatal
  | take
  | attach (posted : Bool)
  | receive
  | credit (posted : Bool)
  | respond (bytes : List UInt8) (posted : Bool) (writeErr : Err)
  | release (pbuf : Pbuf)
  | drop (closeErr : Err)

/-- lwIP still runs callbacks for the pcb. -/
def Live (link : Link capacity) : Prop := link.pcb.freed = false ∧ link.stage ≠ .dropped

/-- The worker is between two calls on the connection. -/
def Idle (link : Link capacity) : Prop := link.stage = .serving ∧ link.pending = none

instance (link : Link capacity) : Decidable link.Live := inferInstanceAs (Decidable (_ ∧ _))

instance (link : Link capacity) : Decidable link.Idle := inferInstanceAs (Decidable (_ ∧ _))

def step (link : Link capacity) : Event → Option (Link capacity)
  | .data pbuf =>
      if link.Live ∧ link.pcb.refused = none ∧ link.pcb.gotFin = false ∧ pbuf ∉ link.seen then
        some (link.input pbuf)
      else none
  | .fin => if link.Live ∧ link.pcb.gotFin = false then some link.inputFin else none
  | .retry => if link.Live ∧ link.pcb.refused ≠ none then some link.processRefusedData else none
  | .fatal => if link.Live then some link.fatalError else none
  | .take =>
      -- the object `TcpConnection::new` makes is the one the link starts with
      if link.stage = .queued then some { link with stage := .taken } else none
  | .attach posted =>
      if link.stage = .taken then
        let link := if posted then link.attachCallbacks else link
        some { link with stage := .serving }
      else none
  | .receive => if link.Idle then link.receive else none
  | .credit posted =>
      if link.stage = .serving then link.pending.map (link.credit posted) else none
  | .respond bytes posted writeErr =>
      if link.Idle then some (link.response bytes posted writeErr) else none
  | .release pbuf => if pbuf ∈ link.held then some (link.release pbuf) else none
  | .drop closeErr => if link.Idle ∧ link.held = [] then some (link.drop closeErr) else none

/-- What a step does, and when it can be made. -/
inductive Steps (link : Link capacity) : Event → Link capacity → Prop
  | data {pbuf : Pbuf} (hlive : link.Live) (hnone : link.pcb.refused = none)
      (hopen : link.pcb.gotFin = false) (hnew : pbuf ∉ link.seen) :
      Steps link (.data pbuf) (link.input pbuf)
  | fin (hlive : link.Live) (hopen : link.pcb.gotFin = false) : Steps link .fin link.inputFin
  | retry (hlive : link.Live) (hrefused : link.pcb.refused ≠ none) :
      Steps link .retry link.processRefusedData
  | fatal (hlive : link.Live) : Steps link .fatal link.fatalError
  | take (hqueued : link.stage = .queued) : Steps link .take { link with stage := .taken }
  | attached (htaken : link.stage = .taken) :
      Steps link (.attach true) { link.attachCallbacks with stage := .serving }
  | unattached (htaken : link.stage = .taken) :
      Steps link (.attach false) { link with stage := .serving }
  | receive {after : Link capacity} (hidle : link.Idle) (hreceive : link.receive = some after) :
      Steps link .receive after
  | credit {posted : Bool} {pbuf : Pbuf} (hserving : link.stage = .serving)
      (hpending : link.pending = some pbuf) :
      Steps link (.credit posted) (link.credit posted pbuf)
  | respond {bytes : List UInt8} {posted : Bool} {writeErr : Err} (hidle : link.Idle) :
      Steps link (.respond bytes posted writeErr) (link.response bytes posted writeErr)
  | release {pbuf : Pbuf} (hheld : pbuf ∈ link.held) :
      Steps link (.release pbuf) (link.release pbuf)
  | drop {closeErr : Err} (hidle : link.Idle) (hnothing : link.held = []) :
      Steps link (.drop closeErr) (link.drop closeErr)

theorem steps_of_step {link after : Link capacity} {event : Event}
    (hstep : link.step event = some after) : Steps link event after := by
  cases event with
  | data pbuf =>
      obtain ⟨⟨hlive, hnone, hopen, hnew⟩, hafter⟩ := Option.ite_none_right_eq_some.mp hstep
      exact Option.some.inj hafter ▸ .data hlive hnone hopen hnew
  | fin =>
      obtain ⟨⟨hlive, hopen⟩, hafter⟩ := Option.ite_none_right_eq_some.mp hstep
      exact Option.some.inj hafter ▸ .fin hlive hopen
  | retry =>
      obtain ⟨⟨hlive, hrefused⟩, hafter⟩ := Option.ite_none_right_eq_some.mp hstep
      exact Option.some.inj hafter ▸ .retry hlive hrefused
  | fatal =>
      obtain ⟨hlive, hafter⟩ := Option.ite_none_right_eq_some.mp hstep
      exact Option.some.inj hafter ▸ .fatal hlive
  | take =>
      obtain ⟨hqueued, hafter⟩ := Option.ite_none_right_eq_some.mp hstep
      exact Option.some.inj hafter ▸ .take hqueued
  | attach posted =>
      obtain ⟨htaken, hafter⟩ := Option.ite_none_right_eq_some.mp hstep
      cases posted with
      | false => exact Option.some.inj hafter ▸ .unattached htaken
      | true => exact Option.some.inj hafter ▸ .attached htaken
  | receive =>
      obtain ⟨hidle, hreceive⟩ := Option.ite_none_right_eq_some.mp hstep
      exact .receive hidle hreceive
  | credit posted =>
      obtain ⟨hserving, hafter⟩ := Option.ite_none_right_eq_some.mp hstep
      obtain ⟨pbuf, hpending, rfl⟩ := Option.map_eq_some_iff.mp hafter
      exact .credit hserving hpending
  | respond bytes posted writeErr =>
      obtain ⟨hidle, hafter⟩ := Option.ite_none_right_eq_some.mp hstep
      exact Option.some.inj hafter ▸ .respond hidle
  | release pbuf =>
      obtain ⟨hheld, hafter⟩ := Option.ite_none_right_eq_some.mp hstep
      exact Option.some.inj hafter ▸ .release hheld
  | drop closeErr =>
      obtain ⟨⟨hidle, hnothing⟩, hafter⟩ := Option.ite_none_right_eq_some.mp hstep
      exact Option.some.inj hafter ▸ .drop hidle hnothing

/-! ## Which callbacks are registered -/

/-- `attach_callbacks` has registered the connection. -/
structure Attached (link : Link capacity) : Prop where
  recvFn : link.pcb.recvFn = .recv
  errFn : link.pcb.errFn = true
  arg : link.pcb.arg = true

/-- Only `_hold_recv` is registered. -/
structure Holding (link : Link capacity) : Prop where
  recvFn : link.pcb.recvFn = .holdRecv
  errFn : link.pcb.errFn = false
  arg : link.pcb.arg = false

/-- What leaves the three registrations alone keeps the connection attached or holding. -/
theorem hooks_of_eq {link after : Link capacity} (h : link.Attached ∨ link.Holding)
    (hrecv : after.pcb.recvFn = link.pcb.recvFn) (herr : after.pcb.errFn = link.pcb.errFn)
    (harg : after.pcb.arg = link.pcb.arg) : after.Attached ∨ after.Holding :=
  h.imp
    (fun hattached ↦ ⟨hrecv.trans hattached.recvFn, herr.trans hattached.errFn,
      harg.trans hattached.arg⟩)
    fun hholding ↦ ⟨hrecv.trans hholding.recvFn, herr.trans hholding.errFn,
      harg.trans hholding.arg⟩

/-- Until the drop the connection is attached, or it has only the temporary receiver. -/
def Wired (link : Link capacity) : Prop :=
  link.stage = .dropped ∨ (link.Attached ∧ link.stage = .serving) ∨ link.Holding

theorem wired_accepted : (accepted : Link capacity).Wired := .inr (.inr ⟨rfl, rfl, rfl⟩)

theorem Wired.hooks {link : Link capacity} (h : link.Wired) (hstage : link.stage ≠ .dropped) :
    link.Attached ∨ link.Holding := (h.resolve_left hstage).imp And.left id

/-- What leaves the three registrations alone keeps the connection wired, as long as the connection
moves on at most to being served. -/
theorem Wired.of_hooks {link after : Link capacity} (h : link.Wired)
    (hlive : link.stage ≠ .dropped) (hrecv : after.pcb.recvFn = link.pcb.recvFn)
    (herr : after.pcb.errFn = link.pcb.errFn) (harg : after.pcb.arg = link.pcb.arg)
    (hstage : link.stage = .serving → after.stage = .serving) : after.Wired := by
  rcases h.resolve_left hlive with ⟨hattached, hserving⟩ | hholding
  · exact .inr (.inl ⟨⟨hrecv.trans hattached.recvFn, herr.trans hattached.errFn,
      harg.trans hattached.arg⟩, hstage hserving⟩)
  · exact .inr (.inr ⟨hrecv.trans hholding.recvFn, herr.trans hholding.errFn,
      harg.trans hholding.arg⟩)

theorem Wired.of_frame {link after : Link capacity} (h : link.Wired)
    (hlive : link.stage ≠ .dropped) (hframe : Frame link after) : after.Wired :=
  h.of_hooks hlive hframe.recvFn hframe.errFn hframe.arg hframe.stage.trans

/-- Posting the closure registers the three callbacks, unless the pcb is already gone. -/
theorem attached_attachCallbacks {link : Link capacity} (h : link.conn.pcb = true) :
    link.attachCallbacks.Attached := by
  simp only [attachCallbacks, h, if_true]
  split
  · exact ⟨(frame_processRefusedData _).recvFn, (frame_processRefusedData _).errFn,
      (frame_processRefusedData _).arg⟩
  · exact ⟨rfl, rfl, rfl⟩

/-- Attaching the callbacks does not move the connection on. -/
theorem stage_attachCallbacks {link : Link capacity} :
    link.attachCallbacks.stage = link.stage := by
  simp only [attachCallbacks]
  split
  · split
    · exact (frame_processRefusedData _).stage
    · rfl
  · rfl

theorem Wired.attachCallbacks {link : Link capacity} (h : link.Attached ∨ link.Holding) :
    link.attachCallbacks.Attached ∨ link.attachCallbacks.Holding := by
  cases hpcb : link.conn.pcb with
  | true => exact .inl (attached_attachCallbacks hpcb)
  | false => simpa [Link.attachCallbacks, hpcb] using h

theorem Wired.step {link after : Link capacity} (h : link.Wired) {event : Event}
    (hstep : link.step event = some after) : after.Wired := by
  cases steps_of_step hstep with
  | data hlive _ _ _ => exact h.of_frame hlive.2 (frame_input link _)
  | fin hlive _ => exact h.of_frame hlive.2 (frame_inputFin link)
  | retry hlive _ => exact h.of_frame hlive.2 (frame_processRefusedData link)
  | fatal hlive =>
      simp only [fatalError]
      split <;> exact h.of_hooks hlive.2 rfl rfl rfl id
  | take hqueued =>
      refine h.of_hooks (by simp [hqueued]) rfl rfl rfl fun hserving ↦ ?_
      rw [hqueued] at hserving
      cases hserving
  | unattached htaken => exact h.of_hooks (by simp [htaken]) rfl rfl rfl fun _ ↦ rfl
  | attached htaken =>
      rcases Wired.attachCallbacks (h.hooks (by simp [htaken])) with hattached | hholding
      · exact .inr (.inl ⟨⟨hattached.recvFn, hattached.errFn, hattached.arg⟩, rfl⟩)
      · exact .inr (.inr ⟨hholding.recvFn, hholding.errFn, hholding.arg⟩)
  | receive hidle hreceive =>
      obtain ⟨⟨item, channel⟩, _, rfl⟩ := Option.map_eq_some_iff.mp hreceive
      cases item <;> exact h.of_hooks (by simp [hidle.1]) rfl rfl rfl id
  | credit hserving _ =>
      simp only [credit]
      split <;> exact h.of_hooks (by simp [hserving]) rfl rfl rfl id
  | respond hidle =>
      simp only [response]
      split
      · split <;> exact h.of_hooks (by simp [hidle.1]) rfl rfl rfl id
      · exact h
  | release _ =>
      by_cases hdropped : link.stage = .dropped
      · exact .inl hdropped
      · exact h.of_hooks hdropped rfl rfl rfl id
  | drop _ _ => exact .inl rfl

end Link

end Derusting.Lwip
