import Derusting.Http.Storage
import Derusting.Lwip.Tcp

/-!
# Sending a job file

`PutRequest` of `lwip/put.rs` drives one outbound `PUT`.  lwIP calls `_connected` once and `_sent`
whenever the peer has acknowledged data; both end in `pump`, which tops up a staging buffer from the
file and hands as much of it to `tcp_write` as the send buffer has room for.  How much a read gives,
how much room there is and what `tcp_write` returns is decided anew in every call (`Turn`).

`Transfer` is the request with the `tcp_write` calls made so far.  What has been accepted followed by
what is staged is at all times the head of the request followed by the file bytes read so far.
-/

namespace Derusting.Lwip

open Foundations.Bounded Foundations.Text Foundations.Transition

/-- `BUF_CAP`. -/
def bufCap : ℕ := 1024

/-- `PutRequest`: `file` and `pos` are the open file and the position in it, `pcb` is whether the
pointer to the pcb is not null. -/
structure PutRequest where
  guid : Uuid
  fsize : UInt32
  file : List UInt8
  pos : ℕ
  buf : Vec UInt8 bufCap
  pcb : Bool
  signal : Option Err

/-- What one call of `pump` meets: how many bytes `fread` gives at most, the room `tcp_sndbuf`
reports and the code `tcp_write` returns. -/
structure Turn where
  read : ℕ
  sndbuf : UInt16
  write : Err

/-- One call of `tcp_write`, with the room reported before it. -/
structure Write where
  bytes : List UInt8
  sndbuf : UInt16
  err : Err
deriving DecidableEq

/-- The bytes lwIP has taken over. -/
def accepted (writes : List Write) : List UInt8 :=
  (writes.filter fun write ↦ write.err = .ok).flatMap Write.bytes

@[simp]
theorem accepted_append (first second : List Write) :
    accepted (first ++ second) = accepted first ++ accepted second := by
  simp [accepted]

/-! ## The head of the request -/

/-- The text of the head. -/
def headerText (uuid : UuidText) (guid : Uuid) (fsize : UInt32) : List Char :=
  "PUT / HTTP/1.1\r\nguid: ".toList ++ uuid.display guid ++
    "\r\nContent-Type: text/x.gcode\r\nContent-Length: ".toList ++ Nat.toDigits 10 fsize.toNat ++
      "\r\nConnection: close\r\n\r\n".toList

/-- `format!` into a string of 256 bytes. -/
def formatHeaders (uuid : UuidText) (guid : Uuid) (fsize : UInt32) : Option (List Char) :=
  if (asBytes (headerText uuid guid fsize)).length ≤ 256 then some (headerText uuid guid fsize)
  else none

theorem ascii_headerText (uuid : UuidText) (guid : Uuid) (fsize : UInt32) :
    Ascii (headerText uuid guid fsize) := by
  have hguid : Ascii (uuid.display guid) := fun char hmem ↦ by
    have hrange := uuid.toNat_of_mem_display hmem
    omega
  have hsize : Ascii (Nat.toDigits 10 fsize.toNat) := fun char hmem ↦ by
    have hrange := toNat_of_mem_toDigits hmem
    omega
  have hstart : Ascii "PUT / HTTP/1.1\r\nguid: ".toList := by decide
  have htype : Ascii "\r\nContent-Type: text/x.gcode\r\nContent-Length: ".toList := by decide
  have hend : Ascii "\r\nConnection: close\r\n\r\n".toList := by decide
  exact (((hstart.append hguid).append htype).append hsize).append hend

/-- The head always fits. -/
theorem length_headerText_le (uuid : UuidText) (guid : Uuid) (fsize : UInt32) :
    (asBytes (headerText uuid guid fsize)).length ≤ 137 := by
  have hguid := uuid.length_display guid
  have hbound : 2 ^ 32 ≤ 10 ^ 10 := by norm_num
  have hsize : (Nat.toDigits 10 fsize.toNat).length ≤ 10 :=
    (Nat.length_toDigits_le_iff (by decide) (by decide)).mpr (fsize.toNat_lt.trans_le hbound)
  have hstart : "PUT / HTTP/1.1\r\nguid: ".toList.length = 22 := rfl
  have htype : "\r\nContent-Type: text/x.gcode\r\nContent-Length: ".toList.length = 46 := rfl
  have hend : "\r\nConnection: close\r\n\r\n".toList.length = 23 := rfl
  rw [(ascii_headerText uuid guid fsize).length_asBytes]
  unfold headerText
  -- the digits must not be computed
  generalize Nat.toDigits 10 fsize.toNat = digits at hsize ⊢
  simp only [List.length_append, hguid, hstart, htype, hend]
  omega

theorem formatHeaders_eq (uuid : UuidText) (guid : Uuid) (fsize : UInt32) :
    formatHeaders uuid guid fsize = some (headerText uuid guid fsize) :=
  if_pos ((length_headerText_le uuid guid fsize).trans (by decide))

namespace PutRequest

/-- `PutRequest::new` for a job file that is there. -/
def new (guid : Uuid) (fsize : UInt32) (file : List UInt8) : PutRequest :=
  ⟨guid, fsize, file, 0, .empty, false, none⟩

/-! ## The callbacks -/

/-- The first part of `pump`: top up the staging buffer. -/
def refill (request : PutRequest) (read : ℕ) : PutRequest :=
  let free := bufCap - request.buf.toList.length
  if free > 0 then
    let bytes := (request.file.drop request.pos).take (min read free)
    { request with buf := request.buf.fill bytes, pos := request.pos + bytes.length }
  else request

/-- `PutRequest::pump`: its result, the request after it and the `tcp_write` call it makes, if any. -/
def pump (request : PutRequest) (turn : Turn) : Except Err Unit × PutRequest × List Write :=
  let request := request.refill turn.read
  let toSend := min request.buf.toList.length turn.sndbuf.toNat
  if toSend = 0 then (.ok (), request, [])
  else
    let write := ⟨request.buf.toList.take (UInt16.ofNat toSend).toNat, turn.sndbuf, turn.write⟩
    if turn.write ≠ .ok then
      -- out of memory only means to try again in the next callback
      (if turn.write = .mem then .ok () else .error turn.write, request, [write])
    else
      let rest := (request.buf.copyWithin toSend).truncate (request.buf.toList.length - toSend)
      (.ok (), { request with buf := rest }, [write])

/-- What `_connected` and `_sent` make of the result of `pump`. -/
def report : Except Err Unit × PutRequest × List Write → Err × PutRequest × List Write
  | (.error err, request, writes) => (err, { request with signal := some err }, writes)
  | (.ok (), request, writes) => (.ok, request, writes)

/-- `PutRequest::_connected`. -/
def connected (uuid : UuidText) (request : PutRequest) (err : Err) (turn : Turn) :
    Err × PutRequest × List Write :=
  if err ≠ .ok then (err, { request with signal := some err }, [])
  else
    match formatHeaders uuid request.guid request.fsize with
    | none => (.mem, { request with signal := some .mem }, [])
    | some headers =>
        let buf := (request.buf.extendFromSlice (asBytes headers)).getD request.buf
        report ({ request with buf := buf }.pump turn)

/-- `PutRequest::_sent`. -/
def sent (request : PutRequest) (turn : Turn) : Err × PutRequest × List Write :=
  report (request.pump turn)

/-- `PutRequest::_recv`: any data at all counts as the response. The last part is what has been
passed to `pbuf_free`. -/
def recv (request : PutRequest) (pbuf : Option Pbuf) (err : Err) :
    Err × PutRequest × List Pbuf :=
  if err ≠ .ok then (err, { request with signal := some err }, [])
  else
    match pbuf with
    | none => (.ok, { request with signal := some .clsd }, [])
    | some pbuf => (.ok, { request with signal := some .ok }, [pbuf])

/-- `PutRequest::_err`. -/
def err (request : PutRequest) (err : Err) : PutRequest :=
  { request with pcb := false, signal := some err }

end PutRequest

/-! ## Callback runs -/

/-- A request in progress: the `tcp_write` calls made so far, and the code `_connected` was called
with. -/
structure Transfer where
  request : PutRequest
  writes : List Write
  connected : Option Err

namespace Transfer

/-- `tcp_connect` has succeeded and the pcb is stored. -/
def start (guid : Uuid) (fsize : UInt32) (file : List UInt8) : Transfer :=
  ⟨{ PutRequest.new guid fsize file with pcb := true }, [], none⟩

/-- The callbacks lwIP makes. -/
inductive Event where
  | connected (err : Err) (turn : Turn)
  | sent (turn : Turn)
  | recv (pbuf : Option Pbuf) (err : Err)
  | err (err : Err)

/-- One callback. `_connected` comes once and before `_sent` and `_recv`; a pcb that has reported a
fatal error makes no further call. -/
def step (uuid : UuidText) (transfer : Transfer) : Event → Option Transfer
  | .connected err turn =>
      if transfer.request.pcb = true ∧ transfer.connected = none then
        let (_, request, writes) := transfer.request.connected uuid err turn
        some ⟨request, transfer.writes ++ writes, some err⟩
      else none
  | .sent turn =>
      if transfer.request.pcb = true ∧ transfer.connected = some .ok then
        let (_, request, writes) := transfer.request.sent turn
        some { transfer with request := request, writes := transfer.writes ++ writes }
      else none
  | .recv pbuf err =>
      if transfer.request.pcb = true ∧ transfer.connected = some .ok then
        some { transfer with request := (transfer.request.recv pbuf err).2.1 }
      else none
  | .err err =>
      if transfer.request.pcb = true then
        some { transfer with request := transfer.request.err err }
      else none

end Transfer

/-! ## One callback -/

namespace PutRequest

variable {request : PutRequest} {turn : Turn} {header earlier : List UInt8}

/-- What stays the same in every callback. -/
def SameJob (request after : PutRequest) : Prop :=
  after.guid = request.guid ∧ after.fsize = request.fsize ∧ after.file = request.file

/-- The bytes accepted earlier and the staged ones are the head followed by the bytes read so far. -/
def Faithful (header earlier : List UInt8) (request : PutRequest) : Prop :=
  earlier ++ request.buf.toList = header ++ request.file.take request.pos

/-- The bytes of a refill go from the file to the end of the buffer. -/
theorem Faithful.refill (h : request.Faithful header earlier) (read : ℕ) :
    (request.refill read).Faithful header earlier := by
  unfold PutRequest.refill
  dsimp only
  split
  next hfree =>
    set bytes := (request.file.drop request.pos).take (min read (bufCap - request.buf.toList.length))
      with hbytes
    have hfits : bytes.length ≤ request.buf.spare := by
      rw [hbytes, List.length_take, Vec.spare]
      omega
    have hread : bytes = (request.file.drop request.pos).take bytes.length := by
      rw [hbytes, List.length_take, ← List.take_eq_take_min]
    calc
      earlier ++ (request.buf.fill bytes).toList = earlier ++ request.buf.toList ++ bytes := by
        rw [Vec.toList_fill_of_le _ _ hfits, List.append_assoc]
      _ = header ++ (request.file.take request.pos ++ bytes) := by rw [h, List.append_assoc]
      _ = header ++ request.file.take (request.pos + bytes.length) := by
        rw [List.take_add, ← hread]
  next => exact h

theorem sameJob_refill (request : PutRequest) (read : ℕ) : request.SameJob (request.refill read) := by
  unfold refill
  dsimp only
  split <;> exact ⟨rfl, rfl, rfl⟩

/-- What `pump` does after the refill: nothing, an offer that is refused, or one that is accepted and
leaves the rest in the buffer. -/
theorem pump_cases (request : PutRequest) (turn : Turn) :
    let staged := request.refill turn.read
    request.pump turn = (.ok (), staged, []) ∨
    ∃ count, 1 ≤ count ∧ count ≤ staged.buf.toList.length ∧ count ≤ turn.sndbuf.toNat ∧
      (turn.write ≠ .ok ∧
        request.pump turn = (if turn.write = .mem then .ok () else .error turn.write, staged,
          [⟨staged.buf.toList.take count, turn.sndbuf, turn.write⟩]) ∨
      turn.write = .ok ∧ ∃ rest : Vec UInt8 bufCap, rest.toList = staged.buf.toList.drop count ∧
        request.pump turn = (.ok (), { staged with buf := rest },
          [⟨staged.buf.toList.take count, turn.sndbuf, .ok⟩])) := by
  intro staged
  set count := min staged.buf.toList.length turn.sndbuf.toNat with hcount
  have hcast : (UInt16.ofNat count).toNat = count := by
    have hroom := turn.sndbuf.toNat_lt
    rw [UInt16.toNat_ofNat']
    omega
  by_cases hzero : count = 0
  · left
    simp only [pump]
    rw [if_pos hzero]
  · right
    refine ⟨count, Nat.one_le_iff_ne_zero.mpr hzero, min_le_left _ _, min_le_right _ _, ?_⟩
    by_cases hwrite : turn.write = .ok
    · refine .inr ⟨hwrite, _, Vec.toList_truncate_copyWithin staged.buf count, ?_⟩
      simp only [pump]
      rw [if_neg hzero, if_neg (not_not.mpr hwrite), hcast, hwrite]
    · refine .inl ⟨hwrite, ?_⟩
      simp only [pump]
      rw [if_neg hzero, if_pos hwrite, hcast]

theorem Faithful.pump (h : request.Faithful header earlier) (turn : Turn) :
    (request.pump turn).2.1.Faithful header (earlier ++ accepted (request.pump turn).2.2) := by
  have hstaged := h.refill turn.read
  obtain hidle | ⟨count, -, -, -, ⟨hwrite, hrefused⟩ | ⟨hwrite, rest, hrest, htaken⟩⟩ :=
    pump_cases request turn
  · rw [hidle]
    simpa [accepted] using hstaged
  · rw [hrefused]
    simpa [accepted, hwrite] using hstaged
  · rw [htaken]
    simpa [Faithful, accepted, hrest] using hstaged

/-- Every `tcp_write` is given some bytes, and no more than the buffer holds or lwIP has room for. -/
theorem length_of_mem_pump {write : Write} (h : write ∈ (request.pump turn).2.2) :
    1 ≤ write.bytes.length ∧ write.bytes.length ≤ min bufCap write.sndbuf.toNat := by
  have hstaged := (request.refill turn.read).buf.length_le
  obtain hidle | ⟨count, hpos, hle, hroom, ⟨-, hrefused⟩ | ⟨-, rest, -, htaken⟩⟩ :=
    pump_cases request turn
  · rw [hidle] at h
    cases h
  · rw [hrefused] at h
    rw [List.mem_singleton.mp h, List.length_take_of_le hle]
    exact ⟨hpos, le_min (hle.trans hstaged) hroom⟩
  · rw [htaken] at h
    rw [List.mem_singleton.mp h, List.length_take_of_le hle]
    exact ⟨hpos, le_min (hle.trans hstaged) hroom⟩

theorem sameJob_pump (request : PutRequest) (turn : Turn) :
    request.SameJob (request.pump turn).2.1 := by
  have hstaged := sameJob_refill request turn.read
  obtain hidle | ⟨count, -, -, -, ⟨-, hrefused⟩ | ⟨-, rest, -, htaken⟩⟩ := pump_cases request turn
  · rwa [hidle]
  · rwa [hrefused]
  · rw [htaken]
    exact hstaged

@[simp]
theorem report_writes (result : Except Err Unit × PutRequest × List Write) :
    (report result).2.2 = result.2.2 := by
  obtain ⟨_ | _, _, _⟩ := result <;> rfl

/-- Reporting a result leaves the job, the file position and the buffer alone. -/
theorem report_request (result : Except Err Unit × PutRequest × List Write) :
    ∃ signal, (report result).2.1 = { result.2.1 with signal := signal } := by
  obtain ⟨_ | _, request, _⟩ := result
  · exact ⟨_, rfl⟩
  · exact ⟨request.signal, rfl⟩

theorem Faithful.sent (h : request.Faithful header earlier) (turn : Turn) :
    (request.sent turn).2.1.Faithful header (earlier ++ accepted (request.sent turn).2.2) := by
  obtain ⟨signal, hsame⟩ := report_request (request.pump turn)
  have hpump := h.pump turn
  rw [PutRequest.sent, hsame, report_writes]
  exact hpump

theorem sameJob_sent (request : PutRequest) (turn : Turn) :
    request.SameJob (request.sent turn).2.1 := by
  obtain ⟨signal, hsame⟩ := report_request (request.pump turn)
  rw [sent, hsame]
  exact sameJob_pump request turn

theorem length_of_mem_sent {write : Write} (h : write ∈ (request.sent turn).2.2) :
    1 ≤ write.bytes.length ∧ write.bytes.length ≤ min bufCap write.sndbuf.toNat := by
  rw [sent, report_writes] at h
  exact length_of_mem_pump h

/-- A request that connects puts the head into its buffer and goes on as in `_sent`. -/
theorem connected_ok (uuid : UuidText) (hbuf : request.buf.toList = []) (turn : Turn) :
    ∃ buf : Vec UInt8 bufCap, buf.toList = asBytes (headerText uuid request.guid request.fsize) ∧
      request.connected uuid .ok turn = { request with buf := buf }.sent turn := by
  have hfits : (request.buf.toList ++ asBytes (headerText uuid request.guid request.fsize)).length ≤
      bufCap := by
    rw [hbuf, List.nil_append]
    exact (length_headerText_le _ _ _).trans (by decide)
  refine ⟨⟨_, hfits⟩, congrArg (· ++ asBytes (headerText uuid request.guid request.fsize)) hbuf, ?_⟩
  simp only [connected, ne_eq, not_true, if_false, formatHeaders_eq,
    Vec.extendFromSlice_of_le _ _ hfits, Option.getD_some, sent]

theorem connected_err (uuid : UuidText) {err : Err} (herr : err ≠ .ok) (turn : Turn) :
    request.connected uuid err turn = (err, { request with signal := some err }, []) :=
  if_pos herr

theorem recv_request (request : PutRequest) (pbuf : Option Pbuf) (err : Err) :
    ∃ signal, (request.recv pbuf err).2.1 = { request with signal := signal } := by
  unfold recv
  split
  · exact ⟨_, rfl⟩
  · split <;> exact ⟨_, rfl⟩

end PutRequest

/-! ## Whole runs -/

namespace Transfer

open PutRequest

variable {uuid : UuidText} {guid : Uuid} {fsize : UInt32} {file : List UInt8}
  {transfer after : Transfer}

/-- What a callback does, and when lwIP makes it. -/
inductive Steps (uuid : UuidText) (transfer : Transfer) : Event → Transfer → Prop
  | connected {err : Err} {turn : Turn} (hpcb : transfer.request.pcb = true)
      (hidle : transfer.connected = none) :
      Steps uuid transfer (.connected err turn)
        ⟨(transfer.request.connected uuid err turn).2.1,
          transfer.writes ++ (transfer.request.connected uuid err turn).2.2, some err⟩
  | sent {turn : Turn} (hpcb : transfer.request.pcb = true)
      (hconnected : transfer.connected = some .ok) :
      Steps uuid transfer (.sent turn)
        ⟨(transfer.request.sent turn).2.1, transfer.writes ++ (transfer.request.sent turn).2.2,
          transfer.connected⟩
  | recv {pbuf : Option Pbuf} {err : Err} (hpcb : transfer.request.pcb = true)
      (hconnected : transfer.connected = some .ok) :
      Steps uuid transfer (.recv pbuf err)
        { transfer with request := (transfer.request.recv pbuf err).2.1 }
  | err {err : Err} (hpcb : transfer.request.pcb = true) :
      Steps uuid transfer (.err err) { transfer with request := transfer.request.err err }

theorem steps_of_step {event : Event} (h : transfer.step uuid event = some after) :
    Steps uuid transfer event after := by
  cases event with
  | connected err turn =>
      obtain ⟨⟨hpcb, hidle⟩, hafter⟩ := Option.ite_none_right_eq_some.mp h
      rw [← Option.some.inj hafter]
      exact .connected hpcb hidle
  | sent turn =>
      obtain ⟨⟨hpcb, hconnected⟩, hafter⟩ := Option.ite_none_right_eq_some.mp h
      rw [← Option.some.inj hafter]
      exact .sent hpcb hconnected
  | recv pbuf err =>
      obtain ⟨⟨hpcb, hconnected⟩, hafter⟩ := Option.ite_none_right_eq_some.mp h
      rw [← Option.some.inj hafter]
      exact .recv hpcb hconnected
  | err err =>
      obtain ⟨hpcb, hafter⟩ := Option.ite_none_right_eq_some.mp h
      rw [← Option.some.inj hafter]
      exact .err hpcb

/-- What holds between callbacks. -/
structure Streaming (uuid : UuidText) (guid : Uuid) (fsize : UInt32) (file : List UInt8)
    (transfer : Transfer) : Prop where
  job : transfer.request.guid = guid ∧ transfer.request.fsize = fsize ∧ transfer.request.file = file
  idle : transfer.connected = none →
    transfer.request.buf.toList = [] ∧ transfer.request.pos = 0 ∧ transfer.writes = []
  faithful : transfer.connected = some .ok →
    transfer.request.Faithful (asBytes (headerText uuid guid fsize)) (accepted transfer.writes)
  writes : ∀ write ∈ transfer.writes,
    1 ≤ write.bytes.length ∧ write.bytes.length ≤ min bufCap write.sndbuf.toNat

theorem streaming_start : (start guid fsize file).Streaming uuid guid fsize file := by
  refine ⟨⟨rfl, rfl, rfl⟩, fun _ ↦ ⟨rfl, rfl, rfl⟩, ?_, ?_⟩
  · intro hconnected
    cases hconnected
  · intro write hwrite
    cases hwrite

/-- Neither the signal nor the pcb pointer is part of it. -/
theorem Streaming.congr (h : transfer.Streaming uuid guid fsize file) (pcb : Bool)
    (signal : Option Err) :
    { transfer with request := { transfer.request with pcb := pcb, signal := signal } }.Streaming
      uuid guid fsize file :=
  ⟨h.job, h.idle, h.faithful, h.writes⟩

/-- `_sent` on a request that meets it. -/
theorem Streaming.sent (request : PutRequest) (writes : List Write)
    (hjob : request.guid = guid ∧ request.fsize = fsize ∧ request.file = file)
    (hfaithful : request.Faithful (asBytes (headerText uuid guid fsize)) (accepted writes))
    (hwrites : ∀ write ∈ writes,
      1 ≤ write.bytes.length ∧ write.bytes.length ≤ min bufCap write.sndbuf.toNat) (turn : Turn) :
    Streaming uuid guid fsize file
      ⟨(request.sent turn).2.1, writes ++ (request.sent turn).2.2, some .ok⟩ := by
  obtain ⟨hguid, hfsize, hfile⟩ := sameJob_sent request turn
  refine ⟨⟨hguid.trans hjob.1, hfsize.trans hjob.2.1, hfile.trans hjob.2.2⟩, ?_, ?_, ?_⟩
  · intro hidle
    cases hidle
  · intro _
    rw [accepted_append]
    exact hfaithful.sent turn
  · intro write hwrite
    rcases List.mem_append.mp hwrite with hold | hnew
    · exact hwrites write hold
    · exact length_of_mem_sent hnew

theorem Streaming.connected (h : transfer.Streaming uuid guid fsize file)
    (hidle : transfer.connected = none) (err : Err) (turn : Turn) :
    Streaming uuid guid fsize file ⟨(transfer.request.connected uuid err turn).2.1,
      transfer.writes ++ (transfer.request.connected uuid err turn).2.2, some err⟩ := by
  obtain ⟨hbuf, hpos, hnone⟩ := h.idle hidle
  by_cases herr : err = .ok
  · subst herr
    obtain ⟨buf, hheader, hsent⟩ := connected_ok uuid hbuf turn
    have hfaithful : { transfer.request with buf := buf }.Faithful
        (asBytes (headerText uuid guid fsize)) (accepted transfer.writes) := by
      rw [Faithful, hnone, hheader, h.job.1, h.job.2.1]
      change [] ++ _ = _ ++ transfer.request.file.take transfer.request.pos
      rw [hpos, List.nil_append, List.take_zero, List.append_nil]
    rw [hsent]
    exact Streaming.sent { transfer.request with buf := buf } transfer.writes h.job hfaithful
      h.writes turn
  · rw [connected_err uuid herr, List.append_nil]
    refine ⟨h.job, ?_, ?_, h.writes⟩
    · intro hcontra
      cases hcontra
    · intro hok
      exact absurd (Option.some.inj hok) herr

theorem Streaming.step (h : transfer.Streaming uuid guid fsize file) {event : Event}
    (hstep : transfer.step uuid event = some after) : after.Streaming uuid guid fsize file := by
  cases steps_of_step hstep with
  | connected _ hidle => exact h.connected hidle _ _
  | sent _ hconnected =>
      rw [hconnected]
      exact Streaming.sent transfer.request transfer.writes h.job (h.faithful hconnected) h.writes _
  | @recv pbuf err _ _ =>
      obtain ⟨signal, hsame⟩ := recv_request transfer.request pbuf err
      rw [hsame]
      exact h.congr transfer.request.pcb signal
  | @err err _ => exact h.congr false (some err)

theorem Streaming.of_reaches
    (h : Reaches (Transfer.step uuid) Unrestricted (start guid fsize file) transfer) :
    transfer.Streaming uuid guid fsize file :=
  h.invariant (Streaming uuid guid fsize file) streaming_start fun _ _ _ hbefore _ hstep ↦
    hbefore.step hstep

/-- The sender neither loses nor repeats nor reorders a byte: after every callback the accepted bytes
followed by the staged ones are the head followed by the file bytes read so far, the staging buffer
is within its bounds, and so was every `tcp_write`. -/
theorem accepted_append_buf (uuid : UuidText) (guid : Uuid) (fsize : UInt32) (file : List UInt8)
    {transfer : Transfer}
    (h : Reaches (Transfer.step uuid) Unrestricted (start guid fsize file) transfer) :
    (transfer.connected = some .ok →
      accepted transfer.writes ++ transfer.request.buf.toList =
        asBytes (headerText uuid guid fsize) ++ file.take transfer.request.pos) ∧
    transfer.request.buf.toList.length ≤ 1024 ∧
    ∀ write ∈ transfer.writes,
      1 ≤ write.bytes.length ∧ write.bytes.length ≤ min 1024 write.sndbuf.toNat := by
  have hinv := Streaming.of_reaches h
  refine ⟨?_, transfer.request.buf.length_le, hinv.writes⟩
  intro hconnected
  have hfaithful := hinv.faithful hconnected
  rw [Faithful, hinv.job.2.2] at hfaithful
  exact hfaithful

/-- A short read, a full send buffer and a retry. -/
def retried : List Event :=
  [.connected .ok ⟨2, 100, .ok⟩, .sent ⟨0, 7, .mem⟩, .sent ⟨1024, 0, .ok⟩,
    .sent ⟨1024, 65535, .ok⟩]

theorem accepted_append_buf_after_retried :
    ∃ transfer, Reaches (Transfer.step .hyphenated) Unrestricted
        (start ⟨7⟩ 6 (asBytes "G28\nG1".toList)) transfer ∧ transfer.request.buf.toList = [] ∧
      accepted transfer.writes =
        asBytes (headerText .hyphenated ⟨7⟩ 6) ++ asBytes "G28\nG1".toList := by
  obtain ⟨transfer, hreach, hconnected, hbuf, hpos⟩ := exists_reaches_of_runIf
    (Transfer.step .hyphenated) Unrestricted (start ⟨7⟩ 6 (asBytes "G28\nG1".toList)) retried
    (fun transfer ↦ transfer.connected = some .ok ∧ transfer.request.buf.toList = [] ∧
      transfer.request.pos = 6) (by decide +kernel)
  have hstream := (accepted_append_buf .hyphenated ⟨7⟩ 6 _ hreach).1 hconnected
  rw [hbuf, hpos, List.append_nil] at hstream
  exact ⟨transfer, hreach, hbuf, hstream⟩

end Transfer

end Derusting.Lwip
