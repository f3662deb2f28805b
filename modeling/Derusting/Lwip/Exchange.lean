import Derusting.Http.Request
import Derusting.Lwip.Outcome

/-!
# The exchange with the peer

A `PUT` seen with its peer: how much of what `tcp_write` has taken over the peer has acknowledged, and
which of the bytes it answers with have been delivered.  lwIP calls `_sent` for bytes that are newly
acknowledged and `_recv` for the next bytes of the answer.

Two things depend on the peer.  `_recv` takes any data at all for the response, so `send` reports a
transfer that the peer has refused, or has answered early.  And `pump` relies on a later `_sent`
whenever it writes nothing, which does not come when no byte is outstanding.
-/

namespace Derusting.Lwip

open Foundations.Bounded Foundations.Text Foundations.Transition

/-! ## Progress of a transfer -/

namespace PutRequest

variable {request : PutRequest} {turn : Turn}

theorem refusal_ne_ok (request : PutRequest) (turn : Turn) : request.refusal turn ≠ some .ok := by
  unfold refusal
  split
  next hrefused => exact fun hok ↦ hrefused.2.1 (Option.some.inj hok)
  next => exact nofun

/-- An offer that is accepted hands some bytes over. -/
theorem length_accepted_sent (hoffers : request.Offers turn) (hwrite : turn.write = .ok) :
    0 < (accepted (request.sent turn).2.2).length := by
  have hsome := Nat.pos_iff_ne_zero.mp hoffers
  obtain ⟨write, hwrites, herr⟩ : ∃ write, (request.pump turn).2.2 = [write] ∧ write.err = .ok := by
    simp only [pump, if_neg hsome, hwrite]
    exact ⟨_, rfl, rfl⟩
  have hlength : 0 < write.bytes.length :=
    (length_of_mem_pump (hwrites ▸ List.mem_singleton_self write)).1
  rw [sent, report_writes, hwrites]
  simpa [accepted, herr] using hlength

/-- An offer that meets anything but a lack of memory hands bytes over or is signalled. -/
theorem moves_sent (hoffers : request.Offers turn) (hwrite : turn.write ≠ .mem)
    (hquiet : (request.sent turn).2.1.signal = none) :
    0 < (accepted (request.sent turn).2.2).length := by
  by_cases hok : turn.write = .ok
  · exact length_accepted_sent hoffers hok
  · rw [signal_sent, refusal, if_pos ⟨hoffers, hok, hwrite⟩] at hquiet
    cases hquiet

end PutRequest

namespace Transfer

open PutRequest

variable {uuid : UuidText} {guid : Uuid} {fsize : UInt32} {file : List UInt8}
  {transfer after : Transfer} {event : Event}

/-- The head and the whole file have been accepted. -/
def Complete (uuid : UuidText) (transfer : Transfer) : Prop :=
  accepted transfer.writes =
    asBytes (headerText uuid transfer.request.guid transfer.request.fsize) ++ transfer.request.file

instance (uuid : UuidText) (transfer : Transfer) : Decidable (transfer.Complete uuid) :=
  inferInstanceAs (Decidable (_ = _))

/-- What has been accepted stays so; only a connected transfer writes more. -/
theorem exists_accepted_step (h : transfer.step uuid event = some after) :
    ∃ more, accepted after.writes = accepted transfer.writes ++ more ∧
      (after.connected ≠ some .ok → more = []) := by
  cases steps_of_step h with
  | connected _ _ =>
      refine ⟨_, accepted_append _ _, ?_⟩
      intro herr
      rw [connected_err uuid fun hok ↦ herr (congrArg some hok)]
      rfl
  | sent _ hconnected => exact ⟨_, accepted_append _ _, fun herr ↦ absurd hconnected herr⟩
  | recv _ _ => exact ⟨[], (List.append_nil _).symm, fun _ ↦ rfl⟩
  | err _ => exact ⟨[], (List.append_nil _).symm, fun _ ↦ rfl⟩

/-- No more is written than there is, so a complete transfer stays complete. -/
theorem Complete.step (h : transfer.Complete uuid)
    (hstreaming : transfer.Streaming uuid guid fsize file)
    (hstep : transfer.step uuid event = some after) : after.Complete uuid := by
  have hafter := hstreaming.step hstep
  obtain ⟨more, haccepted, hquiet⟩ := exists_accepted_step hstep
  unfold Complete at h ⊢
  rw [hstreaming.job.1, hstreaming.job.2.1, hstreaming.job.2.2] at h
  rw [hafter.job.1, hafter.job.2.1, hafter.job.2.2, haccepted, h]
  by_cases hconnected : after.connected = some .ok
  · have hfaithful := hafter.faithful hconnected
    rw [Faithful, haccepted, h, hafter.job.2.2] at hfaithful
    have hlength := congrArg List.length hfaithful
    simp only [List.length_append, List.length_take] at hlength
    have hnil : more = [] := List.length_eq_zero_iff.mp (by omega)
    rw [hnil, List.append_nil]
  · rw [hquiet hconnected, List.append_nil]

/-- A `_connected` or `_sent` that offers lwIP something, and neither meets a lack of memory nor signals,
makes progress. -/
theorem length_accepted_lt_sent {turn : Turn} (h : transfer.step uuid (.sent turn) = some after)
    (hoffers : transfer.request.Offers turn) (hwrite : turn.write ≠ .mem)
    (hquiet : after.request.signal = none) :
    (accepted transfer.writes).length < (accepted after.writes).length := by
  cases steps_of_step h
  rw [accepted_append, List.length_append]
  exact Nat.lt_add_of_pos_right (moves_sent hoffers hwrite hquiet)

theorem length_accepted_lt_connected {turn : Turn}
    (h : transfer.step uuid (.connected .ok turn) = some after)
    (hoffers : (transfer.request.greeting uuid).Offers turn) (hwrite : turn.write ≠ .mem)
    (hquiet : after.request.signal = none) :
    (accepted transfer.writes).length < (accepted after.writes).length := by
  have hsent := moves_sent hoffers hwrite
  rw [← connected_greeting] at hsent
  cases steps_of_step h
  rw [accepted_append, List.length_append]
  exact Nat.lt_add_of_pos_right (hsent hquiet)

theorem connected_step {err : Err} {turn : Turn}
    (h : transfer.step uuid (.connected err turn) = some after) : after.connected = some err := by
  cases steps_of_step h
  rfl

end Transfer

/-! ## Exchanges -/

/-- A transfer with the number of bytes the peer has acknowledged and the part of its answer that has
been delivered. -/
structure Exchange where
  transfer : Transfer
  acked : ℕ
  received : List UInt8

namespace Exchange

open PutRequest Transfer

variable {uuid : UuidText} {guid : Uuid} {fsize : UInt32} {file response : List UInt8}
  {exchange after : Exchange}

def start (guid : Uuid) (fsize : UInt32) (file : List UInt8) : Exchange :=
  ⟨.start guid fsize file, 0, []⟩

/-- The callbacks with their arguments; `_sent` is told how many bytes are newly acknowledged. -/
inductive Event where
  | connected (err : Err) (turn : Turn)
  | sent (len : ℕ) (turn : Turn)
  | recv (pbuf : Option Pbuf) (err : Err)
  | err (err : Err)

/-- The callback as the transfer sees it. -/
def Event.callback : Event → Transfer.Event
  | .connected code turn => .connected code turn
  | .sent _ turn => .sent turn
  | .recv pbuf code => .recv pbuf code
  | .err code => .err code

/-- The bytes a callback reports as acknowledged. -/
def Event.len : Event → ℕ
  | .sent len _ => len
  | .connected _ _ | .recv _ _ | .err _ => 0

/-- The bytes of the answer a callback delivers. -/
def Event.data : Event → List UInt8
  | .recv (some pbuf) .ok => pbuf.chunks.flatten
  | .connected _ _ | .sent _ _ | .recv _ _ | .err _ => []

/-- When lwIP makes a callback: `_sent` for bytes that were accepted and not acknowledged before,
`_recv` for the next bytes of what the peer answers, `_err` with an error. -/
def Allowed (response : List UInt8) (exchange : Exchange) : Event → Prop
  | .connected _ _ => True
  | .sent len _ => 0 < len ∧ exchange.acked + len ≤ (accepted exchange.transfer.writes).length
  | .recv pbuf err =>
      exchange.received ++ (Event.recv pbuf err).data <+: response ∧
        (pbuf.isSome → err = .ok → (Event.recv pbuf err).data ≠ [])
  | .err err => err ≠ .ok

instance (response : List UInt8) (exchange : Exchange) :
    DecidablePred (exchange.Allowed response)
  | .connected _ _ => inferInstanceAs (Decidable True)
  | .sent _ _ => inferInstanceAs (Decidable (_ ∧ _))
  | .recv pbuf err => inferInstanceAs (Decidable (_ ∧ (pbuf.isSome → err = .ok → _)))
  | .err err => inferInstanceAs (Decidable (err ≠ .ok))

/-- One callback that lwIP makes; `response` is all the peer answers. -/
def step (uuid : UuidText) (response : List UInt8) (exchange : Exchange) (event : Event) :
    Option Exchange :=
  if exchange.Allowed response event then
    (exchange.transfer.step uuid event.callback).map fun transfer ↦
      ⟨transfer, exchange.acked + event.len, exchange.received ++ event.data⟩
  else none

theorem step_eq_some {event : Event} (h : exchange.step uuid response event = some after) :
    exchange.Allowed response event ∧
      exchange.transfer.step uuid event.callback = some after.transfer ∧
      after.acked = exchange.acked + event.len := by
  obtain ⟨hallowed, hafter⟩ := Option.ite_none_right_eq_some.mp h
  obtain ⟨transfer, hstep, rfl⟩ := Option.map_eq_some_iff.mp hafter
  exact ⟨hallowed, hstep, rfl⟩

/-- Only data from the peer is signalled as a success. -/
theorem data_of_signalled {event : Event} (hallowed : exchange.Allowed response event)
    (h : exchange.transfer.signalled uuid event.callback = some .ok) :
    ∃ pbuf, event = .recv (some pbuf) .ok := by
  cases event with
  | connected err turn =>
      by_cases herr : err = .ok
      · rw [herr] at h
        exact absurd h (refusal_ne_ok _ turn)
      · simp [Event.callback, signalled, herr] at h
  | sent len turn => exact absurd h (refusal_ne_ok _ turn)
  | recv pbuf err =>
      by_cases herr : err = .ok
      · cases pbuf with
        | none => simp [Event.callback, signalled, answer, herr] at h
        | some pbuf => exact ⟨pbuf, by rw [herr]⟩
      · simp [Event.callback, signalled, answer, herr] at h
  | err err => exact absurd (Option.some.inj h) hallowed

theorem streaming_of_step {event : Event}
    (h : exchange.transfer.Streaming uuid guid fsize file)
    (hstep : exchange.step uuid response event = some after) :
    after.transfer.Streaming uuid guid fsize file :=
  h.step (step_eq_some hstep).2.1

/-! ## Reported transfers -/

/-- The status code of an HTTP response: the three bytes behind the first space. -/
def statusCode (response : List UInt8) : List UInt8 :=
  ((response.dropWhile (· ≠ 32)).drop 1).take 3

def IsSuccess (response : List UInt8) : Prop := statusCode response = asBytes "200".toList

instance (response : List UInt8) : Decidable (IsSuccess response) :=
  inferInstanceAs (Decidable (_ = _))

example : IsSuccess (asBytes Http.ok) ∧ ¬ IsSuccess (asBytes Http.badRequest) := by decide +kernel

/-- Data of the peer comes only when the transfer is complete, and belongs to a success response. -/
def Earned (uuid : UuidText) (response : List UInt8) (exchange : Exchange) : Event → Prop
  | .recv pbuf err =>
      pbuf.isSome → err = .ok → exchange.transfer.Complete uuid ∧ IsSuccess response
  | .connected _ _ | .sent _ _ | .err _ => True

instance (uuid : UuidText) (response : List UInt8) (exchange : Exchange) :
    DecidablePred (exchange.Earned uuid response)
  | .recv pbuf err => inferInstanceAs (Decidable (pbuf.isSome → err = .ok → _))
  | .connected _ _ | .sent _ _ | .err _ => inferInstanceAs (Decidable True)

/-- A success that has been signalled is one. -/
structure Truthful (uuid : UuidText) (guid : Uuid) (fsize : UInt32) (file response : List UInt8)
    (exchange : Exchange) : Prop where
  streaming : exchange.transfer.Streaming uuid guid fsize file
  earned : exchange.transfer.request.signal = some .ok →
    exchange.transfer.Complete uuid ∧ IsSuccess response

theorem truthful_start :
    (start guid fsize file).Truthful uuid guid fsize file response :=
  ⟨streaming_start, fun hsignal ↦ nomatch hsignal⟩

theorem Truthful.step (h : exchange.Truthful uuid guid fsize file response) {event : Event}
    (hguard : exchange.Earned uuid response event)
    (hstep : exchange.step uuid response event = some after) :
    after.Truthful uuid guid fsize file response := by
  obtain ⟨hallowed, htransfer, -⟩ := step_eq_some hstep
  refine ⟨streaming_of_step h.streaming hstep, ?_⟩
  intro hsignal
  have hearned : exchange.transfer.Complete uuid ∧ IsSuccess response := by
    rw [signal_step htransfer, Option.or_eq_some_iff] at hsignal
    rcases hsignal with hnew | ⟨-, hold⟩
    · obtain ⟨pbuf, rfl⟩ := data_of_signalled hallowed hnew
      exact hguard rfl rfl
    · exact h.earned hold
  exact ⟨hearned.1.step h.streaming htransfer, hearned.2⟩

/-- In every exchange in which the peer answers only when it has been sent everything, and then with a
success, a transfer that `send` reports is complete and was answered with a success. -/
theorem reported_of_earned (uuid : UuidText) (guid : Uuid) (fsize : UInt32)
    (file response : List UInt8) {exchange : Exchange}
    (h : Reaches (step uuid response) (Earned uuid response) (start guid fsize file) exchange)
    (hok : exchange.transfer.request.poll = some (.ok ())) :
    accepted exchange.transfer.writes = asBytes (headerText uuid guid fsize) ++ file ∧
      IsSuccess response := by
  have htruthful : exchange.Truthful uuid guid fsize file response :=
    h.invariant (Truthful uuid guid fsize file response) truthful_start
      fun _ _ _ hbefore hguard hstep ↦ hbefore.step hguard hstep
  obtain ⟨err, hsignal, hresult⟩ := Option.map_eq_some_iff.mp hok
  obtain rfl := result_eq_ok.mp hresult
  obtain ⟨hcomplete, hsuccess⟩ := htruthful.earned hsignal
  obtain ⟨hguid, hfsize, hfile⟩ := htruthful.streaming.job
  rw [Complete, hguid, hfsize, hfile] at hcomplete
  exact ⟨hcomplete, hsuccess⟩

/-- An upload that the peer acknowledges and then answers. -/
def answered (text : List Char) : List Event :=
  [.connected .ok ⟨1024, 65535, .ok⟩, .sent 1 ⟨1024, 65535, .ok⟩,
    .recv (some ⟨0, [asBytes text]⟩) .ok]

theorem reported_after_ok :
    ∃ exchange, Reaches (step .hyphenated (asBytes Http.ok)) (Earned .hyphenated (asBytes Http.ok))
        (start ⟨7⟩ 3 (asBytes "G28".toList)) exchange ∧
      accepted exchange.transfer.writes =
        asBytes (headerText .hyphenated ⟨7⟩ 3) ++ asBytes "G28".toList := by
  obtain ⟨exchange, hreach, hok⟩ := exists_reaches_of_runIf (step .hyphenated (asBytes Http.ok))
    (Earned .hyphenated (asBytes Http.ok)) (start ⟨7⟩ 3 (asBytes "G28".toList)) (answered Http.ok)
    (fun exchange ↦ exchange.transfer.request.poll = some (.ok ())) (by decide +kernel)
  exact ⟨exchange, hreach, (reported_of_earned .hyphenated ⟨7⟩ 3 _ _ hreach hok).1⟩

/-- A 400 that arrives before the file has been sent is reported as a transfer. -/
theorem reported_after_badRequest :
    ∃ exchange, Reaches (step .hyphenated (asBytes Http.badRequest)) Unrestricted
        (start ⟨7⟩ 3 (asBytes "G28".toList)) exchange ∧
      exchange.transfer.request.poll = some (.ok ()) ∧
      ¬ exchange.transfer.Complete .hyphenated ∧ ¬ IsSuccess (asBytes Http.badRequest) :=
  exists_reaches_of_runIf (step .hyphenated (asBytes Http.badRequest)) Unrestricted
    (start ⟨7⟩ 3 (asBytes "G28".toList))
    [.connected .ok ⟨0, 65535, .ok⟩, .recv (some ⟨0, [asBytes Http.badRequest]⟩) .ok]
    (fun exchange ↦ exchange.transfer.request.poll = some (.ok ()) ∧
      ¬ exchange.transfer.Complete .hyphenated ∧ ¬ IsSuccess (asBytes Http.badRequest))
    (by decide +kernel)

/-! ## Stalls -/

/-- Connected, with nothing signalled, something left to send and no byte outstanding: no callback is
due, and `send` waits for good. -/
def Stalled (uuid : UuidText) (exchange : Exchange) : Prop :=
  exchange.transfer.connected = some .ok ∧ exchange.transfer.request.signal = none ∧
    ¬ exchange.transfer.Complete uuid ∧
    (accepted exchange.transfer.writes).length ≤ exchange.acked

instance (uuid : UuidText) (exchange : Exchange) : Decidable (exchange.Stalled uuid) :=
  inferInstanceAs (Decidable (_ ∧ _))

/-- A callback that is to pump either offers lwIP something that does not meet a lack of memory, or is
not the last hope: bytes are still outstanding, the transfer is complete, or `send` will return. -/
def Moves (uuid : UuidText) (exchange : Exchange) : Event → Prop
  | .connected err turn =>
      err = .ok → (exchange.transfer.request.greeting uuid).Offers turn ∧ turn.write ≠ .mem
  | .sent len turn =>
      exchange.acked + len < (accepted exchange.transfer.writes).length ∨
        exchange.transfer.request.signal ≠ none ∨ exchange.transfer.Complete uuid ∨
        exchange.transfer.request.Offers turn ∧ turn.write ≠ .mem
  | .recv _ _ | .err _ => True

instance (uuid : UuidText) (exchange : Exchange) : DecidablePred (exchange.Moves uuid)
  | .connected err _ => inferInstanceAs (Decidable (err = .ok → _))
  | .sent _ _ => inferInstanceAs (Decidable (_ ∨ _))
  | .recv _ _ | .err _ => inferInstanceAs (Decidable True)

/-- Nothing is acknowledged that was not accepted, and an exchange that is not over has a byte
outstanding. -/
structure Live (uuid : UuidText) (guid : Uuid) (fsize : UInt32) (file : List UInt8)
    (exchange : Exchange) : Prop where
  streaming : exchange.transfer.Streaming uuid guid fsize file
  acked : exchange.acked ≤ (accepted exchange.transfer.writes).length
  outstanding : exchange.transfer.connected = some .ok →
    exchange.transfer.request.signal = none → ¬ exchange.transfer.Complete uuid →
    exchange.acked < (accepted exchange.transfer.writes).length

theorem live_start : (start guid fsize file).Live uuid guid fsize file :=
  ⟨streaming_start, Nat.le_refl 0, fun hconnected ↦ nomatch hconnected⟩

theorem Live.step (h : exchange.Live uuid guid fsize file) {event : Event}
    (hguard : exchange.Moves uuid event)
    (hstep : exchange.step uuid response event = some after) :
    after.Live uuid guid fsize file := by
  obtain ⟨hallowed, htransfer, hacked⟩ := step_eq_some hstep
  obtain ⟨more, haccepted, -⟩ := exists_accepted_step htransfer
  have hlength : (accepted after.transfer.writes).length =
      (accepted exchange.transfer.writes).length + more.length := by
    rw [haccepted, List.length_append]
  have hsignal := signal_step htransfer
  refine ⟨streaming_of_step h.streaming hstep, ?_, ?_⟩
  · rw [hacked, hlength]
    cases event with
    | sent len turn => exact hallowed.2.trans (Nat.le_add_right _ _)
    | _ => exact h.acked.trans (Nat.le_add_right _ _)
  · intro hconnected hquiet hopen
    cases event with
    | connected err turn =>
        obtain rfl := Option.some.inj ((connected_step htransfer).symm.trans hconnected)
        obtain ⟨hoffers, hwrite⟩ := hguard rfl
        rw [hacked]
        exact h.acked.trans_lt (length_accepted_lt_connected htransfer hoffers hwrite hquiet)
    | sent len turn =>
        rw [hacked]
        rcases hguard with houtstanding | hsignalled | hcomplete | ⟨hoffers, hwrite⟩
        · rw [hlength]
          exact houtstanding.trans_le (Nat.le_add_right _ _)
        · rw [hquiet, eq_comm, Option.or_eq_none_iff] at hsignal
          exact absurd hsignal.2 hsignalled
        · exact absurd (hcomplete.step h.streaming htransfer) hopen
        · exact hallowed.2.trans_lt (length_accepted_lt_sent htransfer hoffers hwrite hquiet)
    | recv pbuf err =>
        rw [hquiet] at hsignal
        cases hsignal
    | err err =>
        rw [hquiet] at hsignal
        cases hsignal

/-- In every exchange in which no callback is the last hope and fails to offer anything, or meets a lack
of memory, no state is stalled. -/
theorem not_stalled_of_moves (uuid : UuidText) (guid : Uuid) (fsize : UInt32)
    (file response : List UInt8) {exchange : Exchange}
    (h : Reaches (step uuid response) (Moves uuid) (start guid fsize file) exchange)
    (hconnected : exchange.transfer.connected = some .ok)
    (hquiet : exchange.transfer.request.signal = none)
    (hopen : accepted exchange.transfer.writes ≠ asBytes (headerText uuid guid fsize) ++ file) :
    exchange.acked < (accepted exchange.transfer.writes).length := by
  have hlive : exchange.Live uuid guid fsize file :=
    h.invariant (Live uuid guid fsize file) live_start
      fun _ _ _ hbefore hguard hstep ↦ hbefore.step hguard hstep
  apply hlive.outstanding hconnected hquiet
  obtain ⟨hguid, hfsize, hfile⟩ := hlive.streaming.job
  rwa [Complete, hguid, hfsize, hfile]

/-- A small window leaves bytes outstanding after a partial acknowledgement. -/
theorem not_stalled_after_partial_ack :
    ∃ exchange, Reaches (step .hyphenated []) (Moves .hyphenated)
        (start ⟨7⟩ 3 (asBytes "G28".toList)) exchange ∧
      exchange.acked < (accepted exchange.transfer.writes).length := by
  obtain ⟨exchange, hreach, hconnected, hquiet, hopen⟩ := exists_reaches_of_runIf
    (step .hyphenated []) (Moves .hyphenated) (start ⟨7⟩ 3 (asBytes "G28".toList))
    [.connected .ok ⟨0, 10, .ok⟩, .sent 5 ⟨0, 0, .ok⟩]
    (fun exchange ↦ exchange.transfer.connected = some .ok ∧
      exchange.transfer.request.signal = none ∧
      accepted exchange.transfer.writes ≠
        asBytes (headerText .hyphenated ⟨7⟩ 3) ++ asBytes "G28".toList) (by decide +kernel)
  exact ⟨exchange, hreach,
    not_stalled_of_moves .hyphenated ⟨7⟩ 3 _ [] hreach hconnected hquiet hopen⟩

/-- When the first `tcp_write` finds no memory, nothing is outstanding and no callback is due. -/
theorem stalled_after_lack_of_memory :
    ∃ exchange, Reaches (step .hyphenated []) Unrestricted
        (start ⟨7⟩ 3 (asBytes "G28".toList)) exchange ∧ exchange.Stalled .hyphenated :=
  exists_reaches_of_runIf (step .hyphenated []) Unrestricted (start ⟨7⟩ 3 (asBytes "G28".toList))
    [.connected .ok ⟨1024, 65535, .mem⟩] (Stalled .hyphenated) (by decide +kernel)

end Exchange

end Derusting.Lwip
