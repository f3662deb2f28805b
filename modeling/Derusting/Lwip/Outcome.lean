import Derusting.Lwip.Put

/-!
# The result of a `PUT`

The callbacks of a `PutRequest` tell the task that waits in `send` through one `Signal`, which keeps
the value it was given last.  Several callbacks may signal before the task runs, so what `send` returns
depends on when that is, unless all of them signal the same code.
-/

namespace Derusting.Lwip

open Foundations.Bounded Foundations.Text Foundations.Transition

namespace PutRequest

variable {request : PutRequest} {turn : Turn}

/-- What `send` makes of the code it has waited for. -/
def result (err : Err) : Except Err Unit := if err ≠ .ok then .error err else .ok ()

/-- What `send` returns if its task runs now, or `none` if it goes on waiting. -/
def poll (request : PutRequest) : Option (Except Err Unit) := request.signal.map result

theorem result_injective : Function.Injective result := by
  intro left right hsame
  unfold result at hsame
  split at hsame
  · split at hsame
    · exact Except.error.inj hsame
    · cases hsame
  next hleft =>
    split at hsame
    · cases hsame
    next hright => rw [not_not.mp hleft, not_not.mp hright]

theorem result_eq_ok {err : Err} : result err = .ok () ↔ err = .ok := by
  unfold result
  split
  next herr => exact iff_of_false nofun herr
  next herr => exact iff_of_true rfl (not_not.mp herr)

/-- Something is staged after the refill and lwIP has room, so that `pump` calls `tcp_write`. -/
def Offers (request : PutRequest) (turn : Turn) : Prop :=
  0 < min (request.refill turn.read).buf.toList.length turn.sndbuf.toNat

instance (request : PutRequest) (turn : Turn) : Decidable (request.Offers turn) :=
  inferInstanceAs (Decidable (_ < _))

/-- The code of a `tcp_write` that `pump` reports. -/
def refusal (request : PutRequest) (turn : Turn) : Option Err :=
  if request.Offers turn ∧ turn.write ≠ .ok ∧ turn.write ≠ .mem then some turn.write else none

/-- The request with the head in its buffer. -/
def greeting (uuid : UuidText) (request : PutRequest) : PutRequest :=
  let headers := asBytes (headerText uuid request.guid request.fsize)
  { request with buf := (request.buf.extendFromSlice headers).getD request.buf }

/-- `_connected` puts the head into the buffer and goes on as `_sent` does. -/
theorem connected_greeting (uuid : UuidText) (request : PutRequest) (turn : Turn) :
    request.connected uuid .ok turn = (request.greeting uuid).sent turn := by
  simp only [connected, ne_eq, not_true, if_false, formatHeaders_eq, sent, greeting]

theorem signal_refill (request : PutRequest) (read : ℕ) :
    (request.refill read).signal = request.signal := by
  unfold refill
  dsimp only
  split <;> rfl

theorem signal_sent (request : PutRequest) (turn : Turn) :
    (request.sent turn).2.1.signal = (request.refusal turn).or request.signal := by
  have hstaged := signal_refill request turn.read
  by_cases hoffers : request.Offers turn
  · have hsome := Nat.pos_iff_ne_zero.mp hoffers
    simp only [sent, pump, if_neg hsome, refusal, hoffers, true_and]
    by_cases hwrite : turn.write = .ok
    · simpa [hwrite, report] using hstaged
    · by_cases hmem : turn.write = .mem
      · simpa [hmem, report] using hstaged
      · simp [hwrite, hmem, report]
  · have hzero := Nat.eq_zero_of_not_pos hoffers
    simp only [sent, pump, if_pos hzero, refusal, hoffers, false_and, if_false, report,
      Option.none_or, hstaged]

/-- The code `_recv` signals: its error, or whether there is any data. -/
def answer (pbuf : Option Pbuf) (err : Err) : Err :=
  if err ≠ .ok then err else if pbuf.isSome then .ok else .clsd

theorem signal_recv (request : PutRequest) (pbuf : Option Pbuf) (err : Err) :
    (request.recv pbuf err).2.1.signal = some (answer pbuf err) := by
  by_cases herr : err = .ok
  · cases pbuf <;> simp [recv, answer, herr]
  · simp [recv, answer, herr]

end PutRequest

namespace Transfer

open PutRequest

variable {uuid : UuidText} {guid : Uuid} {fsize : UInt32} {file : List UInt8}
  {transfer after : Transfer} {callbacks : List Event}

/-- The code a callback signals, if it signals at all. -/
def signalled (uuid : UuidText) (transfer : Transfer) : Event → Option Err
  | .connected err turn =>
      if err ≠ .ok then some err else (transfer.request.greeting uuid).refusal turn
  | .sent turn => transfer.request.refusal turn
  | .recv pbuf err => some (answer pbuf err)
  | .err err => some err

/-- The signal holds the code of the last callback that has signalled. -/
theorem signal_step {event : Event} (h : transfer.step uuid event = some after) :
    after.request.signal = (transfer.signalled uuid event).or transfer.request.signal := by
  cases steps_of_step h with
  | @connected err turn _ _ =>
      by_cases herr : err = .ok
      · rw [signalled, herr, if_neg (not_not.mpr rfl), connected_greeting]
        exact signal_sent _ turn
      · rw [signalled, if_pos herr, connected_err uuid herr]
        rfl
  | sent _ _ => exact signal_sent transfer.request _
  | recv _ _ => exact signal_recv transfer.request _ _
  | err _ => rfl

/-- A callback does not change the code that has been signalled before it. -/
def Agrees (uuid : UuidText) (transfer : Transfer) (event : Event) : Prop :=
  ∀ earlier ∈ transfer.request.signal, ∀ later ∈ transfer.signalled uuid event, later = earlier

instance (uuid : UuidText) (transfer : Transfer) (event : Event) :
    Decidable (transfer.Agrees uuid event) :=
  inferInstanceAs (Decidable (∀ earlier ∈ transfer.request.signal, _))

theorem agrees_iff {event : Event} (h : transfer.step uuid event = some after) :
    transfer.Agrees uuid event ↔
      ∀ result, transfer.request.poll = some result → after.request.poll = some result := by
  have hsignal := signal_step h
  simp only [poll, hsignal]
  cases hearlier : transfer.request.signal with
  | none => simp [Agrees, hearlier]
  | some earlier =>
      cases hlater : transfer.signalled uuid event with
      | none => simp [Agrees, hlater]
      | some later =>
          simp only [Agrees, hearlier, hlater, Option.mem_def, Option.some.injEq, forall_eq',
            Option.some_or, Option.map_some]
          exact result_injective.eq_iff.symm

/-- What `send` returns if its task runs after these callbacks. -/
def resultAfter (uuid : UuidText) (transfer : Transfer) (callbacks : List Event) :
    Option (Except Err Unit) :=
  (runIf (step uuid) Unrestricted transfer callbacks).bind fun final ↦ final.request.poll

theorem resultAfter_cons {event : Event} (h : transfer.step uuid event = some after) :
    resultAfter uuid transfer (event :: callbacks) = resultAfter uuid after callbacks := by
  rw [resultAfter, runIf_unrestricted_cons, h, Option.bind_some, resultAfter]

/-- Once `send` has something to return, this stays so and stays the same. -/
def Steady (uuid : UuidText) (transfer : Transfer) (callbacks : List Event) : Prop :=
  ∀ first later, first ≤ later → later ≤ callbacks.length → ∀ result,
    resultAfter uuid transfer (callbacks.take first) = some result →
      resultAfter uuid transfer (callbacks.take later) = some result

theorem steady_nil : Steady uuid transfer [] := by
  intro first later _ _ result hresult
  simpa using hresult

/-- A run is steady exactly if its first callback agrees and the rest is steady. -/
theorem steady_cons {event : Event} (h : transfer.step uuid event = some after) :
    Steady uuid transfer (event :: callbacks) ↔
      transfer.Agrees uuid event ∧ Steady uuid after callbacks := by
  rw [agrees_iff h]
  constructor
  · intro hsteady
    constructor
    · intro result hresult
      have hone := hsteady 0 1 (Nat.zero_le 1) (Nat.le_add_left 1 _) result hresult
      rwa [List.take_succ_cons, List.take_zero, resultAfter_cons h] at hone
    · intro first later hle hlength result hresult
      rw [← resultAfter_cons h, ← List.take_succ_cons] at hresult ⊢
      exact hsteady (first + 1) (later + 1) (Nat.succ_le_succ hle) (Nat.succ_le_succ hlength)
        result hresult
  · rintro ⟨hagrees, hsteady⟩ first later hle hlength result hresult
    cases later with
    | zero =>
        obtain rfl := Nat.le_zero.mp hle
        exact hresult
    | succ later =>
        rw [List.take_succ_cons, resultAfter_cons h]
        have hshort : later ≤ callbacks.length := Nat.le_of_succ_le_succ hlength
        cases first with
        | zero => exact hsteady 0 later (Nat.zero_le later) hshort result (hagrees result hresult)
        | succ first =>
            rw [List.take_succ_cons, resultAfter_cons h] at hresult
            exact hsteady first later (Nat.le_of_succ_le_succ hle) hshort result hresult

theorem steady_iff_agrees (hrun : (runIf (step uuid) Unrestricted transfer callbacks).isSome) :
    Steady uuid transfer callbacks ↔
      (runIf (step uuid) (Agrees uuid) transfer callbacks).isSome := by
  induction callbacks generalizing transfer with
  | nil => exact iff_of_true steady_nil rfl
  | cons event callbacks ih =>
      obtain ⟨final, hfinal⟩ := Option.isSome_iff_exists.mp hrun
      obtain ⟨-, after, hstep, hrest⟩ := runIf_cons.mp hfinal
      rw [steady_cons hstep, ih (hrest ▸ rfl), runIf, hstep, Option.bind_some]
      by_cases hagrees : transfer.Agrees uuid event
      · rw [if_pos hagrees]
        exact and_iff_right hagrees
      · rw [if_neg hagrees]
        simp [hagrees]

/-- In a run of callbacks the moment at which the task runs makes no difference exactly if no callback
signals another code than the one before it. -/
theorem result_steady_iff (uuid : UuidText) (guid : Uuid) (fsize : UInt32) (file : List UInt8)
    (callbacks : List Event)
    (hrun : (runIf (step uuid) Unrestricted (start guid fsize file) callbacks).isSome) :
    Steady uuid (start guid fsize file) callbacks ↔
      (runIf (step uuid) (Agrees uuid) (start guid fsize file) callbacks).isSome :=
  steady_iff_agrees hrun

/-- The peer answers and then closes the connection. -/
def answeredAndClosed : List Event :=
  [.connected .ok ⟨1024, 65535, .ok⟩, .recv (some ⟨0, [asBytes "HTTP/1.1 200 OK".toList]⟩) .ok,
    .recv none .ok]

theorem result_steady_before_close :
    Steady .hyphenated (start ⟨7⟩ 3 (asBytes "G28".toList)) (answeredAndClosed.take 2) :=
  (result_steady_iff .hyphenated ⟨7⟩ 3 _ (answeredAndClosed.take 2) (by decide +kernel)).mpr
    (by decide +kernel)

/-- A task that runs between the two finds the answer, one that runs after both the close. -/
theorem result_unsteady_after_close :
    resultAfter .hyphenated (start ⟨7⟩ 3 (asBytes "G28".toList)) (answeredAndClosed.take 2) =
        some (.ok ()) ∧
      resultAfter .hyphenated (start ⟨7⟩ 3 (asBytes "G28".toList)) answeredAndClosed =
        some (.error .clsd) := by
  decide +kernel

end Transfer

end Derusting.Lwip
