import Derusting.Ring.Tasks
import Derusting.Foundations.Transition

/-!
# What a machine has heard

Runs of one machine on the packets it receives, with purges of the address book, uploads, rounds of
`manage_ledger` and time in between, in any order.  The machine is run together with the record of
the messages it has processed.  The idempotency history is the last part of that record, which
decides which messages are dropped; the address book after a purge is its recent part.
-/

namespace Derusting

open Foundations.Bounded Foundations.Transition

/-! ## Processing a message -/

/-- The message a packet carries; chunks behind the first are not read. -/
def message? (decode : List UInt8 → Option Message) (packet : List (List UInt8)) :
    Option Message :=
  packet.head?.bind decode

/-- What a payload does to the copy of the ledger. -/
def Payload.update (now : Instant) (jobs : Option LedgerState) : Payload → Option LedgerState
  | .newJob guid => jobs.map fun state ↦
      { state with ledger := { state.ledger with jobs := state.ledger.jobs.insert guid } }
  | .ledger carried => some (.new carried now)
  | .heartbeat _ | .log _ => jobs

theorem receiveMessage_of_notMem (sender : Ipv4Addr) {message : Message} {machine : Machine}
    (h : message.idempotency ∉ machine.history) :
    receiveMessage sender message machine =
      { machine with
        history := machine.history.write message.idempotency
        addresses := machine.addresses.insert sender machine.clock
        jobs := message.payload.update machine.clock machine.jobs } := by
  rw [receiveMessage, if_neg h]
  cases message.payload <;> rfl

theorem udpReceiver_eq (decode : List UInt8 → Option Message) (sender : Ipv4Addr)
    (packet : List (List UInt8)) (machine : Machine) :
    udpReceiver decode sender packet machine =
      match message? decode packet with
      | none => machine
      | some message => receiveMessage sender message machine := by
  cases packet with
  | nil => rfl
  | cons chunk rest => cases hmessage : decode chunk <;> simp [udpReceiver, message?, hmessage]

/-- A message that has got past the history, with its sender and the time. -/
structure Processed where
  sender : Ipv4Addr
  message : Message
  time : Instant
deriving DecidableEq

/-- The message of a packet, unless it is dropped. -/
def accepted? (decode : List UInt8 → Option Message) (sender : Ipv4Addr)
    (packet : List (List UInt8)) (machine : Machine) : Option Processed :=
  (message? decode packet).bind fun message ↦
    if message.idempotency ∈ machine.history then none else some ⟨sender, message, machine.clock⟩

/-- A machine with the messages it has processed, the latest first. -/
structure Reception where
  machine : Machine
  processed : List Processed

/-- What happens to a machine that receives packets. -/
inductive Happening where
  | packet (sender : Ipv4Addr) (packet : List (List UInt8))
  | upload (guid : Uuid) (myAddr : Option Ipv4Addr)
  | lifetimeCheck
  | elapse (ticks : ℕ)
  | tick (env : TickEnv)

/-- `postcard::from_bytes` on heartbeats and on ledgers without jobs: a key of 16 bytes behind its
length, the number of the variant, and its fields. -/
def sampleDecode : List UInt8 → Option Message
  | 16 :: rest =>
      let idempotency : Uuid := ⟨(rest.take 16).foldl (fun bits byte ↦ bits * 256 + byte.toNat) 0⟩
      match rest.drop 16 with
      | [0, alive] =>
          if alive = 0 then some ⟨idempotency, .heartbeat false⟩
          else if alive = 1 then some ⟨idempotency, .heartbeat true⟩
          else none
      | [2, a, b, c, d, 0] => some ⟨idempotency, .ledger ⟨.new a b c d, .empty⟩⟩
      | _ => none
  | _ => none

/-- The packet of a message with the key `key`. -/
def samplePacket (key : UInt8) (payload : List UInt8) : List (List UInt8) :=
  [16 :: List.replicate 15 0 ++ key :: payload]

example : message? sampleDecode (samplePacket 7 [2, 10, 0, 0, 1, 0]) =
    some ⟨⟨7⟩, .ledger ⟨.new 10 0 0 1, .empty⟩⟩ := by decide

namespace Reception

variable {decode : List UInt8 → Option Message} {reception : Reception}

def boot : Reception := ⟨.boot, []⟩

/-- The keys of the processed messages, the latest first. -/
def keys (reception : Reception) : List Uuid :=
  reception.processed.map fun entry ↦ entry.message.idempotency

/-- One step. -/
def happen (decode : List UInt8 → Option Message) (reception : Reception) : Happening → Reception
  | .packet sender packet =>
      { machine := udpReceiver decode sender packet reception.machine
        processed :=
          (accepted? decode sender packet reception.machine).toList ++ reception.processed }
  | .upload guid myAddr =>
      { reception with machine := (appendToLedger myAddr guid reception.machine).1 }
  | .lifetimeCheck => { reception with machine := addressBookLifetimeCheck reception.machine }
  | .elapse ticks =>
      { reception with
        machine := { reception.machine with clock := reception.machine.clock + ticks } }
  | .tick env => { reception with machine := (manageLedger env reception.machine).1 }

/-- What a step can do. -/
inductive Happens (decode : List UInt8 → Option Message) (reception : Reception) :
    Happening → Reception → Prop
  | processed {sender : Ipv4Addr} {packet : List (List UInt8)} (message : Message)
      (haccepted : (accepted? decode sender packet reception.machine).isSome)
      (hnew : message.idempotency ∉ reception.machine.history) :
      Happens decode reception (.packet sender packet)
        ⟨{ reception.machine with
            history := reception.machine.history.write message.idempotency
            addresses := reception.machine.addresses.insert sender reception.machine.clock
            jobs := message.payload.update reception.machine.clock reception.machine.jobs },
          ⟨sender, message, reception.machine.clock⟩ :: reception.processed⟩
  | purged : Happens decode reception .lifetimeCheck
      { reception with machine := addressBookLifetimeCheck reception.machine }
  | passed {event : Happening} (later : Instant) (jobs : Option LedgerState) (observed : Bool)
      (hlater : reception.machine.clock ≤ later) :
      Happens decode reception event { reception with machine :=
        { reception.machine with clock := later, jobs := jobs, observedOwnership := observed } }

theorem happen_of_dropped {sender : Ipv4Addr} {packet : List (List UInt8)}
    (h : accepted? decode sender packet reception.machine = none) :
    reception.happen decode (.packet sender packet) = reception := by
  simp only [happen, h, udpReceiver_eq]
  cases hmessage : message? decode packet with
  | none => rfl
  | some message =>
      have hold : message.idempotency ∈ reception.machine.history := by
        simpa [accepted?, hmessage] using h
      simp [receiveMessage_of_mem hold]

theorem happens_happen (decode : List UInt8 → Option Message) (reception : Reception)
    (event : Happening) : Happens decode reception event (reception.happen decode event) := by
  cases event with
  | packet sender packet =>
      cases haccepted : accepted? decode sender packet reception.machine with
      | none =>
          rw [happen_of_dropped haccepted]
          exact .passed _ _ _ le_rfl
      | some entry =>
          obtain ⟨message, hmessage, hentry⟩ := Option.bind_eq_some_iff.mp haccepted
          obtain ⟨hnew, hsame⟩ := Option.ite_none_left_eq_some.mp hentry
          obtain rfl := Option.some.inj hsame
          simp only [happen, haccepted, udpReceiver_eq, hmessage, receiveMessage_of_notMem _ hnew]
          exact .processed message (Option.isSome_iff_exists.mpr ⟨_, haccepted⟩) hnew
  | upload guid myAddr =>
      obtain ⟨jobs, hjobs⟩ := appendToLedger_eq myAddr guid reception.machine
      rw [happen, hjobs]
      exact .passed _ jobs _ le_rfl
  | lifetimeCheck => exact .purged
  | elapse ticks => exact .passed _ _ _ (Nat.le_add_right _ ticks)
  | tick env =>
      obtain ⟨jobs, observed, hround⟩ := manageLedger_eq env reception.machine
      rw [happen, hround]
      exact .passed _ jobs observed le_rfl

end Reception

end Derusting
