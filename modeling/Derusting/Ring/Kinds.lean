import Derusting.Foundations.Bounded
import Mathlib.Order.Lattice
import Mathlib.Tactic
import Mathlib.Order.Defs.LinearOrder

/-!
# Addresses, messages and the state of one machine

The data model of `kinds.rs`, `tasks/messages.rs` and the shared part of `lib.rs`.  A machine owns
an address book, a possibly absent copy of the job ledger and a queue of files to distribute; the
idempotency history and the ownership flag are locals of `udp_receiver` and `manage_ledger` that
live as long as their tasks, so they are fields of the machine too.
-/

namespace Derusting

open Foundations.Bounded

/-- `core::net::Ipv4Addr`, by its big-endian bits. -/
@[ext]
structure Ipv4Addr where
  bits : UInt32
deriving DecidableEq, Repr

namespace Ipv4Addr

/-- `Ipv4Addr::new`. -/
def new (a b c d : UInt8) : Ipv4Addr :=
  ⟨a.toUInt32 <<< 24 ||| b.toUInt32 <<< 16 ||| c.toUInt32 <<< 8 ||| d.toUInt32⟩

/-- `addr.octets()[3]`. -/
def lastOctet (addr : Ipv4Addr) : UInt8 := addr.bits.toUInt8

/-- Addresses are ordered by their octets, that is by their big-endian bits. -/
instance : LinearOrder Ipv4Addr :=
  LinearOrder.lift' (fun addr : Ipv4Addr ↦ addr.bits.toNat) fun _ _ h ↦
    Ipv4Addr.ext (UInt32.toNat_inj.mp h)

/-- A number whose low bits are free takes others there. -/
theorem or_eq_add {high low : ℕ} (width : ℕ) (h : low < 2 ^ width) :
    high * 2 ^ width ||| low = high * 2 ^ width + low := by
  rw [Nat.mul_comm, ← Nat.two_pow_add_eq_or_of_lt h]

/-- The bits of an address by its octets. -/
theorem toNat_new (a b c d : UInt8) :
    (Ipv4Addr.new a b c d).bits.toNat =
      ((a.toNat * 256 + b.toNat) * 256 + c.toNat) * 256 + d.toNat := by
  have ha := a.toNat_lt
  have hb := b.toNat_lt
  have hc := c.toNat_lt
  have hd := d.toNat_lt
  have hshift (octet : UInt8) (count : UInt32) (hcount : count.toNat ≤ 24) :
      (octet.toUInt32 <<< count).toNat = octet.toNat * 2 ^ count.toNat := by
    have hoctet := octet.toNat_lt
    have hpow : (2:ℕ) ^ count.toNat ≤ 2 ^ 24 := Nat.pow_le_pow_right (by decide) hcount
    have hlt : octet.toNat * 2 ^ count.toNat < 2 ^ 32 := by
      calc
        octet.toNat * 2 ^ count.toNat ≤ 255 * 2 ^ 24 := Nat.mul_le_mul (by omega) hpow
        _ < 2 ^ 32 := by decide
    rw [UInt32.toNat_shiftLeft, UInt8.toNat_toUInt32, Nat.mod_eq_of_lt (by omega : _ < 32),
      Nat.shiftLeft_eq, Nat.mod_eq_of_lt hlt]
  have h24 := hshift a 24 le_rfl
  have h16 := hshift b 16 (by decide)
  have h8 := hshift c 8 (by decide)
  have hfirst : a.toNat * 2 ^ 24 + b.toNat * 2 ^ 16 = (a.toNat * 256 + b.toNat) * 2 ^ 16 := by
    ring
  have hsecond : (a.toNat * 256 + b.toNat) * 2 ^ 16 + c.toNat * 2 ^ 8 =
      ((a.toNat * 256 + b.toNat) * 256 + c.toNat) * 2 ^ 8 := by
    ring
  calc
    (Ipv4Addr.new a b c d).bits.toNat =
        a.toNat * 2 ^ 24 ||| b.toNat * 2 ^ 16 ||| c.toNat * 2 ^ 8 ||| d.toNat := by
      simp only [Ipv4Addr.new, UInt32.toNat_or, UInt8.toNat_toUInt32, h24, h16, h8]
      rfl
    _ = ((a.toNat * 256 + b.toNat) * 256 + c.toNat) * 2 ^ 8 + d.toNat := by
      rw [or_eq_add 24 (by omega), hfirst, or_eq_add 16 (by omega), hsecond, or_eq_add 8 hd]
end Ipv4Addr

/-- `uuid::Uuid`, used both as job guid and as idempotency key. -/
structure Uuid where
  bits : BitVec 128
deriving DecidableEq, Repr

/-- `embassy_time::Instant` in ticks of a millisecond (`tick-hz-1_000`). -/
abbrev Instant := ℕ

/-- `Duration::from_secs`. -/
def fromSecs (seconds : ℕ) : ℕ := 1000 * seconds

/-- `ADDRESS_BOOK_ENTRIES`. -/
def addressBookEntries : ℕ := 32

/-- Machines seen on the network, with the instant each was last heard from. -/
abbrev AddressBook := LinearMap Ipv4Addr Instant addressBookEntries

/-- The token-ring ledger of pending jobs. -/
structure Ledger where
  owner : Ipv4Addr
  jobs : IndexSet Uuid 8
deriving DecidableEq

/-- A ledger with the time it was received, from which a stuck ledger is recognised. -/
structure LedgerState where
  ledger : Ledger
  received : Instant
deriving DecidableEq

namespace LedgerState

/-- `LedgerState::new`: stamp a received or created ledger with the current time. -/
def new (ledger : Ledger) (now : Instant) : LedgerState := ⟨ledger, now⟩

/-- `LedgerState::is_owner`; without an address nobody is the owner. -/
def isOwner (state : LedgerState) (myAddr : Option Ipv4Addr) : Bool :=
  match myAddr with
  | none => false
  | some addr => addr = state.ledger.owner

@[simp]
theorem isOwner_some {state : LedgerState} {addr : Ipv4Addr} :
    state.isOwner (some addr) = true ↔ state.ledger.owner = addr := by
  simp [isOwner, eq_comm]

end LedgerState

/-- The kinds of message broadcast between machines. -/
inductive Payload where
  | heartbeat (alive : Bool)
  | newJob (guid : Uuid)
  | ledger (ledger : Ledger)
  | log (text : List Char)
deriving DecidableEq

/-- The jobs a message names. -/
def Payload.guids : Payload → List Uuid
  | .newJob guid => [guid]
  | .ledger carried => carried.jobs.toList
  | .heartbeat _ | .log _ => []

/-- The owner a payload announces. -/
def Payload.owner? : Payload → Option Ipv4Addr
  | .ledger carried => some carried.owner
  | .newJob _ | .heartbeat _ | .log _ => none

/-- The envelope of every UDP message. -/
structure Message where
  idempotency : Uuid
  payload : Payload
deriving DecidableEq

/-- `files_to_distribute`: guids waiting for `distribute_file`. -/
abbrev DistributionQueue := Channel Uuid 4

/-- One machine: the shared `DerustingState` and the locals of its ledger tasks. -/
structure Machine where
  addresses : AddressBook
  jobs : Option LedgerState
  filesToDistribute : DistributionQueue
  history : HistoryBuf Uuid 24
  observedOwnership : Bool
  clock : Instant

namespace Machine

/-- A machine whose tasks have just been spawned. -/
def boot : Machine where
  addresses := .empty
  jobs := none
  filesToDistribute := .empty
  history := .empty
  observedOwnership := false
  clock := 0

/-- The machine at `addr` names itself as owner in its own copy of the ledger. -/
def Owns (machine : Machine) (addr : Ipv4Addr) : Prop :=
  ∃ state, machine.jobs = some state ∧ state.ledger.owner = addr

/-- The machine's copy of the ledger lists `guid`. -/
def Lists (machine : Machine) (guid : Uuid) : Prop :=
  ∃ state, machine.jobs = some state ∧ guid ∈ state.ledger.jobs

/-- Both predicates only look into the optional copy, so they are decided there. -/
def decidableCopy (machine : Machine) (test : LedgerState → Prop) [DecidablePred test] :
    Decidable (∃ state, machine.jobs = some state ∧ test state) :=
  match h : machine.jobs with
  | none => isFalse (by simp)
  | some state => decidable_of_iff (test state) (by simp)

instance (machine : Machine) (addr : Ipv4Addr) : Decidable (machine.Owns addr) :=
  machine.decidableCopy _

instance (machine : Machine) (guid : Uuid) : Decidable (machine.Lists guid) :=
  machine.decidableCopy _

theorem owns_iff {machine : Machine} {state : LedgerState} {addr : Ipv4Addr}
    (h : machine.jobs = some state) : machine.Owns addr ↔ state.ledger.owner = addr := by
  simp [Owns, h]

/-- The owner named in the machine's copy of the ledger. -/
def owner? (machine : Machine) : Option Ipv4Addr :=
  machine.jobs.map fun state ↦ state.ledger.owner

theorem owns_iff_owner? {machine : Machine} {addr : Ipv4Addr} :
    machine.Owns addr ↔ machine.owner? = some addr := by
  simp [Owns, owner?, Option.map_eq_some_iff]

theorem lists_iff {machine : Machine} {state : LedgerState} {guid : Uuid}
    (h : machine.jobs = some state) : machine.Lists guid ↔ guid ∈ state.ledger.jobs := by
  simp [Lists, h]

end Machine

end Derusting
