import Derusting.Foundations.Transition
import Derusting.Ring.Tasks
import Mathlib.Data.Finset.Basic

/-!
# Any number of machines on a UDP network

A `System` is the machines of a network, indexed by their addresses, with every message they have
broadcast.  Delivery picks any message sent so far and may pick it again, so messages can be
delayed, reordered, duplicated and lost; a machine never receives its own broadcasts.  The repeats
of `Message::send` carry one idempotency key and are further deliveries of the same message.

Four fields only observe the run: which messages reached whom, which UUIDs `generate_uuid_v7` has
returned (it never returns one twice), which uploaded jobs `append_to_ledger` has inserted or
broadcast, and which machine's `marlin::print` accepted which job.
-/

namespace Derusting

open Foundations.Bounded Foundations.Transition

/-- A broadcast message with its sender. -/
structure Envelope where
  src : Ipv4Addr
  message : Message

/-- All machines, the messages broadcast so far and the observations of the run. -/
structure System where
  machines : Ipv4Addr → Machine
  sent : List Envelope
  delivered : List (Ipv4Addr × ℕ)
  issued : List Uuid
  filed : List Uuid
  accepted : List (Ipv4Addr × Uuid)

/-- One step of a machine. The UUIDs it generates are arguments. -/
inductive Action where
  | upload (guid key : Uuid)
  | deliver (index : ℕ)
  | tick (env : TickEnv) (logKey ledgerKey : Uuid)
  | heartbeat (key : Uuid)
  | log (text : List Char) (key : Uuid)
  | lifetimeCheck
  | elapse (ticks : ℕ)

/-- The UUIDs an action takes from `generate_uuid_v7`. -/
def Action.ids : Action → List Uuid
  | .upload guid key => [guid, key]
  | .tick _ logKey ledgerKey => [logKey, ledgerKey]
  | .heartbeat key | .log _ key => [key]
  | .deliver _ | .lifetimeCheck | .elapse _ => []

/-- An action of the machine at `addr`. -/
structure Event where
  addr : Ipv4Addr
  action : Action

/-- What an action does to its machine and to the network. -/
structure Outcome where
  machine : Machine
  sent : List Message
  filed : Option Uuid
  accepted : Option Uuid
  delivered : Option ℕ

namespace System

/-- The network right after power-up. -/
def boot : System := ⟨fun _ ↦ .boot, [], [], [], [], []⟩

/-- Give the payloads of a round their idempotency keys. -/
def stamp (logKey ledgerKey : Uuid) : Payload → Message
  | .log text => ⟨logKey, .log text⟩
  | payload => ⟨ledgerKey, payload⟩

/-- The effect of one action; `none` when it is not enabled. -/
def act (system : System) (addr : Ipv4Addr) : Action → Option Outcome
  | .upload guid key =>
      let (machine, alert) := appendToLedger (some addr) guid (system.machines addr)
      let inserted := machine.Owns addr ∧ machine.Lists guid
      let filed := if alert.isSome ∨ inserted then some guid else none
      some ⟨machine, alert.toList.map (Message.mk key), filed, none, none⟩
  | .deliver index =>
      system.sent[index]?.bind fun envelope ↦
        if envelope.src = addr then none
        else some ⟨receiveMessage envelope.src envelope.message (system.machines addr), [], none,
          none, some index⟩
  | .tick env logKey ledgerKey =>
      if env.myAddr = some addr then
        let (machine, output) := manageLedger env (system.machines addr)
        some ⟨machine, output.sent.map (stamp logKey ledgerKey), none, output.accepted, none⟩
      else none
  | .heartbeat key => some ⟨system.machines addr, [⟨key, .heartbeat true⟩], none, none, none⟩
  | .log text key => some ⟨system.machines addr, [⟨key, .log text⟩], none, none, none⟩
  | .lifetimeCheck => some ⟨addressBookLifetimeCheck (system.machines addr), [], none, none, none⟩
  | .elapse ticks =>
      let machine := system.machines addr
      some ⟨{ machine with clock := machine.clock + ticks }, [], none, none, none⟩

/-- Record the effect of an action of the machine at `addr`. -/
def commit (system : System) (addr : Ipv4Addr) (ids : List Uuid) (outcome : Outcome) : System where
  machines := Function.update system.machines addr outcome.machine
  sent := system.sent ++ outcome.sent.map (Envelope.mk addr)
  delivered := system.delivered ++ outcome.delivered.toList.map (Prod.mk addr)
  issued := system.issued ++ ids
  filed := system.filed ++ outcome.filed.toList
  accepted := system.accepted ++ outcome.accepted.toList.map (Prod.mk addr)

/-- One step of the network: a machine of the ring acts with UUIDs that are new. -/
def step (ring : Finset Ipv4Addr) (system : System) (event : Event) : Option System :=
  if event.addr ∈ ring ∧ event.action.ids.Nodup ∧ ∀ id ∈ event.action.ids, id ∉ system.issued then
    (system.act event.addr event.action).map (system.commit event.addr event.action.ids)
  else none

/-! ## Observations -/

/-- Message `index` is a ledger broadcast carrying `ledger`. -/
def LedgerAt (system : System) (index : ℕ) (ledger : Ledger) : Prop :=
  ∃ envelope ∈ system.sent[index]?, envelope.message.payload = .ledger ledger

/-- Message `index` is still on its way to `addr`. -/
def Undelivered (system : System) (addr : Ipv4Addr) (index : ℕ) : Prop :=
  ∃ envelope ∈ system.sent[index]?, envelope.src ≠ addr ∧ (addr, index) ∉ system.delivered

/-- The machine at `addr` has sent or received message `index`. -/
def Knows (system : System) (addr : Ipv4Addr) (index : ℕ) : Prop :=
  (∃ envelope ∈ system.sent[index]?, envelope.src = addr) ∨ (addr, index) ∈ system.delivered

/-- Some machine's `marlin::print` has accepted the job. -/
def Accepted (system : System) (guid : Uuid) : Prop := guid ∈ system.accepted.map Prod.snd

instance (system : System) (addr : Ipv4Addr) (index : ℕ) :
    Decidable (system.Undelivered addr index) :=
  inferInstanceAs (Decidable (∃ envelope ∈ system.sent[index]?, _))

instance (system : System) (addr : Ipv4Addr) (index : ℕ) : Decidable (system.Knows addr index) :=
  inferInstanceAs (Decidable (_ ∨ _))

instance (system : System) (guid : Uuid) : Decidable (system.Accepted guid) :=
  inferInstanceAs (Decidable (guid ∈ _))

theorem undelivered_iff {system : System} {addr : Ipv4Addr} {index : ℕ} :
    system.Undelivered addr index ↔ index < system.sent.length ∧ ¬ system.Knows addr index := by
  simp only [Undelivered, Knows, Option.mem_def, List.getElem?_eq_some_iff]
  constructor
  · rintro ⟨envelope, ⟨hlt, rfl⟩, hsrc, hdelivered⟩
    refine ⟨hlt, ?_⟩
    rintro (⟨_, ⟨_, rfl⟩, hsame⟩ | hmem)
    · exact hsrc hsame
    · exact hdelivered hmem
  · rintro ⟨hlt, hknows⟩
    exact ⟨_, ⟨hlt, rfl⟩, fun hsame ↦ hknows (.inl ⟨_, ⟨hlt, rfl⟩, hsame⟩),
      fun hmem ↦ hknows (.inr hmem)⟩

theorem LedgerAt.lt {system : System} {index : ℕ} {ledger : Ledger}
    (h : system.LedgerAt index ledger) : index < system.sent.length := by
  obtain ⟨envelope, henvelope, _⟩ := h
  exact (List.getElem?_eq_some_iff.mp henvelope).1

theorem LedgerAt.unique {system : System} {index : ℕ} {left right : Ledger}
    (hleft : system.LedgerAt index left) (hright : system.LedgerAt index right) : left = right := by
  obtain ⟨envelope, henvelope, hleft⟩ := hleft
  obtain ⟨other, hother, hright⟩ := hright
  obtain rfl : envelope = other := Option.some.inj (henvelope.symm.trans hother)
  exact Payload.ledger.inj (hleft.symm.trans hright)

/-! ## What a step can do -/

/-- Everything an action can do, with the guards under which it does it. -/
inductive Acts (system : System) (addr : Ipv4Addr) : Action → Outcome → Prop
  | filed {guid key : Uuid} {state : LedgerState} {filed : Option Uuid}
      (hjobs : (system.machines addr).jobs = some state) (howner : state.ledger.owner = addr)
      (hfiled : filed = if guid ∈ state.ledger.jobs.insert guid then some guid else none) :
      Acts system addr (.upload guid key)
        ⟨{ system.machines addr with jobs := some { state with
            ledger := { state.ledger with jobs := state.ledger.jobs.insert guid } } },
          [], filed, none, none⟩
  | alerted {guid key : Uuid} (howns : ¬ (system.machines addr).Owns addr) :
      Acts system addr (.upload guid key)
        ⟨system.machines addr, [⟨key, .newJob guid⟩], some guid, none, none⟩
  | unfiled {guid key : Uuid} (howns : ¬ (system.machines addr).Owns addr) :
      Acts system addr (.upload guid key) ⟨system.machines addr, [], none, none, none⟩
  | delivered {index : ℕ} {envelope : Envelope} (hsent : envelope ∈ system.sent[index]?)
      (hsrc : envelope.src ≠ addr) :
      Acts system addr (.deliver index)
        ⟨receiveMessage envelope.src envelope.message (system.machines addr), [], none, none,
          some index⟩
  | ticked {env : TickEnv} {logKey ledgerKey : Uuid} {machine : Machine} {output : TickOutput}
      (houtcome : TickOutcome env addr (system.machines addr) machine output) :
      Acts system addr (.tick env logKey ledgerKey)
        ⟨machine, output.sent.map (stamp logKey ledgerKey), none, output.accepted, none⟩
  | greeted {key : Uuid} :
      Acts system addr (.heartbeat key)
        ⟨system.machines addr, [⟨key, .heartbeat true⟩], none, none, none⟩
  | logged {text : List Char} {key : Uuid} :
      Acts system addr (.log text key)
        ⟨system.machines addr, [⟨key, .log text⟩], none, none, none⟩
  | purged : Acts system addr .lifetimeCheck
      ⟨addressBookLifetimeCheck (system.machines addr), [], none, none, none⟩
  | elapsed {ticks : ℕ} : Acts system addr (.elapse ticks)
      ⟨{ system.machines addr with clock := (system.machines addr).clock + ticks }, [], none, none,
        none⟩

theorem acts_of_act {system : System} {addr : Ipv4Addr} {action : Action} {outcome : Outcome}
    (h : system.act addr action = some outcome) : Acts system addr action outcome := by
  cases action with
  | upload guid key =>
      by_cases howns : (system.machines addr).Owns addr
      · obtain ⟨state, hjobs, howner⟩ := howns
        rw [act, appendToLedger_of_owner hjobs howner] at h
        obtain rfl := Option.some.inj h
        refine .filed hjobs howner (if_congr ?_ rfl rfl)
        rw [Machine.owns_iff rfl, Machine.lists_iff rfl]
        simp [howner]
      · rw [act, appendToLedger_of_not_owns howns] at h
        cases hempty : (system.machines addr).addresses.isEmpty <;>
          simp only [hempty, howns, Bool.false_eq_true, if_false, if_true, Option.isSome_some,
            Option.isSome_none, false_and, or_false, Option.some.injEq] at h <;> subst h
        · exact .alerted howns
        · exact .unfiled howns
  | deliver index =>
      obtain ⟨envelope, hsent, hrest⟩ := Option.bind_eq_some_iff.mp h
      split at hrest
      · cases hrest
      next hsrc =>
        obtain rfl := Option.some.inj hrest
        exact .delivered hsent hsrc
  | tick env logKey ledgerKey =>
      rw [act] at h
      split at h
      next haddr =>
        obtain rfl := Option.some.inj h
        exact .ticked (manageLedger_outcome haddr _)
      · cases h
  | heartbeat key => obtain rfl := Option.some.inj h; exact .greeted
  | log text key => obtain rfl := Option.some.inj h; exact .logged
  | lifetimeCheck => obtain rfl := Option.some.inj h; exact .purged
  | elapse ticks => obtain rfl := Option.some.inj h; exact .elapsed

/-- A step commits the outcome of an action with fresh UUIDs. -/
theorem exists_of_step {ring : Finset Ipv4Addr} {system after : System} {event : Event}
    (h : system.step ring event = some after) :
    event.addr ∈ ring ∧ event.action.ids.Nodup ∧ (∀ id ∈ event.action.ids, id ∉ system.issued) ∧
      ∃ outcome, Acts system event.addr event.action outcome ∧
        after = system.commit event.addr event.action.ids outcome := by
  rw [step] at h
  split at h
  next hguard =>
    obtain ⟨outcome, hact, hcommit⟩ := Option.map_eq_some_iff.mp h
    exact ⟨hguard.1, hguard.2.1, hguard.2.2, outcome, acts_of_act hact, hcommit.symm⟩
  · cases h

/-! ## Three printers for concrete runs -/

/-- The surroundings of a printer at `addr` with every job file on its USB stick. -/
def printer (addr : Ipv4Addr) (isReady : Bool) : TickEnv where
  myAddr := some addr
  isReady := isReady
  isIdle := true
  canOpen := fun _ ↦ true
  print := fun _ ↦ .ok ()
  display := fun _ ↦ []

def alpha : Ipv4Addr := .new 10 0 0 1
def beta : Ipv4Addr := .new 10 0 0 2
def gamma : Ipv4Addr := .new 10 0 0 3

end System

end Derusting
