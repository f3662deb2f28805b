import Derusting.Ring.Acceptance
import Derusting.Ring.Token

/-!
# Filed jobs stay with the ledger

A `Ledger` message replaces the receiver's whole job set.  A job survives as long as it travels
with the token: it is in the owner's copy, in the ledger on its way to the next owner, or in an
alert that has not reached that machine yet.  The job is lost when an alert and a hand-over cross:
the next owner has already seen the alert, and the ledger it then adopts was sent by a machine that
had not.  `Undisturbed` excludes those crossings, and every run without them keeps every job.
-/

namespace Derusting

open Foundations.Bounded Foundations.Transition

/-- The job a payload alerts to. -/
def Payload.alert? : Payload → Option Uuid
  | .newJob guid => some guid
  | .ledger _ | .heartbeat _ | .log _ => none

/-- A nonempty bounded set of indices has a last one. -/
theorem exists_last {test : ℕ → Prop} {bound : ℕ} (hbound : ∀ index, test index → index < bound)
    (h : ∃ index, test index) : ∃ index, test index ∧ ∀ later, index < later → ¬ test later := by
  classical
  obtain ⟨first, hfirst⟩ := h
  refine ⟨Nat.findGreatest test bound, ?_, ?_⟩
  · exact Nat.findGreatest_spec (hbound first hfirst).le hfirst
  · intro later hlater htest
    exact Nat.findGreatest_is_greatest hlater (hbound later htest).le htest

namespace System

variable {ring : Finset Ipv4Addr} {system after : System} {addr other holder origin : Ipv4Addr}
  {action : Action} {outcome : Outcome} {ids : List Uuid} {index : ℕ} {guid : Uuid}

/-! ## What is in flight -/

/-- Message `index` alerts to `guid`. -/
def AlertAt (system : System) (index : ℕ) (guid : Uuid) : Prop :=
  ∃ envelope ∈ system.sent[index]?, envelope.message.payload = .newJob guid

/-- Message `index` is a ledger on its way to `addr` that makes it the owner. -/
def Incoming (system : System) (addr : Ipv4Addr) (index : ℕ) : Prop :=
  system.Undelivered addr index ∧
    ∃ envelope ∈ system.sent[index]?, envelope.message.payload.owner? = some addr

/-- Message `index` names `guid`. -/
def NamedAt (system : System) (index : ℕ) (guid : Uuid) : Prop :=
  ∃ envelope ∈ system.sent[index]?, guid ∈ envelope.message.payload.guids

instance (system : System) (addr : Ipv4Addr) (index : ℕ) :
    Decidable (system.Incoming addr index) :=
  inferInstanceAs (Decidable (_ ∧ ∃ envelope ∈ system.sent[index]?, _))

instance (system : System) (index : ℕ) (guid : Uuid) : Decidable (system.NamedAt index guid) :=
  inferInstanceAs (Decidable (∃ envelope ∈ system.sent[index]?, _))

/-- Nobody else has received a message that has just been sent. -/
theorem WellFormed.undelivered_new (h : WellFormed ring system) {envelope : Envelope}
    (henvelope : envelope ∈ (system.commit addr ids outcome).sent[index]?)
    (hge : system.sent.length ≤ index) (hsrc : envelope.src ≠ other)
    (hdelivered : outcome.delivered = none) :
    (system.commit addr ids outcome).Undelivered other index := by
  refine ⟨envelope, henvelope, hsrc, fun hmem ↦ ?_⟩
  rcases mem_delivered_commit.mp hmem with hold | ⟨_, hnew⟩
  · exact absurd (h.delivered_lt other index hold) (Nat.not_lt.mpr hge)
  · simp [hdelivered] at hnew

theorem AlertAt.commit (h : system.AlertAt index guid) :
    (system.commit addr ids outcome).AlertAt index guid := by
  obtain ⟨envelope, henvelope, hpayload⟩ := h
  exact ⟨envelope, mem_sent_commit_of_mem henvelope, hpayload⟩

/-- A message stays undelivered until it is delivered. -/
theorem Undelivered.commit (h : system.Undelivered other index)
    (hdelivered : other = addr → outcome.delivered ≠ some index) :
    (system.commit addr ids outcome).Undelivered other index := by
  obtain ⟨envelope, henvelope, hsrc, hnew⟩ := h
  refine ⟨envelope, mem_sent_commit_of_mem henvelope, hsrc, fun hmem ↦ ?_⟩
  rcases mem_delivered_commit.mp hmem with hold | ⟨hself, hindex⟩
  · exact hnew hold
  · exact hdelivered hself hindex

/-- The owner after all broadcasts is the one named by the last ledger. -/
theorem lastOwner_of_last {initial : Option Ipv4Addr} {ledger : Ledger}
    (hat : system.LedgerAt index ledger)
    (hlast : ∀ later, index < later → ¬ system.IsLedger later) :
    lastOwner initial system.sent = some ledger.owner := by
  have hlt : index + 1 ≤ system.sent.length := hat.lt
  obtain ⟨envelope, henvelope, hpayload⟩ := hat
  have howner : envelope.message.payload.owner? = some ledger.owner := by
    rw [hpayload, Payload.owner?]
  rw [← lastOwner_take_succ initial henvelope howner,
    ← lastOwner_take_eq initial hlt fun later hge _ ↦ hlast later hge, List.take_length]

/-! ## Jobs travel with the token -/

/-- Accepted, in the holder's own copy, or in a message that has yet to reach the holder. -/
def Safe (system : System) (holder : Ipv4Addr) (guid : Uuid) : Prop :=
  system.Accepted guid ∨
  ((system.machines holder).Owns holder ∧ (system.machines holder).Lists guid) ∨
  (∃ index, system.AlertAt index guid ∧ system.Undelivered holder index) ∨
  (∃ index ledger, system.LedgerAt index ledger ∧ guid ∈ ledger.jobs ∧
    system.Undelivered holder index ∧ ∀ later, index < later → ¬ system.IsLedger later)

/-- Every ledger was sent by the machine the ledger before it named, the last one names `holder`,
and all filed jobs are safe with that machine. -/
structure Kept (ring : Finset Ipv4Addr) (origin : Ipv4Addr) (system : System)
    (holder : Ipv4Addr) : Prop where
  inStep : InStep ring (some origin) system
  holder_mem : holder ∈ ring
  last : lastOwner (some origin) system.sent = some holder
  chained : ∀ index : ℕ, ∀ envelope ∈ system.sent[index]?,
    envelope.message.payload.owner? ≠ none →
      lastOwner (some origin) (system.sent.take index) = some envelope.src
  safe : ∀ guid ∈ system.filed, Safe system holder guid

/-- A machine that names itself knows of every ledger, so its copy stems from the last one. -/
theorem Kept.of_owns (h : Kept ring origin system holder) (haddr : addr ∈ ring)
    (howns : (system.machines addr).Owns addr) :
    addr = holder ∧ ∀ index, system.IsLedger index →
      (∀ later, index < later → ¬ system.IsLedger later) → system.Knows addr index := by
  obtain ⟨count, hcopy⟩ := h.inStep.follows addr haddr
  have howner : lastOwner (some origin) (system.sent.take count) = some addr :=
    hcopy.owner_eq.symm.trans (Machine.owns_iff_owner?.mp howns)
  -- the first ledger beyond the copy would have been sent by this machine itself
  have hsilent : ∀ index, count ≤ index → ¬ system.IsLedger index := by
    classical
    intro index hge hledger
    have hexists : ∃ position, count ≤ position ∧ system.IsLedger position := ⟨index, hge, hledger⟩
    obtain ⟨hfirst, hfirstLedger⟩ := Nat.find_spec hexists
    have hbetween := lastOwner_take_eq (some origin) hfirst fun position hle hlt hmid ↦
      Nat.find_min hexists hlt ⟨hle, hmid⟩
    obtain ⟨envelope, henvelope, hne⟩ := id hfirstLedger
    have hsrc := h.chained _ envelope henvelope hne
    rw [hbetween, howner] at hsrc
    exact hcopy.later _ hfirst hfirstLedger (.inl ⟨envelope, henvelope, (Option.some.inj hsrc).symm⟩)
  refine ⟨?_, fun index hledger hlast ↦ ?_⟩
  · have hall := lastOwner_take_eq (some origin) hcopy.count_le fun position hle _ ↦
      hsilent position hle
    rw [List.take_length, howner, h.last] at hall
    exact (Option.some.inj hall).symm
  · have hlt : index < count := Nat.lt_of_not_le fun hge ↦ hsilent index hge hledger
    rcases hcopy.basis with hzero | ⟨basis, rfl, hbasis, hknows⟩
    · omega
    · obtain rfl : index = basis := by
        by_contra hne
        exact hlast basis (by omega) hbasis
      exact hknows

/-- While the holder does not own its copy, the ledger that makes it the owner is on its way. -/
theorem Kept.incoming (h : Kept ring origin system holder)
    (howns : ¬ (system.machines holder).Owns holder) :
    ∃ index ledger, system.LedgerAt index ledger ∧ ledger.owner = holder ∧
      system.Undelivered holder index ∧ ∀ later, index < later → ¬ system.IsLedger later := by
  obtain ⟨count, hcopy⟩ := h.inStep.follows holder h.holder_mem
  have hexists : ∃ index, count ≤ index ∧ system.IsLedger index := by
    by_contra hnone
    have hall := lastOwner_take_eq (some origin) hcopy.count_le fun position hle _ hmid ↦
      hnone ⟨position, hle, hmid⟩
    rw [List.take_length, h.last, ← hcopy.owner_eq] at hall
    exact howns (Machine.owns_iff_owner?.mpr hall.symm)
  have hbound : ∀ index, count ≤ index ∧ system.IsLedger index → index < system.sent.length := by
    rintro index ⟨_, hledger⟩
    obtain ⟨ledger, hat⟩ := isLedger_iff.mp hledger
    exact hat.lt
  obtain ⟨index, ⟨hge, hledger⟩, hlater⟩ := exists_last hbound hexists
  have hlast : ∀ later, index < later → ¬ system.IsLedger later := fun later hlt hmid ↦
    hlater later hlt ⟨by omega, hmid⟩
  obtain ⟨ledger, hat⟩ := isLedger_iff.mp hledger
  refine ⟨index, ledger, hat, ?_, ?_, hlast⟩
  · exact Option.some.inj ((lastOwner_of_last hat hlast).symm.trans h.last)
  · exact undelivered_iff.mpr ⟨hat.lt, hcopy.later index hge hledger⟩

/-! ## Crossing alerts and hand-overs -/

/-- Message `index` is an alert to a new job. -/
def IsAlert (system : System) (index : ℕ) : Prop :=
  ∃ envelope ∈ system.sent[index]?, envelope.message.payload.alert? ≠ none

instance (system : System) (index : ℕ) : Decidable (system.IsAlert index) :=
  inferInstanceAs (Decidable (∃ envelope ∈ system.sent[index]?, _))

/-- A ledger is adopted only once, and an alert does not overtake a ledger that makes its receiver
the owner without listing the job. -/
def UndisturbedPayload (system : System) (addr : Ipv4Addr) (index : ℕ) : Payload → Prop
  | .ledger _ => (addr, index) ∉ system.delivered
  | .newJob guid =>
      ∀ other < system.sent.length, system.Incoming addr other → system.NamedAt other guid
  | .heartbeat _ | .log _ => True

/-- An owner that is about to hand the ledger on has received every alert the next owner has. -/
def UndisturbedHandOver (system : System) (addr : Ipv4Addr) : Prop :=
  (system.machines addr).Owns addr → (system.machines addr).observedOwnership = true →
    ∀ next ∈ nextOwner addr (system.machines addr).addresses.keys,
      ∀ index < system.sent.length, system.IsAlert index → system.Undelivered addr index →
        system.Undelivered next index

/-- A job is uploaded at the owner, or at a machine no ledger is on its way to. -/
def UndisturbedUpload (system : System) (addr : Ipv4Addr) : Prop :=
  (system.machines addr).Owns addr ∨ ∀ index < system.sent.length, ¬ system.Incoming addr index

/-- Ledgers are taken in in order, and no alert crosses a hand-over. -/
def Undisturbed (system : System) (event : Event) : Prop :=
  InOrder system event ∧
    match event.action with
    | .deliver index => ∀ envelope ∈ system.sent[index]?,
        envelope.message.idempotency ∉ (system.machines event.addr).history →
          UndisturbedPayload system event.addr index envelope.message.payload
    | .upload _ _ => UndisturbedUpload system event.addr
    | .tick _ _ _ => UndisturbedHandOver system event.addr
    | _ => True

instance (system : System) (addr : Ipv4Addr) (index : ℕ) :
    (payload : Payload) → Decidable (UndisturbedPayload system addr index payload)
  | .ledger _ => inferInstanceAs (Decidable ((addr, index) ∉ system.delivered))
  | .newJob guid => inferInstanceAs (Decidable
      (∀ other < system.sent.length, system.Incoming addr other → system.NamedAt other guid))
  | .heartbeat _ | .log _ => inferInstanceAs (Decidable True)

instance (system : System) (addr : Ipv4Addr) : Decidable (UndisturbedHandOver system addr) :=
  inferInstanceAs (Decidable (_ → _))

instance (system : System) (addr : Ipv4Addr) : Decidable (UndisturbedUpload system addr) :=
  inferInstanceAs (Decidable (_ ∨ _))

instance (system : System) : (event : Event) → Decidable (Undisturbed system event)
  | ⟨addr, .deliver index⟩ => inferInstanceAs (Decidable (InOrder system ⟨addr, .deliver index⟩ ∧
      ∀ envelope ∈ system.sent[index]?,
        envelope.message.idempotency ∉ (system.machines addr).history →
          UndisturbedPayload system addr index envelope.message.payload))
  | ⟨addr, .upload guid key⟩ => inferInstanceAs
      (Decidable (InOrder system ⟨addr, .upload guid key⟩ ∧ UndisturbedUpload system addr))
  | ⟨addr, .tick env logKey ledgerKey⟩ => inferInstanceAs
      (Decidable (InOrder system ⟨addr, .tick env logKey ledgerKey⟩ ∧
        UndisturbedHandOver system addr))
  | ⟨addr, .heartbeat key⟩ =>
      inferInstanceAs (Decidable (InOrder system ⟨addr, .heartbeat key⟩ ∧ True))
  | ⟨addr, .log text key⟩ =>
      inferInstanceAs (Decidable (InOrder system ⟨addr, .log text key⟩ ∧ True))
  | ⟨addr, .lifetimeCheck⟩ =>
      inferInstanceAs (Decidable (InOrder system ⟨addr, .lifetimeCheck⟩ ∧ True))
  | ⟨addr, .elapse ticks⟩ =>
      inferInstanceAs (Decidable (InOrder system ⟨addr, .elapse ticks⟩ ∧ True))

/-! ## One step -/

theorem isLedger_of_commit_silent
    (hsilent : ∀ message ∈ outcome.sent, message.payload.owner? = none)
    (h : (system.commit addr ids outcome).IsLedger index) : system.IsLedger index := by
  rcases isLedger_of_commit h with hold | ⟨_, message, hmem, hne⟩
  · exact hold
  · exact absurd (hsilent message hmem) hne

/-- A job stays safe through an action that sends no ledger and, at the holder, neither receives a
message nor takes the job off the copy. -/
theorem Safe.keep (h : Safe system holder guid)
    (hsilent : ∀ message ∈ outcome.sent, message.payload.owner? = none)
    (hcopy : holder = addr → (system.machines addr).Owns addr → (system.machines addr).Lists guid →
      outcome.machine.Owns addr ∧ outcome.machine.Lists guid)
    (hdelivered : holder = addr → outcome.delivered = none) :
    Safe (system.commit addr ids outcome) holder guid := by
  have hflight {index : ℕ} (hindex : system.Undelivered holder index) :
      (system.commit addr ids outcome).Undelivered holder index :=
    hindex.commit fun hself hnew ↦ by simp [hdelivered hself] at hnew
  rcases h with haccepted | ⟨howns, hlists⟩ | ⟨index, halert, hindex⟩ |
      ⟨index, ledger, hat, hguid, hindex, hlast⟩
  · exact .inl (accepted_commit_iff.mpr (.inl haccepted))
  · by_cases hself : holder = addr
    · subst hself
      rw [Safe, machines_commit_self]
      exact .inr (.inl (hcopy rfl howns hlists))
    · rw [Safe, machines_commit_of_ne hself]
      exact .inr (.inl ⟨howns, hlists⟩)
  · exact .inr (.inr (.inl ⟨index, halert.commit, hflight hindex⟩))
  · exact .inr (.inr (.inr ⟨index, ledger, hat.commit, hguid, hflight hindex,
      fun later hlt hledger ↦ hlast later hlt (isLedger_of_commit_silent hsilent hledger)⟩))

/-- An action that sends no ledger leaves the token where it is. -/
theorem Kept.of_silent (h : Kept ring origin system holder)
    (hstep : InStep ring (some origin) (system.commit addr ids outcome))
    (hsilent : ∀ message ∈ outcome.sent, message.payload.owner? = none)
    (hsafe : ∀ guid ∈ system.filed, Safe (system.commit addr ids outcome) holder guid)
    (hnew : ∀ guid ∈ outcome.filed, Safe (system.commit addr ids outcome) holder guid) :
    Kept ring origin (system.commit addr ids outcome) holder where
  inStep := hstep
  holder_mem := h.holder_mem
  last := by
    rw [System.commit, lastOwner_append, h.last]
    apply lastOwner_of_silent
    intro envelope hmem
    obtain ⟨message, hmessage, rfl⟩ := List.mem_map.mp hmem
    exact hsilent message hmessage
  chained := by
    intro index envelope henvelope hne
    rcases mem_sent_commit henvelope with hold | ⟨_, _, hmem⟩
    · have hle := (List.getElem?_eq_some_iff.mp hold).1.le
      rw [take_sent_commit hle]
      exact h.chained index envelope hold hne
    · exact absurd (hsilent _ hmem) hne
  safe := by
    intro guid hguid
    rcases List.mem_append.mp hguid with hold | hfresh
    · exact hsafe guid hold
    · exact hnew guid (Option.mem_toList.mp hfresh)

/-- A job stays safe with a machine that receives message `index`, if receiving it keeps the job in
an own copy and the job is taken over from the message itself. -/
theorem Safe.receive (h : Safe system addr guid) (hsent : outcome.sent = [])
    (hdelivered : outcome.delivered = some index)
    (hcopy : (system.machines addr).Owns addr → (system.machines addr).Lists guid →
      outcome.machine.Owns addr ∧ outcome.machine.Lists guid)
    (halert : system.AlertAt index guid → system.Undelivered addr index →
      Safe (system.commit addr ids outcome) addr guid)
    (hledger : ∀ ledger, system.LedgerAt index ledger → guid ∈ ledger.jobs →
      system.Undelivered addr index → (∀ later, index < later → ¬ system.IsLedger later) →
        Safe (system.commit addr ids outcome) addr guid) :
    Safe (system.commit addr ids outcome) addr guid := by
  have hflight {position : ℕ} (hposition : system.Undelivered addr position)
      (hne : position ≠ index) : (system.commit addr ids outcome).Undelivered addr position :=
    hposition.commit fun _ hnew ↦ hne (Option.some.inj (hnew.symm.trans hdelivered))
  rcases h with haccepted | ⟨howns, hlists⟩ | ⟨position, hat, hposition⟩ |
      ⟨position, ledger, hat, hguid, hposition, hlast⟩
  · exact .inl (accepted_commit_iff.mpr (.inl haccepted))
  · rw [Safe, machines_commit_self]
    exact .inr (.inl (hcopy howns hlists))
  · by_cases hsame : position = index
    · subst hsame
      exact halert hat hposition
    · exact .inr (.inr (.inl ⟨position, hat.commit, hflight hposition hsame⟩))
  · by_cases hsame : position = index
    · subst hsame
      exact hledger ledger hat hguid hposition hlast
    · refine .inr (.inr (.inr ⟨position, ledger, hat.commit, hguid, hflight hposition hsame,
        fun later hlt hlater ↦ hlast later hlt (isLedger_of_commit_silent ?_ hlater)⟩))
      simp [hsent]

/-- An owner has received the last ledger broadcast. -/
theorem Kept.not_undelivered (h : Kept ring origin system holder)
    (howns : (system.machines holder).Owns holder) (hledger : system.IsLedger index)
    (hlast : ∀ later, index < later → ¬ system.IsLedger later) :
    ¬ system.Undelivered holder index := fun hflight ↦
  (undelivered_iff.mp hflight).2 ((h.of_owns h.holder_mem howns).2 index hledger hlast)

/-- With fewer than eight jobs around, no copy is full. -/
theorem Charted.room {jobs : Finset Uuid} (h : Charted (· ∈ jobs) ring system)
    (hfew : jobs.card < 8) (haddr : addr ∈ ring) {state : LedgerState}
    (hjobs : (system.machines addr).jobs = some state) : state.ledger.jobs.toList.length < 8 := by
  have hsubset : state.ledger.jobs.toList.toFinset ⊆ jobs := fun guid hguid ↦
    h.listed addr haddr guid ⟨state, hjobs, List.mem_toFinset.mp hguid⟩
  have hcard := Finset.card_le_card hsubset
  rw [List.toFinset_card_of_nodup state.ledger.jobs.nodup] at hcard
  omega

/-- A ledger that reaches the holder in order and for the first time finds a machine that does not
own its copy. -/
theorem Kept.not_owns_of_ledger (h : Kept ring origin system holder)
    (hledger : system.IsLedger index) (hflight : system.Undelivered holder index)
    (horder : ∀ later, index < later → system.IsLedger later → ¬ system.Knows holder later) :
    ¬ (system.machines holder).Owns holder := by
  intro howns
  have hbound : ∀ later, index ≤ later ∧ system.IsLedger later → later < system.sent.length := by
    rintro later ⟨_, hlater⟩
    obtain ⟨ledger, hat⟩ := isLedger_iff.mp hlater
    exact hat.lt
  obtain ⟨last, ⟨hge, hlastLedger⟩, hlater⟩ := exists_last hbound ⟨index, le_rfl, hledger⟩
  have hlast : ∀ later, last < later → ¬ system.IsLedger later := fun later hlt hmid ↦
    hlater later hlt ⟨by omega, hmid⟩
  have hknows := (h.of_owns h.holder_mem howns).2 last hlastLedger hlast
  rcases hge.eq_or_lt with rfl | hlt
  · exact (undelivered_iff.mp hflight).2 hknows
  · exact horder last hlt hlastLedger hknows

/-- The last ledger to reach the holder makes it the owner of all the jobs in it. -/
theorem Kept.safe_of_ledger (h : Kept ring origin system addr) {envelope : Envelope}
    {carried : Ledger} (hsent : envelope ∈ system.sent[index]?)
    (hkind : envelope.message.payload = .ledger carried)
    (howns : ¬ (system.machines addr).Owns addr) (hsafe : Safe system addr guid)
    (hsilent : outcome.sent = []) (hdelivered : outcome.delivered = some index)
    {now : Instant} (hjobs : outcome.machine.jobs = some (.new carried now)) :
    Safe (system.commit addr ids outcome) addr guid := by
  refine hsafe.receive hsilent hdelivered (fun hself _ ↦ absurd hself howns) ?_ ?_
  · rintro ⟨other, hother, halert⟩ _
    obtain rfl : envelope = other := Option.some.inj (hsent.symm.trans hother)
    simp [hkind] at halert
  · intro ledger hat hguid _ hlast
    obtain rfl : ledger = carried := hat.unique ⟨envelope, hsent, hkind⟩
    have howner : ledger.owner = addr :=
      Option.some.inj ((lastOwner_of_last hat hlast).symm.trans h.last)
    rw [Safe, machines_commit_self, Machine.owns_iff hjobs, Machine.lists_iff hjobs]
    exact .inr (.inl ⟨howner, hguid⟩)

/-- An alert that reaches the holder ends up in its copy, or in the ledger on its way to it. -/
theorem Kept.safe_of_alert (h : Kept ring origin system addr) {envelope : Envelope} {fresh : Uuid}
    (hsent : envelope ∈ system.sent[index]?) (hkind : envelope.message.payload = .newJob fresh)
    (hroom : ∀ state, (system.machines addr).jobs = some state →
      state.ledger.jobs.toList.length < 8)
    (hnamed : ∀ other < system.sent.length, system.Incoming addr other →
      system.NamedAt other fresh)
    (hsafe : Safe system addr guid) (hsilent : outcome.sent = [])
    (hdelivered : outcome.delivered = some index)
    (hjobs : outcome.machine.jobs = (system.machines addr).jobs.map fun state ↦
      { state with ledger := { state.ledger with jobs := state.ledger.jobs.insert fresh } }) :
    Safe (system.commit addr ids outcome) addr guid := by
  refine hsafe.receive hsilent hdelivered ?_ ?_ ?_
  · rintro ⟨state, hstate, howner⟩ hlists
    rw [hstate, Option.map_some] at hjobs
    rw [Machine.owns_iff hjobs, Machine.lists_iff hjobs]
    exact ⟨howner, IndexSet.mem_insert_of_mem ((Machine.lists_iff hstate).mp hlists)⟩
  · rintro ⟨other, hother, halert⟩ hflight
    obtain rfl : envelope = other := Option.some.inj (hsent.symm.trans hother)
    obtain rfl : fresh = guid := Payload.newJob.inj (hkind.symm.trans halert)
    by_cases howns : (system.machines addr).Owns addr
    · obtain ⟨state, hstate, howner⟩ := howns
      rw [hstate, Option.map_some] at hjobs
      rw [Safe, machines_commit_self, Machine.owns_iff hjobs, Machine.lists_iff hjobs]
      exact .inr (.inl ⟨howner, IndexSet.mem_insert_self _ _ (.inr (hroom state hstate))⟩)
    · -- the ledger still on its way is the one that counts, and it lists the job
      obtain ⟨position, ledger, hat, howner, hundelivered, hlast⟩ := h.incoming howns
      obtain ⟨carrier, hcarrier, hpayload⟩ := id hat
      obtain ⟨same, hsame, hguid⟩ := hnamed position hat.lt
        ⟨hundelivered, carrier, hcarrier, by rw [hpayload, Payload.owner?, howner]⟩
      obtain rfl : carrier = same := Option.some.inj (hcarrier.symm.trans hsame)
      rw [hpayload] at hguid
      have hne : position ≠ index := by
        rintro rfl
        obtain rfl : envelope = carrier := Option.some.inj (hsent.symm.trans hcarrier)
        simp [hkind] at hpayload
      refine .inr (.inr (.inr ⟨position, ledger, hat.commit, hguid, hundelivered.commit
        fun _ hnew ↦ hne (Option.some.inj (hnew.symm.trans hdelivered)), fun later hlt hlater ↦
          hlast later hlt (isLedger_of_commit_silent (by simp [hsilent]) hlater)⟩))
  · rintro ledger ⟨other, hother, hpayload⟩
    obtain rfl : envelope = other := Option.some.inj (hsent.symm.trans hother)
    simp [hkind] at hpayload

/-- Messages of the other kinds leave every job where it is. -/
theorem Safe.of_other {envelope : Envelope} (hsafe : Safe system addr guid)
    (hsent : envelope ∈ system.sent[index]?)
    (hkind : envelope.message.payload.guids = []) (howner : envelope.message.payload.owner? = none)
    (hsilent : outcome.sent = []) (hdelivered : outcome.delivered = some index)
    (hjobs : outcome.machine.jobs = (system.machines addr).jobs) :
    Safe (system.commit addr ids outcome) addr guid := by
  refine hsafe.receive hsilent hdelivered ?_ ?_ ?_
  · simp only [Machine.Owns, Machine.Lists, hjobs]
    exact fun howns hlists ↦ ⟨howns, hlists⟩
  · rintro ⟨other, hother, hpayload⟩
    obtain rfl : envelope = other := Option.some.inj (hsent.symm.trans hother)
    simp [hpayload, Payload.guids] at hkind
  · rintro ledger ⟨other, hother, hpayload⟩
    obtain rfl : envelope = other := Option.some.inj (hsent.symm.trans hother)
    simp [hpayload, Payload.owner?] at howner

/-- The holder takes over what the messages it receives have to say about a job. -/
theorem Kept.safe_of_receive (h : Kept ring origin system addr) {jobs : Finset Uuid}
    (hcharted : Charted (· ∈ jobs) ring system) (hfew : jobs.card < 8) {envelope : Envelope}
    (hsent : envelope ∈ system.sent[index]?) (hsrc : envelope.src ≠ addr)
    (hguard : Undisturbed system ⟨addr, .deliver index⟩) (hsafe : Safe system addr guid) :
    Safe (system.commit addr ids ⟨receiveMessage envelope.src envelope.message
      (system.machines addr), [], none, none, some index⟩) addr guid := by
  by_cases hnew : envelope.message.idempotency ∈ (system.machines addr).history
  · -- a duplicate changes nothing, and its first copy is delivered already
    have hknown : ¬ system.Undelivered addr index := fun ⟨_, _, _, hundelivered⟩ ↦
      h.inStep.wellFormed.fresh_of_undelivered h.holder_mem hsent hundelivered hnew
    refine hsafe.receive rfl rfl ?_ (fun _ hflight ↦ absurd hflight hknown)
      (fun _ _ _ hflight ↦ absurd hflight hknown)
    rw [receiveMessage_of_mem hnew]
    exact fun howns hlists ↦ ⟨howns, hlists⟩
  · have hpayload := hguard.2 envelope hsent hnew
    cases hkind : envelope.message.payload with
    | ledger carried =>
        rw [hkind] at hpayload
        have hledger : system.IsLedger index := ⟨envelope, hsent, by simp [hkind, Payload.owner?]⟩
        have howns := h.not_owns_of_ledger hledger ⟨envelope, hsent, hsrc, hpayload⟩
          fun later hlt hlater ↦ hguard.1 envelope hsent hnew (by simp [hkind, Payload.owner?])
            later (isLedger_iff.mp hlater).choose_spec.lt hlt hlater
        exact h.safe_of_ledger hsent hkind howns hsafe rfl rfl
          (jobs_receiveMessage_ledger _ hnew hkind)
    | newJob fresh =>
        rw [hkind] at hpayload
        exact h.safe_of_alert hsent hkind (fun state ↦ hcharted.room hfew h.holder_mem) hpayload
          hsafe rfl rfl (jobs_receiveMessage_newJob _ hnew hkind)
    | heartbeat alive =>
        refine hsafe.of_other hsent (by rw [hkind, Payload.guids]) (by rw [hkind, Payload.owner?])
          rfl rfl ?_
        simp [receiveMessage, hnew, hkind]
    | log text =>
        refine hsafe.of_other hsent (by rw [hkind, Payload.guids]) (by rw [hkind, Payload.owner?])
          rfl rfl ?_
        simp [receiveMessage, hnew, hkind]

/-- An owner that broadcasts its copy as the last message of a round passes the token to the machine
named in it, together with the jobs that are safe there. -/
theorem Kept.of_broadcast (h : Kept ring origin system addr)
    (hstep : InStep ring (some origin) (system.commit addr ids outcome))
    {earlier : List Message} {last : Message} {carried : Ledger}
    (hsent : outcome.sent = earlier ++ [last])
    (hearlier : ∀ message ∈ earlier, message.payload.owner? = none)
    (hlast : last.payload = .ledger carried) (hmem : carried.owner ∈ ring)
    (hfiled : outcome.filed = none)
    (hsafe : ∀ guid ∈ system.filed,
      Safe (system.commit addr ids outcome) carried.owner guid) :
    Kept ring origin (system.commit addr ids outcome) carried.owner where
  inStep := hstep
  holder_mem := hmem
  last := by
    simp [System.commit, hsent, lastOwner, hlast, Payload.owner?]
  chained := by
    intro index envelope henvelope hne
    rcases mem_sent_commit henvelope with hold | ⟨hge, hsrc, _⟩
    · have hle := (List.getElem?_eq_some_iff.mp hold).1.le
      rw [take_sent_commit hle]
      exact h.chained index envelope hold hne
    · have hlength : index < (system.sent ++ earlier.map (Envelope.mk addr)).length + 1 :=
        length_sent_commit hsent ▸ (List.getElem?_eq_some_iff.mp henvelope).1
      -- only the messages before the copy lie between, and they are no ledgers
      have hbetween : ∀ position, system.sent.length ≤ position → position < index →
          ¬ (system.commit addr ids outcome).IsLedger position := by
        rintro position hlow hhigh ⟨other, hother, howner⟩
        rw [sent_commit_concat hsent, Option.mem_def, List.getElem?_append_left (by omega),
          List.getElem?_append_right hlow] at hother
        obtain ⟨message, hmessage, rfl⟩ := List.mem_map.mp (List.mem_of_getElem? hother)
        exact howner (hearlier message hmessage)
      rw [lastOwner_take_eq _ hge hbetween, take_sent_commit le_rfl, List.take_length, h.last, hsrc]
  safe := by
    intro guid hguid
    rcases List.mem_append.mp hguid with hold | hfresh
    · exact hsafe guid hold
    · simp [hfiled] at hfresh

/-- A manufactured copy still lists a job unless it has just been accepted. -/
theorem mem_jobs_of_manufactured {env : TickEnv} {state made : LedgerState} {output : TickOutput}
    (h : Manufactured env state made output) (hguid : guid ∈ state.ledger.jobs) :
    guid ∈ made.ledger.jobs ∨ output.accepted = some guid := by
  cases h with
  | nothing => exact .inl hguid
  | accepted found _ _ _ _ =>
      by_cases hsame : guid = found
      · exact .inr (by rw [hsame])
      · exact .inl (IndexSet.mem_remove.mpr ⟨hsame, hguid⟩)

/-- What a round sends before the copy of the ledger is no ledger. -/
theorem sent_of_manufactured {env : TickEnv} {state made : LedgerState} {output : TickOutput}
    (h : Manufactured env state made output) {payload : Payload} (hmem : payload ∈ output.sent) :
    payload.owner? = none := by
  cases h with
  | nothing => cases hmem
  | accepted _ _ _ _ _ =>
      obtain rfl := List.mem_singleton.mp hmem
      rfl

/-- A round that broadcasts the owner's copy, with or without a new owner in it, keeps every job
safe with the machine it names. -/
theorem Kept.of_round (h : Kept ring origin system addr) (state : LedgerState)
    (hstep : InStep ring (some origin) (system.commit addr ids outcome)) {env : TickEnv}
    {before made : LedgerState} {output : TickOutput}
    {logKey ledgerKey : Uuid} (hjobs : (system.machines addr).jobs = some before)
    (howner : before.ledger.owner = addr)
    (hmade : Manufactured env before made output)
    (hcarried : state.ledger.jobs = made.ledger.jobs) (hmem : state.ledger.owner ∈ ring)
    (halerts : ∀ index, system.IsAlert index → system.Undelivered addr index →
      system.Undelivered state.ledger.owner index)
    (hmachine : outcome.machine.jobs = some state)
    (hsent : outcome.sent = (output.send (.ledger state.ledger)).sent.map (stamp logKey ledgerKey))
    (haccepted : outcome.accepted = output.accepted) (hfiled : outcome.filed = none)
    (hdelivered : outcome.delivered = none) :
    Kept ring origin (system.commit addr ids outcome) state.ledger.owner := by
  have howns : (system.machines addr).Owns addr := ⟨before, hjobs, howner⟩
  have hlist : outcome.sent =
      output.sent.map (stamp logKey ledgerKey) ++ [⟨ledgerKey, .ledger state.ledger⟩] := by
    rw [hsent, TickOutput.send, List.map_append]
    rfl
  refine h.of_broadcast hstep hlist ?_ rfl hmem hfiled fun guid hguid ↦ ?_
  · intro message hmessage
    obtain ⟨payload, hpayload, rfl⟩ := List.mem_map.mp hmessage
    have hsilent := sent_of_manufactured hmade hpayload
    cases payload <;> simp_all [stamp, Payload.owner?]
  rcases h.safe guid hguid with hold | ⟨_, hlists⟩ | ⟨index, halert, hflight⟩ |
      ⟨index, ledger, hat, _, hflight, hlast⟩
  · exact .inl (accepted_commit_iff.mpr (.inl hold))
  · rcases mem_jobs_of_manufactured hmade ((Machine.lists_iff hjobs).mp hlists) with hstill | hnew
    · rw [← hcarried] at hstill
      by_cases hself : state.ledger.owner = addr
      · rw [hself, Safe, machines_commit_self, Machine.owns_iff hmachine,
          Machine.lists_iff hmachine]
        exact .inr (.inl ⟨hself, hstill⟩)
      · have hcopy : (⟨addr, ledgerKey, .ledger state.ledger⟩ : Envelope) ∈
            (system.commit addr ids outcome).sent[(system.sent ++ (output.sent.map
              (stamp logKey ledgerKey)).map (Envelope.mk addr)).length]? :=
          mem_sent_commit_last hlist
        refine .inr (.inr (.inr ⟨_, state.ledger, ⟨_, hcopy, rfl⟩, hstill, ?_, ?_⟩))
        · exact h.inStep.wellFormed.undelivered_new hcopy (by simp) (Ne.symm hself) hdelivered
        · intro later hlt hlater
          obtain ⟨_, hlaterAt⟩ := isLedger_iff.mp hlater
          have hbound := hlaterAt.lt
          rw [length_sent_commit hlist] at hbound
          omega
    · exact .inl (accepted_commit_iff.mpr (.inr (haccepted.trans hnew)))
  · obtain ⟨envelope, henvelope, hpayload⟩ := id halert
    have hnext := halerts index ⟨envelope, henvelope, by simp [hpayload, Payload.alert?]⟩ hflight
    exact .inr (.inr (.inl ⟨index, halert.commit, hnext.commit fun _ hnew ↦ by
      simp [hdelivered] at hnew⟩))
  · exact absurd hflight (h.not_undelivered howns (isLedger_iff.mpr ⟨ledger, hat⟩) hlast)

/-- A machine whose copy names an owner from the start always holds a copy. -/
theorem Kept.jobs_ne_none (h : Kept ring origin system holder) (haddr : addr ∈ ring) :
    (system.machines addr).jobs ≠ none := by
  intro hnone
  obtain ⟨count, hcopy⟩ := h.inStep.follows addr haddr
  have howner := hcopy.owner_eq
  rw [Machine.owner?, hnone, Option.map_none] at howner
  exact lastOwner_ne_none origin (system.sent.take count) howner.symm

/-- An action that changes neither the copy nor the network keeps everything. -/
theorem Kept.of_unchanged (h : Kept ring origin system holder)
    (hstep : InStep ring (some origin) (system.commit addr ids outcome))
    (hsilent : ∀ message ∈ outcome.sent, message.payload.owner? = none)
    (hjobs : outcome.machine.jobs = (system.machines addr).jobs) (hfiled : outcome.filed = none)
    (hdelivered : outcome.delivered = none) :
    Kept ring origin (system.commit addr ids outcome) holder := by
  refine h.of_silent hstep hsilent (fun guid hguid ↦ (h.safe guid hguid).keep hsilent ?_ ?_) ?_
  · simp only [Machine.Owns, Machine.Lists, hjobs]
    exact fun _ howns hlists ↦ ⟨howns, hlists⟩
  · exact fun _ ↦ hdelivered
  · simp [hfiled]

/-- Without takeover a round works on the copy as it is. -/
theorem staleTakeover_of_inOrder {env : TickEnv} {logKey ledgerKey : Uuid} {before : LedgerState}
    (hguard : InOrder system ⟨addr, .tick env logKey ledgerKey⟩)
    (hjobs : (system.machines addr).jobs = some before) :
    staleTakeover addr (system.machines addr).addresses (system.machines addr).clock before =
      before := by
  cases htakes : takesOver addr (system.machines addr).addresses (system.machines addr).clock
      before with
  | false => exact staleTakeover_of_not htakes
  | true =>
      have howner : before.ledger.owner = addr := hguard before hjobs htakes
      rw [staleTakeover, if_pos htakes]
      subst howner
      rfl

/-- A round of `manage_ledger` keeps every job safe. -/
theorem Kept.of_tick (h : Kept ring origin system holder)
    (haddr : addr ∈ ring) {env : TickEnv} {logKey ledgerKey : Uuid} {machine : Machine}
    {output : TickOutput} (hguard : Undisturbed system ⟨addr, .tick env logKey ledgerKey⟩)
    (houtcome : TickOutcome env addr (system.machines addr) machine output)
    (hstep : InStep ring (some origin) (system.commit addr ids
      ⟨machine, output.sent.map (stamp logKey ledgerKey), none, output.accepted, none⟩)) :
    ∃ next, Kept ring origin (system.commit addr ids
      ⟨machine, output.sent.map (stamp logKey ledgerKey), none, output.accepted, none⟩) next := by
  cases houtcome with
  | created hjobs => exact absurd hjobs (h.jobs_ne_none haddr)
  | waited hjobs htaken hidle =>
      rw [staleTakeover_of_inOrder hguard.1 hjobs] at htaken
      subst htaken
      exact ⟨holder, h.of_unchanged hstep (by simp [TickOutput.quiet]) hjobs.symm rfl rfl⟩
  | @kept state before made output hjobs htaken howner hobserved hmade halone =>
      rw [staleTakeover_of_inOrder hguard.1 hjobs] at htaken
      subst htaken
      obtain ⟨rfl, _⟩ := h.of_owns haddr ⟨state, hjobs, howner⟩
      have hsame : made.ledger.owner = addr := (owner_of_manufactured hmade).trans howner
      exact ⟨_, h.of_round made hstep hjobs howner hmade rfl (hsame ▸ haddr)
        (fun _ _ hflight ↦ hsame ▸ hflight) rfl rfl rfl rfl rfl⟩
  | @passed state before made output next hjobs htaken howner hobserved hmade hnext hmem =>
      rw [staleTakeover_of_inOrder hguard.1 hjobs] at htaken
      subst htaken
      have howns : (system.machines addr).Owns addr := ⟨state, hjobs, howner⟩
      obtain ⟨rfl, _⟩ := h.of_owns haddr howns
      refine ⟨next, h.of_round { made with ledger := { made.ledger with owner := next } } hstep
         hjobs howner hmade rfl (h.inStep.wellFormed.book_mem addr haddr next hmem).1
        (fun index halert hflight ↦ ?_) rfl rfl rfl rfl rfl⟩
      exact hguard.2 howns hobserved next hnext index (undelivered_iff.mp hflight).1 halert hflight

/-- Every undisturbed action keeps every job safe with the machine that holds the token after it. -/
theorem Kept.commit (h : Kept ring origin system holder) {jobs : Finset Uuid}
    (hcharted : Charted (· ∈ jobs) ring system) (hfew : jobs.card < 8) (haddr : addr ∈ ring)
    (hguard : Undisturbed system ⟨addr, action⟩) (hacts : Acts system addr action outcome)
    (hstep : InStep ring (some origin) (system.commit addr ids outcome)) :
    ∃ next, Kept ring origin (system.commit addr ids outcome) next := by
  cases hacts with
  | @filed guid key state filed hjobs howner hfiled =>
      obtain ⟨rfl, _⟩ := h.of_owns haddr ⟨state, hjobs, howner⟩
      refine ⟨addr, h.of_silent hstep (by simp) (fun other hother ↦ ?_) fun other hother ↦ ?_⟩
      · refine (h.safe other hother).keep (by simp) (fun _ _ hlists ↦ ?_) fun _ ↦ rfl
        rw [Machine.owns_iff rfl, Machine.lists_iff rfl]
        exact ⟨howner, IndexSet.mem_insert_of_mem ((Machine.lists_iff hjobs).mp hlists)⟩
      · obtain ⟨hinserted, hsame⟩ := Option.ite_none_right_eq_some.mp (hfiled.symm.trans hother)
        obtain rfl := Option.some.inj hsame
        rw [Safe, machines_commit_self, Machine.owns_iff rfl, Machine.lists_iff rfl]
        exact .inr (.inl ⟨howner, hinserted⟩)
  | @alerted guid key howns =>
      -- a machine the ledger is on its way to does not upload, so the holder is another one
      have hne : addr ≠ holder := by
        rintro rfl
        obtain ⟨index, ledger, hat, howner, hflight, _⟩ := h.incoming howns
        obtain ⟨envelope, henvelope, hpayload⟩ := id hat
        exact (hguard.2.resolve_left howns) index hat.lt
          ⟨hflight, envelope, henvelope, by rw [hpayload, Payload.owner?, howner]⟩
      refine ⟨holder, h.of_silent hstep (by simp [Payload.owner?]) (fun other hother ↦ ?_)
        fun other hother ↦ ?_⟩
      · exact (h.safe other hother).keep (by simp [Payload.owner?])
          (fun hself ↦ absurd hself.symm hne) fun hself ↦ absurd hself.symm hne
      · obtain rfl := Option.some.inj hother
        have hnew : (⟨addr, key, .newJob guid⟩ : Envelope) ∈
            (system.commit addr ids ⟨system.machines addr, [⟨key, .newJob guid⟩], some guid, none,
              none⟩).sent[(system.sent ++ [].map (Envelope.mk addr)).length]? :=
          mem_sent_commit_last rfl
        exact .inr (.inr (.inl ⟨_, ⟨_, hnew, rfl⟩,
          h.inStep.wellFormed.undelivered_new hnew (by simp) hne rfl⟩))
  | @delivered index envelope hsent hsrc =>
      refine ⟨holder, h.of_silent hstep (by simp) (fun guid hguid ↦ ?_) (by simp)⟩
      by_cases hself : holder = addr
      · subst hself
        exact h.safe_of_receive hcharted hfew hsent hsrc hguard (h.safe guid hguid)
      · exact (h.safe guid hguid).keep (by simp) (fun hsame ↦ absurd hsame hself)
          fun hsame ↦ absurd hsame hself
  | ticked houtcome => exact h.of_tick haddr hguard houtcome hstep
  | unfiled _ => exact ⟨holder, h.of_unchanged hstep (by simp) rfl rfl rfl⟩
  | greeted => exact ⟨holder, h.of_unchanged hstep (by simp [Payload.owner?]) rfl rfl rfl⟩
  | logged => exact ⟨holder, h.of_unchanged hstep (by simp [Payload.owner?]) rfl rfl rfl⟩
  | purged => exact ⟨holder, h.of_unchanged hstep (by simp) rfl rfl rfl⟩
  | elapsed => exact ⟨holder, h.of_unchanged hstep (by simp) rfl rfl rfl⟩

/-! ## Whole runs -/

/-- All machines of the ring hold a ledger that names `origin`, and no message has been sent. -/
structure Agreed (ring : Finset Ipv4Addr) (origin : Ipv4Addr) (system : System) : Prop where
  origin_mem : origin ∈ ring
  owner_eq : ∀ addr ∈ ring, (system.machines addr).owner? = some origin
  sent_eq : system.sent = []
  delivered_eq : system.delivered = []
  filed_eq : system.filed = []
  history_issued : ∀ addr ∈ ring, ∀ key ∈ (system.machines addr).history, key ∈ system.issued
  book_mem : ∀ addr ∈ ring, ∀ other ∈ (system.machines addr).addresses.keys,
    other ∈ ring ∧ other ≠ addr

/-- Each filed job has been accepted, or is in the copy of a machine that is the owner, or in a
message still on its way to a machine that is the owner or that a ledger will make the owner. -/
def NothingLost (ring : Finset Ipv4Addr) (system : System) : Prop :=
  ∀ guid ∈ system.filed, system.Accepted guid ∨
    (∃ addr ∈ ring, (system.machines addr).Owns addr ∧ (system.machines addr).Lists guid) ∨
    ∃ addr ∈ ring, ((system.machines addr).Owns addr ∨
        ∃ index < system.sent.length, system.Incoming addr index) ∧
      ∃ index < system.sent.length, system.Undelivered addr index ∧ system.NamedAt index guid

instance (ring : Finset Ipv4Addr) (system : System) : Decidable (NothingLost ring system) :=
  List.decidableBAll _ system.filed

theorem Agreed.kept (h : Agreed ring origin system) : Kept ring origin system origin where
  inStep :=
    { wellFormed :=
        { src_mem := by simp [h.sent_eq]
          key_issued := by simp [h.sent_eq]
          key_nodup := by simp [h.sent_eq]
          owner_mem := by simp [h.sent_eq, LedgerAt]
          delivered_lt := by simp [h.delivered_eq]
          history_issued := h.history_issued
          history_delivered := by simp [h.sent_eq]
          book_mem := h.book_mem }
      follows := fun addr haddr ↦ ⟨0, Nat.zero_le _, by simpa [lastOwner] using h.owner_eq addr haddr,
        .inl rfl, by simp [IsLedger, h.sent_eq]⟩ }
  holder_mem := h.origin_mem
  last := by simp [h.sent_eq, lastOwner]
  chained := by simp [h.sent_eq]
  safe := by simp [h.filed_eq]

theorem Kept.nothingLost (h : Kept ring origin system holder) : NothingLost ring system := by
  intro guid hguid
  rcases h.safe guid hguid with haccepted | hcopy | ⟨index, ⟨envelope, henvelope, hpayload⟩,
      hflight⟩ | ⟨index, ledger, hat, hlisted, hflight, hlast⟩
  · exact .inl haccepted
  · exact .inr (.inl ⟨holder, h.holder_mem, hcopy⟩)
  · refine .inr (.inr ⟨holder, h.holder_mem, ?_, index, (undelivered_iff.mp hflight).1, hflight,
      envelope, henvelope, by simp [hpayload, Payload.guids]⟩)
    by_cases howns : (system.machines holder).Owns holder
    · exact .inl howns
    · obtain ⟨position, ledger, hat, howner, hundelivered, _⟩ := h.incoming howns
      obtain ⟨carrier, hcarrier, hcarried⟩ := id hat
      exact .inr ⟨position, hat.lt, hundelivered, carrier, hcarrier,
        by rw [hcarried, Payload.owner?, howner]⟩
  · have howner : ledger.owner = holder :=
      Option.some.inj ((lastOwner_of_last hat hlast).symm.trans h.last)
    obtain ⟨envelope, henvelope, hpayload⟩ := id hat
    exact .inr (.inr ⟨holder, h.holder_mem, .inr ⟨index, hat.lt, hflight, envelope, henvelope,
      by rw [hpayload, Payload.owner?, howner]⟩, index, hat.lt, hflight, envelope, henvelope,
      by rw [hpayload]; exact hlisted⟩)

/-- In every run from an agreed owner that takes in ledgers in order and lets no alert cross a
hand-over, no filed job is lost. -/
theorem nothing_lost_of_undisturbed {ring : Finset Ipv4Addr} {origin : Ipv4Addr}
    {start system : System} (jobs : Finset Uuid) (hstart : Agreed ring origin start)
    (hfew : jobs.card < 8)
    (hlisted : ∀ addr ∈ ring, ∀ guid, (start.machines addr).Lists guid → guid ∈ jobs)
    (hfiled : ∀ guid ∈ system.filed, guid ∈ jobs)
    (h : Reaches (System.step ring) Undisturbed start system) : NothingLost ring system := by
  have hinv : (∀ guid ∈ system.filed, guid ∈ jobs) →
      Charted (· ∈ jobs) ring system ∧ ∃ holder, Kept ring origin system holder := by
    refine h.invariant (fun system ↦ (∀ guid ∈ system.filed, guid ∈ jobs) →
      Charted (· ∈ jobs) ring system ∧ ∃ holder, Kept ring origin system holder) ?_
        fun before event after ih hguard hstep hafter ↦ ?_
    · exact fun _ ↦ ⟨⟨hlisted, by simp [hstart.sent_eq]⟩, origin, hstart.kept⟩
    · obtain ⟨haddr, _, _, outcome, hacts, rfl⟩ := exists_of_step hstep
      obtain ⟨hcharted, holder, hkept⟩ := ih fun guid hguid ↦
        hafter guid (List.mem_append_left _ hguid)
      refine ⟨hcharted.commit haddr hacts fun guid hnew ↦ ?_, ?_⟩
      · exact hafter guid (List.mem_append_right _ (Option.mem_toList.mpr hnew))
      · exact hkept.commit hcharted hfew haddr hguard hacts (hkept.inStep.step hguard.1 hstep)
  obtain ⟨_, holder, hkept⟩ := hinv hfiled
  exact hkept.nothingLost

/-! ## A crossing alert -/

/-- A machine that holds `alpha`'s ledger without jobs and has heard from `peer`. -/
def waiting (peer : Ipv4Addr) : Machine :=
  { Machine.boot with
    addresses := LinearMap.empty.insert peer 0
    jobs := some (.new ⟨alpha, .empty⟩ 0) }

/-- `alpha` owns the ledger and would hand it to `beta`. -/
def agreedStart : System :=
  { System.boot with machines := fun addr ↦ waiting (if addr = alpha then beta else alpha) }

theorem agreed_agreedStart : Agreed {alpha, beta, gamma} alpha agreedStart where
  origin_mem := by decide
  owner_eq := by decide
  sent_eq := rfl
  delivered_eq := rfl
  filed_eq := rfl
  history_issued := fun _ _ key hkey ↦ absurd hkey (HistoryBuf.notMem_empty key)
  book_mem := by decide

/-- `gamma` uploads a job; its alert reaches everybody before `alpha` hands the ledger on. -/
def alertFirst : List Event :=
  [⟨gamma, .upload ⟨1⟩ ⟨2⟩⟩, ⟨alpha, .deliver 0⟩, ⟨beta, .deliver 0⟩,
    ⟨alpha, .tick (printer alpha false) ⟨3⟩ ⟨4⟩⟩, ⟨alpha, .tick (printer alpha false) ⟨5⟩ ⟨6⟩⟩,
    ⟨beta, .deliver 1⟩, ⟨gamma, .deliver 1⟩]

/-- The same messages, but the alert reaches `alpha` only after it has handed the ledger on. -/
def alertCrossing : List Event :=
  [⟨gamma, .upload ⟨1⟩ ⟨2⟩⟩, ⟨beta, .deliver 0⟩,
    ⟨alpha, .tick (printer alpha false) ⟨3⟩ ⟨4⟩⟩, ⟨alpha, .tick (printer alpha false) ⟨5⟩ ⟨6⟩⟩,
    ⟨beta, .deliver 1⟩, ⟨gamma, .deliver 1⟩, ⟨alpha, .deliver 0⟩]

theorem nothing_lost_after_alert_first :
    ∃ system, Reaches (System.step {alpha, beta, gamma}) Undisturbed agreedStart system ∧
      system.filed = [⟨1⟩] ∧ (system.machines beta).Owns beta ∧
      NothingLost {alpha, beta, gamma} system := by
  obtain ⟨system, hreach, hfiled, howns⟩ := exists_reaches_of_runIf
    (System.step {alpha, beta, gamma}) Undisturbed agreedStart alertFirst
    (fun system ↦ system.filed = [⟨1⟩] ∧ (system.machines beta).Owns beta) (by decide +kernel)
  refine ⟨system, hreach, hfiled, howns, ?_⟩
  refine nothing_lost_of_undisturbed {⟨1⟩} agreed_agreedStart (by decide) ?_ ?_ hreach
  · rintro addr haddr guid ⟨state, hstate, hguid⟩
    obtain rfl : _ = state := Option.some.inj hstate
    exact absurd hguid (IndexSet.notMem_empty guid)
  · simp [hfiled]

/-- An alert that arrives in the other order is gone once all messages are delivered. -/
theorem job_lost_after_alert_crossing :
    ∃ system, Reaches (System.step {alpha, beta, gamma}) Unrestricted agreedStart system ∧
      Agreed {alpha, beta, gamma} alpha agreedStart ∧ system.filed = [⟨1⟩] ∧
      (∀ addr ∈ ({alpha, beta, gamma} : Finset Ipv4Addr), ∀ index < system.sent.length,
        ¬ system.Undelivered addr index) ∧
      ¬ NothingLost {alpha, beta, gamma} system := by
  obtain ⟨system, hreach, hfiled, hquiet, hlost⟩ := exists_reaches_of_runIf
    (System.step {alpha, beta, gamma}) Unrestricted agreedStart alertCrossing
    (fun system ↦ system.filed = [⟨1⟩] ∧
      (∀ addr ∈ ({alpha, beta, gamma} : Finset Ipv4Addr), ∀ index < system.sent.length,
        ¬ system.Undelivered addr index) ∧
      ¬ NothingLost {alpha, beta, gamma} system)
    (by decide +kernel)
  exact ⟨system, hreach, agreed_agreedStart, hfiled, hquiet, hlost⟩

end System

end Derusting
