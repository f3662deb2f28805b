import Derusting.Ring.WellFormed

/-!
# The ledger token

The owner field is written independently on every machine, but what a machine believes about the
owner is always what one of the ledger broadcasts said.  `lastOwner` reads the owner off a prefix of
the broadcasts, and a machine `Follows` the network when its copy agrees with some prefix and it
knows of no later ledger.

When machines take in the ledger broadcasts in the order in which these were sent, their own
included, and nobody takes a stale ledger over, all machines agree on the last broadcast as soon as
no ledger is in flight, so exactly one of them is the owner.  Two machines that create a ledger
before hearing of each other break that order and end up naming each other.
-/

namespace Derusting

open Foundations.Bounded Foundations.Transition

/-- The owner after a list of broadcasts, starting from the owner named before them. -/
def lastOwner (initial : Option Ipv4Addr) (sent : List Envelope) : Option Ipv4Addr :=
  sent.foldl (fun owner envelope ↦ envelope.message.payload.owner?.or owner) initial

theorem lastOwner_append (initial : Option Ipv4Addr) (left right : List Envelope) :
    lastOwner initial (left ++ right) = lastOwner (lastOwner initial left) right :=
  List.foldl_append

/-- Once an owner is named, there is always one. -/
theorem lastOwner_ne_none (owner : Ipv4Addr) (sent : List Envelope) :
    lastOwner (some owner) sent ≠ none := by
  induction sent generalizing owner with
  | nil => simp [lastOwner]
  | cons envelope sent ih =>
      rw [lastOwner, List.foldl_cons, Option.or_some]
      exact ih _

/-- Broadcasts other than ledgers do not move the token. -/
theorem lastOwner_of_silent {initial : Option Ipv4Addr} {sent : List Envelope}
    (h : ∀ envelope ∈ sent, envelope.message.payload.owner? = none) :
    lastOwner initial sent = initial := by
  induction sent generalizing initial with
  | nil => rfl
  | cons envelope sent ih =>
      rw [lastOwner, List.foldl_cons, h envelope List.mem_cons_self]
      exact ih fun other hother ↦ h other (List.mem_cons_of_mem _ hother)

namespace System

variable {ring : Finset Ipv4Addr} {system after : System} {addr other : Ipv4Addr}
  {action : Action} {outcome : Outcome} {ids : List Uuid} {index : ℕ} {initial : Option Ipv4Addr}

/-- Message `index` is a ledger broadcast. -/
def IsLedger (system : System) (index : ℕ) : Prop :=
  ∃ envelope ∈ system.sent[index]?, envelope.message.payload.owner? ≠ none

instance (system : System) (index : ℕ) : Decidable (system.IsLedger index) :=
  inferInstanceAs (Decidable (∃ envelope ∈ system.sent[index]?, _))

theorem isLedger_iff : system.IsLedger index ↔ ∃ ledger, system.LedgerAt index ledger := by
  constructor
  · rintro ⟨envelope, henvelope, howner⟩
    cases hpayload : envelope.message.payload with
    | ledger carried => exact ⟨carried, envelope, henvelope, hpayload⟩
    | newJob guid => simp [hpayload, Payload.owner?] at howner
    | heartbeat alive => simp [hpayload, Payload.owner?] at howner
    | log text => simp [hpayload, Payload.owner?] at howner
  · rintro ⟨ledger, envelope, henvelope, hpayload⟩
    exact ⟨envelope, henvelope, by simp [hpayload, Payload.owner?]⟩

/-- Dropping broadcasts among which there is no ledger leaves the owner as it is. -/
theorem lastOwner_take_eq (initial : Option Ipv4Addr) {count later : ℕ} (hle : count ≤ later)
    (h : ∀ index, count ≤ index → index < later → ¬ system.IsLedger index) :
    lastOwner initial (system.sent.take later) = lastOwner initial (system.sent.take count) := by
  obtain ⟨extra, rfl⟩ := Nat.exists_eq_add_of_le hle
  rw [List.take_add, lastOwner_append]
  apply lastOwner_of_silent
  intro envelope hmem
  obtain ⟨position, hlt, rfl⟩ := List.mem_iff_getElem.mp hmem
  by_contra howner
  simp only [List.length_take, List.length_drop, lt_min_iff] at hlt
  refine h (count + position) (Nat.le_add_right _ _) (by omega) ⟨_, ?_, howner⟩
  simp only [List.getElem_take, List.getElem_drop, Option.mem_def]
  exact List.getElem?_eq_getElem (by omega)

/-- A ledger broadcast names the owner of the broadcasts up to it. -/
theorem lastOwner_take_succ (initial : Option Ipv4Addr) {envelope : Envelope} {owner : Ipv4Addr}
    (henvelope : envelope ∈ system.sent[index]?)
    (howner : envelope.message.payload.owner? = some owner) :
    lastOwner initial (system.sent.take (index + 1)) = some owner := by
  rw [List.take_add_one, henvelope, lastOwner_append]
  simp [lastOwner, howner]

/-! ## Following the broadcasts -/

/-- The copy of `addr` agrees with the first `count` broadcasts, where the last of them is a ledger
`addr` knows unless there are none, and `addr` has neither sent nor received a ledger beyond. -/
structure FollowsTo (initial : Option Ipv4Addr) (system : System) (addr : Ipv4Addr) (count : ℕ) :
    Prop where
  count_le : count ≤ system.sent.length
  owner_eq : (system.machines addr).owner? = lastOwner initial (system.sent.take count)
  basis : count = 0 ∨ ∃ basis, count = basis + 1 ∧ system.IsLedger basis ∧ system.Knows addr basis
  later : ∀ index, count ≤ index → system.IsLedger index → ¬ system.Knows addr index

/-- The copy of `addr` is what some of the broadcasts so far have left it with. -/
def Follows (initial : Option Ipv4Addr) (system : System) (addr : Ipv4Addr) : Prop :=
  ∃ count, FollowsTo initial system addr count

theorem Knows.lt (h : WellFormed ring system) (hknows : system.Knows addr index) :
    index < system.sent.length := by
  rcases hknows with ⟨envelope, henvelope, _⟩ | hdelivered
  · exact (List.getElem?_eq_some_iff.mp henvelope).1
  · exact h.delivered_lt addr index hdelivered

theorem isLedger_of_commit (h : (system.commit addr ids outcome).IsLedger index) :
    system.IsLedger index ∨ system.sent.length ≤ index ∧
      ∃ message ∈ outcome.sent, message.payload.owner? ≠ none := by
  obtain ⟨envelope, henvelope, howner⟩ := h
  rcases mem_sent_commit henvelope with hold | ⟨hge, _, hnew⟩
  · exact .inl ⟨envelope, hold, howner⟩
  · exact .inr ⟨hge, _, hnew, howner⟩

theorem IsLedger.commit (h : system.IsLedger index) :
    (system.commit addr ids outcome).IsLedger index := by
  obtain ⟨envelope, henvelope, howner⟩ := h
  exact ⟨envelope, mem_sent_commit_of_mem henvelope, howner⟩

theorem take_sent_commit {count : ℕ} (h : count ≤ system.sent.length) :
    (system.commit addr ids outcome).sent.take count = system.sent.take count :=
  List.take_append_of_le_length h

/-- A machine keeps following as long as its copy names the same owner and it learns of no
further ledger. -/
theorem Follows.keep (h : Follows initial system other) (hwell : WellFormed ring system)
    (howner : ((system.commit addr ids outcome).machines other).owner? =
      (system.machines other).owner?)
    (hlearn : ∀ index, (system.commit addr ids outcome).IsLedger index →
      (system.commit addr ids outcome).Knows other index → system.Knows other index) :
    Follows initial (system.commit addr ids outcome) other := by
  obtain ⟨count, hcopy⟩ := h
  have hcount := hcopy.count_le
  refine ⟨count, ?_, ?_, ?_, ?_⟩
  · rw [System.commit, List.length_append]
    omega
  · rw [howner, hcopy.owner_eq, take_sent_commit hcount]
  · apply hcopy.basis.imp_right
    rintro ⟨basis, heq, hledger, hknows⟩
    exact ⟨basis, heq, hledger.commit, hknows.commit⟩
  · intro index hge hledger hknows
    have hbefore := hlearn index hledger hknows
    rcases isLedger_of_commit hledger with hold | ⟨hnew, _⟩
    · exact hcopy.later index hge hold hbefore
    · have := Knows.lt hwell hbefore
      omega

/-- The other machines do not notice a step. -/
theorem Follows.of_ne (h : Follows initial system other) (hwell : WellFormed ring system)
    (hne : other ≠ addr) : Follows initial (system.commit addr ids outcome) other := by
  refine h.keep hwell (by rw [machines_commit_of_ne hne]) fun index _ hknows ↦ ?_
  rcases knows_of_commit hknows with hold | ⟨hself, _⟩
  · exact hold
  · exact absurd hself hne

/-- A machine whose last broadcast is the copy it holds follows the whole network. -/
theorem Follows.of_broadcast {state : LedgerState} (earlier : List Message) {last : Message}
    (hsent : outcome.sent = earlier ++ [last]) (hlast : last.payload = .ledger state.ledger)
    (hjobs : outcome.machine.jobs = some state) :
    Follows initial (system.commit addr ids outcome) addr := by
  refine ⟨_, le_rfl, ?_, ?_, ?_⟩
  · rw [List.take_length, sent_commit_concat hsent, lastOwner_append, machines_commit_self,
      Machine.owner?, hjobs]
    simp [lastOwner, hlast, Payload.owner?]
  · have hat : (⟨addr, last⟩ : Envelope) ∈ (system.commit addr ids outcome).sent[
        (system.sent ++ earlier.map (Envelope.mk addr)).length]? := mem_sent_commit_last hsent
    exact .inr ⟨_, length_sent_commit hsent, ⟨_, hat, by simp [hlast, Payload.owner?]⟩,
      .inl ⟨_, hat, rfl⟩⟩
  · intro index hge hledger _
    obtain ⟨ledger, hat⟩ := isLedger_iff.mp hledger
    exact absurd hat.lt (Nat.not_lt.mpr hge)

/-- A machine that adopts a ledger and knows of no later one follows the broadcasts up to it. -/
theorem Follows.of_adopted {envelope : Envelope} (henvelope : envelope ∈ system.sent[index]?)
    (hsent : outcome.sent = []) (hdelivered : outcome.delivered = some index)
    (hledger : envelope.message.payload.owner? ≠ none)
    (howner : outcome.machine.owner? = envelope.message.payload.owner?)
    (hlater : ∀ later, index < later → system.IsLedger later → ¬ system.Knows addr later) :
    Follows initial (system.commit addr ids outcome) addr := by
  have hlist : (system.commit addr ids outcome).sent = system.sent := by
    simp [System.commit, hsent]
  obtain ⟨hlt, rfl⟩ := List.getElem?_eq_some_iff.mp henvelope
  refine ⟨index + 1, by rw [hlist]; exact hlt, ?_, ?_, ?_⟩
  · obtain ⟨owner, hsome⟩ := Option.ne_none_iff_exists'.mp hledger
    rw [machines_commit_self, howner, hlist, lastOwner_take_succ initial henvelope hsome, hsome]
  · exact .inr ⟨index, rfl, IsLedger.commit ⟨_, henvelope, hledger⟩,
      .inr (mem_delivered_commit.mpr (.inr ⟨rfl, hdelivered⟩))⟩
  · intro later hge hledgerLater hknows
    have hold : system.IsLedger later := by
      rcases isLedger_of_commit hledgerLater with hold | ⟨_, message, hmem, _⟩
      · exact hold
      · rw [hsent] at hmem
        cases hmem
    rcases knows_of_commit hknows with hbefore | ⟨_, hnew | hnew⟩
    · exact hlater later (by omega) hold hbefore
    · rw [hdelivered] at hnew
      have := Option.some.inj hnew
      omega
    · obtain ⟨ledger, hat⟩ := isLedger_iff.mp hold
      exact absurd hat.lt (Nat.not_lt.mpr hnew)

/-- A machine keeps following through an action that moves no ledger and leaves its owner alone. -/
theorem Follows.of_silent (h : Follows initial system addr) (hwell : WellFormed ring system)
    (hsent : ∀ message ∈ outcome.sent, message.payload.owner? = none)
    (hdelivered : ∀ index, outcome.delivered = some index → system.IsLedger index →
      system.Knows addr index)
    (howner : outcome.machine.owner? = (system.machines addr).owner?) :
    Follows initial (system.commit addr ids outcome) addr := by
  refine h.keep hwell (by rw [machines_commit_self, howner]) fun index hledger hknows ↦ ?_
  rcases isLedger_of_commit hledger with hold | ⟨_, message, hmem, hne⟩
  · rcases knows_of_commit hknows with hbefore | ⟨_, hnew | hge⟩
    · exact hbefore
    · exact hdelivered index hnew hold
    · obtain ⟨ledger, hat⟩ := isLedger_iff.mp hold
      exact absurd hat.lt (Nat.not_lt.mpr hge)
  · exact absurd (hsent message hmem) hne

/-- Ledgers are taken in in the order in which they were broadcast, and only an owner takes over:
a machine that has sent or received a later ledger processes no earlier one. -/
def InOrder (system : System) (event : Event) : Prop :=
  let machine := system.machines event.addr
  match event.action with
  | .deliver index => ∀ envelope ∈ system.sent[index]?,
      envelope.message.idempotency ∉ machine.history → envelope.message.payload.owner? ≠ none →
        ∀ later < system.sent.length, index < later → system.IsLedger later →
          ¬ system.Knows event.addr later
  | .tick _ _ _ => ∀ state ∈ machine.jobs,
      takesOver event.addr machine.addresses machine.clock state = true →
        state.ledger.owner = event.addr
  | _ => True

instance (system : System) : (event : Event) → Decidable (InOrder system event)
  | ⟨addr, .deliver index⟩ => inferInstanceAs (Decidable (∀ envelope ∈ system.sent[index]?,
      envelope.message.idempotency ∉ (system.machines addr).history →
        envelope.message.payload.owner? ≠ none →
          ∀ later < system.sent.length, index < later → system.IsLedger later →
            ¬ system.Knows addr later))
  | ⟨addr, .tick _ _ _⟩ => inferInstanceAs (Decidable (∀ state ∈ (system.machines addr).jobs,
      takesOver addr (system.machines addr).addresses (system.machines addr).clock state = true →
        state.ledger.owner = addr))
  | ⟨_, .upload _ _⟩ | ⟨_, .heartbeat _⟩ | ⟨_, .log _ _⟩ | ⟨_, .lifetimeCheck⟩ | ⟨_, .elapse _⟩ =>
      inferInstanceAs (Decidable True)

/-- In order, the acting machine keeps following the broadcasts. -/
theorem Follows.of_acts (h : Follows initial system addr) (hwell : WellFormed ring system)
    (haddr : addr ∈ ring) (hguard : InOrder system ⟨addr, action⟩)
    (hacts : Acts system addr action outcome) :
    Follows initial (system.commit addr ids outcome) addr := by
  cases hacts with
  | filed hjobs howner _ =>
      exact h.of_silent hwell (by simp) (by simp) (by simp [Machine.owner?, hjobs])
  | alerted _ => exact h.of_silent hwell (by simp [Payload.owner?]) (by simp) rfl
  | unfiled _ => exact h.of_silent hwell (by simp) (by simp) rfl
  | greeted => exact h.of_silent hwell (by simp [Payload.owner?]) (by simp) rfl
  | logged => exact h.of_silent hwell (by simp [Payload.owner?]) (by simp) rfl
  | purged => exact h.of_silent hwell (by simp) (by simp) rfl
  | elapsed => exact h.of_silent hwell (by simp) (by simp) rfl
  | @delivered index envelope hsent hsrc =>
      by_cases hnew : envelope.message.idempotency ∈ (system.machines addr).history
      · -- a recent duplicate: this ledger has already been taken in
        have hknown := hwell.history_delivered addr haddr index envelope hsent hnew
        refine h.of_silent hwell (by simp) ?_ (by rw [receiveMessage_of_mem hnew])
        intro position hposition _
        obtain rfl := Option.some.inj hposition
        exact .inr hknown
      · have howner := owner?_receiveMessage envelope.src hnew
        cases hpayload : envelope.message.payload.owner? with
        | some owner =>
            refine Follows.of_adopted hsent rfl rfl (by simp [hpayload])
              (by rw [howner, hpayload, Option.some_or]) fun later hlt hledger ↦ ?_
            obtain ⟨ledger, hat⟩ := isLedger_iff.mp hledger
            exact hguard envelope hsent hnew (by simp [hpayload]) later hat.lt hlt hledger
        | none =>
            refine h.of_silent hwell (by simp) ?_ (by rw [howner, hpayload, Option.none_or])
            rintro position hposition ⟨other, hother, hne⟩
            obtain rfl := Option.some.inj hposition
            obtain rfl : envelope = other := Option.some.inj (hsent.symm.trans hother)
            exact absurd hpayload hne
  | @ticked env logKey ledgerKey machine output houtcome =>
      rcases houtcome.broadcast with ⟨rfl, before, hjobs, hafter⟩ | ⟨state, hjobs, hsent, _⟩
      · refine h.of_silent hwell (by simp [TickOutput.quiet]) (by simp) ?_
        simp only [Machine.owner?, hafter, hjobs, Option.map_some]
        cases htakes : takesOver addr (system.machines addr).addresses
            (system.machines addr).clock before with
        | false => rw [staleTakeover_of_not htakes]
        | true =>
            have howner := hguard before hjobs htakes
            simp [staleTakeover, htakes, howner]
      · rcases hsent with hsent | ⟨text, hsent⟩
        · exact Follows.of_broadcast [] (by simp [hsent]; rfl) rfl hjobs
        · exact Follows.of_broadcast [⟨logKey, .log text⟩] (by simp [hsent, stamp]; rfl) rfl hjobs

/-- Every machine of the ring follows the broadcasts. -/
structure InStep (ring : Finset Ipv4Addr) (initial : Option Ipv4Addr) (system : System) : Prop where
  wellFormed : WellFormed ring system
  follows : ∀ addr ∈ ring, Follows initial system addr

theorem InStep.step (h : InStep ring initial system) {event : Event}
    (hguard : InOrder system event) (hstep : system.step ring event = some after) :
    InStep ring initial after := by
  have hwell := h.wellFormed.step hstep
  obtain ⟨haddr, _, _, outcome, hacts, rfl⟩ := exists_of_step hstep
  refine ⟨hwell, fun machine hmachine ↦ ?_⟩
  by_cases hself : machine = event.addr
  · subst hself
    exact (h.follows _ haddr).of_acts h.wellFormed haddr hguard hacts
  · exact (h.follows machine hmachine).of_ne h.wellFormed hself

/-! ## Exactly one owner -/

/-- Some machine of the ring holds a ledger. -/
def LedgerCreated (ring : Finset Ipv4Addr) (system : System) : Prop :=
  ∃ addr ∈ ring, (system.machines addr).owner? ≠ none

/-- Every ledger broadcast has reached every other machine of the ring. -/
def NoLedgerInFlight (ring : Finset Ipv4Addr) (system : System) : Prop :=
  ∀ addr ∈ ring, ∀ index < system.sent.length, system.IsLedger index →
    ¬ system.Undelivered addr index

/-- Once a ledger exists and none is in flight, exactly one machine names itself as owner. -/
def OneToken (ring : Finset Ipv4Addr) (system : System) : Prop :=
  LedgerCreated ring system → NoLedgerInFlight ring system →
    ∃! addr, addr ∈ ring ∧ (system.machines addr).Owns addr

instance (ring : Finset Ipv4Addr) (system : System) : Decidable (LedgerCreated ring system) :=
  inferInstanceAs (Decidable (∃ addr ∈ ring, _))

instance (ring : Finset Ipv4Addr) (system : System) : Decidable (NoLedgerInFlight ring system) :=
  inferInstanceAs (Decidable (∀ addr ∈ ring, _))

/-- With no ledger in flight everybody agrees on the last broadcast. -/
theorem InStep.agree (h : InStep ring initial system) (hquiet : NoLedgerInFlight ring system)
    (haddr : addr ∈ ring) :
    (system.machines addr).owner? = lastOwner initial system.sent := by
  obtain ⟨count, hcopy⟩ := h.follows addr haddr
  have hsilent : ∀ index, count ≤ index → index < system.sent.length →
      ¬ system.IsLedger index := by
    intro index hge hlt hledger
    have hreached := hquiet addr haddr index hlt hledger
    rw [undelivered_iff, not_and, not_not] at hreached
    exact hcopy.later index hge hledger (hreached hlt)
  rw [hcopy.owner_eq, ← lastOwner_take_eq initial hcopy.count_le hsilent, List.take_length]

/-- The owner after the broadcasts was there before them or is announced by one of them. -/
theorem lastOwner_cases {sent : List Envelope} {owner : Ipv4Addr}
    (h : lastOwner initial sent = some owner) :
    initial = some owner ∨ ∃ envelope ∈ sent, envelope.message.payload.owner? = some owner := by
  induction sent generalizing initial with
  | nil => exact .inl h
  | cons envelope sent ih =>
      rcases ih h with hfirst | ⟨other, hother, howner⟩
      · rcases Option.or_eq_some_iff.mp hfirst with hhead | ⟨_, hold⟩
        · exact .inr ⟨envelope, List.mem_cons_self, hhead⟩
        · exact .inl hold
      · exact .inr ⟨other, List.mem_cons_of_mem _ hother, howner⟩

theorem WellFormed.lastOwner_mem (h : WellFormed ring system) {owner : Ipv4Addr}
    (hlast : lastOwner none system.sent = some owner) : owner ∈ ring := by
  rcases lastOwner_cases hlast with hnone | ⟨envelope, henvelope, howner⟩
  · cases hnone
  · obtain ⟨index, hindex⟩ := List.getElem?_of_mem henvelope
    obtain ⟨ledger, hat⟩ := isLedger_iff.mp ⟨envelope, hindex, by simp [howner]⟩
    obtain ⟨other, hother, hpayload⟩ := id hat
    obtain rfl : envelope = other := Option.some.inj (hindex.symm.trans hother)
    rw [hpayload] at howner
    exact Option.some.inj howner ▸ h.owner_mem index ledger hat

/-- In every run in which ledgers are taken in in order and nobody but the owner takes over, there
is exactly one token whenever a ledger exists and none is in flight. -/
theorem one_token_of_in_order {ring : Finset Ipv4Addr} {system : System}
    (h : Reaches (System.step ring) InOrder System.boot system) : OneToken ring system := by
  have hinv : InStep ring none system := by
    refine h.invariant (InStep ring none) ⟨.boot ring, fun addr _ ↦ ⟨0, Nat.zero_le _, rfl, .inl rfl, ?_⟩⟩
      fun _ _ _ hbefore hguard hstep ↦ hbefore.step hguard hstep
    simp [IsLedger, boot]
  rintro ⟨holder, hholder, hcreated⟩ hquiet
  obtain ⟨owner, howner⟩ := Option.ne_none_iff_exists'.mp hcreated
  have hlast : lastOwner none system.sent = some owner :=
    (hinv.agree hquiet hholder).symm.trans howner
  refine ⟨owner, ⟨hinv.wellFormed.lastOwner_mem hlast, ?_⟩, ?_⟩
  · rw [Machine.owns_iff_owner?, hinv.agree hquiet (hinv.wellFormed.lastOwner_mem hlast), hlast]
  · rintro other ⟨hother, howns⟩
    rw [Machine.owns_iff_owner?, hinv.agree hquiet hother, hlast] at howns
    exact (Option.some.inj howns).symm

/-- `alpha` creates the ledger, waits until `beta` has it and hands it on. -/
def handOver : List Event :=
  [⟨beta, .heartbeat ⟨1⟩⟩, ⟨alpha, .deliver 0⟩, ⟨alpha, .tick (printer alpha false) ⟨2⟩ ⟨3⟩⟩,
    ⟨beta, .deliver 1⟩, ⟨alpha, .tick (printer alpha false) ⟨4⟩ ⟨5⟩⟩,
    ⟨alpha, .tick (printer alpha false) ⟨6⟩ ⟨7⟩⟩, ⟨beta, .deliver 2⟩]

theorem one_token_after_hand_over :
    ∃ system, Reaches (System.step {alpha, beta}) InOrder System.boot system ∧
      LedgerCreated {alpha, beta} system ∧ NoLedgerInFlight {alpha, beta} system ∧
      ∃! addr, addr ∈ ({alpha, beta} : Finset Ipv4Addr) ∧ (system.machines addr).Owns addr := by
  obtain ⟨system, hreach, hcreated, hquiet⟩ := exists_reaches_of_runIf
    (System.step {alpha, beta}) InOrder System.boot handOver
    (fun system ↦ LedgerCreated {alpha, beta} system ∧ NoLedgerInFlight {alpha, beta} system)
    (by decide +kernel)
  exact ⟨system, hreach, hcreated, hquiet, one_token_of_in_order hreach hcreated hquiet⟩

/-- Two machines create a ledger before either broadcast arrives. -/
def crossedCreation : List Event :=
  [⟨alpha, .tick (printer alpha false) ⟨1⟩ ⟨2⟩⟩, ⟨beta, .tick (printer beta false) ⟨3⟩ ⟨4⟩⟩,
    ⟨beta, .deliver 0⟩, ⟨alpha, .deliver 1⟩]

/-- After crossed creations every ledger has arrived and no machine names itself as owner. -/
theorem no_token_after_crossed_creation :
    ∃ system, Reaches (System.step {alpha, beta}) Unrestricted System.boot system ∧
      ¬ OneToken {alpha, beta} system := by
  obtain ⟨system, hreach, hcreated, hquiet, hnone⟩ := exists_reaches_of_runIf
    (System.step {alpha, beta}) Unrestricted System.boot crossedCreation
    (fun system ↦ LedgerCreated {alpha, beta} system ∧ NoLedgerInFlight {alpha, beta} system ∧
      ∀ addr ∈ ({alpha, beta} : Finset Ipv4Addr), ¬ (system.machines addr).Owns addr)
    (by decide +kernel)
  refine ⟨system, hreach, fun hone ↦ ?_⟩
  obtain ⟨owner, ⟨howner, howns⟩, _⟩ := hone hcreated hquiet
  exact hnone owner howner howns

end System

end Derusting
