import Derusting.Ring.Network

/-!
# Holding the ledger

Runs of one machine with a fixed address: rounds of `manage_ledger` with messages, uploads, purges
of the address book and time in between, in any order.  A round prints, takes a job off the ledger
or broadcasts it only while it holds the ledger, that is, when the copy names the machine as owner
after a possible takeover; a round that hands the ledger over ends this until a message or a
takeover makes the machine owner again.

`manage_ledger` waits one round after it has become owner.  The flag for that is its own, and is
reset when the machine hands the ledger over but not when a message takes the ownership away.
-/

namespace Derusting

open Foundations.Bounded Foundations.Transition

/-! ## The print stage -/

/-- The job that the print stage passes to `marlin::print`. -/
def printable (env : TickEnv) (observed : Bool) (state : LedgerState) : Option Uuid :=
  if state.isOwner env.myAddr && observed && env.isReady && env.isIdle then
    state.ledger.jobs.toList.find? env.canOpen
  else none

/-- The job that a round passes to `marlin::print`. -/
def attempted (env : TickEnv) (machine : Machine) : Option Uuid :=
  match env.myAddr, machine.jobs with
  | some myAddr, some state => printable env machine.observedOwnership
      (staleTakeover myAddr machine.addresses machine.clock state)
  | _, _ => none

/-- The machine names itself as owner, possibly because this round takes a stale ledger over. -/
def Holds (addr : Ipv4Addr) (machine : Machine) : Prop :=
  ∃ state, machine.jobs = some state ∧
    (staleTakeover addr machine.addresses machine.clock state).ledger.owner = addr

/-- The round reaches the hand-over: the machine holds the ledger, has observed that and knows
another machine. -/
def HandsOver (addr : Ipv4Addr) (machine : Machine) : Prop :=
  Holds addr machine ∧ machine.observedOwnership = true ∧ machine.addresses.keys ≠ []

instance (addr : Ipv4Addr) (machine : Machine) : Decidable (Holds addr machine) :=
  machine.decidableCopy _

instance (addr : Ipv4Addr) (machine : Machine) : Decidable (HandsOver addr machine) :=
  inferInstanceAs (Decidable (_ ∧ _))

variable {env : TickEnv} {addr : Ipv4Addr} {machine after : Machine} {output : TickOutput}

/-- The print stage takes a job off the ledger exactly if Marlin accepts the one it is given. -/
theorem manufacture_eq (env : TickEnv) (observed : Bool) (state : LedgerState) :
    manufacture env observed state =
      match printable env observed state with
      | none => (state, .quiet)
      | some guid =>
          match env.print guid with
          | .ok _ =>
              ({ state with ledger := { state.ledger with jobs := state.ledger.jobs.remove guid } },
                ⟨some guid, [.log ("Job Accepted: ".toList ++ env.display guid)]⟩)
          | .error _ => (state, .quiet) := by
  unfold manufacture printable
  split <;> rfl

/-- The jobs of a copy after its print stage, and the job that was accepted, are those of the
round. -/
theorem manageLedger_made {before : LedgerState} (haddr : env.myAddr = some addr)
    (hjobs : machine.jobs = some before) :
    let made := manufacture env machine.observedOwnership
      (staleTakeover addr machine.addresses machine.clock before)
    (manageLedger env machine).2.accepted = made.2.accepted ∧
      ∃ state, (manageLedger env machine).1.jobs = some state ∧
        state.ledger.jobs = made.1.ledger.jobs := by
  obtain ⟨state, htaken⟩ : ∃ state, state = staleTakeover addr machine.addresses machine.clock
    before := ⟨_, rfl⟩
  simp only [manageLedger, haddr, hjobs, ← htaken]
  split
  next hwait =>
    -- a machine that has not observed its ownership skips the print stage
    rw [Bool.and_eq_true, Bool.not_eq_true'] at hwait
    simp [manufacture, hwait.2, TickOutput.quiet]
  next =>
    split
    · split <;> exact ⟨rfl, _, rfl, rfl⟩
    · exact ⟨rfl, _, rfl, rfl⟩

theorem attempted_eq {before : LedgerState} (haddr : env.myAddr = some addr)
    (hjobs : machine.jobs = some before) :
    attempted env machine = printable env machine.observedOwnership
      (staleTakeover addr machine.addresses machine.clock before) := by
  rw [attempted, haddr, hjobs]

/-- A round only prints for a holder that has observed its ownership. -/
theorem holds_of_attempted {guid : Uuid} (haddr : env.myAddr = some addr)
    (h : attempted env machine = some guid) :
    Holds addr machine ∧ machine.observedOwnership = true := by
  cases hjobs : machine.jobs with
  | none => simp [attempted, haddr, hjobs] at h
  | some before =>
      rw [attempted_eq haddr hjobs, printable, Option.ite_none_right_eq_some] at h
      simp only [Bool.and_eq_true, haddr, LedgerState.isOwner_some] at h
      exact ⟨⟨before, hjobs, h.1.1.1.1⟩, h.1.1.1.2⟩

/-- A job that a round takes off the ledger was accepted by `marlin::print`. -/
theorem attempted_of_removed {guid : Uuid} (haddr : env.myAddr = some addr)
    (hlisted : machine.Lists guid) (hgone : ¬ (manageLedger env machine).1.Lists guid) :
    attempted env machine = some guid ∧ env.print guid = .ok () := by
  obtain ⟨before, hjobs, hmem⟩ := hlisted
  obtain ⟨-, state, hafter, hmade⟩ := manageLedger_made haddr hjobs
  rw [Machine.lists_iff hafter, hmade, manufacture_eq, ← attempted_eq haddr hjobs] at hgone
  rw [← jobs_staleTakeover addr machine.addresses machine.clock] at hmem
  cases hattempted : attempted env machine with
  | none => exact absurd hmem (by simpa [hattempted] using hgone)
  | some found =>
      cases hprint : env.print found with
      | error err => exact absurd hmem (by simpa [hattempted, hprint] using hgone)
      | ok _ =>
          have hsame : guid = found := by
            by_contra hne
            simp [hattempted, hprint, hne, hmem] at hgone
          subst hsame
          exact ⟨rfl, hprint⟩

/-- A failed print leaves the jobs of the copy as they were. -/
theorem jobs_of_failed {guid : Uuid} {err : MarlinError} (haddr : env.myAddr = some addr)
    (hattempted : attempted env machine = some guid) (hprint : env.print guid = .error err) :
    (manageLedger env machine).1.jobs.map (fun state ↦ state.ledger.jobs) =
      machine.jobs.map fun state ↦ state.ledger.jobs := by
  cases hjobs : machine.jobs with
  | none => simp [attempted, haddr, hjobs] at hattempted
  | some before =>
      obtain ⟨-, state, hafter, hmade⟩ := manageLedger_made haddr hjobs
      rw [manufacture_eq, ← attempted_eq haddr hjobs, hattempted] at hmade
      simp only [hprint, jobs_staleTakeover] at hmade
      rw [hafter, Option.map_some, Option.map_some, hmade]

/-- A round broadcasts a ledger only when it holds or has just created it. -/
theorem TickOutcome.holds_of_sent (h : TickOutcome env addr machine after output) {ledger : Ledger}
    (hsent : .ledger ledger ∈ output.sent) : Holds addr machine ∨ machine.jobs = none := by
  cases h with
  | created hnone => exact .inr hnone
  | waited _ _ _ => cases hsent
  | kept hjobs htaken howner _ _ _ => exact .inl ⟨_, hjobs, htaken ▸ howner⟩
  | passed hjobs htaken howner _ _ _ _ => exact .inl ⟨_, hjobs, htaken ▸ howner⟩

/-- A round that hands the ledger over names a machine of its book. -/
theorem TickOutcome.owner?_of_handsOver (h : TickOutcome env addr machine after output)
    (hover : HandsOver addr machine) :
    ∃ next ∈ machine.addresses.keys, after.owner? = some next := by
  obtain ⟨⟨state, hjobs, howner⟩, hobserved, hbook⟩ := hover
  cases h with
  | created hnone => cases hjobs.symm.trans hnone
  | waited hbefore htaken hidle =>
      obtain rfl := Option.some.inj (hjobs.symm.trans hbefore)
      exact absurd ⟨htaken ▸ howner, hobserved⟩ hidle
  | kept _ _ _ _ _ halone => exact absurd halone hbook
  | passed _ _ _ _ _ _ hmem => exact ⟨_, hmem, rfl⟩

theorem manageLedger_of_unknown (h : env.myAddr = none) :
    manageLedger env machine = (machine, .quiet) := by
  rw [manageLedger, h]

/-- A round accepts the job that it passes to Marlin, if Marlin does. -/
theorem accepted_manageLedger (env : TickEnv) (machine : Machine) :
    (manageLedger env machine).2.accepted =
      (attempted env machine).filter fun guid ↦ (env.print guid).isOk := by
  cases haddr : env.myAddr with
  | none =>
      rw [manageLedger_of_unknown haddr, attempted, haddr]
      rfl
  | some myAddr =>
      cases hjobs : machine.jobs with
      | none => simp [manageLedger, attempted, haddr, hjobs, TickOutput.quiet, TickOutput.send]
      | some before =>
          rw [(manageLedger_made haddr hjobs).1, manufacture_eq, ← attempted_eq haddr hjobs]
          cases attempted env machine with
          | none => rfl
          | some guid =>
              rw [Option.filter_some]
              cases hprint : env.print guid <;> simp only [hprint] <;> rfl

/-- A job that a round accepts was passed to Marlin, which has taken it. -/
theorem attempted_of_accepted {guid : Uuid}
    (h : (manageLedger env machine).2.accepted = some guid) :
    attempted env machine = some guid ∧ env.print guid = .ok () := by
  rw [accepted_manageLedger, Option.filter_eq_some_iff] at h
  refine ⟨h.1, ?_⟩
  cases hprint : env.print guid with
  | ok _ => rfl
  | error err =>
      rw [hprint] at h
      exact absurd h.2 Bool.false_ne_true

theorem accepted_of_attempted_none (h : attempted env machine = none) :
    (manageLedger env machine).2.accepted = none := by
  rw [accepted_manageLedger, h, Option.filter_none]

/-! ## Runs of one machine -/

/-- The machine reads its own address, or none while its interface is down. -/
def KnownAs (addr : Ipv4Addr) (myAddr : Option Ipv4Addr) : Prop :=
  myAddr = none ∨ myAddr = some addr

instance (addr : Ipv4Addr) (myAddr : Option Ipv4Addr) : Decidable (KnownAs addr myAddr) :=
  inferInstanceAs (Decidable (_ ∨ _))

/-- What happens to a machine. -/
inductive LocalEvent where
  | receive (sender : Ipv4Addr) (message : Message)
  | upload (guid : Uuid) (myAddr : Option Ipv4Addr)
  | lifetimeCheck
  | elapse (ticks : ℕ)
  | tick (env : TickEnv)

namespace Machine

/-- One step of the machine at `addr`, which receives none of its own broadcasts. -/
def step (addr : Ipv4Addr) (machine : Machine) : LocalEvent → Option Machine
  | .receive sender message =>
      if sender = addr then none else some (receiveMessage sender message machine)
  | .upload guid myAddr =>
      if KnownAs addr myAddr then some (appendToLedger myAddr guid machine).1 else none
  | .lifetimeCheck => some (addressBookLifetimeCheck machine)
  | .elapse ticks => some { machine with clock := machine.clock + ticks }
  | .tick env => if KnownAs addr env.myAddr then some (manageLedger env machine).1 else none

/-- What a step can do to the owner the machine names and to its observation flag. -/
inductive Steps (addr : Ipv4Addr) (machine : Machine) : LocalEvent → Machine → Prop
  | kept {event : LocalEvent} {after : Machine} (howner : after.owner? = machine.owner?)
      (hflag : after.observedOwnership = machine.observedOwnership) : Steps addr machine event after
  | adopted {sender owner : Ipv4Addr} {message : Message} {after : Machine}
      (hnew : message.idempotency ∉ machine.history) (hnamed : message.payload.owner? = some owner)
      (howner : after.owner? = some owner)
      (hflag : after.observedOwnership = machine.observedOwnership) :
      Steps addr machine (.receive sender message) after
  | ticked {env : TickEnv} {after : Machine} {output : TickOutput} (haddr : env.myAddr = some addr)
      (hround : TickOutcome env addr machine after output) : Steps addr machine (.tick env) after

theorem steps_of_step {event : LocalEvent} (h : machine.step addr event = some after) :
    Steps addr machine event after := by
  cases event with
  | receive sender message =>
      rw [step, Option.ite_none_left_eq_some] at h
      rw [← Option.some.inj h.2]
      have hflag := observedOwnership_receiveMessage sender message machine
      by_cases hold : message.idempotency ∈ machine.history
      · rw [receiveMessage_of_mem hold]
        exact .kept rfl rfl
      · have howner := owner?_receiveMessage sender hold
        cases hnamed : message.payload.owner? with
        | none => exact .kept (by rw [howner, hnamed, Option.none_or]) hflag
        | some owner => exact .adopted hold hnamed (by rw [howner, hnamed, Option.some_or]) hflag
  | upload guid myAddr =>
      rw [step, Option.ite_none_right_eq_some] at h
      rw [← Option.some.inj h.2]
      obtain ⟨howner, -, hflag⟩ := appendToLedger_frame myAddr guid machine
      exact .kept howner hflag
  | lifetimeCheck =>
      rw [← Option.some.inj h]
      exact .kept rfl rfl
  | elapse ticks =>
      rw [← Option.some.inj h]
      exact .kept rfl rfl
  | tick env =>
      rw [step, Option.ite_none_right_eq_some] at h
      rw [← Option.some.inj h.2]
      rcases h.1 with hnone | haddr
      · rw [manageLedger_of_unknown hnone]
        exact .kept rfl rfl
      · exact .ticked haddr (manageLedger_outcome haddr machine)

/-- The machine is not in its own address book. -/
def Absent (addr : Ipv4Addr) (machine : Machine) : Prop := addr ∉ machine.addresses.keys

theorem Absent.step (h : machine.Absent addr) {event : LocalEvent}
    (hstep : machine.step addr event = some after) : after.Absent addr := by
  cases event with
  | receive sender message =>
      rw [Machine.step, Option.ite_none_left_eq_some] at hstep
      rw [← Option.some.inj hstep.2]
      intro hmem
      rcases mem_keys_receiveMessage hmem with hself | hold
      · exact hstep.1 hself.symm
      · exact h hold
  | upload guid myAddr =>
      rw [Machine.step, Option.ite_none_right_eq_some] at hstep
      rw [← Option.some.inj hstep.2, Absent, (appendToLedger_frame myAddr guid machine).2.1]
      exact h
  | lifetimeCheck =>
      rw [← Option.some.inj hstep]
      exact fun hmem ↦ h (LinearMap.mem_keys_of_mem_keys_retain hmem)
  | elapse ticks =>
      rw [← Option.some.inj hstep]
      exact h
  | tick env =>
      rw [Machine.step, Option.ite_none_right_eq_some] at hstep
      rw [← Option.some.inj hstep.2]
      rcases hstep.1 with hnone | haddr
      · rwa [manageLedger_of_unknown hnone]
      · rwa [Absent, (manageLedger_outcome haddr machine).frame.1]

theorem Absent.of_reaches (h : Reaches (Machine.step addr) Unrestricted boot machine) :
    machine.Absent addr :=
  h.invariant (Absent addr) (by simp [Absent, boot]) fun _ _ _ hbefore _ hstep ↦ hbefore.step hstep

/-! ## Only the holder acts -/

/-- The event makes the machine owner neither by a message nor by a takeover. -/
def Unappointed (addr : Ipv4Addr) (machine : Machine) : LocalEvent → Prop
  | .receive _ message =>
      message.idempotency ∉ machine.history → message.payload.owner? ≠ some addr
  | .tick env => env.myAddr = some addr → ∀ state ∈ machine.jobs,
      takesOver addr machine.addresses machine.clock state = false
  | .upload _ _ | .lifetimeCheck | .elapse _ => True

instance (addr : Ipv4Addr) (machine : Machine) : DecidablePred (machine.Unappointed addr)
  | .receive _ message =>
      inferInstanceAs (Decidable (message.idempotency ∉ machine.history → _ ≠ some addr))
  | .tick env => inferInstanceAs (Decidable (env.myAddr = some addr → ∀ state ∈ machine.jobs, _))
  | .upload _ _ | .lifetimeCheck | .elapse _ => inferInstanceAs (Decidable True)

/-- The machine names somebody else as owner. -/
def Ceded (addr : Ipv4Addr) (machine : Machine) : Prop :=
  ∃ owner, machine.owner? = some owner ∧ owner ≠ addr

/-- Without a takeover a machine that names somebody else does not hold the ledger. -/
theorem Ceded.not_holds (h : machine.Ceded addr)
    (hkeeps : ∀ state ∈ machine.jobs,
      takesOver addr machine.addresses machine.clock state = false) : ¬ Holds addr machine := by
  rintro ⟨state, hjobs, howner⟩
  obtain ⟨owner, hnamed, hne⟩ := h
  rw [staleTakeover_of_not (hkeeps state hjobs)] at howner
  rw [owner?, hjobs, Option.map_some, Option.some.injEq] at hnamed
  exact hne (hnamed.symm.trans howner)

theorem Ceded.step (h : machine.Ceded addr) {event : LocalEvent}
    (hguard : machine.Unappointed addr event) (hstep : machine.step addr event = some after) :
    after.Ceded addr := by
  cases steps_of_step hstep with
  | kept howner _ =>
      obtain ⟨owner, hnamed, hne⟩ := h
      exact ⟨owner, howner.trans hnamed, hne⟩
  | @adopted _ owner _ _ hnew hnamed howner _ =>
      refine ⟨owner, howner, ?_⟩
      rintro rfl
      exact hguard hnew hnamed
  | ticked haddr hround =>
      have hnot := h.not_holds (hguard haddr)
      obtain ⟨owner, hnamed, hne⟩ := h
      cases hround with
      | created hnone =>
          rw [owner?, hnone] at hnamed
          cases hnamed
      | waited hjobs htaken _ =>
          refine ⟨owner, ?_, hne⟩
          rw [htaken, staleTakeover_of_not (hguard haddr _ hjobs), ← hnamed, owner?, owner?, hjobs]
      | kept hjobs htaken howner _ _ _ => exact absurd ⟨_, hjobs, htaken ▸ howner⟩ hnot
      | passed hjobs htaken howner _ _ _ _ => exact absurd ⟨_, hjobs, htaken ▸ howner⟩ hnot

/-- A round prints, has jobs accepted, takes jobs off the ledger and broadcasts it only while the
machine holds it, or has just created it; it takes off at most the job Marlin has accepted, and a
failed print leaves the jobs as they were. -/
structure OnlyAsHolder (addr : Ipv4Addr) (env : TickEnv) (machine : Machine) : Prop where
  prints : ∀ guid, attempted env machine = some guid → Holds addr machine
  accepts : ∀ guid, (manageLedger env machine).2.accepted = some guid →
    Holds addr machine ∧ attempted env machine = some guid ∧ env.print guid = .ok ()
  removes : ∀ guid, machine.Lists guid → ¬ (manageLedger env machine).1.Lists guid →
    Holds addr machine ∧ attempted env machine = some guid ∧ env.print guid = .ok ()
  broadcasts : ∀ ledger, .ledger ledger ∈ (manageLedger env machine).2.sent →
    Holds addr machine ∨ machine.jobs = none
  fails : ∀ guid err, attempted env machine = some guid → env.print guid = .error err →
    (manageLedger env machine).1.jobs.map (fun state ↦ state.ledger.jobs) =
      machine.jobs.map fun state ↦ state.ledger.jobs

/-- The round neither prints nor broadcasts a ledger. -/
def QuietRound (env : TickEnv) (machine : Machine) : Prop :=
  attempted env machine = none ∧ (manageLedger env machine).2.accepted = none ∧
    ∀ ledger, .ledger ledger ∉ (manageLedger env machine).2.sent

theorem quietRound_of_unknown (h : env.myAddr = none) : QuietRound env machine := by
  rw [QuietRound, manageLedger_of_unknown h, attempted, h]
  exact ⟨rfl, rfl, fun _ ↦ List.not_mem_nil⟩

theorem onlyAsHolder (haddr : KnownAs addr env.myAddr) : OnlyAsHolder addr env machine := by
  rcases haddr with hnone | haddr
  · have hquiet : QuietRound env machine := quietRound_of_unknown hnone
    have hsame : (manageLedger env machine).1 = machine := by rw [manageLedger_of_unknown hnone]
    refine ⟨?_, ?_, ?_, fun ledger hsent ↦ absurd hsent (hquiet.2.2 ledger),
      fun _ _ _ _ ↦ by rw [hsame]⟩
    · intro guid hattempted
      cases hquiet.1.symm.trans hattempted
    · intro guid haccepted
      cases hquiet.2.1.symm.trans haccepted
    · intro guid hlisted hgone
      rw [hsame] at hgone
      exact absurd hlisted hgone
  · refine ⟨?_, ?_, ?_, ?_, ?_⟩
    · exact fun guid hattempted ↦ (holds_of_attempted haddr hattempted).1
    · intro guid haccepted
      have hattempted := attempted_of_accepted haccepted
      exact ⟨(holds_of_attempted haddr hattempted.1).1, hattempted⟩
    · intro guid hlisted hgone
      have hattempted := attempted_of_removed haddr hlisted hgone
      exact ⟨(holds_of_attempted haddr hattempted.1).1, hattempted⟩
    · exact fun ledger hsent ↦ (manageLedger_outcome haddr machine).holds_of_sent hsent
    · exact fun guid err ↦ jobs_of_failed haddr

/-- A machine that names somebody else does nothing in a round that does not appoint it. -/
theorem Ceded.quietRound (h : machine.Ceded addr) (haddr : KnownAs addr env.myAddr)
    (hguard : machine.Unappointed addr (.tick env)) : QuietRound env machine := by
  rcases haddr with hnone | haddr
  · exact quietRound_of_unknown hnone
  · have hnot := h.not_holds (hguard haddr)
    obtain ⟨owner, hnamed, -⟩ := h
    have hnone : attempted env machine = none := by
      by_contra hattempted
      obtain ⟨guid, hguid⟩ := Option.ne_none_iff_exists'.mp hattempted
      exact hnot (holds_of_attempted haddr hguid).1
    refine ⟨hnone, accepted_of_attempted_none hnone, ?_⟩
    intro ledger hsent
    rcases (manageLedger_outcome haddr machine).holds_of_sent hsent with hholds | hnone
    · exact hnot hholds
    · rw [owner?, hnone] at hnamed
      cases hnamed

/-- In every run of a machine a round prints, takes jobs off the ledger and broadcasts it only as
holder or creator; and after a round that hands the ledger over, the machine neither prints nor
broadcasts a ledger until a message or a takeover appoints it again. -/
theorem only_holder_acts (addr : Ipv4Addr) {machine : Machine}
    (h : Reaches (step addr) Unrestricted boot machine) (env : TickEnv)
    (haddr : KnownAs addr env.myAddr) :
    OnlyAsHolder addr env machine ∧
      (env.myAddr = some addr → HandsOver addr machine → ∀ later,
        Reaches (step addr) (Unappointed addr) (manageLedger env machine).1 later →
        ∀ next : TickEnv, KnownAs addr next.myAddr → later.Unappointed addr (.tick next) →
          QuietRound next later) := by
  refine ⟨onlyAsHolder haddr, ?_⟩
  intro hknown hover later hreach next hnext hguard
  have hceded : (manageLedger env machine).1.Ceded addr := by
    obtain ⟨peer, hmem, hpeer⟩ := (manageLedger_outcome hknown machine).owner?_of_handsOver hover
    refine ⟨peer, hpeer, ?_⟩
    rintro rfl
    exact Absent.of_reaches h hmem
  have hlater : later.Ceded addr := hreach.invariant (Ceded addr) hceded
    fun _ _ _ hbefore hguard hstep ↦ hbefore.step hguard hstep
  exact hlater.quietRound hnext hguard

/-- `alpha` hears of `beta`, creates the ledger and observes that it owns it. -/
def gained : List LocalEvent :=
  [.receive System.beta ⟨⟨1⟩, .heartbeat true⟩, .tick (System.printer System.alpha false),
    .tick (System.printer System.alpha false)]

theorem only_holder_acts_after_gained :
    ∃ machine, Reaches (step System.alpha) Unrestricted boot machine ∧
      HandsOver System.alpha machine ∧
      QuietRound (System.printer System.alpha true)
        (manageLedger (System.printer System.alpha true) machine).1 := by
  obtain ⟨machine, hreach, hover, hguard⟩ := exists_reaches_of_runIf (step System.alpha)
    Unrestricted boot gained
    (fun machine ↦ HandsOver System.alpha machine ∧
      (manageLedger (System.printer System.alpha true) machine).1.Unappointed System.alpha
        (.tick (System.printer System.alpha true))) (by decide +kernel)
  exact ⟨machine, hreach, hover,
    (only_holder_acts System.alpha hreach (System.printer System.alpha true) (.inr rfl)).2 rfl hover
      _ .refl (System.printer System.alpha true) (.inr rfl) hguard⟩

end Machine

/-! ## Ownership is observed before it is used -/

/-- A machine with what its last round has ended with: whether the copy then named it as owner. -/
structure Watched where
  machine : Machine
  owned : Bool

namespace Watched

variable {watched later : Watched}

def boot : Watched := ⟨.boot, false⟩

/-- One step of the machine; every round is watched to its end. -/
def step (addr : Ipv4Addr) (watched : Watched) (event : LocalEvent) : Option Watched :=
  (watched.machine.step addr event).map fun machine ↦
    match event with
    | .tick _ => ⟨machine, decide (machine.Owns addr)⟩
    | _ => ⟨machine, watched.owned⟩

/-- The observation flag is still set from an ownership the machine had lost by the end of its last
round. -/
def Outdated (watched : Watched) : Prop :=
  watched.machine.observedOwnership = true ∧ watched.owned = false

instance (watched : Watched) : Decidable watched.Outdated := inferInstanceAs (Decidable (_ ∧ _))

/-- The machine does not become owner while its observation flag is outdated. -/
def Fresh (addr : Ipv4Addr) (watched : Watched) (event : LocalEvent) : Prop :=
  watched.Outdated → watched.machine.Unappointed addr event

instance (addr : Ipv4Addr) (watched : Watched) (event : LocalEvent) :
    Decidable (watched.Fresh addr event) :=
  inferInstanceAs (Decidable (_ → _))

/-- A round that uses the ownership: it passes a job to `marlin::print`, with or without success, or
hands the ledger over. -/
def Uses (addr : Ipv4Addr) (env : TickEnv) (machine : Machine) : Prop :=
  attempted env machine ≠ none ∨ (manageLedger env machine).2.accepted ≠ none ∨
    env.myAddr = some addr ∧ HandsOver addr machine

instance (addr : Ipv4Addr) (env : TickEnv) (machine : Machine) :
    Decidable (Uses addr env machine) :=
  inferInstanceAs (Decidable (_ ∨ _))

theorem holds_of_uses (haddr : KnownAs addr env.myAddr) (h : Uses addr env machine) :
    env.myAddr = some addr ∧ Holds addr machine ∧ machine.observedOwnership = true := by
  have hprints {guid : Uuid} (hguid : attempted env machine = some guid) :
      env.myAddr = some addr ∧ Holds addr machine ∧ machine.observedOwnership = true := by
    rcases haddr with hnone | hknown
    · simp [attempted, hnone] at hguid
    · exact ⟨hknown, holds_of_attempted hknown hguid⟩
  rcases h with hattempted | haccepted | ⟨hknown, hholds, hobserved, -⟩
  · obtain ⟨guid, hguid⟩ := Option.ne_none_iff_exists'.mp hattempted
    exact hprints hguid
  · obtain ⟨guid, hguid⟩ := Option.ne_none_iff_exists'.mp haccepted
    exact hprints (attempted_of_accepted hguid).1
  · exact ⟨hknown, hholds, hobserved⟩

/-- A machine with an outdated flag names somebody else as owner. -/
def Alert (addr : Ipv4Addr) (watched : Watched) : Prop :=
  watched.machine.observedOwnership = true →
    ∃ owner, watched.machine.owner? = some owner ∧ (watched.owned = false → owner ≠ addr)

theorem Alert.ceded (h : watched.Alert addr) (houtdated : watched.Outdated) :
    watched.machine.Ceded addr := by
  obtain ⟨owner, hnamed, hother⟩ := h houtdated.1
  exact ⟨owner, hnamed, hother houtdated.2⟩

/-- After a round the record of its end is up to date. -/
theorem alert_of_round {machine : Machine}
    (h : machine.observedOwnership = true → machine.owner? ≠ none) :
    Alert addr ⟨machine, decide (machine.Owns addr)⟩ := by
  intro hobserved
  obtain ⟨owner, hnamed⟩ := Option.ne_none_iff_exists'.mp (h hobserved)
  refine ⟨owner, hnamed, ?_⟩
  rintro hlost rfl
  exact of_decide_eq_false hlost (Machine.owns_iff_owner?.mpr hnamed)

theorem Alert.owner?_ne_none (h : watched.Alert addr)
    (hobserved : watched.machine.observedOwnership = true) : watched.machine.owner? ≠ none := by
  obtain ⟨owner, hnamed, -⟩ := h hobserved
  exact Option.ne_none_iff_exists'.mpr ⟨owner, hnamed⟩

theorem Alert.step (h : watched.Alert addr) {event : LocalEvent}
    (hguard : watched.Fresh addr event) (hstep : watched.step addr event = some later) :
    later.Alert addr := by
  obtain ⟨machine, hmachine, rfl⟩ := Option.map_eq_some_iff.mp hstep
  cases Machine.steps_of_step hmachine with
  | kept howner hflag =>
      have hkept : Alert addr ⟨machine, watched.owned⟩ := by
        intro hobserved
        obtain ⟨owner, hnamed, hother⟩ := h (hflag.symm.trans hobserved)
        exact ⟨owner, howner.trans hnamed, hother⟩
      cases event with
      | tick env =>
          apply alert_of_round
          rw [howner, hflag]
          exact h.owner?_ne_none
      | receive _ _ => exact hkept
      | upload _ _ => exact hkept
      | lifetimeCheck => exact hkept
      | elapse _ => exact hkept
  | @adopted _ owner _ _ hnew hnamed howner hflag =>
      intro hobserved
      refine ⟨owner, howner, ?_⟩
      rintro hlost rfl
      exact hguard ⟨hflag.symm.trans hobserved, hlost⟩ hnew hnamed
  | ticked _ hround =>
      apply alert_of_round
      intro _
      cases hround <;> exact Option.some_ne_none _

/-- In every run in which the machine does not become owner while its observation flag is outdated,
a round uses the ownership only if the copy already named the machine at the end of the round
before. -/
theorem observed_before_used_of_fresh (addr : Ipv4Addr) {watched : Watched}
    (h : Reaches (step addr) (Fresh addr) boot watched) (env : TickEnv)
    (haddr : KnownAs addr env.myAddr) (hfresh : watched.Fresh addr (.tick env))
    (huses : Uses addr env watched.machine) : watched.owned = true := by
  have halert : watched.Alert addr := h.invariant (Alert addr) (fun hobserved ↦ nomatch hobserved)
    fun _ _ _ hbefore hguard hstep ↦ hbefore.step hguard hstep
  obtain ⟨hknown, hholds, hobserved⟩ := holds_of_uses haddr huses
  by_contra hlost
  have houtdated : watched.Outdated := ⟨hobserved, Bool.eq_false_of_not_eq_true hlost⟩
  exact (halert.ceded houtdated).not_holds (hfresh houtdated hknown) hholds

theorem observed_before_used_after_gained :
    ∃ watched, Reaches (step System.alpha) (Fresh System.alpha) boot watched ∧
      Uses System.alpha (System.printer System.alpha false) watched.machine ∧
      watched.owned = true := by
  obtain ⟨watched, hreach, huses, hfresh⟩ := exists_reaches_of_runIf (step System.alpha)
    (Fresh System.alpha) boot Machine.gained
    (fun watched ↦ Uses System.alpha (System.printer System.alpha false) watched.machine ∧
      watched.Fresh System.alpha (.tick (System.printer System.alpha false))) (by decide +kernel)
  exact ⟨watched, hreach, huses, observed_before_used_of_fresh System.alpha hreach
    (System.printer System.alpha false) (.inr rfl) hfresh huses⟩

/-- After `alpha` has observed its ownership, one message takes it away and, a round later, another
one gives it back. -/
def regained : List LocalEvent :=
  Machine.gained ++ [.receive System.beta ⟨⟨2⟩, .ledger ⟨System.beta, .empty⟩⟩,
    .tick (System.printer System.alpha false),
    .receive System.beta ⟨⟨3⟩, .ledger ⟨System.alpha, .empty⟩⟩]

/-- The next round hands the ledger on at once. -/
theorem used_unobserved_after_regained :
    ∃ watched, Reaches (step System.alpha) Unrestricted boot watched ∧
      Uses System.alpha (System.printer System.alpha false) watched.machine ∧
      watched.owned = false :=
  exists_reaches_of_runIf (step System.alpha) Unrestricted boot regained
    (fun watched ↦ Uses System.alpha (System.printer System.alpha false) watched.machine ∧
      watched.owned = false) (by decide +kernel)

end Watched

end Derusting
