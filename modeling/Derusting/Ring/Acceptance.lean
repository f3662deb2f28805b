import Derusting.Ring.WellFormed

/-!
# At most one acceptance a job

Every machine keeps a full copy of the ledger, and copies carry no version.  A job that has been
accepted somewhere comes back to life when a machine that owns the ledger gets hold of an outdated
copy: from a late `Ledger` or `NewJob` message, from its own old copy at a stale takeover, or
because two machines own copies of one ledger at the same time.  `Current` excludes exactly these
steps, and every run without them accepts each job at most once.
-/

namespace Derusting

open Foundations.Bounded Foundations.Transition

theorem lists_receiveMessage {sender : Ipv4Addr} {message : Message} {machine : Machine}
    {guid : Uuid} (h : (receiveMessage sender message machine).Lists guid) :
    machine.Lists guid ∨ guid ∈ message.payload.guids := by
  by_cases hnew : message.idempotency ∈ machine.history
  · rw [receiveMessage_of_mem hnew] at h
    exact .inl h
  · obtain ⟨state, hjobs, hlisted⟩ := h
    cases hpayload : message.payload with
    | ledger ledger =>
        rw [jobs_receiveMessage_ledger sender hnew hpayload] at hjobs
        obtain rfl := Option.some.inj hjobs
        exact .inr hlisted
    | newJob fresh =>
        rw [jobs_receiveMessage_newJob sender hnew hpayload] at hjobs
        obtain ⟨before, hbefore, rfl⟩ := Option.map_eq_some_iff.mp hjobs
        rcases IndexSet.eq_or_mem_of_mem_insert hlisted with rfl | hold
        · exact .inr (List.mem_singleton_self guid)
        · exact .inl ⟨before, hbefore, hold⟩
    | heartbeat alive =>
        simp only [receiveMessage, hnew, hpayload, if_false] at hjobs
        exact .inl ⟨state, hjobs, hlisted⟩
    | log text =>
        simp only [receiveMessage, hnew, hpayload, if_false] at hjobs
        exact .inl ⟨state, hjobs, hlisted⟩

theorem jobs_subset_of_manufactured {env : TickEnv} {state made : LedgerState} {output : TickOutput}
    (h : Manufactured env state made output) {guid : Uuid} (hmem : guid ∈ made.ledger.jobs) :
    guid ∈ state.ledger.jobs := by
  cases h with
  | nothing => exact hmem
  | accepted _ _ _ _ _ => exact (IndexSet.mem_remove.mp hmem).2

/-- A round lists no job that was not listed before it. -/
theorem TickOutcome.lists {env : TickEnv} {addr : Ipv4Addr} {machine after : Machine}
    {output : TickOutput} (h : TickOutcome env addr machine after output) {guid : Uuid}
    (hlists : after.Lists guid) : machine.Lists guid := by
  obtain ⟨state, hafter, hlisted⟩ := hlists
  cases h with
  | created hjobs =>
      obtain rfl := Option.some.inj hafter
      exact absurd hlisted (IndexSet.notMem_empty guid)
  | waited hjobs htaken hidle =>
      obtain rfl := Option.some.inj hafter
      exact ⟨_, hjobs, by rw [← jobs_staleTakeover, ← htaken]; exact hlisted⟩
  | kept hjobs htaken howner hobserved hmade halone =>
      obtain rfl := Option.some.inj hafter
      have hmem := jobs_subset_of_manufactured hmade hlisted
      exact ⟨_, hjobs, by rw [← jobs_staleTakeover, ← htaken]; exact hmem⟩
  | passed hjobs htaken howner hobserved hmade hnext hmem =>
      obtain rfl := Option.some.inj hafter
      have hmem := jobs_subset_of_manufactured hmade hlisted
      exact ⟨_, hjobs, by rw [← jobs_staleTakeover, ← htaken]; exact hmem⟩

/-- A round accepts a job only as owner, and then the job was listed and no longer is. -/
theorem TickOutcome.of_accepted {env : TickEnv} {addr : Ipv4Addr} {machine after : Machine}
    {output : TickOutput} (h : TickOutcome env addr machine after output) {guid : Uuid}
    (haccepted : output.accepted = some guid) :
    ∃ before, machine.jobs = some before ∧ guid ∈ before.ledger.jobs ∧
      (staleTakeover addr machine.addresses machine.clock before).ledger.owner = addr ∧
      ¬ after.Lists guid := by
  have hmanufactured {state made : LedgerState} {output : TickOutput}
      (hmade : Manufactured env state made output) (houtput : output.accepted = some guid) :
      guid ∈ state.ledger.jobs ∧ guid ∉ made.ledger.jobs := by
    cases hmade with
    | nothing => cases houtput
    | accepted found hlisted _ _ _ =>
        obtain rfl := Option.some.inj houtput
        exact ⟨hlisted, by simp⟩
  cases h with
  | created hjobs => cases haccepted
  | waited hjobs htaken hidle => cases haccepted
  | kept hjobs htaken howner hobserved hmade halone =>
      obtain ⟨hlisted, hgone⟩ := hmanufactured hmade haccepted
      subst htaken
      refine ⟨_, hjobs, by rwa [jobs_staleTakeover] at hlisted, howner, ?_⟩
      rwa [Machine.lists_iff rfl]
  | passed hjobs htaken howner hobserved hmade hnext hmem =>
      obtain ⟨hlisted, hgone⟩ := hmanufactured hmade haccepted
      subst htaken
      refine ⟨_, hjobs, by rwa [jobs_staleTakeover] at hlisted, howner, ?_⟩
      rwa [Machine.lists_iff rfl]

/-- After a round the machine owns its copy only if it owned it, or took it over, in that round;
after handing it on, it does not own it. -/
theorem TickOutcome.of_owns {env : TickEnv} {addr : Ipv4Addr} {machine after : Machine}
    {output : TickOutput} (h : TickOutcome env addr machine after output)
    (hbook : addr ∉ machine.addresses.keys) (howns : after.Owns addr) :
    machine.jobs = none ∨ ∃ before, machine.jobs = some before ∧
      (staleTakeover addr machine.addresses machine.clock before).ledger.owner = addr := by
  obtain ⟨state, hafter, howner⟩ := howns
  cases h with
  | created hjobs => exact .inl hjobs
  | waited hjobs htaken hidle =>
      obtain rfl := Option.some.inj hafter
      exact .inr ⟨_, hjobs, htaken ▸ howner⟩
  | kept hjobs htaken hown hobserved hmade halone => exact .inr ⟨_, hjobs, htaken ▸ hown⟩
  | passed hjobs htaken hown hobserved hmade hnext hmem =>
      obtain rfl := Option.some.inj hafter
      exact absurd (howner ▸ hmem) hbook

namespace System

variable {ring : Finset Ipv4Addr} {system after : System} {addr : Ipv4Addr} {action : Action}
  {outcome : Outcome}

/-! ## No job comes from nowhere -/

/-- Every job that a copy lists or a message names is a known one. -/
structure Charted (known : Uuid → Prop) (ring : Finset Ipv4Addr) (system : System) : Prop where
  listed : ∀ addr ∈ ring, ∀ guid, (system.machines addr).Lists guid → known guid
  named : ∀ index : ℕ, ∀ envelope ∈ system.sent[index]?, ∀ guid ∈ envelope.message.payload.guids,
    known guid

/-- Every job that is listed, named in a message or accepted was uploaded with its own guid. -/
structure Provenance (ring : Finset Ipv4Addr) (system : System) : Prop where
  charted : Charted (· ∈ system.issued) ring system
  accepted : ∀ guid, system.Accepted guid → guid ∈ system.issued

/-- Only an upload files a job, with a guid of its own. -/
theorem Acts.filed_mem (h : Acts system addr action outcome) {guid : Uuid}
    (hfiled : outcome.filed = some guid) : guid ∈ action.ids := by
  cases h with
  | @filed fresh key state filed hjobs howner hinserted =>
      obtain rfl : filed = some guid := hfiled
      obtain ⟨_, hsame⟩ := Option.ite_none_right_eq_some.mp hinserted.symm
      obtain rfl := Option.some.inj hsame
      simp [Action.ids]
  | alerted _ =>
      obtain rfl := Option.some.inj hfiled
      simp [Action.ids]
  | _ => cases hfiled

theorem Acts.lists (h : Acts system addr action outcome) {guid : Uuid}
    (hlists : outcome.machine.Lists guid) :
    (system.machines addr).Lists guid ∨ outcome.filed = some guid ∨
      ∃ index : ℕ, ∃ envelope ∈ system.sent[index]?, guid ∈ envelope.message.payload.guids := by
  cases h with
  | filed hjobs howner hfiled =>
      rw [Machine.lists_iff rfl] at hlists
      rcases IndexSet.eq_or_mem_of_mem_insert hlists with rfl | hold
      · exact .inr (.inl (hfiled.trans (if_pos hlists)))
      · exact .inl ⟨_, hjobs, hold⟩
  | delivered hsent hsrc =>
      rcases lists_receiveMessage hlists with hold | hnamed
      · exact .inl hold
      · exact .inr (.inr ⟨_, _, hsent, hnamed⟩)
  | ticked houtcome => exact .inl (houtcome.lists hlists)
  | _ => exact .inl hlists

theorem Acts.named (h : Acts system addr action outcome) {message : Message} {guid : Uuid}
    (hmem : message ∈ outcome.sent) (hguid : guid ∈ message.payload.guids) :
    outcome.filed = some guid ∨ (system.machines addr).Lists guid := by
  cases hpayload : message.payload with
  | ledger ledger =>
      obtain ⟨state, hjobs, rfl, _⟩ := h.ledger_sent hmem hpayload
      rw [hpayload] at hguid
      have hlists : outcome.machine.Lists guid := ⟨state, hjobs, hguid⟩
      cases h with
      | ticked houtcome => exact .inr (houtcome.lists hlists)
      | alerted _ => simp_all
      | greeted => simp_all
      | logged => simp_all
      | _ => cases hmem
  | newJob fresh =>
      rw [hpayload] at hguid
      obtain rfl := List.mem_singleton.mp hguid
      cases h with
      | alerted _ => exact .inl (by simp_all)
      | ticked houtcome =>
          obtain ⟨payload, hsent, rfl⟩ := List.mem_map.mp hmem
          rcases houtcome.broadcast with ⟨rfl, _⟩ | ⟨state, _, hlist | ⟨text, hlist⟩, _⟩
          · cases hsent
          all_goals
            rw [hlist] at hsent
            cases payload <;> simp_all [stamp]
      | greeted => simp_all
      | logged => simp_all
      | _ => cases hmem
  | heartbeat alive => rw [hpayload] at hguid; cases hguid
  | log text => rw [hpayload] at hguid; cases hguid

theorem Acts.of_accepted (h : Acts system addr action outcome) {guid : Uuid}
    (haccepted : outcome.accepted = some guid) : (system.machines addr).Lists guid := by
  cases h with
  | ticked houtcome =>
      obtain ⟨before, hjobs, hlisted, _⟩ := houtcome.of_accepted haccepted
      exact ⟨before, hjobs, hlisted⟩
  | _ => cases haccepted

theorem accepted_commit_iff {guid : Uuid} {ids : List Uuid} :
    (system.commit addr ids outcome).Accepted guid ↔
      system.Accepted guid ∨ outcome.accepted = some guid := by
  cases haccepted : outcome.accepted <;> simp [Accepted, commit, haccepted, eq_comm]

theorem Charted.mono {known wider : Uuid → Prop} (h : Charted known ring system)
    (hwider : ∀ guid, known guid → wider guid) : Charted wider ring system where
  listed addr haddr guid hlists := hwider guid (h.listed addr haddr guid hlists)
  named index envelope henvelope guid hguid := hwider guid (h.named index envelope henvelope guid hguid)

/-- An action spreads known jobs and the one it files. -/
theorem Charted.commit {known : Uuid → Prop} {ids : List Uuid} (h : Charted known ring system)
    (haddr : addr ∈ ring) (hacts : Acts system addr action outcome)
    (hfiled : ∀ guid, outcome.filed = some guid → known guid) :
    Charted known ring (system.commit addr ids outcome) where
  listed := by
    intro machine hmachine guid hlists
    by_cases hself : machine = addr
    · subst hself
      rw [machines_commit_self] at hlists
      rcases hacts.lists hlists with hbefore | hnew | ⟨index, envelope, henvelope, hnamed⟩
      · exact h.listed _ haddr guid hbefore
      · exact hfiled guid hnew
      · exact h.named index envelope henvelope guid hnamed
    · rw [machines_commit_of_ne hself] at hlists
      exact h.listed machine hmachine guid hlists
  named := by
    intro index envelope henvelope guid hguid
    rcases mem_sent_commit henvelope with hbefore | ⟨_, _, hnew⟩
    · exact h.named index envelope hbefore guid hguid
    · rcases hacts.named hnew hguid with hfresh | hlists
      · exact hfiled guid hfresh
      · exact h.listed _ haddr guid hlists

theorem Provenance.step (h : Provenance ring system) {event : Event}
    (hstep : system.step ring event = some after) : Provenance ring after := by
  obtain ⟨haddr, _, _, outcome, hacts, rfl⟩ := exists_of_step hstep
  refine ⟨?_, fun guid haccepted ↦ ?_⟩
  · exact (h.charted.mono fun guid hguid ↦ List.mem_append_left _ hguid).commit haddr hacts
      fun guid hfiled ↦ List.mem_append_right _ (hacts.filed_mem hfiled)
  · apply List.mem_append_left
    rcases accepted_commit_iff.mp haccepted with hbefore | hnew
    · exact h.accepted guid hbefore
    · exact h.charted.listed _ haddr guid (hacts.of_accepted hnew)

theorem Provenance.boot (ring : Finset Ipv4Addr) : Provenance ring System.boot where
  charted := ⟨by simp [System.boot, Machine.boot, Machine.Lists], by simp [System.boot]⟩
  accepted := by simp [System.boot, Accepted]

/-! ## Outdated copies -/

/-- Each job has been accepted by at most one machine, and at most once. -/
def AcceptedOnce (system : System) : Prop := (system.accepted.map Prod.snd).Nodup

/-- Processing the payload at `addr` puts no accepted job into a copy that `addr` then owns. -/
def CurrentPayload (system : System) (addr : Ipv4Addr) : Payload → Prop
  | .ledger carried =>
      carried.owner = addr → ∀ guid ∈ carried.jobs.toList, ¬ system.Accepted guid
  | .newJob guid => (system.machines addr).Owns addr → ¬ system.Accepted guid
  | .heartbeat _ | .log _ => True

/-- A takeover takes over no accepted job, and while `addr` acts as owner no other owner's copy
lists one of its jobs. -/
def CurrentCopy (ring : Finset Ipv4Addr) (system : System) (addr : Ipv4Addr)
    (state : LedgerState) : Prop :=
  let machine := system.machines addr
  (takesOver addr machine.addresses machine.clock state = true →
    ∀ guid ∈ state.ledger.jobs.toList, ¬ system.Accepted guid) ∧
  ((staleTakeover addr machine.addresses machine.clock state).ledger.owner = addr →
    ∀ other ∈ ring, other ≠ addr → (system.machines other).Owns other →
      ∀ guid ∈ state.ledger.jobs.toList, ¬ (system.machines other).Lists guid)

/-- The step works on no outdated copy of the ledger. Messages that the history drops and actions
that do not touch a ledger are unrestricted. -/
def Current (ring : Finset Ipv4Addr) (system : System) (event : Event) : Prop :=
  match event.action with
  | .deliver index => ∀ envelope ∈ system.sent[index]?,
      envelope.message.idempotency ∉ (system.machines event.addr).history →
        CurrentPayload system event.addr envelope.message.payload
  | .tick _ _ _ => ∀ state ∈ (system.machines event.addr).jobs,
      CurrentCopy ring system event.addr state
  | _ => True

instance (system : System) (addr : Ipv4Addr) :
    (payload : Payload) → Decidable (CurrentPayload system addr payload)
  | .ledger carried => inferInstanceAs
      (Decidable (carried.owner = addr → ∀ guid ∈ carried.jobs.toList, ¬ system.Accepted guid))
  | .newJob guid => inferInstanceAs
      (Decidable ((system.machines addr).Owns addr → ¬ system.Accepted guid))
  | .heartbeat _ | .log _ => inferInstanceAs (Decidable True)

instance (ring : Finset Ipv4Addr) (system : System) (addr : Ipv4Addr) (state : LedgerState) :
    Decidable (CurrentCopy ring system addr state) :=
  inferInstanceAs (Decidable (_ ∧ _))

instance (ring : Finset Ipv4Addr) (system : System) :
    (event : Event) → Decidable (Current ring system event)
  | ⟨addr, .deliver index⟩ => inferInstanceAs (Decidable (∀ envelope ∈ system.sent[index]?,
      envelope.message.idempotency ∉ (system.machines addr).history →
        CurrentPayload system addr envelope.message.payload))
  | ⟨addr, .tick _ _ _⟩ => inferInstanceAs (Decidable (∀ state ∈ (system.machines addr).jobs,
      CurrentCopy ring system addr state))
  | ⟨_, .upload _ _⟩ | ⟨_, .heartbeat _⟩ | ⟨_, .log _ _⟩ | ⟨_, .lifetimeCheck⟩ | ⟨_, .elapse _⟩ =>
      inferInstanceAs (Decidable True)

/-- What runs without outdated copies keep: no owner's copy lists an accepted job. -/
structure NoRevival (ring : Finset Ipv4Addr) (system : System) : Prop where
  wellFormed : WellFormed ring system
  provenance : Provenance ring system
  current : ∀ addr ∈ ring, (system.machines addr).Owns addr →
    ∀ guid, (system.machines addr).Lists guid → ¬ system.Accepted guid
  once : AcceptedOnce system

/-- A machine that acts as owner in this round has no accepted job in its copy. -/
theorem NoRevival.acting (h : NoRevival ring system) (haddr : addr ∈ ring) {before : LedgerState}
    (hjobs : (system.machines addr).jobs = some before)
    (hcurrent : CurrentCopy ring system addr before)
    (howner : (staleTakeover addr (system.machines addr).addresses (system.machines addr).clock
      before).ledger.owner = addr) {guid : Uuid} (hlisted : guid ∈ before.ledger.jobs) :
    ¬ system.Accepted guid := by
  cases htakes : takesOver addr (system.machines addr).addresses (system.machines addr).clock
      before with
  | true => exact hcurrent.1 htakes guid hlisted
  | false =>
      rw [staleTakeover_of_not htakes] at howner
      exact h.current addr haddr ⟨before, hjobs, howner⟩ guid ⟨before, hjobs, hlisted⟩

/-- A message puts no accepted job into the copy of an owner. -/
theorem NoRevival.current_of_delivered (h : NoRevival ring system) {index : ℕ}
    (haddr : addr ∈ ring) (hguard : Current ring system ⟨addr, .deliver index⟩)
    {envelope : Envelope} (hsent : envelope ∈ system.sent[index]?)
    (howns : (receiveMessage envelope.src envelope.message (system.machines addr)).Owns addr)
    {guid : Uuid}
    (hlists : (receiveMessage envelope.src envelope.message (system.machines addr)).Lists guid) :
    ¬ system.Accepted guid := by
  by_cases hnew : envelope.message.idempotency ∈ (system.machines addr).history
  · rw [receiveMessage_of_mem hnew] at howns hlists
    exact h.current addr haddr howns guid hlists
  · have hpayload := hguard envelope hsent hnew
    cases hkind : envelope.message.payload with
    | ledger carried =>
        have hjobs := jobs_receiveMessage_ledger envelope.src hnew hkind
        rw [hkind] at hpayload
        exact hpayload ((Machine.owns_iff hjobs).mp howns) guid
          ((Machine.lists_iff hjobs).mp hlists)
    | newJob fresh =>
        rw [hkind] at hpayload
        have hjobs := jobs_receiveMessage_newJob envelope.src hnew hkind
        obtain ⟨state, hstate, howner⟩ := howns
        rw [hjobs] at hstate
        obtain ⟨before, hbefore, rfl⟩ := Option.map_eq_some_iff.mp hstate
        have hself : (system.machines addr).Owns addr := ⟨before, hbefore, howner⟩
        rcases lists_receiveMessage hlists with hold | hnamed
        · exact h.current addr haddr hself guid hold
        · rw [hkind] at hnamed
          obtain rfl := List.mem_singleton.mp hnamed
          exact hpayload hself
    | heartbeat alive =>
        simp only [receiveMessage, hnew, hkind, if_false] at howns hlists
        exact h.current addr haddr howns guid hlists
    | log text =>
        simp only [receiveMessage, hnew, hkind, if_false] at howns hlists
        exact h.current addr haddr howns guid hlists

/-- The owner's copy after an action lists no job accepted before it. -/
theorem NoRevival.current_of_acts (h : NoRevival ring system) {event : Event}
    (haddr : event.addr ∈ ring) (hfresh : ∀ id ∈ event.action.ids, id ∉ system.issued)
    (hguard : Current ring system event)
    (hacts : Acts system event.addr event.action outcome) (howns : outcome.machine.Owns event.addr)
    {guid : Uuid} (hlists : outcome.machine.Lists guid) : ¬ system.Accepted guid := by
  obtain ⟨addr, action⟩ := event
  cases hacts with
  | filed hjobs howner _ =>
      rw [Machine.lists_iff rfl] at hlists
      rcases IndexSet.eq_or_mem_of_mem_insert hlists with rfl | hold
      · intro haccepted
        exact hfresh guid (by simp [Action.ids]) (h.provenance.accepted guid haccepted)
      · exact h.current addr haddr ⟨_, hjobs, howner⟩ guid ⟨_, hjobs, hold⟩
  | @delivered index envelope hsent hsrc =>
      exact h.current_of_delivered haddr hguard hsent howns hlists
  | ticked houtcome =>
      have hbook : addr ∉ (system.machines addr).addresses.keys := fun hmem ↦
        (h.wellFormed.book_mem addr haddr addr hmem).2 rfl
      obtain ⟨before, hjobs, hlisted⟩ := houtcome.lists hlists
      rcases houtcome.of_owns hbook howns with hnone | ⟨state, hstate, howner⟩
      · rw [hnone] at hjobs
        cases hjobs
      · obtain rfl : before = state := Option.some.inj (hjobs.symm.trans hstate)
        exact h.acting haddr hjobs (hguard before hjobs) howner hlisted
  | alerted hnot => exact absurd howns hnot
  | unfiled hnot => exact absurd howns hnot
  | greeted => exact h.current addr haddr howns guid hlists
  | logged => exact h.current addr haddr howns guid hlists
  | purged => exact h.current addr haddr howns guid hlists
  | elapsed => exact h.current addr haddr howns guid hlists

theorem NoRevival.step (h : NoRevival ring system) {event : Event}
    (hguard : Current ring system event) (hstep : system.step ring event = some after) :
    NoRevival ring after := by
  have hwell := h.wellFormed.step hstep
  have hprovenance := h.provenance.step hstep
  obtain ⟨haddr, _, hfresh, outcome, hacts, rfl⟩ := exists_of_step hstep
  refine ⟨hwell, hprovenance, ?_, ?_⟩
  · intro machine hmachine howns guid hlists haccepted
    by_cases hself : machine = event.addr
    · subst hself
      rw [machines_commit_self] at howns hlists
      rcases accepted_commit_iff.mp haccepted with hold | hnew
      · exact h.current_of_acts haddr hfresh hguard hacts howns hlists hold
      · obtain ⟨_, action⟩ := event
        cases hacts with
        | ticked houtcome =>
            obtain ⟨_, _, _, _, hgone⟩ := houtcome.of_accepted hnew
            exact hgone hlists
        | _ => cases hnew
    · rw [machines_commit_of_ne hself] at howns hlists
      rcases accepted_commit_iff.mp haccepted with hold | hnew
      · exact h.current machine hmachine howns guid hlists hold
      · obtain ⟨addr, action⟩ := event
        cases hacts with
        | ticked houtcome =>
            obtain ⟨before, hjobs, hlisted, howner, _⟩ := houtcome.of_accepted hnew
            exact (hguard before hjobs).2 howner machine hmachine hself howns guid hlisted hlists
        | _ => cases hnew
  · rw [AcceptedOnce]
    cases haccepted : outcome.accepted with
    | none => simpa [commit, haccepted, AcceptedOnce] using h.once
    | some guid =>
        have hnew : ¬ system.Accepted guid := by
          obtain ⟨addr, action⟩ := event
          cases hacts with
          | ticked houtcome =>
              obtain ⟨before, hjobs, hlisted, howner, _⟩ := houtcome.of_accepted haccepted
              exact h.acting haddr hjobs (hguard before hjobs) howner hlisted
          | _ => cases haccepted
        have hlist : (system.commit event.addr event.action.ids outcome).accepted.map Prod.snd =
            (system.accepted.map Prod.snd).concat guid := by
          simp [commit, haccepted]
        rw [hlist]
        exact h.once.concat hnew

/-- In every run none of whose steps works on an outdated copy, each job is accepted by at most
one machine and at most once. -/
theorem accepted_once_of_current {ring : Finset Ipv4Addr} {system : System}
    (h : Reaches (System.step ring) (Current ring) System.boot system) : AcceptedOnce system := by
  have hinv : NoRevival ring system := by
    refine h.invariant (NoRevival ring) ⟨.boot ring, .boot ring, ?_, ?_⟩
      fun _ _ _ hbefore hguard hstep ↦ hbefore.step hguard hstep
    · simp [boot, Machine.boot, Machine.Owns]
    · simp [boot, AcceptedOnce]
  exact hinv.once

/-! ## A late alert -/

/-- `alpha` creates the ledger, `gamma` alerts it to a job, and `alpha` accepts the job and hands
the ledger to `beta`. -/
def firstAcceptance : List Event :=
  [⟨beta, .heartbeat ⟨1⟩⟩, ⟨alpha, .deliver 0⟩, ⟨alpha, .tick (printer alpha false) ⟨2⟩ ⟨3⟩⟩,
    ⟨beta, .deliver 1⟩, ⟨gamma, .deliver 1⟩, ⟨gamma, .upload ⟨4⟩ ⟨5⟩⟩, ⟨alpha, .deliver 2⟩,
    ⟨alpha, .tick (printer alpha true) ⟨6⟩ ⟨7⟩⟩, ⟨alpha, .tick (printer alpha true) ⟨8⟩ ⟨9⟩⟩,
    ⟨beta, .deliver 4⟩]

/-- The alert reaches `beta` only after the ledger did; two rounds later `beta` prints the job. -/
def lateAlert : List Event :=
  [⟨beta, .deliver 2⟩, ⟨beta, .tick (printer beta true) ⟨10⟩ ⟨11⟩⟩,
    ⟨beta, .tick (printer beta true) ⟨12⟩ ⟨13⟩⟩]

theorem accepted_once_after_first_acceptance :
    ∃ system, Reaches (System.step {alpha, beta, gamma}) (Current {alpha, beta, gamma})
      System.boot system ∧ system.accepted = [(alpha, ⟨4⟩)] ∧ AcceptedOnce system := by
  obtain ⟨system, hreach, haccepted⟩ := exists_reaches_of_runIf
    (System.step {alpha, beta, gamma}) (Current {alpha, beta, gamma}) System.boot firstAcceptance
    (fun system ↦ system.accepted = [(alpha, ⟨4⟩)]) (by decide +kernel)
  exact ⟨system, hreach, haccepted, accepted_once_of_current hreach⟩

/-- Delaying one `NewJob` message is enough to have a job accepted by two machines. -/
theorem accepted_twice_after_late_alert :
    ∃ system, Reaches (System.step {alpha, beta, gamma}) Unrestricted System.boot system ∧
      ¬ AcceptedOnce system := by
  obtain ⟨system, hreach, haccepted⟩ := exists_reaches_of_runIf
    (System.step {alpha, beta, gamma}) Unrestricted System.boot (firstAcceptance ++ lateAlert)
    (fun system ↦ system.accepted = [(alpha, ⟨4⟩), (beta, ⟨4⟩)]) (by decide +kernel)
  refine ⟨system, hreach, ?_⟩
  rw [AcceptedOnce, haccepted]
  decide

end System

end Derusting
