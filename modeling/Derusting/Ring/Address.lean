import Derusting.Ring.Holder

/-!
# The own address

`my_ipaddr` reads the address of the default network interface.  An interface that is up but has no
address yet reads as `0.0.0.0`, and `my_ipaddr` returns that like any other address.  So the wait
at start-up may end too early, and a round of `manage_ledger` before the address arrives creates or
takes over a ledger that no machine is ever going to recognise as its own.  Neither does a machine
recognise a ledger that it has created under an address that it no longer has.  A run is sound
exactly if none of its readings does that.
-/

namespace Derusting

open Foundations.Bounded Foundations.Transition

/-! ## Reading the address -/

/-- The default network interface: absent, or present with the address it holds. -/
inductive Interface where
  | absent
  | present (addr : Ipv4Addr)
deriving DecidableEq

/-- The address of an interface that has not been assigned one. -/
def Ipv4Addr.unspecified : Ipv4Addr := .new 0 0 0 0

/-- `my_ipaddr`. -/
def myIpaddr : Interface → Option Ipv4Addr
  | .absent => none
  | .present addr => some addr

/-- An address has been assigned to the interface. -/
def Interface.Assigned (interface : Interface) : Prop :=
  ∃ addr, interface = .present addr ∧ addr ≠ .unspecified

instance : DecidablePred Interface.Assigned
  | .absent => .isFalse (by simp [Interface.Assigned])
  | .present addr => decidable_of_iff (addr ≠ .unspecified) (by simp [Interface.Assigned])

/-! ## Start-up and rounds -/

/-- The owner a round of `manage_ledger` appoints when it creates a ledger or takes a stale one
over. -/
def appointed? (env : TickEnv) (machine : Machine) : Option Ipv4Addr :=
  match env.myAddr, machine.jobs with
  | none, _ => none
  | some addr, none => some addr
  | some addr, some state =>
      if takesOver addr machine.addresses machine.clock state then some addr else none

/-- The machine has no ledger, or knows nobody and has not heard of its ledger for 45 seconds. -/
def Machine.NeedsOwner (machine : Machine) : Prop :=
  ∀ state ∈ machine.jobs, machine.clock - state.received > fromSecs 45 ∧ machine.addresses.keys = []

instance (machine : Machine) : Decidable machine.NeedsOwner :=
  inferInstanceAs (Decidable (∀ state ∈ machine.jobs, _))

/-- A machine from start-up on: the interface the wait for an address ended with, the readings of
the interface by the tasks, each with the owners the machine had appointed by then, the owners it
has appointed and the owners of the ledgers it has broadcast. -/
structure Station where
  started : Option Interface
  readings : List (Interface × List Ipv4Addr)
  machine : Machine
  appointed : List Ipv4Addr
  announced : List Ipv4Addr

inductive StationEvent where
  | poll (interface : Interface)
  | tick (interface : Interface) (env : TickEnv)
  | upload (guid : Uuid) (interface : Interface)
  | receive (sender : Ipv4Addr) (message : Message)
  | lifetimeCheck
  | elapse (ticks : ℕ)

namespace Station

def boot : Station := ⟨none, [], .boot, [], []⟩

/-- One step. `poll` is a round of the wait in `embassy_main`; the tasks run when it has ended. -/
def step (station : Station) : StationEvent → Option Station
  | .poll interface =>
      if station.started = none then
        some { station with
          started := if (myIpaddr interface).isSome then some interface else none }
      else none
  | .tick interface env =>
      if station.started = none then none
      else
        let env := { env with myAddr := myIpaddr interface }
        let (machine, output) := manageLedger env station.machine
        let appointed := (appointed? env station.machine).toList ++ station.appointed
        some { station with
          readings := (interface, appointed) :: station.readings
          machine := machine
          appointed := appointed
          announced := output.sent.filterMap Payload.owner? ++ station.announced }
  | .upload guid interface =>
      if station.started = none then none
      else
        some { station with
          readings := (interface, station.appointed) :: station.readings
          machine := (appendToLedger (myIpaddr interface) guid station.machine).1 }
  | .receive sender message =>
      if station.started = none then none
      else some { station with machine := receiveMessage sender message station.machine }
  | .lifetimeCheck =>
      if station.started = none then none
      else some { station with machine := addressBookLifetimeCheck station.machine }
  | .elapse ticks =>
      some { station with
        machine := { station.machine with clock := station.machine.clock + ticks } }

/-- The wait has ended with an assigned address, every ledger created, taken over or broadcast names
an owner with an address, and whenever the machine has read an address that it was assigned, it has
recognised itself as the owner of every ledger that it had created or taken over by then. -/
structure Sound (station : Station) : Prop where
  started : ∀ interface ∈ station.started, interface.Assigned
  announced : ∀ owner ∈ station.announced, owner ≠ .unspecified
  appointed : ∀ owner ∈ station.appointed, owner ≠ .unspecified
  recognised : ∀ reading ∈ station.readings, reading.1.Assigned → ∀ owner ∈ reading.2,
    ∀ state : LedgerState, state.ledger.owner = owner → state.isOwner (myIpaddr reading.1) = true

/-- The other machines have addresses and name owners with addresses. -/
def FromPeers (_ : Station) : StationEvent → Prop
  | .receive sender message =>
      sender ≠ .unspecified ∧ message.payload.owner? ≠ some .unspecified
  | .poll _ | .tick _ _ | .upload _ _ | .lifetimeCheck | .elapse _ => True

/-- An address that is assigned to the interface is the one of every owner appointed before. -/
def Stays (station : Station) (interface : Interface) : Prop :=
  interface.Assigned → ∀ owner ∈ station.appointed, interface = .present owner

instance (station : Station) (interface : Interface) : Decidable (station.Stays interface) :=
  inferInstanceAs (Decidable (_ → _))

/-- The interface is not present without an address when that would end the wait, or when the
machine needs an owner for its ledger; and the address does not change once the machine has
appointed an owner. -/
def WithAddress (station : Station) : StationEvent → Prop
  | .poll interface => interface ≠ .present .unspecified
  | .tick interface _ =>
      (interface = .present .unspecified → ¬ station.machine.NeedsOwner) ∧ station.Stays interface
  | .upload _ interface => station.Stays interface
  | .receive _ _ | .lifetimeCheck | .elapse _ => True

instance (station : Station) : DecidablePred station.FromPeers
  | .receive _ _ => inferInstanceAs (Decidable (_ ≠ _ ∧ _ ≠ _))
  | .poll _ | .tick _ _ | .upload _ _ | .lifetimeCheck | .elapse _ =>
      inferInstanceAs (Decidable True)

instance (station : Station) : DecidablePred station.WithAddress
  | .poll _ => inferInstanceAs (Decidable (_ ≠ _))
  | .tick _ _ => inferInstanceAs (Decidable ((_ → _) ∧ _))
  | .upload _ interface => inferInstanceAs (Decidable (station.Stays interface))
  | .receive _ _ | .lifetimeCheck | .elapse _ => inferInstanceAs (Decidable True)

end Station

/-! ## One round -/

variable {env : TickEnv} {addr : Ipv4Addr} {machine after : Machine} {output : TickOutput}

/-- The owner after a possible takeover is the appointed one, or the one before. -/
theorem owner_staleTakeover (env : TickEnv) {before : LedgerState} (haddr : env.myAddr = some addr)
    (hjobs : machine.jobs = some before) :
    (staleTakeover addr machine.addresses machine.clock before).ledger.owner =
      (appointed? env machine).getD before.ledger.owner := by
  rw [appointed?, haddr, hjobs, staleTakeover]
  cases htaken : takesOver addr machine.addresses machine.clock before <;> simp [htaken]

/-- The print stage names no owner; only the ledger that is sent behind it does. -/
theorem Manufactured.owners_send {state made : LedgerState} (h : Manufactured env state made output)
    (ledger : Ledger) :
    (output.send (.ledger ledger)).sent.filterMap Payload.owner? = [ledger.owner] := by
  cases h <;> rfl

/-- A round names the owner it has appointed, the one it found, or a machine of its book. -/
theorem TickOutcome.names (haddr : env.myAddr = some addr)
    (h : TickOutcome env addr machine after output) {owner : Ipv4Addr}
    (hnamed : after.owner? = some owner ∨ owner ∈ output.sent.filterMap Payload.owner?) :
    appointed? env machine = some owner ∨ machine.owner? = some owner ∨
      owner ∈ machine.addresses.keys := by
  have hfound {before state : LedgerState} (hjobs : machine.jobs = some before)
      (htaken : state = staleTakeover addr machine.addresses machine.clock before)
      (howner : state.ledger.owner = owner) :
      appointed? env machine = some owner ∨ machine.owner? = some owner ∨
        owner ∈ machine.addresses.keys := by
    rw [htaken, owner_staleTakeover env haddr hjobs] at howner
    cases happointed : appointed? env machine with
    | some appointed =>
        rw [happointed, Option.getD_some] at howner
        exact .inl (congrArg some howner)
    | none =>
        rw [happointed, Option.getD_none] at howner
        refine .inr (.inl ?_)
        rw [Machine.owner?, hjobs, Option.map_some, howner]
  cases h with
  | created hjobs =>
      have hself : owner = addr := by
        rcases hnamed with howner | hsent
        · exact (Option.some.inj howner).symm
        · exact List.mem_singleton.mp hsent
      refine .inl ?_
      rw [appointed?, haddr, hjobs, hself]
  | waited hjobs htaken _ =>
      rcases hnamed with howner | hsent
      · exact hfound hjobs htaken (Option.some.inj howner)
      · cases hsent
  | kept hjobs htaken _ _ hmade _ =>
      apply hfound hjobs htaken
      rw [hmade.owners_send, List.mem_singleton] at hnamed
      rw [← owner_of_manufactured hmade]
      rcases hnamed with howner | hsent
      · exact Option.some.inj howner
      · exact hsent.symm
  | @passed _ _ _ _ next _ _ _ _ hmade _ hmem =>
      rw [hmade.owners_send, List.mem_singleton] at hnamed
      have hnext : owner = next := by
        rcases hnamed with howner | hsent
        · exact (Option.some.inj howner).symm
        · exact hsent
      exact .inr (.inr (hnext ▸ hmem))

/-- An appointed owner is the address that was read. -/
theorem myAddr_of_appointed {owner : Ipv4Addr} (h : appointed? env machine = some owner) :
    env.myAddr = some owner := by
  cases haddr : env.myAddr with
  | none => simp [appointed?, haddr] at h
  | some addr =>
      cases hjobs : machine.jobs with
      | none => simpa [appointed?, haddr, hjobs] using h
      | some state =>
          simp only [appointed?, haddr, hjobs, Option.ite_none_right_eq_some] at h
          exact h.2

/-- A machine that needs an owner appoints the address it reads. -/
theorem appointed_of_needsOwner (haddr : env.myAddr = some addr) (h : machine.NeedsOwner) :
    appointed? env machine = some addr := by
  cases hjobs : machine.jobs with
  | none => simp only [appointed?, haddr, hjobs]
  | some state =>
      obtain ⟨hstale, hkeys⟩ := h state hjobs
      have htakes : takesOver addr machine.addresses machine.clock state = true := by
        rw [takesOver, decide_eq_true hstale, hkeys]
        rfl
      simp only [appointed?, haddr, hjobs, htakes, if_true]

/-- A machine that appoints an address it does not know as another machine's needs an owner. -/
theorem needsOwner_of_appointed (h : appointed? env machine = some addr)
    (hbook : addr ∉ machine.addresses.keys) : machine.NeedsOwner := by
  intro state hjobs
  have haddr := myAddr_of_appointed h
  simp only [appointed?, haddr, show machine.jobs = some state from hjobs,
    Option.ite_none_right_eq_some] at h
  obtain ⟨hstale, hmin⟩ := Bool.and_eq_true_iff.mp h.1
  refine ⟨of_decide_eq_true hstale, ?_⟩
  cases hkeys : machine.addresses.keys.min? with
  | none => exact List.min?_eq_none_iff.mp hkeys
  | some lowest =>
      rw [hkeys] at hmin
      obtain rfl : lowest = addr := of_decide_eq_true hmin
      exact absurd (List.min?_mem hkeys) hbook

/-! ## Sound runs -/

/-- Every address a machine knows is one that was assigned. -/
structure Machine.Addressed (machine : Machine) : Prop where
  book : .unspecified ∉ machine.addresses.keys
  owner : machine.owner? ≠ some .unspecified

namespace Station

variable {station later : Station}

/-- The run is sound so far, and so is what the machine knows. -/
structure Clean (station : Station) : Prop where
  sound : station.Sound
  addressed : station.machine.Addressed

theorem clean_boot : boot.Clean := by
  refine ⟨⟨?_, ?_, ?_, ?_⟩, ⟨List.not_mem_nil, ?_⟩⟩
  · exact fun _ hstarted ↦ nomatch hstarted
  · exact fun _ howner ↦ nomatch howner
  · exact fun _ howner ↦ nomatch howner
  · exact fun _ howner ↦ nomatch howner
  · exact fun howner ↦ nomatch howner

/-- A machine that reads the address of an owner recognises it as its own. -/
theorem recognised_of_present {interface : Interface} {owner : Ipv4Addr}
    (h : interface = .present owner) {state : LedgerState} (howner : state.ledger.owner = owner) :
    state.isOwner (myIpaddr interface) = true := by
  rw [h]
  exact LedgerState.isOwner_some.mpr howner

/-- Reading the address that the machine has appointed keeps the run sound. -/
theorem Clean.read (h : station.Clean) {interface : Interface} (hstays : station.Stays interface) :
    Clean { station with readings := (interface, station.appointed) :: station.readings } := by
  refine ⟨⟨h.sound.started, h.sound.announced, h.sound.appointed, ?_⟩, h.addressed⟩
  intro reading hreading hassigned owner hmem state howner
  rcases List.mem_cons.mp hreading with rfl | hold
  · exact recognised_of_present (hstays hassigned owner hmem) howner
  · exact h.sound.recognised reading hold hassigned owner hmem state howner

theorem Clean.setMachine (h : station.Clean) {machine : Machine} (haddressed : machine.Addressed) :
    Clean { station with machine := machine } :=
  ⟨⟨h.sound.started, h.sound.announced, h.sound.appointed, h.sound.recognised⟩, haddressed⟩

/-- The owner a machine has appointed is the address it has read. -/
theorem present_of_appointed {interface : Interface} {owner : Ipv4Addr}
    (haddr : env.myAddr = myIpaddr interface) (h : appointed? env machine = some owner) :
    interface = .present owner := by
  have hread : myIpaddr interface = some owner := haddr.symm.trans (myAddr_of_appointed h)
  cases interface with
  | absent => cases hread
  | present addr => rw [Option.some.inj hread]

/-- A round that does not appoint an owner without an address names none. -/
theorem Clean.names (h : station.Clean) (hwith : appointed? env station.machine ≠ some .unspecified)
    {owner : Ipv4Addr} (hnamed : (manageLedger env station.machine).1.owner? = some owner ∨
      owner ∈ (manageLedger env station.machine).2.sent.filterMap Payload.owner?) :
    owner ≠ .unspecified := by
  rintro rfl
  cases hknown : env.myAddr with
  | none =>
      rw [manageLedger_of_unknown hknown] at hnamed
      rcases hnamed with howner | hsent
      · exact h.addressed.owner howner
      · cases hsent
  | some addr =>
      rcases (manageLedger_outcome hknown station.machine).names hknown hnamed with
        hnew | hold | hbook
      · exact hwith hnew
      · exact h.addressed.owner hold
      · exact h.addressed.book hbook

/-- A round that does not appoint an owner without an address keeps the run sound. -/
theorem Clean.tick (h : station.Clean) {interface : Interface}
    (haddr : env.myAddr = myIpaddr interface)
    (hneeds : interface = .present .unspecified → ¬ station.machine.NeedsOwner)
    (hstays : station.Stays interface) :
    Clean { station with
      readings := (interface, (appointed? env station.machine).toList ++ station.appointed) ::
        station.readings
      machine := (manageLedger env station.machine).1
      appointed := (appointed? env station.machine).toList ++ station.appointed
      announced := (manageLedger env station.machine).2.sent.filterMap Payload.owner? ++
        station.announced } := by
  have hwith : appointed? env station.machine ≠ some .unspecified := fun happointed ↦
    hneeds (present_of_appointed haddr happointed)
      (needsOwner_of_appointed happointed h.addressed.book)
  refine ⟨⟨h.sound.started, ?_, ?_, ?_⟩, ⟨?_, ?_⟩⟩
  · intro owner howner
    rcases List.mem_append.mp howner with hsent | hold
    · exact h.names hwith (.inr hsent)
    · exact h.sound.announced owner hold
  · intro owner howner
    rcases List.mem_append.mp howner with hnew | hold
    · rintro rfl
      exact hwith (Option.mem_toList.mp hnew)
    · exact h.sound.appointed owner hold
  · intro reading hreading hassigned owner hmem state howner
    rcases List.mem_cons.mp hreading with rfl | hold
    · apply recognised_of_present _ howner
      rcases List.mem_append.mp hmem with hnew | hearlier
      · exact present_of_appointed haddr (Option.mem_toList.mp hnew)
      · exact hstays hassigned owner hearlier
    · exact h.sound.recognised reading hold hassigned owner hmem state howner
  · obtain ⟨jobs, observed, hround⟩ := manageLedger_eq env station.machine
    rw [hround]
    exact h.addressed.book
  · exact fun howner ↦ h.names hwith (.inl howner) rfl

/-- A message of a machine with an address tells of machines with addresses. -/
theorem addressed_receiveMessage {sender : Ipv4Addr} {message : Message}
    (h : machine.Addressed) (hsender : sender ≠ .unspecified)
    (howner : message.payload.owner? ≠ some .unspecified) :
    (receiveMessage sender message machine).Addressed := by
  refine ⟨?_, ?_⟩
  · intro hmem
    rcases mem_keys_receiveMessage hmem with hself | hold
    · exact hsender hself.symm
    · exact h.book hold
  · by_cases hdropped : message.idempotency ∈ machine.history
    · rw [receiveMessage_of_mem hdropped]
      exact h.owner
    · rw [owner?_receiveMessage sender hdropped]
      cases hnamed : message.payload.owner? with
      | none => exact h.owner
      | some owner =>
          rw [hnamed] at howner
          exact howner

theorem Clean.poll (h : station.Clean) {interface : Interface}
    (hwith : interface ≠ .present .unspecified) :
    Clean { station with
      started := if (myIpaddr interface).isSome then some interface else none } := by
  refine ⟨⟨?_, h.sound.announced, h.sound.appointed, h.sound.recognised⟩, h.addressed⟩
  intro ended hended
  obtain ⟨hsome, hsame⟩ := Option.ite_none_right_eq_some.mp (Option.mem_def.mp hended)
  obtain rfl := Option.some.inj hsame
  cases interface with
  | absent => cases hsome
  | present addr => exact ⟨addr, rfl, fun hzero ↦ hwith (congrArg _ hzero)⟩

theorem Clean.step (h : station.Clean) {event : StationEvent} (hpeers : station.FromPeers event)
    (hwith : station.WithAddress event) (hstep : station.step event = some later) :
    later.Clean := by
  cases event with
  | poll interface =>
      obtain ⟨-, hlater⟩ := Option.ite_none_right_eq_some.mp hstep
      rw [← Option.some.inj hlater]
      exact h.poll hwith
  | tick interface env =>
      obtain ⟨-, hlater⟩ := Option.ite_none_left_eq_some.mp hstep
      rw [← Option.some.inj hlater]
      exact h.tick rfl hwith.1 hwith.2
  | upload guid interface =>
      obtain ⟨-, hlater⟩ := Option.ite_none_left_eq_some.mp hstep
      rw [← Option.some.inj hlater]
      obtain ⟨howner, hbook, -⟩ := appendToLedger_frame (myIpaddr interface) guid station.machine
      refine (h.read hwith).setMachine ⟨?_, ?_⟩
      · rw [hbook]
        exact h.addressed.book
      · rw [howner]
        exact h.addressed.owner
  | receive sender message =>
      obtain ⟨-, hlater⟩ := Option.ite_none_left_eq_some.mp hstep
      rw [← Option.some.inj hlater]
      exact h.setMachine (addressed_receiveMessage h.addressed hpeers.1 hpeers.2)
  | lifetimeCheck =>
      obtain ⟨-, hlater⟩ := Option.ite_none_left_eq_some.mp hstep
      rw [← Option.some.inj hlater]
      refine h.setMachine ⟨fun hmem ↦ ?_, h.addressed.owner⟩
      exact h.addressed.book (LinearMap.mem_keys_of_mem_keys_retain hmem)
  | elapse ticks =>
      rw [← Option.some.inj hstep]
      exact h.setMachine ⟨h.addressed.book, h.addressed.owner⟩

/-! ## Unsound runs -/

/-- The wait has ended without an address, an owner without an address has been appointed, or an
address has been read that is not the one of an owner appointed before. -/
def Violated (station : Station) : Prop :=
  station.started = some (.present .unspecified) ∨ .unspecified ∈ station.appointed ∨
    ∃ reading ∈ station.readings, reading.1.Assigned ∧
      ∃ owner ∈ reading.2, reading.1 ≠ .present owner

theorem Violated.not_sound (h : station.Violated) : ¬ station.Sound := by
  intro hsound
  rcases h with hstarted | happointed | ⟨reading, hreading, hassigned, owner, hmem, hne⟩
  · obtain ⟨addr, hsame, hassigned⟩ := hsound.started _ hstarted
    exact hassigned (Interface.present.inj hsame).symm
  · exact hsound.appointed _ happointed rfl
  · have hself := hsound.recognised reading hreading hassigned owner hmem ⟨⟨owner, .empty⟩, 0⟩ rfl
    obtain ⟨addr, hpresent, -⟩ := hassigned
    rw [hpresent] at hself hne
    exact hne (congrArg _ (LedgerState.isOwner_some.mp hself).symm)

/-- A machine that reads another address than that of an owner does not recognise it. -/
theorem violated_of_not_stays {interface : Interface} (h : ¬ station.Stays interface)
    {reading : Interface × List Ipv4Addr} (hreading : reading ∈ later.readings)
    (hinterface : reading.1 = interface) (howners : station.appointed ⊆ reading.2) :
    later.Violated := by
  obtain ⟨hassigned, howner⟩ := Classical.not_imp.mp h
  push Not at howner
  obtain ⟨owner, hmem, hne⟩ := howner
  subst hinterface
  exact .inr (.inr ⟨reading, hreading, hassigned, owner, howners hmem, hne⟩)

/-- None of these is undone. -/
theorem Violated.step (h : station.Violated) {event : StationEvent}
    (hstep : station.step event = some later) : later.Violated := by
  cases event with
  | poll interface =>
      obtain ⟨hwaiting, hlater⟩ := Option.ite_none_right_eq_some.mp hstep
      rw [← Option.some.inj hlater]
      rcases h with hstarted | hrest
      · cases hwaiting.symm.trans hstarted
      · exact .inr hrest
  | tick interface env =>
      obtain ⟨-, hlater⟩ := Option.ite_none_left_eq_some.mp hstep
      rw [← Option.some.inj hlater]
      rcases h with hstarted | happointed | ⟨reading, hreading, hrest⟩
      · exact .inl hstarted
      · exact .inr (.inl (List.mem_append_right _ happointed))
      · exact .inr (.inr ⟨reading, List.mem_cons_of_mem _ hreading, hrest⟩)
  | upload guid interface =>
      obtain ⟨-, hlater⟩ := Option.ite_none_left_eq_some.mp hstep
      rw [← Option.some.inj hlater]
      rcases h with hstarted | happointed | ⟨reading, hreading, hrest⟩
      · exact .inl hstarted
      · exact .inr (.inl happointed)
      · exact .inr (.inr ⟨reading, List.mem_cons_of_mem _ hreading, hrest⟩)
  | receive sender message =>
      obtain ⟨-, hlater⟩ := Option.ite_none_left_eq_some.mp hstep
      rw [← Option.some.inj hlater]
      exact h
  | lifetimeCheck =>
      obtain ⟨-, hlater⟩ := Option.ite_none_left_eq_some.mp hstep
      rw [← Option.some.inj hlater]
      exact h
  | elapse ticks =>
      rw [← Option.some.inj hstep]
      exact h

theorem violated_of_not_withAddress {event : StationEvent} (h : ¬ station.WithAddress event)
    (hstep : station.step event = some later) : later.Violated := by
  cases event with
  | poll interface =>
      obtain ⟨-, hlater⟩ := Option.ite_none_right_eq_some.mp hstep
      obtain rfl : interface = .present .unspecified := not_not.mp h
      rw [← Option.some.inj hlater]
      exact .inl rfl
  | tick interface env =>
      obtain ⟨-, hlater⟩ := Option.ite_none_left_eq_some.mp hstep
      rw [← Option.some.inj hlater]
      rcases not_and_or.mp h with hneeds | hmoves
      · obtain ⟨hunspecified, hneeds⟩ := Classical.not_imp.mp hneeds
        have haddr : myIpaddr interface = some .unspecified := by rw [hunspecified]; rfl
        have happointed := @appointed_of_needsOwner { env with myAddr := myIpaddr interface } _ _
          haddr (not_not.mp hneeds)
        exact .inr (.inl (List.mem_append_left _ (Option.mem_toList.mpr happointed)))
      · exact violated_of_not_stays hmoves List.mem_cons_self rfl (List.subset_append_right _ _)
  | upload guid interface =>
      obtain ⟨-, hlater⟩ := Option.ite_none_left_eq_some.mp hstep
      rw [← Option.some.inj hlater]
      exact violated_of_not_stays h List.mem_cons_self rfl (List.Subset.refl _)
  | receive sender message => exact absurd trivial h
  | lifetimeCheck => exact absurd trivial h
  | elapse ticks => exact absurd trivial h

/-- Every step of a run that does not end violated has been with an address. -/
theorem withAddress_of_not_violated {events : List StationEvent} {final : Station}
    (hrun : runIf Station.step FromPeers station events = some final)
    (hfinal : ¬ final.Violated) :
    runIf Station.step (fun station event ↦ station.FromPeers event ∧ station.WithAddress event)
      station events = some final := by
  induction events generalizing station with
  | nil => exact hrun
  | cons event events ih =>
      obtain ⟨hpeers, next, hnext, hrest⟩ := runIf_cons.mp hrun
      refine runIf_cons.mpr ⟨⟨hpeers, ?_⟩, next, hnext, ih hrest⟩
      by_contra hwith
      exact hfinal ((Reaches.of_runIf hrest).invariant Violated
        (violated_of_not_withAddress hwith hnext) fun _ _ _ hbefore _ hstep ↦ hbefore.step hstep)

/-- A run is sound exactly if no step of it takes an interface without an address for one that has
an address, and the address does not change once the machine has created or taken over a ledger. -/
theorem sound_iff_withAddress {events : List StationEvent} {final : Station}
    (hrun : runIf Station.step FromPeers boot events = some final) :
    final.Sound ↔
      runIf Station.step (fun station event ↦ station.FromPeers event ∧ station.WithAddress event)
        boot events = some final := by
  constructor
  · exact fun hsound ↦ withAddress_of_not_violated hrun fun hviolated ↦ hviolated.not_sound hsound
  · intro hwith
    have hclean : final.Clean := (Reaches.of_runIf hwith).invariant Clean clean_boot
      fun _ _ _ hbefore hguard hstep ↦ hbefore.step hguard.1 hguard.2 hstep
    exact hclean.sound

/-- A machine that gets its address after its first round. -/
def lateAddress : List StationEvent :=
  [.poll .absent, .poll (.present .unspecified),
    .tick (.present .unspecified) (System.printer System.alpha true),
    .tick (.present System.alpha) (System.printer System.alpha true)]

/-- It has created a ledger under no address, and does not recognise it under its address. -/
theorem not_sound_lateAddress :
    ∃ final, runIf Station.step Unrestricted boot lateAddress = some final ∧
      final.started = some (.present .unspecified) ∧ final.appointed = [.unspecified] ∧
      ¬ final.machine.Owns System.alpha ∧ ¬ final.Sound := by
  obtain ⟨final, hfinal, hstarted, happointed, hlost⟩ := exists_of_runIf Station.step Unrestricted
    boot lateAddress (fun final ↦ final.started = some (.present .unspecified) ∧
      final.appointed = [.unspecified] ∧ ¬ final.machine.Owns System.alpha) (by decide +kernel)
  exact ⟨final, hfinal, hstarted, happointed, hlost, Violated.not_sound (.inl hstarted)⟩

/-- A machine that gets its address before the wait ends. -/
def earlyAddress : List StationEvent :=
  [.poll .absent, .poll (.present System.alpha),
    .tick (.present System.alpha) (System.printer System.alpha true),
    .tick (.present System.alpha) (System.printer System.alpha true)]

theorem sound_iff_withAddress_earlyAddress :
    ∃ final, runIf Station.step FromPeers boot earlyAddress = some final ∧
      final.appointed = [System.alpha] ∧ final.Sound := by
  obtain ⟨final, hwith, happointed⟩ := exists_of_runIf Station.step
    (fun station event ↦ station.FromPeers event ∧ station.WithAddress event) boot earlyAddress
    (fun final ↦ final.appointed = [System.alpha]) (by decide +kernel)
  have hfinal := runIf_imp (fun station event hguard ↦ hguard.1) hwith
  exact ⟨final, hfinal, happointed, (sound_iff_withAddress hfinal).mpr hwith⟩

end Station

end Derusting
