import Derusting.Ring.WellFormed

/-!
# Taking over a stuck ledger

When the owner of a ledger has left the network, the other machines see its ledger age.  After 45
seconds a round of `manage_ledger` compares the machine's own address with the lowest one of its
address book.  A machine never hears its own broadcasts, so its own address is not in its book: the
comparison fails on every machine that knows another one, and the ledger is only taken over by a
machine that is left alone.
-/

namespace Derusting.System

open Foundations.Bounded Foundations.Transition

variable {ring : Finset Ipv4Addr} {system after : System} {event : Event} {events : List Event}
  {addr : Ipv4Addr}

/-- Every machine of the ring knows exactly the others and holds a ledger that names nobody of the
ring and was last received more than 45 seconds ago. -/
structure Stuck (ring : Finset Ipv4Addr) (system : System) : Prop where
  book : ∀ addr ∈ ring, ∀ other,
    other ∈ (system.machines addr).addresses.keys ↔ other ∈ ring ∧ other ≠ addr
  stale : ∀ addr ∈ ring, ∃ state, (system.machines addr).jobs = some state ∧
    state.ledger.owner ∉ ring ∧ (system.machines addr).clock - state.received > fromSecs 45

/-- The machine whose `manage_ledger` runs a round in the event. -/
def ticking (event : Event) : Option Ipv4Addr :=
  match event.action with
  | .tick _ _ _ => some event.addr
  | _ => none

/-- The event neither delivers a message nor purges an address book. -/
def Silent (event : Event) : Prop :=
  match event.action with
  | .deliver _ | .lifetimeCheck => False
  | _ => True

/-- Every machine of the ring runs one round, in some order, and no message is exchanged. -/
structure OneRound (ring : Finset Ipv4Addr) (events : List Event) : Prop where
  silent : ∀ event ∈ events, Silent event
  rounds : (events.filterMap ticking).Perm ring.toList

/-- Exactly one machine of the ring, the one with the lowest address, names itself as owner. -/
def TakenOver (ring : Finset Ipv4Addr) (system : System) : Prop :=
  ∃ lowest ∈ ring, (∀ other ∈ ring, lowest ≤ other) ∧
    ∀ addr ∈ ring, (system.machines addr).Owns addr ↔ addr = lowest

/-! ## One machine before and after its round -/

/-- The machine holds a stale ledger of somebody else. -/
def Overdue (addr : Ipv4Addr) (machine : Machine) : Prop :=
  ∃ state, machine.jobs = some state ∧ state.ledger.owner ≠ addr ∧
    machine.clock - state.received > fromSecs 45

/-- The machine has become owner exactly if it knows nobody. -/
def Settled (addr : Ipv4Addr) (machine : Machine) : Prop :=
  machine.jobs ≠ none ∧ (machine.Owns addr ↔ machine.addresses.keys = [])

/-- On a machine that is not in its own book, a stale ledger is taken over exactly if the book is
empty. -/
theorem takesOver_iff {machine : Machine} {state : LedgerState}
    (hbook : addr ∉ machine.addresses.keys)
    (hstale : machine.clock - state.received > fromSecs 45) :
    takesOver addr machine.addresses machine.clock state = true ↔ machine.addresses.keys = [] := by
  rw [takesOver, decide_eq_true hstale, Bool.true_and]
  cases hmin : machine.addresses.keys.min? with
  | none => exact iff_of_true rfl (List.min?_eq_none_iff.mp hmin)
  | some lowest =>
      have hmem : lowest ∈ machine.addresses.keys := List.min?_mem hmin
      have hne : lowest ≠ addr := fun hself ↦ hbook (hself ▸ hmem)
      apply iff_of_false
      · rwa [decide_eq_true_eq]
      · exact List.ne_nil_of_mem hmem

theorem owner_staleTakeover_iff {machine : Machine} {state : LedgerState}
    (hbook : addr ∉ machine.addresses.keys) (howner : state.ledger.owner ≠ addr)
    (hstale : machine.clock - state.received > fromSecs 45) :
    (staleTakeover addr machine.addresses machine.clock state).ledger.owner = addr ↔
      machine.addresses.keys = [] := by
  rw [← takesOver_iff hbook hstale, staleTakeover]
  split
  next htakes => exact iff_of_true rfl htakes
  next hkeeps => exact iff_of_false howner hkeeps

/-- The round settles the matter. -/
theorem Overdue.settled {env : TickEnv} {machine later : Machine} {output : TickOutput}
    (h : Overdue addr machine) (hbook : addr ∉ machine.addresses.keys)
    (hround : TickOutcome env addr machine later output) : Settled addr later := by
  obtain ⟨state, hjobs, howner, hstale⟩ := h
  have htakes := owner_staleTakeover_iff hbook howner hstale
  cases hround with
  | created hnone => cases hjobs.symm.trans hnone
  | waited hbefore htaken _ =>
      obtain rfl := Option.some.inj (hjobs.symm.trans hbefore)
      subst htaken
      refine ⟨Option.some_ne_none _, ?_⟩
      rw [Machine.owns_iff rfl]
      exact htakes
  | kept hbefore htaken howns _ hmade halone =>
      refine ⟨Option.some_ne_none _, ?_⟩
      rw [Machine.owns_iff rfl, owner_of_manufactured hmade]
      exact iff_of_true howns halone
  | passed hbefore htaken howns _ _ _ hmem =>
      obtain rfl := Option.some.inj (hjobs.symm.trans hbefore)
      rw [htaken, htakes] at howns
      rw [howns] at hmem
      cases hmem

/-- What a silent event leaves alone on a machine that is not running its round. -/
structure Aged (machine later : Machine) : Prop where
  addresses : later.addresses = machine.addresses
  clock : machine.clock ≤ later.clock
  jobs : later.jobs.map (fun state ↦ (state.ledger.owner, state.received)) =
    machine.jobs.map fun state ↦ (state.ledger.owner, state.received)

theorem Aged.refl (machine : Machine) : Aged machine machine := ⟨rfl, le_rfl, rfl⟩

theorem Aged.owns_iff {machine later : Machine} (h : Aged machine later) :
    later.Owns addr ↔ machine.Owns addr := by
  have howner : later.owner? = machine.owner? := by
    simpa [Machine.owner?, Function.comp_def] using congrArg (Option.map Prod.fst) h.jobs
  rw [Machine.owns_iff_owner?, Machine.owns_iff_owner?, howner]

theorem Aged.overdue {machine later : Machine} (h : Aged machine later)
    (hoverdue : Overdue addr machine) : Overdue addr later := by
  obtain ⟨state, hjobs, howner, hstale⟩ := hoverdue
  have hlater := h.jobs
  rw [hjobs, Option.map_some, Option.map_eq_some_iff] at hlater
  obtain ⟨current, hcurrent, hsame⟩ := hlater
  obtain ⟨hsameOwner, hsameReceived⟩ := Prod.mk.inj hsame
  refine ⟨current, hcurrent, hsameOwner.trans_ne howner, ?_⟩
  rw [hsameReceived]
  exact hstale.trans_le (Nat.sub_le_sub_right h.clock _)

theorem Aged.settled {machine later : Machine} (h : Aged machine later)
    (hsettled : Settled addr machine) : Settled addr later := by
  refine ⟨?_, ?_⟩
  · have hjobs := h.jobs
    intro hnone
    rw [hnone, Option.map_none, eq_comm, Option.map_eq_none_iff] at hjobs
    exact hsettled.1 hjobs
  · rw [h.owns_iff, h.addresses]
    exact hsettled.2

/-- A silent event either is the machine's round or just lets it age. -/
theorem aged_or_round (hsilent : Silent event) (hstep : system.step ring event = some after)
    (addr : Ipv4Addr) :
    (ticking event ≠ some addr ∧ Aged (system.machines addr) (after.machines addr)) ∨
      ticking event = some addr ∧ ∃ env output,
        TickOutcome env addr (system.machines addr) (after.machines addr) output := by
  obtain ⟨-, -, -, outcome, hacts, rfl⟩ := exists_of_step hstep
  obtain ⟨actor, action⟩ := event
  by_cases hself : addr = actor
  · subst hself
    simp only [machines_commit_self]
    cases hacts with
    | ticked houtcome => exact .inr ⟨rfl, _, _, houtcome⟩
    | filed hjobs _ _ =>
        refine .inl ⟨nofun, rfl, le_rfl, ?_⟩
        rw [hjobs]
        rfl
    | alerted _ => exact .inl ⟨nofun, .refl _⟩
    | unfiled _ => exact .inl ⟨nofun, .refl _⟩
    | delivered _ _ => exact hsilent.elim
    | greeted => exact .inl ⟨nofun, .refl _⟩
    | logged => exact .inl ⟨nofun, .refl _⟩
    | purged => exact hsilent.elim
    | elapsed => exact .inl ⟨nofun, rfl, Nat.le_add_right _ _, rfl⟩
  · have hother : ticking ⟨actor, action⟩ ≠ some addr := by
      cases action <;> simp [ticking, Ne.symm hself]
    rw [machines_commit_of_ne hself]
    exact .inl ⟨hother, .refl _⟩

/-! ## The round of the whole ring -/

/-- A machine that has settled stays so while it runs no further round. -/
theorem settled_of_run (hsilent : ∀ event ∈ events, Silent event)
    (hrun : runIf (step ring) Unrestricted system events = some after)
    (hnone : addr ∉ events.filterMap ticking) (h : Settled addr (system.machines addr)) :
    Settled addr (after.machines addr) ∧
      (after.machines addr).addresses = (system.machines addr).addresses := by
  induction events generalizing system with
  | nil =>
      obtain rfl := Option.some.inj hrun
      exact ⟨h, rfl⟩
  | cons event events ih =>
      obtain ⟨-, next, hstep, hrest⟩ := runIf_cons.mp hrun
      rcases aged_or_round (hsilent event List.mem_cons_self) hstep addr with
        ⟨hother, haged⟩ | ⟨hself, -⟩
      · have hremain : addr ∉ events.filterMap ticking := fun hmem ↦ hnone <| by
          rw [List.filterMap_cons]
          split
          · exact hmem
          · exact List.mem_cons_of_mem _ hmem
        obtain ⟨hsettled, hbook⟩ := ih (fun other hmem ↦ hsilent other (List.mem_cons_of_mem _ hmem))
          hrest hremain (haged.settled h)
        exact ⟨hsettled, hbook.trans haged.addresses⟩
      · exact absurd (List.mem_filterMap.mpr ⟨event, List.mem_cons_self, hself⟩) hnone

/-- A machine with a stale ledger has settled once it has run its round. -/
theorem settled_of_overdue (hsilent : ∀ event ∈ events, Silent event)
    (hrun : runIf (step ring) Unrestricted system events = some after)
    (honce : (events.filterMap ticking).count addr = 1)
    (hbook : addr ∉ (system.machines addr).addresses.keys)
    (h : Overdue addr (system.machines addr)) :
    Settled addr (after.machines addr) ∧
      (after.machines addr).addresses = (system.machines addr).addresses := by
  induction events generalizing system with
  | nil => cases honce
  | cons event events ih =>
      obtain ⟨-, next, hstep, hrest⟩ := runIf_cons.mp hrun
      have hsilent' (other : Event) (hmem : other ∈ events) : Silent other :=
        hsilent other (List.mem_cons_of_mem _ hmem)
      rcases aged_or_round (hsilent event List.mem_cons_self) hstep addr with
        ⟨hother, haged⟩ | ⟨hself, env, output, hround⟩
      · have hcount : (events.filterMap ticking).count addr = 1 := by
          rw [← honce, List.filterMap_cons]
          split
          · rfl
          next actor hactor =>
            have hne : actor ≠ addr := fun hsame ↦ hother (hsame ▸ hactor)
            rw [List.count_cons_of_ne hne]
        obtain ⟨hsettled, hsame⟩ := ih hsilent' hrest hcount (by rwa [haged.addresses])
          (haged.overdue h)
        exact ⟨hsettled, hsame.trans haged.addresses⟩
      · have hnone : addr ∉ events.filterMap ticking := by
          rw [List.filterMap_cons_some hself, List.count_cons_self] at honce
          exact List.count_eq_zero.mp (Nat.succ.inj honce)
        obtain ⟨hsettled, hsame⟩ :=
          settled_of_run hsilent' hrest hnone (h.settled hbook hround)
        exact ⟨hsettled, hsame.trans hround.frame.1⟩

/-- After the round a machine of a stuck ring owns the ledger exactly if it is the only one. -/
theorem owns_iff_alone (hstuck : Stuck ring system) (hround : OneRound ring events)
    (hrun : runIf (step ring) Unrestricted system events = some after) (haddr : addr ∈ ring) :
    (after.machines addr).Owns addr ↔ ring = {addr} := by
  have hbook : addr ∉ (system.machines addr).addresses.keys := fun hmem ↦
    ((hstuck.book addr haddr addr).mp hmem).2 rfl
  obtain ⟨state, hjobs, howner, hstale⟩ := hstuck.stale addr haddr
  have hoverdue : Overdue addr (system.machines addr) :=
    ⟨state, hjobs, fun hself ↦ howner (hself ▸ haddr), hstale⟩
  have honce : (events.filterMap ticking).count addr = 1 := by
    rw [hround.rounds.count_eq]
    exact List.count_eq_one_of_mem ring.nodup_toList (Finset.mem_toList.mpr haddr)
  obtain ⟨⟨-, howns⟩, hsame⟩ := settled_of_overdue hround.silent hrun honce hbook hoverdue
  rw [howns, hsame, List.eq_nil_iff_forall_not_mem, Finset.eq_singleton_iff_unique_mem]
  simp only [hstuck.book addr haddr, not_and_not_right, haddr, true_and]

/-- After a round of every machine of a stuck ring, exactly one machine, the one with the lowest
address, names itself as owner if and only if the ring has a single machine. -/
theorem taken_over_iff (ring : Finset Ipv4Addr) (system after : System) (events : List Event)
    (hstuck : Stuck ring system) (hround : OneRound ring events)
    (hrun : runIf (step ring) Unrestricted system events = some after) :
    TakenOver ring after ↔ ring.card = 1 := by
  rw [Finset.card_eq_one]
  constructor
  · rintro ⟨lowest, hlowest, -, howner⟩
    have howns : (after.machines lowest).Owns lowest := (howner lowest hlowest).mpr rfl
    exact ⟨lowest, (owns_iff_alone hstuck hround hrun hlowest).mp howns⟩
  · rintro ⟨alone, rfl⟩
    have halone := Finset.mem_singleton_self alone
    refine ⟨alone, halone, fun other hother ↦ (Finset.mem_singleton.mp hother).ge, ?_⟩
    intro addr haddr
    obtain rfl := Finset.mem_singleton.mp haddr
    exact iff_of_true ((owns_iff_alone hstuck hround hrun haddr).mpr rfl) rfl

/-! ## Survivors of a dead owner -/

/-- A machine 46 seconds after `gamma`'s ledger has reached it, with the given others in its
book. -/
def survivor (others : List Ipv4Addr) : Machine :=
  { Machine.boot with
    addresses := others.foldl (fun book other ↦ book.insert other 40000) .empty
    jobs := some ⟨⟨gamma, .empty⟩, 0⟩
    clock := 46000 }

/-- `alpha` is the only survivor. -/
def lonely : System := { boot with machines := fun _ ↦ survivor [] }

/-- `alpha` and `beta` survive and know each other. -/
def bereft : System :=
  { boot with machines := fun addr ↦ survivor ([alpha, beta].filter (· ≠ addr)) }

def lonelyRound : List Event := [⟨alpha, .tick (printer alpha false) ⟨1⟩ ⟨2⟩⟩]

def bereftRound : List Event :=
  [⟨alpha, .tick (printer alpha false) ⟨1⟩ ⟨2⟩⟩, ⟨beta, .tick (printer beta false) ⟨3⟩ ⟨4⟩⟩]

theorem stuck_lonely : Stuck {alpha} lonely where
  book := by
    intro addr haddr other
    obtain rfl := Finset.mem_singleton.mp haddr
    have hempty : (lonely.machines alpha).addresses.keys = [] := rfl
    simp [hempty]
  stale := by
    intro addr haddr
    obtain rfl := Finset.mem_singleton.mp haddr
    exact ⟨_, rfl, by decide, by decide⟩

theorem stuck_bereft : Stuck {alpha, beta} bereft where
  book := by
    intro addr haddr other
    rw [Finset.mem_insert, Finset.mem_singleton] at haddr
    rcases haddr with rfl | rfl
    · have hbook : (bereft.machines alpha).addresses.keys = [beta] := by decide
      have hne : beta ≠ alpha := by decide
      simp only [hbook, List.mem_singleton, Finset.mem_insert, Finset.mem_singleton]
      constructor
      · rintro rfl
        exact ⟨.inr rfl, hne⟩
      · rintro ⟨hmem, hother⟩
        exact hmem.resolve_left hother
    · have hbook : (bereft.machines beta).addresses.keys = [alpha] := by decide
      have hne : alpha ≠ beta := by decide
      simp only [hbook, List.mem_singleton, Finset.mem_insert, Finset.mem_singleton]
      constructor
      · rintro rfl
        exact ⟨.inl rfl, hne⟩
      · rintro ⟨hmem, hother⟩
        exact hmem.resolve_right hother
  stale := by
    intro addr _
    have hlate : 46000 - 0 > fromSecs 45 := by decide
    exact ⟨_, rfl, by decide, hlate⟩

theorem oneRound_lonely : OneRound {alpha} lonelyRound where
  silent := by simp [lonelyRound, Silent]
  rounds := by
    rw [Finset.toList_singleton]
    exact .refl _

theorem oneRound_bereft : OneRound {alpha, beta} bereftRound where
  silent := by simp [bereftRound, Silent]
  rounds := by
    have hne : alpha ∉ ({beta} : Finset Ipv4Addr) := by decide
    have hsorted := Finset.toList_insert hne
    rw [Finset.toList_singleton] at hsorted
    exact hsorted.symm

theorem taken_over_after_lonely_round :
    ∃ after, runIf (step {alpha}) Unrestricted lonely lonelyRound = some after ∧
      TakenOver {alpha} after := by
  obtain ⟨after, hrun⟩ : ∃ after, runIf (step {alpha}) Unrestricted lonely lonelyRound =
      some after := Option.isSome_iff_exists.mp (by decide +kernel)
  exact ⟨after, hrun, (taken_over_iff {alpha} lonely after lonelyRound stuck_lonely oneRound_lonely
    hrun).mpr rfl⟩

/-- Two survivors wait for each other: neither finds its own address in its book. -/
theorem nobody_takes_over_after_bereft_round :
    Stuck {alpha, beta} bereft ∧ OneRound {alpha, beta} bereftRound ∧
      ∃ after, runIf (step {alpha, beta}) Unrestricted bereft bereftRound = some after ∧
        (∀ addr ∈ ({alpha, beta} : Finset Ipv4Addr), ¬ (after.machines addr).Owns addr) ∧
        ¬ TakenOver {alpha, beta} after := by
  obtain ⟨after, hrun⟩ : ∃ after, runIf (step {alpha, beta}) Unrestricted bereft bereftRound =
      some after := Option.isSome_iff_exists.mp (by decide +kernel)
  have hnobody : ∀ addr ∈ ({alpha, beta} : Finset Ipv4Addr), ¬ (after.machines addr).Owns addr := by
    intro addr haddr howns
    have halone := (owns_iff_alone stuck_bereft oneRound_bereft hrun haddr).mp howns
    have htwo : ({alpha, beta} : Finset Ipv4Addr).card = 2 := rfl
    rw [halone, Finset.card_singleton] at htwo
    cases htwo
  refine ⟨stuck_bereft, oneRound_bereft, after, hrun, hnobody, ?_⟩
  rintro ⟨lowest, hlowest, -, howner⟩
  exact hnobody lowest hlowest ((howner lowest hlowest).mpr rfl)

end Derusting.System
