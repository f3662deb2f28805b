import Derusting.Ring.Succession
import Derusting.Ring.Token
import Mathlib.Data.List.Iterate

/-!
# Taking turns

`ring_visits_everyone` follows the pass step from machine to machine.  In a run the ledger travels by
broadcasts, which every machine takes in on its own, while jobs are printed and books change.  As
long as one machine creates the ledger, ledgers are taken in in order and whoever passes the ledger
on has all the others in its book, the owners named by the broadcasts follow each other around the
ring, so that of any round of turns each machine has exactly one; and jobs are printed in turn.
-/

namespace Derusting

open Foundations.Bounded Foundations.Cyclic Foundations.Transition

/-- A machine whose book lists all the others passes the ledger to its cyclic successor. -/
theorem Subnet.nextOwner_eq_pass (subnet : Subnet) {addr : Ipv4Addr} {keys : List Ipv4Addr}
    (haddr : addr ∈ subnet.machines) (hkeys : keys.toFinset = subnet.machines.erase addr) :
    nextOwner addr keys = some (subnet.pass addr) := by
  have hbook (other : Ipv4Addr) : other ∈ keys ↔ other ∈ subnet.machines ∧ other ≠ addr := by
    rw [← List.mem_toFinset, hkeys, Finset.mem_erase, and_comm]
  let renewed : Subnet := { subnet with
    books := Function.update subnet.books addr keys
    mem_books := by
      intro member hmember other
      by_cases hself : member = addr
      · subst hself
        rw [Function.update_self]
        exact hbook other
      · rw [Function.update_of_ne hself]
        exact subnet.mem_books member hmember other }
  have hnext := renewed.nextOwner_eq haddr
  have hbooks : renewed.books addr = keys := Function.update_self ..
  rw [hbooks] at hnext
  rw [hnext]
  -- both are successors in the same ring
  have hone := renewed.isSuccessor_pass haddr
  have hother := subnet.isSuccessor_pass haddr
  congr 1
  apply rank_injOn subnet.octet_injOn hone.1 hother.1
  rw [hone.rank_eq subnet.octet_injOn haddr, hother.rank_eq subnet.octet_injOn haddr]

namespace System

variable {ring : Finset Ipv4Addr} {system after : System} {addr : Ipv4Addr} {outcome : Outcome}
  {ids : List Uuid} {initial : Option Ipv4Addr}

/-- The owners named by the ledger broadcasts, in the order in which these were sent. -/
def turns (system : System) : List Ipv4Addr :=
  system.sent.filterMap fun envelope ↦ envelope.message.payload.owner?

/-- Ledgers are taken in in order, a ledger is created only before there is one, and the owner has
all other machines in its book when it comes to act. -/
def InTurn (ring : Finset Ipv4Addr) (system : System) (event : Event) : Prop :=
  InOrder system event ∧
    match event.action with
    | .tick _ _ _ =>
        ((system.machines event.addr).jobs = none → system.turns = []) ∧
          ((system.machines event.addr).Owns event.addr →
            (system.machines event.addr).observedOwnership = true →
              (system.machines event.addr).addresses.keys.toFinset = ring.erase event.addr)
    | _ => True

instance (ring : Finset Ipv4Addr) (system : System) :
    (event : Event) → Decidable (InTurn ring system event)
  | ⟨addr, .tick env logKey ledgerKey⟩ => inferInstanceAs (Decidable
      (InOrder system ⟨addr, .tick env logKey ledgerKey⟩ ∧
        ((system.machines addr).jobs = none → system.turns = []) ∧
          ((system.machines addr).Owns addr → (system.machines addr).observedOwnership = true →
            (system.machines addr).addresses.keys.toFinset = ring.erase addr)))
  | ⟨addr, .upload guid key⟩ =>
      inferInstanceAs (Decidable (InOrder system ⟨addr, .upload guid key⟩ ∧ True))
  | ⟨addr, .deliver index⟩ =>
      inferInstanceAs (Decidable (InOrder system ⟨addr, .deliver index⟩ ∧ True))
  | ⟨addr, .heartbeat key⟩ =>
      inferInstanceAs (Decidable (InOrder system ⟨addr, .heartbeat key⟩ ∧ True))
  | ⟨addr, .log text key⟩ =>
      inferInstanceAs (Decidable (InOrder system ⟨addr, .log text key⟩ ∧ True))
  | ⟨addr, .lifetimeCheck⟩ =>
      inferInstanceAs (Decidable (InOrder system ⟨addr, .lifetimeCheck⟩ ∧ True))
  | ⟨addr, .elapse ticks⟩ =>
      inferInstanceAs (Decidable (InOrder system ⟨addr, .elapse ticks⟩ ∧ True))

/-- Each ledger was sent by the machine that the ledger before it names. -/
def Chained (system : System) : Prop :=
  ∀ index : ℕ, ∀ envelope ∈ system.sent[index]?, envelope.message.payload.owner? ≠ none →
    ∀ owner ∈ lastOwner none (system.sent.take index), owner = envelope.src

/-- The last turn is that of the owner after all broadcasts. -/
theorem getLast?_turns (system : System) : system.turns.getLast? = lastOwner none system.sent := by
  unfold turns
  induction system.sent using List.reverseRecOn with
  | nil => rfl
  | append_singleton sent envelope ih =>
      rw [List.filterMap_append, lastOwner_append, ← ih]
      cases howner : envelope.message.payload.owner? with
      | none => simp [lastOwner, howner]
      | some owner => simp [lastOwner, howner]

/-- A machine that names itself is the one the last ledger names: the first ledger beyond its copy
would have been sent by the machine itself. -/
theorem Follows.last_of_owns (h : Follows none system addr) (hchained : system.Chained)
    (howns : (system.machines addr).Owns addr) : lastOwner none system.sent = some addr := by
  obtain ⟨count, hcopy⟩ := h
  have howner : lastOwner none (system.sent.take count) = some addr :=
    hcopy.owner_eq.symm.trans (Machine.owns_iff_owner?.mp howns)
  have hsilent : ∀ index, count ≤ index → ¬ system.IsLedger index := by
    classical
    intro index hge hledger
    have hexists : ∃ position, count ≤ position ∧ system.IsLedger position := ⟨index, hge, hledger⟩
    obtain ⟨hfirst, hfirstLedger⟩ := Nat.find_spec hexists
    have hbetween := lastOwner_take_eq none hfirst fun position hle hlt hmid ↦
      Nat.find_min hexists hlt ⟨hle, hmid⟩
    obtain ⟨envelope, henvelope, hne⟩ := id hfirstLedger
    have hsrc := hchained _ envelope henvelope hne addr (hbetween.trans howner)
    exact hcopy.later _ hfirst hfirstLedger (.inl ⟨envelope, henvelope, hsrc.symm⟩)
  have hall := lastOwner_take_eq none hcopy.count_le fun position hle _ ↦ hsilent position hle
  rwa [List.take_length, howner] at hall

theorem turns_commit : (system.commit addr ids outcome).turns =
    system.turns ++ outcome.sent.filterMap fun message ↦ message.payload.owner? := by
  rw [turns, commit, List.filterMap_append, List.filterMap_map]
  rfl

/-! ## What an action does in turn -/

/-- The action moves no ledger and prints nothing; or it ends with a ledger broadcast, by a machine
that creates the ledger or by the one whose turn it is, which passes the ledger on. -/
inductive TakesTurn (subnet : Subnet) (system : System) (addr : Ipv4Addr) (outcome : Outcome) : Prop
  | silent (hsent : ∀ message ∈ outcome.sent, message.payload.owner? = none)
      (haccepted : outcome.accepted = none)
  | created (message : Message) (hfirst : system.turns = []) (hsent : outcome.sent = [message])
      (hnamed : message.payload.owner? = some addr) (haccepted : outcome.accepted = none)
  | passed (earlier : List Message) (message : Message) (howns : (system.machines addr).Owns addr)
      (hsent : outcome.sent = earlier ++ [message])
      (hearlier : ∀ message ∈ earlier, message.payload.owner? = none)
      (hnamed : message.payload.owner? = some (subnet.pass addr))

/-- In order nobody becomes owner by a takeover. -/
theorem owns_of_staleTakeover {env : TickEnv} {logKey ledgerKey : Uuid} {before : LedgerState}
    (hguard : InOrder system ⟨addr, .tick env logKey ledgerKey⟩)
    (hjobs : (system.machines addr).jobs = some before)
    (howner : (staleTakeover addr (system.machines addr).addresses (system.machines addr).clock
      before).ledger.owner = addr) : (system.machines addr).Owns addr := by
  cases htakes : takesOver addr (system.machines addr).addresses (system.machines addr).clock
      before with
  | false =>
      rw [staleTakeover_of_not htakes] at howner
      exact ⟨before, hjobs, howner⟩
  | true => exact ⟨before, hjobs, hguard before hjobs htakes⟩

theorem takesTurn_of_acts (subnet : Subnet) {action : Action} (haddr : addr ∈ subnet.machines)
    (hguard : InTurn subnet.machines system ⟨addr, action⟩) (hacts : Acts system addr action outcome) :
    TakesTurn subnet system addr outcome := by
  cases hacts with
  | filed _ _ _ => exact .silent (by simp) rfl
  | alerted _ => exact .silent (by simp [Payload.owner?]) rfl
  | unfiled _ => exact .silent (by simp) rfl
  | delivered _ _ => exact .silent (by simp) rfl
  | greeted => exact .silent (by simp [Payload.owner?]) rfl
  | logged => exact .silent (by simp [Payload.owner?]) rfl
  | purged => exact .silent (by simp) rfl
  | elapsed => exact .silent (by simp) rfl
  | @ticked env logKey ledgerKey machine output houtcome =>
      obtain ⟨horder, hcreates, hbook⟩ := hguard
      cases houtcome with
      | created hjobs =>
          exact .created ⟨ledgerKey, .ledger ⟨addr, .empty⟩⟩ (hcreates hjobs) rfl rfl rfl
      | waited _ _ _ => exact .silent (by simp [TickOutput.quiet]) rfl
      | kept hjobs htaken howner hobserved hmade halone =>
          have hall := hbook (owns_of_staleTakeover horder hjobs (htaken ▸ howner)) hobserved
          obtain ⟨other, hother, hne⟩ := Finset.exists_mem_ne subnet.two_le_card addr
          rw [halone] at hall
          exact absurd (hall ▸ Finset.mem_erase.mpr ⟨hne, hother⟩) (List.not_mem_nil)
      | @passed state before made printed next hjobs htaken howner hobserved hmade hnext _ =>
          have howns := owns_of_staleTakeover horder hjobs (htaken ▸ howner)
          have hpass := subnet.nextOwner_eq_pass haddr (hbook howns hobserved)
          obtain rfl := Option.some.inj (hnext.symm.trans hpass)
          refine .passed (printed.sent.map (stamp logKey ledgerKey))
            ⟨ledgerKey, .ledger { made.ledger with owner := subnet.pass addr }⟩ howns ?_ ?_ rfl
          · simp [TickOutput.send, stamp]
          · intro message hmessage
            cases hmade with
            | nothing => cases hmessage
            | accepted guid _ _ _ _ =>
                rw [List.mem_singleton.mp hmessage]
                rfl

/-! ## Runs -/

/-- The turns so far go around the ring, and the jobs accepted were accepted by the machines whose
turns they were, except the last. -/
structure Rotating (subnet : Subnet) (system : System) : Prop where
  inStep : InStep subnet.machines none system
  chained : system.Chained
  turns : system.turns ≠ [] → ∃ creator ∈ subnet.machines,
    system.turns = List.iterate subnet.pass creator system.turns.length
  accepted : (system.accepted.map Prod.fst).Sublist system.turns.dropLast

theorem rotating_boot (subnet : Subnet) : Rotating subnet boot where
  inStep := by
    refine ⟨.boot subnet.machines, fun addr _ ↦ ⟨0, Nat.zero_le _, rfl, .inl rfl, ?_⟩⟩
    simp [IsLedger, boot]
  chained := by simp [Chained, boot]
  turns := by simp [System.turns, boot]
  accepted := by simp [boot]

/-- A ledger broadcast is chained to the one before it. -/
theorem Chained.commit {earlier : List Message} {last : Message} (h : system.Chained)
    (hsent : outcome.sent = earlier ++ [last])
    (hearlier : ∀ message ∈ earlier, message.payload.owner? = none)
    (hturn : ∀ owner ∈ lastOwner none system.sent, owner = addr) :
    (system.commit addr ids outcome).Chained := by
  intro index envelope henvelope hne owner howner
  rcases mem_sent_commit henvelope with hold | ⟨hge, hsrc, -⟩
  · rw [take_sent_commit (List.getElem?_eq_some_iff.mp hold).1.le] at howner
    exact h index envelope hold hne owner howner
  · rw [hsrc]
    apply hturn
    have hlt := (List.getElem?_eq_some_iff.mp henvelope).1
    rw [sent_commit_concat hsent, List.length_append, List.length_singleton] at hlt
    rw [sent_commit_concat hsent, List.take_append_of_le_length (Nat.le_of_lt_succ hlt),
      List.take_append, List.take_of_length_le hge, lastOwner_append] at howner
    rwa [lastOwner_of_silent] at howner
    intro other hother
    obtain ⟨message, hmessage, rfl⟩ := List.mem_map.mp (List.mem_of_mem_take hother)
    exact hearlier message hmessage

theorem Chained.commit_silent (h : system.Chained)
    (hsilent : ∀ message ∈ outcome.sent, message.payload.owner? = none) :
    (system.commit addr ids outcome).Chained := by
  intro index envelope henvelope hne owner howner
  rcases mem_sent_commit henvelope with hold | ⟨-, -, hmem⟩
  · rw [take_sent_commit (List.getElem?_eq_some_iff.mp hold).1.le] at howner
    exact h index envelope hold hne owner howner
  · exact absurd (hsilent _ hmem) hne

/-- After a turn comes that of the machine it passes the ledger to. -/
theorem iterate_append_pass {pass : Ipv4Addr → Ipv4Addr} {creator : Ipv4Addr}
    {turns : List Ipv4Addr} (hturns : turns = List.iterate pass creator turns.length)
    (hlast : turns.getLast? = some addr) :
    turns ++ [pass addr] = List.iterate pass creator (turns.length + 1) := by
  have hpos : turns.length ≠ 0 := by
    intro hzero
    rw [List.length_eq_zero_iff.mp hzero] at hlast
    cases hlast
  obtain ⟨count, hcount⟩ := Nat.exists_eq_succ_of_ne_zero hpos
  have haddr : pass^[count] creator = addr := by
    rw [List.getLast?_eq_getElem?, hturns, List.length_iterate,
      List.getElem?_iterate _ _ _ _ (by omega), hcount] at hlast
    exact Option.some.inj hlast
  calc
    turns ++ [pass addr] = List.iterate pass creator turns.length ++
        List.iterate pass (pass^[turns.length] creator) 1 := by
      rw [← hturns, hcount, Function.iterate_succ_apply', haddr]
      rfl
    _ = List.iterate pass creator (turns.length + 1) := (List.iterate_add ..).symm

theorem Rotating.step {subnet : Subnet} (h : Rotating subnet system) {event : Event}
    (hguard : InTurn subnet.machines system event)
    (hstep : system.step subnet.machines event = some after) : Rotating subnet after := by
  have hinStep := h.inStep.step hguard.1 hstep
  obtain ⟨haddr, -, -, outcome, hacts, rfl⟩ := exists_of_step hstep
  have haccepted : ((system.commit event.addr event.action.ids outcome).accepted.map Prod.fst) =
      system.accepted.map Prod.fst ++ outcome.accepted.toList.map fun _ ↦ event.addr := by
    rw [commit, List.map_append, List.map_map]
    rfl
  cases takesTurn_of_acts subnet haddr hguard hacts with
  | silent hsent hnone =>
      have hturns : (system.commit event.addr event.action.ids outcome).turns = system.turns := by
        rw [turns_commit, List.filterMap_eq_nil_iff.mpr hsent, List.append_nil]
      refine ⟨hinStep, h.chained.commit_silent hsent, ?_, ?_⟩
      · rw [hturns]
        exact h.turns
      · rw [haccepted, hturns, hnone]
        simpa using h.accepted
  | created message hfirst hsent hnamed hnone =>
      have hturns : (system.commit event.addr event.action.ids outcome).turns = [event.addr] := by
        rw [turns_commit, hfirst, hsent]
        simp [hnamed]
      refine ⟨hinStep, ?_, ?_, ?_⟩
      · apply @Chained.commit _ _ _ _ [] message h.chained hsent (by simp)
        rw [← getLast?_turns, hfirst]
        simp
      · rw [hturns]
        exact fun _ ↦ ⟨event.addr, haddr, rfl⟩
      · have hbefore := h.accepted
        rw [hfirst] at hbefore
        rw [haccepted, hturns, hnone]
        simpa using hbefore
  | passed earlier message howns hsent hearlier hnamed =>
      have hlast := (h.inStep.follows _ haddr).last_of_owns h.chained howns
      have hturns : (system.commit event.addr event.action.ids outcome).turns =
          system.turns ++ [subnet.pass event.addr] := by
        rw [turns_commit, hsent, List.filterMap_append, List.filterMap_eq_nil_iff.mpr hearlier]
        simp [hnamed]
      refine ⟨hinStep, ?_, ?_, ?_⟩
      · apply h.chained.commit hsent hearlier
        rw [hlast]
        exact fun owner howner ↦ (Option.some.inj howner).symm
      · intro _
        rw [← getLast?_turns] at hlast
        obtain ⟨creator, hcreator, htour⟩ := h.turns (by
          intro hnil
          rw [hnil] at hlast
          cases hlast)
        refine ⟨creator, hcreator, ?_⟩
        rw [hturns, List.length_append, List.length_singleton]
        exact iterate_append_pass htour hlast
      · rw [← getLast?_turns] at hlast
        rw [haccepted, hturns, List.dropLast_concat]
        have hsplit : system.turns = system.turns.dropLast ++ [event.addr] :=
          (List.dropLast_append_getLast? _ hlast).symm
        rw [hsplit]
        refine h.accepted.append ?_
        cases outcome.accepted <;> simp

/-- In every run in turn the owners named by the ledger broadcasts are the machine that created the
ledger and its successors around the ring, of as many consecutive turns as there are machines each
machine has exactly one, and jobs are accepted by machines in the order of their turns. -/
theorem turns_in_rotation (subnet : Subnet)
    (h : Reaches (System.step subnet.machines) (InTurn subnet.machines) boot system) :
    (system.turns ≠ [] → ∃ creator ∈ subnet.machines,
      system.turns = List.iterate subnet.pass creator system.turns.length) ∧
    (∀ start, start + subnet.machines.card ≤ system.turns.length →
      ((system.turns.drop start).take subnet.machines.card).Nodup ∧
        ((system.turns.drop start).take subnet.machines.card).toFinset = subnet.machines) ∧
    (system.accepted.map Prod.fst).Sublist system.turns := by
  have hrotating : Rotating subnet system :=
    h.invariant (Rotating subnet) (rotating_boot subnet) fun _ _ _ hbefore hguard hstep ↦
      hbefore.step hguard hstep
  refine ⟨hrotating.turns, ?_, hrotating.accepted.trans (List.dropLast_sublist _)⟩
  intro start hlength
  have hpass : ∀ member ∈ subnet.machines,
      IsSuccessor subnet.machines Subnet.octet member (subnet.pass member) :=
    fun member ↦ subnet.isSuccessor_pass
  have hcard := subnet.two_le_card
  obtain ⟨creator, hcreator, hturns⟩ := hrotating.turns (by
    intro hnil
    rw [hnil] at hlength
    simp only [List.length_nil] at hlength
    omega)
  have hround : (system.turns.drop start).take subnet.machines.card =
      (List.range subnet.machines.card).map fun count ↦
        subnet.pass^[count] (subnet.pass^[start] creator) := by
    obtain ⟨rest, hrest⟩ := Nat.exists_eq_add_of_le hlength
    rw [hturns, hrest, Nat.add_assoc, List.iterate_add, List.drop_left' (List.length_iterate ..),
      List.take_iterate, Nat.min_eq_left (Nat.le_add_right _ _)]
    exact (List.range_map_iterate ..).symm
  have hbij := bijOn_iterate subnet.octet_injOn hpass (iterate_mem hpass hcreator start)
  rw [hround]
  constructor
  · apply List.nodup_range.map_on
    intro first hfirst second hsecond hsame
    exact hbij.injOn (by simpa using hfirst) (by simpa using hsecond) hsame
  · ext member
    rw [List.mem_toFinset, List.mem_map, ← Finset.mem_coe, ← hbij.image_eq]
    simp

/-- `alpha` and `beta`. -/
def pair : Subnet where
  machines := {alpha, beta}
  two_le_card := by decide
  shared := by decide
  books addr := [alpha, beta].filter (· ≠ addr)
  mem_books := by
    intro addr haddr other
    simp only [List.mem_filter, List.mem_cons, List.not_mem_nil, or_false, Finset.mem_insert,
      Finset.mem_singleton, decide_eq_true_eq]

/-- `alpha` creates the ledger, prints a job in its turn and passes on; `beta` passes back. -/
def thereAndBack : List Event :=
  [⟨beta, .heartbeat ⟨1⟩⟩, ⟨alpha, .deliver 0⟩, ⟨alpha, .tick (printer alpha true) ⟨2⟩ ⟨3⟩⟩,
    ⟨beta, .deliver 1⟩, ⟨alpha, .upload ⟨9⟩ ⟨10⟩⟩, ⟨alpha, .tick (printer alpha true) ⟨4⟩ ⟨5⟩⟩,
    ⟨alpha, .tick (printer alpha true) ⟨6⟩ ⟨7⟩⟩, ⟨beta, .deliver 3⟩,
    ⟨beta, .tick (printer beta true) ⟨11⟩ ⟨12⟩⟩, ⟨beta, .tick (printer beta true) ⟨13⟩ ⟨14⟩⟩]

theorem turns_in_rotation_thereAndBack :
    ∃ system : System, system.turns = [alpha, beta, alpha] ∧
      system.accepted = [(alpha, ⟨9⟩)] ∧
      ((system.turns.drop 1).take 2).Nodup ∧
      ((system.turns.drop 1).take 2).toFinset = pair.machines := by
  obtain ⟨system, hreach, hturns, haccepted⟩ := exists_reaches_of_runIf
    (System.step pair.machines) (InTurn pair.machines) boot thereAndBack
    (fun system ↦ system.turns = [alpha, beta, alpha] ∧ system.accepted = [(alpha, ⟨9⟩)])
    (by decide +kernel)
  have hround := (turns_in_rotation pair hreach).2.1 1 (by rw [hturns]; decide)
  exact ⟨system, hturns, haccepted, hround⟩

end System

end Derusting
