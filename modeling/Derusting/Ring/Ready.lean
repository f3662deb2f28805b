import Derusting.Ring.Holder
import Derusting.Foundations.Permits

/-!
# The ready flag

`derusting_ready_flag` is read by `manage_ledger` and cleared by `marlin::set_offline` in one thread,
and toggled by the button of the home screen in another, which loads and stores it in two steps.
All these accesses are single steps here, in any order that the two threads allow.

The flag is never more than a copy of a permit: whoever finds it set finds a store of `true` by the
button that no accepted job has used yet.
-/

namespace Derusting

open Foundations.Permits Foundations.Transition

/-- What the history of a printer records. -/
inductive ReadyEntry where
  /-- A click of the button has stored `true`. -/
  | confirmed
  /-- `marlin::print` has returned `Ok` in `manage_ledger`. -/
  | accepted (guid : Uuid)
deriving DecidableEq

namespace ReadyEntry

def isConfirmed : ReadyEntry → Bool
  | .confirmed => true
  | .accepted _ => false

def isAccepted : ReadyEntry → Bool
  | .confirmed => false
  | .accepted _ => true

end ReadyEntry

/-- Where the executor's thread stands. -/
inductive ReadyPhase where
  /-- Before the `set_offline` of `embassy`. -/
  | starting
  /-- Between two rounds of `manage_ledger`. -/
  | waiting
  /-- Within a round, after `is_ready`. -/
  | loaded (env : TickEnv)
  /-- Within a round, after `marlin::print` has returned `Ok` and before `set_offline`. -/
  | accepted

/-- A machine with its ready flag and the value the button has loaded for its next store. -/
structure Printer where
  machine : Machine
  readyFlag : Bool
  clicked : Option Bool
  phase : ReadyPhase
  history : List ReadyEntry

/-- The accesses to the ready flag, the rounds they belong to, and all else a machine does. -/
inductive PrinterEvent where
  | clickLoad
  | clickStore
  | isReady (env : TickEnv)
  | manageLedger
  | setOffline
  | other (event : LocalEvent)

/-- Rounds of `manage_ledger` are split at their accesses to the flag. -/
def LocalEvent.isTick : LocalEvent → Bool
  | .tick _ => true
  | .receive _ _ | .upload _ _ | .lifetimeCheck | .elapse _ => false

/-- A round only accepts a job when it has found the ready flag set. -/
theorem TickOutcome.isReady_of_accepted {env : TickEnv} {addr : Ipv4Addr} {machine after : Machine}
    {output : TickOutput} {guid : Uuid} (h : TickOutcome env addr machine after output)
    (haccepted : output.accepted = some guid) : env.isReady = true := by
  cases h with
  | created _ => cases haccepted
  | waited _ _ _ => cases haccepted
  | kept _ _ _ _ hmade _ =>
      cases hmade with
      | nothing => cases haccepted
      | accepted _ _ hready _ _ => exact hready
  | passed _ _ _ _ hmade _ _ =>
      cases hmade with
      | nothing => cases haccepted
      | accepted _ _ hready _ _ => exact hready

theorem isReady_of_accepted {env : TickEnv} {machine : Machine} {guid : Uuid}
    (h : (manageLedger env machine).2.accepted = some guid) : env.isReady = true := by
  cases haddr : env.myAddr with
  | none =>
      rw [manageLedger_of_unknown haddr] at h
      cases h
  | some addr => exact (manageLedger_outcome haddr machine).isReady_of_accepted h

namespace Printer

variable {addr : Ipv4Addr} {printer after : Printer} {event : PrinterEvent}

/-- Power-up: the flag is statically `false`, and nothing has been clicked. -/
def boot : Printer := ⟨.boot, false, none, .starting, []⟩

/-- One step. A round that has loaded the flag goes on with the value it has loaded; messages,
uploads and time pass in every phase. -/
def step (addr : Ipv4Addr) (printer : Printer) : PrinterEvent → Option Printer
  | .clickLoad =>
      match printer.clicked with
      | none => some { printer with clicked := some printer.readyFlag }
      | some _ => none
  | .clickStore =>
      printer.clicked.map fun loaded ↦
        let isReady := !loaded
        { printer with
          readyFlag := isReady
          clicked := none
          history := printer.history ++ if isReady then [.confirmed] else [] }
  | .isReady env =>
      match printer.phase with
      | .waiting =>
          some { printer with phase := .loaded { env with isReady := printer.readyFlag } }
      | _ => none
  | .manageLedger =>
      match printer.phase with
      | .loaded env =>
          let (machine, output) := Derusting.manageLedger env printer.machine
          match output.accepted with
          | none => some { printer with machine := machine, phase := .waiting }
          | some guid =>
              some { printer with
                machine := machine
                phase := .accepted
                history := printer.history ++ [.accepted guid] }
      | _ => none
  | .setOffline =>
      match printer.phase with
      | .starting | .accepted => some { printer with readyFlag := false, phase := .waiting }
      | _ => none
  | .other event =>
      if event.isTick then none
      else (printer.machine.step addr event).map fun machine ↦ { printer with machine := machine }

/-- What a step can do to the flag, the phase and the history. -/
inductive Steps (printer : Printer) : Printer → Prop
  | kept {after : Printer} (hflag : after.readyFlag = printer.readyFlag)
      (hphase : after.phase = printer.phase) (hhistory : after.history = printer.history) :
      Steps printer after
  | confirmed {after : Printer} (hflag : after.readyFlag = true)
      (hphase : after.phase = printer.phase)
      (hhistory : after.history = printer.history ++ [.confirmed]) : Steps printer after
  | cancelled {after : Printer} (hflag : after.readyFlag = false)
      (hphase : after.phase = printer.phase ∨ after.phase = .waiting)
      (hhistory : after.history = printer.history) : Steps printer after
  | loaded {env : TickEnv} {after : Printer} (hwaiting : printer.phase = .waiting)
      (hflag : after.readyFlag = printer.readyFlag) (hphase : after.phase = .loaded env)
      (hready : env.isReady = printer.readyFlag) (hhistory : after.history = printer.history) :
      Steps printer after
  | declined {env : TickEnv} {after : Printer} (hloaded : printer.phase = .loaded env)
      (hflag : after.readyFlag = printer.readyFlag) (hphase : after.phase = .waiting)
      (hhistory : after.history = printer.history) : Steps printer after
  | accepted {env : TickEnv} {guid : Uuid} {after : Printer} (hloaded : printer.phase = .loaded env)
      (hready : env.isReady = true) (hphase : after.phase = .accepted)
      (hhistory : after.history = printer.history ++ [.accepted guid]) : Steps printer after

theorem steps_of_step (h : printer.step addr event = some after) : Steps printer after := by
  cases event with
  | clickLoad =>
      cases hclicked : printer.clicked with
      | none =>
          simp only [step, hclicked, Option.some.injEq] at h
          rw [← h]
          exact .kept rfl rfl rfl
      | some _ => simp [step, hclicked] at h
  | clickStore =>
      obtain ⟨loaded, -, rfl⟩ := Option.map_eq_some_iff.mp h
      cases loaded with
      | false => exact .confirmed rfl rfl rfl
      | true => exact .cancelled rfl (.inl rfl) (List.append_nil _)
  | isReady env =>
      cases hphase : printer.phase with
      | waiting =>
          simp only [step, hphase, Option.some.injEq] at h
          rw [← h]
          exact .loaded hphase rfl rfl rfl rfl
      | _ => simp [step, hphase] at h
  | manageLedger =>
      cases hphase : printer.phase with
      | loaded env =>
          cases haccepted : (Derusting.manageLedger env printer.machine).2.accepted with
          | none =>
              simp only [step, hphase, haccepted, Option.some.injEq] at h
              rw [← h]
              exact .declined hphase rfl rfl rfl
          | some guid =>
              simp only [step, hphase, haccepted, Option.some.injEq] at h
              rw [← h]
              exact .accepted hphase (isReady_of_accepted haccepted) rfl rfl
      | _ => simp [step, hphase] at h
  | setOffline =>
      cases hphase : printer.phase with
      | starting =>
          simp only [step, hphase, Option.some.injEq] at h
          rw [← h]
          exact .cancelled rfl (.inr rfl) rfl
      | accepted =>
          simp only [step, hphase, Option.some.injEq] at h
          rw [← h]
          exact .cancelled rfl (.inr rfl) rfl
      | _ => simp [step, hphase] at h
  | other event =>
      rw [step, Option.ite_none_left_eq_some, Option.map_eq_some_iff] at h
      obtain ⟨-, machine, -, rfl⟩ := h
      exact .kept rfl rfl rfl

/-- A set flag, and a set value that a round has loaded, stand for a permit that is left. Between
`marlin::print` and `set_offline` the flag may still be the one that was just used. -/
def Backed (printer : Printer) : Prop :=
  ∃ left, Covered ReadyEntry.isConfirmed ReadyEntry.isAccepted left printer.history ∧
    (printer.phase ≠ .accepted → printer.readyFlag = true → left = true) ∧
    ∀ env, printer.phase = .loaded env → env.isReady = true → left = true

theorem backed_boot : Backed boot := by
  refine ⟨false, .nil, ?_, ?_⟩
  · intro _ hflag
    exact hflag
  · intro env hphase
    cases hphase

theorem Backed.step (h : printer.Backed) (hstep : printer.step addr event = some after) :
    after.Backed := by
  obtain ⟨left, hcovered, hflagged, hloaded⟩ := h
  cases steps_of_step hstep with
  | kept hflag hphase hhistory =>
      refine ⟨left, hhistory ▸ hcovered, ?_, ?_⟩
      · rw [hflag, hphase]
        exact hflagged
      · rw [hphase]
        exact hloaded
  | confirmed _ _ hhistory =>
      refine ⟨true, ?_, fun _ _ ↦ rfl, fun _ _ _ ↦ rfl⟩
      rw [hhistory]
      exact .grant hcovered rfl rfl
  | cancelled hflag hphase hhistory =>
      refine ⟨left, hhistory ▸ hcovered, ?_, ?_⟩
      · intro _ hset
        rw [hflag] at hset
        cases hset
      · intro env hload
        rcases hphase with hsame | hwaiting
        · exact hloaded env (hsame.symm.trans hload)
        · cases hwaiting.symm.trans hload
  | @loaded env _ hwaiting hflag hphase hready hhistory =>
      have hpermit : printer.readyFlag = true → left = true :=
        hflagged (by rw [hwaiting]; exact nofun)
      refine ⟨left, hhistory ▸ hcovered, ?_, ?_⟩
      · intro _ hset
        exact hpermit (hflag.symm.trans hset)
      · intro other hother hset
        obtain rfl := ReadyPhase.loaded.inj (hphase.symm.trans hother)
        exact hpermit (hready.symm.trans hset)
  | declined hload hflag hphase hhistory =>
      refine ⟨left, hhistory ▸ hcovered, ?_, ?_⟩
      · intro _ hset
        exact hflagged (by rw [hload]; exact nofun) (hflag.symm.trans hset)
      · intro env hother
        cases hphase.symm.trans hother
  | accepted hload hready hphase hhistory =>
      -- the round has used the permit that its loaded value stands for
      obtain rfl := hloaded _ hload hready
      refine ⟨false, ?_, fun hother ↦ absurd hphase hother, ?_⟩
      · rw [hhistory]
        exact .use hcovered rfl rfl
      · intro env hother
        cases hphase.symm.trans hother

/-- In every run from power-up there are at most as many accepted jobs as confirmations by the
operator, and a confirmation stands between any two accepted jobs. -/
theorem confirmed_before_accepted (addr : Ipv4Addr)
    (h : Reaches (step addr) Unrestricted boot printer) :
    printer.history.countP ReadyEntry.isAccepted ≤ printer.history.countP ReadyEntry.isConfirmed ∧
      ∀ before middle after : List ReadyEntry, ∀ first second : Uuid,
        printer.history = before ++ .accepted first :: (middle ++ .accepted second :: after) →
        .confirmed ∈ middle := by
  have hbacked : printer.Backed := h.invariant Backed backed_boot
    fun _ _ _ hbefore _ hstep ↦ hbefore.step hstep
  obtain ⟨left, hcovered, -, -⟩ := hbacked
  constructor
  · exact Nat.le_of_add_right_le hcovered.countP_le
  · intro before middle after first second hsplit
    obtain ⟨entry, hmem, hconfirmed⟩ := hcovered.exists_grant_between hsplit rfl rfl
    cases entry with
    | confirmed => exact hmem
    | accepted _ => cases hconfirmed

/-- `alpha` holds the ledger with an uploaded job when the operator confirms, and prints it. -/
def printed : List PrinterEvent :=
  let idle : List PrinterEvent := [.isReady (System.printer System.alpha true), .manageLedger]
  [.setOffline] ++ idle ++ [.other (.upload ⟨1⟩ (some System.alpha))] ++ idle ++
    [.clickLoad, .clickStore] ++ idle ++ [.setOffline]

theorem confirmed_before_accepted_after_printed :
    ∃ printer, Reaches (step System.alpha) Unrestricted boot printer ∧
      printer.history.countP ReadyEntry.isAccepted = 1 ∧
      1 ≤ printer.history.countP ReadyEntry.isConfirmed := by
  obtain ⟨printer, hreach, hcount⟩ := exists_reaches_of_runIf (step System.alpha)
    Unrestricted boot printed
    (fun printer ↦ printer.history.countP ReadyEntry.isAccepted = 1) (by decide +kernel)
  exact ⟨printer, hreach, hcount, hcount ▸ (confirmed_before_accepted System.alpha hreach).1⟩

end Printer

end Derusting
