import Mathlib.Data.List.Basic
import Mathlib.Logic.Basic

/-!
# Guarded runs of partial transition functions

A component is a partial function from a state and an event to the next state; `none` means that
the event is not enabled.  `Reaches step guard start` collects the states of the runs in which the
guard holds of every step, seen from the state before that step.  Safety theorems are proved by
`Reaches.invariant`, and concrete runs are evaluated with `runIf`.
-/

namespace Foundations.Transition

universe u v

variable {State : Type u} {Event : Type v}

/-- The states reached from `start` by runs every step of which meets `guard`. -/
inductive Reaches (step : State → Event → Option State) (guard : State → Event → Prop)
    (start : State) : State → Prop
  | refl : Reaches step guard start start
  | tail {before after : State} {event : Event} :
      Reaches step guard start before → guard before event →
        step before event = some after → Reaches step guard start after

/-- The guard of an unrestricted run. -/
def Unrestricted (_ : State) (_ : Event) : Prop := True

instance (state : State) (event : Event) : Decidable (Unrestricted state event) :=
  inferInstanceAs (Decidable True)

variable {step : State → Event → Option State} {guard : State → Event → Prop}
  {start state : State}

/-- What holds at the start and is kept by every guarded step holds in every state reached. -/
theorem Reaches.invariant (property : State → Prop) (hreach : Reaches step guard start state)
    (hstart : property start)
    (hstep : ∀ before event after, property before → guard before event →
      step before event = some after → property after) :
    property state := by
  induction hreach with
  | refl => exact hstart
  | tail _ hguard hnext ih => exact hstep _ _ _ ih hguard hnext

theorem Reaches.trans {middle : State} (hfirst : Reaches step guard start middle)
    (hsecond : Reaches step guard middle state) : Reaches step guard start state := by
  induction hsecond with
  | refl => exact hfirst
  | tail _ hguard hnext ih => exact .tail ih hguard hnext

/-- A run that meets a guard meets a weaker one. -/
theorem Reaches.mono {weaker : State → Event → Prop} (hreach : Reaches step guard start state)
    (himp : ∀ before event, guard before event → weaker before event) :
    Reaches step weaker start state := by
  induction hreach with
  | refl => exact .refl
  | tail _ hguard hnext ih => exact .tail ih (himp _ _ hguard) hnext

/-- A run is followed by a run of a model, if every step of it is followed by some steps of the model,
possibly by none. -/
theorem Reaches.simulates {Model : Type u} {Action : Type v}
    {modelStep : Model → Action → Option Model} {modelGuard : Model → Action → Prop}
    {modelStart : Model} (relates : State → Model → Prop)
    (hreach : Reaches step guard start state) (hstart : relates start modelStart)
    (hstep : ∀ before event after model, relates before model → guard before event →
      step before event = some after →
        ∃ next, Reaches modelStep modelGuard model next ∧ relates after next) :
    ∃ model, Reaches modelStep modelGuard modelStart model ∧ relates state model := by
  induction hreach with
  | refl => exact ⟨modelStart, .refl, hstart⟩
  | tail _ hguard hnext ih =>
      obtain ⟨model, hmodel, hrelates⟩ := ih
      obtain ⟨next, hlater, hafter⟩ := hstep _ _ _ _ hrelates hguard hnext
      exact ⟨next, hmodel.trans hlater, hafter⟩

/-- A run is followed by a run of a model that has to choose earlier than the run itself does, if
every step is followed for each choice that is open after it, by a choice that was open before. -/
theorem Reaches.simulates_foreseeing {Model : Type u} {Action : Type v} {Choice : Type*}
    {modelStep : Model → Action → Option Model} {modelGuard : Model → Action → Prop}
    {modelStart : Model} (isOpen : Choice → State → Prop) (relates : Choice → State → Model → Prop)
    (hreach : Reaches step guard start state)
    (hstart : ∀ choice, isOpen choice start → relates choice start modelStart)
    (hstep : ∀ before event after later, guard before event → step before event = some after →
      isOpen later after → ∃ sooner, isOpen sooner before ∧ ∀ model, relates sooner before model →
        ∃ next, Reaches modelStep modelGuard model next ∧ relates later after next) :
    ∀ choice, isOpen choice state →
      ∃ model, Reaches modelStep modelGuard modelStart model ∧ relates choice state model := by
  induction hreach with
  | refl => exact fun choice hopen ↦ ⟨modelStart, .refl, hstart choice hopen⟩
  | tail _ hguard hnext ih =>
      intro later hlater
      obtain ⟨sooner, hsooner, hfollows⟩ := hstep _ _ _ later hguard hnext hlater
      obtain ⟨model, hmodel, hrelates⟩ := ih sooner hsooner
      obtain ⟨next, hrest, hafter⟩ := hfollows model hrelates
      exact ⟨next, hmodel.trans hrest, hafter⟩

/-- Execute the listed events, stopping at one that is not enabled or that breaks the guard. -/
def runIf (step : State → Event → Option State) (guard : State → Event → Prop)
    [∀ state event, Decidable (guard state event)] : State → List Event → Option State
  | state, [] => some state
  | state, event :: events =>
      if guard state event then
        (step state event).bind fun next ↦ runIf step guard next events
      else none

theorem runIf_cons [∀ state event, Decidable (guard state event)] {event : Event}
    {events : List Event} :
    runIf step guard start (event :: events) = some state ↔
      guard start event ∧ ∃ next, step start event = some next ∧
        runIf step guard next events = some state := by
  rw [runIf, Option.ite_none_right_eq_some, Option.bind_eq_some_iff]

theorem runIf_unrestricted_cons (step : State → Event → Option State) (start : State)
    (event : Event) (events : List Event) :
    runIf step Unrestricted start (event :: events) =
      (step start event).bind fun next ↦ runIf step Unrestricted next events :=
  if_pos trivial

theorem Reaches.of_runIf [∀ state event, Decidable (guard state event)] {events : List Event}
    (hrun : runIf step guard start events = some state) : Reaches step guard start state := by
  induction events generalizing start with
  | nil =>
      obtain rfl : start = state := Option.some.inj hrun
      exact .refl
  | cons event events ih =>
      obtain ⟨hguard, next, hnext, hrest⟩ := runIf_cons.mp hrun
      exact (Reaches.tail .refl hguard hnext).trans (ih hrest)

/-- A run that meets a guard meets a weaker one. -/
theorem runIf_imp {other : State → Event → Prop} [∀ state event, Decidable (guard state event)]
    [∀ state event, Decidable (other state event)]
    (himp : ∀ state event, guard state event → other state event) {events : List Event}
    (hrun : runIf step guard start events = some state) :
    runIf step other start events = some state := by
  induction events generalizing start with
  | nil => exact hrun
  | cons event events ih =>
      obtain ⟨hguard, next, hnext, hrest⟩ := runIf_cons.mp hrun
      exact runIf_cons.mpr ⟨himp _ _ hguard, next, hnext, ih hrest⟩

/-- A concrete run whose last state passes a decidable test ends in a state that passes it. -/
theorem exists_of_runIf (step : State → Event → Option State) (guard : State → Event → Prop)
    [∀ state event, Decidable (guard state event)] (start : State) (events : List Event)
    (property : State → Prop) [DecidablePred property]
    (hrun : (runIf step guard start events).any (fun final ↦ decide (property final)) = true) :
    ∃ final, runIf step guard start events = some final ∧ property final := by
  cases hfinal : runIf step guard start events with
  | none => simp [hfinal] at hrun
  | some final =>
      rw [hfinal, Option.any_some] at hrun
      exact ⟨final, rfl, of_decide_eq_true hrun⟩

theorem exists_reaches_of_runIf (step : State → Event → Option State)
    (guard : State → Event → Prop) [∀ state event, Decidable (guard state event)] (start : State)
    (events : List Event) (property : State → Prop) [DecidablePred property]
    (hrun : (runIf step guard start events).any (fun final ↦ decide (property final)) = true) :
    ∃ final, Reaches step guard start final ∧ property final := by
  obtain ⟨final, hfinal, hproperty⟩ := exists_of_runIf step guard start events property hrun
  exact ⟨final, .of_runIf hfinal, hproperty⟩

end Foundations.Transition
