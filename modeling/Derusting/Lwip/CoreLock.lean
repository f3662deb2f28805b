import Derusting.Foundations.Mutex
import Derusting.Foundations.Transition
import Mathlib.Logic.Function.Basic

/-!
# The core lock of lwIP

`blocking_lwip` of `lwip/mod.rs` with `derusting_holds_tcpip_core_lock` of `libderusting.cpp`, run
by any number of tasks at once.  A closure that drops a packet or a connection calls `blocking_lwip`
again, so each task has a stack of calls.  Between the test and the lock of one task the others go
on; the test remains valid, as no other task can make this one the holder.

The mutex is a parameter: it belongs to FreeRTOS.
-/

namespace Derusting.Lwip

open Foundations Foundations.Transition

universe u

variable {Task : Type u} [DecidableEq Task]

/-- Where a call of `blocking_lwip` stands. -/
inductive Point where
  /-- Before `derusting_holds_tcpip_core_lock()`. -/
  | test
  /-- Before `sys_mutex_lock`. -/
  | lock
  /-- In the closure; `locked` if the call has taken the lock for it. -/
  | closure (locked : Bool)
  /-- Before `sys_mutex_unlock`. -/
  | unlock
deriving DecidableEq

/-- The core lock, and the calls each task is in, the innermost first. -/
structure CoreState (core : Mutex Task) where
  mutex : core.State
  calls : Task → List Point

/-- What a task does next. -/
inductive CoreAction where
  /-- It calls `blocking_lwip`, in a closure or outside of all calls. -/
  | call
  /-- Its innermost call goes on to the next point. -/
  | proceed
  /-- Outside of all calls, lwIP's own code takes the lock, as on the lwIP thread. -/
  | lockCore
  /-- Outside of all calls, lwIP's own code releases the lock it holds. -/
  | unlockCore
deriving DecidableEq

namespace CoreState

variable {core : Mutex Task}

/-- `derusting_holds_tcpip_core_lock`: `xSemaphoreGetMutexHolder` is the calling task. The other
branch of its `#if` is for builds without `lock_tcpip_core`. -/
def holdsTcpipCoreLock (state : CoreState core) (task : Task) : Bool :=
  core.holder state.mutex = some task

def setCalls (state : CoreState core) (task : Task) (calls : List Point) : CoreState core :=
  { state with calls := Function.update state.calls task calls }

/-- A call whose body goes on from `point`, below which the task is in `outer`. -/
def blockingLwip (state : CoreState core) (task : Task) (outer : List Point) :
    Point → Option (CoreState core)
  | .test =>
      if state.holdsTcpipCoreLock task then some (state.setCalls task (.closure false :: outer))
      else some (state.setCalls task (.lock :: outer))
  | .lock =>
      (core.lock state.mutex task).map fun mutex ↦
        { state with mutex := mutex }.setCalls task (.closure true :: outer)
  | .closure false => some (state.setCalls task outer)
  | .closure true => some (state.setCalls task (.unlock :: outer))
  | .unlock =>
      some ({ state with mutex := core.unlock state.mutex task }.setCalls task outer)

/-- One step of one task. -/
def step (state : CoreState core) : Task × CoreAction → Option (CoreState core)
  | (task, .call) =>
      match state.calls task with
      | [] => some (state.setCalls task [.test])
      | .closure locked :: outer => some (state.setCalls task (.test :: .closure locked :: outer))
      | .test :: _ | .lock :: _ | .unlock :: _ => none
  | (task, .proceed) =>
      match state.calls task with
      | [] => none
      | point :: outer => state.blockingLwip task outer point
  | (task, .lockCore) =>
      match state.calls task with
      | [] => (core.lock state.mutex task).map fun mutex ↦ { state with mutex := mutex }
      | _ :: _ => none
  | (task, .unlockCore) =>
      if state.calls task = [] ∧ state.holdsTcpipCoreLock task then
        some { state with mutex := core.unlock state.mutex task }
      else none

/-- The task runs a closure of `blocking_lwip`, perhaps with further calls in it. -/
def Inside (state : CoreState core) (task : Task) : Prop :=
  ∃ locked, .closure locked ∈ state.calls task

/-- The guard of the runs in which a task does not leave its outermost call before the last step. -/
def InCall (task : Task) (state : CoreState core) (_ : Task × CoreAction) : Prop :=
  state.calls task ≠ []

/-- The calls of a task, and whether it holds the lock. -/
def view (state : CoreState core) (task : Task) : List Point × Bool :=
  (state.calls task, state.holdsTcpipCoreLock task)

end CoreState

/-! ## The view of one task -/

/-- What a step of a task does to its calls and to what it holds. -/
inductive Moves : List Point × Bool → List Point × Bool → Prop
  | call {calls : List Point} {holds : Bool} : Moves (calls, holds) (.test :: calls, holds)
  | held {outer : List Point} : Moves (.test :: outer, true) (.closure false :: outer, true)
  | notHeld {outer : List Point} : Moves (.test :: outer, false) (.lock :: outer, false)
  | locked {outer : List Point} : Moves (.lock :: outer, false) (.closure true :: outer, true)
  | returned {outer : List Point} {holds : Bool} :
      Moves (.closure false :: outer, holds) (outer, holds)
  | finished {outer : List Point} {holds : Bool} :
      Moves (.closure true :: outer, holds) (.unlock :: outer, holds)
  | unlocked {outer : List Point} : Moves (.unlock :: outer, true) (outer, false)
  /-- lwIP's own code takes or releases the lock outside of all calls. -/
  | own {holds now : Bool} : Moves ([], holds) ([], now)

/-- The calls of a task that holds the lock if `holds`, and held it before the outermost of them if
`before`. -/
inductive Nested (before : Bool) : List Point × Bool → Prop
  | idle : Nested before ([], before)
  | test {outer : List Point} {holds : Bool} (h : Nested before (outer, holds)) :
      Nested before (.test :: outer, holds)
  | lock {outer : List Point} (h : Nested before (outer, false)) :
      Nested before (.lock :: outer, false)
  | held {outer : List Point} (h : Nested before (outer, true)) :
      Nested before (.closure false :: outer, true)
  | locked {outer : List Point} (h : Nested before (outer, false)) :
      Nested before (.closure true :: outer, true)
  | unlock {outer : List Point} (h : Nested before (outer, false)) :
      Nested before (.unlock :: outer, true)

namespace Nested

variable {before holds : Bool} {calls : List Point} {view next : List Point × Bool}

/-- Calls keep to their nesting. -/
theorem moves (h : Nested before view) (hcalls : view.1 ≠ []) (hmove : Moves view next) :
    Nested before next := by
  cases hmove with
  | call => exact .test h
  | held =>
      cases h with
      | test h => exact .held h
  | notHeld =>
      cases h with
      | test h => exact .lock h
  | locked =>
      cases h with
      | lock h => exact .locked h
  | returned =>
      cases h with
      | held h => exact h
  | finished =>
      cases h with
      | locked h => exact .unlock h
  | unlocked =>
      cases h with
      | unlock h => exact h
  | own => exact absurd rfl hcalls

/-- Outside of all calls the nesting begins anew. -/
theorem exists_moves (h : Nested before view) (hmove : Moves view next) :
    ∃ before, Nested before next := by
  by_cases hcalls : view.1 = []
  · cases hmove with
    | call =>
        obtain rfl := hcalls
        exact ⟨_, .test .idle⟩
    | own => exact ⟨_, .idle⟩
    | held | notHeld | locked | returned | finished | unlocked => cases hcalls
  · exact ⟨before, h.moves hcalls hmove⟩

/-- A task in a closure holds the lock. -/
theorem holds_of_closure (h : Nested before (calls, holds)) {locked : Bool}
    (hmem : .closure locked ∈ calls) : holds = true := by
  induction calls generalizing holds locked with
  | nil => cases hmem
  | cons point outer ih =>
      rcases List.mem_cons.mp hmem with rfl | houter
      · cases h <;> rfl
      · cases h with
        | test h => exact ih h houter
        | lock h => exact ih h houter
        | held | locked | unlock => rfl

/-- The calls determine whether the lock is held. -/
theorem holds_unique {now : Bool} (h : Nested before (calls, holds))
    (hnow : Nested before (calls, now)) : holds = now := by
  induction calls generalizing holds now with
  | nil =>
      cases h
      cases hnow
      rfl
  | cons point outer ih =>
      cases h with
      | test h =>
          cases hnow with
          | test hnow => exact ih h hnow
      | lock => cases hnow; rfl
      | held => cases hnow; rfl
      | locked => cases hnow; rfl
      | unlock => cases hnow; rfl

end Nested

namespace CoreState

variable {core : Mutex Task} {state after : CoreState core} {task other : Task}

theorem view_setCalls_self (state : CoreState core) (task : Task) (calls : List Point) :
    (state.setCalls task calls).view task = (calls, state.holdsTcpipCoreLock task) := by
  have hcalls : (state.setCalls task calls).calls task = calls := by simp [setCalls]
  exact Prod.ext hcalls rfl

theorem view_setCalls_of_ne (state : CoreState core) (h : other ≠ task) (calls : List Point) :
    (state.setCalls task calls).view other = state.view other := by
  have hcalls : (state.setCalls task calls).calls other = state.calls other := by
    simp [setCalls, h]
  exact Prod.ext hcalls rfl

theorem holds_of_lock {mutex : core.State} (h : core.lock state.mutex task = some mutex) :
    state.holdsTcpipCoreLock task = false ∧
      { state with mutex := mutex }.holdsTcpipCoreLock task = true := by
  constructor
  · rw [holdsTcpipCoreLock, core.holder_of_lock h]
    exact decide_eq_false nofun
  · exact decide_eq_true (core.holder_lock h)

theorem view_of_lock {mutex : core.State} (h : core.lock state.mutex task = some mutex)
    (hne : other ≠ task) : { state with mutex := mutex }.view other = state.view other :=
  Prod.ext rfl (decide_eq_decide.mpr (Mutex.holder_iff_of_lock h hne))

theorem holds_of_unlock (h : state.holdsTcpipCoreLock task = true) :
    { state with mutex := core.unlock state.mutex task }.holdsTcpipCoreLock task = false := by
  rw [holdsTcpipCoreLock, core.holder_unlock (of_decide_eq_true h)]
  exact decide_eq_false nofun

theorem view_of_unlock (h : state.holdsTcpipCoreLock task = true) (hne : other ≠ task) :
    { state with mutex := core.unlock state.mutex task }.view other = state.view other :=
  Prod.ext rfl (decide_eq_decide.mpr (Mutex.holder_iff_of_unlock (of_decide_eq_true h) hne))

/-- The next point of a call, seen by its task and by the others. -/
theorem moves_of_blockingLwip {outer : List Point} {point : Point}
    (h : state.blockingLwip task outer point = some after)
    (hunlock : point = .unlock → state.holdsTcpipCoreLock task = true) :
    Moves (point :: outer, state.holdsTcpipCoreLock task) (after.view task) ∧
      ∀ other, other ≠ task → after.view other = state.view other := by
  cases point with
  | test =>
      rw [blockingLwip] at h
      cases hholds : state.holdsTcpipCoreLock task with
      | true =>
          rw [if_pos hholds] at h
          obtain rfl := Option.some.inj h
          rw [view_setCalls_self, hholds]
          exact ⟨.held, fun other hne ↦ view_setCalls_of_ne state hne _⟩
      | false =>
          rw [if_neg (Bool.eq_false_iff.mp hholds)] at h
          obtain rfl := Option.some.inj h
          rw [view_setCalls_self, hholds]
          exact ⟨.notHeld, fun other hne ↦ view_setCalls_of_ne state hne _⟩
  | lock =>
      obtain ⟨mutex, hmutex, rfl⟩ := Option.map_eq_some_iff.mp h
      obtain ⟨hbefore, hafter⟩ := holds_of_lock hmutex
      rw [view_setCalls_self, hbefore, hafter]
      exact ⟨.locked, fun other hne ↦
        (view_setCalls_of_ne _ hne _).trans (view_of_lock hmutex hne)⟩
  | closure locked =>
      cases locked with
      | false =>
          obtain rfl := Option.some.inj h
          rw [view_setCalls_self]
          exact ⟨.returned, fun other hne ↦ view_setCalls_of_ne state hne _⟩
      | true =>
          obtain rfl := Option.some.inj h
          rw [view_setCalls_self]
          exact ⟨.finished, fun other hne ↦ view_setCalls_of_ne state hne _⟩
  | unlock =>
      have hholds := hunlock rfl
      obtain rfl := Option.some.inj h
      rw [view_setCalls_self, holds_of_unlock hholds, hholds]
      exact ⟨.unlocked, fun other hne ↦
        (view_setCalls_of_ne _ hne _).trans (view_of_unlock hholds hne)⟩

/-- One step, seen by the task that makes it and by the others. -/
theorem moves_of_step {action : CoreAction} (h : state.step (task, action) = some after)
    (hunlock : ∀ outer, state.calls task = .unlock :: outer →
      state.holdsTcpipCoreLock task = true) :
    Moves (state.view task) (after.view task) ∧
      ∀ other, other ≠ task → after.view other = state.view other := by
  rw [view]
  cases action with
  | call =>
      have hpush : after = state.setCalls task (.test :: state.calls task) := by
        cases hcalls : state.calls task with
        | nil =>
            simp only [step, hcalls] at h
            exact (Option.some.inj h).symm
        | cons point outer =>
            cases point with
            | closure locked =>
                simp only [step, hcalls] at h
                exact (Option.some.inj h).symm
            | test | lock | unlock =>
                simp only [step, hcalls] at h
                cases h
      rw [hpush, view_setCalls_self]
      exact ⟨.call, fun other hne ↦ view_setCalls_of_ne state hne _⟩
  | proceed =>
      cases hcalls : state.calls task with
      | nil =>
          simp only [step, hcalls] at h
          cases h
      | cons point outer =>
          simp only [step, hcalls] at h
          exact moves_of_blockingLwip h fun hpoint ↦ hunlock outer (hpoint ▸ hcalls)
  | lockCore =>
      cases hcalls : state.calls task with
      | nil =>
          simp only [step, hcalls] at h
          obtain ⟨mutex, hmutex, rfl⟩ := Option.map_eq_some_iff.mp h
          rw [view, hcalls]
          exact ⟨.own, fun other hne ↦ view_of_lock hmutex hne⟩
      | cons point outer =>
          simp only [step, hcalls] at h
          cases h
  | unlockCore =>
      obtain ⟨⟨hcalls, hholds⟩, hafter⟩ := Option.ite_none_right_eq_some.mp h
      obtain rfl := Option.some.inj hafter
      rw [view, hcalls]
      exact ⟨.own, fun other hne ↦ view_of_unlock hholds hne⟩

/-! ## All tasks -/

/-- Every task keeps to its nesting. -/
def Sound (state : CoreState core) : Prop := ∀ task, ∃ before, Nested before (state.view task)

theorem sound_of_idle (h : ∀ task, state.calls task = []) : state.Sound := by
  intro task
  rw [view, h task]
  exact ⟨_, .idle⟩

/-- A call releases only what the task holds. -/
theorem Sound.holds_of_unlock (h : state.Sound) {outer : List Point}
    (hcalls : state.calls task = .unlock :: outer) : state.holdsTcpipCoreLock task = true := by
  obtain ⟨before, hnested⟩ := h task
  rw [view, hcalls] at hnested
  generalize state.holdsTcpipCoreLock task = holds at hnested ⊢
  cases hnested
  rfl

theorem Sound.moves {action : CoreAction} (h : state.Sound)
    (hstep : state.step (task, action) = some after) :
    Moves (state.view task) (after.view task) ∧
      ∀ other, other ≠ task → after.view other = state.view other :=
  moves_of_step hstep fun _ hcalls ↦ h.holds_of_unlock hcalls

theorem Sound.step {event : Task × CoreAction} (h : state.Sound)
    (hstep : state.step event = some after) : after.Sound := by
  obtain ⟨mover, action⟩ := event
  obtain ⟨hmover, hothers⟩ := h.moves hstep
  intro task
  obtain ⟨before, hnested⟩ := h task
  by_cases htask : task = mover
  · obtain rfl := htask
    exact hnested.exists_moves hmover
  · rw [hothers task htask]
    exact ⟨before, hnested⟩

/-- What a task held before its outermost call is remembered by the nesting until it returns. -/
theorem Sound.nested_step {event : Task × CoreAction} (h : state.Sound)
    (hstep : state.step event = some after) {before : Bool}
    (hnested : Nested before (state.view task)) (hcalls : state.calls task ≠ []) :
    Nested before (after.view task) := by
  obtain ⟨mover, action⟩ := event
  obtain ⟨hmover, hothers⟩ := h.moves hstep
  by_cases htask : task = mover
  · obtain rfl := htask
    exact hnested.moves hcalls hmover
  · rw [hothers task htask]
    exact hnested

theorem Sound.reaches {guard : CoreState core → Task × CoreAction → Prop} (h : state.Sound)
    (hreach : Reaches CoreState.step guard state after) : after.Sound :=
  hreach.invariant Sound h fun _ _ _ hsound _ hstep ↦ hsound.step hstep

theorem Sound.nested_reaches (h : state.Sound) {before : Bool}
    (hnested : Nested before (state.view task))
    (hreach : Reaches CoreState.step (InCall task) state after) :
    Nested before (after.view task) := by
  refine (hreach.invariant (fun reached ↦ reached.Sound ∧ Nested before (reached.view task))
    ⟨h, hnested⟩ fun _ _ _ hreached hcalls hstep ↦ ⟨hreached.1.step hstep, ?_⟩).2
  exact hreached.1.nested_step hstep hreached.2 hcalls

theorem Sound.holds_of_inside (h : state.Sound) (hinside : state.Inside task) :
    core.holder state.mutex = some task := by
  obtain ⟨before, hnested⟩ := h task
  obtain ⟨locked, hmem⟩ := hinside
  exact of_decide_eq_true (hnested.holds_of_closure hmem)

/-- From any state in which no call is under way, in every run of any number of tasks: no call locks
the mutex while its task holds it, a task in a closure holds the lock, no two tasks are in closures,
and an outermost call returns with the lock held if and only if it was held before. -/
theorem coreLock_nested {start : CoreState core} (hidle : ∀ task, start.calls task = [])
    (hreach : Reaches CoreState.step Unrestricted start state) :
    (∀ task outer, state.calls task = .lock :: outer →
        core.holder state.mutex ≠ some task) ∧
      (∀ task, state.Inside task → core.holder state.mutex = some task) ∧
      (∀ first second, state.Inside first → state.Inside second → first = second) ∧
      ∀ task called returned, state.calls task = [] → state.step (task, .call) = some called →
        Reaches CoreState.step (InCall task) called returned → returned.calls task = [] →
          (core.holder returned.mutex = some task ↔ core.holder state.mutex = some task) := by
  have hsound : state.Sound := (sound_of_idle hidle).reaches hreach
  refine ⟨?_, fun task ↦ hsound.holds_of_inside, ?_, ?_⟩
  · intro task outer hcalls hholder
    obtain ⟨before, hnested⟩ := hsound task
    have hholds : state.holdsTcpipCoreLock task = true := decide_eq_true hholder
    rw [view, hcalls, hholds] at hnested
    cases hnested
  · intro first second hfirst hsecond
    have hsame := (hsound.holds_of_inside hfirst).symm.trans (hsound.holds_of_inside hsecond)
    exact Option.some.inj hsame
  · intro task called returned hcalls hcall hrun hreturned
    have hstart : Nested (state.holdsTcpipCoreLock task) (called.view task) := by
      simp only [step, hcalls] at hcall
      obtain rfl := Option.some.inj hcall
      rw [view_setCalls_self]
      exact .test .idle
    have hend := (hsound.step hcall).nested_reaches hstart hrun
    rw [view, hreturned] at hend
    exact decide_eq_decide.mp (hend.holds_unique .idle)

/-- The lwIP thread is in a nested call while another task waits for the lock. -/
theorem coreLock_nested_waiting :
    ∃ state : CoreState (Mutex.plain Bool),
      Reaches CoreState.step Unrestricted ⟨none, fun _ ↦ []⟩ state ∧
        (state.calls true = [.closure false, .closure false] ∧ state.calls false = [.lock]) ∧
        state.mutex ≠ some false ∧ state.mutex = some true ∧
          ∀ second, state.Inside second → true = second := by
  obtain ⟨state, hreach, hlwip, hwaits⟩ := exists_reaches_of_runIf CoreState.step Unrestricted
    (⟨none, fun _ ↦ []⟩ : CoreState (Mutex.plain Bool))
    [(true, .lockCore), (true, .call), (false, .call), (true, .proceed), (true, .call),
      (false, .proceed), (true, .proceed)]
    (fun final ↦ final.calls true = [.closure false, .closure false] ∧ final.calls false = [.lock])
    (by decide)
  obtain ⟨hlock, hholds, hinside, -⟩ := coreLock_nested (fun _ ↦ rfl) hreach
  have htrue : state.Inside true := ⟨false, hlwip ▸ List.mem_cons_self⟩
  exact ⟨state, hreach, ⟨hlwip, hwaits⟩, hlock false [] hwaits, hholds true htrue,
    fun second hsecond ↦ hinside true second htrue hsecond⟩

end CoreState

end Derusting.Lwip
