import Mathlib.Logic.Basic
import Mathlib.Data.Option.Basic

/-!
# Mutexes that know their holder

A mutex of an operating system as far as a program relies on it: `lock` comes back only when nobody
held the mutex, the holder is then the task that called it, and `unlock` by the holder frees it.  It
is not recursive: a holder that calls `lock` again waits for itself.
-/

namespace Foundations

universe u

/-- A mutex for a type of tasks. The result of `lock` is `none` while the task has to wait. -/
structure Mutex (Task : Type u) where
  State : Type u
  holder : State → Option Task
  lock : State → Task → Option State
  unlock : State → Task → State
  holder_of_lock : ∀ {state after task}, lock state task = some after → holder state = none
  holder_lock : ∀ {state after task}, lock state task = some after → holder after = some task
  holder_unlock : ∀ {state task}, holder state = some task → holder (unlock state task) = none

namespace Mutex

variable {Task : Type u}

/-- A mutex that is nothing but its holder. -/
def plain (Task : Type u) : Mutex Task where
  State := Option Task
  holder state := state
  lock state task :=
    match state with
    | none => some (some task)
    | some _ => none
  unlock _ _ := none
  holder_of_lock {state _ _} h := by
    cases state with
    | none => rfl
    | some holder => cases h
  holder_lock {state _ _} h := by
    cases state with
    | none => exact (Option.some.inj h).symm
    | some holder => cases h
  holder_unlock _ := rfl

variable {mutex : Mutex Task} {state after : mutex.State} {task other : Task}

/-- The other tasks hold it neither before nor after. -/
theorem holder_iff_of_lock (h : mutex.lock state task = some after) (hne : other ≠ task) :
    mutex.holder after = some other ↔ mutex.holder state = some other := by
  rw [mutex.holder_lock h, mutex.holder_of_lock h, Option.some.injEq]
  exact iff_of_false (Ne.symm hne) nofun

theorem holder_iff_of_unlock (h : mutex.holder state = some task) (hne : other ≠ task) :
    mutex.holder (mutex.unlock state task) = some other ↔ mutex.holder state = some other := by
  rw [mutex.holder_unlock h, h, Option.some.injEq]
  exact iff_of_false nofun (Ne.symm hne)

end Mutex

end Foundations
