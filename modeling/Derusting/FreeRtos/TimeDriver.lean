import Derusting.Foundations.Transition
import Mathlib.Tactic

/-!
# The time driver

`free_rtos/time_driver.rs`: the FreeRTOS tick counter has 32 bits and wraps after 49 days, so the
driver adds the wrapped difference of two readings to a 64-bit count.  The count is the true number
of ticks modulo `2 ^ 64` in every run in which two readings are less than `2 ^ 32` ticks apart.

The timer queue comes from `embassy_time_queue_utils`; it is a parameter here.
-/

namespace Derusting.FreeRtos

open Foundations.Transition

universe u v

/-- `embassy_time_queue_utils::Queue`: its state, and what the driver calls on it. -/
structure TimerQueue (Queue : Type u) (Waker : Type v) where
  new : Queue
  scheduleWake : Queue → UInt64 → Waker → Queue
  nextExpiration : Queue → UInt64 → UInt64 × Queue

/-- `FreeRtosTimeDriver`. -/
structure TimeDriver (Queue : Type u) where
  timekeeper : UInt64
  freeRtosNow : UInt32
  queue : Queue

variable {Queue : Type u} {Waker : Type v}

namespace TimeDriver

/-- The initial value of `DRIVER`. -/
def boot (timers : TimerQueue Queue Waker) : TimeDriver Queue := ⟨0, 0, timers.new⟩

/-- `now`, when the true number of ticks is `tick`. -/
def now (driver : TimeDriver Queue) (tick : ℕ) : UInt64 × TimeDriver Queue :=
  -- `xTaskGetTickCount`
  let freeRtosNow := UInt32.ofNat tick
  let tickDiff := freeRtosNow - driver.freeRtosNow
  if 0 < tickDiff then
    let timekeeper := driver.timekeeper + tickDiff.toUInt64
    (timekeeper, { driver with freeRtosNow := freeRtosNow, timekeeper := timekeeper })
  else (driver.timekeeper, driver)

/-- `schedule_wake`. -/
def scheduleWake (timers : TimerQueue Queue Waker) (driver : TimeDriver Queue) (time : UInt64)
    (waker : Waker) : TimeDriver Queue :=
  { driver with queue := timers.scheduleWake driver.queue time waker }

/-- `next_expiration`. -/
def nextExpiration (timers : TimerQueue Queue Waker) (driver : TimeDriver Queue) (tick : ℕ) :
    UInt64 × TimeDriver Queue :=
  let (now, driver) := driver.now tick
  let (expiration, queue) := timers.nextExpiration driver.queue now
  (expiration, { driver with queue := queue })

/-- `u64::saturating_sub`. -/
def saturatingSub (left right : UInt64) : UInt64 := if right ≤ left then left - right else 0

/-- `wait_for_interrupt_or_timeout`, with the true number of ticks at its three readings. The result
is the number of ticks it waits at most. -/
def waitForInterruptOrTimeout (timers : TimerQueue Queue Waker) (driver : TimeDriver Queue)
    (entered scheduled woken : ℕ) : UInt32 × TimeDriver Queue :=
  let (nowTicks, driver) := driver.now entered
  let (expTicks, driver) := driver.nextExpiration timers scheduled
  let diffTicks := min (saturatingSub expTicks nowTicks) 0xffffffff
  (diffTicks.toUInt32, (driver.nextExpiration timers woken).2)

/-! ## One reading -/

/-- The driver has last been read at the true number of ticks `last`. -/
structure Synced (last : ℕ) (driver : TimeDriver Queue) : Prop where
  timekeeper : driver.timekeeper.toNat = last % 2 ^ 64
  freeRtosNow : driver.freeRtosNow.toNat = last % 2 ^ 32

theorem synced_boot (timers : TimerQueue Queue Waker) : Synced 0 (boot timers) := ⟨rfl, rfl⟩

variable {driver : TimeDriver Queue} {last tick : ℕ}

/-- The wrapped difference of two readings is the true one while that fits into 32 bits. -/
theorem Synced.toNat_sub (h : Synced last driver) (hle : last ≤ tick) (hlt : tick < last + 2 ^ 32) :
    (UInt32.ofNat tick - driver.freeRtosNow).toNat = tick - last := by
  have hbefore := h.freeRtosNow
  have hnow : (UInt32.ofNat tick).toNat = tick % 2 ^ 32 := UInt32.toNat_ofNat'
  rw [UInt32.toNat_sub, hnow, hbefore]
  omega

theorem Synced.now (h : Synced last driver) (hle : last ≤ tick) (hlt : tick < last + 2 ^ 32) :
    (driver.now tick).1.toNat = tick % 2 ^ 64 ∧ Synced tick (driver.now tick).2 := by
  have hdiff := h.toNat_sub hle hlt
  have hkept := h.timekeeper
  rw [TimeDriver.now]
  by_cases hpos : 0 < UInt32.ofNat tick - driver.freeRtosNow
  · have hcount : (driver.timekeeper + (UInt32.ofNat tick - driver.freeRtosNow).toUInt64).toNat =
        tick % 2 ^ 64 := by
      rw [UInt64.toNat_add, UInt32.toNat_toUInt64, hdiff, hkept]
      omega
    rw [if_pos hpos]
    exact ⟨hcount, hcount, UInt32.toNat_ofNat'⟩
  · -- no tick has passed
    have hsame : tick = last := by
      rw [UInt32.lt_iff_toNat_lt, hdiff] at hpos
      have hzero : (0 : UInt32).toNat = 0 := rfl
      omega
    subst hsame
    rw [if_neg hpos]
    exact ⟨hkept, h⟩

theorem Synced.nextExpiration (timers : TimerQueue Queue Waker) (h : Synced last driver)
    (hle : last ≤ tick) (hlt : tick < last + 2 ^ 32) :
    Synced tick (driver.nextExpiration timers tick).2 := by
  have hnow := (h.now hle hlt).2
  exact ⟨hnow.timekeeper, hnow.freeRtosNow⟩

end TimeDriver

/-! ## Runs -/

/-- A reading: the true number of ticks and what `now` returns. -/
structure Reading where
  tick : ℕ
  value : UInt64

/-- A call into the driver, with the true number of ticks at each of its readings. -/
inductive Call (Waker : Type v) where
  | now (tick : ℕ)
  | nextExpiration (tick : ℕ)
  | waitForInterruptOrTimeout (entered scheduled woken : ℕ)
  | scheduleWake (time : UInt64) (waker : Waker)

/-- The true number of ticks at the readings of a call. -/
def Call.ticks : Call Waker → List ℕ
  | .now tick => [tick]
  | .nextExpiration tick => [tick]
  | .waitForInterruptOrTimeout entered scheduled woken => [entered, scheduled, woken]
  | .scheduleWake _ _ => []

/-- The driver with its readings, the latest first. -/
structure Timed (Queue : Type u) where
  driver : TimeDriver Queue
  readings : List Reading

namespace Timed

variable {timers : TimerQueue Queue Waker} {timed : Timed Queue}

def boot (timers : TimerQueue Queue Waker) : Timed Queue := ⟨.boot timers, []⟩

/-- The true number of ticks at the last reading. -/
def last (timed : Timed Queue) : ℕ :=
  match timed.readings with
  | [] => 0
  | reading :: _ => reading.tick

/-- One call. -/
def step (timers : TimerQueue Queue Waker) (timed : Timed Queue) : Call Waker → Option (Timed Queue)
  | .now tick =>
      let (value, driver) := timed.driver.now tick
      some ⟨driver, ⟨tick, value⟩ :: timed.readings⟩
  | .nextExpiration tick =>
      some ⟨(timed.driver.nextExpiration timers tick).2,
        ⟨tick, (timed.driver.now tick).1⟩ :: timed.readings⟩
  | .waitForInterruptOrTimeout entered scheduled woken =>
      let (first, driver) := timed.driver.now entered
      let (second, _) := driver.now scheduled
      let (third, _) := (driver.nextExpiration timers scheduled).2.now woken
      some ⟨(timed.driver.waitForInterruptOrTimeout timers entered scheduled woken).2,
        ⟨woken, third⟩ :: ⟨scheduled, second⟩ :: ⟨entered, first⟩ :: timed.readings⟩
  | .scheduleWake time waker =>
      some { timed with driver := timed.driver.scheduleWake timers time waker }

/-- Each reading follows the one before by less than `2 ^ 32` ticks. -/
def Paced : ℕ → List ℕ → Prop
  | _, [] => True
  | last, tick :: ticks => last ≤ tick ∧ tick < last + 2 ^ 32 ∧ Paced tick ticks

instance decidablePaced : (last : ℕ) → (ticks : List ℕ) → Decidable (Paced last ticks)
  | _, [] => inferInstanceAs (Decidable True)
  | last, tick :: ticks =>
      let _ := decidablePaced tick ticks
      inferInstanceAs (Decidable (last ≤ tick ∧ tick < last + 2 ^ 32 ∧ Paced tick ticks))

/-- The call reads the counter in time. -/
def InTime (timed : Timed Queue) (call : Call Waker) : Prop := Paced timed.last call.ticks

instance (timed : Timed Queue) (call : Call Waker) : Decidable (timed.InTime call) :=
  decidablePaced _ _

/-- Every reading is the true number of ticks modulo `2 ^ 64`, and the driver stands at the last
one. -/
structure Exact (timed : Timed Queue) : Prop where
  synced : TimeDriver.Synced timed.last timed.driver
  value : ∀ reading ∈ timed.readings, reading.value.toNat = reading.tick % 2 ^ 64
  ordered : timed.readings.Pairwise fun later earlier ↦ earlier.tick ≤ later.tick

theorem exact_boot : (boot timers).Exact :=
  ⟨TimeDriver.synced_boot timers, fun _ hmem ↦ (nomatch hmem), .nil⟩

/-- One more reading. -/
theorem Exact.read (h : timed.Exact) {tick : ℕ} {value : UInt64} {driver : TimeDriver Queue}
    (hle : timed.last ≤ tick) (hvalue : value.toNat = tick % 2 ^ 64)
    (hsynced : TimeDriver.Synced tick driver) :
    Exact ⟨driver, ⟨tick, value⟩ :: timed.readings⟩ := by
  refine ⟨hsynced, ?_, List.pairwise_cons.mpr ⟨?_, h.ordered⟩⟩
  · intro reading hreading
    rcases List.mem_cons.mp hreading with rfl | hold
    · exact hvalue
    · exact h.value reading hold
  · intro earlier hearlier
    refine le_trans ?_ hle
    have hordered := h.ordered
    cases hreadings : timed.readings with
    | nil =>
        rw [hreadings] at hearlier
        cases hearlier
    | cons first older =>
        rw [hreadings] at hearlier hordered
        rw [last, hreadings]
        rcases List.mem_cons.mp hearlier with rfl | hold
        · exact le_rfl
        · exact (List.pairwise_cons.mp hordered).1 earlier hold

theorem Exact.step (h : timed.Exact) {call : Call Waker} {later : Timed Queue}
    (hintime : timed.InTime call) (hstep : timed.step timers call = some later) : later.Exact := by
  cases call with
  | now tick =>
      obtain ⟨hle, hlt, -⟩ := hintime
      obtain ⟨hvalue, hsynced⟩ := h.synced.now hle hlt
      rw [← Option.some.inj hstep]
      exact h.read hle hvalue hsynced
  | nextExpiration tick =>
      obtain ⟨hle, hlt, -⟩ := hintime
      rw [← Option.some.inj hstep]
      exact h.read hle (h.synced.now hle hlt).1 (h.synced.nextExpiration timers hle hlt)
  | waitForInterruptOrTimeout entered scheduled woken =>
      obtain ⟨hentered, hentered', hscheduled, hscheduled', hwoken, hwoken', -⟩ := hintime
      obtain ⟨hfirst, hsynced⟩ := h.synced.now hentered hentered'
      have hafter := hsynced.nextExpiration timers hscheduled hscheduled'
      have hread := h.read hentered hfirst hsynced
      have hread := hread.read hscheduled (hsynced.now hscheduled hscheduled').1 hafter
      rw [← Option.some.inj hstep]
      exact hread.read hwoken (hafter.now hwoken hwoken').1
        (hafter.nextExpiration timers hwoken hwoken')
  | scheduleWake time waker =>
      rw [← Option.some.inj hstep]
      exact ⟨⟨h.synced.timekeeper, h.synced.freeRtosNow⟩, h.value, h.ordered⟩

theorem Exact.of_reaches (h : Reaches (Timed.step timers) InTime (boot timers) timed) :
    timed.Exact :=
  h.invariant Exact exact_boot fun _ _ _ hbefore hintime hstep ↦ hbefore.step hintime hstep

/-- `Instant::elapsed` of `earlier`, when `now` returns `value`; `none` stands for its panic. -/
def elapsed (value earlier : UInt64) : Option UInt64 :=
  if earlier ≤ value then some (value - earlier) else none

theorem elapsed_of_le {value earlier : UInt64} (h : earlier.toNat ≤ value.toNat) :
    ∃ duration, elapsed value earlier = some duration ∧
      duration.toNat = value.toNat - earlier.toNat := by
  have hle : earlier ≤ value := UInt64.le_iff_toNat_le.mpr h
  exact ⟨value - earlier, if_pos hle, UInt64.toNat_sub_of_le _ _ hle⟩

/-- In every run in which two readings are less than `2 ^ 32` ticks apart, `now` returns the true
number of ticks as long as that fits into 64 bits; so it never goes back, and the time elapsed since
an earlier reading is defined and right. -/
theorem now_exact (timers : TimerQueue Queue Waker)
    (h : Reaches (step timers) InTime (boot timers) timed) :
    (∀ reading ∈ timed.readings, reading.tick < 2 ^ 64 → reading.value.toNat = reading.tick) ∧
    timed.readings.Pairwise fun later earlier ↦ later.tick < 2 ^ 64 →
      earlier.value ≤ later.value ∧ ∃ duration, elapsed later.value earlier.value = some duration ∧
        duration.toNat = later.tick - earlier.tick := by
  have hexact := Exact.of_reaches h
  have hvalue : ∀ reading ∈ timed.readings, reading.tick < 2 ^ 64 →
      reading.value.toNat = reading.tick := by
    intro reading hreading hfits
    rw [hexact.value reading hreading, Nat.mod_eq_of_lt hfits]
  refine ⟨hvalue, hexact.ordered.imp_of_mem ?_⟩
  intro later earlier hlater hearlier hle hfits
  have hnow := hvalue later hlater hfits
  have hthen := hvalue earlier hearlier (hle.trans_lt hfits)
  have hvalues : earlier.value.toNat ≤ later.value.toNat := by rw [hnow, hthen]; exact hle
  obtain ⟨duration, helapsed, hduration⟩ := elapsed_of_le hvalues
  exact ⟨UInt64.le_iff_toNat_le.mpr hvalues, duration, helapsed, by rw [hduration, hnow, hthen]⟩

/-- A queue without timers. -/
def idleTimers : TimerQueue Unit Unit where
  new := ()
  scheduleWake queue _ _ := queue
  nextExpiration queue _ := (0xffffffffffffffff, queue)

/-- A reading just before the counter wraps, a wait across the wrap, and one just before it wraps
again. -/
def acrossWraps : List (Call Unit) :=
  [.now 4294967295, .waitForInterruptOrTimeout 4294967295 4294967296 4294967300, .now 8589934591]

theorem now_exact_acrossWraps :
    ∃ timed, Reaches (step idleTimers) InTime (boot idleTimers) timed ∧
      ∃ reading ∈ timed.readings, reading.tick = 8589934591 ∧ reading.value.toNat = 8589934591 := by
  obtain ⟨timed, hreach, reading, hreading, htick⟩ := exists_reaches_of_runIf (step idleTimers)
    InTime (boot idleTimers) acrossWraps
    (fun timed ↦ ∃ reading ∈ timed.readings, reading.tick = 8589934591) (by decide +kernel)
  refine ⟨timed, hreach, reading, hreading, htick, ?_⟩
  rw [(now_exact idleTimers hreach).1 reading hreading (by rw [htick]; decide), htick]

/-- The counter can be read at every tick. -/
theorem exists_read (timers : TimerQueue Queue Waker) (tick : ℕ) :
    ∃ timed, Reaches (step timers) InTime (boot timers) timed ∧ timed.last = tick ∧
      ∃ reading ∈ timed.readings, reading.tick = tick := by
  induction tick with
  | zero =>
      have hlast : (boot timers).last = 0 := rfl
      have hread : InTime (boot timers) (.now 0 : Call Waker) := by
        refine ⟨hlast.le, ?_, trivial⟩
        rw [hlast]
        omega
      exact ⟨_, .tail .refl hread rfl, rfl, _, List.mem_cons_self, rfl⟩
  | succ tick ih =>
      obtain ⟨timed, hreach, hlast, -⟩ := ih
      have hread : timed.InTime (.now (tick + 1) : Call Waker) := by
        refine ⟨?_, ?_, trivial⟩ <;> rw [hlast] <;> omega
      exact ⟨_, .tail hreach hread rfl, rfl, _, List.mem_cons_self, rfl⟩

/-- A reading that does not fit into 64 bits is not the true number of ticks. -/
theorem exists_wrong (timers : TimerQueue Queue Waker) {tick : ℕ} (h : 2 ^ 64 ≤ tick) :
    ∃ timed, Reaches (step timers) InTime (boot timers) timed ∧
      ∃ reading ∈ timed.readings, reading.tick = tick ∧ reading.value.toNat ≠ reading.tick := by
  obtain ⟨timed, hreach, -, reading, hreading, htick⟩ := exists_read timers tick
  refine ⟨timed, hreach, reading, hreading, htick, ?_⟩
  rw [htick]
  exact (reading.value.toNat_lt.trans_le h).ne

theorem now_wrong_at_two_pow_sixtyFour :
    ∃ timed, Reaches (step idleTimers) InTime (boot idleTimers) timed ∧
      ∃ reading ∈ timed.readings, reading.tick = 2 ^ 64 ∧ reading.value.toNat ≠ reading.tick :=
  exists_wrong idleTimers le_rfl

end Timed

end Derusting.FreeRtos
