import Derusting.Foundations.Doorbell
import Derusting.FreeRtos.TimeDriver

/-!
# The executor

`free_rtos/executor.rs`: `FreeRtosTaskExecutor::run` polls the tasks that have been woken, waits
until it is notified or the next timer is due, and starts again; `__pender` notifies it.  Its tasks,
interrupts and the other tasks of FreeRTOS wake a task at any point of the loop.  No wake-up is lost
on the way, and no timer is overslept.

`embassy_executor`, `embassy_time_queue_utils` and the notification of FreeRTOS are parameters here,
with what the loop relies on.
-/

namespace Derusting.FreeRtos

open Foundations Foundations.Transition

universe u v w

/-- `embassy_executor::raw::Executor`: `wake` makes a task run, the first time as it is spawned, and
tells whether it calls the pender; `dequeueAll` is the start of `poll`, and `next` the task that
`poll` polls next. It calls the pender for the first task in the queue. -/
structure RawExecutor (State : Type u) (Task : Type w) where
  new : State
  wake : State → Task → Bool × State
  dequeueAll : State → State
  next : State → Option (Task × State)
  /-- The run queue. -/
  queued : State → Set Task
  /-- What `poll` has taken from it and not polled yet. -/
  taken : State → Set Task
  queued_new : queued new = ∅
  taken_new : taken new = ∅
  taken_wake : ∀ state task, taken (wake state task).2 = taken state
  wake_again : ∀ {state task}, task ∈ queued state ∪ taken state → wake state task = (false, state)
  queued_wake : ∀ {state task}, task ∉ queued state ∪ taken state →
    queued (wake state task).2 = insert task (queued state)
  pends_wake : ∀ {state task}, task ∉ queued state ∪ taken state →
    ((wake state task).1 = true ↔ queued state = ∅)
  queued_dequeueAll : ∀ state, queued (dequeueAll state) = ∅
  taken_dequeueAll : ∀ {state}, taken state = ∅ → taken (dequeueAll state) = queued state
  taken_of_none : ∀ {state}, next state = none → taken state = ∅
  queued_of_some : ∀ {state after task}, next state = some (task, after) →
    queued after = queued state
  taken_of_some : ∀ {state after task}, next state = some (task, after) →
    taken state = insert task (taken after)

/-- The timer queue with what it holds: `next_expiration` wakes the tasks in `expired`. It keeps one
timer a task, the earliest that the task has asked for; there is room for one for each task. -/
structure Timers (Queue : Type v) (Task : Type w) extends TimerQueue Queue Task where
  expired : Queue → UInt64 → List Task
  due : Queue → Task → Option UInt64
  exists_due_scheduleWake : ∀ queue time task,
    ∃ earlier ≤ time, due (scheduleWake queue time task) task = some earlier
  exists_due_of_due : ∀ {queue time task other limit}, due queue other = some limit →
    ∃ earlier ≤ limit, due (scheduleWake queue time task) other = some earlier
  mem_expired : ∀ {queue now task}, task ∈ expired queue now ↔
    ∃ time, due queue task = some time ∧ time ≤ now
  due_nextExpiration : ∀ {queue now task time}, due (nextExpiration queue now).2 task = some time ↔
    due queue task = some time ∧ now < time
  nextExpiration_le : ∀ {queue now task time}, due queue task = some time → now < time →
    (nextExpiration queue now).1 ≤ time

/-- The notification of a FreeRTOS task: `increment` is what `xTaskGenericNotify` and
`xTaskGenericNotifyFromISR` do to it with `eIncrement`, and `clear` what `ulTaskGenericNotifyTake`
leaves of it on its return. -/
structure Notification where
  State : Type
  new : State
  value : State → UInt32
  increment : State → State
  clear : State → State
  value_new : value new = 0
  value_increment : ∀ state, value (increment state) = value state + 1
  value_clear : ∀ state, value (clear state) = 0

/-- A notification that is nothing but its value. -/
def Notification.plain : Notification where
  State := UInt32
  new := 0
  value state := state
  increment state := state + 1
  clear _ := 0
  value_new := rfl
  value_increment _ := rfl
  value_clear _ := rfl

/-- What FreeRTOS keeps for the executor: the notification of its task, and whether a context switch
is pending. -/
structure Kernel (notification : Notification) where
  notified : notification.State
  pendSv : Bool

variable {notification : Notification}

/-- The notification value of the executor's task. -/
def Kernel.value (kernel : Kernel notification) : UInt32 := notification.value kernel.notified

/-- `xTaskGenericNotify` and `xTaskGenericNotifyFromISR` with `eIncrement`. -/
def Kernel.genericNotify (kernel : Kernel notification) : Kernel notification :=
  { kernel with notified := notification.increment kernel.notified }

/-- `__pender`; `higherPriorityTaskWoken` is what FreeRTOS says in an interrupt. -/
def pender (context : Option ℕ) (ipsr : UInt32) (higherPriorityTaskWoken : Bool)
    (kernel : Kernel notification) : Kernel notification :=
  match context with
  | none => kernel
  | some _ =>
      if ipsr ≠ 0 then
        let kernel := kernel.genericNotify
        if higherPriorityTaskWoken then { kernel with pendSv := true } else kernel
      else kernel.genericNotify

theorem value_pender (handle : ℕ) (ipsr : UInt32) (higherPriorityTaskWoken : Bool)
    (kernel : Kernel notification) :
    (pender (some handle) ipsr higherPriorityTaskWoken kernel).value = kernel.value + 1 := by
  have hnotify : notification.value (notification.increment kernel.notified) = kernel.value + 1 :=
    notification.value_increment kernel.notified
  by_cases hipsr : ipsr ≠ 0
  · cases higherPriorityTaskWoken <;>
      simp [pender, hipsr, Kernel.genericNotify, Kernel.value, hnotify]
  · simp [pender, hipsr, Kernel.genericNotify, Kernel.value, hnotify]

/-- Where `run` stands; the stages from `entered` on are those of
`wait_for_interrupt_or_timeout`. -/
inductive Stage (Task : Type w) where
  | init
  | poll
  | polling (current : Option Task)
  | entered
  | measured (nowTicks : UInt64)
  | take (ticks : UInt32)
  | blocked (deadline : Option ℕ)
  | woken

/-- The notification value has been cleared since the run queue was last taken. -/
def Stage.answered {Task : Type w} : Stage Task → Bool
  | .init | .poll | .woken => true
  | .polling _ | .entered | .measured _ | .take _ | .blocked _ => false

/-- The executor, at the true number of ticks `tick`, with the number at the last reading, at the
first one of the current wait and at its `ulTaskGenericNotifyTake`. Its observations are the tasks
woken since they were last polled, and the timers asked for since then. -/
structure Executor (notification : Notification) (State : Type u) (Queue : Type v)
    (Task : Type w) where
  inner : State
  driver : TimeDriver Queue
  kernel : Kernel notification
  stage : Stage Task
  tick : ℕ
  read : ℕ
  entered : ℕ
  took : ℕ
  owed : List Task
  asked : List (Task × UInt64)

/-- What happens: a task is woken, the task that is being polled asks for a timer, time passes, or
the loop goes on. -/
inductive ExecutorEvent (Task : Type w) where
  | wake (task : Task) (ipsr : UInt32) (higherPriorityTaskWoken : Bool)
  | scheduleWake (time : UInt64)
  | elapse (ticks : ℕ)
  | advance

namespace Executor

variable {State : Type u} {Queue : Type v} {Task : Type w}

/-- `FreeRtosTaskExecutor::new`. -/
def boot (raw : RawExecutor State Task) (timers : Timers Queue Task) :
    Executor notification State Queue Task where
  inner := raw.new
  driver := .boot timers.toTimerQueue
  kernel := ⟨notification.new, false⟩
  stage := .init
  tick := 0
  read := 0
  entered := 0
  took := 0
  owed := []
  asked := []

/-- A task is woken. -/
def wake (raw : RawExecutor State Task) (context : Option ℕ) (ipsr : UInt32)
    (higherPriorityTaskWoken : Bool) (executor : Executor notification State Queue Task)
    (task : Task) : Executor notification State Queue Task :=
  let (pends, inner) := raw.wake executor.inner task
  { executor with
    inner := inner
    kernel := if pends then pender context ipsr higherPriorityTaskWoken executor.kernel
      else executor.kernel
    owed := task :: executor.owed }

/-- `next_expiration`, with the tasks that it wakes. -/
def expire (raw : RawExecutor State Task) (timers : Timers Queue Task) (context : Option ℕ)
    (executor : Executor notification State Queue Task) :
    UInt64 × Executor notification State Queue Task :=
  let (now, driver) := executor.driver.now executor.tick
  let woken := (timers.expired driver.queue now).foldl (wake raw context 0 false) executor
  let (expTicks, driver) := executor.driver.nextExpiration timers.toTimerQueue executor.tick
  (expTicks, { woken with driver := driver, read := executor.tick })

/-- `ulTaskGenericNotifyTake` returns, and has cleared the notification value. -/
def unblock (executor : Executor notification State Queue Task) :
    Executor notification State Queue Task :=
  { executor with
    kernel := { executor.kernel with notified := notification.clear executor.kernel.notified }
    stage := .woken }

/-- The loop of `run` goes on. -/
def advance [DecidableEq Task] (raw : RawExecutor State Task) (timers : Timers Queue Task)
    (context : Option ℕ) (executor : Executor notification State Queue Task) :
    Option (Executor notification State Queue Task) :=
  match executor.stage with
  | .init => some { executor with stage := .poll }
  | .poll => some { executor with
      inner := raw.dequeueAll executor.inner
      stage := .polling none }
  | .polling _ =>
      match raw.next executor.inner with
      | some (task, inner) => some { executor with
          inner := inner
          stage := .polling (some task)
          owed := executor.owed.filter (· ≠ task)
          asked := executor.asked.filter (·.1 ≠ task) }
      | none => some { executor with stage := .entered }
  | .entered =>
      let (nowTicks, driver) := executor.driver.now executor.tick
      some { executor with
        driver := driver
        stage := .measured nowTicks
        read := executor.tick
        entered := executor.tick }
  | .measured nowTicks =>
      let (expTicks, executor) := executor.expire raw timers context
      let diffTicks := min (TimeDriver.saturatingSub expTicks nowTicks) 0xffffffff
      some { executor with stage := .take diffTicks.toUInt32 }
  | .take ticks =>
      if 0 < executor.kernel.value ∨ ticks = 0 then
        some { executor.unblock with took := executor.tick }
      else
        -- FreeRTOS waits without limit for `portMAX_DELAY`
        some { executor with
          took := executor.tick
          stage := .blocked (if ticks = 0xffffffff then none
            else some (executor.tick + ticks.toNat)) }
  | .blocked deadline =>
      if 0 < executor.kernel.value ∨ (∃ limit ∈ deadline, limit ≤ executor.tick) then
        some executor.unblock
      else none
  | .woken => some { (executor.expire raw timers context).2 with stage := .poll }

/-- The task of the executor is blocked, and nothing but its deadline unblocks it. -/
def Asleep (executor : Executor notification State Queue Task) : Prop :=
  match executor.stage with
  | .blocked _ => executor.kernel.value = 0
  | _ => False

instance (executor : Executor notification State Queue Task) : Decidable executor.Asleep :=
  match executor with
  | ⟨_, _, kernel, .blocked _, _, _, _, _, _, _⟩ =>
      inferInstanceAs (Decidable (kernel.value = 0))
  | ⟨_, _, _, .init, _, _, _, _, _, _⟩ => .isFalse id
  | ⟨_, _, _, .poll, _, _, _, _, _, _⟩ => .isFalse id
  | ⟨_, _, _, .polling _, _, _, _, _, _, _⟩ => .isFalse id
  | ⟨_, _, _, .entered, _, _, _, _, _, _⟩ => .isFalse id
  | ⟨_, _, _, .measured _, _, _, _, _, _, _⟩ => .isFalse id
  | ⟨_, _, _, .take _, _, _, _, _, _, _⟩ => .isFalse id
  | ⟨_, _, _, .woken, _, _, _, _, _, _⟩ => .isFalse id

/-- The tick at which FreeRTOS unblocks the task. -/
def deadline? (executor : Executor notification State Queue Task) : Option ℕ :=
  match executor.stage with
  | .blocked deadline => deadline
  | _ => none

/-- One event. The executor does not sleep past its deadline. -/
def step [DecidableEq Task] (raw : RawExecutor State Task) (timers : Timers Queue Task)
    (context : Option ℕ) (executor : Executor notification State Queue Task) :
    ExecutorEvent Task → Option (Executor notification State Queue Task)
  | .wake task ipsr higherPriorityTaskWoken =>
      some (executor.wake raw context ipsr higherPriorityTaskWoken task)
  | .scheduleWake time =>
      match executor.stage with
      | .polling (some task) => some { executor with
          driver := executor.driver.scheduleWake timers.toTimerQueue time task
          asked := (task, time) :: executor.asked }
      | _ => none
  | .elapse ticks =>
      if executor.Asleep ∧ ∃ limit ∈ executor.deadline?, limit < executor.tick + ticks then none
      else some { executor with tick := executor.tick + ticks }
  | .advance => executor.advance raw timers context

/-! ## Waking up -/

variable {raw : RawExecutor State Task} {timers : Timers Queue Task} {handle : ℕ}
  {executor after : Executor notification State Queue Task}

/-- The notification is a doorbell: a task in the run queue is an item that waits, and the executor
answers when its wait is over. -/
def bell (raw : RawExecutor State Task) (executor : Executor notification State Queue Task) :
    Doorbell Task where
  waiting := raw.queued executor.inner
  rung := executor.kernel.value.toNat
  answered := executor.stage.answered

/-- The doorbell is heard; a task that is owed a poll is in the queue or has been taken from it, and
only while `poll` runs; and a timer that a task has asked for is still there, at that time or an
earlier one, unless the task has been woken. -/
structure Sound (raw : RawExecutor State Task) (timers : Timers Queue Task)
    (executor : Executor notification State Queue Task) : Prop where
  heard : (executor.bell raw).Heard
  owed : ∀ task ∈ executor.owed, task ∈ raw.queued executor.inner ∪ raw.taken executor.inner
  taken : (∀ current, executor.stage ≠ .polling current) → raw.taken executor.inner = ∅
  asked : ∀ entry ∈ executor.asked, entry.1 ∈ executor.owed ∨
    ∃ time ≤ entry.2, timers.due executor.driver.queue entry.1 = some time

theorem sound_boot (raw : RawExecutor State Task) (timers : Timers Queue Task) :
    (boot raw timers : Executor notification State Queue Task).Sound raw timers where
  heard := by
    have hzero :
        ((boot raw timers : Executor notification State Queue Task).bell raw).rung = 0 := by
      rw [bell, boot, Kernel.value, notification.value_new, UInt32.toNat_zero]
    exact ⟨fun hanswered ↦ Bool.noConfusion hanswered, hzero.le.trans (Nat.zero_le _),
      fun _ ↦ hzero.le.trans (Nat.zero_le _)⟩
  owed := by simp [boot]
  taken _ := raw.taken_new
  asked := by simp [boot]

/-- Another stage between the same two answers. -/
theorem Sound.move (h : executor.Sound raw timers) {stage : Stage Task}
    (hanswered : stage.answered = executor.stage.answered)
    (htaken : raw.taken executor.inner = ∅) :
    Sound raw timers { executor with stage := stage } where
  heard := by
    have hheard := h.heard
    rw [bell, ← hanswered] at hheard
    exact hheard
  owed := h.owed
  taken _ := htaken
  asked := h.asked

/-- The pender is called for the first task in the queue, so the task is in the queue with a
notification or with others that came with one. -/
theorem Sound.wake (h : executor.Sound raw timers) (ipsr : UInt32) (higherPriorityTaskWoken : Bool)
    (task : Task) :
    (executor.wake raw (some handle) ipsr higherPriorityTaskWoken task).Sound raw timers := by
  have hasked : ∀ entry ∈ executor.asked, entry.1 ∈ task :: executor.owed ∨
      ∃ time ≤ entry.2, timers.due executor.driver.queue entry.1 = some time :=
    fun entry hentry ↦ (h.asked entry hentry).imp_left (List.mem_cons_of_mem task)
  by_cases hmem : task ∈ raw.queued executor.inner ∪ raw.taken executor.inner
  · rw [Executor.wake, raw.wake_again hmem]
    refine ⟨h.heard, ?_, h.taken, hasked⟩
    intro other hother
    rcases List.mem_cons.mp hother with rfl | hold
    · exact hmem
    · exact h.owed other hold
  · have hqueued := raw.queued_wake hmem
    have htaken := raw.taken_wake executor.inner task
    refine ⟨?_, ?_, fun hstage ↦ htaken.trans (h.taken hstage), hasked⟩
    · by_cases hempty : raw.queued executor.inner = ∅
      · have hring := h.heard.leave_ringing task hempty
        have hpends : (raw.wake executor.inner task).1 = true := (raw.pends_wake hmem).mpr hempty
        have hlt : executor.kernel.value.toNat + 1 < 2 ^ 32 :=
          (Nat.succ_le_succ h.heard.le_two).trans_lt (by decide)
        simpa only [bell, Executor.wake, hpends, if_true, value_pender, hqueued,
          UInt32.toNat_add, UInt32.toNat_one, Nat.mod_eq_of_lt hlt] using hring
      · have hsilent := h.heard.leave_silently task (Set.nonempty_iff_ne_empty.mpr hempty)
        have hpends : (raw.wake executor.inner task).1 = false := by
          rw [← Bool.not_eq_true, raw.pends_wake hmem]
          exact hempty
        simpa only [bell, Executor.wake, hpends, Bool.false_eq_true, if_false, hqueued] using
          hsilent
    · intro other hother
      simp only [Executor.wake, hqueued, htaken]
      rcases List.mem_cons.mp hother with rfl | hold
      · exact Or.inl (Set.mem_insert other _)
      · exact (h.owed other hold).imp_left (Set.mem_insert_of_mem task)

/-- The tasks that `next_expiration` wakes. -/
def wakeAll (raw : RawExecutor State Task) (context : Option ℕ) (tasks : List Task)
    (executor : Executor notification State Queue Task) : Executor notification State Queue Task :=
  tasks.foldl (Executor.wake raw context 0 false) executor

/-- A field that no wake-up touches. -/
theorem wakeAll_frame {α : Type*} (field : Executor notification State Queue Task → α)
    {context : Option ℕ} (hframe : ∀ (executor : Executor notification State Queue Task) task,
      field (executor.wake raw context 0 false task) = field executor) (tasks : List Task) :
    field (executor.wakeAll raw context tasks) = field executor := by
  induction tasks generalizing executor with
  | nil => rfl
  | cons task tasks ih => exact ih.trans (hframe executor task)

theorem mem_owed_wakeAll {context : Option ℕ} {tasks : List Task} {task : Task} :
    task ∈ (executor.wakeAll raw context tasks).owed ↔ task ∈ tasks ∨ task ∈ executor.owed := by
  induction tasks generalizing executor with
  | nil => simp [wakeAll]
  | cons first tasks ih =>
      have hfirst : (executor.wake raw context 0 false first).owed = first :: executor.owed := rfl
      rw [wakeAll, List.foldl_cons, ← wakeAll, ih, hfirst, List.mem_cons, List.mem_cons]
      tauto

theorem Sound.wakeAll (h : executor.Sound raw timers) (tasks : List Task) :
    (executor.wakeAll raw (some handle) tasks).Sound raw timers := by
  induction tasks generalizing executor with
  | nil => exact h
  | cons task tasks ih => exact ih (h.wake 0 false task)

theorem queue_now (driver : TimeDriver Queue) (tick : ℕ) :
    (driver.now tick).2.queue = driver.queue := by
  rw [TimeDriver.now]
  by_cases hpos : 0 < UInt32.ofNat tick - driver.freeRtosNow
  · rw [if_pos hpos]
  · rw [if_neg hpos]

section Frame

variable {context : Option ℕ}

@[simp] theorem stage_expire : (executor.expire raw timers context).2.stage = executor.stage :=
  wakeAll_frame Executor.stage (fun _ _ ↦ rfl) _

@[simp] theorem asked_expire : (executor.expire raw timers context).2.asked = executor.asked :=
  wakeAll_frame Executor.asked (fun _ _ ↦ rfl) _

@[simp] theorem tick_expire : (executor.expire raw timers context).2.tick = executor.tick :=
  wakeAll_frame Executor.tick (fun _ _ ↦ rfl) _

@[simp] theorem entered_expire :
    (executor.expire raw timers context).2.entered = executor.entered :=
  wakeAll_frame Executor.entered (fun _ _ ↦ rfl) _

/-- The stages from `entered` on compute what `waitForInterruptOrTimeout` computes. -/
theorem waitForInterruptOrTimeout_eq (entered scheduled woken : ℕ) :
    executor.driver.waitForInterruptOrTimeout timers.toTimerQueue entered scheduled woken =
      let (nowTicks, driver) := executor.driver.now entered
      let (expTicks, waiting) := expire raw timers context
        { executor with driver := driver, tick := scheduled }
      ((min (TimeDriver.saturatingSub expTicks nowTicks) 0xffffffff).toUInt32,
        (expire raw timers context { waiting with tick := woken }).2.driver) :=
  rfl

end Frame

/-- A timer that `next_expiration` removes has woken its task. -/
theorem Sound.expire (h : executor.Sound raw timers) :
    (executor.expire raw timers (some handle)).2.Sound raw timers := by
  have hwoken : (executor.wakeAll raw (some handle) (timers.expired
      (executor.driver.now executor.tick).2.queue (executor.driver.now executor.tick).1)).Sound
        raw timers := h.wakeAll _
  refine ⟨hwoken.heard, hwoken.owed, hwoken.taken, ?_⟩
  intro entry hentry
  rw [asked_expire] at hentry
  rcases h.asked entry hentry with howed | ⟨time, hle, hdue⟩
  · exact .inl (mem_owed_wakeAll.mpr (.inr howed))
  · rw [← queue_now executor.driver executor.tick] at hdue
    by_cases hexpired : time ≤ (executor.driver.now executor.tick).1
    · exact .inl (mem_owed_wakeAll.mpr (.inl (timers.mem_expired.mpr ⟨time, hdue, hexpired⟩)))
    · exact .inr ⟨time, hle,
        timers.due_nextExpiration.mpr ⟨hdue, UInt64.not_le.mp hexpired⟩⟩

/-- The wait is over. -/
theorem Sound.unblock (h : executor.Sound raw timers) (htaken : raw.taken executor.inner = ∅) :
    executor.unblock.Sound raw timers := by
  refine ⟨?_, h.owed, fun _ ↦ htaken, h.asked⟩
  have hanswer : executor.unblock.bell raw = (executor.bell raw).answer := by
    rw [bell, Executor.unblock, Kernel.value, notification.value_clear, UInt32.toNat_zero]
    rfl
  rw [hanswer]
  exact Doorbell.heard_answer (executor.bell raw)

/-- `poll` takes the run queue. -/
theorem Sound.dequeueAll (h : executor.Sound raw timers) (hstage : executor.stage = .poll) :
    Sound raw timers { executor with
      inner := raw.dequeueAll executor.inner
      stage := .polling none } := by
  have htaken : raw.taken executor.inner = ∅ := h.taken (by simp [hstage])
  have hanswered : (executor.bell raw).answered = true := by rw [bell, hstage]; rfl
  refine ⟨?_, ?_, fun hne ↦ absurd rfl (hne none), h.asked⟩
  · have hcollect := h.heard.collect hanswered
    simpa only [bell, Doorbell.collect, raw.queued_dequeueAll, Stage.answered] using hcollect
  · intro task howed
    have hmem := h.owed task howed
    rw [htaken, Set.union_empty] at hmem
    rw [raw.taken_dequeueAll htaken]
    exact Set.mem_union_right _ hmem

/-- A notification comes before the executor can fall asleep. -/
theorem Sound.owed_of_asleep (h : executor.Sound raw timers) (hasleep : executor.Asleep) :
    executor.owed = [] := by
  rw [Asleep] at hasleep
  cases hstage : executor.stage with
  | blocked deadline =>
      rw [hstage] at hasleep
      have hanswered : (executor.bell raw).answered = false := by rw [bell, hstage]; rfl
      have hqueued : raw.queued executor.inner = ∅ := by
        by_contra hne
        have hrung := h.heard.rung hanswered (Set.nonempty_iff_ne_empty.mpr hne)
        have hzero : (executor.bell raw).rung = 0 := by rw [bell, hasleep]; rfl
        exact hrung.ne' hzero
      apply List.eq_nil_iff_forall_not_mem.mpr
      intro task howed
      have hmem := h.owed task howed
      rw [hqueued, h.taken (by simp [hstage]), Set.union_empty] at hmem
      exact hmem
  | init => simp [hstage] at hasleep
  | poll => simp [hstage] at hasleep
  | polling current => simp [hstage] at hasleep
  | entered => simp [hstage] at hasleep
  | measured nowTicks => simp [hstage] at hasleep
  | take ticks => simp [hstage] at hasleep
  | woken => simp [hstage] at hasleep

/-- The task that is being polled asks for a timer; no timer of the queue is put off. -/
theorem Sound.scheduleWake (h : executor.Sound raw timers) {task : Task}
    (hstage : executor.stage = .polling (some task)) (time : UInt64) :
    Sound raw timers { executor with
      driver := executor.driver.scheduleWake timers.toTimerQueue time task
      asked := (task, time) :: executor.asked } := by
  refine ⟨h.heard, h.owed, fun hne ↦ absurd hstage (hne (some task)), ?_⟩
  intro entry hentry
  rcases List.mem_cons.mp hentry with rfl | hold
  · exact .inr (timers.exists_due_scheduleWake executor.driver.queue time task)
  · refine (h.asked entry hold).imp_right ?_
    intro ⟨limit, hle, hdue⟩
    obtain ⟨earlier, hearlier, hthere⟩ := timers.exists_due_of_due hdue
    exact ⟨earlier, UInt64.le_trans hearlier hle, hthere⟩

section Loop

variable [DecidableEq Task]

/-- `poll` polls the next task. -/
theorem Sound.next (h : executor.Sound raw timers) {current : Option Task}
    (hstage : executor.stage = .polling current) {task : Task} {inner : State}
    (hnext : raw.next executor.inner = some (task, inner)) :
    Sound raw timers { executor with
      inner := inner
      stage := .polling (some task)
      owed := executor.owed.filter (· ≠ task)
      asked := executor.asked.filter (·.1 ≠ task) } := by
  refine ⟨?_, ?_, fun hne ↦ absurd rfl (hne (some task)), ?_⟩
  · have hheard := h.heard
    rw [bell, hstage] at hheard
    rw [bell, raw.queued_of_some hnext]
    exact hheard
  · intro other hother
    obtain ⟨howed, hne⟩ := List.mem_filter.mp hother
    have hmem := h.owed other howed
    rw [raw.taken_of_some hnext] at hmem
    rw [raw.queued_of_some hnext]
    rcases hmem with hqueued | htaken
    · exact .inl hqueued
    · exact .inr (Set.mem_of_mem_insert_of_ne htaken (of_decide_eq_true hne))
  · intro entry hentry
    obtain ⟨hasked, hne⟩ := List.mem_filter.mp hentry
    exact (h.asked entry hasked).imp_left fun howed ↦ List.mem_filter.mpr ⟨howed, hne⟩

theorem Sound.advance (h : executor.Sound raw timers)
    (hadvance : executor.advance raw timers (some handle) = some after) :
    after.Sound raw timers := by
  rw [Executor.advance] at hadvance
  cases hstage : executor.stage with
  | init =>
      rw [hstage] at hadvance
      obtain rfl := Option.some.inj hadvance
      exact h.move (by rw [hstage]; rfl) (h.taken (by simp [hstage]))
  | poll =>
      rw [hstage] at hadvance
      obtain rfl := Option.some.inj hadvance
      exact h.dequeueAll hstage
  | polling current =>
      rw [hstage] at hadvance
      cases hnext : raw.next executor.inner with
      | none =>
          simp only [hnext] at hadvance
          obtain rfl := Option.some.inj hadvance
          exact h.move (by rw [hstage]; rfl) (raw.taken_of_none hnext)
      | some next =>
          simp only [hnext] at hadvance
          obtain rfl := Option.some.inj hadvance
          exact h.next hstage hnext
  | entered =>
      rw [hstage] at hadvance
      have hafter : after = { executor with
          driver := (executor.driver.now executor.tick).2
          stage := .measured (executor.driver.now executor.tick).1
          read := executor.tick
          entered := executor.tick } := (Option.some.inj hadvance).symm
      have hmoved : Sound raw timers { executor with
          stage := .measured (executor.driver.now executor.tick).1 } :=
        h.move (by rw [hstage]; rfl) (h.taken (by simp [hstage]))
      rw [hafter]
      refine ⟨hmoved.heard, hmoved.owed, hmoved.taken, ?_⟩
      intro entry hentry
      simp only [queue_now]
      exact hmoved.asked entry hentry
  | measured nowTicks =>
      rw [hstage] at hadvance
      obtain rfl := Option.some.inj hadvance
      have hexpired : (executor.expire raw timers (some handle)).2.Sound raw timers := h.expire
      exact hexpired.move (by rw [stage_expire, hstage]; rfl)
        (hexpired.taken (by simp [stage_expire, hstage]))
  | take ticks =>
      rw [hstage] at hadvance
      have htaken := h.taken (by simp [hstage])
      by_cases hnotified : 0 < executor.kernel.value ∨ ticks = 0
      · simp only [if_pos hnotified] at hadvance
        obtain rfl := Option.some.inj hadvance
        have hdone := h.unblock htaken
        exact ⟨hdone.heard, hdone.owed, hdone.taken, hdone.asked⟩
      · simp only [if_neg hnotified] at hadvance
        obtain rfl := Option.some.inj hadvance
        have hmoved : Sound raw timers { executor with
            stage := .blocked (if ticks = 0xffffffff then none
              else some (executor.tick + ticks.toNat)) } := h.move (by rw [hstage]; rfl) htaken
        exact ⟨hmoved.heard, hmoved.owed, hmoved.taken, hmoved.asked⟩
  | blocked deadline =>
      rw [hstage] at hadvance
      obtain ⟨-, hsome⟩ := Option.ite_none_right_eq_some.mp hadvance
      obtain rfl := Option.some.inj hsome
      exact h.unblock (h.taken (by simp [hstage]))
  | woken =>
      rw [hstage] at hadvance
      obtain rfl := Option.some.inj hadvance
      have hexpired : (executor.expire raw timers (some handle)).2.Sound raw timers := h.expire
      exact hexpired.move (by rw [stage_expire, hstage]; rfl)
        (hexpired.taken (by simp [stage_expire, hstage]))

/-- Only the task that is being polled asks for a timer. -/
theorem scheduleWake_cases {context : Option ℕ} {time : UInt64}
    (hstep : executor.step raw timers context (.scheduleWake time) = some after) :
    ∃ task, executor.stage = .polling (some task) ∧ after = { executor with
      driver := executor.driver.scheduleWake timers.toTimerQueue time task
      asked := (task, time) :: executor.asked } := by
  rw [Executor.step] at hstep
  cases hstage : executor.stage with
  | polling current =>
      cases current with
      | none => simp [hstage] at hstep
      | some task =>
          rw [hstage] at hstep
          refine ⟨task, rfl, ?_⟩
          rw [← Option.some.inj hstep]
  | init => simp [hstage] at hstep
  | poll => simp [hstage] at hstep
  | entered => simp [hstage] at hstep
  | measured nowTicks => simp [hstage] at hstep
  | take ticks => simp [hstage] at hstep
  | blocked deadline => simp [hstage] at hstep
  | woken => simp [hstage] at hstep

theorem Sound.step (h : executor.Sound raw timers) {event : ExecutorEvent Task}
    (hstep : executor.step raw timers (some handle) event = some after) :
    after.Sound raw timers := by
  cases event with
  | wake task ipsr higherPriorityTaskWoken =>
      obtain rfl := Option.some.inj hstep
      exact h.wake ipsr higherPriorityTaskWoken task
  | scheduleWake time =>
      obtain ⟨task, hstage, rfl⟩ := scheduleWake_cases hstep
      exact h.scheduleWake hstage time
  | elapse ticks =>
      obtain ⟨-, hsome⟩ := Option.ite_none_left_eq_some.mp hstep
      obtain rfl := Option.some.inj hsome
      exact ⟨h.heard, h.owed, h.taken, h.asked⟩
  | advance => exact h.advance hstep

/-- However wake-ups, interrupts and the loop interleave: a task that has been woken since it was
last polled is in the run queue or about to be polled, so that the executor's task is never asleep
while one is. The notification value never exceeds two. -/
theorem wakeups_not_lost (raw : RawExecutor State Task) (timers : Timers Queue Task) (handle : ℕ)
    (h : Reaches (step raw timers (some handle)) Unrestricted (boot raw timers) executor) :
    (∀ task ∈ executor.owed, task ∈ raw.queued executor.inner ∪ raw.taken executor.inner) ∧
    (executor.Asleep → executor.owed = []) ∧ executor.kernel.value.toNat ≤ 2 := by
  have hsound : executor.Sound raw timers :=
    h.invariant (Sound raw timers) (sound_boot raw timers) fun _ _ _ hbefore _ hstep ↦
      hbefore.step hstep
  exact ⟨hsound.owed, hsound.owed_of_asleep, hsound.heard.le_two⟩

end Loop

/-! ## Timers -/

/-- The loop comes back to the counter before it has wrapped, and the count fits into 64 bits. -/
def Paced (executor : Executor notification State Queue Task) : ExecutorEvent Task → Prop
  | .elapse ticks => executor.tick + ticks < executor.read + 2 ^ 32 ∧
      executor.tick + ticks < 2 ^ 64
  | .wake _ _ _ | .scheduleWake _ | .advance => True

instance (executor : Executor notification State Queue Task) :
    (event : ExecutorEvent Task) → Decidable (executor.Paced event)
  | .elapse ticks => inferInstanceAs (Decidable (executor.tick + ticks < executor.read + 2 ^ 32 ∧
      executor.tick + ticks < 2 ^ 64))
  | .wake _ _ _ => .isTrue trivial
  | .scheduleWake _ => .isTrue trivial
  | .advance => .isTrue trivial

/-- No timer of the queue is due before the wait may be over, counted from its first reading. -/
def Waits (timers : Timers Queue Task) (executor : Executor notification State Queue Task) : Prop :=
  match executor.stage with
  | .measured nowTicks =>
      nowTicks.toNat = executor.entered ∧ executor.entered ≤ executor.tick
  | .take ticks => ∀ task time, timers.due executor.driver.queue task = some time →
      executor.entered + ticks.toNat ≤ time.toNat
  | .blocked none => ∀ task time, timers.due executor.driver.queue task = some time →
      executor.entered + (2 ^ 32 - 1) ≤ time.toNat
  | .blocked (some limit) => (executor.tick ≤ limit ∨ 0 < executor.kernel.value) ∧
      ∀ task time, timers.due executor.driver.queue task = some time →
        limit + executor.entered ≤ time.toNat + executor.took
  | _ => True

/-- The driver's count is right, and so are the waits. -/
structure OnTime (timers : Timers Queue Task) (executor : Executor notification State Queue Task) :
    Prop where
  synced : TimeDriver.Synced executor.read executor.driver
  read_le : executor.read ≤ executor.tick
  tick_lt : executor.tick < executor.read + 2 ^ 32
  fits : executor.tick < 2 ^ 64
  waits : executor.Waits timers

theorem onTime_boot (raw : RawExecutor State Task) (timers : Timers Queue Task) :
    (boot raw timers : Executor notification State Queue Task).OnTime timers where
  synced := TimeDriver.synced_boot timers.toTimerQueue
  read_le := le_rfl
  tick_lt := by simp [boot]
  fits := by simp [boot]
  waits := trivial

/-- The reading is the true number of ticks. -/
theorem OnTime.toNat_now (h : executor.OnTime timers) :
    (executor.driver.now executor.tick).1.toNat = executor.tick := by
  rw [(h.synced.now h.read_le h.tick_lt).1, Nat.mod_eq_of_lt h.fits]

theorem toNat_saturatingSub (left right : UInt64) :
    (TimeDriver.saturatingSub left right).toNat = left.toNat - right.toNat := by
  rw [TimeDriver.saturatingSub]
  by_cases hle : right ≤ left
  · rw [if_pos hle, UInt64.toNat_sub_of_le _ _ hle]
  · rw [if_neg hle, UInt64.toNat_zero]
    have hlt := UInt64.lt_iff_toNat_lt.mp (UInt64.not_le.mp hle)
    omega

/-- The number of ticks handed to FreeRTOS is at most the time to the next timer. -/
theorem toNat_diffTicks_le (expTicks nowTicks : UInt64) :
    (min (TimeDriver.saturatingSub expTicks nowTicks) 0xffffffff).toUInt32.toNat ≤
      expTicks.toNat - nowTicks.toNat := by
  rw [← toNat_saturatingSub, UInt64.toNat_toUInt32]
  refine (Nat.mod_le _ _).trans ?_
  change (if TimeDriver.saturatingSub expTicks nowTicks ≤ 0xffffffff then
    TimeDriver.saturatingSub expTicks nowTicks else 0xffffffff).toNat ≤ _
  by_cases hle : TimeDriver.saturatingSub expTicks nowTicks ≤ 0xffffffff
  · rw [if_pos hle]
  · rw [if_neg hle]
    exact (UInt64.lt_iff_toNat_lt.mp (UInt64.not_le.mp hle)).le

/-- A wake-up moves neither the clock nor the deadline, and leaves a notification where there is
one. -/
theorem OnTime.wake (h : executor.OnTime timers) (hsound : executor.Sound raw timers)
    (ipsr : UInt32) (higherPriorityTaskWoken : Bool) (task : Task) :
    (executor.wake raw (some handle) ipsr higherPriorityTaskWoken task).OnTime timers := by
  refine ⟨h.synced, h.read_le, h.tick_lt, h.fits, ?_⟩
  have hwaits := h.waits
  have hnotified : 0 < executor.kernel.value →
      0 < (executor.wake raw (some handle) ipsr higherPriorityTaskWoken task).kernel.value := by
    intro hpos
    cases hpends : (raw.wake executor.inner task).1 with
    | false => simpa only [Executor.wake, hpends, Bool.false_eq_true, if_false] using hpos
    | true =>
        simp only [Executor.wake, hpends, if_true, value_pender]
        have hlt : executor.kernel.value.toNat + 1 < 2 ^ 32 :=
          (Nat.succ_le_succ hsound.heard.le_two).trans_lt (by decide)
        rw [UInt32.lt_iff_toNat_lt, UInt32.toNat_add, UInt32.toNat_one, Nat.mod_eq_of_lt hlt]
        exact Nat.succ_pos _
  have hstage : (executor.wake raw (some handle) ipsr higherPriorityTaskWoken task).stage =
      executor.stage := rfl
  rw [Waits] at hwaits ⊢
  rw [hstage]
  cases hcase : executor.stage with
  | blocked deadline =>
      rw [hcase] at hwaits
      cases deadline with
      | none => exact hwaits
      | some limit => exact ⟨hwaits.1.imp_right hnotified, hwaits.2⟩
  | init => trivial
  | poll => trivial
  | polling current => trivial
  | entered => trivial
  | measured nowTicks =>
      rw [hcase] at hwaits
      exact hwaits
  | take ticks =>
      rw [hcase] at hwaits
      exact hwaits
  | woken => trivial

/-- FreeRTOS does not let the task sleep past its deadline. -/
theorem OnTime.elapse (h : executor.OnTime timers) {ticks : ℕ}
    (hpaced : executor.Paced (.elapse ticks : ExecutorEvent Task))
    (hawake : ¬(executor.Asleep ∧ ∃ limit ∈ executor.deadline?, limit < executor.tick + ticks)) :
    OnTime timers { executor with tick := executor.tick + ticks } := by
  refine ⟨h.synced, h.read_le.trans (Nat.le_add_right _ _), hpaced.1, hpaced.2, ?_⟩
  have hwaits := h.waits
  rw [Waits] at hwaits ⊢
  rw [Asleep, deadline?] at hawake
  cases hcase : executor.stage with
  | blocked deadline =>
      rw [hcase] at hwaits hawake
      cases deadline with
      | none => exact hwaits
      | some limit =>
          refine ⟨?_, hwaits.2⟩
          by_cases hzero : executor.kernel.value = 0
          · refine .inl (Nat.not_lt.mp fun hlt ↦ hawake ⟨hzero, limit, rfl, hlt⟩)
          · exact .inr (UInt32.pos_iff_ne_zero.mpr hzero)
  | measured nowTicks =>
      rw [hcase] at hwaits
      exact ⟨hwaits.1, hwaits.2.trans (Nat.le_add_right _ _)⟩
  | take ticks =>
      rw [hcase] at hwaits
      exact hwaits
  | init => trivial
  | poll => trivial
  | polling current => trivial
  | entered => trivial
  | woken => trivial

/-- After `next_expiration`, the driver stands at the current tick, and what it returned is not
beyond any timer that is left. -/
theorem OnTime.expire (h : executor.OnTime timers) (raw : RawExecutor State Task)
    (context : Option ℕ) :
    TimeDriver.Synced executor.tick (executor.expire raw timers context).2.driver ∧
      ∀ task time,
        timers.due (executor.expire raw timers context).2.driver.queue task = some time →
          executor.tick < time.toNat ∧
            (executor.expire raw timers context).1.toNat ≤ time.toNat := by
  refine ⟨h.synced.nextExpiration timers.toTimerQueue h.read_le h.tick_lt, ?_⟩
  intro task time hdue
  have hleft : timers.due (timers.nextExpiration (executor.driver.now executor.tick).2.queue
    (executor.driver.now executor.tick).1).2 task = some time := hdue
  obtain ⟨hbefore, hlt⟩ := timers.due_nextExpiration.mp hleft
  refine ⟨?_, UInt64.le_iff_toNat_le.mp (timers.nextExpiration_le hbefore hlt)⟩
  rw [UInt64.lt_iff_toNat_lt, h.toNat_now] at hlt
  exact hlt

section Loop

variable [DecidableEq Task]

theorem OnTime.advance (h : executor.OnTime timers)
    (hadvance : executor.advance raw timers (some handle) = some after) :
    after.OnTime timers := by
  have hwaits := h.waits
  rw [Executor.advance] at hadvance
  rw [Waits] at hwaits
  cases hstage : executor.stage with
  | init =>
      rw [hstage] at hadvance
      obtain rfl := Option.some.inj hadvance
      exact ⟨h.synced, h.read_le, h.tick_lt, h.fits, trivial⟩
  | poll =>
      rw [hstage] at hadvance
      obtain rfl := Option.some.inj hadvance
      exact ⟨h.synced, h.read_le, h.tick_lt, h.fits, trivial⟩
  | polling current =>
      rw [hstage] at hadvance
      cases hnext : raw.next executor.inner with
      | none =>
          simp only [hnext] at hadvance
          obtain rfl := Option.some.inj hadvance
          exact ⟨h.synced, h.read_le, h.tick_lt, h.fits, trivial⟩
      | some next =>
          simp only [hnext] at hadvance
          obtain rfl := Option.some.inj hadvance
          exact ⟨h.synced, h.read_le, h.tick_lt, h.fits, trivial⟩
  | entered =>
      rw [hstage] at hadvance
      have hafter : after = { executor with
          driver := (executor.driver.now executor.tick).2
          stage := .measured (executor.driver.now executor.tick).1
          read := executor.tick
          entered := executor.tick } := (Option.some.inj hadvance).symm
      rw [hafter]
      exact ⟨(h.synced.now h.read_le h.tick_lt).2, le_rfl,
        Nat.lt_add_of_pos_right (Nat.two_pow_pos 32), h.fits, h.toNat_now, le_rfl⟩
  | measured nowTicks =>
      rw [hstage] at hadvance hwaits
      have hafter : after = { (executor.expire raw timers (some handle)).2 with
          stage := .take (min (TimeDriver.saturatingSub
            (executor.expire raw timers (some handle)).1 nowTicks) 0xffffffff).toUInt32 } :=
        (Option.some.inj hadvance).symm
      obtain ⟨hsynced, hleft⟩ := h.expire raw (some handle)
      rw [hafter]
      refine ⟨hsynced, tick_expire.ge, ?_, tick_expire.trans_lt h.fits, ?_⟩
      · exact tick_expire.trans_lt (Nat.lt_add_of_pos_right (Nat.two_pow_pos 32))
      · intro task time hdue
        obtain ⟨htick, hexp⟩ := hleft task time hdue
        have hticks := toNat_diffTicks_le (executor.expire raw timers (some handle)).1 nowTicks
        simp only [entered_expire]
        omega
  | take ticks =>
      rw [hstage] at hadvance hwaits
      by_cases hnotified : 0 < executor.kernel.value ∨ ticks = 0
      · simp only [if_pos hnotified] at hadvance
        obtain rfl := Option.some.inj hadvance
        exact ⟨h.synced, h.read_le, h.tick_lt, h.fits, trivial⟩
      · simp only [if_neg hnotified] at hadvance
        obtain rfl := Option.some.inj hadvance
        refine ⟨h.synced, h.read_le, h.tick_lt, h.fits, ?_⟩
        by_cases hmax : ticks = 0xffffffff
        · simp only [Waits, if_pos hmax]
          intro task time hdue
          have hle := hwaits task time hdue
          rw [hmax] at hle
          exact hle
        · simp only [Waits, if_neg hmax]
          refine ⟨.inl (Nat.le_add_right _ _), ?_⟩
          intro task time hdue
          have hle := hwaits task time hdue
          omega
  | blocked deadline =>
      rw [hstage] at hadvance
      obtain ⟨-, hsome⟩ := Option.ite_none_right_eq_some.mp hadvance
      obtain rfl := Option.some.inj hsome
      exact ⟨h.synced, h.read_le, h.tick_lt, h.fits, trivial⟩
  | woken =>
      rw [hstage] at hadvance
      have hafter : after = { (executor.expire raw timers (some handle)).2 with
          stage := .poll } := (Option.some.inj hadvance).symm
      obtain ⟨hsynced, -⟩ := h.expire raw (some handle)
      rw [hafter]
      exact ⟨hsynced, tick_expire.ge,
        tick_expire.trans_lt (Nat.lt_add_of_pos_right (Nat.two_pow_pos 32)),
        tick_expire.trans_lt h.fits, trivial⟩

theorem OnTime.step (h : executor.OnTime timers) (hsound : executor.Sound raw timers)
    {event : ExecutorEvent Task} (hpaced : executor.Paced event)
    (hstep : executor.step raw timers (some handle) event = some after) :
    after.OnTime timers := by
  cases event with
  | wake task ipsr higherPriorityTaskWoken =>
      obtain rfl := Option.some.inj hstep
      exact h.wake hsound ipsr higherPriorityTaskWoken task
  | scheduleWake time =>
      obtain ⟨task, hstage, rfl⟩ := scheduleWake_cases hstep
      exact ⟨⟨h.synced.timekeeper, h.synced.freeRtosNow⟩, h.read_le, h.tick_lt, h.fits, by
        simp [Waits, hstage]⟩
  | elapse ticks =>
      obtain ⟨hawake, hsome⟩ := Option.ite_none_left_eq_some.mp hstep
      obtain rfl := Option.some.inj hsome
      exact h.elapse hpaced hawake
  | advance => exact h.advance hstep

/-- While the executor's task is asleep, no timer that a task has asked for is overdue by more than
passed between the first reading of this wait and its `ulTaskGenericNotifyTake`, unless the timer is
as far away as FreeRTOS can count. -/
theorem timers_not_overslept (raw : RawExecutor State Task) (timers : Timers Queue Task)
    (handle : ℕ)
    (h : Reaches (step raw timers (some handle)) Paced (boot raw timers) executor) :
    executor.Asleep → ∀ entry ∈ executor.asked, entry.2.toNat < executor.entered + (2 ^ 32 - 1) →
      executor.tick + executor.entered ≤ entry.2.toNat + executor.took := by
  have hboth : executor.Sound raw timers ∧ executor.OnTime timers := by
    refine h.invariant (fun executor ↦ executor.Sound raw timers ∧ executor.OnTime timers)
      ⟨sound_boot raw timers, onTime_boot raw timers⟩ ?_
    intro before event after ⟨hsound, honTime⟩ hpaced hstep
    exact ⟨hsound.step hstep, honTime.step hsound hpaced hstep⟩
  obtain ⟨hsound, honTime⟩ := hboth
  intro hasleep entry hentry hnear
  -- the task has not been woken, so its timer is still in the queue
  have hthere : ∃ time ≤ entry.2, timers.due executor.driver.queue entry.1 = some time := by
    rcases hsound.asked entry hentry with howed | hthere
    · rw [hsound.owed_of_asleep hasleep] at howed
      cases howed
    · exact hthere
  obtain ⟨time, hle, hdue⟩ := hthere
  rw [UInt64.le_iff_toNat_le] at hle
  have hwaits := honTime.waits
  rw [Asleep] at hasleep
  rw [Waits] at hwaits
  cases hstage : executor.stage with
  | blocked deadline =>
      rw [hstage] at hasleep hwaits
      cases deadline with
      | none =>
          have hfar := hwaits entry.1 time hdue
          omega
      | some limit =>
          obtain ⟨hlimit, hleft⟩ := hwaits
          have hsoon := hleft entry.1 time hdue
          rcases hlimit with hbefore | hnotified
          · omega
          · exact absurd hasleep (UInt32.pos_iff_ne_zero.mp hnotified)
  | init => simp [hstage] at hasleep
  | poll => simp [hstage] at hasleep
  | polling current => simp [hstage] at hasleep
  | entered => simp [hstage] at hasleep
  | measured nowTicks => simp [hstage] at hasleep
  | take ticks => simp [hstage] at hasleep
  | woken => simp [hstage] at hasleep

end Loop

/-! ## A run with one task -/

/-- An executor with one task: whether it is queued, and whether it is taken. -/
def solo : RawExecutor (Bool × Bool) Unit where
  new := (false, false)
  wake := fun (queued, taken) _ ↦
    if queued ∨ taken then (false, (queued, taken)) else (true, (true, taken))
  dequeueAll := fun (queued, _) ↦ (false, queued)
  next := fun (queued, taken) ↦ if taken then some ((), (queued, false)) else none
  queued := fun state ↦ {_task | state.1 = true}
  taken := fun state ↦ {_task | state.2 = true}
  queued_new := by simp
  taken_new := by simp
  taken_wake := by
    rintro ⟨queued, taken⟩ -
    cases queued <;> cases taken <;> rfl
  wake_again := fun hmem ↦ if_pos hmem
  queued_wake {state task} hmem := by
    obtain ⟨queued, taken⟩ := state
    have hfree : ¬(queued = true ∨ taken = true) := hmem
    ext other
    simp [hfree]
  pends_wake {state task} hmem := by
    obtain ⟨queued, taken⟩ := state
    have hfree : ¬(queued = true ∨ taken = true) := hmem
    simp_all
  queued_dequeueAll := by simp
  taken_dequeueAll := fun _ ↦ rfl
  taken_of_none {state} hnone := by
    obtain ⟨queued, taken⟩ := state
    cases taken <;> simp at hnone ⊢
  queued_of_some {state after task} hsome := by
    obtain ⟨queued, taken⟩ := state
    cases taken <;> simp at hsome
    simp [← hsome]
  taken_of_some {state after task} hsome := by
    obtain ⟨queued, taken⟩ := state
    cases taken <;> simp at hsome
    ext other
    simp

/-- The timer of one task. -/
def soloTimers : Timers (Option UInt64) Unit where
  new := none
  scheduleWake queue time _ := some (match queue with
    | some earlier => if earlier ≤ time then earlier else time
    | none => time)
  nextExpiration queue now := match queue with
    | some time => if time ≤ now then (0xffffffffffffffff, none) else (time, some time)
    | none => (0xffffffffffffffff, none)
  expired queue now := match queue with
    | some time => if time ≤ now then [()] else []
    | none => []
  due queue _ := queue
  exists_due_scheduleWake := by
    intro queue time _
    cases queue with
    | none => exact ⟨time, UInt64.le_refl time, rfl⟩
    | some earlier =>
        by_cases hle : earlier ≤ time
        · exact ⟨earlier, hle, by simp [hle]⟩
        · exact ⟨time, UInt64.le_refl time, by simp [hle]⟩
  exists_due_of_due {queue time _ _ limit} hdue := by
    subst hdue
    by_cases hle : limit ≤ time
    · exact ⟨limit, UInt64.le_refl limit, by simp [hle]⟩
    · exact ⟨time, UInt64.le_of_lt (UInt64.not_le.mp hle), by simp [hle]⟩
  mem_expired {queue now _} := by
    cases queue with
    | none => simp
    | some time => by_cases hle : time ≤ now <;> simp [hle]
  due_nextExpiration {queue now _ time} := by
    cases queue with
    | none => simp
    | some earlier =>
        by_cases hle : earlier ≤ now
        · simp only [hle, if_true, reduceCtorEq, false_iff, Option.some.injEq, not_and,
            UInt64.not_lt]
          rintro rfl
          exact hle
        · simp only [hle, if_false, Option.some.injEq, iff_self_and]
          rintro rfl
          exact UInt64.not_le.mp hle
  nextExpiration_le {queue now _ time} hdue hlt := by
    subst hdue
    simp [UInt64.not_le.mpr hlt]

/-- The task is spawned, asks for a timer and is woken by an interrupt before its poll is over. -/
def interrupted : List (ExecutorEvent Unit) :=
  [.wake () 0 false, .advance, .elapse 5000, .advance, .advance, .scheduleWake 7000,
    .wake () 15 true]

/-- It is polled once more and asks for the same timer; then the executor falls asleep. -/
def napping : List (ExecutorEvent Unit) :=
  interrupted ++ [.advance, .elapse 1, .advance, .elapse 1, .advance, .elapse 1, .advance, .advance,
    .advance, .advance, .scheduleWake 7000, .advance, .advance, .advance, .advance, .elapse 1900]

/-- The executor with one task and one timer before it runs. -/
def soloBoot : Executor .plain (Bool × Bool) (Option UInt64) Unit := boot solo soloTimers

theorem wakeups_not_lost_napping :
    (∃ executor, Reaches (step solo soloTimers (some 1)) Unrestricted soloBoot executor ∧
      executor.owed = [()] ∧ () ∈ solo.queued executor.inner ∪ solo.taken executor.inner) ∧
    ∃ executor, Reaches (step solo soloTimers (some 1)) Unrestricted soloBoot executor ∧
      executor.Asleep ∧ executor.owed = [] := by
  obtain ⟨busy, hbusy, howed⟩ := exists_reaches_of_runIf (step solo soloTimers (some 1))
    Unrestricted soloBoot interrupted (fun executor ↦ executor.owed = [()]) (by decide +kernel)
  obtain ⟨idle, hidle, hasleep⟩ := exists_reaches_of_runIf (step solo soloTimers (some 1))
    Unrestricted soloBoot napping (fun executor ↦ executor.Asleep) (by decide +kernel)
  refine ⟨⟨busy, hbusy, howed, ?_⟩, idle, hidle, hasleep, ?_⟩
  · exact (wakeups_not_lost solo soloTimers 1 hbusy).1 () (by rw [howed]; exact List.mem_cons_self)
  · exact (wakeups_not_lost solo soloTimers 1 hidle).2.1 hasleep

theorem timers_not_overslept_napping :
    ∃ executor, Reaches (step solo soloTimers (some 1)) Paced soloBoot executor ∧
      executor.Asleep ∧ executor.tick = 6903 ∧
      executor.tick + executor.entered ≤ 7000 + executor.took := by
  obtain ⟨executor, hreach, hasleep, hasked, hentered, htick⟩ :=
    exists_reaches_of_runIf (step solo soloTimers (some 1)) Paced soloBoot napping
      (fun executor ↦ executor.Asleep ∧ ((), 7000) ∈ executor.asked ∧ executor.entered = 5003 ∧
        executor.tick = 6903) (by decide +kernel)
  exact ⟨executor, hreach, hasleep, htick, timers_not_overslept solo soloTimers 1 hreach hasleep
    ((), 7000) hasked (by rw [hentered]; decide)⟩

end Executor

end Derusting.FreeRtos
