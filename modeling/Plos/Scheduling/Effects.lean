import Plos.Scheduling.System

/-! What the functions of the scheduler do to the threads, whatever the lists look like.

These are the facts that the mutex protocol rests on: the search returns only a thread that is
ready, the wake pass touches only sleeping threads, and creation and reaping change links only. -/

namespace Plos

variable {κ : Type u} {s r : Sched κ} {now : Nat}

/-- A thread apart from its place in the lists. -/
structure ThreadCore (κ : Type u) where
  context : κ
  state : ThreadState
  ticksRemaining : Nat
  wakeTime : Nat
  nextWaiter : Option Nat

def Thread.core (th : Thread κ) : ThreadCore κ :=
  ⟨th.context, th.state, th.ticksRemaining, th.wakeTime, th.nextWaiter⟩

/-- Two states with the same threads on the CPU and the same numbers given out. -/
structure Sched.SameIds (s r : Sched κ) : Prop where
  threadCurrent : r.threadCurrent = s.threadCurrent
  taskCurrent : r.taskCurrent = s.taskCurrent
  taskList : r.taskList = s.taskList
  nextPid : r.nextPid = s.nextPid
  nextTid : r.nextTid = s.nextTid

namespace Sched

@[simp] theorem setThread_self {t : Nat} {th : Thread κ} : (s.setThread t th).thread t = th :=
  Function.update_self ..

theorem setThread_of_ne {t x : Nat} {th : Thread κ} (h : x ≠ t) :
    (s.setThread t th).thread x = s.thread x := Function.update_of_ne h ..

theorem setThread_apply {t x : Nat} {th : Thread κ} :
    (s.setThread t th).thread x = if x = t then th else s.thread x := Function.update_apply ..

@[simp] theorem setTask_thread {k : Nat} {task : Task} : (s.setTask k task).thread = s.thread := rfl

theorem setTask_apply {k x : Nat} {task : Task} :
    (s.setTask k task).task x = if x = k then task else s.task x := Function.update_apply ..

theorem setState_apply {t x : Nat} {st : ThreadState} : (s.setState t st).thread x =
    if x = t then { s.thread t with state := st } else s.thread x := setThread_apply

end Sched

/-! ## The scheduler -/

theorem schedulerSearch_ready {n : Nat} {place : Nat × Option Nat} {k t : Nat}
    (h : schedulerSearch s n place = some (k, t)) : (s.thread t).state = .ready := by
  induction n generalizing place with
  | zero => cases h
  | succ n ih =>
    obtain ⟨task, thread⟩ := place
    cases thread with
    | none => exact ih h
    | some thread =>
      simp only [schedulerSearch] at h
      split at h
      · next hr => cases h; exact hr
      · split at h
        · split at h
          · next hr => cases h; exact hr
          · exact ih h
        · exact ih h

theorem schedulerPause_ids {status : κ} : s.SameIds (schedulerPause s status) := by
  unfold schedulerPause
  split <;> exact ⟨rfl, rfl, rfl, rfl, rfl⟩

theorem schedulerPause_of_ne {status : κ} {t : Nat} (h : t ≠ s.threadCurrent) :
    (schedulerPause s status).thread t = s.thread t := by
  unfold schedulerPause
  split
  · exact (Sched.setThread_of_ne h).trans (Sched.setThread_of_ne h)
  · exact Sched.setThread_of_ne h

theorem schedulerPause_current {status : κ} :
    (schedulerPause s status).thread s.threadCurrent =
      { s.thread s.threadCurrent with
        context := status
        state := if (s.thread s.threadCurrent).state = .running then .ready
          else (s.thread s.threadCurrent).state } := by
  simp only [schedulerPause]
  split
  · simp [Sched.setState, Sched.setThread]
  · exact Sched.setThread_self

theorem schedulerPause_context {status : κ} {t : Nat} :
    ((schedulerPause s status).thread t).context =
      if t = s.threadCurrent then status else (s.thread t).context := by
  split
  · next e => subst e; rw [schedulerPause_current]
  · next e => rw [schedulerPause_of_ne e]

theorem schedulerSwitch_context {k t x : Nat} :
    ((schedulerSwitch s k t).thread x).context = (s.thread x).context := by
  unfold schedulerSwitch
  rw [Sched.setState_apply]
  split
  · next e => rw [e]
  · rfl

theorem schedulerPause_nextWaiter {status : κ} {t : Nat} :
    ((schedulerPause s status).thread t).nextWaiter = (s.thread t).nextWaiter := by
  by_cases e : t = s.threadCurrent
  · subst e
    rw [schedulerPause_current]
  · rw [schedulerPause_of_ne e]

theorem schedulerSwitch_nextWaiter {k t x : Nat} :
    ((schedulerSwitch s k t).thread x).nextWaiter = (s.thread x).nextWaiter := by
  unfold schedulerSwitch
  rw [Sched.setState_apply]
  split
  · next e => rw [e]
  · rfl

/-- The thread that runs next was ready, and its registers are loaded. -/
theorem schedulerSchedule_some {status pc : κ} (h : schedulerSchedule s status = some (r, pc)) :
    ∃ k t, schedulerFind (schedulerPause s status) = some (k, t) ∧
      ((schedulerPause s status).thread t).state = .ready ∧
      r = schedulerSwitch (schedulerPause s status) k t ∧
      pc = ((schedulerPause s status).thread t).context := by
  simp only [schedulerSchedule] at h
  cases hf : schedulerFind (schedulerPause s status) with
  | none => rw [hf] at h; cases h
  | some place =>
    rw [hf] at h
    cases h
    exact ⟨place.1, place.2, rfl, schedulerSearch_ready hf, rfl, rfl⟩

theorem schedulerPause_state {status : κ} {st : ThreadState} (hready : st ≠ .ready)
    (hrunning : st ≠ .running) (t : Nat) :
    ((schedulerPause s status).thread t).state = st ↔ (s.thread t).state = st := by
  by_cases e : t = s.threadCurrent
  · subst e
    rw [schedulerPause_current]
    by_cases hr : (s.thread s.threadCurrent).state = .running
    · simp [hr, hready.symm, hrunning.symm]
    · simp [hr]
  · rw [schedulerPause_of_ne e]

/-- The scheduler does not touch a thread that is neither ready nor running. -/
theorem schedulerSchedule_state {status pc : κ} (h : schedulerSchedule s status = some (r, pc))
    {st : ThreadState} (hready : st ≠ .ready) (hrunning : st ≠ .running) (t : Nat) :
    (r.thread t).state = st ↔ (s.thread t).state = st := by
  obtain ⟨k, u, -, hu, rfl, -⟩ := schedulerSchedule_some h
  refine Iff.trans ?_ (@schedulerPause_state _ s status st hready hrunning t)
  rw [schedulerSwitch, Sched.setState_apply]
  split
  · next e =>
    subst e
    rw [hu]
    exact ⟨fun h => absurd h.symm hrunning, fun h => absurd h.symm hready⟩
  · rfl

/-! ## The wake pass -/

/-- Some of the threads have been woken, if they were due, and nothing else has happened. -/
structure Woken (now : Nat) (s r : Sched κ) : Prop where
  ids : s.SameIds r
  task : r.task = s.task
  thread : ∀ t, r.thread t = s.thread t ∨ r.thread t = wakeThread now (s.thread t)

theorem wakeThread_idem (th : Thread κ) :
    wakeThread now (wakeThread now th) = wakeThread now th := by
  by_cases h : th.state = .sleeping ∧ th.wakeTime ≤ now
  · simp [wakeThread, h]
  · simp only [wakeThread, if_neg h]

theorem Woken.refl : Woken now s s := ⟨⟨rfl, rfl, rfl, rfl, rfl⟩, rfl, fun _ => .inl rfl⟩

theorem Woken.trans {q : Sched κ} (h : Woken now s r) (h' : Woken now r q) : Woken now s q where
  ids := ⟨h'.ids.1.trans h.ids.1, h'.ids.2.trans h.ids.2, h'.ids.3.trans h.ids.3,
    h'.ids.4.trans h.ids.4, h'.ids.5.trans h.ids.5⟩
  task := h'.task.trans h.task
  thread t := by
    rcases h'.thread t with h₁ | h₁ <;> rcases h.thread t with h₂ | h₂
    · exact .inl (h₁.trans h₂)
    · exact .inr (h₁.trans h₂)
    · exact .inr (h₁.trans (by rw [h₂]))
    · exact .inr (h₁.trans (by rw [h₂, wakeThread_idem]))

theorem Woken.setThread (t : Nat) : Woken now s (s.setThread t (wakeThread now (s.thread t))) where
  ids := ⟨rfl, rfl, rfl, rfl, rfl⟩
  task := rfl
  thread x := by
    rw [Sched.setThread_apply]
    split
    · next h => subst h; exact .inr rfl
    · exact .inl rfl

theorem wakeThreads_woken {task n curr : Nat} (h : wakeThreads now task n s curr = some r) :
    Woken now s r := by
  induction n generalizing s curr with
  | zero => cases h
  | succ n ih =>
    simp only [wakeThreads] at h
    split at h
    · cases h
      exact .setThread curr
    · exact (Woken.setThread curr).trans (ih h)

theorem wakeTask_woken {task : Nat} (h : wakeTask now s task = some r) : Woken now s r := by
  unfold wakeTask at h
  split at h
  · cases h; exact .refl
  · exact wakeThreads_woken h

theorem wakeTasks_woken {n task : Nat} (h : wakeTasks now n s task = some r) : Woken now s r := by
  induction n generalizing s task with
  | zero => cases h
  | succ n ih =>
    simp only [wakeTasks] at h
    split at h
    · cases h
    · next hw =>
      split at h
      · cases h
        exact wakeTask_woken hw
      · exact (wakeTask_woken hw).trans (ih h)

/-- A tick wakes threads and counts down the slice of the thread on the CPU. -/
theorem timerTick_some {ended : Bool} (h : timerTick s now = some (r, ended)) :
    ∃ w n, Woken now s w ∧
      r = w.setThread w.threadCurrent { w.thread w.threadCurrent with ticksRemaining := n } := by
  simp only [timerTick] at h
  split at h
  · cases h
  · next w hw =>
    refine ⟨w, ?_⟩
    split at h <;> cases h <;> exact ⟨_, wakeTasks_woken hw, rfl⟩

/-- What a tick does to the threads: it wakes some of them and counts. -/
structure Ticked (s r : Sched κ) : Prop where
  ids : s.SameIds r
  task : r.task = s.task
  next : ∀ t, (r.thread t).next = (s.thread t).next
  context : ∀ t, (r.thread t).context = (s.thread t).context
  nextWaiter : ∀ t, (r.thread t).nextWaiter = (s.thread t).nextWaiter
  state : ∀ t, (r.thread t).state = (s.thread t).state ∨
    (s.thread t).state = .sleeping ∧ (r.thread t).state = .ready

namespace Ticked

theorem refl (s : Sched κ) : Ticked s s :=
  ⟨⟨rfl, rfl, rfl, rfl, rfl⟩, rfl, fun _ => rfl, fun _ => rfl, fun _ => rfl, fun _ => .inl rfl⟩

theorem of_wakeThread (now : Nat) (th : Thread κ) : (wakeThread now th).next = th.next ∧
    (wakeThread now th).context = th.context ∧ (wakeThread now th).nextWaiter = th.nextWaiter ∧
    ((wakeThread now th).state = th.state ∨
      th.state = .sleeping ∧ (wakeThread now th).state = .ready) := by
  unfold wakeThread
  split
  · next h => exact ⟨rfl, rfl, rfl, .inr ⟨h.1, rfl⟩⟩
  · exact ⟨rfl, rfl, rfl, .inl rfl⟩

theorem of_timerTick {ended : Bool} (h : timerTick s now = some (r, ended)) : Ticked s r := by
  obtain ⟨w, n, hw, rfl⟩ := timerTick_some h
  have hthread (t : Nat) : (w.thread t).next = (s.thread t).next ∧
      (w.thread t).context = (s.thread t).context ∧
      (w.thread t).nextWaiter = (s.thread t).nextWaiter ∧
      ((w.thread t).state = (s.thread t).state ∨
        (s.thread t).state = .sleeping ∧ (w.thread t).state = .ready) := by
    rcases hw.thread t with e | e
    · rw [e]
      exact ⟨rfl, rfl, rfl, .inl rfl⟩
    · rw [e]
      exact of_wakeThread now _
  refine ⟨⟨hw.ids.1, hw.ids.2, hw.ids.3, hw.ids.4, hw.ids.5⟩, hw.task, fun t => ?_, fun t => ?_,
    fun t => ?_, fun t => ?_⟩
  all_goals
    rw [Sched.setThread_apply]
    split
    · next e => subst e; simp only [hthread]
    · simp only [hthread]

/-- A tick does not touch a thread that is neither ready nor sleeping. -/
theorem state_iff (h : Ticked s r) (st : ThreadState) (hready : st ≠ .ready)
    (hsleeping : st ≠ .sleeping) (t : Nat) : (r.thread t).state = st ↔ (s.thread t).state = st := by
  rcases h.state t with e | ⟨e₁, e₂⟩
  · rw [e]
  · rw [e₁, e₂]
    exact ⟨fun h => absurd h.symm hready, fun h => absurd h.symm hsleeping⟩

theorem sleeping (h : Ticked s r) {t : Nat} (ht : (r.thread t).state = .sleeping) :
    (s.thread t).state = .sleeping := by
  rcases h.state t with e | ⟨e, -⟩
  · rw [← e, ht]
  · exact e

end Ticked

/-! ## Creation and reaping -/

theorem core_setNext (t n x : Nat) :
    ((s.setThread t { s.thread t with next := n }).thread x).core = (s.thread x).core := by
  rw [Sched.setThread_apply]
  split
  · next h => subst h; rfl
  · rfl

theorem taskCreate_some (h : taskCreate s = some r) :
    r.thread = s.thread ∧ r.threadCurrent = s.threadCurrent ∧ r.nextTid = s.nextTid := by
  unfold taskCreate at h
  split at h
  · cases h
  · cases h
    exact ⟨rfl, rfl, rfl⟩

/-- The new thread is ready, and of the others only links change. -/
theorem taskCreateThread_some {task : Nat} {entry : κ}
    (h : taskCreateThread s task entry = some r) :
    r.threadCurrent = s.threadCurrent ∧ r.nextTid = s.nextTid + 1 ∧
      (r.thread s.nextTid).core = ⟨entry, .ready, threadInitialTicks, 0, none⟩ ∧
      ∀ t ≠ s.nextTid, (r.thread t).core = (s.thread t).core := by
  simp only [taskCreateThread] at h
  split at h
  · cases h
    refine ⟨rfl, rfl, congrArg Thread.core Sched.setThread_self, fun t ht => ?_⟩
    exact congrArg Thread.core (Sched.setThread_of_ne ht)
  · split at h
    · cases h
    · cases h
      refine ⟨rfl, rfl, congrArg Thread.core Sched.setThread_self, fun t ht => ?_⟩
      exact (congrArg Thread.core (Sched.setThread_of_ne ht)).trans (core_setNext _ _ _)

theorem reapUnlink_core (task prev curr : Nat) : s.SameIds (reapUnlink s task prev curr) ∧
    ∀ t, ((reapUnlink s task prev curr).thread t).core = (s.thread t).core := by
  simp only [reapUnlink]
  split
  · exact ⟨⟨rfl, rfl, rfl, rfl, rfl⟩, fun _ => rfl⟩
  · split
    · exact ⟨⟨rfl, rfl, rfl, rfl, rfl⟩, fun t => core_setNext _ _ t⟩
    · exact ⟨⟨rfl, rfl, rfl, rfl, rfl⟩, fun t => core_setNext _ _ t⟩

theorem reapTasks_some {n task : Nat} {z : Option Nat} (h : reapTasks n s task = some (r, z)) :
    s.SameIds r ∧ ∀ t, (r.thread t).core = (s.thread t).core := by
  induction n generalizing task with
  | zero => cases h
  | succ n ih =>
    simp only [reapTasks] at h
    split at h
    · cases h
    · cases h
      exact reapUnlink_core _ _ _
    · split at h
      · cases h
        exact ⟨⟨rfl, rfl, rfl, rfl, rfl⟩, fun _ => rfl⟩
      · exact ih h

/-! ## Contexts -/

/-- Only the scheduler saves registers, and only creation gives out numbers. -/
structure Sched.SameContexts (s r : Sched κ) : Prop where
  threadCurrent : r.threadCurrent = s.threadCurrent
  nextTid : r.nextTid = s.nextTid
  context : ∀ t, (r.thread t).context = (s.thread t).context

namespace Sched.SameContexts

theorem refl (s : Sched κ) : s.SameContexts s := ⟨rfl, rfl, fun _ => rfl⟩

theorem trans {q : Sched κ} (h : s.SameContexts r) (h' : r.SameContexts q) : s.SameContexts q :=
  ⟨h'.threadCurrent.trans h.threadCurrent, h'.nextTid.trans h.nextTid,
    fun t => (h'.context t).trans (h.context t)⟩

theorem setThread {t : Nat} {th : Thread κ} (h : th.context = (s.thread t).context) :
    s.SameContexts (s.setThread t th) := by
  refine ⟨rfl, rfl, fun x => ?_⟩
  rw [Sched.setThread_apply]
  split
  · next e => subst e; exact h
  · rfl

theorem of_timerTick {ended : Bool} (h : timerTick s now = some (r, ended)) :
    s.SameContexts r :=
  have hT := Ticked.of_timerTick h
  ⟨hT.ids.threadCurrent, hT.ids.nextTid, hT.context⟩

theorem setState (t : Nat) (st : ThreadState) : s.SameContexts (s.setState t st) := setThread rfl

theorem setWaiter (t : Nat) (w : Option Nat) :
    s.SameContexts (s.setThread t { s.thread t with nextWaiter := w }) := setThread rfl

theorem of_mutexAcquire (m : Mutex) : s.SameContexts (mutexAcquire s m).1 := by
  simp only [mutexAcquire]
  split
  · exact refl s
  · split
    · exact (setWaiter _ _).trans (setState _ _)
    · exact ((setWaiter _ _).trans (setWaiter _ _)).trans (setState _ _)

theorem of_mutexRelease (m : Mutex) : s.SameContexts (mutexRelease s m).1 := by
  unfold mutexRelease
  split
  · exact refl s
  · exact setState _ _

end Sched.SameContexts

/-! ## Steps of the system -/

/-- What a step does to the data of the scheduler, and where the thread on the CPU stands that takes
it. -/
inductive Sys.SchedStep (s : Sys) : SysOp → Sched Pc → Prop where
  | tick {now : Nat} {r : Sched Pc} (h : timerTick s.sched now = some (r, false)) :
    SchedStep s (.tick now) r
  | tickSwitch {now : Nat} {r r' : Sched Pc} {pc : Pc} (h : timerTick s.sched now = some (r, true))
    (hswitch : schedulerSchedule r s.pc = some (r', pc)) : SchedStep s (.tick now) r'
  | yield {status pc : Pc} {r : Sched Pc} (hpc : s.pc.afterYield = some status)
    (h : schedulerSchedule s.sched status = some (r, pc)) : SchedStep s .yield r
  | acquire (hpc : s.pc = .run) : SchedStep s .acquire (mutexAcquire s.sched s.mutex).1
  | ret (hpc : s.pc = .resumed) : SchedStep s .ret s.sched
  | release (hpc : s.pc = .crit) : SchedStep s .release (mutexRelease s.sched s.mutex).1
  | sleep {now ms : Nat} (hpc : s.pc = .run ∨ s.pc = .crit) :
    SchedStep s (.sleep now ms) (threadSleep s.sched now ms)
  | exit (hpc : s.pc = .run) : SchedStep s .exit (taskCurrentThreadExit s.sched)
  | createTask {r : Sched Pc} (hpc : s.pc = .run) (h : taskCreate s.sched = some r) :
    SchedStep s .createTask r
  | createThread {task : Nat} {r : Sched Pc} (hpc : s.pc = .run) (htask : task < s.sched.nextPid)
    (h : taskCreateThread s.sched task .run = some r) : SchedStep s (.createThread task) r
  | scan {r : Sched Pc} {found : Option Nat} (hpc : s.pc = .run) (hidle : s.sched.threadCurrent = 0)
    (h : kernelIdleScan s.sched = some (r, found)) : SchedStep s .scan r

theorem Sys.step_schedule {s s' : Sys} {r : Sched Pc} {status : Pc}
    (h : s.schedule r status = some s') : schedulerSchedule r status = some (s'.sched, s'.pc) := by
  unfold Sys.schedule at h
  split at h
  · cases h
  · next hs =>
    cases h
    exact hs

theorem Sys.step_sched {s s' : Sys} {op : SysOp} (h : s.step op = some s') :
    s.SchedStep op s'.sched := by
  cases op with
  | tick now =>
    simp only [Sys.step] at h
    split at h
    · cases h
    · next hr => exact .tickSwitch hr (step_schedule h)
    · next hr =>
      cases h
      exact .tick hr
  | yield =>
    simp only [Sys.step] at h
    split at h
    · cases h
    · next hpc => exact .yield hpc (step_schedule h)
  | acquire =>
    obtain ⟨hpc, h⟩ := Option.ite_none_right_eq_some.mp h
    have hacquire := SchedStep.acquire hpc
    split at h
    · next hr =>
      cases h
      rwa [hr] at hacquire
    · next hr =>
      cases h
      rwa [hr] at hacquire
  | ret =>
    obtain ⟨hpc, ⟨⟩⟩ := Option.ite_none_right_eq_some.mp h
    exact .ret hpc
  | release =>
    obtain ⟨hpc, ⟨⟩⟩ := Option.ite_none_right_eq_some.mp h
    exact .release hpc
  | sleep now ms =>
    simp only [Sys.step] at h
    split at h
    · next hpc =>
      cases h
      exact .sleep (.inl hpc)
    · next hpc =>
      cases h
      exact .sleep (.inr hpc)
    · cases h
  | exit =>
    obtain ⟨hpc, ⟨⟩⟩ := Option.ite_none_right_eq_some.mp h
    exact .exit hpc
  | createTask =>
    obtain ⟨hpc, h⟩ := Option.ite_none_right_eq_some.mp h
    obtain ⟨r, hr, rfl⟩ := Option.map_eq_some_iff.mp h
    exact .createTask hpc hr
  | createThread task =>
    obtain ⟨⟨hpc, htask⟩, h⟩ := Option.ite_none_right_eq_some.mp h
    obtain ⟨r, hr, rfl⟩ := Option.map_eq_some_iff.mp h
    exact .createThread hpc htask hr
  | scan =>
    obtain ⟨⟨hpc, hidle⟩, h⟩ := Option.ite_none_right_eq_some.mp h
    obtain ⟨⟨r, found⟩, hr, rfl⟩ := Option.map_eq_some_iff.mp h
    exact .scan hpc hidle hr

end Plos
