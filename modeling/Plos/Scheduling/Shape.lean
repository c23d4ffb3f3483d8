import Plos.Scheduling.MutexProtocol
import Plos.Scheduling.Reaper
import Plos.Scheduling.RoundRobin

/-! The shape of the scheduler's data in every state the kernel reaches.

A run keeps, beside the system, the threads of each task that have been created and not yet reaped,
in the order of their creation. These lists are the circular lists of the tasks in every state
(`Sys.Shaped.step`), whatever the threads do: they may exit, sleep or block while they are on the
CPU, and may be woken before they have given it up. -/

namespace Plos

theorem SchedInv.sysSchedule {s s' : Sys} {r : Sched Pc} {status : Pc} {ring : Nat → List Nat}
    (R : SchedInv r ring) (h : s.schedule r status = some s') : SchedInv s'.sched ring := by
  unfold Sys.schedule at h
  split at h
  · cases h
  · next hs =>
    cases h
    exact R.schedule hs

/-- The invariant of the lists: with the protocol of the mutex, and the thread on the CPU running
where its code goes on. -/
structure Sys.Shaped (s : Sys) (ring : Nat → List Nat) : Prop where
  mutex : ∃ q, MutexInv s q
  sched : SchedInv s.sched ring
  active : s.pc = .run ∨ s.pc = .crit ∨ s.pc = .resumed →
    (s.sched.thread s.sched.threadCurrent).state = .running

/-- The threads of the tasks after a step: a new thread comes last, and the one that the reaper
takes off is gone. -/
def SysOp.rings (s : Sys) (ring : Nat → List Nat) : SysOp → Nat → List Nat
  | .createThread task => Function.update ring task (ring task ++ [s.sched.nextTid])
  | .scan => reapedRings ring ((kernelIdleScan s.sched).bind Prod.snd)
  | _ => ring

namespace Sys.Shaped

variable {s s' : Sys} {ring : Nat → List Nat}

theorem init : Sys.init.Shaped (Function.update (fun _ => []) 0 [0]) :=
  ⟨⟨[], MutexInv.init⟩, SchedInv.init Pc.run, fun _ => rfl⟩

theorem rescheduled (H : s.Shaped ring) (h : s.Rescheduled s') (hsched : SchedInv s'.sched ring) :
    s'.Shaped ring := by
  obtain ⟨q, M⟩ := H.mutex
  refine ⟨⟨q, M.rescheduled h⟩, hsched, fun hpc => ?_⟩
  rcases h.current with hrun | ⟨-, hpc', hne⟩
  · exact hrun
  · rw [hpc'] at hpc
    exact absurd (H.active hpc) hne

/-- A step that leaves the thread on the CPU and its control point as they are. -/
theorem links (H : s.Shaped ring) {r : Sched Pc} {ring' : Nat → List Nat}
    (hcur : r.threadCurrent = s.sched.threadCurrent)
    (hcore : (r.thread s.sched.threadCurrent).core = (s.sched.thread s.sched.threadCurrent).core)
    (hmutex : ∃ q, MutexInv { s with sched := r } q) (hsched : SchedInv r ring') :
    Sys.Shaped { s with sched := r } ring' := by
  refine ⟨hmutex, hsched, fun hpc => ?_⟩
  rw [hcur]
  exact (congrArg ThreadCore.state hcore).trans (H.active hpc)

/-- One step keeps the shape, and the lists are the ones of `SysOp.rings`. -/
theorem step {op : SysOp} (H : s.Shaped ring) (h : s.step op = some s') :
    s'.Shaped (op.rings s ring) := by
  obtain ⟨q, M⟩ := H.mutex
  have R := H.sched
  have hM := M.step h
  cases op with
  | tick now =>
    refine H.rescheduled (.of_tick h) ?_
    simp only [Sys.step] at h
    split at h
    · cases h
    · next r hr => exact (R.ticked (.of_timerTick hr)).sysSchedule h
    · next r hr =>
      cases h
      exact R.ticked (.of_timerTick hr)
  | yield =>
    refine H.rescheduled (.of_yield h) ?_
    simp only [Sys.step] at h
    split at h
    · cases h
    · exact R.sysSchedule h
  | acquire =>
    obtain ⟨hpc, h⟩ := Option.ite_none_right_eq_some.mp h
    cases hm : s.mutex.isLocked with
    | false =>
      simp only [mutexAcquire, hm] at h
      cases h
      exact ⟨hM, R, fun _ => H.active (.inl hpc)⟩
    | true =>
      obtain ⟨r, hr, -⟩ := MutexInv.mutexAcquire_locked (s := s.sched) hm (M.tail_ne_current hpc)
      simp only [hr] at h
      cases h
      have R' := @SchedInv.mutexAcquire _ _ _ s.mutex R
      rw [hr] at R'
      exact ⟨hM, R', by simp⟩
  | ret =>
    obtain ⟨hpc, ⟨⟩⟩ := Option.ite_none_right_eq_some.mp h
    exact ⟨hM, R, fun _ => H.active (.inr (.inr hpc))⟩
  | release =>
    obtain ⟨hpc, h⟩ := Option.ite_none_right_eq_some.mp h
    have hsame := Sched.SameContexts.of_mutexRelease (s := s.sched) s.mutex
    have hblocked : ∀ t, s.mutex.waitingQueueHead = some t →
        (s.sched.thread t).state = .blocked := by
      intro t ht
      rw [M.head] at ht
      exact (M.blocked t).mpr (List.mem_of_head? ht)
    have hnot : s.mutex.waitingQueueHead ≠ some s.sched.threadCurrent := by
      rw [M.head]
      exact fun e => M.not_mem_of_phase (by simp [hpc, Pc.phase]) (List.mem_of_head? e)
    have hstill : ((mutexRelease s.sched s.mutex).1.thread
        (mutexRelease s.sched s.mutex).1.threadCurrent).state = .running := by
      rw [hsame.threadCurrent, mutexRelease_state, if_neg hnot]
      exact H.active (.inr (.inl hpc))
    cases h
    exact ⟨hM, R.mutexRelease hblocked, fun _ => hstill⟩
  | sleep now ms =>
    simp only [Sys.step] at h
    split at h
    · cases h
      exact ⟨hM, R.setCurrent rfl (by simp), by simp⟩
    · cases h
      exact ⟨hM, R.setCurrent rfl (by simp), by simp⟩
    · cases h
  | exit =>
    obtain ⟨hpc, ⟨⟩⟩ := Option.ite_none_right_eq_some.mp h
    exact ⟨hM, R.setCurrent rfl (by simp), by simp⟩
  | createTask =>
    obtain ⟨-, h⟩ := Option.ite_none_right_eq_some.mp h
    obtain ⟨r, hr, rfl⟩ := Option.map_eq_some_iff.mp h
    obtain ⟨hthread, hcur, -⟩ := taskCreate_some hr
    exact H.links hcur (by rw [hthread]) hM (R.taskCreate hr)
  | createThread task =>
    obtain ⟨⟨-, hk⟩, h⟩ := Option.ite_none_right_eq_some.mp h
    obtain ⟨r, hr, rfl⟩ := Option.map_eq_some_iff.mp h
    obtain ⟨hcur, -, -, hcore⟩ := taskCreateThread_some hr
    exact H.links hcur (hcore _ M.current_lt.ne) hM (R.taskCreateThread hk hr)
  | scan =>
    obtain ⟨⟨hpc, -⟩, h⟩ := Option.ite_none_right_eq_some.mp h
    obtain ⟨⟨r, found⟩, hr, rfl⟩ := Option.map_eq_some_iff.mp h
    obtain ⟨hids, hcore⟩ := reapTasks_some hr
    have hcurrent : (s.sched.thread s.sched.threadCurrent).state ≠ .zombie := by
      simp [H.active (.inl hpc)]
    rw [SysOp.rings, hr]
    exact H.links hids.threadCurrent (hcore _) hM (R.kernelIdleScan hcurrent hr)

end Sys.Shaped

/-! ## The ticks of the threads -/

section
variable {κ : Type u} {s r q : Sched κ}

/-- Every thread has between one and `THREAD_INITIAL_TICKS` ticks left. -/
def Sched.TicksIn (s : Sched κ) : Prop :=
  ∀ t < s.nextTid, 1 ≤ (s.thread t).ticksRemaining ∧
    (s.thread t).ticksRemaining ≤ threadInitialTicks

/-- No thread is created and no ticks are counted. -/
structure Sched.SameTicks (s r : Sched κ) : Prop where
  nextTid : r.nextTid = s.nextTid
  ticks : ∀ t, (r.thread t).ticksRemaining = (s.thread t).ticksRemaining

namespace Sched.SameTicks

theorem refl (s : Sched κ) : s.SameTicks s := ⟨rfl, fun _ => rfl⟩

theorem trans (h : s.SameTicks r) (h' : r.SameTicks q) : s.SameTicks q :=
  ⟨h'.nextTid.trans h.nextTid, fun t => (h'.ticks t).trans (h.ticks t)⟩

theorem setThread {t : Nat} {th : Thread κ} (h : th.ticksRemaining = (s.thread t).ticksRemaining) :
    s.SameTicks (s.setThread t th) := by
  refine ⟨rfl, fun x => ?_⟩
  rw [Sched.setThread_apply]
  split
  · next e => rw [e, h]
  · rfl

theorem setState (t : Nat) (st : ThreadState) : s.SameTicks (s.setState t st) := setThread rfl

theorem setWaiter (t : Nat) (w : Option Nat) :
    s.SameTicks (s.setThread t { s.thread t with nextWaiter := w }) := setThread rfl

theorem of_threadSleep (now ms : Nat) : s.SameTicks (threadSleep s now ms) := setThread rfl

theorem ticksIn (h : s.SameTicks r) (H : s.TicksIn) : r.TicksIn := by
  intro t ht
  rw [h.ticks]
  exact H t (h.nextTid ▸ ht)

theorem of_core (htid : r.nextTid = s.nextTid) (h : ∀ t, (r.thread t).core = (s.thread t).core) :
    s.SameTicks r :=
  ⟨htid, fun t => congrArg ThreadCore.ticksRemaining (h t)⟩

theorem of_woken {now : Nat} (h : Woken now s r) : s.SameTicks r := by
  refine ⟨h.ids.nextTid, fun t => ?_⟩
  rcases h.thread t with e | e
  · rw [e]
  · rw [e, wakeThread]
    split
    · rfl
    · rfl

theorem of_schedule {status pc : κ} (h : schedulerSchedule s status = some (r, pc)) :
    s.SameTicks r := by
  obtain ⟨k, t, -, -, rfl, -⟩ := schedulerSchedule_some h
  have hpause : s.SameTicks (schedulerPause s status) :=
    ⟨schedulerPause_ids.nextTid, fun x => by rw [schedulerPause_apply]⟩
  have hswitch :
      (schedulerPause s status).SameTicks (schedulerSwitch (schedulerPause s status) k t) :=
    ⟨rfl, fun x => (setState t .running).ticks x⟩
  exact hpause.trans hswitch

theorem of_mutexAcquire (m : Mutex) : s.SameTicks (mutexAcquire s m).1 := by
  simp only [mutexAcquire]
  split
  · exact refl s
  · split
    · exact (setWaiter _ _).trans (setState _ _)
    · exact ((setWaiter _ _).trans (setWaiter _ _)).trans (setState _ _)

theorem of_mutexRelease (m : Mutex) : s.SameTicks (mutexRelease s m).1 := by
  unfold mutexRelease
  split
  · exact refl s
  · exact setState _ _

end Sched.SameTicks

/-- A tick counts down the thread on the CPU, and starts over at the end. -/
theorem Sched.TicksIn.timerTick {now : Nat} {ended : Bool} (H : s.TicksIn)
    (hcur : s.threadCurrent < s.nextTid) (h : timerTick s now = some (r, ended)) : r.TicksIn := by
  simp only [Plos.timerTick] at h
  cases hw : schedulerWakeSleepingThreads s now with
  | none =>
    rw [hw] at h
    cases h
  | some w =>
    rw [hw] at h
    have hwoken : Woken now s w := wakeTasks_woken hw
    have Hw := (Sched.SameTicks.of_woken hwoken).ticksIn H
    have hcur' : w.threadCurrent < w.nextTid := by
      rw [hwoken.ids.threadCurrent, hwoken.ids.nextTid]
      exact hcur
    obtain ⟨hpos, hle⟩ := Hw _ hcur'
    have hlt : (w.thread w.threadCurrent).ticksRemaining < 2 ^ 64 :=
      Nat.lt_of_le_of_lt hle (by decide)
    simp only [sub64_of_le hlt hpos] at h
    have hset {n : Nat} (hn : 1 ≤ n ∧ n ≤ threadInitialTicks) :
        (w.setThread w.threadCurrent
          { w.thread w.threadCurrent with ticksRemaining := n }).TicksIn := by
      intro t ht
      rw [Sched.setThread_apply]
      split
      · exact hn
      · exact Hw t ht
    split at h
    · cases h
      exact hset ⟨by decide, Nat.le_refl _⟩
    · next hne =>
      cases h
      exact hset ⟨Nat.one_le_iff_ne_zero.mpr hne, Nat.le_trans (Nat.sub_le _ _) hle⟩

theorem Sched.TicksIn.taskCreateThread {task : Nat} {entry : κ} (H : s.TicksIn)
    (h : taskCreateThread s task entry = some r) : r.TicksIn := by
  obtain ⟨-, htid, hnew, hcore⟩ := taskCreateThread_some h
  intro t ht
  rcases eq_or_ne t s.nextTid with rfl | hne
  · have hticks : (r.thread s.nextTid).ticksRemaining = threadInitialTicks :=
      congrArg ThreadCore.ticksRemaining hnew
    rw [hticks]
    decide
  · have hticks : (r.thread t).ticksRemaining = (s.thread t).ticksRemaining :=
      congrArg ThreadCore.ticksRemaining (hcore t hne)
    rw [htid] at ht
    rw [hticks]
    exact H t (Nat.lt_of_le_of_ne (Nat.le_of_lt_succ ht) hne)

end

/-- One step keeps the ticks in their range. -/
theorem Sys.Shaped.ticksIn {s s' : Sys} {ring : Nat → List Nat} {op : SysOp} (S : s.Shaped ring)
    (H : s.sched.TicksIn) (h : s.step op = some s') : s'.sched.TicksIn := by
  obtain ⟨q, M⟩ := S.mutex
  have hstep := Sys.step_sched h
  generalize s'.sched = r at hstep ⊢
  cases hstep with
  | tick hr => exact H.timerTick M.current_lt hr
  | tickSwitch hr hswitch =>
    exact (Sched.SameTicks.of_schedule hswitch).ticksIn (H.timerTick M.current_lt hr)
  | yield _ hswitch => exact (Sched.SameTicks.of_schedule hswitch).ticksIn H
  | acquire => exact (Sched.SameTicks.of_mutexAcquire s.mutex).ticksIn H
  | ret => exact H
  | release => exact (Sched.SameTicks.of_mutexRelease s.mutex).ticksIn H
  | sleep => exact (Sched.SameTicks.of_threadSleep _ _).ticksIn H
  | exit => exact (Sched.SameTicks.setState _ _).ticksIn H
  | createTask _ hr =>
    obtain ⟨hthread, -, htid⟩ := taskCreate_some hr
    exact (Sched.SameTicks.of_core htid fun t => by rw [hthread]).ticksIn H
  | createThread _ _ hr => exact H.taskCreateThread hr
  | scan _ _ hr =>
    obtain ⟨hids, hcore⟩ := reapTasks_some hr
    exact (Sched.SameTicks.of_core hids.nextTid hcore).ticksIn H

/-! ## Runs -/

/-- The system, and the threads of each task that have been created and not yet reaped, in the order
of their creation. -/
structure SchedRun where
  sys : Sys
  threads : Nat → List Nat

def SchedRun.init : SchedRun := ⟨Sys.init, Function.update (fun _ => []) 0 [0]⟩

def SchedRun.step (s : SchedRun) (op : SysOp) : Option SchedRun :=
  (s.sys.step op).map fun sys => ⟨sys, op.rings s.sys s.threads⟩

theorem SchedRun.shaped {ops : List SysOp} {s : SchedRun}
    (h : runFrom SchedRun.step SchedRun.init ops = some s) :
    s.sys.Shaped s.threads ∧ s.sys.sched.TicksIn := by
  have hinit : Sys.init.sched.TicksIn := by
    intro t ht
    obtain rfl : t = 0 := Nat.lt_one_iff.mp ht
    decide
  refine runFrom_induction (I := fun s : SchedRun => s.sys.Shaped s.threads ∧ s.sys.sched.TicksIn)
    (fun s op s' ⟨S, H⟩ hop => ?_) ⟨.init, hinit⟩ h
  obtain ⟨sys, hsys, rfl⟩ := Option.map_eq_some_iff.mp hop
  exact ⟨S.step hsys, S.ticksIn H hsys⟩

/-- In every state that any interleaving of the steps reaches: the tasks form one circular list, in
the order of their creation; the threads of a task that have been created and not yet reaped form a
circular list in the order of their creation, to whose first thread the task points; no thread is on
two lists; the thread on the CPU is on the list of the current task, and no other thread is running;
and the ticks of every thread are in range. -/
theorem schedRun_shape {ops : List SysOp} {s : SchedRun}
    (h : runFrom SchedRun.step SchedRun.init ops = some s) :
    (Cycle (fun k => (s.sys.sched.task k).next) (List.range s.sys.sched.nextPid) ∧
      s.sys.sched.taskList = 0) ∧
    (∀ k < s.sys.sched.nextPid, (s.sys.sched.task k).threads = (s.threads k).head? ∧
      (s.threads k ≠ [] → Cycle (fun t => (s.sys.sched.thread t).next) (s.threads k))) ∧
    (∀ j k t, t ∈ s.threads j → t ∈ s.threads k → j = k) ∧
    s.sys.sched.threadCurrent ∈ s.threads s.sys.sched.taskCurrent ∧
    (∀ t, (s.sys.sched.thread t).state = .running → t = s.sys.sched.threadCurrent) ∧
    ∀ t < s.sys.sched.nextTid, 1 ≤ (s.sys.sched.thread t).ticksRemaining ∧
      (s.sys.sched.thread t).ticksRemaining ≤ threadInitialTicks := by
  obtain ⟨S, H⟩ := SchedRun.shaped h
  have R := S.sched
  exact ⟨⟨R.tasks, R.taskList⟩, fun k hk => ⟨R.threads k hk, R.cycle k⟩, R.disjoint, R.current,
    R.running, H⟩

/-- A task with two threads; the second one exits and is reaped. -/
theorem schedRun_shape_reaped :
    ∃ s, runFrom SchedRun.step SchedRun.init
        [.createTask, .createThread 1, .createThread 1, .yield, .yield, .exit, .yield, .scan] =
          some s ∧
      s.threads 1 = [1] ∧ Cycle (fun t => (s.sys.sched.thread t).next) (s.threads 1) := by
  have hrun : runFrom SchedRun.step SchedRun.init
      [.createTask, .createThread 1, .createThread 1, .yield, .yield, .exit, .yield, .scan] =
        some _ := rfl
  have hthreads := ((schedRun_shape hrun).2.1 1 (by decide)).2 (by decide)
  exact ⟨_, hrun, rfl, hthreads⟩

end Plos
