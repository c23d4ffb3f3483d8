import Plos.Scheduling.Shape

/-! How long a thread sleeps.

A thread that sleeps until a deadline is left alone by every step of the others, and by every wake
pass before the deadline (`Sys.Shaped.sleeps`); the first pass at the deadline or after it finds the
thread on its list and makes it ready. What `thread_sleep` sets is the deadline modulo `2 ^ 64`. -/

namespace Plos

section
variable {κ : Type u} {s r : Sched κ} {t deadline now : Nat}

/-- The thread sleeps, and is due at the deadline. -/
structure Sched.Sleeps (s : Sched κ) (t deadline : Nat) : Prop where
  state : (s.thread t).state = .sleeping
  wakeTime : (s.thread t).wakeTime = deadline

namespace Sched.Sleeps

theorem ne_of_state (H : s.Sleeps t deadline) {x : Nat} {st : ThreadState}
    (h : (s.thread x).state = st) (hst : st ≠ .sleeping) : t ≠ x := by
  rintro rfl
  exact hst (h.symm.trans H.state)

theorem of_core (H : s.Sleeps t deadline) (h : (r.thread t).core = (s.thread t).core) :
    r.Sleeps t deadline :=
  ⟨(congrArg ThreadCore.state h).trans H.state, (congrArg ThreadCore.wakeTime h).trans H.wakeTime⟩

/-- A thread is written that is another one, or goes on sleeping. -/
theorem setThread (H : s.Sleeps t deadline) {x : Nat} {th : Thread κ}
    (h : t = x → th.state = .sleeping ∧ th.wakeTime = deadline) :
    (s.setThread x th).Sleeps t deadline := by
  have hthread := @Sched.setThread_apply _ s x t th
  split at hthread
  · next e => exact ⟨(congrArg Thread.state hthread).trans (h e).1,
      (congrArg Thread.wakeTime hthread).trans (h e).2⟩
  · exact H.of_core (congrArg Thread.core hthread)

theorem setThread_of_ne (H : s.Sleeps t deadline) {x : Nat} {th : Thread κ} (h : t ≠ x) :
    (s.setThread x th).Sleeps t deadline := H.setThread fun e => absurd e h

theorem setWaiter (H : s.Sleeps t deadline) (x : Nat) (w : Option Nat) :
    (s.setThread x { s.thread x with nextWaiter := w }).Sleeps t deadline := by
  apply H.setThread
  rintro rfl
  exact ⟨H.state, H.wakeTime⟩

/-- The scheduler pauses the thread on the CPU if it was running, and runs one that is ready. -/
theorem schedule (H : s.Sleeps t deadline) {status pc : κ}
    (h : schedulerSchedule s status = some (r, pc)) :
    r.Sleeps t deadline := by
  obtain ⟨k, u, -, hu, rfl, -⟩ := schedulerSchedule_some h
  have Hp : (schedulerPause s status).Sleeps t deadline := by
    refine ⟨(schedulerPause_state (by simp) (by simp) t).mpr H.state, ?_⟩
    rw [schedulerPause_apply]
    exact H.wakeTime
  have hne : t ≠ u := Hp.ne_of_state hu (by simp)
  exact Hp.of_core (congrArg Thread.core (Sched.setThread_of_ne hne))

/-- The wake pass compares the uptime with the deadline. -/
theorem wakeThread_state (H : s.Sleeps t deadline) (now : Nat) :
    (wakeThread now (s.thread t)).state = if deadline ≤ now then .ready else .sleeping := by
  rw [wakeThread, H.wakeTime]
  by_cases h : deadline ≤ now
  · rw [if_pos ⟨H.state, h⟩, if_pos h]
  · rw [if_neg fun hs => h hs.2, if_neg h, H.state]

theorem woken (H : s.Sleeps t deadline) (hw : Woken now s r) (hnow : now < deadline) :
    r.Sleeps t deadline := by
  apply H.of_core
  rcases hw.thread t with e | e
  · rw [e]
  · rw [e, wakeThread, H.wakeTime, if_neg fun hs => Nat.not_le_of_lt hnow hs.2]

theorem timerTick (H : s.Sleeps t deadline) (hnow : now < deadline) {ended : Bool}
    (h : timerTick s now = some (r, ended)) : r.Sleeps t deadline := by
  obtain ⟨w, n, hw, rfl⟩ := timerTick_some h
  have Hw := H.woken hw hnow
  apply Hw.setThread
  intro e
  rw [← e]
  exact ⟨Hw.state, Hw.wakeTime⟩

theorem mutexAcquire (H : s.Sleeps t deadline) (m : Mutex) (hne : t ≠ s.threadCurrent) :
    (mutexAcquire s m).1.Sleeps t deadline := by
  simp only [Plos.mutexAcquire]
  split
  · exact H
  · split
    · exact (H.setWaiter _ _).setThread_of_ne hne
    · exact ((H.setWaiter _ _).setWaiter _ _).setThread_of_ne hne

theorem mutexRelease (H : s.Sleeps t deadline) {m : Mutex}
    (hhead : ∀ x, m.waitingQueueHead = some x → (s.thread x).state = .blocked) :
    (mutexRelease s m).1.Sleeps t deadline := by
  unfold Plos.mutexRelease
  split
  · exact H
  · next x hx => exact H.setThread_of_ne (H.ne_of_state (hhead x hx) (by simp))

end Sched.Sleeps

/-- A wake pass reaches every thread that sleeps, whatever list it is on. -/
theorem SchedInv.wakes {ring : Nat → List Nat} (R : SchedInv s ring) (H : s.Sleeps t deadline)
    (now : Nat) :
    ∃ r, schedulerWakeSleepingThreads s now = some r ∧
      (r.thread t).state = if deadline ≤ now then .ready else .sleeping := by
  obtain ⟨r, hr, -, hwake⟩ := R.schedulerWakeSleepingThreads_some now
  obtain ⟨k, hk⟩ := R.alive t (by simp [H.state])
  refine ⟨r, hr, ?_⟩
  rw [hwake k t hk]
  exact H.wakeThread_state now

end

/-! ## Steps and runs -/

/-- The uptime of the wake pass of a step. -/
def SysOp.wakePass : SysOp → Option Nat
  | .tick now => some now
  | _ => none

/-- The uptimes of the wake passes of a run. -/
def wakePasses (ops : List SysOp) : List Nat := ops.filterMap SysOp.wakePass

/-- A thread sleeps on in every step but a wake pass at the deadline or after it. -/
theorem Sys.Shaped.sleeps {s s' : Sys} {ring : Nat → List Nat} {op : SysOp} {t deadline : Nat}
    (S : s.Shaped ring) (H : s.sched.Sleeps t deadline) (hop : ∀ now ∈ op.wakePass, now < deadline)
    (h : s.step op = some s') : s'.sched.Sleeps t deadline := by
  obtain ⟨q, M⟩ := S.mutex
  -- the thread on the CPU does not sleep where it goes on with its own code
  have hcurrent (hpc : s.pc = .run ∨ s.pc = .crit) : t ≠ s.sched.threadCurrent :=
    H.ne_of_state (S.active (hpc.imp_right .inl)) (by simp)
  have hstep := Sys.step_sched h
  generalize s'.sched = r at hstep ⊢
  cases hstep with
  | tick hr => exact H.timerTick (hop _ rfl) hr
  | tickSwitch hr hswitch => exact (H.timerTick (hop _ rfl) hr).schedule hswitch
  | yield _ hswitch => exact H.schedule hswitch
  | acquire hpc => exact H.mutexAcquire s.mutex (hcurrent (.inl hpc))
  | ret => exact H
  | release =>
    refine H.mutexRelease fun x hx => (M.blocked x).mpr ?_
    rw [M.head] at hx
    exact List.mem_of_head? hx
  | sleep hpc => exact H.setThread_of_ne (hcurrent hpc)
  | exit hpc => exact H.setThread_of_ne (hcurrent (.inl hpc))
  | createTask _ hr =>
    obtain ⟨hthread, -⟩ := taskCreate_some hr
    exact H.of_core (by rw [hthread])
  | createThread _ _ hr =>
    obtain ⟨-, -, -, hcore⟩ := taskCreateThread_some hr
    -- the memory of the new thread holds no thread that sleeps
    have hne : t ≠ s.sched.nextTid := H.ne_of_state (M.fresh _ (Nat.le_refl _)).1 (by simp)
    exact H.of_core (hcore t hne)
  | scan _ _ hr => exact H.of_core ((reapTasks_some hr).2 t)

/-- A thread sleeps on in every run whose wake passes are before the deadline. -/
theorem Sys.Shaped.sleeps_run {s s' : Sys} {ring : Nat → List Nat} {ops : List SysOp}
    {t deadline : Nat} (S : s.Shaped ring) (H : s.sched.Sleeps t deadline)
    (hops : ∀ now ∈ wakePasses ops, now < deadline) (h : runFrom Sys.step s ops = some s') :
    (∃ ring, s'.Shaped ring) ∧ s'.sched.Sleeps t deadline := by
  have hsteps : AllSteps Sys.step (fun _ op => ∀ now ∈ op.wakePass, now < deadline) s ops :=
    .of_forall fun op hop _ now hnow => hops now (List.mem_filterMap.mpr ⟨op, hop, hnow⟩)
  have hstep (s : Sys) (op : SysOp) (s' : Sys)
      (hs : (∃ ring, s.Shaped ring) ∧ s.sched.Sleeps t deadline)
      (hop : ∀ now ∈ op.wakePass, now < deadline) (h : s.step op = some s') :
      (∃ ring, s'.Shaped ring) ∧ s'.sched.Sleeps t deadline := by
    obtain ⟨⟨ring, S⟩, H⟩ := hs
    exact ⟨⟨_, S.step h⟩, S.sleeps H hop h⟩
  exact (Along.of_allSteps hstep ⟨⟨ring, S⟩, H⟩ hsteps).last h

theorem Sys.exists_shaped {s : Sys} {ops : List SysOp}
    (h : runFrom Sys.step Sys.init ops = some s) :
    ∃ ring, s.Shaped ring := by
  refine runFrom_induction (I := fun s : Sys => ∃ ring, s.Shaped ring) (fun s op s' hs hop => ?_)
    ⟨_, .init⟩ h
  obtain ⟨ring, S⟩ := hs
  exact ⟨_, S.step hop⟩

/-- What `thread_sleep` at the uptime `t` is for: in every run that follows, with wake passes at
uptimes that do not decrease, the thread on the CPU sleeps until there is a pass at `t + ms` or
later, and that pass makes it ready. -/
def SleepExact (s : Sys) (t ms : Nat) : Prop :=
  ∀ s₁ s₂ ops now, s.step (.sleep t ms) = some s₁ → runFrom Sys.step s₁ ops = some s₂ →
    (t :: (wakePasses ops ++ [now])).Pairwise (· ≤ ·) → (∀ u ∈ wakePasses ops, u < t + ms) →
    (s₂.sched.thread s.sched.threadCurrent).state = .sleeping ∧
      ∃ r, schedulerWakeSleepingThreads s₂.sched now = some r ∧
        (r.thread s.sched.threadCurrent).state = if t + ms ≤ now then .ready else .sleeping

theorem threadSleep_sleeps {κ : Type u} (s : Sched κ) (t ms : Nat) :
    (threadSleep s t ms).Sleeps s.threadCurrent (add64 t ms) := by
  rw [threadSleep]
  constructor
  · rw [Sched.setThread_self]
  · rw [Sched.setThread_self]

theorem Sys.step_sleep {s s' : Sys} {t ms : Nat} (h : s.step (.sleep t ms) = some s') :
    s'.sched.Sleeps s.sched.threadCurrent (add64 t ms) := by
  have hstep := Sys.step_sched h
  generalize s'.sched = r at hstep ⊢
  cases hstep
  exact threadSleep_sleeps s.sched t ms

theorem Sys.step_sleep_isSome {s : Sys} (h : s.pc = .run ∨ s.pc = .crit) (t ms : Nat) :
    ∃ s', s.step (.sleep t ms) = some s' := by
  rcases h with h | h
  · exact ⟨_, by simp only [Sys.step, h]; rfl⟩
  · exact ⟨_, by simp only [Sys.step, h]; rfl⟩

/-- In every state that the kernel reaches, a thread that calls `thread_sleep` is neither woken
early nor missed exactly if the deadline is a 64-bit number. -/
theorem sleepExact_iff {s : Sys} {before : List SysOp} {t ms : Nat}
    (hrun : runFrom Sys.step Sys.init before = some s) (hpc : s.pc = .run ∨ s.pc = .crit)
    (ht : t < 2 ^ 64) (hms : ms < 2 ^ 64) : SleepExact s t ms ↔ t + ms < 2 ^ 64 := by
  obtain ⟨ring, S⟩ := Sys.exists_shaped hrun
  constructor
  · intro h
    by_contra hge
    -- the deadline wraps to before `t`, so a pass at `t` already wakes the thread
    have hwrap : add64 t ms ≤ t := by
      rw [add64_of_le ht hms (Nat.le_of_not_lt hge)]
      omega
    obtain ⟨s₁, h₁⟩ := Sys.step_sleep_isSome hpc t ms
    obtain ⟨-, r, hr, hstate⟩ := h s₁ s₁ [] t h₁ rfl (by simp [wakePasses]) (by simp [wakePasses])
    obtain ⟨r', hr', hready⟩ := (S.step h₁).sched.wakes (Sys.step_sleep h₁) t
    obtain rfl : r' = r := Option.some.inj (hr'.symm.trans hr)
    rw [if_neg (by omega)] at hstate
    rw [if_pos hwrap, hstate] at hready
    cases hready
  · intro hlt s₁ s₂ ops now h₁ h₂ _ hops
    have H : s₁.sched.Sleeps s.sched.threadCurrent (t + ms) := add64_of_lt hlt ▸ Sys.step_sleep h₁
    obtain ⟨⟨ring', S₂⟩, H₂⟩ := (S.step h₁).sleeps_run H hops h₂
    exact ⟨H₂.state, S₂.sched.wakes H₂ now⟩

/-- The thread of a second task gets the CPU. -/
def secondThread : List SysOp := [.createTask, .createThread 1, .yield]

theorem sleepExact_iff_secondThread : ∃ s, runFrom Sys.step Sys.init secondThread = some s ∧
    s.sched.threadCurrent = 1 ∧ SleepExact s 1000 20 ∧ ¬ SleepExact s 1000 (2 ^ 64 - 1) := by
  have hrun : runFrom Sys.step Sys.init secondThread = some _ := rfl
  refine ⟨_, hrun, rfl, (sleepExact_iff hrun (.inl rfl) ?_ ?_).mpr ?_,
    (sleepExact_iff hrun (.inl rfl) ?_ ?_).not.mpr ?_⟩
  all_goals decide

/-- The thread calls `thread_sleep(UINT64_MAX)` at the uptime 1000. The next wake pass, at the same
uptime, makes it ready. -/
theorem sleepForever_wakes :
    (runFrom Sys.step Sys.init (secondThread ++ [.sleep 1000 (2 ^ 64 - 1)])).map
        (fun s => (s.sched.thread 1).state) = some .sleeping ∧
      ((runFrom Sys.step Sys.init (secondThread ++ [.sleep 1000 (2 ^ 64 - 1)])).bind
        fun s => schedulerWakeSleepingThreads s.sched 1000).map
          (fun r => (r.thread 1).state) = some .ready := by
  decide +kernel

end Plos
