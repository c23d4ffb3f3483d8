import Plos.Scheduling.Shape

/-! The scheduler always finds a thread to run.

The idle thread never sleeps and never exits, so when the thread on the CPU cannot go on, the idle
thread is ready, or it waits for the mutex. In the second case the owner of the mutex is ready or
running, because nobody sleeps or exits with the mutex in hands. -/

namespace Plos

/-- A thread that neither runs nor waits for the CPU or the mutex. -/
def Sys.Dormant (s : Sys) (t : Nat) : Prop :=
  (s.sched.thread t).state = .sleeping ∨ (s.sched.thread t).state = .zombie

/-- The idle thread neither sleeps nor exits, and nobody sleeps inside the critical section. -/
def Sys.Allowed (s : Sys) : SysOp → Prop
  | .sleep _ _ => s.pc ≠ .crit ∧ s.sched.threadCurrent ≠ 0
  | .exit => s.sched.threadCurrent ≠ 0
  | _ => True

instance (s : Sys) (op : SysOp) : Decidable (s.Allowed op) := by
  unfold Sys.Allowed
  split <;> infer_instance

structure Sys.Live (s : Sys) : Prop where
  mutex : ∃ q, MutexInv s q
  sched : ∃ ring, SchedInv s.sched ring
  active : s.pc = .run ∨ s.pc = .crit ∨ s.pc = .resumed →
    (s.sched.thread s.sched.threadCurrent).state = .running
  dormant : ∀ t, s.Dormant t → (s.ctl t).phase = .outside
  idle : ¬ s.Dormant 0

namespace Sys.Live

variable {s s' : Sys}

theorem init : Sys.init.Live where
  mutex := ⟨[], MutexInv.init⟩
  sched := ⟨_, SchedInv.init Pc.run⟩
  active _ := rfl
  dormant t _ := by
    by_cases e : t = 0
    · subst e
      rfl
    · simp [Sys.ctl, Sys.init, schedulerInit, noThread, e]
      rfl
  idle := nofun

theorem shaped (H : s.Live) : ∃ ring, s.Shaped ring := by
  obtain ⟨ring, R⟩ := H.sched
  exact ⟨ring, H.mutex, R, H.active⟩

/-- A step after which a thread is dormant only if it was before, or has left the critical section
alone. -/
theorem frame {ring : Nat → List Nat} (H : s.Live) (hS : s'.Shaped ring)
    (hdormant : ∀ t, s'.Dormant t → s.Dormant t ∧ (s'.ctl t).phase = (s.ctl t).phase ∨
      t ≠ 0 ∧ (s'.ctl t).phase = .outside) : s'.Live where
  mutex := hS.mutex
  sched := ⟨ring, hS.sched⟩
  active := hS.active
  dormant t ht := by
    rcases hdormant t ht with ⟨hd, hp⟩ | ⟨-, hp⟩
    · exact hp.trans (H.dormant t hd)
    · exact hp
  idle h0 := by
    rcases hdormant 0 h0 with ⟨hd, -⟩ | ⟨h, -⟩
    · exact H.idle hd
    · exact h rfl

theorem rescheduled {ring : Nat → List Nat} (H : s.Live) (hS : s'.Shaped ring)
    (h : s.Rescheduled s') : s'.Live :=
  H.frame hS fun t ht => .inl ⟨ht.imp (h.sleeping t) (h.zombie t).mp, h.phase t⟩

/-- A step that leaves the thread on the CPU and its control point as they are. -/
theorem links {ring : Nat → List Nat} (H : s.Live) {r : Sched Pc}
    (hS : Sys.Shaped { s with sched := r } ring) (hcur : r.threadCurrent = s.sched.threadCurrent)
    (hcore : ∀ t, (r.thread t).core = (s.sched.thread t).core ∨ (r.thread t).state = .ready) :
    Sys.Live { s with sched := r } := by
  refine H.frame hS fun t ht => .inl ?_
  rcases hcore t with e | e
  · have hstate : (r.thread t).state = (s.sched.thread t).state := congrArg ThreadCore.state e
    refine ⟨?_, ?_⟩
    · simpa only [Sys.Dormant, hstate] using ht
    · have hctx : (r.thread t).context = (s.sched.thread t).context :=
        congrArg ThreadCore.context e
      simp only [Sys.ctl, hcur, hctx]
  · have ht : (r.thread t).state = .sleeping ∨ (r.thread t).state = .zombie := ht
    rw [e] at ht
    rcases ht with ht | ht <;> cases ht

/-- A step of the thread on the CPU that neither stops nor wakes another one: it goes on to `pc`,
and if it stops it is outside of the critical section and not the idle thread. -/
theorem current {ring : Nat → List Nat} (H : s.Live) (hS : s'.Shaped ring)
    (hsame : s.sched.SameContexts s'.sched)
    (hothers : ∀ t ≠ s.sched.threadCurrent, s'.Dormant t → s.Dormant t)
    (hstop : s'.Dormant s.sched.threadCurrent →
      s.sched.threadCurrent ≠ 0 ∧ s'.pc.phase = .outside) : s'.Live := by
  have hctl := MutexInv.ctl_of_same s s' hsame.threadCurrent hsame.context
  refine H.frame hS fun t ht => ?_
  rw [hctl]
  by_cases e : t = s.sched.threadCurrent
  · subst e
    rw [if_pos rfl]
    exact .inr (hstop ht)
  · rw [if_neg e]
    exact .inl ⟨hothers t e ht, rfl⟩

theorem step {op : SysOp} (H : s.Live) (hop : s.Allowed op) (h : s.step op = some s') :
    s'.Live := by
  obtain ⟨q, M⟩ := H.mutex
  obtain ⟨ring, S⟩ := H.shaped
  have hS := S.step h
  -- a thread that is running is not dormant
  have hwake (hrun : (s.sched.thread s.sched.threadCurrent).state = .running) :
      ¬ s.Dormant s.sched.threadCurrent := by
    simp [Sys.Dormant, hrun]
  cases op with
  | tick now => exact H.rescheduled hS (.of_tick h)
  | yield => exact H.rescheduled hS (.of_yield h)
  | acquire =>
    obtain ⟨hpc, h⟩ := Option.ite_none_right_eq_some.mp h
    have hrun := H.active (.inl hpc)
    cases hm : s.mutex.isLocked with
    | false =>
      simp only [mutexAcquire, hm] at h
      cases h
      exact H.current hS (.refl _) (fun _ _ => id) fun hd => absurd hd (hwake hrun)
    | true =>
      obtain ⟨r, hr, hcur, htid, hthread⟩ :=
        MutexInv.mutexAcquire_locked (s := s.sched) hm (M.tail_ne_current hpc)
      simp only [hr] at h
      cases h
      refine H.current hS ⟨hcur, htid, fun t => (hthread t).1⟩ (fun t ht => ?_) ?_
      · simp only [Sys.Dormant, hthread, if_neg ht]
        exact id
      · simp [Sys.Dormant, hthread]
  | ret =>
    obtain ⟨hpc, ⟨⟩⟩ := Option.ite_none_right_eq_some.mp h
    have hrun := H.active (.inr (.inr hpc))
    exact H.current hS (.refl _) (fun _ _ => id) fun hd => absurd hd (hwake hrun)
  | release =>
    obtain ⟨hpc, h⟩ := Option.ite_none_right_eq_some.mp h
    have hrun := H.active (.inr (.inl hpc))
    have hstate := @mutexRelease_state _ s.sched s.mutex
    have hsame := Sched.SameContexts.of_mutexRelease (s := s.sched) s.mutex
    have hdormant {t : Nat} (ht : ((mutexRelease s.sched s.mutex).1.thread t).state = .sleeping ∨
        ((mutexRelease s.sched s.mutex).1.thread t).state = .zombie) : s.Dormant t := by
      rw [hstate] at ht
      split at ht
      · rcases ht with ht | ht <;> cases ht
      · exact ht
    cases h
    exact H.current hS hsame (fun _ _ => hdormant) fun hd => absurd (hdormant hd) (hwake hrun)
  | sleep now ms =>
    simp only [Sys.step] at h
    split at h
    · cases h
      refine H.current hS (.setThread rfl) (fun t ht => ?_) fun _ => ⟨hop.2, rfl⟩
      rw [Sys.Dormant, threadSleep, Sched.setThread_of_ne ht]
      exact id
    · next hpc => exact absurd hpc hop.1
    · cases h
  | exit =>
    obtain ⟨hpc, ⟨⟩⟩ := Option.ite_none_right_eq_some.mp h
    refine H.current hS (.setState _ _) (fun t ht => ?_) fun _ => ⟨hop, rfl⟩
    rw [Sys.Dormant, taskCurrentThreadExit, Sched.setState_apply, if_neg ht]
    exact id
  | createTask =>
    obtain ⟨-, h⟩ := Option.ite_none_right_eq_some.mp h
    obtain ⟨r, hr, rfl⟩ := Option.map_eq_some_iff.mp h
    obtain ⟨hthread, hcur, -⟩ := taskCreate_some hr
    exact H.links hS hcur fun t => .inl (by rw [hthread])
  | createThread task =>
    obtain ⟨-, h⟩ := Option.ite_none_right_eq_some.mp h
    obtain ⟨r, hr, rfl⟩ := Option.map_eq_some_iff.mp h
    obtain ⟨hcur, -, hnew, hcore⟩ := taskCreateThread_some hr
    refine H.links hS hcur fun t => ?_
    by_cases e : t = s.sched.nextTid
    · subst e
      exact .inr (congrArg ThreadCore.state hnew)
    · exact .inl (hcore t e)
  | scan =>
    obtain ⟨-, h⟩ := Option.ite_none_right_eq_some.mp h
    obtain ⟨r, hr, rfl⟩ := Option.map_eq_some_iff.mp h
    obtain ⟨hids, hcore⟩ := reapTasks_some hr
    exact H.links hS hids.threadCurrent fun t => .inl (hcore t)

theorem run {ops : List SysOp} (hrun : runFrom Sys.step Sys.init ops = some s)
    (hops : AllSteps Sys.step Sys.Allowed Sys.init ops) : s.Live :=
  (Along.of_allSteps (fun _ _ _ H hop h => H.step hop h) init hops).last hrun

/-- Some thread is running or waits for the CPU: the idle thread, or else the owner of the mutex it
waits for. -/
theorem exists_runnable (H : s.Live) :
    ∃ t, (s.sched.thread t).state = .ready ∨ (s.sched.thread t).state = .running := by
  obtain ⟨q, M⟩ := H.mutex
  -- a thread that is neither blocked nor dormant
  have hrunnable (t : Nat) (hq : t ∉ q) (hd : ¬ s.Dormant t) :
      (s.sched.thread t).state = .ready ∨ (s.sched.thread t).state = .running := by
    obtain ⟨hs, hz⟩ := not_or.mp hd
    cases hst : (s.sched.thread t).state with
    | ready => exact .inl rfl
    | running => exact .inr rfl
    | blocked => exact absurd ((M.blocked t).mp hst) hq
    | zombie => exact absurd hst hz
    | sleeping => exact absurd hst hs
  by_cases hidle : 0 ∈ q
  · have hlocked : s.mutex.isLocked = true := by
      cases hm : s.mutex.isLocked with
      | true => rfl
      | false =>
        rw [M.unlocked hm] at hidle
        cases hidle
    rw [M.locked] at hlocked
    obtain ⟨o, ho⟩ := Option.isSome_iff_exists.mp hlocked
    obtain ⟨hoq, hphase⟩ := M.owner o ho
    exact ⟨o, hrunnable o hoq fun hd => hphase (H.dormant o hd)⟩
  · exact ⟨0, hrunnable 0 hidle H.idle⟩

theorem exists_ready (H : s.Live) {r : Sched Pc} (hr : Ticked s.sched r) (status : Pc) :
    ∃ t, ((schedulerPause r status).thread t).state = .ready := by
  obtain ⟨ring, R⟩ := H.sched
  obtain ⟨t, ht⟩ := H.exists_runnable
  have htr : (r.thread t).state = (s.sched.thread t).state := by
    rcases hr.state t with e | ⟨e, -⟩
    · exact e
    · rw [e] at ht
      rcases ht with ht | ht <;> cases ht
  refine ⟨t, ?_⟩
  by_cases e : t = r.threadCurrent
  · subst e
    rw [schedulerPause_current]
    rw [← htr] at ht
    rcases ht with ht | ht <;> simp [ht]
  · rw [schedulerPause_of_ne e, htr]
    rcases ht with ht | ht
    · exact ht
    · exact absurd ((R.running t ht).trans hr.ids.threadCurrent.symm) e

end Sys.Live

/-- The state in which a step enters `scheduler_schedule`, and the registers it passes. -/
def Sys.entered (s : Sys) : SysOp → Option (Sched Pc × Pc)
  | .tick now =>
    match timerTick s.sched now with
    | some (r, true) => some (r, s.pc)
    | _ => none
  | .yield => s.pc.afterYield.map fun status => (s.sched, status)
  | _ => none

theorem Sys.entered_ticked {s : Sys} {op : SysOp} {r : Sched Pc} {status : Pc}
    (h : s.entered op = some (r, status)) : Ticked s.sched r := by
  unfold Sys.entered at h
  split at h
  · split at h
    · next htick =>
      cases h
      exact .of_timerTick htick
    · cases h
  · obtain ⟨pc, -, ⟨⟩⟩ := Option.map_eq_some_iff.mp h
    exact .refl _
  · cases h

/-- In every run in which the idle thread neither sleeps nor exits and nobody sleeps with the mutex,
the wake pass of a tick ends, and whenever `scheduler_schedule` is entered some thread is ready
after the pause and the search ends. -/
theorem scheduler_never_freezes {s : Sys} {ops : List SysOp}
    (hrun : runFrom Sys.step Sys.init ops = some s)
    (hops : AllSteps Sys.step Sys.Allowed Sys.init ops) :
    (∀ now, (timerTick s.sched now).isSome) ∧
      ∀ op r status, s.entered op = some (r, status) →
        (∃ t < r.nextTid, ((schedulerPause r status).thread t).state = .ready) ∧
          (schedulerSchedule r status).isSome := by
  have H := Sys.Live.run hrun hops
  obtain ⟨ring, R⟩ := H.sched
  refine ⟨R.timerTick_isSome, fun op r status h => ?_⟩
  have hr := Sys.entered_ticked h
  obtain ⟨t, ht⟩ := H.exists_ready hr status
  have R' := R.ticked hr
  obtain ⟨k, hk⟩ := (R'.pause status).alive t (by rw [ht]; nofun)
  refine ⟨⟨t, R'.lt k t hk, ht⟩, R'.schedule_isSome ht⟩

/-- The idle thread waits for the mutex of a thread that has been preempted, and yields. -/
def idleBlocked : List SysOp :=
  [.createTask, .createThread 1, .yield, .acquire, .tick 0, .tick 0, .tick 0, .tick 0, .acquire]

theorem idleBlocked_runs : (runFrom Sys.step Sys.init idleBlocked).isSome := by decide +kernel

theorem scheduler_never_freezes_idleBlocked : ∃ s r status,
    runFrom Sys.step Sys.init idleBlocked = some s ∧ s.entered .yield = some (r, status) ∧
      r.threadCurrent = 0 ∧ (r.thread 0).state = .blocked ∧
      (schedulerSchedule r status).isSome := by
  have hrun := (Option.some_get idleBlocked_runs).symm
  have hops : AllSteps Sys.step Sys.Allowed Sys.init idleBlocked := by decide +kernel
  have hpc : ((runFrom Sys.step Sys.init idleBlocked).get idleBlocked_runs).pc = .waiting := by
    decide +kernel
  have hentered : ((runFrom Sys.step Sys.init idleBlocked).get idleBlocked_runs).entered .yield =
      some (((runFrom Sys.step Sys.init idleBlocked).get idleBlocked_runs).sched, .resumed) := by
    rw [Sys.entered, hpc]
    rfl
  have hsome := ((scheduler_never_freezes hrun hops).2 .yield _ _ hentered).2
  exact ⟨_, _, _, hrun, hentered, by decide +kernel, by decide +kernel, hsome⟩

end Plos
