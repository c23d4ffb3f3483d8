import Plos.Lib.Path
import Plos.Scheduling.Effects

/-! The mutex protocol over the scheduler.

`MutexInv s q` says that the queue of the mutex is the list `q`: the links spell it out, its members
are the blocked threads, and a thread is in it or owns the mutex if it stands between the queueing
section of `mutex_acquire` and the end of its critical section. A step of the scheduler or the timer
moves a thread inside its phase and leaves the set of blocked threads alone, so it keeps the
invariant whatever thread is chosen (`MutexInv.frame`); only the sections of the mutex change it. -/

namespace Plos

/-- Where a thread stands with respect to the mutex. -/
inductive Phase where
  | outside
  | queued
  | inside
  deriving DecidableEq, Repr

def Pc.phase : Pc → Phase
  | run | sleeping false | exiting | exited => .outside
  | waiting | resumed => .queued
  | crit | sleeping true => .inside

theorem Pc.phase_afterYield {pc pc' : Pc} (h : pc.afterYield = some pc') :
    pc'.phase = pc.phase := by
  cases pc with
  | sleeping b => cases b <;> cases h <;> rfl
  | resumed | exited => cases h
  | run | crit | waiting | exiting => cases h; rfl

/-! ## Ticks and yields -/

/-- What a tick or a yield does to the system: threads are woken, paused and put on the CPU, and
none of them leaves its phase. -/
structure Sys.Rescheduled (s s' : Sys) : Prop where
  mutex : s'.mutex = s.mutex
  owner : s'.owner = s.owner
  arrivals : s'.arrivals = s.arrivals
  wakeups : s'.wakeups = s.wakeups
  nextTid : s'.sched.nextTid = s.sched.nextTid
  context : ∀ t ≠ s.sched.threadCurrent,
    (s'.sched.thread t).context = (s.sched.thread t).context
  nextWaiter : ∀ t, (s'.sched.thread t).nextWaiter = (s.sched.thread t).nextWaiter
  phase : ∀ t, (s'.ctl t).phase = (s.ctl t).phase
  blocked : ∀ t, (s'.sched.thread t).state = .blocked ↔ (s.sched.thread t).state = .blocked
  zombie : ∀ t, (s'.sched.thread t).state = .zombie ↔ (s.sched.thread t).state = .zombie
  sleeping : ∀ t, (s'.sched.thread t).state = .sleeping → (s.sched.thread t).state = .sleeping
  current : (s'.sched.thread s'.sched.threadCurrent).state = .running ∨
    s'.sched.threadCurrent = s.sched.threadCurrent ∧ s'.pc = s.pc ∧
      (s.sched.thread s.sched.threadCurrent).state ≠ .running

namespace Sys.Rescheduled

variable {s s' : Sys} {r : Sched Pc}

/-- The scheduler moves `status` into the context of the paused thread and the context of the chosen
one onto the CPU. -/
theorem of_schedule (hr : Ticked s.sched r) {status : Pc} (hstatus : status.phase = s.pc.phase)
    (h : s.schedule r status = some s') : s.Rescheduled s' := by
  unfold Sys.schedule at h
  split at h
  · cases h
  next r' pc hs =>
  cases h
  have hstate (st : ThreadState) := @schedulerSchedule_state _ r r' status pc hs st
  obtain ⟨k, t, -, -, rfl, rfl⟩ := schedulerSchedule_some hs
  have hids := @schedulerPause_ids _ r status
  have hcontext (x : Nat) :
      ((schedulerSwitch (schedulerPause r status) k t).thread x).context =
        if x = s.sched.threadCurrent then status else (s.sched.thread x).context := by
    rw [schedulerSwitch_context, schedulerPause_context, hr.ids.threadCurrent, hr.context]
  refine ⟨rfl, rfl, rfl, rfl, hids.nextTid.trans hr.ids.nextTid, fun x hx => ?_, fun x => ?_,
    fun x => ?_, fun x => ?_, fun x => ?_, fun x hx => ?_, .inl ?_⟩
  · rw [hcontext, if_neg hx]
  · rw [schedulerSwitch_nextWaiter, schedulerPause_nextWaiter, hr.nextWaiter]
  · have hctl : Sys.ctl { s with
        sched := schedulerSwitch (schedulerPause r status) k t
        pc := ((schedulerPause r status).thread t).context } x =
          if x = s.sched.threadCurrent then status else (s.sched.thread x).context := by
      rw [← hcontext, Sys.ctl]
      split
      · next e =>
        obtain rfl : x = t := e
        exact schedulerSwitch_context.symm
      · rfl
    rw [hctl, Sys.ctl]
    split
    · exact hstatus
    · rfl
  · exact (hstate .blocked (by simp) (by simp) x).trans
      (hr.state_iff .blocked (by simp) (by simp) x)
  · exact (hstate .zombie (by simp) (by simp) x).trans (hr.state_iff .zombie (by simp) (by simp) x)
  · exact hr.sleeping ((hstate .sleeping (by simp) (by simp) x).mp hx)
  · exact congrArg Thread.state Sched.setThread_self

theorem of_tick {now : Nat} (h : s.step (.tick now) = some s') : s.Rescheduled s' := by
  simp only [Sys.step] at h
  split at h
  · cases h
  · next r hr => exact of_schedule (.of_timerTick hr) rfl h
  · next r hr =>
    cases h
    have hT := Ticked.of_timerTick hr
    refine ⟨rfl, rfl, rfl, rfl, hT.ids.nextTid, fun t _ => hT.context t, hT.nextWaiter, fun t => ?_,
      hT.state_iff .blocked (by simp) (by simp), hT.state_iff .zombie (by simp) (by simp), fun _ =>
        hT.sleeping, ?_⟩
    · simp only [Sys.ctl, hT.ids.threadCurrent, hT.context]
    · have hrunning := hT.state_iff .running (by simp) (by simp) s.sched.threadCurrent
      rw [hT.ids.threadCurrent, hrunning]
      exact (em _).imp_right fun hne => ⟨rfl, rfl, hne⟩

theorem of_yield (h : s.step .yield = some s') : s.Rescheduled s' := by
  simp only [Sys.step] at h
  split at h
  · cases h
  · next status hy => exact of_schedule (.refl _) (Pc.phase_afterYield hy) h

end Sys.Rescheduled

/-! ## The invariant -/

structure MutexInv (s : Sys) (q : List Nat) : Prop where
  nodup : q.Nodup
  head : s.mutex.waitingQueueHead = q.head?
  tail : s.mutex.waitingQueueTail = q.getLast?
  linked : Linked (fun t => (s.sched.thread t).nextWaiter) q
  blocked : ∀ t, (s.sched.thread t).state = .blocked ↔ t ∈ q
  queued : ∀ t ∈ q, (s.ctl t).phase = .queued
  woken : ∀ t, (s.ctl t).phase = .queued → t ∉ q → s.owner = some t
  inside : ∀ t, (s.ctl t).phase = .inside → s.owner = some t
  owner : ∀ t, s.owner = some t → t ∉ q ∧ (s.ctl t).phase ≠ .outside
  locked : s.mutex.isLocked = s.owner.isSome
  unlocked : s.mutex.isLocked = false → q = []
  current : s.pc = .resumed → s.sched.threadCurrent ∉ q
  fifo : s.arrivals = s.wakeups ++ q
  fresh : ∀ t, s.sched.nextTid ≤ t →
    (s.sched.thread t).state = .zombie ∧ (s.sched.thread t).context = .run
  current_lt : s.sched.threadCurrent < s.sched.nextTid

namespace MutexInv

variable {s s' : Sys} {q : List Nat} {r : Sched Pc}

theorem init : MutexInv Sys.init [] := by
  have hctl (t : Nat) : Sys.init.ctl t = .run := by
    by_cases h : t = 0
    · simp [Sys.ctl, Sys.init, schedulerInit, h]
    · simp [Sys.ctl, Sys.init, schedulerInit, noThread, h]
  refine ⟨List.nodup_nil, rfl, rfl, trivial, fun t => ?_, fun t ht => absurd ht (by simp),
    fun t ht => ?_, fun t ht => ?_, fun t ht => absurd ht (by simp [Sys.init]), rfl, fun _ => rfl,
    fun h => absurd h (by simp [Sys.init]), rfl, fun t ht => ?_, Nat.zero_lt_one⟩
  · have : t = 0 ∨ t ≠ 0 := em _
    rcases this with rfl | ht <;> simp [Sys.init, schedulerInit, noThread, *]
  · rw [hctl] at ht; cases ht
  · rw [hctl] at ht; cases ht
  · have : t ≠ 0 := by rintro rfl; exact absurd ht (by decide)
    simp [Sys.init, schedulerInit, noThread, this]

theorem ctl_current : s.ctl s.sched.threadCurrent = s.pc := if_pos rfl

/-- Without a switch only the control point of the thread on the CPU changes. -/
theorem ctl_of_same (s s' : Sys) (hcur : s'.sched.threadCurrent = s.sched.threadCurrent)
    (hctx : ∀ t, (s'.sched.thread t).context = (s.sched.thread t).context) (t : Nat) :
    s'.ctl t = if t = s.sched.threadCurrent then s'.pc else s.ctl t := by
  simp only [Sys.ctl, hcur, hctx]
  split <;> rfl

theorem not_mem_of_phase (H : MutexInv s q) (h : s.pc.phase ≠ .queued) :
    s.sched.threadCurrent ∉ q := by
  intro hq
  have := H.queued _ hq
  rw [ctl_current] at this
  exact h this

theorem mem_lt (H : MutexInv s q) {t : Nat} (ht : t ∈ q) : t < s.sched.nextTid := by
  by_contra hlt
  have := (H.fresh t (not_lt.mp hlt)).1
  rw [(H.blocked t).mpr ht] at this
  cases this

/-- A step that leaves the mutex and the blocked threads alone and moves no thread out of its
phase keeps the invariant. -/
theorem frame (H : MutexInv s q) (hmutex : s'.mutex = s.mutex) (howner : s'.owner = s.owner)
    (harr : s'.arrivals = s.arrivals) (hwake : s'.wakeups = s.wakeups)
    (hlink : ∀ t ∈ q, (s'.sched.thread t).nextWaiter = (s.sched.thread t).nextWaiter)
    (hblocked : ∀ t, (s'.sched.thread t).state = .blocked ↔ (s.sched.thread t).state = .blocked)
    (hphase : ∀ t, (s'.ctl t).phase = (s.ctl t).phase)
    (hcurrent : s'.pc = .resumed → s'.sched.threadCurrent ∉ q)
    (hfresh : ∀ t, s'.sched.nextTid ≤ t →
      (s'.sched.thread t).state = .zombie ∧ (s'.sched.thread t).context = .run)
    (hlt : s'.sched.threadCurrent < s'.sched.nextTid) : MutexInv s' q where
  nodup := H.nodup
  head := by rw [hmutex, H.head]
  tail := by rw [hmutex, H.tail]
  linked := H.linked.congr hlink
  blocked t := (hblocked t).trans (H.blocked t)
  queued t ht := (hphase t).trans (H.queued t ht)
  woken t ht hq := by
    rw [howner]
    exact H.woken t ((hphase t).symm.trans ht) hq
  inside t ht := by
    rw [howner]
    exact H.inside t ((hphase t).symm.trans ht)
  owner t ht := by
    rw [howner] at ht
    rw [hphase]
    exact H.owner t ht
  locked := by rw [hmutex, howner, H.locked]
  unlocked h := H.unlocked (hmutex ▸ h)
  current := hcurrent
  fifo := by rw [harr, hwake, H.fifo]
  fresh := hfresh
  current_lt := hlt

/-! ## The scheduler and the timer -/

theorem rescheduled (H : MutexInv s q) (h : s.Rescheduled s') : MutexInv s' q := by
  have hlt : s'.sched.threadCurrent < s.sched.nextTid := by
    rcases h.current with hrun | ⟨e, -, -⟩
    · apply Nat.lt_of_not_le
      intro hge
      have hz := (h.zombie _).mpr (H.fresh _ hge).1
      rw [hrun] at hz
      cases hz
    · rw [e]
      exact H.current_lt
  refine H.frame h.mutex h.owner h.arrivals h.wakeups (fun t _ => h.nextWaiter t) h.blocked h.phase
    (fun hpc => ?_) (fun t ht => ?_) (h.nextTid ▸ hlt)
  · rcases h.current with hrun | ⟨e, hpc', -⟩
    · rw [← H.blocked, ← h.blocked, hrun]
      simp
    · rw [e]
      exact H.current (hpc' ▸ hpc)
  · rw [h.nextTid] at ht
    obtain ⟨hz, hc⟩ := H.fresh t ht
    refine ⟨(h.zombie t).mpr hz, (h.context t ?_).trans hc⟩
    exact (H.current_lt.trans_le ht).ne'

/-- A step of the thread on the CPU that changes only links of the lists of threads. -/
theorem links (H : MutexInv s q) (hcur : r.threadCurrent = s.sched.threadCurrent)
    (htid : r.nextTid = s.sched.nextTid)
    (hcore : ∀ t, (r.thread t).core = (s.sched.thread t).core) :
    MutexInv { s with sched := r } q := by
  have hctx (t : Nat) : (r.thread t).context = (s.sched.thread t).context :=
    congrArg ThreadCore.context (hcore t)
  have hstate (t : Nat) : (r.thread t).state = (s.sched.thread t).state :=
    congrArg ThreadCore.state (hcore t)
  refine H.frame rfl rfl rfl rfl (fun t _ => congrArg ThreadCore.nextWaiter (hcore t))
    (fun t => by rw [hstate]) (fun t => ?_) (fun h => ?_) (fun t ht => ?_) ?_
  · simp only [Sys.ctl, hcur, hctx]
  · exact hcur ▸ H.current h
  · rw [hstate, hctx]
    exact H.fresh t (htid ▸ ht)
  · rw [hcur, htid]
    exact H.current_lt

/-- A step that changes the state of the thread on the CPU, outside of the queue, to one that is
not blocked. -/
theorem setCurrent (H : MutexInv s q) {th : Thread Pc} {pc : Pc}
    (hq : s.sched.threadCurrent ∉ q) (hblocked : th.state ≠ .blocked)
    (hphase : pc.phase = s.pc.phase) :
    MutexInv { s with sched := s.sched.setThread s.sched.threadCurrent th, pc := pc } q := by
  have hne {t : Nat} (ht : t ∈ q) : t ≠ s.sched.threadCurrent := by rintro rfl; exact hq ht
  refine H.frame rfl rfl rfl rfl (fun t ht => ?_) (fun t => ?_) (fun t => ?_) (fun _ => hq)
    (fun t ht => ?_) H.current_lt
  · exact congrArg Thread.nextWaiter (Sched.setThread_of_ne (hne ht))
  · simp only [Sched.setThread_apply]
    split
    · next e => subst e; simp [hblocked, H.blocked, hq]
    · exact .rfl
  · by_cases e : t = s.sched.threadCurrent
    · subst e
      rw [ctl_current]
      exact (congrArg Pc.phase (if_pos rfl)).trans hphase
    · simp only [Sys.ctl, Sched.setThread_of_ne e]
      rw [if_neg e]
      exact congrArg Pc.phase (if_neg e)
  · have e : t ≠ s.sched.threadCurrent := by
      rintro rfl
      exact absurd H.current_lt (not_lt.mpr ht)
    rw [Sched.setThread_of_ne e]
    exact H.fresh t ht

theorem createThread (H : MutexInv s q) {task : Nat}
    (h : taskCreateThread s.sched task .run = some r) : MutexInv { s with sched := r } q := by
  obtain ⟨hcur, htid, hnew, hcore⟩ := taskCreateThread_some h
  have hcur' : s.sched.threadCurrent ≠ s.sched.nextTid := H.current_lt.ne
  obtain ⟨hz, hc⟩ := H.fresh s.sched.nextTid le_rfl
  have hstate {t : Nat} (ht : t ≠ s.sched.nextTid) :
      (r.thread t).state = (s.sched.thread t).state :=
    congrArg ThreadCore.state (hcore t ht)
  have hctx (t : Nat) : (r.thread t).context = (s.sched.thread t).context := by
    by_cases ht : t = s.sched.nextTid
    · subst ht
      exact (congrArg ThreadCore.context hnew).trans hc.symm
    · exact congrArg ThreadCore.context (hcore t ht)
  refine H.frame rfl rfl rfl rfl (fun t ht => ?_) (fun t => ?_) (fun t => ?_) (fun h => ?_)
    (fun t ht => ?_) ?_
  · exact congrArg ThreadCore.nextWaiter (hcore t (H.mem_lt ht).ne)
  · by_cases ht : t = s.sched.nextTid
    · subst ht
      have : (r.thread s.sched.nextTid).state = .ready := congrArg ThreadCore.state hnew
      simp [this, hz]
    · rw [hstate ht]
  · simp only [Sys.ctl, hcur, hctx]
  · exact hcur ▸ H.current h
  · rw [htid] at ht
    rw [hstate (Nat.lt_of_succ_le ht).ne', hctx]
    exact H.fresh t (Nat.le_of_succ_le ht)
  · rw [hcur, htid]
    exact Nat.lt_succ_of_lt H.current_lt

/-! ## The sections of the mutex -/

theorem acquire_free (H : MutexInv s q) (hm : s.mutex.isLocked = false) :
    MutexInv { s with
      mutex := { s.mutex with isLocked := true }, pc := .crit,
      owner := some s.sched.threadCurrent } q := by
  obtain rfl := H.unlocked hm
  have hnone : s.owner = none := by
    have := H.locked
    rw [hm] at this
    exact Option.not_isSome_iff_eq_none.mp (by simp [← this])
  have hctl := ctl_of_same s { s with
    mutex := { s.mutex with isLocked := true }, pc := .crit,
    owner := some s.sched.threadCurrent } rfl fun _ => rfl
  refine ⟨H.nodup, H.head, H.tail, H.linked, H.blocked, (by simp), fun t ht _ => ?_, fun t ht => ?_,
    fun t ht => ?_, rfl, fun _ => rfl, (by simp), H.fifo, H.fresh, H.current_lt⟩
  · rw [hctl] at ht
    split at ht
    · cases ht
    · have := H.woken t ht List.not_mem_nil
      rw [hnone] at this
      cases this
  · rw [hctl] at ht
    split at ht
    · next e => rw [e]
    · have := H.inside t ht
      rw [hnone] at this
      cases this
  · cases ht
    rw [hctl, if_pos rfl]
    exact ⟨List.not_mem_nil, by simp [Pc.phase]⟩

/-- The fields of the threads after a thread has queued up. -/
theorem mutexAcquire_locked {s : Sched Pc} {m : Mutex} (hm : m.isLocked = true)
    (htail : m.waitingQueueTail ≠ some s.threadCurrent) :
    ∃ r : Sched Pc, mutexAcquire s m = (r, ⟨true,
        if m.waitingQueueTail = none then some s.threadCurrent else m.waitingQueueHead,
        some s.threadCurrent⟩, false) ∧
      r.threadCurrent = s.threadCurrent ∧ r.nextTid = s.nextTid ∧
      ∀ t, (r.thread t).context = (s.thread t).context ∧
        (r.thread t).state = (if t = s.threadCurrent then .blocked else (s.thread t).state) ∧
        (r.thread t).nextWaiter = if t = s.threadCurrent then none
          else if m.waitingQueueTail = some t then some s.threadCurrent
          else (s.thread t).nextWaiter := by
  obtain ⟨_, head, tail⟩ := m
  cases hm
  cases tail with
  | none =>
    refine ⟨_, rfl, rfl, rfl, fun t => ?_⟩
    by_cases e : t = s.threadCurrent
    · subst e
      simp [Sched.setState, Sched.setThread]
    · simp [Sched.setState, Sched.setThread, e]
  | some z =>
    refine ⟨_, rfl, rfl, rfl, fun t => ?_⟩
    have hz : z ≠ s.threadCurrent := fun e => htail (congrArg some e)
    by_cases e : t = s.threadCurrent
    · subst e
      simp [Sched.setState, Sched.setThread, hz.symm]
    · by_cases e' : t = z
      · subst e'
        simp [Sched.setState, Sched.setThread, e]
      · simp [Sched.setState, Sched.setThread, e, e', Ne.symm e']

theorem tail_ne_current (H : MutexInv s q) (hpc : s.pc = .run) :
    s.mutex.waitingQueueTail ≠ some s.sched.threadCurrent := by
  rw [H.tail]
  intro e
  exact H.not_mem_of_phase (by simp [hpc, Pc.phase]) (List.mem_of_getLast? e)

/-- A thread that finds the mutex locked goes to the end of the queue. -/
theorem acquire_locked (H : MutexInv s q) (hpc : s.pc = .run) (hm : s.mutex.isLocked = true)
    (h : s.step .acquire = some s') : MutexInv s' (q ++ [s.sched.threadCurrent]) := by
  have hcq : s.sched.threadCurrent ∉ q := H.not_mem_of_phase (by rw [hpc]; decide)
  obtain ⟨r, hr, hcur, htid, hthread⟩ :=
    mutexAcquire_locked (s := s.sched) hm (H.tail_ne_current hpc)
  simp only [Sys.step, if_pos hpc, hr] at h
  cases h
  have hctl := ctl_of_same s { s with
    sched := r
    mutex := ⟨true, if s.mutex.waitingQueueTail = none then some s.sched.threadCurrent
      else s.mutex.waitingQueueHead, some s.sched.threadCurrent⟩
    pc := .waiting
    arrivals := s.arrivals ++ [s.sched.threadCurrent] } hcur fun t => (hthread t).1
  have howner {t : Nat} (ht : s.owner = some t) : t ≠ s.sched.threadCurrent := by
    rintro rfl
    have := (H.owner _ ht).2
    rw [ctl_current, hpc] at this
    exact this rfl
  refine ⟨?_, ?_, ?_, ?_, fun t => ?_, fun t ht => ?_, fun t ht htq => ?_, fun t ht => ?_,
    fun t ht => ?_, ?_, (by simp), (by simp), ?_, fun t ht => ?_, ?_⟩
  · simpa [List.nodup_append] using ⟨H.nodup, fun a ha e => hcq (e ▸ ha)⟩
  · simp only [H.tail, H.head]
    cases q <;> simp
  · simp
  · refine H.linked.snoc (fun t ht => ?_) ?_ H.nodup
    · rw [(hthread t).2.2, if_neg (by rintro rfl; exact hcq ht), H.tail]
    · rw [(hthread _).2.2, if_pos rfl]
  · rw [(hthread t).2.1]
    by_cases e : t = s.sched.threadCurrent
    · simp [e]
    · simp [e, H.blocked]
  · rw [hctl]
    rcases List.mem_append.mp ht with ht | ht
    · rw [if_neg (by rintro rfl; exact hcq ht)]
      exact H.queued t ht
    · rw [if_pos (List.mem_singleton.mp ht)]
      rfl
  · rw [hctl] at ht
    have htq' := List.mem_append.not.mp htq
    rw [not_or, List.mem_singleton] at htq'
    rw [if_neg htq'.2] at ht
    exact H.woken t ht htq'.1
  · rw [hctl] at ht
    split at ht
    · cases ht
    · exact H.inside t ht
  · rw [hctl, if_neg (howner ht)]
    refine ⟨fun hmem => ?_, (H.owner t ht).2⟩
    rcases List.mem_append.mp hmem with hmem | hmem
    · exact (H.owner t ht).1 hmem
    · exact howner ht (List.mem_singleton.mp hmem)
  · exact hm.symm.trans H.locked
  · simp only [H.fifo, List.append_assoc]
  · have e : t ≠ s.sched.threadCurrent := by
      rintro rfl
      exact absurd H.current_lt (not_lt.mpr (htid ▸ ht))
    rw [(hthread t).1, (hthread t).2.1, if_neg e]
    exact H.fresh t (htid ▸ ht)
  · rw [hcur, htid]
    exact H.current_lt

/-- `mutex_acquire` returns to a thread that has been woken, and that thread owns the mutex. -/
theorem ret (H : MutexInv s q) (hpc : s.pc = .resumed) : MutexInv { s with pc := .crit } q := by
  have hcq := H.current hpc
  have howner : s.owner = some s.sched.threadCurrent :=
    H.woken _ (by rw [ctl_current, hpc]; rfl) hcq
  have hctl := ctl_of_same s { s with pc := .crit } rfl fun _ => rfl
  refine ⟨H.nodup, H.head, H.tail, H.linked, H.blocked, fun t ht => ?_, fun t ht htq => ?_,
    fun t ht => ?_, fun t ht => ⟨(H.owner t ht).1, ?_⟩, H.locked, H.unlocked, (by simp), H.fifo,
    H.fresh, H.current_lt⟩
  · rw [hctl, if_neg (by rintro rfl; exact hcq ht)]
    exact H.queued t ht
  · rw [hctl] at ht
    split at ht
    · cases ht
    · exact H.woken t ht htq
  · rw [hctl] at ht
    split at ht
    · next e => rw [e]; exact howner
    · exact H.inside t ht
  · rw [hctl]
    split
    · simp [Pc.phase]
    · exact (H.owner t ht).2

theorem release_empty (H : MutexInv s []) (hpc : s.pc = .crit) :
    MutexInv { s with
      mutex := ⟨false, none, s.mutex.waitingQueueTail⟩, pc := .run, owner := none } [] := by
  have howner : s.owner = some s.sched.threadCurrent :=
    H.inside _ (by rw [ctl_current, hpc]; rfl)
  have honly {t : Nat} (ht : s.owner = some t) : t = s.sched.threadCurrent :=
    Option.some.inj (ht.symm.trans howner)
  have hctl := ctl_of_same s { s with
    mutex := ⟨false, none, s.mutex.waitingQueueTail⟩, pc := .run, owner := none } rfl fun _ => rfl
  refine ⟨H.nodup, rfl, H.tail, H.linked, H.blocked, (by simp), fun t ht htq => ?_, fun t ht => ?_,
    (by simp), rfl, fun _ => rfl, (by simp), H.fifo, H.fresh, H.current_lt⟩
  · rw [hctl] at ht
    split at ht
    · cases ht
    · next e => exact absurd (honly (H.woken t ht htq)) e
  · rw [hctl] at ht
    split at ht
    · cases ht
    · next e => exact absurd (honly (H.inside t ht)) e

/-- The mutex is handed to the first thread of the queue, which becomes ready. -/
theorem release_handOver {w : Nat} (H : MutexInv s (w :: q)) (hpc : s.pc = .crit) :
    MutexInv { s with
      sched := s.sched.setState w .ready
      mutex := { s.mutex with
        waitingQueueHead := q.head?
        waitingQueueTail := if q.head? = none then none else s.mutex.waitingQueueTail }
      pc := .run, owner := some w, wakeups := s.wakeups ++ [w] } q := by
  obtain ⟨hwq, hnd⟩ := List.nodup_cons.mp H.nodup
  have howner : s.owner = some s.sched.threadCurrent :=
    H.inside _ (by rw [ctl_current, hpc]; rfl)
  have honly {t : Nat} (ht : s.owner = some t) : t = s.sched.threadCurrent :=
    Option.some.inj (ht.symm.trans howner)
  have hwc : w ≠ s.sched.threadCurrent := by
    rintro rfl
    exact (H.owner _ howner).1 List.mem_cons_self
  have hthread (t : Nat) : ((s.sched.setState w .ready).thread t).context =
        (s.sched.thread t).context ∧
      ((s.sched.setState w .ready).thread t).state =
        (if t = w then .ready else (s.sched.thread t).state) ∧
      ((s.sched.setState w .ready).thread t).nextWaiter = (s.sched.thread t).nextWaiter := by
    rw [Sched.setState_apply]
    split
    · next e => subst e; exact ⟨rfl, rfl, rfl⟩
    · exact ⟨rfl, rfl, rfl⟩
  have hctl := ctl_of_same s { s with
      sched := s.sched.setState w .ready
      mutex := { s.mutex with
        waitingQueueHead := q.head?
        waitingQueueTail := if q.head? = none then none else s.mutex.waitingQueueTail }
      pc := .run, owner := some w, wakeups := s.wakeups ++ [w] } rfl fun t => (hthread t).1
  refine ⟨hnd, rfl, ?_, ?_, fun t => ?_, fun t ht => ?_, fun t ht htq => ?_, fun t ht => ?_,
    fun t ht => ?_, ?_, fun h => ?_, (by simp), ?_, fun t ht => ?_, H.current_lt⟩
  · simp only [H.tail]
    cases q <;> simp
  · exact H.linked.2.congr fun t _ => (hthread t).2.2
  · rw [(hthread t).2.1]
    by_cases e : t = w
    · simp [e, hwq]
    · simp [e, H.blocked]
  · rw [hctl, if_neg]
    · exact H.queued t (List.mem_cons_of_mem _ ht)
    · rintro rfl
      exact (H.owner _ howner).1 (List.mem_cons_of_mem _ ht)
  · rw [hctl] at ht
    split at ht
    · cases ht
    · next e =>
      by_cases e' : t = w
      · rw [e']
      · exact absurd (honly (H.woken t ht (by simp [e', htq]))) e
  · rw [hctl] at ht
    split at ht
    · cases ht
    · next e => exact absurd (honly (H.inside t ht)) e
  · cases ht
    rw [hctl, if_neg hwc, H.queued w List.mem_cons_self]
    exact ⟨hwq, (by simp)⟩
  · rw [H.locked, howner]
    rfl
  · rw [H.locked, howner] at h
    cases h
  · simp only [H.fifo, List.append_assoc, List.singleton_append]
  · have e : t ≠ w := by
      rintro rfl
      exact absurd (H.mem_lt List.mem_cons_self) (not_lt.mpr ht)
    rw [(hthread t).1, (hthread t).2.1, if_neg e]
    exact H.fresh t ht

theorem release (H : MutexInv s q) (hpc : s.pc = .crit) (h : s.step .release = some s') :
    ∃ q', MutexInv s' q' := by
  simp only [Sys.step, if_pos hpc] at h
  cases q with
  | nil =>
    simp only [mutexRelease, H.head, List.head?_nil] at h
    cases h
    refine ⟨[], ?_⟩
    rw [Option.toList_none, List.append_nil]
    exact H.release_empty hpc
  | cons w q =>
    simp only [mutexRelease, H.head, List.head?_cons, H.linked.1] at h
    cases h
    exact ⟨q, H.release_handOver hpc⟩

/-! ## Runs -/

theorem step {op : SysOp} (H : MutexInv s q) (h : s.step op = some s') : ∃ q', MutexInv s' q' := by
  cases op with
  | tick now => exact ⟨q, H.rescheduled (.of_tick h)⟩
  | yield => exact ⟨q, H.rescheduled (.of_yield h)⟩
  | acquire =>
    have hpc : s.pc = .run := by
      by_contra hpc
      simp [Sys.step, hpc] at h
    cases hm : s.mutex.isLocked with
    | false =>
      simp only [Sys.step, if_pos hpc, mutexAcquire, hm] at h
      cases h
      exact ⟨q, H.acquire_free hm⟩
    | true => exact ⟨_, H.acquire_locked hpc hm h⟩
  | ret =>
    obtain ⟨hpc, ⟨⟩⟩ := Option.ite_none_right_eq_some.mp h
    exact ⟨q, H.ret hpc⟩
  | release =>
    have hpc : s.pc = .crit := by
      by_contra hpc
      simp [Sys.step, hpc] at h
    exact H.release hpc h
  | sleep now ms =>
    simp only [Sys.step] at h
    split at h
    · next hpc =>
      cases h
      exact ⟨q, H.setCurrent (H.not_mem_of_phase (by simp [hpc, Pc.phase])) (by simp)
        (by rw [hpc]; rfl)⟩
    · next hpc =>
      cases h
      exact ⟨q, H.setCurrent (H.not_mem_of_phase (by simp [hpc, Pc.phase])) (by simp)
        (by rw [hpc]; rfl)⟩
    · cases h
  | exit =>
    obtain ⟨hpc, ⟨⟩⟩ := Option.ite_none_right_eq_some.mp h
    exact ⟨q, H.setCurrent (H.not_mem_of_phase (by simp [hpc, Pc.phase])) (by simp)
      (by rw [hpc]; rfl)⟩
  | createTask =>
    obtain ⟨-, h⟩ := Option.ite_none_right_eq_some.mp h
    obtain ⟨r, hr, rfl⟩ := Option.map_eq_some_iff.mp h
    obtain ⟨hthread, hcur, htid⟩ := taskCreate_some hr
    exact ⟨q, H.links hcur htid fun t => by rw [hthread]⟩
  | createThread task =>
    obtain ⟨-, h⟩ := Option.ite_none_right_eq_some.mp h
    obtain ⟨r, hr, rfl⟩ := Option.map_eq_some_iff.mp h
    exact ⟨q, H.createThread hr⟩
  | scan =>
    obtain ⟨-, h⟩ := Option.ite_none_right_eq_some.mp h
    obtain ⟨r, hr, rfl⟩ := Option.map_eq_some_iff.mp h
    obtain ⟨hids, hcore⟩ := reapTasks_some hr
    exact ⟨q, H.links hids.threadCurrent hids.nextTid hcore⟩

theorem run {ops : List SysOp} (h : runFrom Sys.step Sys.init ops = some s) : ∃ q, MutexInv s q :=
  runFrom_induction (I := fun s => ∃ q, MutexInv s q) (fun _ _ _ ⟨_, H⟩ h => H.step h) ⟨[], init⟩ h

end MutexInv

/-- A thread is between the return of `mutex_acquire` and its `mutex_release`. -/
def Sys.Inside (s : Sys) (t : Nat) : Prop := (s.ctl t).phase = .inside

/-- In every run at most one thread is inside the critical section; it owns the mutex, and
`mutex_acquire` is about to return only on the thread that owns it. The links of the mutex spell
out a queue `q` without repetition, whose members are the blocked threads; the threads that have
queued up are, in order, those that have been woken followed by `q`, so the mutex is handed over
first come, first served; and a mutex that is not locked has no owner and an empty queue. -/
theorem mutex_protocol {s : Sys} {ops : List SysOp} (h : runFrom Sys.step Sys.init ops = some s) :
    (∀ t u, s.Inside t → s.Inside u → t = u) ∧ (∀ t, s.Inside t → s.owner = some t) ∧
      (s.pc = .resumed → s.owner = some s.sched.threadCurrent) ∧
      ∃ q : List Nat, q.Nodup ∧ s.mutex.waitingQueueHead = q.head? ∧
        s.mutex.waitingQueueTail = q.getLast? ∧
        Linked (fun t => (s.sched.thread t).nextWaiter) q ∧
        (∀ t, (s.sched.thread t).state = .blocked ↔ t ∈ q) ∧ s.arrivals = s.wakeups ++ q ∧
        s.mutex.isLocked = s.owner.isSome ∧ (s.mutex.isLocked = false → q = []) := by
  obtain ⟨q, H⟩ := MutexInv.run h
  refine ⟨fun t u ht hu => ?_, H.inside, fun hpc => ?_, q, H.nodup, H.head, H.tail, H.linked,
    H.blocked, H.fifo, H.locked, H.unlocked⟩
  · exact Option.some.inj ((H.inside t ht).symm.trans (H.inside u hu))
  · refine H.woken _ ?_ (H.current hpc)
    rw [MutexInv.ctl_current, hpc]
    rfl

/-- Two threads wait for the idle thread. A tick takes the first one off the CPU between its
queueing section and its `int $50`, so it yields once more after it has been woken. -/
def contention : List SysOp :=
  [.createThread 0, .createThread 0, .acquire, .yield, .acquire, .tick 0, .tick 0, .tick 0, .tick 0,
    .acquire, .yield, .release, .yield, .yield, .yield]

theorem contention_runs : (runFrom Sys.step Sys.init contention).isSome := by decide +kernel

theorem mutex_protocol_contention : ∃ s, runFrom Sys.step Sys.init contention = some s ∧
    s.arrivals = [1, 2] ∧ s.pc = .resumed ∧ s.sched.threadCurrent = 1 ∧ s.owner = some 1 := by
  have hpc : ((runFrom Sys.step Sys.init contention).get contention_runs).pc = .resumed := by
    decide +kernel
  have hcur : ((runFrom Sys.step Sys.init contention).get contention_runs).sched.threadCurrent =
      1 := by decide +kernel
  have howner := (mutex_protocol (Option.some_get contention_runs).symm).2.2.1 hpc
  rw [hcur] at howner
  exact ⟨_, (Option.some_get contention_runs).symm, by decide +kernel, hpc, hcur, howner⟩

end Plos
