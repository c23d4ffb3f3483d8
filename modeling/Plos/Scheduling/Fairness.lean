import Mathlib.Data.Prod.Lex
import Mathlib.Order.Interval.Finset.Nat
import Mathlib.Algebra.BigOperators.Ring.List
import Plos.Lib.Cyclic
import Plos.Lib.Potential
import Plos.Scheduling.Sleep

/-! No thread that is ready starves.

The search of `scheduler_schedule` goes round the threads in the order of their tasks and of their
creation. A thread that is ready waits for the threads the search meets before it, and each of them
has the CPU for at most `THREAD_INITIAL_TICKS` ticks: the potential of the wait is four times the
number of these threads, and the ticks that the thread on the CPU has left. Every tick and every
voluntary switch takes something from it; only the creation of a thread, which may come in between,
adds to it. -/

namespace Plos

section
variable {κ : Type u} {s r : Sched κ} {ring : Nat → List Nat} {k t : Nat}

/-- The threads on the lists, by task and number. -/
def threadsOn (ring : Nat → List Nat) : Set (ℕ ×ₗ ℕ) := {p | (ofLex p).2 ∈ ring (ofLex p).1}

/-- The place of the thread on the CPU. -/
def Sched.place (s : Sched κ) : ℕ ×ₗ ℕ := toLex (s.taskCurrent, s.threadCurrent)

instance threadCircularOrder : CircularOrder (ℕ ×ₗ ℕ) := LinearOrder.toCircularOrder _

/-- What the thread `t` of the task `k` may have to wait for: a slice for every thread before it,
and the rest of the current one. -/
noncomputable def Sched.potential (s : Sched κ) (ring : Nat → List Nat) (k t : Nat) : ℕ :=
  threadInitialTicks * distance (threadsOn ring) s.place (toLex (k, t)) +
    (s.thread s.threadCurrent).ticksRemaining

theorem Rings.finite (H : Rings s ring) : (threadsOn ring).Finite := by
  have hsub : threadsOn ring ⊆ Set.image toLex (Set.Iio s.nextPid ×ˢ Set.Iio s.nextTid) := by
    intro p hp
    exact ⟨ofLex p, ⟨H.lt_of_mem hp, H.lt _ _ hp⟩, rfl⟩
  exact (((Set.finite_Iio _).prod (Set.finite_Iio _)).image _).subset hsub

/-! ## The choice of the search -/

/-- All threads in the order of the search from the idle thread on. -/
def threadOrder (n : Nat) (ring : Nat → List Nat) : List (ℕ ×ₗ ℕ) :=
  (List.range n).flatMap fun k => (ring k).map fun t => toLex (k, t)

theorem Rings.threadOrder_sorted (H : Rings s ring) (n : Nat) :
    (threadOrder n ring).Pairwise (· < ·) := by
  refine List.pairwise_flatMap.mpr ⟨fun k _ => ?_, ?_⟩
  · refine List.pairwise_map.mpr ((H.sorted k).imp fun {t u} htu => ?_)
    exact Prod.Lex.toLex_lt_toLex.mpr (.inr ⟨rfl, htu⟩)
  · refine List.pairwise_lt_range.imp fun {j k} hjk p hp q hq => ?_
    obtain ⟨t, -, rfl⟩ := List.mem_map.mp hp
    obtain ⟨u, -, rfl⟩ := List.mem_map.mp hq
    exact Prod.Lex.toLex_lt_toLex.mpr (.inl hjk)

/-- The search meets the threads in the order in which they lie ahead of the thread on the CPU. -/
theorem Rings.searchOrder_ahead (H : Rings s ring) {c : Nat} {before after js ks : List Nat}
    (hring : ring k = before ++ c :: after) (htasks : List.range s.nextPid = js ++ k :: ks) :
    (searchOrder ring k c before after (ks ++ js)).Pairwise
      fun p q => Ahead (toLex (k, c)) (toLex q) (toLex p) := by
  have hsorted := H.threadOrder_sorted s.nextPid
  let f (j : Nat) : List (ℕ ×ₗ ℕ) := (ring j).map fun t => toLex (j, t)
  have hsplit : threadOrder s.nextPid ring =
      (js.flatMap f ++ before.map fun t => toLex (k, t)) ++
        toLex (k, c) :: ((after.map fun t => toLex (k, t)) ++ ks.flatMap f) := by
    rw [threadOrder, htasks, List.flatMap_append, List.flatMap_cons, hring]
    simp [f]
  rw [hsplit] at hsorted
  have hrotated := pairwise_ahead_rotate hsorted
  have hmap : (searchOrder ring k c before after (ks ++ js)).map toLex =
      ((after.map fun t => toLex (k, t)) ++ ks.flatMap f) ++
        ((js.flatMap f ++ before.map fun t => toLex (k, t)) ++ [toLex (k, c)]) := by
    simp [searchOrder, f, List.map_flatMap, Function.comp_def]
  rw [← hmap] at hrotated
  exact List.pairwise_map.mp hrotated

/-- If a thread is ready, the search ends at it or at a thread that lies ahead of it. -/
theorem SchedInv.schedulerFind_ahead (H : SchedInv s ring) (hk : t ∈ ring k)
    (ht : (s.thread t).state = .ready) {j u : Nat} (h : schedulerFind s = some (j, u)) :
    u ∈ ring j ∧ ((j, u) = (k, t) ∨ Ahead s.place (toLex (k, t)) (toLex (j, u))) := by
  have hcurrent := H.current
  have HT := H.toRings.taskRings
  obtain ⟨before, after, hring⟩ := List.append_of_mem hcurrent
  obtain ⟨js, ks, htasks⟩ := List.append_of_mem (List.mem_range.mpr (H.lt_of_mem hcurrent))
  have hothers {i : Nat} : i ∈ ks ++ js ↔ i ∈ List.range s.nextPid ∧ i ≠ s.taskCurrent :=
    HT.mem_others htasks
  have hmem : (k, t) ∈ searchOrder ring s.taskCurrent s.threadCurrent before after (ks ++ js) := by
    refine mem_searchOrder hring ?_ hk
    rw [hothers, or_comm]
    exact (eq_or_ne k s.taskCurrent).imp_right fun hne => ⟨List.mem_range.mpr (H.lt_of_mem hk), hne⟩
  have hready : readyThread s (k, t) = true := decide_eq_true ht
  obtain ⟨p, hfind⟩ := Option.isSome_iff_exists.mp (List.find?_isSome.mpr ⟨(k, t), hmem, hready⟩)
  have hlap := @find_lap _ s ring s.taskCurrent s.threadCurrent before after (ks ++ js)
    fun i hi => HT.threads i (hothers.mp hi).1
  rw [hfind] at hlap
  obtain ⟨rfl⟩ : some (j, u) = some p := h.symm.trans (HT.schedulerFind_eq hring htasks hlap)
  obtain ⟨j', u', hfind', hu⟩ := H.exists_schedulerFind ht
  cases h.symm.trans hfind'
  exact ⟨hu, find?_pairwise (H.toRings.searchOrder_ahead hring htasks) hfind hmem hready⟩

/-! ## What takes from the potential -/

/-- The thread waits for the CPU, on the list of the task. -/
structure Sched.Waits (s : Sched κ) (ring : Nat → List Nat) (k t : Nat) : Prop where
  ready : (s.thread t).state = .ready
  mem : t ∈ ring k

/-- The thread has the CPU and is marked as running. -/
def Sched.Serves (s : Sched κ) (t : Nat) : Prop :=
  s.threadCurrent = t ∧ (s.thread t).state = .running

theorem Sched.potential_of_same {ring' : Nat → List Nat} (hids : s.taskCurrent = r.taskCurrent)
    (hcur : r.threadCurrent = s.threadCurrent)
    (hticks : (r.thread s.threadCurrent).ticksRemaining =
      (s.thread s.threadCurrent).ticksRemaining) :
    r.potential ring' k t = threadInitialTicks * distance (threadsOn ring') s.place (toLex (k, t)) +
      (s.thread s.threadCurrent).ticksRemaining := by
  rw [Sched.potential, Sched.place, Sched.place, hids, hcur, hticks]

/-- `scheduler_schedule` serves the thread, or a thread that lies ahead of it. -/
theorem Sched.Waits.schedule (W : s.Waits ring k t) (R : SchedInv s ring) (T : s.TicksIn)
    {status pc : κ} (h : schedulerSchedule s status = some (r, pc)) :
    r.Serves t ∨ r.Waits ring k t ∧
      r.potential ring k t ≤
        threadInitialTicks * distance (threadsOn ring) s.place (toLex (k, t)) := by
  have R' := R.schedule h
  have T' := (Sched.SameTicks.of_schedule h).ticksIn T
  obtain ⟨j, u, hfind, -, hr, -⟩ := schedulerSchedule_some h
  have hids : s.SameIds (schedulerPause s status) := schedulerPause_ids
  have hpaused : ((schedulerPause s status).thread t).state = .ready := by
    rw [schedulerPause_apply]
    simp [W.ready]
  obtain ⟨hu, hcase⟩ := (R.pause status).schedulerFind_ahead W.mem hpaused hfind
  have hplace : (schedulerPause s status).place = s.place := by
    rw [Sched.place, Sched.place, hids.taskCurrent, hids.threadCurrent]
  have hstate (x : Nat) : (r.thread x).state =
      if x = u then .running else ((schedulerPause s status).thread x).state := by
    rw [hr, schedulerSwitch, Sched.setState_apply]
    exact apply_ite Thread.state _ _ _
  have hcur : r.threadCurrent = u := by rw [hr]; rfl
  rcases eq_or_ne u t with rfl | hne
  · exact .inl ⟨hcur, by rw [hstate, if_pos rfl]⟩
  · have hahead : Ahead s.place (toLex (k, t)) (toLex (j, u)) :=
      hplace ▸ hcase.resolve_left fun e => hne (congrArg Prod.snd e)
    have hlt : u < r.nextTid := R'.lt j u hu
    have hplace' : r.place = toLex (j, u) := by rw [hr]; rfl
    refine .inr ⟨⟨by rw [hstate, if_neg hne.symm, hpaused], W.mem⟩, ?_⟩
    have hdist :=
      distance_lt_of_ahead R.toRings.finite (show toLex (j, u) ∈ threadsOn ring from hu) hahead
    have hticks := (T' _ hlt).2
    rw [Sched.potential, hplace', hcur]
    calc threadInitialTicks * distance (threadsOn ring) (toLex (j, u)) (toLex (k, t)) +
          (r.thread u).ticksRemaining
        ≤ threadInitialTicks * (distance (threadsOn ring) (toLex (j, u)) (toLex (k, t)) + 1) := by
          rw [Nat.mul_add_one]
          exact Nat.add_le_add_left hticks _
      _ ≤ _ := Nat.mul_le_mul_left _ hdist

/-- A tick inside a slice takes one tick from it. -/
theorem timerTick_counts {now : Nat} (T : s.TicksIn) (hcur : s.threadCurrent < s.nextTid)
    (h : timerTick s now = some (r, false)) :
    (r.thread s.threadCurrent).ticksRemaining + 1 = (s.thread s.threadCurrent).ticksRemaining := by
  simp only [timerTick] at h
  split at h
  · cases h
  · next w hw =>
    have hwoken : Woken now s w := wakeTasks_woken hw
    have hsame := (Sched.SameTicks.of_woken hwoken).ticks s.threadCurrent
    obtain ⟨hpos, hle⟩ := T _ hcur
    have hlt : (s.thread s.threadCurrent).ticksRemaining < 2 ^ 64 :=
      Nat.lt_of_le_of_lt hle (by decide)
    rw [hwoken.ids.threadCurrent, hsame, sub64_of_le hlt hpos] at h
    split at h
    · cases h
    · cases h
      rw [Sched.setThread_self]
      exact Nat.sub_add_cancel hpos

theorem Sched.Waits.ticked (W : s.Waits ring k t) (hT : Ticked s r) : r.Waits ring k t := by
  refine ⟨?_, W.mem⟩
  rcases hT.state t with e | ⟨e, -⟩
  · exact e.trans W.ready
  · rw [W.ready] at e
    cases e

theorem Sched.Waits.of_core (W : s.Waits ring k t) (h : (r.thread t).core = (s.thread t).core) :
    r.Waits ring k t := ⟨(congrArg ThreadCore.state h).trans W.ready, W.mem⟩

/-! ## The functions that do not switch -/

theorem mutexAcquire_ids (m : Mutex) : s.SameIds (mutexAcquire s m).1 := by
  simp only [mutexAcquire]
  split
  · exact ⟨rfl, rfl, rfl, rfl, rfl⟩
  · split <;> exact ⟨rfl, rfl, rfl, rfl, rfl⟩

theorem mutexRelease_ids (m : Mutex) : s.SameIds (mutexRelease s m).1 := by
  unfold mutexRelease
  split <;> exact ⟨rfl, rfl, rfl, rfl, rfl⟩

theorem mutexAcquire_state (m : Mutex) (ht : t ≠ s.threadCurrent) :
    ((mutexAcquire s m).1.thread t).state = (s.thread t).state := by
  simp only [mutexAcquire]
  split
  · rfl
  · split
    · rw [Sched.setState_apply, if_neg ht, Sched.setThread_of_ne ht]
    · rw [Sched.setState_apply, if_neg ht, Sched.setThread_apply]
      split
      · next e => rw [← e, Sched.setThread_of_ne ht]
      · rw [Sched.setThread_of_ne ht]

end

/-! ## Steps and runs -/

/-- The steps that take from the potential: ticks and voluntary switches. -/
def SysOp.pace : SysOp → Nat
  | .tick _ | .yield => 1
  | _ => 0

/-- The steps that may add to it: new threads. -/
def SysOp.births : SysOp → Nat
  | .createThread _ => 1
  | _ => 0

theorem Sys.Shaped.waits_step {s s' : Sys} {ring : Nat → List Nat} {op : SysOp} {k t : Nat}
    (S : s.Shaped ring) (T : s.sched.TicksIn) (W : s.sched.Waits ring k t)
    (h : s.step op = some s') :
    s'.sched.Serves t ∨ s'.sched.Waits (op.rings s ring) k t ∧
      s'.sched.potential (op.rings s ring) k t + op.pace ≤
        s.sched.potential ring k t + threadInitialTicks * op.births := by
  obtain ⟨q, M⟩ := S.mutex
  have R := S.sched
  have S' := S.step h
  have hpos := (T _ M.current_lt).1
  have hfinite := R.toRings.finite
  -- the thread on the CPU is not ready where it goes on with its own code
  have hne (hpc : s.pc = .run ∨ s.pc = .crit) : t ≠ s.sched.threadCurrent := by
    rintro rfl
    cases W.ready.symm.trans (S.active (hpc.imp_right .inl))
  -- a step that leaves the current slice and the lists as they are
  have hkeep {r : Sched Pc} (hids : s.sched.SameIds r) (hticks : s.sched.SameTicks r)
      (hstate : (r.thread t).state = (s.sched.thread t).state) :
      r.Waits ring k t ∧
        r.potential ring k t + 0 ≤ s.sched.potential ring k t + threadInitialTicks * 0 :=
    ⟨⟨hstate.trans W.ready, W.mem⟩,
      (Sched.potential_of_same hids.taskCurrent.symm hids.threadCurrent (hticks.ticks _)).le⟩
  -- a step that enters the scheduler with the state `r`
  have hswitch {r r' : Sched Pc} {status pc : Pc} (hT : Ticked s.sched r) (T' : r.TicksIn)
      (hs : schedulerSchedule r status = some (r', pc)) : r'.Serves t ∨ r'.Waits ring k t ∧
        r'.potential ring k t + 1 ≤ s.sched.potential ring k t + threadInitialTicks * 0 := by
    have hplace : r.place = s.sched.place := by
      rw [Sched.place, Sched.place, hT.ids.taskCurrent, hT.ids.threadCurrent]
    refine ((W.ticked hT).schedule (R.ticked hT) T' hs).imp_right fun ⟨W', hle⟩ => ⟨W', ?_⟩
    rw [hplace] at hle
    exact (Nat.add_le_add hle hpos).trans_eq rfl
  have hstep := Sys.step_sched h
  have R' := S'.sched
  generalize s'.sched = r at hstep R' ⊢
  cases hstep with
  | tick hr =>
    have hT := Ticked.of_timerTick hr
    refine .inr ⟨W.ticked hT, ?_⟩
    have hcount := timerTick_counts T M.current_lt hr
    simp only [Sched.potential, Sched.place, hT.ids.taskCurrent, hT.ids.threadCurrent, SysOp.rings,
      SysOp.pace, SysOp.births]
    omega
  | tickSwitch hr hs => exact hswitch (.of_timerTick hr) (T.timerTick M.current_lt hr) hs
  | yield _ hs => exact hswitch (.refl _) T hs
  | acquire hpc =>
    exact .inr
      (hkeep (mutexAcquire_ids _) (.of_mutexAcquire _) (mutexAcquire_state _ (hne (.inl hpc))))
  | ret => exact .inr (hkeep ⟨rfl, rfl, rfl, rfl, rfl⟩ (.refl _) rfl)
  | release =>
    refine .inr (hkeep (mutexRelease_ids _) (.of_mutexRelease _) ?_)
    rw [mutexRelease_state, W.ready]
    exact ite_self _
  | sleep hpc =>
    exact .inr (hkeep ⟨rfl, rfl, rfl, rfl, rfl⟩ (.of_threadSleep _ _)
      (congrArg Thread.state (Sched.setThread_of_ne (hne hpc))))
  | exit hpc =>
    exact .inr (hkeep ⟨rfl, rfl, rfl, rfl, rfl⟩ (.setState _ _)
      (congrArg Thread.state (Sched.setThread_of_ne (hne (.inl hpc)))))
  | createTask _ hr =>
    obtain ⟨hthread, hcur, -⟩ := taskCreate_some hr
    obtain ⟨-, -, -, -, htask, -⟩ := taskCreate_links hr
    have hsame (x : Nat) : (r.thread x).core = (s.sched.thread x).core := by rw [hthread]
    exact .inr ⟨W.of_core (hsame t),
      (Sched.potential_of_same htask.symm hcur (congrArg ThreadCore.ticksRemaining (hsame _))).le⟩
  | @createThread task _ _ _ hr =>
    obtain ⟨hcur, -, -, hcore⟩ := taskCreateThread_some hr
    obtain ⟨-, -, htask, -⟩ := taskCreateThread_links hr
    have hfresh : t ≠ s.sched.nextTid := (R.lt k t W.mem).ne
    have hmem {j x : Nat} : x ∈ Function.update ring task (ring task ++ [s.sched.nextTid]) j ↔
        x ∈ ring j ∨ j = task ∧ x = s.sched.nextTid := by
      rw [Function.update_apply]
      split
      · next e => simp [e]
      · next e => simp [e]
    refine .inr ⟨⟨(W.of_core (hcore t hfresh)).ready, hmem.mpr (.inl W.mem)⟩, ?_⟩
    have hsub : threadsOn (Function.update ring task (ring task ++ [s.sched.nextTid])) ⊆
        insert (toLex (task, s.sched.nextTid)) (threadsOn ring) := by
      intro p hp
      rcases hmem.mp hp with hp | ⟨h₁, h₂⟩
      · exact .inr hp
      · exact .inl (congrArg toLex (Prod.ext h₁ h₂))
    have hdist :=
      (distance_mono (a := s.sched.place) (b := toLex (k, t)) hsub (hfinite.insert _)).trans
        (distance_insert_le hfinite)
    have hticks := congrArg ThreadCore.ticksRemaining (hcore _ M.current_lt.ne)
    simp only [SysOp.rings, SysOp.pace, SysOp.births]
    rw [Sched.potential_of_same htask.symm hcur hticks, Sched.potential]
    simp only [threadInitialTicks]
    omega
  | scan _ _ hr =>
    obtain ⟨hids, hcore⟩ := reapTasks_some hr
    have hsub (j : Nat) : SysOp.rings s ring .scan j ⊆ ring j := by
      rw [SysOp.rings]
      cases (kernelIdleScan s.sched).bind Prod.snd with
      | none => exact List.Subset.refl _
      | some z => exact List.erase_subset
    obtain ⟨j, hj⟩ := R'.alive t (by simp [(W.of_core (hcore t)).ready])
    obtain rfl := R.disjoint j k t (hsub j hj) W.mem
    refine .inr ⟨⟨(W.of_core (hcore t)).ready, hj⟩, ?_⟩
    have hdist :=
      distance_mono (a := s.sched.place) (b := toLex (j, t))
        (fun p hp => hsub _ hp : threadsOn _ ⊆ _) hfinite
    rw [Sched.potential_of_same hids.taskCurrent.symm hids.threadCurrent
      (congrArg ThreadCore.ticksRemaining (hcore _))]
    exact Nat.add_le_add_right (Nat.mul_le_mul_left _ hdist) _

section
variable {s s' : SchedRun} {op : SysOp} {ops : List SysOp} {k t : Nat}

theorem SchedRun.step_sys (h : s.step op = some s') :
    s.sys.step op = some s'.sys ∧ s'.threads = op.rings s.sys s.threads := by
  obtain ⟨sys, hsys, rfl⟩ := Option.map_eq_some_iff.mp h
  exact ⟨hsys, rfl⟩

/-- What holds in every state that the kernel reaches. -/
def SchedRun.Sound (s : SchedRun) : Prop := s.sys.Shaped s.threads ∧ s.sys.sched.TicksIn

theorem SchedRun.sound (h : runFrom SchedRun.step SchedRun.init ops = some s) : s.Sound := shaped h

theorem SchedRun.Sound.step (hs : s.Sound) (h : s.step op = some s') : s'.Sound := by
  obtain ⟨hsys, hthreads⟩ := step_sys h
  rw [Sound, hthreads]
  exact ⟨hs.1.step hsys, hs.1.ticksIn hs.2 hsys⟩

/-- A property that the steps keep as long as the thread is ready. -/
def SchedRun.KeptWhileReady (t : Nat) (J : SchedRun → Prop) : Prop :=
  ∀ m op m', m.Sound → (m.sys.sched.thread t).state = .ready → J m → m.step op = some m' → J m'

theorem SchedRun.Sound.waits_run {J : SchedRun → Prop} (hJ : SchedRun.KeptWhileReady t J)
    (hs : s.Sound) (W : s.sys.sched.Waits s.threads k t) (hj : J s)
    (hrun : runFrom SchedRun.step s ops = some s') :
    Reaches SchedRun.step (fun m => m.sys.sched.Serves t ∧ J m) s ops ∨ s'.Sound ∧
      s'.sys.sched.potential s'.threads k t + (ops.map SysOp.pace).sum ≤
        s.sys.sched.potential s.threads k t +
          (ops.map fun op => threadInitialTicks * op.births).sum := by
  refine (runFrom_potential (Φ := fun s => s.sys.sched.potential s.threads k t)
    (I := fun s : SchedRun => s.Sound ∧ s.sys.sched.Waits s.threads k t ∧ J s)
    (fun m op m' hI h => ?_) ⟨hs, W, hj⟩ hrun).imp_right fun hend => ⟨hend.1.1, hend.2⟩
  obtain ⟨hm, W, hj⟩ := hI
  have hj' := hJ m op m' hm W.ready hj h
  have hm' := hm.step h
  obtain ⟨hsys, hthreads⟩ := step_sys h
  rw [hthreads]
  exact (hm.1.waits_step hm.2 W hsys).imp (fun hserves => ⟨hserves, hj'⟩) fun hw =>
    ⟨⟨hm', hw.1, hj'⟩, hw.2⟩

/-- How many threads have been created and not yet reaped. -/
def SchedRun.liveThreads (s : SchedRun) : Nat :=
  ((List.range s.sys.sched.nextPid).flatMap s.threads).length

theorem Rings.ncard_le {κ : Type u} {s : Sched κ} {ring : Nat → List Nat} (H : Rings s ring) :
    (threadsOn ring).ncard ≤ ((List.range s.nextPid).flatMap ring).length := by
  have hset : threadsOn ring = ((threadOrder s.nextPid ring).toFinset : Set (ℕ ×ₗ ℕ)) := by
    ext p
    simp only [threadOrder, List.coe_toFinset, Set.mem_ofPred_eq, List.mem_flatMap, List.mem_map,
      List.mem_range]
    constructor
    · intro hp
      exact ⟨_, H.lt_of_mem hp, _, hp, rfl⟩
    · rintro ⟨k, -, t, ht, rfl⟩
      exact ht
  have hlength : (threadOrder s.nextPid ring).length =
      ((List.range s.nextPid).flatMap ring).length := by
    simp [threadOrder, List.length_flatMap]
  rw [hset, Set.ncard_coe_finset, ← hlength]
  exact List.toFinset_card_le _

/-- The run has, for every thread that exists or comes to exist, the ticks of a whole slice. -/
def SchedRun.Laps (s : SchedRun) (ops : List SysOp) : Prop :=
  threadInitialTicks * (s.liveThreads + (ops.map SysOp.births).sum) ≤ (ops.map SysOp.pace).sum

instance (s : SchedRun) (ops : List SysOp) : Decidable (s.Laps ops) := Nat.decLe _ _

theorem SchedRun.Sound.reaches {J : SchedRun → Prop} (hJ : SchedRun.KeptWhileReady t J)
    (hs : s.Sound) (ht : (s.sys.sched.thread t).state = .ready) (hj : J s)
    (hrun : runFrom SchedRun.step s ops = some s') (hlaps : s.Laps ops) :
    Reaches SchedRun.step (fun m => m.sys.sched.Serves t ∧ J m) s ops := by
  obtain ⟨k, hk⟩ := hs.1.sched.alive t (by simp [ht])
  refine (hs.waits_run hJ ⟨ht, hk⟩ hj hrun).resolve_right ?_
  rintro ⟨hs', hle⟩
  obtain ⟨q, M⟩ := hs.1.mutex
  obtain ⟨q', M'⟩ := hs'.1.mutex
  have hfinite := hs.1.sched.toRings.finite
  have hdist :=
    distance_lt_ncard (a := s.sys.sched.place) hfinite
      (show toLex (k, t) ∈ threadsOn s.threads from hk)
  have hcard : (threadsOn s.threads).ncard ≤ s.liveThreads := hs.1.sched.toRings.ncard_le
  have hticks := (hs.2 _ M.current_lt).2
  have hsum : (ops.map fun op => threadInitialTicks * op.births).sum =
      threadInitialTicks * (ops.map SysOp.births).sum := List.sum_map_mul_left ..
  -- at the end of the run the thread on the CPU has a tick left
  have hticks' := (hs'.2 _ M'.current_lt).1
  simp only [Laps, Sched.potential, threadInitialTicks] at hlaps hle hsum hticks
  omega

/-- A thread that is ready gets the CPU. -/
theorem SchedRun.Sound.serves (hs : s.Sound) (ht : (s.sys.sched.thread t).state = .ready)
    (hrun : runFrom SchedRun.step s ops = some s') (hlaps : s.Laps ops) :
    Reaches SchedRun.step (fun m => m.sys.sched.Serves t) s ops :=
  (hs.reaches (J := fun _ => True) (fun _ _ _ _ _ _ _ => trivial) ht trivial hrun hlaps).imp
    fun _ => And.left

end

/-- In every state that the kernel reaches, a thread that is ready gets the CPU in every run that
has, in ticks and voluntary switches, a slice for each thread that is on the lists or is created on
the way. -/
theorem ready_thread_runs {before ops : List SysOp} {s s' : SchedRun} {t : Nat}
    (hbefore : runFrom SchedRun.step SchedRun.init before = some s)
    (ht : (s.sys.sched.thread t).state = .ready) (hrun : runFrom SchedRun.step s ops = some s')
    (hlaps : s.Laps ops) : Reaches SchedRun.step (fun m => m.sys.sched.Serves t) s ops :=
  (SchedRun.sound hbefore).serves ht hrun hlaps

/-- The state after a run from the start that is enabled. -/
def SchedRun.after (ops : List SysOp) : SchedRun :=
  (runFrom SchedRun.step SchedRun.init ops).getD SchedRun.init

theorem SchedRun.run_after {ops : List SysOp}
    (h : (runFrom SchedRun.step SchedRun.init ops).isSome) :
    runFrom SchedRun.step SchedRun.init ops = some (after ops) := runFrom_getD h

theorem SchedRun.run_after_append {ops ops' : List SysOp}
    (h : (runFrom SchedRun.step SchedRun.init ops).isSome)
    (h' : (runFrom SchedRun.step SchedRun.init (ops ++ ops')).isSome) :
    runFrom SchedRun.step (after ops) ops' = some (after (ops ++ ops')) := by
  rw [← runFrom_append (run_after h)]
  exact run_after h'

/-- The idle thread never gives up the CPU by itself; the thread of a second task gets it
nevertheless. -/
theorem ready_thread_runs_second :
    (runFrom SchedRun.step SchedRun.init [.createTask, .createThread 1]).isSome ∧
      Reaches SchedRun.step (fun m => m.sys.sched.Serves 1) (.after [.createTask, .createThread 1])
        (List.replicate 8 (.tick 0)) := by
  have hbefore : (runFrom SchedRun.step SchedRun.init [.createTask, .createThread 1]).isSome := by
    decide +kernel
  have hrun : (runFrom SchedRun.step SchedRun.init
      ([.createTask, .createThread 1] ++ List.replicate 8 (.tick 0))).isSome := by decide +kernel
  exact ⟨hbefore, ready_thread_runs (SchedRun.run_after hbefore) (by decide +kernel)
    (SchedRun.run_after_append hbefore hrun) (by decide +kernel)⟩

/-! ## Sleepers -/

theorem SchedRun.liveThreads_tick {s s' : SchedRun} {now : Nat} (h : s.step (.tick now) = some s') :
    s'.liveThreads = s.liveThreads := by
  obtain ⟨hsys, hthreads⟩ := step_sys h
  have hpid : s'.sys.sched.nextPid = s.sys.sched.nextPid := by
    have hstep := Sys.step_sched hsys
    generalize s'.sys.sched = r at hstep ⊢
    cases hstep with
    | tick hr => exact (Ticked.of_timerTick hr).ids.nextPid
    | tickSwitch hr hs =>
      obtain ⟨k, u, -, -, rfl, -⟩ := schedulerSchedule_some hs
      exact (@schedulerPause_ids _ _ s.sys.pc).nextPid.trans (Ticked.of_timerTick hr).ids.nextPid
  rw [liveThreads, liveThreads, hpid, hthreads]
  rfl

/-- A thread that is due at a tick is ready after it, or is served by it. -/
theorem Sys.Shaped.wakes_step {s s' : Sys} {ring : Nat → List Nat} {t deadline now : Nat}
    (S : s.Shaped ring) (T : s.sched.TicksIn) (H : s.sched.Sleeps t deadline)
    (hdue : deadline ≤ now) (h : s.step (.tick now) = some s') :
    s'.sched.Serves t ∨ (s'.sched.thread t).state = .ready := by
  obtain ⟨q, M⟩ := S.mutex
  obtain ⟨k, hk⟩ := S.sched.alive t (by simp [H.state])
  have hready {r : Sched Pc} {ended : Bool} (hr : timerTick s.sched now = some (r, ended)) :
      (r.thread t).state = .ready := by
    obtain ⟨w, hw, hstate⟩ := S.sched.wakes H now
    simp only [timerTick, hw] at hr
    rw [if_pos hdue] at hstate
    split at hr
    all_goals
      cases hr
      rw [Sched.setThread_apply]
      split
      · next e => rw [← e]; exact hstate
      · exact hstate
  have hstep := Sys.step_sched h
  generalize s'.sched = r at hstep ⊢
  cases hstep with
  | tick hr => exact .inr (hready hr)
  | tickSwitch hr hs =>
    have W : Sched.Waits _ ring k t := ⟨hready hr, hk⟩
    exact (W.schedule (S.sched.ticked (.of_timerTick hr)) (T.timerTick M.current_lt hr)
      hs).imp_right fun hw => hw.1.ready

/-- A thread that calls `thread_sleep(ms)` at the uptime `u` sleeps through every run whose wake
passes are before `u + ms`; from the first pass at that uptime or later on it gets the CPU in every
run that has a slice for each thread. -/
theorem threadSleep_window {before wait ops : List SysOp} {s s₁ s₂ s₃ : SchedRun} {u ms now : Nat}
    (hbefore : runFrom SchedRun.step SchedRun.init before = some s)
    (hsleep : s.step (.sleep u ms) = some s₁) (hdeadline : u + ms < 2 ^ 64)
    (hwait : runFrom SchedRun.step s₁ wait = some s₂) (hearly : ∀ n ∈ wakePasses wait, n < u + ms)
    (hdue : u + ms ≤ now) (hrun : runFrom SchedRun.step s₂ (.tick now :: ops) = some s₃)
    (hlaps : s₂.Laps ops) :
    Along SchedRun.step (fun m => (m.sys.sched.thread s.sys.sched.threadCurrent).state = .sleeping)
      s₁ wait ∧
      Reaches SchedRun.step (fun m => m.sys.sched.Serves s.sys.sched.threadCurrent) s₂
        (.tick now :: ops) := by
  have hs₁ := (SchedRun.sound hbefore).step hsleep
  have H := Sys.step_sleep (SchedRun.step_sys hsleep).1
  rw [add64_of_lt hdeadline] at H
  generalize s.sys.sched.threadCurrent = t at H ⊢
  have hsteps : AllSteps SchedRun.step (fun _ op => ∀ n ∈ op.wakePass, n < u + ms) s₁ wait :=
    .of_forall fun op hop _ n hn => hearly n (List.mem_filterMap.mpr ⟨op, hop, hn⟩)
  have halong : Along SchedRun.step (fun m => m.Sound ∧ m.sys.sched.Sleeps t (u + ms)) s₁ wait :=
    Along.of_allSteps
      (fun m op m' hm hop h => ⟨hm.1.step h, hm.1.1.sleeps hm.2 hop (SchedRun.step_sys h).1⟩)
      ⟨hs₁, H⟩ hsteps
  refine ⟨halong.imp fun m hm => hm.2.state, ?_⟩
  obtain ⟨hs₂, H₂⟩ := halong.last hwait
  obtain ⟨m, htick, hrest⟩ := runFrom_cons.mp hrun
  refine .cons htick ?_
  rcases hs₂.1.wakes_step hs₂.2 H₂ hdue (SchedRun.step_sys htick).1 with hserved | hready
  · exact .here hserved
  · refine (hs₂.step htick).serves hready hrest ?_
    rwa [SchedRun.Laps, SchedRun.liveThreads_tick htick]

/-- The thread of a second task sleeps for 20 ms, while the idle thread has the CPU. -/
theorem threadSleep_window_second :
    (runFrom SchedRun.step SchedRun.init
      (secondThread ++ [.sleep 1000 20] ++ [.yield, .tick 1010])).isSome ∧
      Reaches SchedRun.step (fun m => m.sys.sched.Serves 1)
        (.after (secondThread ++ [.sleep 1000 20] ++ [.yield, .tick 1010]))
        (.tick 1020 :: List.replicate 8 (.tick 1021)) := by
  have hbefore : (runFrom SchedRun.step SchedRun.init secondThread).isSome := by decide +kernel
  have hslept :
      (runFrom SchedRun.step SchedRun.init (secondThread ++ [.sleep 1000 20])).isSome := by
    decide +kernel
  have hwait : (runFrom SchedRun.step SchedRun.init
      (secondThread ++ [.sleep 1000 20] ++ [.yield, .tick 1010])).isSome := by decide +kernel
  have hrun :
      (runFrom SchedRun.step SchedRun.init
        (secondThread ++ [.sleep 1000 20] ++ [.yield, .tick 1010] ++
        .tick 1020 :: List.replicate 8 (.tick 1021))).isSome := by decide +kernel
  have hcur : (SchedRun.after secondThread).sys.sched.threadCurrent = 1 := by decide +kernel
  obtain ⟨s₁, hsleep, ⟨⟩⟩ := runFrom_cons.mp (SchedRun.run_after_append hbefore hslept)
  have hwindow := threadSleep_window (SchedRun.run_after hbefore) hsleep (by decide)
    (SchedRun.run_after_append hslept hwait) (by decide) (by decide)
      (SchedRun.run_after_append hwait hrun)
    (by decide +kernel)
  rw [hcur] at hwindow
  exact ⟨hwait, hwindow.2⟩

/-! ## Owners of the mutex -/

/-- A thread that owns the mutex and is not running keeps it. -/
theorem Sys.Shaped.owner_step {s s' : Sys} {ring : Nat → List Nat} {op : SysOp} {t : Nat}
    (S : s.Shaped ring) (howner : s.owner = some t) (ht : (s.sched.thread t).state ≠ .running)
    (h : s.step op = some s') : s'.owner = some t := by
  obtain ⟨q, M⟩ := S.mutex
  have hlocked : s.mutex.isLocked = true := by rw [M.locked, howner]; rfl
  cases op with
  | tick now => exact (Sys.Rescheduled.of_tick h).owner.trans howner
  | yield => exact (Sys.Rescheduled.of_yield h).owner.trans howner
  | acquire =>
    obtain ⟨hpc, h⟩ := Option.ite_none_right_eq_some.mp h
    obtain ⟨r, hr, -⟩ := MutexInv.mutexAcquire_locked (s := s.sched) hlocked (M.tail_ne_current hpc)
    simp only [hr] at h
    cases h
    exact howner
  | release =>
    -- the thread that releases is the owner
    obtain ⟨hpc, -⟩ := Option.ite_none_right_eq_some.mp h
    have hinside := M.inside s.sched.threadCurrent (by rw [MutexInv.ctl_current, hpc]; rfl)
    cases howner.symm.trans hinside
    exact absurd (S.active (.inr (.inl hpc))) ht
  | ret | exit =>
    obtain ⟨-, ⟨⟩⟩ := Option.ite_none_right_eq_some.mp h
    exact howner
  | sleep now ms =>
    simp only [Sys.step] at h
    split at h
    · cases h
      exact howner
    · cases h
      exact howner
    · cases h
  | createTask | createThread | scan =>
    obtain ⟨-, h⟩ := Option.ite_none_right_eq_some.mp h
    obtain ⟨r, -, rfl⟩ := Option.map_eq_some_iff.mp h
    exact howner

/-- `mutex_release` with a thread `t` in the queue: `t` gets the CPU in every run that has a slice
for each thread, and the mutex is still its own then. -/
theorem handOver_runs {before ops : List SysOp} {s s₁ s₂ : SchedRun} {t : Nat}
    (hbefore : runFrom SchedRun.step SchedRun.init before = some s)
    (hhead : s.sys.mutex.waitingQueueHead = some t) (hrelease : s.step .release = some s₁)
    (hrun : runFrom SchedRun.step s₁ ops = some s₂) (hlaps : s₁.Laps ops) :
    Reaches SchedRun.step (fun m => m.sys.sched.Serves t ∧ m.sys.owner = some t) s₁ ops := by
  obtain ⟨hsys, -⟩ := SchedRun.step_sys hrelease
  obtain ⟨hready, howner⟩ : (s₁.sys.sched.thread t).state = .ready ∧ s₁.sys.owner = some t := by
    obtain ⟨-, hsys⟩ := Option.ite_none_right_eq_some.mp hsys
    have hstate := @mutexRelease_state _ s.sys.sched s.sys.mutex t
    rw [if_pos hhead] at hstate
    generalize s₁.sys = sys at hsys ⊢
    cases hsys
    exact ⟨hstate, hhead⟩
  have hkept : SchedRun.KeptWhileReady t fun m => m.sys.owner = some t := by
    intro m op m' hm hready howner h
    exact hm.1.owner_step howner (by simp [hready]) (SchedRun.step_sys h).1
  exact ((SchedRun.sound hbefore).step hrelease).reaches hkept hready howner hrun hlaps

/-- The first thread queues up for the mutex of the idle thread, which hands it over and goes on. -/
theorem handOver_runs_contention :
    (runFrom SchedRun.step SchedRun.init
      ([.createThread 0, .acquire, .yield, .acquire, .yield] ++ [.release])).isSome ∧
      Reaches SchedRun.step (fun m => m.sys.sched.Serves 1 ∧ m.sys.owner = some 1)
        (.after ([.createThread 0, .acquire, .yield, .acquire, .yield] ++ [.release]))
          (List.replicate 8 (.tick 0)) := by
  have hbefore : (runFrom SchedRun.step SchedRun.init
      [.createThread 0, .acquire, .yield, .acquire, .yield]).isSome := by decide +kernel
  have hreleased : (runFrom SchedRun.step SchedRun.init
      ([.createThread 0, .acquire, .yield, .acquire, .yield] ++ [.release])).isSome := by
        decide +kernel
  have hrun :
      (runFrom SchedRun.step SchedRun.init ([.createThread 0, .acquire, .yield, .acquire, .yield] ++
        [.release] ++ List.replicate 8 (.tick 0))).isSome := by decide +kernel
  obtain ⟨s₁, hrelease, ⟨⟩⟩ := runFrom_cons.mp (SchedRun.run_after_append hbefore hreleased)
  exact ⟨hreleased, handOver_runs (SchedRun.run_after hbefore) (by decide +kernel) hrelease
    (SchedRun.run_after_append hreleased hrun) (by decide +kernel)⟩

end Plos
