import Plos.Scheduling.Rings

/-! The steps of the scheduler on its circular lists.

The loops over the lists end, and each step keeps the shape of the lists: creation appends to one of
them, the reaper takes a zombie off one, and all other steps leave the links alone
(`SchedInv.frame`). -/

namespace Plos

variable {κ : Type u} {s r : Sched κ} {tasks : List Nat} {ring : Nat → List Nat} {m : Mutex}
  {now : Nat}

theorem Rings.congr (H : Rings s ring) (hids : s.SameIds r) (htask : r.task = s.task)
    (hnext : ∀ t, (r.thread t).next = (s.thread t).next) : Rings r ring where
  tasks := by rw [htask, hids.nextPid]; exact H.tasks
  taskList := hids.taskList.trans H.taskList
  threads := by rw [htask, hids.nextPid]; exact H.threads
  cycle k hk := (H.cycle k hk).congr fun t _ => hnext t
  beyond := by rw [hids.nextPid]; exact H.beyond
  lt := by rw [hids.nextTid]; exact H.lt
  sorted := H.sorted
  disjoint := H.disjoint

/-- A step that leaves the links alone and at most wakes, blocks or stops threads; only the thread
on the CPU may come to life by it. -/
theorem SchedInv.frame (H : SchedInv s ring) (hids : s.SameIds r) (htask : r.task = s.task)
    (hnext : ∀ t, (r.thread t).next = (s.thread t).next)
    (hrunning : ∀ t, (r.thread t).state = .running → (s.thread t).state = .running)
    (halive : ∀ t ≠ s.threadCurrent, (r.thread t).state ≠ .zombie → (s.thread t).state ≠ .zombie) :
    SchedInv r ring where
  toRings := H.toRings.congr hids htask hnext
  current := by rw [hids.threadCurrent, hids.taskCurrent]; exact H.current
  running t ht := (H.running t (hrunning t ht)).trans hids.threadCurrent.symm
  alive t ht := by
    by_cases e : t = s.threadCurrent
    · subst e
      exact ⟨_, H.current⟩
    · exact H.alive t (halive t e ht)

/-! ## The scheduler -/

theorem SchedInv.pause (H : SchedInv s ring) (status : κ) :
    SchedInv (schedulerPause s status) ring := by
  have htask : (schedulerPause s status).task = s.task := by
    unfold schedulerPause
    split <;> rfl
  refine H.frame schedulerPause_ids htask (fun t => ?_) (fun t ht => ?_) (fun t ht hz => ?_)
  · by_cases e : t = s.threadCurrent
    · subst e
      rw [schedulerPause_current]
    · rw [schedulerPause_of_ne e]
  · by_cases e : t = s.threadCurrent
    · subst e
      rw [schedulerPause_current] at ht
      simp only at ht
      split at ht
      · cases ht
      · exact ht
    · rwa [schedulerPause_of_ne e] at ht
  · rwa [schedulerPause_of_ne ht] at hz

/-- After the pause no thread is running. -/
theorem SchedInv.pause_running (H : SchedInv s ring) (status : κ) (t : Nat) :
    ((schedulerPause s status).thread t).state ≠ .running := by
  intro ht
  have e := (H.pause status).running t ht
  rw [schedulerPause_ids.threadCurrent] at e
  subst e
  rw [schedulerPause_current] at ht
  simp only at ht
  split at ht
  · cases ht
  · contradiction

theorem SchedInv.schedule (H : SchedInv s ring) {status pc : κ}
    (h : schedulerSchedule s status = some (r, pc)) : SchedInv r ring := by
  obtain ⟨k, t, hfind, hready, rfl, -⟩ := schedulerSchedule_some h
  have Hp := H.pause status
  obtain ⟨k', t', hfind', ht⟩ := Hp.exists_schedulerFind hready
  cases hfind.symm.trans hfind'
  have hthread (x : Nat) : (schedulerSwitch (schedulerPause s status) k t).thread x =
      if x = t then { (schedulerPause s status).thread t with state := .running }
      else (schedulerPause s status).thread x := Sched.setState_apply
  refine ⟨⟨Hp.tasks, Hp.taskList, Hp.threads, fun j hj => ?_, Hp.beyond, Hp.lt, Hp.sorted,
    Hp.disjoint⟩, ht, fun x hx => ?_, fun x hx => ?_⟩
  · refine (Hp.cycle j hj).congr fun x _ => ?_
    rw [hthread]
    split
    · next e => rw [e]
    · rfl
  · rw [hthread] at hx
    split at hx
    · next e => exact e
    · exact absurd hx (H.pause_running status x)
  · rw [hthread] at hx
    split at hx
    · next e => exact ⟨k, e ▸ ht⟩
    · exact Hp.alive x hx

/-- The scheduler ends if some thread is ready after the pause. -/
theorem SchedInv.schedule_isSome (H : SchedInv s ring) {status : κ} {u : Nat}
    (hu : ((schedulerPause s status).thread u).state = .ready) :
    (schedulerSchedule s status).isSome := by
  obtain ⟨k, t, hfind, -⟩ := (H.pause status).exists_schedulerFind hu
  simp only [schedulerSchedule, hfind, Option.isSome_some]

/-! ## The wake pass -/

theorem wakeThread_next (th : Thread κ) : (wakeThread now th).next = th.next := by
  unfold wakeThread
  split <;> rfl

theorem Woken.next (h : Woken now s r) (t : Nat) : (r.thread t).next = (s.thread t).next := by
  rcases h.thread t with e | e
  · rw [e]
  · rw [e, wakeThread_next]

/-- A thread that has been woken stays as it is. -/
theorem Woken.settled (h : Woken now s r) {t : Nat} {th : Thread κ}
    (ht : s.thread t = wakeThread now th) : r.thread t = wakeThread now th := by
  rcases h.thread t with e | e
  · rw [e, ht]
  · rw [e, ht, wakeThread_idem]

theorem wakeThreads_succ {k n curr : Nat} : wakeThreads now k (n + 1) s curr =
    if some (s.thread curr).next = (s.task k).threads then
      some (s.setThread curr (wakeThread now (s.thread curr)))
    else wakeThreads now k n (s.setThread curr (wakeThread now (s.thread curr)))
      (s.thread curr).next := by
  simp only [wakeThreads, (Woken.setThread curr).next]
  rfl

/-- From a thread of a list on, the loop wakes all that follow. -/
theorem wakeThreads_path {k n h curr : Nat} {xs : List Nat}
    (hthreads : (s.task k).threads = some h)
    (hp : Path (fun t => (s.thread t).next) curr xs h) (hxs : (curr :: xs).Nodup) (hh : h ∉ xs)
    (hn : xs.length < n) :
    ∃ r, wakeThreads now k n s curr = some r ∧
      ∀ t ∈ curr :: xs, r.thread t = wakeThread now (s.thread t) := by
  obtain ⟨n, rfl⟩ := Nat.exists_eq_add_of_lt hn
  induction xs generalizing s curr with
  | nil =>
    have hlast : some (s.thread curr).next = (s.task k).threads := by
      rw [Path.nil_iff.mp hp, hthreads]
    refine ⟨s.setThread curr (wakeThread now (s.thread curr)), ?_, fun t ht => ?_⟩
    · rw [wakeThreads_succ, if_pos hlast]
    · rw [List.mem_singleton.mp ht]
      exact Sched.setThread_self
  | cons x xs ih =>
    obtain ⟨hx, hp⟩ := Path.cons_iff.mp hp
    obtain ⟨hhx, hh⟩ := not_or.mp (List.mem_cons.not.mp hh)
    obtain ⟨hcurr, hnd⟩ := List.nodup_cons.mp hxs
    have hmore : some (s.thread curr).next ≠ (s.task k).threads := by
      rw [hx, hthreads]
      exact fun e => hhx (Option.some.inj e).symm
    have hw := @Woken.setThread _ s now curr
    obtain ⟨r, hr, hall⟩ := @ih (s.setThread curr (wakeThread now (s.thread curr))) x hthreads
      (hp.congr fun t _ => hw.next t) hnd hh (by omega)
    refine ⟨r, ?_, fun t ht => ?_⟩
    · rw [wakeThreads_succ, if_neg hmore, hx, ← hr, List.length_cons]
      congr 1
      omega
    · rcases List.mem_cons.mp ht with rfl | ht
      · exact (wakeThreads_woken hr).settled Sched.setThread_self
      · rw [hall t ht, Sched.setThread_of_ne fun e : t = curr => hcurr (e ▸ ht)]

theorem Woken.rings (h : Woken now s r) (H : Rings s ring) : Rings r ring :=
  H.congr h.ids h.task h.next

theorem Rings.length_le (H : Rings s ring) (k : Nat) : (ring k).length ≤ s.nextTid := by
  rcases Nat.lt_or_ge k s.nextPid with hk | hk
  · have hmem : ∀ j ∈ [k], j ∈ List.range s.nextPid := by simpa using hk
    have := H.taskRings.length_flatMap_le (List.nodup_singleton k) hmem
    rwa [List.flatMap_singleton] at this
  · rw [H.beyond k hk]
    exact Nat.zero_le _

theorem Rings.wakeTask_some (H : Rings s ring) {k : Nat} (hk : k < s.nextPid) :
    ∃ r, wakeTask now s k = some r ∧ ∀ t ∈ ring k, r.thread t = wakeThread now (s.thread t) := by
  have hthreads := H.threads k hk
  have hcycle := H.cycle k
  have hlen := H.length_le k
  unfold wakeTask
  rw [hthreads]
  cases hring : ring k with
  | nil => exact ⟨s, rfl, nofun⟩
  | cons h ts =>
    rw [hring] at hthreads hcycle hlen
    obtain ⟨hnd, hp⟩ := hcycle (List.cons_ne_nil _ _)
    exact wakeThreads_path hthreads hp hnd (List.nodup_cons.mp hnd).1 hlen

/-- From a task on, the pass goes through all that follow. -/
theorem Rings.wakeTasks_path (H : Rings s ring) {k n : Nat} {ks : List Nat}
    (hp : Path (fun k => (s.task k).next) k ks s.taskList) (hks : s.taskList ∉ ks)
    (hlt : ∀ j ∈ k :: ks, j < s.nextPid) (hn : ks.length < n) :
    ∃ r, wakeTasks now n s k = some r ∧
      ∀ j ∈ k :: ks, ∀ t ∈ ring j, r.thread t = wakeThread now (s.thread t) := by
  obtain ⟨n, rfl⟩ := Nat.exists_eq_add_of_lt hn
  induction ks generalizing s k with
  | nil =>
    obtain ⟨r, hr, hall⟩ := @wakeTask_some _ s ring now H k (hlt k List.mem_cons_self)
    refine ⟨r, ?_, fun j hj => ?_⟩
    · have hw := wakeTask_woken hr
      simp only [wakeTasks, hr]
      rw [if_pos]
      rw [hw.task, hw.ids.taskList]
      exact Path.nil_iff.mp hp
    · rw [List.mem_singleton.mp hj]
      exact hall
  | cons i ks ih =>
    obtain ⟨hi, hp⟩ := Path.cons_iff.mp hp
    obtain ⟨hhi, hks⟩ := not_or.mp (List.mem_cons.not.mp hks)
    obtain ⟨w, hw, hall⟩ := @wakeTask_some _ s ring now H k (hlt k List.mem_cons_self)
    have hwoken := wakeTask_woken hw
    obtain ⟨r, hr, hrest⟩ := @ih w (hwoken.rings H) i (by rwa [hwoken.task, hwoken.ids.taskList])
      (by rwa [hwoken.ids.taskList])
      (fun j hj => hwoken.ids.nextPid ▸ hlt j (List.mem_cons_of_mem _ hj)) (by omega)
    refine ⟨r, ?_, fun j hj t ht => ?_⟩
    · have hmore : (w.task k).next ≠ w.taskList := by
        rw [hwoken.task, hwoken.ids.taskList, hi]
        exact Ne.symm hhi
      simp only [wakeTasks, hw, if_neg hmore]
      rw [hwoken.task, hi, ← hr, List.length_cons]
      congr 1
      omega
    · have hwr := wakeTasks_woken hr
      rcases List.mem_cons.mp hj with rfl | hj
      · exact hwr.settled (hall t ht)
      · have := hrest j hj t ht
        rw [this]
        rcases hwoken.thread t with e | e
        · rw [e]
        · rw [e, wakeThread_idem]

/-- The wake pass ends and wakes every thread that is due. -/
theorem Rings.schedulerWakeSleepingThreads_some (H : Rings s ring) (now : Nat) :
    ∃ r, schedulerWakeSleepingThreads s now = some r ∧ Woken now s r ∧
      ∀ k, ∀ t ∈ ring k, r.thread t = wakeThread now (s.thread t) := by
  have htasks := H.tasks
  have hall (j : Nat) : j ∈ List.range s.nextPid ↔ j < s.nextPid := List.mem_range
  cases hr : List.range s.nextPid with
  | nil => rw [hr] at htasks; exact htasks.elim
  | cons a ks =>
    have ha : a = s.taskList := by
      rw [H.taskList]
      have := congrArg List.head? hr
      cases h : s.nextPid with
      | zero => rw [h] at this; cases this
      | succ n => rw [h, List.range_succ_eq_map] at this; exact (Option.some.inj this).symm
    subst ha
    rw [hr] at htasks hall
    have hlen := congrArg List.length hr
    rw [List.length_range, List.length_cons] at hlen
    obtain ⟨r, hr, hwake⟩ := @wakeTasks_path _ s ring now H s.taskList s.nextPid ks htasks.2
      (List.nodup_cons.mp htasks.1).1 (fun j hj => (hall j).mp hj) (by omega)
    refine ⟨r, hr, wakeTasks_woken hr, fun k t ht => ?_⟩
    exact hwake k ((hall k).mpr (H.lt_of_mem ht)) t ht

theorem Rings.timerTick_isSome (H : Rings s ring) (now : Nat) : (timerTick s now).isSome := by
  obtain ⟨r, hr, -⟩ := H.schedulerWakeSleepingThreads_some now
  simp only [timerTick, hr]
  split <;> rfl

/-! ## Creation -/

theorem lastNode_path {f : Nat → Nat} {h n curr : Nat} {xs : List Nat} (hp : Path f curr xs h)
    (hh : h ∉ xs) (hn : xs.length < n) :
    lastNode f h n curr = some ((curr :: xs).getLast (List.cons_ne_nil _ _)) := by
  obtain ⟨n, rfl⟩ := Nat.exists_eq_add_of_lt hn
  induction xs generalizing curr with
  | nil => rw [lastNode, if_pos (Path.nil_iff.mp hp), List.getLast_singleton]
  | cons x xs ih =>
    obtain ⟨hx, hp⟩ := Path.cons_iff.mp hp
    obtain ⟨hhx, hh⟩ := not_or.mp (List.mem_cons.not.mp hh)
    have hmore : f curr ≠ h := by
      rw [hx]
      exact Ne.symm hhx
    have hfuel : (x :: xs).length + n + 1 = xs.length + n + 1 + 1 := by
      rw [List.length_cons]
      omega
    rw [hfuel, lastNode, if_neg hmore, hx, ih hp hh (by omega),
      List.getLast_cons (List.cons_ne_nil x xs)]

/-- The list of one task is replaced. -/
theorem TaskRings.setRing (H : TaskRings s tasks ring) {k : Nat} {l : List Nat}
    (hpid : s.nextPid ≤ r.nextPid) (htaskList : r.taskList = s.taskList)
    (htid : s.nextTid ≤ r.nextTid) (htasks : ∀ j, (r.task j).next = (s.task j).next)
    (hthreads : ∀ j ≠ k, (r.task j).threads = (s.task j).threads)
    (hnext : ∀ j ∈ tasks, j ≠ k → ∀ t ∈ ring j, (r.thread t).next = (s.thread t).next)
    (hhead : (r.task k).threads = l.head?) (hl : l ≠ [] → Cycle (fun t => (r.thread t).next) l)
    (hlt : ∀ t ∈ l, t < r.nextTid) (hdisjoint : ∀ j ∈ tasks, j ≠ k → ∀ t ∈ ring j, t ∉ l) :
    TaskRings r tasks (Function.update ring k l) where
  taskCycle := H.taskCycle.congr fun j _ => htasks j
  taskList := by rw [htaskList, H.taskList]
  threads j hj := by
    by_cases e : j = k
    · subst e
      rw [Function.update_self, hhead]
    · rw [Function.update_of_ne e, hthreads j e]
      exact H.threads j hj
  cycle j hj := by
    by_cases e : j = k
    · subst e
      rw [Function.update_self]
      exact hl
    · rw [Function.update_of_ne e]
      exact fun hne => (H.cycle j hj hne).congr (hnext j hj e)
  task_lt j hj := (H.task_lt j hj).trans_le hpid
  lt j hj t := by
    by_cases e : j = k
    · subst e
      rw [Function.update_self]
      exact hlt t
    · rw [Function.update_of_ne e]
      exact fun ht => (H.lt j hj t ht).trans_le htid
  disjoint i hi j hj t := by
    by_cases ei : i = k <;> by_cases ej : j = k
    · exact fun _ _ => ei.trans ej.symm
    · subst ei
      rw [Function.update_self, Function.update_of_ne ej]
      exact fun hti htj => absurd hti (hdisjoint j hj ej t htj)
    · subst ej
      rw [Function.update_self, Function.update_of_ne ei]
      exact fun hti htj => absurd htj (hdisjoint i hi ei t hti)
    · rw [Function.update_of_ne ei, Function.update_of_ne ej]
      exact H.disjoint i hi j hj t

/-- Lists in the order of creation. -/
theorem TaskRings.rings (H : TaskRings s (List.range s.nextPid) ring) (htaskList : s.taskList = 0)
    (hsorted : ∀ k, (ring k).Pairwise (· < ·)) (hbeyond : ∀ k, s.nextPid ≤ k → ring k = []) :
    Rings s ring := by
  have hmem {k t : Nat} (ht : t ∈ ring k) : k ∈ List.range s.nextPid := by
    apply List.mem_range.mpr
    apply Nat.lt_of_not_le
    intro hk
    rw [hbeyond k hk] at ht
    cases ht
  refine ⟨H.taskCycle, htaskList, fun k hk => H.threads k (List.mem_range.mpr hk), fun k hk => ?_,
    hbeyond, fun k t ht => H.lt k (hmem ht) t ht,
    hsorted,
    fun j k t hj hk => H.disjoint j (hmem hj) k (hmem hk) t hj hk⟩
  obtain ⟨t, ht⟩ := List.exists_mem_of_ne_nil _ hk
  exact H.cycle k (hmem ht) hk

theorem Rings.sorted_update (H : Rings s ring) {k : Nat} {l : List Nat} (hl : l.Pairwise (· < ·))
    (j : Nat) : (Function.update ring k l j).Pairwise (· < ·) := by
  rw [Function.update_apply]
  split
  · exact hl
  · exact H.sorted j

theorem Rings.beyond_update (H : Rings s ring) {k j : Nat} {l : List Nat} (hk : k < s.nextPid)
    (hj : s.nextPid ≤ j) : Function.update ring k l j = [] := by
  rw [Function.update_of_ne (hk.trans_le hj).ne']
  exact H.beyond j hj

theorem Rings.setRing (H : Rings s ring) {k : Nat} {l : List Nat} (hk : k < s.nextPid)
    (hpid : r.nextPid = s.nextPid) (htaskList : r.taskList = s.taskList)
    (htid : s.nextTid ≤ r.nextTid) (htasks : ∀ j, (r.task j).next = (s.task j).next)
    (hthreads : ∀ j ≠ k, (r.task j).threads = (s.task j).threads)
    (hnext : ∀ j ≠ k, ∀ t ∈ ring j, (r.thread t).next = (s.thread t).next)
    (hhead : (r.task k).threads = l.head?) (hl : l ≠ [] → Cycle (fun t => (r.thread t).next) l)
    (hlt : ∀ t ∈ l, t < r.nextTid) (hsorted : l.Pairwise (· < ·))
    (hdisjoint : ∀ j ≠ k, ∀ t ∈ ring j, t ∉ l) : Rings r (Function.update ring k l) := by
  have HT :=
    H.taskRings.setRing hpid.ge htaskList htid htasks hthreads (fun j _ => hnext j) hhead hl hlt
      fun j _ => hdisjoint j
  rw [← hpid] at HT
  exact HT.rings (htaskList.trans H.taskList) (H.sorted_update hsorted) fun j hj =>
    H.beyond_update hk (hpid ▸ hj)

theorem Rings.range_eq (H : Rings s ring) :
    ∃ ks, List.range s.nextPid = s.taskList :: ks ∧ ks.length < s.nextPid := by
  rw [H.taskList]
  cases hpid : s.nextPid with
  | zero =>
    have := H.tasks
    rw [hpid] at this
    exact this.elim
  | succ n =>
    refine ⟨_, List.range_succ_eq_map, ?_⟩
    rw [List.length_map, List.length_range]
    exact Nat.lt_succ_self n

theorem taskCreate_links (h : taskCreate s = some r) :
    ∃ last, lastNode (fun k => (s.task k).next) s.taskList s.nextPid s.taskList = some last ∧
      r.nextPid = s.nextPid + 1 ∧ r.taskList = s.taskList ∧ r.taskCurrent = s.taskCurrent ∧
      (∀ k, (r.task k).next = if k = s.nextPid then s.taskList
        else if k = last then s.nextPid else (s.task k).next) ∧
      ∀ k, (r.task k).threads = if k = s.nextPid then none else (s.task k).threads := by
  unfold taskCreate at h
  split at h
  · cases h
  · next last hlast =>
    cases h
    refine ⟨last, hlast, rfl, rfl, rfl, fun k => ?_, fun k => ?_⟩
    all_goals
      simp only [Sched.setTask_apply]
      split
      · rfl
      · split
        · next e => subst e; rfl
        · rfl

theorem Rings.taskCreate (H : Rings s ring) (h : taskCreate s = some r) : Rings r ring := by
  obtain ⟨hthread, -, htid⟩ := taskCreate_some h
  obtain ⟨last, hlast, hpid, htaskList, -, hnext, hthreads⟩ := taskCreate_links h
  obtain ⟨ks, hrange, hlen⟩ := H.range_eq
  have htasks := H.tasks
  rw [hrange] at htasks
  rw [lastNode_path htasks.2 (List.nodup_cons.mp htasks.1).1 hlen] at hlast
  cases hlast
  have hmem : ∀ j ∈ s.taskList :: ks, j ≠ s.nextPid := by
    intro j hj
    rw [← hrange, List.mem_range] at hj
    exact hj.ne
  refine ⟨?_, htaskList.trans H.taskList, ?_, ?_, ?_, ?_, H.sorted, H.disjoint⟩
  · rw [hpid, List.range_succ, hrange, List.cons_append]
    refine htasks.snoc (fun hm => hmem _ hm rfl) (fun j hj hne => ?_) ?_ ?_
    · rw [hnext, if_neg (hmem j hj), if_neg hne]
    · rw [hnext, if_neg (hmem _ (List.getLast_mem _)), if_pos rfl]
    · rw [hnext, if_pos rfl]
  · intro k hk
    rw [hpid] at hk
    rw [hthreads]
    split
    · next e => rw [e, H.beyond _ le_rfl]; rfl
    · next e => exact H.threads k (lt_of_le_of_ne (Nat.le_of_lt_succ hk) e)
  · rw [hthread]
    exact H.cycle
  · intro k hk
    rw [hpid] at hk
    exact H.beyond k (Nat.le_of_succ_le hk)
  · rw [htid]
    exact H.lt

theorem SchedInv.taskCreate (H : SchedInv s ring) (h : taskCreate s = some r) :
    SchedInv r ring := by
  obtain ⟨hthread, hcur, -⟩ := taskCreate_some h
  obtain ⟨-, -, -, -, htask, -⟩ := taskCreate_links h
  refine ⟨H.toRings.taskCreate h, ?_, ?_, ?_⟩
  · rw [hcur, htask]
    exact H.current
  · rw [hthread, hcur]
    exact H.running
  · rw [hthread]
    exact H.alive

theorem taskCreateThread_links {k : Nat} {entry : κ} (h : taskCreateThread s k entry = some r) :
    r.nextPid = s.nextPid ∧ r.taskList = s.taskList ∧ r.taskCurrent = s.taskCurrent ∧
      (∀ j, (r.task j).next = (s.task j).next) ∧
      match (s.task k).threads with
      | none => (∀ j, (r.task j).threads = if j = k then some s.nextTid else (s.task j).threads) ∧
          ∀ t, (r.thread t).next = if t = s.nextTid then s.nextTid else (s.thread t).next
      | some head => (∀ j, (r.task j).threads = (s.task j).threads) ∧
          ∃ last, lastNode (fun t => (s.thread t).next) head s.nextTid head = some last ∧
            ∀ t, (r.thread t).next = if t = s.nextTid then head
              else if t = last then s.nextTid else (s.thread t).next := by
  cases hthreads : (s.task k).threads with
  | none =>
    simp only [taskCreateThread, hthreads] at h
    cases h
    refine ⟨rfl, rfl, rfl, fun j => ?_, fun j => ?_, fun t => ?_⟩
    · refine (congrArg Task.next Sched.setTask_apply).trans ?_
      split
      · next e => rw [e]
      · rfl
    · exact (congrArg Task.threads Sched.setTask_apply).trans (apply_ite _ _ _ _)
    · exact (congrArg Thread.next Sched.setThread_apply).trans (apply_ite _ _ _ _)
  | some head =>
    simp only [taskCreateThread, hthreads] at h
    split at h
    · cases h
    · next last hlast =>
      cases h
      refine ⟨rfl, rfl, rfl, fun _ => rfl, fun _ => rfl, last, hlast, fun t => ?_⟩
      refine (congrArg Thread.next Sched.setThread_apply).trans ((apply_ite _ _ _ _).trans ?_)
      rw [Sched.setThread_apply, apply_ite Thread.next]

/-- The new thread comes last on the list of its task. -/
theorem Rings.taskCreateThread (H : Rings s ring) {k : Nat} {entry : κ} (hk : k < s.nextPid)
    (h : taskCreateThread s k entry = some r) :
    Rings r (Function.update ring k (ring k ++ [s.nextTid])) := by
  obtain ⟨-, htid, -⟩ := taskCreateThread_some h
  obtain ⟨hpid, htaskList, -, htasks, hlinks⟩ := taskCreateThread_links h
  have hlt (j : Nat) : ∀ t ∈ ring j, t ≠ s.nextTid := fun t ht => (H.lt j t ht).ne
  have hlt' : ∀ t ∈ ring k ++ [s.nextTid], t < r.nextTid := by
    intro t ht
    rw [htid]
    rcases List.mem_append.mp ht with ht | ht
    · exact Nat.lt_succ_of_lt (H.lt k t ht)
    · rw [List.mem_singleton.mp ht]
      exact Nat.lt_succ_self _
  have hsorted : (ring k ++ [s.nextTid]).Pairwise (· < ·) := by
    refine List.pairwise_append.mpr ⟨H.sorted k, List.pairwise_singleton _ _, fun t ht u hu => ?_⟩
    rw [List.mem_singleton.mp hu]
    exact H.lt k t ht
  have hdisjoint : ∀ j ≠ k, ∀ t ∈ ring j, t ∉ ring k ++ [s.nextTid] := by
    intro j hj t ht hm
    rcases List.mem_append.mp hm with hm | hm
    · exact hj (H.disjoint j k t ht hm)
    · exact hlt j t ht (List.mem_singleton.mp hm)
  have hthreads := H.threads k hk
  have hcycle := H.cycle k
  have hlen := H.length_le k
  rw [hthreads] at hlinks
  cases hring : ring k with
  | nil =>
    rw [hring] at hlinks hlt' hsorted hdisjoint
    obtain ⟨hthreads', hnext⟩ := hlinks
    refine H.setRing hk hpid htaskList (htid ▸ Nat.le_succ _) htasks (fun j hj => ?_)
      (fun j _ t ht => ?_) ?_ (fun _ => ⟨List.nodup_singleton _, ?_⟩) hlt' hsorted hdisjoint
    · rw [hthreads', if_neg hj]
    · rw [hnext, if_neg (hlt j t ht)]
    · rw [hthreads', if_pos rfl]
      rfl
    · rw [Path.nil_iff, hnext, if_pos rfl]
  | cons head ts =>
    rw [hring] at hlinks hlt' hsorted hdisjoint hthreads hcycle hlen
    obtain ⟨hthreads', last, hlast, hnext⟩ := hlinks
    have hcyc := hcycle (List.cons_ne_nil _ _)
    rw [lastNode_path hcyc.2 (List.nodup_cons.mp hcyc.1).1 hlen] at hlast
    cases hlast
    have hmem := List.getLast_mem (List.cons_ne_nil head ts)
    refine H.setRing hk hpid htaskList (htid ▸ Nat.le_succ _) htasks (fun j _ => hthreads' j)
      (fun j hj t ht => ?_) ?_ (fun _ => hcyc.snoc ?_ (fun t ht hne => ?_) ?_ ?_) hlt' hsorted
      hdisjoint
    · rw [hnext, if_neg (hlt j t ht), if_neg]
      intro e
      exact hdisjoint j hj t ht (List.mem_append_left _ (e ▸ hmem))
    · rw [hthreads', hthreads]
      rfl
    · exact fun hm => hlt k _ (hring ▸ hm) rfl
    · rw [hnext, if_neg (hlt k t (hring ▸ ht)), if_neg hne]
    · rw [hnext, if_neg (hlt k _ (by rw [hring]; exact hmem)), if_pos rfl]
    · rw [hnext, if_pos rfl]

theorem SchedInv.taskCreateThread (H : SchedInv s ring) {k : Nat} {entry : κ} (hk : k < s.nextPid)
    (h : taskCreateThread s k entry = some r) :
    SchedInv r (Function.update ring k (ring k ++ [s.nextTid])) := by
  obtain ⟨hcur, -, hnew, hcore⟩ := taskCreateThread_some h
  obtain ⟨-, -, htaskCurrent, -⟩ := taskCreateThread_links h
  have hstate (t : Nat) (ht : t ≠ s.nextTid) : (r.thread t).state = (s.thread t).state :=
    congrArg ThreadCore.state (hcore t ht)
  have hready : (r.thread s.nextTid).state = .ready := congrArg ThreadCore.state hnew
  have hsub {j t : Nat} (ht : t ∈ ring j) :
      t ∈ Function.update ring k (ring k ++ [s.nextTid]) j := by
    by_cases e : j = k
    · subst e
      rw [Function.update_self]
      exact List.mem_append_left _ ht
    · rwa [Function.update_of_ne e]
  refine ⟨H.toRings.taskCreateThread hk h, ?_, fun t ht => ?_, fun t ht => ?_⟩
  · rw [hcur, htaskCurrent]
    exact hsub H.current
  · by_cases e : t = s.nextTid
    · rw [e, hready] at ht
      cases ht
    · rw [hstate t e] at ht
      rw [hcur]
      exact H.running t ht
  · by_cases e : t = s.nextTid
    · refine ⟨k, ?_⟩
      rw [Function.update_self, e]
      exact List.mem_append_right _ (List.mem_singleton_self _)
    · rw [hstate t e] at ht
      obtain ⟨j, hj⟩ := H.alive t ht
      exact ⟨j, hsub hj⟩

/-! ## Reaping -/

/-- The thread after the first one is the first one of the rest. -/
theorem head_erase_of_cycle {f : Nat → Nat} {l : List Nat} {z : Nat} (hc : Cycle f l)
    (hz : l.head? = some z) (hne : f z ≠ z) : (l.erase z).head? = some (f z) := by
  cases l with
  | nil => cases hz
  | cons a ts =>
    cases hz
    rw [List.erase_cons_head]
    cases ts with
    | nil => exact absurd (Path.nil_iff.mp hc.2) hne
    | cons b ts => exact congrArg some (Path.cons_iff.mp hc.2).1.symm

theorem head?_erase_of_ne {l : List Nat} {z : Nat} (hz : l.head? ≠ some z) :
    (l.erase z).head? = l.head? := by
  cases l with
  | nil => rfl
  | cons a l =>
    have hne : a ≠ z := fun e => hz (congrArg some e)
    rw [List.erase_cons_tail (by simpa using hne)]
    rfl

/-- The thread after `p` comes off its list, and the others stay in their order. -/
theorem TaskRings.reapUnlink (H : TaskRings s tasks ring) {k p z : Nat} (hk : k ∈ tasks)
    (hp : p ∈ ring k) (hnext : (s.thread p).next = z) :
    TaskRings (reapUnlink s k p z) tasks (Function.update ring k ((ring k).erase z)) := by
  have hc := H.cycle k hk (List.ne_nil_of_mem hp)
  have hz : z ∈ ring k := hnext ▸ hc.mem_succ hp
  have hlt : ∀ t ∈ (ring k).erase z, t < s.nextTid :=
    fun t ht => H.lt k hk t (List.mem_of_mem_erase ht)
  have hdisjoint : ∀ j ∈ tasks, j ≠ k → ∀ t ∈ ring j, t ∉ (ring k).erase z :=
    fun j hj hjk t ht hm =>
      hjk (H.disjoint j hj k hk t ht (List.mem_of_mem_erase hm))
  have hself := hc.succ_self_iff hz
  obtain ⟨hids, -⟩ := @reapUnlink_core _ s k p z
  simp only [Plos.reapUnlink] at hids ⊢
  split
  · next e =>
    have hring : ring k = [z] := hself.mp e.symm
    rw [hring, List.erase_cons_head] at hlt hdisjoint ⊢
    refine H.setRing le_rfl rfl le_rfl (fun j => ?_) (fun j hj => ?_) (fun _ _ _ _ _ => rfl) ?_
      (fun h => absurd rfl h) hlt hdisjoint
    · rw [Sched.setTask_apply]
      split
      · next e => rw [e]
      · rfl
    · rw [Sched.setTask_apply, if_neg hj]
    · rw [Sched.setTask_apply, if_pos rfl]
      rfl
  · next e =>
    have hnextz : (s.thread z).next ≠ z := Ne.symm e
    have hcyc (hne : (ring k).erase z ≠ []) :
        Cycle (fun t => ((s.setThread p { s.thread p with next := (s.thread z).next }).thread
          t).next) ((ring k).erase z) := by
      refine (hc.erase hp hz hnext hne).congr fun t _ => ?_
      rw [Sched.setThread_apply, Function.update_apply, apply_ite Thread.next]
    have hothers (j : Nat) (hj : j ∈ tasks) (hjk : j ≠ k) (t : Nat) (ht : t ∈ ring j) :
        ((s.setThread p { s.thread p with next := (s.thread z).next }).thread t).next =
          (s.thread t).next := by
      rw [Sched.setThread_of_ne]
      exact fun e => hjk (H.disjoint j hj k hk t ht (e ▸ hp))
    split
    · next hhead =>
      refine H.setRing le_rfl rfl le_rfl (fun j => ?_) (fun j hj => ?_) hothers ?_ hcyc hlt
        hdisjoint
      · rw [Sched.setTask_apply]
        split
        · next e => rw [e]; rfl
        · rfl
      · rw [Sched.setTask_apply, if_neg hj]
        rfl
      · rw [Sched.setTask_apply, if_pos rfl]
        exact (head_erase_of_cycle hc ((H.threads k hk).symm.trans hhead.symm) hnextz).symm
    · next hhead =>
      refine H.setRing le_rfl rfl le_rfl (fun _ => rfl) (fun _ _ => rfl) hothers ?_ hcyc hlt
        hdisjoint
      rw [head?_erase_of_ne]
      · exact H.threads k hk
      · rw [← H.threads k hk]
        exact fun e => hhead e.symm

/-! ## The steps that leave the links alone -/

namespace SchedInv

theorem setThread (H : SchedInv s ring) {t : Nat} {th : Thread κ}
    (hnext : th.next = (s.thread t).next)
    (hrunning : th.state = .running → (s.thread t).state = .running)
    (halive : t ≠ s.threadCurrent → th.state ≠ .zombie → (s.thread t).state ≠ .zombie) :
    SchedInv (s.setThread t th) ring := by
  refine H.frame ⟨rfl, rfl, rfl, rfl, rfl⟩ rfl (fun x => ?_) (fun x => ?_) (fun x hx => ?_)
  all_goals
    rw [Sched.setThread_apply]
    split
  · next e => rw [hnext, e]
  · rfl
  · next e => rw [e]; exact hrunning
  · exact id
  · next e => rw [e]; exact halive (e ▸ hx)
  · exact id

theorem ticked (H : SchedInv s ring) (hT : Ticked s r) : SchedInv r ring := by
  refine H.frame hT.ids hT.task hT.next (fun t => (hT.state_iff .running nofun nofun t).mp) ?_
  intro t _ hz
  exact (hT.state_iff .zombie nofun nofun t).not.mp hz

theorem setWaiter (H : SchedInv s ring) (t : Nat) (w : Option Nat) :
    SchedInv (s.setThread t { s.thread t with nextWaiter := w }) ring :=
  H.setThread rfl id fun _ => id

/-- The thread on the CPU stops running. -/
theorem setCurrent (H : SchedInv s ring) {th : Thread κ}
    (hnext : th.next = (s.thread s.threadCurrent).next) (hstate : th.state ≠ .running) :
    SchedInv (s.setThread s.threadCurrent th) ring :=
  H.setThread hnext (fun h => absurd h hstate) fun h => absurd rfl h

theorem mutexAcquire (H : SchedInv s ring) : SchedInv (mutexAcquire s m).1 ring := by
  simp only [Plos.mutexAcquire]
  split
  · exact H
  · split
    · exact (H.setWaiter _ _).setCurrent rfl (by simp)
    · exact ((H.setWaiter _ _).setWaiter _ _).setCurrent rfl (by simp)

theorem mutexRelease (H : SchedInv s ring)
    (hhead : ∀ t, m.waitingQueueHead = some t → (s.thread t).state = .blocked) :
    SchedInv (mutexRelease s m).1 ring := by
  unfold Plos.mutexRelease
  split
  · exact H
  · next t ht =>
    refine H.setThread rfl nofun fun _ _ => ?_
    rw [hhead t ht]
    nofun

/-- After `scheduler_init` the idle thread is the only one. -/
theorem init (status : κ) :
    SchedInv (schedulerInit status) (Function.update (fun _ => []) 0 [0]) := by
  have hring {k t : Nat} : t ∈ Function.update (fun _ => []) 0 [0] k ↔ k = 0 ∧ t = 0 := by
    rw [Function.update_apply]
    split
    · next e => simp [e]
    · next e => simp [e]
  have hthread (t : Nat) (ht : t ≠ 0) : (schedulerInit status).thread t = noThread status := by
    simp [schedulerInit, ht]
  refine ⟨⟨⟨List.nodup_singleton 0, Path.nil_iff.mpr rfl⟩, rfl, ?_, ?_, ?_, ?_, ?_, ?_⟩,
    hring.mpr ⟨rfl, rfl⟩, ?_, ?_⟩
  · intro k hk
    obtain rfl : k = 0 := Nat.lt_one_iff.mp hk
    rfl
  · intro k hk
    obtain ⟨t, ht⟩ := List.exists_mem_of_ne_nil _ hk
    obtain ⟨rfl, -⟩ := hring.mp ht
    exact ⟨List.nodup_singleton 0, Path.nil_iff.mpr rfl⟩
  · intro k hk
    exact Function.update_of_ne (Nat.pos_iff_ne_zero.mp hk) ..
  · intro k t ht
    rw [(hring.mp ht).2]
    exact Nat.zero_lt_one
  · intro k
    rw [Function.update_apply]
    split
    · exact List.pairwise_singleton _ _
    · exact List.Pairwise.nil
  · intro j k t hj hk
    rw [(hring.mp hj).1, (hring.mp hk).1]
  · intro t ht
    by_contra hne
    rw [hthread t hne] at ht
    cases ht
  · intro t ht
    refine ⟨0, hring.mpr ⟨rfl, ?_⟩⟩
    by_contra hne
    rw [hthread t hne] at ht
    exact ht rfl

end SchedInv

theorem mutexRelease_state (t : Nat) : ((mutexRelease s m).1.thread t).state =
    if m.waitingQueueHead = some t then .ready else (s.thread t).state := by
  unfold mutexRelease
  split
  · next e => rw [e, if_neg nofun]
  · next w e =>
    rw [Sched.setState_apply, e]
    by_cases hw : t = w
    · rw [if_pos hw, if_pos (congrArg some hw.symm)]
    · rw [if_neg hw, if_neg fun e => hw (Option.some.inj e).symm]

end Plos
