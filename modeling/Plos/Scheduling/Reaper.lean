import Plos.Scheduling.RingSteps

/-! One scan of the reaper, `kernel_idle_thread`.

The loop over the threads of a task starts at the second one and ends at the first, so it looks at
the first thread of a list only if the thread is alone. A zombie at the head of a list of two or
more threads is missed: a scan reaps if there is something to reap exactly if not all zombies are of
that kind (`kernelIdleScan_reaps_iff`). -/

namespace Plos

variable {κ : Type u} {s r : Sched κ} {tasks : List Nat} {ring : Nat → List Nat}

/-- What one scan should do: it takes one zombie off its list, and leaves everything else as it is;
without zombies it does nothing. -/
def ReapsOne (s : Sched κ) (tasks : List Nat) (ring : Nat → List Nat) (r : Sched κ) :
    Option Nat → Prop
  | none => r = s ∧ ∀ k ∈ tasks, ∀ t ∈ ring k, (s.thread t).state ≠ .zombie
  | some z => ∃ k ∈ tasks, z ∈ ring k ∧ (s.thread z).state = .zombie ∧
      TaskRings r tasks (Function.update ring k ((ring k).erase z)) ∧ s.SameIds r ∧
      ∀ t, (r.thread t).core = (s.thread t).core

/-- The threads of a list that the reaper looks at. -/
def examined : List Nat → List Nat
  | [h] => [h]
  | l => l.tail

/-- The first thread is looked at only if it is alone. -/
theorem mem_examined {f : Nat → Nat} {l : List Nat} {z : Nat} (hc : Cycle f l) :
    z ∈ examined l ↔ z ∈ l ∧ (l.head? ≠ some z ∨ f z = z) := by
  cases l with
  | nil => exact hc.elim
  | cons h ts =>
    cases ts with
    | nil =>
      refine ⟨fun hz => ⟨hz, .inr ?_⟩, fun hz => hz.1⟩
      obtain rfl := List.mem_singleton.mp hz
      exact Path.nil_iff.mp hc.2
    | cons a ts =>
      have hnd := List.nodup_cons.mp hc.1
      constructor
      · intro hz
        refine ⟨List.mem_cons_of_mem _ hz, .inl fun heq => ?_⟩
        cases heq
        exact hnd.1 hz
      · intro ⟨hz, hor⟩
        rcases List.mem_cons.mp hz with rfl | hz
        · rcases hor with hne | hself
          · exact absurd rfl hne
          · have := (hc.succ_self_iff List.mem_cons_self).mp hself
            cases this
        · exact hz

/-- The inner loop finds the first zombie on its way to the head of the list, and the thread before
it. -/
theorem reapThreads_path {k n h prev curr : Nat} {xs : List Nat}
    (hthreads : (s.task k).threads = some h) (hprev : (s.thread prev).next = curr)
    (hp : Path (fun t => (s.thread t).next) curr xs h) (hh : h ∉ xs) (hn : xs.length < n) :
    (reapThreads s k n prev curr = some none ∧ ∀ t ∈ curr :: xs, (s.thread t).state ≠ .zombie) ∨
      ∃ p z, reapThreads s k n prev curr = some (some (p, z)) ∧ p ∈ prev :: curr :: xs ∧
        (s.thread p).next = z ∧ z ∈ curr :: xs ∧ (s.thread z).state = .zombie := by
  induction n generalizing prev curr xs with
  | zero => cases hn
  | succ n ih =>
    rw [reapThreads]
    split
    · next hz => exact .inr ⟨prev, curr, rfl, List.mem_cons_self, hprev, List.mem_cons_self, hz⟩
    · next hz =>
      cases xs with
      | nil =>
        have hnext : (s.thread curr).next = h := Path.nil_iff.mp hp
        rw [if_pos (by rw [hnext, hthreads])]
        exact .inl ⟨rfl, List.forall_mem_cons.mpr ⟨hz, nofun⟩⟩
      | cons x xs =>
        obtain ⟨hnext, hp⟩ := Path.cons_iff.mp hp
        obtain ⟨hne, hh⟩ := not_or.mp (List.mem_cons.not.mp hh)
        have hnext' : (s.thread curr).next = x := hnext
        rw [if_neg (by rw [hnext', hthreads]; exact fun e => hne (Option.some.inj e).symm), hnext']
        rcases ih hnext' hp hh (by simpa using hn) with
          ⟨hnone, hall⟩ | ⟨p, z, hsome, hmem, hpz, hzmem, hzz⟩
        · exact .inl ⟨hnone, List.forall_mem_cons.mpr ⟨hz, hall⟩⟩
        · exact .inr
            ⟨p, z, hsome, List.mem_cons_of_mem _ hmem, hpz, List.mem_cons_of_mem _ hzmem, hzz⟩

/-- The part of the outer loop for one task. -/
def reapFind (s : Sched κ) (k : Nat) : Option (Option (Nat × Nat)) :=
  match (s.task k).threads with
  | none => some none
  | some head => reapThreads s k s.nextTid head (s.thread head).next

theorem TaskRings.length_le (H : TaskRings s tasks ring) {k : Nat} (hk : k ∈ tasks) :
    (ring k).length ≤ s.nextTid := by
  have hmem : ∀ j ∈ [k], j ∈ tasks := by simpa using hk
  have := H.length_flatMap_le (List.nodup_singleton k) hmem
  rwa [List.flatMap_singleton] at this

theorem TaskRings.reapFind (H : TaskRings s tasks ring) {k : Nat} (hk : k ∈ tasks) :
    (reapFind s k = some none ∧ ∀ t ∈ examined (ring k), (s.thread t).state ≠ .zombie) ∨
      ∃ p z, reapFind s k = some (some (p, z)) ∧ p ∈ ring k ∧ (s.thread p).next = z ∧
        z ∈ examined (ring k) ∧ (s.thread z).state = .zombie := by
  have hthreads := H.threads k hk
  have hcycle := H.cycle k hk
  have hlen := H.length_le hk
  rw [Plos.reapFind, hthreads]
  cases hring : ring k with
  | nil => exact .inl ⟨rfl, nofun⟩
  | cons h ts =>
    rw [hring] at hthreads hcycle hlen
    have hc := hcycle (List.cons_ne_nil _ _)
    simp only [List.head?_cons] at hthreads ⊢
    cases ts with
    | nil =>
      -- the only thread follows itself
      have hself : (s.thread h).next = h := Path.nil_iff.mp hc.2
      have hpath : Path (fun t => (s.thread t).next) (s.thread h).next [] h := by
        rw [Path.nil_iff, hself]
        exact hself
      rcases reapThreads_path hthreads rfl hpath nofun hlen with
        ⟨hnone, hall⟩ | ⟨p, z, hsome, hmem, hpz, hz, hzz⟩
      · rw [hself] at hall
        exact .inl ⟨hnone, hall⟩
      · rw [hself] at hmem hz
        refine .inr ⟨p, z, hsome, ?_, hpz, hz, hzz⟩
        simpa using hmem
    | cons a ts =>
      obtain ⟨hnext, hpath⟩ := Path.cons_iff.mp hc.2
      have hnext' : (s.thread h).next = a := hnext
      have hnot : h ∉ ts := fun hmem => (List.nodup_cons.mp hc.1).1 (List.mem_cons_of_mem _ hmem)
      rw [hnext']
      rcases reapThreads_path hthreads hnext' hpath hnot (Nat.lt_of_succ_lt hlen) with
        ⟨hnone, hall⟩ | ⟨p, z, hsome, hmem, hpz, hz, hzz⟩
      · exact .inl ⟨hnone, hall⟩
      · exact .inr ⟨p, z, hsome, hmem, hpz, hz, hzz⟩

theorem reapTasks_succ (n k : Nat) : reapTasks (n + 1) s k = match reapFind s k with
    | none => none
    | some (some (prev, curr)) => some (reapUnlink s k prev curr, some curr)
    | some none =>
      if (s.task k).next = s.taskList then some (s, none) else reapTasks n s (s.task k).next := rfl

/-- The outer loop reaps in the first task in which the inner loop finds a zombie. -/
theorem TaskRings.reapTasks_path (H : TaskRings s tasks ring) {n k : Nat} {ks : List Nat}
    (hp : Path (fun k => (s.task k).next) k ks s.taskList) (hks : s.taskList ∉ ks)
    (hmem : ∀ j ∈ k :: ks, j ∈ tasks) (hn : ks.length < n) :
    (reapTasks n s k = some (s, none) ∧
      ∀ j ∈ k :: ks, ∀ t ∈ examined (ring j), (s.thread t).state ≠ .zombie) ∨
    ∃ j ∈ tasks, ∃ p z, reapTasks n s k = some (Plos.reapUnlink s j p z, some z) ∧ p ∈ ring j ∧
      (s.thread p).next = z ∧ z ∈ examined (ring j) ∧ (s.thread z).state = .zombie := by
  induction n generalizing k ks with
  | zero => cases hn
  | succ n ih =>
    have hk := hmem k List.mem_cons_self
    rw [reapTasks_succ]
    rcases H.reapFind hk with ⟨hnone, hall⟩ | ⟨p, z, hsome, hfound⟩
    · rw [hnone]
      cases ks with
      | nil =>
        have hnext : (s.task k).next = s.taskList := Path.nil_iff.mp hp
        refine .inl ⟨if_pos hnext, List.forall_mem_cons.mpr ⟨hall, nofun⟩⟩
      | cons j ks =>
        obtain ⟨hnext, hp⟩ := Path.cons_iff.mp hp
        obtain ⟨hne, hks⟩ := not_or.mp (List.mem_cons.not.mp hks)
        have hnext' : (s.task k).next = j := hnext
        simp only [hnext', if_neg (Ne.symm hne)]
        rcases ih hp hks (fun i hi => hmem i (List.mem_cons_of_mem _ hi)) (by simpa using hn) with
          ⟨hres, hrest⟩ | hfound
        · exact .inl ⟨hres, List.forall_mem_cons.mpr ⟨hall, hrest⟩⟩
        · exact .inr hfound
    · rw [hsome]
      exact .inr ⟨k, hk, p, z, rfl, hfound⟩

/-- One scan ends; it does nothing if it looks at no zombie, and takes one off otherwise. -/
theorem TaskRings.kernelIdleScan_cases (H : TaskRings s tasks ring) :
    (kernelIdleScan s = some (s, none) ∧
      ∀ k ∈ tasks, ∀ t ∈ examined (ring k), (s.thread t).state ≠ .zombie) ∨
    ∃ r z, kernelIdleScan s = some (r, some z) ∧ ReapsOne s tasks ring r (some z) ∧
      ∃ k ∈ tasks, z ∈ ring k ∧ z ∈ examined (ring k) ∧ (s.thread z).state = .zombie := by
  have hcycle := H.taskCycle
  have hlist := H.taskList
  have hlen := H.length_tasks_le
  rw [kernelIdleScan]
  cases htasks : tasks with
  | nil =>
    rw [htasks] at hcycle
    exact hcycle.elim
  | cons k ks =>
    rw [htasks] at hcycle hlist hlen
    cases hlist
    have hnot := (List.nodup_cons.mp hcycle.1).1
    rcases H.reapTasks_path hcycle.2 hnot (fun j hj => htasks ▸ hj) hlen with
      hnone | ⟨j, hj, p, z, hres, hp, hpz, hex, hzz⟩
    · exact .inl hnone
    · obtain ⟨hids, hcore⟩ := @reapUnlink_core _ s j p z
      have hz : z ∈ ring j := hpz ▸ (H.cycle j hj (List.ne_nil_of_mem hp)).mem_succ hp
      rw [← htasks]
      exact .inr
        ⟨_, z, hres, ⟨j, hj, hz, hzz, H.reapUnlink hj hp hpz, hids, hcore⟩, j, hj, hz, hex, hzz⟩

/-- The thread is on one list only. -/
theorem Rings.update_erase (H : Rings s ring) {k z : Nat} (hz : z ∈ ring k) :
    Function.update ring k ((ring k).erase z) = fun j => (ring j).erase z := by
  funext j
  rcases eq_or_ne j k with rfl | hne
  · rw [Function.update_self]
  · rw [Function.update_of_ne hne, List.erase_of_not_mem fun hmem => hne (H.disjoint j k z hmem hz)]

/-- The lists of the tasks without the thread that the reaper has found. -/
def reapedRings (ring : Nat → List Nat) : Option Nat → Nat → List Nat
  | none => ring
  | some z => fun k => (ring k).erase z

theorem SchedInv.kernelIdleScan (H : SchedInv s ring) {found : Option Nat}
    (hcurrent : (s.thread s.threadCurrent).state ≠ .zombie)
    (h : kernelIdleScan s = some (r, found)) :
    SchedInv r (reapedRings ring found) := by
  rcases H.toRings.taskRings.kernelIdleScan_cases with ⟨hscan, -⟩ | ⟨r', z, hscan, hreaps, -⟩
  · cases hscan.symm.trans h
    exact H
  · cases hscan.symm.trans h
    obtain ⟨k, hk, hz, hzz, HT, hids, hcore⟩ := hreaps
    have hk := List.mem_range.mp hk
    have hstate (t : Nat) : (r.thread t).state = (s.thread t).state :=
      congrArg ThreadCore.state (hcore t)
    have hkeep {j t : Nat} (ht : t ∈ ring j) (hne : (s.thread t).state ≠ .zombie) :
        t ∈ (ring j).erase z := by
      refine (List.mem_erase_of_ne ?_).mpr ht
      rintro rfl
      exact hne hzz
    rw [← hids.nextPid] at HT
    have HR := HT.rings (hids.taskList.trans H.taskList)
      (H.sorted_update ((H.sorted k).sublist List.erase_sublist)) fun j hj =>
        H.beyond_update hk (hids.nextPid ▸ hj)
    rw [H.toRings.update_erase hz] at HR
    refine ⟨HR, ?_, fun t ht => ?_, fun t ht => ?_⟩
    · rw [hids.threadCurrent, hids.taskCurrent]
      exact hkeep H.current hcurrent
    · rw [hstate] at ht
      rw [hids.threadCurrent]
      exact H.running t ht
    · rw [hstate] at ht
      obtain ⟨j, hj⟩ := H.alive t ht
      exact ⟨j, hkeep hj ht⟩

/-- For well-formed lists and any states of the threads, one scan does what it should exactly if
there is no zombie, or some zombie is not the first thread of its task or is the only one. -/
theorem kernelIdleScan_reaps_iff (H : TaskRings s tasks ring) :
    (∃ r found, kernelIdleScan s = some (r, found) ∧ ReapsOne s tasks ring r found) ↔
      ((∃ k ∈ tasks, ∃ z ∈ ring k, (s.thread z).state = .zombie) →
        ∃ k ∈ tasks, ∃ z ∈ ring k, (s.thread z).state = .zombie ∧
          ((s.task k).threads ≠ some z ∨ (s.thread z).next = z)) := by
  have hexamined {k z : Nat} (hk : k ∈ tasks) (hz : z ∈ ring k) :
      z ∈ examined (ring k) ↔ ((s.task k).threads ≠ some z ∨ (s.thread z).next = z) := by
    rw [mem_examined (H.cycle k hk (List.ne_nil_of_mem hz)), H.threads k hk]
    exact and_iff_right hz
  rcases H.kernelIdleScan_cases with ⟨hscan, hall⟩ | ⟨r, z, hscan, hreaps, k, hk, hz, hex, hzz⟩
  · constructor
    · rintro ⟨r, found, hres, hreaps⟩ ⟨k, hk, z, hz, hzz⟩
      cases hscan.symm.trans hres
      exact absurd hzz (hreaps.2 k hk z hz)
    · intro h
      refine ⟨s, none, hscan, rfl, fun k hk z hz hzz => ?_⟩
      obtain ⟨j, hj, y, hy, hyy, hor⟩ := h ⟨k, hk, z, hz, hzz⟩
      exact hall j hj y ((hexamined hj hy).mpr hor) hyy
  · exact iff_of_true ⟨r, some z, hscan, hreaps⟩ fun _ =>
      ⟨k, hk, z, hz, hzz, (hexamined hk hz).mp hex⟩

/-- The second thread of the idle task has exited. -/
def secondExited : Sched Unit where
  thread := fun t => if t = 0 then ⟨(), .running, threadInitialTicks, 0, 1, none⟩
    else ⟨(), .zombie, threadInitialTicks, 0, 0, none⟩
  task := fun _ => ⟨some 0, 0⟩
  taskList := 0
  taskCurrent := 0
  threadCurrent := 0
  nextPid := 1
  nextTid := 2

theorem secondExited_rings : TaskRings secondExited [0] fun _ => [0, 1] where
  taskCycle := ⟨List.nodup_singleton 0, Path.nil_iff.mpr rfl⟩
  taskList := rfl
  threads _ _ := rfl
  cycle _ _ _ := ⟨by decide, Path.cons_iff.mpr ⟨rfl, Path.nil_iff.mpr rfl⟩⟩
  task_lt := by decide
  lt := by decide
  disjoint := by simp

theorem kernelIdleScan_reaps_iff_second :
    ∃ r, kernelIdleScan secondExited = some (r, some 1) ∧
      ReapsOne secondExited [0] (fun _ => [0, 1]) r (some 1) := by
  obtain ⟨r, found, hscan, hreaps⟩ := (kernelIdleScan_reaps_iff secondExited_rings).mpr fun _ =>
    ⟨0, by decide, 1, by decide, rfl, .inl (by decide)⟩
  have hfound : kernelIdleScan secondExited = some (_, some 1) := rfl
  cases hfound.symm.trans hscan
  exact ⟨_, hscan, hreaps⟩

/-- A thread exits while it is the first one of two of its task. -/
def firstExits : List SysOp :=
  [.createTask, .createThread 1, .createThread 1, .yield, .exit, .yield, .yield]

/-- The idle thread runs again and the reaper finds nothing, although the thread is a zombie. -/
theorem kernelIdleScan_firstExits :
    ∃ s r, runFrom Sys.step Sys.init firstExits = some s ∧ s.sched.threadCurrent = 0 ∧
      (s.sched.thread 1).state = .zombie ∧ (s.sched.task 1).threads = some 1 ∧
        kernelIdleScan s.sched = some (r, none) :=
  ⟨_, _, rfl, rfl, rfl, rfl, rfl⟩

end Plos
