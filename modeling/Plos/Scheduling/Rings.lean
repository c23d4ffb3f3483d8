import Mathlib.Data.List.Perm.Subperm
import Mathlib.Algebra.Order.BigOperators.Group.List
import Plos.Lib.Path
import Plos.Scheduling.Effects

/-! The circular lists of the scheduler and the search over them.

`TaskRings s tasks ring` says that the tasks form the circular list `tasks`, and that the threads of
the task `k` form the circular list `ring k`. On such a state the search of `scheduler_schedule`
follows one closed path through all threads, its `lap`, and stops at the first thread on it that is
ready (`TaskRings.schedulerFind_eq`). In the states that the kernel reaches the lists are in the
order of creation, which is what `Rings` adds. -/

namespace Plos

variable {κ : Type u}

/-- Well-formed lists of tasks and threads: circular and without a common thread. The tasks and
threads are among those that have been created. -/
structure TaskRings (s : Sched κ) (tasks : List Nat) (ring : Nat → List Nat) : Prop where
  taskCycle : Cycle (fun k => (s.task k).next) tasks
  taskList : tasks.head? = some s.taskList
  threads : ∀ k ∈ tasks, (s.task k).threads = (ring k).head?
  cycle : ∀ k ∈ tasks, ring k ≠ [] → Cycle (fun t => (s.thread t).next) (ring k)
  task_lt : ∀ k ∈ tasks, k < s.nextPid
  lt : ∀ k ∈ tasks, ∀ t ∈ ring k, t < s.nextTid
  disjoint : ∀ j ∈ tasks, ∀ k ∈ tasks, ∀ t, t ∈ ring j → t ∈ ring k → j = k

/-- The shape of the lists of tasks and threads. -/
structure Rings (s : Sched κ) (ring : Nat → List Nat) : Prop where
  tasks : Cycle (fun k => (s.task k).next) (List.range s.nextPid)
  taskList : s.taskList = 0
  threads : ∀ k < s.nextPid, (s.task k).threads = (ring k).head?
  cycle : ∀ k, ring k ≠ [] → Cycle (fun t => (s.thread t).next) (ring k)
  beyond : ∀ k, s.nextPid ≤ k → ring k = []
  lt : ∀ k, ∀ t ∈ ring k, t < s.nextTid
  sorted : ∀ k, (ring k).Pairwise (· < ·)
  disjoint : ∀ j k t, t ∈ ring j → t ∈ ring k → j = k

/-- The thread on the CPU is on its ring, no other one is running, and only zombies are on no
ring. -/
structure SchedInv (s : Sched κ) (ring : Nat → List Nat) : Prop extends Rings s ring where
  current : s.threadCurrent ∈ ring s.taskCurrent
  running : ∀ t, (s.thread t).state = .running → t = s.threadCurrent
  alive : ∀ t, (s.thread t).state ≠ .zombie → ∃ k, t ∈ ring k

/-! ## The path of the search -/

/-- The first place of a task. -/
def entry (s : Sched κ) (k : Nat) : Nat × Option Nat := (k, (s.task k).threads)

/-- The place after a place. -/
def advance (s : Sched κ) : Nat × Option Nat → Nat × Option Nat
  | (k, none) => entry s (s.task k).next
  | (k, some t) => searchNext s k t

/-- The places of the threads of a list. -/
def places (k : Nat) (ts : List Nat) : List (Nat × Option Nat) := ts.map fun t => (k, some t)

/-- The places of a task: those of its threads, or the one where the search skips it. -/
def taskPlaces (s : Sched κ) (ring : Nat → List Nat) (k : Nat) : List (Nat × Option Nat) :=
  entry s k :: places k (ring k).tail

def readyPlace (s : Sched κ) (place : Nat × Option Nat) : Bool :=
  match place.2 with
  | none => false
  | some t => (s.thread t).state = .ready

theorem readyPlace_some {s : Sched κ} {k t : Nat} :
    readyPlace s (k, some t) = true ↔ (s.thread t).state = .ready := decide_eq_true_iff

section
variable {s : Sched κ} {ring : Nat → List Nat} {k t h : Nat} {ts : List Nat}

/-- From a thread to the end of its list. -/
theorem places_path (hthreads : (s.task k).threads = some h)
    (hp : Path (fun t => (s.thread t).next) t ts h) (hts : h ∉ ts) :
    Path (advance s) (k, some t) (places k ts) (entry s (s.task k).next) := by
  induction ts generalizing t with
  | nil =>
    have hnext : (s.thread t).next = h := Path.nil_iff.mp hp
    refine Path.nil_iff.mpr ?_
    simp only [advance, searchNext, hnext, hthreads, if_true]
    rfl
  | cons u ts ih =>
    obtain ⟨hnext, hp⟩ := Path.cons_iff.mp hp
    obtain ⟨hne, hts⟩ := not_or.mp (List.mem_cons.not.mp hts)
    refine Path.cons_iff.mpr ⟨?_, ih hp hts⟩
    have : some u ≠ some h := fun e => hne (Option.some.inj e).symm
    simp only [advance, searchNext, hnext, hthreads, if_neg this]

/-- From the first thread of a list to one of its threads. -/
theorem places_prefix {u : Nat} (hthreads : (s.task k).threads = some h)
    (hp : Path (fun t => (s.thread t).next) t ts u) (hts : h ∉ ts) (hu : u ≠ h) :
    Path (advance s) (k, some t) (places k ts) (k, some u) := by
  have hstep {x y : Nat} (hxy : (s.thread x).next = y) (hy : y ≠ h) :
      advance s (k, some x) = (k, some y) := by
    have : some y ≠ some h := fun e => hy (Option.some.inj e)
    simp only [advance, searchNext, hxy, hthreads, if_neg this]
  induction ts generalizing t with
  | nil => exact Path.nil_iff.mpr (hstep (Path.nil_iff.mp hp) hu)
  | cons x ts ih =>
    obtain ⟨hnext, hp⟩ := Path.cons_iff.mp hp
    obtain ⟨hne, hts⟩ := not_or.mp (List.mem_cons.not.mp hts)
    exact Path.cons_iff.mpr ⟨hstep hnext (Ne.symm hne), ih hp hts⟩

end

namespace Rings

variable {s : Sched κ} {ring : Nat → List Nat} {k : Nat}

theorem nodup (H : Rings s ring) (k : Nat) : (ring k).Nodup :=
  (H.sorted k).imp fun h => Nat.ne_of_lt h

theorem lt_of_mem (H : Rings s ring) {t : Nat} (ht : t ∈ ring k) : k < s.nextPid := by
  apply Nat.lt_of_not_le
  intro hk
  rw [H.beyond k hk] at ht
  cases ht

theorem taskRings (H : Rings s ring) : TaskRings s (List.range s.nextPid) ring where
  taskCycle := H.tasks
  taskList := by
    have htasks := H.tasks
    rw [H.taskList]
    cases hpid : s.nextPid with
    | zero =>
      rw [hpid] at htasks
      exact htasks.elim
    | succ n => rw [List.range_succ_eq_map, List.head?_cons]
  threads k hk := H.threads k (List.mem_range.mp hk)
  cycle k _ := H.cycle k
  task_lt _ := List.mem_range.mp
  lt k _ := H.lt k
  disjoint j _ k _ := H.disjoint j k

end Rings

namespace TaskRings

variable {s : Sched κ} {tasks : List Nat} {ring : Nat → List Nat} {k : Nat}

theorem nodup (H : TaskRings s tasks ring) (hk : k ∈ tasks) : (ring k).Nodup := by
  have hcycle := H.cycle k hk
  cases hring : ring k with
  | nil => exact List.nodup_nil
  | cons h ts =>
    rw [hring] at hcycle
    exact (hcycle (List.cons_ne_nil _ _)).nodup

theorem task_path (H : TaskRings s tasks ring) (hk : k ∈ tasks) :
    Path (advance s) (entry s k) (places k (ring k).tail) (entry s (s.task k).next) := by
  have hthreads := H.threads k hk
  cases hr : ring k with
  | nil =>
    rw [hr] at hthreads
    refine Path.nil_iff.mpr ?_
    simp only [entry, advance, hthreads, List.head?_nil]
  | cons h ts =>
    rw [hr] at hthreads
    have hc := H.cycle k hk (by rw [hr]; exact List.cons_ne_nil _ _)
    rw [hr] at hc
    have he : entry s k = (k, some h) := by simp only [entry, hthreads, List.head?_cons]
    rw [he]
    exact places_path hthreads hc.2 (List.nodup_cons.mp hc.1).1

/-- From a place `p` whose successor is the entry of the next task on, through the tasks `ks`. -/
theorem tasks_path (H : TaskRings s tasks ring) {ks : List Nat} {j : Nat} {p : Nat × Option Nat}
    {pre : List (Nat × Option Nat)} (hks : ∀ k ∈ ks, k ∈ tasks)
    (hp : Path (advance s) p pre (entry s (s.task k).next))
    (hpath : Path (fun k => (s.task k).next) k ks j) :
    Path (advance s) p (pre ++ ks.flatMap (taskPlaces s ring)) (entry s j) := by
  induction ks generalizing k p pre with
  | nil =>
    rw [List.flatMap_nil, List.append_nil, ← Path.nil_iff.mp hpath]
    exact hp
  | cons i ks ih =>
    obtain ⟨hi, hpath⟩ := Path.cons_iff.mp hpath
    rw [hi] at hp
    have hrest := ih (fun k hk => hks k (List.mem_cons_of_mem _ hk))
      (H.task_path (hks i List.mem_cons_self)) hpath
    rw [List.flatMap_cons, taskPlaces, List.cons_append]
    exact Path.append_iff.mpr ⟨hp, hrest⟩

/-- All threads in the order of the search: the rest of the list of the thread on the CPU, the
following tasks, and the threads before it in its own list. -/
def lap (s : Sched κ) (ring : Nat → List Nat) (k : Nat) (before after others : List Nat) :
    List (Nat × Option Nat) :=
  places k after ++ (others.flatMap (taskPlaces s ring) ++ places k before)

variable {t : Nat} {before after ks js : List Nat}

theorem mem_others (H : TaskRings s tasks ring) (htasks : tasks = js ++ k :: ks) {i : Nat} :
    i ∈ ks ++ js ↔ i ∈ tasks ∧ i ≠ k := by
  have hnd := H.taskCycle.nodup
  rw [htasks] at hnd ⊢
  grind

theorem lap_path (H : TaskRings s tasks ring) (hring : ring k = before ++ t :: after)
    (htasks : tasks = js ++ k :: ks) :
    Path (advance s) (k, some t) (lap s ring k before after (ks ++ js)) (k, some t) := by
  have hk : k ∈ tasks := by rw [htasks]; simp
  have hc := H.cycle k hk (by rw [hring]; simp)
  have hothers := H.taskCycle
  have hmem : ∀ j ∈ ks ++ js, j ∈ tasks := fun j hj => ((H.mem_others htasks).mp hj).1
  rw [htasks] at hothers
  have hthreads := H.threads k hk
  rw [hring] at hc hthreads
  cases before with
  | nil =>
    have hafter := places_path hthreads hc.2 (List.nodup_cons.mp hc.1).1
    have hall := H.tasks_path hmem hafter hothers.rotate
    have he : entry s k = (k, some t) := by rw [entry, hthreads]; rfl
    rw [he] at hall
    simpa [lap, places] using hall
  | cons h before =>
    obtain ⟨hbefore, hafter⟩ := Path.append_iff.mp hc.2
    obtain ⟨hh, hnd⟩ := List.nodup_cons.mp hc.1
    have hha : h ∉ after := fun hm => hh (by simp [hm])
    have hhb : h ∉ before := fun hm => hh (by simp [hm])
    have hht : t ≠ h := fun e => hh (by simp [e])
    have hall := H.tasks_path hmem (places_path hthreads hafter hha) hothers.rotate
    have he : entry s k = (k, some h) := by rw [entry, hthreads]; rfl
    rw [he] at hall
    have hlast := places_prefix hthreads hbefore hhb hht
    have := Path.append_iff.mpr ⟨hall, hlast⟩
    simpa [lap, places] using this

theorem mem_taskPlaces (H : TaskRings s tasks ring) (hk : k ∈ tasks) {j u : Nat} :
    (j, some u) ∈ taskPlaces s ring k ↔ j = k ∧ u ∈ ring k := by
  rw [taskPlaces, entry, H.threads k hk]
  cases ring k with
  | nil => simp [places]
  | cons h ts =>
    simp only [places, List.head?_cons, List.tail_cons, List.mem_cons, Prod.mk.injEq,
      Option.some.injEq, List.mem_map]
    constructor
    · rintro (⟨rfl, rfl⟩ | ⟨v, hv, rfl, rfl⟩)
      · exact ⟨rfl, .inl rfl⟩
      · exact ⟨rfl, .inr hv⟩
    · rintro ⟨rfl, rfl | hu⟩
      · exact .inl ⟨rfl, rfl⟩
      · exact .inr ⟨u, hu, rfl, rfl⟩

/-- The lap visits every thread but the one it starts and ends at. -/
theorem mem_lap (H : TaskRings s tasks ring) (hring : ring k = before ++ t :: after)
    (htasks : tasks = js ++ k :: ks) {j u : Nat} :
    (j, some u) ∈ lap s ring k before after (ks ++ js) ↔
      j ∈ tasks ∧ u ∈ ring j ∧ (j, u) ≠ (k, t) := by
  have hk : k ∈ tasks := by rw [htasks]; simp
  have hnd := H.nodup hk
  rw [hring] at hnd
  have hother {i : Nat} := @mem_others _ s tasks ring k ks js H htasks i
  have hown {v : Nat} : v ∈ before ∨ v ∈ after ↔ v ∈ ring k ∧ v ≠ t := by
    rw [hring]
    grind
  have hflat : (j, some u) ∈ (ks ++ js).flatMap (taskPlaces s ring) ↔
      j ∈ tasks ∧ u ∈ ring j ∧ j ≠ k := by
    rw [List.mem_flatMap]
    constructor
    · intro ⟨i, hi, hm⟩
      obtain ⟨rfl, hu⟩ := (H.mem_taskPlaces (hother.mp hi).1).mp hm
      exact ⟨(hother.mp hi).1, hu, (hother.mp hi).2⟩
    · intro ⟨hj, hu, hne⟩
      exact ⟨j, hother.mpr ⟨hj, hne⟩, (H.mem_taskPlaces hj).mpr ⟨rfl, hu⟩⟩
  have hplaces {l : List Nat} : (j, some u) ∈ places k l ↔ j = k ∧ u ∈ l := by
    simp [places, eq_comm, and_comm]
  rw [lap, List.mem_append, List.mem_append, hflat, hplaces, hplaces]
  by_cases hjk : j = k
  · subst hjk
    have := @hown u
    grind
  · simp [hjk]

/-- There are no more threads on the lists than have been created. -/
theorem length_flatMap_le (H : TaskRings s tasks ring) {l : List Nat} (hl : l.Nodup)
    (hmem : ∀ k ∈ l, k ∈ tasks) : (l.flatMap ring).length ≤ s.nextTid := by
  have hnd : (l.flatMap ring).Nodup := by
    refine List.nodup_flatMap.mpr ⟨fun j hj => H.nodup (hmem j hj), ?_⟩
    refine hl.pairwise_of_forall_ne fun i hi j hj hne t hti htj => hne ?_
    exact H.disjoint i (hmem i hi) j (hmem j hj) t hti htj
  have hsub : l.flatMap ring ⊆ List.range s.nextTid := by
    intro t ht
    obtain ⟨j, hj, ht⟩ := List.mem_flatMap.mp ht
    exact List.mem_range.mpr (H.lt j (hmem j hj) t ht)
  have := (List.subperm_of_subset hnd hsub).length_le
  rwa [List.length_range] at this

theorem length_taskPlaces_le (l : List Nat) :
    (l.flatMap (taskPlaces s ring)).length ≤ l.length + (l.flatMap ring).length := by
  induction l with
  | nil => exact Nat.le_refl _
  | cons k l ih =>
    simp only [List.flatMap_cons, List.length_append, List.length_cons, taskPlaces, places,
      List.length_map, List.length_tail]
    omega

/-- There are no more tasks on the list than have been created. -/
theorem length_tasks_le (H : TaskRings s tasks ring) : tasks.length ≤ s.nextPid := by
  have hsub : tasks ⊆ List.range s.nextPid := fun k hk => List.mem_range.mpr (H.task_lt k hk)
  have := (List.subperm_of_subset H.taskCycle.nodup hsub).length_le
  rwa [List.length_range] at this

theorem length_lap (H : TaskRings s tasks ring) (hring : ring k = before ++ t :: after)
    (htasks : tasks = js ++ k :: ks) :
    (lap s ring k before after (ks ++ js)).length + 2 ≤ s.nextPid + s.nextTid := by
  have hperm : tasks.Perm (k :: (ks ++ js)) := by
    rw [htasks]
    exact List.perm_middle.trans (.cons k List.perm_append_comm)
  have hthreads :=
    H.length_flatMap_le (hperm.nodup H.taskCycle.nodup) fun j hj => hperm.mem_iff.mpr hj
  have htotal := hperm.length_eq
  have hle := H.length_tasks_le
  have hplaces := @length_taskPlaces_le _ s ring (ks ++ js)
  rw [List.flatMap_cons, hring] at hthreads
  simp only [List.length_append, List.length_cons] at hthreads htotal hplaces
  simp only [lap, places, List.length_append, List.length_map]
  omega

end TaskRings

/-! ## The search -/

section
variable {s : Sched κ} {c : Nat × Option Nat}

theorem schedulerSearch_ready_place {n k t : Nat} (h : (s.thread t).state = .ready) :
    schedulerSearch s (n + 1) (k, some t) = some (k, t) := by
  rw [schedulerSearch, if_pos h]

/-- The search goes from a place that is not ready to the next one, unless it is back at the thread
on the CPU and that one is ready. -/
theorem schedulerSearch_advance {n : Nat} {p : Nat × Option Nat} (hp : readyPlace s p = false)
    (hc : advance s p = (s.taskCurrent, some s.threadCurrent) →
      (s.thread s.threadCurrent).state = .ready) :
    schedulerSearch s (n + 2) p = schedulerSearch s (n + 1) (advance s p) := by
  obtain ⟨k, t⟩ := p
  cases t with
  | none => rfl
  | some t =>
    have hnot : (s.thread t).state ≠ .ready := by simpa [readyPlace] using hp
    rw [schedulerSearch, if_neg hnot]
    simp only [advance] at hc ⊢
    split
    · next e => rw [if_pos (hc e), e, schedulerSearch_ready_place (hc e)]
    · rfl

/-- Along a path to the thread on the CPU the search stops at the first thread that is ready. -/
theorem schedulerSearch_path {n k t : Nat} {p : Nat × Option Nat} {xs : List (Nat × Option Nat)}
    (hc : c = (s.taskCurrent, some s.threadCurrent)) (hp : Path (advance s) p xs c) (hxs : c ∉ xs)
    (hfind : (p :: (xs ++ [c])).find? (readyPlace s) = some (k, some t))
    (hn : xs.length + 2 ≤ n) : schedulerSearch s n p = some (k, t) := by
  obtain ⟨n, rfl⟩ := Nat.exists_eq_add_of_le' hn
  induction xs generalizing p with
  | nil =>
    rw [List.nil_append, List.find?_cons] at hfind
    split at hfind
    · next hready =>
      cases hfind
      exact schedulerSearch_ready_place (readyPlace_some.mp hready)
    · next hready =>
      obtain rfl := List.mem_singleton.mp (List.mem_of_find?_eq_some hfind)
      have hcr : (s.thread t).state = .ready := readyPlace_some.mp (List.find?_some hfind)
      have he : advance s p = (k, some t) := Path.nil_iff.mp hp
      cases hc
      rw [List.length_nil, schedulerSearch_advance hready fun _ => hcr, he]
      exact schedulerSearch_ready_place hcr
  | cons x xs ih =>
    obtain ⟨he, hp⟩ := Path.cons_iff.mp hp
    obtain ⟨hx, hxs⟩ := not_or.mp (List.mem_cons.not.mp hxs)
    rw [List.find?_cons] at hfind
    split at hfind
    · next hready =>
      cases hfind
      exact schedulerSearch_ready_place (readyPlace_some.mp hready)
    · next hready =>
      have hne : advance s p = (s.taskCurrent, some s.threadCurrent) →
          (s.thread s.threadCurrent).state = .ready :=
        fun e => absurd (hc.trans (e.symm.trans he)) hx
      have := @schedulerSearch_advance _ s (n + (xs.length + 1)) p hready hne
      rw [List.length_cons]
      exact this.trans (he ▸ ih hp hxs hfind (Nat.le_add_left _ _))

end

/-- The search of `scheduler_schedule` ends at the first thread that is ready, in cyclic order from
the one after the thread on the CPU up to that thread itself. -/
theorem TaskRings.schedulerFind_eq {s : Sched κ} {tasks : List Nat} {ring : Nat → List Nat}
    (H : TaskRings s tasks ring) {before after ks js : List Nat} {k t : Nat}
    (hring : ring s.taskCurrent = before ++ s.threadCurrent :: after)
    (htasks : tasks = js ++ s.taskCurrent :: ks)
    (hfind : (lap s ring s.taskCurrent before after (ks ++ js) ++
      [(s.taskCurrent, some s.threadCurrent)]).find? (readyPlace s) = some (k, some t)) :
    schedulerFind s = some (k, t) := by
  have hpath := H.lap_path hring htasks
  have hlen := H.length_lap hring htasks
  have hmem := @mem_lap _ s tasks ring _ _ _ _ _ _ H hring htasks s.taskCurrent s.threadCurrent
  have hn : schedulerFind s = schedulerSearch s (s.nextPid + s.nextTid)
    (advance s (s.taskCurrent, some s.threadCurrent)) := rfl
  rw [hn]
  generalize lap s ring s.taskCurrent before after (ks ++ js) = L at hpath hlen hmem hfind
  have hc : (s.taskCurrent, some s.threadCurrent) ∉ L := fun h => (hmem.mp h).2.2 rfl
  cases L with
  | nil =>
    obtain ⟨n, hn⟩ := Nat.exists_eq_add_of_le' hlen
    rw [List.nil_append] at hfind
    have he := List.mem_singleton.mp (List.mem_of_find?_eq_some hfind)
    rw [Path.nil_iff.mp hpath, ← he, hn]
    exact schedulerSearch_ready_place (readyPlace_some.mp (List.find?_some hfind))
  | cons p xs =>
    obtain ⟨he, hpath⟩ := Path.cons_iff.mp hpath
    rw [he]
    refine schedulerSearch_path rfl hpath (fun h => hc (List.mem_cons_of_mem _ h)) hfind ?_
    rw [List.length_cons] at hlen
    omega

/-- If some thread is ready the search ends, at a thread on the list of its task. -/
theorem SchedInv.exists_schedulerFind {s : Sched κ} {ring : Nat → List Nat} (H : SchedInv s ring)
    {u : Nat} (hu : (s.thread u).state = .ready) :
    ∃ k t, schedulerFind s = some (k, t) ∧ t ∈ ring k := by
  have hcurrent := H.current
  have HT := H.toRings.taskRings
  obtain ⟨before, after, hring⟩ := List.append_of_mem hcurrent
  obtain ⟨js, ks, htasks⟩ := List.append_of_mem (List.mem_range.mpr (H.lt_of_mem hcurrent))
  obtain ⟨j, hj⟩ := H.alive u (by rw [hu]; nofun)
  have hmem {i v : Nat} :
      (i, some v) ∈ TaskRings.lap s ring s.taskCurrent before after (ks ++ js) ++
        [(s.taskCurrent, some s.threadCurrent)] ↔ v ∈ ring i := by
    have hlt : v ∈ ring i → i ∈ List.range s.nextPid :=
      fun hv => List.mem_range.mpr (H.lt_of_mem hv)
    rw [List.mem_append, HT.mem_lap hring htasks, List.mem_singleton]
    grind
  obtain ⟨⟨k, t⟩, hfind⟩ := Option.isSome_iff_exists.mp (List.find?_isSome.mpr
    ⟨(j, some u), hmem.mpr hj, readyPlace_some.mpr hu⟩)
  cases t with
  | none => cases List.find?_some hfind
  | some t =>
    refine ⟨k, t, HT.schedulerFind_eq hring htasks hfind, ?_⟩
    exact hmem.mp (List.mem_of_find?_eq_some hfind)

end Plos
