import Plos.Scheduling.RingSteps

/-! The choice of `scheduler_schedule`.

On every state with well-formed lists of tasks and threads the search ends and takes the first
thread that is ready, in the cyclic order that starts after the thread on the CPU
(`searchOrder`). -/

namespace Plos

variable {κ : Type u}

/-- The thread is ready once the thread on the CPU is paused. -/
def Sched.ReadyPaused (s : Sched κ) (t : Nat) : Prop :=
  (s.thread t).state = .ready ∨ t = s.threadCurrent ∧ (s.thread t).state = .running

instance Sched.ReadyPaused.decidable (s : Sched κ) (t : Nat) : Decidable (s.ReadyPaused t) :=
  inferInstanceAs (Decidable (_ ∨ _))

/-- The threads in cyclic order from the one after the thread `t` of the task `k`, whose list is
`before ++ t :: after`: the rest of that list, the lists of the following tasks, and the list of `k`
from its head up to `t`. -/
def searchOrder (ring : Nat → List Nat) (k t : Nat) (before after others : List Nat) :
    List (Nat × Nat) :=
  after.map (k, ·) ++ (others.flatMap (fun j => (ring j).map (j, ·)) ++ (before ++ [t]).map (k, ·))

section
variable {s : Sched κ} {ring : Nat → List Nat} {k t : Nat}

/-- The place of a thread of a task. -/
def placeOf (p : Nat × Nat) : Nat × Option Nat := (p.1, some p.2)

def readyThread (s : Sched κ) (p : Nat × Nat) : Bool := (s.thread p.2).state = .ready

theorem find_places (l : List Nat) :
    (places k l).find? (readyPlace s) = ((l.map (k, ·)).find? (readyThread s)).map placeOf := by
  induction l with
  | nil => rfl
  | cons t l ih =>
    simp only [places, List.map_cons, List.find?_cons] at ih ⊢
    cases hst : readyThread s (k, t) with
    | true =>
      have hplace : readyPlace s (k, some t) = true := hst
      rw [hplace]
      rfl
    | false =>
      have hplace : readyPlace s (k, some t) = false := hst
      rw [hplace]
      exact ih

/-- The place where a task without threads is skipped is not ready. -/
theorem find_taskPlaces (h : (s.task k).threads = (ring k).head?) :
    (taskPlaces s ring k).find? (readyPlace s) =
    (((ring k).map (k, ·)).find? (readyThread s)).map placeOf := by
  rw [← find_places, taskPlaces, entry, h]
  cases ring k with
  | nil => rfl
  | cons head ts => rfl

theorem find_flatMap_taskPlaces {ks : List Nat}
    (h : ∀ k ∈ ks, (s.task k).threads = (ring k).head?) :
    (ks.flatMap (taskPlaces s ring)).find? (readyPlace s) =
      ((ks.flatMap fun j => (ring j).map (j, ·)).find? (readyThread s)).map placeOf := by
  induction ks with
  | nil => rfl
  | cons k ks ih =>
    obtain ⟨hk, hks⟩ := List.forall_mem_cons.mp h
    rw [List.flatMap_cons, List.flatMap_cons, List.find?_append, List.find?_append,
      find_taskPlaces hk, ih hks, Option.map_or]

/-- The search looks at the threads in cyclic order. -/
theorem find_lap {before after others : List Nat}
    (h : ∀ k ∈ others, (s.task k).threads = (ring k).head?) :
    (TaskRings.lap s ring k before after others ++ [(k, some t)]).find? (readyPlace s) =
      ((searchOrder ring k t before after others).find? (readyThread s)).map placeOf := by
  have hlast : [(k, some t)] = places k [t] := rfl
  have hplaces : places k before ++ places k [t] = places k (before ++ [t]) := by simp [places]
  rw [TaskRings.lap, hlast, List.append_assoc, List.append_assoc, hplaces, searchOrder]
  simp only [List.find?_append, find_places, find_flatMap_taskPlaces h, Option.map_or]

theorem TaskRings.congr {r : Sched κ} {tasks : List Nat} (H : TaskRings s tasks ring)
    (hids : s.SameIds r) (htask : r.task = s.task)
    (hnext : ∀ t, (r.thread t).next = (s.thread t).next) : TaskRings r tasks ring where
  taskCycle := by rw [htask]; exact H.taskCycle
  taskList := by rw [hids.taskList]; exact H.taskList
  threads := by rw [htask]; exact H.threads
  cycle k hk hne := (H.cycle k hk hne).congr fun t _ => hnext t
  task_lt := by rw [hids.nextPid]; exact H.task_lt
  lt := by rw [hids.nextTid]; exact H.lt
  disjoint := H.disjoint

/-- The pause saves the registers of the thread on the CPU, and makes it ready if it was running. -/
theorem schedulerPause_apply (status : κ) (x : Nat) : (schedulerPause s status).thread x =
    { s.thread x with
      context := if x = s.threadCurrent then status else (s.thread x).context
      state :=
  if x = s.threadCurrent ∧ (s.thread x).state = .running then .ready else (s.thread x).state } := by
  rcases eq_or_ne x s.threadCurrent with rfl | hne
  · rw [schedulerPause_current]
    simp
  · rw [schedulerPause_of_ne hne]
    simp [hne]

theorem readyThread_pause (status : κ) : readyThread (schedulerPause s status) =
    fun p : Nat × Nat => decide (s.ReadyPaused p.2) := by
  funext p
  refine decide_eq_decide.mpr ?_
  simp only [schedulerPause_apply]
  split
  · next h => exact iff_of_true rfl (.inr h)
  · next h => exact ⟨.inl, fun hr => hr.resolve_right h⟩

theorem schedulerPause_task (status : κ) : (schedulerPause s status).task = s.task := by
  unfold schedulerPause
  split <;> rfl

theorem TaskRings.pause {tasks : List Nat} (H : TaskRings s tasks ring) (status : κ) :
    TaskRings (schedulerPause s status) tasks ring :=
  H.congr schedulerPause_ids (schedulerPause_task status) fun t => by rw [schedulerPause_apply]

theorem mem_searchOrder {before after others : List Nat} {j u : Nat}
    (hring : ring k = before ++ t :: after) (hj : j ∈ others ∨ j = k) (hu : u ∈ ring j) :
    (j, u) ∈ searchOrder ring k t before after others := by
  rw [searchOrder, List.mem_append, List.mem_append]
  rcases hj with hj | rfl
  · exact .inr (.inl (List.mem_flatMap.mpr ⟨j, hj, List.mem_map_of_mem hu⟩))
  · rw [hring, List.mem_append, List.mem_cons] at hu
    rcases hu with hu | rfl | hu
    · exact .inr (.inr (List.mem_map_of_mem (List.mem_append_left _ hu)))
    · exact .inr (.inr (List.mem_map_of_mem (List.mem_append_right _ (List.mem_singleton_self _))))
    · exact .inl (List.mem_map_of_mem hu)

end

/-- For well-formed lists of tasks and threads, whatever the states of the threads are: if a thread
is ready once the thread on the CPU is paused, `scheduler_schedule` ends and takes the first such
thread in cyclic order. It saves the registers in the old thread, marks the chosen one as running
and changes nothing else. -/
theorem schedulerSchedule_roundRobin {s : Sched κ} {status : κ}
    {tasks js ks before after : List Nat} {ring : Nat → List Nat} (H : TaskRings s tasks ring)
    (htasks : tasks = js ++ s.taskCurrent :: ks)
    (hring : ring s.taskCurrent = before ++ s.threadCurrent :: after)
    (hready : ∃ k ∈ tasks, ∃ t ∈ ring k, s.ReadyPaused t) :
    ∃ k t r, (searchOrder ring s.taskCurrent s.threadCurrent before after (ks ++ js)).find?
        (fun p => s.ReadyPaused p.2) = some (k, t) ∧
      schedulerSchedule s status =
        some (r, if t = s.threadCurrent then status else (s.thread t).context) ∧
      r.taskCurrent = k ∧ r.threadCurrent = t ∧ r.task = s.task ∧ r.taskList = s.taskList ∧
      r.nextPid = s.nextPid ∧ r.nextTid = s.nextTid ∧
      ∀ x, r.thread x = { s.thread x with
        context := if x = s.threadCurrent then status else (s.thread x).context
        state := if x = t then .running
          else if x = s.threadCurrent ∧ (s.thread x).state = .running then .ready
          else (s.thread x).state } := by
  obtain ⟨j, hj, u, hu, hur⟩ := hready
  have Hp := H.pause status
  have hids : s.SameIds (schedulerPause s status) := schedulerPause_ids
  have hmem : (j, u) ∈ searchOrder ring s.taskCurrent s.threadCurrent before after (ks ++ js) := by
    refine mem_searchOrder hring ?_ hu
    rw [H.mem_others htasks, or_comm]
    exact (eq_or_ne j s.taskCurrent).imp_right fun hne => ⟨hj, hne⟩
  have hsome : ((searchOrder ring s.taskCurrent s.threadCurrent before after (ks ++ js)).find?
      fun p => s.ReadyPaused p.2).isSome := List.find?_isSome.mpr ⟨(j, u), hmem, decide_eq_true hur⟩
  obtain ⟨⟨k, t⟩, hfind⟩ := Option.isSome_iff_exists.mp hsome
  have hplace :=
    @find_lap _ (schedulerPause s status) ring s.taskCurrent s.threadCurrent before after (ks ++ js)
      fun i hi => Hp.threads i ((H.mem_others htasks).mp hi).1
  rw [readyThread_pause, hfind] at hplace
  have hsearch : schedulerFind (schedulerPause s status) = some (k, t) := by
    rw [← hids.taskCurrent, ← hids.threadCurrent] at hring hplace
    rw [← hids.taskCurrent] at htasks
    exact Hp.schedulerFind_eq hring htasks hplace
  refine ⟨k, t, schedulerSwitch (schedulerPause s status) k t, hfind, ?_, rfl, rfl,
    schedulerPause_task status, hids.taskList, hids.nextPid, hids.nextTid, fun x => ?_⟩
  · simp only [schedulerSchedule, hsearch, schedulerPause_apply]
  · rw [schedulerSwitch, Sched.setState_apply]
    split
    · next hx =>
      subst hx
      exact congrArg (fun th : Thread κ => { th with state := .running })
        (schedulerPause_apply status x)
    · exact schedulerPause_apply status x

/-- The idle task with the idle thread, a task without threads, and a task with a thread that is
ready. -/
def threeTasks : Option (Sched Unit) :=
  ((taskCreate (schedulerInit ())).bind taskCreate).bind fun s => taskCreateThread s 2 ()

/-- The search skips the task without threads. -/
theorem schedulerSchedule_roundRobin_three :
    ∃ s r, threeTasks = some s ∧ schedulerSchedule s () = some (r, ()) ∧ r.taskCurrent = 2 ∧
      r.threadCurrent = 1 := by
  have h₁ : taskCreate (schedulerInit ()) = some _ := rfl
  have h₂ : ((taskCreate (schedulerInit ())).bind taskCreate) = some _ := rfl
  have h₃ : threeTasks = some _ := rfl
  have H :=
    (((SchedInv.init ()).taskCreate h₁).taskCreate h₂).taskCreateThread (k := 2) (by decide) h₃
  obtain ⟨k, t, r, hfind, hs, hk, ht, -⟩ := @schedulerSchedule_roundRobin _ _ () _ [] [1, 2] [] [] _
    H.toRings.taskRings rfl rfl ⟨2, by decide, 1, by decide, .inl rfl⟩
  have hchoice : some (k, t) = some (2, 1) := hfind.symm.trans rfl
  cases hchoice
  exact ⟨_, r, h₃, hs, hk, ht⟩

end Plos
