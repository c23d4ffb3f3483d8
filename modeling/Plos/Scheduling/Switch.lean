import Plos.Scheduling.Reaper
import Plos.Scheduling.RoundRobin
import Plos.Scheduling.MutexProtocol

/-! What the scheduler does to the saved registers, on well-formed lists and whatever the states of
the threads are.

Every function but the scheduler leaves the saved registers of the threads and the thread on the CPU
alone. The scheduler saves the registers of the thread on the CPU and loads those of one that is on
the lists (`Switched`). -/

namespace Plos

variable {κ : Type u} {s r q : Sched κ} {ring : Nat → List Nat}

/-- The lists are well formed, and the thread on the CPU is on the list of its task. -/
structure OnLists (s : Sched κ) (ring : Nat → List Nat) : Prop extends Rings s ring where
  current : s.threadCurrent ∈ ring s.taskCurrent

namespace OnLists

theorem init (status : κ) : OnLists (schedulerInit status) (Function.update (fun _ => []) 0 [0]) :=
  have H := SchedInv.init status
  ⟨H.toRings, H.current⟩

theorem congr (H : OnLists s ring) (hids : s.SameIds r) (htask : r.task = s.task)
    (hnext : ∀ t, (r.thread t).next = (s.thread t).next) : OnLists r ring := by
  refine ⟨H.toRings.congr hids htask hnext, ?_⟩
  rw [hids.threadCurrent, hids.taskCurrent]
  exact H.current

theorem setThread (H : OnLists s ring) {t : Nat} {th : Thread κ}
    (hnext : th.next = (s.thread t).next) : OnLists (s.setThread t th) ring := by
  refine H.congr ⟨rfl, rfl, rfl, rfl, rfl⟩ rfl fun x => ?_
  rw [Sched.setThread_apply]
  split
  · next e => rw [hnext, e]
  · rfl

theorem setState (H : OnLists s ring) (t : Nat) (st : ThreadState) :
    OnLists (s.setState t st) ring := H.setThread rfl

theorem setWaiter (H : OnLists s ring) (t : Nat) (w : Option Nat) :
    OnLists (s.setThread t { s.thread t with nextWaiter := w }) ring := H.setThread rfl

theorem mutexAcquire (H : OnLists s ring) (m : Mutex) : OnLists (mutexAcquire s m).1 ring := by
  simp only [Plos.mutexAcquire]
  split
  · exact H
  · split
    · exact (H.setWaiter _ _).setState _ _
    · exact ((H.setWaiter _ _).setWaiter _ _).setState _ _

theorem mutexRelease (H : OnLists s ring) (m : Mutex) : OnLists (mutexRelease s m).1 ring := by
  unfold Plos.mutexRelease
  split
  · exact H
  · exact H.setState _ _

theorem threadSleep (H : OnLists s ring) (now ms : Nat) : OnLists (threadSleep s now ms) ring :=
  H.setThread rfl

theorem ticked (H : OnLists s ring) (hT : Ticked s r) : OnLists r ring :=
  H.congr hT.ids hT.task hT.next

theorem taskCreate (H : OnLists s ring) (h : taskCreate s = some r) : OnLists r ring := by
  obtain ⟨-, hcur, -⟩ := taskCreate_some h
  obtain ⟨-, -, -, -, htask, -⟩ := taskCreate_links h
  refine ⟨H.toRings.taskCreate h, ?_⟩
  rw [hcur, htask]
  exact H.current

theorem taskCreateThread (H : OnLists s ring) {k : Nat} {entry : κ} (hk : k < s.nextPid)
    (h : taskCreateThread s k entry = some r) :
    OnLists r (Function.update ring k (ring k ++ [s.nextTid])) := by
  obtain ⟨hcur, -⟩ := taskCreateThread_some h
  obtain ⟨-, -, htask, -⟩ := taskCreateThread_links h
  refine ⟨H.toRings.taskCreateThread hk h, ?_⟩
  rw [hcur, htask, Function.update_apply]
  split
  · next e => exact List.mem_append_left _ (e ▸ H.current)
  · exact H.current

/-- The reaper takes a zombie off its list, or nothing. -/
theorem kernelIdleScan (H : OnLists s ring) {found : Option Nat}
    (hcurrent : (s.thread s.threadCurrent).state ≠ .zombie)
    (h : kernelIdleScan s = some (r, found)) :
    OnLists r (reapedRings ring found) ∧ ∀ z, found = some z → (s.thread z).state = .zombie ∧
    ∃ k, z ∈ ring k := by
  rcases H.toRings.taskRings.kernelIdleScan_cases with ⟨hscan, -⟩ | ⟨r', z, hscan, hreaps, -⟩
  · cases hscan.symm.trans h
    exact ⟨H, by simp⟩
  · cases hscan.symm.trans h
    obtain ⟨k, hk, hz, hzz, HT, hids, hcore⟩ := hreaps
    have hk := List.mem_range.mp hk
    rw [← hids.nextPid] at HT
    have HR := HT.rings (hids.taskList.trans H.taskList)
      (H.sorted_update ((H.sorted k).sublist List.erase_sublist)) fun j hj =>
        H.beyond_update hk (hids.nextPid ▸ hj)
    rw [H.toRings.update_erase hz] at HR
    refine ⟨⟨HR, ?_⟩, ?_⟩
    · rw [hids.threadCurrent, hids.taskCurrent]
      refine (List.mem_erase_of_ne ?_).mpr H.current
      rintro rfl
      exact hcurrent hzz
    · rintro _ ⟨⟩
      exact ⟨hzz, k, hz⟩

/-! ## The search -/

/-- The place after a place on the lists is on the lists. -/
theorem searchNext_mem (H : Rings s ring) {k t : Nat} (ht : t ∈ ring k) {p : Nat × Option Nat}
    (hp : searchNext s k t = p) : p.1 < s.nextPid ∧ ∀ u, p.2 = some u → u ∈ ring p.1 := by
  have hk := H.lt_of_mem ht
  rw [searchNext] at hp
  split at hp
  · subst hp
    have hnext := List.mem_range.mp (H.tasks.mem_succ (List.mem_range.mpr hk))
    refine ⟨hnext, fun u hu => ?_⟩
    rw [H.threads _ hnext] at hu
    exact List.mem_of_head? hu
  · subst hp
    refine ⟨hk, ?_⟩
    rintro u ⟨⟩
    exact (H.cycle k (List.ne_nil_of_mem ht)).mem_succ ht

theorem schedulerSearch_mem (H : OnLists s ring) {n k t : Nat} {p : Nat × Option Nat}
    (hk : p.1 < s.nextPid) (hp : ∀ u, p.2 = some u → u ∈ ring p.1)
    (h : schedulerSearch s n p = some (k, t)) : t ∈ ring k := by
  have hentry {j : Nat} (hj : j < s.nextPid) : ∀ u, (s.task j).threads = some u → u ∈ ring j := by
    intro u hu
    rw [H.threads j hj] at hu
    exact List.mem_of_head? hu
  induction n generalizing p with
  | zero => cases h
  | succ n ih =>
    obtain ⟨j, u⟩ := p
    cases u with
    | none =>
      have hnext := List.mem_range.mp (H.tasks.mem_succ (List.mem_range.mpr hk))
      exact ih hnext (hentry hnext) h
    | some u =>
      have hu : u ∈ ring j := hp u rfl
      simp only [schedulerSearch] at h
      obtain ⟨hplace, hmem⟩ := searchNext_mem H.toRings hu rfl
      split at h
      · cases h
        exact hu
      · split at h
        · split at h
          · cases h
            exact H.current
          · refine ih ?_ ?_ h
            · rw [H.taskList]
              exact (Nat.zero_le _).trans_lt hk
            · exact hentry (H.taskList ▸ (Nat.zero_le _).trans_lt hk)
        · exact ih hplace hmem h

theorem pause (H : OnLists s ring) (status : κ) : OnLists (schedulerPause s status) ring :=
  H.congr schedulerPause_ids (schedulerPause_task status) fun t => by rw [schedulerPause_apply]

theorem schedule (H : OnLists s ring) {status next : κ}
    (h : schedulerSchedule s status = some (r, next)) :
    OnLists r ring := by
  obtain ⟨k, t, hfind, -, rfl, -⟩ := schedulerSchedule_some h
  have Hp := H.pause status
  obtain ⟨hplace, hmem⟩ := searchNext_mem Hp.toRings Hp.current rfl
  have ht : t ∈ ring k := Hp.schedulerSearch_mem hplace hmem hfind
  refine ⟨⟨Hp.tasks, Hp.taskList, Hp.threads, fun j hj => ?_, Hp.beyond, Hp.lt, Hp.sorted,
    Hp.disjoint⟩, ht⟩
  refine (Hp.cycle j hj).congr fun x _ => ?_
  rw [schedulerSwitch, Sched.setState_apply]
  split
  · next e => rw [e]
  · rfl

end OnLists

/-! ## The saved registers -/

/-- `status` has been saved for the thread that was on the CPU, and `next` is what was saved for the
one that is. -/
structure Switched (s : Sched κ) (status : κ) (r : Sched κ) (next : κ) : Prop where
  next : next = if r.threadCurrent = s.threadCurrent then status
    else (s.thread r.threadCurrent).context
  context : ∀ t ≠ r.threadCurrent,
    (r.thread t).context = if t = s.threadCurrent then status else (s.thread t).context
  zombie : ∀ t, (r.thread t).state = .zombie ↔ (s.thread t).state = .zombie
  nextTid : r.nextTid = s.nextTid

namespace Switched

variable {status next : κ}

theorem of_ticked (hT : Ticked s r) : Switched s status r status where
  next := (if_pos hT.ids.threadCurrent).symm
  context t ht := by
    rw [hT.ids.threadCurrent] at ht
    rw [if_neg ht, hT.context]
  zombie := hT.state_iff .zombie (by simp) (by simp)
  nextTid := hT.ids.nextTid

theorem of_schedule (hT : Ticked s r) (h : schedulerSchedule r status = some (q, next)) :
    Switched s status q next := by
  have hzombie (x : Nat) : (q.thread x).state = .zombie ↔ (r.thread x).state = .zombie :=
    schedulerSchedule_state h (by simp) (by simp) x
  obtain ⟨k, t, -, -, rfl, rfl⟩ := schedulerSchedule_some h
  refine ⟨?_, fun x _ => ?_, fun x =>
    (hzombie x).trans (hT.state_iff .zombie (by simp) (by simp) x), ?_⟩
  · rw [schedulerPause_context, hT.ids.threadCurrent, hT.context]
    rfl
  · rw [schedulerSwitch_context, schedulerPause_context, hT.ids.threadCurrent, hT.context]
  · exact (@schedulerPause_ids _ r status).nextTid.trans hT.ids.nextTid

end Switched

end Plos
