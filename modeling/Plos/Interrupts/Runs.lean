import Plos.Interrupts.Threads

/-! Runs of the threads: what a step does to all threads and to the areas, and what follows for
whole runs.

A thread that does not execute keeps its registers and the words on its stack through any run of the
others, until it is reaped; a thread that has not run yet starts at its entry point, and returns to
`task_current_thread_exit`; and threads take and give back exactly the areas of their own stacks. -/

namespace Plos

/-- Whether a step is a `vmm_alloc` or a `vmm_free` that has nothing to do with threads. -/
def MachineOp.onAreas : MachineOp → Bool
  | .alloc .. | .free _ => true
  | _ => false

section
variable {κ : Type u} {s : Sched κ} {m : Mutex} {t : Nat}

theorem mutexAcquire_zombie (h : ((mutexAcquire s m).1.thread t).state = .zombie) :
    (s.thread t).state = .zombie := by
  simp only [mutexAcquire] at h
  split at h
  · exact h
  · split at h
    all_goals
      rw [Sched.setState_apply] at h
      split at h
      · cases h
      · simp only [Sched.setThread_apply] at h
        grind

theorem mutexRelease_zombie (h : ((mutexRelease s m).1.thread t).state = .zombie) :
    (s.thread t).state = .zombie := by
  rw [mutexRelease_state] at h
  split at h
  · cases h
  · exact h

theorem threadSleep_zombie {now ms : Nat} (h : ((threadSleep s now ms).thread t).state = .zombie) :
    (s.thread t).state = .zombie := by
  rw [threadSleep, Sched.setThread_apply] at h
  split at h
  · cases h
  · exact h

end

namespace ThreadMachine

variable {exitAddr : Nat} {s s' : ThreadMachine} {op : MachineOp} {t : Nat}

/-- The thread executes its own code in this step. -/
def Executes (s : ThreadMachine) (op : MachineOp) (t : Nat) : Prop :=
  t = s.sched.threadCurrent ∧ ∃ cpu stores, op = .exec cpu stores

/-- An area that is not the stack of a thread. -/
def Apart (s : ThreadMachine) (a : VmArea) : Prop :=
  a ∈ s.regions ∧ ∀ t, s.Lives t → t ≠ 0 → s.stack t ≠ a

/-- What a step does to all threads and areas. -/
structure Stepped (s : ThreadMachine) (op : MachineOp) (s' : ThreadMachine) : Prop where
  inv : s'.Inv
  keeps : ∀ t, s.Lives t → ¬ s.Executes op t → s.Keeps s' t
  lives : ∀ t, s'.Lives t → s.Lives t ∨ t = s.sched.nextTid
  nextTid : s.sched.nextTid ≤ s'.sched.nextTid
  apart : op.onAreas = false → ∀ a, s'.Apart a ↔ s.Apart a

namespace Stepped

/-- A step that neither creates nor reaps threads and leaves the areas alone. -/
theorem of_same (hinv : s'.Inv) (hkeeps : ∀ t, s.Lives t → ¬ s.Executes op t → s.Keeps s' t)
    (hthreads : s'.threads = s.threads) (hstack : s'.stack = s.stack)
    (hregions : s'.regions = s.regions) (hnextTid : s'.sched.nextTid = s.sched.nextTid) :
    s.Stepped op s' where
  inv := hinv
  keeps := hkeeps
  lives t ht := .inl (by rwa [Lives, hthreads] at ht)
  nextTid := hnextTid.ge
  apart _ a := by rw [Apart, Apart, hregions, hstack]; simp only [Lives, hthreads]

/-- A section of the kernel. -/
theorem of_sections (H : s.Inv) {sched : Sched Nat} (mutex : Mutex)
    (hlists : OnLists sched s.threads) (hsame : s.sched.SameContexts sched)
    (hzombie : ∀ t, (sched.thread t).state = .zombie → (s.sched.thread t).state = .zombie ∨ t ≠ 0 ∧
      t = s.sched.threadCurrent ∧ s.cpu.rsp < (s.stack t).limit) :
    s.Stepped op { s with sched, mutex } := by
  obtain ⟨H', hkeeps⟩ := H.sections mutex hlists hsame hzombie
  exact of_same H' (fun t _ _ => hkeeps t) rfl rfl rfl hsame.nextTid

theorem of_created (H : s.Inv) {entryPoint : Nat} (H' : s'.Inv)
    (hkeeps : ∀ t, s.Lives t → s.Keeps s' t) (hcreated : Inv.Created exitAddr entryPoint s s') :
    s.Stepped op s' := by
  refine ⟨H', fun t ht _ => hkeeps t ht, fun t => (hcreated.lives t).mp, ?_, fun _ a => ?_⟩
  · obtain ⟨k, hk⟩ := (hcreated.lives s.sched.nextTid).mpr (.inr rfl)
    exact (H'.lists.lt k _ hk).le
  · obtain ⟨hnew, hregions⟩ := hcreated.area
    constructor
    · rintro ⟨ha, hno⟩
      have hne : s'.stack s.sched.nextTid ≠ a := by
        refine hno _ ((hcreated.lives _).mpr (.inr rfl)) ?_
        exact ((Nat.zero_le _).trans_lt (H.lists.lt _ _ H.lists.current)).ne'
      refine ⟨((hregions a).mp ha).resolve_right hne.symm, fun t ht ht0 => ?_⟩
      rw [← (hkeeps t ht).stack]
      exact hno t ((hcreated.lives t).mpr (.inl ht)) ht0
    · rintro ⟨ha, hno⟩
      refine ⟨(hregions a).mpr (.inl ha), fun t ht ht0 => ?_⟩
      rcases (hcreated.lives t).mp ht with ht | rfl
      · rw [(hkeeps t ht).stack]
        exact hno t ht ht0
      · rintro rfl
        exact hnew ha

theorem of_reaped (H : s.Inv) (H' : s'.Inv) (hkeeps : ∀ t, s.Lives t → s.Keeps s' t)
    (hstack : s'.stack = s.stack) (hnextTid : s'.sched.nextTid = s.sched.nextTid)
    (hreaped : Inv.Reaped s s') : s.Stepped op s' := by
  rcases hreaped with ⟨hlives, hregions⟩ | ⟨z, hz, hzombie, hlives, hregions⟩
  · refine ⟨H', fun t ht _ => hkeeps t ht, fun t ht => .inl ((hlives t).mp ht), hnextTid.ge,
      fun _ a => ?_⟩
    rw [Apart, Apart, hregions, hstack]
    simp only [hlives]
  · have hz0 : z ≠ 0 := by
      rintro rfl
      exact H.idle hzombie
    refine ⟨H', fun t ht _ => hkeeps t ht, fun t ht => .inl ((hlives t).mp ht).1, hnextTid.ge,
      fun _ a => ?_⟩
    rw [Apart, Apart, hregions, hstack, H.areas.nodup.mem_erase_iff]
    simp only [hlives]
    constructor
    · rintro ⟨⟨hne, ha⟩, hno⟩
      refine ⟨ha, fun t ht ht0 => ?_⟩
      rcases eq_or_ne t z with rfl | htz
      · exact hne.symm
      · exact hno t ⟨ht, htz⟩ ht0
    · rintro ⟨ha, hno⟩
      exact ⟨⟨(hno z hz hz0).symm, ha⟩, fun t ht => hno t ht.1⟩

theorem of_regions {regions : List VmArea} (hop : op.onAreas = true)
    (h : ({ s with regions } : ThreadMachine).Inv ∧ ∀ t, s.Keeps { s with regions } t) :
    s.Stepped op { s with regions } :=
  ⟨h.1, fun t _ _ => h.2 t, fun _ => .inl, Nat.le_refl _, fun hno =>
    absurd (hop.symm.trans hno) (by decide)⟩

end Stepped

/-- One step of the machine. -/
theorem Inv.stepped (H : s.Inv) (hop : s.Behaves op) (h : s.step exitAddr op = some s') :
    s.Stepped op s' := by
  cases op with
  | exec cpu stores =>
    cases h
    obtain ⟨H', hkeeps⟩ := H.exec hop
    refine .of_same H' (fun t ht hno => hkeeps t ht ?_) rfl rfl rfl rfl
    rintro rfl
    exact hno ⟨rfl, cpu, stores, rfl⟩
  | interrupt vector error now scratch left =>
    have hstack : s'.stack = s.stack := by
      have h : s.interrupt vector error now scratch left = some s' := h
      simp only [ThreadMachine.interrupt] at h
      split at h
      · cases h
      · cases h
        rfl
    obtain ⟨H', hkeeps, hthreads, hregions, htid⟩ := H.interrupt hop h
    exact .of_same H' (fun t ht _ => hkeeps t ht) hthreads hstack hregions htid
  | acquire =>
    cases h
    exact .of_sections H _ (H.lists.mutexAcquire _) (.of_mutexAcquire _) fun t ht =>
      .inl (mutexAcquire_zombie ht)
  | release =>
    cases h
    exact .of_sections H _ (H.lists.mutexRelease _) (.of_mutexRelease _) fun t ht =>
      .inl (mutexRelease_zombie ht)
  | sleep now ms =>
    cases h
    exact .of_sections H s.mutex (H.lists.threadSleep _ _) (.setThread rfl) fun t ht =>
      .inl (threadSleep_zombie ht)
  | exit =>
    cases h
    refine .of_sections H s.mutex (H.lists.setState _ _) (.setState _ _) fun t ht => ?_
    rw [taskCurrentThreadExit, Sched.setState_apply] at ht
    split at ht
    · next e => exact .inr ⟨e ▸ hop.1, e, e ▸ hop.2⟩
    · exact .inl ht
  | createTask =>
    obtain ⟨sched, hr, rfl⟩ := Option.map_eq_some_iff.mp h
    obtain ⟨hthread, hcur, htid⟩ := taskCreate_some hr
    exact .of_sections H s.mutex (H.lists.taskCreate hr) ⟨hcur, htid, fun t => by rw [hthread]⟩
      fun t ht =>
      .inl (hthread ▸ ht)
  | createThread task entryPoint threadOk areaOk =>
    obtain ⟨hk, h⟩ := Option.ite_none_right_eq_some.mp h
    obtain ⟨H', hkeeps, rfl | hcreated⟩ := H.createThread hk hop h
    · exact .of_same H (fun t ht _ => hkeeps t ht) rfl rfl rfl rfl
    · exact .of_created H H' hkeeps hcreated
  | reap =>
    obtain ⟨hidle, h⟩ := Option.ite_none_right_eq_some.mp h
    obtain ⟨H', hkeeps, hreaped⟩ := H.reap hidle h
    have hsame : s'.stack = s.stack ∧ s'.sched.nextTid = s.sched.nextTid := by
      unfold ThreadMachine.reap at h
      split at h
      · cases h
      all_goals
        next hscan =>
          cases h
          exact ⟨rfl, (reapTasks_some hscan).1.nextTid⟩
    exact .of_reaped H H' hkeeps hsame.1 hsame.2 hreaped
  | alloc size flags kmallocOk =>
    obtain ⟨regions, hr, rfl⟩ := Option.map_eq_some_iff.mp h
    exact .of_regions rfl (H.alloc hop.1 (hop.2 regions hr) hr)
  | free addr =>
    obtain ⟨regions, hr, rfl⟩ := Option.map_eq_some_iff.mp h
    exact .of_regions rfl (H.free hop hr)

/-! ## Runs -/

/-- The machine comes to this state from its start in some run in which the threads behave. -/
def Reached (exitAddr : Nat) (s : ThreadMachine) : Prop :=
  ∃ bootStack cpu mem ops, bootStack.limit ≤ vmmKernelStart ∧ bootStack.Room cpu.rsp ∧
    AllSteps (step exitAddr) Behaves (init bootStack cpu mem) ops ∧
    runFrom (step exitAddr) (init bootStack cpu mem) ops = some s

/-- In the beginning there is only the idle thread. -/
theorem lives_init {bootStack : VmArea} {cpu : Cpu} {mem : Nat → Nat}
    (h : (init bootStack cpu mem).Lives t) : t = 0 := by
  obtain ⟨k, hk⟩ := h
  simp only [init, Function.update_apply] at hk
  split at hk
  · exact List.mem_singleton.mp hk
  · cases hk

theorem inv_init {bootStack : VmArea} {cpu : Cpu} (mem : Nat → Nat)
    (hboot : bootStack.limit ≤ vmmKernelStart) (hroom : bootStack.Room cpu.rsp) :
    (init bootStack cpu mem).Inv where
  lists := .init 0
  areas := ⟨.nil, by simp [init], by simp [init], .nil⟩
  window a ha := by cases ha
  limits a ha := by cases ha
  idle h := by cases h
  boot := hboot
  stackArea t ht ht0 := absurd (lives_init ht) ht0
  distinct t u ht _ ht0 := absurd (lives_init ht) ht0
  placed t ht := by
    obtain rfl := lives_init ht
    exact ⟨hroom, fun hne => absurd rfl hne, fun h => by cases h⟩

theorem Inv.run {ops : List MachineOp} (H : s.Inv) (hsteps : AllSteps (step exitAddr) Behaves s ops)
    (h : runFrom (step exitAddr) s ops = some s') : s'.Inv :=
  (Along.of_allSteps (fun _ _ _ H hop h => (H.stepped hop h).inv) H hsteps).last h

theorem Reached.inv (h : Reached exitAddr s) : s.Inv := by
  obtain ⟨bootStack, cpu, mem, ops, hboot, hroom, hsteps, hrun⟩ := h
  exact (inv_init mem hboot hroom).run hsteps hrun

/-- A thread that does not execute is left alone. Its number is not given to another thread, so if
it still lives in the end it has lived all the time. -/
theorem Inv.run_keeps {ops : List MachineOp} (H : s.Inv) (ht : s.Lives t)
    (hsteps : AllSteps (step exitAddr) (fun s op => s.Behaves op ∧ ¬ s.Executes op t) s ops)
    (h : runFrom (step exitAddr) s ops = some s') : s'.Inv ∧ (s'.Lives t → s.Keeps s' t) := by
  have hlt : t < s.sched.nextTid := by
    obtain ⟨k, hk⟩ := ht
    exact H.lists.lt k t hk
  have hrun :=
    Along.of_allSteps (P := fun m => m.Inv ∧ t < m.sched.nextTid ∧ (m.Lives t → s.Keeps m t))
      (fun m op m' hm hop hstep => ?_) ⟨H, hlt, fun _ => .refl s t⟩ hsteps
  · obtain ⟨H', -, hkeeps⟩ := hrun.last h
    exact ⟨H', hkeeps⟩
  · obtain ⟨Hm, hltm, hkeeps⟩ := hm
    have S := Hm.stepped hop.1 hstep
    refine ⟨S.inv, hltm.trans_le S.nextTid, fun hlives => ?_⟩
    have hlivesm : m.Lives t := (S.lives t hlives).resolve_right hltm.ne
    exact (hkeeps hlivesm).trans (S.keeps t hlivesm hop.2)

/-- Threads do not notice each other: while a thread does not execute, any run of the other threads,
of interrupts and of the kernel leaves it its stack, its registers and the words on its stack. When
it has the CPU again, it goes on with the registers that it had. -/
theorem thread_resumes {ops : List MachineOp} (hs : Reached exitAddr s) (ht : s.Lives t)
    (hsteps : AllSteps (step exitAddr) (fun s op => s.Behaves op ∧ ¬ s.Executes op t) s ops)
    (hrun : runFrom (step exitAddr) s ops = some s') :
    (s'.Lives t → s'.stack t = s.stack t ∧ s'.registers t = s.registers t ∧
      ∀ a, (s.registers t).rsp ≤ a → a < (s.stack t).limit → s'.mem a = s.mem a) ∧
    (s'.sched.threadCurrent = t → s'.cpu = s.registers t) := by
  obtain ⟨H', hkeeps⟩ := hs.inv.run_keeps ht hsteps hrun
  refine ⟨fun hlives => ⟨(hkeeps hlives).stack, (hkeeps hlives).registers, (hkeeps hlives).words⟩,
    ?_⟩
  rintro rfl
  rw [← (hkeeps H'.current_lives).registers, registers_current]

/-- A kernel at its start, on a stack that the bootloader has left it. -/
def booted : ThreadMachine :=
  init ⟨0xFFFF800000010000, 0x10000, 0⟩
    ⟨fun _ => 0, 0xFFFFFFFF80000000, 8, 0x202, 0xFFFF80000001FF00, 16⟩ fun _ => 0

def bootedAfter (ops : List MachineOp) : ThreadMachine :=
  (runFrom (step 0x5000) booted ops).getD booted

theorem run_bootedAfter {ops : List MachineOp} (h : (runFrom (step 0x5000) booted ops).isSome) :
    runFrom (step 0x5000) booted ops = some (bootedAfter ops) := runFrom_getD h

theorem run_bootedAfter_append {ops ops' : List MachineOp}
    (h : (runFrom (step 0x5000) booted ops).isSome)
    (h' : (runFrom (step 0x5000) booted (ops ++ ops')).isSome) :
    runFrom (step 0x5000) (bootedAfter ops) ops' = some (bootedAfter (ops ++ ops')) := by
  rw [← runFrom_append (run_bootedAfter h)]
  exact run_bootedAfter h'

theorem reached_booted : Reached 0x5000 booted :=
  ⟨_, _, _, [], by decide, by unfold VmArea.Room; decide, trivial, rfl⟩

theorem reached_bootedAfter {ops : List MachineOp}
    (hsteps : AllSteps (step 0x5000) Behaves booted ops)
    (h : (runFrom (step 0x5000) booted ops).isSome) : Reached 0x5000 (bootedAfter ops) :=
  ⟨_, _, _, ops, by decide, by unfold VmArea.Room; decide, hsteps, run_bootedAfter h⟩

/-- The creation of a thread, and a yield to it. -/
def createOp : MachineOp := .createThread 0 0x4000 true true

def yieldOp : MachineOp := .interrupt yieldVector none 0 [] fun _ => 0

theorem behaves_createOp : booted.Behaves createOp := by
  intro _ _
  decide +kernel

theorem behaves_yieldOp (s : ThreadMachine) : s.Behaves yieldOp := ⟨by decide, by decide, by simp⟩

theorem not_executes_yieldOp (s : ThreadMachine) (t : Nat) : ¬ s.Executes yieldOp t := by
  rintro ⟨-, _, _, h⟩
  cases h

theorem allSteps_yieldOp (f : ThreadMachine → MachineOp → Option ThreadMachine)
    {Q : ThreadMachine → MachineOp → Prop} (h : ∀ s, Q s yieldOp) (s : ThreadMachine) :
    AllSteps f Q s [yieldOp] := AllSteps.of_forall (by simpa using h)

theorem allSteps_cons_yieldOp (f : ThreadMachine → MachineOp → Option ThreadMachine)
    (Q : ThreadMachine → MachineOp → Prop) (hop : Q s op) (hyield : ∀ s, Q s yieldOp) :
    AllSteps f Q s [op, yieldOp] := .intro hop fun s _ => allSteps_yieldOp f hyield s

/-- What the new thread executes, on the page of its stack that its start status is on. -/
def execOp : MachineOp := .exec ⟨fun _ => 7, 0x4010, 8, 0x202, 0xFFFFC00000003F00, 16⟩ []

/-- The idle thread yields to a new thread, which executes and yields to it. -/
theorem thread_resumes_idle :
    (bootedAfter [createOp, yieldOp]).sched.threadCurrent = 1 ∧
    (bootedAfter [createOp, yieldOp, execOp, yieldOp]).cpu =
      (bootedAfter [createOp, yieldOp]).registers 0 := by
  have hsteps : AllSteps (step 0x5000) Behaves booted [createOp, yieldOp] :=
    allSteps_cons_yieldOp _ _ behaves_createOp behaves_yieldOp
  have hbefore : (runFrom (step 0x5000) booted [createOp, yieldOp]).isSome := by decide +kernel
  have hcurrent : (bootedAfter [createOp, yieldOp]).sched.threadCurrent = 1 := by decide +kernel
  have hexec : (bootedAfter [createOp, yieldOp]).Behaves execOp :=
    ⟨⟨by decide +kernel, by decide +kernel⟩, by decide +kernel, by simp⟩
  have hother : ¬ (bootedAfter [createOp, yieldOp]).Executes execOp 0 := by
    rintro ⟨h, -⟩
    cases h.trans hcurrent
  exact ⟨hcurrent, (thread_resumes (reached_bootedAfter hsteps hbefore) ⟨0, by decide +kernel⟩
    (allSteps_cons_yieldOp _ _ ⟨hexec, hother⟩ fun s =>
      ⟨behaves_yieldOp s, not_executes_yieldOp s 0⟩)
    (run_bootedAfter_append hbefore (by decide +kernel))).2 (by decide +kernel)⟩

/-- A new thread starts at its entry point: when it has the CPU for the first time, its registers
are the ones that `task_create_thread` has prepared, and on top of its stack there is the address of
`task_current_thread_exit`. -/
theorem new_thread_starts {task entryPoint : Nat} {threadOk areaOk : Bool} {s₁ : ThreadMachine}
    {ops : List MachineOp} (hs : Reached exitAddr s)
    (hop : s.Behaves (.createThread task entryPoint threadOk areaOk))
    (hcreate : s.step exitAddr (.createThread task entryPoint threadOk areaOk) = some s₁)
    (hnew : s₁.Lives s.sched.nextTid)
    (hsteps : AllSteps (step exitAddr) (fun m op => m.Behaves op ∧ ¬ m.Executes op s.sched.nextTid)
      s₁ ops)
    (hrun : runFrom (step exitAddr) s₁ ops = some s')
    (hcurrent : s'.sched.threadCurrent = s.sched.nextTid) :
    s'.cpu = (startStatus entryPoint ((s'.stack s.sched.nextTid).limit - 8)).cpu ∧
    s'.mem s'.cpu.rsp = exitAddr := by
  have H := hs.inv
  obtain ⟨hk, hcreate⟩ := Option.ite_none_right_eq_some.mp hcreate
  obtain ⟨H₁, -, rfl | hcreated⟩ := H.createThread hk hop hcreate
  · obtain ⟨k, hk⟩ := hnew
    exact absurd (H.lists.lt k _ hk) (Nat.lt_irrefl _)
  · obtain ⟨H', hkeeps⟩ := H₁.run_keeps hnew hsteps hrun
    have hkeeps := hkeeps (hcurrent ▸ H'.current_lives)
    have hcpu : s'.cpu = s₁.registers s.sched.nextTid := by
      rw [← hkeeps.registers, ← hcurrent, registers_current]
    have hrsp : (s₁.registers s.sched.nextTid).rsp < (s₁.stack s.sched.nextTid).limit := by
      have hroom := (H₁.placed _ hnew).room.1
      have hlimit : (s₁.registers s.sched.nextTid).rsp = (s₁.stack s.sched.nextTid).limit - 8 := by
        rw [hcreated.starts]
        rfl
      have : sizeofCpuStatus = 184 := rfl
      omega
    rw [hcpu, hkeeps.stack]
    exact ⟨hcreated.starts, (hkeeps.words _ (Nat.le_refl _) hrsp).trans hcreated.returns⟩

theorem new_thread_starts_first :
    (bootedAfter [createOp, yieldOp]).cpu =
      (startStatus 0x4000 (((bootedAfter [createOp, yieldOp]).stack 1).limit - 8)).cpu ∧
    (bootedAfter [createOp, yieldOp]).mem (bootedAfter [createOp, yieldOp]).cpu.rsp = 0x5000 := by
  have hcreated : (runFrom (step 0x5000) booted [createOp]).isSome := by decide +kernel
  obtain ⟨s₁, hcreate, ⟨⟩⟩ := runFrom_cons.mp (run_bootedAfter hcreated)
  exact new_thread_starts reached_booted behaves_createOp hcreate
    ⟨0, by decide +kernel⟩
    (allSteps_yieldOp _ (fun s => ⟨behaves_yieldOp s, not_executes_yieldOp s _⟩) _)
    (run_bootedAfter_append hcreated (by decide +kernel)) (by decide +kernel)

/-! ## Areas -/

theorem Inv.run_apart {ops : List MachineOp} (H : s.Inv)
    (hsteps : AllSteps (step exitAddr) (fun s op => s.Behaves op ∧ op.onAreas = false) s ops)
    (h : runFrom (step exitAddr) s ops = some s') : s'.Inv ∧ ∀ a, s'.Apart a ↔ s.Apart a := by
  have hrun := Along.of_allSteps (P := fun m => m.Inv ∧ ∀ a, m.Apart a ↔ s.Apart a)
    (fun m op m' hm hop hstep => ?_) ⟨H, fun _ => Iff.rfl⟩ hsteps
  · exact hrun.last h
  · have S := hm.1.stepped hop.1 hstep
    exact ⟨S.inv, fun a => (S.apart hop.2 a).trans (hm.2 a)⟩

/-- Threads take and give back exactly their own stacks. The stacks of all threads but the idle
thread are areas of 16 KiB, no two stacks overlap, and as long as nothing else is allocated or
freed, the other areas stay: the stack of a thread that is gone is gone, and the reaper frees
nothing else. -/
theorem stack_areas {ops : List MachineOp} (hs : Reached exitAddr s)
    (hsteps : AllSteps (step exitAddr) (fun s op => s.Behaves op ∧ op.onAreas = false) s ops)
    (hrun : runFrom (step exitAddr) s ops = some s') :
    (∀ t, s'.Lives t → t ≠ 0 → s'.stack t ∈ s'.regions ∧
      (s'.stack t).size = threadInitialStackSize) ∧
    (∀ t u x, s'.Lives t → s'.Lives u → (s'.stack t).Contains x → (s'.stack u).Contains x → t = u) ∧
    ∀ a, (a ∈ s'.regions ∧ ∀ t, s'.Lives t → t ≠ 0 → s'.stack t ≠ a) ↔
      a ∈ s.regions ∧ ∀ t, s.Lives t → t ≠ 0 → s.stack t ≠ a := by
  obtain ⟨H', hapart⟩ := hs.inv.run_apart hsteps hrun
  exact ⟨H'.stackArea, fun t u x ht hu hx hx' => H'.eq_of_contains ht hu hx hx', hapart⟩

/-- The first thread exits and is reaped: no area is left that is not a stack. -/
theorem stack_areas_reaped :
    (bootedAfter [createOp, yieldOp]).regions ≠ [] ∧
    (bootedAfter [createOp, yieldOp, .exit, yieldOp, .reap]).threads 0 = [0] ∧
    ∀ a, ¬ (a ∈ (bootedAfter [createOp, yieldOp, .exit, yieldOp, .reap]).regions ∧
      ∀ t, (bootedAfter [createOp, yieldOp, .exit, yieldOp, .reap]).Lives t → t ≠ 0 →
        (bootedAfter [createOp, yieldOp, .exit, yieldOp, .reap]).stack t ≠ a) := by
  have hcreate :
      AllSteps (step 0x5000) (fun s op => s.Behaves op ∧ op.onAreas = false) booted
        [createOp, yieldOp] :=
    allSteps_cons_yieldOp _ _ ⟨behaves_createOp, rfl⟩ fun s => ⟨behaves_yieldOp s, rfl⟩
  have hexit : ∀ s ∈ runFrom (step 0x5000) booted [createOp, yieldOp],
      s.sched.threadCurrent ≠ 0 ∧ s.cpu.rsp < (s.stack s.sched.threadCurrent).limit := by
        decide +kernel
  have hexit : ∀ s ∈ runFrom (step 0x5000) booted [createOp, yieldOp], s.Behaves .exit ∧
      MachineOp.exit.onAreas = false :=
    fun s hs => ⟨hexit s hs, rfl⟩
  have hsteps : AllSteps (step 0x5000) (fun s op => s.Behaves op ∧ op.onAreas = false) booted
      [createOp, yieldOp, .exit, yieldOp, .reap] :=
    ((hcreate.snoc hexit).snoc fun s _ => ⟨behaves_yieldOp s, rfl⟩).snoc fun _ _ =>
      ⟨trivial, rfl⟩
  have hareas := stack_areas reached_booted hsteps (run_bootedAfter (by decide +kernel))
  refine ⟨by decide +kernel, by decide +kernel, fun a ha => ?_⟩
  cases ((hareas.2.2 a).mp ha).1

end ThreadMachine

end Plos
