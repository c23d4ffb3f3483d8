import Plos.Interrupts.Machine
import Plos.Memory.Vmm.Spaces
import Plos.Scheduling.Switch

/-! Every thread has the CPU to itself.

A thread that is not on the CPU has its registers in a frame on its own stack
(`ThreadMachine.registers`), and the stacks of the threads are disjoint areas. So nothing that other
threads, interrupts, or the creation and the reaping of threads do changes the registers a thread
goes on with or the words on its stack (`ThreadMachine.Keeps`). What threads owe in return is that
they store nothing into the stacks of others and keep their stack pointer on their own one, and what
handlers owe is that they store into no stack but the interrupted one, below the frame
(`ThreadMachine.Behaves`). -/

namespace Plos

/-- The stack pointer is on the stack, and there is room for the frame of an interrupt. -/
def VmArea.Room (a : VmArea) (rsp : Nat) : Prop :=
  a.base + (sizeofCpuStatus + 16) ≤ rsp ∧ rsp ≤ a.limit

theorem storeWords_of_forall_ne {mem : Nat → Nat} {stores : List (Nat × Nat)} {a : Nat}
    (h : ∀ store ∈ stores, store.1 ≠ a) : storeWords mem stores a = mem a := by
  induction stores generalizing mem with
  | nil => rfl
  | cons store stores ih =>
    obtain ⟨hstore, hstores⟩ := List.forall_mem_cons.mp h
    exact (ih hstores).trans (Function.update_of_ne hstore.symm _ _)

namespace ThreadMachine

/-- The registers that a thread goes on with. -/
def registers (s : ThreadMachine) (t : Nat) : Cpu :=
  if t = s.sched.threadCurrent then s.cpu else (cpuStatusAt s.mem (s.sched.thread t).context).cpu

/-- The thread has been created and not yet reaped. -/
def Lives (s : ThreadMachine) (t : Nat) : Prop := ∃ k, t ∈ s.threads k

/-- What the code of the threads owes: the stack pointer stays on the thread's own stack, no store
goes to the stack of another thread, the handler of an interrupt stores below its frame or outside
of all stacks, and nobody frees the stack of a thread. The CPU pushes an error code by its own list,
and the stub of the vector agrees with it. The searches for areas do not wrap, areas end inside the
address space, and the idle thread does not exit.

Memory is total here: that the page of the stack is present when the CPU pushes a frame is an
obligation that does not show. -/
def Behaves (s : ThreadMachine) : MachineOp → Prop
  | .exec cpu stores => (s.stack s.sched.threadCurrent).Room cpu.rsp ∧
      ((s.sched.thread s.sched.threadCurrent).state = .zombie →
        cpu.rsp < (s.stack s.sched.threadCurrent).limit) ∧
      ∀ store ∈ stores, ∀ t, s.Lives t → t ≠ s.sched.threadCurrent →
        ¬ (s.stack t).Contains store.1
  | .interrupt vector error _ scratch _ =>
    (error.isSome ↔ vector ∈ cpuErrorCodeVectors) ∧
      (vector ∈ errorCodeVectors ↔ vector ∈ cpuErrorCodeVectors) ∧
      ∀ store ∈ scratch,
        (s.stack s.sched.threadCurrent).base ≤ store.1 ∧ store.1 < framePointer s.cpu.rsp ∨
        ∀ t, s.Lives t → ¬ (s.stack t).Contains store.1
  | .exit => s.sched.threadCurrent ≠ 0 ∧ s.cpu.rsp < (s.stack s.sched.threadCurrent).limit
  | .createThread .. =>
    RegionOp.NoWrap .kernel s.regions (.alloc threadInitialStackSize stackFlags true)
  | .alloc size flags kmallocOk => RegionOp.NoWrap .kernel s.regions (.alloc size flags kmallocOk) ∧
      ∀ regions, regionStep .kernel s.regions (.alloc size flags kmallocOk) = some regions →
        ∀ a ∈ regions, a.limit < 2 ^ 64
  | .free addr => ∀ t, s.Lives t → ¬ (s.stack t).Contains addr
  | _ => True

/-- What a step leaves of a thread: its stack, its registers and the words on its stack. -/
structure Keeps (s s' : ThreadMachine) (t : Nat) : Prop where
  stack : s'.stack t = s.stack t
  registers : s'.registers t = s.registers t
  words : ∀ a, (s.registers t).rsp ≤ a → a < (s.stack t).limit → s'.mem a = s.mem a

theorem Keeps.refl (s : ThreadMachine) (t : Nat) : s.Keeps s t := ⟨rfl, rfl, fun _ _ _ => rfl⟩

theorem Keeps.trans {s s' s'' : ThreadMachine} {t : Nat} (h : s.Keeps s' t) (h' : s'.Keeps s'' t) :
    s.Keeps s'' t where
  stack := h'.stack.trans h.stack
  registers := h'.registers.trans h.registers
  words a ha hlt := by
    rw [h'.words a (h.registers ▸ ha) (h.stack ▸ hlt)]
    exact h.words a ha hlt

/-! ## The invariant -/

/-- Where a thread stands: there is room on its stack, its frame is on it if the thread is not on
the CPU, and it has called something on its way to `task_current_thread_exit`. -/
structure Placed (s : ThreadMachine) (t : Nat) : Prop where
  room : (s.stack t).Room (s.registers t).rsp
  frame : t ≠ s.sched.threadCurrent → (s.stack t).base ≤ (s.sched.thread t).context ∧
    (s.sched.thread t).context + sizeofCpuStatus ≤ (s.registers t).rsp
  exited : (s.sched.thread t).state = .zombie → (s.registers t).rsp < (s.stack t).limit

structure Inv (s : ThreadMachine) : Prop where
  lists : OnLists s.sched s.threads
  areas : RegionsWF s.regions
  window : InWindow .kernel s.regions
  limits : ∀ a ∈ s.regions, a.limit < 2 ^ 64
  idle : (s.sched.thread 0).state ≠ .zombie
  /-- the stack of the idle thread is below the window of the areas -/
  boot : (s.stack 0).limit ≤ vmmKernelStart
  stackArea : ∀ t, s.Lives t → t ≠ 0 → s.stack t ∈ s.regions ∧
    (s.stack t).size = threadInitialStackSize
  distinct : ∀ t u, s.Lives t → s.Lives u → t ≠ 0 → u ≠ 0 → s.stack t = s.stack u → t = u
  placed : ∀ t, s.Lives t → s.Placed t

section
variable {s s' : ThreadMachine} {t u : Nat}

/-- A step that leaves a thread alone and moves its frame at most. -/
theorem Placed.of_keeps (h : s.Placed t) (hk : s.Keeps s' t)
    (hframe : t ≠ s'.sched.threadCurrent → (s.stack t).base ≤ (s'.sched.thread t).context ∧
      (s'.sched.thread t).context + sizeofCpuStatus ≤ (s.registers t).rsp)
    (hzombie : (s'.sched.thread t).state = .zombie → (s.sched.thread t).state = .zombie ∨
      (s.registers t).rsp < (s.stack t).limit) : s'.Placed t := by
  refine ⟨?_, ?_, fun hz => ?_⟩
  · rw [hk.stack, hk.registers]
    exact h.room
  · rw [hk.stack, hk.registers]
    exact hframe
  · rw [hk.stack, hk.registers]
    exact (hzombie hz).elim h.exited id

theorem registers_current (s : ThreadMachine) : s.registers s.sched.threadCurrent = s.cpu :=
  if_pos rfl

theorem Placed.contains_of_le (h : s.Placed t) {a : Nat} (ha : (s.registers t).rsp ≤ a)
    (ha' : a < (s.stack t).limit) : (s.stack t).Contains a :=
  ⟨(Nat.le_trans (Nat.le_add_right _ _) h.room.1).trans ha, ha'⟩

namespace Inv

theorem current_lives (H : s.Inv) : s.Lives s.sched.threadCurrent := ⟨_, H.lists.current⟩

theorem limit_lt (H : s.Inv) (ht : s.Lives t) : (s.stack t).limit < 2 ^ 64 := by
  rcases eq_or_ne t 0 with rfl | hne
  · exact H.boot.trans_lt (by decide)
  · exact H.limits _ (H.stackArea t ht hne).1

/-- The stacks of the threads are disjoint. -/
theorem eq_of_contains (H : s.Inv) (ht : s.Lives t) (hu : s.Lives u) {a : Nat}
    (hta : (s.stack t).Contains a) (hua : (s.stack u).Contains a) : t = u := by
  have hboot {v : Nat} (hv : s.Lives v) (hv0 : v ≠ 0) (ha : (s.stack 0).Contains a) :
      ¬ (s.stack v).Contains a := by
    have hbase := (H.window _ (H.stackArea v hv hv0).1).1
    exact fun ha' => absurd (H.boot.trans (hbase.trans ha'.1)) (not_le.mpr ha.2)
  rcases eq_or_ne t 0 with rfl | ht0
  · rcases eq_or_ne u 0 with rfl | hu0
    · rfl
    · exact absurd hua (hboot hu hu0 hta)
  · rcases eq_or_ne u 0 with rfl | hu0
    · exact absurd hta (hboot ht ht0 hua)
    · exact H.distinct t u ht hu ht0 hu0
        (H.areas.eq_of_contains (H.stackArea t ht ht0).1 (H.stackArea u hu hu0).1 hta hua)

/-- The frame of a thread that is not on the CPU is on its own stack. -/
theorem frame_contains (H : s.Inv) (ht : s.Lives t) (hne : t ≠ s.sched.threadCurrent) {a : Nat}
    (ha : (s.sched.thread t).context ≤ a) (ha' : a < (s.sched.thread t).context + sizeofCpuStatus) :
    (s.stack t).Contains a := by
  obtain ⟨hbase, hle⟩ := (H.placed t ht).frame hne
  exact ⟨hbase.trans ha, ha'.trans_le (hle.trans (H.placed t ht).room.2)⟩

/-- Stores outside of the stack of a thread that is not on the CPU leave its registers alone. -/
theorem status_of_outside (H : s.Inv) (ht : s.Lives t) (hne : t ≠ s.sched.threadCurrent)
    {mem : Nat → Nat} (hmem : ∀ a, (s.stack t).Contains a → mem a = s.mem a) :
    (cpuStatusAt mem (s.sched.thread t).context).cpu = s.registers t := by
  rw [registers, if_neg hne, cpuStatusAt_congr fun a ha ha' =>
    hmem a (H.frame_contains ht hne ha ha')]

/-! ## Steps that store nothing -/

theorem registers_of_same {sched : Sched Nat} {mutex : Mutex} {regions : List VmArea}
    (hsame : s.sched.SameContexts sched) (t : Nat) :
    ({ s with sched, mutex, regions } : ThreadMachine).registers t = s.registers t := by
  simp only [ThreadMachine.registers, hsame.threadCurrent, hsame.context]

/-- A section of the kernel: the states of threads and the queue of the mutex change. -/
theorem sections (H : s.Inv) {sched : Sched Nat} (mutex : Mutex) (hlists : OnLists sched s.threads)
    (hsame : s.sched.SameContexts sched)
    (hzombie : ∀ t, (sched.thread t).state = .zombie → (s.sched.thread t).state = .zombie ∨
      t ≠ 0 ∧ t = s.sched.threadCurrent ∧ s.cpu.rsp < (s.stack t).limit) :
    ({ s with sched, mutex } : ThreadMachine).Inv ∧ ∀ t, s.Keeps { s with sched, mutex } t := by
  have hkeeps (t : Nat) : s.Keeps { s with sched, mutex } t :=
    ⟨rfl, registers_of_same hsame t, fun _ _ _ => rfl⟩
  refine ⟨⟨hlists, H.areas, H.window, H.limits, fun h0 => ?_, H.boot, H.stackArea, H.distinct,
    fun t ht => ?_⟩, hkeeps⟩
  · rcases hzombie 0 h0 with hz | ⟨hne, -⟩
    · exact H.idle hz
    · exact hne rfl
  · refine (H.placed t ht).of_keeps (hkeeps t) (fun hne => ?_) fun hz => (hzombie t hz).imp_right ?_
    · rw [hsame.context]
      exact (H.placed t ht).frame (hsame.threadCurrent ▸ hne)
    · rintro ⟨-, rfl, hlt⟩
      rwa [registers_current]

/-- The list of areas changes, but the stacks stay on it. -/
theorem regions_step (H : s.Inv) {op : RegionOp} {regions : List VmArea}
    (h : regionStep .kernel s.regions op = some regions) (hop : op.NoWrap .kernel s.regions)
    (hlimits : ∀ a ∈ regions, a.limit < 2 ^ 64)
    (hstacks : ∀ t, s.Lives t → t ≠ 0 → s.stack t ∈ regions) :
    ({ s with regions } : ThreadMachine).Inv ∧ ∀ t, s.Keeps { s with regions } t := by
  have hwf := (regionStep_wf_iff H.window H.areas h).mpr hop
  exact ⟨⟨H.lists, hwf, regionStep_inWindow H.window H.areas h hwf, hlimits, H.idle, H.boot,
    fun t ht ht0 => ⟨hstacks t ht ht0, (H.stackArea t ht ht0).2⟩, H.distinct,
    fun t ht => ⟨(H.placed t ht).room, (H.placed t ht).frame, (H.placed t ht).exited⟩⟩,
    fun t => ⟨rfl, rfl, fun _ _ _ => rfl⟩⟩

theorem alloc (H : s.Inv) {size flags : Nat} {kmallocOk : Bool} {regions : List VmArea}
    (hop : RegionOp.NoWrap .kernel s.regions (.alloc size flags kmallocOk))
    (hlimits : ∀ a ∈ regions, a.limit < 2 ^ 64)
    (h : regionStep .kernel s.regions (.alloc size flags kmallocOk) = some regions) :
    ({ s with regions } : ThreadMachine).Inv ∧ ∀ t, s.Keeps { s with regions } t := by
  refine H.regions_step h hop hlimits fun t ht ht0 => ?_
  have hmem := (H.stackArea t ht ht0).1
  obtain ⟨-, ⟨rfl, -⟩ | ⟨hok, hne, p, b, r, hs, rfl⟩⟩ := regionStep_alloc h
  · exact hmem
  · obtain ⟨happ, -⟩ := vmmSearch_of_noWrap (H.areas.searchInv H.window) (hop hok hne) hs
    rw [List.nil_append] at happ
    rw [← happ, List.mem_append] at hmem
    exact List.mem_append.mpr (hmem.imp_right (List.mem_cons_of_mem _))

/-- An area that is freed by an address that is on no stack is no stack. -/
theorem free (H : s.Inv) {addr : Nat} {regions : List VmArea}
    (hop : ∀ t, s.Lives t → ¬ (s.stack t).Contains addr)
    (h : regionStep .kernel s.regions (.free addr) = some regions) :
    ({ s with regions } : ThreadMachine).Inv ∧ ∀ t, s.Keeps { s with regions } t := by
  have hsub := (regionStep_free h).subset
  refine H.regions_step h trivial (fun a ha => H.limits a (hsub ha)) fun t ht ht0 => ?_
  have hmem := (H.stackArea t ht ht0).1
  obtain ⟨-, ⟨⟩⟩ := Option.ite_none_right_eq_some.mp h
  rw [vmmFreeRegion]
  split
  · exact hmem
  · by_cases hex : ∃ a ∈ s.regions, a.Contains addr
    · obtain ⟨a, ha, hx⟩ := hex
      rw [vmmUnlink_some H.areas H.limits ha hx]
      refine (List.mem_erase_of_ne ?_).mpr hmem
      rintro rfl
      exact hop t ht hx
    · rw [vmmUnlink_none H.limits fun a ha hx => hex ⟨a, ha, hx⟩]
      exact hmem

/-! ## The code of a thread -/

theorem exec (H : s.Inv) {cpu : Cpu} {stores : List (Nat × Nat)}
    (hop : s.Behaves (.exec cpu stores)) :
    ({ s with cpu, mem := storeWords s.mem stores } : ThreadMachine).Inv ∧
      ∀ t, s.Lives t → t ≠ s.sched.threadCurrent →
        s.Keeps { s with cpu, mem := storeWords s.mem stores } t := by
  obtain ⟨hroom, hexited, hstores⟩ := hop
  have hmem {t : Nat} (ht : s.Lives t) (hne : t ≠ s.sched.threadCurrent) (a : Nat)
      (ha : (s.stack t).Contains a) : storeWords s.mem stores a = s.mem a := by
    refine storeWords_of_forall_ne fun store hstore => ?_
    rintro rfl
    exact hstores store hstore t ht hne ha
  have hkeeps {t : Nat} (ht : s.Lives t) (hne : t ≠ s.sched.threadCurrent) :
      s.Keeps { s with cpu, mem := storeWords s.mem stores } t := by
    refine ⟨rfl, ?_, fun a ha ha' => hmem ht hne a ((H.placed t ht).contains_of_le ha ha')⟩
    rw [registers, if_neg hne]
    exact H.status_of_outside ht hne (hmem ht hne)
  refine ⟨⟨H.lists, H.areas, H.window, H.limits, H.idle, H.boot, H.stackArea, H.distinct,
    fun t ht => ?_⟩, fun t ht hne => hkeeps ht hne⟩
  rcases eq_or_ne t s.sched.threadCurrent with rfl | hne
  · refine ⟨?_, fun h => absurd rfl h, fun hz => ?_⟩
    · exact (registers_current { s with cpu, mem := storeWords s.mem stores }).symm ▸ hroom
    · exact (registers_current { s with cpu, mem := storeWords s.mem stores }).symm ▸ hexited hz
  · exact (H.placed t ht).of_keeps (hkeeps ht hne) (H.placed t ht).frame .inl

/-! ## Interrupts -/

theorem interruptHandler_switched {sched r : Sched Nat} {mem : Nat → Nat} {ring : Nat → List Nat}
    {now context next : Nat} (R : OnLists sched ring)
    (h : interruptHandler sched mem now context = some (r, next)) :
    OnLists r ring ∧ Switched sched context r next := by
  have hsame (h : some (sched, context) = some (r, next)) : OnLists r ring ∧
      Switched sched context r next := by
    cases h
    exact ⟨R, .of_ticked (.refl _)⟩
  simp only [interruptHandler] at h
  split at h
  · exact hsame h
  · split at h
    · unfold timerHandler at h
      split at h
      · cases h
      · next hr =>
        have hT := Ticked.of_timerTick hr
        exact ⟨(R.ticked hT).schedule h, .of_schedule hT h⟩
      · next hr =>
        have hT := Ticked.of_timerTick hr
        cases h
        exact ⟨R.ticked hT, .of_ticked hT⟩
    · split at h
      · exact ⟨R.schedule h, .of_schedule (.refl _) h⟩
      · split at h
        · exact hsame h
        · exact hsame h

/-- The place of the frame on a stack with room for it. -/
theorem framePointer_bounds {a : VmArea} {rsp : Nat} (h : a.Room rsp) :
    sizeofCpuStatus ≤ alignStack rsp ∧
    a.base ≤ framePointer rsp ∧ framePointer rsp + sizeofCpuStatus = alignStack rsp ∧
    alignStack rsp ≤ rsp := by
  have hbase := h.1
  have halign : alignStack rsp ≤ rsp ∧ rsp ≤ alignStack rsp + 15 := by
    unfold alignStack
    omega
  unfold framePointer
  generalize sizeofCpuStatus = size at hbase ⊢
  omega

/-- The memory after an interrupt: the frame of the thread on the CPU, below its stack pointer, and
what the handler has stored below the frame or outside of the stacks. -/
theorem interrupt_mem (H : s.Inv) {vector : Nat} {error : Option Nat} {now : Nat}
    {scratch : List (Nat × Nat)} {left : Gpr → Nat}
    (hop : s.Behaves (.interrupt vector error now scratch left)) :
    ∃ mem, interruptEntry s.cpu s.mem vector error = (framePointer s.cpu.rsp, mem) ∧
      cpuStatusAt (storeWords mem scratch) (framePointer s.cpu.rsp) =
        interruptStatus s.cpu vector error ∧
      ∀ t, s.Lives t → ∀ a, (s.stack t).Contains a →
        (t = s.sched.threadCurrent → s.cpu.rsp ≤ a) → storeWords mem scratch a = s.mem a := by
  obtain ⟨herror, hstub, hscratch⟩ := hop
  have hcurrent := H.current_lives
  have hroom := (H.placed _ hcurrent).room
  rw [s.registers_current] at hroom
  have hrsp : s.cpu.rsp < 2 ^ 64 := hroom.2.trans_lt (H.limit_lt hcurrent)
  obtain ⟨hsize, hbase, hframe, hle⟩ := framePointer_bounds hroom
  obtain ⟨hpointer, hstatus, hentry⟩ :=
    @interruptEntry_eq s.cpu s.mem vector error (herror.trans hstub.symm) hsize hrsp
  have hstack {a : Nat} (ha : (s.stack s.sched.threadCurrent).base ≤ a)
      (ha' : a < alignStack s.cpu.rsp) : (s.stack s.sched.threadCurrent).Contains a :=
    ⟨ha, ha'.trans_le (hle.trans hroom.2)⟩
  refine ⟨(interruptEntry s.cpu s.mem vector error).2, ?_, ?_, fun t ht a ha habove => ?_⟩
  · rw [← hpointer]
  · refine (cpuStatusAt_congr fun a ha ha' =>
      storeWords_of_forall_ne fun store hstore => ?_).trans hstatus
    rintro rfl
    rcases hscratch store hstore with hbelow | houtside
    · omega
    · exact houtside _ hcurrent (hstack (hbase.trans ha) (hframe ▸ ha'))
  · -- the address is on another stack, or above the stack pointer
    have hoff : a < (s.stack s.sched.threadCurrent).base ∨ alignStack s.cpu.rsp ≤ a := by
      by_contra hnot
      push Not at hnot
      have := habove (H.eq_of_contains ht hcurrent ha (hstack hnot.1 hnot.2))
      omega
    refine (storeWords_of_forall_ne fun store hstore => ?_).trans (hentry a (by omega))
    rintro rfl
    rcases hscratch store hstore with hbelow | houtside
    · omega
    · exact houtside t ht ha

theorem interrupt (H : s.Inv) {vector : Nat} {error : Option Nat} {now : Nat}
    {scratch : List (Nat × Nat)} {left : Gpr → Nat}
    (hop : s.Behaves (.interrupt vector error now scratch left))
    (h : s.interrupt vector error now scratch left = some s') :
    s'.Inv ∧ (∀ t, s.Lives t → s.Keeps s' t) ∧
      s'.threads = s.threads ∧ s'.regions = s.regions ∧ s'.sched.nextTid = s.sched.nextTid := by
  have hcurrent := H.current_lives
  have hregisters := s.registers_current
  have hroom := (H.placed _ hcurrent).room
  rw [hregisters] at hroom
  obtain ⟨-, hbase, hframe, hle⟩ := framePointer_bounds hroom
  obtain ⟨mem₁, hentry, hstatus, hmem⟩ := H.interrupt_mem hop
  simp only [ThreadMachine.interrupt, hentry] at h
  cases hhandler : interruptHandler s.sched mem₁ now (framePointer s.cpu.rsp) with
  | none =>
    rw [hhandler] at h
    cases h
  | some result =>
    obtain ⟨sched, next⟩ := result
    simp only [hhandler] at h
    obtain ⟨hlists, hswitched⟩ := interruptHandler_switched H.lists hhandler
    generalize storeWords mem₁ scratch = mem at h hmem hstatus
    -- where the frame of a thread is once the thread on the CPU has been paused
    let saved (t : Nat) : Nat :=
      if t = s.sched.threadCurrent then framePointer s.cpu.rsp else (s.sched.thread t).context
    have hsaved {t : Nat} (ht : s.Lives t) : (cpuStatusAt mem (saved t)).cpu = s.registers t ∧
        (s.stack t).base ≤ saved t ∧ saved t + sizeofCpuStatus ≤ (s.registers t).rsp := by
      rcases eq_or_ne t s.sched.threadCurrent with rfl | hne
      · simp only [saved, if_pos rfl, hstatus, hregisters]
        exact ⟨rfl, hbase, hframe.trans_le hle⟩
      · simp only [saved, if_neg hne]
        exact ⟨H.status_of_outside ht hne fun a ha => hmem t ht a ha fun e => absurd e hne,
          (H.placed t ht).frame hne⟩
    have hlives : s.Lives sched.threadCurrent := ⟨_, hlists.current⟩
    have hnext : next = saved sched.threadCurrent := hswitched.next
    have hreturn : interruptReturn left mem next = s.registers sched.threadCurrent := by
      obtain ⟨hcpu, -, hfit⟩ := hsaved hlives
      rw [hnext, interruptReturn_eq, hcpu]
      exact hfit.trans_lt ((H.placed _ hlives).room.2.trans_lt (H.limit_lt hlives))
    cases h
    have hkeeps {t : Nat} (ht : s.Lives t) :
        s.Keeps { s with sched, mem, cpu := interruptReturn left mem next } t := by
      refine ⟨rfl, ?_, fun a ha ha' => hmem t ht a ((H.placed t ht).contains_of_le ha ha') ?_⟩
      · rw [registers]
        split
        · next e => rw [e, hreturn]
        · next e =>
          rw [hswitched.context t e]
          exact (hsaved ht).1
      · rintro rfl
        rwa [hregisters] at ha
    refine ⟨⟨hlists, H.areas, H.window, H.limits, (hswitched.zombie 0).not.mpr H.idle, H.boot,
      H.stackArea, H.distinct,
      fun t ht => (H.placed t ht).of_keeps (hkeeps ht) (fun hne => ?_) fun hz =>
        .inl ((hswitched.zombie t).mp hz)⟩,
      fun t ht => hkeeps ht, rfl, rfl, hswitched.nextTid⟩
    rw [hswitched.context t hne]
    exact (hsaved ht).2

/-! ## Creation -/

/-- The area of a new stack lies beside all others. -/
theorem new_area (H : s.Inv) {areaOk : Bool} {regions : List VmArea} {base : Nat}
    (hop : RegionOp.NoWrap .kernel s.regions (.alloc threadInitialStackSize stackFlags true))
    (h : vmmAllocRegion .kernel s.regions threadInitialStackSize stackFlags areaOk =
      some (regions, base)) :
    RegionsWF regions ∧ InWindow .kernel regions ∧
      (⟨base, threadInitialStackSize, Space.areaFlags .kernel stackFlags⟩ : VmArea) ∉ s.regions ∧
      ∀ a, a ∈ regions ↔ a ∈ s.regions ∨
        a = ⟨base, threadInitialStackSize, Space.areaFlags .kernel stackFlags⟩ := by
  have hsize : pageAlignUp threadInitialStackSize = threadInitialStackSize := by decide
  cases areaOk with
  | false =>
    simp only [vmmAllocRegion] at h
    split at h
    · cases h
    · split at h
      · cases h
      · cases h
  | true =>
    have hstep : regionStep .kernel s.regions (.alloc threadInitialStackSize stackFlags true) =
        some regions := by
      rw [regionStep, if_pos (by decide), h]
      rfl
    have hwf := (regionStep_wf_iff H.window H.areas hstep).mpr hop
    simp only [vmmAllocRegion] at h
    split at h
    · cases h
    · next hne =>
      split at h
      · cases h
      · next p c r hs =>
        cases h
        obtain ⟨happ, -⟩ := vmmSearch_of_noWrap (H.areas.searchInv H.window) (hop rfl hne) hs
        rw [List.nil_append] at happ
        have hnodup := hwf.nodup
        refine ⟨hwf, regionStep_inWindow H.window H.areas hstep hwf, ?_, fun a => ?_⟩
        · rw [hsize] at hnodup
          rw [← happ]
          exact (List.nodup_middle.mp hnodup).notMem
        · rw [← happ, hsize]
          simp only [List.mem_append, List.mem_cons]
          tauto

theorem storeStart_spec {mem : Nat → Nat} {exit entryPoint retAddr sp : Nat}
    (hsp : sp + sizeofCpuStatus = retAddr) (hret : retAddr < 2 ^ 64) :
    cpuStatusAt (storeStart mem exit entryPoint retAddr sp) sp = startStatus entryPoint retAddr ∧
      storeStart mem exit entryPoint retAddr sp retAddr = exit ∧
      ∀ a, a < sp ∨ retAddr < a → storeStart mem exit entryPoint retAddr sp a = mem a := by
  have hlength : (startStatus entryPoint retAddr).words.length = cpuStatusWords := rfl
  have hfit : sp + 8 * (startStatus entryPoint retAddr).words.length < 2 ^ 64 := by
    rw [hlength]
    exact hsp.trans_lt hret
  have houtside (a : Nat) (ha : a < sp ∨ retAddr ≤ a) :
      storeStart mem exit entryPoint retAddr sp a = Function.update mem retAddr exit a := by
    refine storeWordsAt_of_outside hfit ?_
    rw [hlength]
    exact ha.imp_right hsp.trans_le
  refine ⟨?_, ?_, fun a ha => ?_⟩
  · apply CpuStatus.words_injective
    rw [words_cpuStatusAt]
    exact wordsAt_storeWordsAt hfit
  · rw [houtside _ (.inr (Nat.le_refl _)), Function.update_self]
  · rw [houtside a (ha.imp_right Nat.le_of_lt)]
    exact Function.update_of_ne (by omega) _ _

/-- What `task_create_thread` makes of the machine if it does not fail. -/
structure Created (exitAddr entryPoint : Nat) (s s' : ThreadMachine) : Prop where
  lives : ∀ t, s'.Lives t ↔ s.Lives t ∨ t = s.sched.nextTid
  area : s'.stack s.sched.nextTid ∉ s.regions ∧
    ∀ a, a ∈ s'.regions ↔ a ∈ s.regions ∨ a = s'.stack s.sched.nextTid
  returns : s'.mem (s'.registers s.sched.nextTid).rsp = exitAddr
  starts : s'.registers s.sched.nextTid =
    (startStatus entryPoint ((s'.stack s.sched.nextTid).limit - 8)).cpu

/-- The addresses that `task_create_thread` computes. -/
theorem stack_addresses {area : VmArea} (hsize : area.size = threadInitialStackSize)
    (hend : area.base < Space.regionSearchEnd .kernel) :
    ∃ retAddr sp, sp + sizeofCpuStatus = retAddr ∧
      retAddr + 8 = area.limit ∧ area.limit < 2 ^ 64 ∧ area.Room retAddr ∧
      add64 area.base threadInitialStackSize = area.limit ∧ sub64 area.limit 8 = retAddr ∧
      sub64 retAddr sizeofCpuStatus = sp := by
  have hstack : threadInitialStackSize = 16384 := rfl
  have hstatus : sizeofCpuStatus = 184 := rfl
  have hlimit : area.limit = area.base + 16384 := by rw [VmArea.limit, hsize, hstack]
  have hend : area.base < 0xFFFFFFFF7FFFFFFF := hend
  refine ⟨area.base + 16376, area.base + 16192, rfl, ?_, ?_, ⟨?_, ?_⟩, ?_, ?_, ?_⟩
  · rw [hlimit]
  · omega
  · omega
  · omega
  · rw [hlimit]
    exact add64_of_lt (by omega)
  · rw [hlimit, sub64_of_le (by omega) (by omega)]
    omega
  · rw [sub64_of_le (by omega) (by omega), hstatus]
    omega

theorem mem_update_append {threads : Nat → List Nat} {task new t : Nat} :
    (∃ k, t ∈ Function.update threads task (threads task ++ [new]) k) ↔
      (∃ k, t ∈ threads k) ∨ t = new := by
  simp only [Function.update_apply]
  constructor
  · rintro ⟨k, hk⟩
    split at hk
    · rcases List.mem_append.mp hk with hk | hk
      · exact .inl ⟨_, hk⟩
      · exact .inr (List.mem_singleton.mp hk)
    · exact .inl ⟨k, hk⟩
  · rintro (⟨k, hk⟩ | rfl)
    · refine ⟨k, ?_⟩
      split
      · next e => exact List.mem_append_left _ (e ▸ hk)
      · exact hk
    · exact ⟨task, by simp⟩

/-- A new area is beside the stacks of the threads. -/
theorem not_contains_new (H : s.Inv) {regions : List VmArea} {area : VmArea}
    (hwf : RegionsWF regions) (hwindow : InWindow .kernel regions) (hnew : area ∉ s.regions)
    (hregions : ∀ a, a ∈ regions ↔ a ∈ s.regions ∨ a = area) (ht : s.Lives t) {a : Nat}
    (ha : (s.stack t).Contains a) : ¬ area.Contains a := by
  intro ha'
  have harea := (hregions area).mpr (.inr rfl)
  rcases eq_or_ne t 0 with rfl | ht0
  · exact absurd (H.boot.trans ((hwindow area harea).1.trans ha'.1)) (not_le.mpr ha.2)
  · have hmem := (H.stackArea t ht ht0).1
    exact hnew (hwf.eq_of_contains ((hregions _).mpr (.inl hmem)) harea ha ha' ▸ hmem)

/-- A new thread with a frame on a new area. -/
theorem created (H : s.Inv) {exitAddr task entryPoint retAddr sp : Nat} {sched : Sched Nat}
    {regions : List VmArea} {area : VmArea} (hk : task < s.sched.nextPid)
    (hcreate : taskCreateThread s.sched task sp = some sched) (hwf : RegionsWF regions)
    (hwindow : InWindow .kernel regions) (hnew : area ∉ s.regions)
    (hregions : ∀ a, a ∈ regions ↔ a ∈ s.regions ∨ a = area)
    (hsize : area.size = threadInitialStackSize) (hsp : sp + sizeofCpuStatus = retAddr)
    (hret : retAddr + 8 = area.limit) (hlimit : area.limit < 2 ^ 64) (hroom : area.Room retAddr)
    (hs' : s' = { s with
      sched, regions
      mem := storeStart s.mem exitAddr entryPoint retAddr sp
      threads := Function.update s.threads task (s.threads task ++ [s.sched.nextTid])
      stack := Function.update s.stack s.sched.nextTid area }) :
    s'.Inv ∧ (∀ t, s.Lives t → s.Keeps s' t) ∧ Created exitAddr entryPoint s s' := by
  obtain ⟨hcur, -, hnewCore, hcore⟩ := taskCreateThread_some hcreate
  obtain ⟨hstatus, hexit, hmem⟩ :=
    @storeStart_spec s.mem exitAddr entryPoint retAddr sp hsp (by omega)
  have hlists := H.lists.taskCreateThread hk hcreate
  have hfresh {t : Nat} (ht : s.Lives t) : t ≠ s.sched.nextTid := by
    obtain ⟨k, hk⟩ := ht
    exact (H.lists.lt k t hk).ne
  have hstack {t : Nat} (ht : t ≠ s.sched.nextTid) : s'.stack t = s.stack t := by
    rw [hs']
    exact Function.update_of_ne ht _ _
  have hstackNew : s'.stack s.sched.nextTid = area := by
    rw [hs']
    exact Function.update_self ..
  have hlives (t : Nat) : s'.Lives t ↔ s.Lives t ∨ t = s.sched.nextTid := by
    rw [hs']
    exact mem_update_append
  have hunchanged {t : Nat} (ht : s.Lives t) (a : Nat) (ha : (s.stack t).Contains a) :
      s'.mem a = s.mem a := by
    rw [hs']
    refine hmem a ?_
    by_contra hnot
    push Not at hnot
    refine H.not_contains_new hwf hwindow hnew hregions ht ha ⟨?_, by omega⟩
    have := hroom.1
    generalize sizeofCpuStatus = size at this hsp
    omega
  have hcur' : s'.sched.threadCurrent = s.sched.threadCurrent := by
    rw [hs']
    exact hcur
  have hcontext {t : Nat} (ht : s.Lives t) : (s'.sched.thread t).context =
      (s.sched.thread t).context := by
    rw [hs']
    exact congrArg ThreadCore.context (hcore t (hfresh ht))
  have hstate {t : Nat} (ht : t ≠ s.sched.nextTid) : (s'.sched.thread t).state =
      (s.sched.thread t).state := by
    rw [hs']
    exact congrArg ThreadCore.state (hcore t ht)
  have hkeeps {t : Nat} (ht : s.Lives t) : s.Keeps s' t := by
    refine ⟨hstack (hfresh ht), ?_, fun a ha ha' =>
      hunchanged ht a ((H.placed t ht).contains_of_le ha ha')⟩
    rw [registers, hcur', hcontext ht]
    split
    · next e => rw [hs', registers, if_pos e]
    · next e => exact H.status_of_outside ht e (hunchanged ht)
  have hcontextNew : (s'.sched.thread s.sched.nextTid).context = sp := by
    rw [hs']
    exact congrArg ThreadCore.context hnewCore
  have hstarts : s'.registers s.sched.nextTid = (startStatus entryPoint retAddr).cpu := by
    rw [registers, hcur', if_neg (hfresh H.current_lives).symm, hcontextNew, hs']
    exact congrArg CpuStatus.cpu hstatus
  have hrsp : (s'.registers s.sched.nextTid).rsp = retAddr := by rw [hstarts]; rfl
  have hold {t : Nat} (ht : s'.Lives t) (hne : t ≠ s.sched.nextTid) : s.Lives t :=
    ((hlives t).mp ht).resolve_right hne
  have hzero : 0 ≠ s.sched.nextTid := ((Nat.zero_le _).trans_lt (H.lists.lt _ _ H.lists.current)).ne
  have hareas : s'.regions = regions := by rw [hs']
  have hplacedNew : s'.Placed s.sched.nextTid := by
    refine ⟨?_, fun _ => ?_, fun _ => ?_⟩
    · rw [hstackNew, hrsp]
      exact hroom
    · rw [hstackNew, hrsp, hcontextNew]
      refine ⟨?_, hsp.le⟩
      have := hroom.1
      generalize sizeofCpuStatus = size at this hsp
      omega
    · rw [hstackNew, hrsp]
      omega
  refine ⟨⟨?_, hareas ▸ hwf, hareas ▸ hwindow, ?_, ?_, ?_, fun t ht ht0 => ?_,
    fun t u ht hu ht0 hu0 e => ?_, fun t ht => ?_⟩, fun t ht => hkeeps ht, hlives, ?_, ?_, ?_⟩
  · rw [hs']
    exact hlists
  · rw [hareas]
    intro a ha
    rcases (hregions a).mp ha with ha | rfl
    · exact H.limits a ha
    · exact hlimit
  · rw [hstate hzero]
    exact H.idle
  · rw [hstack hzero]
    exact H.boot
  · rw [hareas, hregions]
    rcases eq_or_ne t s.sched.nextTid with rfl | hne
    · rw [hstackNew]
      exact ⟨.inr rfl, hsize⟩
    · rw [hstack hne]
      exact (H.stackArea t (hold ht hne) ht0).imp_left .inl
  · have hnewStack {v : Nat} (hv : s'.Lives v) (hv0 : v ≠ 0) (hne : v ≠ s.sched.nextTid) :
        s'.stack v ≠ area := by
      rw [hstack hne]
      rintro rfl
      exact hnew (H.stackArea v (hold hv hne) hv0).1
    rcases eq_or_ne t s.sched.nextTid with rfl | htne
    · by_contra hne
      exact hnewStack hu hu0 (Ne.symm hne) (e.symm.trans hstackNew)
    · rcases eq_or_ne u s.sched.nextTid with rfl | hune
      · exact absurd (e.trans hstackNew) (hnewStack ht ht0 htne)
      · rw [hstack htne, hstack hune] at e
        exact H.distinct t u (hold ht htne) (hold hu hune) ht0 hu0 e
  · rcases eq_or_ne t s.sched.nextTid with rfl | hne
    · exact hplacedNew
    · have hlive := hold ht hne
      refine (H.placed t hlive).of_keeps (hkeeps hlive) (fun hcurrent => ?_) fun hz =>
        .inl (hstate hne ▸ hz)
      rw [hcontext hlive]
      exact (H.placed t hlive).frame (hcur' ▸ hcurrent)
  · rw [hstackNew, hareas]
    exact ⟨hnew, hregions⟩
  · rw [hrsp, hs']
    exact hexit
  · rw [hstarts, hstackNew, ← hret, Nat.add_sub_cancel]

theorem createThread (H : s.Inv) {exitAddr task entryPoint : Nat} {threadOk areaOk : Bool}
    (hk : task < s.sched.nextPid)
    (hop : RegionOp.NoWrap .kernel s.regions (.alloc threadInitialStackSize stackFlags true))
    (h : s.createThread exitAddr task entryPoint threadOk areaOk = some s') :
    s'.Inv ∧ (∀ t, s.Lives t → s.Keeps s' t) ∧ (s' = s ∨ Created exitAddr entryPoint s s') := by
  unfold ThreadMachine.createThread at h
  split at h
  · cases h
    exact ⟨H, fun t _ => .refl s t, .inl rfl⟩
  · cases halloc : vmmAllocRegion .kernel s.regions threadInitialStackSize stackFlags areaOk with
    | none =>
      simp only [halloc] at h
      cases h
      exact ⟨H, fun t _ => .refl s t, .inl rfl⟩
    | some result =>
      obtain ⟨regions, base⟩ := result
      simp only [halloc] at h
      obtain ⟨hwf, hwindow, hnew, hregions⟩ := H.new_area hop halloc
      generalize harea :
        (⟨base, threadInitialStackSize, Space.areaFlags .kernel stackFlags⟩ : VmArea) = area
        at h hnew hregions
      have hmem : area ∈ regions := (hregions area).mpr (.inr rfl)
      have hbase : area.base = base := by rw [← harea]
      have hsize : area.size = threadInitialStackSize := by rw [← harea]
      obtain ⟨retAddr, sp, hret, hsp, hlimit, hroom, haddr⟩ :=
        stack_addresses hsize (hwindow area hmem).2.1
      rw [← hbase, haddr.1, haddr.2.1, haddr.2.2] at h
      cases hcreate : taskCreateThread s.sched task sp with
      | none =>
        simp only [hcreate] at h
        cases h
      | some sched =>
        simp only [hcreate] at h
        cases h
        obtain ⟨H', hkeeps, hcreated⟩ :=
          H.created hk hcreate hwf hwindow hnew hregions hsize hret hsp hlimit hroom rfl
        exact ⟨H', hkeeps, .inr hcreated⟩

/-! ## Reaping -/

/-- What a round of the reaper makes of the machine: nothing, or a thread that has exited is gone
with the area of its own stack. -/
def Reaped (s s' : ThreadMachine) : Prop :=
  (∀ t, s'.Lives t ↔ s.Lives t) ∧ s'.regions = s.regions ∨
    ∃ z, s.Lives z ∧ (s.sched.thread z).state = .zombie ∧ (∀ t, s'.Lives t ↔ s.Lives t ∧ t ≠ z) ∧
      s'.regions = s.regions.erase (s.stack z)

theorem registers_of_core {sched : Sched Nat} {regions : List VmArea} {threads : Nat → List Nat}
    (hcur : sched.threadCurrent = s.sched.threadCurrent)
    (hcore : ∀ t, (sched.thread t).core = (s.sched.thread t).core) (t : Nat) :
    ({ s with sched, regions, threads } : ThreadMachine).registers t = s.registers t := by
  have hcontext : (sched.thread t).context = (s.sched.thread t).context :=
    congrArg ThreadCore.context (hcore t)
  simp only [registers, hcur, hcontext]

/-- The thread that is reaped has its stack pointer on its own stack, so that is the area that
`vmm_free` finds. -/
theorem vmmFreeRegion_stack (H : s.Inv) (ht : s.Lives t) (ht0 : t ≠ 0)
    (hne : t ≠ s.sched.threadCurrent) (hz : (s.sched.thread t).state = .zombie) :
    vmmFreeRegion s.regions (cpuStatusAt s.mem (s.sched.thread t).context).rsp =
      some (s.stack t, s.regions.erase (s.stack t)) := by
  have hP := H.placed t ht
  have hrsp : (cpuStatusAt s.mem (s.sched.thread t).context).rsp = (s.registers t).rsp := by
    rw [registers, if_neg hne]
    rfl
  have hcontains : (s.stack t).Contains (s.registers t).rsp :=
    hP.contains_of_le (Nat.le_refl _) (hP.exited hz)
  have hpos : (s.registers t).rsp ≠ 0 := by
    have hstart := (H.window _ (H.stackArea t ht ht0).1).1
    have hlt : 0 < Space.regionSearchStart .kernel := by decide
    exact (hlt.trans_le (hstart.trans hcontains.1)).ne'
  rw [hrsp, vmmFreeRegion, if_neg hpos,
    vmmUnlink_some H.areas H.limits (H.stackArea t ht ht0).1 hcontains]

theorem reap (H : s.Inv) (hidle : s.sched.threadCurrent = 0) (h : s.reap = some s') :
    s'.Inv ∧ (∀ t, s.Lives t → s.Keeps s' t) ∧ Reaped s s' := by
  have hcurrent : (s.sched.thread s.sched.threadCurrent).state ≠ .zombie := hidle ▸ H.idle
  unfold ThreadMachine.reap at h
  split at h
  · cases h
  · next sched hscan =>
    cases h
    obtain ⟨hids, hcore⟩ := reapTasks_some hscan
    have hstate (t : Nat) : (sched.thread t).state = (s.sched.thread t).state :=
      congrArg ThreadCore.state (hcore t)
    have hsame : s.sched.SameContexts sched :=
      ⟨hids.threadCurrent, hids.nextTid, fun t => congrArg ThreadCore.context (hcore t)⟩
    obtain ⟨H', hkeeps⟩ := H.sections s.mutex (H.lists.kernelIdleScan hcurrent hscan).1 hsame
      fun t ht => .inl (hstate t ▸ ht)
    exact ⟨H', fun t _ => hkeeps t, .inl ⟨fun _ => Iff.rfl, rfl⟩⟩
  · next sched z hscan =>
    obtain ⟨hids, hcore⟩ := reapTasks_some hscan
    obtain ⟨hlists, hfound⟩ := H.lists.kernelIdleScan hcurrent hscan
    obtain ⟨hzombie, hz⟩ := hfound z rfl
    have hstate (t : Nat) : (sched.thread t).state = (s.sched.thread t).state :=
      congrArg ThreadCore.state (hcore t)
    have hcontext (t : Nat) : (sched.thread t).context = (s.sched.thread t).context :=
      congrArg ThreadCore.context (hcore t)
    have hz0 : z ≠ 0 := by
      rintro rfl
      exact H.idle hzombie
    have hfree := H.vmmFreeRegion_stack hz hz0 (hidle ▸ hz0) hzombie
    simp only [hcontext, hfree, Option.map_some, Option.getD_some] at h
    cases h
    have hlives (t : Nat) : (∃ k, t ∈ (s.threads k).erase z) ↔ s.Lives t ∧ t ≠ z := by
      constructor
      · rintro ⟨k, hk⟩
        refine ⟨⟨k, List.mem_of_mem_erase hk⟩, ?_⟩
        rintro rfl
        exact (H.lists.toRings.nodup k).not_mem_erase hk
      · rintro ⟨⟨k, hk⟩, hne⟩
        exact ⟨k, (List.mem_erase_of_ne hne).mpr hk⟩
    have hkeeps (t : Nat) : s.Keeps { s with
        sched
        regions := s.regions.erase (s.stack z)
        threads := fun k => (s.threads k).erase z } t :=
      ⟨rfl, registers_of_core hids.threadCurrent hcore t, fun _ _ _ => rfl⟩
    have hsub : (s.regions.erase (s.stack z)).Sublist s.regions := List.erase_sublist
    refine ⟨⟨hlists, H.areas.sublist hsub, fun a ha => H.window a (hsub.subset ha),
      fun a ha => H.limits a (hsub.subset ha), hstate 0 ▸ H.idle, H.boot, fun t ht ht0 => ?_,
      fun t u ht hu => ?_, fun t ht => ?_⟩, fun t _ => hkeeps t, .inr ⟨z, hz, hzombie, hlives, rfl⟩⟩
    · obtain ⟨hlive, hne⟩ := (hlives t).mp ht
      obtain ⟨hmem, hsize⟩ := H.stackArea t hlive ht0
      exact ⟨(List.mem_erase_of_ne fun e => hne (H.distinct t z hlive hz ht0 hz0 e)).mpr hmem,
        hsize⟩
    · exact H.distinct t u ((hlives t).mp ht).1 ((hlives u).mp hu).1
    · have hP := H.placed t ((hlives t).mp ht).1
      refine hP.of_keeps (hkeeps t) (fun hne => ?_) fun hst => .inl (hstate t ▸ hst)
      rw [hcontext]
      exact hP.frame (hids.threadCurrent ▸ hne)

end Inv

end

end ThreadMachine

end Plos
