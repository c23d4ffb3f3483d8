import Plos.Scheduling.Effects
import Plos.Scheduling.TicketLock

/-! Spin locks, the heap mutex and preemption: `vmm_alloc`, `vmm_free`, `kmalloc` and `kfree` on the
kernel address space.

Of these functions only the lock operations are kept (`Call.code`). A call is the list of its
instructions; how often it takes the lock of the physical memory manager or of the console, and
where it leaves early, is part of the call, so every execution of the four functions is one of the
calls. A spin lock is a ticket lock that saves and clears the interrupt flag, and a tick can only
fall where the flag is set. The interrupt `int $50` of `mutex_acquire` is not masked by the flag.

`vmm_alloc` and `vmm_free` reach `mutex_acquire` with `space->lock` held. If the mutex is locked
there, the thread is taken off the CPU with the lock (`spaceLock_stuck`); if it never is, no thread
ever loses the CPU while it holds a spin lock (`lockRun_disciplined`). -/

namespace Plos

/-- The spin locks: the one of the kernel address space, the internal one of the heap mutex, and
the ones of the physical memory manager and the console. -/
inductive SpinLock where
  | space
  | heap
  | pmm
  | console
  deriving DecidableEq, Repr

inductive Instr where
  /-- `spinlock_irq_acquire` up to the first look at `turn` -/
  | take (l : SpinLock)
  /-- the loop of `spinlock_irq_acquire` with the ticket `mine` -/
  | spin (l : SpinLock) (mine : Nat)
  /-- `spinlock_irq_release` -/
  | give (l : SpinLock)
  /-- the section of `mutex_acquire` and what follows it -/
  | test
  /-- the section of `mutex_release` -/
  | unlock
  /-- `int $50` -/
  | int50
  deriving DecidableEq, Repr

/-- What a thread resumes with: its code, the interrupt flag, the flags its open
`spinlock_irq_acquire` calls have saved, and the spin locks it holds, the last one first. -/
structure Frame where
  code : List Instr
  interrupts : Bool
  saved : List Bool
  held : List SpinLock
  deriving DecidableEq, Repr

def Frame.idle : Frame := ⟨[], true, [], []⟩

/-- A lock that is taken and given back with nothing in between. -/
def leaf (l : SpinLock) : List Instr := [.take l, .give l]

def mutexAcquireCode : List Instr := [.take .heap, .test]
def mutexReleaseCode : List Instr := [.take .heap, .unlock, .give .heap]

/-- The sections of the physical memory manager and the console inside a call. -/
inductive Leaf where
  | pmm
  | console
  deriving DecidableEq, Repr

def Leaf.lock : Leaf → SpinLock
  | pmm => .pmm
  | console => .console

def leaves (ls : List Leaf) : List Instr := ls.flatMap fun l => leaf l.lock

inductive Call where
  /-- `body`: the extensions of the heap -/
  | kmalloc (body : List Leaf)
  /-- `log`: the warning about a double free -/
  | kfree (log : List Leaf)
  /-- `body` is `none` if no hole is found; `mapping` is empty if `kmalloc` fails -/
  | vmmAlloc (body : Option (List Leaf)) (mapping : List Leaf)
  /-- `unmap` is `none` if no area is found -/
  | vmmFree (unmap : Option (List Leaf)) (log : List Leaf)
  deriving DecidableEq, Repr

def kmallocCode (body : List Leaf) : List Instr :=
  mutexAcquireCode ++ leaves body ++ mutexReleaseCode

def kfreeCode (log : List Leaf) : List Instr := mutexAcquireCode ++ mutexReleaseCode ++ leaves log

def Call.code : Call → List Instr
  | kmalloc body => kmallocCode body
  | kfree log => kfreeCode log
  | vmmAlloc none _ => leaf .space
  | vmmAlloc (some body) mapping =>
    .take .space :: (kmallocCode body ++ leaves mapping ++ [.give .space])
  | vmmFree none log => leaf .space ++ leaves log
  | vmmFree (some unmap) log =>
    .take .space :: (leaves unmap ++ kfreeCode log ++ [.give .space])

structure LockSys where
  sched : Sched Frame
  mutex : Mutex
  lock : SpinLock → SpinlockIrq
  cpu : Frame
  /-- the scheduler has run while some thread held a spin lock -/
  switchedHolding : Bool

/-- Some thread holds a spin lock. -/
def LockSys.holding (s : LockSys) : Bool :=
  !s.cpu.held.isEmpty || (List.range s.sched.nextTid).any fun t =>
    t != s.sched.threadCurrent && !(s.sched.thread t).context.held.isEmpty

/-- After `sti`: one thread with no call under way. -/
def LockSys.init : LockSys :=
  ⟨schedulerInit .idle, mutexInit, fun _ => ⟨0, 0⟩, .idle, false⟩

inductive LockOp where
  | tick (now : Nat)
  | call (c : Call)
  | exec
  | createTask
  | createThread (task : Nat)
  deriving DecidableEq, Repr

def LockSys.schedule (s : LockSys) (r : Sched Frame) (status : Frame) : Option LockSys :=
  match schedulerSchedule r status with
  | none => none
  | some (r, cpu) => some { s with
      sched := r, cpu := cpu, switchedHolding := s.switchedHolding || s.holding }

/-- The next instruction of the thread on the CPU. -/
def LockSys.exec (s : LockSys) : Option LockSys :=
  match s.cpu.code with
  | [] => none
  | .take l :: code =>
    let mine := (s.lock l).ticket
    let lock := Function.update s.lock l ⟨add64 mine 1, (s.lock l).turn⟩
    let cpu := { s.cpu with interrupts := false, saved := s.cpu.interrupts :: s.cpu.saved }
    if (s.lock l).turn = mine then
      some { s with lock := lock, cpu := { cpu with code := code, held := l :: s.cpu.held } }
    else some { s with lock := lock, cpu := { cpu with code := .spin l mine :: code } }
  | .spin l mine :: code =>
    if (s.lock l).turn = mine then
      some { s with cpu := { s.cpu with code := code, held := l :: s.cpu.held } }
    else some s
  | .give l :: code =>
    some { s with
      lock := Function.update s.lock l ⟨(s.lock l).ticket, add64 (s.lock l).turn 1⟩
      cpu := ⟨code, s.cpu.saved.headD true, s.cpu.saved.tail, s.cpu.held.erase l⟩ }
  | .test :: code =>
    match mutexAcquire s.sched s.mutex with
    | (r, m, true) =>
      some { s with sched := r, mutex := m, cpu := { s.cpu with code := .give .heap :: code } }
    | (r, m, false) =>
      some { s with
        sched := r, mutex := m, cpu := { s.cpu with code := .give .heap :: .int50 :: code } }
  | .unlock :: code =>
    match mutexRelease s.sched s.mutex with
    | (r, m) => some { s with sched := r, mutex := m, cpu := { s.cpu with code := code } }
  | .int50 :: code => s.schedule s.sched { s.cpu with code := code }

def LockSys.step (s : LockSys) : LockOp → Option LockSys
  | .tick now =>
    if s.cpu.interrupts then
      match timerTick s.sched now with
      | none => none
      | some (r, true) => s.schedule r s.cpu
      | some (r, false) => some { s with sched := r }
    else none
  | .call c =>
    if s.cpu.code = [] then some { s with cpu := { s.cpu with code := c.code } } else none
  | .exec => s.exec
  | .createTask =>
    if s.cpu.code = [] then (taskCreate s.sched).map fun r => { s with sched := r } else none
  | .createThread task =>
    if s.cpu.code = [] ∧ task < s.sched.nextPid then
      (taskCreateThread s.sched task .idle).map fun r => { s with sched := r }
    else none

/-! ## Bracketing -/

/-- The code takes and gives the locks in a bracketed way, from the locks `h` held to the locks
`h'` held; it gives up the CPU with no lock held, and it reaches `mutex_acquire` with at most
`space->lock` held. -/
def Brackets : List SpinLock → List Instr → List SpinLock → Prop
  | h, [], h' => h = h'
  | h, .take l :: code, h' => l ∉ h ∧ Brackets (l :: h) code h'
  | _, .spin _ _ :: _, _ => False
  | h, .give l :: code, h' => ∃ h₁, h = l :: h₁ ∧ Brackets h₁ code h'
  | h, .test :: code, h' =>
    ∃ h₁, h = .heap :: h₁ ∧ (h₁ = [] ∨ h₁ = [.space]) ∧ Brackets h₁ code h'
  | h, .unlock :: code, h' => Brackets h code h'
  | h, .int50 :: code, h' => h = [] ∧ Brackets h code h'

namespace Brackets

variable {h h₁ h₂ : List SpinLock} {code code' : List Instr} {l : SpinLock}

theorem append (H : Brackets h code h₁) (H' : Brackets h₁ code' h₂) :
    Brackets h (code ++ code') h₂ := by
  induction code generalizing h with
  | nil =>
    obtain rfl : h = h₁ := H
    exact H'
  | cons i code ih =>
    cases i with
    | take l => exact ⟨H.1, ih H.2⟩
    | spin l mine => exact H.elim
    | give l =>
      obtain ⟨h₀, rfl, H⟩ := H
      exact ⟨h₀, rfl, ih H⟩
    | test =>
      obtain ⟨h₀, rfl, hs, H⟩ := H
      exact ⟨h₀, rfl, hs, ih H⟩
    | unlock => exact @ih h H
    | int50 => exact ⟨H.1, ih H.2⟩

theorem leaf (hl : l ∉ h) : Brackets h (Plos.leaf l) h := ⟨hl, h, rfl, rfl⟩

theorem leaves (hs : h = [] ∨ h = [.space]) (ls : List Leaf) : Brackets h (Plos.leaves ls) h := by
  induction ls with
  | nil => exact rfl
  | cons l ls ih =>
    refine (leaf (h := h) ?_).append ih
    rcases hs with rfl | rfl <;> cases l <;> decide

theorem mutexAcquire (hs : h = [] ∨ h = [.space]) : Brackets h mutexAcquireCode h := by
  refine ⟨?_, h, rfl, hs, rfl⟩
  rcases hs with rfl | rfl <;> decide

theorem mutexRelease (hs : h = [] ∨ h = [.space]) : Brackets h mutexReleaseCode h := by
  refine ⟨?_, h, rfl, rfl⟩
  rcases hs with rfl | rfl <;> decide

theorem kmalloc (hs : h = [] ∨ h = [.space]) (body : List Leaf) :
    Brackets h (kmallocCode body) h :=
  ((mutexAcquire hs).append (leaves hs body)).append (mutexRelease hs)

theorem kfree (hs : h = [] ∨ h = [.space]) (log : List Leaf) : Brackets h (kfreeCode log) h :=
  ((mutexAcquire hs).append (mutexRelease hs)).append (leaves hs log)

/-- The four functions are bracketed. -/
theorem call (c : Call) : Brackets [] c.code [] := by
  have hgive : Brackets [.space] [.give .space] [] := ⟨[], rfl, rfl⟩
  cases c with
  | kmalloc body => exact kmalloc (.inl rfl) body
  | kfree log => exact kfree (.inl rfl) log
  | vmmAlloc body mapping =>
    cases body with
    | none => exact leaf (by decide)
    | some body =>
      refine ⟨by decide, ?_⟩
      exact ((kmalloc (.inr rfl) body).append (leaves (.inr rfl) mapping)).append hgive
  | vmmFree unmap log =>
    cases unmap with
    | none => exact (leaf (by decide)).append (leaves (.inl rfl) log)
    | some unmap =>
      refine ⟨by decide, ?_⟩
      exact ((leaves (.inr rfl) unmap).append (kfree (.inr rfl) log)).append hgive

end Brackets

/-- The saved flags of a thread with the locks `h` held: the flag was set when the first of them was
taken and has been clear since. -/
def Flags : List SpinLock → (saved : List Bool) → (interrupts : Bool) → Prop
  | [], saved, interrupts => saved = [] ∧ interrupts = true
  | _ :: h, saved, interrupts =>
    interrupts = false ∧ ∃ b saved', saved = b :: saved' ∧ Flags h saved' b

/-- A thread that may be off the CPU. -/
structure Frame.Rest (f : Frame) : Prop where
  held : f.held = []
  flags : Flags f.held f.saved f.interrupts
  code : Brackets [] f.code []

structure Disciplined (s : LockSys) : Prop where
  others : ∀ t, t ≠ s.sched.threadCurrent → (s.sched.thread t).context.Rest
  nodup : s.cpu.held.Nodup
  flags : Flags s.cpu.held s.cpu.saved s.cpu.interrupts
  code : Brackets s.cpu.held s.cpu.code []
  lock : ∀ l, (s.lock l).turn < 2 ^ 64 ∧ (s.lock l).ticket =
    if l ∈ s.cpu.held then add64 (s.lock l).turn 1 else (s.lock l).turn
  clean : s.switchedHolding = false

/-! ## Steps -/

/-- A thread that reaches the section of `mutex_acquire` with `space->lock` held finds the mutex
free. -/
def LockSys.MutexFree (s : LockSys) (op : LockOp) : Prop :=
  op = .exec → s.cpu.code.head? = some .test → .space ∈ s.cpu.held → s.mutex.isLocked = false

instance : Decidable (LockSys.MutexFree s op) :=
  inferInstanceAs (Decidable (_ → _ → _ → _))

namespace Disciplined

variable {s s' : LockSys} {r : Sched Frame} {l : SpinLock} {code : List Instr}

theorem rest_idle : Frame.idle.Rest := ⟨rfl, ⟨rfl, rfl⟩, rfl⟩

theorem init : Disciplined LockSys.init where
  others t ht := by
    have : (LockSys.init.sched.thread t).context = .idle := by
      simp [LockSys.init, schedulerInit, Function.update_of_ne (show t ≠ 0 from ht), noThread]
    rw [this]
    exact rest_idle
  nodup := List.nodup_nil
  flags := ⟨rfl, rfl⟩
  code := rfl
  lock _ := ⟨Nat.two_pow_pos 64, rfl⟩
  clean := rfl

theorem contexts (H : Disciplined s) (hr : s.sched.SameContexts r) (m : Mutex) :
    Disciplined { s with sched := r, mutex := m } where
  others t ht := by
    rw [hr.context]
    exact H.others t (hr.threadCurrent ▸ ht)
  nodup := H.nodup
  flags := H.flags
  code := H.code
  lock := H.lock
  clean := H.clean

theorem setCode (H : Disciplined s) (hcode : Brackets s.cpu.held code []) :
    Disciplined { s with cpu := { s.cpu with code := code } } where
  others := H.others
  nodup := H.nodup
  flags := H.flags
  code := hcode
  lock := H.lock
  clean := H.clean

/-- A set flag means that no lock is held. -/
theorem held_nil {held : List SpinLock} {saved : List Bool} (h : Flags held saved true) :
    held = [] := by
  cases held with
  | nil => rfl
  | cons l held => cases h.1

theorem holding_false (H : Disciplined s) (hheld : s.cpu.held = []) : s.holding = false := by
  simp only [LockSys.holding, hheld, List.isEmpty_nil, Bool.not_true, Bool.false_or,
    List.any_eq_false, Bool.and_eq_true, bne_iff_ne, Bool.not_eq_true', not_and,
    Bool.not_eq_false]
  intro t _ ht
  rw [(H.others t ht).held]
  rfl

/-- The scheduler keeps the discipline if the thread that leaves the CPU holds no lock. -/
theorem schedule (H : Disciplined s) (hr : s.sched.SameContexts r) {status : Frame}
    (hheld : s.cpu.held = []) (hstatus : status.Rest) (h : s.schedule r status = some s') :
    Disciplined s' := by
  unfold LockSys.schedule at h
  split at h
  · cases h
  next r' cpu hs =>
  cases h
  obtain ⟨k, t, -, -, rfl, rfl⟩ := schedulerSchedule_some hs
  have hrest (x : Nat) : ((schedulerPause r status).thread x).context.Rest := by
    rw [schedulerPause_context]
    split
    · exact hstatus
    · next e =>
      rw [hr.context]
      exact H.others x (hr.threadCurrent ▸ e)
  refine ⟨fun x _ => ?_, ?_, (hrest t).flags, ?_, fun l => ?_, ?_⟩
  · rw [schedulerSwitch_context]
    exact hrest x
  · rw [(hrest t).held]
    exact List.nodup_nil
  · rw [(hrest t).held]
    exact (hrest t).code
  · rw [(hrest t).held]
    have := H.lock l
    rwa [hheld] at this
  · simp only [H.clean, H.holding_false hheld, Bool.or_self]

theorem take (H : Disciplined s) (hc : s.cpu.code = .take l :: code) (h : s.exec = some s') :
    Disciplined s' := by
  obtain ⟨hl, hcode⟩ : l ∉ s.cpu.held ∧ Brackets (l :: s.cpu.held) code [] := by
    have := H.code
    rwa [hc] at this
  have hfree : (s.lock l).ticket = (s.lock l).turn := (H.lock l).2.trans (if_neg hl)
  simp only [LockSys.exec, hc, hfree, if_true] at h
  cases h
  refine ⟨H.others, List.nodup_cons.mpr ⟨hl, H.nodup⟩, ⟨rfl, _, _, rfl, H.flags⟩, hcode,
    fun x => ?_, H.clean⟩
  by_cases e : x = l
  · subst e
    simpa using (H.lock x).1
  · simpa [Function.update_of_ne e, e] using H.lock x

theorem give (H : Disciplined s) (hc : s.cpu.code = .give l :: code) (h : s.exec = some s') :
    Disciplined s' := by
  obtain ⟨held, hheld, hcode⟩ : ∃ h₁, s.cpu.held = l :: h₁ ∧ Brackets h₁ code [] := by
    have := H.code
    rwa [hc] at this
  obtain ⟨-, b, saved, hsaved, hflags⟩ := hheld ▸ H.flags
  obtain ⟨hl, hnd⟩ := List.nodup_cons.mp (hheld ▸ H.nodup)
  have hlock := H.lock
  simp only [LockSys.exec, hc, hheld, hsaved, List.headD_cons, List.tail_cons,
    List.erase_cons_head] at h hlock
  cases h
  refine ⟨H.others, hnd, hflags, hcode, fun x => ?_, H.clean⟩
  by_cases e : x = l
  · subst e
    have hticket := (hlock x).2
    rw [if_pos List.mem_cons_self] at hticket
    simp only [Function.update_self, if_neg hl, hticket]
    exact ⟨Nat.mod_lt _ (by decide), trivial⟩
  · simpa [Function.update_of_ne e, e] using hlock x

theorem test (H : Disciplined s) (hc : s.cpu.code = .test :: code)
    (hfree : .space ∈ s.cpu.held → s.mutex.isLocked = false) (h : s.exec = some s') :
    Disciplined s' := by
  obtain ⟨held, hheld, hspace, hcode⟩ : ∃ h₁, s.cpu.held = .heap :: h₁ ∧
      (h₁ = [] ∨ h₁ = [.space]) ∧ Brackets h₁ code [] := by
    have := H.code
    rwa [hc] at this
  have hctx := @Sched.SameContexts.of_mutexAcquire _ s.sched s.mutex
  cases hm : mutexAcquire s.sched s.mutex with
  | mk r m =>
    obtain ⟨m, taken⟩ := m
    rw [hm] at hctx
    simp only [LockSys.exec, hc, hm] at h
    cases taken with
    | true =>
      cases h
      refine (H.contexts hctx m).setCode ?_
      exact ⟨held, hheld, hcode⟩
    | false =>
      cases h
      refine (H.contexts hctx m).setCode ⟨held, hheld, ?_⟩
      -- the mutex was locked, so the thread does not hold `space->lock`
      rcases hspace with rfl | rfl
      · exact ⟨rfl, hcode⟩
      · have hunlocked := hfree (by rw [hheld]; decide)
        simp [mutexAcquire, hunlocked] at hm

theorem exec (H : Disciplined s) (hq : s.MutexFree .exec) (h : s.exec = some s') :
    Disciplined s' := by
  cases hc : s.cpu.code with
  | nil => simp [LockSys.exec, hc] at h
  | cons i code =>
    have hcode := H.code
    rw [hc] at hcode
    cases i with
    | take l => exact H.take hc h
    | spin l mine => exact hcode.elim
    | give l => exact H.give hc h
    | test => exact H.test hc (hq rfl (by rw [hc]; rfl)) h
    | unlock =>
      simp only [LockSys.exec, hc] at h
      cases h
      exact (H.contexts (.of_mutexRelease _) _).setCode hcode
    | int50 =>
      obtain ⟨hheld, hcode⟩ := hcode
      rw [hheld] at hcode
      have hrest : Frame.Rest { s.cpu with code := code } := ⟨hheld, H.flags, hcode⟩
      simp only [LockSys.exec, hc] at h
      exact H.schedule (.refl _) hheld hrest h

theorem createThread (H : Disciplined s) {task : Nat}
    (h : taskCreateThread s.sched task .idle = some r) : Disciplined { s with sched := r } := by
  obtain ⟨hcur, -, hnew, hcore⟩ := taskCreateThread_some h
  refine ⟨fun t ht => ?_, H.nodup, H.flags, H.code, H.lock, H.clean⟩
  by_cases e : t = s.sched.nextTid
  · subst e
    have : (r.thread s.sched.nextTid).context = .idle := congrArg ThreadCore.context hnew
    rw [this]
    exact rest_idle
  · have : (r.thread t).context = (s.sched.thread t).context :=
      congrArg ThreadCore.context (hcore t e)
    rw [this]
    exact H.others t (hcur ▸ ht)

theorem step {op : LockOp} (H : Disciplined s) (hq : s.MutexFree op) (h : s.step op = some s') :
    Disciplined s' := by
  cases op with
  | tick now =>
    obtain ⟨hi, h⟩ := Option.ite_none_right_eq_some.mp h
    have hflags := H.flags
    rw [hi] at hflags
    have hheld := held_nil hflags
    have hcode := H.code
    rw [hheld] at hcode
    split at h
    · cases h
    · next r hr => exact H.schedule (.of_timerTick hr) hheld ⟨hheld, H.flags, hcode⟩ h
    · next r hr =>
      cases h
      exact H.contexts (.of_timerTick hr) s.mutex
  | call c =>
    obtain ⟨hc, ⟨⟩⟩ := Option.ite_none_right_eq_some.mp h
    have hheld : s.cpu.held = [] := by
      have := H.code
      rwa [hc] at this
    refine H.setCode ?_
    rw [hheld]
    exact Brackets.call c
  | exec => exact H.exec hq h
  | createTask =>
    obtain ⟨-, h⟩ := Option.ite_none_right_eq_some.mp h
    obtain ⟨r, hr, rfl⟩ := Option.map_eq_some_iff.mp h
    obtain ⟨hthread, hcur, htid⟩ := taskCreate_some hr
    exact H.contexts ⟨hcur, htid, fun t => by rw [hthread]⟩ s.mutex
  | createThread task =>
    obtain ⟨-, h⟩ := Option.ite_none_right_eq_some.mp h
    obtain ⟨r, hr, rfl⟩ := Option.map_eq_some_iff.mp h
    exact H.createThread hr

end Disciplined

/-- In a run in which every thread that reaches the section of `mutex_acquire` with `space->lock`
held finds the mutex free, the scheduler never runs while a thread holds a spin lock: in every state
the threads off the CPU hold none, and the thread on the CPU never has to spin. -/
theorem lockRun_disciplined {ops : List LockOp}
    (h : AllSteps LockSys.step LockSys.MutexFree LockSys.init ops) :
    Along LockSys.step (fun s => s.switchedHolding = false ∧
      (∀ t, t ≠ s.sched.threadCurrent → (s.sched.thread t).context.held = []) ∧
      (∀ l mine, s.cpu.code.head? ≠ some (.spin l mine)) ∧
      ∀ l, l ∉ s.cpu.held → (s.lock l).ticket = (s.lock l).turn) LockSys.init ops := by
  have H : Along LockSys.step Disciplined LockSys.init ops :=
    .of_allSteps (fun _ _ _ H hq hs => H.step hq hs) .init h
  refine H.imp fun s H => ⟨H.clean, fun t ht => (H.others t ht).held, fun l mine e => ?_,
    fun l hl => (H.lock l).2.trans (if_neg hl)⟩
  have hcode := H.code
  cases hc : s.cpu.code with
  | nil => simp [hc] at e
  | cons i code =>
    rw [hc] at e hcode
    obtain rfl : i = .spin l mine := Option.some.inj e
    exact hcode

/-- The thread that the idle thread has created first is preempted in `kmalloc`, with the mutex
locked; the second one runs `vmm_alloc` and blocks on the mutex; the third one runs `vmm_alloc`. -/
def stuckOps : List LockOp :=
  [.createThread 0, .createThread 0, .createThread 0] ++ List.replicate 4 (.tick 0) ++
  [.call (.kmalloc []), .exec, .exec, .exec] ++ List.replicate 4 (.tick 0) ++
  [.call (.vmmAlloc (some []) []), .exec, .exec, .exec, .exec, .exec] ++
  [.call (.vmmAlloc (some []) []), .exec]

theorem stuckOps_runs : (runFrom LockSys.step LockSys.init stuckOps).isSome := by decide +kernel

/-- The second thread has left the CPU with `space->lock` held, and the third one spins on it with
interrupts disabled: its next step changes nothing and no tick can come. -/
theorem spaceLock_stuck : ∃ s, runFrom LockSys.step LockSys.init stuckOps = some s ∧
    s.switchedHolding = true ∧ (s.sched.thread 2).context.held = [.space] ∧
    s.sched.threadCurrent = 3 ∧ s.cpu.interrupts = false ∧
    s.cpu.code.head? = some (.spin .space 1) ∧ s.step .exec = some s ∧
    ∀ now, s.step (.tick now) = none := by
  have hcode : ((runFrom LockSys.step LockSys.init stuckOps).get stuckOps_runs).cpu.code =
      .spin .space 1 :: (kmallocCode [] ++ leaves [] ++ [.give .space]) := by decide +kernel
  have hturn : (((runFrom LockSys.step LockSys.init stuckOps).get stuckOps_runs).lock
      .space).turn = 0 := by decide +kernel
  have hflag : ((runFrom LockSys.step LockSys.init stuckOps).get
      stuckOps_runs).cpu.interrupts = false := by decide +kernel
  refine ⟨_, (Option.some_get stuckOps_runs).symm, by decide +kernel, by decide +kernel,
    by decide +kernel, hflag, ?_, ?_, fun now => ?_⟩
  · rw [hcode]
    rfl
  · simp only [LockSys.step, LockSys.exec, hcode, hturn]
    rfl
  · simp only [LockSys.step, hflag]
    rfl

/-- A run in which the second thread calls `vmm_alloc` while the mutex is free. -/
theorem lockRun_disciplined_vmmAlloc :
    Along LockSys.step (fun s => s.switchedHolding = false ∧
      (∀ t, t ≠ s.sched.threadCurrent → (s.sched.thread t).context.held = []) ∧
      (∀ l mine, s.cpu.code.head? ≠ some (.spin l mine)) ∧
      ∀ l, l ∉ s.cpu.held → (s.lock l).ticket = (s.lock l).turn) LockSys.init
      ([.createThread 0, .call (.kmalloc [.pmm]), .exec, .exec, .exec, .exec, .exec, .exec, .exec,
        .exec] ++ List.replicate 4 (.tick 0) ++
        [.call (.vmmAlloc (some []) [.console]), .exec, .exec, .exec, .exec]) :=
  lockRun_disciplined (by decide +kernel)

end Plos
