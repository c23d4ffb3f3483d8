import Plos.Scheduling.Basic
import Plos.Lib.Run

/-! The threads of the kernel over one CPU: the mutex of `lock.c`, the scheduler and the timer.

The code of a thread is a control point (`Pc`): where it stands with respect to the mutex and to
the sections that end in `int $50`. A section between `spinlock_irq_acquire` and
`spinlock_irq_release` is one step, and a tick may fall between any two steps; in particular
between the section in which a thread blocks, goes to sleep or exits and the interrupt by which it
gives up the CPU. The mutex is the only one of the kernel, the one of the heap.

Three fields record history and are never read by a step: who owns the mutex, the threads that have
queued up for it, and those that have been woken. -/

namespace Plos

structure Mutex where
  isLocked : Bool
  waitingQueueHead : Option Nat
  waitingQueueTail : Option Nat
  deriving DecidableEq, Repr

def mutexInit : Mutex := ⟨false, none, none⟩

section
variable {κ : Type u}

/-- The section of `mutex_acquire`, and whether the mutex was free. -/
def mutexAcquire (s : Sched κ) (m : Mutex) : Sched κ × Mutex × Bool :=
  if !m.isLocked then (s, { m with isLocked := true }, true)
  else
    let current := s.threadCurrent
    let s := s.setThread current { s.thread current with nextWaiter := none }
    match m.waitingQueueTail with
    | none =>
      (s.setState current .blocked,
        { m with waitingQueueHead := some current, waitingQueueTail := some current }, false)
    | some tail =>
      let s := s.setThread tail { s.thread tail with nextWaiter := some current }
      (s.setState current .blocked, { m with waitingQueueTail := some current }, false)

/-- The section of `mutex_release`: the mutex stays locked if it is handed over. -/
def mutexRelease (s : Sched κ) (m : Mutex) : Sched κ × Mutex :=
  match m.waitingQueueHead with
  | none => (s, { m with isLocked := false })
  | some woken =>
    let head := (s.thread woken).nextWaiter
    (s.setState woken .ready,
      { m with
        waitingQueueHead := head
        waitingQueueTail := if head = none then none else m.waitingQueueTail })

end

/-- The control point of a thread. -/
inductive Pc where
  /-- outside the critical section -/
  | run
  /-- after `mutex_acquire` has returned -/
  | crit
  /-- in `mutex_acquire`, queued up, before `int $50` -/
  | waiting
  /-- in `mutex_acquire`, after `int $50` -/
  | resumed
  /-- in `thread_sleep` before `int $50`, called inside the critical section or outside -/
  | sleeping (inside : Bool)
  /-- in `task_current_thread_exit` before `int $50` -/
  | exiting
  /-- in `task_current_thread_exit` after `int $50` -/
  | exited
  deriving DecidableEq, Repr

/-- Where a thread goes on after `int $50`. In the code outside of the four functions that is a
voluntary `scheduler_yield`. -/
def Pc.afterYield : Pc → Option Pc
  | run => some run
  | crit => some crit
  | waiting => some resumed
  | sleeping true => some crit
  | sleeping false => some run
  | exiting => some exited
  | resumed | exited => none

structure Sys where
  sched : Sched Pc
  mutex : Mutex
  /-- the control point of the thread on the CPU -/
  pc : Pc
  owner : Option Nat
  arrivals : List Nat
  wakeups : List Nat

/-- The control point of any thread: a thread that is not on the CPU has it in its context. -/
def Sys.ctl (s : Sys) (t : Nat) : Pc :=
  if t = s.sched.threadCurrent then s.pc else (s.sched.thread t).context

/-- The state after `scheduler_init`. -/
def Sys.init : Sys := ⟨schedulerInit .run, mutexInit, .run, none, [], []⟩

inductive SysOp where
  | tick (now : Nat)
  | yield
  | acquire
  | ret
  | release
  | sleep (now ms : Nat)
  | exit
  | createTask
  | createThread (task : Nat)
  | scan
  deriving DecidableEq, Repr

/-- The scheduler runs on `r` and saves `status` for the thread on the CPU. -/
def Sys.schedule (s : Sys) (r : Sched Pc) (status : Pc) : Option Sys :=
  match schedulerSchedule r status with
  | none => none
  | some (r, pc) => some { s with sched := r, pc := pc }

/-- One step of the thread on the CPU, or a tick. -/
def Sys.step (s : Sys) : SysOp → Option Sys
  | .tick now =>
    match timerTick s.sched now with
    | none => none
    | some (r, true) => s.schedule r s.pc
    | some (r, false) => some { s with sched := r }
  | .yield =>
    match s.pc.afterYield with
    | none => none
    | some status => s.schedule s.sched status
  | .acquire =>
    if s.pc = .run then
      match mutexAcquire s.sched s.mutex with
      | (r, m, true) =>
        some { s with sched := r, mutex := m, pc := .crit, owner := some s.sched.threadCurrent }
      | (r, m, false) =>
        some { s with
          sched :=
            r, mutex := m, pc := .waiting, arrivals := s.arrivals ++ [s.sched.threadCurrent] }
    else none
  | .ret => if s.pc = .resumed then some { s with pc := .crit } else none
  | .release =>
    if s.pc = .crit then
      match mutexRelease s.sched s.mutex with
      | (r, m) => some { s with
          sched := r, mutex := m, pc := .run, owner := s.mutex.waitingQueueHead,
          wakeups := s.wakeups ++ s.mutex.waitingQueueHead.toList }
    else none
  | .sleep now ms =>
    match s.pc with
    | .run => some { s with sched := threadSleep s.sched now ms, pc := .sleeping false }
    | .crit => some { s with sched := threadSleep s.sched now ms, pc := .sleeping true }
    | _ => none
  | .exit =>
    if s.pc = .run then some { s with sched := taskCurrentThreadExit s.sched, pc := .exiting }
    else none
  | .createTask =>
    if s.pc = .run then (taskCreate s.sched).map fun r => { s with sched := r } else none
  | .createThread task =>
    if s.pc = .run ∧ task < s.sched.nextPid then
      (taskCreateThread s.sched task .run).map fun r => { s with sched := r }
    else none
  | .scan =>
    -- only the idle thread reaps
    if s.pc = .run ∧ s.sched.threadCurrent = 0 then
      (kernelIdleScan s.sched).map fun r => { s with sched := r.1 }
    else none

end Plos
