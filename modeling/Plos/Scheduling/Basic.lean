import Mathlib.Logic.Function.Basic
import Plos.Lib.Word

/-! Tasks, threads and the round-robin scheduler of `scheduler.c`, `task.c` and `timer.c`.

A task and a thread are named by the number they get when they are created, which stands for the
address of their structure; the tasks are a circular list through `next`, and so are the threads of
each task. After `scheduler_init` the list of tasks is never empty, so only the `threads` field of
a task can be null. A section under `scheduler_lock` is one function. The saved registers of a
thread are an arbitrary type `κ`.

A loop over a circular list gets the number of its rounds from the number of tasks or threads that
were ever created, and answers `none` if it has not ended by then. -/

namespace Plos

universe u

inductive ThreadState where
  | ready
  | running
  | blocked
  | zombie
  | sleeping
  deriving DecidableEq, Repr

abbrev threadInitialTicks : Nat := 4

structure Thread (κ : Type u) where
  context : κ
  state : ThreadState
  ticksRemaining : Nat
  wakeTime : Nat
  next : Nat
  nextWaiter : Option Nat
  deriving Repr

structure Task where
  threads : Option Nat
  next : Nat
  deriving DecidableEq, Repr

/-- The static data of the scheduler and the structures it can reach. -/
structure Sched (κ : Type u) where
  thread : Nat → Thread κ
  task : Nat → Task
  taskList : Nat
  taskCurrent : Nat
  threadCurrent : Nat
  nextPid : Nat
  nextTid : Nat

variable {κ : Type u}

namespace Sched

def setThread (s : Sched κ) (t : Nat) (th : Thread κ) : Sched κ :=
  { s with thread := Function.update s.thread t th }

def setTask (s : Sched κ) (k : Nat) (task : Task) : Sched κ :=
  { s with task := Function.update s.task k task }

def setState (s : Sched κ) (t : Nat) (state : ThreadState) : Sched κ :=
  s.setThread t { s.thread t with state := state }

end Sched

/-- Memory that holds no thread yet. -/
def noThread (status : κ) : Thread κ := ⟨status, .zombie, 0, 0, 0, none⟩

/-- The idle task with the idle thread, which is the code that runs. -/
def schedulerInit (status : κ) : Sched κ where
  thread := Function.update (fun _ => noThread status) 0
    ⟨status, .running, threadInitialTicks, 0, 0, none⟩
  task := Function.update (fun _ => ⟨none, 0⟩) 0 ⟨some 0, 0⟩
  taskList := 0
  taskCurrent := 0
  threadCurrent := 0
  nextPid := 1
  nextTid := 1

/-! ## Creation -/

/-- `while(current->next != head) current = current->next`. -/
def lastNode (next : Nat → Nat) (head : Nat) : Nat → (current : Nat) → Option Nat
  | 0, _ => none
  | n + 1, current =>
    if next current = head then some current else lastNode next head n (next current)

/-- The new task goes to the end of the list. -/
def taskCreate (s : Sched κ) : Option (Sched κ) :=
  match lastNode (fun k => (s.task k).next) s.taskList s.nextPid s.taskList with
  | none => none
  | some last =>
    let new := s.nextPid
    let s := s.setTask last { s.task last with next := new }
    let s := s.setTask new ⟨none, s.taskList⟩
    some { s with nextPid := s.nextPid + 1 }

/-- The new thread goes to the end of the list of its task and will start with `entry`. -/
def taskCreateThread (s : Sched κ) (task : Nat) (entry : κ) : Option (Sched κ) :=
  let new := s.nextTid
  match (s.task task).threads with
  | none =>
    let s := s.setTask task { s.task task with threads := some new }
    let s := s.setThread new ⟨entry, .ready, threadInitialTicks, 0, new, none⟩
    some { s with nextTid := s.nextTid + 1 }
  | some head =>
    match lastNode (fun t => (s.thread t).next) head s.nextTid head with
    | none => none
    | some last =>
      let s := s.setThread last { s.thread last with next := new }
      let s := s.setThread new ⟨entry, .ready, threadInitialTicks, 0, head, none⟩
      some { s with nextTid := s.nextTid + 1 }

/-! ## The scheduler -/

/-- The place after a thread: the next thread of its task, or the first one of the next task. -/
def searchNext (s : Sched κ) (task thread : Nat) : Nat × Option Nat :=
  if some (s.thread thread).next = (s.task task).threads then
    ((s.task task).next, (s.task (s.task task).next).threads)
  else (task, some (s.thread thread).next)

/-- The search loop of `scheduler_schedule`. -/
def schedulerSearch (s : Sched κ) : Nat → Nat × Option Nat → Option (Nat × Nat)
  | 0, _ => none
  | n + 1, (task, none) =>
    schedulerSearch s n ((s.task task).next, (s.task (s.task task).next).threads)
  | n + 1, (task, some thread) =>
    if (s.thread thread).state = .ready then some (task, thread)
    else
      let place := searchNext s task thread
      -- the anti-freeze check
      if place = (s.taskCurrent, some s.threadCurrent) then
        if (s.thread s.threadCurrent).state = .ready then some (s.taskCurrent, s.threadCurrent)
        else schedulerSearch s n (s.taskList, (s.task s.taskList).threads)
      else schedulerSearch s n place

/-- The running thread is paused and its registers are saved. -/
def schedulerPause (s : Sched κ) (status : κ) : Sched κ :=
  let s := if (s.thread s.threadCurrent).state = .running then
    s.setState s.threadCurrent .ready else s
  s.setThread s.threadCurrent { s.thread s.threadCurrent with context := status }

/-- Where the search ends for a paused state. -/
def schedulerFind (s : Sched κ) : Option (Nat × Nat) :=
  schedulerSearch s (s.nextPid + s.nextTid) (searchNext s s.taskCurrent s.threadCurrent)

/-- The chosen thread becomes the running one. -/
def schedulerSwitch (s : Sched κ) (task thread : Nat) : Sched κ :=
  { s with taskCurrent := task, threadCurrent := thread }.setState thread .running

/-- Returns the registers of the thread that runs next. -/
def schedulerSchedule (s : Sched κ) (status : κ) : Option (Sched κ × κ) :=
  let s := schedulerPause s status
  match schedulerFind s with
  | none => none
  | some (task, thread) => some (schedulerSwitch s task thread, (s.thread thread).context)

/-! ## Waking -/

def wakeThread (now : Nat) (th : Thread κ) : Thread κ :=
  if th.state = .sleeping ∧ th.wakeTime ≤ now then { th with state := .ready, wakeTime := 0 }
  else th

def wakeThreads (now task : Nat) : Nat → Sched κ → (curr : Nat) → Option (Sched κ)
  | 0, _, _ => none
  | n + 1, s, curr =>
    let s := s.setThread curr (wakeThread now (s.thread curr))
    if some (s.thread curr).next = (s.task task).threads then some s
    else wakeThreads now task n s (s.thread curr).next

def wakeTask (now : Nat) (s : Sched κ) (task : Nat) : Option (Sched κ) :=
  match (s.task task).threads with
  | none => some s
  | some head => wakeThreads now task s.nextTid s head

def wakeTasks (now : Nat) : Nat → Sched κ → (task : Nat) → Option (Sched κ)
  | 0, _, _ => none
  | n + 1, s, task =>
    match wakeTask now s task with
    | none => none
    | some s =>
      if (s.task task).next = s.taskList then some s else wakeTasks now n s (s.task task).next

def schedulerWakeSleepingThreads (s : Sched κ) (now : Nat) : Option (Sched κ) :=
  wakeTasks now s.nextPid s s.taskList

/-- What `timer_handler` does before it may call the scheduler, and whether it calls it. -/
def timerTick (s : Sched κ) (now : Nat) : Option (Sched κ × Bool) :=
  match schedulerWakeSleepingThreads s now with
  | none => none
  | some s =>
    let th := s.thread s.threadCurrent
    if sub64 th.ticksRemaining 1 = 0 then
      some (s.setThread s.threadCurrent { th with ticksRemaining := threadInitialTicks }, true)
    else
      some (s.setThread s.threadCurrent
        { th with ticksRemaining := sub64 th.ticksRemaining 1 }, false)

/-! ## Sleeping, exiting and reaping -/

/-- The section of `thread_sleep`. -/
def threadSleep (s : Sched κ) (now ms : Nat) : Sched κ :=
  s.setThread s.threadCurrent
    { s.thread s.threadCurrent with wakeTime := add64 now ms, state := .sleeping }

/-- The section of `task_current_thread_exit`. -/
def taskCurrentThreadExit (s : Sched κ) : Sched κ := s.setState s.threadCurrent .zombie

/-- The inner loop of the reaper: the first zombie from `curr` on and the thread before it. -/
def reapThreads (s : Sched κ) (task : Nat) : Nat → (prev curr : Nat) → Option (Option (Nat × Nat))
  | 0, _, _ => none
  | n + 1, prev, curr =>
    if (s.thread curr).state = .zombie then some (some (prev, curr))
    else if some (s.thread curr).next = (s.task task).threads then some none
    else reapThreads s task n curr (s.thread curr).next

/-- The reaper takes a thread off its list. -/
def reapUnlink (s : Sched κ) (task prev curr : Nat) : Sched κ :=
  if curr = (s.thread curr).next then s.setTask task { s.task task with threads := none }
  else
    let next := (s.thread curr).next
    let s := s.setThread prev { s.thread prev with next := next }
    if some curr = (s.task task).threads then
      s.setTask task { s.task task with threads := some next }
    else s

/-- The outer loop of the reaper, and the thread it has taken off. -/
def reapTasks : Nat → Sched κ → (task : Nat) → Option (Sched κ × Option Nat)
  | 0, _, _ => none
  | n + 1, s, task =>
    let found := match (s.task task).threads with
      | none => some none
      | some head => reapThreads s task s.nextTid head (s.thread head).next
    match found with
    | none => none
    | some (some (prev, curr)) => some (reapUnlink s task prev curr, some curr)
    | some none =>
      if (s.task task).next = s.taskList then some (s, none)
      else reapTasks n s (s.task task).next

/-- One scan of `kernel_idle_thread`. -/
def kernelIdleScan (s : Sched κ) : Option (Sched κ × Option Nat) := reapTasks s.nextPid s s.taskList

end Plos
