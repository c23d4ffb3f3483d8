import Plos.Interrupts.Frame
import Plos.Memory.Vmm.Basic
import Plos.Scheduling.System

/-! The threads of the kernel on one CPU, down to their stacks: `interrupt_handler` of
`interrupts/isr.c`, the frame that `task_create_thread` prepares, and the stack that the reaper
frees.

Here the context of a thread is what the source has in that field, the address of a `struct
cpu_status` on the thread's stack. Between two steps of the kernel the thread on the CPU executes
its own code, which is any change of its registers and any stores. An interrupt runs the code of
`isr.asm`, the handler, which stores what it likes below the frame, and the code of `isr.asm` again.
A section under a lock is one step.

Two fields record history and are never read by a step: the threads of each task that have been
created and not yet reaped, and the area that a thread got as its stack. -/

namespace Plos

abbrev pageFaultVector : Nat := 14
abbrev lapicTimerVector : Nat := 32
abbrev yieldVector : Nat := 50
abbrev spuriousVector : Nat := 0xFF

abbrev gdtKernelCs : Nat := 1
abbrev gdtKernelDs : Nat := 2

abbrev threadInitialStackSize : Nat := 4 * pagingPageSize

/-- The flags of the area of a stack. -/
abbrev stackFlags : Nat := vmmFlagsRead ||| vmmFlagsWrite ||| vmmFlagsAnon

/-- Stores of words, in order. -/
def storeWords (mem : Nat → Nat) (stores : List (Nat × Nat)) : Nat → Nat :=
  stores.foldl (fun mem store => Function.update mem store.1 store.2) mem

/-! ## Interrupts -/

/-- The rest of `timer_handler`, with the context that it returns. -/
def timerHandler (s : Sched Nat) (now context : Nat) : Option (Sched Nat × Nat) :=
  match timerTick s now with
  | none => none
  | some (s, true) => schedulerSchedule s context
  | some (s, false) => some (s, context)

/-- What a handler does apart from the scheduler, such as mapping a page, does not show here. -/
def interruptHandler (s : Sched Nat) (mem : Nat → Nat) (now context : Nat) :
    Option (Sched Nat × Nat) :=
  let vectorNumber := (cpuStatusAt mem context).vectorNumber
  if vectorNumber = pageFaultVector then some (s, context)
  else if vectorNumber = lapicTimerVector then timerHandler s now context
  else if vectorNumber = yieldVector then schedulerSchedule s context
  else if vectorNumber = spuriousVector then some (s, context)
  else some (s, context)

structure ThreadMachine where
  sched : Sched Nat
  mutex : Mutex
  cpu : Cpu
  mem : Nat → Nat
  /-- `kernel_vas->region_list` -/
  regions : List VmArea
  threads : Nat → List Nat
  stack : Nat → VmArea

namespace ThreadMachine

/-- An interrupt, from the thread on the CPU to the thread that goes on. -/
def interrupt (s : ThreadMachine) (vector : Nat) (error : Option Nat) (now : Nat)
    (scratch : List (Nat × Nat)) (left : Gpr → Nat) : Option ThreadMachine :=
  let (context, mem) := interruptEntry s.cpu s.mem vector error
  match interruptHandler s.sched mem now context with
  | none => none
  | some (sched, nextStack) =>
    let mem := storeWords mem scratch
    some { s with sched, mem, cpu := interruptReturn left mem nextStack }

/-! ## Threads -/

/-- The status of a thread that has not run yet. -/
def startStatus (entryPoint retAddr : Nat) : CpuStatus where
  gpr _ := 0
  gprRsp := 0
  vectorNumber := 0
  errorCode := 0
  rip := entryPoint
  cs := gdtKernelCs * 8
  rflags := 0x202
  rsp := retAddr
  ss := gdtKernelDs * 8

/-- What `task_create_thread` stores on the new stack: the address that the thread returns to, and
its status. -/
def storeStart (mem : Nat → Nat) (exit entryPoint retAddr sp : Nat) : Nat → Nat :=
  storeWordsAt (Function.update mem retAddr exit) sp (startStatus entryPoint retAddr).words

/-- `task_create_thread`, with `exit` the address of `task_current_thread_exit`; the machine is left
as it is if there is no memory for the thread or for its stack. -/
def createThread (s : ThreadMachine) (exit task entryPoint : Nat) (threadOk areaOk : Bool) :
    Option ThreadMachine :=
  if entryPoint = 0 ∨ threadOk = false then some s
  else
    match vmmAllocRegion .kernel s.regions threadInitialStackSize stackFlags areaOk with
    | none => some s
    | some (regions, newStackBottom) =>
      let stackTop := add64 newStackBottom threadInitialStackSize
      let retAddr := sub64 stackTop 8
      let sp := sub64 retAddr sizeofCpuStatus
      match taskCreateThread s.sched task sp with
      | none => none
      | some sched => some { s with
          sched, regions
          mem := storeStart s.mem exit entryPoint retAddr sp
          threads := Function.update s.threads task (s.threads task ++ [s.sched.nextTid])
          stack := Function.update s.stack s.sched.nextTid
            ⟨newStackBottom, threadInitialStackSize, Space.areaFlags .kernel stackFlags⟩ }

/-- One round of `kernel_idle_thread`. -/
def reap (s : ThreadMachine) : Option ThreadMachine :=
  match kernelIdleScan s.sched with
  | none => none
  | some (sched, none) => some { s with sched }
  | some (sched, some threadToDelete) =>
    let rsp := (cpuStatusAt s.mem (sched.thread threadToDelete).context).rsp
    some { s with
      sched
      regions := ((vmmFreeRegion s.regions rsp).map Prod.snd).getD s.regions
      threads := fun k => (s.threads k).erase threadToDelete }

end ThreadMachine

/-! ## Steps -/

inductive MachineOp where
  | exec (cpu : Cpu) (stores : List (Nat × Nat))
  | interrupt (vector : Nat) (error : Option Nat) (now : Nat) (scratch : List (Nat × Nat))
    (left : Gpr → Nat)
  | acquire
  | release
  | sleep (now ms : Nat)
  | exit
  | createTask
  | createThread (task entryPoint : Nat) (threadOk areaOk : Bool)
  | reap
  | alloc (size flags : Nat) (kmallocOk : Bool)
  | free (addr : Nat)

/-- `exitAddr` is the address of `task_current_thread_exit`. -/
def ThreadMachine.step (exitAddr : Nat) (s : ThreadMachine) : MachineOp → Option ThreadMachine
  | .exec cpu stores => some { s with cpu, mem := storeWords s.mem stores }
  | .interrupt vector error now scratch left => s.interrupt vector error now scratch left
  | .acquire =>
    some { s with
      sched := (mutexAcquire s.sched s.mutex).1
      mutex := (mutexAcquire s.sched s.mutex).2.1 }
  | .release =>
    some { s with
      sched := (mutexRelease s.sched s.mutex).1
      mutex := (mutexRelease s.sched s.mutex).2 }
  | .sleep now ms => some { s with sched := threadSleep s.sched now ms }
  | .exit => some { s with sched := taskCurrentThreadExit s.sched }
  | .createTask => (taskCreate s.sched).map fun sched => { s with sched }
  | .createThread task entryPoint threadOk areaOk =>
    if task < s.sched.nextPid then s.createThread exitAddr task entryPoint threadOk areaOk else none
  -- only the idle thread reaps
  | .reap => if s.sched.threadCurrent = 0 then s.reap else none
  | .alloc size flags kmallocOk =>
    (regionStep .kernel s.regions (.alloc size flags kmallocOk)).map fun regions =>
      { s with regions }
  | .free addr => (regionStep .kernel s.regions (.free addr)).map fun regions => { s with regions }

/-- After `scheduler_init`, on the stack that the kernel was booted with. -/
def ThreadMachine.init (bootStack : VmArea) (cpu : Cpu) (mem : Nat → Nat) : ThreadMachine where
  sched := schedulerInit 0
  mutex := mutexInit
  cpu := cpu
  mem := mem
  regions := []
  threads := Function.update (fun _ => []) 0 [0]
  stack := fun _ => bootStack

end Plos
