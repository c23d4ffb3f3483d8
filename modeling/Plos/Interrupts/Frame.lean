import Plos.Lib.StackCode

/-! The frame of an interrupt: `struct cpu_status` of `interrupts/isr.h` and the code of
`interrupts/isr.asm` that builds it and returns from it.

The kernel runs at one privilege level and no gate names a stack of its own, so the CPU builds the
frame on the stack that is in use, below the next multiple of 16: `ss`, `rsp`, `rflags`, `cs`, `rip`
and, for some exceptions, an error code. The stub of the vector and the common code push the
rest. -/

namespace Plos

/-- The general purpose registers but `rsp`. -/
inductive Gpr where
  | rax
  | rbx
  | rcx
  | rdx
  | rsi
  | rdi
  | rbp
  | r8
  | r9
  | r10
  | r11
  | r12
  | r13
  | r14
  | r15
  deriving DecidableEq, Repr

/-- The registers that a thread of the kernel has. -/
@[ext]
structure Cpu where
  gpr : Gpr → Nat
  rip : Nat
  cs : Nat
  rflags : Nat
  rsp : Nat
  ss : Nat

/-! ## `struct cpu_status` -/

@[ext]
structure CpuStatus where
  gpr : Gpr → Nat
  /-- the place of `rsp` among the general purpose registers -/
  gprRsp : Nat
  vectorNumber : Nat
  errorCode : Nat
  rip : Nat
  cs : Nat
  rflags : Nat
  rsp : Nat
  ss : Nat

abbrev cpuStatusWords : Nat := 23

/-- `sizeof(struct cpu_status)`. -/
abbrev sizeofCpuStatus : Nat := 8 * cpuStatusWords

/-- The index of a register in `general_purpose_registers`. -/
def Gpr.index : Gpr → Nat
  | rax => 0
  | rbx => 1
  | rcx => 2
  | rdx => 3
  | rsi => 4
  | rdi => 5
  | rbp => 7
  | r8 => 8
  | r9 => 9
  | r10 => 10
  | r11 => 11
  | r12 => 12
  | r13 => 13
  | r14 => 14
  | r15 => 15

/-- The structure at an address. -/
def cpuStatusAt (mem : Nat → Nat) (p : Nat) : CpuStatus where
  gpr r := mem (p + 8 * r.index)
  gprRsp := mem (p + 8 * 6)
  vectorNumber := mem (p + 8 * 16)
  errorCode := mem (p + 8 * 17)
  rip := mem (p + 8 * 18)
  cs := mem (p + 8 * 19)
  rflags := mem (p + 8 * 20)
  rsp := mem (p + 8 * 21)
  ss := mem (p + 8 * 22)

/-- The words of the structure in memory. -/
def CpuStatus.words (s : CpuStatus) : List Nat :=
  [s.gpr .rax, s.gpr .rbx, s.gpr .rcx, s.gpr .rdx, s.gpr .rsi, s.gpr .rdi, s.gprRsp, s.gpr .rbp,
    s.gpr .r8, s.gpr .r9, s.gpr .r10, s.gpr .r11, s.gpr .r12, s.gpr .r13, s.gpr .r14, s.gpr .r15,
    s.vectorNumber, s.errorCode, s.rip, s.cs, s.rflags, s.rsp, s.ss]

theorem words_cpuStatusAt (mem : Nat → Nat) (p : Nat) :
    (cpuStatusAt mem p).words = wordsAt mem p cpuStatusWords := rfl

theorem CpuStatus.words_injective {s t : CpuStatus} (h : s.words = t.words) : s = t := by
  simp only [CpuStatus.words, List.cons.injEq, and_true] at h
  obtain ⟨h₀, h₁, h₂, h₃, h₄, h₅, h₆, h₇, h₈, h₉, h₁₀, h₁₁, h₁₂, h₁₃, h₁₄, h₁₅, hv, he, hrip, hcs,
      hfl, hrsp, hss⟩ := h
  refine CpuStatus.ext (funext fun r => ?_) h₆ hv he hrip hcs hfl hrsp hss
  cases r <;> assumption

/-- The registers that a status stands for. -/
def CpuStatus.cpu (s : CpuStatus) : Cpu := ⟨s.gpr, s.rip, s.cs, s.rflags, s.rsp, s.ss⟩

theorem cpuStatusAt_congr {mem mem' : Nat → Nat} {p : Nat}
    (h : ∀ a, p ≤ a → a < p + sizeofCpuStatus → mem' a = mem a) :
    cpuStatusAt mem' p = cpuStatusAt mem p := by
  apply CpuStatus.words_injective
  rw [words_cpuStatusAt, words_cpuStatusAt]
  exact wordsAt_congr h

/-! ## The code -/

/-- The vectors whose stub is `error_code_interrupt_handler`. -/
def errorCodeVectors : List Nat := [8, 10, 11, 12, 13, 14, 17, 30]

/-- The vectors of the exceptions for which the CPU pushes an error code. The stubs take `#CP`, 21,
and `#VC`, 29, for exceptions without one. -/
def cpuErrorCodeVectors : List Nat := [8, 10, 11, 12, 13, 14, 17, 21, 29, 30]

/-- What the CPU pushes. -/
def deliver (cpu : Cpu) (error : Option Nat) : List (StackInstr Gpr) :=
  [.pushImm cpu.ss, .pushImm cpu.rsp, .pushImm cpu.rflags, .pushImm cpu.cs, .pushImm cpu.rip] ++
    error.toList.map .pushImm

/-- The stub of a vector. -/
def interruptHandlerStub (vector : Nat) : List (StackInstr Gpr) :=
  if vector ∈ errorCodeVectors then [.pushImm vector] else [.pushImm 0, .pushImm vector]

/-- `common_interrupt_handler` up to the call of `interrupt_handler`. -/
def commonSave : List (StackInstr Gpr) :=
  [.push .r15, .push .r14, .push .r13, .push .r12, .push .r11, .push .r10, .push .r9, .push .r8,
    .push .rbp, .pushSp, .push .rdi, .push .rsi, .push .rdx, .push .rcx, .push .rbx, .push .rax]

/-- `common_interrupt_handler` from `mov rsp, rax` up to `iretq`. -/
def commonRestore : List (StackInstr Gpr) :=
  [.pop .rax, .pop .rbx, .pop .rcx, .pop .rdx, .pop .rsi, .pop .rdi, .addSp 8, .pop .rbp, .pop .r8,
    .pop .r9, .pop .r10, .pop .r11, .pop .r12, .pop .r13, .pop .r14, .pop .r15, .addSp 0x10]

/-- The CPU aligns the stack before it pushes. -/
def alignStack (rsp : Nat) : Nat := rsp / 16 * 16

/-- From the interrupt to the call of `interrupt_handler`: the pointer that is passed, and the
memory. -/
def interruptEntry (cpu : Cpu) (mem : Nat → Nat) (vector : Nat) (error : Option Nat) :
    Nat × (Nat → Nat) :=
  let c :=
    execCode ⟨cpu.gpr, alignStack cpu.rsp, mem⟩
      (deliver cpu error ++ interruptHandlerStub vector ++ commonSave)
  (c.sp, c.mem)

/-- From the return of `interrupt_handler` with `context` to the instruction after `iretq`. The
registers hold what the handler has left in them. -/
def interruptReturn (left : Gpr → Nat) (mem : Nat → Nat) (context : Nat) : Cpu :=
  let c := execCode ⟨left, context, mem⟩ commonRestore
  { gpr := c.reg
    rip := c.mem c.sp
    cs := c.mem (add64 c.sp 8)
    rflags := c.mem (add64 c.sp 16)
    rsp := c.mem (add64 c.sp 24)
    ss := c.mem (add64 c.sp 32) }

/-! ## The frame -/

section
variable {cpu : Cpu} {mem : Nat → Nat} {vector : Nat} {error : Option Nat} {p : Nat}

/-- The frame of an interrupt. -/
def interruptStatus (cpu : Cpu) (vector : Nat) (error : Option Nat) : CpuStatus where
  gpr := cpu.gpr
  gprRsp := alignStack cpu.rsp - 128
  vectorNumber := vector
  errorCode := error.getD 0
  rip := cpu.rip
  cs := cpu.cs
  rflags := cpu.rflags
  rsp := cpu.rsp
  ss := cpu.ss

/-- The address of the frame. -/
def framePointer (rsp : Nat) : Nat := alignStack rsp - sizeofCpuStatus

/-- What is on the stack when the handler is called, as the code leaves it on a list. -/
theorem interruptEntry_words {limit : Nat} {words : List Nat}
    (hlist : execListCode (alignStack cpu.rsp) ⟨cpu.gpr, []⟩
      (deliver cpu error ++ interruptHandlerStub vector ++ commonSave) = ⟨cpu.gpr, words⟩)
    (hfits : CodeFits limit 0 (deliver cpu error ++ interruptHandlerStub vector ++ commonSave))
    (hroom : 8 * limit ≤ alignStack cpu.rsp) (hrsp : cpu.rsp < 2 ^ 64) :
    (interruptEntry cpu mem vector error).1 + 8 * words.length = alignStack cpu.rsp ∧
      wordsAt (interruptEntry cpu mem vector error).2 (interruptEntry cpu mem vector error).1
        words.length = words ∧
      ∀ a, a < alignStack cpu.rsp - 8 * limit ∨ alignStack cpu.rsp ≤ a →
        (interruptEntry cpu mem vector error).2 a = mem a := by
  have htop : alignStack cpu.rsp < 2 ^ 64 := Nat.lt_of_le_of_lt (Nat.div_mul_le_self _ _) hrsp
  have H : StackCpu.Holds (alignStack cpu.rsp) ⟨cpu.gpr, alignStack cpu.rsp, mem⟩ ⟨cpu.gpr, []⟩ :=
    ⟨rfl, rfl, rfl⟩
  have Hcode := H.code htop hroom hfits
  rw [hlist] at Hcode
  exact ⟨Hcode.sp, Hcode.words, fun a ha => execCode_frame htop hroom H hfits ha⟩

theorem interruptEntry_list (herror : error.isSome ↔ vector ∈ errorCodeVectors) :
    execListCode (alignStack cpu.rsp) ⟨cpu.gpr, []⟩
      (deliver cpu error ++ interruptHandlerStub vector ++ commonSave) =
        ⟨cpu.gpr, (interruptStatus cpu vector error).words⟩ := by
  cases error with
  | none =>
    have hv : vector ∉ errorCodeVectors := fun h => by simpa using herror.mpr h
    rw [interruptHandlerStub, if_neg hv]
    rfl
  | some code =>
    rw [interruptHandlerStub, if_pos (herror.mp rfl)]
    rfl

theorem interruptEntry_fits (herror : error.isSome ↔ vector ∈ errorCodeVectors) :
    CodeFits cpuStatusWords 0 (deliver cpu error ++ interruptHandlerStub vector ++ commonSave) := by
  cases error with
  | none =>
    have hv : vector ∉ errorCodeVectors := fun h => by simpa using herror.mpr h
    rw [interruptHandlerStub, if_neg hv]
    simp [CodeFits, deliver, commonSave, cpuStatusWords]
  | some code =>
    rw [interruptHandlerStub, if_pos (herror.mp rfl)]
    simp [CodeFits, deliver, commonSave, cpuStatusWords]

/-- The entry code passes a pointer to the status of the interrupted code, and writes nothing
else, if the CPU pushes what the stub expects. -/
theorem interruptEntry_eq (herror : error.isSome ↔ vector ∈ errorCodeVectors)
    (hroom : sizeofCpuStatus ≤ alignStack cpu.rsp) (hrsp : cpu.rsp < 2 ^ 64) :
    (interruptEntry cpu mem vector error).1 = framePointer cpu.rsp ∧
      cpuStatusAt (interruptEntry cpu mem vector error).2 (framePointer cpu.rsp) =
        interruptStatus cpu vector error ∧
      ∀ a, a < framePointer cpu.rsp ∨ alignStack cpu.rsp ≤ a →
        (interruptEntry cpu mem vector error).2 a = mem a := by
  obtain ⟨hsp, hwords, hframe⟩ :=
    @interruptEntry_words cpu mem vector error _ _ (interruptEntry_list herror)
      (interruptEntry_fits herror) hroom hrsp
  have hsp : (interruptEntry cpu mem vector error).1 = framePointer cpu.rsp :=
    Nat.eq_sub_of_add_eq hsp
  refine ⟨hsp, ?_, hframe⟩
  apply CpuStatus.words_injective
  rw [words_cpuStatusAt, ← hsp]
  exact hwords

/-- The exit code loads the registers of the status that it gets, whatever the handler has left in
them. -/
theorem interruptReturn_eq (left : Gpr → Nat) (hp : p + sizeofCpuStatus < 2 ^ 64) :
    interruptReturn left mem p = (cpuStatusAt mem p).cpu := by
  have H : StackCpu.Holds (p + sizeofCpuStatus) ⟨left, p, mem⟩ ⟨left, (cpuStatusAt mem p).words⟩ :=
    ⟨rfl, rfl, (words_cpuStatusAt mem p).symm⟩
  have hfits : CodeFits cpuStatusWords (cpuStatusAt mem p).words.length commonRestore := by
    simp [CodeFits, commonRestore, CpuStatus.words]
  have Hcode := H.code hp (Nat.le_add_left _ _) hfits
  have hreg := Hcode.reg
  have hsp : (execCode ⟨left, p, mem⟩ commonRestore).sp = p + 144 := by
    have hsp := Hcode.sp
    change _ + 8 * 5 = p + 184 at hsp
    omega
  have hmem : (execCode ⟨left, p, mem⟩ commonRestore).mem = mem := rfl
  have hadd {k : Nat} (hk : k ≤ 32) : add64 (p + 144) k = p + 144 + k := by
    simp only [sizeofCpuStatus, cpuStatusWords] at hp
    exact add64_of_lt (by omega)
  simp only [interruptReturn, hreg, hsp, hmem, hadd (Nat.le_refl 32), hadd (show 8 ≤ 32 by decide),
    hadd (show 16 ≤ 32 by decide), hadd (show 24 ≤ 32 by decide)]
  refine Cpu.ext (funext fun r => ?_) rfl rfl rfl rfl rfl
  cases r <;> rfl

/-- An interrupt is transparent: the handler gets the status of the interrupted code, and if it
returns the pointer that it got and leaves the frame alone, that code goes on with the registers
it had, whatever else the handler has done. This is so for every vector on which the stubs and the
CPU agree. -/
theorem interrupt_transparent {mem' : Nat → Nat} (left : Gpr → Nat)
    (herror : error.isSome ↔ vector ∈ cpuErrorCodeVectors)
    (hstub : vector ∈ errorCodeVectors ↔ vector ∈ cpuErrorCodeVectors)
    (hroom : sizeofCpuStatus ≤ alignStack cpu.rsp) (hrsp : cpu.rsp < 2 ^ 64)
    (hframe : ∀ a, (interruptEntry cpu mem vector error).1 ≤ a →
      a < (interruptEntry cpu mem vector error).1 + sizeofCpuStatus →
        mem' a = (interruptEntry cpu mem vector error).2 a) :
    cpuStatusAt (interruptEntry cpu mem vector error).2 (interruptEntry cpu mem vector error).1 =
        interruptStatus cpu vector error ∧
      interruptReturn left mem' (interruptEntry cpu mem vector error).1 = cpu ∧
      ∀ a, cpu.rsp ≤ a → (interruptEntry cpu mem vector error).2 a = mem a := by
  obtain ⟨hpointer, hstatus, hentry⟩ :=
    @interruptEntry_eq cpu mem vector error (herror.trans hstub.symm) hroom hrsp
  rw [hpointer] at hframe ⊢
  have halign : alignStack cpu.rsp ≤ cpu.rsp := Nat.div_mul_le_self _ _
  have hend : framePointer cpu.rsp + sizeofCpuStatus = alignStack cpu.rsp :=
    Nat.sub_add_cancel hroom
  refine ⟨hstatus, ?_, fun a ha => hentry a (.inr (Nat.le_trans halign ha))⟩
  have hfit : framePointer cpu.rsp + sizeofCpuStatus < 2 ^ 64 :=
    hend ▸ Nat.lt_of_le_of_lt halign hrsp
  rw [interruptReturn_eq left hfit, cpuStatusAt_congr hframe, hstatus]
  rfl

/-- A page fault, which has an error code, on a stack that is not aligned. -/
theorem interrupt_transparent_pageFault : interruptReturn (fun _ => 0)
    (interruptEntry ⟨fun r => r.index, 0x1000, 8, 0x202, 0x7FF8, 16⟩ (fun _ => 0) 14 (some 2)).2
    (interruptEntry ⟨fun r => r.index, 0x1000, 8, 0x202, 0x7FF8, 16⟩ (fun _ => 0) 14 (some 2)).1 =
      ⟨fun r => r.index, 0x1000, 8, 0x202, 0x7FF8, 16⟩ :=
  (interrupt_transparent (fun _ => 0) (by decide) (by decide) (by decide) (by decide)
    fun _ _ _ => rfl).2.1

/-- The vectors on which the stubs and the CPU agree. -/
theorem errorCodeVectors_agree_iff (vector : Nat) :
    (vector ∈ errorCodeVectors ↔ vector ∈ cpuErrorCodeVectors) ↔ vector ≠ 21 ∧ vector ≠ 29 := by
  simp only [errorCodeVectors, cpuErrorCodeVectors, List.mem_cons, List.not_mem_nil, or_false]
  constructor
  · intro h
    constructor <;> rintro rfl <;> simp at h
  · omega

/-- For the other two the stub pushes a second error code. The handler then reads a status that is
shifted by a word, and the code that it returns to is at the address that is the error code. -/
theorem interruptReturn_rip_of_disagree (left : Gpr → Nat)
    (herror : error.isSome ↔ vector ∈ cpuErrorCodeVectors) (hvector : vector = 21 ∨ vector = 29)
    (hroom : sizeofCpuStatus + 8 ≤ alignStack cpu.rsp) (hrsp : cpu.rsp < 2 ^ 64) :
    (interruptReturn left (interruptEntry cpu mem vector error).2
      (interruptEntry cpu mem vector error).1).rip = error.getD 0 := by
  have hstub : vector ∉ errorCodeVectors := by rcases hvector with rfl | rfl <;> decide
  have hcpu : vector ∈ cpuErrorCodeVectors := by rcases hvector with rfl | rfl <;> decide
  obtain ⟨code, rfl⟩ := Option.isSome_iff_exists.mp (herror.mpr hcpu)
  have hfits : CodeFits (cpuStatusWords + 1) 0
      (deliver cpu (some code) ++ interruptHandlerStub vector ++ commonSave) := by
    rw [interruptHandlerStub, if_neg hstub]
    simp [CodeFits, deliver, commonSave, cpuStatusWords]
  obtain ⟨hsp, hwords, -⟩ := @interruptEntry_words cpu mem vector (some code) _
    (execListCode (alignStack cpu.rsp) ⟨cpu.gpr, []⟩
      (deliver cpu (some code) ++ interruptHandlerStub vector ++ commonSave)).words
    (by rw [interruptHandlerStub, if_neg hstub]; rfl) hfits hroom hrsp
  rw [interruptHandlerStub, if_neg hstub] at hsp hwords
  have hfit : (interruptEntry cpu mem vector (some code)).1 + sizeofCpuStatus < 2 ^ 64 := by
    have halign : alignStack cpu.rsp ≤ cpu.rsp := Nat.div_mul_le_self _ _
    change _ + 8 * 24 = _ at hsp
    have : sizeofCpuStatus = 184 := rfl
    omega
  rw [interruptReturn_eq left hfit]
  exact congrArg (fun words => words.getD 18 0) hwords

end

end Plos
