import Mathlib.Logic.Function.Basic
import Plos.Lib.Word

/-! Straight-line code over a stack in memory.

A machine has registers, a stack pointer and a memory of 64-bit words, and its code pushes and pops.
The same code runs on a list of words that stands for the stack below an address `top`. As long as
the code fits, that is, pops no more than there is and stays above `top - 8 * limit`, the memory
holds the list (`StackCpu.Holds.code`), and nothing but those `limit` words is written
(`execCode_frame`). -/

namespace Plos

universe u

/-- The words at `p`, `p + 8`, and so on. -/
def wordsAt (mem : Nat → Nat) (p n : Nat) : List Nat := (List.range n).map fun i => mem (p + 8 * i)

theorem wordsAt_congr {mem mem' : Nat → Nat} {p n : Nat}
    (h : ∀ a, p ≤ a → a < p + 8 * n → mem' a = mem a) :
    wordsAt mem' p n = wordsAt mem p n := by
  refine List.map_congr_left fun i hi => ?_
  have hlt := List.mem_range.mp hi
  exact h _ (by omega) (by omega)

theorem length_wordsAt (mem : Nat → Nat) (p n : Nat) : (wordsAt mem p n).length = n := by
  rw [wordsAt, List.length_map, List.length_range]

theorem getElem_wordsAt {mem : Nat → Nat} {p n i : Nat} (h : i < (wordsAt mem p n).length) :
    (wordsAt mem p n)[i] = mem (p + 8 * i) := by
  simp only [wordsAt, List.getElem_map, List.getElem_range]

theorem wordsAt_succ (mem : Nat → Nat) (p n : Nat) :
    wordsAt mem p (n + 1) = mem p :: wordsAt mem (p + 8) n := by
  rw [wordsAt, List.range_succ_eq_map, List.map_cons, List.map_map]
  refine congrArg (mem p :: ·) (List.map_congr_left fun i _ => ?_)
  rw [Function.comp_apply, Nat.succ_eq_add_one]
  exact congrArg mem (by omega)

theorem wordsAt_drop (mem : Nat → Nat) (p n k : Nat) :
    (wordsAt mem p n).drop k = wordsAt mem (p + 8 * k) (n - k) := by
  refine List.ext_getElem (by simp only [List.length_drop, length_wordsAt]) fun i h₁ h₂ => ?_
  rw [List.getElem_drop, getElem_wordsAt, getElem_wordsAt]
  exact congrArg mem (by omega)

/-- Stores words at `p`, `p + 8`, and so on. -/
def storeWordsAt (mem : Nat → Nat) (p : Nat) : List Nat → Nat → Nat
  | [] => mem
  | w :: ws => storeWordsAt (Function.update mem p w) (add64 p 8) ws

section
variable {mem : Nat → Nat} {p : Nat} {ws : List Nat}

theorem storeWordsAt_of_outside (hp : p + 8 * ws.length < 2 ^ 64) {a : Nat}
    (ha : a < p ∨ p + 8 * ws.length ≤ a) : storeWordsAt mem p ws a = mem a := by
  induction ws generalizing mem p with
  | nil => rfl
  | cons w ws ih =>
    rw [List.length_cons] at hp ha
    have hadd : add64 p 8 = p + 8 := add64_of_lt (by omega)
    rw [storeWordsAt, hadd, ih (by omega) (by omega)]
    exact Function.update_of_ne (by omega) _ _

theorem wordsAt_storeWordsAt (hp : p + 8 * ws.length < 2 ^ 64) :
    wordsAt (storeWordsAt mem p ws) p ws.length = ws := by
  induction ws generalizing mem p with
  | nil => rfl
  | cons w ws ih =>
    rw [List.length_cons] at hp
    have hadd : add64 p 8 = p + 8 := add64_of_lt (by omega)
    have hhead : storeWordsAt (Function.update mem p w) (p + 8) ws p = w := by
      rw [storeWordsAt_of_outside (by omega) (.inl (by omega)), Function.update_self]
    rw [List.length_cons, wordsAt_succ, storeWordsAt, hadd, hhead, ih (by omega)]

end

structure StackCpu (ρ : Type u) where
  reg : ρ → Nat
  sp : Nat
  mem : Nat → Nat

inductive StackInstr (ρ : Type u) where
  | push (r : ρ)
  | pushSp
  | pushImm (n : Nat)
  | pop (r : ρ)
  | addSp (n : Nat)
  deriving DecidableEq, Repr

variable {ρ : Type u}

/-- The stack pointer goes to `a`, where a word is stored. -/
def StackCpu.storeAt (c : StackCpu ρ) (a w : Nat) : StackCpu ρ :=
  ⟨c.reg, a, Function.update c.mem a w⟩

theorem StackCpu.storeAt_reg (c : StackCpu ρ) (a w : Nat) : (c.storeAt a w).reg = c.reg := rfl

def StackCpu.pushWord (c : StackCpu ρ) (w : Nat) : StackCpu ρ := c.storeAt (sub64 c.sp 8) w

theorem StackCpu.pushWord_reg (c : StackCpu ρ) (w : Nat) : (c.pushWord w).reg = c.reg :=
  c.storeAt_reg _ w

theorem StackCpu.pushWord_sp (c : StackCpu ρ) (w : Nat) : (c.pushWord w).sp = sub64 c.sp 8 := rfl

theorem StackCpu.pushWord_mem (c : StackCpu ρ) (w : Nat) :
    (c.pushWord w).mem = Function.update c.mem (sub64 c.sp 8) w := rfl

section
variable [DecidableEq ρ]

/-- The value of `rsp` that is pushed is the one before the push. -/
def StackInstr.exec (c : StackCpu ρ) : StackInstr ρ → StackCpu ρ
  | push r => c.pushWord (c.reg r)
  | pushSp => c.pushWord c.sp
  | pushImm n => c.pushWord n
  | pop r => { c with reg := Function.update c.reg r (c.mem c.sp), sp := add64 c.sp 8 }
  | addSp n => { c with sp := add64 c.sp n }

def execCode (c : StackCpu ρ) (code : List (StackInstr ρ)) : StackCpu ρ :=
  code.foldl StackInstr.exec c

end

/-! ## The stack as a list -/

structure ListStack (ρ : Type u) where
  reg : ρ → Nat
  words : List Nat

section
variable [DecidableEq ρ]

def StackInstr.execList (top : Nat) (l : ListStack ρ) : StackInstr ρ → ListStack ρ
  | push r => { l with words := l.reg r :: l.words }
  | pushSp => { l with words := (top - 8 * l.words.length) :: l.words }
  | pushImm n => { l with words := n :: l.words }
  | pop r => ⟨Function.update l.reg r (l.words.headD 0), l.words.tail⟩
  | addSp n => { l with words := l.words.drop (n / 8) }

def execListCode (top : Nat) (l : ListStack ρ) (code : List (StackInstr ρ)) : ListStack ρ :=
  code.foldl (StackInstr.execList top) l

end

/-- The code pops no more than there is on a stack of `height` words, and never has more than
`limit` words on it. -/
def CodeFits (limit : Nat) : (height : Nat) → List (StackInstr ρ) → Prop
  | _, [] => True
  | height, .pop _ :: code => 0 < height ∧ CodeFits limit (height - 1) code
  | height, .addSp n :: code => n % 8 = 0 ∧ n / 8 ≤ height ∧ CodeFits limit (height - n / 8) code
  | height, .push _ :: code => height < limit ∧ CodeFits limit (height + 1) code
  | height, .pushSp :: code => height < limit ∧ CodeFits limit (height + 1) code
  | height, .pushImm _ :: code => height < limit ∧ CodeFits limit (height + 1) code

/-- The machine has the registers of the list machine, and its list on the stack below `top`. -/
structure StackCpu.Holds (top : Nat) (c : StackCpu ρ) (l : ListStack ρ) : Prop where
  reg : c.reg = l.reg
  sp : c.sp + 8 * l.words.length = top
  words : wordsAt c.mem c.sp l.words.length = l.words

namespace StackCpu.Holds

variable {top limit : Nat} {c : StackCpu ρ} {l : ListStack ρ} {w : Nat} {ws : List Nat}

theorem sub_eight (htop : top < 2 ^ 64) (hlimit : 8 * limit ≤ top) (H : c.Holds top l)
    (hroom : l.words.length < limit) : sub64 c.sp 8 = c.sp - 8 ∧ 8 ≤ c.sp := by
  have hsp := H.sp
  have hle : 8 ≤ c.sp := by omega
  exact ⟨sub64_of_le (by omega) hle, hle⟩

theorem pushWord (htop : top < 2 ^ 64) (hlimit : 8 * limit ≤ top) (H : c.Holds top l)
    (hroom : l.words.length < limit) (w : Nat) :
    (c.pushWord w).Holds top { l with words := w :: l.words } := by
  obtain ⟨hsub, hle⟩ := sub_eight htop hlimit H hroom
  have hsp := H.sp
  refine ⟨(c.pushWord_reg w).trans H.reg, ?_, ?_⟩
  · rw [c.pushWord_sp, hsub, List.length_cons]
    omega
  · have hwords : wordsAt (Function.update c.mem (c.sp - 8) w) c.sp l.words.length = l.words := by
      refine (wordsAt_congr fun a ha _ => ?_).trans H.words
      exact Function.update_of_ne (by omega) _ _
    have haddr : c.sp - 8 + 8 = c.sp := Nat.sub_add_cancel hle
    rw [c.pushWord_sp, c.pushWord_mem, hsub, List.length_cons, wordsAt_succ, haddr, hwords,
      Function.update_self]

theorem drop (htop : top < 2 ^ 64) (H : c.Holds top l) {k : Nat} (hk : k ≤ l.words.length) :
    ({ c with sp := add64 c.sp (8 * k) } : StackCpu ρ).Holds top
      { l with words := l.words.drop k } := by
  have hsp := H.sp
  have hadd : add64 c.sp (8 * k) = c.sp + 8 * k := add64_of_lt (by omega)
  refine ⟨H.reg, ?_, ?_⟩
  · simp only [hadd, List.length_drop]
    omega
  · simp only [hadd, List.length_drop]
    rw [← wordsAt_drop, H.words]

variable [DecidableEq ρ]

theorem exec {i : StackInstr ρ} {code : List (StackInstr ρ)} (htop : top < 2 ^ 64)
    (hlimit : 8 * limit ≤ top) (H : c.Holds top l)
    (hfits : CodeFits limit l.words.length (i :: code)) :
    (i.exec c).Holds top (i.execList top l) ∧
    CodeFits limit (i.execList top l).words.length code := by
  cases i with
  | push r =>
    obtain ⟨hroom, hfits⟩ := hfits
    rw [StackInstr.exec, H.reg]
    exact ⟨H.pushWord htop hlimit hroom _, hfits⟩
  | pushSp =>
    obtain ⟨hroom, hfits⟩ := hfits
    have hsp : c.sp = top - 8 * l.words.length := Nat.eq_sub_of_add_eq H.sp
    refine ⟨?_, hfits⟩
    have hpush := H.pushWord htop hlimit hroom c.sp
    rwa [StackInstr.execList, ← hsp]
  | pushImm n =>
    obtain ⟨hroom, hfits⟩ := hfits
    exact ⟨H.pushWord htop hlimit hroom n, hfits⟩
  | pop r =>
    obtain ⟨hpos, hfits⟩ := hfits
    have hdrop := H.drop htop (Nat.succ_le_of_lt hpos)
    have hhead : c.mem c.sp = l.words.headD 0 := by
      have hwords := H.words
      obtain ⟨w, ws, hws⟩ := List.exists_cons_of_length_pos hpos
      rw [hws, List.length_cons, wordsAt_succ] at hwords
      rw [hws]
      exact (List.cons.inj hwords).1
    rw [List.drop_one] at hdrop
    refine ⟨⟨?_, hdrop.sp, hdrop.words⟩, ?_⟩
    · simp only [StackInstr.exec, StackInstr.execList, H.reg, hhead]
    · simpa only [StackInstr.execList, List.length_tail] using hfits
  | addSp n =>
    obtain ⟨hmod, hle, hfits⟩ := hfits
    have hn : n = 8 * (n / 8) := by omega
    have hdrop := H.drop htop hle
    rw [← hn] at hdrop
    refine ⟨hdrop, ?_⟩
    simpa only [StackInstr.execList, List.length_drop] using hfits

/-- The memory holds the list through code that fits. -/
theorem code {code : List (StackInstr ρ)} (htop : top < 2 ^ 64) (hlimit : 8 * limit ≤ top)
    (H : c.Holds top l) (hfits : CodeFits limit l.words.length code) :
    (execCode c code).Holds top (execListCode top l code) := by
  induction code generalizing c l with
  | nil => exact H
  | cons i code ih =>
    obtain ⟨H', hfits'⟩ := H.exec htop hlimit hfits
    exact ih H' hfits'

end StackCpu.Holds

section
variable [DecidableEq ρ] {top limit : Nat} {c : StackCpu ρ} {l : ListStack ρ}

theorem exec_frame {i : StackInstr ρ} {code : List (StackInstr ρ)} (htop : top < 2 ^ 64)
    (hlimit : 8 * limit ≤ top) (H : c.Holds top l)
    (hfits : CodeFits limit l.words.length (i :: code)) {a : Nat}
    (ha : a < top - 8 * limit ∨ top ≤ a) : (i.exec c).mem a = c.mem a := by
  have hpush (hroom : l.words.length < limit) (w : Nat) : (c.pushWord w).mem a = c.mem a := by
    obtain ⟨hsub, hle⟩ := H.sub_eight htop hlimit hroom
    have hsp := H.sp
    rw [c.pushWord_mem, hsub]
    exact Function.update_of_ne (by omega) _ _
  cases i with
  | push r => exact hpush hfits.1 _
  | pushSp => exact hpush hfits.1 _
  | pushImm n => exact hpush hfits.1 _
  | pop r => rfl
  | addSp n => rfl

/-- Code that fits writes only the words below `top` that it may use. -/
theorem execCode_frame {code : List (StackInstr ρ)} (htop : top < 2 ^ 64) (hlimit : 8 * limit ≤ top)
    (H : c.Holds top l) (hfits : CodeFits limit l.words.length code) {a : Nat}
    (ha : a < top - 8 * limit ∨ top ≤ a) : (execCode c code).mem a = c.mem a := by
  induction code generalizing c l with
  | nil => rfl
  | cons i code ih =>
    obtain ⟨H', hfits'⟩ := H.exec htop hlimit hfits
    exact (ih H' hfits').trans (exec_frame htop hlimit H hfits ha)

end

end Plos
