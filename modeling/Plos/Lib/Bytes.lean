import Mathlib.Algebra.Group.Nat.Defs
import Mathlib.Data.List.GetD
import Mathlib.Logic.Function.Basic
import Mathlib.Tactic.Common

/-! A memory of bytes.

`Ram` is the contents of every address together with the addresses that have been written to, oldest
first. Storing a list of bytes from an address on is `storeBytes`; two adjacent stores are one
(`storeBytes_append`), and `storeBytes_byte` says what every address holds afterwards. -/

namespace Plos

abbrev Byte := BitVec 8

structure Ram where
  byte : Nat → Byte
  /-- the addresses written to, oldest first -/
  writes : List Nat

/-- The `n` bytes from `a` on. -/
def bytesAt (f : Nat → Byte) (a n : Nat) : List Byte := (List.range n).map fun i => f (a + i)

/-- The number with the first `n` bytes of `s`, the lowest one first. -/
def leNat (s : Nat → Byte) : Nat → Nat
  | 0 => 0
  | n + 1 => leNat s n + (s n).toNat * 256 ^ n

theorem leNat_lt (s : Nat → Byte) (n : Nat) : leNat s n < 256 ^ n := by
  induction n with
  | zero => exact Nat.one_pos
  | succ n ih =>
    have hs : (s n).toNat ≤ 255 := Nat.le_of_lt_succ (s n).isLt
    have hmul := Nat.mul_le_mul_right (256 ^ n) hs
    rw [leNat, Nat.pow_succ]
    omega

/-- The bytes of a 64-bit word, the lowest one first. -/
def wordBytes (v : BitVec 64) : List Byte := (List.range 8).map fun i => v.extractLsb' (8 * i) 8

@[simp] theorem length_bytesAt (f : Nat → Byte) (a n : Nat) : (bytesAt f a n).length = n := by
  rw [bytesAt, List.length_map, List.length_range]

@[simp] theorem getElem_bytesAt (f : Nat → Byte) (a n : Nat) {i : Nat}
    (h : i < (bytesAt f a n).length) : (bytesAt f a n)[i] = f (a + i) := by
  simp only [bytesAt, List.getElem_map, List.getElem_range]

theorem bytesAt_append (f : Nat → Byte) (a n k : Nat) :
    bytesAt f a (n + k) = bytesAt f a n ++ bytesAt f (a + n) k := by
  rw [bytesAt, bytesAt, bytesAt, List.range_add, List.map_append, List.map_map]
  congr 1
  refine List.map_congr_left fun i _ => ?_
  rw [Function.comp, Nat.add_assoc]

theorem bytesAt_congr {f g : Nat → Byte} {a n : Nat} (h : ∀ i < n, f (a + i) = g (a + i)) :
    bytesAt f a n = bytesAt g a n :=
  List.map_congr_left fun i hi => h i (List.mem_range.mp hi)

namespace Ram

def store (r : Ram) (a : Nat) (b : Byte) : Ram := ⟨Function.update r.byte a b, r.writes ++ [a]⟩

def storeBytes : Ram → Nat → List Byte → Ram
  | r, _, [] => r
  | r, a, b :: bs => (r.store a b).storeBytes (a + 1) bs

variable {r : Ram} {a x : Nat} {b : Byte} {bs bs' : List Byte}

theorem storeBytes_append :
    r.storeBytes a (bs ++ bs') = (r.storeBytes a bs).storeBytes (a + bs.length) bs' := by
  induction bs generalizing r a with
  | nil => rfl
  | cons b bs ih =>
    rw [List.cons_append, storeBytes, storeBytes, ih, List.length_cons, Nat.add_right_comm,
      Nat.add_assoc]

theorem store_byte : (r.store a b).byte x = if x = a then b else r.byte x :=
  Function.update_apply ..

theorem storeBytes_byte :
    (r.storeBytes a bs).byte x = if a ≤ x then bs.getD (x - a) (r.byte x) else r.byte x := by
  induction bs generalizing r a with
  | nil => simp [storeBytes]
  | cons b bs ih =>
    rw [storeBytes, ih, store_byte]
    rcases Nat.lt_trichotomy x a with hx | rfl | hx
    · rw [if_neg (by omega), if_neg (by omega), if_neg (by omega)]
    · rw [if_neg (by omega), if_pos rfl, if_pos (Nat.le_refl _), Nat.sub_self, List.getD_cons_zero]
    · rw [if_pos (by omega), if_neg (by omega), if_pos (by omega), show x - a =
        x - (a + 1) + 1 by omega, List.getD_cons_succ]

theorem storeBytes_of_lt (h : x < a) : (r.storeBytes a bs).byte x = r.byte x := by
  rw [storeBytes_byte, if_neg (Nat.not_le.mpr h)]

theorem storeBytes_add {i : Nat} (h : i < bs.length) :
    (r.storeBytes a bs).byte (a + i) = bs[i] := by
  rw [storeBytes_byte, if_pos (Nat.le_add_right a i), Nat.add_sub_cancel_left,
    List.getD_eq_getElem _ _ h]

theorem bytesAt_storeBytes : bytesAt (r.storeBytes a bs).byte a bs.length = bs := by
  refine List.ext_getElem (length_bytesAt ..) fun i hi hi' => ?_
  rw [getElem_bytesAt, storeBytes_add hi']

theorem storeBytes_writes : (r.storeBytes a bs).writes = r.writes ++ List.range' a bs.length := by
  induction bs generalizing r a with
  | nil => exact (List.append_nil _).symm
  | cons b bs ih =>
    rw [storeBytes, ih, store, List.append_assoc, List.length_cons, List.range'_succ,
      List.singleton_append]

end Ram

end Plos
