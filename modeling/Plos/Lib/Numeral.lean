import Mathlib.Data.Nat.Digits.Lemmas

/-! Positional numerals with at least one digit.

`numeralRev b n` has the digits of `n` in base `b`, the lowest one first, and unlike `Nat.digits` a
single zero for zero. `positional b ds` is the number that the digits `ds` stand for, the highest
one first, whatever the number of leading zeros. -/

namespace Plos

def numeralRev (b n : Nat) : List Nat := if n = 0 then [0] else Nat.digits b n

def positional (b : Nat) (ds : List Nat) : Nat := ds.foldl (fun v d => v * b + d) 0

variable {b n k : Nat} {ds : List Nat}

/-- How the digits are found, one by one. -/
theorem numeralRev_eq (hb : 2 ≤ b) (n : Nat) :
    numeralRev b n = n % b :: if n / b = 0 then [] else numeralRev b (n / b) := by
  unfold numeralRev
  split
  · next h => simp [h]
  · next h =>
    rw [Nat.digits_def' (by omega) (by omega)]
    split
    · next h' => rw [h', Nat.digits_zero]
    · rfl

theorem numeralRev_lt (hb : 2 ≤ b) {d : Nat} (h : d ∈ numeralRev b n) : d < b := by
  unfold numeralRev at h
  split at h
  · rw [List.mem_singleton.mp h]
    omega
  · exact Nat.digits_lt_base (by omega) h

theorem positional_append (ds' : List Nat) :
    positional b (ds ++ ds') = ds'.foldl (fun v d => v * b + d) (positional b ds) :=
  List.foldl_append

theorem positional_replicate_zero (k : Nat) (ds : List Nat) :
    positional b (List.replicate k 0 ++ ds) = positional b ds := by
  have hzero : positional b (List.replicate k 0) = 0 := by
    induction k with
    | zero => rfl
    | succ k ih =>
      rw [List.replicate_succ', positional_append, ih, List.foldl_cons, List.foldl_nil,
        Nat.zero_mul]
  rw [positional_append, hzero, positional]

theorem positional_reverse (ds : List Nat) : positional b ds.reverse = Nat.ofDigits b ds := by
  induction ds with
  | nil => rfl
  | cons d ds ih =>
    rw [List.reverse_cons, positional_append, ih, List.foldl_cons, List.foldl_nil,
      Nat.ofDigits_cons, Nat.mul_comm, Nat.add_comm]

theorem positional_numeralRev (b n : Nat) : positional b (numeralRev b n).reverse = n := by
  rw [positional_reverse, numeralRev]
  split
  · next h => simp [h]
  · exact Nat.ofDigits_digits b n

end Plos
