import Plos.Lib.Bytes
import Plos.Lib.Word

/-! The memory and string functions of `libk/string.c`.

A pointer to memory that a function writes is an address, and `p++` wraps at `2 ^ 64`. A `const`
pointer that the function may assume to be apart from what it writes (`restrict`, a string) is the
sequence of the bytes behind it. A loop whose number of rounds is not a parameter of it gets a bound
and answers `none` if it has not ended by then. -/

namespace Plos

/-- The bytes behind an address. -/
def bytesFrom (byte : Nat → Byte) (a : Nat) : Nat → Byte := fun i => byte (add64 a i)

def chars (s : List Char) : List Byte := s.map fun c => BitVec.ofNat 8 c.toNat

/-- A string constant: after its characters comes a zero. -/
def literal (s : List Byte) : Nat → Byte := fun i => s.getD i 0

/-! ## Copying -/

/-- The loop of `memcpy`, from round `i` on. -/
def memcpyLoop (dest : Nat) (src : Nat → Byte) : Nat → (i : Nat) → Ram → Ram
  | 0, _, r => r
  | k + 1, i, r => memcpyLoop dest src k (i + 1) (r.store (add64 dest i) (src i))

def memcpy (r : Ram) (dest : Nat) (src : Nat → Byte) (n : Nat) : Ram := memcpyLoop dest src n 0 r

/-- The loop of `memmove` with increasing index. -/
def memmoveUp (dest src : Nat) : Nat → (i : Nat) → Ram → Ram
  | 0, _, r => r
  | k + 1, i, r => memmoveUp dest src k (i + 1) (r.store (add64 dest i) (r.byte (add64 src i)))

/-- The loop of `memmove` with decreasing index. -/
def memmoveDown (dest src : Nat) : Nat → Ram → Ram
  | 0, r => r
  | i + 1, r => memmoveDown dest src i (r.store (add64 dest i) (r.byte (add64 src i)))

def memmove (r : Ram) (dest src n : Nat) : Ram :=
  if dest < src then memmoveUp dest src n 0 r
  else if src < dest then memmoveDown dest src n r
  else r

/-! ## Filling -/

/-- The variables of `memset`. `counts` records each decrement of the counter: its value before and
the amount. -/
structure MemsetState where
  ram : Ram
  p : Nat
  n : Nat
  counts : List (Nat × Nat)

namespace MemsetState

/-- `n -= k` -/
def dec (s : MemsetState) (k : Nat) : MemsetState :=
  { s with n := sub64 s.n k, counts := s.counts ++ [(s.n, k)] }

/-- `*p++ = b` -/
def put (s : MemsetState) (b : Byte) : MemsetState :=
  { s with ram := s.ram.store s.p b, p := add64 s.p 1 }

/-- `*p64++ = v` -/
def put64 (s : MemsetState) (v : BitVec 64) : MemsetState :=
  { s with ram := s.ram.storeBytes s.p (wordBytes v), p := add64 s.p 8 }

end MemsetState

/-- `while (n--) *p++ = b` -/
def memsetBytes (b : Byte) : Nat → MemsetState → Option MemsetState
  | 0, _ => none
  | k + 1, s => if s.n = 0 then some (s.dec 1) else memsetBytes b k ((s.dec 1).put b)

/-- `while (p & 0x7) { *p++ = b; n--; }` -/
def memsetHead (b : Byte) : Nat → MemsetState → Option MemsetState
  | 0, _ => none
  | k + 1, s => if s.p &&& 0x7 ≠ 0 then memsetHead b k ((s.put b).dec 1) else some s

/-- `while (n >= 8) { *p64++ = v; n -= 8; }` -/
def memsetWords (v : BitVec 64) : Nat → MemsetState → Option MemsetState
  | 0, _ => none
  | k + 1, s => if 8 ≤ s.n then memsetWords v k ((s.put64 v).dec 8) else some s

/-- `val64` -/
def memsetVal64 (b : Byte) : BitVec 64 :=
  let v := b.setWidth 64
  let v := v ||| v <<< 8
  let v := v ||| v <<< 16
  v ||| v <<< 32

/-- Fills `n` bytes from `s` on. -/
def memset (r : Ram) (s : Nat) (c : BitVec 32) (n : Nat) : Option MemsetState :=
  let b : Byte := c.setWidth 8
  let st : MemsetState := ⟨r, s, n, []⟩
  if n < 8 then memsetBytes b (n + 1) st
  else match memsetHead b 8 st with
    | none => none
    | some st => match memsetWords (memsetVal64 b) (st.n / 8 + 1) st with
      | none => none
      | some st => memsetBytes b (st.n + 1) st

/-! ## Strings -/

def strlenFrom (s : Nat → Byte) : Nat → (length : Nat) → Option Nat
  | 0, _ => none
  | k + 1, length => if s length ≠ 0 then strlenFrom s k (length + 1) else some length

def strlen (s : Nat → Byte) : Option Nat := strlenFrom s (2 ^ 64) 0

def strcpy (r : Ram) (dest : Nat) (src : Nat → Byte) : Option Ram :=
  (strlen src).map fun length => memcpy r dest src (length + 1)

/-- The loop of `strncmp`, from character `i` on. -/
def strncmpFrom (s1 s2 : Nat → Byte) : Nat → (i : Nat) → Int
  | 0, _ => 0
  | n + 1, i =>
    if s1 i ≠ s2 i then (s1 i).toNat - (s2 i).toNat
    else if s1 i = 0 then 0
    else strncmpFrom s1 s2 n (i + 1)

def strncmp (s1 s2 : Nat → Byte) (n : Nat) : Int := strncmpFrom s1 s2 n 0

/-! ## `memmove` -/

/-- The bytes with index `lo` up to `hi` have been moved from `src` to `dest`, and nothing else has
changed. -/
def Moved (m : Nat → Byte) (dest src lo hi : Nat) (r : Ram) : Prop :=
  ∀ x, r.byte x = if dest + lo ≤ x ∧ x < dest + hi then m (src + (x - dest)) else m x

namespace Moved

variable {m : Nat → Byte} {dest src lo hi lo' hi' i : Nat} {r : Ram}

/-- Moving one more byte at an end of the part that has been moved. The source byte is still the
original one if it is outside of that part of the destination. -/
theorem extend (H : Moved m dest src lo hi r) (hsrc : src + i < dest + lo ∨ dest + hi ≤ src + i)
    (hrange : ∀ j, lo' ≤ j ∧ j < hi' ↔ j = i ∨ lo ≤ j ∧ j < hi) :
    Moved m dest src lo' hi' (r.store (dest + i) (r.byte (src + i))) := by
  intro x
  have hsource : r.byte (src + i) = m (src + i) := by rw [H, if_neg (by omega)]
  have hx := hrange (x - dest)
  rw [Ram.store_byte, hsource, H]
  by_cases e : x = dest + i
  · rw [if_pos e, if_pos (by omega), e, Nat.add_sub_cancel_left]
  · rw [if_neg e]
    congr 1
    apply propext
    omega

end Moved

section
variable {m : Nat → Byte} {dest src n k i : Nat} {r : Ram}

theorem memmoveUp_moved (h : dest < src) (hsrc : src + (i + k) ≤ 2 ^ 64)
    (H : Moved m dest src 0 i r) : Moved m dest src 0 (i + k) (memmoveUp dest src k i r) := by
  induction k generalizing i r with
  | zero => exact H
  | succ k ih =>
    have hnext : Moved m dest src 0 (i + 1) (r.store (dest + i) (r.byte (src + i))) :=
      H.extend (.inr (by omega)) fun j => by omega
    rw [memmoveUp, add64_of_lt (by omega), add64_of_lt (by omega), Nat.add_comm k, ← Nat.add_assoc]
    exact ih (by omega) hnext

theorem memmoveDown_moved (h : src < dest) (hdest : dest + n ≤ 2 ^ 64) (hi : i ≤ n)
    (H : Moved m dest src i n r) : Moved m dest src 0 n (memmoveDown dest src i r) := by
  induction i generalizing r with
  | zero => exact H
  | succ i ih =>
    have hnext : Moved m dest src i n (r.store (dest + i) (r.byte (src + i))) :=
      H.extend (.inl (by omega)) fun j => by omega
    rw [memmoveDown, add64_of_lt (by omega), add64_of_lt (by omega)]
    exact ih (by omega) hnext

/-- Whatever the overlap, the destination holds the original bytes of the source. -/
theorem memmove_moves (r : Ram) (hdest : dest + n ≤ 2 ^ 64) (hsrc : src + n ≤ 2 ^ 64) :
    (∀ i < n, (memmove r dest src n).byte (dest + i) = r.byte (src + i)) ∧
      ∀ x, x < dest ∨ dest + n ≤ x → (memmove r dest src n).byte x = r.byte x := by
  have hmoved : Moved r.byte dest src 0 n (memmove r dest src n) := by
    unfold memmove
    split
    · next h =>
      have H : Moved r.byte dest src 0 0 r := fun x => by rw [if_neg (by omega)]
      have hup := memmoveUp_moved h (by omega : src + (0 + n) ≤ 2 ^ 64) H
      rwa [Nat.zero_add] at hup
    · split
      · next h =>
        have H : Moved r.byte dest src n n r := fun x => by rw [if_neg (by omega)]
        exact memmoveDown_moved h hdest (Nat.le_refl n) H
      · intro x
        -- the two ranges are the same
        obtain rfl : src = dest := by omega
        split
        · rw [Nat.add_sub_cancel' (by omega)]
        · rfl
  constructor
  · intro i hi
    rw [hmoved, if_pos (by omega), Nat.add_sub_cancel_left]
  · intro x hx
    rw [hmoved, if_neg (by omega)]

/-- The ranges overlap and the source is below the destination. -/
theorem memmove_moves_overlap :
    (memmove ⟨fun x => BitVec.ofNat 8 x, []⟩ 0x1002 0x1001 3).byte 0x1004 = 3 :=
  (memmove_moves ⟨fun x => BitVec.ofNat 8 x, []⟩ (by decide) (by decide)).1 2 (by decide)

end

/-! ## `memset` -/

/-- One of the shifts that build `val64`: the lowest `w` bits of `v` repeat the byte, and then twice
as many. -/
theorem getLsbD_double {b : Byte} {v : BitVec 64} {w : Nat} (hw : w % 8 = 0) (h64 : 2 * w ≤ 64)
    (h : ∀ k, v.getLsbD k = (decide (k < w) && b.getLsbD (k % 8))) (k : Nat) :
    (v ||| v <<< w).getLsbD k = (decide (k < 2 * w) && b.getLsbD (k % 8)) := by
  rw [BitVec.getLsbD_or, BitVec.getLsbD_shiftLeft, h, h]
  by_cases hk : k < w
  · simp [hk, show k < 2 * w by omega]
  · by_cases hk' : k < 2 * w
    · simp [hk, hk', show k - w < w by omega, show k < 64 by omega,
        show (k - w) % 8 = k % 8 by omega]
    · simp [hk, hk', show ¬ k - w < w by omega]

theorem wordBytes_memsetVal64 (b : Byte) : wordBytes (memsetVal64 b) = List.replicate 8 b := by
  have hbits : ∀ k, (memsetVal64 b).getLsbD k = (decide (k < 64) && b.getLsbD (k % 8)) := by
    refine getLsbD_double rfl (by decide)
      (getLsbD_double rfl (by decide) (getLsbD_double rfl (by decide) fun k => ?_))
    rw [BitVec.getLsbD_setWidth]
    by_cases hk : k < 8
    · rw [Nat.mod_eq_of_lt hk, decide_eq_true hk, decide_eq_true (by omega : k < 64)]
    · rw [BitVec.getLsbD_of_ge b k (by omega), decide_eq_false hk, Bool.and_false, Bool.false_and]
  rw [wordBytes, List.eq_replicate_iff]
  refine ⟨by simp, fun x hx => ?_⟩
  obtain ⟨i, hi, rfl⟩ := List.mem_map.mp hx
  have hi := List.mem_range.mp hi
  apply BitVec.eq_of_getLsbD_eq
  intro j hj
  rw [BitVec.getLsbD_extractLsb', hbits, decide_eq_true hj, decide_eq_true (by omega),
    Bool.true_and, Bool.true_and, Nat.mul_add_mod, Nat.mod_eq_of_lt hj]

/-- The first `k` of `n` bytes from `s` on have been filled, and no decrement of the counter has
wrapped. -/
structure Filled (r : Ram) (s n : Nat) (b : Byte) (k : Nat) (st : MemsetState) : Prop where
  le : k ≤ n
  ram : st.ram = r.storeBytes s (List.replicate k b)
  p : st.p = add64 s k
  n : st.n = n - k
  counts : ∀ d ∈ st.counts, d.2 ≤ d.1

section
variable {r : Ram} {s n k : Nat} {b : Byte} {st : MemsetState}

/-- One round of a loop fills `j` bytes. -/
theorem Filled.advance (H : Filled r s n b k st) (hs : s + n ≤ 2 ^ 64) (hn : n < 2 ^ 64) {j : Nat}
    (hj : 0 < j) (h : k + j ≤ n) :
    Filled r s n b (k + j) ⟨st.ram.storeBytes st.p (List.replicate j b), add64 st.p j,
      sub64 st.n j, st.counts ++ [(st.n, j)]⟩ := by
  have hp : st.p = s + k := by rw [H.p, add64_of_lt (by omega)]
  have hcount : j ≤ st.n := by
    rw [H.n]
    omega
  refine ⟨h, ?_, ?_, ?_, ?_⟩
  · rw [H.ram, hp, ← List.replicate_append_replicate, Ram.storeBytes_append, List.length_replicate]
  · simp only [hp, add64, addW, Nat.add_assoc]
  · rw [sub64_of_le (by rw [H.n]; omega) hcount, H.n, Nat.sub_sub]
  · intro d hd
    rcases List.mem_append.mp hd with hd | hd
    · exact H.counts d hd
    · rw [List.mem_singleton.mp hd]
      exact hcount

theorem memsetHead_filled (hs : s + n ≤ 2 ^ 64) (hn : n < 2 ^ 64) {fuel : Nat}
    (H : Filled r s n b k st) (hfuel : (8 - (s + k) % 8) % 8 < fuel)
    (hk : k + (8 - (s + k) % 8) % 8 ≤ n) :
    ∃ k' st', memsetHead b fuel st = some st' ∧ Filled r s n b k' st' := by
  induction fuel generalizing k st with
  | zero => omega
  | succ fuel ih =>
    have hp : st.p &&& 0x7 = (s + k) % 8 := by
      rw [Nat.and_two_pow_sub_one_eq_mod st.p 3, H.p, add64, addW]
      omega
    rw [memsetHead, hp]
    split
    · next hne =>
      exact ih (H.advance (j := 1) hs hn Nat.one_pos (by omega)) (by omega) (by omega)
    · exact ⟨k, st, rfl, H⟩

theorem memsetWords_filled (hs : s + n ≤ 2 ^ 64) (hn : n < 2 ^ 64) {fuel : Nat}
    (H : Filled r s n b k st) (hfuel : (n - k) / 8 < fuel) :
    ∃ k' st', memsetWords (memsetVal64 b) fuel st = some st' ∧ Filled r s n b k' st' := by
  induction fuel generalizing k st with
  | zero => omega
  | succ fuel ih =>
    rw [memsetWords]
    split
    · next hle =>
      rw [H.n] at hle
      rw [MemsetState.put64, wordBytes_memsetVal64]
      exact ih (H.advance (j := 8) hs hn (by decide) (by omega)) (by omega)
    · exact ⟨k, st, rfl, H⟩

/-- The last loop ends with the decrement from zero. -/
theorem memsetBytes_filled (hs : s + n ≤ 2 ^ 64) (hn : n < 2 ^ 64) {fuel : Nat}
    (H : Filled r s n b k st) (hfuel : n - k < fuel) :
    ∃ st' counts, memsetBytes b fuel st = some st' ∧
      st'.ram = r.storeBytes s (List.replicate n b) ∧ st'.counts = counts ++ [(0, 1)] ∧
      ∀ d ∈ counts, d.2 ≤ d.1 := by
  induction fuel generalizing k st with
  | zero => omega
  | succ fuel ih =>
    rw [memsetBytes]
    split
    · next hzero =>
      have hk : k = n := by
        have hle := H.le
        have hleft := H.n
        omega
      refine ⟨st.dec 1, st.counts, rfl, ?_, ?_, H.counts⟩
      · rw [MemsetState.dec, H.ram, hk]
      · rw [MemsetState.dec, hzero]
    · next hne =>
      rw [H.n] at hne
      rw [MemsetState.dec, MemsetState.put]
      exact ih (H.advance (j := 1) hs hn Nat.one_pos (by omega)) (by omega)

end

/-- The word path is a fill byte by byte: the same bytes are written in the same order, and of the
decrements of the counter only the last one, from zero, wraps. -/
theorem memset_fills {s n : Nat} (r : Ram) (c : BitVec 32) (hs : s < 2 ^ 64) (hn : n < 2 ^ 64)
    (hrange : s + n ≤ 2 ^ 64) :
    ∃ st counts, memset r s c n = some st ∧
      st.ram = r.storeBytes s (List.replicate n (c.setWidth 8)) ∧
      (∀ x, st.ram.byte x = if s ≤ x ∧ x < s + n then c.setWidth 8 else r.byte x) ∧
      st.counts = counts ++ [(0, 1)] ∧ ∀ d ∈ counts, d.2 ≤ d.1 := by
  have hstart : Filled r s n (c.setWidth 8) 0 ⟨r, s, n, []⟩ := by
    refine ⟨Nat.zero_le n, rfl, ?_, rfl, fun d hd => absurd hd List.not_mem_nil⟩
    rw [add64_of_lt hs, Nat.add_zero]
  have hend : ∃ st counts, memset r s c n = some st ∧
      st.ram = r.storeBytes s (List.replicate n (c.setWidth 8)) ∧
      st.counts = counts ++ [(0, 1)] ∧ ∀ d ∈ counts, d.2 ≤ d.1 := by
    simp only [memset]
    split
    · exact memsetBytes_filled hrange hn hstart (by omega)
    · obtain ⟨k₁, st₁, h₁, H₁⟩ :=
        memsetHead_filled hrange hn hstart (Nat.mod_lt _ (by decide)) (by omega)
      obtain ⟨k₂, st₂, h₂, H₂⟩ :=
        memsetWords_filled hrange hn H₁ (by rw [← H₁.n]; exact Nat.lt_succ_self _)
      simp only [h₁, h₂]
      exact memsetBytes_filled hrange hn H₂ (by rw [← H₂.n]; exact Nat.lt_succ_self _)
  obtain ⟨st, counts, hst, hram, hcounts⟩ := hend
  refine ⟨st, counts, hst, hram, fun x => ?_, hcounts⟩
  rw [hram, Ram.storeBytes_byte]
  by_cases hx : s ≤ x ∧ x < s + n
  · rw [if_pos hx, if_pos hx.1, List.getD_replicate _ (by omega)]
  · rw [if_neg hx]
    split
    · rw [List.getD_eq_default _ _ (by rw [List.length_replicate]; omega)]
    · rfl

/-- From an odd address, with a value whose upper bytes are ignored. -/
theorem memset_fills_unaligned :
    ∃ st counts, memset ⟨fun _ => 0, []⟩ 0x1003 0x5A5 21 = some st ∧
      st.ram = Ram.storeBytes ⟨fun _ => 0, []⟩ 0x1003 (List.replicate 21 0xA5) ∧
      (∀ x, st.ram.byte x = if 0x1003 ≤ x ∧ x < 0x1003 + 21 then 0xA5 else 0) ∧
      st.counts = counts ++ [(0, 1)] ∧ ∀ d ∈ counts, d.2 ≤ d.1 :=
  memset_fills ⟨fun _ => 0, []⟩ 0x5A5 (by decide) (by decide) (by decide)

/-! ## Strings -/

section
variable {r : Ram} {dest : Nat} {s s1 s2 : Nat → Byte} {n k i : Nat}

theorem memcpyLoop_eq (h : dest + (i + k) ≤ 2 ^ 64) :
    memcpyLoop dest s k i r = r.storeBytes (dest + i) (bytesAt s i k) := by
  induction k generalizing i r with
  | zero => rfl
  | succ k ih =>
    rw [memcpyLoop, add64_of_lt (by omega), ih (by omega), Nat.add_comm k, bytesAt_append]
    rfl

theorem strlenFrom_eq {fuel : Nat} (hs : ∀ j < k, s (i + j) ≠ 0) (hend : s (i + k) = 0)
    (hfuel : k < fuel) : strlenFrom s fuel i = some (i + k) := by
  induction fuel generalizing i k with
  | zero => omega
  | succ fuel ih =>
    rw [strlenFrom]
    cases k with
    | zero => exact if_neg (not_not_intro hend)
    | succ k =>
      have hshift (j : Nat) : i + 1 + j = i + (j + 1) := by omega
      have hrest : strlenFrom s fuel (i + 1) = some (i + 1 + k) := by
        refine ih (fun j hj => ?_) ?_ (by omega)
        · rw [hshift]
          exact hs (j + 1) (by omega)
        · rw [hshift]
          exact hend
      rw [if_pos, hrest, hshift]
      exact hs 0 (Nat.succ_pos k)

theorem strlen_literal {l : List Byte} (hl : ∀ b ∈ l, b ≠ 0) (hlen : l.length < 2 ^ 64) :
    strlen (literal l) = some l.length := by
  have hfrom : strlen (literal l) = some (0 + l.length) := by
    refine strlenFrom_eq (fun j hj => ?_) ?_ hlen
    · rw [Nat.zero_add, literal, List.getD_eq_getElem _ _ hj]
      exact hl _ (List.getElem_mem hj)
    · rw [Nat.zero_add, literal, List.getD_eq_default _ _ (Nat.le_refl _)]
  rw [hfrom, Nat.zero_add]

/-- The characters of the string and the zero behind them. -/
theorem strcpy_literal {l : List Byte} (hl : ∀ b ∈ l, b ≠ 0) (h : dest + (l.length + 1) ≤ 2 ^ 64) :
    strcpy r dest (literal l) = some (r.storeBytes dest (l ++ [0])) := by
  have hbytes : bytesAt (literal l) 0 (l.length + 1) = l ++ [0] := by
    rw [bytesAt_append]
    congr 1
    · refine List.ext_getElem (length_bytesAt ..) fun j hj hj' => ?_
      rw [getElem_bytesAt, Nat.zero_add, literal, List.getD_eq_getElem _ _ hj']
    · rw [bytesAt, List.range_one, List.map_singleton, literal, List.getD_eq_default _ _ (by omega)]
  rw [strcpy, strlen_literal hl (by omega), Option.map_some, memcpy, memcpyLoop_eq (by omega),
    hbytes, Nat.add_zero]

theorem strncmpFrom_eq_zero (h : ∀ j < n, s2 (i + j) ≠ 0) :
    strncmpFrom s1 s2 n i = 0 ↔ ∀ j < n, s1 (i + j) = s2 (i + j) := by
  induction n generalizing i with
  | zero => simp [strncmpFrom]
  | succ n ih =>
    have hshift (j : Nat) : i + 1 + j = i + (j + 1) := by omega
    have hrest := @ih (i + 1) fun j hj => by
      rw [hshift]
      exact h (j + 1) (by omega)
    rw [strncmpFrom]
    split
    · next hne =>
      -- the first difference is the result
      constructor
      · intro hzero
        exact absurd (BitVec.eq_of_toNat_eq (by omega)) hne
      · intro hall
        exact absurd (hall 0 (Nat.succ_pos n)) hne
    · next heq =>
      have heq := not_not.mp heq
      rw [if_neg (heq ▸ h 0 (Nat.succ_pos n)), hrest]
      constructor
      · intro hall j hj
        cases j with
        | zero => exact heq
        | succ j =>
          rw [← hshift]
          exact hall j (by omega)
      · intro hall j hj
        rw [hshift]
        exact hall (j + 1) (by omega)

/-- A string without zeros is compared in full. -/
theorem strncmp_eq_zero (h : ∀ j < n, s2 j ≠ 0) : strncmp s1 s2 n = 0 ↔ ∀ j < n, s1 j = s2 j := by
  have hfrom := @strncmpFrom_eq_zero s1 s2 n 0 (by simpa using h)
  simp only [Nat.zero_add] at hfrom
  exact hfrom

end

end Plos
