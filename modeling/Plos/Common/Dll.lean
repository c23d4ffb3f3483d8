import Plos.Lib.Path

/-! The circular doubly linked lists of `common/dll.c`, over an arbitrary type of node addresses.

The functions are the source's pointer writes, one after the other; a store gives every address
its node. `Ring m h xs` says that the store holds a well-formed list with head `h` whose other
nodes are `xs` in `next` order, and the lemmas say how each function changes that sequence and
that it leaves every list that does not meet its nodes alone. -/

namespace Plos

/-- `struct double_ll_node`. -/
structure DoubleLlNode (N : Type u) where
  prev : N
  next : N

/-- The nodes by address. -/
structure DllStore (N : Type u) where
  node : N → DoubleLlNode N

instance : CoeFun (DllStore N) fun _ => N → DoubleLlNode N := ⟨DllStore.node⟩

variable {N : Type u}

namespace DllStore

variable [DecidableEq N]

/-- `a->prev = b` -/
def setPrev (m : DllStore N) (a b : N) : DllStore N :=
  ⟨Function.update m.node a { m a with prev := b }⟩

/-- `a->next = b` -/
def setNext (m : DllStore N) (a b : N) : DllStore N :=
  ⟨Function.update m.node a { m a with next := b }⟩

end DllStore

section
variable [DecidableEq N]

def dllInit (m : DllStore N) (list : N) : DllStore N :=
  let m := m.setNext list list
  m.setPrev list list

/-- `_dll_add` -/
def dllAdd (m : DllStore N) (new prev next : N) : DllStore N :=
  let m := m.setNext prev new
  let m := m.setPrev new prev
  let m := m.setNext new next
  m.setPrev next new

def dllAddAfter (m : DllStore N) (head new : N) : DllStore N :=
  dllAdd m new head (m head).next

def dllAddBefore (m : DllStore N) (head new : N) : DllStore N :=
  dllAdd m new (m head).prev head

def dllDelete (m : DllStore N) (node : N) : DllStore N :=
  let m := m.setNext (m node).prev (m node).next
  m.setPrev (m node).next (m node).prev

def dllEmpty (m : DllStore N) (head : N) : Bool :=
  (m head).next = head && (m head).prev = head

end

/-! ## The fields after each write -/

namespace DllStore

variable {m : DllStore N} {a b c : N}

theorem ext_fields {m' : DllStore N} (hp : (m' a).prev = (m a).prev)
    (hn : (m' a).next = (m a).next) : m' a = m a := by
  cases h : m' a; cases h' : m a; simp_all

variable [DecidableEq N]

@[simp] theorem setPrev_next : (m.setPrev a b c).next = (m c).next := by
  unfold setPrev; by_cases h : c = a
  · subst h; simp
  · simp [h]

@[simp] theorem setNext_prev : (m.setNext a b c).prev = (m c).prev := by
  unfold setNext; by_cases h : c = a
  · subst h; simp
  · simp [h]

theorem setPrev_prev : (m.setPrev a b c).prev = if c = a then b else (m c).prev := by
  unfold setPrev; split
  · next h => subst h; simp
  · next h => simp [h]

theorem setNext_next : (m.setNext a b c).next = if c = a then b else (m c).next := by
  unfold setNext; split
  · next h => subst h; simp
  · next h => simp [h]

end DllStore

open DllStore

section
variable [DecidableEq N]

theorem dllAdd_next {m : DllStore N} {n p q x : N} :
    (dllAdd m n p q x).next = if x = n then q else if x = p then n else (m x).next := by
  simp only [dllAdd, setPrev_next, setNext_next]

theorem dllAdd_prev {m : DllStore N} {n p q x : N} :
    (dllAdd m n p q x).prev = if x = q then n else if x = n then p else (m x).prev := by
  simp only [dllAdd, setPrev_prev, setNext_prev]

theorem dllDelete_next {m : DllStore N} {n x : N} :
    (dllDelete m n x).next = if x = (m n).prev then (m n).next else (m x).next := by
  simp only [dllDelete, setPrev_next, setNext_next]

theorem dllDelete_prev {m : DllStore N} {n x : N} (hn : (m n).prev ≠ n) :
    (dllDelete m n x).prev = if x = (m n).next then (m n).prev else (m x).prev := by
  simp only [dllDelete, setPrev_prev, setNext_prev, setNext_next, if_neg hn.symm]

end

/-- The nodes behind `a`, followed until the head is met again. -/
def dllNodes [DecidableEq N] (m : DllStore N) (head : N) : Nat → (a : N) → List N
  | 0, _ => []
  | n + 1, a => if (m a).next = head then [] else (m a).next :: dllNodes m head n (m a).next

/-! ## Well-formed lists -/

/-- The store holds a circular list with head `h` and the nodes `xs` behind it, in `next`
order; `prev` is the inverse of `next` on it. -/
structure Ring (m : DllStore N) (h : N) (xs : List N) : Prop where
  nodup : (h :: xs).Nodup
  path : Path (fun a => (m a).next) h xs h
  back : ∀ a ∈ h :: xs, (m (m a).next).prev = a

namespace Ring

variable {m m' : DllStore N} {h n a : N} {xs ys : List N}

theorem next_mem (H : Ring m h xs) (ha : a ∈ h :: xs) : (m a).next ∈ h :: xs := by
  have := H.path.succ_mem a ha
  simpa [or_comm] using this

theorem next_prev (H : Ring m h xs) (ha : a ∈ h :: xs) :
    (m a).prev ∈ h :: xs ∧ (m (m a).prev).next = a := by
  obtain ⟨b, hb, rfl⟩ := H.path.exists_pred a (by simpa [or_comm] using ha)
  rw [H.back b hb]
  exact ⟨hb, rfl⟩

/-- A list is a property of the links of its own nodes. -/
theorem congr (H : Ring m h xs) (hm : ∀ a ∈ h :: xs, m' a = m a) : Ring m' h xs where
  nodup := H.nodup
  path := H.path.congr fun a ha => by simp only [hm a ha]
  back a ha := by rw [hm a ha, hm _ (H.next_mem ha), H.back a ha]

theorem head_next {x : N} (H : Ring m h (x :: xs)) : (m h).next = x :=
  (Path.cons_iff.mp H.path).1

theorem next_ne (H : Ring m h xs) (hn : n ∉ h :: xs) (ha : a ∈ h :: xs) : (m a).next ≠ n :=
  fun e => hn (e ▸ H.next_mem ha)

theorem prev_ne_self (H : Ring m h xs) (hn : n ∈ xs) : (m n).prev ≠ n := by
  intro e
  -- a node that is its own predecessor closes the walk before it returns to the head
  obtain ⟨l, r, rfl⟩ := List.append_of_mem hn
  have hnn : (m n).next = n := by
    have := (H.next_prev (List.mem_cons_of_mem _ hn)).2
    rwa [e] at this
  have hnd := H.nodup
  have hp := (Path.append_iff.mp H.path).2
  cases r with
  | nil => simp only [Path.nil_iff, hnn] at hp; subst hp; simp at hnd
  | cons y r => simp only [Path.cons_iff, hnn] at hp; obtain ⟨rfl, -⟩ := hp; grind

/-- Following `prev` from the head lists the nodes in reverse. -/
theorem prev_path (H : Ring m h xs) : Path (fun a => (m a).prev) h xs.reverse h :=
  H.path.reverse H.back

/-- A list can be entered at any of its nodes. -/
theorem rotate {l r : List N} (H : Ring m h (l ++ a :: r)) : Ring m a (r ++ h :: l) := by
  have hperm : (a :: (r ++ h :: l)).Perm (h :: (l ++ a :: r)) :=
    @List.perm_append_comm _ (a :: r) (h :: l)
  obtain ⟨hl, hr⟩ := Path.append_iff.mp H.path
  exact ⟨hperm.nodup_iff.mpr H.nodup, Path.append_iff.mpr ⟨hr, hl⟩, fun x hx =>
    H.back x (hperm.mem_iff.mp hx)⟩

theorem exists_rotate (H : Ring m h xs) (ha : a ∈ h :: xs) :
    ∃ ys, Ring m a ys ∧ ∀ x, x ∈ a :: ys ↔ x ∈ h :: xs := by
  rcases List.mem_cons.mp ha with rfl | ha
  · exact ⟨xs, H, fun _ => Iff.rfl⟩
  · obtain ⟨l, r, rfl⟩ := List.append_of_mem ha
    exact ⟨_, H.rotate, fun x => (@List.perm_append_comm _ (a :: r) (h :: l)).mem_iff⟩

variable [DecidableEq N]

theorem init : Ring (dllInit m h) h [] := by
  constructor <;> simp [dllInit, setPrev_prev, setNext_next]

theorem init_frame (ha : a ≠ h) : dllInit m h a = m a :=
  ext_fields (by simp [dllInit, setPrev_prev, ha]) (by simp [dllInit, setNext_next, ha])

theorem empty_iff (H : Ring m h xs) : dllEmpty m h = true ↔ xs = [] := by
  cases xs with
  | nil =>
    have hn : (m h).next = h := by simpa using H.path
    have hp := H.back h List.mem_cons_self
    rw [hn] at hp
    simp [dllEmpty, hn, hp]
  | cons x xs =>
    have hx : (m h).next = x := (Path.cons_iff.mp H.path).1
    have : h ≠ x := fun e => by simp [e] at H; exact absurd H.nodup (by simp)
    simp [dllEmpty, hx, this.symm]

private theorem nodes_of_path {n : Nat} (hp : Path (fun a => (m a).next) a xs h) (hx : h ∉ xs)
    (hn : xs.length ≤ n) : dllNodes m h n a = xs := by
  induction xs generalizing a n with
  | nil =>
    cases n with
    | zero => rfl
    | succ n => exact if_pos (Path.nil_iff.mp hp)
  | cons x xs ih =>
    obtain ⟨rfl, hp⟩ := Path.cons_iff.mp hp
    obtain ⟨hne, hx⟩ := not_or.mp (List.mem_cons.not.mp hx)
    cases n with
    | zero => cases hn
    | succ n =>
      rw [dllNodes, if_neg (Ne.symm hne), ih hp hx (Nat.le_of_succ_le_succ hn)]

/-- Following `next` from the head lists the nodes. -/
theorem nodes {n : Nat} (H : Ring m h xs) (hn : xs.length ≤ n) : dllNodes m h n h = xs :=
  nodes_of_path H.path (List.nodup_cons.mp H.nodup).1 hn

/-- `dll_add_after` on the head prepends. -/
theorem addAfter (H : Ring m h xs) (hn : n ∉ h :: xs) : Ring (dllAddAfter m h n) h (n :: xs) := by
  have hhn : h ≠ n := fun e => hn (e ▸ List.mem_cons_self)
  have hnext (x) : (dllAddAfter m h n x).next =
      if x = n then (m h).next else if x = h then n else (m x).next := dllAdd_next
  have hprev (x) : (dllAddAfter m h n x).prev =
      if x = (m h).next then n else if x = n then h else (m x).prev := dllAdd_prev
  have hne : ∀ x ∈ h :: xs, (m x).next ≠ n := fun x hx => H.next_ne hn hx
  refine ⟨?_, ?_, ?_⟩
  · have hnd := H.nodup
    grind
  · refine Path.cons_iff.mpr ⟨by simp [hnext, hhn], ?_⟩
    -- the rest of the walk starts at the old successor of the head, now behind `n`
    cases xs with
    | nil => simpa [hnext] using H.path
    | cons x xs =>
      have hp := Path.cons_iff.mp H.path
      refine Path.cons_iff.mpr ⟨by simpa [hnext] using hp.1, hp.2.congr fun y hy => ?_⟩
      have hnd := H.nodup
      have hyn : y ≠ n := by grind
      have hyh : y ≠ h := by grind
      simp [hnext, hyn, hyh]
  · intro x hx
    by_cases hxn : x = n
    · subst hxn; simp [hnext, hprev]
    have hx' : x ∈ h :: xs := by grind
    by_cases hxh : x = h
    · subst hxh
      simp [hnext, hprev, hxn, (hne x hx').symm]
    · -- `prev` is changed only at `n` and at the successor of `h`
      have hxs : (m x).next ≠ (m h).next := fun e => hxh <| by
        rw [← H.back x hx', e, H.back h List.mem_cons_self]
      simp [hnext, hprev, hxn, hxh, hxs, hne x hx', H.back x hx']

theorem addAfter_frame (H : Ring m h xs) (ha : a ∉ h :: xs) (han : a ≠ n) :
    dllAddAfter m h n a = m a := by
  have hah : a ≠ h := fun e => ha (e ▸ List.mem_cons_self)
  have has : a ≠ (m h).next := fun e => ha (e ▸ H.next_mem List.mem_cons_self)
  exact ext_fields (by simp [dllAddAfter, dllAdd_prev, has, han])
    (by simp [dllAddAfter, dllAdd_next, han, hah])

/-- Adding a node before another one is adding it after the node before that one. -/
theorem addBefore_eq (H : Ring m h xs) (ha : a ∈ h :: xs) :
    dllAddBefore m a n = dllAddAfter m (m a).prev n := by
  rw [dllAddBefore, dllAddAfter, (H.next_prev ha).2]

/-- `dll_add_before` on the head appends. -/
theorem addBefore (H : Ring m h xs) (hn : n ∉ h :: xs) :
    Ring (dllAddBefore m h n) h (xs ++ [n]) := by
  rw [H.addBefore_eq List.mem_cons_self]
  rcases List.eq_nil_or_concat xs with rfl | ⟨ys, p, rfl⟩
  · have hprev : (m h).prev = h := Path.nil_iff.mp H.prev_path
    rw [hprev]
    exact H.addAfter hn
  · have hback := H.prev_path
    rw [List.concat_eq_append, List.reverse_append] at hback
    have hprev : (m h).prev = p := (Path.cons_iff.mp hback).1
    rw [List.concat_eq_append] at H hn ⊢
    -- entered at its last node, the list has the new node in front
    have hlast : Ring (dllAddAfter m p n) p ([n] ++ h :: ys) := by
      refine H.rotate.addAfter fun hmem => hn ?_
      exact (@List.perm_append_comm _ [p] (h :: ys)).mem_iff.mp hmem
    have hrot := hlast.rotate
    rw [hprev, List.append_assoc]
    exact hrot

theorem addBefore_frame (H : Ring m h xs) (ha : a ∉ h :: xs) (han : a ≠ n) :
    dllAddBefore m h n a = m a := by
  obtain ⟨hmem, -⟩ := H.next_prev List.mem_cons_self
  obtain ⟨ys, hys, hiff⟩ := H.exists_rotate hmem
  rw [H.addBefore_eq List.mem_cons_self]
  exact hys.addAfter_frame ((hiff a).not.mpr ha) han

theorem addAfter_mid {l r : List N} (H : Ring m h (l ++ a :: r)) (hn : n ∉ h :: (l ++ a :: r)) :
    Ring (dllAddAfter m a n) h (l ++ a :: n :: r) := by
  have hadd : Ring (dllAddAfter m a n) a (n :: r ++ h :: l) :=
    H.rotate.addAfter fun hmem => hn ((@List.perm_append_comm _ (a :: r) (h :: l)).mem_iff.mp hmem)
  exact hadd.rotate

theorem addBefore_mid {l r : List N} (H : Ring m h (l ++ a :: r)) (hn : n ∉ h :: (l ++ a :: r)) :
    Ring (dllAddBefore m a n) h (l ++ n :: a :: r) := by
  have hadd : Ring (dllAddBefore m a n) a (r ++ h :: l ++ [n]) :=
    H.rotate.addBefore fun hmem => hn ((@List.perm_append_comm _ (a :: r) (h :: l)).mem_iff.mp hmem)
  rw [List.append_assoc, List.cons_append] at hadd
  have hrot := hadd.rotate
  rw [List.append_assoc] at hrot
  exact hrot

/-- `dll_delete` of a node behind the head removes it from its sequence. -/
theorem delete (H : Ring m h xs) (hn : n ∈ xs) : Ring (dllDelete m n) h (xs.erase n) := by
  have hpn := H.prev_ne_self hn
  have hmem : n ∈ h :: xs := List.mem_cons_of_mem _ hn
  obtain ⟨hpm, hpnext⟩ := H.next_prev hmem
  have hnext (x) : (dllDelete m n x).next =
      if x = (m n).prev then (m n).next else (m x).next := dllDelete_next
  have hprev (x) : (dllDelete m n x).prev =
      if x = (m n).next then (m n).prev else (m x).prev := dllDelete_prev hpn
  have hnd := H.nodup
  refine ⟨?_, ?_, ?_⟩
  · exact hnd.sublist ((List.erase_sublist).cons_cons h)
  · obtain ⟨l, r, rfl⟩ := List.append_of_mem hn
    have hl : n ∉ l := by grind
    rw [List.erase_append_right _ hl, List.erase_cons_head]
    have hpl : (m n).prev ∈ h :: l := by
      -- otherwise the predecessor is visited after `n`
      obtain ⟨p, hp, hpe⟩ := (Path.append_iff.mp H.path).1.exists_pred n (by simp)
      have : (m n).prev = p := by rw [← hpe]; exact H.back p (by grind)
      exact this ▸ hp
    have := H.path.unlink hnd hpl hpnext
    refine this.congr fun x _ => ?_
    simp only [hnext, Function.update_apply]
  · intro x hx
    have hxn : x ≠ n := by grind
    have hx' : x ∈ h :: xs := by grind
    by_cases hxp : x = (m n).prev
    · simp [hnext, hprev, hxp]
    · have hxs : (m x).next ≠ (m n).next := fun e => hxn <| by
        rw [← H.back x hx', e, H.back n hmem]
      simp [hnext, hprev, hxp, hxs, H.back x hx']

theorem delete_frame (H : Ring m h xs) (hn : n ∈ xs) (ha : a ∉ h :: xs) :
    dllDelete m n a = m a := by
  have hmem : n ∈ h :: xs := List.mem_cons_of_mem _ hn
  have hap : a ≠ (m n).prev := fun e => ha (e ▸ (H.next_prev hmem).1)
  have han : a ≠ (m n).next := fun e => ha (e ▸ H.next_mem hmem)
  exact ext_fields (by simp [dllDelete_prev (H.prev_ne_self hn), han])
    (by simp [dllDelete_next, hap])

end Ring

end Plos
