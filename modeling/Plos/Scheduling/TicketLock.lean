import Mathlib.Data.Fintype.Card
import Mathlib.Data.List.FinRange
import Mathlib.Logic.Function.Basic
import Plos.Lib.Run
import Plos.Lib.Word

/-! The ticket lock of `lock.c` under contention.

The atomic steps are the fetch-and-add on `ticket`, a read of `turn` in the loop of
`spinlock_irq_acquire`, and the fetch-and-add on `turn`; both counters wrap at `2 ^ 64`. The state
of a run also keeps the order in which the contenders took tickets and the order in which they
entered.

The contenders that hold or wait form a queue. A ticket is the distance of its owner from the head
of the queue, counted from `turn`; the queue is shorter than `2 ^ 64`, so the distances stay apart
although the counters wrap. -/

namespace Plos

structure SpinlockIrq where
  ticket : Nat
  turn : Nat
  deriving DecidableEq, Repr

/-- Where a contender is: outside, in the loop of `spinlock_irq_acquire`, or past it and before its
release. -/
inductive SpinPhase where
  | idle
  | spinning (myticket : Nat)
  | holding
  deriving DecidableEq, Repr

/-- The lock with its contenders, and the orders in which they took tickets and entered. -/
structure TicketSys (n : Nat) where
  lock : SpinlockIrq
  phase : Fin n → SpinPhase
  taken : List (Fin n)
  entered : List (Fin n)

inductive TicketOp (n : Nat) where
  | take (i : Fin n)
  | read (i : Fin n)
  | release (i : Fin n)
  deriving DecidableEq, Repr

variable {n : Nat}

/-- One atomic step; only the holder releases. -/
def TicketSys.step (s : TicketSys n) : TicketOp n → Option (TicketSys n)
  | .take i => match s.phase i with
    | .idle => some { s with
        lock := ⟨add64 s.lock.ticket 1, s.lock.turn⟩
        phase := Function.update s.phase i (.spinning s.lock.ticket)
        taken := s.taken ++ [i] }
    | _ => none
  | .read i => match s.phase i with
    | .spinning myticket =>
      if s.lock.turn ≠ myticket then some s
      else some { s with
        phase := Function.update s.phase i .holding
        entered := s.entered ++ [i] }
    | _ => none
  | .release i => match s.phase i with
    | .holding => some { s with
        lock := ⟨s.lock.ticket, add64 s.lock.turn 1⟩
        phase := Function.update s.phase i .idle }
    | _ => none

/-- A free lock whose counters stand at `v`. -/
def TicketSys.free (n v : Nat) : TicketSys n := ⟨⟨v, v⟩, fun _ => .idle, [], []⟩

/-- The number of contenders that hold the lock or wait for it. -/
def TicketSys.contending (s : TicketSys n) : Nat :=
  (List.finRange n).countP fun i => s.phase i ≠ .idle

/-- The queue of a state: the holder, if there is one, and the contenders that wait, in the order of
their tickets. -/
structure TicketInv (s : TicketSys n) (holder : Option (Fin n)) (waiting : List (Fin n)) :
    Prop where
  nodup : (holder.toList ++ waiting).Nodup
  turn_lt : s.lock.turn < 2 ^ 64
  ticket : s.lock.ticket = (s.lock.turn + (holder.toList ++ waiting).length) % 2 ^ 64
  idle : ∀ i, i ∉ holder.toList ++ waiting → s.phase i = .idle
  holding : ∀ i, holder = some i → s.phase i = .holding
  spinning : ∀ k i, waiting[k]? = some i →
    s.phase i = .spinning ((s.lock.turn + holder.toList.length + k) % 2 ^ 64)
  order : s.taken = s.entered ++ waiting

namespace TicketInv

variable {s s' : TicketSys n} {holder : Option (Fin n)} {waiting : List (Fin n)} {i : Fin n}

theorem free {v : Nat} (hv : v < 2 ^ 64) : TicketInv (TicketSys.free n v) none [] :=
  ⟨List.nodup_nil, hv, (Nat.mod_eq_of_lt hv).symm, fun _ _ => rfl, nofun, nofun, rfl⟩

theorem length_le (H : TicketInv s holder waiting) : (holder.toList ++ waiting).length ≤ n := by
  simpa using H.nodup.length_le_card

/-- A contender in the queue is the holder or has a place among those that wait. -/
theorem phase_of_mem (H : TicketInv s holder waiting) (hi : i ∈ holder.toList ++ waiting) :
    (holder = some i ∧ s.phase i = .holding) ∨
      ∃ k, waiting[k]? = some i ∧
        s.phase i = .spinning ((s.lock.turn + holder.toList.length + k) % 2 ^ 64) := by
  rcases List.mem_append.mp hi with hi | hi
  · have hholder : holder = some i := Option.mem_toList.mp hi
    exact .inl ⟨hholder, H.holding i hholder⟩
  · obtain ⟨k, hk⟩ := List.mem_iff_getElem?.mp hi
    exact .inr ⟨k, hk, H.spinning k i hk⟩

theorem mem_iff (H : TicketInv s holder waiting) :
    i ∈ holder.toList ++ waiting ↔ s.phase i ≠ .idle := by
  constructor
  · intro hi hidle
    rcases H.phase_of_mem hi with ⟨-, hp⟩ | ⟨k, -, hp⟩
    · cases hp.symm.trans hidle
    · cases hp.symm.trans hidle
  · intro hp
    by_contra hi
    exact hp (H.idle i hi)

theorem holder_of_holding (H : TicketInv s holder waiting) (hp : s.phase i = .holding) :
    holder = some i := by
  have hi : i ∈ holder.toList ++ waiting := H.mem_iff.mpr (by rw [hp]; exact nofun)
  rcases H.phase_of_mem hi with ⟨hholder, -⟩ | ⟨k, -, hp'⟩
  · exact hholder
  · cases hp.symm.trans hp'

/-- The phases of the others in the queue stay. -/
theorem update_of_mem {p : SpinPhase} {j : Fin n} (hi : i ∉ waiting) {k : Nat}
    (hk : waiting[k]? = some j) : Function.update s.phase i p j = s.phase j := by
  refine Function.update_of_ne ?_ ..
  rintro rfl
  exact hi (List.mem_of_getElem? hk)

theorem take (H : TicketInv s holder waiting) (h : s.step (.take i) = some s') :
    TicketInv s' holder (waiting ++ [i]) := by
  unfold TicketSys.step at h
  cases hp : s.phase i with
  | spinning m => simp [hp] at h
  | holding => simp [hp] at h
  | idle =>
    simp only [hp] at h
    cases h
    have hi : i ∉ holder.toList ++ waiting := fun hmem => H.mem_iff.mp hmem hp
    have hi' : i ∉ waiting := fun hmem => hi (List.mem_append_right _ hmem)
    refine ⟨?_, H.turn_lt, ?_, fun j hj => ?_, fun j hj => ?_, fun k j hk => ?_, ?_⟩
    · rw [← List.append_assoc]
      exact List.nodup_append.mpr ⟨H.nodup, List.nodup_singleton i, fun j hj k hk hjk =>
        hi (List.mem_singleton.mp hk ▸ hjk ▸ hj)⟩
    · have hticket := H.ticket
      simp only [List.length_append, List.length_singleton, add64, addW] at hticket ⊢
      omega
    · rw [← List.append_assoc, List.mem_append, not_or, List.mem_singleton] at hj
      exact (Function.update_of_ne hj.2 ..).trans (H.idle j hj.1)
    · refine (Function.update_of_ne ?_ ..).trans (H.holding j hj)
      rintro rfl
      exact hi (List.mem_append_left _ (Option.mem_toList.mpr hj))
    · rcases Nat.lt_or_ge k waiting.length with hlt | hge
      · rw [List.getElem?_append_left hlt] at hk
        exact (update_of_mem hi' hk).trans (H.spinning k j hk)
      · have hlt := (List.getElem?_eq_some_iff.mp hk).1
        rw [List.length_append, List.length_singleton] at hlt
        obtain rfl : k = waiting.length := by omega
        rw [List.getElem?_append_right hge, Nat.sub_self] at hk
        cases hk
        simp only [Function.update_self, H.ticket, List.length_append, Nat.add_assoc]
    · simp only [H.order, List.append_assoc]

/-- The read that lets a contender in is the one of the head of the queue, and there is no
holder. -/
theorem read_enters (hn : n < 2 ^ 64) (H : TicketInv s holder waiting) {m : Nat}
    (hp : s.phase i = .spinning m) (hm : s.lock.turn = m) :
    holder = none ∧ ∃ rest, waiting = i :: rest := by
  have hi : i ∈ holder.toList ++ waiting := H.mem_iff.mpr (by rw [hp]; exact nofun)
  rcases H.phase_of_mem hi with ⟨-, hp'⟩ | ⟨k, hk, hp'⟩
  · cases hp.symm.trans hp'
  · have hmk : m = (s.lock.turn + holder.toList.length + k) % 2 ^ 64 :=
      SpinPhase.spinning.inj (hp.symm.trans hp')
    have hlen := H.length_le
    have hlt := (List.getElem?_eq_some_iff.mp hk).1
    have hturn := H.turn_lt
    rw [List.length_append] at hlen
    -- the distance from `turn` is less than the range of the counter
    have hzero : holder.toList.length = 0 ∧ k = 0 := by omega
    obtain ⟨hh, rfl⟩ := hzero
    refine ⟨Option.toList_eq_nil_iff.mp (List.eq_nil_of_length_eq_zero hh), ?_⟩
    cases waiting with
    | nil => cases hk
    | cons j rest =>
      cases hk
      exact ⟨rest, rfl⟩

theorem read (hn : n < 2 ^ 64) (H : TicketInv s holder waiting) (h : s.step (.read i) = some s') :
    ∃ holder' waiting', TicketInv s' holder' waiting' := by
  unfold TicketSys.step at h
  cases hp : s.phase i with
  | idle => simp [hp] at h
  | holding => simp [hp] at h
  | spinning m =>
    simp only [hp] at h
    split at h
    · cases h
      exact ⟨holder, waiting, H⟩
    · next hm =>
      cases h
      obtain ⟨rfl, rest, rfl⟩ := H.read_enters hn hp (not_not.mp hm)
      have hnd := List.nodup_cons.mp H.nodup
      refine ⟨some i, rest, H.nodup, H.turn_lt, H.ticket, fun j hj => ?_, fun j hj => ?_,
        fun k j hk => ?_, ?_⟩
      · have hji : j ≠ i := fun heq => hj (heq ▸ List.mem_cons_self)
        exact (Function.update_of_ne hji ..).trans (H.idle j hj)
      · cases hj
        exact Function.update_self ..
      · refine (update_of_mem hnd.1 hk).trans ((H.spinning (k + 1) j hk).trans ?_)
        have hplace : s.lock.turn + 0 + (k + 1) = s.lock.turn + 1 + k := by omega
        exact congrArg (fun m => SpinPhase.spinning (m % 2 ^ 64)) hplace
      · simp only [H.order, List.append_assoc, List.singleton_append]

theorem release (H : TicketInv s holder waiting) (h : s.step (.release i) = some s') :
    TicketInv s' none waiting := by
  unfold TicketSys.step at h
  cases hp : s.phase i with
  | idle => simp [hp] at h
  | spinning m => simp [hp] at h
  | holding =>
    simp only [hp] at h
    cases h
    obtain rfl := H.holder_of_holding hp
    have hnd := List.nodup_cons.mp H.nodup
    refine ⟨hnd.2, add64_lt, ?_, fun j hj => ?_, nofun, fun k j hk => ?_, H.order⟩
    · have hticket := H.ticket
      simp only [Option.toList_some, Option.toList_none, List.singleton_append, List.nil_append,
        List.length_cons, add64, addW] at hticket ⊢
      omega
    · rcases eq_or_ne j i with rfl | hne
      · exact Function.update_self ..
      · refine (Function.update_of_ne hne ..).trans (H.idle j fun hmem => ?_)
        rcases List.mem_cons.mp hmem with heq | hmem
        · exact hne heq
        · exact hj hmem
    · refine (update_of_mem hnd.1 hk).trans ((H.spinning k j hk).trans ?_)
      have hplace : (s.lock.turn + 1 + k) % 2 ^ 64 = (add64 s.lock.turn 1 + 0 + k) % 2 ^ 64 := by
        simp only [add64, addW]
        omega
      exact congrArg SpinPhase.spinning hplace

theorem step {op : TicketOp n} (hn : n < 2 ^ 64) (H : TicketInv s holder waiting)
    (h : s.step op = some s') : ∃ holder' waiting', TicketInv s' holder' waiting' := by
  cases op with
  | take i => exact ⟨_, _, H.take h⟩
  | read i => exact H.read hn h
  | release i => exact ⟨_, _, H.release h⟩

/-- The length of the queue is the number of those that hold or wait. -/
theorem contending_eq (H : TicketInv s holder waiting) :
    s.contending = (holder.toList ++ waiting).length := by
  rw [TicketSys.contending, List.countP_eq_length_filter]
  refine List.Perm.length_eq ((List.perm_ext_iff_of_nodup ?_ H.nodup).mpr fun i => ?_)
  · exact (List.nodup_finRange n).filter _
  · rw [List.mem_filter, H.mem_iff]
    simp

end TicketInv

variable {v : Nat} {ops : List (TicketOp n)} {s : TicketSys n}

/-- For fewer than `2 ^ 64` contenders, from a free lock whose counters stand anywhere, in every
interleaving: at most one contender holds the lock, the contenders enter in the order in which they
took tickets, and the distance of the counters is the number of those that hold or wait. A lock that
is free lets the next one in. -/
theorem ticketRun_fair (hn : n < 2 ^ 64) (hv : v < 2 ^ 64)
    (h : runFrom TicketSys.step (TicketSys.free n v) ops = some s) :
    (∀ i j, s.phase i = .holding → s.phase j = .holding → i = j) ∧
    s.entered <+: s.taken ∧
    sub64 s.lock.ticket s.lock.turn = s.contending ∧
    ((∀ i, s.phase i ≠ .holding) → ∀ i, s.taken[s.entered.length]? = some i →
      ∃ s', s.step (.read i) = some s' ∧ s'.phase i = .holding) := by
  obtain ⟨holder, waiting, H⟩ := runFrom_induction
    (I := fun s => ∃ holder waiting, TicketInv (n := n) s holder waiting)
    (fun _ _ _ ⟨_, _, hI⟩ hop => hI.step hn hop) ⟨none, [], .free hv⟩ h
  refine ⟨fun i j hi hj => ?_, ⟨waiting, H.order.symm⟩, ?_, fun hfree i hi => ?_⟩
  · exact Option.some.inj ((H.holder_of_holding hi).symm.trans (H.holder_of_holding hj))
  · have hlen := H.length_le
    have hturn := H.turn_lt
    rw [H.contending_eq, H.ticket]
    simp only [sub64, subW]
    omega
  · cases holder with
    | some j => exact absurd (H.holding j rfl) (hfree j)
    | none =>
      rw [H.order, List.getElem?_append_right (Nat.le_refl _), Nat.sub_self] at hi
      have hp := H.spinning 0 i hi
      have hturn : (s.lock.turn + 0 + 0) % 2 ^ 64 = s.lock.turn := Nat.mod_eq_of_lt H.turn_lt
      rw [Option.toList_none, List.length_nil, hturn] at hp
      simp only [TicketSys.step, hp, ne_eq, not_true_eq_false, if_false]
      exact ⟨_, rfl, Function.update_self ..⟩

/-- The counters wrap while three contenders pass. -/
theorem ticketRun_fair_wraps :
    ∃ s, runFrom TicketSys.step (TicketSys.free 3 (2 ^ 64 - 1))
        [.take 2, .take 0, .read 0, .read 2, .take 1, .release 2, .read 1, .read 0] = some s ∧
      s.lock = ⟨2, 0⟩ ∧ s.entered = [2, 0] ∧ s.entered <+: s.taken ∧
        sub64 s.lock.ticket s.lock.turn = s.contending := by
  have hrun : (runFrom TicketSys.step (TicketSys.free 3 (2 ^ 64 - 1))
      [.take 2, .take 0, .read 0, .read 2, .take 1, .release 2, .read 1, .read 0]).map
        (fun s => (s.lock, s.entered)) = some (⟨2, 0⟩, [2, 0]) := by decide
  obtain ⟨s, hs, hval⟩ := Option.map_eq_some_iff.mp hrun
  obtain ⟨-, hfifo, hcount, -⟩ := ticketRun_fair (by decide) (by decide) hs
  exact ⟨s, hs, congrArg Prod.fst hval, congrArg Prod.snd hval, hfifo, hcount⟩

end Plos
