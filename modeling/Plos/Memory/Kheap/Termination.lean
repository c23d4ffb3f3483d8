import Plos.Memory.Kheap.FailedExtension
import Plos.Memory.Kheap.Requests

/-! The loop of `kmalloc` ends.

A round that does not end the call has extended the heap by 256 pages, each in a frame of its own.
So the number of rounds is bounded by the number of free pages, whatever the size of the request.
The last round finds a node, or finds that there is no frame for a page. There is a third way: if
there is a frame for a page but none for the table that it needs, `paging_map_page` stops the
machine. -/

namespace Plos

namespace HeapMachine

/-- A free node that is big enough. -/
def Fitting (s : HeapMachine) (size x : Nat) : Prop :=
  (∃ nodes, s.heap.NodeList nodes ∧ x ∈ nodes) ∧ (s.heap.node x).isFree = true ∧
    blockAlignUp size ≤ (s.heap.node x).size

/-- The ways in which the last round of a call ends it, with what the call returns. -/
inductive CallEnds (root size : Nat) (s : HeapMachine) : Option (HeapMachine × Nat) → Prop
  /-- The lowest node that fits is taken. -/
  | found (x : Nat) : s.Fitting size x → (∀ y, s.Fitting size y → x ≤ y) →
    CallEnds root size s
      (some (⟨kmallocTake s.heap x (blockAlignUp size), s.machine⟩, x + kheapNodeSize))
  /-- `kheap_extend` fails, and the call returns `NULL`. -/
  | outOfPages (t : HeapMachine) : (∀ x, ¬ s.Fitting size x) →
    kheapExtend root s kheapExtendingAmount = some (t, false) → CallEnds root size s (some (t, 0))
  /-- There is no frame for a table, and the machine stops. -/
  | halted : (∀ x, ¬ s.Fitting size x) → s.machine.frames.freeCount < 4 * 256 →
    kheapExtendLoop root (s.heap.kheapEnd + kheapExtendingAmount) 256 s.heap.kheapEnd s.machine =
      none →
    CallEnds root size s none

section
variable {size : Nat} {s : HeapMachine} {live : List Nat} {l : List Chunk}

/-- The nodes that fit, as chunks of the row. -/
theorem fitting_iff {x : Nat} (H : KheapRow ⟨s.heap, live⟩ l) :
    s.Fitting size x ↔ ∃ l₁ c l₂, l = l₁ ++ c :: l₂ ∧
      x = s.heap.kheapStart + extent kheapNodeSize l₁ ∧ c.free = true ∧
      blockAlignUp size ≤ c.size := by
  constructor
  · rintro ⟨⟨nodes, hnodes, hx⟩, hfree, hsize⟩
    rw [hnodes.unique H.nodeList] at hx
    obtain ⟨l₁, c, l₂, rfl, rfl⟩ := exists_of_mem_chunkAddrs hx
    exact ⟨l₁, c, l₂, rfl, rfl, H.inv.node_isFree ▸ hfree, H.inv.node_size ▸ hsize⟩
  · rintro ⟨l₁, c, l₂, rfl, rfl, hfree, hsize⟩
    refine ⟨⟨_, H.nodeList, ?_⟩, H.inv.node_isFree.trans hfree, H.inv.node_size.symm ▸ hsize⟩
    rw [chunkAddrs_append]
    exact List.mem_append_right _ List.mem_cons_self

theorem not_fitting (H : KheapRow ⟨s.heap, live⟩ l)
    (hnone : ∀ d ∈ l, ¬ (d.free = true ∧ blockAlignUp size ≤ d.size)) (x : Nat) :
    ¬ s.Fitting size x := by
  intro hx
  obtain ⟨l₁, c, l₂, rfl, -, hfit⟩ := (fitting_iff H).mp hx
  exact hnone c (List.mem_append_right _ List.mem_cons_self) hfit

/-- The first chunk that fits is the lowest one. -/
theorem fitting_least {l₁ l₂ : List Chunk} {c : Chunk} {y : Nat}
    (H : KheapRow ⟨s.heap, live⟩ (l₁ ++ c :: l₂))
    (hbefore : ∀ d ∈ l₁, ¬ (d.free = true ∧ blockAlignUp size ≤ d.size)) (hy : s.Fitting size y) :
    s.heap.kheapStart + extent kheapNodeSize l₁ ≤ y := by
  obtain ⟨l₁', d, l₂', e, rfl, hfit⟩ := (fitting_iff H).mp hy
  rcases List.append_eq_append_iff.mp e with ⟨a, rfl, -⟩ | ⟨a, rfl, ha⟩
  · rw [extent_append]
    omega
  · cases a with
    | nil => rw [List.append_nil]
    | cons d' a =>
      obtain ⟨rfl, -⟩ := List.cons.inj ha
      exact absurd hfit (hbefore d (List.mem_append_right _ List.mem_cons_self))

end

variable {U : Set Nat} {others : List Block} {root size : Nat} {s t : HeapMachine}
  {T : List Nat → Option Nat} {leaf : List Nat → Nat} {rest : List Nat}

/-! ## Reachable states -/

/-- The heap is a row of chunks, and its pages are mapped. -/
structure Live.Inv (U : Set Nat) (others : List Block) (root : Nat) (s : Live) : Prop where
  row : ∃ l, KheapRow s.row l
  pages : ∃ T leaf anon rest, HeapMachine.Inv U others root s.sys T leaf anon rest

namespace Live.Inv

variable {s s' : Live}

theorem machine_step {op : HeapOp} {t : HeapMachine} (H : s.Inv U others root)
    (hwrap : s.sys.NoWrap op) (h : s.sys.step root op = some t) :
    ∃ T leaf anon rest, HeapMachine.Inv U others root t T leaf anon rest := by
  obtain ⟨T, leaf, anon, rest, P⟩ := H.pages
  exact (P.step h).1 hwrap

theorem step {op : HeapOp} (H : s.Inv U others root) (hwrap : s.sys.NoWrap op)
    (h : s.step root op = some s') : s'.Inv U others root := by
  obtain ⟨l, Hl⟩ := H.row
  constructor
  · rcases row_step Hl hwrap h with ⟨l', H'⟩ | hrow
    · exact ⟨l', .nodes H'⟩
    · exact ⟨l, hrow ▸ Hl⟩
  · cases op with
    | kfree ptr =>
      obtain ⟨-, h⟩ := Option.ite_none_right_eq_some.mp h
      obtain ⟨heap, hfree, rfl⟩ := Option.map_eq_some_iff.mp h
      refine H.machine_step hwrap ?_
      rw [HeapMachine.step, hfree, Option.map_some]
    | kmalloc size =>
      obtain ⟨-, h⟩ := Option.ite_none_right_eq_some.mp h
      obtain ⟨⟨t, ptr⟩, hround, rfl⟩ := Option.map_eq_some_iff.mp h
      refine H.machine_step hwrap ?_
      rw [HeapMachine.step, hround, Option.map_some]

/-- A round ends the call, or it has taken 256 frames and no node was big enough. -/
theorem round (H : s.Inv U others root) (hwrap : s.sys.NoWrap (.kmalloc size)) :
    (∃ r, CallEnds root size s.sys r ∧ ∀ n, kmalloc root size (n + 1) s.sys = r) ∨
      ∃ t, kmallocRound root size s.sys = some (t, none) ∧ Live.Inv U others root ⟨t, s.live⟩ ∧
        t.machine.frames.freeCount + 256 ≤ s.sys.machine.frames.freeCount ∧
        ∀ x, ¬ s.sys.Fitting size x := by
  obtain ⟨l, Hl⟩ := H.row
  obtain ⟨T, leaf, anon, rest, P⟩ := H.pages
  rcases @round_cases root size s.sys s.live l Hl hwrap with
    ⟨l₁, c, l₂, rfl, hfree, hsize, hbefore, hr⟩ | ⟨hnone, hlt, ⟨hloop, hr⟩ | ⟨m, hext, hr⟩ |
      ⟨m, current, -, hloop, hr, l', d, H', -⟩⟩
  · refine .inl ⟨_, .found _ ((fitting_iff Hl).mpr ⟨l₁, c, l₂, rfl, rfl, hfree, hsize⟩)
      (fun y hy => fitting_least Hl hbefore hy), fun n => ?_⟩
    rw [kmalloc, hr]
  · refine .inl ⟨_, .halted (not_fitting Hl hnone) ?_ hloop, fun n => ?_⟩
    · by_contra hcount
      have hpages : s.sys.heap.kheapEnd + pagingPageSize * 256 < 2 ^ 64 := hlt
      obtain ⟨m', hsome, -⟩ := kheapExtendLoop_total P.toPaged (P.smallPages hpages)
        (fun k f hkf => ((P.pages k).mp ⟨f, hkf⟩).2) (Nat.le_of_not_lt hcount)
      cases hloop.symm.trans hsome
    · rw [kmalloc, hr]
  · refine .inl ⟨_, .outOfPages _ (not_fitting Hl hnone) hext, fun n => ?_⟩
    rw [kmalloc, hr]
  · refine .inr ⟨_, hr, ⟨⟨_, .nodes H'⟩, ?_⟩, ?_, not_fitting Hl hnone⟩
    · refine H.machine_step hwrap ?_
      rw [HeapMachine.step, hr, Option.map_some]
    · obtain ⟨-, T', leaf', rest', Hp, hsmall⟩ := P.extendable kheapExtendingAmount
      refine kheapExtendLoop_count Hp ?_ hlt (fun j hj => ?_) hloop
      · rw [kheapExtendingAmount_eq]
      · have hbytes : kheapPageSize * j < kheapExtendingAmount := by
          simp only [kheapPageSize, kheapExtendingAmount]
          omega
        exact hsmall j hbytes (Nat.lt_trans (Nat.add_lt_add_left hbytes _) hlt)

/-- A call ends after at most as many extensions as there are frames for. -/
theorem ends (H : s.Inv U others root)
    (hwrap : ∀ k u, Rounds root size k s.sys u → u.NoWrap (.kmalloc size)) :
    ∃ k u r, Rounds root size k s.sys u ∧
      256 * k + u.machine.frames.freeCount ≤ s.sys.machine.frames.freeCount ∧
      ((∃ x, s.sys.Fitting size x) → k = 0) ∧ CallEnds root size u r ∧
      ∀ n, k < n → kmalloc root size n s.sys = r := by
  induction hcount : s.sys.machine.frames.freeCount using Nat.strongRecOn generalizing s with
  | ind count ih =>
    rcases H.round (hwrap 0 s.sys (.zero _)) with ⟨r, hend, hr⟩ | ⟨t, hround, Ht, hless, hnone⟩
    · refine ⟨0, s.sys, r, .zero _, by omega, fun _ => rfl, hend, fun n hn => ?_⟩
      obtain ⟨n, rfl⟩ := Nat.exists_eq_succ_of_ne_zero (Nat.ne_of_gt hn)
      exact hr n
    · obtain ⟨k, u, r, hk, hle, -, hend, hr⟩ := ih t.machine.frames.freeCount (by omega) Ht
        (fun k u hk => hwrap (k + 1) u (.succ hround hk)) rfl
      refine ⟨k + 1, u, r, .succ hround hk, by omega, fun ⟨x, hx⟩ => absurd hx (hnone x), hend,
        fun n hn => ?_⟩
      obtain ⟨n, rfl⟩ := Nat.exists_eq_succ_of_ne_zero (Nat.ne_zero_of_lt hn)
      rw [kmalloc, hround]
      exact hr n (Nat.lt_of_succ_lt_succ hn)

end Live.Inv

/-- If the range of the heap does not wrap, every call of `kmalloc` ends, in every state that is
reached. It makes no extension if a free node is big enough. It returns the lowest free node that is
big enough after the last extension, or `NULL` if `kheap_extend` has failed, or there is no frame
for a table and the machine stops. -/
theorem heapRun_kmalloc_ends {kernelEnd : Nat} {m : Machine Pmm} {ops : List HeapOp}
    (H : Paged U others 512 root m T leaf [] rest)
    (hhigh : 2 ^ 64 - 2 ^ 31 ≤ kheapStartOf kernelEnd)
    (hempty : ∀ x, kheapStartOf kernelEnd ≤ x → x < 2 ^ 64 → pageWalk m.mem root x = none)
    (hstart : kheapStartOf kernelEnd + kheapStartingSize < 2 ^ 64)
    (h : kheapInit root kernelEnd m = some s)
    (hsteps : AllSteps (Live.step root) (fun t op => t.sys.NoWrap op) ⟨s, []⟩ ops) :
    Along (Live.step root) (fun t => ∀ size < 2 ^ 64,
      (∀ k u, Rounds root size k t.sys u → u.NoWrap (.kmalloc size)) →
      ∃ k u r, Rounds root size k t.sys u ∧
        256 * k + u.machine.frames.freeCount ≤ t.sys.machine.frames.freeCount ∧
        ((∃ x, t.sys.Fitting size x) → k = 0) ∧ CallEnds root size u r ∧
        ∀ n, k < n → kmalloc root size n t.sys = r) ⟨s, []⟩ ops := by
  have hpos : 0 < kheapStartOf kernelEnd := Nat.lt_of_lt_of_le (by decide) hhigh
  have Hrow : ∃ l, KheapRow ⟨s.heap, []⟩ l := by
    rcases kheapInit_row hpos hstart h with E | Hl
    · exact ⟨[], .empty rfl E⟩
    · exact ⟨_, .nodes Hl⟩
  obtain ⟨hlt, hmod⟩ := kheapStartOf_page kernelEnd
  obtain ⟨⟨t, ok⟩, hext, rfl⟩ := Option.map_eq_some_iff.mp h
  clear h
  generalize kheapStartOf kernelEnd = start at *
  have Hinv : Live.Inv U others root ⟨t, []⟩ :=
    ⟨Hrow, (inv_empty H hhigh hlt hmod hempty).extend kheapStartingSize_eq hstart hext⟩
  have hrun : Along (Live.step root) (Live.Inv U others root) ⟨t, []⟩ ops :=
    Along.of_allSteps (fun t op t' Ht hq ht => Ht.step hq ht) Hinv hsteps
  exact hrun.imp fun t Ht size _ hwrap => Ht.ends hwrap

theorem heapRun_kmalloc_ends_bigHeap : ∃ root m s, Booted bigMemmap root m ∧
    kheapInit root 0xffffffff80200000 m = some s ∧
    Along (Live.step root) (fun t => ∀ size < 2 ^ 64,
      (∀ k u, Rounds root size k t.sys u → u.NoWrap (.kmalloc size)) →
      ∃ k u r, Rounds root size k t.sys u ∧
        256 * k + u.machine.frames.freeCount ≤ t.sys.machine.frames.freeCount ∧
        ((∃ x, t.sys.Fitting size x) → k = 0) ∧ CallEnds root size u r ∧
        ∀ n, k < n → kmalloc root size n t.sys = r) ⟨s, []⟩ [.kmalloc 0x80000000] := by
  obtain ⟨root, m, s, T, leaf, rest, B, H, hmem, hinit, O, -, -⟩ := exists_bigHeap
  have hstart : kheapStartOf 0xffffffff80200000 = 0xffffffff80300000 := by decide
  refine ⟨root, m, s, B, hinit, heapRun_kmalloc_ends H (hstart ▸ by decide) (fun x _ _ => ?_)
    (hstart ▸ by decide) hinit (.intro (fun _ => ?_) fun _ _ => trivial)⟩
  · rw [hmem, pageWalk_zero]
  · rw [O.end_eq]
    decide

/-! ## A frame for a page but none for its table -/

/-- A request for 2 MiB finds no node and one free page, which is taken for the next page of the
heap. There is none for its table, and the call does not return. -/
theorem kmalloc_halts : ∃ root m s, Booted tightMemmap root m ∧
    kheapExtend root (empty 0xffffffff80300000 m) kheapStartingSize = some (s, true) ∧
    s.machine.frames.freeCount = 1 ∧ s.search 0x200000 = some none ∧
    s.heap.kheapEnd = 0xffffffff80400000 ∧
    kheapExtend root s kheapExtendingAmount = none ∧ ∀ n, kmalloc root 0x200000 n s = none := by
  obtain ⟨root, m, s, H⟩ := exists_tightHeap
  have hadd : add64 0xffffffff80300000 kheapStartingSize = 0xffffffff80400000 := by decide
  have hend := (kheapExtend_cases kheapStartingSize_eq (by decide) H.first).2.2
  rw [if_pos rfl, empty, hadd] at hend
  refine ⟨root, m, s, H.booted, H.first, H.left, H.full, hend, H.halts, fun n => ?_⟩
  cases n with
  | zero => rfl
  | succ n => rw [kmalloc, kmallocRound_of_none H.full H.halts]

end HeapMachine

end Plos
