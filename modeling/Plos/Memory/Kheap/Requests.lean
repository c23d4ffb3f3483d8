import Plos.Memory.Kheap.Tiling
import Mathlib.Order.CompletePartialOrder
import Mathlib.Order.Interval.Set.Disjoint

/-! What a call of `kmalloc` gives to its caller and leaves to the others.

The payload is as large as the request unless rounding it up to 16 bytes wraps. Of the other nodes
in use the call writes at most one header: an extension that finds the last node in use links the
new node behind it. -/

namespace Plos

/-- The bytes of the header at `x`. -/
def headerBytes (x : Nat) : Set Nat := Set.Ico x (x + kheapNodeSize)

namespace Kheap

/-- The bytes behind a pointer, by the size in its header. -/
def payload (s : Kheap) (ptr : Nat) : Set Nat :=
  Set.Ico ptr (ptr + (s.node (ptr - kheapNodeSize)).size)

/-- The nodes from `kheap_head` on. -/
def NodeList (s : Kheap) (nodes : List Nat) : Prop :=
  nodes = [] ∧ s.kheapHead = 0 ∨
    ∃ rest, nodes = s.kheapHead :: rest ∧ 0 ∉ nodes ∧
      Path (fun x => (s.node x).next) s.kheapHead rest 0

theorem NodeList.unique {s : Kheap} {nodes nodes' : List Nat} (h : s.NodeList nodes)
    (h' : s.NodeList nodes') : nodes = nodes' := by
  rcases h with ⟨rfl, hhead⟩ | ⟨rest, rfl, hzero, hpath⟩
  · rcases h' with ⟨rfl, -⟩ | ⟨rest', rfl, hzero', -⟩
    · rfl
    · exact absurd (hhead ▸ List.mem_cons_self) hzero'
  · rcases h' with ⟨rfl, hhead'⟩ | ⟨rest', rfl, hzero', hpath'⟩
    · exact absurd (hhead' ▸ List.mem_cons_self) hzero
    · have hrest := hpath.unique hpath' (fun h => hzero (List.mem_cons_of_mem _ h))
        fun h => hzero' (List.mem_cons_of_mem _ h)
      rw [hrest]

/-- A free node is big enough, or the last one, if there is any, is free: no node that is in use
gets a new successor. -/
def GrowsInPlace (s : Kheap) (nodes : List Nat) (size : Nat) : Prop :=
  (∃ x ∈ nodes, (s.node x).isFree = true ∧ size ≤ (s.node x).size) ∨
    ∀ x ∈ nodes.getLast?, (s.node x).isFree = true

end Kheap

/-- Every header that has changed is apart from the headers and the payloads of the live
pointers. -/
def Untouched (live : List Nat) (s t : Kheap) : Prop :=
  ∀ x, t.node x ≠ s.node x → ∀ q ∈ live,
    Disjoint (headerBytes x) (headerBytes (q - kheapNodeSize)) ∧
      Disjoint (headerBytes x) (s.payload q)

/-- What the caller of `kmalloc(size)` gets, and what it leaves to the others. -/
structure Gives (s : KheapSys) (heap : Kheap) (ptr size : Nat) : Prop where
  enough : size ≤ (heap.node (ptr - kheapNodeSize)).size
  inside : heap.payload ptr ⊆ Set.Ico heap.kheapStart heap.kheapEnd
  headers : ∃ nodes, heap.NodeList nodes ∧ ptr - kheapNodeSize ∈ nodes ∧
    ∀ x ∈ nodes, Disjoint (headerBytes x) (heap.payload ptr)
  fresh : ptr ∉ s.live
  apart : ∀ q ∈ s.live, Disjoint (heap.payload q) (heap.payload ptr)
  untouched : Untouched s.live s.heap heap

/-! ## Changed headers -/

theorem disjoint_bytes {a m b n : Nat} (h : a + m ≤ b ∨ b + n ≤ a) :
    Disjoint (Set.Ico a (a + m)) (Set.Ico b (b + n)) :=
  Set.Ico_disjoint_Ico.mpr (by omega)

theorem not_disjoint_headerBytes (x : Nat) : ¬ Disjoint (headerBytes x) (headerBytes x) := by
  intro h
  have hmem : x ∈ headerBytes x := ⟨le_rfl, Nat.lt_add_of_pos_right (by decide)⟩
  exact Set.disjoint_left.mp h hmem hmem

namespace Untouched

variable {live : List Nat} {s t u : Kheap} {q : Nat}

theorem node_eq (h : Untouched live s t) (hq : q ∈ live) :
    t.node (q - kheapNodeSize) = s.node (q - kheapNodeSize) := by
  by_contra hne
  exact not_disjoint_headerBytes _ (h _ hne q hq).1

theorem trans (h : Untouched live s t) (h' : Untouched live t u) : Untouched live s u := by
  intro x hx q hq
  by_cases hxt : t.node x = s.node x
  · rw [← hxt] at hx
    obtain ⟨hheader, hpayload⟩ := h' x hx q hq
    rw [Kheap.payload, h.node_eq hq] at hpayload
    exact ⟨hheader, hpayload⟩
  · exact h x hxt q hq

/-- A header inside a range that is apart from the live chunks. -/
theorem disjoint_of_apart {lo hi x : Nat} (hlo : lo ≤ x) (hhi : x + kheapNodeSize ≤ hi)
    (hq : kheapNodeSize ≤ q)
    (h : hi ≤ q - kheapNodeSize ∨ q + (s.node (q - kheapNodeSize)).size ≤ lo) :
    Disjoint (headerBytes x) (headerBytes (q - kheapNodeSize)) ∧
      Disjoint (headerBytes x) (s.payload q) := by
  refine ⟨disjoint_bytes ?_, disjoint_bytes ?_⟩
  · omega
  · omega

end Untouched

theorem kmallocTake_node {s : Kheap} {current size x : Nat}
    (h : (kmallocTake s current size).node x ≠ s.node x) :
    x = current ∨ x = add64 (add64 current kheapNodeSize) size ∧
      kheapNodeSize + kheapMinSplittingSize ≤ sub64 (s.node current).size size := by
  by_contra hne
  obtain ⟨hcur, hnew⟩ := not_or.mp hne
  apply h
  unfold kmallocTake
  split
  · next hsplit =>
    have hx : x ≠ add64 (add64 current kheapNodeSize) size := fun hx => hnew ⟨hx, hsplit⟩
    simp only [Kheap.setNode, Function.update_of_ne hcur, Function.update_of_ne hx]
  · exact Kheap.setNode_of_ne hcur

namespace KheapInv

variable {s : KheapSys} {l l₁ l₂ : List Chunk} {b c : Chunk} {q size : Nat}

theorem node_size (H : KheapInv s (l₁ ++ c :: l₂)) :
    (s.heap.node (s.heap.kheapStart + extent kheapNodeSize l₁)).size = c.size :=
  congrArg KheapNode.size (rep_append_cons.mp H.rep).2.node_eq

theorem node_isFree (H : KheapInv s (l₁ ++ c :: l₂)) :
    (s.heap.node (s.heap.kheapStart + extent kheapNodeSize l₁)).isFree = c.free :=
  congrArg KheapNode.isFree (rep_append_cons.mp H.rep).2.node_eq

/-- A live chunk is the chunk `c`, or it is apart from it. -/
theorem live_cases (H : KheapInv s (l₁ ++ c :: l₂)) (hq : q ∈ s.live) :
    (q = s.heap.kheapStart + extent kheapNodeSize l₁ + kheapNodeSize ∧ c.free = false) ∨
      kheapNodeSize ≤ q ∧
        (s.heap.kheapStart + extent kheapNodeSize l₁ + c.span kheapNodeSize ≤ q - kheapNodeSize ∨
          q + (s.heap.node (q - kheapNodeSize)).size ≤
            s.heap.kheapStart + extent kheapNodeSize l₁) := by
  obtain ⟨l₁', d, l₂', e, hd, rfl⟩ := H.exists_of_live hq
  rcases append_cons_cases (h := kheapNodeSize) e with ⟨rfl, rfl, rfl⟩ | h | h
  · exact .inl ⟨rfl, hd⟩
  · refine .inr ⟨Nat.le_add_left _ _, .inl ?_⟩
    rw [Nat.add_sub_cancel]
    omega
  · rw [e] at H
    refine .inr ⟨Nat.le_add_left _ _, .inr ?_⟩
    rw [Nat.add_sub_cancel, H.node_size]
    rw [Chunk.span] at h
    omega

/-- The live chunks lie below the end of the heap. -/
theorem live_le (H : KheapInv s l) (hq : q ∈ s.live) : kheapNodeSize ≤ q ∧
    s.heap.kheapStart ≤ q - kheapNodeSize ∧
    q + (s.heap.node (q - kheapNodeSize)).size ≤ s.heap.kheapEnd := by
  obtain ⟨l₁, d, l₂, rfl, -, rfl⟩ := H.exists_of_live hq
  rw [Nat.add_sub_cancel, H.node_size, H.limit, extent_append, extent_cons, Chunk.span]
  omega

/-- Taking a free chunk writes headers only inside it. -/
theorem untouched_take (H : KheapInv s (l₁ ++ c :: l₂)) (hfree : c.free = true)
    (hsize : size ≤ c.size) :
    Untouched s.live s.heap
      (kmallocTake s.heap (s.heap.kheapStart + extent kheapNodeSize l₁) size) := by
  intro x hx q hq
  have hlt := H.lt
  rw [H.limit, extent_append, extent_cons, Chunk.span] at hlt
  obtain ⟨hq24, hapart⟩ := (H.live_cases hq).resolve_left fun h => by
    rw [hfree] at h
    cases h.2
  rw [Chunk.span] at hapart
  have hin := kmallocTake_node hx
  rw [H.node_size, H.ptr_eq, sub64_of_le (by omega) hsize, add64_of_lt (by omega)] at hin
  -- the header of the rest lies in the payload that was split
  refine Untouched.disjoint_of_apart ?_ ?_ hq24 hapart
  · rcases hin with rfl | ⟨rfl, -⟩
    · exact le_rfl
    · omega
  · rcases hin with rfl | ⟨rfl, hsplit⟩
    · omega
    · omega

/-- Growing a free chunk writes its header only. -/
theorem untouched_grow (H : KheapInv s (l ++ [b])) (hfree : b.free = true) (bytes : Nat) :
    Untouched s.live s.heap
      (kheapGrow s.heap (s.heap.kheapStart + extent kheapNodeSize l) bytes) := by
  have hpos : s.heap.kheapStart + extent kheapNodeSize l ≠ 0 := by
    have := H.pos
    omega
  intro x hx q hq
  rw [kheapGrow_of_free hpos rfl (H.node_isFree.trans hfree)] at hx
  obtain rfl : x = s.heap.kheapStart + extent kheapNodeSize l := by
    by_contra hne
    exact hx (Kheap.setNode_of_ne hne)
  obtain ⟨hq24, hapart⟩ := (H.live_cases hq).resolve_left fun h => by
    rw [hfree] at h
    cases h.2
  rw [Chunk.span] at hapart
  exact Untouched.disjoint_of_apart le_rfl (by omega) hq24 hapart

/-- A new node behind a used chunk changes the link in its header. -/
theorem changed_grow (H : KheapInv s (l ++ [b])) (hused : b.free = false) (bytes : Nat) :
    ∃ q ∈ s.live, (kheapGrow s.heap (s.heap.kheapStart + extent kheapNodeSize l) bytes).node
      (q - kheapNodeSize) ≠ s.heap.node (q - kheapNodeSize) := by
  have hpos := H.pos
  have hend := H.limit
  rw [extent_append, extent_cons, extent_nil, Chunk.span] at hend
  have hheader : 0 < kheapNodeSize := by decide
  refine ⟨s.heap.kheapStart + extent kheapNodeSize l + kheapNodeSize, ?_, ?_⟩
  · rw [H.live.mem_iff, usedAddrs_append, usedAddrs, if_neg (by simp [hused])]
    exact List.mem_map_of_mem (List.mem_append_right _ List.mem_cons_self)
  · rw [Nat.add_sub_cancel, kheapGrow_of_used (by omega) (by omega) rfl (H.node_isFree.trans hused)]
    intro h
    have hlast : (s.heap.node (s.heap.kheapStart + extent kheapNodeSize l)).next = 0 :=
      congrArg KheapNode.next (rep_append_cons.mp H.rep).2.node_eq
    rw [← h] at hlast
    simp only [Kheap.setNode, Function.update_self] at hlast
    omega

/-! ## The loop -/

theorem growsInPlace_iff (H : KheapInv s (l ++ [b])) :
    s.heap.GrowsInPlace (chunkAddrs kheapNodeSize s.heap.kheapStart (l ++ [b])) size ↔
      (∃ d ∈ l ++ [b], d.free = true ∧ size ≤ d.size) ∨ b.free = true := by
  refine or_congr ?_ ?_
  · constructor
    · rintro ⟨x, hx, hfree, hsize⟩
      obtain ⟨l₁, d, l₂, e, rfl⟩ := exists_of_mem_chunkAddrs hx
      rw [e] at H ⊢
      rw [H.node_isFree] at hfree
      rw [H.node_size] at hsize
      exact ⟨d, List.mem_append_right _ List.mem_cons_self, hfree, hsize⟩
    · rintro ⟨d, hd, hfree, hsize⟩
      obtain ⟨l₁, l₂, e⟩ := List.append_of_mem hd
      rw [e] at H ⊢
      refine ⟨s.heap.kheapStart + extent kheapNodeSize l₁, ?_, ?_, ?_⟩
      · rw [chunkAddrs_append]
        exact List.mem_append_right _ List.mem_cons_self
      · exact H.node_isFree.trans hfree
      · exact H.node_size.symm ▸ hsize
  · have hlast : (chunkAddrs kheapNodeSize s.heap.kheapStart (l ++ [b])).getLast? =
        some (s.heap.kheapStart + extent kheapNodeSize l) := by
      rw [chunkAddrs_append, List.getLast?_append]
      rfl
    rw [hlast]
    simp only [Option.mem_def, Option.some.injEq, forall_eq', H.node_isFree]

end KheapInv

theorem KheapRow.nodeList {s : KheapSys} {l : List Chunk} (H : KheapRow s l) :
    s.heap.NodeList (chunkAddrs kheapNodeSize s.heap.kheapStart l) := by
  rcases H with ⟨rfl, E⟩ | H
  · exact .inl ⟨rfl, E.head⟩
  · exact .inr H.tiled.list

theorem taken_eq_cons {c : Chunk} {size : Nat} (hsize : size ≤ c.size) :
    ∃ d l, taken c size = d :: l ∧ d.free = false ∧ size ≤ d.size := by
  unfold taken
  split
  · exact ⟨_, _, rfl, rfl, le_rfl⟩
  · exact ⟨_, _, rfl, rfl, hsize⟩

namespace KheapInv

variable {s : KheapSys} {l l₁ l₂ : List Chunk} {b c : Chunk} {q size : Nat}

/-- Whether a call gives what it should is a matter of the size of the chunk and of the headers it
has written. -/
theorem gives_iff {heap : Kheap} {ptr : Nat} (H : KheapInv ⟨heap, ptr :: s.live⟩ (l₁ ++ c :: l₂))
    (hptr : ptr = heap.kheapStart + extent kheapNodeSize l₁ + kheapNodeSize) :
    Gives s heap ptr size ↔ size ≤ c.size ∧ Untouched s.live s.heap heap := by
  have hheader : ptr - kheapNodeSize = heap.kheapStart + extent kheapNodeSize l₁ := by
    rw [hptr, Nat.add_sub_cancel]
  have hsize : (heap.node (ptr - kheapNodeSize)).size = c.size := hheader ▸ H.node_size
  refine ⟨fun G => ⟨hsize ▸ G.enough, G.untouched⟩, fun ⟨hle, huntouched⟩ => ?_⟩
  have hfresh : ptr ∉ s.live := (List.nodup_cons.mp H.tiled.nodup).1
  refine ⟨hsize ▸ hle, ?_, ⟨_, .inr H.tiled.list, ?_, fun x hx => ?_⟩, hfresh, fun q hq => ?_,
    huntouched⟩
  · obtain ⟨-, hstart, hend⟩ := H.live_le List.mem_cons_self
    exact Set.Ico_subset_Ico (hstart.trans (Nat.sub_le _ _)) hend
  · rw [hheader, chunkAddrs_append]
    exact List.mem_append_right _ List.mem_cons_self
  · obtain ⟨l₁', d, l₂', e, rfl⟩ := exists_of_mem_chunkAddrs hx
    refine disjoint_bytes ?_
    rw [hsize, hptr]
    rcases append_cons_cases (h := kheapNodeSize) e with ⟨rfl, -, -⟩ | h | h
    · exact .inl le_rfl
    · rw [Chunk.span] at h
      exact .inr (by simp only at h ⊢; omega)
    · rw [Chunk.span] at h
      exact .inl (by simp only at h ⊢; omega)
  · refine disjoint_bytes ?_
    rcases H.live_cases (List.mem_cons_of_mem _ hq) with ⟨rfl, -⟩ | ⟨hq24, h⟩
    · exact absurd (hptr ▸ hq) hfresh
    · rw [hsize]
      rw [Chunk.span] at h
      simp only at h
      rcases h with h | h
      · exact .inr (by omega)
      · exact .inl (by omega)

end KheapInv

theorem le_blockAlignUp {size : Nat} (h : size ≤ 2 ^ 64 - 16) : size ≤ blockAlignUp size := by
  simp only [blockAlignUp, kheapBlockSize, add64, addW]
  split
  · omega
  · exact le_rfl

namespace HeapMachine

section
variable {root size k ptr : Nat} {s t u : HeapMachine} {live : List Nat} {l : List Chunk}

/-- A round that extends the heap leaves the other live chunks untouched exactly if the node list
need not get a new end behind a node in use. -/
theorem untouched_grow_iff (H : KheapRow ⟨s.heap, live⟩ l) {current : Nat}
    (hlast : kheapLast s.heap.node (s.heap.made + 1) s.heap.kheapHead = some current)
    (hnone : ∀ d ∈ l, ¬ (d.free = true ∧ size ≤ d.size)) (bytes : Nat) :
    (Untouched live s.heap (kheapGrow s.heap current bytes) ∧
        s.heap.GrowsInPlace (chunkAddrs kheapNodeSize s.heap.kheapStart l) size) ∨
      (∃ q ∈ live, (kheapGrow s.heap current bytes).node (q - kheapNodeSize) ≠
          s.heap.node (q - kheapNodeSize)) ∧
        ¬ s.heap.GrowsInPlace (chunkAddrs kheapNodeSize s.heap.kheapStart l) size := by
  rcases H with ⟨rfl, E⟩ | H
  · have hlive : live = [] := E.live
    refine .inl ⟨fun x _ q hq => ?_, .inr fun x hx => ?_⟩
    · rw [hlive] at hq
      cases hq
    · cases hx
  · obtain ⟨l, b, rfl⟩ := H.eq_snoc
    obtain rfl := Option.some.inj (H.last_eq.symm.trans hlast)
    have hiff := @KheapInv.growsInPlace_iff ⟨s.heap, live⟩ l b size H
    cases hb : b.free with
    | true => exact .inl ⟨H.untouched_grow hb bytes, hiff.mpr (.inr hb)⟩
    | false =>
      refine .inr ⟨H.changed_grow hb bytes, fun hgrows => ?_⟩
      rcases hiff.mp hgrows with ⟨d, hd, hfit⟩ | h
      · exact hnone d hd hfit
      · rw [hb] at h
        cases h

/-- The chunk that a call returns. The headers of the other live chunks are untouched exactly if the
node list need not get a new end behind a node in use. -/
theorem rounds_gives (H : KheapRow ⟨s.heap, live⟩ l) (hrounds : Rounds root size k s u)
    (hwrap : ∀ k v, Rounds root size k s v → v.NoWrap (.kmalloc size))
    (h : kmallocRound root size u = some (t, some ptr)) (hptr : ptr ≠ 0) :
    (∃ l₁ c l₂, KheapInv ⟨t.heap, ptr :: live⟩ (l₁ ++ c :: l₂) ∧ blockAlignUp size ≤ c.size ∧
        ptr = t.heap.kheapStart + extent kheapNodeSize l₁ + kheapNodeSize) ∧
      (Untouched live s.heap t.heap ↔ s.heap.GrowsInPlace
        (chunkAddrs kheapNodeSize s.heap.kheapStart l) (blockAlignUp size)) := by
  induction hrounds generalizing l with
  | zero s =>
    rcases @round_cases root size s live l H (hwrap 0 s (.zero s)) with
      ⟨l₁, c, l₂, rfl, hfree, hsize, -, hr⟩ | ⟨-, -,
        ⟨-, hr⟩ | ⟨m, -, hr⟩ | ⟨m, current, -, -, hr, -⟩⟩
    · cases h.symm.trans hr
      have H₀ := H.inv
      have H' := H₀.take hfree hsize (blockAlignUp_mod size)
      obtain ⟨d, l₃, htaken, -, hle⟩ := taken_eq_cons hsize
      rw [htaken, List.cons_append] at H'
      refine ⟨⟨l₁, d, l₃ ++ l₂, H', hle, by rw [(kmallocTake_sameRange ..).1]⟩, ?_⟩
      refine iff_of_true (H₀.untouched_take hfree hsize) (.inl ?_)
      refine ⟨s.heap.kheapStart + extent kheapNodeSize l₁, ?_, H₀.node_isFree.trans hfree,
        H₀.node_size.symm ▸ hsize⟩
      rw [chunkAddrs_append]
      exact List.mem_append_right _ List.mem_cons_self
    · cases h.symm.trans hr
    · cases h.symm.trans hr
      exact absurd rfl hptr
    · cases h.symm.trans hr
  | @succ k s v u hround _ ih =>
    rcases @round_cases root size s live l H (hwrap 0 s (.zero s)) with
      ⟨l₁, c, l₂, -, -, -, -, hr⟩ |
        ⟨hnone, -, ⟨-, hr⟩ | ⟨m, -, hr⟩ | ⟨m, current, hlast, -, hr, l', d, H', hd⟩⟩
    · cases hround.symm.trans hr
    · cases hround.symm.trans hr
    · cases hround.symm.trans hr
    · cases hround.symm.trans hr
      obtain ⟨hgiven, hiff⟩ := ih (.nodes H') (fun k v hv => hwrap (k + 1) v (.succ hround hv)) h
      have hrest := hiff.mpr (H'.growsInPlace_iff.mpr (.inr hd))
      refine ⟨hgiven, ?_⟩
      rcases untouched_grow_iff H hlast hnone kheapExtendingAmount with
        ⟨huntouched, hgrows⟩ | ⟨⟨q, hq, hne⟩, hgrows⟩
      · exact iff_of_true (huntouched.trans hrest) hgrows
      · -- the link in the last header is not written again
        refine iff_of_false (fun hall => hne ?_) hgrows
        exact (hrest.node_eq hq).symm.trans (hall.node_eq hq)

end

/-- In every state that `kheap_init`, the rounds of `kmalloc`, calls of `kfree` with live pointers
and the rest of the kernel lead to without an extension past the end of the address space, a pointer
that a call of `kmalloc` returns is to what was asked for, and the other live chunks are untouched,
exactly if rounding up the size does not wrap and the node list need not get a new end behind a node
in use. -/
theorem heapRun_gives_iff {root kernelEnd : Nat} {m : Machine Pmm} {s : HeapMachine}
    {events : List HeapEvent} (h : kheapInit root kernelEnd m = some s)
    (hpos : 0 < kheapStartOf kernelEnd) (hlt : kheapStartOf kernelEnd + kheapStartingSize < 2 ^ 64)
    (hsteps : AllSteps (Live.event root) Live.NoWrap ⟨s, []⟩ events) :
    Along (Live.event root) (fun t => ∃ nodes, t.sys.heap.NodeList nodes ∧
      ∀ size n u ptr, size < 2 ^ 64 →
        (∀ k v, Rounds root size k t.sys v → v.NoWrap (.kmalloc size)) →
        kmalloc root size n t.sys = some (u, ptr) → ptr ≠ 0 →
        (Gives t.row u.heap ptr size ↔
          size ≤ 2 ^ 64 - 16 ∧ t.sys.heap.GrowsInPlace nodes (blockAlignUp size))) ⟨s, []⟩
            events := by
  have hrun := heapRun_row h hpos hlt hsteps
  refine hrun.imp fun t ⟨l, H⟩ => ⟨_, H.nodeList, fun size n u ptr hsize hwrap hcall hptr => ?_⟩
  obtain ⟨k, v, hrounds, hround⟩ := kmalloc_rounds hcall
  obtain ⟨⟨l₁, c, l₂, H', hle, hptr'⟩, hiff⟩ := rounds_gives H hrounds hwrap hround hptr
  refine (H'.gives_iff hptr').trans (and_congr ⟨fun hc => ?_, fun hsize => ?_⟩ hiff)
  swap
  · exact (le_blockAlignUp hsize).trans hle
  -- no chunk is as large as the address space
  have hlt := H'.lt
  rw [H'.limit, extent_append, extent_cons, Chunk.span] at hlt
  simp only [kheapNodeSize] at hlt
  omega

theorem heapRun_gives_iff_tightHeap : ∃ root m s, Booted tightMemmap root m ∧
    kheapInit root 0xffffffff80200000 m = some s ∧
    (runFrom (Live.event root) ⟨s, []⟩ threeAllocations).isSome = true ∧
    Along (Live.event root) (fun t => ∃ nodes, t.sys.heap.NodeList nodes ∧
      ∀ size n u ptr, size < 2 ^ 64 →
        (∀ k v, Rounds root size k t.sys v → v.NoWrap (.kmalloc size)) →
        kmalloc root size n t.sys = some (u, ptr) → ptr ≠ 0 →
        (Gives t.row u.heap ptr size ↔
          size ≤ 2 ^ 64 - 16 ∧ t.sys.heap.GrowsInPlace nodes (blockAlignUp size)))
      ⟨s, []⟩ threeAllocations := by
  obtain ⟨root, m, s, H⟩ := exists_tightHeap
  exact ⟨root, m, s, H.booted, H.init, H.runs,
    heapRun_gives_iff H.init (by decide) (by decide) H.noWrap⟩

/-- A request for 2⁶⁴ - 1 bytes is rounded up to 0. On the heap that `kheap_init` makes, it gets a
payload of no bytes. -/
theorem kmalloc_roundsToZero : ∃ root m s u, Booted tightMemmap root m ∧
    kheapInit root 0xffffffff80200000 m = some s ∧
    kmalloc root (2 ^ 64 - 1) 1 s = some (u, 0xffffffff80300018) ∧
    (u.heap.node (0xffffffff80300018 - kheapNodeSize)).size = 0 ∧
    ¬ Gives ⟨s.heap, []⟩ u.heap 0xffffffff80300018 (2 ^ 64 - 1) := by
  obtain ⟨root, m, s, H⟩ := exists_tightHeap
  obtain ⟨⟨u, ptr⟩, hcall, heq⟩ := Option.map_eq_some_iff.mp H.wraps
  obtain ⟨rfl, hzero⟩ := Prod.mk.inj heq
  refine ⟨root, m, s, u, H.booted, H.init, hcall, hzero, fun G => ?_⟩
  have hle : 2 ^ 64 - 1 ≤ (u.heap.node 0xffffffff80300000).size := G.enough
  rw [hzero] at hle
  exact absurd hle (by decide)

end HeapMachine

end Plos
