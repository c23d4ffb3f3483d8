import Plos.Lib.Path
import Plos.Memory.Kheap.Runs

/-! The tiling of the heap, read off the node list itself.

`Tiled` speaks only of the list that starts at `kheap_head`, of the fields of its nodes and of the
live pointers. It follows from the representation of the heap as a row of chunks, which every step
keeps as long as no extension goes past the end of the address space. The row comes into being with
the first extension, of which `kheap_init` does not check that it has gone through. -/

namespace Plos

/-- `nodes` is the node list. Headers and payloads fill `[kheap_start, kheap_end)` without a gap,
the used nodes are the live allocations, and free neighbours have been merged. -/
structure KheapSys.Tiled (s : KheapSys) (nodes : List Nat) : Prop where
  list : ∃ rest, nodes = s.heap.kheapHead :: rest ∧ 0 ∉ nodes ∧
    Path (fun x => (s.heap.node x).next) s.heap.kheapHead rest 0
  start : s.heap.kheapHead = s.heap.kheapStart
  next : nodes.IsChain fun x y => y = x + kheapNodeSize + (s.heap.node x).size
  last : ∀ x ∈ nodes.getLast?, x + kheapNodeSize + (s.heap.node x).size = s.heap.kheapEnd
  used : ∀ ptr, ptr ∈ s.live ↔
    ∃ x ∈ nodes, (s.heap.node x).isFree = false ∧ ptr = x + kheapNodeSize
  nodup : s.live.Nodup
  aligned : ∀ x ∈ nodes, (x + kheapNodeSize) % 8 = 0
  merged : nodes.IsChain fun x y =>
    ¬ ((s.heap.node x).isFree = true ∧ (s.heap.node y).isFree = true)
  freed : s.live = [] → nodes = [s.heap.kheapStart] ∧ s.heap.node s.heap.kheapStart =
    ⟨s.heap.kheapEnd - s.heap.kheapStart - kheapNodeSize, true, 0⟩

namespace Rep

variable {node : Nat → KheapNode} {a : Nat} {b : Chunk} {l : List Chunk}

theorem path (h : Rep node a (b :: l)) :
    Path (fun x => (node x).next) a (chunkAddrs kheapNodeSize (a + b.span kheapNodeSize) l) 0 := by
  induction l generalizing a b with
  | nil => exact Path.nil_iff.mpr (congrArg KheapNode.next h)
  | cons c l ih => exact Path.cons_iff.mpr ⟨congrArg KheapNode.next h.1, ih h.2⟩

/-- A relation between neighbours of the row is one between the headers. -/
theorem isChain {S : Chunk → Chunk → Prop} {R : Nat → Nat → Prop} (h : Rep node a l)
    (hl : l.IsChain S)
    (hR : ∀ x b c, (node x).size = b.size → (node x).isFree = b.free →
      (node (x + b.span kheapNodeSize)).isFree = c.free → S b c → R x (x + b.span kheapNodeSize)) :
    (chunkAddrs kheapNodeSize a l).IsChain R := by
  induction l generalizing a with
  | nil => exact List.isChain_nil
  | cons b l ih =>
    cases l with
    | nil => exact List.isChain_singleton a
    | cons c l =>
      obtain ⟨hbc, hl⟩ := List.isChain_cons_cons.mp hl
      refine List.isChain_cons_cons.mpr ⟨?_, ih h.2 hl⟩
      exact hR a b c (congrArg KheapNode.size h.1) (congrArg KheapNode.isFree h.1)
        (congrArg KheapNode.isFree h.2.node_eq) hbc

theorem mem_usedAddrs (h : Rep node a l) {x : Nat} : x ∈ usedAddrs kheapNodeSize a l ↔
    x ∈ chunkAddrs kheapNodeSize a l ∧ (node x).isFree = false := by
  induction l generalizing a with
  | nil => exact h.elim
  | cons b l ih =>
    have hfree : (node a).isFree = b.free := congrArg KheapNode.isFree h.node_eq
    have hrest : x ∈ usedAddrs kheapNodeSize (a + b.span kheapNodeSize) l ↔
        x ∈ chunkAddrs kheapNodeSize (a + b.span kheapNodeSize) l ∧ (node x).isFree = false := by
      cases l with
      | nil => simp [usedAddrs, chunkAddrs]
      | cons c l => exact ih h.2
    rw [usedAddrs, chunkAddrs, List.mem_cons, or_and_right, ← hrest]
    split
    · next hb =>
      refine ⟨.inr, fun hx => hx.resolve_left ?_⟩
      rintro ⟨hxa, hused⟩
      rw [hxa, hfree, hb] at hused
      cases hused
    · next hb =>
      rw [List.mem_cons]
      refine or_congr_left ⟨fun hxa => ⟨hxa, ?_⟩, And.left⟩
      rw [hxa, hfree]
      simpa using hb

end Rep

theorem KheapInv.tiled {s : KheapSys} {l : List Chunk} (H : KheapInv s l) :
    s.Tiled (chunkAddrs kheapNodeSize s.heap.kheapStart l) := by
  have hpos := H.pos
  have hlive (ptr : Nat) : ptr ∈ s.live ↔ ∃ x ∈ chunkAddrs kheapNodeSize s.heap.kheapStart l,
      (s.heap.node x).isFree = false ∧ ptr = x + kheapNodeSize := by
    rw [H.live.mem_iff, List.mem_map]
    exact exists_congr fun x => by rw [H.rep.mem_usedAddrs, and_assoc, @eq_comm _ ptr]
  have hnodup : s.live.Nodup := by
    refine H.live.nodup_iff.mpr (List.Nodup.map (fun x y h => Nat.add_right_cancel h) ?_)
    exact usedAddrs_sublist.nodup (nodup_chunkAddrs (by decide))
  have haligned : ∀ x ∈ chunkAddrs kheapNodeSize s.heap.kheapStart l, (x + kheapNodeSize) % 8 =
      0 := by
    intro x hx
    rw [Nat.add_mod, mod_chunkAddrs rfl H.aligned H.sizes x hx]
    rfl
  refine ⟨?_, H.head, H.rep.isChain H.merged ?_, ?_, hlive, hnodup, haligned,
    H.rep.isChain H.merged ?_, ?_⟩
  · cases l with
    | nil => exact H.rep.elim
    | cons b l =>
      rw [H.head]
      refine ⟨_, rfl, fun h => ?_, H.rep.path⟩
      exact absurd (mem_chunkAddrs h).1 (Nat.not_le.mpr hpos)
  · intro x b c hsize _ _ _
    rw [Chunk.span, hsize, Nat.add_assoc]
  · obtain ⟨l₀, b, rfl⟩ := H.eq_snoc
    intro x hx
    rw [chunkAddrs_append, List.getLast?_append] at hx
    obtain rfl : s.heap.kheapStart + extent kheapNodeSize l₀ = x := Option.some.inj hx
    rw [H.limit, (rep_append_cons.mp H.rep).2.node_eq, extent_append, extent_cons, Chunk.span]
    simp only [extent_nil]
    omega
  · intro x b c _ hb hc hbc
    rw [hb, hc]
    exact hbc
  · intro hnone
    have hused := H.live
    rw [hnone] at hused
    have hused := List.map_eq_nil_iff.mp hused.symm.eq_nil
    cases l with
    | nil => exact H.rep.elim
    | cons b l =>
      obtain ⟨hb, rfl⟩ := H.merged.eq_singleton hused
      refine ⟨rfl, ?_⟩
      rw [H.rep.node_eq, H.limit, extent_cons, extent_nil, Chunk.span, hb]
      simp only [if_true, KheapNode.mk.injEq, and_true]
      omega

/-- A tiled heap does not end before it starts. -/
theorem KheapSys.Tiled.start_le {s : KheapSys} {nodes : List Nat} (T : s.Tiled nodes) :
    s.heap.kheapStart ≤ s.heap.kheapEnd := by
  obtain ⟨rest, rfl, -, -⟩ := T.list
  have hle : (s.heap.kheapHead :: rest).IsChain (· ≤ ·) :=
    T.next.imp fun x y h => by omega
  have hhead := (List.pairwise_cons.mp (List.isChain_iff_pairwise.mp hle)).1
  have hlast := T.last _ (List.getLast?_eq_some_getLast (List.cons_ne_nil _ rest))
  rw [← T.start]
  rcases List.mem_cons.mp (List.getLast_mem (List.cons_ne_nil s.heap.kheapHead rest)) with h | h
  · omega
  · have := hhead _ h
    omega

namespace HeapMachine

def Live.Tiled (s : Live) : Prop := ∃ nodes, s.row.Tiled nodes

section
variable {root : Nat} {s s' : Live} {l : List Chunk}

/-- A step keeps the heap tiled exactly if it does not take its end to 2⁶⁴ or beyond. -/
theorem Live.event_tiled {e : HeapEvent} (H : KheapInv s.row l) (h : s.event root e = some s') :
    (s.NoWrap e → ∃ l', KheapInv s'.row l') ∧
      (kheapExtendingAmount ≤ s.sys.heap.kheapStart → s'.Tiled → s.NoWrap e) := by
  constructor
  · intro hwrap
    rcases row_event (.nodes H) hwrap h with H' | hrow
    · exact H'
    · exact ⟨l, hrow ▸ H⟩
  · rintro hstart ⟨nodes, T⟩
    rcases e with (size | ptr) | m
    · intro hs
      by_contra hwrap
      obtain ⟨-, h⟩ := Option.ite_none_right_eq_some.mp h
      obtain ⟨⟨t, ptr⟩, hround, rfl⟩ := Option.map_eq_some_iff.mp h
      rcases kmallocRound_cases hround with ⟨current, hfound, -, -⟩ | ⟨-, ok, he, -⟩
      · cases hs.symm.trans hfound
      · have hlt : s.sys.heap.kheapEnd < 2 ^ 64 := H.lt
        have hle : t.heap.kheapStart ≤ t.heap.kheapEnd := T.start_le
        obtain ⟨hstart', hend⟩ := kheapExtend_wrapped kheapExtendingAmount_eq (by decide) hlt
          (Nat.le_of_not_lt hwrap) he
        omega
    · trivial
    · trivial

end

section
variable {root kernelEnd : Nat} {m : Machine Pmm} {s : HeapMachine}

theorem kheapInit_head (h : kheapInit root kernelEnd m = some s) (hhead : s.heap.kheapHead ≠ 0) :
    s.heap.kheapHead = kheapStartOf kernelEnd := by
  obtain ⟨⟨t, ok⟩, hext, rfl⟩ := Option.map_eq_some_iff.mp h
  clear h
  generalize kheapStartOf kernelEnd = start at *
  have hlast : kheapLast (empty start m).heap.node ((empty start m).heap.made + 1)
      (empty start m).heap.kheapHead = some 0 := rfl
  rw [kheapExtend_of_last kheapStartingSize_eq (by decide) hlast] at hext
  obtain ⟨⟨m', ok'⟩, -, heq⟩ := Option.map_eq_some_iff.mp hext
  obtain ⟨rfl, rfl⟩ := Prod.mk.inj heq
  cases ok' with
  | false => exact absurd rfl hhead
  | true =>
    simp only [if_true, kheapGrow_zero]
    rfl

/-- The heap that `kheap_init` makes is a row of one chunk if it is tiled. -/
theorem kheapInit_inv (h : kheapInit root kernelEnd m = some s) (hhead : s.heap.kheapHead ≠ 0)
    (hlt : kheapStartOf kernelEnd + kheapStartingSize < 2 ^ 64) :
    KheapInv ⟨s.heap, []⟩ [⟨kheapStartingSize - kheapNodeSize, true⟩] := by
  have hpos : 0 < kheapStartOf kernelEnd := by
    rw [← kheapInit_head h hhead]
    exact Nat.pos_of_ne_zero hhead
  exact (kheapInit_row hpos hlt h).resolve_left fun E => hhead E.head

theorem kheapInit_below (h : kheapInit root kernelEnd m = some s)
    (T : Live.Tiled ⟨s, []⟩) : s.heap.kheapHead ≠ 0 ∧
      kheapStartOf kernelEnd + kheapStartingSize < 2 ^ 64 := by
  obtain ⟨nodes, T⟩ := T
  refine ⟨fun hzero => ?_, ?_⟩
  · obtain ⟨rest, rfl, hnot, -⟩ := T.list
    exact hnot (hzero ▸ List.mem_cons_self)
  · by_contra hwrap
    obtain ⟨⟨t, ok⟩, hext, rfl⟩ := Option.map_eq_some_iff.mp h
    have hlt := (kheapStartOf_page kernelEnd).1
    clear h
    generalize kheapStartOf kernelEnd = start at *
    obtain ⟨hstart, hend⟩ := kheapExtend_wrapped kheapStartingSize_eq (by decide) hlt
      (Nat.le_of_not_lt hwrap) hext
    have hle : t.heap.kheapStart ≤ t.heap.kheapEnd := T.start_le
    simp only [empty, kheapStartingSize] at *
    omega

end

/-- A call of `kmalloc` that returns and in which no extension goes past the end of the address
space leaves the heap tiled. -/
def Live.CallsTile (root : Nat) (s : Live) : Prop :=
  ∀ size n u ptr, size < 2 ^ 64 →
    (∀ k v, Rounds root size k s.sys v → v.NoWrap (.kmalloc size)) →
    kmalloc root size n s.sys = some (u, ptr) →
      Live.Tiled ⟨u, if ptr = 0 then s.live else ptr :: s.live⟩

theorem Live.along_inv {root : Nat} {s : Live} {l : List Chunk} {events : List HeapEvent}
    (H : KheapInv s.row l) (hsteps : AllSteps (Live.event root) Live.NoWrap s events) :
    Along (Live.event root) (fun t => ∃ l, KheapInv t.row l) s events :=
  Along.of_allSteps (fun _ _ _ ⟨_, H⟩ hq ht => (Live.event_tiled H ht).1 hq) ⟨l, H⟩ hsteps

theorem Live.callsTile {root : Nat} {s : Live} {l : List Chunk} (H : KheapInv s.row l) :
    s.CallsTile root := by
  intro size n u ptr hsize hwrap hcall
  obtain ⟨events, hrun, hsteps⟩ := Live.kmalloc_run hsize hwrap hcall
  obtain ⟨l', H'⟩ := (Live.along_inv H hsteps).last hrun
  exact ⟨_, H'.tiled⟩

/-- The heap is tiled in every state that `kheap_init`, the rounds of `kmalloc`, calls of `kfree`
with live pointers and the rest of the kernel lead to, and after every whole call of `kmalloc`
there, if `kheap_init` has made the first node and no extension takes `kheap_end` to 2⁶⁴ or beyond.
If the heap starts above 1 MiB, it is tiled only then. -/
theorem heapRun_tiled {root kernelEnd : Nat} {m : Machine Pmm} {s : HeapMachine}
    {events : List HeapEvent} (h : kheapInit root kernelEnd m = some s) :
    (s.heap.kheapHead ≠ 0 ∧ kheapStartOf kernelEnd + kheapStartingSize < 2 ^ 64 ∧
        AllSteps (Live.event root) Live.NoWrap ⟨s, []⟩ events →
      Along (Live.event root) (fun t => t.Tiled ∧ t.CallsTile root) ⟨s, []⟩ events) ∧
    (kheapExtendingAmount ≤ kheapStartOf kernelEnd →
      Along (Live.event root) Live.Tiled ⟨s, []⟩ events →
        s.heap.kheapHead ≠ 0 ∧ kheapStartOf kernelEnd + kheapStartingSize < 2 ^ 64 ∧
          AllSteps (Live.event root) Live.NoWrap ⟨s, []⟩ events) := by
  constructor
  · rintro ⟨hhead, hlt, hsteps⟩
    have H := kheapInit_inv h hhead hlt
    exact (@Live.along_inv root ⟨s, []⟩ _ _ H hsteps).imp fun t ⟨l, Ht⟩ =>
      ⟨⟨_, Ht.tiled⟩, Live.callsTile Ht⟩
  · intro hstart hrun
    obtain ⟨hhead, hlt⟩ := kheapInit_below h hrun.head
    have H := kheapInit_inv h hhead hlt
    have hle : kheapExtendingAmount ≤ s.heap.kheapStart := by
      have hs : s.heap.kheapHead = s.heap.kheapStart := H.head
      rw [← hs, kheapInit_head h hhead]
      exact hstart
    refine ⟨hhead, hlt, ((along_iff_allSteps
      (I := fun t => (∃ l, KheapInv t.row l) ∧ kheapExtendingAmount ≤ t.sys.heap.kheapStart)
      (fun t e t' ⟨⟨l, Ht⟩, hle⟩ _ ht T => ?_) (fun t e t' ⟨⟨l, Ht⟩, hle⟩ _ ht => ?_)
      ⟨⟨_, H⟩, hle⟩).mp hrun).2⟩
    · obtain ⟨hkeep, hback⟩ := Live.event_tiled Ht ht
      exact ⟨hkeep (hback hle T), Live.event_kheapStart ht ▸ hle⟩
    · obtain ⟨hkeep, hback⟩ := Live.event_tiled Ht ht
      refine ⟨hback hle, fun hq => ?_⟩
      obtain ⟨l', H'⟩ := hkeep hq
      exact ⟨_, H'.tiled⟩

/-! ## Two small machines -/

/-- The machine after `pmm_init` and the allocation of the kernel's top-level table, which is
empty. -/
def Booted (memmap : List MemmapEntry) (root : Nat) (m : Machine Pmm) : Prop :=
  ∃ s, pmmInit memmap = some s ∧ pmmFrames.alloc s = (m.frames, root) ∧ root ≠ 0 ∧
    m.mem = fun _ => 0

/-- 266 pages, of which the array of pages takes 5. -/
def tightMemmap : List MemmapEntry := [⟨0x100000, 0x10A000, .usable⟩]

/-- Three allocations and the frees of the first two of them. -/
def threeAllocations : List HeapEvent :=
  [.op (.kmalloc 100), .op (.kmalloc 0x40000), .op (.kmalloc 64), .op (.kfree 0xffffffff80300018),
    .op (.kfree 0xffffffff803000a0)]

instance Live.decidableNoWrap (s : Live) : (e : HeapEvent) → Decidable (s.NoWrap e)
  | .op (.kmalloc size) => inferInstanceAs (Decidable (s.sys.search size = some none →
      s.sys.heap.kheapEnd + kheapExtendingAmount < 2 ^ 64))
  | .op (.kfree _) => .isTrue trivial
  | .others _ => .isTrue trivial

/-- The heap after `kheap_init` of a kernel that ends at `0xffffffff80200000`, on a machine with 266
pages. The kernel's first table, three tables for the heap and its 256 pages leave one frame. The
next page of the heap is in another table. -/
structure TightHeap (root : Nat) (m : Machine Pmm) (s : HeapMachine) : Prop where
  booted : Booted tightMemmap root m
  first : kheapExtend root (empty 0xffffffff80300000 m) kheapStartingSize = some (s, true)
  head : s.heap.kheapHead ≠ 0
  left : s.machine.frames.freeCount = 1
  runs : (runFrom (Live.event root) ⟨s, []⟩ threeAllocations).isSome = true
  noWrap : AllSteps (Live.event root) Live.NoWrap ⟨s, []⟩ threeAllocations
  full : s.search 0x200000 = some none
  halts : kheapExtend root s kheapExtendingAmount = none
  wraps : (kmalloc root (2 ^ 64 - 1) 1 s).map
    (fun r => (r.2, (r.1.heap.node 0xffffffff80300000).size)) =
    some (0xffffffff80300018, 0)

theorem tightHeap_eval : ((pmmInit tightMemmap).any fun p =>
    let r := pmmFrames.alloc p
    (kheapExtend r.2 (empty 0xffffffff80300000 ⟨fun _ => 0, r.1⟩) kheapStartingSize).any
      fun (s, ok) =>
      decide (r.2 ≠ 0 ∧ ok = true ∧ s.heap.kheapHead ≠ 0 ∧ s.machine.frames.freeCount = 1 ∧
        (runFrom (Live.event r.2) ⟨s, []⟩ threeAllocations).isSome = true ∧
        AllSteps (Live.event r.2) Live.NoWrap ⟨s, []⟩ threeAllocations ∧
        s.search 0x200000 = some none ∧ (kheapExtend r.2 s kheapExtendingAmount).isNone = true ∧
        (kmalloc r.2 (2 ^ 64 - 1) 1 s).map
          (fun r => (r.2, (r.1.heap.node 0xffffffff80300000).size)) =
            some (0xffffffff80300018, 0))) = true := by
  decide +kernel

theorem exists_tightHeap : ∃ root m s, TightHeap root m s := by
  obtain ⟨p, hp, h⟩ := (Option.any_eq_true ..).mp tightHeap_eval
  obtain ⟨⟨s, ok⟩, hext, h⟩ := (Option.any_eq_true ..).mp h
  obtain ⟨hroot, rfl, hhead, hcount, hruns, hsteps, hsearch, hnone, hwraps⟩ := of_decide_eq_true h
  exact ⟨(pmmFrames.alloc p).2, ⟨fun _ => 0, (pmmFrames.alloc p).1⟩, s, ⟨p, hp, rfl, hroot, rfl⟩,
    hext, hhead, hcount, hruns, hsteps, hsearch, Option.isNone_iff_eq_none.mp hnone, hwraps⟩

theorem TightHeap.init {root : Nat} {m : Machine Pmm} {s : HeapMachine} (H : TightHeap root m s) :
    kheapInit root 0xffffffff80200000 m = some s := by
  have hstart : kheapStartOf 0xffffffff80200000 = 0xffffffff80300000 := by decide
  rw [kheapInit, hstart, H.first]
  rfl

theorem heapRun_tiled_tightHeap : ∃ root m s, Booted tightMemmap root m ∧
    kheapInit root 0xffffffff80200000 m = some s ∧
    (runFrom (Live.event root) ⟨s, []⟩ threeAllocations).isSome = true ∧
    Along (Live.event root) (fun t => t.Tiled ∧ t.CallsTile root) ⟨s, []⟩ threeAllocations := by
  obtain ⟨root, m, s, H⟩ := exists_tightHeap
  refine ⟨root, m, s, H.booted, H.init, H.runs, (heapRun_tiled H.init).1 ⟨H.head, ?_, H.noWrap⟩⟩
  decide

/-- A machine with 23 pages. The first extension fails, which `kheap_init` does not notice, and
there is no first node. -/
theorem kheapInit_untiled : ∃ root m s, Booted smallMemmap root m ∧
    (m.frames.freeCount + 1) * kheapPageSize < 2 ^ 64 - kheapStartOf 0xffffffff80200000 ∧
    kheapInit root 0xffffffff80200000 m = some s ∧ s.heap.kheapHead = 0 ∧
    s.heap.kheapStart = 0xffffffff80300000 ∧ ¬ Live.Tiled ⟨s, []⟩ := by
  have heval : ((pmmInit smallMemmap).bind fun p =>
      let r := pmmFrames.alloc p
      (kheapInit r.2 0xffffffff80200000 ⟨fun _ => 0, r.1⟩).map fun s =>
        (r.2 != 0, r.1.freeCount, s.heap.kheapHead, s.heap.kheapStart)) =
      some (true, 22, 0, 0xffffffff80300000) := by
    decide +kernel
  obtain ⟨p, hp, h⟩ := Option.bind_eq_some_iff.mp heval
  obtain ⟨s, hinit, heq⟩ := Option.map_eq_some_iff.mp h
  simp only [Prod.mk.injEq, bne_iff_ne] at heq
  obtain ⟨hroot, hcount, hhead, hstart⟩ := heq
  refine ⟨(pmmFrames.alloc p).2, ⟨fun _ => 0, (pmmFrames.alloc p).1⟩, s, ⟨p, hp, rfl, hroot, rfl⟩,
    ?_, hinit, hhead, hstart, fun T => (kheapInit_below hinit T).1 hhead⟩
  rw [hcount]
  decide

end HeapMachine

end Plos
