import Plos.Memory.Pmm.Allocation

/-! The protocol of the reference counts.

`pmm_page_dec_ref` drops `pmm_lock` between reaching zero and freeing, and then reads the order of
the page without the lock. A system of any number of clients is a state with the references they
hold and the calls that are between the two sections; a step is one section. The calls made so far
are kept in a log, and the protocol is an automaton on the calls for one block (`BlockState.next`):
the log of every run is accepted by it for every block, and the state it ends in is the one that the
references and the open calls show.

The representation invariant of the allocator carries the argument through the window: a block that
waits to be freed is still one of the allocated blocks, so no step of another client touches its
head page, merges it or hands it out. -/

namespace Plos

/-- The locked section of `pmm_page_dec_ref`, with the page whose count has reached zero. -/
def pmmPageDecRefLocked (s : Pmm) (phys : Nat) : Pmm × Option Nat :=
  match s.pfnToPage (phys / pmmPageSize) with
  | none => (s, none)
  | some pfn =>
    let page := s.buddyMemmap pfn
    if page.flags &&& pmmFlagUsed ≠ 0 then
      (s.setPage pfn { page with refCount := sub32 page.refCount 1 },
        if sub32 page.refCount 1 = 0 then some pfn else none)
    else (s, none)

/-- The calls that the protocol is about. -/
inductive RefEvent where
  | alloc (b : Block)
  | incRef (b : Block)
  | decRef (b : Block)
  | free (phys order : Nat)
  deriving DecidableEq, Repr

/-- A call of `pmm_page_dec_ref` that has reached zero and not yet freed. -/
structure PendingFree where
  client : Nat
  phys : Nat
  page : Nat
  deriving DecidableEq, Repr

/-- The allocator, the references that the clients hold, the calls between their two sections, and
the calls made so far. -/
structure RefSys where
  pmm : Pmm
  refs : List (Nat × Block)
  pending : List PendingFree
  log : List RefEvent

/-- The steps; a reference that `incRef` adds may be for another client. -/
inductive RefOp where
  | alloc (client size : Nat)
  | incRef (client : Nat) (b : Block) (receiver : Nat)
  | decRef (client : Nat) (b : Block)
  | free (call : PendingFree)
  deriving DecidableEq, Repr

/-- The number of references on a block. -/
def outstanding (refs : List (Nat × Block)) (b : Block) : Nat := (refs.map Prod.snd).count b

/-- One section under `pmm_lock`. A client changes the count of a block only if it holds a
reference, and there are fewer than `2 ^ 32` references on a block. -/
def RefSys.step (t : RefSys) : RefOp → Option RefSys
  | .alloc client size =>
    let r := pmmAlloc t.pmm size
    let b : Block := ⟨r.2 / pmmPageSize, pmmGetOrderFromSize size⟩
    some <| if r.2 = 0 then { t with pmm := r.1 }
      else { t with pmm := r.1, refs := (client, b) :: t.refs, log := t.log ++ [.alloc b] }
  | .incRef client b receiver =>
    if (client, b) ∈ t.refs ∧ outstanding t.refs b + 1 < 2 ^ 32 then
      some { t with
        pmm := pmmPageIncRef t.pmm (b.base * pmmPageSize)
        refs := (receiver, b) :: t.refs
        log := t.log ++ [.incRef b] }
    else none
  | .decRef client b =>
    if (client, b) ∈ t.refs then
      let r := pmmPageDecRefLocked t.pmm (b.base * pmmPageSize)
      some {
        pmm := r.1
        refs := t.refs.erase (client, b)
        pending := match r.2 with
          | none => t.pending
          | some page => ⟨client, b.base * pmmPageSize, page⟩ :: t.pending
        log := t.log ++ [.decRef b] }
    else none
  | .free call =>
    if call ∈ t.pending then
      -- the order is read without the lock
      let order := (t.pmm.buddyMemmap call.page).order
      some { t with
        pmm := pmmFreePages t.pmm call.phys order
        pending := t.pending.erase call
        log := t.log ++ [.free call.phys order] }
    else none

def refRun (memmap : List MemmapEntry) (ops : List RefOp) : Option RefSys :=
  match pmmInit memmap with
  | none => none
  | some s => runFrom RefSys.step ⟨s, [], [], []⟩ ops

/-! ## The protocol of one block -/

/-- The block at a page as the calls show it: not handed out, or handed out with an order and a
number of references. -/
inductive BlockState where
  | idle
  | held (order refs : Nat)
  deriving DecidableEq, Repr

/-- The calls that the protocol allows for the block at page `p`. It is handed out while idle, its
count changes while there is a reference, and it is freed with its order once there is none. -/
def BlockState.next (p : Nat) (q : BlockState) : RefEvent → Option BlockState
  | .alloc b =>
    if b.base ≠ p then some q else match q with
      | .idle => some (.held b.order 1)
      | .held .. => none
  | .incRef b =>
    if b.base ≠ p then some q else match q with
      | .held order (n + 1) => if order = b.order then some (.held order (n + 2)) else none
      | _ => none
  | .decRef b =>
    if b.base ≠ p then some q else match q with
      | .held order (n + 1) => if order = b.order then some (.held order n) else none
      | _ => none
  | .free phys order =>
    if phys ≠ p * pmmPageSize then some q else if q = .held order 0 then some .idle else none

/-- The state of the block at page `p` among the allocated blocks. -/
def BlockState.Of (live : List Block) (refs : List (Nat × Block)) (p : Nat) : BlockState → Prop
  | .idle => ∀ b ∈ live, b.base ≠ p
  | .held order n => ∃ b ∈ live, b.base = p ∧ b.order = order ∧ outstanding refs b = n

/-- A further call. -/
theorem BlockState.Of.append {live live' : List Block} {refs refs' : List (Nat × Block)} {p : Nat}
    {log : List RefEvent} {e : RefEvent}
    (h : ∃ q, runFrom (BlockState.next p) .idle log = some q ∧ q.Of live refs p)
    (hstep : ∀ q : BlockState, q.Of live refs p → ∃ q', q.next p e = some q' ∧
      q'.Of live' refs' p) :
    ∃ q, runFrom (BlockState.next p) .idle (log ++ [e]) = some q ∧ q.Of live' refs' p := by
  obtain ⟨q, hq, hof⟩ := h
  obtain ⟨q', hnext, hof'⟩ := hstep q hof
  refine ⟨q', ?_, hof'⟩
  rw [runFrom_append hq]
  exact runFrom_cons.mpr ⟨q', hnext, rfl⟩

/-! ## Counting references -/

section Outstanding

variable {refs : List (Nat × Block)} {r : Nat × Block} {b c : Block}

theorem outstanding_cons (refs : List (Nat × Block)) (n : Nat) (b c : Block) :
    outstanding ((n, b) :: refs) c = outstanding refs c + if b = c then 1 else 0 := by
  simp [outstanding, List.count_cons]

/-- The reference that is dropped was counted. -/
theorem outstanding_erase (h : r ∈ refs) (c : Block) :
    outstanding refs c = outstanding (refs.erase r) c + if r.2 = c then 1 else 0 := by
  have hperm := (List.perm_cons_erase h).map Prod.snd
  rw [outstanding, hperm.count_eq]
  exact outstanding_cons (refs.erase r) r.1 r.2 c

theorem outstanding_pos : 0 < outstanding refs b ↔ ∃ r ∈ refs, r.2 = b := by
  simp [outstanding, List.count_pos_iff]

end Outstanding

/-! ## The invariant -/

/-- The invariant of the protocol, for the allocated blocks `live`: the count of a block is the
number of references on it, and the blocks without a reference are exactly those that one open call
is about to free. -/
structure RefInv (U : Set Nat) (t : RefSys) (live : List Block) : Prop where
  inv : PmmSys.Inv U ⟨t.pmm, live⟩
  refs : ∀ r ∈ t.refs, r.2 ∈ live
  count : ∀ b ∈ live, (t.pmm.buddyMemmap b.base).refCount = outstanding t.refs b
  lt : ∀ b, outstanding t.refs b < 2 ^ 32
  pending : ∀ f ∈ t.pending, ∃ b ∈ live, outstanding t.refs b = 0 ∧ f.phys = b.base * pmmPageSize ∧
    f.page = b.base
  once : (t.pending.map PendingFree.page).Nodup
  waits : ∀ b ∈ live, outstanding t.refs b = 0 → ∃ f ∈ t.pending, f.page = b.base
  log : ∀ p, ∃ q, runFrom (BlockState.next p) .idle t.log = some q ∧ q.Of live t.refs p

namespace RefInv

variable {U : Set Nat} {t t' : RefSys} {live : List Block} {b c : Block} {client receiver : Nat}

/-- No two allocated blocks have the same head page. -/
theorem eq_of_base (H : RefInv U t live) (hb : b ∈ live) (hc : c ∈ live) (h : b.base = c.base) :
    b = c :=
  H.inv.blocks.eq_of_covers (List.mem_append_left _ hb) (List.mem_append_left _ hc)
    Block.covers_base (h ▸ Block.covers_base)

/-- The counts of the allocated blocks after one of them has been set. -/
theorem setRef_count (H : RefInv U t live) (hb : b ∈ live) (n : Nat) (hc : c ∈ live) :
    ((t.pmm.setRef b.base n).buddyMemmap c.base).refCount =
      if b = c then n else outstanding t.refs c := by
  split
  · next h =>
    subst h
    simp [Pmm.setRef, Pmm.setPage]
  · next h =>
    have hne : c.base ≠ b.base := fun heq => h (H.eq_of_base hb hc heq.symm)
    rw [← H.count c hc]
    exact congrArg PmmPage.refCount (Function.update_of_ne hne ..)

/-- A block that is not handed out has no references. -/
theorem outstanding_eq_zero (H : RefInv U t live) (hb : b ∉ live) : outstanding t.refs b = 0 := by
  refine Nat.eq_zero_of_not_pos fun hpos => ?_
  obtain ⟨r, hr, rfl⟩ := outstanding_pos.mp hpos
  exact hb (H.refs r hr)

theorem mem_of_ref (H : RefInv U t live) (h : (client, b) ∈ t.refs) :
    b ∈ live ∧ 0 < outstanding t.refs b :=
  ⟨H.refs _ h, outstanding_pos.mpr ⟨_, h, rfl⟩⟩

theorem alloc {size : Nat} (H : RefInv U t live) (h : t.step (.alloc client size) = some t') :
    (t' = t ∧ (pmmAlloc t.pmm size).2 = 0) ∨
      ∃ b, (pmmAlloc t.pmm size).2 = b.base * pmmPageSize ∧ b.order = pmmGetOrderFromSize size ∧
        (∀ c ∈ live, b.Disjoint c) ∧ RefInv U t' (b :: live) := by
  cases h
  rw [pmmAlloc_eq]
  rcases BuddyInv.allocPages_page H.inv (pmmGetOrderFromSize size) with ⟨hr, -⟩ | ⟨b, hb, hpages⟩
  · rw [hr]
    exact .inl ⟨rfl, rfl⟩
  · right
    have hne : (pmmAllocPages t.pmm (pmmGetOrderFromSize size)).2 ≠ 0 := by
      rw [hb.phys_eq]
      exact Nat.mul_ne_zero hb.base_pos.ne' (by decide)
    have hblk : (⟨(pmmAllocPages t.pmm (pmmGetOrderFromSize size)).2 / pmmPageSize,
        pmmGetOrderFromSize size⟩ : Block) = b := by
      rw [hb.phys_eq, Nat.mul_div_cancel _ (by decide), ← hb.order_eq]
    obtain ⟨seq, hinv⟩ := hb.inv
    have Hinv : PmmSys.Inv U ⟨_, b :: live⟩ := hinv.canonical
    have hdis : ∀ c ∈ live, b.Disjoint c := fun c hc =>
      (List.pairwise_cons.mp Hinv.blocks.disjoint).1 c (List.mem_append_left _ hc)
    have hnew : b ∉ live := fun hmem => (hdis b hmem).ne rfl
    have hbase : ∀ c ∈ live, c.base ≠ b.base := fun c hc heq =>
      hdis c hc b.base Block.covers_base (heq ▸ Block.covers_base)
    have hzero := H.outstanding_eq_zero hnew
    simp only [if_neg hne, hblk]
    refine ⟨b, hb.phys_eq, hb.order_eq, hdis,
      ⟨Hinv, ?_, ?_, fun c => ?_, fun f hf => ?_, H.once, ?_, fun p => ?_⟩⟩
    · exact List.forall_mem_cons.mpr
        ⟨List.mem_cons_self, fun r hr => List.mem_cons_of_mem _ (H.refs r hr)⟩
    · refine List.forall_mem_cons.mpr ⟨?_, fun c hc => ?_⟩
      · rw [hb.page, outstanding_cons, hzero, if_pos rfl]
      · have hne : b ≠ c := fun heq => hnew (heq ▸ hc)
        rw [hpages c hc, H.count c hc, outstanding_cons, if_neg hne]
        rfl
    · rw [outstanding_cons]
      split
      · next heq =>
        rw [← heq, hzero]
        decide
      · exact H.lt c
    · obtain ⟨c, hc, hz, hphys, hpage⟩ := H.pending f hf
      have hne : b ≠ c := fun heq => hnew (heq ▸ hc)
      refine ⟨c, List.mem_cons_of_mem _ hc, ?_, hphys, hpage⟩
      rw [outstanding_cons, if_neg hne, hz]
    · refine List.forall_mem_cons.mpr ⟨fun hz => ?_, fun c hc hz => ?_⟩
      · rw [outstanding_cons, if_pos rfl] at hz
        cases hz
      · have hne : b ≠ c := fun heq => hnew (heq ▸ hc)
        rw [outstanding_cons, if_neg hne] at hz
        exact H.waits c hc hz
    · refine BlockState.Of.append (H.log p) fun q hq => ?_
      by_cases hp : b.base = p
      · -- the block was idle
        cases q with
        | held order n =>
          obtain ⟨c, hc, hcp, -⟩ := hq
          exact absurd (hcp.trans hp.symm) (hbase c hc)
        | idle =>
          refine ⟨.held b.order
            1, by simp [BlockState.next, hp], b, List.mem_cons_self, hp, rfl, ?_⟩
          rw [outstanding_cons, hzero, if_pos rfl]
      · refine ⟨q, by simp [BlockState.next, hp], ?_⟩
        cases q with
        | idle => exact List.forall_mem_cons.mpr ⟨hp, hq⟩
        | held order n =>
          obtain ⟨c, hc, hcp, hco, hn⟩ := hq
          have hne : b ≠ c := fun heq => hnew (heq ▸ hc)
          refine ⟨c, List.mem_cons_of_mem _ hc, hcp, hco, ?_⟩
          rw [outstanding_cons, if_neg hne]
          exact hn

/-- The state of the block whose count changes, and of the other blocks. -/
theorem log_setRef (H : RefInv U t live) (hb : b ∈ live) {refs : List (Nat × Block)} {e : RefEvent}
    (hother : ∀ c ∈ live, c ≠ b → outstanding refs c = outstanding t.refs c)
    (hself : BlockState.next b.base (.held b.order (outstanding t.refs b)) e =
      some (.held b.order (outstanding refs b)))
    (hskip : ∀ p q, b.base ≠ p → BlockState.next p q e = some q) (p : Nat) :
    ∃ q, runFrom (BlockState.next p) .idle (t.log ++ [e]) = some q ∧ q.Of live refs p := by
  refine BlockState.Of.append (H.log p) fun q hq => ?_
  by_cases hp : b.base = p
  · subst hp
    cases q with
    | idle => exact absurd rfl (hq b hb)
    | held order n =>
      obtain ⟨c, hc, hcp, hco, hn⟩ := hq
      obtain rfl := H.eq_of_base hc hb hcp
      subst hco hn
      exact ⟨_, hself, c, hc, rfl, rfl, rfl⟩
  · refine ⟨q, hskip p q hp, ?_⟩
    cases q with
    | idle => exact hq
    | held order n =>
      obtain ⟨c, hc, hcp, hco, hn⟩ := hq
      have hne : c ≠ b := fun heq => hp (heq ▸ hcp)
      exact ⟨c, hc, hcp, hco, (hother c hc hne).trans hn⟩

theorem incRef (H : RefInv U t live) (h : t.step (.incRef client b receiver) = some t') :
    RefInv U t' live := by
  obtain ⟨⟨hmem, hlt⟩, ⟨⟩⟩ := Option.ite_none_right_eq_some.mp h
  obtain ⟨hb, hpos⟩ := H.mem_of_ref hmem
  obtain ⟨hpfn, hflag⟩ := H.inv.live_page hb
  have hpmm : pmmPageIncRef t.pmm (b.base * pmmPageSize) =
      t.pmm.setRef b.base (outstanding t.refs b + 1) := by
    simp only [pmmPageIncRef, hpfn, if_pos hflag, H.count b hb, Pmm.setRef]
    rw [show add32 (outstanding t.refs b) 1 = outstanding t.refs b + 1 from addW_of_lt hlt]
  rw [hpmm]
  refine ⟨(BuddyInv.setRef H.inv _ _).canonical, ?_, fun c hc => ?_, fun c => ?_, fun f hf => ?_,
    H.once, fun c hc hz => ?_,
    ?_⟩
  · exact List.forall_mem_cons.mpr ⟨hb, H.refs⟩
  · rw [H.setRef_count hb _ hc, outstanding_cons]
    split
    · next heq => rw [heq]
    · rfl
  · rw [outstanding_cons]
    split
    · next heq => exact heq ▸ hlt
    · exact H.lt c
  · obtain ⟨c, hc, hz, hf'⟩ := H.pending f hf
    have hne : b ≠ c := fun heq => absurd hz (heq ▸ hpos.ne')
    refine ⟨c, hc, ?_, hf'⟩
    rw [outstanding_cons, if_neg hne, hz]
  · rw [outstanding_cons] at hz
    exact H.waits c hc (Nat.eq_zero_of_add_eq_zero_right hz)
  · refine H.log_setRef hb (fun c _ hne => ?_) ?_ fun p q hp => ?_
    · rw [outstanding_cons, if_neg hne.symm]
      rfl
    · obtain ⟨n, hn⟩ := Nat.exists_eq_add_of_lt hpos
      rw [outstanding_cons, if_pos rfl, hn]
      simp [BlockState.next]
    · simp [BlockState.next, hp]

theorem decRef (H : RefInv U t live) (h : t.step (.decRef client b) = some t') :
    RefInv U t' live := by
  obtain ⟨hmem, ⟨⟩⟩ := Option.ite_none_right_eq_some.mp h
  obtain ⟨hb, hpos⟩ := H.mem_of_ref hmem
  obtain ⟨hpfn, hflag⟩ := H.inv.live_page hb
  have herase (c : Block) := outstanding_erase hmem c
  have hself : outstanding t.refs b = outstanding (t.refs.erase (client, b)) b + 1 := by
    rw [herase b, if_pos rfl]
  have hother (c : Block) (hne : c ≠ b) :
      outstanding (t.refs.erase (client, b)) c = outstanding t.refs c := by
    rw [herase c, if_neg hne.symm]
    rfl
  have hle (c : Block) : outstanding (t.refs.erase (client, b)) c ≤ outstanding t.refs c := by
    rw [herase c]
    exact Nat.le_add_right _ _
  have hsub : sub32 (outstanding t.refs b) 1 = outstanding (t.refs.erase (client, b)) b := by
    rw [show sub32 (outstanding t.refs b) 1 =
      outstanding t.refs b - 1 from subW_of_le (H.lt b) hpos, hself]
    rfl
  have hlocked : pmmPageDecRefLocked t.pmm (b.base * pmmPageSize) =
      (t.pmm.setRef b.base (outstanding (t.refs.erase (client, b)) b),
        if outstanding (t.refs.erase (client, b)) b = 0 then some b.base else none) := by
    simp only [pmmPageDecRefLocked, hpfn, if_pos hflag, H.count b hb, hsub, Pmm.setRef]
  rw [hlocked]
  have hcount : ∀ c ∈ live,
      ((t.pmm.setRef b.base (outstanding (t.refs.erase (client, b)) b)).buddyMemmap
      c.base).refCount = outstanding (t.refs.erase (client, b)) c := by
    intro c hc
    rw [H.setRef_count hb _ hc]
    split
    · next heq => rw [heq]
    · next hne => exact (hother c fun heq => hne heq.symm).symm
  have hpend : ∀ f ∈ t.pending, ∃ c ∈ live, outstanding (t.refs.erase (client, b)) c = 0 ∧
      f.phys = c.base * pmmPageSize ∧ f.page = c.base := by
    intro f hf
    obtain ⟨c, hc, hz, hf'⟩ := H.pending f hf
    exact ⟨c, hc, Nat.eq_zero_of_le_zero (hz ▸ hle c), hf'⟩
  -- no open call is about the block
  have hfresh : b.base ∉ t.pending.map PendingFree.page := by
    intro hin
    obtain ⟨f, hf, hfb⟩ := List.mem_map.mp hin
    obtain ⟨c, hc, hz, -, hfc⟩ := H.pending f hf
    obtain rfl := H.eq_of_base hc hb (hfc.symm.trans hfb)
    exact hpos.ne' hz
  have hlog := H.log_setRef (e := .decRef b) hb (fun c _ hne => hother c hne)
    (by rw [hself]; simp [BlockState.next]) fun p q hp => by simp [BlockState.next, hp]
  have hinv : PmmSys.Inv U ⟨t.pmm.setRef b.base (outstanding (t.refs.erase (client, b)) b), live⟩ :=
    (BuddyInv.setRef H.inv _ _).canonical
  have hrefs : ∀ r ∈ t.refs.erase (client, b), r.2 ∈ live :=
    fun r hr => H.refs r (List.mem_of_mem_erase hr)
  have hlt : ∀ c, outstanding (t.refs.erase (client, b)) c < 2 ^ 32 := fun c =>
    Nat.lt_of_le_of_lt (hle c) (H.lt c)
  by_cases hz : outstanding (t.refs.erase (client, b)) b = 0
  · simp only [if_pos hz]
    refine ⟨hinv, hrefs, hcount, hlt, ?_, ?_, fun c hc hcz => ?_, hlog⟩
    · exact List.forall_mem_cons.mpr ⟨⟨b, hb, hz, rfl, rfl⟩, hpend⟩
    · exact List.nodup_cons.mpr ⟨hfresh, H.once⟩
    · rcases eq_or_ne c b with rfl | hne
      · exact ⟨_, List.mem_cons_self, rfl⟩
      · obtain ⟨f, hf, hfc⟩ := H.waits c hc ((hother c hne).symm.trans hcz)
        exact ⟨f, List.mem_cons_of_mem _ hf, hfc⟩
  · simp only [if_neg hz]
    refine ⟨hinv, hrefs, hcount, hlt, hpend, H.once, fun c hc hcz => ?_, hlog⟩
    have hne : c ≠ b := fun heq => hz (heq ▸ hcz)
    exact H.waits c hc ((hother c hne).symm.trans hcz)

/-- The second section frees the block with its own order. -/
theorem free {f : PendingFree} (H : RefInv U t live) (h : t.step (.free f) = some t') :
    ∃ b ∈ live, f.page = b.base ∧ (t.pmm.buddyMemmap f.page).order = b.order ∧
      RefInv U t' (live.erase b) := by
  obtain ⟨hf, ⟨⟩⟩ := Option.ite_none_right_eq_some.mp h
  obtain ⟨b, hb, hz, hphys, hpage⟩ := H.pending f hf
  have horder : (t.pmm.buddyMemmap f.page).order = b.order := by
    rw [hpage]
    exact (H.inv.liveHead b hb).2
  refine ⟨b, hb, hpage, horder, ?_⟩
  rw [horder, hphys]
  have hnd : live.Nodup := (List.nodup_append.mp H.inv.blocks.nodup).1
  have hmem (c : Block) : c ∈ live.erase b ↔ c ≠ b ∧ c ∈ live := List.Nodup.mem_erase_iff hnd
  have hrel : BuddyInv t.pmm t.pmm.freeList (live.erase b) [b] U := BuddyInv.release H.inv hb
  have hnodup : t.pending.Nodup := H.once.of_map
  refine ⟨?_, fun r hr => ?_, fun c hc => ?_, H.lt, fun g hg => ?_, ?_, fun c hc hcz => ?_,
    fun p => ?_⟩
  · obtain ⟨seq, hinv⟩ := hrel.freePages
    exact hinv.canonical
  · refine (hmem r.2).mpr ⟨fun heq => ?_, H.refs r hr⟩
    exact (outstanding_pos.mpr ⟨r, hr, heq⟩).ne' hz
  · rw [hrel.freePages_page hc]
    exact H.count c ((hmem c).mp hc).2
  · obtain ⟨hne, hg⟩ := (List.Nodup.mem_erase_iff hnodup).mp hg
    obtain ⟨c, hc, hcz, hgphys, hgpage⟩ := H.pending g hg
    refine ⟨c, (hmem c).mpr ⟨fun heq => hne ?_, hc⟩, hcz, hgphys, hgpage⟩
    -- two open calls are not about one page
    refine List.inj_on_of_nodup_map H.once hg hf ?_
    rw [hgpage, hpage, heq]
  · exact H.once.sublist (List.erase_sublist.map _)
  · obtain ⟨hne, hc⟩ := (hmem c).mp hc
    obtain ⟨g, hg, hgc⟩ := H.waits c hc hcz
    refine ⟨g, (List.Nodup.mem_erase_iff hnodup).mpr ⟨fun heq => hne ?_, hg⟩, hgc⟩
    exact H.eq_of_base hc hb (by rw [← hgc, heq, hpage])
  · have hinj : b.base * pmmPageSize = p * pmmPageSize ↔ b.base = p := by
      simp only [pmmPageSize]
      omega
    refine BlockState.Of.append (H.log p) fun q hq => ?_
    by_cases hp : b.base = p
    · subst hp
      cases q with
      | idle => exact absurd rfl (hq b hb)
      | held order n =>
        obtain ⟨c, hc, hcp, hco, hn⟩ := hq
        obtain rfl := H.eq_of_base hc hb hcp
        rw [hz] at hn
        subst hco hn
        refine ⟨.idle, by simp [BlockState.next], fun d hd hdb => ?_⟩
        obtain ⟨hne, hd⟩ := (hmem d).mp hd
        exact hne (H.eq_of_base hd hc hdb)
    · refine ⟨q, by simp [BlockState.next, hinj, hp], ?_⟩
      cases q with
      | idle => exact fun c hc => hq c (List.mem_of_mem_erase hc)
      | held order n =>
        obtain ⟨c, hc, hcp, hrest⟩ := hq
        exact ⟨c, (hmem c).mpr ⟨fun heq => hp (heq ▸ hcp), hc⟩, hcp, hrest⟩

theorem step {op : RefOp} (H : RefInv U t live) (h : t.step op = some t') :
    ∃ live', RefInv U t' live' := by
  cases op with
  | alloc client size =>
    rcases H.alloc h with ⟨rfl, -⟩ | ⟨b, -, -, -, H'⟩
    · exact ⟨live, H⟩
    · exact ⟨_, H'⟩
  | incRef client b receiver => exact ⟨live, H.incRef h⟩
  | decRef client b => exact ⟨live, H.decRef h⟩
  | free f =>
    obtain ⟨b, -, -, -, H'⟩ := H.free h
    exact ⟨_, H'⟩

end RefInv

theorem MemmapOk.refInv {memmap : List MemmapEntry} {ops : List RefOp} {t : RefSys}
    (H : MemmapOk memmap) (h : refRun memmap ops = some t) :
    ∃ live, RefInv (pmmInitPages memmap) t live := by
  unfold refRun at h
  cases hs : pmmInit memmap with
  | none =>
    rw [hs] at h
    cases h
  | some s =>
    rw [hs] at h
    have hstart : ∃ live, RefInv (pmmInitPages memmap) ⟨s, [], [], []⟩ live :=
      ⟨[], H.inv hs, nofun, nofun, fun _ => Nat.two_pow_pos 32, nofun, .nil, nofun,
        fun _ => ⟨.idle, rfl, nofun⟩⟩
    exact runFrom_induction (I := fun t => ∃ live, RefInv _ t live)
      (fun _ _ _ ⟨_, hI⟩ hop => hI.step hop)
      hstart h

/-! ## The protocol of the clients -/

/-- The block that an open call is about to free, with the order that it will read. -/
def PendingFree.block (t : RefSys) (f : PendingFree) : Block :=
  ⟨f.page, (t.pmm.buddyMemmap f.page).order⟩

/-- A client holds a reference on the block, or an open call is about to free it. -/
def RefSys.Outstanding (t : RefSys) (b : Block) : Prop :=
  (∃ r ∈ t.refs, r.2 = b) ∨ ∃ f ∈ t.pending, f.block t = b

/-- The state of the protocol that the references and the open calls show for the block at page
`p`. -/
def RefSys.Shows (t : RefSys) (p : Nat) : BlockState → Prop
  | .idle => (∀ r ∈ t.refs, r.2.base ≠ p) ∧ ∀ f ∈ t.pending, f.page ≠ p
  | .held order n => outstanding t.refs ⟨p, order⟩ = n ∧ (n = 0 ↔ ∃ f ∈ t.pending, f.page = p)

namespace RefInv

variable {U : Set Nat} {t : RefSys} {live : List Block} {b : Block} {f : PendingFree}

/-- The order of the page is still the one of the allocated block. -/
theorem block_mem (H : RefInv U t live) (hf : f ∈ t.pending) :
    f.block t ∈ live ∧ outstanding t.refs (f.block t) = 0 ∧
    f.phys = (f.block t).base * pmmPageSize := by
  obtain ⟨b, hb, hz, hphys, hpage⟩ := H.pending f hf
  have hblock : f.block t = b := by
    have horder := (H.inv.liveHead b hb).2
    rw [PendingFree.block, hpage, horder]
  rw [hblock]
  exact ⟨hb, hz, hphys⟩

theorem mem_of_outstanding (H : RefInv U t live) (h : t.Outstanding b) : b ∈ live := by
  rcases h with ⟨r, hr, rfl⟩ | ⟨f, hf, rfl⟩
  · exact H.refs r hr
  · exact (H.block_mem hf).1

theorem shows_of {p : Nat} {q : BlockState} (H : RefInv U t live) (hq : q.Of live t.refs p) :
    t.Shows p q := by
  cases q with
  | idle =>
    refine ⟨fun r hr => hq r.2 (H.refs r hr), fun f hf => ?_⟩
    exact hq _ (H.block_mem hf).1
  | held order n =>
    obtain ⟨b, hb, hbp, hbo, hn⟩ := hq
    obtain rfl : b = ⟨p, order⟩ := by rw [← hbp, ← hbo]
    refine ⟨hn, fun hz => H.waits _ hb (hn.trans hz), fun ⟨f, hf, hfp⟩ => ?_⟩
    obtain ⟨c, hc, hcz, -, hfc⟩ := H.pending f hf
    obtain rfl := H.eq_of_base hc hb (hfc.symm.trans hfp)
    exact hn.symm.trans hcz

theorem not_free (H : RefInv U t live) (hb : b ∈ live) {x : Nat} (hx : b.Covers x) :
    x ∉ t.pmm.freePages :=
  fun hfree => (H.inv.mem_freePages.mp hfree).2 b hb hx

end RefInv

variable {memmap : List MemmapEntry} {ops : List RefOp} {t : RefSys}

/-- In every run of any number of clients, for every block, the calls made so far follow the
protocol: the block is handed out only while idle, its count changes only while there is a
reference, and it is freed once, with the order it was handed out with and after its last reference
is gone. A block with a reference, or between the last reference and the free, has no page on the
free lists and is not handed out. The open call reads the order of the block, and its free gives
back exactly the pages of the block. -/
theorem refRun_protocol (H : MemmapOk memmap) (h : refRun memmap ops = some t) :
    (∀ p, ∃ q, runFrom (BlockState.next p) .idle t.log = some q ∧ t.Shows p q) ∧
    (∀ b, t.Outstanding b → ∀ x, b.Covers x → x ∉ t.pmm.freePages ∧
      ∀ size, (pmmAlloc t.pmm size).2 ≠ 0 →
        ¬ (⟨(pmmAlloc t.pmm size).2 / pmmPageSize, pmmGetOrderFromSize size⟩ : Block).Covers x) ∧
    ∀ f ∈ t.pending, (∀ r ∈ t.refs, r.2 ≠ f.block t) ∧
      runFrom (BlockState.next f.page) .idle t.log = some (.held (f.block t).order 0) ∧
      ∃ t', t.step (.free f) = some t' ∧
        t'.pmm.freePages = t.pmm.freePages ∪ {x | (f.block t).Covers x} := by
  obtain ⟨live, HI⟩ := H.refInv h
  refine ⟨fun p => ?_, fun b hb x hx => ⟨?_, fun size hne hx' => ?_⟩, fun f hf =>
    ⟨fun r hr heq => ?_, ?_, ?_⟩⟩
  · obtain ⟨q, hrun, hq⟩ := HI.log p
    exact ⟨q, hrun, HI.shows_of hq⟩
  · exact HI.not_free (HI.mem_of_outstanding hb) hx
  · have hstep : t.step (.alloc 0 size) = some _ := rfl
    rcases HI.alloc hstep with ⟨-, hzero⟩ | ⟨c, hphys, horder, hdis, -⟩
    · exact hne hzero
    · rw [hphys, Nat.mul_div_cancel _ (by decide), ← horder] at hx'
      exact hdis b (HI.mem_of_outstanding hb) x hx' hx
  · exact (outstanding_pos.mpr ⟨r, hr, heq⟩).ne' (HI.block_mem hf).2.1
  · obtain ⟨q, hrun, hq⟩ := HI.log f.page
    obtain ⟨hb, hz, -⟩ := HI.block_mem hf
    cases q with
    | idle => exact absurd rfl (hq _ hb)
    | held order n =>
      obtain ⟨c, hc, hcp, hco, hn⟩ := hq
      obtain rfl := HI.eq_of_base hc hb hcp
      rw [hrun, ← hco, ← hn, hz]
  · have hstep : t.step (.free f) = some _ := if_pos hf
    obtain ⟨b, hb, hpage, horder, H'⟩ := HI.free hstep
    have hblock : f.block t = b := by
      rw [PendingFree.block, horder, hpage]
    refine ⟨_, hstep, ?_⟩
    rw [hblock]
    exact HI.inv.freePages_free hb H'.inv

/-- Two clients share a block. Between the two sections of the last `pmm_page_dec_ref` a third one
allocates. -/
def sharedBlock : List RefOp :=
  [.alloc 0 0x1000, .incRef 0 ⟨1, 0⟩ 1, .decRef 0 ⟨1, 0⟩, .decRef 1 ⟨1, 0⟩, .alloc 2 0x1000]

theorem refRun_protocol_shared :
    ∃ t, refRun smallMemmap sharedBlock = some t ∧ t.pending = [⟨1, 0x1000, 1⟩] ∧
      ∃ t', t.step (.free ⟨1, 0x1000, 1⟩) = some t' ∧
        t'.pmm.freePages = t.pmm.freePages ∪
          {x | ((⟨1, 0x1000, 1⟩ : PendingFree).block t).Covers x} := by
  have hrun : (refRun smallMemmap sharedBlock).map RefSys.pending = some [⟨1, 0x1000, 1⟩] := by
    decide +kernel
  obtain ⟨t, ht, hpending⟩ := Option.map_eq_some_iff.mp hrun
  refine ⟨t, ht, hpending, ?_⟩
  exact ((refRun_protocol smallMemmap_ok ht).2.2 _
    (by rw [hpending]; exact List.mem_singleton_self _)).2.2

end Plos
