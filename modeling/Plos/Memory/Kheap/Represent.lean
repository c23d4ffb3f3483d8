import Plos.Lib.Chunks
import Plos.Memory.Kheap.Basic

/-! The node list of the heap as a row of chunks, and what the loops of the heap do to it. -/

namespace Plos

variable {node node' : Nat → KheapNode} {a : Nat} {b c : Chunk} {l l' : List Chunk}

/-- From the address `a` on, each header of the row links to the next one. -/
def Seg (node : Nat → KheapNode) : Nat → List Chunk → Prop
  | _, [] => True
  | a, b :: l => node a = ⟨b.size, b.free, a + b.span kheapNodeSize⟩ ∧
      Seg node (a + b.span kheapNodeSize) l

/-- A row whose last header links to nothing. -/
def Rep (node : Nat → KheapNode) : Nat → List Chunk → Prop
  | _, [] => False
  | a, [b] => node a = ⟨b.size, b.free, 0⟩
  | a, b :: c :: l => node a = ⟨b.size, b.free, a + b.span kheapNodeSize⟩ ∧
      Rep node (a + b.span kheapNodeSize) (c :: l)

namespace Kheap

variable {s : Kheap} {x y : Nat} {n m : KheapNode}

@[simp] theorem setNode_self : (s.setNode x n).node x = n := Function.update_self ..

theorem setNode_of_ne (h : y ≠ x) : (s.setNode x n).node y = s.node y := Function.update_of_ne h ..

@[simp] theorem setNode_setNode : (s.setNode x n).setNode x m = s.setNode x m := by
  simp only [setNode, Function.update_idem]

end Kheap

theorem chunk_span_pos (b : Chunk) : 0 < b.span kheapNodeSize := Nat.lt_add_right _ (by decide)

theorem rep_append_cons : Rep node a (l ++ b :: l') ↔
    Seg node a l ∧ Rep node (a + extent kheapNodeSize l) (b :: l') := by
  induction l generalizing a with
  | nil => simp [Seg]
  | cons d l ih =>
    cases l with
    | nil => simp [Seg, Rep]
    | cons e l =>
      have hextent := @extent_cons kheapNodeSize d (e :: l)
      rw [hextent, ← Nat.add_assoc]
      exact (and_congr_right fun _ => ih).trans and_assoc.symm

theorem Seg.congr (h : Seg node a l)
    (hn : ∀ x, a ≤ x → x < a + extent kheapNodeSize l → node' x = node x) : Seg node' a l := by
  induction l generalizing a with
  | nil => trivial
  | cons b l ih =>
    have hb := chunk_span_pos b
    rw [extent_cons] at hn
    refine ⟨(hn a le_rfl (by omega)).trans h.1, ih h.2 fun x hx hlt => hn x ?_ ?_⟩
    · omega
    · omega

theorem Rep.congr (h : Rep node a l)
    (hn : ∀ x, a ≤ x → x < a + extent kheapNodeSize l → node' x = node x) : Rep node' a l := by
  induction l generalizing a with
  | nil => exact h.elim
  | cons b l ih =>
    have hb := chunk_span_pos b
    rw [extent_cons] at hn
    cases l with
    | nil => exact (hn a le_rfl (by omega)).trans h
    | cons c l =>
      refine ⟨(hn a le_rfl (by omega)).trans h.1, ih h.2 fun x hx hlt => hn x ?_ ?_⟩
      · omega
      · omega

/-- The header in the middle of a row. -/
theorem Rep.node_eq (h : Rep node a (b :: l)) :
    node a = ⟨b.size, b.free, if l = [] then 0 else a + b.span kheapNodeSize⟩ := by
  cases l with
  | nil => exact h
  | cons c l => exact h.1

theorem Rep.tail (h : Rep node a (b :: c :: l)) :
    Rep node (a + b.span kheapNodeSize) (c :: l) := h.2

/-- A header in front of a row. -/
theorem rep_cons (hnode : node a = ⟨b.size, b.free, if l = [] then 0 else a + b.span kheapNodeSize⟩)
    (hl : l ≠ [] → Rep node (a + b.span kheapNodeSize) l) : Rep node a (b :: l) := by
  cases l with
  | nil => exact hnode
  | cons c l => exact ⟨hnode, hl (List.cons_ne_nil _ _)⟩

/-! ## The loops -/

theorem kheapLast_eq {n : Nat} (h : Rep node a (l ++ [b])) (ha : 0 < a) (hn : l.length < n) :
    kheapLast node n a = some (a + extent kheapNodeSize l) := by
  induction l generalizing a n with
  | nil =>
    obtain ⟨n, rfl⟩ := Nat.exists_eq_add_of_lt hn
    rw [kheapLast, if_pos (.inr (congrArg KheapNode.next h))]
    rfl
  | cons c l ih =>
    obtain ⟨n, rfl⟩ := Nat.exists_eq_succ_of_ne_zero (Nat.ne_zero_of_lt hn)
    have hc := chunk_span_pos c
    have hnode := Rep.node_eq h
    rw [if_neg (by simp)] at hnode
    have hrest : Rep node (a + c.span kheapNodeSize) (l ++ [b]) := by
      cases l with
      | nil => exact h.2
      | cons d l => exact h.2
    rw [kheapLast, hnode, if_neg (by simp only; omega)]
    rw [ih hrest (by omega) (Nat.lt_of_succ_lt_succ hn), extent_cons, Nat.add_assoc]

/-- The first chunk that is free and big enough, if there is one. -/
theorem kmallocSearch_eq (size : Nat) {n : Nat} (h : Rep node a l) (ha : 0 < a)
    (hn : l.length < n) :
    (∃ l₁ c l₂, l = l₁ ++ c :: l₂ ∧ c.free = true ∧ size ≤ c.size ∧
        (∀ d ∈ l₁, ¬ (d.free = true ∧ size ≤ d.size)) ∧
        kmallocSearch node size n a = some (some (a + extent kheapNodeSize l₁))) ∨
      (∀ d ∈ l, ¬ (d.free = true ∧ size ≤ d.size)) ∧ kmallocSearch node size n a = some none := by
  induction l generalizing a n with
  | nil => exact h.elim
  | cons b l ih =>
    obtain ⟨n, rfl⟩ := Nat.exists_eq_succ_of_ne_zero (Nat.ne_zero_of_lt hn)
    have hb := chunk_span_pos b
    have hnode := h.node_eq
    rw [kmallocSearch, if_neg ha.ne', hnode]
    by_cases hfit : b.free = true ∧ size ≤ b.size
    · refine .inl ⟨[], b, l, rfl, hfit.1, hfit.2, nofun, ?_⟩
      rw [if_pos hfit]
      rfl
    · rw [if_neg hfit]
      cases l with
      | nil =>
        refine .inr ⟨fun d hd => ?_, ?_⟩
        · rwa [List.mem_singleton.mp hd]
        · rw [List.length_singleton] at hn
          obtain ⟨m, rfl⟩ :=
            Nat.exists_eq_succ_of_ne_zero (Nat.ne_zero_of_lt (Nat.lt_of_succ_lt_succ hn))
          rfl
      | cons c l =>
        rw [if_neg (List.cons_ne_nil _ _)]
        rcases ih h.tail (by omega) (Nat.lt_of_succ_lt_succ hn) with
          ⟨l₁, d, l₂, e, hfree, hsize, hbefore, hs⟩ | ⟨hnone, hs⟩
        · refine .inl ⟨b :: l₁, d, l₂, by rw [e]; rfl, hfree, hsize, ?_, ?_⟩
          · intro x hx
            rcases List.mem_cons.mp hx with rfl | hx
            · exact hfit
            · exact hbefore x hx
          · rw [hs, extent_cons, Nat.add_assoc]
        · refine .inr ⟨fun x hx => ?_, hs⟩
          rcases List.mem_cons.mp hx with rfl | hx
          · exact hfit
          · exact hnone x hx

/-- The pass merges free neighbours from the address it starts at. -/
theorem kheapCoalesce_eq {s : Kheap} {n : Nat} (h : Rep s.node a (b :: l)) (ha : 0 < a)
    (hlt : a + extent kheapNodeSize (b :: l) < 2 ^ 64) (hn : l.length < n) :
    ∃ node', kheapCoalesce n s a = some { s with node := node' } ∧
      Rep node' a (mergeFrom kheapNodeSize b l) ∧ ∀ x < a, node' x = s.node x := by
  induction l generalizing a b n s with
  | nil =>
    obtain ⟨n, rfl⟩ := Nat.exists_eq_succ_of_ne_zero (Nat.ne_zero_of_lt hn)
    refine ⟨s.node, ?_, h, fun _ _ => rfl⟩
    rw [kheapCoalesce, if_pos (.inr (congrArg KheapNode.next h))]
  | cons c l ih =>
    obtain ⟨n, rfl⟩ := Nat.exists_eq_succ_of_ne_zero (Nat.ne_zero_of_lt hn)
    have hn' := Nat.lt_of_succ_lt_succ hn
    have hb := chunk_span_pos b
    have hnode := h.1
    have hnext := h.tail.node_eq
    have hne : a + b.span kheapNodeSize ≠ a := by omega
    simp only [extent_cons] at hlt
    rw [kheapCoalesce, if_neg (by rw [hnode]; simp only; omega)]
    simp only [hnode, hnext, Kheap.setNode_self, Kheap.setNode_setNode, Kheap.setNode_of_ne hne]
    split
    · next hfree =>
      -- the header takes over the link of the one after it
      have hsize : add64 b.size (add64 c.size kheapNodeSize) =
          b.size + (c.size + kheapNodeSize) := by
        unfold Chunk.span at hlt
        rw [add64_of_lt (a := c.size) (by omega), add64_of_lt (by omega)]
      have hspan : Chunk.span kheapNodeSize ⟨b.size + (c.size + kheapNodeSize), true⟩ =
          b.span kheapNodeSize + c.span kheapNodeSize := by
        simp only [Chunk.span]
        omega
      have hrep : Rep (s.setNode a ⟨b.size + (c.size + kheapNodeSize), true,
          if l = [] then 0 else a + b.span kheapNodeSize + c.span kheapNodeSize⟩).node a
          (⟨b.size + (c.size + kheapNodeSize), true⟩ :: l) := by
        refine rep_cons ?_ fun hl => ?_
        · rw [Kheap.setNode_self, hspan, Nat.add_assoc]
        · obtain ⟨d, l', rfl⟩ := List.exists_cons_of_ne_nil hl
          rw [hspan, ← Nat.add_assoc a]
          refine h.tail.tail.congr fun x hx _ => Kheap.setNode_of_ne ?_
          omega
      obtain ⟨node', hco, hrep', hframe⟩ := ih hrep ha (by rw [extent_cons, hspan]; omega) hn'
      refine ⟨node', ?_, ?_, fun x hx => (hframe x hx).trans (Kheap.setNode_of_ne hx.ne)⟩
      · rw [hsize, hfree.1]
        exact hco
      · rw [mergeFrom, if_pos hfree]
        exact hrep'
    · next hfree =>
      obtain ⟨node', hco, hrep', hframe⟩ := ih h.tail (by omega)
        (by rw [extent_cons]; omega) hn'
      refine ⟨node', hco, ?_, fun x hx => hframe x (by omega)⟩
      obtain ⟨d, l', e, -⟩ := @mergeFrom_eq_cons kheapNodeSize c l
      rw [mergeFrom, if_neg hfree]
      rw [e] at hrep' ⊢
      exact ⟨(hframe a (by omega)).trans hnode, hrep'⟩

/-! ## The changes -/

/-- The last chunk of a row after the heap has grown. -/
def grown (b : Chunk) (bytes : Nat) : List Chunk :=
  if b.free then [⟨b.size + bytes, true⟩] else [b, ⟨bytes - kheapNodeSize, true⟩]

theorem extent_grown {bytes : Nat} (hb : kheapNodeSize ≤ bytes) :
    extent kheapNodeSize (grown b bytes) = b.span kheapNodeSize + bytes := by
  unfold grown
  split
  · simp only [extent_cons, extent_nil, Chunk.span]
    omega
  · simp only [extent_cons, extent_nil, Chunk.span]
    omega

/-- The first node. -/
theorem kheapGrow_zero (s : Kheap) (bytes : Nat) : kheapGrow s 0 bytes =
    ⟨Function.update s.node s.kheapEnd ⟨sub64 bytes kheapNodeSize, true, 0⟩, s.kheapStart,
      add64 s.kheapEnd bytes, s.kheapEnd, s.made + 1⟩ := by
  simp only [kheapGrow, true_or, if_true, Kheap.setNode]

theorem kheapGrow_of_free {s : Kheap} {current bytes : Nat} {n : KheapNode} (hcur : current ≠ 0)
    (hnode : s.node current = n) (hfree : n.isFree = true) : kheapGrow s current bytes =
      { s.setNode current { n with size := add64 n.size bytes } with
        kheapEnd := add64 s.kheapEnd bytes } := by
  subst hnode
  simp [kheapGrow, hcur, hfree, Kheap.setNode]

theorem kheapGrow_of_used {s : Kheap} {current bytes : Nat} {n : KheapNode} (hcur : current ≠ 0)
    (hne : current ≠ s.kheapEnd) (hnode : s.node current = n) (hfree : n.isFree = false) :
    kheapGrow s current bytes =
      { (s.setNode s.kheapEnd ⟨sub64 bytes kheapNodeSize, true, 0⟩).setNode current
          { n with next := s.kheapEnd } with
        kheapEnd := add64 s.kheapEnd bytes, made := s.made + 1 } := by
  subst hnode
  simp [kheapGrow, hcur, hfree, Kheap.setNode, hne]

theorem kheapGrow_rep {s : Kheap} {bytes : Nat} (h : Rep s.node a (l ++ [b])) (ha : 0 < a)
    (hend : s.kheapEnd = a + extent kheapNodeSize (l ++ [b])) (hbytes : kheapNodeSize ≤ bytes)
    (hlt : s.kheapEnd + bytes < 2 ^ 64) :
    ∃ node' made', kheapGrow s (a + extent kheapNodeSize l) bytes =
        { s with node := node', kheapEnd := s.kheapEnd + bytes, made := made' } ∧
      Rep node' a (l ++ grown b bytes) ∧ (grown b bytes).length + s.made ≤ made' + 1 := by
  obtain ⟨hseg, hlast⟩ := rep_append_cons.mp h
  have hnode : s.node (a + extent kheapNodeSize l) = ⟨b.size, b.free, 0⟩ := hlast
  have hpos : a + extent kheapNodeSize l ≠ 0 := by omega
  rw [extent_append, extent_cons, extent_nil] at hend
  have hb := chunk_span_pos b
  have hne : a + extent kheapNodeSize l ≠ s.kheapEnd := by omega
  unfold grown
  cases hfree : b.free with
  | true =>
    have hsize : add64 b.size bytes = b.size + bytes := by
      unfold Chunk.span at hend
      exact add64_of_lt (by omega)
    rw [hfree] at hnode
    rw [kheapGrow_of_free hpos hnode rfl, hsize, add64_of_lt hlt]
    refine ⟨_, _, rfl, ?_, Nat.add_comm _ _ |>.le⟩
    refine rep_append_cons.mpr ⟨hseg.congr fun x _ hx => Kheap.setNode_of_ne hx.ne, ?_⟩
    exact Kheap.setNode_self
  | false =>
    have hsize : sub64 bytes kheapNodeSize = bytes - kheapNodeSize :=
      sub64_of_le (by omega) hbytes
    rw [hfree] at hnode
    rw [kheapGrow_of_used hpos hne hnode rfl, hsize, add64_of_lt hlt]
    refine ⟨_, _, rfl, ?_, by simp; omega⟩
    have hnew : a + extent kheapNodeSize l + b.span kheapNodeSize = s.kheapEnd := by omega
    refine rep_append_cons.mpr ⟨hseg.congr fun x _ hx => ?_, ?_, ?_⟩
    · rw [Kheap.setNode_of_ne hx.ne, Kheap.setNode_of_ne]
      omega
    · rw [Kheap.setNode_self, hnew, hfree]
    · rw [hnew]
      exact (Kheap.setNode_of_ne hne.symm).trans Kheap.setNode_self

/-- A free chunk after `size` bytes of it have been taken. -/
def taken (c : Chunk) (size : Nat) : List Chunk :=
  if kheapNodeSize + kheapMinSplittingSize ≤ c.size - size then
    [⟨size, false⟩, ⟨c.size - size - kheapNodeSize, true⟩]
  else [⟨c.size, false⟩]

theorem extent_taken {size : Nat} (hsize : size ≤ c.size) :
    extent kheapNodeSize (taken c size) = c.span kheapNodeSize := by
  unfold taken
  split
  · simp only [extent_cons, extent_nil, Chunk.span]
    omega
  · simp only [extent_cons, extent_nil, Chunk.span, Nat.add_zero]

theorem kmallocTake_of_split {s : Kheap} {current size : Nat} {n : KheapNode}
    (hnode : s.node current = n)
    (hsplit : kheapNodeSize + kheapMinSplittingSize ≤ sub64 n.size size)
    (hne : current ≠ add64 (add64 current kheapNodeSize) size) : kmallocTake s current size =
      { (s.setNode (add64 (add64 current kheapNodeSize) size)
            ⟨sub64 (sub64 n.size size) kheapNodeSize, true, n.next⟩).setNode current
          ⟨size, false, add64 (add64 current kheapNodeSize) size⟩ with made := s.made + 1 } := by
  subst hnode
  simp only [kmallocTake, if_pos hsplit]
  simp [Kheap.setNode, hne]

theorem kmallocTake_of_whole {s : Kheap} {current size : Nat} {n : KheapNode}
    (hnode : s.node current = n)
    (hsplit : ¬ kheapNodeSize + kheapMinSplittingSize ≤ sub64 n.size size) :
    kmallocTake s current size = s.setNode current { n with isFree := false } := by
  subst hnode
  simp only [kmallocTake, if_neg hsplit]

theorem kmallocTake_rep {s : Kheap} {size : Nat} (h : Rep s.node a (l ++ c :: l'))
    (hlt : a + extent kheapNodeSize (l ++ c :: l') < 2 ^ 64) (hfree : c.free = true)
    (hsize : size ≤ c.size) :
    ∃ node' made', kmallocTake s (a + extent kheapNodeSize l) size =
        { s with node := node', made := made' } ∧
      Rep node' a (l ++ (taken c size ++ l')) ∧ (taken c size).length + s.made ≤ made' + 1 := by
  obtain ⟨hseg, hc⟩ := rep_append_cons.mp h
  have hnode := hc.node_eq
  rw [hfree] at hnode
  rw [extent_append, extent_cons, Chunk.span] at hlt
  generalize hx : a + extent kheapNodeSize l = x at hc hnode
  have hspan : c.span kheapNodeSize = kheapNodeSize + c.size := rfl
  have hheader : 0 < kheapNodeSize := by decide
  have hmin : 0 < kheapMinSplittingSize := by decide
  have hleft : sub64 c.size size = c.size - size := sub64_of_le (by omega) hsize
  have hrest {d : Chunk} {l₂ : List Chunk} (hl : l' = d :: l₂) {node' : Nat → KheapNode}
      (hn : ∀ y, x + c.span kheapNodeSize ≤ y → node' y = s.node y) :
      Rep node' (x + c.span kheapNodeSize) l' := by
    subst hl
    exact hc.tail.congr fun y hy _ => hn y hy
  unfold taken
  by_cases hsplit : kheapNodeSize + kheapMinSplittingSize ≤ c.size - size
  · have hnew : add64 (add64 x kheapNodeSize) size = x + (kheapNodeSize + size) := by
      rw [add64_of_lt (a := x) (by omega), add64_of_lt (by omega), Nat.add_assoc]
    have hlast : sub64 (c.size - size) kheapNodeSize = c.size - size - kheapNodeSize :=
      sub64_of_le (by omega) (by omega)
    have hne : x ≠ x + (kheapNodeSize + size) := by omega
    have hend : x + (kheapNodeSize + size) + (kheapNodeSize + (c.size - size - kheapNodeSize)) =
        x + c.span kheapNodeSize := by omega
    rw [kmallocTake_of_split hnode (hleft ▸ hsplit) (hnew ▸ hne), hleft, hlast, hnew, if_pos hsplit]
    refine ⟨_, _, rfl, ?_, by simp; omega⟩
    refine rep_append_cons.mpr ⟨hseg.congr fun y _ hy => ?_, ?_⟩
    · rw [Kheap.setNode_of_ne (by omega), Kheap.setNode_of_ne (by omega)]
    · rw [hx]
      refine ⟨Kheap.setNode_self, rep_cons ?_ fun hl => ?_⟩
      · refine (Kheap.setNode_of_ne hne.symm).trans (Kheap.setNode_self.trans ?_)
        simp only [Chunk.span, hend]
        rfl
      · obtain ⟨d, l₂, hl⟩ := List.exists_cons_of_ne_nil hl
        simp only [Chunk.span, hend] at hrest hl ⊢
        refine hrest hl fun y hy => ?_
        rw [Kheap.setNode_of_ne, Kheap.setNode_of_ne]
        · omega
        · omega
  · rw [kmallocTake_of_whole hnode (hleft ▸ hsplit), if_neg hsplit]
    refine ⟨_, _, rfl, ?_, by simp; omega⟩
    refine rep_append_cons.mpr ⟨hseg.congr fun y _ hy => Kheap.setNode_of_ne (by omega), ?_⟩
    rw [hx]
    refine rep_cons Kheap.setNode_self fun hl => ?_
    obtain ⟨d, l₂, hl⟩ := List.exists_cons_of_ne_nil hl
    exact hrest hl fun y hy => Kheap.setNode_of_ne (by omega)

theorem kfree_rep {s : Kheap} (h : Rep s.node a (l ++ c :: l')) (ha : 0 < a)
    (hhead : s.kheapHead = a) (hlt : a + extent kheapNodeSize (l ++ c :: l') < 2 ^ 64)
    (hused : c.free = false) (hmade : (l ++ c :: l').length ≤ s.made) :
    ∃ node', kfree s (a + extent kheapNodeSize l + kheapNodeSize) = some { s with node := node' } ∧
      Rep node' a (mergeAll kheapNodeSize (l ++ ⟨c.size, true⟩ :: l')) := by
  obtain ⟨hseg, hc⟩ := rep_append_cons.mp h
  have hnode := hc.node_eq
  rw [hused] at hnode
  have hext : extent kheapNodeSize (l ++ ⟨c.size, true⟩ :: l') =
      extent kheapNodeSize (l ++ c :: l') := by
    rw [extent_append, extent_append]
    rfl
  have hlen : (l ++ (⟨c.size, true⟩ : Chunk) :: l').length = (l ++ c :: l').length := by simp
  rw [← hext] at hlt
  rw [← hlen] at hmade
  -- the row with the chunk free, before the pass
  have hfreed : Rep (s.setNode (a + extent kheapNodeSize l)
      { s.node (a + extent kheapNodeSize l) with isFree := true }).node a
      (l ++ ⟨c.size, true⟩ :: l') := by
    refine rep_append_cons.mpr ⟨hseg.congr fun x _ hx => Kheap.setNode_of_ne hx.ne, ?_⟩
    refine rep_cons ?_ fun hl => ?_
    · rw [Kheap.setNode_self, hnode]
      rfl
    · obtain ⟨d, l', rfl⟩ := List.exists_cons_of_ne_nil hl
      refine hc.tail.congr fun x hx _ => Kheap.setNode_of_ne ?_
      have := chunk_span_pos c
      omega
  have hpass : kfree s (a + extent kheapNodeSize l + kheapNodeSize) =
      kheapCoalesce (s.made + 1) (s.setNode (a + extent kheapNodeSize l)
        { s.node (a + extent kheapNodeSize l) with isFree := true }) a := by
    have hptr : sub64 (a + extent kheapNodeSize l + kheapNodeSize) kheapNodeSize =
        a + extent kheapNodeSize l := by
      rw [sub64_of_le _ (Nat.le_add_left _ _), Nat.add_sub_cancel]
      rw [extent_append, extent_cons, Chunk.span] at hlt
      simp only at hlt
      omega
    rw [kfree, if_neg (by omega)]
    simp only [hptr]
    rw [if_neg (by simp [hnode])]
    simp only [Kheap.setNode, hhead]
  rw [hpass]
  revert hfreed hlt hmade
  cases l ++ (⟨c.size, true⟩ : Chunk) :: l' with
  | nil => exact fun _ _ hfreed => hfreed.elim
  | cons b r =>
    intro hlt hmade hfreed
    obtain ⟨node', hco, hrep, -⟩ := kheapCoalesce_eq hfreed ha hlt (Nat.lt_succ_of_lt hmade)
    exact ⟨node', hco, hrep⟩

end Plos
