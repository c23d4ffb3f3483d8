import Mathlib.Data.Nat.Bitwise
import Mathlib.Data.List.Pairwise
import Mathlib.Data.Set.Card
import Mathlib.Order.Interval.Finset.Nat
import Mathlib.Data.Set.Pairwise.Basic
import Mathlib.Tactic.Ring

/-! Aligned power-of-two blocks of the natural numbers, as a buddy system uses them.

Two aligned blocks are disjoint or nested, so a block that is disjoint from `b` and meets the
first element of the buddy of `b` starts there and is no larger than `b` (`Block.head_of_buddy`).
A `Decomposition` is a disjoint family of aligned blocks without a pair of mergeable buddies; it
is determined by the set it covers (`Decomposition.ext_pages`). A `Tiling` is a list of disjoint
aligned blocks below a bound that covers a given set; merging two buddies and splitting a block
keep it. -/

namespace Plos

/-- The `2 ^ order` numbers from `base` on. -/
structure Block where
  base : Nat
  order : Nat
  deriving DecidableEq, Repr

namespace Block

variable {b c e : Block} {x y : Nat}

def size (b : Block) : Nat := 2 ^ b.order

def Aligned (b : Block) : Prop := 2 ^ b.order ∣ b.base

def Covers (b : Block) (x : Nat) : Prop := b.base ≤ x ∧ x < b.base + 2 ^ b.order

instance : Decidable (b.Aligned) := inferInstanceAs (Decidable (_ ∣ _))
instance : Decidable (b.Covers x) := inferInstanceAs (Decidable (_ ∧ _))

def Disjoint (b c : Block) : Prop := ∀ x, b.Covers x → ¬ c.Covers x

/-- The block of the same order that `b` can merge with. -/
def buddy (b : Block) : Block := ⟨b.base ^^^ 2 ^ b.order, b.order⟩

/-- The block that `b` and its buddy merge to. -/
def parent (b : Block) : Block := ⟨min b.base (b.base ^^^ 2 ^ b.order), b.order + 1⟩

@[simp] theorem buddy_order : b.buddy.order = b.order := rfl
@[simp] theorem parent_order : b.parent.order = b.order + 1 := rfl

theorem covers_base : b.Covers b.base := ⟨le_rfl, Nat.lt_add_of_pos_right (Nat.two_pow_pos _)⟩

theorem Disjoint.symm (h : b.Disjoint c) : c.Disjoint b := fun x hc hb => h x hb hc

instance : Std.Symm Disjoint := ⟨fun _ _ h => h.symm⟩

theorem Disjoint.ne (h : b.Disjoint c) : b ≠ c := by
  rintro rfl
  exact h _ covers_base covers_base

/-- An aligned block is the set of numbers with one quotient by its size. -/
theorem Aligned.covers_iff (h : b.Aligned) :
    b.Covers x ↔ x / 2 ^ b.order = b.base / 2 ^ b.order := by
  obtain ⟨q, hq⟩ := h
  have hpos := Nat.two_pow_pos b.order
  rw [Covers, hq, Nat.mul_div_cancel_left _ hpos, Nat.div_eq_iff hpos, Nat.mul_comm q]
  omega

theorem div_eq_of_le {k m : Nat} (hkm : k ≤ m) (h : x / 2 ^ k = y / 2 ^ k) :
    x / 2 ^ m = y / 2 ^ m := by
  obtain ⟨d, rfl⟩ := Nat.exists_eq_add_of_le hkm
  rw [pow_add, ← Nat.div_div_eq_div_mul, ← Nat.div_div_eq_div_mul, h]

/-- Of two aligned blocks that meet, the smaller lies inside the larger. -/
theorem Aligned.covers_of_le (hb : b.Aligned) (hc : c.Aligned) (hle : b.order ≤ c.order)
    (hx : b.Covers x) (hx' : c.Covers x) (hy : b.Covers y) : c.Covers y := by
  rw [hb.covers_iff] at hx hy
  rw [hc.covers_iff] at hx' ⊢
  rw [← hx']
  exact div_eq_of_le hle (hy.trans hx.symm)

theorem Aligned.eq_of_covers (hb : b.Aligned) (hc : c.Aligned) (ho : b.order = c.order)
    (hx : b.Covers x) (hx' : c.Covers x) : b = c := by
  have h1 := (hb.covers_of_le hc ho.le hx hx' covers_base).1
  have h2 := (hc.covers_of_le hb ho.ge hx' hx covers_base).1
  cases b; cases c
  simp only at ho h1 h2
  simp [ho, le_antisymm h2 h1]

theorem order_le_of_covers (h : ∀ x, b.Covers x → c.Covers x) : b.order ≤ c.order := by
  by_contra hlt
  have hpow := Nat.pow_lt_pow_right (a := 2) (by omega) (not_le.mp hlt)
  have hpos := Nat.two_pow_pos b.order
  have h0 := h b.base covers_base
  have h1 := h (b.base + 2 ^ b.order - 1) ⟨by omega, by omega⟩
  simp only [Covers] at h0 h1
  omega

/-! ## Buddies -/

theorem xor_two_pow_of_dvd {p k : Nat} (h : 2 ^ k ∣ p) :
    p ^^^ 2 ^ k = 2 ^ k * (p / 2 ^ k ^^^ 1) := by
  obtain ⟨q, rfl⟩ := h
  rw [Nat.mul_div_cancel_left _ (Nat.two_pow_pos k)]
  have := @Nat.shiftLeft_xor_distrib k q 1
  simpa [Nat.shiftLeft_eq, Nat.mul_comm] using this.symm

theorem Aligned.buddy (h : b.Aligned) : b.buddy.Aligned :=
  ⟨_, xor_two_pow_of_dvd h⟩

theorem buddy_buddy : b.buddy.buddy = b := by
  simp [Block.buddy]

/-- Where the buddy of an aligned block lies: just above it or just below it. -/
theorem Aligned.buddy_base (h : b.Aligned) :
    (2 ^ (b.order + 1) ∣ b.base ∧ b.buddy.base = b.base + 2 ^ b.order) ∨
      (2 ^ (b.order + 1) ∣ b.buddy.base ∧ b.base = b.buddy.base + 2 ^ b.order) := by
  have hx := xor_two_pow_of_dvd h
  obtain ⟨q, hq⟩ := h
  have hpos := Nat.two_pow_pos b.order
  rw [hq, Nat.mul_div_cancel_left _ hpos] at hx
  simp only [Block.buddy, hq, hx]
  rcases Nat.even_or_odd q with he | ho
  · rw [Nat.xor_one_of_even he]
    obtain ⟨r, rfl⟩ := he
    exact .inl ⟨⟨r, by ring⟩, by ring⟩
  · rw [Nat.xor_one_of_odd ho]
    obtain ⟨r, rfl⟩ := ho
    exact .inr ⟨⟨r, by simp; ring⟩, by simp; ring⟩

theorem Aligned.parent (h : b.Aligned) : b.parent.Aligned := by
  have hb := h.buddy_base
  unfold Aligned Block.parent
  have hpos := Nat.two_pow_pos b.order
  rcases hb with ⟨hd, he⟩ | ⟨hd, he⟩ <;> simp only [Block.buddy] at he hd ⊢
  · rwa [Nat.min_eq_left (by omega)]
  · rwa [Nat.min_eq_right (by omega)]

theorem Aligned.parent_covers (h : b.Aligned) :
    b.parent.Covers x ↔ b.Covers x ∨ b.buddy.Covers x := by
  have hb := h.buddy_base
  have hpos := Nat.two_pow_pos b.order
  simp only [Covers, Block.parent, Block.buddy, pow_succ] at hb ⊢
  rcases hb with ⟨-, he⟩ | ⟨-, he⟩
  · rw [Nat.min_eq_left (by omega)]; omega
  · rw [Nat.min_eq_right (by omega)]; omega

theorem Aligned.disjoint_buddy (h : b.Aligned) : b.Disjoint b.buddy := by
  have hb := h.buddy_base
  have hpos := Nat.two_pow_pos b.order
  simp only [Disjoint, Covers, Block.buddy] at hb ⊢
  omega

theorem Aligned.parent_disjoint (h : b.Aligned) (h1 : c.Disjoint b) (h2 : c.Disjoint b.buddy) :
    c.Disjoint b.parent := by
  intro x hx hp
  rcases h.parent_covers.mp hp with hb | hb
  · exact h1 x hx hb
  · exact h2 x hx hb

theorem parent_buddy : b.buddy.parent = b.parent := by
  simp [Block.parent, Block.buddy, Nat.min_comm]

/-- An aligned block that contains `b` and is larger contains the parent of `b`. -/
theorem Aligned.covers_parent (hb : b.Aligned) (hc : c.Aligned) (hlt : b.order < c.order)
    (hx : b.Covers x) (hx' : c.Covers x) (hy : b.parent.Covers y) : c.Covers y :=
  hb.parent.covers_of_le hc hlt (hb.parent_covers.mpr (.inl hx)) hx' hy

/-- An aligned block disjoint from `b` that meets the first element of the buddy of `b` starts
there and is no larger than `b`. -/
theorem head_of_buddy (hb : b.Aligned) (he : e.Aligned) (hd : e.Disjoint b)
    (hc : e.Covers b.buddy.base) : e.base = b.buddy.base ∧ e.order ≤ b.order := by
  have hle : e.order ≤ b.order := by
    by_contra hlt
    have hp : b.parent.Covers b.base := hb.parent_covers.mpr (.inl covers_base)
    refine hd b.base ?_ covers_base
    exact hb.buddy.covers_parent he (by simpa using hlt) covers_base hc (by rwa [parent_buddy])
  refine ⟨le_antisymm hc.1 ?_, hle⟩
  -- both starts are multiples of the size of `e`
  have hdvd : 2 ^ e.order ∣ b.buddy.base := (pow_dvd_pow 2 hle).trans hb.buddy
  have := he.covers_iff.mp hc
  rw [← Nat.div_mul_cancel hdvd, this, Nat.div_mul_cancel he]

/-- An aligned block of positive order is a parent of its lower half. -/
theorem Aligned.lower_half {p k : Nat} (h : (⟨p, k + 1⟩ : Block).Aligned) :
    (⟨p, k⟩ : Block).Aligned ∧ (⟨p, k⟩ : Block).parent = ⟨p, k + 1⟩ ∧
      (⟨p, k⟩ : Block).buddy = ⟨p + 2 ^ k, k⟩ := by
  have hl : (⟨p, k⟩ : Block).Aligned := (pow_dvd_pow 2 (Nat.le_succ k)).trans h
  have hb := hl.buddy_base
  have hpos := Nat.two_pow_pos k
  have hup : (⟨p, k⟩ : Block).buddy.base = p + 2 ^ k := by
    rcases hb with ⟨-, he⟩ | ⟨hd, he⟩
    · exact he
    · -- `p` and `p - 2 ^ k` cannot both be multiples of `2 ^ (k + 1)`
      have h' : 2 ^ (k + 1) ∣ p := h
      have hsub := (Nat.dvd_add_right hd).mp (he ▸ h' : 2 ^ (k + 1) ∣ _ + 2 ^ k)
      exact absurd (Nat.le_of_dvd hpos hsub) (by simp [pow_succ])
  refine ⟨hl, ?_, ?_⟩
  · simp only [Block.buddy] at hup
    simp [Block.parent, hup]
  · rw [← hup]; rfl

end Block

/-! ## Canonical decompositions -/

/-- A disjoint family of aligned blocks of order at most `M` in which no two blocks below the
top order are buddies. -/
structure Decomposition (M : Nat) where
  blocks : Set Block
  aligned : ∀ b ∈ blocks, b.Aligned
  order_le : ∀ b ∈ blocks, b.order ≤ M
  disjoint : blocks.Pairwise Block.Disjoint
  noBuddies : ∀ b ∈ blocks, b.order < M → b.buddy ∉ blocks

namespace Decomposition

variable {M : Nat} (D : Decomposition M)

/-- The numbers the blocks cover. -/
def pages : Set Nat := {x | ∃ b ∈ D.blocks, b.Covers x}

variable {D}

theorem eq_of_covers {b c : Block} (hb : b ∈ D.blocks) (hc : c ∈ D.blocks)
    (hx : b.Covers x) (hx' : c.Covers x) : b = c := by
  by_contra hne
  exact D.disjoint hb hc hne x hx hx'

/-- An aligned block that is covered is inside one block of the family: two smaller blocks that
make up a half each would be buddies. -/
theorem exists_covering : ∀ {m p : Nat}, m ≤ M → (⟨p, m⟩ : Block).Aligned →
    (∀ x, (⟨p, m⟩ : Block).Covers x → x ∈ D.pages) →
      ∃ b ∈ D.blocks, ∀ x, (⟨p, m⟩ : Block).Covers x → b.Covers x
  | 0, p, _, _, hcov => by
    obtain ⟨b, hb, hx⟩ := hcov p Block.covers_base
    refine ⟨b, hb, fun x hx' => ?_⟩
    obtain rfl : x = p := by simp only [Block.Covers, pow_zero] at hx'; omega
    exact hx
  | m + 1, p, hm, hal, hcov => by
    obtain ⟨hlo, hpar, hbud⟩ := Block.Aligned.lower_half hal
    have hsplit (x) : (⟨p, m + 1⟩ : Block).Covers x ↔
        (⟨p, m⟩ : Block).Covers x ∨ (⟨p + 2 ^ m, m⟩ : Block).Covers x := by
      rw [← hpar, hlo.parent_covers, hbud]
    have hhi : (⟨p + 2 ^ m, m⟩ : Block).Aligned := hbud ▸ hlo.buddy
    obtain ⟨b, hb, hbc⟩ := exists_covering (Nat.le_of_succ_le hm) hlo
      fun x hx => hcov x ((hsplit x).mpr (.inl hx))
    obtain ⟨c, hc, hcc⟩ := exists_covering (Nat.le_of_succ_le hm) hhi
      fun x hx => hcov x ((hsplit x).mpr (.inr hx))
    have hb1 := hbc _ Block.covers_base
    have hc1 := hcc _ Block.covers_base
    rcases lt_or_ge m b.order with hlt | hge
    · exact ⟨b, hb, fun x hx => hlo.covers_parent (D.aligned b hb) hlt Block.covers_base hb1
        (hpar ▸ hx)⟩
    rcases lt_or_ge m c.order with hlt' | hge'
    · exact ⟨c, hc, fun x hx => hhi.covers_parent (D.aligned c hc) hlt' Block.covers_base hc1
        (by rwa [← hbud, Block.parent_buddy, hpar])⟩
    -- both halves are blocks of the family
    have hb2 : b.order = m := le_antisymm hge (Block.order_le_of_covers hbc)
    have hc2 : c.order = m := le_antisymm hge' (Block.order_le_of_covers hcc)
    obtain rfl := (D.aligned b hb).eq_of_covers hlo hb2 hb1 Block.covers_base
    obtain rfl := (D.aligned c hc).eq_of_covers hhi hc2 hc1 Block.covers_base
    exact absurd (hbud ▸ hc) (D.noBuddies _ hb hm)

/-- The blocks of a decomposition are the maximal aligned blocks inside what it covers. -/
theorem mem_iff {b : Block} : b ∈ D.blocks ↔ b.Aligned ∧ b.order ≤ M ∧
    (∀ x, b.Covers x → x ∈ D.pages) ∧
      (b.order < M → ∃ x, b.parent.Covers x ∧ x ∉ D.pages) := by
  constructor
  · intro hb
    refine ⟨D.aligned b hb, D.order_le b hb, fun x hx => ⟨b, hb, hx⟩, fun hlt => ?_⟩
    by_contra hall
    push Not at hall
    obtain ⟨c, hc, hcc⟩ := exists_covering (D := D) (m := b.order + 1) hlt
      (D.aligned b hb).parent hall
    have hcov : ∀ x, b.parent.Covers x → c.Covers x := hcc
    have hbc := hcov b.base ((D.aligned b hb).parent_covers.mpr (.inl Block.covers_base))
    obtain rfl := eq_of_covers hb hc Block.covers_base hbc
    have := hcov b.buddy.base ((D.aligned b hb).parent_covers.mpr (.inr Block.covers_base))
    exact (D.aligned b hb).disjoint_buddy _ this Block.covers_base
  · rintro ⟨hal, hle, hcov, hmax⟩
    obtain ⟨c, hc, hcc⟩ := exists_covering (D := D) hle hal hcov
    have hbc := hcc _ Block.covers_base
    have hco : c.order ≤ b.order := by
      by_contra hlt
      obtain ⟨x, hx, hx'⟩ := hmax (lt_of_lt_of_le (not_le.mp hlt) (D.order_le c hc))
      exact hx' ⟨c, hc, hal.covers_parent (D.aligned c hc) (not_le.mp hlt) Block.covers_base hbc hx⟩
    have hbo : b.order ≤ c.order := Block.order_le_of_covers hcc
    obtain rfl := hal.eq_of_covers (D.aligned c hc) (le_antisymm hbo hco) Block.covers_base hbc
    exact hc

/-- A decomposition is determined by the set it covers. -/
theorem ext_pages {D E : Decomposition M} (h : D.pages = E.pages) : D.blocks = E.blocks := by
  ext b
  rw [mem_iff, mem_iff, h]

end Decomposition

/-! ## Tilings -/

/-- A list of disjoint aligned blocks of order at most `M`, inside `(0, T)`, that covers `U`. -/
structure Tiling (M T : Nat) (U : Set Nat) (bs : List Block) : Prop where
  aligned : ∀ b ∈ bs, b.Aligned
  order_le : ∀ b ∈ bs, b.order ≤ M
  inside : ∀ b ∈ bs, b.base + 2 ^ b.order ≤ T
  base_pos : ∀ b ∈ bs, 0 < b.base
  disjoint : bs.Pairwise Block.Disjoint
  cover : ∀ x, x ∈ U ↔ ∃ b ∈ bs, b.Covers x

namespace Tiling

variable {M T : Nat} {U : Set Nat} {bs cs : List Block} {b c : Block}

theorem perm (H : Tiling M T U bs) (h : bs.Perm cs) : Tiling M T U cs where
  aligned b hb := H.aligned b (h.mem_iff.mpr hb)
  order_le b hb := H.order_le b (h.mem_iff.mpr hb)
  inside b hb := H.inside b (h.mem_iff.mpr hb)
  base_pos b hb := H.base_pos b (h.mem_iff.mpr hb)
  disjoint := (h.pairwise_iff Block.Disjoint.symm).mp H.disjoint
  cover x := by simp only [H.cover x, h.mem_iff]

theorem eq_of_covers (H : Tiling M T U bs) (hb : b ∈ bs) (hc : c ∈ bs)
    (hx : b.Covers x) (hx' : c.Covers x) : b = c := by
  by_contra hne
  exact H.disjoint.forall hb hc hne x hx hx'

theorem nodup (H : Tiling M T U bs) : bs.Nodup := H.disjoint.imp Block.Disjoint.ne

theorem lt_of_covers (H : Tiling M T U bs) (hb : b ∈ bs) (hx : b.Covers x) : x < T :=
  lt_of_lt_of_le hx.2 (H.inside b hb)

theorem not_covers_zero (H : Tiling M T U bs) (hb : b ∈ bs) : ¬ b.Covers 0 :=
  fun hx => absurd (H.base_pos b hb) (by have := hx.1; omega)

theorem nil : Tiling M T ∅ [] := by
  constructor <;> simp

/-- Two tilings of disjoint sets. -/
theorem append {V : Set Nat} (H : Tiling M T U bs) (H' : Tiling M T V cs)
    (hd : ∀ x ∈ U, x ∉ V) : Tiling M T (U ∪ V) (bs ++ cs) where
  aligned b hb := (List.mem_append.mp hb).elim (H.aligned b) (H'.aligned b)
  order_le b hb := (List.mem_append.mp hb).elim (H.order_le b) (H'.order_le b)
  inside b hb := (List.mem_append.mp hb).elim (H.inside b) (H'.inside b)
  base_pos b hb := (List.mem_append.mp hb).elim (H.base_pos b) (H'.base_pos b)
  disjoint := List.pairwise_append.mpr ⟨H.disjoint, H'.disjoint, fun b hb c hc x hx hx' =>
    hd x ((H.cover x).mpr ⟨b, hb, hx⟩) ((H'.cover x).mpr ⟨c, hc, hx'⟩)⟩
  cover x := by simp [H.cover x, H'.cover x, or_and_right, exists_or]

/-- The tail of a tiling covers what the head leaves out. -/
theorem tail (H : Tiling M T U (b :: bs)) : Tiling M T (U \ {x | b.Covers x}) bs where
  aligned c hc := H.aligned c (List.mem_cons_of_mem _ hc)
  order_le c hc := H.order_le c (List.mem_cons_of_mem _ hc)
  inside c hc := H.inside c (List.mem_cons_of_mem _ hc)
  base_pos c hc := H.base_pos c (List.mem_cons_of_mem _ hc)
  disjoint := (List.pairwise_cons.mp H.disjoint).2
  cover x := by
    have hd := (List.pairwise_cons.mp H.disjoint).1
    simp only [Set.mem_sdiff, H.cover x, List.mem_cons, exists_eq_or_imp, Set.mem_ofPred_eq]
    constructor
    · rintro ⟨h | h, hn⟩
      · exact absurd h hn
      · exact h
    · rintro ⟨c, hc, hx⟩
      exact ⟨.inr ⟨c, hc, hx⟩, fun hb => hd c hc x hb hx⟩

theorem covers_mem (H : Tiling M T U bs) (hb : b ∈ bs) (hx : b.Covers x) : x ∈ U :=
  (H.cover x).mpr ⟨b, hb, hx⟩

/-- A further block outside what is covered. -/
theorem cons (H : Tiling M T U bs) (ha : b.Aligned) (ho : b.order ≤ M)
    (hi : b.base + 2 ^ b.order ≤ T) (hp : 0 < b.base) (hd : ∀ x, b.Covers x → x ∉ U) :
    Tiling M T (U ∪ {x | b.Covers x}) (b :: bs) where
  aligned := by simpa using ⟨ha, H.aligned⟩
  order_le := by simpa using ⟨ho, H.order_le⟩
  inside := by simpa using ⟨hi, H.inside⟩
  base_pos := by simpa using ⟨hp, H.base_pos⟩
  disjoint := List.pairwise_cons.mpr
    ⟨fun c hc x hb hx => hd x hb ((H.cover x).mpr ⟨c, hc, hx⟩), H.disjoint⟩
  cover x := by simp [H.cover x, or_comm]

/-- Two buddies merge to their parent. -/
theorem merge (H : Tiling M T U (b :: b.buddy :: bs)) (hlt : b.order < M) :
    Tiling M T U (b.parent :: bs) := by
  have hb := H.aligned b (by simp)
  have hd := H.disjoint
  simp only [List.pairwise_cons, List.mem_cons, forall_eq_or_imp] at hd
  obtain ⟨⟨-, hd1⟩, hd2, hd⟩ := hd
  have hin1 := H.inside b (by simp)
  have hin2 := H.inside b.buddy (by simp)
  have hp1 := H.base_pos b (by simp)
  have hp2 := H.base_pos b.buddy (by simp)
  refine ⟨?_, ?_, ?_, ?_, ?_, fun x => ?_⟩
  · simpa using ⟨hb.parent, fun c hc => H.aligned c (by simp [hc])⟩
  · simpa using ⟨hlt, fun c hc => H.order_le c (by simp [hc])⟩
  · refine List.forall_mem_cons.mpr ⟨?_, fun c hc => H.inside c (by simp [hc])⟩
    have hpow := Nat.two_pow_pos b.parent.order
    have hlast := (hb.parent_covers (x := b.parent.base + 2 ^ b.parent.order - 1)).mp
      ⟨by omega, by omega⟩
    simp only [Block.Covers, Block.buddy_order] at hlast hin2
    omega
  · refine List.forall_mem_cons.mpr ⟨?_, fun c hc => H.base_pos c (by simp [hc])⟩
    exact lt_min hp1 hp2
  · exact List.pairwise_cons.mpr ⟨fun c hc =>
      (hb.parent_disjoint (hd1 c hc).symm (hd2 c hc).symm).symm, hd⟩
  · rw [H.cover x]
    simp only [List.mem_cons, exists_eq_or_imp, hb.parent_covers, or_assoc]

/-- A block splits into its halves. -/
theorem split {p k : Nat} (H : Tiling M T U (⟨p, k + 1⟩ :: bs)) :
    Tiling M T U (⟨p, k⟩ :: ⟨p + 2 ^ k, k⟩ :: bs) := by
  obtain ⟨hlo, hpar, hbud⟩ := Block.Aligned.lower_half (H.aligned ⟨p, k + 1⟩ (by simp))
  have hhi : (⟨p + 2 ^ k, k⟩ : Block).Aligned := hbud ▸ hlo.buddy
  have hcov (x) : (⟨p, k + 1⟩ : Block).Covers x ↔
      (⟨p, k⟩ : Block).Covers x ∨ (⟨p + 2 ^ k, k⟩ : Block).Covers x := by
    rw [← hpar, hlo.parent_covers, hbud]
  have hd := List.pairwise_cons.mp H.disjoint
  have hin := H.inside ⟨p, k + 1⟩ (by simp)
  have hpos := H.base_pos ⟨p, k + 1⟩ (by simp)
  have hk := H.order_le ⟨p, k + 1⟩ (by simp)
  simp only [pow_succ] at hin hpos hk
  refine ⟨?_, ?_, ?_, ?_, ?_, fun x => ?_⟩
  · simpa using ⟨hlo, hhi, fun c hc => H.aligned c (by simp [hc])⟩
  · simpa using ⟨by omega, fun c hc => H.order_le c (by simp [hc])⟩
  · simpa using ⟨by omega, by omega, fun c hc => H.inside c (by simp [hc])⟩
  · simpa using ⟨hpos, fun c hc => H.base_pos c (by simp [hc])⟩
  · refine List.pairwise_cons.mpr ⟨?_, List.pairwise_cons.mpr ⟨?_, hd.2⟩⟩
    · refine List.forall_mem_cons.mpr ⟨hbud ▸ hlo.disjoint_buddy, fun c hc x hx => ?_⟩
      exact hd.1 c hc x ((hcov x).mpr (.inl hx))
    · exact fun c hc x hx => hd.1 c hc x ((hcov x).mpr (.inr hx))
  · rw [H.cover x]
    simp only [List.mem_cons, exists_eq_or_imp, hcov, or_assoc]

/-! ### Counting -/

theorem subset_range (H : Tiling M T U bs) : U ⊆ Finset.range T := by
  intro x hx
  obtain ⟨b, hb, hc⟩ := (H.cover x).mp hx
  simpa using H.lt_of_covers hb hc

/-- The sizes of the blocks of a tiling add up to the size of what it covers. -/
theorem sum_size (H : Tiling M T U bs) : (bs.map Block.size).sum = U.ncard := by
  induction bs generalizing U with
  | nil =>
    have : U = ∅ := Set.eq_empty_of_forall_notMem fun x hx => by simpa using (H.cover x).mp hx
    simp [this]
  | cons b bs ih =>
    have hfin : U.Finite := (Finset.finite_toSet _).subset H.subset_range
    have hsub : {x | b.Covers x} ⊆ U := fun x hx => H.covers_mem List.mem_cons_self hx
    have hb : {x | b.Covers x}.ncard = b.size := by
      have : {x | b.Covers x} = Finset.Ico b.base (b.base + 2 ^ b.order) := by
        ext x
        simp [Block.Covers]
      rw [this, Set.ncard_coe_finset, Nat.card_Ico, Nat.add_sub_cancel_left, Block.size]
    rw [List.map_cons, List.sum_cons, ih H.tail, ← hb, Nat.add_comm]
    exact Set.ncard_sdiff_add_ncard_of_subset hsub hfin

theorem sum_size_le (H : Tiling M T U bs) : (bs.map Block.size).sum ≤ T := by
  rw [H.sum_size]
  calc U.ncard ≤ (Finset.range T : Set Nat).ncard :=
        Set.ncard_le_ncard H.subset_range (Finset.finite_toSet _)
    _ = T := by rw [Set.ncard_coe_finset, Finset.card_range]

end Tiling

end Plos
