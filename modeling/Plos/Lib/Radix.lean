import Mathlib.Data.List.Basic
import Mathlib.Logic.Function.Basic

/-! Trees of tables in a memory.

A table is a frame `f` with the entries `slot f 0`, `slot f 1`, and so on. An entry points to a
table of the next level or it does not. A tree is given by the partial map `T` from index paths to
the frames of its tables, and by `leaf`, the contents of the entries that point to no table. Writing
a leaf, hanging a new table into an entry and writing outside the tables change the tree in the
obvious way. -/

namespace Plos

universe u v w

/-- How a table is laid out in memory. -/
structure RadixFormat (A : Type u) (F : Type v) (E : Type w) where
  slot : F → Nat → A
  node : F → E
  empty : E
  Valid : F → Prop
  width : Nat
  slot_inj : ∀ {f g i j}, Valid f → Valid g → i < width → j < width → slot f i = slot g j →
    f = g ∧ i = j

/-- The tables at the paths of `T`. Only the first `size p` entries of the table at `p` belong to
the tree. -/
structure RadixTree {A : Type u} {F : Type v} {E : Type w} (R : RadixFormat A F E)
    (size : List Nat → Nat)
    (mem : A → E) (T : List Nat → Option F) (leaf : List Nat → E) : Prop where
  size_le : ∀ p, size p ≤ R.width
  valid : ∀ {p f}, T p = some f → R.Valid f
  inj : ∀ {p q f}, T p = some f → T q = some f → p = q
  parent : ∀ {p i g}, T (p ++ [i]) = some g → i < size p ∧ ∃ f, T p = some f
  entry : ∀ {p f i}, T p = some f → i < size p →
    mem (R.slot f i) = (T (p ++ [i])).elim (leaf (p ++ [i])) R.node
  inner : ∀ {p i g}, T (p ++ [i]) = some g → leaf (p ++ [i]) = R.empty
  bare : ∀ {p i}, T p = none → leaf (p ++ [i]) = R.empty

theorem snoc_inj {p q : List Nat} {i j : Nat} (h : p ++ [i] = q ++ [j]) : p = q ∧ i = j := by
  obtain ⟨hp, hi⟩ := List.append_inj' h rfl
  exact ⟨hp, List.singleton_inj.mp hi⟩

namespace RadixTree

variable {A : Type u} {F : Type v} {E : Type w} {R : RadixFormat A F E} {size : List Nat → Nat}
  {mem mem' : A → E} {T : List Nat → Option F} {leaf : List Nat → E} {p : List Nat} {f g : F}
  {i : Nat}

theorem slot_eq (H : RadixTree R size mem T leaf) {q : List Nat} {j : Nat} (hp : T p = some f)
    (hi : i < size p) (hq : T q = some g) (hj : j < size q) (h : R.slot f i = R.slot g j) :
    p = q ∧ i = j := by
  obtain ⟨rfl, rfl⟩ := R.slot_inj (H.valid hp) (H.valid hq) (Nat.lt_of_lt_of_le hi (H.size_le p))
    (Nat.lt_of_lt_of_le hj (H.size_le q)) h
  exact ⟨H.inj hp hq, rfl⟩

/-- A tree reads the entries of its tables and nothing else. -/
theorem congr (H : RadixTree R size mem T leaf)
    (h : ∀ p f i, T p = some f → i < size p → mem' (R.slot f i) = mem (R.slot f i)) :
    RadixTree R size mem' T leaf :=
  { H with entry := fun hp hi => (h _ _ _ hp hi).trans (H.entry hp hi) }

variable [DecidableEq A]

/-- An entry that points to no table is written. -/
theorem setLeaf (H : RadixTree R size mem T leaf) (hp : T p = some f) (hi : i < size p)
    (hnone : T (p ++ [i]) = none) (e : E) :
    RadixTree R size (Function.update mem (R.slot f i) e) T
      (Function.update leaf (p ++ [i]) e) := by
  refine ⟨H.size_le, H.valid, H.inj, H.parent, fun {q g j} hq hj => ?_, fun {q j g} hg => ?_,
    fun {q j} hq => ?_⟩
  · by_cases hslot : R.slot f i = R.slot g j
    · obtain ⟨rfl, rfl⟩ := H.slot_eq hp hi hq hj hslot
      rw [← hslot, Function.update_self, Function.update_self, hnone]
      rfl
    · have hpath : q ++ [j] ≠ p ++ [i] := by
        intro h
        obtain ⟨rfl, rfl⟩ := snoc_inj h
        obtain rfl := Option.some.inj (hp.symm.trans hq)
        exact hslot rfl
      rw [Function.update_of_ne (Ne.symm hslot), Function.update_of_ne hpath, H.entry hq hj]
  · have hpath : q ++ [j] ≠ p ++ [i] := by
      intro h
      rw [h, hnone] at hg
      cases hg
    rw [Function.update_of_ne hpath, H.inner hg]
  · have hpath : q ++ [j] ≠ p ++ [i] := by
      intro h
      obtain ⟨rfl, -⟩ := snoc_inj h
      rw [hp] at hq
      cases hq
    rw [Function.update_of_ne hpath, H.bare hq]

/-- An empty entry gets a new table, whose entries are empty. -/
theorem grow (H : RadixTree R size mem T leaf) (hp : T p = some f) (hi : i < size p)
    (hnone : T (p ++ [i]) = none) (hleaf : leaf (p ++ [i]) = R.empty) (hg : R.Valid g)
    (hfresh : ∀ q, T q ≠ some g) (hzero : ∀ j < R.width, mem' (R.slot g j) = R.empty)
    (hsame : ∀ q h j, T q = some h → j < size q → mem' (R.slot h j) = mem (R.slot h j)) :
    RadixTree R size (Function.update mem' (R.slot f i) (R.node g))
      (Function.update T (p ++ [i]) (some g)) leaf := by
  have hfg : f ≠ g := fun h => hfresh p (h ▸ hp)
  have hiw : i < R.width := Nat.lt_of_lt_of_le hi (H.size_le p)
  have hT {q h} (hq : Function.update T (p ++ [i]) (some g) q = some h) :
      q = p ++ [i] ∧ h = g ∨ T q = some h := by
    by_cases hqp : q = p ++ [i]
    · subst hqp
      rw [Function.update_self] at hq
      exact .inl ⟨rfl, (Option.some.inj hq).symm⟩
    · rw [Function.update_of_ne hqp] at hq
      exact .inr hq
  have hold {q h} (hq : T q = some h) : Function.update T (p ++ [i]) (some g) q = some h := by
    have hne : q ≠ p ++ [i] := by
      rintro rfl
      rw [hnone] at hq
      cases hq
    rwa [Function.update_of_ne hne]
  refine ⟨H.size_le, fun {q h} hq => ?_, fun {q r h} hq hr => ?_, fun {q j h} hq => ?_,
    fun {q h j} hq hj => ?_, fun {q j h} hq => ?_, fun {q j} hq => H.bare ?_⟩
  · rcases hT hq with ⟨-, rfl⟩ | hq'
    · exact hg
    · exact H.valid hq'
  · rcases hT hq with ⟨hqp, rfl⟩ | hq'
    · rcases hT hr with ⟨hrp, -⟩ | hr'
      · rw [hqp, hrp]
      · exact absurd hr' (hfresh r)
    · rcases hT hr with ⟨-, rfl⟩ | hr'
      · exact absurd hq' (hfresh q)
      · exact H.inj hq' hr'
  · rcases hT hq with ⟨h, rfl⟩ | hq
    · obtain ⟨rfl, rfl⟩ := snoc_inj h
      exact ⟨hi, f, hold hp⟩
    · obtain ⟨hj, h', hq'⟩ := H.parent hq
      exact ⟨hj, h', hold hq'⟩
  · rcases hT hq with ⟨rfl, rfl⟩ | hq'
    · -- the new table
      have hjw : j < R.width := Nat.lt_of_lt_of_le hj (H.size_le _)
      have hslot : R.slot h j ≠ R.slot f i := fun e =>
        hfg (R.slot_inj (H.valid hp) hg hiw hjw e.symm).1
      have hchild : T (p ++ [i] ++ [j]) = none := by
        cases hc : T (p ++ [i] ++ [j]) with
        | none => rfl
        | some c =>
          obtain ⟨-, h', hp'⟩ := H.parent hc
          rw [hnone] at hp'
          cases hp'
      have hne : p ++ [i] ++ [j] ≠ p ++ [i] := fun e => by simp at e
      rw [Function.update_of_ne hslot, hzero j hjw, Function.update_of_ne hne, hchild,
        Option.elim_none, H.bare hnone]
    · by_cases hslot : R.slot f i = R.slot h j
      · obtain ⟨rfl, rfl⟩ := H.slot_eq hp hi hq' hj hslot
        rw [← hslot, Function.update_self, Function.update_self]
        rfl
      · have hne : q ++ [j] ≠ p ++ [i] := by
          intro e
          obtain ⟨rfl, rfl⟩ := snoc_inj e
          obtain rfl := Option.some.inj (hp.symm.trans hq')
          exact hslot rfl
        rw [Function.update_of_ne (Ne.symm hslot), Function.update_of_ne hne, hsame q h j hq' hj,
          H.entry hq' hj]
  · rcases hT hq with ⟨e, -⟩ | hq
    · rw [e, hleaf]
    · exact H.inner hq
  · cases hq' : T q with
    | none => rfl
    | some h =>
      rw [hold hq'] at hq
      cases hq

end RadixTree

end Plos
