import Mathlib.Order.Circular
import Mathlib.Data.Set.Card

/-! Distances in a circular order.

Going round from `a`, the elements met before `b` are the open interval `cIoo a b`, or all others
if one starts at `b`. Their number in a finite set is the distance from `a` to `b`: it falls when
one moves on to an element that is met before `b`. A sorted list that is cut at `c` and rotated is
met in its order from `c` on. -/

namespace Plos

section
variable {α : Type*} [CircularOrder α] {a b u x : α} {S T : Set α}

/-- Going round from `a` one meets `x` before `b`. -/
def Ahead (a b x : α) : Prop := sbtw a x b ∨ a = b ∧ x ≠ a

theorem not_ahead_target : ¬ Ahead a b b := by
  rintro (h | ⟨rfl, h⟩)
  · exact sbtw_irrefl_right h
  · exact h rfl

theorem not_ahead_start : ¬ Ahead a b a := by
  rintro (h | ⟨rfl, h⟩)
  · exact sbtw_irrefl_left h
  · exact h rfl

theorem Ahead.trans (h : Ahead a b u) (h' : Ahead u b x) : Ahead a b x := by
  have hub : u ≠ b := by
    rintro rfl
    exact not_ahead_target h
  have hx : sbtw u x b := h'.resolve_right fun e => hub e.1
  rcases h with h | ⟨rfl, -⟩
  · exact .inl (h.trans_left hx)
  · refine .inr ⟨rfl, ?_⟩
    rintro rfl
    exact sbtw_irrefl_right hx

/-- How many elements of the set one meets before `b`. -/
noncomputable def distance (S : Set α) (a b : α) : ℕ := {x ∈ S | Ahead a b x}.ncard

theorem distance_mono (h : S ⊆ T) (hT : T.Finite) : distance S a b ≤ distance T a b :=
  Set.ncard_le_ncard (fun _ hx => ⟨h hx.1, hx.2⟩) (hT.subset (Set.sep_subset _ _))

theorem distance_insert_le (hS : S.Finite) : distance (insert u S) a b ≤ distance S a b + 1 := by
  have hsub : {x ∈ insert u S | Ahead a b x} ⊆ insert u {x ∈ S | Ahead a b x} := by
    rintro x ⟨rfl | hx, hab⟩
    · exact Set.mem_insert _ _
    · exact Set.mem_insert_of_mem _ ⟨hx, hab⟩
  exact (Set.ncard_le_ncard hsub ((hS.subset (Set.sep_subset _ _)).insert u)).trans
    (Set.ncard_insert_le _ _)

theorem distance_lt_of_ahead (hS : S.Finite) (hu : u ∈ S) (h : Ahead a b u) :
    distance S u b < distance S a b := by
  refine Set.ncard_lt_ncard ⟨fun x hx => ⟨hx.1, h.trans hx.2⟩, fun hsub => ?_⟩
    (hS.subset (Set.sep_subset _ _))
  exact not_ahead_start (hsub ⟨hu, h⟩).2

theorem distance_lt_ncard (hS : S.Finite) (hb : b ∈ S) : distance S a b < S.ncard := by
  refine Set.ncard_lt_ncard ⟨Set.sep_subset _ _, fun hsub => ?_⟩ hS
  exact not_ahead_target (hsub hb).2

end

section
variable {α : Type*} [LinearOrder α] {c : α} {l l' : List α}

/-- The circular order of a linear order, under a name of its own. -/
abbrev LinearAhead (a b x : α) : Prop := @Ahead α (LinearOrder.toCircularOrder α) a b x

theorem linearAhead_iff {a b x : α} : LinearAhead a b x ↔
    (a < x ∧ x < b ∨ x < b ∧ b < a ∨ b < a ∧ a < x) ∨ a = b ∧ x ≠ a := Iff.rfl

/-- From `c` on, a rotated sorted list is met in its order. -/
theorem pairwise_ahead_rotate (h : (l ++ c :: l').Pairwise (· < ·)) :
    (l' ++ (l ++ [c])).Pairwise fun x y => LinearAhead c y x := by
  obtain ⟨hl, hcl', hcross⟩ := List.pairwise_append.mp h
  obtain ⟨hc, hl'⟩ := List.pairwise_cons.mp hcl'
  have hlc (x : α) (hx : x ∈ l) : x < c := hcross x hx c List.mem_cons_self
  have hlast (x : α) (hx : x ≠ c) : LinearAhead c c x := .inr ⟨rfl, hx⟩
  refine List.pairwise_append.mpr
    ⟨?_, List.pairwise_append.mpr ⟨?_, List.pairwise_singleton _ _, ?_⟩, ?_⟩
  · refine hl'.imp_of_mem fun {x y} hx _ hxy => ?_
    exact linearAhead_iff.mpr (.inl (.inl ⟨hc x hx, hxy⟩))
  · refine hl.imp_of_mem fun {x y} _ hy hxy => ?_
    exact linearAhead_iff.mpr (.inl (.inr (.inl ⟨hxy, hlc y hy⟩)))
  · intro x hx y hy
    obtain rfl := List.mem_singleton.mp hy
    exact hlast x (hlc x hx).ne
  · intro x hx y hy
    rcases List.mem_append.mp hy with hy | hy
    · exact linearAhead_iff.mpr (.inl (.inr (.inr ⟨hlc y hy, hc x hx⟩)))
    · obtain rfl := List.mem_singleton.mp hy
      exact hlast x (hc x hx).ne'

end

/-- What is found first in a list is related to everything else that could have been found. -/
theorem find?_pairwise {α : Type*} {R : α → α → Prop} {p : α → Bool} {l : List α} {x y : α}
    (hl : l.Pairwise R) (hx : l.find? p = some x) (hy : y ∈ l) (hp : p y = true) :
    x = y ∨ R x y := by
  obtain ⟨-, as, bs, rfl, has⟩ := List.find?_eq_some_iff_append.mp hx
  rcases List.mem_append.mp hy with hy | hy
  · have := has y hy
    simp [hp] at this
  · rcases List.mem_cons.mp hy with rfl | hy
    · exact .inl rfl
    · exact .inr (List.rel_of_pairwise_cons (List.pairwise_append.mp hl).2.1 hy)

end Plos
