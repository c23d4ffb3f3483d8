import Mathlib.Data.List.Chain
import Mathlib.Data.List.Nodup
import Mathlib.Data.List.Perm.Subperm
import Mathlib.Logic.Function.Basic

/-! Paths of a successor function. `Path f a xs b` says that following `f` from `a` visits
exactly the elements of `xs`, in that order, and then arrives at `b`. It is the sequence that a
pointer-linked list stands for, with `f` the link field: a circular list is a path from its head
back to its head, a terminated one is a path from its head to the end marker. -/

namespace Plos

/-- Following `f` from `a` visits `xs` and then arrives at `b`. -/
def Path (f : α → α) (a : α) (xs : List α) (b : α) : Prop :=
  List.IsChain (fun x y => f x = y) (a :: (xs ++ [b]))

namespace Path

variable {f g : α → α} {a b c : α} {xs ys : List α}

@[simp] theorem nil_iff : Path f a [] b ↔ f a = b := by simp [Path]

@[simp] theorem cons_iff : Path f a (c :: xs) b ↔ f a = c ∧ Path f c xs b := by
  simp [Path, List.isChain_cons_cons]

theorem append_iff : Path f a (xs ++ c :: ys) b ↔ Path f a xs c ∧ Path f c ys b := by
  induction xs generalizing a with
  | nil => simp
  | cons x xs ih => simp [ih, and_assoc]

/-- A path reads the links of its start and of the elements it visits, and no others. -/
theorem congr (h : Path f a xs b) (hg : ∀ x ∈ a :: xs, g x = f x) : Path g a xs b := by
  induction xs generalizing a with
  | nil => simpa [hg a] using h
  | cons x xs ih =>
    simp only [cons_iff] at h ⊢
    exact ⟨by simp [hg a, h.1], ih h.2 fun y hy => hg y (List.mem_cons_of_mem _ hy)⟩

/-- Every element a path arrives at is the successor of one it left. -/
theorem exists_pred (h : Path f a xs b) : ∀ y ∈ xs ++ [b], ∃ x ∈ a :: xs, f x = y := by
  induction xs generalizing a with
  | nil => simpa using h
  | cons x xs ih =>
    simp only [cons_iff] at h
    intro y hy
    rcases List.mem_cons.mp hy with rfl | hy
    · exact ⟨a, List.mem_cons_self, h.1⟩
    · obtain ⟨z, hz, hzy⟩ := ih h.2 y hy
      exact ⟨z, List.mem_cons_of_mem _ hz, hzy⟩

/-- The successor of an element of a path is on the path or its end. -/
theorem succ_mem (h : Path f a xs b) : ∀ x ∈ a :: xs, f x ∈ xs ++ [b] := by
  induction xs generalizing a with
  | nil => simpa using h
  | cons x xs ih =>
    simp only [cons_iff] at h
    intro y hy
    rcases List.mem_cons.mp hy with rfl | hy
    · simp [h.1]
    · exact List.mem_cons_of_mem _ (ih h.2 y hy)

/-- Two paths from one element to an end that neither visits are the same. -/
theorem unique (h : Path f a xs b) (h' : Path f a ys b) (hx : b ∉ xs) (hy : b ∉ ys) :
    xs = ys := by
  induction xs generalizing a ys with
  | nil =>
    cases ys with
    | nil => rfl
    | cons y ys => simp_all
  | cons x xs ih =>
    cases ys with
    | nil => simp_all
    | cons y ys =>
      simp only [cons_iff] at h h'
      obtain rfl : x = y := h.1.symm.trans h'.1
      rw [ih h.2 h'.2 (by simp_all) (by simp_all)]

/-- A link field that leads back goes through the path in reverse. -/
theorem reverse (h : Path f a xs b) (hg : ∀ x ∈ a :: xs, g (f x) = x) : Path g b xs.reverse a := by
  induction xs generalizing a with
  | nil =>
    rw [List.reverse_nil, nil_iff, ← nil_iff.mp h]
    exact hg a List.mem_cons_self
  | cons x xs ih =>
    obtain ⟨rfl, hp⟩ := cons_iff.mp h
    rw [List.reverse_cons]
    refine append_iff.mpr ⟨ih hp fun y hy => hg y (List.mem_cons_of_mem _ hy), nil_iff.mpr ?_⟩
    exact hg a List.mem_cons_self

variable [DecidableEq α]

/-- Redirecting the predecessor of `c` to the successor of `c` takes `c` off the path. -/
theorem unlink (h : Path f a (xs ++ c :: ys) b) (hnd : (a :: (xs ++ c :: ys)).Nodup)
    {p : α} (hp : p ∈ a :: xs) (hpc : f p = c) :
    Path (Function.update f p (f c)) a (xs ++ ys) b := by
  induction xs generalizing a with
  | nil =>
    obtain rfl : p = a := by simpa using hp
    simp only [List.nil_append, cons_iff] at h ⊢
    cases ys with
    | nil => simpa using h.2
    | cons y ys =>
      simp only [cons_iff] at h ⊢
      refine ⟨by simpa using h.2.1, h.2.2.congr fun x hx => Function.update_of_ne ?_ _ _⟩
      rintro rfl
      simp_all
  | cons x xs ih =>
    simp only [List.cons_append, cons_iff] at h ⊢
    have hpa : p ≠ a := by
      rintro rfl
      have : x = c := h.1.symm.trans hpc
      subst this
      simp at hnd
    have hp' : p ∈ x :: xs := by simpa [hpa] using hp
    refine ⟨by rw [Function.update_of_ne hpa.symm]; exact h.1, ih h.2 ?_ hp'⟩
    exact (List.nodup_cons.mp hnd).2

end Path

/-- Redirecting the last element of a path to a new one extends the path. -/
theorem Path.snoc {f g : α → α} {a b c d : α} {xs : List α} (h : Path f a xs b)
    (hg : ∀ x ∈ (a :: xs).dropLast, g x = f x)
    (hlast : g ((a :: xs).getLast (List.cons_ne_nil _ _)) = c) (hc : g c = d) :
    Path g a (xs ++ [c]) d := by
  induction xs generalizing a with
  | nil => exact cons_iff.mpr ⟨hlast, nil_iff.mpr hc⟩
  | cons x xs ih =>
    obtain ⟨hax, h⟩ := cons_iff.mp h
    refine cons_iff.mpr ⟨(hg a ?_).trans hax, ih h (fun y hy => hg y ?_) ?_⟩
    · rw [List.dropLast_cons_cons]
      exact List.mem_cons_self
    · rw [List.dropLast_cons_cons]
      exact List.mem_cons_of_mem _ hy
    · rwa [List.getLast_cons (List.cons_ne_nil x xs)] at hlast

/-! ## Circular lists -/

/-- Following `f` from the first element visits the whole list and returns to it. -/
def Cycle (f : α → α) : List α → Prop
  | [] => False
  | a :: l => (a :: l).Nodup ∧ Path f a l a

namespace Cycle

variable {f g : α → α} {a b c : α} {l xs ys : List α}

theorem nodup (h : Cycle f l) : l.Nodup := by
  cases l with
  | nil => exact h.elim
  | cons a l => exact h.1

theorem congr (h : Cycle f l) (hg : ∀ x ∈ l, g x = f x) : Cycle g l := by
  cases l with
  | nil => exact h.elim
  | cons a l => exact ⟨h.1, h.2.congr hg⟩

/-- A circular list can be followed from any of its elements. -/
theorem rotate (h : Cycle f (xs ++ c :: ys)) : Path f c (ys ++ xs) c := by
  cases xs with
  | nil =>
    rw [List.append_nil]
    exact h.2
  | cons a xs =>
    obtain ⟨h₁, h₂⟩ := Path.append_iff.mp h.2
    exact Path.append_iff.mpr ⟨h₂, h₁⟩

/-- Linking the last element to a new one, and that one to the first, appends it. -/
theorem snoc (h : Cycle f (a :: l)) (hb : b ∉ a :: l)
    (hg : ∀ x ∈ a :: l, x ≠ (a :: l).getLast (List.cons_ne_nil _ _) → g x = f x)
    (hlast : g ((a :: l).getLast (List.cons_ne_nil _ _)) = b) (hgb : g b = a) :
    Cycle g (a :: (l ++ [b])) := by
  refine ⟨?_, h.2.snoc (fun x hx => ?_) hlast hgb⟩
  · rw [← List.cons_append, List.nodup_append]
    refine ⟨h.1, List.nodup_singleton b, fun x hx y hy e => hb ?_⟩
    rw [← List.mem_singleton.mp hy, ← e]
    exact hx
  · refine hg x (List.dropLast_subset _ hx) fun e => ?_
    have hnd := h.1
    rw [← List.dropLast_append_getLast (List.cons_ne_nil a l), List.nodup_append] at hnd
    exact hnd.2.2 x hx _ (List.mem_singleton_self _) e

theorem unlink [DecidableEq α] (h : Cycle f (a :: (xs ++ c :: ys))) {p : α} (hp : p ∈ a :: xs)
    (hpc : f p = c) : Cycle (Function.update f p (f c)) (a :: (xs ++ ys)) := by
  refine ⟨?_, h.2.unlink h.1 hp hpc⟩
  refine h.1.sublist (List.Sublist.cons_cons a ?_)
  exact List.Sublist.append_left (List.sublist_cons_self c ys) xs

theorem mem_succ (h : Cycle f l) {x : α} (hx : x ∈ l) : f x ∈ l := by
  cases l with
  | nil => exact h.elim
  | cons a l =>
    have := h.2.succ_mem x hx
    rwa [List.mem_append, List.mem_singleton, or_comm, ← List.mem_cons] at this

/-- An element of a circular list is linked to by only one of them. -/
theorem inj (h : Cycle f l) {x y : α} (hx : x ∈ l) (hy : y ∈ l) (hxy : f x = f y) : x = y := by
  have hsub : l ⊆ l.map f := by
    intro y hy
    cases l with
    | nil => exact h.elim
    | cons a l =>
      obtain ⟨x, hx, rfl⟩ := h.2.exists_pred y (by
        rwa [List.mem_append, List.mem_singleton, or_comm, ← List.mem_cons])
      exact List.mem_map_of_mem hx
  -- as many successors as elements, so each of them once
  have hperm : l.Perm (l.map f) :=
    (List.subperm_of_subset h.nodup hsub).perm_of_length_le (List.length_map f).le
  exact List.inj_on_of_nodup_map (hperm.nodup h.nodup) hx hy hxy

theorem succ_self_iff (h : Cycle f l) (hc : c ∈ l) : f c = c ↔ l = [c] := by
  constructor
  · intro hfc
    obtain ⟨xs, ys, rfl⟩ := List.append_of_mem hc
    have hnd := h.nodup
    have hrot := h.rotate
    cases hrest : ys ++ xs with
    | nil =>
      obtain ⟨rfl, rfl⟩ := List.append_eq_nil_iff.mp hrest
      rfl
    | cons d ds =>
      rw [hrest] at hrot
      have hd : d ∈ ys ++ xs := by rw [hrest]; exact List.mem_cons_self
      have hdc : d = c := (Path.cons_iff.mp hrot).1.symm.trans hfc
      grind
  · intro hl
    subst hl
    exact Path.nil_iff.mp h.2

theorem of_rotate (h : Cycle f (a :: b :: l)) : Cycle f (b :: (l ++ [a])) := by
  obtain ⟨hab, hp⟩ := Path.cons_iff.mp h.2
  refine ⟨?_, Path.append_iff.mpr ⟨hp, Path.nil_iff.mpr hab⟩⟩
  have : (b :: (l ++ [a])).Perm (a :: b :: l) := @List.perm_append_comm _ (b :: l) [a]
  exact this.symm.nodup h.1

/-- Redirecting the predecessor of an element to its successor takes it off, wherever it is. -/
theorem erase [DecidableEq α] (h : Cycle f l) {p : α} (hp : p ∈ l) (hc : c ∈ l) (hpc : f p = c)
    (hne : l.erase c ≠ []) : Cycle (Function.update f p (f c)) (l.erase c) := by
  cases l with
  | nil => exact h.elim
  | cons a l =>
    by_cases hac : a = c
    · subst hac
      rw [List.erase_cons_head] at hne ⊢
      cases l with
      | nil => exact absurd rfl hne
      | cons b l =>
        have hrot := h.of_rotate
        obtain ⟨x, hx, hxa⟩ := (Path.cons_iff.mp h.2).2.exists_pred a (by simp)
        obtain rfl := h.inj hp (List.mem_cons_of_mem _ hx) (hpc.trans hxa.symm)
        have := hrot.unlink hx hpc
        rwa [List.append_nil] at this
    · obtain ⟨xs, ys, rfl⟩ := List.append_of_mem (List.mem_of_ne_of_mem (Ne.symm hac) hc)
      obtain ⟨x, hx, hxc⟩ := (Path.append_iff.mp h.2).1.exists_pred c (by simp)
      have hxl : x ∈ a :: (xs ++ c :: ys) := by
        rw [← List.cons_append]
        exact List.mem_append_left _ hx
      obtain rfl := h.inj hp hxl (hpc.trans hxc.symm)
      have hcxs : c ∉ xs := by
        have := h.1
        grind
      rw [List.erase_cons_tail (by simpa using hac), List.erase_append_right _ hcxs,
        List.erase_cons_head]
      exact h.unlink hx hpc

end Cycle

/-! ## Terminated lists -/

/-- Every element links to the next one, and the last one to nothing. -/
def Linked (f : α → Option α) : List α → Prop
  | [] => True
  | a :: l => f a = l.head? ∧ Linked f l

namespace Linked

variable {f g : α → Option α} {b : α} {l : List α}

theorem congr (h : Linked f l) (hg : ∀ x ∈ l, g x = f x) : Linked g l := by
  induction l with
  | nil => trivial
  | cons a l ih =>
    refine ⟨(hg a List.mem_cons_self).trans h.1, ih h.2 fun x hx => ?_⟩
    exact hg x (List.mem_cons_of_mem _ hx)

/-- Linking the last element to a new one appends it. -/
theorem snoc [DecidableEq α] (h : Linked f l)
    (hg : ∀ x ∈ l, g x = if l.getLast? = some x then some b else f x) (hb : g b = none)
    (hnd : l.Nodup) : Linked g (l ++ [b]) := by
  induction l with
  | nil => exact ⟨hb, trivial⟩
  | cons a l ih =>
    obtain ⟨ha, hnd⟩ := List.nodup_cons.mp hnd
    have hga := hg a List.mem_cons_self
    cases l with
    | nil => exact ⟨by simpa using hga, hb, trivial⟩
    | cons c l =>
      refine ⟨?_, ih h.2 (fun x hx => ?_) hnd⟩
      · rw [hga, if_neg, h.1]
        · rfl
        · rw [List.getLast?_cons_cons]
          exact fun e => ha (List.mem_of_getLast? e)
      · rw [hg x (List.mem_cons_of_mem _ hx), List.getLast?_cons_cons]

end Linked

end Plos
