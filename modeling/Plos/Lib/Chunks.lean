import Mathlib.Data.List.Chain
import Mathlib.Algebra.BigOperators.Group.List.Basic
import Mathlib.Algebra.GroupWithZero.Nat
import Mathlib.Tactic.Common

/-! Memory laid out as a row of chunks, each with a header of `h` bytes in front of its payload.

A row that starts at the address `a` is just the list of its chunks: where each of them lies follows
from the sizes before it. `mergeFrom` is the pass that merges free neighbours; it keeps the extent
of the row and the addresses of the used chunks, and leaves no two free chunks side by side. -/

namespace Plos

structure Chunk where
  size : Nat
  free : Bool
  deriving DecidableEq, Repr

section
variable (h : Nat)

/-- The bytes from one header to the next. -/
def Chunk.span (b : Chunk) : Nat := h + b.size

/-- The bytes a row of chunks takes. -/
def extent (l : List Chunk) : Nat := (l.map (Chunk.span h)).sum

/-- The addresses of the headers of a row that starts at `a`. -/
def chunkAddrs : Nat → List Chunk → List Nat
  | _, [] => []
  | a, b :: l => a :: chunkAddrs (a + b.span h) l

/-- The addresses of the headers of the used chunks. -/
def usedAddrs : Nat → List Chunk → List Nat
  | _, [] => []
  | a, b :: l => if b.free then usedAddrs (a + b.span h) l else a :: usedAddrs (a + b.span h) l

/-- The pass over a row that merges a free chunk with the free ones that follow it. -/
def mergeFrom (b : Chunk) : List Chunk → List Chunk
  | [] => [b]
  | c :: l =>
    if b.free ∧ c.free then mergeFrom ⟨b.size + (c.size + h), true⟩ l else b :: mergeFrom c l

/-- The pass over the whole row. -/
def mergeAll : List Chunk → List Chunk
  | [] => []
  | b :: l => mergeFrom h b l

end

/-- No two chunks side by side are free. -/
def Merged (l : List Chunk) : Prop := l.IsChain fun b c => ¬ (b.free = true ∧ c.free = true)

variable {h a : Nat} {b c : Chunk} {l l' : List Chunk}

@[simp] theorem extent_nil : extent h [] = 0 := rfl

@[simp] theorem extent_cons : extent h (b :: l) = b.span h + extent h l := List.sum_cons

@[simp] theorem extent_append : extent h (l ++ l') = extent h l + extent h l' := by
  rw [extent, List.map_append, List.sum_append]
  rfl

theorem chunkAddrs_append :
    chunkAddrs h a (l ++ l') = chunkAddrs h a l ++ chunkAddrs h (a + extent h l) l' := by
  induction l generalizing a with
  | nil => rfl
  | cons b l ih => simp only [List.cons_append, chunkAddrs, ih, extent_cons, Nat.add_assoc]

theorem usedAddrs_append :
    usedAddrs h a (l ++ l') = usedAddrs h a l ++ usedAddrs h (a + extent h l) l' := by
  induction l generalizing a with
  | nil => rfl
  | cons b l ih =>
    simp only [List.cons_append, usedAddrs, ih, extent_cons, Nat.add_assoc]
    split <;> rfl

/-- The headers lie inside the row. -/
theorem mem_chunkAddrs {x : Nat} (hx : x ∈ chunkAddrs h a l) : a ≤ x ∧ x + h ≤ a + extent h l := by
  induction l generalizing a with
  | nil => cases hx
  | cons b l ih =>
    rw [extent_cons, Chunk.span]
    rcases List.mem_cons.mp hx with rfl | hx
    · exact ⟨le_rfl, by omega⟩
    · have := ih hx
      rw [Chunk.span] at this
      omega

theorem nodup_chunkAddrs (hh : 0 < h) : (chunkAddrs h a l).Nodup := by
  induction l generalizing a with
  | nil => exact List.nodup_nil
  | cons b l ih =>
    refine List.nodup_cons.mpr ⟨fun ha => ?_, ih⟩
    have := (mem_chunkAddrs ha).1
    rw [Chunk.span] at this
    omega

theorem mod_chunkAddrs {m : Nat} (hh : h % m = 0) (ha : a % m = 0) (hl : ∀ c ∈ l, c.size % m = 0) :
    ∀ x ∈ chunkAddrs h a l, x % m = 0 := by
  induction l generalizing a with
  | nil => nofun
  | cons b l ih =>
    have hb := hl b List.mem_cons_self
    have hnext : (a + b.span h) % m = 0 := by
      rw [Chunk.span]
      simp [Nat.add_mod, ha, hh, hb]
    intro x hx
    rcases List.mem_cons.mp hx with rfl | hx
    · exact ha
    · exact ih hnext (fun c hc => hl c (List.mem_cons_of_mem _ hc)) x hx

theorem usedAddrs_sublist : List.Sublist (usedAddrs h a l) (chunkAddrs h a l) := by
  induction l generalizing a with
  | nil => exact List.Sublist.refl _
  | cons b l ih =>
    rw [usedAddrs, chunkAddrs]
    split
    · exact ih.cons _
    · exact ih.cons_cons _

/-- A used chunk in the row. -/
theorem exists_of_mem_usedAddrs {x : Nat} (hx : x ∈ usedAddrs h a l) :
    ∃ l₁ c l₂, l = l₁ ++ c :: l₂ ∧ c.free = false ∧ x = a + extent h l₁ := by
  induction l generalizing a with
  | nil => cases hx
  | cons b l ih =>
    have hrest (hx : x ∈ usedAddrs h (a + b.span h) l) :
        ∃ l₁ c l₂, b :: l = l₁ ++ c :: l₂ ∧ c.free = false ∧ x = a + extent h l₁ := by
      obtain ⟨l₁, c, l₂, rfl, hc, rfl⟩ := ih hx
      exact ⟨b :: l₁, c, l₂, rfl, hc, by rw [extent_cons, Nat.add_assoc]⟩
    rw [usedAddrs] at hx
    split at hx
    · exact hrest hx
    · next hfree =>
      rcases List.mem_cons.mp hx with rfl | hx
      · exact ⟨[], b, l, rfl, by simpa using hfree, rfl⟩
      · exact hrest hx

/-- The places of two chunks in a row: they are the same one, or one ends before the other
starts. -/
theorem append_cons_cases {l₁ l₂ l₁' l₂' : List Chunk} {d : Chunk}
    (e : l₁ ++ c :: l₂ = l₁' ++ d :: l₂') :
    (l₁ = l₁' ∧ c = d ∧ l₂ = l₂') ∨ extent h l₁ + c.span h ≤ extent h l₁' ∨
      extent h l₁' + d.span h ≤ extent h l₁ := by
  induction l₁ generalizing l₁' with
  | nil =>
    cases l₁' with
    | nil =>
      obtain ⟨rfl, rfl⟩ := List.cons.inj e
      exact .inl ⟨rfl, rfl, rfl⟩
    | cons x l₁' =>
      obtain ⟨rfl, -⟩ := List.cons.inj e
      rw [extent_nil, extent_cons]
      exact .inr (.inl (by omega))
  | cons b l₁ ih =>
    cases l₁' with
    | nil =>
      obtain ⟨rfl, -⟩ := List.cons.inj e
      rw [extent_nil, extent_cons]
      exact .inr (.inr (by omega))
    | cons x l₁' =>
      obtain ⟨rfl, e'⟩ := List.cons.inj e
      rw [extent_cons, extent_cons]
      rcases ih e' with ⟨rfl, rfl, rfl⟩ | h | h
      · exact .inl ⟨rfl, rfl, rfl⟩
      · exact .inr (.inl (by omega))
      · exact .inr (.inr (by omega))

/-- A header in the row. -/
theorem exists_of_mem_chunkAddrs {x : Nat} (hx : x ∈ chunkAddrs h a l) :
    ∃ l₁ c l₂, l = l₁ ++ c :: l₂ ∧ x = a + extent h l₁ := by
  induction l generalizing a with
  | nil => cases hx
  | cons b l ih =>
    rcases List.mem_cons.mp hx with rfl | hx
    · exact ⟨[], b, l, rfl, rfl⟩
    · obtain ⟨l₁, c, l₂, rfl, rfl⟩ := ih hx
      exact ⟨b :: l₁, c, l₂, rfl, by rw [extent_cons, Nat.add_assoc]⟩

/-! ## Merging -/

theorem extent_mergeFrom : extent h (mergeFrom h b l) = b.span h + extent h l := by
  induction l generalizing b with
  | nil => simp [mergeFrom]
  | cons c l ih =>
    rw [mergeFrom]
    split
    · simp only [ih, extent_cons, Chunk.span]
      omega
    · rw [extent_cons, ih, extent_cons]

theorem usedAddrs_mergeFrom : usedAddrs h a (mergeFrom h b l) = usedAddrs h a (b :: l) := by
  induction l generalizing a b with
  | nil => rfl
  | cons c l ih =>
    rw [mergeFrom]
    split
    · next hfree =>
      rw [ih]
      simp only [usedAddrs, hfree.1, hfree.2, if_true, Chunk.span]
      congr 1
      omega
    · simp only [usedAddrs, ih]

theorem size_mod_mergeFrom {m : Nat} (hh : h % m = 0) (hb : b.size % m = 0)
    (hl : ∀ c ∈ l, c.size % m = 0) : ∀ c ∈ mergeFrom h b l, c.size % m = 0 := by
  induction l generalizing b with
  | nil =>
    intro c hc
    rw [List.mem_singleton.mp hc]
    exact hb
  | cons c l ih =>
    have hc := hl c List.mem_cons_self
    have hl' : ∀ x ∈ l, x.size % m = 0 := fun x hx => hl x (List.mem_cons_of_mem _ hx)
    rw [mergeFrom]
    split
    · refine ih ?_ hl'
      rw [Nat.add_mod, hb, Nat.add_mod c.size, hc, hh]
      simp
    · intro x hx
      rcases List.mem_cons.mp hx with rfl | hx
      · exact hb
      · exact ih hc hl' x hx

theorem length_mergeFrom_le : (mergeFrom h b l).length ≤ l.length + 1 := by
  induction l generalizing b with
  | nil => exact le_rfl
  | cons c l ih =>
    rw [mergeFrom]
    split
    · exact ih.trans (Nat.le_succ _)
    · exact Nat.succ_le_succ ih

/-- The first chunk of a merged row is free exactly if the first one was. -/
theorem mergeFrom_eq_cons : ∃ d l', mergeFrom h b l = d :: l' ∧ d.free = b.free := by
  induction l generalizing b with
  | nil => exact ⟨b, [], rfl, rfl⟩
  | cons c l ih =>
    rw [mergeFrom]
    split
    · next hfree =>
      obtain ⟨d, l', e, hd⟩ := @ih ⟨b.size + (c.size + h), true⟩
      exact ⟨d, l', e, hd.trans hfree.1.symm⟩
    · exact ⟨b, _, rfl, rfl⟩

theorem merged_mergeFrom : Merged (mergeFrom h b l) := by
  induction l generalizing b with
  | nil => exact List.isChain_singleton b
  | cons c l ih =>
    rw [mergeFrom]
    split
    · exact ih
    · next hfree =>
      obtain ⟨d, l', e, hd⟩ := @mergeFrom_eq_cons h c l
      have hrest := @ih c
      rw [e] at hrest ⊢
      refine List.isChain_cons_cons.mpr ⟨?_, hrest⟩
      rw [hd]
      exact hfree

theorem extent_mergeAll : extent h (mergeAll h l) = extent h l := by
  cases l with
  | nil => rfl
  | cons b l => rw [mergeAll, extent_mergeFrom, extent_cons]

theorem usedAddrs_mergeAll : usedAddrs h a (mergeAll h l) = usedAddrs h a l := by
  cases l with
  | nil => rfl
  | cons b l => exact usedAddrs_mergeFrom

theorem size_mod_mergeAll {m : Nat} (hh : h % m = 0) (hl : ∀ c ∈ l, c.size % m = 0) :
    ∀ c ∈ mergeAll h l, c.size % m = 0 := by
  cases l with
  | nil => exact hl
  | cons b l =>
    exact size_mod_mergeFrom hh (hl b List.mem_cons_self) fun c hc =>
      hl c (List.mem_cons_of_mem _ hc)

theorem length_mergeAll_le : (mergeAll h l).length ≤ l.length := by
  cases l with
  | nil => exact le_rfl
  | cons b l => exact length_mergeFrom_le

theorem merged_mergeAll : Merged (mergeAll h l) := by
  cases l with
  | nil => exact List.isChain_nil
  | cons b l => exact merged_mergeFrom

/-- A merged row in which no chunk is used is empty or one chunk. -/
theorem Merged.eq_singleton (hl : Merged (b :: l)) (hused : usedAddrs h a (b :: l) = []) :
    b.free = true ∧ l = [] := by
  have hfree : b.free = true ∧ usedAddrs h (a + b.span h) l = [] := by
    rw [usedAddrs] at hused
    split at hused
    · next hf => exact ⟨hf, hused⟩
    · cases hused
  refine ⟨hfree.1, ?_⟩
  cases l with
  | nil => rfl
  | cons c l =>
    have hc : c.free = true := by
      have := hfree.2
      rw [usedAddrs] at this
      split at this
      · next hf => exact hf
      · cases this
    exact absurd ⟨hfree.1, hc⟩ (List.isChain_cons_cons.mp hl).1

/-- Any merged row may stand in the place of a free chunk. -/
theorem Merged.splice {d : List Chunk} (hl : Merged (l ++ b :: l')) (hb : b.free = true)
    (hd : Merged d) : Merged (l ++ (d ++ l')) := by
  obtain ⟨hleft, hright, hb₁⟩ := List.isChain_append.mp hl
  obtain ⟨hb₂, hright⟩ := List.isChain_cons.mp hright
  have hbefore : ∀ x ∈ l.getLast?, x.free = false := by
    intro x hx
    have := hb₁ x hx b rfl
    rw [hb] at this
    simpa using this
  have hafter : ∀ x ∈ l'.head?, x.free = false := by
    intro x hx
    have := hb₂ x hx
    rw [hb] at this
    simpa using this
  refine List.isChain_append.mpr ⟨hleft, List.isChain_append.mpr ⟨hd, hright, ?_⟩, ?_⟩
  · intro x _ y hy
    rw [hafter y hy]
    nofun
  · intro x hx y _
    rw [hbefore x hx]
    nofun

theorem Merged.snoc (hl : Merged (l ++ [b])) (hb : b.free = false) : Merged (l ++ [b, c]) := by
  have : l ++ [b, c] = (l ++ [b]) ++ [c] := by rw [List.append_assoc]; rfl
  rw [this]
  refine List.isChain_append.mpr ⟨hl, List.isChain_singleton c, fun x hx y _ => ?_⟩
  rw [List.getLast?_append, List.getLast?_singleton] at hx
  obtain rfl : b = x := by simpa using hx
  rw [hb]
  nofun

end Plos
