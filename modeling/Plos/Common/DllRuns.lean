import Plos.Common.Dll
import Plos.Lib.Run

/-! Several lists over one pool of nodes.

The abstract state gives each head the sequence of the nodes of its list, and a call is an operation
on these sequences: a new node goes in front, at the end or next to a node that is on a list, and a
node is taken off. The nodes that are on no list keep whatever links they had. Every run of calls on
the store refines the run on the sequences. -/

namespace Plos

universe u

inductive DllOp (N : Type u) where
  | addAfter (head new : N)
  | addBefore (head new : N)
  | delete (node : N)
  deriving DecidableEq, Repr

variable {N : Type u} [DecidableEq N]

def dllStep (m : DllStore N) : DllOp N → DllStore N
  | .addAfter head new => dllAddAfter m head new
  | .addBefore head new => dllAddBefore m head new
  | .delete node => dllDelete m node

/-! ## Sequences -/

/-- The list with `w` in place of `a`. -/
def spliceAt (a : N) (w l : List N) : List N := l.flatMap fun x => if x = a then w else [x]

section
variable {a : N} {w l r : List N}

theorem spliceAt_of_not_mem (h : a ∉ l) : spliceAt a w l = l := by
  induction l with
  | nil => rfl
  | cons x l ih =>
    obtain ⟨hx, hl⟩ := not_or.mp (List.mem_cons.not.mp h)
    have hrest := ih hl
    rw [spliceAt] at hrest ⊢
    rw [List.flatMap_cons, if_neg (Ne.symm hx), hrest, List.singleton_append]

theorem spliceAt_append (h : (l ++ a :: r).Nodup) : spliceAt a w (l ++ a :: r) = l ++ (w ++ r) := by
  obtain ⟨-, hr, hdis⟩ := List.nodup_append.mp h
  have hl := @spliceAt_of_not_mem _ _ a w l fun ha => hdis a ha a List.mem_cons_self rfl
  have hr := @spliceAt_of_not_mem _ _ a w r (List.nodup_cons.mp hr).1
  rw [spliceAt] at hl hr ⊢
  rw [List.flatMap_append, List.flatMap_cons, if_pos rfl, hl, hr]

end

/-- The node is a head or on one of the lists. -/
def OnList (heads : List N) (lists : N → List N) (a : N) : Prop := ∃ h ∈ heads, a ∈ h :: lists h

instance (heads : List N) (lists : N → List N) (a : N) : Decidable (OnList heads lists a) :=
  inferInstanceAs (Decidable (∃ h ∈ heads, a ∈ h :: lists h))

/-- What a call means for the sequences. A node is added next to one that is on a list, and must not
be on one itself; a node that is taken off is on a list and not its head. -/
def listsStep (heads : List N) (lists : N → List N) : DllOp N → Option (N → List N)
  | .addAfter head new =>
    if OnList heads lists head ∧ ¬ OnList heads lists new then
      some (if head ∈ heads then Function.update lists head (new :: lists head)
        else fun h => spliceAt head [head, new] (lists h))
    else none
  | .addBefore head new =>
    if OnList heads lists head ∧ ¬ OnList heads lists new then
      some (if head ∈ heads then Function.update lists head (lists head ++ [new])
        else fun h => spliceAt head [new, head] (lists h))
    else none
  | .delete node =>
    if ∃ h ∈ heads, node ∈ lists h then some fun h => (lists h).erase node else none

/-! ## Refinement -/

/-- The store holds the lists, and no node is on two of them. -/
structure DllInv (heads : List N) (m : DllStore N) (lists : N → List N) : Prop where
  ring : ∀ h ∈ heads, Ring m h (lists h)
  apart : ∀ h ∈ heads, ∀ k ∈ heads, h ≠ k → (h :: lists h).Disjoint (k :: lists k)

namespace DllInv

variable {heads : List N} {m m' : DllStore N} {lists lists' : N → List N} {a n h : N}

theorem init (m : DllStore N) : DllInv heads (heads.foldl dllInit m) fun _ => [] := by
  have hkeep {h k : N} {m : DllStore N} (hm : Ring m h []) : Ring (dllInit m k) h [] := by
    by_cases e : h = k
    · rw [e]
      exact .init
    · refine hm.congr fun x hx => Ring.init_frame ?_
      rw [List.mem_singleton.mp hx]
      exact e
  have hrings : ∀ (l : List N) (m : DllStore N) {h : N}, h ∈ l ∨ Ring m h [] →
      Ring (l.foldl dllInit m) h [] := by
    intro l
    induction l with
    | nil => exact fun m h hh => hh.resolve_left List.not_mem_nil
    | cons k l ih =>
      intro m h hh
      refine ih (dllInit m k) ?_
      rcases hh with hh | hh
      · rcases List.mem_cons.mp hh with rfl | hh
        · exact .inr .init
        · exact .inl hh
      · exact .inr (hkeep hh)
  refine ⟨fun h hh => hrings heads m (.inl hh), fun h _ k _ hne => ?_⟩
  simpa using Ne.symm hne

/-- A call works on one list: it may bring in nodes that were on none, and the nodes of the other
lists keep their links. -/
theorem change (H : DllInv heads m lists) (hh : h ∈ heads) (hring : Ring m' h (lists' h))
    (hnew : ∀ x ∈ lists' h, x ∈ lists h ∨ ¬ OnList heads lists x)
    (hframe : ∀ x, OnList heads lists x → x ∉ h :: lists h → m' x = m x)
    (hothers : ∀ k ∈ heads, k ≠ h → lists' k = lists k) : DllInv heads m' lists' := by
  have hout {k x : N} (hk : k ∈ heads) (hne : k ≠ h) (hx : x ∈ k :: lists k) :
      x ∉ h :: lists' h := by
    intro hmem
    rcases List.mem_cons.mp hmem with rfl | hmem
    · exact H.apart k hk x hh hne hx List.mem_cons_self
    · rcases hnew x hmem with hold | hfree
      · exact H.apart k hk h hh hne hx (List.mem_cons_of_mem _ hold)
      · exact hfree ⟨k, hk, hx⟩
  constructor
  · intro k hk
    by_cases e : k = h
    · rw [e]
      exact hring
    · rw [hothers k hk e]
      refine (H.ring k hk).congr fun x hx => hframe x ⟨k, hk, hx⟩ ?_
      exact fun hmem => H.apart k hk h hh e hx hmem
  · intro j hj k hk hne x hxj hxk
    by_cases ej : j = h
    · subst ej
      rw [hothers k hk (Ne.symm hne)] at hxk
      exact hout hk (Ne.symm hne) hxk hxj
    · rw [hothers j hj ej] at hxj
      by_cases ek : k = h
      · subst ek
        exact hout hj ej hxj hxk
      · rw [hothers k hk ek] at hxk
        exact H.apart j hj k hk hne hxj hxk

/-- What the two functions that add a node next to `a` have in common: on the list of a head the
sequence becomes `ends`, and at another node `w` takes the place of the node. -/
theorem add {w : List N} {ends : List N → List N} (H : DllInv heads m lists)
    (ha : OnList heads lists a) (hn : ¬ OnList heads lists n)
    (hframe : ∀ {xs x}, Ring m a xs → x ∉ a :: xs → x ≠ n → m' x = m x)
    (hends : ∀ {xs}, Ring m a xs → n ∉ a :: xs → Ring m' a (ends xs))
    (hmid : ∀ {h l r}, Ring m h (l ++ a :: r) → n ∉ h :: (l ++ a :: r) → Ring m' h (l ++ (w ++ r)))
    (hmem : ∀ {xs x}, x ∈ ends xs → x ∈ xs ∨ x = n) (hw : ∀ x ∈ w, x = a ∨ x = n) :
    DllInv heads m' (if a ∈ heads then Function.update lists a (ends (lists a))
      else fun h => spliceAt a w (lists h)) := by
  obtain ⟨h, hh, hah⟩ := ha
  have hfresh : n ∉ h :: lists h := fun hmem => hn ⟨h, hh, hmem⟩
  have hkeep : ∀ x, OnList heads lists x → x ∉ h :: lists h → m' x = m x := by
    intro x hx hout
    obtain ⟨ys, hys, hiff⟩ := (H.ring h hh).exists_rotate hah
    refine hframe hys ((hiff x).not.mpr hout) fun e => hn ?_
    rwa [← e]
  by_cases hhead : a ∈ heads
  · obtain rfl : h = a := by
      by_contra hne
      exact H.apart h hh a hhead hne hah List.mem_cons_self
    rw [if_pos hhead]
    refine H.change hh ?_ (fun x hx => ?_) hkeep fun k _ hne => Function.update_of_ne hne _ _
    · rw [Function.update_self]
      exact hends (H.ring h hh) hfresh
    · rw [Function.update_self] at hx
      rcases hmem hx with hx | rfl
      · exact .inl hx
      · exact .inr hn
  · rw [if_neg hhead]
    have hal : a ∈ lists h := by
      rcases List.mem_cons.mp hah with rfl | hal
      · exact absurd hh hhead
      · exact hal
    obtain ⟨l, r, hsplit⟩ := List.append_of_mem hal
    have hsplice : spliceAt a w (lists h) = l ++ (w ++ r) := by
      have hnd := (List.nodup_cons.mp (H.ring h hh).nodup).2
      rw [hsplit] at hnd ⊢
      exact spliceAt_append hnd
    refine H.change hh ?_ (fun x hx => ?_) hkeep fun k hk hne => ?_
    · rw [hsplice]
      have hring := H.ring h hh
      rw [hsplit] at hring hfresh
      exact hmid hring hfresh
    · rw [hsplice] at hx
      rw [hsplit]
      rcases List.mem_append.mp hx with hx | hx
      · exact .inl (List.mem_append_left _ hx)
      · rcases List.mem_append.mp hx with hx | hx
        · rcases hw x hx with rfl | rfl
          · exact .inl (List.mem_append_right _ List.mem_cons_self)
          · exact .inr hn
        · exact .inl (List.mem_append_right _ (List.mem_cons_of_mem _ hx))
    · refine spliceAt_of_not_mem fun hak => H.apart k hk h hh hne (List.mem_cons_of_mem _ hak) hah

theorem delete (H : DllInv heads m lists) (hh : h ∈ heads) (hn : n ∈ lists h) :
    DllInv heads (dllDelete m n) fun h => (lists h).erase n := by
  refine H.change hh ((H.ring h hh).delete hn) (fun x hx => .inl (List.mem_of_mem_erase hx))
    (fun x _ hout => ?_) fun k hk hne => ?_
  · exact (H.ring h hh).delete_frame hn hout
  · refine List.erase_of_not_mem fun hnk => ?_
    exact H.apart k hk h hh hne (List.mem_cons_of_mem _ hnk) (List.mem_cons_of_mem _ hn)

theorem step {op : DllOp N} (H : DllInv heads m lists)
    (h : listsStep heads lists op = some lists') :
    DllInv heads (dllStep m op) lists' := by
  cases op with
  | addAfter head new =>
    obtain ⟨⟨hhead, hnew⟩, h⟩ := Option.ite_none_right_eq_some.mp h
    cases h
    refine H.add hhead hnew Ring.addAfter_frame Ring.addAfter Ring.addAfter_mid (fun hx => ?_)
      (fun x hx => ?_)
    · exact (List.mem_cons.mp hx).symm
    · simpa using hx
  | addBefore head new =>
    obtain ⟨⟨hhead, hnew⟩, h⟩ := Option.ite_none_right_eq_some.mp h
    cases h
    refine H.add hhead hnew Ring.addBefore_frame Ring.addBefore Ring.addBefore_mid (fun hx => ?_)
      (fun x hx => ?_)
    · rwa [List.mem_append, List.mem_singleton] at hx
    · simpa [or_comm] using hx
  | delete node =>
    obtain ⟨⟨k, hk, hnode⟩, h⟩ := Option.ite_none_right_eq_some.mp h
    cases h
    exact H.delete hk hnode

end DllInv

/-- What the store shows of the lists: from each head, `next` goes through the sequence and back to
the head, and `prev` through its reverse; no node is on two lists; and `dll_empty` tells the empty
ones. -/
structure DllShows (heads : List N) (m : DllStore N) (lists : N → List N) : Prop where
  nodup : ∀ h ∈ heads, (h :: lists h).Nodup
  next : ∀ h ∈ heads, Path (fun a => (m a).next) h (lists h) h
  prev : ∀ h ∈ heads, Path (fun a => (m a).prev) h (lists h).reverse h
  apart : ∀ h ∈ heads, ∀ k ∈ heads, h ≠ k → (h :: lists h).Disjoint (k :: lists k)
  empty : ∀ h ∈ heads, dllEmpty m h = true ↔ lists h = []

theorem DllInv.shows {heads : List N} {m : DllStore N} {lists : N → List N}
    (H : DllInv heads m lists) : DllShows heads m lists where
  nodup h hh := (H.ring h hh).nodup
  next h hh := (H.ring h hh).path
  prev h hh := (H.ring h hh).prev_path
  apart := H.apart
  empty h hh := (H.ring h hh).empty_iff

/-- Whatever links the pool had before the heads were initialised, and whatever stale links a node
has that is added again. -/
theorem dllRun_refines {heads : List N} {ops : List (DllOp N)} {lists : N → List N} (m : DllStore N)
    (h : runFrom (listsStep heads) (fun _ => []) ops = some lists) :
    DllShows heads (ops.foldl dllStep (heads.foldl dllInit m)) lists := by
  have hstep : ∀ lists m op lists', DllInv heads m lists → True →
      listsStep heads lists op = some lists' →
      DllInv heads (dllStep m op) lists' := fun _ _ _ _ H _ hs => H.step hs
  exact DllInv.shows (runFrom_simulation hstep (.init m) (fun _ _ => trivial) h)

/-- Two lists; node 5 is taken off the first one and goes to the second one. -/
def movedNode : List (DllOp Nat) :=
  [.addAfter 0 5, .addBefore 0 6, .addAfter 1 7, .addBefore 6 8, .delete 5, .addAfter 7 5]

theorem dllRun_refines_movedNode :
    ∃ lists, runFrom (listsStep [0, 1]) (fun _ => []) movedNode = some lists ∧
    lists 0 = [8, 6] ∧ lists 1 = [7, 5] ∧
    DllShows [0, 1] (movedNode.foldl dllStep ([0, 1].foldl dllInit ⟨fun _ => ⟨9, 9⟩⟩)) lists := by
  have hrun :
      ((runFrom (listsStep [0, 1]) (fun _ => []) movedNode).map fun lists => (lists 0, lists 1)) =
        some ([8, 6], [7, 5]) := by decide
  obtain ⟨lists, hlists, heq⟩ := Option.map_eq_some_iff.mp hrun
  obtain ⟨h₀, h₁⟩ := Prod.mk.inj heq
  exact ⟨lists, hlists, h₀, h₁, dllRun_refines _ hlists⟩

end Plos
