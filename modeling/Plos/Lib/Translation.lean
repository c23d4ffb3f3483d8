import Mathlib.Logic.Function.Basic

/-! Memory that is seen through a partial translation of addresses.

Where there is no translation, a default is seen. So pages that are mapped when they are first
touched do not show, as long as they hold the default then (`viewThrough_extend`), and an injective
translation makes a store behind it a store in front of it (`viewThrough_update`). -/

namespace Plos

universe u v w

variable {α : Type u} {β : Type v} {γ : Type w} {d : γ} {tr tr' : α → Option β} {mem mem' : β → γ}
  {x y : α} {p : β}

def viewThrough (d : γ) (tr : α → Option β) (mem : β → γ) (x : α) : γ := (tr x).elim d mem

theorem viewThrough_some (h : tr x = some p) :
    viewThrough d tr mem x = mem p := by rw [viewThrough, h]; rfl

theorem viewThrough_none (h : tr x = none) :
    viewThrough d tr mem x = d := by rw [viewThrough, h]; rfl

theorem viewThrough_congr (htr : tr' x = tr x) (hmem : ∀ p, tr x = some p → mem' p = mem p) :
    viewThrough d tr' mem' x = viewThrough d tr mem x := by
  cases h : tr x with
  | none => rw [viewThrough_none h, viewThrough_none (htr.trans h)]
  | some p => rw [viewThrough_some h, viewThrough_some (htr.trans h), hmem p h]

/-- A new translation leads to the default. -/
theorem viewThrough_extend (h : tr x = none) (h' : tr' x = some p) (hmem : mem' p = d) :
    viewThrough d tr' mem' x = viewThrough d tr mem x := by
  rw [viewThrough_none h, viewThrough_some h', hmem]

theorem viewThrough_update [DecidableEq α] [DecidableEq β] (hx : tr x = some p)
    (hinj : tr y = some p → y = x) (c : γ) :
    viewThrough d tr (Function.update mem p c) y =
      Function.update (viewThrough d tr mem) x c y := by
  by_cases hy : y = x
  · rw [hy, Function.update_self, viewThrough_some hx, Function.update_self]
  · rw [Function.update_of_ne hy]
    refine viewThrough_congr rfl fun q hq => Function.update_of_ne ?_ _ _
    rintro rfl
    exact hy (hinj hq)

end Plos
