import Plos.Libk.Nanoprintf.Convert

/-! A whole format string: `npf_vpprintf` prints the text that the format stands for. -/

namespace Plos

theorem Directive.resolve_opts {d : Directive} {args args' : VaList} {r : Resolved}
    (h : d.resolve args = some (r, args')) :
    (r.given = true → d.prec.opt ≠ .none) ∧ (d.width.opt = .none → r.width = 0) := by
  obtain ⟨⟨w, wargs⟩, hw, hrest⟩ := Option.bind_eq_some_iff.mp h
  obtain ⟨⟨p, pargs⟩, hp, heq⟩ := Option.map_eq_some_iff.mp hrest
  obtain ⟨rfl, rfl⟩ := Prod.mk.inj heq
  exact ⟨Precision.opt_ne_none hp, Width.eq_zero_of_opt hw⟩

theorem npfPutDirective_iff {mem : Nat → Byte} {σ : Type} (pc : σ → Byte → σ) (d : Directive)
    (args args'' : VaList) (p p' : NpfCntPutcCtx σ) :
    (∃ fs', npfPutDirective pc mem d.spec args p = some (fs', args'', p')) ↔
      ∃ r args' zero sign body, d.resolve args = some (r, args') ∧
        r.Converts mem args' zero sign body args'' ∧
        p' = npfEmit pc (r.layout zero sign body) p := by
  rw [npfPutDirective, npfResolve_eq]
  constructor
  · rintro ⟨fs', h⟩
    cases hr : d.resolve args with
    | none =>
      rw [hr] at h
      cases h
    | some x =>
      obtain ⟨r, args'⟩ := x
      obtain ⟨hprec, hwidth⟩ := Directive.resolve_opts hr
      rw [hr] at h
      simp only [Option.map_some, Option.bind_eq_bind, Option.bind_some] at h
      obtain ⟨⟨cv, args₂⟩, hcv, heq⟩ := Option.bind_eq_some_iff.mp h
      cases heq
      obtain ⟨zero, sign, body, H⟩ := exists_converts hprec hcv
      obtain ⟨cv', hcv', hzero, hsign, hpayload⟩ := H.converted d.width.opt hprec
      obtain rfl : cv = cv' := by
        rw [hcv'] at hcv
        cases hcv
        rfl
      refine ⟨r, args', zero, sign, body, rfl, H, ?_⟩
      rw [npfPutField_eq hprec hwidth hpayload, hzero, hsign]
  · rintro ⟨r, args', zero, sign, body, hr, H, rfl⟩
    obtain ⟨hprec, hwidth⟩ := Directive.resolve_opts hr
    obtain ⟨cv, hcv, hzero, hsign, hpayload⟩ := H.converted d.width.opt hprec
    refine ⟨r.spec d.width.opt d.prec.opt, ?_⟩
    rw [hr]
    simp only [Option.map_some, Option.bind_eq_bind, Option.bind_some, hcv]
    rw [npfPutField_eq hprec hwidth hpayload, hzero, hsign]

/-- A directive has at least its percent sign and its letter. -/
theorem Directive.length_text (d : Directive) : 2 ≤ d.text.length := by
  simp only [text, List.length_cons, List.length_append, List.length_nil]
  omega

theorem npfParseFormatSpec_text (fs : NpfFormatSpec) (d : Directive) (rest : List Byte) :
    npfParseFormatSpec fs (d.text ++ rest) = some (d.spec, rest) :=
  (npfParseFormatSpec_iff fs _ d.spec rest).mpr ⟨d, rfl, rfl⟩

theorem npfParseFormatSpec_none_iff (fs : NpfFormatSpec) (cur : List Byte) :
    npfParseFormatSpec fs (ch '%' :: cur) = none ↔ ∀ d : Directive, ∀ rest,
      ch '%' :: cur ≠ d.text ++ rest := by
  constructor
  · intro h d rest htext
    rw [htext, npfParseFormatSpec_text] at h
    cases h
  · intro hno
    cases h : npfParseFormatSpec fs (ch '%' :: cur) with
    | none => rfl
    | some x =>
      obtain ⟨d, htext, -⟩ := (npfParseFormatSpec_iff fs cur x.1 x.2).mp h
      exact absurd htext (hno d x.2)

section
variable {mem : Nat → Byte} {σ : Type} {pc : σ → Byte → σ} {format text : List Byte} {args : VaList}

/-- A text that the format stands for is printed. -/
theorem Renders.loop (H : Renders mem format args text) {k : Nat} (hk : format.length ≤ k)
    (fs : NpfFormatSpec) (p : NpfCntPutcCtx σ) :
    npfVpprintfLoop pc mem k fs format args p = some (npfEmit pc text p) := by
  induction H generalizing k fs p with
  | nil => cases k <;> rfl
  | @plain c format args text hc _ ih =>
    obtain ⟨k, rfl⟩ : ∃ j, k = j + 1 := ⟨k - 1, by rw [List.length_cons] at hk; omega⟩
    rw [npfVpprintfLoop, if_pos hc]
    exact ih (Nat.le_of_succ_le_succ hk) fs (npfPutcCnt pc p c)
  | @stray format args text hno _ ih =>
    obtain ⟨k, rfl⟩ : ∃ j, k = j + 1 := ⟨k - 1, by rw [List.length_cons] at hk; omega⟩
    rw [npfVpprintfLoop, if_neg (not_not_intro rfl),
      (npfParseFormatSpec_none_iff fs format).mpr hno]
    exact ih (Nat.le_of_succ_le_succ hk) fs (npfPutcCnt pc p (ch '%'))
  | @directive d r format args args' args'' zero sign body text hr hconv _ ih =>
    have hlen := d.length_text
    rw [List.length_append] at hk
    obtain ⟨k, rfl⟩ : ∃ j, k = j + 1 := ⟨k - 1, by omega⟩
    obtain ⟨fs', hput⟩ :=
      (npfPutDirective_iff pc d args args'' p _).mpr ⟨r, args', zero, sign, body, hr, hconv, rfl⟩
    have hparse := npfParseFormatSpec_text fs d format
    obtain ⟨t, ht⟩ : ∃ t, d.text = ch '%' :: t := ⟨_, rfl⟩
    rw [ht, List.cons_append] at hparse ⊢
    rw [npfVpprintfLoop, if_neg (not_not_intro rfl), hparse]
    simp only [hput, Option.bind_eq_bind, Option.bind_some, npfEmit_append]
    exact ih (by omega) fs' _

/-- Whatever is printed is a text that the format stands for. -/
theorem exists_renders {k : Nat} {fs : NpfFormatSpec} {p p' : NpfCntPutcCtx σ}
    (h : npfVpprintfLoop pc mem k fs format args p = some p') :
    ∃ text, Renders mem format args text ∧ p' = npfEmit pc text p := by
  induction k generalizing format fs args p with
  | zero =>
    cases format with
    | nil =>
      cases h
      exact ⟨[], .nil, rfl⟩
    | cons c cur => cases h
  | succ k ih =>
    cases format with
    | nil =>
      cases h
      exact ⟨[], .nil, rfl⟩
    | cons c cur =>
      rw [npfVpprintfLoop] at h
      by_cases hc : c = ch '%'
      · subst hc
        rw [if_neg (not_not_intro rfl)] at h
        cases hparse : npfParseFormatSpec fs (ch '%' :: cur) with
        | none =>
          rw [hparse] at h
          obtain ⟨text, H, rfl⟩ := ih h
          exact ⟨ch '%' :: text, .stray ((npfParseFormatSpec_none_iff fs cur).mp hparse) H, rfl⟩
        | some x =>
          obtain ⟨fs₁, rest⟩ := x
          obtain ⟨d, htext, rfl⟩ := (npfParseFormatSpec_iff fs cur fs₁ rest).mp hparse
          rw [hparse] at h
          obtain ⟨⟨fs', args'', p₁⟩, hput, hloop⟩ := Option.bind_eq_some_iff.mp h
          obtain ⟨r, args', zero, sign, body, hr, hconv, rfl⟩ :=
            (npfPutDirective_iff pc d args args'' p p₁).mp ⟨fs', hput⟩
          obtain ⟨text, H, rfl⟩ := ih hloop
          refine ⟨r.layout zero sign body ++ text, ?_, npfEmit_append.symm⟩
          rw [htext]
          exact .directive hr hconv H
      · rw [if_pos hc] at h
        obtain ⟨text, H, rfl⟩ := ih h
        exact ⟨c :: text, .plain hc H, rfl⟩

end

theorem Renders.npfVpprintf {mem : Nat → Byte} {σ : Type} {format text : List Byte} {args : VaList}
    (H : Renders mem format args text) (pc : σ → Byte → σ) (fs : NpfFormatSpec) (ctx : σ) :
    Plos.npfVpprintf pc mem fs ctx format args = some (text.foldl pc ctx, int32 text.length) := by
  rw [Plos.npfVpprintf, H.loop (Nat.le_refl _), Option.map_some, npfEmit_start]

/-- The result of a run that ends is a text of the format, sent through the callback. -/
theorem exists_renders_npfVpprintf {mem : Nat → Byte} {σ : Type} {pc : σ → Byte → σ}
    {fs : NpfFormatSpec} {ctx x : σ} {format : List Byte} {args : VaList} {n : Int}
    (h : npfVpprintf pc mem fs ctx format args = some (x, n)) :
    ∃ text, Renders mem format args text ∧ x = text.foldl pc ctx ∧ n = int32 text.length := by
  obtain ⟨p, hloop, heq⟩ := Option.map_eq_some_iff.mp h
  obtain ⟨text, H, rfl⟩ := exists_renders hloop
  rw [npfEmit_start] at heq
  obtain ⟨rfl, rfl⟩ := Prod.mk.inj heq
  exact ⟨text, H, rfl, rfl⟩

/-- Printing at the end of a list. -/
theorem foldl_snoc (text s : List Byte) : text.foldl (fun s c => s ++ [c]) s = s ++ text := by
  induction text generalizing s with
  | nil => exact (List.append_nil s).symm
  | cons c text ih => rw [List.foldl_cons, ih, List.append_assoc, List.singleton_append]

/-- A format stands for one text, though the directives in it are found by looking for any that
fits. -/
theorem Renders.unique {mem : Nat → Byte} {format text text' : List Byte} {args : VaList}
    (H : Renders mem format args text) (H' : Renders mem format args text') : text = text' := by
  have hrun := H.npfVpprintf (fun s c => s ++ [c]) (Directive.spec ⟨[], .none, .none, .none, .d⟩) []
  rw [H'.npfVpprintf, foldl_snoc, foldl_snoc] at hrun
  exact (Prod.mk.inj (Option.some.inj hrun)).1.symm

/-- Printing is total on what has a meaning and prints that: a run ends exactly if the format stands
for a text with these arguments, and then every character of the text has gone through the callback,
in order, and the result is their number. -/
theorem npfVpprintf_iff {σ : Type} (mem : Nat → Byte) (pc : σ → Byte → σ) (fs : NpfFormatSpec)
    (ctx : σ) (format : List Byte) (args : VaList) (x : σ) (n : Int) :
    npfVpprintf pc mem fs ctx format args = some (x, n) ↔
      ∃ text, Renders mem format args text ∧ x = text.foldl pc ctx ∧ n = int32 text.length := by
  constructor
  · exact exists_renders_npfVpprintf
  · rintro ⟨text, H, rfl, rfl⟩
    exact H.npfVpprintf pc fs ctx

end Plos
