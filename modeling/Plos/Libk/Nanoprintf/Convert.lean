import Plos.Libk.Nanoprintf.Render

/-! One directive of `npf_vpprintf`: its asterisks (`npfResolve_eq`), the conversion of its argument
(`Resolved.Converts.converted`, `exists_converts`) and the field around it (`npfPutField_eq`).

The output is compared as the sequence of characters that go through the callback (`npfEmit`). After
the adjustments the variable `fs` holds the resolved directive (`Resolved.spec`), and what the
conversion leaves in its variables is described by what it prints as (`Payload`). -/

namespace Plos

/-! ## Characters one by one -/

section
variable {σ : Type} {pc : σ → Byte → σ} {p : NpfCntPutcCtx σ} {c : Byte} {s : Nat → Byte}
  {text text' cbuf : List Byte} {k i : Nat}

/-- Prints all the characters of a text. -/
def npfEmit (pc : σ → Byte → σ) (text : List Byte) (p : NpfCntPutcCtx σ) : NpfCntPutcCtx σ :=
  text.foldl (npfPutcCnt pc) p

theorem npfEmit_append : npfEmit pc (text ++ text') p = npfEmit pc text' (npfEmit pc text p) :=
  List.foldl_append

theorem npfEmit_start (text : List Byte) (x : σ) :
    npfEmit pc text ⟨x, 0⟩ = ⟨text.foldl pc x, int32 text.length⟩ := by
  have hcount : ∀ (text : List Byte) (x : σ) (n : Nat),
      npfEmit pc text ⟨x, int32 n⟩ = ⟨text.foldl pc x, int32 (n + text.length : Nat)⟩ := by
    intro text
    induction text with
    | nil =>
      exact fun x n => by
        rw [npfEmit, List.foldl_nil, List.foldl_nil, List.length_nil, Nat.add_zero]
    | cons c text ih =>
      intro x n
      have hnext : npfPutcCnt pc ⟨x, int32 n⟩ c = ⟨pc x c, int32 (n + 1 : Nat)⟩ := by
        rw [npfPutcCnt, int32_add, Nat.cast_succ]
      rw [npfEmit, List.foldl_cons, hnext]
      refine (ih _ _).trans ?_
      rw [List.foldl_cons, List.length_cons, Nat.add_assoc, Nat.add_comm 1]
  have h := hcount text x 0
  rwa [Nat.zero_add, int32_zero] at h

theorem npfPutcTimes_eq : npfPutcTimes pc c k p = npfEmit pc (List.replicate k c) p := by
  induction k generalizing p with
  | zero => rfl
  | succ k ih => exact ih

theorem npfPutString_eq : npfPutString pc s k i p = npfEmit pc (bytesAt s i k) p := by
  induction k generalizing p i with
  | zero => rfl
  | succ k ih =>
    rw [npfPutString, ih, Nat.add_comm k 1, bytesAt_append]
    rfl

theorem npfPutReversed_eq (h : k ≤ cbuf.length) :
    npfPutReversed pc cbuf k p = npfEmit pc (cbuf.take k).reverse p := by
  induction k generalizing p with
  | zero => rfl
  | succ k ih =>
    rw [npfPutReversed, ih (by omega), List.take_succ_eq_append_getElem (by omega),
      List.reverse_append, List.getD_eq_getElem _ _ (by omega)]
    rfl

theorem npfPutBits_eq (n : BitVec 64) :
    npfPutBits pc n k p =
      npfEmit pc (((List.range k).map fun i => numeralDigit false (n.toNat / 2 ^ i % 2)).reverse)
        p := by
  induction k generalizing p with
  | zero => rfl
  | succ k ih =>
    have hdigit : ch '0' + ((n >>> k) &&& 1).setWidth 8 =
        numeralDigit false (n.toNat / 2 ^ k % 2) := by
      have hbit : ((n >>> k) &&& 1).toNat = n.toNat / 2 ^ k % 2 := by
        rw [BitVec.toNat_and, BitVec.toNat_ushiftRight, Nat.shiftRight_eq_div_pow]
        exact Nat.and_one_is_mod _
      rw [← hbit]
      generalize hb : (n >>> k) &&& 1 = b
      have hb' : b.toNat = 0 ∨ b.toNat = 1 := by
        rw [← hb, hbit]
        omega
      rcases hb' with h | h
      · rw [BitVec.eq_of_toNat_eq (y := 0) h]
        decide
      · rw [BitVec.eq_of_toNat_eq (y := 1) h]
        decide
    rw [npfPutBits, ih, hdigit, List.range_succ, List.map_append, List.reverse_append]
    rfl

end

/-! ## Digits and strings -/

/-- `case_adjust` -/
def caseAdj (upper : Bool) : Byte := if upper then 0 else ch 'a' - ch 'A'

theorem numeralDigit_eq : ∀ (upper : Bool) (d : Fin 16),
    (if d.val < 10 then ch '0' else ch 'A' - 10 + caseAdj upper) + BitVec.ofNat 8 d =
      numeralDigit upper d := by
  decide

section
variable {base k n i : Nat} {upper : Bool}

theorem npfUtoaRevFrom_eq (hbase : 2 ≤ base) (hbase' : base ≤ 16) (h : n < base ^ (k + 1)) :
    npfUtoaRevFrom base (caseAdj upper) (k + 1) n =
      some ((numeralRev base n).map (numeralDigit upper)) := by
  induction k generalizing n with
  | zero =>
    rw [Nat.zero_add, Nat.pow_one] at h
    have hdigit :=
      numeralDigit_eq upper ⟨n % base, Nat.lt_of_lt_of_le (Nat.mod_lt n (by omega)) hbase'⟩
    rw [npfUtoaRevFrom, numeralRev_eq hbase, if_pos (Nat.div_eq_of_lt h),
      if_pos (Nat.div_eq_of_lt h)]
    exact congrArg (fun c => some [c]) hdigit
  | succ k ih =>
    have hdigit :=
      numeralDigit_eq upper ⟨n % base, Nat.lt_of_lt_of_le (Nat.mod_lt n (by omega)) hbase'⟩
    rw [npfUtoaRevFrom, numeralRev_eq hbase]
    split
    · exact congrArg (fun c => some [c]) hdigit
    · rw [ih (Nat.div_lt_of_lt_mul (by rwa [Nat.pow_succ, Nat.mul_comm] at h))]
      exact congrArg (fun c => some (c :: (numeralRev base (n / base)).map (numeralDigit upper)))
        hdigit

theorem npfUtoaRev_eq (val : BitVec 64) (hbase : 2 ≤ base) (hbase' : base ≤ 16) :
    npfUtoaRev val base (caseAdj upper) =
      some ((numeralRev base val.toNat).map (numeralDigit upper)) :=
  npfUtoaRevFrom_eq hbase hbase' (Nat.lt_of_lt_of_le val.isLt (Nat.pow_le_pow_left hbase 64))

theorem length_numeralRev_two (h : n ≠ 0) : (numeralRev 2 n).length = n.log2 + 1 := by
  rw [numeralRev, if_neg h, Nat.length_digits 2 n (by decide) h, Nat.log2_eq_log_two]

theorem npfBinLen_eq (val : BitVec 64) : npfBinLen val = (numeralRev 2 val.toNat).length := by
  unfold npfBinLen
  split
  · next h =>
    rw [h]
    rfl
  · next h =>
    have hne : val.toNat ≠ 0 := fun h' => h (BitVec.eq_of_toNat_eq h')
    have hlog : val.toNat.log2 < 64 := (Nat.log2_lt hne).mpr val.isLt
    rw [length_numeralRev_two hne, builtinClzll]
    omega

theorem range_map_bits (n : Nat) :
    ((List.range (numeralRev 2 n).length).map fun i => n / 2 ^ i % 2) = numeralRev 2 n := by
  refine List.ext_getElem (by rw [List.length_map, List.length_range]) fun i h₁ h₂ => ?_
  rw [List.getElem_map, List.getElem_range]
  by_cases hn : n = 0
  · subst hn
    have hi : i = 0 := by simpa [numeralRev] using h₂
    subst hi
    rfl
  · have hdigits : numeralRev 2 n = Nat.digits 2 n := if_neg hn
    simp only [hdigits]
    rw [← Nat.getD_digits n i (by decide), List.getD_eq_getElem _ _ (by rwa [← hdigits])]

theorem npfStringLenFrom_iff {fs : NpfFormatSpec} {s : Nat → Byte} :
    npfStringLenFrom fs s k i = some n ↔
    i ≤ n ∧ n < i + k ∧ (∀ j, i ≤ j → j < n → npfStringGoes fs s j) ∧ ¬ npfStringGoes fs s n := by
  induction k generalizing i with
  | zero =>
    rw [npfStringLenFrom]
    constructor
    · intro h
      cases h
    · rintro ⟨h₁, h₂, -⟩
      omega
  | succ k ih =>
    rw [npfStringLenFrom]
    split
    · next hgo =>
      rw [ih]
      constructor
      · rintro ⟨h₁, h₂, hgoes, hstop⟩
        refine ⟨by omega, by omega, fun j hj hj' => ?_, hstop⟩
        rcases Nat.eq_or_lt_of_le hj with rfl | hj
        · exact hgo
        · exact hgoes j hj hj'
      · rintro ⟨h₁, h₂, hgoes, hstop⟩
        have hne : i ≠ n := by
          rintro rfl
          exact hstop hgo
        exact ⟨by omega, by omega, fun j hj => hgoes j (by omega), hstop⟩
    · next hstop =>
      rw [Option.some.injEq]
      constructor
      · rintro rfl
        exact ⟨Nat.le_refl i, by omega, fun j hj hj' => by omega, hstop⟩
      · rintro ⟨h₁, -, hgoes, -⟩
        by_contra hne
        exact hstop (hgoes i (Nat.le_refl i) (by omega))

end

/-! ## The asterisks -/

/-- The contents of `fs` after the adjustments. -/
def Resolved.spec (r : Resolved) (widthOpt precOpt : NpfFmtSpecOpt) : NpfFormatSpec where
  fieldWidth := r.width
  prec := r.least
  precOpt := if r.given then precOpt else .none
  fieldWidthOpt := widthOpt
  leftJustified := r.left
  leadingZeroPad := r.zeroPad
  prepend := r.prepend
  caseAdjust := caseAdj r.upper
  lengthModifier := r.lenMod
  convSpec := r.conv

theorem npfStarWidth_eq (d : Directive) (args : VaList) :
    npfStarWidth d.spec args = (d.width.take args).map fun w =>
    ({ d.spec with fieldWidth := w.1.1, leftJustified := d.spec.leftJustified || w.1.2 }, w.2) := by
  obtain ⟨flags, width, prec, lenMod, letter⟩ := d
  cases width with
  | none | literal => simp [npfStarWidth, Directive.spec, Width.opt, Width.value, Width.take]
  | star =>
    cases args with
    | nil => rfl
    | cons w args =>
      simp only [npfStarWidth, Directive.spec, Width.opt, if_true, vaArg, Width.take,
        Option.bind_eq_bind, Option.bind_some, Option.map_some]
      split <;> simp

theorem Precision.take_of_ne_star {t : Precision} (h : t.opt ≠ .star) (args : VaList) :
    t.take args = some ((decide (t.opt = .literal), t.value), args) := by
  cases t with
  | none | literal | negative => rfl
  | star => exact absurd rfl h

theorem npfStarPrec_eq {fs : NpfFormatSpec} {t : Precision} (hopt : fs.precOpt = t.opt)
    (hprec : fs.prec = t.value) (args : VaList) : npfStarPrec fs args = (t.take args).map fun p =>
      (fs.setPrec (if p.1.1 then t.opt else .none) p.1.2, p.2) := by
  rw [npfStarPrec, hopt]
  by_cases h : t.opt = .star
  · obtain rfl : t = .star := by
      cases t with
      | star => rfl
      | none | literal | negative => cases h
    rw [if_pos h]
    cases args with
    | nil => rfl
    | cons w args =>
      simp only [vaArg, Precision.take, Option.bind_eq_bind, Option.bind_some, Option.map_some]
      split
      · rfl
      · rw [← hopt]
        rfl
  · have hkeep : (if t.opt = .literal then t.opt else .none) = t.opt := by
      cases t with
      | none | literal | negative => rfl
      | star => exact absurd rfl h
    rw [if_neg h, Precision.take_of_ne_star h, Option.map_some]
    simp only [decide_eq_true_eq, hkeep]
    rw [← hopt, ← hprec]
    rfl

theorem Precision.opt_ne_none {t : Precision} {args args' : VaList} {p : Bool × Int}
    (h : t.take args = some (p, args')) (hgiven : p.1 = true) : t.opt ≠ .none := by
  cases t with
  | none | negative =>
    cases h
    cases hgiven
  | literal | star => simp [opt]

theorem Width.eq_zero_of_opt {t : Width} {args args' : VaList} {w : Int × Bool}
    (h : t.take args = some (w, args')) (hopt : t.opt = .none) : w.1 = 0 := by
  cases t with
  | none =>
    cases h
    rfl
  | literal | star => cases hopt

/-- The adjustments after the asterisks. -/
theorem npfPrecOverZero_eq (r : Resolved) {widthOpt precOpt : NpfFmtSpecOpt}
    (h : r.given = true → precOpt ≠ .none) :
    npfPrecOverZero
      (npfPointerPrec
        { r.spec widthOpt precOpt with prec := r.prec, leadingZeroPad := r.zeroFlag }) =
      r.spec widthOpt precOpt := by
  obtain ⟨width, left, zeroFlag, prepend, given, prec, upper, lenMod, conv⟩ := r
  cases given with
  | false =>
    cases conv <;>
      simp [npfPointerPrec, npfPrecOverZero, Resolved.spec, Resolved.least, Resolved.zeroPad]
  | true =>
    have hopt := h rfl
    cases conv <;>
      simp [npfPointerPrec, npfPrecOverZero, Resolved.spec, Resolved.least, Resolved.zeroPad,
      NpfFmtSpecConv.ignoresZeroFlag, hopt]

theorem npfResolve_eq (d : Directive) (args : VaList) :
    npfResolve d.spec args = (d.resolve args).map fun x =>
      (x.1.spec d.width.opt d.prec.opt, x.2) := by
  rw [npfResolve, npfStarWidth_eq, Directive.resolve]
  cases hw : d.width.take args with
  | none => rfl
  | some w =>
    simp only [Option.map_some, Option.bind_eq_bind, Option.bind_some]
    rw [npfStarPrec_eq (t := d.prec) rfl rfl]
    cases hp : d.prec.take w.2 with
    | none => rfl
    | some p =>
      simp only [Option.map_some, Option.bind_some]
      rw [← npfPrecOverZero_eq _ (Precision.opt_ne_none hp)]
      rfl

/-! ## The field -/

/-- A sign that is to be printed. -/
def signText (c : Byte) : List Byte := if c ≠ 0 then [c] else []

theorem npfEmit_signText {σ : Type} {pc : σ → Byte → σ} {p : NpfCntPutcCtx σ} (c : Byte) :
    npfEmit pc (signText c) p = if c ≠ 0 then npfPutcCnt pc p c else p := by
  unfold signText
  split <;> rfl

theorem length_signText (c : Byte) : (signText c).length = if c ≠ 0 then 1 else 0 := by
  unfold signText
  split <;> rfl

/-- What has been converted prints as `body`, with any sign before it. -/
structure Payload (mem : Nat → Byte) (fs : NpfFormatSpec) (cv : NpfConverted) (body : List Byte) :
    Prop where
  prints : ∀ {σ : Type} (pc : σ → Byte → σ) (c : Byte) (p : NpfCntPutcCtx σ),
    (fs.convSpec = .string → c = 0) →
    npfPutPayload pc mem fs cv c p = npfEmit pc (signText c ++ body) p
  length : body.length = cv.cbufLen + npfPrecPad fs cv
  unsigned : fs.convSpec = .string → cv.signC = 0

/-- Digits in the conversion buffer, or a character. -/
theorem Payload.cbuf (mem : Nat → Byte) (fs : NpfFormatSpec) (cv : NpfConverted)
    (hstring : fs.convSpec ≠ .string) (hbinary : fs.convSpec ≠ .binary)
    (hlen : cv.cbufLen ≤ cv.cbuf.length) :
    Payload mem fs cv (leadZeros fs.prec (cv.cbuf.take cv.cbufLen).reverse) := by
  have hlength : (cv.cbuf.take cv.cbufLen).reverse.length = cv.cbufLen := by
    rw [List.length_reverse, List.length_take, Nat.min_eq_left hlen]
  constructor
  · intro σ pc c p _
    rw [npfPutPayload, if_neg hstring, if_neg hbinary, npfPutReversed_eq hlen, npfPutcTimes_eq,
      ← npfEmit_signText, ← npfEmit_append, ← npfEmit_append, npfPrecPad, if_pos hstring, leadZeros,
      hlength]
  · rw [leadZeros, List.length_append, List.length_replicate, hlength, npfPrecPad, if_pos hstring,
      Nat.add_comm]
  · exact fun h => absurd h hstring

theorem Payload.bits (mem : Nat → Byte) (fs : NpfFormatSpec) (cv : NpfConverted)
    (hbinary : fs.convSpec = .binary) :
    Payload mem fs cv (leadZeros fs.prec
      ((List.range cv.cbufLen).map fun i =>
        numeralDigit false (cv.binval.toNat / 2 ^ i % 2)).reverse) := by
  have hstring : fs.convSpec ≠ .string := by
    rw [hbinary]
    decide
  have hlength : (((List.range cv.cbufLen).map fun i =>
      numeralDigit false (cv.binval.toNat / 2 ^ i % 2)).reverse).length = cv.cbufLen := by
    rw [List.length_reverse, List.length_map, List.length_range]
  constructor
  · intro σ pc c p _
    rw [npfPutPayload, if_neg hstring, if_pos hbinary, npfPutBits_eq, npfPutcTimes_eq,
      ← npfEmit_signText, ← npfEmit_append, ← npfEmit_append, npfPrecPad, if_pos hstring, leadZeros,
      hlength]
  · rw [leadZeros, List.length_append, List.length_replicate, hlength, npfPrecPad, if_pos hstring,
      Nat.add_comm]
  · exact fun h => absurd h hstring

theorem Payload.string (mem : Nat → Byte) (fs : NpfFormatSpec) (cv : NpfConverted)
    (hstring : fs.convSpec = .string) (hnull : cv.str = 0 → cv.cbufLen = 0) (hsign : cv.signC = 0) :
    Payload mem fs cv (bytesAt (bytesFrom mem cv.str.toNat) 0 cv.cbufLen) := by
  constructor
  · intro σ pc c p hc
    rw [npfPutPayload, if_pos hstring, hc hstring, npfPutString_eq]
    split
    · rfl
    · next h =>
      rw [hnull (not_not.mp h)]
      rfl
  · rw [length_bytesAt, npfPrecPad, if_neg (not_not_intro hstring), Nat.add_zero]
  · exact fun _ => hsign

theorem npfPadC_eq (r : Resolved) {widthOpt precOpt : NpfFmtSpecOpt}
    (h : r.given = true → precOpt ≠ .none) (zero : Bool) :
    npfPadC (r.spec widthOpt precOpt) zero = if widthOpt ≠ .none then r.pad zero else 0 := by
  have hopt : (if r.given = true then precOpt else .none) ≠ .none ↔ r.given = true := by
    split
    · next hg => exact iff_of_true (h hg) hg
    · next hg => exact iff_of_false (not_not_intro rfl) hg
  unfold npfPadC Resolved.pad
  simp only [Resolved.spec, hopt]
  generalize r.least = least
  cases r.zeroPad <;> cases r.left <;> cases r.given <;> cases zero <;>
    by_cases hleast : least = 0 <;> simp [hleast]

theorem Resolved.pad_ne_zero (r : Resolved) (zero : Bool) : r.pad zero ≠ 0 := by
  unfold pad
  split <;> decide

theorem Resolved.pad_of_left {r : Resolved} (h : r.left = true) (zero : Bool) :
    r.pad zero ≠ ch '0' := by
  rw [pad, h]
  simp only [Bool.not_true, Bool.and_false, Bool.false_and]
  decide

/-- The field is laid out around the payload. -/
theorem npfPutField_eq {mem : Nat → Byte} {r : Resolved} {widthOpt precOpt : NpfFmtSpecOpt}
    {cv : NpfConverted} {body : List Byte} (hprec : r.given = true → precOpt ≠ .none)
    (hwidth : widthOpt = .none → r.width = 0) (H : Payload mem (r.spec widthOpt precOpt) cv body)
    {σ : Type} (pc : σ → Byte → σ) (p : NpfCntPutcCtx σ) :
    npfPutField pc mem (r.spec widthOpt precOpt) cv p =
      npfEmit pc (r.layout cv.zero (signText cv.signC) body) p := by
  have hgap : npfFieldPad (r.spec widthOpt precOpt) cv =
      (r.width - ((signText cv.signC).length + body.length : Nat)).toNat := by
    rw [npfFieldPad, length_signText, H.length]
    change (r.width - _ - _ - _).toNat = _
    split <;> (congr 1; push_cast; omega)
  have hleft : (r.spec widthOpt precOpt).leftJustified = r.left := rfl
  have hpayload (q : NpfCntPutcCtx σ) := H.prints pc cv.signC q H.unsigned
  have hbody (q : NpfCntPutcCtx σ) : npfPutPayload pc mem (r.spec widthOpt precOpt) cv 0 q =
      npfEmit pc body q :=
    H.prints pc 0 q fun _ => rfl
  obtain ⟨k, hk⟩ : ∃ k, (r.width - ((signText cv.signC).length + body.length : Nat)).toNat = k :=
    ⟨_, rfl⟩
  unfold npfPutField Resolved.layout
  simp only [npfPadC_eq r hprec, hgap, hk, hleft, npfPutcTimes_eq, ← npfEmit_signText, hpayload,
    hbody]
  by_cases hnone : widthOpt = .none
  · -- there is nothing to fill up
    have hempty : k = 0 := by
      rw [← hk, hwidth hnone]
      omega
    simp only [hnone, hempty, ne_eq, not_true_eq_false, if_false, and_false, List.replicate_zero,
      List.append_nil, List.nil_append, ite_self]
  · simp only [ne_eq, hnone, not_false_eq_true, if_true, r.pad_ne_zero, and_true, ← npfEmit_append]
    cases r.left with
    | true => simp only [not_true_eq_false, if_false, if_true]
    | false =>
      simp only [Bool.false_eq_true, not_false_eq_true, if_true, if_false]
      split <;> simp only [List.append_assoc]

/-! ## The conversions -/

theorem Resolved.signedArg_eq (r : Resolved) (w : BitVec 64) :
    (npfExtractSigned r.lenMod w).toInt = r.signedArg w := by
  unfold npfExtractSigned signedArg vaInt
  cases r.lenMod with
  | none => exact BitVec.toInt_signExtend_of_le (by decide)
  | long | largeLongLong | largeIntmax | largeSizet | largePtrdifft => rfl

theorem Resolved.unsignedArg_eq (r : Resolved) (w : BitVec 64) :
    (if r.conv = .pointer then w else npfExtractUnsigned r.lenMod w).toNat = r.unsignedArg w := by
  unfold unsignedArg npfExtractUnsigned
  by_cases h : r.conv = .pointer
  · simp [h]
  · cases r.lenMod with
    | none =>
      simp only [h, if_false, ne_eq, not_false_eq_true, and_self, if_true, BitVec.toNat_setWidth]
      omega
    | long | largeLongLong | largeIntmax | largeSizet | largePtrdifft => simp [h]

theorem slt_zero_iff (val : BitVec 64) : val.slt 0 = true ↔ val.toInt < 0 := by
  rw [BitVec.slt_iff_toInt_lt]
  rfl

/-- The magnitude, also of the least number. -/
theorem toNat_magnitude (val : BitVec 64) :
    (if val.slt 0 then 0 - val else val).toNat = val.toInt.natAbs := by
  have hlt := val.isLt
  split
  · next h =>
    rw [slt_zero_iff] at h
    rw [BitVec.toNat_sub, show (0 : BitVec 64).toNat = 0 from rfl]
    rw [BitVec.toInt_eq_toNat_cond] at h ⊢
    split at h <;> omega
  · next h =>
    rw [slt_zero_iff] at h
    rw [BitVec.toInt_eq_toNat_cond] at h ⊢
    split at h <;> omega

theorem eq_zero_iff_toInt (val : BitVec 64) : val = 0 ↔ val.toInt = 0 := by
  constructor
  · rintro rfl
    rfl
  · intro h
    exact BitVec.eq_of_toInt_eq h

theorem Resolved.precOpt_ne_none (r : Resolved) {precOpt : NpfFmtSpecOpt}
    (h : r.given = true → precOpt ≠ .none) (widthOpt : NpfFmtSpecOpt) :
    (r.spec widthOpt precOpt).precOpt ≠ .none ↔ r.given = true := by
  rw [spec]
  simp only
  split
  · next hg => exact iff_of_true (h hg) hg
  · next hg => exact iff_of_false (not_not_intro rfl) hg

section
variable {mem : Nat → Byte} {r : Resolved} {widthOpt precOpt : NpfFmtSpecOpt} {args args' : VaList}
  {zero : Bool} {sign body : List Byte}

theorem Payload.plain {cv : NpfConverted} {s : List Byte} (hconv : r.conv ≠ .string)
    (hbinary : r.conv ≠ .binary) (hlen : cv.cbufLen ≤ cv.cbuf.length)
    (hs : (cv.cbuf.take cv.cbufLen).reverse = s) :
    Payload mem (r.spec widthOpt precOpt) cv (leadZeros r.least s) := by
  have H := Payload.cbuf mem (r.spec widthOpt precOpt) cv hconv hbinary hlen
  rw [hs] at H
  exact H

/-- A zero without digits. -/
theorem Payload.noDigits {cv : NpfConverted} {base n : Nat} (hconv : r.conv ≠ .string)
    (h : n = 0 ∧ r.given = true ∧ r.least = 0) (hlen : cv.cbufLen = 0) :
    Payload mem (r.spec widthOpt precOpt) cv (r.digits base n) := by
  have hbody : leadZeros r.least [] = r.digits base n := by
    rw [Resolved.digits, if_pos h, h.2.2]
    rfl
  rw [← hbody]
  by_cases hbinary : r.conv = .binary
  · have H := Payload.bits mem (r.spec widthOpt precOpt) cv hbinary
    rw [hlen] at H
    exact H
  · exact Payload.plain hconv hbinary (by omega) (by rw [hlen]; rfl)

/-- The digits of a number in the conversion buffer. -/
theorem Payload.digits {cv : NpfConverted} {base n : Nat} (hconv : r.conv ≠ .string)
    (hbinary : r.conv ≠ .binary) (h : ¬ (n = 0 ∧ r.given = true ∧ r.least = 0))
    (hcbuf : cv.cbuf = (numeralRev base n).map (numeralDigit r.upper))
    (hlen : cv.cbufLen = cv.cbuf.length) :
    Payload mem (r.spec widthOpt precOpt) cv (r.digits base n) := by
  rw [Resolved.digits, if_neg h]
  refine Payload.plain hconv hbinary (by omega) ?_
  rw [hlen, List.take_length, hcbuf, ← List.map_reverse]
  rfl

theorem numeralDigit_of_lt {d : Nat} (h : d < 10) (upper : Bool) :
    numeralDigit upper d = numeralDigit false d := by
  have hall : ∀ (upper : Bool) (d : Fin 10), numeralDigit upper d = numeralDigit false d := by
    decide
  exact hall upper ⟨d, h⟩

theorem Payload.binaryDigits {cv : NpfConverted} (hconv : r.conv = .binary)
    (h : ¬ (cv.binval.toNat = 0 ∧ r.given = true ∧ r.least = 0))
    (hlen : cv.cbufLen = npfBinLen cv.binval) :
    Payload mem (r.spec widthOpt precOpt) cv (r.digits 2 cv.binval.toNat) := by
  have H := Payload.bits mem (r.spec widthOpt precOpt) cv hconv
  have hdigits :
      ((List.range cv.cbufLen).map fun i =>
        numeralDigit false (cv.binval.toNat / 2 ^ i % 2)).reverse =
        numeral r.upper 2 cv.binval.toNat := by
    rw [numeral, List.map_reverse, ← range_map_bits, List.map_map, hlen, npfBinLen_eq]
    refine congrArg List.reverse (List.map_congr_left fun i _ => ?_)
    exact (numeralDigit_of_lt (by omega) r.upper).symm
  rw [hdigits] at H
  rw [Resolved.digits, if_neg h]
  exact H

theorem npfNoDigits_iff (hprec : r.given = true → precOpt ≠ .none) (val : BitVec 64) :
    npfNoDigits (r.spec widthOpt precOpt) val ↔ val = 0 ∧ r.given = true ∧ r.least = 0 := by
  rw [npfNoDigits, r.precOpt_ne_none hprec]
  rfl

theorem npfConvertSigned_spec (mem : Nat → Byte) (widthOpt : NpfFmtSpecOpt)
    (hprec : r.given = true → precOpt ≠ .none) (hconv : r.conv = .signedInt) (w : BitVec 64) :
    ∃ cv, npfConvertSigned (r.spec widthOpt precOpt) w = some cv ∧
      cv.zero = decide (r.signedArg w = 0) ∧
      signText cv.signC = r.sign (r.signedArg w) ∧
      Payload mem (r.spec widthOpt precOpt) cv (r.digits 10 (r.signedArg w).natAbs) := by
  have hstring : r.conv ≠ .string := by simp [hconv]
  have hbinary : r.conv ≠ .binary := by simp [hconv]
  have harg := r.signedArg_eq w
  generalize hval : npfExtractSigned r.lenMod w = val at harg
  have hzero : val = 0 ↔ r.signedArg w = 0 := by rw [eq_zero_iff_toInt, harg]
  have hsign : signText (if val.slt 0 then ch '-' else r.prepend) = r.sign (r.signedArg w) := by
    rw [Resolved.sign, ← harg]
    simp only [slt_zero_iff]
    split <;> rfl
  have hconvert : npfConvertSigned (r.spec widthOpt precOpt) w =
      if npfNoDigits (r.spec widthOpt precOpt) val then
        some { signC := if val.slt 0 then ch '-' else r.prepend, zero := val = 0 }
      else (npfUtoaRev (if val.slt 0 then 0 - val else val) 10 (caseAdj r.upper)).bind fun cbuf =>
        some {
          cbuf
          cbufLen := cbuf.length
          signC := if val.slt 0 then ch '-' else r.prepend
          zero := val = 0 } := by
    rw [← hval]
    rfl
  rw [hconvert]
  split
  · next h =>
    rw [npfNoDigits_iff hprec] at h
    refine ⟨_, rfl, decide_eq_decide.mpr hzero, hsign, Payload.noDigits hstring ⟨?_, h.2⟩ rfl⟩
    rw [hzero.mp h.1]
    rfl
  · next h =>
    rw [npfNoDigits_iff hprec] at h
    rw [npfUtoaRev_eq _ (by decide) (by decide), toNat_magnitude, harg, Option.bind_some]
    refine ⟨_, rfl, decide_eq_decide.mpr hzero, hsign,
      Payload.digits hstring hbinary (fun h' => h ?_) rfl rfl⟩
    exact ⟨hzero.mpr (Int.natAbs_eq_zero.mp h'.1), h'.2⟩

theorem npfConvertUnsigned_spec (mem : Nat → Byte) (widthOpt : NpfFmtSpecOpt)
    (hprec : r.given = true → precOpt ≠ .none) {base : Nat} (hconv : r.conv.base = some base)
    (w : BitVec 64) :
    ∃ cv, npfConvertUnsigned (r.spec widthOpt precOpt) w = some cv ∧
      cv.zero = decide (r.unsignedArg w = 0) ∧ cv.signC = 0 ∧
      Payload mem (r.spec widthOpt precOpt) cv (r.digits base (r.unsignedArg w)) := by
  have hstring : r.conv ≠ .string := by
    intro h
    rw [h] at hconv
    cases hconv
  have harg := r.unsignedArg_eq w
  generalize hval : (if r.conv = .pointer then w else npfExtractUnsigned r.lenMod w) = val at harg
  have hzero : val = 0 ↔ r.unsignedArg w = 0 := by
    rw [← harg]
    exact BitVec.toNat_eq (y := 0)
  have hconvert : npfConvertUnsigned (r.spec widthOpt precOpt) w =
      if npfNoDigits (r.spec widthOpt precOpt) val then some { zero := val = 0 }
      else if r.conv = .binary then
        some { binval := val, cbufLen := npfBinLen val, zero := val = 0 }
      else (npfUtoaRev val (if r.conv = .octal then 8 else if r.conv = .unsignedInt then 10 else 16)
        (caseAdj r.upper)).bind fun cbuf =>
          some { cbuf, cbufLen := cbuf.length, zero := val = 0 } := by
    rw [← hval]
    rfl
  rw [hconvert]
  split
  · next h =>
    rw [npfNoDigits_iff hprec] at h
    exact ⟨_, rfl, decide_eq_decide.mpr hzero, rfl,
      Payload.noDigits hstring ⟨hzero.mp h.1, h.2⟩ rfl⟩
  · next h =>
    rw [npfNoDigits_iff hprec, hzero] at h
    split
    · next hbinary =>
      obtain rfl : 2 = base := by
        rw [hbinary] at hconv
        exact Option.some.inj hconv
      rw [← harg] at h ⊢
      refine ⟨_, rfl, ?_, rfl, Payload.binaryDigits hbinary h rfl⟩
      exact decide_eq_decide.mpr (by rw [hzero, harg])
    · next hbinary =>
      have hbase : (if r.conv = .octal then 8 else if r.conv = .unsignedInt then 10 else 16) =
          base ∧ 2 ≤ base ∧ base ≤ 16 := by
        revert hconv hbinary
        cases r.conv <;> simp [NpfFmtSpecConv.base] <;> omega
      rw [hbase.1, npfUtoaRev_eq _ hbase.2.1 hbase.2.2, Option.bind_some, harg]
      exact ⟨_, rfl, decide_eq_decide.mpr hzero, rfl, Payload.digits hstring hbinary h rfl rfl⟩

theorem npfConvert_unsigned (mem : Nat → Byte) (fs : NpfFormatSpec) {base : Nat}
    (h : fs.convSpec.base = some base) (w : BitVec 64) (args : VaList) :
    npfConvert mem fs (w :: args) = (npfConvertUnsigned fs w).map (·, args) := by
  unfold npfConvert
  cases hconv : fs.convSpec with
  | percent | char | string | signedInt =>
    rw [hconv] at h
    cases h
  | binary | octal | hexInt | unsignedInt | pointer => rfl

/-- The loop stops at the end of the string. -/
theorem Resolved.StringAt.npfStringLen {w : BitVec 64} {s : List Byte} (H : r.StringAt mem w s)
    (hprec : r.given = true → precOpt ≠ .none) (hconv : r.conv = .string) :
    npfStringLen (r.spec widthOpt precOpt) (bytesFrom mem w.toNat) = some s.length := by
  have hleast : (r.spec widthOpt precOpt).prec = r.prec := by
    change r.least = r.prec
    rw [least, hconv]
    simp
  have hopt := r.precOpt_ne_none hprec widthOpt
  rw [Plos.npfStringLen, npfStringLenFrom_iff]
  have hshort := H.short
  refine ⟨Nat.zero_le _, by omega, fun j _ hj => ⟨?_, ?_⟩, ?_⟩
  · by_cases hgiven : r.given = true
    · right
      rw [hleast]
      rcases H.within hgiven with hs | hs
      · rw [hs, List.length_nil] at hj
        omega
      · omega
    · exact .inl (not_not.mp (mt hopt.mp hgiven))
  · have hmem : bytesFrom mem w.toNat j ∈ bytesAt (bytesFrom mem w.toNat) 0 s.length :=
      List.mem_map.mpr ⟨j, List.mem_range.mpr hj, by rw [Nat.zero_add]⟩
    rw [H.bytes] at hmem
    exact H.nonzero _ hmem
  · rintro ⟨hgo, hbyte⟩
    rcases H.ends with hend | ⟨hgiven, hend⟩
    · exact hbyte hend
    · rcases hgo with hgo | hgo
      · exact hopt.mpr hgiven hgo
      · rw [hleast] at hgo
        omega

/-- What the specification says about an argument is what the code makes of it. -/
theorem Resolved.Converts.converted (widthOpt : NpfFmtSpecOpt)
    (hprec : r.given = true → precOpt ≠ .none) (H : r.Converts mem args zero sign body args') :
    ∃ cv, npfConvert mem (r.spec widthOpt precOpt) args = some (cv, args') ∧
      cv.zero = zero ∧ signText cv.signC = sign ∧
      Payload mem (r.spec widthOpt precOpt) cv body := by
  have hspec : (r.spec widthOpt precOpt).convSpec = r.conv := rfl
  cases H with
  | percent hconv =>
    refine ⟨{ cbuf := [ch '%'], cbufLen := 1 }, ?_, rfl, rfl, ?_⟩
    · rw [npfConvert, hspec, hconv]
    · exact Payload.plain (by simp [hconv]) (by simp [hconv]) (Nat.le_refl 1) rfl
  | char w hconv =>
    refine ⟨npfConvertChar w, ?_, rfl, rfl, ?_⟩
    · rw [npfConvert, hspec, hconv]
      rfl
    · by_cases hw : w.setWidth 8 = (0 : Byte)
      · rw [if_pos hw]
        exact Payload.plain (by simp [hconv]) (by simp [hconv]) (by simp [npfConvertChar, hw])
          (by simp [npfConvertChar, hw])
      · rw [if_neg hw]
        have hlen : (npfConvertChar w).cbufLen = 1 := if_pos hw
        exact Payload.plain (by simp [hconv]) (by simp [hconv]) (by rw [hlen]; rfl)
          (by rw [hlen]; rfl)
  | null hconv =>
    refine ⟨{ str := 0 }, ?_, rfl, rfl, Payload.string _ _ _ hconv (fun _ => rfl) rfl⟩
    rw [npfConvert, hspec, hconv]
    rfl
  | string w hconv hw hs =>
    refine ⟨{ str := w, cbufLen := body.length }, ?_, rfl, rfl, ?_⟩
    · rw [npfConvert, hspec, hconv]
      simp only [vaArg, Option.bind_eq_bind, Option.bind_some, npfConvertString, if_neg hw,
        hs.npfStringLen hprec hconv, Option.map_some]
    · have H :=
        Payload.string mem (r.spec widthOpt precOpt) { str := w, cbufLen := body.length } hconv
          (fun h => absurd h hw) rfl
      rw [hs.bytes] at H
      exact H
  | signed w hconv =>
    obtain ⟨cv, hcv, hzero, hsign, H⟩ := npfConvertSigned_spec mem widthOpt hprec hconv w
    refine ⟨cv, ?_, hzero, hsign, H⟩
    rw [npfConvert, hspec, hconv]
    simp only [vaArg, Option.bind_eq_bind, Option.bind_some, hcv, Option.map_some]
  | unsigned w hconv =>
    obtain ⟨cv, hcv, hzero, hsign, H⟩ := npfConvertUnsigned_spec mem widthOpt hprec hconv w
    refine ⟨cv, ?_, hzero, by rw [hsign]; rfl, H⟩
    rw [npfConvert_unsigned mem (r.spec widthOpt precOpt) hconv, hcv, Option.map_some]

theorem exists_stringAt {n : Nat} {w : BitVec 64} (hprec : r.given = true → precOpt ≠ .none)
    (hconv : r.conv = .string)
    (h : npfStringLen (r.spec widthOpt precOpt) (bytesFrom mem w.toNat) = some n) :
    r.StringAt mem w (bytesAt (bytesFrom mem w.toNat) 0 n) := by
  have hleast : (r.spec widthOpt precOpt).prec = r.prec := by
    change r.least = r.prec
    rw [Resolved.least, hconv]
    simp
  have hopt := r.precOpt_ne_none hprec widthOpt
  rw [npfStringLen, npfStringLenFrom_iff] at h
  obtain ⟨-, hshort, hgoes, hstop⟩ := h
  constructor
  · rw [length_bytesAt]
  · intro b hb
    obtain ⟨j, hj, rfl⟩ := List.mem_map.mp hb
    rw [Nat.zero_add]
    exact (hgoes j (Nat.zero_le j) (List.mem_range.mp hj)).2
  · rw [length_bytesAt]
    omega
  · intro hgiven
    rw [length_bytesAt]
    cases n with
    | zero => exact .inl rfl
    | succ n =>
      have hlast := (hgoes n (Nat.zero_le n) (Nat.lt_succ_self n)).1
      rw [hleast] at hlast
      have hlt := hlast.resolve_left (hopt.mpr hgiven)
      right
      push_cast
      omega
  · rw [length_bytesAt]
    by_contra hne
    obtain ⟨hbyte, hgiven⟩ := not_or.mp hne
    refine hstop ⟨?_, hbyte⟩
    rw [hleast]
    by_cases hg : r.given = true
    · exact .inr (by by_contra hle; exact hgiven ⟨hg, by omega⟩)
    · exact .inl (not_not.mp (mt hopt.mp hg))

/-- Every conversion but `%%` reads an argument. -/
theorem exists_arg {fs : NpfFormatSpec} {x : NpfConverted × VaList} (hconv : fs.convSpec ≠ .percent)
    (h : npfConvert mem fs args = some x) : ∃ w rest, args = w :: rest := by
  cases args with
  | nil =>
    rw [npfConvert] at h
    cases hc : fs.convSpec with
    | percent => exact absurd hc hconv
    | char | string | signedInt | binary | octal | hexInt | unsignedInt | pointer =>
      rw [hc] at h
      cases h
  | cons w rest => exact ⟨w, rest, rfl⟩

/-- The code makes nothing else of an argument. -/
theorem exists_converts {cv : NpfConverted} (hprec : r.given = true → precOpt ≠ .none)
    (h : npfConvert mem (r.spec widthOpt precOpt) args = some (cv, args')) :
    ∃ zero sign body, r.Converts mem args zero sign body args' := by
  have hspec : (r.spec widthOpt precOpt).convSpec = r.conv := rfl
  by_cases hpercent : r.conv = .percent
  · rw [npfConvert, hspec, hpercent] at h
    cases h
    exact ⟨_, _, _, .percent hpercent⟩
  · obtain ⟨w, rest, rfl⟩ := exists_arg hpercent h
    rw [npfConvert, hspec] at h
    cases hconv : r.conv with
    | percent => exact absurd hconv hpercent
    | char =>
      rw [hconv] at h
      cases h
      exact ⟨_, _, _, .char w hconv⟩
    | string =>
      rw [hconv] at h
      simp only [vaArg, Option.bind_eq_bind, Option.bind_some, npfConvertString] at h
      split at h
      · next hw =>
        cases h
        subst hw
        exact ⟨_, _, _, .null hconv⟩
      · next hw =>
        simp only [Option.map_map, Option.map_eq_some_iff, Function.comp, Prod.mk.injEq] at h
        obtain ⟨n, hn, -, rfl⟩ := h
        exact ⟨_, _, _, .string w hconv hw (exists_stringAt hprec hconv hn)⟩
    | signedInt =>
      rw [hconv] at h
      obtain ⟨_, _, heq⟩ := Option.map_eq_some_iff.mp h
      cases heq
      exact ⟨_, _, _, .signed w hconv⟩
    | binary | octal | hexInt | unsignedInt | pointer =>
      rw [hconv] at h
      obtain ⟨_, _, heq⟩ := Option.map_eq_some_iff.mp h
      cases heq
      exact ⟨_, _, _, .unsigned w (by rw [hconv]; rfl)⟩

end

/-! ## The conversion buffer -/

/-- `NANOPRINTF_CONVERSION_BUFFER_SIZE` -/
abbrev npfConversionBufferSize : Nat := 23

section
variable {mem : Nat → Byte} {fs : NpfFormatSpec} {cv : NpfConverted} {w : BitVec 64} {l : List Byte}

theorem length_npfUtoaRevFrom_le {base n m k : Nat} {c : Byte}
    (h : npfUtoaRevFrom base c k n = some l) (hn : n < base ^ (m + 1)) : l.length ≤ m + 1 := by
  induction k generalizing n m l with
  | zero => cases h
  | succ k ih =>
    rw [npfUtoaRevFrom] at h
    split at h
    · cases h
      exact Nat.succ_le_succ (Nat.zero_le m)
    · next hdiv =>
      obtain ⟨l, hl, rfl⟩ := Option.map_eq_some_iff.mp h
      cases m with
      | zero =>
        rw [Nat.zero_add, Nat.pow_one] at hn
        exact absurd (Nat.div_eq_of_lt hn) hdiv
      | succ m =>
        rw [Nat.pow_succ'] at hn
        exact Nat.succ_le_succ (ih hl (Nat.div_lt_of_lt_mul hn))

/-- Octal numbers have the most digits, and 22 of them are enough for 64 bits. -/
theorem length_npfUtoaRev_le {val : BitVec 64} {base : Nat} {c : Byte} (hbase : 8 ≤ base)
    (h : npfUtoaRev val base c = some l) : l.length ≤ npfConversionBufferSize := by
  have hval : val.toNat < base ^ 22 := calc
    val.toNat < 2 ^ 64 := val.isLt
    _ ≤ 8 ^ 22 := by decide
    _ ≤ base ^ 22 := Nat.pow_le_pow_left hbase 22
  exact Nat.le_succ_of_le (length_npfUtoaRevFrom_le h hval)

theorem npfConvertSigned_cbuf (h : npfConvertSigned fs w = some cv) :
    cv.cbuf.length ≤ npfConversionBufferSize := by
  simp only [npfConvertSigned] at h
  generalize npfExtractSigned fs.lengthModifier w = val at h
  by_cases hnone : npfNoDigits fs val
  · rw [if_pos hnone] at h
    cases h
    exact Nat.zero_le _
  · rw [if_neg hnone] at h
    obtain ⟨cbuf, hcbuf, heq⟩ := Option.bind_eq_some_iff.mp h
    cases heq
    exact length_npfUtoaRev_le (by decide) hcbuf

theorem npfConvertUnsigned_cbuf (h : npfConvertUnsigned fs w = some cv) :
    cv.cbuf.length ≤ npfConversionBufferSize := by
  simp only [npfConvertUnsigned] at h
  generalize (if fs.convSpec = .pointer then w else npfExtractUnsigned fs.lengthModifier w) =
    val at h
  by_cases hnone : npfNoDigits fs val
  · rw [if_pos hnone] at h
    cases h
    exact Nat.zero_le _
  · rw [if_neg hnone] at h
    by_cases hbinary : fs.convSpec = .binary
    · rw [if_pos hbinary] at h
      cases h
      exact Nat.zero_le _
    · rw [if_neg hbinary] at h
      obtain ⟨cbuf, hcbuf, heq⟩ := Option.bind_eq_some_iff.mp h
      cases heq
      refine length_npfUtoaRev_le ?_ hcbuf
      split
      · exact Nat.le_refl 8
      · split <;> decide

theorem npfConvertString_cbuf (h : npfConvertString mem fs w = some cv) : cv.cbuf = [] := by
  unfold npfConvertString at h
  split at h
  · cases h
    rfl
  · obtain ⟨len, -, rfl⟩ := Option.map_eq_some_iff.mp h
    rfl

/-- A conversion of an argument. -/
theorem exists_converted {convert : BitVec 64 → Option NpfConverted} {args args' : VaList}
    (h : ((vaArg args).bind fun x => (convert x.1).map (·, x.2)) = some (cv, args')) :
    ∃ w, convert w = some cv := by
  obtain ⟨x, -, hx⟩ := Option.bind_eq_some_iff.mp h
  obtain ⟨cv, hcv, heq⟩ := Option.map_eq_some_iff.mp hx
  cases heq
  exact ⟨x.1, hcv⟩

/-- No conversion writes behind the end of the conversion buffer. -/
theorem npfConvert_cbuf_le {args args' : VaList} (h : npfConvert mem fs args = some (cv, args')) :
    cv.cbuf.length ≤ npfConversionBufferSize := by
  cases hconv : fs.convSpec with
  | percent =>
    simp only [npfConvert, hconv] at h
    cases h
    decide
  | char =>
    simp only [npfConvert, hconv] at h
    obtain ⟨x, -, heq⟩ := Option.bind_eq_some_iff.mp h
    cases heq
    exact Nat.le_of_ble_eq_true rfl
  | string =>
    simp only [npfConvert, hconv] at h
    obtain ⟨w, hcv⟩ := exists_converted h
    rw [npfConvertString_cbuf hcv]
    exact Nat.zero_le _
  | signedInt =>
    simp only [npfConvert, hconv] at h
    obtain ⟨w, hcv⟩ := exists_converted h
    exact npfConvertSigned_cbuf hcv
  | binary | octal | hexInt | unsignedInt | pointer =>
    simp only [npfConvert, hconv] at h
    obtain ⟨w, hcv⟩ := exists_converted h
    exact npfConvertUnsigned_cbuf hcv

end

/-- The largest number in octal. -/
theorem npfConvert_cbuf_le_octal : ∃ x,
    npfConvert (fun _ => 0) (Directive.spec ⟨[], .none, .none, .long, .o⟩) [BitVec.allOnes 64] =
      some x ∧ x.1.cbuf.length = 22 ∧ x.1.cbuf.length ≤ npfConversionBufferSize := by
  obtain ⟨⟨cv, args⟩, hx, hlen⟩ :
      ∃ x, npfConvert (fun _ => 0) (Directive.spec ⟨[], .none, .none, .long, .o⟩)
      [BitVec.allOnes 64] = some x ∧ x.1.cbuf.length = 22 := ⟨_, rfl, rfl⟩
  exact ⟨_, hx, hlen, npfConvert_cbuf_le hx⟩

end Plos
