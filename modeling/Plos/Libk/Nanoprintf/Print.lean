import Plos.Libk.Nanoprintf.Parse
import Plos.Libk.String

/-! The printing of `libk/nanoprintf.h`: `npf_vpprintf` and what it calls.

A variable argument is in a slot of 64 bits, as the calling convention passes it. Strings are read
from the memory `mem`, which the output does not overwrite (`restrict`). The output goes through a
callback `pc` on a context of any type. `none` stands for a run that reads more arguments than there
are or a string without an end. -/

namespace Plos

/-- The variable arguments that have not been read yet. -/
abbrev VaList := List (BitVec 64)

/-- `va_arg` -/
def vaArg : VaList → Option (BitVec 64 × VaList)
  | [] => none
  | w :: args => some (w, args)

/-- The value of a slot that holds an `int`. -/
def vaInt (w : BitVec 64) : Int := (w.setWidth 32).toInt

/-! ## The conversion of an argument -/

/-- The loop of `npf_utoa_rev`: the characters that it writes to `buf`. -/
def npfUtoaRevFrom (base : Nat) (caseAdj : Byte) : Nat → (val : Nat) → Option (List Byte)
  | 0, _ => none
  | k + 1, val =>
    let d := val % base
    let c := (if d < 10 then ch '0' else ch 'A' - 10 + caseAdj) + BitVec.ofNat 8 d
    if val / base = 0 then some [c] else (npfUtoaRevFrom base caseAdj k (val / base)).map (c :: ·)

def npfUtoaRev (val : BitVec 64) (base : Nat) (caseAdj : Byte) : Option (List Byte) :=
  npfUtoaRevFrom base caseAdj 64 val.toNat

/-- `__builtin_clzll`, for a number that is not zero. -/
def builtinClzll (u : BitVec 64) : Nat := 63 - u.toNat.log2

def npfBinLen (u : BitVec 64) : Nat := if u = 0 then 1 else 64 - builtinClzll u

/-- The condition of the loop that measures a string. -/
def npfStringGoes (fs : NpfFormatSpec) (s : Nat → Byte) (cbufLen : Nat) : Prop :=
  (fs.precOpt = .none ∨ cbufLen < fs.prec) ∧ s cbufLen ≠ 0

instance decidableNpfStringGoes (fs : NpfFormatSpec) (s : Nat → Byte) (cbufLen : Nat) :
    Decidable (npfStringGoes fs s cbufLen) :=
  inferInstanceAs (Decidable (_ ∧ _))

/-- The loop that measures a string, as long as its length is an `int`. -/
def npfStringLenFrom (fs : NpfFormatSpec) (s : Nat → Byte) : Nat → (cbufLen : Nat) → Option Nat
  | 0, _ => none
  | k + 1, cbufLen =>
    if npfStringGoes fs s cbufLen then npfStringLenFrom fs s k (cbufLen + 1) else some cbufLen

def npfStringLen (fs : NpfFormatSpec) (s : Nat → Byte) : Option Nat :=
  npfStringLenFrom fs s (2 ^ 31) 0

/-- The variables that the conversion sets. -/
structure NpfConverted where
  /-- what has been written to `u.cbuf_mem` -/
  cbuf : List Byte := []
  binval : BitVec 64 := 0
  /-- `cbuf` if it points at a string -/
  str : BitVec 64 := 0
  cbufLen : Nat := 0
  signC : Byte := 0
  zero : Bool := false

/-- The value of a signed argument. -/
def npfExtractSigned (m : NpfFmtSpecLenMod) (w : BitVec 64) : BitVec 64 :=
  match m with
  | .none => (w.setWidth 32).signExtend 64
  | .long | .largeLongLong | .largeIntmax | .largeSizet | .largePtrdifft => w

/-- The value of an unsigned argument. -/
def npfExtractUnsigned (m : NpfFmtSpecLenMod) (w : BitVec 64) : BitVec 64 :=
  match m with
  | .none => (w.setWidth 32).setWidth 64
  | .long | .largeLongLong | .largeIntmax | .largeSizet | .largePtrdifft => w

/-- A zero that is to have no digits. -/
def npfNoDigits (fs : NpfFormatSpec) (val : BitVec 64) : Prop :=
  val = 0 ∧ fs.precOpt ≠ .none ∧ fs.prec = 0

instance decidableNpfNoDigits (fs : NpfFormatSpec) (val : BitVec 64) :
    Decidable (npfNoDigits fs val) :=
  inferInstanceAs (Decidable (_ ∧ _))

def npfConvertSigned (fs : NpfFormatSpec) (w : BitVec 64) : Option NpfConverted := do
  let val := npfExtractSigned fs.lengthModifier w
  let signC := if val.slt 0 then ch '-' else fs.prepend
  if npfNoDigits fs val then some { signC, zero := val = 0 }
  else
    let uval := if val.slt 0 then 0 - val else val
    let cbuf ← npfUtoaRev uval 10 fs.caseAdjust
    some { cbuf, cbufLen := cbuf.length, signC, zero := val = 0 }

def npfConvertUnsigned (fs : NpfFormatSpec) (w : BitVec 64) : Option NpfConverted := do
  let val := if fs.convSpec = .pointer then w else npfExtractUnsigned fs.lengthModifier w
  if npfNoDigits fs val then some { zero := val = 0 }
  else if fs.convSpec = .binary then
    some { binval := val, cbufLen := npfBinLen val, zero := val = 0 }
  else
    let base := if fs.convSpec = .octal then 8 else if fs.convSpec = .unsignedInt then 10 else 16
    let cbuf ← npfUtoaRev val base fs.caseAdjust
    some { cbuf, cbufLen := cbuf.length, zero := val = 0 }

def npfConvertString (mem : Nat → Byte) (fs : NpfFormatSpec) (cbuf : BitVec 64) :
    Option NpfConverted :=
  if cbuf = 0 then some { str := cbuf }
  else (npfStringLen fs (bytesFrom mem cbuf.toNat)).map fun cbufLen => { str := cbuf, cbufLen }

def npfConvertChar (w : BitVec 64) : NpfConverted :=
  let c : Byte := w.setWidth 8
  { cbuf := [c], cbufLen := if c ≠ 0 then 1 else 0 }

/-- `switch (fs.conv_spec)` -/
def npfConvert (mem : Nat → Byte) (fs : NpfFormatSpec) (args : VaList) :
    Option (NpfConverted × VaList) :=
  match fs.convSpec with
  | .percent => some ({ cbuf := [ch '%'], cbufLen := 1 }, args)
  | .char => do
    let (w, args) ← vaArg args
    some (npfConvertChar w, args)
  | .string => do
    let (w, args) ← vaArg args
    (npfConvertString mem fs w).map (·, args)
  | .signedInt => do
    let (w, args) ← vaArg args
    (npfConvertSigned fs w).map (·, args)
  | .binary | .octal | .hexInt | .unsignedInt | .pointer => do
    let (w, args) ← vaArg args
    (npfConvertUnsigned fs w).map (·, args)

/-! ## The directive before the conversion -/

/-- The field width from an argument. -/
def npfStarWidth (fs : NpfFormatSpec) (args : VaList) : Option (NpfFormatSpec × VaList) :=
  if fs.fieldWidthOpt = .star then do
    let (w, args) ← vaArg args
    let fieldWidth := vaInt w
    if fieldWidth < 0 then
      some ({ fs with fieldWidth := int32 (-fieldWidth), leftJustified := true }, args)
    else some ({ fs with fieldWidth }, args)
  else some (fs, args)

/-- The precision from an argument. -/
def npfStarPrec (fs : NpfFormatSpec) (args : VaList) : Option (NpfFormatSpec × VaList) :=
  if fs.precOpt = .star then do
    let (w, args) ← vaArg args
    let prec := vaInt w
    if prec < 0 then some (fs.setPrec .none 0, args) else some ({ fs with prec }, args)
  else some (fs, args)

/-- The precision of a pointer, `(sizeof(void *) * CHAR_BIT + 3) / 4`. -/
def npfPointerPrec (fs : NpfFormatSpec) : NpfFormatSpec :=
  if fs.precOpt = .none ∧ fs.convSpec = .pointer then { fs with prec := (8 * 8 + 3) / 4 } else fs

/-- A precision turns the zero flag off. -/
def npfPrecOverZero (fs : NpfFormatSpec) : NpfFormatSpec :=
  if fs.precOpt ≠ .none then
    match fs.convSpec with
    | .signedInt | .octal | .hexInt | .unsignedInt => { fs with leadingZeroPad := false }
    | .percent | .char | .string | .binary | .pointer => fs
  else fs

/-- Everything before the conversion. -/
def npfResolve (fs : NpfFormatSpec) (args : VaList) : Option (NpfFormatSpec × VaList) := do
  let (fs, args) ← npfStarWidth fs args
  let (fs, args) ← npfStarPrec fs args
  some (npfPrecOverZero (npfPointerPrec fs), args)

/-! ## The output -/

def npfPadC (fs : NpfFormatSpec) (zero : Bool) : Byte :=
  if fs.fieldWidthOpt ≠ .none then
    if fs.leadingZeroPad && !fs.leftJustified then
      if fs.precOpt ≠ .none ∧ fs.prec = 0 ∧ zero then ch ' ' else ch '0'
    else ch ' '
  else 0

/-- `NPF_MAX(0, fs.prec - cbuf_len)`, but not for a string. -/
def npfPrecPad (fs : NpfFormatSpec) (cv : NpfConverted) : Nat :=
  if fs.convSpec ≠ .string then (fs.prec - cv.cbufLen).toNat else 0

def npfFieldPad (fs : NpfFormatSpec) (cv : NpfConverted) : Nat :=
  (fs.fieldWidth - cv.cbufLen - (if cv.signC ≠ 0 then 1 else 0) - npfPrecPad fs cv).toNat

structure NpfCntPutcCtx (σ : Type) where
  ctx : σ
  n : Int

section
variable {σ : Type} (pc : σ → Byte → σ)

/-- `NPF_PUTC(c)` -/
def npfPutcCnt (p : NpfCntPutcCtx σ) (c : Byte) : NpfCntPutcCtx σ := ⟨pc p.ctx c, int32 (p.n + 1)⟩

/-- `while (k-- > 0) { NPF_PUTC(c); }` -/
def npfPutcTimes (c : Byte) : Nat → NpfCntPutcCtx σ → NpfCntPutcCtx σ
  | 0, p => p
  | k + 1, p => npfPutcTimes c k (npfPutcCnt pc p c)

/-- `for (int i = 0; i < k; ++i) { NPF_PUTC(cbuf[i]); }` -/
def npfPutString (s : Nat → Byte) : Nat → (i : Nat) → NpfCntPutcCtx σ → NpfCntPutcCtx σ
  | 0, _, p => p
  | k + 1, i, p => npfPutString s k (i + 1) (npfPutcCnt pc p (s i))

/-- `while (cbuf_len-- > 0) { NPF_PUTC(cbuf[cbuf_len]); }` -/
def npfPutReversed (cbuf : List Byte) : (cbufLen : Nat) → NpfCntPutcCtx σ → NpfCntPutcCtx σ
  | 0, p => p
  | k + 1, p => npfPutReversed cbuf k (npfPutcCnt pc p (cbuf.getD k 0))

/-- `while (cbuf_len) { NPF_PUTC('0' + ((u.binval >> --cbuf_len) & 1)); }` -/
def npfPutBits (binval : BitVec 64) : (cbufLen : Nat) → NpfCntPutcCtx σ → NpfCntPutcCtx σ
  | 0, p => p
  | k + 1, p => npfPutBits binval k (npfPutcCnt pc p (ch '0' + ((binval >>> k) &&& 1).setWidth 8))

/-- The sign, unless it has been written, the zeros of the precision and the digits; or the
string. -/
def npfPutPayload (mem : Nat → Byte) (fs : NpfFormatSpec) (cv : NpfConverted) (signC : Byte)
    (p : NpfCntPutcCtx σ) : NpfCntPutcCtx σ :=
  if fs.convSpec = .string then
    if cv.str ≠ 0 then npfPutString pc (bytesFrom mem cv.str.toNat) cv.cbufLen 0 p else p
  else
    let p := if signC ≠ 0 then npfPutcCnt pc p signC else p
    let p := npfPutcTimes pc (ch '0') (npfPrecPad fs cv) p
    if fs.convSpec = .binary then npfPutBits pc cv.binval cv.cbufLen p
      else npfPutReversed pc cv.cbuf cv.cbufLen p

/-- The payload with the padding of the field before or behind it. -/
def npfPutField (mem : Nat → Byte) (fs : NpfFormatSpec) (cv : NpfConverted) (p : NpfCntPutcCtx σ) :
    NpfCntPutcCtx σ :=
  let padC := npfPadC fs cv.zero
  let fieldPad := npfFieldPad fs cv
  if ¬ fs.leftJustified ∧ padC ≠ 0 then
    if padC = ch '0' then
      -- the sign goes before the zeros
      let p := if cv.signC ≠ 0 then npfPutcCnt pc p cv.signC else p
      npfPutPayload pc mem fs cv 0 (npfPutcTimes pc padC fieldPad p)
    else npfPutPayload pc mem fs cv cv.signC (npfPutcTimes pc padC fieldPad p)
  else
    let p := npfPutPayload pc mem fs cv cv.signC p
    if fs.leftJustified ∧ padC ≠ 0 then npfPutcTimes pc padC fieldPad p else p

/-- What is done for a directive that has been parsed. -/
def npfPutDirective (mem : Nat → Byte) (fs : NpfFormatSpec) (args : VaList) (p : NpfCntPutcCtx σ) :
    Option (NpfFormatSpec × VaList × NpfCntPutcCtx σ) := do
  let (fs, args) ← npfResolve fs args
  let (cv, args) ← npfConvert mem fs args
  some (fs, args, npfPutField pc mem fs cv p)

/-- `while (*cur)`. A round takes at least one character off. -/
def npfVpprintfLoop (mem : Nat → Byte) :
    Nat → NpfFormatSpec → (cur : List Byte) → VaList → NpfCntPutcCtx σ →
    Option (NpfCntPutcCtx σ)
  | _, _, [], _, p => some p
  | 0, _, _ :: _, _, _ => none
  | k + 1, fs, c :: cur, args, p =>
    match if c ≠ ch '%' then none else npfParseFormatSpec fs (c :: cur) with
    | none => npfVpprintfLoop mem k fs cur args (npfPutcCnt pc p c)
    | some (fs, cur) => do
      let (fs, args, p) ← npfPutDirective pc mem fs args p
      npfVpprintfLoop mem k fs cur args p

/-- `fs` is what the variable holds before anything has been assigned to it. -/
def npfVpprintf (mem : Nat → Byte) (fs : NpfFormatSpec) (pcCtx : σ) (format : List Byte)
    (args : VaList) : Option (σ × Int) :=
  (npfVpprintfLoop pc mem format.length fs format args ⟨pcCtx, 0⟩).map fun p => (p.ctx, p.n)

end

end Plos
