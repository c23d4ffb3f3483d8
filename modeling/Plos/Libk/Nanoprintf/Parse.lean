import Plos.Lib.Bytes
import Plos.Lib.Numeral
import Plos.Lib.Scan

/-! The directives of a format string, as `npf_parse_format_spec` of `libk/nanoprintf.h` reads them.

The configuration is that of `libk/stdio.c`: field widths, precisions, large and binary conversions,
and neither floats, small conversions, writeback nor the alternative form. A string is the list of
its characters before the zero, and a pointer into it is what is left of the list from there on. An
`int` wraps on overflow, which C leaves open. -/

namespace Plos

/-- A character constant. -/
def ch (c : Char) : Byte := BitVec.ofNat 8 c.toNat

@[irreducible] def int32 (x : Int) : Int := x.bmod (2 ^ 32)

inductive NpfFmtSpecOpt where
  | none
  | literal
  | star
  deriving DecidableEq, Repr

inductive NpfFmtSpecLenMod where
  | none
  | long
  | largeLongLong
  | largeIntmax
  | largeSizet
  | largePtrdifft
  deriving DecidableEq, Repr

inductive NpfFmtSpecConv where
  | percent
  | char
  | string
  | signedInt
  | binary
  | octal
  | hexInt
  | unsignedInt
  | pointer
  deriving DecidableEq, Repr

structure NpfFormatSpec where
  fieldWidth : Int
  prec : Int
  precOpt : NpfFmtSpecOpt
  fieldWidthOpt : NpfFmtSpecOpt
  leftJustified : Bool
  leadingZeroPad : Bool
  prepend : Byte
  caseAdjust : Byte
  lengthModifier : NpfFmtSpecLenMod
  convSpec : NpfFmtSpecConv
  deriving DecidableEq, Repr

namespace NpfFormatSpec

/-- No flags, and lower case. -/
def resetFlags (fs : NpfFormatSpec) : NpfFormatSpec :=
  { fs with
    leftJustified := false
    leadingZeroPad := false
    caseAdjust := ch 'a' - ch 'A'
    prepend := 0 }

def setFieldWidth (fs : NpfFormatSpec) (opt : NpfFmtSpecOpt) (v : Int) : NpfFormatSpec :=
  { fs with fieldWidthOpt := opt, fieldWidth := v }

def setPrec (fs : NpfFormatSpec) (opt : NpfFmtSpecOpt) (v : Int) : NpfFormatSpec :=
  { fs with precOpt := opt, prec := v }

def setLengthModifier (fs : NpfFormatSpec) (m : NpfFmtSpecLenMod) : NpfFormatSpec :=
  { fs with lengthModifier := m }

def setConvSpec (fs : NpfFormatSpec) (conv : NpfFmtSpecConv) : NpfFormatSpec :=
  { fs with convSpec := conv }

/-- `out_spec->case_adjust = 0` -/
def upperCase (fs : NpfFormatSpec) : NpfFormatSpec := { fs with caseAdjust := 0 }

end NpfFormatSpec

/-! ## The parser -/

/-- The body of the loop over the flags. -/
def npfFlag (c : Byte) : Option (NpfFormatSpec → NpfFormatSpec) :=
  if c = ch '-' then some fun fs => { fs with leftJustified := true }
  else if c = ch '0' then some fun fs => { fs with leadingZeroPad := true }
  else if c = ch '+' then some fun fs => { fs with prepend := ch '+' }
  else if c = ch ' ' then some fun fs =>
    { fs with prepend := if fs.prepend = 0 then ch ' ' else fs.prepend }
  else none

/-- `(*cur >= '0') && (*cur <= '9')` -/
def isDigit (c : Byte) : Bool := ch '0' ≤ c && c ≤ ch '9'

/-- `v = (v * 10) + (*cur - '0')` -/
def addDigit (v : Int) (c : Byte) : Int := int32 (v * 10 + (c.toNat - (ch '0').toNat))

/-- The body of a loop over digits. -/
def npfDigit (update : Byte → NpfFormatSpec → NpfFormatSpec) (c : Byte) :
    Option (NpfFormatSpec → NpfFormatSpec) :=
  if isDigit c then some (update c) else none

def npfWidthDigit : Byte → Option (NpfFormatSpec → NpfFormatSpec) :=
  npfDigit fun c fs => fs.setFieldWidth .literal (addDigit fs.fieldWidth c)

def npfPrecDigit : Byte → Option (NpfFormatSpec → NpfFormatSpec) :=
  npfDigit fun c fs => fs.setPrec fs.precOpt (addDigit fs.prec c)

def npfParseFlags (fs : NpfFormatSpec) (cur : List Byte) : NpfFormatSpec × List Byte :=
  scanWhile npfFlag fs.resetFlags cur

def npfParseWidth (fs : NpfFormatSpec) (cur : List Byte) : NpfFormatSpec × List Byte :=
  let fs := fs.setFieldWidth .none 0
  if cur.head? = some (ch '*') then (fs.setFieldWidth .star fs.fieldWidth, cur.tail)
  else scanWhile npfWidthDigit fs cur

def npfParsePrec (fs : NpfFormatSpec) (cur : List Byte) : NpfFormatSpec × List Byte :=
  let fs := fs.setPrec .none 0
  if cur.head? = some (ch '.') then
    let cur := cur.tail
    if cur.head? = some (ch '*') then (fs.setPrec .star fs.prec, cur.tail)
    else if cur.head? = some (ch '-') then scanWhile npfPrecDigit fs cur.tail
    else scanWhile npfPrecDigit (fs.setPrec .literal fs.prec) cur
  else (fs, cur)

def npfParseLengthModifier (fs : NpfFormatSpec) (cur : List Byte) : NpfFormatSpec × List Byte :=
  if cur.head? = some (ch 'l') then
    if cur.tail.head? = some (ch 'l') then (fs.setLengthModifier .largeLongLong, cur.tail.tail)
    else (fs.setLengthModifier .long, cur.tail)
  else if cur.head? = some (ch 'j') then (fs.setLengthModifier .largeIntmax, cur.tail)
  else if cur.head? = some (ch 'z') then (fs.setLengthModifier .largeSizet, cur.tail)
  else if cur.head? = some (ch 't') then (fs.setLengthModifier .largePtrdifft, cur.tail)
  else (fs.setLengthModifier .none, cur)

def npfParseConvSpec (fs : NpfFormatSpec) : List Byte → Option (NpfFormatSpec × List Byte)
  | [] => none
  | c :: cur =>
    if c = ch '%' then some (fs.setConvSpec .percent, cur)
    else if c = ch 'c' then some (fs.setConvSpec .char, cur)
    else if c = ch 's' then some (fs.setConvSpec .string, cur)
    else if c = ch 'i' ∨ c = ch 'd' then some (fs.setConvSpec .signedInt, cur)
    else if c = ch 'o' then some (fs.setConvSpec .octal, cur)
    else if c = ch 'u' then some (fs.setConvSpec .unsignedInt, cur)
    else if c = ch 'X' then some (fs.upperCase.setConvSpec .hexInt, cur)
    else if c = ch 'x' then some (fs.setConvSpec .hexInt, cur)
    else if c = ch 'p' then some (fs.setConvSpec .pointer, cur)
    else if c = ch 'B' then some (fs.upperCase.setConvSpec .binary, cur)
    else if c = ch 'b' then some (fs.setConvSpec .binary, cur)
    else none

/-- `format` points at a `%`, and `fs` is what `*out_spec` holds before. On success the second
component is `format + cur - format`, otherwise the function returns zero. -/
def npfParseFormatSpec (fs : NpfFormatSpec) (format : List Byte) :
    Option (NpfFormatSpec × List Byte) :=
  scanNext npfParseFlags (scanNext npfParseWidth (scanNext npfParsePrec
    (scanNext npfParseLengthModifier npfParseConvSpec))) fs format.tail

/-! ## The grammar -/

inductive Flag where
  | minus
  | zero
  | plus
  | space
  deriving DecidableEq, Repr

/-- A literal width does not start with a zero, which would be a flag. -/
inductive Width where
  | none
  | star
  | literal (first : Fin 10) (more : List (Fin 10)) (leading : first.val ≠ 0)
  deriving DecidableEq, Repr

inductive Precision where
  | none
  | star
  | literal (digits : List (Fin 10))
  | negative (digits : List (Fin 10))
  deriving DecidableEq, Repr

inductive Letter where
  | percent
  | c
  | s
  | i
  | d
  | o
  | u
  | upperX
  | x
  | p
  | upperB
  | b
  deriving DecidableEq, Repr

structure Directive where
  flags : List Flag
  width : Width
  prec : Precision
  lenMod : NpfFmtSpecLenMod
  letter : Letter
  deriving DecidableEq, Repr

def Flag.char : Flag → Byte
  | .minus => ch '-'
  | .zero => ch '0'
  | .plus => ch '+'
  | .space => ch ' '

def digitChar (d : Fin 10) : Byte := ch '0' + BitVec.ofNat 8 d

def Width.text : Width → List Byte
  | .none => []
  | .star => [ch '*']
  | .literal first more _ => (first :: more).map digitChar

def Precision.text : Precision → List Byte
  | .none => []
  | .star => [ch '.', ch '*']
  | .literal digits => ch '.' :: digits.map digitChar
  | .negative digits => ch '.' :: ch '-' :: digits.map digitChar

def NpfFmtSpecLenMod.text : NpfFmtSpecLenMod → List Byte
  | .none => []
  | .long => [ch 'l']
  | .largeLongLong => [ch 'l', ch 'l']
  | .largeIntmax => [ch 'j']
  | .largeSizet => [ch 'z']
  | .largePtrdifft => [ch 't']

def Letter.char : Letter → Byte
  | .percent => ch '%'
  | .c => ch 'c'
  | .s => ch 's'
  | .i => ch 'i'
  | .d => ch 'd'
  | .o => ch 'o'
  | .u => ch 'u'
  | .upperX => ch 'X'
  | .x => ch 'x'
  | .p => ch 'p'
  | .upperB => ch 'B'
  | .b => ch 'b'

def Letter.conv : Letter → NpfFmtSpecConv
  | .percent => .percent
  | .c => .char
  | .s => .string
  | .i | .d => .signedInt
  | .o => .octal
  | .u => .unsignedInt
  | .upperX | .x => .hexInt
  | .p => .pointer
  | .upperB | .b => .binary

def Letter.upper : Letter → Bool
  | .upperX | .upperB => true
  | _ => false

/-- How a directive is written. -/
def Directive.text (d : Directive) : List Byte :=
  ch '%' :: (d.flags.map Flag.char ++
    (d.width.text ++ (d.prec.text ++ (d.lenMod.text ++ [d.letter.char]))))

/-- The number that the digits stand for. -/
def decimal (digits : List (Fin 10)) : Nat := positional 10 (digits.map Fin.val)

def Width.opt : Width → NpfFmtSpecOpt
  | .none => .none
  | .star => .star
  | .literal .. => .literal

def Width.value : Width → Int
  | .none | .star => 0
  | .literal first more _ => int32 (decimal (first :: more))

def Precision.opt : Precision → NpfFmtSpecOpt
  | .none | .negative _ => .none
  | .star => .star
  | .literal _ => .literal

def Precision.value : Precision → Int
  | .none | .star => 0
  | .literal digits | .negative digits => int32 (decimal digits)

/-- The contents of `*out_spec` for a directive: a plus wins over a space, and the sign of a
precision makes it count as not given, with its digits kept. -/
def Directive.spec (d : Directive) : NpfFormatSpec where
  fieldWidth := d.width.value
  prec := d.prec.value
  precOpt := d.prec.opt
  fieldWidthOpt := d.width.opt
  leftJustified := .minus ∈ d.flags
  leadingZeroPad := .zero ∈ d.flags
  prepend := if .plus ∈ d.flags then ch '+' else if .space ∈ d.flags then ch ' ' else 0
  caseAdjust := if d.letter.upper then 0 else ch 'a' - ch 'A'
  lengthModifier := d.lenMod
  convSpec := d.letter.conv

/-! ## The scanners of the parts -/

theorem int32_of_lt {x : Int} (h₁ : -2 ^ 31 ≤ x) (h₂ : x < 2 ^ 31) : int32 x = x := by
  unfold int32
  exact Int.bmod_eq_of_le (by omega) (by omega)

theorem int32_zero : int32 (0 : Nat) = 0 := int32_of_lt (by decide) (by decide)

theorem int32_add (x y : Int) : int32 (int32 x + y) = int32 (x + y) := by
  unfold int32
  exact Int.bmod_add_bmod

theorem int32_mul_add (x a y : Int) : int32 (int32 x * a + y) = int32 (x * a + y) := by
  unfold int32
  rw [← Int.bmod_add_bmod, Int.bmod_mul_bmod, Int.bmod_add_bmod]

theorem isDigit_iff (c : Byte) : isDigit c = true ↔ ∃ d : Fin 10, c = digitChar d := by
  revert c
  decide +kernel

theorem digitChar_toNat (d : Fin 10) : (digitChar d).toNat = 48 + d := by
  revert d
  decide

theorem addDigit_digitChar (v : Int) (d : Fin 10) :
    addDigit v (digitChar d) = int32 (v * 10 + d) := by
  rw [addDigit, digitChar_toNat, show (ch '0').toNat = 48 from rfl]
  congr 1
  push_cast
  omega

/-- What a flag makes of the sign that earlier flags have set. -/
def Flag.sign : Flag → Byte → Byte
  | .plus, _ => ch '+'
  | .space, p => if p = 0 then ch ' ' else p
  | _, p => p

def Flag.act (t : Flag) (fs : NpfFormatSpec) : NpfFormatSpec :=
  { fs with
    leftJustified := t = .minus || fs.leftJustified
    leadingZeroPad := t = .zero || fs.leadingZeroPad
    prepend := t.sign fs.prepend }

theorem npfFlag_iff (c : Byte) (f : NpfFormatSpec → NpfFormatSpec) :
    npfFlag c = some f ↔ ∃ t : Flag, c = t.char ∧ f = t.act := by
  constructor
  · intro h
    unfold npfFlag at h
    split_ifs at h with h₁ h₂ h₃ h₄
    · exact ⟨.minus, h₁, (Option.some.inj h).symm⟩
    · exact ⟨.zero, h₂, (Option.some.inj h).symm⟩
    · exact ⟨.plus, h₃, (Option.some.inj h).symm⟩
    · exact ⟨.space, h₄, (Option.some.inj h).symm⟩
  · rintro ⟨t, rfl, rfl⟩
    cases t <;> rfl

theorem npfDigit_iff (update : Byte → NpfFormatSpec → NpfFormatSpec) (c : Byte)
    (f : NpfFormatSpec → NpfFormatSpec) :
    npfDigit update c = some f ↔ ∃ d : Fin 10, c = digitChar d ∧ f = update (digitChar d) := by
  unfold npfDigit
  constructor
  · intro h
    split at h
    · next hc =>
      obtain ⟨d, rfl⟩ := (isDigit_iff c).mp hc
      exact ⟨d, rfl, (Option.some.inj h).symm⟩
    · cases h
  · rintro ⟨d, rfl, rfl⟩
    rw [if_pos ((isDigit_iff _).mpr ⟨d, rfl⟩)]

theorem npfDigit_eq_none {update : Byte → NpfFormatSpec → NpfFormatSpec} {c : Byte} :
    npfDigit update c = none ↔ isDigit c = false := by
  unfold npfDigit
  split
  · next hc => simp [hc]
  · next hc => simpa using hc

/-- Reading digits into an `int` gives the number that they stand for, as an `int`. -/
theorem foldl_addDigit (digits : List (Fin 10)) (v : Nat) :
    (digits.map digitChar).foldl addDigit (int32 v) =
      int32 ((digits.map Fin.val).foldl (fun v d => v * 10 + d) v : Nat) := by
  induction digits generalizing v with
  | nil => rw [List.map_nil, List.map_nil, List.foldl_nil, List.foldl_nil]
  | cons d digits ih =>
    have hdigit : addDigit (int32 v) (digitChar d) = int32 ((v * 10 + d : Nat) : Int) := by
      rw [addDigit_digitChar, int32_mul_add]
      exact congrArg int32 (by push_cast; rfl)
    rw [List.map_cons, List.foldl_cons, hdigit, ih, List.map_cons, List.foldl_cons]

theorem foldl_addDigit_zero (digits : List (Fin 10)) :
    (digits.map digitChar).foldl addDigit 0 = int32 (decimal digits) := by
  have h := foldl_addDigit digits 0
  rwa [int32_zero] at h

theorem actAll_widthDigit (digits : List (Fin 10)) (hne : digits ≠ []) (fs : NpfFormatSpec) :
    actAll (fun d fs => fs.setFieldWidth .literal (addDigit fs.fieldWidth (digitChar d)))
        digits fs =
      fs.setFieldWidth .literal ((digits.map digitChar).foldl addDigit fs.fieldWidth) := by
  induction digits generalizing fs with
  | nil => exact absurd rfl hne
  | cons d digits ih =>
    cases digits with
    | nil => rfl
    | cons d' digits =>
      rw [actAll, List.foldl_cons]
      refine (ih (List.cons_ne_nil _ _) _).trans ?_
      simp only [List.map_cons, List.foldl_cons]
      rfl

theorem actAll_precDigit (digits : List (Fin 10)) (fs : NpfFormatSpec) :
    actAll (fun d fs => fs.setPrec fs.precOpt (addDigit fs.prec (digitChar d))) digits fs =
      fs.setPrec fs.precOpt ((digits.map digitChar).foldl addDigit fs.prec) := by
  induction digits generalizing fs with
  | nil => rfl
  | cons d digits ih =>
    rw [actAll, List.foldl_cons]
    refine (ih _).trans ?_
    rw [List.map_cons, List.foldl_cons]
    rfl

theorem foldl_sign (flags : List Flag) (p : Byte) : flags.foldl (fun p t => t.sign p) p =
    if .plus ∈ flags then ch '+' else if p = 0 then if .space ∈ flags then ch ' ' else 0
      else p := by
  induction flags generalizing p with
  | nil =>
    rw [List.foldl_nil, if_neg List.not_mem_nil, if_neg List.not_mem_nil]
    split
    · next h => exact h
    · rfl
  | cons t flags ih =>
    rw [List.foldl_cons, ih]
    have hplus : ch '+' ≠ 0 := by decide
    have hspace : ch ' ' ≠ 0 := by decide
    cases t <;> grind [Flag.sign]

theorem actAll_flag (flags : List Flag) (fs : NpfFormatSpec) :
    actAll Flag.act flags fs = { fs with
      leftJustified := .minus ∈ flags || fs.leftJustified
      leadingZeroPad := .zero ∈ flags || fs.leadingZeroPad
      prepend := flags.foldl (fun p t => t.sign p) fs.prepend } := by
  induction flags generalizing fs with
  | nil => simp [actAll]
  | cons t flags ih =>
    refine (ih (t.act fs)).trans ?_
    cases t <;> simp [Flag.act]

/-! ## Where a part ends -/

def NpfFmtSpecLenMod.Ends : NpfFmtSpecLenMod → List Byte → Prop
  | .none, rest => ∀ c ∈ rest.head?, c ≠ ch 'l' ∧ c ≠ ch 'j' ∧ c ≠ ch 'z' ∧ c ≠ ch 't'
  | .long, rest => rest.head? ≠ some (ch 'l')
  | _, _ => True

def Precision.Ends : Precision → List Byte → Prop
  | .none, rest => rest.head? ≠ some (ch '.')
  | .star, _ => True
  | .literal digits, rest => (∀ c ∈ rest.head?, isDigit c = false) ∧
      (digits = [] → rest.head? ≠ some (ch '*') ∧ rest.head? ≠ some (ch '-'))
  | .negative _, rest => ∀ c ∈ rest.head?, isDigit c = false

def Width.Ends : Width → List Byte → Prop
  | .none, rest => ∀ c ∈ rest.head?, c ≠ ch '*' ∧ isDigit c = false
  | .star, _ => True
  | .literal .., rest => ∀ c ∈ rest.head?, isDigit c = false

theorem eq_cons_tail {α : Type*} {s u : List α} {c : α} (h : s.head? = some c) (hu : s.tail = u) :
    s = c :: u := by
  rw [← hu, List.cons_head?_tail h]

def Letter.adjustCase (l : Letter) (fs : NpfFormatSpec) : NpfFormatSpec :=
  if l.upper then fs.upperCase else fs

/-- Any other character fails. -/
theorem npfParseConvSpec_none {c : Byte} (h : ∀ l : Letter, c ≠ l.char) (fs : NpfFormatSpec)
    (cur : List Byte) : npfParseConvSpec fs (c :: cur) = none := by
  calc npfParseConvSpec fs (c :: cur) = _ :=
    (if_neg (h .percent)).trans <| (if_neg (h .c)).trans (if_neg (h .s))
    _ = _ := (if_neg (not_or.mpr ⟨h .i, h .d⟩)).trans <| (if_neg (h .o)).trans (if_neg (h .u))
    _ = _ := (if_neg (h .upperX)).trans <| (if_neg (h .x)).trans (if_neg (h .p))
    _ = none := (if_neg (h .upperB)).trans (if_neg (h .b))

theorem npfParseConvSpec_char (l : Letter) (fs : NpfFormatSpec) (cur : List Byte) :
    npfParseConvSpec fs (l.char :: cur) = some ((l.adjustCase fs).setConvSpec l.conv, cur) := by
  cases l <;> rfl

theorem npfParseConvSpec_scans : Scans (fun _ => True) npfParseConvSpec (fun l : Letter => [l.char])
    fun l fs => (l.adjustCase fs).setConvSpec l.conv := by
  intro fs s fs' rest _
  constructor
  · intro h
    cases s with
    | nil => cases h
    | cons c cur =>
      by_cases hletter : ∃ l : Letter, c = l.char
      · obtain ⟨l, rfl⟩ := hletter
        rw [npfParseConvSpec_char, Option.some.injEq, Prod.mk.injEq] at h
        obtain ⟨rfl, rfl⟩ := h
        exact ⟨l, rfl, rfl⟩
      · rw [npfParseConvSpec_none (not_exists.mp hletter)] at h
        cases h
  · rintro ⟨l, rfl, rfl⟩
    exact npfParseConvSpec_char l fs rest

theorem npfParseLengthModifier_splits :
    Splits (fun _ => True) npfParseLengthModifier NpfFmtSpecLenMod.text
    (fun m fs => fs.setLengthModifier m) NpfFmtSpecLenMod.Ends := by
  intro fs s fs' rest _
  constructor
  · intro h
    unfold npfParseLengthModifier at h
    split_ifs at h with h₁ h₂ h₃ h₄ h₅
    all_goals obtain ⟨rfl, rfl⟩ := Prod.mk.inj h
    · exact ⟨.largeLongLong, eq_cons_tail h₁ (eq_cons_tail h₂ rfl), trivial, rfl⟩
    · exact ⟨.long, eq_cons_tail h₁ rfl, h₂, rfl⟩
    · exact ⟨.largeIntmax, eq_cons_tail h₃ rfl, trivial, rfl⟩
    · exact ⟨.largeSizet, eq_cons_tail h₄ rfl, trivial, rfl⟩
    · exact ⟨.largePtrdifft, eq_cons_tail h₅ rfl, trivial, rfl⟩
    · refine ⟨.none, rfl, fun c hc => ?_, rfl⟩
      rw [Option.mem_def] at hc
      rw [hc] at h₁ h₃ h₄ h₅
      exact ⟨fun e => h₁ (congrArg some e), fun e => h₃ (congrArg some e), fun e =>
        h₄ (congrArg some e), fun e => h₅ (congrArg some e)⟩
  · rintro ⟨m, rfl, hends, rfl⟩
    cases m with
    | none =>
      cases rest with
      | nil => rfl
      | cons c rest =>
        obtain ⟨h₁, h₂, h₃, h₄⟩ := hends c rfl
        simp [npfParseLengthModifier, NpfFmtSpecLenMod.text, h₁, h₂, h₃, h₄]
    | long => exact (if_pos rfl).trans (if_neg hends)
    | largeLongLong | largeIntmax | largeSizet | largePtrdifft => rfl

/-- A loop over digits stops at the first character that is not one. -/
theorem scanWhile_digits (update : Byte → NpfFormatSpec → NpfFormatSpec) :
    Splits (fun _ => True) (scanWhile (npfDigit update)) (List.map digitChar)
      (actAll fun d => update (digitChar d))
      fun _ rest => ∀ c ∈ rest.head?, isDigit c = false := by
  intro fs s fs' rest _
  have h := splits_scanWhile (npfDigit_iff update) fs s fs' rest trivial
  simpa only [npfDigit_eq_none] using h

theorem npfParsePrec_point (fs : NpfFormatSpec) {cur : List Byte}
    (hstar : cur.head? ≠ some (ch '*')) (hminus : cur.head? ≠ some (ch '-')) :
    npfParsePrec fs (ch '.' :: cur) = scanWhile npfPrecDigit (fs.setPrec .literal 0) cur := by
  simp only [npfParsePrec, List.head?_cons, List.tail_cons, hstar, hminus, if_true, if_false]
  rfl

theorem npfParsePrec_minus (fs : NpfFormatSpec) (cur : List Byte) :
    npfParsePrec fs (ch '.' :: ch '-' :: cur) = scanWhile npfPrecDigit (fs.setPrec .none 0) cur :=
  rfl

/-- Digits in front of a text start with a digit, unless there are none. -/
theorem head?_digits_ne {digits : List (Fin 10)} {rest : List Byte} {c : Byte}
    (hc : isDigit c = false) (h : digits = [] → rest.head? ≠ some c) :
    (digits.map digitChar ++ rest).head? ≠ some c := by
  cases digits with
  | nil => exact h rfl
  | cons d digits =>
    rw [List.map_cons, List.cons_append, List.head?_cons]
    intro heq
    rw [← Option.some.inj heq, (isDigit_iff _).mpr ⟨d, rfl⟩] at hc
    cases hc

theorem npfParsePrec_splits : Splits (fun _ => True) npfParsePrec Precision.text
    (fun t fs => fs.setPrec t.opt t.value) Precision.Ends := by
  intro fs s fs' rest _
  constructor
  · intro h
    unfold npfParsePrec at h
    simp only at h
    split_ifs at h with h₁ h₂ h₃
    · obtain ⟨rfl, rfl⟩ := Prod.mk.inj h
      exact ⟨.star, eq_cons_tail h₁ (eq_cons_tail h₂ rfl), trivial, rfl⟩
    · obtain ⟨digits, htext, hends, rfl⟩ := (scanWhile_digits _ _ _ _ _ trivial).mp h
      refine ⟨.negative digits, eq_cons_tail h₁ (eq_cons_tail h₃ htext), hends, ?_⟩
      rw [actAll_precDigit]
      exact congrArg (fs.setPrec .none) (foldl_addDigit_zero digits)
    · obtain ⟨digits, htext, hends, rfl⟩ := (scanWhile_digits _ _ _ _ _ trivial).mp h
      refine ⟨.literal digits, eq_cons_tail h₁ htext, ⟨hends, ?_⟩, ?_⟩
      · rintro rfl
        rw [htext] at h₂ h₃
        exact ⟨h₂, h₃⟩
      · rw [actAll_precDigit]
        exact congrArg (fs.setPrec .literal) (foldl_addDigit_zero digits)
    · obtain ⟨rfl, rfl⟩ := Prod.mk.inj h
      exact ⟨.none, rfl, h₁, rfl⟩
  · rintro ⟨t, rfl, hends, rfl⟩
    cases t with
    | none => exact if_neg hends
    | star => rfl
    | literal digits =>
      have hscan := (scanWhile_digits (fun c fs => fs.setPrec fs.precOpt (addDigit fs.prec c))
        (fs.setPrec .literal 0) (digits.map digitChar ++ rest) _ rest trivial).mpr
          ⟨digits, rfl, hends.1, rfl⟩
      have hstar := head?_digits_ne (c := ch '*') (by decide) fun h => (hends.2 h).1
      have hminus := head?_digits_ne (c := ch '-') (by decide) fun h => (hends.2 h).2
      rw [Precision.text, List.cons_append, npfParsePrec_point fs hstar hminus]
      refine hscan.trans ?_
      rw [actAll_precDigit]
      exact congrArg (fun v => (fs.setPrec .literal v, rest)) (foldl_addDigit_zero digits)
    | negative digits =>
      have hscan := (scanWhile_digits (fun c fs => fs.setPrec fs.precOpt (addDigit fs.prec c))
        (fs.setPrec .none 0) (digits.map digitChar ++ rest) _ rest trivial).mpr
          ⟨digits, rfl, hends, rfl⟩
      rw [Precision.text, List.cons_append, List.cons_append, npfParsePrec_minus]
      refine hscan.trans ?_
      rw [actAll_precDigit]
      exact congrArg (fun v => (fs.setPrec .none v, rest)) (foldl_addDigit_zero digits)

theorem npfParseWidth_splits : Splits (fun s => s.head? ≠ some (ch '0')) npfParseWidth Width.text
    (fun t fs => fs.setFieldWidth t.opt t.value) Width.Ends := by
  intro fs s fs' rest hzero
  constructor
  · intro h
    unfold npfParseWidth at h
    simp only at h
    split_ifs at h with h₁
    · obtain ⟨rfl, rfl⟩ := Prod.mk.inj h
      exact ⟨.star, eq_cons_tail h₁ rfl, trivial, rfl⟩
    · obtain ⟨digits, rfl, hends, rfl⟩ := (scanWhile_digits _ _ _ _ _ trivial).mp h
      cases digits with
      | nil =>
        refine ⟨.none, rfl, fun c hc => ⟨?_, hends c hc⟩, rfl⟩
        rintro rfl
        exact h₁ hc
      | cons first more =>
        refine ⟨.literal first more ?_, rfl, hends, ?_⟩
        · intro hfirst
          obtain rfl : first = 0 := Fin.ext hfirst
          exact hzero rfl
        · rw [actAll_widthDigit _ (List.cons_ne_nil _ _)]
          exact congrArg (fs.setFieldWidth .literal) (foldl_addDigit_zero (first :: more))
  · rintro ⟨t, rfl, hends, rfl⟩
    cases t with
    | none =>
      have hscan :=
        (scanWhile_digits (fun c fs => fs.setFieldWidth .literal (addDigit fs.fieldWidth c))
          (fs.setFieldWidth .none 0) rest _ rest trivial).mpr
            ⟨[], rfl, fun c hc => (hends c hc).2, rfl⟩
      refine (if_neg fun h => ?_).trans hscan
      exact (hends _ h).1 rfl
    | star => rfl
    | literal first more leading =>
      have hscan :=
        (scanWhile_digits (fun c fs => fs.setFieldWidth .literal (addDigit fs.fieldWidth c))
          (fs.setFieldWidth .none 0) ((first :: more).map digitChar ++ rest) _ rest trivial).mpr
            ⟨first :: more, rfl, hends, rfl⟩
      have hstar : ((first :: more).map digitChar ++ rest).head? ≠ some (ch '*') :=
        head?_digits_ne (by decide) fun h => absurd h (List.cons_ne_nil _ _)
      refine (if_neg hstar).trans <| hscan.trans ?_
      rw [actAll_widthDigit _ (List.cons_ne_nil _ _)]
      exact congrArg (fun v => (fs.setFieldWidth .literal v, rest))
        (foldl_addDigit_zero (first :: more))

/-- The flags, with the fields that they are about set anew. -/
def NpfFormatSpec.setFlags (fs : NpfFormatSpec) (flags : List Flag) : NpfFormatSpec :=
  { fs with
    leftJustified := .minus ∈ flags
    leadingZeroPad := .zero ∈ flags
    prepend := if .plus ∈ flags then ch '+' else if .space ∈ flags then ch ' ' else 0
    caseAdjust := ch 'a' - ch 'A' }

theorem npfParseFlags_splits : Splits (fun _ => True) npfParseFlags (List.map Flag.char)
    (fun flags fs => fs.setFlags flags) fun _ rest => ∀ c ∈ rest.head?, npfFlag c = none := by
  intro fs s fs' rest _
  have h := splits_scanWhile npfFlag_iff fs.resetFlags s fs' rest trivial
  simpa only [npfParseFlags, NpfFormatSpec.setFlags, actAll_flag, foldl_sign,
    NpfFormatSpec.resetFlags, Bool.or_false, if_true] using h

/-! ## The directives -/

/-- A character that may come after the precision. -/
def AfterPrec (c : Byte) : Prop := c = ch '%' ∨ ch 'A' ≤ c

instance decidableAfterPrec (c : Byte) : Decidable (AfterPrec c) :=
  inferInstanceAs (Decidable (_ ∨ _))

theorem Letter.char_ne (l : Letter) :
    l.char ≠ ch 'l' ∧ l.char ≠ ch 'j' ∧ l.char ≠ ch 'z' ∧ l.char ≠ ch 't' := by
  cases l <;> decide

theorem NpfFmtSpecLenMod.ends_letter (m : NpfFmtSpecLenMod) (l : Letter) (rest : List Byte) :
    m.Ends ([l.char] ++ rest) := by
  cases m with
  | none =>
    intro c hc
    rw [← Option.some.inj hc]
    exact l.char_ne
  | long => exact fun h => l.char_ne.1 (Option.some.inj h)
  | largeLongLong | largeIntmax | largeSizet | largePtrdifft => trivial

theorem afterPrec_head (m : NpfFmtSpecLenMod) (l : Letter) (rest : List Byte) :
    ∀ c ∈ (m.text ++ [l.char] ++ rest).head?, AfterPrec c := by
  intro c hc
  cases m with
  | none =>
    rw [← Option.some.inj hc]
    cases l <;> decide
  | long | largeLongLong | largeIntmax | largeSizet | largePtrdifft =>
    rw [← Option.some.inj hc]
    decide

/-- What follows a precision is no part of it, and no part of a width. -/
theorem AfterPrec.other : ∀ {c : Byte}, AfterPrec c →
    isDigit c = false ∧ c ≠ ch '.' ∧ c ≠ ch '*' ∧ c ≠ ch '-' ∧ (npfFlag c).isNone := by
  decide +kernel

theorem Precision.ends_of_head {rest : List Byte} (h : ∀ c ∈ rest.head?, AfterPrec c)
    (t : Precision) : t.Ends rest := by
  cases t with
  | none => exact fun hc => (h _ hc).other.2.1 rfl
  | star => trivial
  | literal digits =>
    exact ⟨fun c hc => (h c hc).other.1,
      fun _ => ⟨fun hc => (h _ hc).other.2.2.1 rfl, fun hc => (h _ hc).other.2.2.2.1 rfl⟩⟩
  | negative digits => exact fun c hc => (h c hc).other.1

/-- A character that may come after the width. -/
def AfterWidth (c : Byte) : Prop := c = ch '.' ∨ AfterPrec c

instance decidableAfterWidth (c : Byte) : Decidable (AfterWidth c) :=
  inferInstanceAs (Decidable (_ ∨ _))

theorem AfterWidth.other : ∀ {c : Byte}, AfterWidth c →
    isDigit c = false ∧ c ≠ ch '*' ∧ (npfFlag c).isNone := by
  decide +kernel

theorem Precision.head {rest : List Byte} (h : ∀ c ∈ rest.head?, AfterPrec c) (t : Precision) :
    ∀ c ∈ (t.text ++ rest).head?, AfterWidth c := by
  intro c hc
  cases t with
  | none => exact .inr (h c hc)
  | star | literal | negative => exact .inl (Option.some.inj hc).symm

theorem Width.ends_of_head {rest : List Byte} (h : ∀ c ∈ rest.head?, AfterWidth c) (t : Width) :
    t.Ends rest := by
  cases t with
  | none => exact fun c hc => ⟨(h c hc).other.2.1, (h c hc).other.1⟩
  | star => trivial
  | literal first more leading => exact fun c hc => (h c hc).other.1

theorem npfFlag_digitChar : ∀ {d : Fin 10}, d.val ≠ 0 → (npfFlag (digitChar d)).isNone := by
  decide

/-- No flag starts what follows the flags. -/
theorem npfFlag_head {rest : List Byte} (h : ∀ c ∈ rest.head?, AfterWidth c) (t : Width) :
    ∀ c ∈ (t.text ++ rest).head?, npfFlag c = none := by
  intro c hc
  rw [← Option.isNone_iff_eq_none]
  cases t with
  | none => exact (h c hc).other.2.2
  | star =>
    rw [← Option.some.inj hc]
    decide
  | literal first more leading =>
    rw [← Option.some.inj hc]
    exact npfFlag_digitChar leading

/-- The parts set all the fields, so it does not matter what they held before. -/
theorem Directive.spec_eq (d : Directive) (fs : NpfFormatSpec) :
    d.spec = (d.letter.adjustCase
      ((((fs.setFlags d.flags).setFieldWidth d.width.opt d.width.value).setPrec
      d.prec.opt d.prec.value).setLengthModifier d.lenMod)).setConvSpec d.letter.conv := by
  unfold Letter.adjustCase
  cases h : d.letter.upper with
  | false =>
    simp [spec, h, NpfFormatSpec.setFlags, NpfFormatSpec.setFieldWidth, NpfFormatSpec.setPrec,
      NpfFormatSpec.setLengthModifier, NpfFormatSpec.setConvSpec]
  | true =>
    simp [spec, h, NpfFormatSpec.setFlags, NpfFormatSpec.setFieldWidth, NpfFormatSpec.setPrec,
      NpfFormatSpec.setLengthModifier, NpfFormatSpec.setConvSpec, NpfFormatSpec.upperCase]

/-- The parser accepts exactly the texts that start with a directive, and whatever `*out_spec` held
before, it then holds the contents for that directive. -/
theorem npfParseFormatSpec_iff (fs : NpfFormatSpec) (cur : List Byte) (fs' : NpfFormatSpec)
    (rest : List Byte) :
    npfParseFormatSpec fs (ch '%' :: cur) = some (fs', rest) ↔
      ∃ d : Directive, ch '%' :: cur = d.text ++ rest ∧ fs' = d.spec := by
  have hzero : npfFlag (ch '0') ≠ none := by
    rw [← Option.isSome_iff_ne_none]
    rfl
  have hlenMod := npfParseLengthModifier_splits.next npfParseConvSpec_scans (fun _ _ _ => trivial)
    NpfFmtSpecLenMod.ends_letter
  have hprec := npfParsePrec_splits.next hlenMod (fun _ _ _ => trivial) fun t u rest =>
    t.ends_of_head (afterPrec_head u.1 u.2 rest)
  have hwidth := npfParseWidth_splits.next hprec (fun _ _ _ => trivial) fun t u rest => by
    rw [List.append_assoc]
    exact t.ends_of_head (u.1.head (afterPrec_head u.2.1 u.2.2 rest))
  have hflags :=
    npfParseFlags_splits.next hwidth (fun t rest h hhead => hzero (h _ hhead)) fun t u rest => by
      rw [List.append_assoc, List.append_assoc]
      exact npfFlag_head (u.2.1.head (afterPrec_head u.2.2.1 u.2.2.2 rest)) u.1
  refine (hflags fs cur fs' rest trivial).trans ⟨?_, ?_⟩
  · rintro ⟨⟨flags, width, prec, lenMod, letter⟩, rfl, rfl⟩
    exact ⟨⟨flags, width, prec, lenMod, letter⟩, rfl,
      (Directive.spec_eq ⟨flags, width, prec, lenMod, letter⟩ fs).symm⟩
  · rintro ⟨⟨flags, width, prec, lenMod, letter⟩, htext, rfl⟩
    exact ⟨(flags, width, prec, lenMod, letter), (List.cons.inj htext).2,
      Directive.spec_eq ⟨flags, width, prec, lenMod, letter⟩ fs⟩

end Plos
