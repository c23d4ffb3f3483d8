import Plos.Libk.Nanoprintf.Print

/-! What a format string stands for.

`Renders mem format args text` says which text a format and its arguments stand for: characters
stand for themselves, a directive for its argument (`Converts`), laid out in a field
(`Resolved.layout`), and a `%` that starts no directive for itself. Some of it is peculiar to this
implementation. A precision adds zeros to `%c` and `%%` as well, and a negative one still sets the
least number of digits. The zero flag fills any field, a zero character and a null pointer print as
nothing, and `%#x` and `%hd` are no directives. -/

namespace Plos

/-! ## The meaning of a directive -/

/-- A directive whose asterisks have been replaced by arguments. -/
structure Resolved where
  width : Int
  left : Bool
  zeroFlag : Bool
  prepend : Byte
  /-- whether the precision counts as given -/
  given : Bool
  prec : Int
  upper : Bool
  lenMod : NpfFmtSpecLenMod
  conv : NpfFmtSpecConv
  deriving DecidableEq, Repr

/-- The width, and whether the argument for it moves the text to the left. -/
def Width.take : Width → VaList → Option ((Int × Bool) × VaList)
  | .none, args => some ((0, false), args)
  | .literal first more _, args => some ((int32 (decimal (first :: more)), false), args)
  | .star, w :: args =>
    some (if vaInt w < 0 then (int32 (-vaInt w), true) else (vaInt w, false), args)
  | .star, [] => Option.none

/-- Whether the precision counts as given, and its value. -/
def Precision.take : Precision → VaList → Option ((Bool × Int) × VaList)
  | .none, args => some ((false, 0), args)
  | .literal digits, args => some ((true, int32 (decimal digits)), args)
  | .negative digits, args => some ((false, int32 (decimal digits)), args)
  | .star, w :: args => some (if vaInt w < 0 then (false, 0) else (true, vaInt w), args)
  | .star, [] => Option.none

def Directive.resolve (d : Directive) (args : VaList) : Option (Resolved × VaList) :=
  (d.width.take args).bind fun w => (d.prec.take w.2).map fun p =>
    ({ width := w.1.1
       left := .minus ∈ d.flags || w.1.2
       zeroFlag := .zero ∈ d.flags
       prepend := if .plus ∈ d.flags then ch '+' else if .space ∈ d.flags then ch ' ' else 0
       given := p.1.1
       prec := p.1.2
       upper := d.letter.upper
       lenMod := d.lenMod
       conv := d.letter.conv }, p.2)

/-- At least `k` characters, with zeros in front. -/
def leadZeros (k : Int) (s : List Byte) : List Byte :=
  List.replicate (k - s.length).toNat (ch '0') ++ s

/-- The digit `d` of a numeral. -/
def numeralDigit (upper : Bool) (d : Nat) : Byte :=
  (if upper then chars "0123456789ABCDEF".toList else chars "0123456789abcdef".toList).getD d 0

def numeral (upper : Bool) (base n : Nat) : List Byte :=
  (numeralRev base n).reverse.map (numeralDigit upper)

def NpfFmtSpecConv.base : NpfFmtSpecConv → Option Nat
  | .binary => some 2
  | .octal => some 8
  | .unsignedInt => some 10
  | .hexInt | .pointer => some 16
  | .percent | .char | .string | .signedInt => none

/-- Conversions for which a given precision turns the zero flag off. -/
def NpfFmtSpecConv.ignoresZeroFlag : NpfFmtSpecConv → Bool
  | .signedInt | .octal | .hexInt | .unsignedInt => true
  | .percent | .char | .string | .binary | .pointer => false

namespace Resolved

/-- The least number of digits. -/
def least (r : Resolved) : Int := if !r.given && r.conv = .pointer then 16 else r.prec

def zeroPad (r : Resolved) : Bool := r.zeroFlag && !(r.given && r.conv.ignoresZeroFlag)

/-- What a field is filled with. -/
def pad (r : Resolved) (zero : Bool) : Byte :=
  if r.zeroPad && !r.left && !(r.given && r.least = 0 && zero) then ch '0' else ch ' '

/-- Zeros go between the sign and the body. -/
def layout (r : Resolved) (zero : Bool) (sign body : List Byte) : List Byte :=
  let gap := List.replicate (r.width - (sign.length + body.length : Nat)).toNat (r.pad zero)
  if r.left then sign ++ body ++ gap
  else if r.pad zero = ch '0' then sign ++ gap ++ body
  else gap ++ sign ++ body

/-- With a precision of zero a zero has no digits. -/
def digits (r : Resolved) (base n : Nat) : List Byte :=
  if n = 0 ∧ r.given ∧ r.least = 0 then [] else leadZeros r.least (numeral r.upper base n)

def signedArg (r : Resolved) (w : BitVec 64) : Int := if r.lenMod = .none then vaInt w else w.toInt

def unsignedArg (r : Resolved) (w : BitVec 64) : Nat :=
  if r.conv ≠ .pointer ∧ r.lenMod = .none then w.toNat % 2 ^ 32 else w.toNat

def sign (r : Resolved) (v : Int) : List Byte :=
  if v < 0 then [ch '-'] else if r.prepend ≠ 0 then [r.prepend] else []

/-- The string `s` is at the address `w`: it ends at a zero or where the precision cuts it off. -/
structure StringAt (mem : Nat → Byte) (r : Resolved) (w : BitVec 64) (s : List Byte) : Prop where
  bytes : bytesAt (bytesFrom mem w.toNat) 0 s.length = s
  nonzero : ∀ b ∈ s, b ≠ 0
  short : s.length < 2 ^ 31
  within : r.given = true → s = [] ∨ s.length ≤ r.prec
  ends : bytesFrom mem w.toNat s.length = 0 ∨ r.given = true ∧ r.prec ≤ s.length

/-- The sign and the body that stand for an argument, and whether it is the number zero. -/
inductive Converts (mem : Nat → Byte) (r : Resolved) : VaList → Bool → List Byte → List Byte →
  VaList → Prop where
  | percent {args} : r.conv = .percent →
    Converts mem r args false [] (leadZeros r.least [ch '%']) args
  | char {args} (w) : r.conv = .char →
      Converts mem r (w :: args) false []
        (leadZeros r.least (if w.setWidth 8 = (0 : Byte) then [] else [w.setWidth 8])) args
  | null {args} : r.conv = .string → Converts mem r (0 :: args) false [] [] args
  | string {args} (w) {s} : r.conv = .string → w ≠ 0 → r.StringAt mem w s →
    Converts mem r (w :: args) false [] s args
  | signed {args} (w) : r.conv = .signedInt →
      Converts mem r (w :: args) (r.signedArg w = 0) (r.sign (r.signedArg w))
        (r.digits 10 (r.signedArg w).natAbs) args
  | unsigned {args} (w) {base} : r.conv.base = some base →
      Converts mem r (w :: args) (r.unsignedArg w = 0) [] (r.digits base (r.unsignedArg w)) args

end Resolved

/-- The text that a format and its arguments stand for. -/
inductive Renders (mem : Nat → Byte) : List Byte → VaList → List Byte → Prop where
  | nil {args} : Renders mem [] args []
  | plain {c format args text} : c ≠ ch '%' → Renders mem format args text →
    Renders mem (c :: format) args (c :: text)
  | stray {format args text} : (∀ d : Directive, ∀ rest, ch '%' :: format ≠ d.text ++ rest) →
      Renders mem format args text → Renders mem (ch '%' :: format) args (ch '%' :: text)
  | directive {d : Directive} {r : Resolved} {format args args' args'' zero sign body text} :
      d.resolve args = some (r, args') → r.Converts mem args' zero sign body args'' →
      Renders mem format args'' text →
        Renders mem (d.text ++ format) args (r.layout zero sign body ++ text)

end Plos
