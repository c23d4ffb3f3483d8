import Plos.Libk.Nanoprintf.Format

/-! Numbers that are printed can be read again.

`readNumber` reads a number as `strtoll` does: after spaces and a sign the digits up to the first
character that is not one. Whatever the flags, the width and the precision of an integer directive
are, what it prints reads as the value of its argument (`npfVpprintf_readNumber`). -/

namespace Plos

/-- The value of a digit, in either case. -/
def digitValue (c : Byte) : Option Nat :=
  if ch '0' ≤ c ∧ c ≤ ch '9' then some (c.toNat - (ch '0').toNat)
  else if ch 'a' ≤ c ∧ c ≤ ch 'f' then some (c.toNat - (ch 'a').toNat + 10)
  else if ch 'A' ≤ c ∧ c ≤ ch 'F' then some (c.toNat - (ch 'A').toNat + 10)
  else none

/-- Digits behind those that make up `v`. -/
def readDigits (base : Nat) : Nat → List Byte → Nat
  | v, [] => v
  | v, c :: s =>
    match digitValue c with
    | some d => if d < base then readDigits base (v * base + d) s else v
    | none => v

def readSigned (base : Nat) : List Byte → Int
  | [] => 0
  | c :: s =>
    if c = ch '-' then -(readDigits base 0 s : Int)
    else if c = ch '+' then readDigits base 0 s
    else readDigits base 0 (c :: s)

def readNumber (base : Nat) (s : List Byte) : Int := readSigned base (s.dropWhile (· = ch ' '))

section
variable {base : Nat} {upper : Bool} {ds : List Nat} {s : List Byte} {v k : Nat}

theorem digitValue_numeralDigit :
    ∀ (upper : Bool) (d : Fin 16), digitValue (numeralDigit upper d) = some d.val := by
  decide

theorem readDigits_cons (hbase : base ≤ 16) {d : Nat} (hd : d < base) :
    readDigits base v (numeralDigit upper d :: s) = readDigits base (v * base + d) s := by
  rw [readDigits, digitValue_numeralDigit upper ⟨d, by omega⟩]
  exact if_pos hd

theorem readDigits_append (hbase : base ≤ 16) (hds : ∀ d ∈ ds, d < base) :
    readDigits base v (ds.map (numeralDigit upper) ++ s) =
      readDigits base (ds.foldl (fun v d => v * base + d) v) s := by
  induction ds generalizing v with
  | nil => rfl
  | cons d ds ih =>
    rw [List.map_cons, List.cons_append, readDigits_cons hbase (hds d List.mem_cons_self)]
    exact ih fun d hd => hds d (List.mem_cons_of_mem _ hd)

/-- The digits, and spaces behind them. -/
theorem readDigits_digits (upper : Bool) (hbase : base ≤ 16) (hds : ∀ d ∈ ds, d < base) (k : Nat) :
    readDigits base 0 (ds.map (numeralDigit upper) ++ List.replicate k (ch ' ')) =
      positional base ds := by
  rw [readDigits_append hbase hds]
  cases k <;> rfl

theorem dropWhile_spaces (k : Nat) (s : List Byte) :
    (List.replicate k (ch ' ') ++ s).dropWhile (· = ch ' ') = s.dropWhile (· = ch ' ') := by
  rw [List.dropWhile_append_of_pos]
  intro c hc
  rw [(List.mem_replicate.mp hc).2]
  rfl

theorem readNumber_spaces (base k : Nat) (s : List Byte) :
    readNumber base (List.replicate k (ch ' ') ++ s) = readNumber base s := by
  rw [readNumber, dropWhile_spaces, readNumber]

theorem numeralDigit_ne : ∀ (upper : Bool) (d : Fin 16),
    numeralDigit upper d ≠ ch ' ' ∧ numeralDigit upper d ≠ ch '-' ∧
    numeralDigit upper d ≠ ch '+' := by
  decide

/-- A number without a sign. -/
theorem readNumber_digits (upper : Bool) (hbase : base ≤ 16) (hds : ∀ d ∈ ds, d < base) (k : Nat) :
    readNumber base (ds.map (numeralDigit upper) ++ List.replicate k (ch ' ')) =
      positional base ds := by
  have hread := readDigits_digits upper hbase hds k
  cases ds with
  | nil =>
    have hspaces := readNumber_spaces base k []
    rw [List.append_nil] at hspaces
    exact hspaces
  | cons d ds =>
    have hd := hds d List.mem_cons_self
    obtain ⟨hspace, hminus, hplus⟩ := numeralDigit_ne upper ⟨d, by omega⟩
    rw [List.map_cons, List.cons_append] at hread ⊢
    rw [readNumber, List.dropWhile_cons_of_neg (by simpa using hspace), readSigned, if_neg hminus,
      if_neg hplus, hread]

/-- A number with the sign that a directive puts before it. -/
theorem readNumber_sign {r : Resolved} {x : Int}
    (hprepend : r.prepend = 0 ∨ r.prepend = ch '+' ∨ r.prepend = ch ' ') (hbase : base ≤ 16)
    (hds : ∀ d ∈ ds, d < base) (hx : positional base ds = x.natAbs) (k : Nat) :
    readNumber base (r.sign x ++ (ds.map (numeralDigit upper) ++ List.replicate k (ch ' '))) =
      x := by
  have hread := readDigits_digits upper hbase hds k
  have hnumber := readNumber_digits upper hbase hds k
  unfold Resolved.sign
  split
  · rw [List.singleton_append, readNumber, List.dropWhile_cons_of_neg (by decide), readSigned,
      if_pos rfl, hread, hx]
    omega
  · split
    · rcases hprepend with h | h | h
      · contradiction
      · rw [h, List.singleton_append, readNumber, List.dropWhile_cons_of_neg (by decide),
          readSigned, if_neg (by decide), if_pos rfl, hread, hx]
        omega
      · rw [h]
        refine (readNumber_spaces base 1 _).trans (hnumber.trans ?_)
        omega
    · rw [List.nil_append, hnumber, hx]
      omega

end

section
variable {r : Resolved} {base n : Nat}

theorem numeralDigit_zero (upper : Bool) : numeralDigit upper 0 = ch '0' := by
  cases upper <;> rfl

theorem lt_of_mem_zeros_append {ds : List Nat} (hbase : 2 ≤ base) (hds : ∀ d ∈ ds, d < base)
    (k : Nat) : ∀ d ∈ List.replicate k 0 ++ ds, d < base := by
  intro d hd
  rcases List.mem_append.mp hd with hd | hd
  · rw [(List.mem_replicate.mp hd).2]
    omega
  · exact hds d hd

/-- The body of a number consists of digits that stand for it. -/
theorem Resolved.exists_digits (r : Resolved) (hbase : 2 ≤ base) (n : Nat) :
    ∃ ds, r.digits base n = ds.map (numeralDigit r.upper) ∧ (∀ d ∈ ds, d < base) ∧
      positional base ds = n := by
  unfold digits
  split
  · next h => exact ⟨[], rfl, fun d hd => absurd hd List.not_mem_nil, h.1.symm⟩
  · refine ⟨List.replicate (r.least - (numeral r.upper base n).length).toNat 0 ++
      (numeralRev base n).reverse, ?_, ?_, ?_⟩
    · rw [leadZeros, List.map_append, List.map_replicate, numeralDigit_zero]
      rfl
    · exact lt_of_mem_zeros_append hbase
        (fun d hd => numeralRev_lt hbase (List.mem_reverse.mp hd)) _
    · rw [positional_replicate_zero, positional_numeralRev]

/-- The field of a number: spaces, the sign, digits and spaces. -/
theorem Resolved.exists_layout (r : Resolved) (hbase : 2 ≤ base) (n : Nat) (zero : Bool)
    (sign : List Byte) :
    ∃ a ds b, r.layout zero sign (r.digits base n) =
      List.replicate a (ch ' ') ++
        (sign ++ (ds.map (numeralDigit r.upper) ++ List.replicate b (ch ' '))) ∧
      (∀ d ∈ ds, d < base) ∧ positional base ds = n := by
  obtain ⟨ds, hbody, hds, hn⟩ := r.exists_digits hbase n
  have hpad : r.pad zero ≠ ch '0' → r.pad zero = ch ' ' := by
    unfold pad
    split
    · exact fun h => absurd rfl h
    · exact fun _ => rfl
  unfold layout
  generalize (r.width - (sign.length + (r.digits base n).length : Nat)).toNat = k
  rw [hbody]
  simp only
  split
  · next hleft =>
    rw [hpad (pad_of_left hleft zero)]
    exact ⟨0, ds, k, by simp, hds, hn⟩
  · split
    · next hzero =>
      refine ⟨0, List.replicate k 0 ++ ds, 0, ?_, lt_of_mem_zeros_append hbase hds k, ?_⟩
      · simp [hzero, numeralDigit_zero]
      · rw [positional_replicate_zero, hn]
    · next hzero =>
      rw [hpad hzero]
      exact ⟨k, ds, 0, by simp, hds, hn⟩

end

/-- The base of a numeric conversion. -/
def NpfFmtSpecConv.radix : NpfFmtSpecConv → Option Nat
  | .signedInt => some 10
  | conv => conv.base

/-- The value of an argument of a numeric conversion. -/
def Resolved.value (r : Resolved) (w : BitVec 64) : Int :=
  if r.conv = .signedInt then r.signedArg w else r.unsignedArg w

theorem Directive.resolve_prepend {d : Directive} {args args' : VaList} {r : Resolved}
    (h : d.resolve args = some (r, args')) :
    r.conv = d.letter.conv ∧ (r.prepend = 0 ∨ r.prepend = ch '+' ∨ r.prepend = ch ' ') := by
  obtain ⟨⟨w, wargs⟩, hw, hrest⟩ := Option.bind_eq_some_iff.mp h
  obtain ⟨⟨p, pargs⟩, hp, heq⟩ := Option.map_eq_some_iff.mp hrest
  obtain ⟨rfl, rfl⟩ := Prod.mk.inj heq
  refine ⟨rfl, ?_⟩
  simp only
  split
  · exact .inr (.inl rfl)
  · split
    · exact .inr (.inr rfl)
    · exact .inl rfl

/-- A single directive is laid out on its own. -/
theorem Directive.npfVpprintf_text {mem : Nat → Byte} {d : Directive} {args args' args'' : VaList}
    {r : Resolved} {zero : Bool} {sign body : List Byte} (hr : d.resolve args = some (r, args'))
    (H : r.Converts mem args' zero sign body args'') (fs : NpfFormatSpec) :
    npfVpprintf (fun s c => s ++ [c]) mem fs [] d.text args =
      some (r.layout zero sign body, int32 (r.layout zero sign body).length) := by
  have hrun := (Renders.directive hr H .nil).npfVpprintf (fun s c => s ++ [c]) fs []
  rwa [List.append_nil, List.append_nil, foldl_snoc, List.nil_append] at hrun

/-- Whatever the flags, the width and the precision are, a number that is printed reads as what it
was. -/
theorem npfVpprintf_readNumber (mem : Nat → Byte) (fs : NpfFormatSpec) {d : Directive}
    {args rest : VaList} {r : Resolved} {w : BitVec 64} {base : Nat}
    (hr : d.resolve args = some (r, w :: rest)) (hbase : d.letter.conv.radix = some base) :
    ∃ text n, npfVpprintf (fun s c => s ++ [c]) mem fs [] d.text args = some (text, n) ∧
      readNumber base text = r.value w := by
  obtain ⟨hconv, hprepend⟩ := Directive.resolve_prepend hr
  have hbounds : 2 ≤ base ∧ base ≤ 16 := by
    revert hbase
    cases d.letter.conv <;> simp [NpfFmtSpecConv.radix, NpfFmtSpecConv.base] <;> omega
  by_cases hsigned : r.conv = .signedInt
  · obtain rfl : 10 = base := by
      rw [← hconv, hsigned] at hbase
      exact Option.some.inj hbase
    have H : r.Converts mem (w :: rest) _ _ _ rest := .signed w hsigned
    obtain ⟨a, ds, b, htext, hds, hn⟩ :=
      r.exists_layout hbounds.1 (r.signedArg w).natAbs (decide (r.signedArg w = 0))
        (r.sign (r.signedArg w))
    refine ⟨_, _, Directive.npfVpprintf_text hr H fs, ?_⟩
    rw [htext, readNumber_spaces, readNumber_sign hprepend hbounds.2 hds hn, Resolved.value,
      if_pos hsigned]
  · have hbase' : r.conv.base = some base := by
      rw [← hconv] at hbase
      cases h : r.conv with
      | signedInt => exact absurd h hsigned
      | percent | char | string | binary | octal | hexInt | unsignedInt | pointer =>
        rw [h] at hbase
        exact hbase
    have H : r.Converts mem (w :: rest) _ _ _ rest := .unsigned w hbase'
    obtain ⟨a, ds, b, htext, hds, hn⟩ :=
      r.exists_layout hbounds.1 (r.unsignedArg w) (decide (r.unsignedArg w = 0)) []
    refine ⟨_, _, Directive.npfVpprintf_text hr H fs, ?_⟩
    rw [htext, readNumber_spaces, List.nil_append, readNumber_digits r.upper hbounds.2 hds, hn,
      Resolved.value, if_neg hsigned]

/-- `%-12.6lld` with -42. -/
theorem npfVpprintf_readNumber_minus : ∃ text n, npfVpprintf (fun s c => s ++ [c]) (fun _ => 0)
    (Directive.spec ⟨[], .none, .none, .none, .d⟩) []
    (Directive.text ⟨[.minus], .literal 1 [2] (by decide), .literal [6], .largeLongLong, .d⟩)
      [-42] = some (text, n) ∧ readNumber 10 text = -42 := by
  have hr : Directive.resolve
      ⟨[.minus], .literal 1 [2] (by decide), .literal [6], .largeLongLong, .d⟩ [-42] =
      some (⟨12, true, false, 0, true, 6, false, .largeLongLong, .signedInt⟩, [-42]) := by
    decide +kernel
  obtain ⟨text, n, hrun, hread⟩ :=
    npfVpprintf_readNumber (fun _ => 0) (Directive.spec ⟨[], .none, .none, .none, .d⟩) hr rfl
  exact ⟨text, n, hrun, hread.trans (by decide)⟩

end Plos
