import Plos.Common.Logging
import Plos.Libk.Nanoprintf.Format

/-! Printing into a buffer: `npf_vsnprintf`, and the log line that is printed with it.

The callback `npf_bufputc` stores one character more than the terminated text has room for, which
the zero at the end then overwrites. So the addresses are written in another order than `vsnprintf`
promises, but they are the same ones and hold the same bytes in the end (`Ram.Agrees`). -/

namespace Plos

/-! ## The model -/

/-- What the callback gets, with the memory that `dst` points into. -/
structure NpfBufputcCtx where
  dst : Nat
  len : Nat
  cur : Nat
  ram : Ram

def npfBufputc (bpc : NpfBufputcCtx) (c : Byte) : NpfBufputcCtx :=
  if bpc.cur < bpc.len then
    { bpc with ram := bpc.ram.store (add64 bpc.dst bpc.cur) c, cur := bpc.cur + 1 }
  else bpc

def npfBufputcNop (bpc : NpfBufputcCtx) (_ : Byte) : NpfBufputcCtx := bpc

/-- The index of the zero at the end. -/
def npfEndIndex (n : Int) (bufsz : Nat) : Nat := if n < 0 then 0 else min n.toNat (bufsz - 1)

def npfVsnprintf (mem : Nat → Byte) (fs : NpfFormatSpec) (r : Ram) (buffer bufsz : Nat)
    (format : List Byte) (vlist : VaList) : Option (Ram × Int) := do
  let pc := if buffer ≠ 0 then npfBufputc else npfBufputcNop
  let (bufputcCtx, n) ← npfVpprintf pc mem fs ⟨buffer, bufsz, 0, r⟩ format vlist
  let r := bufputcCtx.ram
  some (if buffer ≠ 0 ∧ bufsz ≠ 0 then r.store (add64 buffer (npfEndIndex n bufsz)) 0 else r, n)

/-- `log_line` with the format and the arguments of its message. -/
def logLineFormat (mem : Nat → Byte) (fs : NpfFormatSpec) (r : Ram) (logLevel : LogType)
    (fmt : List Byte) (args : VaList) : Option LogOutput := do
  let (r, ptr) ← logPrefix r logLevel
  let remaining := sub64 (sub64 logBufferDim ptr) 2
  let (r, written) ← npfVsnprintf mem fs r ptr remaining fmt args
  some (logEnd r (add64 ptr (written % 2 ^ 64).toNat) logLevel)

/-! ## Stores in another order -/

/-- The same contents, after stores to the same addresses. -/
structure Ram.Agrees (r r' : Ram) : Prop where
  byte : r.byte = r'.byte
  writes : ∀ a, a ∈ r.writes ↔ a ∈ r'.writes

theorem Ram.Agrees.refl (r : Ram) : r.Agrees r := ⟨rfl, fun _ => Iff.rfl⟩

theorem Ram.Agrees.store {r r' : Ram} (H : r.Agrees r') (a : Nat) (b : Byte) :
    (r.store a b).Agrees (r'.store a b) := by
  constructor
  · rw [Ram.store, Ram.store, H.byte]
  · intro x
    rw [Ram.store, Ram.store, List.mem_append, List.mem_append, H.writes]

/-- A store to an address that is stored to again. -/
theorem Ram.store_store_agrees (r : Ram) (a : Nat) (b b' : Byte) :
    ((r.store a b).store a b').Agrees (r.store a b') := by
  constructor
  · exact Function.update_idem ..
  · intro x
    simp only [Ram.store, List.mem_append, List.mem_singleton, or_assoc, or_self]

/-- From `r` on there have been stores to the `n` bytes at `a` only. -/
structure Ram.Within (r r' : Ram) (a n : Nat) : Prop where
  writes : ∀ x ∈ r'.writes, x ∈ r.writes ∨ a ≤ x ∧ x < a + n
  byte : ∀ x, x < a ∨ a + n ≤ x → r'.byte x = r.byte x

theorem Ram.Within.refl (r : Ram) (a n : Nat) : r.Within r a n :=
  ⟨fun _ hx => .inl hx, fun _ _ => rfl⟩

theorem Ram.Within.store {r r' : Ram} {a n x : Nat} (H : r.Within r' a n) (b : Byte) (hle : a ≤ x)
    (hlt : x < a + n) : r.Within (r'.store x b) a n := by
  constructor
  · intro y hy
    rcases List.mem_append.mp hy with hy | hy
    · exact H.writes y hy
    · rw [List.mem_singleton.mp hy]
      exact .inr ⟨hle, hlt⟩
  · intro y hy
    rw [Ram.store_byte, if_neg (by omega), H.byte y hy]

theorem Ram.within_storeBytes (r : Ram) {a n : Nat} {bs : List Byte} (h : bs.length ≤ n) :
    r.Within (r.storeBytes a bs) a n := by
  constructor
  · intro x hx
    rw [Ram.storeBytes_writes, List.mem_append, List.mem_range'_1] at hx
    exact hx.imp id fun hx => ⟨hx.1, by omega⟩
  · intro x hx
    rw [Ram.storeBytes_byte]
    split
    · exact List.getD_eq_default _ _ (by omega)
    · rfl

theorem Ram.Within.of_agrees {r r' r'' : Ram} {a n : Nat} (H : r.Within r' a n)
    (h : r''.Agrees r') : r.Within r'' a n :=
  ⟨fun x hx => H.writes x ((h.writes x).mp hx), fun x hx => by rw [h.byte, H.byte x hx]⟩

/-! ## The text in the buffer -/

section
variable {mem : Nat → Byte} {format text : List Byte} {args : VaList} {buffer bufsz : Nat}

/-- The callback stores what there is room for. -/
theorem foldl_npfBufputc (hspace : buffer + bufsz ≤ 2 ^ 64) {cur : Nat} (hcur : cur ≤ bufsz)
    (r : Ram) :
    text.foldl npfBufputc ⟨buffer, bufsz, cur, r⟩ =
      ⟨buffer, bufsz, min bufsz (cur + text.length),
        r.storeBytes (buffer + cur) (text.take (bufsz - cur))⟩ := by
  induction text generalizing cur r with
  | nil =>
    rw [List.foldl_nil, List.take_nil, List.length_nil, Nat.add_zero, Nat.min_eq_right hcur,
      Ram.storeBytes]
  | cons c text ih =>
    rw [List.foldl_cons, npfBufputc]
    by_cases hroom : cur < bufsz
    · have hnext : bufsz - cur = bufsz - (cur + 1) + 1 := by omega
      simp only [if_pos hroom]
      rw [ih hroom, add64_of_lt (by omega), hnext, List.take_succ_cons, Ram.storeBytes,
        List.length_cons, Nat.succ_add_eq_add_succ]
      rfl
    · obtain rfl : cur = bufsz := by omega
      simp only [if_neg hroom]
      rw [ih hcur, Nat.sub_self, List.take_zero, List.take_zero, Nat.min_eq_left (by omega),
        Nat.min_eq_left (by omega)]

theorem foldl_npfBufputcNop (text : List Byte) (bpc : NpfBufputcCtx) :
    text.foldl npfBufputcNop bpc = bpc := by
  induction text with
  | nil => rfl
  | cons c text ih => exact ih

/-- The zero at the end makes the text that is promised out of what the callback has stored. -/
theorem store_end_agrees (hbufsz : bufsz ≠ 0) (r : Ram) :
    ((r.storeBytes buffer (text.take bufsz)).store (buffer + min text.length (bufsz - 1)) 0).Agrees
      (r.storeBytes buffer (text.take (bufsz - 1) ++ [0])) := by
  have hfront : (text.take (bufsz - 1)).length = min text.length (bufsz - 1) := by
    rw [List.length_take, Nat.min_comm]
  rw [Ram.storeBytes_append, hfront]
  by_cases hlen : text.length < bufsz
  · rw [List.take_of_length_le (by omega), List.take_of_length_le (by omega)]
    exact .refl _
  · have hindex : bufsz - 1 < text.length := by omega
    have htake : text.take bufsz = text.take (bufsz - 1) ++ [text[bufsz - 1]] := by
      rw [← List.take_succ_eq_append_getElem hindex, Nat.sub_add_cancel (by omega)]
    rw [htake, Ram.storeBytes_append, hfront]
    exact Ram.store_store_agrees ..

theorem npfEndIndex_of_lt (h : text.length < 2 ^ 31) (bufsz : Nat) :
    npfEndIndex (int32 text.length) bufsz = min text.length (bufsz - 1) := by
  rw [int32_of_lt (by omega) (by omega), npfEndIndex, if_neg (by omega), Int.toNat_natCast]

/-- Printing into a buffer keeps the promise of `vsnprintf`. -/
theorem Renders.npfVsnprintf (H : Renders mem format args text) (htext : text.length < 2 ^ 31)
    (hbuffer : buffer ≠ 0) (hspace : buffer + bufsz ≤ 2 ^ 64) (fs : NpfFormatSpec) (r : Ram) :
    ∃ r', Plos.npfVsnprintf mem fs r buffer bufsz format args = some (r', (text.length : Int)) ∧
      r'.Agrees (vsnprintf r buffer bufsz text).1 := by
  have hrun := H.npfVpprintf npfBufputc fs ⟨buffer, bufsz, 0, r⟩
  rw [foldl_npfBufputc hspace (Nat.zero_le _), Nat.add_zero, Nat.sub_zero] at hrun
  have hend := npfEndIndex_of_lt htext bufsz
  rw [int32_of_lt (by omega) (by omega)] at hrun hend
  rw [Plos.npfVsnprintf, if_pos hbuffer, hrun, vsnprintf]
  simp only [Option.bind_eq_bind, Option.bind_some, hend]
  refine ⟨_, rfl, ?_⟩
  by_cases hbufsz : bufsz = 0
  · rw [if_neg (fun h => h.2 hbufsz), if_pos hbufsz, hbufsz, List.take_zero]
    exact .refl r
  · rw [if_pos ⟨hbuffer, hbufsz⟩, if_neg hbufsz, add64_of_lt (by omega)]
    exact store_end_agrees hbufsz r

/-- Without a buffer the text is only measured. -/
theorem Renders.npfVsnprintf_null (H : Renders mem format args text) (htext : text.length < 2 ^ 31)
    (fs : NpfFormatSpec) (r : Ram) (bufsz : Nat) :
    Plos.npfVsnprintf mem fs r 0 bufsz format args = some (r, (text.length : Int)) := by
  have hrun := H.npfVpprintf npfBufputcNop fs ⟨0, bufsz, 0, r⟩
  rw [foldl_npfBufputcNop, int32_of_lt (by omega) (by omega)] at hrun
  rw [Plos.npfVsnprintf, if_neg (not_not_intro rfl), hrun]
  rfl

/-- `%04x` with 42. -/
theorem renders_hex :
    Renders (fun _ => 0) (chars ['%', '0', '4', 'x']) [42] (chars ['0', '0', '2', 'a']) := by
  have hr : Directive.resolve ⟨[.zero], .literal 4 [] (by decide), .none, .none, .x⟩ [42] =
      some (⟨4, false, true, 0, false, 0, false, .none, .hexInt⟩, [42]) := by
    decide +kernel
  exact .directive hr (.unsigned 42 rfl) .nil

/-- A buffer of the size that has been measured gets the whole text with a zero at its end, and
nothing else is written. -/
theorem npfVsnprintf_measured (H : Renders mem format args text) (htext : text.length < 2 ^ 31)
    (hbuffer : buffer ≠ 0) (hspace : buffer + (text.length + 1) ≤ 2 ^ 64) (fs : NpfFormatSpec)
    (r : Ram) :
    ∃ n : Nat, npfVsnprintf mem fs r 0 0 format args = some (r, (n : Int)) ∧
      ∃ r', npfVsnprintf mem fs r buffer (n + 1) format args = some (r', (n : Int)) ∧
        bytesAt r'.byte buffer (n + 1) = text ++ [0] ∧ r.Within r' buffer (n + 1) := by
  obtain ⟨r', hrun, hagrees⟩ := H.npfVsnprintf htext hbuffer hspace fs r
  have hpromise : (vsnprintf r buffer (text.length + 1) text).1 =
      r.storeBytes buffer (text ++ [0]) := by
    rw [vsnprintf, if_neg (Nat.succ_ne_zero _), Nat.add_sub_cancel, List.take_length]
  have hlen : (text ++ [0]).length = text.length + 1 := List.length_append
  rw [hpromise] at hagrees
  refine ⟨text.length, H.npfVsnprintf_null htext fs r 0, r', hrun, ?_, ?_⟩
  · rw [hagrees.byte, ← hlen, Ram.bytesAt_storeBytes]
  · exact (r.within_storeBytes (Nat.le_of_eq hlen)).of_agrees hagrees

theorem npfVsnprintf_measured_hex : ∃ n : Nat,
    npfVsnprintf (fun _ => 0) (Directive.spec ⟨[], .none, .none, .none, .d⟩) ⟨fun _ => 0, []⟩ 0 0
      (chars ['%', '0', '4', 'x']) [42] = some (⟨fun _ => 0, []⟩, (n : Int)) ∧
    ∃ r, npfVsnprintf (fun _ => 0) (Directive.spec ⟨[], .none, .none, .none, .d⟩) ⟨fun _ => 0, []⟩
      4096 (n + 1) (chars ['%', '0', '4', 'x']) [42] = some (r, (n : Int)) ∧
      bytesAt r.byte 4096 (n + 1) = chars ['0', '0', '2', 'a'] ++ [0] := by
  obtain ⟨n, hnull, r, hrun, hbytes, -⟩ :=
    npfVsnprintf_measured renders_hex (by decide) (show 4096 ≠ 0 by decide)
      (by decide) (Directive.spec ⟨[], .none, .none, .none, .d⟩) ⟨fun _ => 0, []⟩
  exact ⟨n, hnull, r, hrun, hbytes⟩

theorem npfEndIndex_lt (hbufsz : bufsz ≠ 0) (n : Int) : npfEndIndex n bufsz < bufsz := by
  unfold npfEndIndex
  split <;> omega

/-- Whatever the format and the arguments are, and even if the length of the text is no `int`,
nothing outside of the buffer is written, and there is a string with an end in it. -/
theorem npfVsnprintf_within {fs : NpfFormatSpec} {r r' : Ram} {n : Int}
    (hspace : buffer + bufsz ≤ 2 ^ 64)
    (h : npfVsnprintf mem fs r buffer bufsz format args = some (r', n)) :
    r.Within r' buffer bufsz ∧
    (buffer ≠ 0 → bufsz ≠ 0 → ∃ i < bufsz, r'.byte (buffer + i) = 0) := by
  obtain ⟨⟨ctx, n'⟩, hrun, heq⟩ := Option.bind_eq_some_iff.mp h
  obtain ⟨rfl, rfl⟩ := Prod.mk.inj (Option.some.inj heq)
  obtain ⟨text, -, rfl, -⟩ := exists_renders_npfVpprintf hrun
  by_cases hbuffer : buffer = 0
  · rw [if_neg (not_not_intro hbuffer), foldl_npfBufputcNop, if_neg fun h => h.1 hbuffer]
    exact ⟨.refl .., fun h => absurd hbuffer h⟩
  · have hstored : r.Within (r.storeBytes buffer (text.take bufsz)) buffer bufsz :=
      r.within_storeBytes (List.length_take_le ..)
    rw [if_pos hbuffer, foldl_npfBufputc hspace (Nat.zero_le _), Nat.add_zero, Nat.sub_zero]
    by_cases hbufsz : bufsz = 0
    · rw [if_neg fun h => h.2 hbufsz]
      exact ⟨hstored, fun _ h => absurd hbufsz h⟩
    · have hend := npfEndIndex_lt hbufsz n'
      rw [if_pos ⟨hbuffer, hbufsz⟩, add64_of_lt (by omega)]
      refine ⟨hstored.store 0 (by omega) (by omega), fun _ _ => ⟨_, hend, ?_⟩⟩
      rw [Ram.store_byte, if_pos rfl]

/-- A buffer that is too short. -/
theorem npfVsnprintf_within_short : ∃ r n,
    npfVsnprintf (fun _ => 0) (Directive.spec ⟨[], .none, .none, .none, .d⟩) ⟨fun _ => 1, []⟩ 4096 3
      (chars ['%', '0', '4', 'x']) [42] = some (r, n) ∧
    Ram.Within ⟨fun _ => 1, []⟩ r 4096 3 ∧ ∃ i < 3, r.byte (4096 + i) = 0 := by
  obtain ⟨r, hrun, -⟩ := renders_hex.npfVsnprintf (by decide) (show 4096 ≠ 0 by decide)
    (show 4096 + 3 ≤ 2 ^ 64 by decide) (Directive.spec ⟨[], .none, .none, .none, .d⟩)
      ⟨fun _ => 1, []⟩
  obtain ⟨hwithin, hend⟩ := npfVsnprintf_within (by decide) hrun
  exact ⟨r, _, hrun, hwithin, hend (by decide) (by decide)⟩

end

/-! ## The log line -/

theorem logEnd_agrees {r r' : Ram} (H : r.Agrees r') (ptr : Nat) (logLevel : LogType) :
    ∃ s, logEnd r ptr logLevel = { logEnd r' ptr logLevel with ram := s } ∧
      s.Agrees (logEnd r' ptr logLevel).ram := by
  have hs := ((H.store ptr 0x0d).store (ptr + 1) 0x0a).store (ptr + 1 + 1) 0
  refine ⟨_, ?_, hs⟩
  simp only [logEnd, hs.byte]

/-- What `log_line` makes of a format and its arguments is what it makes of the text that they stand
for. -/
theorem logLineFormat_refines {mem : Nat → Byte} {fmt text : List Byte} {args : VaList}
    (H : Renders mem fmt args text) (htext : text.length < 2 ^ 31) (fs : NpfFormatSpec)
    (byte : Nat → Byte) (logLevel : LogType) :
    ∃ out r, logLine ⟨byte, []⟩ logLevel text = some out ∧
      logLineFormat mem fs ⟨byte, []⟩ logLevel fmt args = some { out with ram := r } ∧
      r.Agrees out.ram := by
  obtain ⟨r, hr, -⟩ := logPrefix_text byte logLevel
  have hheader := logHeader_length_le logLevel
  have hpos : (logHeader logLevel).length ≠ 0 := by
    rw [logHeader_length]
    omega
  have hremaining : sub64 (sub64 logBufferDim (logHeader logLevel).length) 2 ≤ 2 ^ 10 := by
    simp only [logBufferDim]
    rw [sub64_of_le (b := (logHeader logLevel).length) (by decide) (by omega),
      sub64_of_le (by omega) (by omega)]
    omega
  obtain ⟨r', hrun, hagrees⟩ :=
    H.npfVsnprintf htext hpos (Nat.le_trans (Nat.add_le_add hheader hremaining)
      (by decide)) fs r
  have hptr : add64 (logHeader logLevel).length ((text.length : Int) % 2 ^ 64).toNat =
      (logHeader logLevel).length + text.length := by
    rw [Int.emod_eq_of_lt (by omega) (by omega), Int.toNat_natCast, add64_of_lt (by omega)]
  obtain ⟨s, hend, hs⟩ := logEnd_agrees hagrees ((logHeader logLevel).length + text.length) logLevel
  refine ⟨_, s, ?_, ?_, hs⟩
  · simp only [logLine, hr, Option.bind_eq_bind, Option.bind_some]
    rfl
  · simp only [logLineFormat, hr, Option.bind_eq_bind, Option.bind_some, hrun, hptr, hend]

/-- A warning with `%d` and 42. -/
theorem logLineFormat_refines_warn :
    ∃ out r, logLine ⟨fun _ => 0, []⟩ .warn (chars ['4', '2']) = some out ∧
    logLineFormat (fun _ => 0) (Directive.spec ⟨[], .none, .none, .none, .d⟩) ⟨fun _ => 0, []⟩ .warn
      (chars ['%', 'd']) [42] = some { out with ram := r } ∧ r.Agrees out.ram := by
  have hr : Directive.resolve ⟨[], .none, .none, .none, .d⟩ [42] =
      some (⟨0, false, false, 0, false, 0, false, .none, .signedInt⟩, [42]) := by
    decide +kernel
  have H : Renders (fun _ => 0) (chars ['%', 'd']) [42] (chars ['4', '2']) :=
    .directive hr (.signed 42 rfl) .nil
  exact logLineFormat_refines H (by decide) _ _ .warn

end Plos
