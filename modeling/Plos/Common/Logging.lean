import Plos.Libk.String

/-! The log lines of `common/logging.c`.

A pointer into `log_buffer` is its index. The memory goes on behind the buffer, and `Ram` records
every index that is written. The message is the text that the format and its arguments stand for;
`vsnprintf` is what the vendored implementation promises for it. The lock around the function is in
`Plos.Scheduling.LockDiscipline`. -/

namespace Plos

inductive LogType where
  | debug
  | success
  | warn
  | error
  deriving DecidableEq, Repr

abbrev logBufferDim : Nat := 1024

def logLabels : LogType → List Byte
  | .debug => chars ['D', 'B', 'G']
  | .success => chars ['O', 'K']
  | .warn => chars ['W', 'A', 'R', 'N']
  | .error => chars ['E', 'R', 'R']

/-- The escape sequence that ends a colour. -/
def logReset : List Byte := 0x1b :: chars ['[', '0', 'm']

def logColors : LogType → List Byte
  | .debug => logReset
  | .success => 0x1b :: chars ['[', '3', '2', 'm']
  | .warn => 0x1b :: chars ['[', '3', '3', 'm']
  | .error => 0x1b :: chars ['[', '3', '1', 'm']

/-- Stores at most `bufsz - 1` characters and a zero, and returns the length of the whole
message. -/
def vsnprintf (r : Ram) (buffer bufsz : Nat) (message : List Byte) : Ram × Nat :=
  (if bufsz = 0 then r else r.storeBytes buffer (message.take (bufsz - 1) ++ [0]), message.length)

/-- The part of `log_line` before the message: the memory and `ptr`. -/
def logPrefix (r : Ram) (logLevel : LogType) : Option (Ram × Nat) := do
  let r := r.store 0 (BitVec.ofNat 8 '['.toNat)
  let ptr := 1
  let r ← strcpy r ptr (literal (logColors logLevel))
  let ptr := ptr + (← strlen (literal (logColors logLevel)))
  let r ← strcpy r ptr (literal (logLabels logLevel))
  let ptr := ptr + (← strlen (literal (logLabels logLevel)))
  let r ← strcpy r ptr (literal logReset)
  let ptr := ptr + 4
  let r ← strcpy r ptr (literal (chars [']', '\t']))
  let ptr := ptr + 2
  some (r, ptr)

/-- What a call of `log_line` does: the memory it leaves, the length it hands on to the drivers, and
the texts that they send. -/
structure LogOutput where
  ram : Ram
  length : Nat
  serial : List Byte
  console : Option (List Byte)

/-- The part of `log_line` after the message. -/
def logEnd (r : Ram) (ptr : Nat) (logLevel : LogType) : LogOutput :=
  let r := r.store ptr 0x0d
  let ptr := ptr + 1
  let r := r.store ptr 0x0a
  let ptr := ptr + 1
  let r := r.store ptr 0
  let text := bytesAt r.byte 0 ptr
  ⟨r, ptr, text, if logLevel ≠ .debug then some text else none⟩

def logLine (r : Ram) (logLevel : LogType) (message : List Byte) : Option LogOutput := do
  let (r, ptr) ← logPrefix r logLevel
  let remaining := sub64 (sub64 logBufferDim ptr) 2
  let (r, written) := vsnprintf r ptr remaining message
  some (logEnd r (ptr + written) logLevel)

/-! ## The text before the message -/

def logHeader (logLevel : LogType) : List Byte :=
  chars ['['] ++ logColors logLevel ++ logLabels logLevel ++ logReset ++ chars [']', '\t']

/-- The buffer starts with `text`, and nothing has been written behind the character after it. -/
structure Text (r : Ram) (text : List Byte) : Prop where
  bytes : bytesAt r.byte 0 text.length = text
  writes : ∀ i ∈ r.writes, i ≤ text.length

/-- Storing `s` behind the text, with or without a zero at its end. -/
theorem Text.append {r : Ram} {text : List Byte} (H : Text r text) (s : List Byte) {l : List Byte}
    (hl : l.length ≤ 1) : Text (r.storeBytes text.length (s ++ l)) (text ++ s) := by
  constructor
  · have htext : bytesAt (r.storeBytes text.length (s ++ l)).byte 0 text.length = text := by
      rw [bytesAt_congr fun i hi => Ram.storeBytes_of_lt (by omega), H.bytes]
    have hs : bytesAt (r.storeBytes text.length (s ++ l)).byte text.length s.length = s := by
      rw [Ram.storeBytes_append, bytesAt_congr fun i hi => Ram.storeBytes_of_lt (by omega),
        Ram.bytesAt_storeBytes]
    rw [List.length_append, bytesAt_append, htext, Nat.zero_add, hs]
  · intro i hi
    rw [List.length_append]
    rw [Ram.storeBytes_writes, List.mem_append, List.mem_range', List.length_append] at hi
    rcases hi with hi | ⟨k, hk, rfl⟩
    · have hle := H.writes i hi
      omega
    · omega

/-- `strcpy(ptr, s)` with `ptr` behind the text. -/
theorem Text.strcpy {r : Ram} {text s : List Byte} (H : Text r text) (hs : ∀ b ∈ s, b ≠ 0)
    (hlen : text.length + (s.length + 1) ≤ 2 ^ 64) :
    ∃ r', Plos.strcpy r text.length (literal s) = some r' ∧ Text r' (text ++ s) :=
  ⟨_, strcpy_literal hs hlen, H.append s (Nat.le_refl 1)⟩

theorem logLabels_spec (logLevel : LogType) :
    (∀ b ∈ logLabels logLevel, b ≠ 0) ∧ (logLabels logLevel).length ≤ 4 := by
  cases logLevel <;> simp [logLabels, chars]

theorem logColors_spec (logLevel : LogType) :
    (∀ b ∈ logColors logLevel, b ≠ 0) ∧ (logColors logLevel).length ≤ 5 := by
  cases logLevel <;> simp [logColors, logReset, chars]

theorem logHeader_length (logLevel : LogType) :
    (logHeader logLevel).length = 1 + (logColors logLevel).length + (logLabels logLevel).length +
      4 + 2 := by
  simp only [logHeader, List.length_append]
  rfl

theorem logPrefix_text (byte : Nat → Byte) (logLevel : LogType) :
    ∃ r, logPrefix ⟨byte, []⟩ logLevel = some (r, (logHeader logLevel).length) ∧
      Text r (logHeader logLevel) := by
  obtain ⟨hlabels, hlen⟩ := logLabels_spec logLevel
  obtain ⟨hcolors, hlen'⟩ := logColors_spec logLevel
  have hopen : (chars ['[']).length = 1 := rfl
  have hreset : logReset.length = 4 := rfl
  have hclose : (chars [']', '\t']).length = 2 := rfl
  have T₀ : Text ⟨byte, []⟩ [] := ⟨rfl, fun i hi => absurd hi List.not_mem_nil⟩
  have T₁ : Text (Ram.store ⟨byte, []⟩ 0 (BitVec.ofNat 8 '['.toNat)) (chars ['[']) :=
    T₀.append (l := []) (chars ['[']) (Nat.zero_le 1)
  obtain ⟨r₂, h₂, T₂⟩ := T₁.strcpy hcolors (by omega)
  obtain ⟨r₃, h₃, T₃⟩ := T₂.strcpy hlabels (by simp only [List.length_append]; omega)
  obtain ⟨r₄, h₄, T₄⟩ :=
    T₃.strcpy (s := logReset) (by simp [logReset, chars]) (by simp only [List.length_append]; omega)
  obtain ⟨r₅, h₅, T₅⟩ :=
    T₄.strcpy (s := chars [']', '\t']) (by simp [chars]) (by simp only [List.length_append]; omega)
  refine ⟨r₅, ?_, T₅⟩
  simp only [List.length_append, hopen, hreset] at h₂ h₃ h₄ h₅
  simp only [logPrefix, Option.bind_eq_bind, h₂, h₃, h₄, h₅, strlen_literal hcolors (by omega),
    strlen_literal hlabels (by omega), Option.bind_some, logHeader_length]

/-! ## The whole line -/

theorem Text.logEnd {r : Ram} {text : List Byte} (H : Text r text) (logLevel : LogType) :
    Text (Plos.logEnd r text.length logLevel).ram (text ++ [0x0d, 0x0a]) := by
  have T₁ := H.append (l := []) [0x0d] (Nat.zero_le 1)
  have T₂ := T₁.append (l := []) [0x0a] (Nat.zero_le 1)
  have T₃ := T₂.append (l := [0]) [] (Nat.le_refl 1)
  simp only [List.append_nil, List.length_append, List.length_singleton, List.append_assoc,
    List.singleton_append, List.nil_append] at T₃
  exact T₃

theorem logEnd_writes (r : Ram) (ptr : Nat) (logLevel : LogType) :
    ptr + 2 ∈ (logEnd r ptr logLevel).ram.writes :=
  List.mem_append_right _ List.mem_cons_self

theorem logHeader_length_le (logLevel : LogType) : (logHeader logLevel).length ≤ 16 := by
  have hlabels := (logLabels_spec logLevel).2
  have hcolors := (logColors_spec logLevel).2
  rw [logHeader_length]
  omega

/-- The message goes behind the header, and the line break behind the place where the whole message
would end. -/
theorem logLine_eq (byte : Nat → Byte) (logLevel : LogType) (message : List Byte) :
    ∃ r, Text r (logHeader logLevel) ∧ logLine ⟨byte, []⟩ logLevel message = some (logEnd
      (r.storeBytes (logHeader logLevel).length
        (message.take (logBufferDim - (logHeader logLevel).length - 3) ++ [0]))
      ((logHeader logLevel).length + message.length) logLevel) := by
  obtain ⟨r, hr, T⟩ := logPrefix_text byte logLevel
  have hheader := logHeader_length_le logLevel
  have hremaining : sub64 (sub64 logBufferDim (logHeader logLevel).length) 2 =
      logBufferDim - (logHeader logLevel).length - 2 := by
    simp only [logBufferDim]
    rw [sub64_of_le (b := (logHeader logLevel).length) (by decide) (by omega),
      sub64_of_le (by omega) (by omega)]
  refine ⟨r, T, ?_⟩
  simp only [logLine, hr, Option.bind_eq_bind, Option.bind_some, vsnprintf, hremaining,
    logBufferDim]
  rw [if_neg (by omega), Nat.sub_sub _ 2 1]

/-- Nothing is written or read outside of the buffer, and the text that is sent is the header, as
much of the message as fits, and a line break. -/
structure LogFits (logLevel : LogType) (message : List Byte) (out : LogOutput) : Prop where
  writes : ∀ i ∈ out.ram.writes, i < logBufferDim
  handed : ∀ i < out.length, i < logBufferDim
  serial : out.serial =
    logHeader logLevel ++ message.take (logBufferDim - (logHeader logLevel).length - 3) ++
      [0x0d, 0x0a]
  console : out.console = if logLevel = .debug then none else some out.serial

/-- The line stays in the buffer exactly if the message is not truncated. -/
theorem logLine_fits_iff (byte : Nat → Byte) (logLevel : LogType) (message : List Byte) :
    ∃ out, logLine ⟨byte, []⟩ logLevel message = some out ∧
      (LogFits logLevel message out ↔
        message.length ≤ logBufferDim - (logHeader logLevel).length - 3) := by
  obtain ⟨r, T, hline⟩ := logLine_eq byte logLevel message
  have hheader := logHeader_length_le logLevel
  refine ⟨_, hline, ⟨fun H => ?_, fun hle => ?_⟩⟩
  · have hlast := H.writes _ (logEnd_writes ..)
    simp only [logBufferDim] at hlast ⊢
    omega
  · rw [List.take_of_length_le hle]
    have T' := (T.append message (l := [0]) (Nat.le_refl 1)).logEnd logLevel
    have hlen : (logHeader logLevel ++ message ++ [0x0d, 0x0a]).length =
        (logHeader logLevel).length + message.length + 1 + 1 := by
      rw [List.length_append, List.length_append]
      rfl
    rw [List.length_append] at T'
    have hbytes := T'.bytes
    have hwrites := T'.writes
    rw [hlen] at hbytes hwrites
    simp only [logBufferDim] at hle
    constructor
    · intro i hi
      have hi := hwrites i hi
      simp only [logBufferDim]
      omega
    · intro i hi
      simp only [logEnd] at hi
      simp only [logBufferDim]
      omega
    · rw [List.take_of_length_le hle]
      exact hbytes
    · simp only [logEnd, ite_not]

/-- A message of 1100 characters: the line break and the zero are written behind the buffer, and the
drivers are to send bytes from there. -/
theorem logLine_pastEnd :
    ∃ out, logLine ⟨fun _ => 0, []⟩ .debug (List.replicate 1100 0x41) = some out ∧
    1116 ∈ out.ram.writes ∧ out.length = 1116 ∧
    ¬ LogFits .debug (List.replicate 1100 0x41) out := by
  obtain ⟨r, -, hline⟩ := logLine_eq (fun _ => 0) .debug (List.replicate 1100 0x41)
  rw [List.length_replicate] at hline
  have hlast : 1116 ∈ (logEnd (r.storeBytes (logHeader .debug).length
      ((List.replicate 1100 0x41).take (logBufferDim - (logHeader .debug).length - 3) ++ [0]))
      ((logHeader .debug).length + 1100) .debug).ram.writes := logEnd_writes ..
  exact ⟨_, hline, hlast, rfl, fun H => absurd (H.writes 1116 hlast) (by decide)⟩

end Plos
