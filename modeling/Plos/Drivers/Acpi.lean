import Plos.Libk.String
import Plos.Memory.Paging.Basic

/-! The search for ACPI tables of `drivers/acpi.c`.

`mem` is the memory by virtual address, and `offset` the start of the direct map. The fields of the
packed structures are read at their offsets; a null pointer is `0`. -/

namespace Plos

/-- The static data of the driver. -/
structure Acpi where
  useXSDT : Bool
  rsdt : Nat
  xsdt : Nat
  deriving DecidableEq, Repr

/-- The data before `acpi_init` has been called. -/
def acpiStart : Acpi := ⟨false, 0, 0⟩

def rsdpSignature : List Byte := chars ['R', 'S', 'D', ' ', 'P', 'T', 'R', ' ']

abbrev sizeofRsdpDescriptorV1 : Nat := 20
abbrev sizeofRsdpDescriptorV2 : Nat := 36
abbrev sizeofAcpiSdtHeader : Nat := 36

def validateChecksum (byteArray : Nat → Byte) (size : Nat) : Bool :=
  (List.range size).foldl (fun sum i => add32 sum (byteArray i).toNat) 0 &&& 0xFF == 0

section
variable (mem : Nat → Byte) (offset : Nat)

/-- The field of `width` bytes at `field` in the structure at `a`. -/
def loadField (a field width : Nat) : Nat := leNat (bytesFrom mem (add64 a field)) width

/-- Takes the root table from the descriptor at `rsdp`. There is no result where the machine is
halted. -/
def acpiInit (rsdp : Nat) (st : Acpi) : Option Acpi :=
  if strncmp (bytesFrom mem rsdp) (literal rsdpSignature) 8 ≠ 0 then none
  else if !validateChecksum (bytesFrom mem rsdp) sizeofRsdpDescriptorV1 then none
  else
    let revision := loadField mem rsdp 15 1
    let rsdtAddress := loadField mem rsdp 16 4
    let xsdtAddress := loadField mem rsdp 24 8
    if 2 ≤ revision ∧ xsdtAddress ≠ 0 then
      if !validateChecksum (bytesFrom mem rsdp) sizeofRsdpDescriptorV2 then none
      else some { st with useXSDT := true, xsdt := hhdmPhysToVirt offset xsdtAddress }
    else some { st with useXSDT := false, rsdt := hhdmPhysToVirt offset rsdtAddress }

variable (st : Acpi)

/-- The length of the root table. -/
def acpiRootLength : Nat := loadField mem (if st.useXSDT then st.xsdt else st.rsdt) 4 4

/-- The table of entry `i` of the root table. -/
def acpiTable (i : Nat) : Nat :=
  let physAddr :=
    if st.useXSDT then loadField mem st.xsdt (sizeofAcpiSdtHeader + 8 * i) 8
    else loadField mem st.rsdt (sizeofAcpiSdtHeader + 4 * i) 4
  hhdmPhysToVirt offset physAddr

variable (signature : Nat → Byte)

/-- The loop over the entries, from entry `i` on. -/
def acpiSearch : Nat → (i : Nat) → Nat
  | 0, _ => 0
  | n + 1, i =>
    let currentTable := acpiTable mem offset st i
    if strncmp (bytesFrom mem currentTable) signature 4 = 0 then currentTable
    else acpiSearch n (i + 1)

def acpiFindTable : Nat :=
  if st.rsdt = 0 ∨ st.xsdt = 0 then 0
  else
    let numEntries :=
      if st.useXSDT then sub64 (acpiRootLength mem st) sizeofAcpiSdtHeader / 8
      else sub64 (acpiRootLength mem st) sizeofAcpiSdtHeader / 4
    acpiSearch mem offset st signature numEntries 0

/-! ## What a search is for -/

/-- The number of entries of the root table. -/
def acpiEntries : Nat :=
  (acpiRootLength mem st - sizeofAcpiSdtHeader) / if st.useXSDT then 8 else 4

/-- Entry `i` leads to a table with the signature. -/
def AcpiMatches (i : Nat) : Prop :=
  ∀ j < 4, bytesFrom mem (acpiTable mem offset st i) j = signature j

instance (i : Nat) : Decidable (AcpiMatches mem offset st signature i) :=
  inferInstanceAs (Decidable (∀ j < 4, _))

/-- The first entry that leads to a table with the signature. -/
structure AcpiFirst (i : Nat) : Prop where
  lt : i < acpiEntries mem st
  here : AcpiMatches mem offset st signature i
  before : ∀ j < i, ¬ AcpiMatches mem offset st signature j

/-- The answer is the table of the first entry with the signature, and null exactly if there is
none. -/
structure AcpiFinds (result : Nat) : Prop where
  first : ∀ i, AcpiFirst mem offset st signature i → result = acpiTable mem offset st i
  null : result = 0 ↔ ∀ i < acpiEntries mem st, ¬ AcpiMatches mem offset st signature i

end

section
variable {mem : Nat → Byte} {offset : Nat} {st : Acpi} {signature : Nat → Byte}

theorem AcpiFirst.unique {i k : Nat} (hi : AcpiFirst mem offset st signature i)
    (hk : AcpiFirst mem offset st signature k) : i = k := by
  rcases Nat.lt_trichotomy i k with h | h | h
  · exact absurd hi.here (hk.before i h)
  · exact h
  · exact absurd hk.here (hi.before k h)

/-- Null is the right answer exactly if there is no table with the signature. -/
theorem acpiFinds_zero : AcpiFinds mem offset st signature 0 ↔
    ∀ i < acpiEntries mem st, ¬ AcpiMatches mem offset st signature i := by
  constructor
  · intro h
    exact h.null.1 rfl
  · intro hno
    exact ⟨fun i hi => absurd hi.here (hno i hi.lt), iff_of_true rfl hno⟩

/-- The loop, entered at `i` with no match so far, ends at the first match. -/
theorem acpiSearch_cases (hsig : ∀ j < 4, signature j ≠ 0) (n i : Nat)
    (hprev : ∀ j < i, ¬ AcpiMatches mem offset st signature j) :
    (∃ k < i + n, AcpiMatches mem offset st signature k ∧
      (∀ j < k, ¬ AcpiMatches mem offset st signature j) ∧
      acpiSearch mem offset st signature n i = acpiTable mem offset st k) ∨
    (∀ k < i + n, ¬ AcpiMatches mem offset st signature k) ∧
      acpiSearch mem offset st signature n i = 0 := by
  induction n generalizing i with
  | zero => exact .inr ⟨hprev, rfl⟩
  | succ n ih =>
    rw [acpiSearch]
    simp only [strncmp_eq_zero hsig]
    by_cases h : AcpiMatches mem offset st signature i
    · exact .inl ⟨i, by omega, h, hprev, if_pos h⟩
    · have hprev' : ∀ j < i + 1, ¬ AcpiMatches mem offset st signature j := by
        intro j hj
        rcases Nat.lt_succ_iff_lt_or_eq.1 hj with hj | rfl
        · exact hprev j hj
        · exact h
      rw [if_neg (show ¬ ∀ j < 4, _ from h), show i + (n + 1) = i + 1 + n by omega]
      exact ih (i + 1) hprev'

theorem acpiFindTable_of_roots (hlen : sizeofAcpiSdtHeader ≤ acpiRootLength mem st)
    (h : ¬ (st.rsdt = 0 ∨ st.xsdt = 0)) :
    acpiFindTable mem offset st signature =
      acpiSearch mem offset st signature (acpiEntries mem st) 0 := by
  have hlt : acpiRootLength mem st < 2 ^ 64 := by
    rw [acpiRootLength, loadField]
    exact Nat.lt_trans (leNat_lt _ 4) (by decide)
  have hsub := sub64_of_le hlt hlen
  rw [acpiFindTable, if_neg h, acpiEntries, hsub]
  cases st.useXSDT
  · rw [if_neg Bool.false_ne_true, if_neg Bool.false_ne_true]
  · rw [if_pos rfl, if_pos rfl]

/-- `acpi_find_table` gives up unless both root pointers have been set, and is right if they have:
then only a table at address zero cannot be told from none. -/
theorem acpiFinds_acpiFindTable (hlen : sizeofAcpiSdtHeader ≤ acpiRootLength mem st)
    (hsig : ∀ j < 4, signature j ≠ 0) :
    AcpiFinds mem offset st signature (acpiFindTable mem offset st signature) ↔
      (∀ i < acpiEntries mem st, ¬ AcpiMatches mem offset st signature i) ∨
      (st.rsdt ≠ 0 ∧ st.xsdt ≠ 0) ∧
        ∀ i, AcpiFirst mem offset st signature i → acpiTable mem offset st i ≠ 0 := by
  by_cases hroots : st.rsdt = 0 ∨ st.xsdt = 0
  · rw [acpiFindTable, if_pos hroots, acpiFinds_zero]
    exact (or_iff_left (by tauto)).symm
  rw [acpiFindTable_of_roots hlen hroots]
  rcases acpiSearch_cases hsig (acpiEntries mem st) 0 (by simp) with
    ⟨k, hk, hhere, hbefore, hres⟩ | ⟨hno, hres⟩
  · rw [Nat.zero_add] at hk
    have hfirst : AcpiFirst mem offset st signature k := ⟨hk, hhere, hbefore⟩
    have hsome : ¬ ∀ i < acpiEntries mem st, ¬ AcpiMatches mem offset st signature i :=
      fun h => h k hk hhere
    rw [hres, or_iff_right hsome]
    constructor
    · intro h
      refine ⟨by tauto, fun i hi h0 => hsome (h.null.1 ?_)⟩
      rw [h.first i hi, h0]
    · intro h
      exact ⟨fun i hi => by rw [hfirst.unique hi], iff_of_false (h.2 k hfirst) hsome⟩
  · rw [Nat.zero_add] at hno
    rw [hres, acpiFinds_zero]
    exact iff_of_true hno (.inl hno)

/-- `acpi_init` sets one of the two root pointers only. -/
theorem acpiInit_roots {rsdp : Nat} (h : acpiInit mem offset rsdp acpiStart = some st) :
    st.rsdt = 0 ∨ st.xsdt = 0 := by
  unfold acpiInit at h
  split at h
  · cases h
  split at h
  · cases h
  dsimp only at h
  split at h
  · split at h
    · cases h
    · cases h
      exact .inl rfl
  · cases h
    exact .inr rfl

end

/-! ## After initialisation

In the images the descriptor is at physical address 0, the root table at 64, and its only entry
leads to the table `APIC` at 128. -/

abbrev imageOffset : Nat := 0xffff800000000000

/-- The memory that shows the physical memory `image` in the direct map. -/
def directMapped (image : List Byte) (a : Nat) : Byte := image.getD (sub64 a imageOffset) 0

def rsdtImage : List Byte :=
  rsdpSignature ++ [161, 0, 0, 0, 0, 0, 0, 0, 64, 0, 0, 0] ++ List.replicate 44 0 ++
  chars ['R', 'S', 'D', 'T'] ++ [40, 0, 0, 0] ++ List.replicate 28 0 ++ [128, 0, 0, 0] ++
  List.replicate 24 0 ++ chars ['A', 'P', 'I', 'C']

def xsdtImage : List Byte :=
  rsdpSignature ++ [223, 0, 0, 0, 0, 0, 0, 2, 0, 0, 0, 0] ++
  [36, 0, 0, 0, 64, 0, 0, 0, 0, 0, 0, 0, 156, 0, 0, 0] ++ List.replicate 28 0 ++
  chars ['X', 'S', 'D', 'T'] ++ [44, 0, 0, 0] ++ List.replicate 28 0 ++
    [128, 0, 0, 0, 0, 0, 0, 0] ++
  List.replicate 20 0 ++ chars ['A', 'P', 'I', 'C']

def rsdtAcpi : Acpi := ⟨false, imageOffset + 64, 0⟩
def xsdtAcpi : Acpi := ⟨true, 0, imageOffset + 64⟩

def apicSignature : Nat → Byte := literal (chars ['A', 'P', 'I', 'C'])
def facpSignature : Nat → Byte := literal (chars ['F', 'A', 'C', 'P'])

/-- After `acpi_init` a search is right exactly if there is nothing to find. -/
theorem acpiFindTable_finds_iff {mem : Nat → Byte} {offset rsdp : Nat} {st : Acpi}
    {signature : Nat → Byte} (hinit : acpiInit mem offset rsdp acpiStart = some st)
    (hlen : sizeofAcpiSdtHeader ≤ acpiRootLength mem st) (hsig : ∀ j < 4, signature j ≠ 0) :
    AcpiFinds mem offset st signature (acpiFindTable mem offset st signature) ↔
      ∀ i < acpiEntries mem st, ¬ AcpiMatches mem offset st signature i := by
  have hroots := acpiInit_roots hinit
  rw [acpiFinds_acpiFindTable hlen hsig]
  exact or_iff_left (by tauto)

theorem acpiFindTable_finds_absent :
    AcpiFinds (directMapped xsdtImage) imageOffset xsdtAcpi facpSignature
      (acpiFindTable (directMapped xsdtImage) imageOffset xsdtAcpi facpSignature) := by
  have hinit : acpiInit (directMapped xsdtImage) imageOffset imageOffset acpiStart =
      some xsdtAcpi := by
    decide +kernel
  exact (acpiFindTable_finds_iff hinit (by decide +kernel) (by decide +kernel)).2
    (by decide +kernel)

/-- With either root table, a table that is there is not found. -/
theorem acpiFindTable_misses :
    (acpiInit (directMapped rsdtImage) imageOffset imageOffset acpiStart = some rsdtAcpi ∧
      acpiEntries (directMapped rsdtImage) rsdtAcpi = 1 ∧
      AcpiMatches (directMapped rsdtImage) imageOffset rsdtAcpi apicSignature 0 ∧
      acpiFindTable (directMapped rsdtImage) imageOffset rsdtAcpi apicSignature = 0) ∧
    acpiInit (directMapped xsdtImage) imageOffset imageOffset acpiStart = some xsdtAcpi ∧
      acpiEntries (directMapped xsdtImage) xsdtAcpi = 1 ∧
      AcpiMatches (directMapped xsdtImage) imageOffset xsdtAcpi apicSignature 0 ∧
      acpiFindTable (directMapped xsdtImage) imageOffset xsdtAcpi apicSignature = 0 := by
  decide +kernel

end Plos
