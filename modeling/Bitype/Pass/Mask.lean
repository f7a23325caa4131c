import Mathlib.Data.Finset.Sort
import Bitype.Foundations.BitMask
import Bitype.Runtime.Check

/-!
# The safe-cast mask, written and read

The pass writes the numbers of the classes an object may be cast to as bits of a
byte array (`computeCode`), behind two header bytes; the front end turns the number
of a cast's target into a byte index and a byte with one bit (`byteIndex`,
`safeCode`); the runtime tests that bit by a comparison (`Runtime.maskRejects`).

`mask_roundTrip` says that the three agree: a number within the table is accepted
iff it was written.
-/

namespace Bitype.Pass

open Bitype.Foundations Bitype.Runtime

/-! ## The encoder -/

/-- One step of the loop of `computeCode`; `std::map` is only searched, never
iterated. -/
def addCode (indexedCode : ℤ → Option Byte) (tempIndex : ℤ) : ℤ → Option Byte :=
  let tempIndex := tempIndex - 1
  let setIndex := tempIndex.tdiv 8
  let offset := tempIndex.tmod 8
  let tempCode := (1 : Byte) <<< offset.toNat
  match indexedCode setIndex with
  | some code => Function.update indexedCode setIndex (some (code ^^^ tempCode))
  | none => Function.update indexedCode setIndex (some tempCode)

/-- `BitypeUtil::computeCode`; a `std::set` is visited in increasing order. -/
def computeCode (setNum : Finset ℤ) (familySize : ℤ) : List Byte :=
  let indexedCode := (setNum.sort (· ≤ ·)).foldl addCode fun _ => none
  (List.range familySize.toNat).map fun i : ℕ => (indexedCode i).getD 0

/-! ## The operands of a check -/

/-- `codeN / 8` in the emission of a `CK_BaseToDerived` check. -/
def byteIndex (code : U32) : U32 := (code - 1) / 8

/-- `1 << codeN % 8` as an `unsigned char`. -/
def safeCode (code : U32) : Byte := (1 : Byte) <<< ((code - 1) % 8).toNat

/-! ## Tables in memory -/

/-- The bytes of `table` stand in read-only memory at `address`. -/
def Emitted (rodata : Word → Byte) (address : Word) (table : List Byte) : Prop :=
  ∀ i (h : i < table.length), rodata (address + BitVec.ofNat 64 i) = table[i]

/-- A memory that holds one table. -/
def placeTable (address : Word) (table : List Byte) : Word → Byte :=
  fun a => table.getD (a - address).toNat 0

theorem emitted_placeTable (address : Word) {table : List Byte} (h : table.length ≤ 2 ^ 64) :
    Emitted (placeTable address table) address table := by
  intro i hi
  have hoffset : (address + BitVec.ofNat 64 i - address).toNat = i := by
    rw [BitVec.add_comm, BitVec.add_sub_cancel, BitVec.toNat_ofNat]
    exact Nat.mod_eq_of_lt (hi.trans_le h)
  rw [placeTable, hoffset, List.getD_eq_getElem _ _ hi]

/-! ## The round trip -/

@[simp] theorem length_computeCode (setNum : Finset ℤ) (familySize : ℤ) :
    (computeCode setNum familySize).length = familySize.toNat := by
  simp [computeCode]

/-- The loop body toggles one bit. -/
theorem addCode_eq_toggle (indexedCode : ℤ → Option Byte) (tempIndex : ℤ) :
    addCode indexedCode tempIndex =
      toggle ((tempIndex - 1).tdiv 8) (BitVec.twoPow 8 ((tempIndex - 1).tmod 8).toNat)
        indexedCode := by
  unfold addCode toggle
  rw [BitVec.twoPow_eq]
  dsimp only
  cases indexedCode ((tempIndex - 1).tdiv 8) <;> rfl

/-- Numbers from 1 on have different places. -/
theorem places_injective {a b : ℤ} (ha : 1 ≤ a) (hb : 1 ≤ b)
    (hslot : (a - 1).tdiv 8 = (b - 1).tdiv 8)
    (hbit : ((a - 1).tmod 8).toNat = ((b - 1).tmod 8).toNat) : a = b := by
  rw [Int.tdiv_eq_ediv_of_nonneg (by omega), Int.tdiv_eq_ediv_of_nonneg (by omega)] at hslot
  rw [Int.tmod_eq_emod_of_nonneg (by omega), Int.tmod_eq_emod_of_nonneg (by omega)] at hbit
  omega

/-- Bit `k` of byte `i` of the encoding. -/
theorem getLsbD_computeCode {setNum : Finset ℤ} (hcodes : ∀ c ∈ setNum, 1 ≤ c) {familySize : ℤ}
    {i k : ℕ} (hi : i < (computeCode setNum familySize).length) (hk : k < 8) :
    (computeCode setNum familySize)[i].getLsbD k = true ↔ (8 * i + k + 1 : ℤ) ∈ setNum := by
  have hfold : (setNum.sort (· ≤ ·)).foldl addCode (fun _ => none) =
      (setNum.sort (· ≤ ·)).foldl (fun table c => toggle ((c - 1).tdiv 8)
        (BitVec.twoPow 8 ((c - 1).tmod 8).toNat) table) fun _ => none :=
    List.foldl_ext _ _ _ fun table c _ => addCode_eq_toggle table c
  -- no two numbers share a bit, so no bit is toggled twice
  have hread := bitAt_encode (fun c : ℤ => (c - 1).tdiv 8) (fun c => ((c - 1).tmod 8).toNat)
    (j := i) hk (setNum.sort_nodup (· ≤ ·)) fun a ha b hb =>
      places_injective (hcodes a ((Finset.mem_sort _).mp ha)) (hcodes b ((Finset.mem_sort _).mp hb))
  rw [← hfold] at hread
  simp only [computeCode, List.getElem_map, List.getElem_range]
  refine hread.trans ⟨?_, fun hmem => ⟨_, (Finset.mem_sort _).mpr hmem, ?_⟩⟩
  -- the only number with this byte and this bit
  · rintro ⟨c, hc, hslot, hbit⟩
    rw [Finset.mem_sort] at hc
    have hpos := hcodes c hc
    rw [Int.tdiv_eq_ediv_of_nonneg (by omega)] at hslot
    rw [Int.tmod_eq_emod_of_nonneg (by omega)] at hbit
    have : c = 8 * i + k + 1 := by omega
    exact this ▸ hc
  · rw [Int.tdiv_eq_ediv_of_nonneg (by omega), Int.tmod_eq_emod_of_nonneg (by omega)]
    omega

theorem toNat_pred {code : U32} (hcode : 1 ≤ code.toNat) :
    (code - 1).toNat = code.toNat - 1 :=
  BitVec.toNat_sub_of_le (BitVec.le_def.mpr hcode)

theorem toNat_byteIndex {code : U32} (hcode : 1 ≤ code.toNat) :
    (byteIndex code).toNat = (code.toNat - 1) / 8 := by
  rw [byteIndex, BitVec.toNat_udiv, toNat_pred hcode]
  rfl

theorem safeCode_eq {code : U32} (hcode : 1 ≤ code.toNat) :
    safeCode code = BitVec.twoPow 8 ((code.toNat - 1) % 8) := by
  rw [safeCode, BitVec.twoPow_eq, BitVec.toNat_umod, toNat_pred hcode]
  rfl

/-- The index a check adds to the start of a table. -/
theorem toNat_checkIndex {code : U32} (hcode : 1 ≤ code.toNat) :
    (byteIndex code + 2).setWidth 64 = BitVec.ofNat 64 ((code.toNat - 1) / 8 + 2) := by
  have hlt := code.isLt
  have hindex := toNat_byteIndex hcode
  apply BitVec.eq_of_toNat_eq
  rw [BitVec.toNat_setWidth, BitVec.toNat_add, hindex, BitVec.toNat_ofNat]
  change ((code.toNat - 1) / 8 + 2) % 2 ^ 32 % 2 ^ 64 = _
  omega

/-- A table: two header bytes and the mask. -/
def maskTable (firstByte secondByte : Byte) (safeNum : Finset ℤ) (arraySize : ℤ) : List Byte :=
  firstByte :: secondByte :: computeCode safeNum arraySize

/-- The byte a check reads, for a code within the table. -/
theorem read_maskTable {rodata : Word → Byte} {address : Word} {firstByte secondByte : Byte}
    {safeNum : Finset ℤ} {length : ℕ}
    (hemitted : Emitted rodata address (maskTable firstByte secondByte safeNum length))
    {code : U32} (hpos : 1 ≤ code.toNat)
    (hbyte : (code.toNat - 1) / 8 < (computeCode safeNum length).length) :
    rodata (address + (byteIndex code + 2).setWidth 64) =
      (computeCode safeNum length)[(code.toNat - 1) / 8] := by
  rw [toNat_checkIndex hpos]
  exact hemitted ((code.toNat - 1) / 8 + 2) (Nat.add_lt_add_right hbyte 2)

/-- The test of one bit of a table. -/
theorem maskRejects_maskTable {rodata : Word → Byte} {address : Word}
    {firstByte secondByte : Byte} {safeNum : Finset ℤ} (hcodes : ∀ c ∈ safeNum, 1 ≤ c)
    {length : ℕ}
    (hemitted : Emitted rodata address (maskTable firstByte secondByte safeNum length))
    {code : U32} (hpos : 1 ≤ code.toNat) (hfits : code.toNat ≤ 8 * length) :
    maskRejects rodata address ((byteIndex code + 2).setWidth 64) (safeCode code) = true ↔
      (code.toNat : ℤ) ∉ safeNum := by
  have hbyte : (code.toNat - 1) / 8 < (computeCode safeNum length).length := by
    rw [length_computeCode, Int.toNat_natCast]
    omega
  have hbit : (code.toNat - 1) % 8 < 8 := Nat.mod_lt _ (by decide)
  have hcode : (8 * ((code.toNat - 1) / 8 : ℕ) + ((code.toNat - 1) % 8 : ℕ) + 1 : ℤ) =
      code.toNat := by omega
  rw [maskRejects, read_maskTable hemitted hpos hbyte, safeCode_eq hpos, decide_eq_true_eq,
    lt_xor_twoPow _ hbit, ← Bool.not_eq_true, getLsbD_computeCode hcodes hbyte hbit, hcode]

/-- **Encoder and checker agree.**  For a code within the table, the runtime's test
of the emitted bytes passes iff the code was written. -/
theorem mask_roundTrip (rodata : Word → Byte) (address : Word) (firstByte secondByte : Byte)
    (safeNum : Finset ℤ) (hcodes : ∀ c ∈ safeNum, 1 ≤ c) (length : ℕ)
    (hemitted : Emitted rodata address (maskTable firstByte secondByte safeNum length))
    (code : U32) (hpos : 1 ≤ code.toNat) (hfits : code.toNat ≤ 8 * length) :
    maskRejects rodata address ((byteIndex code + 2).setWidth 64) (safeCode code) = false ↔
      (code.toNat : ℤ) ∈ safeNum := by
  have hrejects := maskRejects_maskTable hcodes hemitted hpos hfits
  rw [← Bool.not_eq_true, hrejects, not_not]

/-- A table of two bytes with the codes 1, 9 and (beyond it) 20. -/
theorem mask_roundTrip_sample :
    maskRejects (placeTable 4096 (maskTable 7 0 {1, 9, 20} 2)) 4096
        ((byteIndex 9 + 2).setWidth 64) (safeCode 9) = false ↔
      (((9 : U32).toNat : ℕ) : ℤ) ∈ ({1, 9, 20} : Finset ℤ) :=
  mask_roundTrip _ 4096 7 0 {1, 9, 20} (by decide) 2
    (emitted_placeTable 4096 (by simp [maskTable])) 9 (by decide) (by decide)

end Bitype.Pass
