import Mathlib.Tactic.Ring
import Bitype.Pass.Detection
import Bitype.Pass.Subobjects
import Bitype.Pass.Trace

/-!
# Downcasts inside a traced object

The offset stored with a granule is that of the granule, not of the class that starts in
it.  A check takes it for the distance from the start of the object, so it finds an
object that starts up to seven bytes late, and a derived object that starts before that
looks as if it started below the traced object.  `downcast_iff` says which legal
downcasts in a traced object pass.
-/

namespace Bitype.Pass

open Bitype.Foundations Bitype.Runtime Bitype.Tool

/-! ## The offset test -/

section Address

variable {objAddr : Word} {size o o' : ℕ} (hfits : objAddr.toNat + size ≤ 2 ^ 48) (ho : o ≤ size)
include hfits ho

theorem toNat_address : (objAddr + BitVec.ofNat 64 o).toNat = objAddr.toNat + o := by
  rw [BitVec.toNat_add, BitVec.toNat_ofNat]
  omega

theorem address_ne_zero (hnonnull : objAddr ≠ 0) : objAddr + BitVec.ofNat 64 o ≠ 0 := by
  have hpos : objAddr.toNat ≠ 0 := fun h => hnonnull (BitVec.eq_of_toNat_eq h)
  intro hzero
  have hval := congrArg BitVec.toNat hzero
  rw [toNat_address hfits ho, show (0 : Word).toNat = 0 from rfl] at hval
  omega

/-- Two addresses up to the end of an object. -/
theorem address_inj (ho' : o' ≤ size) :
    objAddr + BitVec.ofNat 64 o = objAddr + BitVec.ofNat 64 o' ↔ o = o' := by
  constructor
  · intro h
    have hval := congrArg BitVec.toNat h
    rw [toNat_address hfits ho, toNat_address hfits ho'] at hval
    omega
  · rintro rfl
    rfl

end Address

/-- An address some bytes before another one of the same object. -/
theorem address_sub (objAddr : Word) {o k : ℕ} (hk : k ≤ o) :
    objAddr + BitVec.ofNat 64 o - BitVec.ofNat 64 k = objAddr + BitVec.ofNat 64 (o - k) := by
  have hsplit : BitVec.ofNat 64 o = BitVec.ofNat 64 (o - k) + BitVec.ofNat 64 k := by
    rw [← BitVec.ofNat_add, Nat.sub_add_cancel hk]
  rw [hsplit]
  ring

/-- A stored offset as a signed number. -/
theorem toNat_offsetTmp {offset : ℕ} (h : offset < 2 ^ 32) :
    ((BitVec.ofNat 32 offset).signExtend 64).toNat =
      if offset < 2 ^ 31 then offset else offset + (2 ^ 64 - 2 ^ 32) := by
  have hmsb : (BitVec.ofNat 32 offset).msb = decide (2 ^ 31 ≤ offset) := by
    rw [BitVec.msb_eq_decide, BitVec.toNat_ofNat, Nat.mod_eq_of_lt h]
  have hwide : ((BitVec.ofNat 32 offset).setWidth 64).toNat = offset := by
    rw [BitVec.toNat_setWidth, BitVec.toNat_ofNat]
    omega
  rw [BitVec.toNat_signExtend, hmsb, hwide]
  by_cases hsmall : offset < 2 ^ 31
  · rw [if_pos hsmall, if_neg (by simpa using hsmall), Nat.add_zero]
  · rw [if_neg hsmall, if_pos (by simpa using hsmall)]

/-- **The offset test** of a cast to `k` bytes before the source. -/
theorem derivedOffset_sub_slt (sourcePtr : Word) {g k : ℕ} (hg : g < 2 ^ 29) (hk : k < 2 ^ 32) :
    (derivedOffset sourcePtr (sourcePtr - BitVec.ofNat 64 k) (BitVec.ofNat 32 (8 * g))).slt 0 =
      true ↔ ¬(k ≤ 8 * g ∧ 8 * g < 2 ^ 31) := by
  have hne : BitVec.ofNat 32 (8 * g) ≠ -1 := by
    intro h
    have hval := congrArg BitVec.toNat h
    rw [BitVec.toNat_ofNat, show (-1 : U32).toNat = 2 ^ 32 - 1 from rfl] at hval
    omega
  have hcancel : ∀ offset : Word,
      sourcePtr - BitVec.ofNat 64 k - (sourcePtr - offset) = offset - BitVec.ofNat 64 k := by
    intro offset
    ring
  have hoffset := toNat_offsetTmp (show 8 * g < 2 ^ 32 by omega)
  rw [derivedOffset, if_neg hne, hcancel]
  generalize (BitVec.ofNat 32 (8 * g)).signExtend 64 = offset at *
  rw [show (0 : Word) = 0#64 from rfl, BitVec.slt_zero_eq_msb, BitVec.msb_eq_decide,
    decide_eq_true_eq, BitVec.toNat_sub, BitVec.toNat_ofNat, hoffset]
  split <;> omega

/-- The derived object must not start before the base does in its granule. -/
theorem derivedOffset_slt (objAddr : Word) {oD oB : ℕ} (hle : oD ≤ oB) (hB : oB < 2 ^ 32) :
    (derivedOffset (objAddr + BitVec.ofNat 64 oB) (objAddr + BitVec.ofNat 64 oD)
        (BitVec.ofNat 32 (8 * (oB / 8)))).slt 0 = true ↔ ¬(oB % 8 ≤ oD ∧ oB < 2 ^ 31) := by
  have hthis : objAddr + BitVec.ofNat 64 oD =
      objAddr + BitVec.ofNat 64 oB - BitVec.ofNat 64 (oB - oD) := by
    rw [address_sub objAddr (Nat.sub_le oB oD), Nat.sub_sub_self hle]
  rw [hthis, derivedOffset_sub_slt _ (show oB / 8 < 2 ^ 29 by omega) (by omega)]
  omega

/-! ## A check of a downcast -/

/-- `bitype_verify_cast` reports nothing and returns the derived address. -/
def Passes (rodata : Word → Byte) (s : Shadow) (sourcePtr thisPtr : Word) (code : ℕ)
    (debugIndex : U32) : Prop :=
  let result := bitypeVerifyCast rodata sourcePtr thisPtr (byteIndex (BitVec.ofNat 32 code))
    (safeCode (BitVec.ofNat 32 code)) debugIndex s
  result.confusion = false ∧ result.returned = thisPtr

section Check

variable (M : Module) (files : ClassFiles) (rodata : Word → Byte) (place : Name → Word)
  (allocType : AllocType) (x : ℕ)

/-- The classes whose table is recorded for the granule of an offset of an `x` object. -/
def GranuleClasses (o : ℕ) (types : Finset ℕ) : Prop :=
  (tracedElements M files allocType (.struct x))[o / 8]? = some types ∧ types.card ≠ 0

/-- The table for a set of classes accepts a number. -/
def TableAccepts (types : Finset ℕ) (code : ℕ) : Prop :=
  maskRejects rodata (place (M.setName types))
    ((byteIndex (BitVec.ofNat 32 code) + 2).setWidth 64) (safeCode (BitVec.ofNat 32 code)) = false

/-- The offset test lets the downcast from offset `oB` to `oD` pass. -/
def WithinReach (oD oB : ℕ) : Prop := oB = oD ∨ oB % 8 ≤ oD ∧ oB < 2 ^ 31

/-- The downcast from offset `oB` to `oD` passes: the granule of the base has a table,
the offset test passes, and the table of the derived granule accepts the number; or the
granule of the base has none and the cast does not change the pointer. -/
def DowncastPasses (oD oB code : ℕ) : Prop :=
  (∃ types, GranuleClasses M files allocType x oB types) ∧ WithinReach oD oB ∧
      (∃ types, GranuleClasses M files allocType x oD types ∧
        TableAccepts M rodata place types code) ∨
    (¬ ∃ types, GranuleClasses M files allocType x oB types) ∧ oB = oD

end Check

section Object

variable {mmap : ℕ → ℕ} {rodata : Word → Byte} {M : Module} {files : ClassFiles}
  {place : Name → Word} {s : Shadow} {allocType : AllocType} {objAddr : Word} {x : ℕ}

theorem GranuleClasses.unique {o : ℕ} {types types' : Finset ℕ}
    (h : GranuleClasses M files allocType x o types)
    (h' : GranuleClasses M files allocType x o types') : types = types' :=
  Option.some.inj (h.1.symm.trans h'.1)

/-- What a check sees where a table has been recorded. -/
theorem seenAfter_of_classes {o : ℕ} {types : Finset ℕ}
    (h : GranuleClasses M files allocType x o types) :
    seenAfter M files place allocType objAddr (.struct x) s (o / 8) =
      (some (place (M.setName types)), BitVec.ofNat 32 (8 * (o / 8))) := by
  unfold seenAfter
  rw [h.1]
  exact if_pos h.2

/-- What a check sees where none has been recorded. -/
theorem seenAfter_of_none {o : ℕ} (h : ¬ ∃ types, GranuleClasses M files allocType x o types) :
    seenAfter M files place allocType objAddr (.struct x) s (o / 8) =
      seen (s.view (granuleAt objAddr (o / 8))) := by
  unfold seenAfter
  cases hlookup : (tracedElements M files allocType (.struct x))[o / 8]? with
  | none => rfl
  | some types => exact if_neg fun hne => h ⟨types, hlookup, hne⟩

/-- When a check passes, in terms of what it sees. -/
theorem passes_iff_verdict {sourcePtr : Word} (hsource : sourcePtr ≠ 0) (thisPtr : Word)
    (code : ℕ) (debugIndex : U32) :
    Passes rodata s sourcePtr thisPtr code debugIndex ↔
      verdict rodata s.lookup sourcePtr thisPtr (byteIndex (BitVec.ofNat 32 code))
          (safeCode (BitVec.ofNat 32 code)) = .safe ∨
        verdict rodata s.lookup sourcePtr thisPtr (byteIndex (BitVec.ofNat 32 code))
          (safeCode (BitVec.ofNat 32 code)) = .untraced ∧ sourcePtr = thisPtr := by
  have hnull : verdict rodata s.lookup sourcePtr thisPtr (byteIndex (BitVec.ofNat 32 code))
      (safeCode (BitVec.ofNat 32 code)) ≠ .null := by
    unfold verdict maskVerdict
    rw [if_neg hsource]
    repeat' split
    all_goals simp
  unfold Passes
  rw [verifyCast_eq]
  generalize verdict rodata s.lookup sourcePtr thisPtr _ _ = v at *
  cases v with
  | null => exact absurd rfl hnull
  | untraced => simp [Verdict.result]
  | confusion => simp [Verdict.result]
  | safe => simp [Verdict.result]

/-- A check of a pointer whose granule has no table. -/
theorem passes_of_untraced {sourcePtr : Word} (hsource : sourcePtr ≠ 0)
    (htable : Entry.table? (s.lookup sourcePtr) = none) (thisPtr : Word) (code : ℕ)
    (debugIndex : U32) :
    Passes rodata s sourcePtr thisPtr code debugIndex ↔ sourcePtr = thisPtr := by
  have hverdict : verdict rodata s.lookup sourcePtr thisPtr (byteIndex (BitVec.ofNat 32 code))
      (safeCode (BitVec.ofNat 32 code)) = .untraced := by
    unfold verdict
    rw [if_neg hsource, htable]
  rw [passes_iff_verdict hsource, hverdict]
  simp

/-- A check of a pointer whose granule has a table. -/
theorem passes_of_traced {sourcePtr : Word} (hsource : sourcePtr ≠ 0) {address : Word}
    (htable : Entry.table? (s.lookup sourcePtr) = some address) (thisPtr : Word) (code : ℕ)
    (debugIndex : U32) :
    Passes rodata s sourcePtr thisPtr code debugIndex ↔
      (sourcePtr = thisPtr ∨ ¬ (derivedOffset sourcePtr thisPtr
        (Entry.offsetOf (s.lookup sourcePtr))).slt 0 = true) ∧
      ∃ address', Entry.table? (s.lookup thisPtr) = some address' ∧
        maskRejects rodata address' ((byteIndex (BitVec.ofNat 32 code) + 2).setWidth 64)
          (safeCode (BitVec.ofNat 32 code)) = false := by
  -- a target that has a table passes by its mask
  have hmask : ∀ address' : Word,
      (maskVerdict rodata address' (byteIndex (BitVec.ofNat 32 code))
        (safeCode (BitVec.ofNat 32 code)) = .safe ∨
      maskVerdict rodata address' (byteIndex (BitVec.ofNat 32 code))
        (safeCode (BitVec.ofNat 32 code)) = .untraced ∧ sourcePtr = thisPtr) ↔
      maskRejects rodata address' ((byteIndex (BitVec.ofNat 32 code) + 2).setWidth 64)
        (safeCode (BitVec.ofNat 32 code)) = false := by
    intro address'
    unfold maskVerdict
    split <;> simp_all
  rw [passes_iff_verdict hsource]
  unfold verdict
  rw [if_neg hsource]
  simp only [htable]
  by_cases hsame : sourcePtr = thisPtr
  · subst hsame
    simp only [if_true, true_or, true_and, htable, Option.some.injEq, exists_eq_left']
    have h := hmask address
    simpa only [and_true] using h
  · rw [or_iff_right hsame, if_neg hsame]
    -- a target below the traced object is reported whatever its mask
    by_cases hbelow : (derivedOffset sourcePtr thisPtr
        (Entry.offsetOf (s.lookup sourcePtr))).slt 0 = true
    · rw [if_pos hbelow]
      constructor
      · rintro (h | ⟨h, -⟩) <;> cases h
      · exact fun h => absurd hbelow h.1
    · rw [if_neg hbelow]
      simp only [hbelow, Bool.false_eq_true, not_false_eq_true, true_and]
      cases hthis : Entry.table? (s.lookup thisPtr) with
      | none => simp
      | some address' =>
          simp only [Option.some.injEq, exists_eq_left']
          exact hmask address'

variable (rodata) in
/-- The byte test where the table is that of the recorded classes, if there are any. -/
theorem table_accepts_iff (code : ℕ) (Classes : Finset ℕ → Prop) {table : Option Word}
    (hunique : ∀ types types', Classes types → Classes types' → types = types')
    (htraced : ∀ types, Classes types → table = some (place (M.setName types)))
    (huntraced : (¬ ∃ types, Classes types) → table = none) :
    (∃ address, table = some address ∧ maskRejects rodata address
        ((byteIndex (BitVec.ofNat 32 code) + 2).setWidth 64)
        (safeCode (BitVec.ofNat 32 code)) = false) ↔
      ∃ types, Classes types ∧ TableAccepts M rodata place types code := by
  by_cases hclasses : ∃ types, Classes types
  · obtain ⟨types, htypes⟩ := hclasses
    rw [htraced types htypes]
    constructor
    · rintro ⟨address, haddress, hmask⟩
      obtain rfl := Option.some.inj haddress
      exact ⟨types, htypes, hmask⟩
    · rintro ⟨types', htypes', hmask⟩
      obtain rfl := hunique types types' htypes htypes'
      exact ⟨_, rfl, hmask⟩
  · rw [huntraced hclasses]
    constructor
    · rintro ⟨address, haddress, -⟩
      cases haddress
    · rintro ⟨types, htypes, -⟩
      exact absurd ⟨types, htypes⟩ hclasses

/-- **Which checks pass in a traced object.** -/
theorem passes_iff (haligned : objAddr.toNat % 8 = 0)
    (hbase : objAddr ≠ 0) {size : ℕ} (hfits : objAddr.toNat + size ≤ 2 ^ 48) {oD oB : ℕ}
    (hle : oD ≤ oB) (hlt : oB < size)
    (hclear : ∀ o, o = oD ∨ o = oB → (¬ ∃ types, GranuleClasses M files allocType x o types) →
      Entry.table? (s.lookup (objAddr + BitVec.ofNat 64 o)) = none)
    {s' : Shadow} (hseen : ∀ k < 2 ^ 45, seen (s'.view (granuleAt objAddr k)) =
      seenAfter M files place allocType objAddr (.struct x) s k) (code : ℕ) (debugIndex : U32) :
    Passes rodata s' (objAddr + BitVec.ofNat 64 oB) (objAddr + BitVec.ofNat 64 oD) code
        debugIndex ↔
      DowncastPasses M files rodata place allocType x oD oB code := by
  have hafter : ∀ o, o = oD ∨ o = oB → seen (s'.lookup (objAddr + BitVec.ofNat 64 o)) =
      seenAfter M files place allocType objAddr (.struct x) s (o / 8) := by
    intro o ho
    rw [lookup_offset s' haligned]
    exact hseen _ (by omega)
  have htraced : ∀ o, o = oD ∨ o = oB → ∀ types, GranuleClasses M files allocType x o types →
      Entry.table? (s'.lookup (objAddr + BitVec.ofNat 64 o)) = some (place (M.setName types)) ∧
        Entry.offsetOf (s'.lookup (objAddr + BitVec.ofNat 64 o)) =
          BitVec.ofNat 32 (8 * (o / 8)) := by
    intro o ho types htypes
    have h := (hafter o ho).trans (seenAfter_of_classes htypes)
    exact ⟨congrArg Prod.fst h, congrArg Prod.snd h⟩
  have huntraced : ∀ o, o = oD ∨ o = oB →
      (¬ ∃ types, GranuleClasses M files allocType x o types) →
      Entry.table? (s'.lookup (objAddr + BitVec.ofNat 64 o)) = none := by
    intro o ho hnone
    have h := (hafter o ho).trans (seenAfter_of_none hnone)
    rw [← lookup_offset s haligned] at h
    exact (congrArg Prod.fst h).trans (hclear o ho hnone)
  have hsource : objAddr + BitVec.ofNat 64 oB ≠ 0 := address_ne_zero hfits hlt.le hbase
  have hsame : objAddr + BitVec.ofNat 64 oB = objAddr + BitVec.ofNat 64 oD ↔ oB = oD :=
    address_inj hfits hlt.le (hle.trans hlt.le)
  unfold DowncastPasses
  -- a source with a table, and one without
  by_cases hB : ∃ types, GranuleClasses M files allocType x oB types
  · obtain ⟨types, htypes⟩ := hB
    obtain ⟨htable, hoffset⟩ := htraced oB (.inr rfl) types htypes
    have hsmall : oB / 8 < 2 ^ 29 := tracedElements_small htypes.1
    have htest := derivedOffset_slt objAddr hle (show oB < 2 ^ 32 by omega)
    have hderived := table_accepts_iff rodata code (GranuleClasses M files allocType x oD)
      (fun _ _ h h' => h.unique h') (fun types htypes => (htraced oD (.inl rfl) types htypes).1)
      (huntraced oD (.inl rfl))
    have hexists : ∃ types, GranuleClasses M files allocType x oB types := ⟨types, htypes⟩
    rw [passes_of_traced hsource htable, hderived, hoffset, hsame, htest, not_not]
    simp only [hexists, true_and, not_true_eq_false, false_and, or_false, WithinReach]
  · rw [passes_of_untraced hsource (huntraced oB (.inr rfl) hB), hsame]
    simp only [hB, false_and, false_or, not_false_eq_true, true_and]

end Object

/-! ## Legal downcasts -/

/-- Where an object of class type `x` may be. -/
structure ObjectAt (M : Module) (x : ℕ) (objAddr : Word) : Prop where
  aligned : objAddr.toNat % 8 = 0
  nonnull : objAddr ≠ 0
  fits : objAddr.toNat + (M.struct x).allocSize ≤ 2 ^ 48

/-- In an object of class type `x` a `d` object lies at offset `oD`, and a base of it
starts at offset `oB`.  An empty base is no element of the struct type. -/
structure LegalDowncast (M : Module) (files : ClassFiles) (x oD oB d : ℕ) : Prop where
  regular : M.Regular files (.struct x)
  derived : M.Contains (.struct x) oD d
  le : oD ≤ oB
  lt : oB < oD + (M.struct d).allocSize

/-- The table in memory under the name of some classes was emitted for `origin` and has a
bit for a number. -/
def Tabled (M : Module) (files : ClassFiles) (rodata : Word → Byte) (place : Name → Word)
    (types : Finset ℕ) (origin : Origin) (code : ℕ) : Prop :=
  ∃ table, origin.Emits M files table ∧ Emitted rodata (place (M.setName types)) table ∧
    readOffset code < table.length

/-- A table emitted for some classes: for the set, or for one class type that holds what
the only class of the set holds at offset zero, as `class.D` and `class.D.base` do. -/
def MadeFor (M : Module) (types : Finset ℕ) : Origin → Prop
  | .merged relatedCast => relatedCast = types
  | .single a => ∃ a', types = {a'} ∧
      ∀ b, M.AtOffsetZero a' b → ∃ b', M.AtOffsetZero a b' ∧ M.typeName b' = M.typeName b

/-- The tables in memory were emitted for the classes of the granule of an offset. -/
def GranuleTabled (M : Module) (files : ClassFiles) (rodata : Word → Byte) (place : Name → Word)
    (allocType : AllocType) (x o : ℕ) : Prop :=
  ∀ types, GranuleClasses M files allocType x o types → ∃ origin table,
    MadeFor M types origin ∧ origin.Emits M files table ∧
      Emitted rodata (place (M.setName types)) table

/-- All classes inside an `x` are in one family. -/
def OneFamily (R : ToolRun) (M : Module) (x : ℕ) : Prop :=
  ∀ o a o' b, M.Contains (.struct x) o a → M.Contains (.struct x) o' b →
    SameFamily R.state R.families (M.typeName a) (M.typeName b)

section Legal

variable {mmap : ℕ → ℕ} {rodata : Word → Byte} {M : Module} {files : ClassFiles}
  {place : Name → Word} {allocType : AllocType} {x oD oB d code : ℕ}

theorem LegalDowncast.lt_size (h : LegalDowncast M files x oD oB d) :
    oB < (M.struct x).allocSize :=
  h.lt.trans_le (TypeTable.contains_fits h.derived h.regular.wellLaid)

/-- Without a deletion every granule in which a class starts has classes. -/
theorem granuleClasses_of_contains (hkind : allocType ≠ .placementNew ∧ allocType ≠ .reinterpret)
    (hregular : M.Regular files (.struct x)) (hsize : (M.struct x).allocSize < 2 ^ 32) {o b : ℕ}
    (hb : M.Contains (.struct x) o b) :
    ∃ types a, GranuleClasses M files allocType x o types ∧ a ∈ types ∧
      M.Contains (.struct x) o a ∧ M.AtOffsetZero a b := by
  obtain ⟨types, a, htypes, ha, hcontains, hzero⟩ :=
    TypeTable.found_of_contains hregular hsize hb
  refine ⟨types, a, ⟨?_, Finset.card_ne_zero_of_mem ha⟩, ha, hcontains, hzero⟩
  rw [tracedElements, if_neg (not_or.mpr hkind)]
  exact htypes

/-- A table with a bit for the number accepts it iff it was made from a class with it. -/
theorem tableAccepts_iff (hfiles : FromTool files) {name : Name}
    (hcode : files.bitypeCodeMap[name]? = some code) {types : Finset ℕ} {origin : Origin}
    (htabled : Tabled M files rodata place types origin code) :
    TableAccepts M rodata place types code ↔ origin.Accepts M files code := by
  obtain ⟨table, hemits, hemitted, hinside⟩ := htabled
  unfold TableAccepts
  rw [← Bool.not_eq_true, maskRejects_iff hfiles hemits hemitted hcode hinside, not_not]

/-- **The table of a granule accepts what starts in the granule.** -/
theorem tableAccepts_of_madeFor {R : ToolRun} (hrefine : R.Refining)
    (hfamily : OneFamily R M x) {types : Finset ℕ} {a : ℕ} (ha : a ∈ types)
    (hcontains : M.Contains (.struct x) oD a) (hd : M.Contains (.struct x) oD d)
    (hzero : M.AtOffsetZero a d)
    (hrelated : M.isInCastRelatedSet (filesOf R) a = true ∧
      M.isInCastRelatedSet (filesOf R) d = true)
    (hcode : (filesOf R).bitypeCodeMap[M.typeName d]? = some code) {origin : Origin}
    {table : List Byte} (hmade : MadeFor M types origin)
    (hemits : origin.Emits M (filesOf R) table)
    (hemitted : Emitted rodata (place (M.setName types)) table) :
    TableAccepts M rodata place types code := by
  have hfiles := fromTool_filesOf R
  obtain ⟨familySize, hlength, -, hupper⟩ := length_emitted hemits
  obtain ⟨sizeA, hsizeA⟩ := Option.ne_none_iff_exists'.mp (isInCastRelatedSet_iff.mp hrelated.1)
  obtain ⟨sizeD, hsizeD⟩ := Option.ne_none_iff_exists'.mp (isInCastRelatedSet_iff.mp hrelated.2)
  have hleA := code_le_size hrefine (hfamily _ _ _ _ hcontains hd) hsizeA hcode
  have hleD := code_le_size hrefine (hfamily _ _ _ _ hd hd) hsizeD hcode
  -- the number is one of the table's, and within the table
  have hboth : origin.Accepts M (filesOf R) code ∧ code ≤ familySize := by
    cases origin with
    | merged relatedCast =>
        obtain rfl : relatedCast = types := hmade
        refine ⟨⟨_, .inr ⟨d, ⟨a, ha, hzero⟩, .inl rfl⟩, hcode⟩, ?_⟩
        calc code ≤ sizeA := hleA
          _ ≤ familySize := hupper ⟨_, ⟨a, ha, rfl⟩, hsizeA⟩
    | single a' =>
        obtain ⟨a'', rfl, hsame⟩ := hmade
        obtain rfl := Finset.mem_singleton.mp ha
        obtain ⟨d', hd', hname⟩ := hsame d hzero
        rw [← hname] at hcode hsizeD
        have hcontained : (filesOf R).bitypeCastRelatedClass.contains (M.typeName d') = true := by
          rw [contains_castRelated, hsizeD]
          exact Option.some_ne_none _
        refine ⟨⟨_, .inl (.inr ⟨d', hd', .inl ⟨rfl, hcontained⟩⟩), hcode⟩, ?_⟩
        have hcoded : (filesOf R).Coded (M.typeName d') := by
          unfold ClassFiles.Coded
          rw [hcode]
          exact Option.some_ne_none _
        calc code ≤ sizeD := hleD
          _ ≤ familySize := hupper ⟨_, .inl (.inr ⟨d', hd', rfl, hcoded⟩), hsizeD⟩
  have hinside : readOffset code < table.length := by
    have hpos := (hfiles.code_range hcode).1
    rw [readOffset_eq hpos (code_lt hfiles hcode), hlength, arraySize_eq]
    omega
  exact (tableAccepts_iff hfiles hcode ⟨table, hemits, hemitted, hinside⟩).mpr hboth.1

/-- The downcast from offset `oB` to `oD` is let through: the granule of the base has
classes, the derived object does not start before the base does in its granule, and the
table of the derived granule was made from a class with the number.  Where classes have
been deleted from the granule of the base, only a cast that keeps the pointer is. -/
def DowncastAllowed (M : Module) (files : ClassFiles) (rodata : Word → Byte)
    (place : Name → Word) (allocType : AllocType) (x oD oB code : ℕ) : Prop :=
  (∃ types, GranuleClasses M files allocType x oB types) ∧ WithinReach oD oB ∧
      (∃ types origin, GranuleClasses M files allocType x oD types ∧
        Tabled M files rodata place types origin code ∧ origin.Accepts M files code) ∨
    (¬ ∃ types, GranuleClasses M files allocType x oB types) ∧ oB = oD

theorem downcastPasses_iff (hfiles : FromTool files) {name : Name}
    (hcode : files.bitypeCodeMap[name]? = some code)
    (htables : ∀ types, GranuleClasses M files allocType x oD types →
      ∃ origin, Tabled M files rodata place types origin code) :
    DowncastPasses M files rodata place allocType x oD oB code ↔
      DowncastAllowed M files rodata place allocType x oD oB code := by
  have hderived : (∃ types, GranuleClasses M files allocType x oD types ∧
      TableAccepts M rodata place types code) ↔
      ∃ types origin, GranuleClasses M files allocType x oD types ∧
        Tabled M files rodata place types origin code ∧ origin.Accepts M files code := by
    constructor
    · rintro ⟨types, htypes, haccepts⟩
      obtain ⟨origin, htabled⟩ := htables types htypes
      exact ⟨types, origin, htypes, htabled, (tableAccepts_iff hfiles hcode htabled).mp haccepts⟩
    · rintro ⟨types, origin, htypes, htabled, haccepts⟩
      exact ⟨types, htypes, (tableAccepts_iff hfiles hcode htabled).mpr haccepts⟩
  unfold DowncastPasses DowncastAllowed
  rw [hderived]

/-- With tables made for the granules, only the offset test decides. -/
theorem downcastPasses_of_madeFor {R : ToolRun}
    (hkind : allocType ≠ .placementNew ∧ allocType ≠ .reinterpret)
    (hsize : (M.struct x).allocSize < 2 ^ 32) (hrefine : R.Refining) (hfamily : OneFamily R M x)
    (hlegal : LegalDowncast M (filesOf R) x oD oB d) {b : ℕ} (hb : M.Contains (.struct x) oB b)
    (hcode : (filesOf R).bitypeCodeMap[M.typeName d]? = some code)
    (htables : GranuleTabled M (filesOf R) rodata place allocType x oD) :
    DowncastPasses M (filesOf R) rodata place allocType x oD oB code ↔ WithinReach oD oB := by
  obtain ⟨typesB, -, htypesB, -⟩ := granuleClasses_of_contains hkind hlegal.regular hsize hb
  obtain ⟨typesD, a, htypesD, ha, hcontains, hzero⟩ :=
    granuleClasses_of_contains hkind hlegal.regular hsize hlegal.derived
  obtain ⟨origin, table, hmade, hemits, hemitted⟩ := htables typesD htypesD
  have hrelated := (hlegal.regular _ _ hcontains).2.2.2
  have hrelatedD := (hlegal.regular _ _ hlegal.derived).2.2.2
  have haccepts := tableAccepts_of_madeFor hrefine hfamily ha hcontains hlegal.derived hzero
    ⟨hrelated, hrelatedD⟩ hcode hmade hemits hemitted
  have htracedB : ∃ types, GranuleClasses M (filesOf R) allocType x oB types := ⟨typesB, htypesB⟩
  unfold DowncastPasses
  constructor
  · rintro (⟨-, hreach, -⟩ | ⟨hnone, -⟩)
    · exact hreach
    · exact absurd htracedB hnone
  · exact fun hreach => .inl ⟨htracedB, hreach, typesD, htypesD, haccepts⟩

variable (rodata) in
/-- **Which legal downcasts in a traced object pass.**  For every layout, kind of
allocation and address, exactly those that `DowncastAllowed` describes; and if the
base is not empty, the granule's table is the one made for its classes, and these are in
one family, exactly those within reach. -/
theorem downcast_iff {R : ToolRun} {s : Shadow} {objAddr : Word} (fresh : FreshMmap mmap)
    (layout : Layout mmap s) (hplace : ∀ name, place name ≠ 0) (inlineOpt isConstant : Bool)
    (hkind : allocType ≠ .reinterpret) (hobject : ObjectAt M x objAddr)
    (hlegal : LegalDowncast M (filesOf R) x oD oB d)
    (hcode : (filesOf R).bitypeCodeMap[M.typeName d]? = some code)
    (hclear : ∀ o, o = oD ∨ o = oB →
      (¬ ∃ types, GranuleClasses M (filesOf R) allocType x o types) →
      Entry.table? (s.lookup (objAddr + BitVec.ofNat 64 o)) = none) (debugIndex : U32) :
    ∃ s', (program mmap rodata).run (traceObject M (filesOf R) inlineOpt place allocType
        isConstant objAddr (.struct x)) s = some s' ∧
      ((∀ types, GranuleClasses M (filesOf R) allocType x oD types →
          ∃ origin, Tabled M (filesOf R) rodata place types origin code) →
        (Passes rodata s' (objAddr + BitVec.ofNat 64 oB) (objAddr + BitVec.ofNat 64 oD) code
            debugIndex ↔
          DowncastAllowed M (filesOf R) rodata place allocType x oD oB code)) ∧
      (allocType ≠ .placementNew → (M.struct x).allocSize < 2 ^ 32 → R.Refining →
        OneFamily R M x → (∃ b, M.Contains (.struct x) oB b) →
        GranuleTabled M (filesOf R) rodata place allocType x oD →
        (Passes rodata s' (objAddr + BitVec.ofNat 64 oB) (objAddr + BitVec.ofNat 64 oD) code
            debugIndex ↔ WithinReach oD oB)) := by
  obtain ⟨s', hrun, -, hseen⟩ := traceObject_spec rodata M (filesOf R) inlineOpt fresh hplace
    hkind isConstant hobject.aligned (.struct x) layout
  have hpasses : Passes rodata s' (objAddr + BitVec.ofNat 64 oB) (objAddr + BitVec.ofNat 64 oD)
      code debugIndex ↔ DowncastPasses M (filesOf R) rodata place allocType x oD oB code :=
    passes_iff hobject.aligned hobject.nonnull hobject.fits hlegal.le hlegal.lt_size hclear
      hseen code debugIndex
  refine ⟨s', hrun, fun htables => ?_, fun hnew hsize hrefine hfamily hbase htables => ?_⟩
  · exact hpasses.trans (downcastPasses_iff (fromTool_filesOf R) hcode htables)
  · obtain ⟨b, hb⟩ := hbase
    exact hpasses.trans
      (downcastPasses_of_madeFor ⟨hnew, hkind⟩ hsize hrefine hfamily hlegal hb hcode htables)

end Legal

/-! ## Two bases in one granule -/

/-- `D` with the bases `A` and `B` of four bytes each. -/
def pairClass : CXXRecordDecl :=
  sizedClass ['D'] 8 [sizedClass ['A'] 4 [], sizedClass ['B'] 4 []]

/-- The class, and a cast to it from each base. -/
def pairVisits : List Visit :=
  [.recordDecl pairClass,
    .castExpr (.baseToDerived none (some pairClass) (some (sizedClass ['A'] 4 []))),
    .castExpr (.baseToDerived none (some pairClass) (some (sizedClass ['B'] 4 [])))]

/-- What the tool writes for them. -/
def pairOutput : ToolOutput where
  codingNum := [(['D'], 1)]
  castrelatedSet := [(['D'], 1), (['A'], 1), (['B'], 1)]
  safecast := [(['D'], [])]

theorem pairModule_nodup : ([1, 2, 3] : List ℕ).Nodup := by decide

/-- The struct types of `D`, `A` and `B`. -/
def pairModule : Module where
  struct a :=
    if a = 1 then
      ⟨some "trackedtype.D".toList, false, false, [(0, .struct 2), (4, .struct 3)], 8⟩
    else if a = 2 then ⟨some "trackedtype.A".toList, false, false, [(0, .other 4)], 4⟩
    else ⟨some "trackedtype.B".toList, false, false, [(0, .other 4)], 4⟩
  depth a := if a = 1 then 1 else 0
  contained := contained_of_cases 3 (by decide) fun a ha => by
    simp [show a ≠ 1 from ne_of_listed (by decide) ha, show a ≠ 2 from ne_of_listed (by decide) ha]
  identified := [1, 2, 3]
  nodup := pairModule_nodup

theorem pairModule_classes : (pairModule.typeName 1 = ['D'] ∧ pairModule.typeName 2 = ['A'] ∧
    pairModule.typeName 3 = ['B']) ∧ ∀ b ∈ [1, 2, 3],
      pairModule.isInterestingStructType b = true ∧ pairModule.isTracked b = true := by
  decide +kernel

theorem pairModule_typeName : pairModule.typeName 1 = ['D'] ∧ pairModule.typeName 2 = ['A'] ∧
    pairModule.typeName 3 = ['B'] := pairModule_classes.1

/-- What the pass reads of the tool's files. -/
theorem pairFiles_rows :
    ((initReadFiles pairOutput).bitypeCastRelatedClass[(['D'] : Name)]? = some 1 ∧
      (initReadFiles pairOutput).bitypeCastRelatedClass[(['A'] : Name)]? = some 1 ∧
      (initReadFiles pairOutput).bitypeCastRelatedClass[(['B'] : Name)]? = some 1) ∧
    (initReadFiles pairOutput).bitypeClassIndexSet2[(['D'] : Name)]? = some 0 ∧
    (initReadFiles pairOutput).bitypeClassIndexSet2[(['B'] : Name)]? = some 2 ∧
    (initReadFiles pairOutput).bitypeCodeMap[(['D'] : Name)]? = some 1 := by decide +kernel

/-- All three classes are cast-related. -/
theorem pairFiles_related {T : TypeTable} {a : ℕ}
    (h : T.typeName a = ['D'] ∨ T.typeName a = ['A'] ∨ T.typeName a = ['B']) :
    T.isInCastRelatedSet (initReadFiles pairOutput) a = true := by
  obtain ⟨⟨hD, hA, hB⟩, -⟩ := pairFiles_rows
  rw [isInCastRelatedSet_iff]
  rcases h with h | h | h
  · simp [h, hD]
  · simp [h, hA]
  · simp [h, hB]

theorem pairFiles_class {T : TypeTable} {a : ℕ}
    (hclass : T.isInterestingStructType a = true ∧ T.isTracked a = true)
    (h : T.typeName a = ['D'] ∨ T.typeName a = ['A'] ∨ T.typeName a = ['B']) :
    T.isInterestingStructType a = true ∧ T.isTracked a = true ∧
      T.isInCastRelatedSet (initReadFiles pairOutput) a = true :=
  ⟨hclass.1, hclass.2, pairFiles_related h⟩

/-- Both bases and `D` itself start in the one granule of a `D`. -/
theorem pairModule_elements :
    (pairModule.elementsOf (initReadFiles pairOutput) (.struct 1))[0]? = some {1, 3} := by
  decide +kernel

/-- The run of the tool. -/
structure PairRun (R : ToolRun) : Prop where
  output_eq : R.output = pairOutput
  families_eq : R.families = [[0, 2, 1]]
  phantomSets_eq : R.phantomSets = [[0], [1], [2]]
  index_D : HasIndex ['D'] 0 R.state
  index_A : HasIndex ['A'] 1 R.state
  index_B : HasIndex ['B'] 2 R.state

theorem exists_pairRun : ∃ R, PairRun R := by
  obtain ⟨s, hrun, ⟨hroom, hfamilies, hphantoms, hD, hA, hB⟩, hout⟩ :
      ∃ s, traversal.run pairVisits Collector.empty = some s ∧
        (s.currentIndex ≤ MAX_NUM_CLASS ∧ DFS s.graph s.currentIndex = some [[0, 2, 1]] ∧
          DFS s.graphPhantoms s.currentIndex = some [[0], [1], [2]] ∧
          s.classCode[(['D'] : Name)]? = some 0 ∧ s.classCode[(['A'] : Name)]? = some 1 ∧
          s.classCode[(['B'] : Name)]? = some 2) ∧ writeFiles s = some pairOutput :=
    ⟨_, rfl, by decide +kernel⟩
  exact ⟨⟨pairVisits, s, _, _, _, hrun, hroom, hfamilies, hphantoms, hout⟩,
    rfl, rfl, rfl, hD, hA, hB⟩

/-- What lies inside a class with two bases. -/
theorem twoBases_contains {T : TypeTable} {second size : ℕ}
    (hclass : (T.struct 1).elements = [(0, .struct 2), (second, .struct 3)])
    (hbase : ∀ a, a = 2 ∨ a = 3 → (T.struct a).elements = [(0, .other size)]) {o b : ℕ}
    (h : T.Contains (.struct 1) o b) : o = 0 ∧ b = 1 ∨ o = 0 ∧ b = 2 ∨ o = second ∧ b = 3 := by
  have hleaf : ∀ a, a = 2 ∨ a = 3 → ∀ o b, T.Contains (.struct a) o b → o = 0 ∧ b = a := by
    intro a ha o b hb
    cases hb with
    | self => exact ⟨rfl, rfl⟩
    | element he hb =>
        rw [hbase a ha] at he
        obtain rfl := List.mem_singleton.mp he
        cases hb
  cases h with
  | self => exact .inl ⟨rfl, rfl⟩
  | element he hb =>
      rw [hclass] at he
      simp only [List.mem_cons, List.not_mem_nil, or_false] at he
      rcases he with rfl | rfl
      · obtain ⟨rfl, rfl⟩ := hleaf 2 (.inl rfl) _ _ hb
        exact .inr (.inl ⟨rfl, rfl⟩)
      · obtain ⟨rfl, rfl⟩ := hleaf 3 (.inr rfl) _ _ hb
        exact .inr (.inr ⟨rfl, rfl⟩)

/-- What lies inside a `D`. -/
theorem pairModule_contains {o b : ℕ} (h : pairModule.Contains (.struct 1) o b) :
    o = 0 ∧ b = 1 ∨ o = 0 ∧ b = 2 ∨ o = 4 ∧ b = 3 :=
  twoBases_contains rfl (fun a ha => by rcases ha with rfl | rfl <;> rfl) h

theorem pairModule_regular : pairModule.Regular (initReadFiles pairOutput) (.struct 1) := by
  have hleaf : ∀ a, a = 2 ∨ a = 3 → pairModule.Laid a := by
    rintro a (rfl | rfl)
    · exact ⟨by decide, by decide, by decide⟩
    · exact ⟨by decide, by decide, by decide⟩
  obtain ⟨⟨hD, hA, hB⟩, hclass⟩ := pairModule_classes
  intro o b hb
  rcases pairModule_contains hb with ⟨-, rfl⟩ | ⟨-, rfl⟩ | ⟨-, rfl⟩
  · exact ⟨⟨by decide, by decide, by decide⟩, pairFiles_class (hclass 1 (by decide)) (.inl hD)⟩
  · exact ⟨hleaf 2 (.inl rfl), pairFiles_class (hclass 2 (by decide)) (.inr (.inl hA))⟩
  · exact ⟨hleaf 3 (.inr rfl), pairFiles_class (hclass 3 (by decide)) (.inr (.inr hB))⟩

/-- A table for the classes `D` and `B`. -/
def pairTable : List Byte := pairModule.mergedTable (initReadFiles pairOutput) {1, 3}

theorem pairModule_granule {o : ℕ} (ho : o < 8) {types : Finset ℕ}
    (h : GranuleClasses pairModule (initReadFiles pairOutput) .stackAlloc 1 o types) :
    types = {1, 3} := by
  have hlookup := h.1
  rw [Nat.div_eq_of_lt ho, tracedElements, if_neg (by decide), pairModule_elements] at hlookup
  exact (Option.some.inj hlookup).symm

theorem pairModule_legal :
    LegalDowncast pairModule (initReadFiles pairOutput) 1 0 4 1 where
  regular := pairModule_regular
  derived := .self 1
  le := by decide
  lt := by decide

theorem pairModule_base : ∃ b, pairModule.Contains (.struct 1) 4 b := by
  have helement : (4, IRType.struct 3) ∈ (pairModule.struct 1).elements := by
    show _ ∈ [(0, IRType.struct 2), (4, .struct 3)]
    simp
  exact ⟨3, .element helement (.self 3)⟩

theorem pairModule_objectAt : ObjectAt pairModule 1 16 := by
  refine ⟨by decide, by decide, ?_⟩
  show 16 + 8 ≤ 2 ^ 48
  decide

namespace PairRun

variable {R : ToolRun} (h : PairRun R)
include h

theorem files_eq : filesOf R = initReadFiles pairOutput := by rw [filesOf, h.output_eq]

theorem refining : R.Refining := by
  intro P hP
  rw [h.phantomSets_eq] at hP
  rw [h.families_eq]
  revert P
  decide

/-- The three classes are in one family. -/
theorem oneFamily_of {M : Module} (hinside : ∀ o a, M.Contains (.struct 1) o a →
    M.typeName a = ['D'] ∨ M.typeName a = ['A'] ∨ M.typeName a = ['B']) : OneFamily R M 1 := by
  have hindex : ∀ o a, M.Contains (.struct 1) o a →
      ∃ i ∈ [0, 2, 1], HasIndex (M.typeName a) i R.state := by
    intro o a ha
    rcases hinside o a ha with hname | hname | hname
    · exact ⟨0, by decide, hname ▸ h.index_D⟩
    · exact ⟨1, by decide, hname ▸ h.index_A⟩
    · exact ⟨2, by decide, hname ▸ h.index_B⟩
  intro o a o' b ha hb
  obtain ⟨i, hi, hindexA⟩ := hindex o a ha
  obtain ⟨j, hj, hindexB⟩ := hindex o' b hb
  refine ⟨i, j, hindexA, hindexB, [0, 2, 1], ?_, hi, hj⟩
  rw [h.families_eq]
  exact List.mem_singleton_self _

theorem oneFamily : OneFamily R pairModule 1 := by
  obtain ⟨hD, hA, hB⟩ := pairModule_typeName
  apply h.oneFamily_of
  intro o a ha
  rcases pairModule_contains ha with ⟨-, rfl⟩ | ⟨-, rfl⟩ | ⟨-, rfl⟩
  · exact .inl hD
  · exact .inr (.inl hA)
  · exact .inr (.inr hB)

theorem code_D : (filesOf R).bitypeCodeMap[pairModule.typeName 1]? = some 1 := by
  rw [h.files_eq, pairModule_typeName.1]
  exact pairFiles_rows.2.2.2

theorem legal : LegalDowncast pairModule (filesOf R) 1 0 4 1 := by
  rw [h.files_eq]
  exact pairModule_legal

/-- The table of the granule. -/
theorem tabled {o : ℕ} (ho : o < 8) : GranuleTabled pairModule (filesOf R)
    (placeTable 4096 pairTable) (fun _ => 4096) .stackAlloc 1 o := by
  have hfiles := fromTool_filesOf R
  rw [h.files_eq] at hfiles ⊢
  intro types htypes
  obtain rfl := pairModule_granule ho htypes
  have hrelated : ∀ b ∈ ({1, 3} : Finset ℕ),
      pairModule.isInCastRelatedSet (initReadFiles pairOutput) b = true := by
    intro b hb
    rcases Finset.mem_insert.mp hb with rfl | hb
    · exact pairFiles_related (.inl pairModule_typeName.1)
    · obtain rfl := Finset.mem_singleton.mp hb
      exact pairFiles_related (.inr (.inr pairModule_typeName.2.2))
  have hemits : Origin.Emits pairModule (initReadFiles pairOutput) (.merged {1, 3}) pairTable :=
    ⟨⟨1, by decide⟩, hrelated, rfl⟩
  exact ⟨.merged {1, 3}, pairTable, rfl, hemits,
    emitted_placeTable 4096 (emitted_length_le hfiles hemits)⟩

/-- Nothing is deleted from the granule. -/
theorem traced {o : ℕ} (ho : o < 8) :
    ∃ types, GranuleClasses pairModule (filesOf R) .stackAlloc 1 o types := by
  rw [h.files_eq]
  refine ⟨{1, 3}, ?_, by decide⟩
  rw [Nat.div_eq_of_lt ho, tracedElements, if_neg (by decide)]
  exact pairModule_elements

end PairRun

/-- A `D` at address 16. -/
theorem downcast_iff_sample : ∃ (R : ToolRun) (s' : Shadow),
    (program spacedMmap (placeTable 4096 pairTable)).run
        (traceObject pairModule (filesOf R) true (fun _ => 4096) .stackAlloc true 16 (.struct 1))
        (bitypeInitialization spacedMmap fun _ => 0) = some s' ∧
      (Passes (placeTable 4096 pairTable) s' (16 + BitVec.ofNat 64 4) (16 + BitVec.ofNat 64 0) 1 0 ↔
        WithinReach 0 4) := by
  obtain ⟨R, hR⟩ := exists_pairRun
  have hplace : ∀ _ : Name, (4096 : Word) ≠ 0 := fun _ => by decide
  obtain ⟨s', hrun, -, hpasses⟩ := downcast_iff (placeTable 4096 pairTable)
    spacedMmap_fresh (layout_init fun _ => 0) hplace true true
    (show AllocType.stackAlloc ≠ .reinterpret by decide) pairModule_objectAt hR.legal hR.code_D
    (fun o ho hnone => absurd (hR.traced (by omega)) hnone) 0
  exact ⟨R, s', hrun, hpasses (by decide) (by decide) hR.refining hR.oneFamily pairModule_base
    (hR.tabled (by decide))⟩

/-- The downcast of a `D` from its base `B` is reported. -/
theorem downcast_reported :
    ¬ ∀ (mmap : ℕ → ℕ) (rodata : Word → Byte) (R : ToolRun) (M : Module) (place : Name → Word)
      (allocType : AllocType) (inlineOpt isConstant : Bool) (s s' : Shadow) (objAddr : Word)
      (x oD oB d code : ℕ) (debugIndex : U32), FreshMmap mmap → Layout mmap s →
      (∀ name, place name ≠ 0) → allocType ≠ .placementNew → allocType ≠ .reinterpret →
      R.Refining → OneFamily R M x → ObjectAt M x objAddr → (M.struct x).allocSize < 2 ^ 32 →
      LegalDowncast M (filesOf R) x oD oB d → (∃ b, M.Contains (.struct x) oB b) →
      (filesOf R).bitypeCodeMap[M.typeName d]? = some code →
      GranuleTabled M (filesOf R) rodata place allocType x oD →
      GranuleTabled M (filesOf R) rodata place allocType x oB →
      (program mmap rodata).run (traceObject M (filesOf R) inlineOpt place allocType isConstant
        objAddr (.struct x)) s = some s' →
      Passes rodata s' (objAddr + BitVec.ofNat 64 oB) (objAddr + BitVec.ofNat 64 oD) code
        debugIndex := by
  intro hclaim
  obtain ⟨R, hR⟩ := exists_pairRun
  have hplace : ∀ _ : Name, (4096 : Word) ≠ 0 := fun _ => by decide
  have hkind : AllocType.stackAlloc ≠ .reinterpret := by decide
  have hlayout : Layout spacedMmap (bitypeInitialization spacedMmap fun _ => 0) :=
    layout_init fun _ => 0
  obtain ⟨s', hrun, -, hseen⟩ := traceObject_spec (placeTable 4096 pairTable) pairModule
    (filesOf R) true spacedMmap_fresh hplace hkind true pairModule_objectAt.aligned (.struct 1)
    hlayout
  have hpasses := hclaim spacedMmap (placeTable 4096 pairTable) R pairModule (fun _ => 4096)
    .stackAlloc true true _ s' 16 1 0 4 1 1 0 spacedMmap_fresh hlayout hplace (by decide) hkind
    hR.refining hR.oneFamily pairModule_objectAt (by decide) hR.legal
    pairModule_base hR.code_D (hR.tabled (by decide)) (hR.tabled (by decide)) hrun
  have hlegal := (passes_iff pairModule_objectAt.aligned pairModule_objectAt.nonnull
    pairModule_objectAt.fits (by decide : 0 ≤ 4) (by decide)
    (fun o ho hnone => absurd (hR.traced (by omega)) hnone) hseen 1 0).mp hpasses
  rcases hlegal with ⟨-, hreach, -⟩ | ⟨-, hsame⟩
  · rcases hreach with hsame | ⟨hlow, -⟩
    · cases hsame
    · exact absurd hlow (by decide)
  · cases hsame

end Bitype.Pass
