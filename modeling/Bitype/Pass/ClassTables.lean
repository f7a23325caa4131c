import Bitype.Pass.Subobjects
import Bitype.Pass.TableKeys

/-!
# What the tables accept

A table accepts a number if it has a byte for it and the bit is set: some class it was made
from has the number, and some class that its length was taken from is of a family with as
many numbers, up to a whole byte (`accepted_iff`).

The table of a single class takes its length from every class at offset zero that it has a
number from, so it accepts them all (`classTable_accepts`).  The table of a set of classes
is made by a copy of that code that takes its length from the members only and leaves their
closures out (`mergedTable_accepts_iff`).
-/

namespace Bitype.Pass

open Bitype.Foundations Bitype.Runtime Bitype.Tool

/-- A check for the number reads inside the table and passes. -/
def Accepted (table : List Byte) (code : ℕ) : Prop :=
  readOffset code < table.length ∧
    ∀ rodata address, Emitted rodata address table →
      maskRejects rodata address ((byteIndex (BitVec.ofNat 32 code) + 2).setWidth 64)
        (safeCode (BitVec.ofNat 32 code)) = false

/-- A class that the length of a table was taken from is of a family with room for the
number. -/
def Origin.HasRoom (M : Module) (files : ClassFiles) (origin : Origin) (code : ℕ) : Prop :=
  ∃ name size, origin.Sizes M files name ∧ files.bitypeCastRelatedClass[name]? = some size ∧
    code ≤ 8 * ((size + 7) / 8)

section Accepted

variable {M : Module} {files : ClassFiles} {origin : Origin} {table : List Byte} {code : ℕ}

/-- The greatest family decides. -/
theorem hasRoom_iff {familySize : ℕ}
    (hgreatest : IsGreatest (familySizes files (origin.Sizes M files)) familySize) :
    origin.HasRoom M files code ↔ code ≤ 8 * ((familySize + 7) / 8) := by
  obtain ⟨⟨name, hname, hsize⟩, hupper⟩ := hgreatest
  constructor
  · rintro ⟨other, size, hother, hlookup, hle⟩
    have hless : size ≤ familySize := hupper ⟨other, hother, hlookup⟩
    omega
  · exact fun hle => ⟨name, familySize, hname, hsize, hle⟩

/-- **What a table accepts.** -/
theorem accepted_iff (hfiles : files.Numbered) (hemits : origin.Emits M files table)
    (hpos : 1 ≤ code) (hlt : code < 2 ^ 32) :
    Accepted table code ↔ origin.Accepts M files code ∧ origin.HasRoom M files code := by
  obtain ⟨familySize, hlength, hgreatest⟩ := length_emitted hemits
  have hread : readOffset code < table.length ↔ origin.HasRoom M files code := by
    rw [hasRoom_iff hgreatest, readOffset_eq hpos hlt, hlength, arraySize_eq]
    omega
  constructor
  · rintro ⟨hinside, hpasses⟩
    refine ⟨?_, hread.mp hinside⟩
    have hfits : table.length ≤ 2 ^ 64 := by
      obtain ⟨name, -, hsize⟩ := hgreatest.1
      have hless := hfiles.size_lt name familySize hsize
      rw [hlength, arraySize_eq]
      omega
    by_contra hnone
    have hrejects := (maskRejects_iff_not_accepts hfiles hemits (emitted_placeTable 0 hfits) hpos
      hlt hinside).mpr hnone
    rw [hpasses _ 0 (emitted_placeTable 0 hfits)] at hrejects
    cases hrejects
  · rintro ⟨haccepts, hroom⟩
    refine ⟨hread.mpr hroom, fun rodata address hemitted => ?_⟩
    rw [← Bool.not_eq_true,
      maskRejects_iff_not_accepts hfiles hemits hemitted hpos hlt (hread.mpr hroom), not_not]
    exact haccepts

/-- No table has a byte for the number 0. -/
theorem not_accepted_zero (hfiles : files.Numbered) (hemits : origin.Emits M files table) :
    ¬ Accepted table 0 := by
  rintro ⟨hinside, -⟩
  obtain ⟨familySize, hlength, ⟨name, -, hsize⟩, -⟩ := length_emitted hemits
  have hless := hfiles.size_lt name familySize hsize
  have hzero : readOffset 0 = 2 ^ 29 + 1 := by decide
  rw [hzero, hlength, arraySize_eq] at hinside
  omega

end Accepted

/-! ## One class -/

section Single

variable {M : Module} {files : ClassFiles} {a c : ℕ}

/-- The loop body gets to a table. -/
theorem exists_classTable (hrelated : M.isInCastRelatedSet files a = true)
    (hindex : files.bitypeClassIndexSet2[M.typeName a]? ≠ none) :
    ∃ table, M.classTable files a = some table := by
  obtain ⟨familySize, hfamily⟩ := Option.ne_none_iff_exists'.mp (isInCastRelatedSet_iff.mp hrelated)
  obtain ⟨index, hindex⟩ := Option.ne_none_iff_exists'.mp hindex
  unfold Module.classTable
  simp only [hfamily, hindex]
  exact ⟨_, rfl⟩

/-- The table under the name of a class type is its own, if no other class type has the
name. -/
theorem getAllClassSafeCast_own {table : List Byte} (ha : a ∈ M.classTypes)
    (hnames : ∀ b ∈ M.identified, ∀ b' ∈ M.identified, M.typeName b = M.typeName b' → b = b')
    (htable : M.classTable files a = some table) :
    (M.getAllClassSafeCast files)[M.typeName a]? = some table := by
  have hlookup : (M.getAllClassSafeCast files)[M.typeName a]? =
      (variableAt M files [] (M.typeName a)).map Prod.snd :=
    provideTables_eq (fun T hT => absurd hT List.not_mem_nil) (M.typeName a)
  have hown : (Origin.single a, table) ∈ classVariables M files :=
    List.mem_filterMap.mpr ⟨a, ha, by rw [htable]; rfl⟩
  have hfound : (variableAt M files [] (M.typeName a)).isSome := by
    rw [variableAt, List.find?_isSome]
    exact ⟨_, List.mem_append_left _ hown, decide_eq_true rfl⟩
  obtain ⟨v, hv⟩ := Option.isSome_iff_exists.mp hfound
  have hmem : v ∈ classVariables M files := by
    have := List.mem_of_find?_eq_some hv
    rwa [setVariables, List.map_nil, List.append_nil] at this
  obtain ⟨b, hb, hvb⟩ := List.mem_filterMap.mp hmem
  obtain ⟨table', htable', rfl⟩ := Option.map_eq_some_iff.mp hvb
  have hsame : b = a := by
    apply hnames b (List.mem_of_mem_filter hb) a (List.mem_of_mem_filter ha)
    exact variableAt_key hv
  rw [hsame, htable] at htable'
  obtain rfl := Option.some.inj htable'
  rw [hlookup, hv]
  rfl

/-- A class at offset zero, with a number within its family. -/
theorem accepted_of_offsetZero (hfiles : files.Numbered) {table : List Byte}
    (hemits : Origin.Emits M files (.single a) table) (hc : c ∈ M.getOffetZeroStruct a ∅)
    {code size : ℕ} (hcode : files.bitypeCodeMap[M.typeName c]? = some code)
    (hsize : files.bitypeCastRelatedClass[M.typeName c]? = some size) (hle : code ≤ size) :
    Accepted table code := by
  have hzero : M.AtOffsetZero a c :=
    (TypeTable.mem_getOffetZeroStruct.mp hc).resolve_left (Finset.notMem_empty c)
  have hlt := hfiles.code_lt _ _ hcode
  rw [accepted_iff hfiles hemits (hfiles.code_pos _ _ hcode) (by omega)]
  have hclass : files.bitypeCastRelatedClass.contains (M.typeName c) = true := by
    rw [contains_castRelated, hsize]
    exact Option.some_ne_none size
  have hcoded : files.Coded (M.typeName c) := by
    rw [ClassFiles.Coded, hcode]
    exact Option.some_ne_none code
  constructor
  · exact ⟨M.typeName c, .inl (.inr ⟨c, hzero, .inl ⟨rfl, hclass⟩⟩), hcode⟩
  · exact ⟨M.typeName c, size, .inl (.inr ⟨c, hzero, rfl, hcoded⟩), hsize, by omega⟩

/-- **The table of a class accepts every class at offset zero** that has a number within its
family. -/
theorem classTable_accepts (hfiles : files.Numbered)
    (hnames : ∀ b ∈ M.identified, ∀ b' ∈ M.identified, M.typeName b = M.typeName b' → b = b')
    (ha : a ∈ M.classTypes) (hrelated : M.isInCastRelatedSet files a = true)
    (hindex : files.bitypeClassIndexSet2[M.typeName a]? ≠ none)
    (hc : c ∈ M.getOffetZeroStruct a ∅) {code size : ℕ}
    (hcode : files.bitypeCodeMap[M.typeName c]? = some code)
    (hsize : files.bitypeCastRelatedClass[M.typeName c]? = some size) (hle : code ≤ size) :
    ∃ table, (M.getAllClassSafeCast files)[M.typeName a]? = some table ∧ Accepted table code := by
  obtain ⟨table, htable⟩ := exists_classTable hrelated hindex
  exact ⟨table, getAllClassSafeCast_own ha hnames htable,
    accepted_of_offsetZero hfiles ⟨ha, htable⟩ hc hcode hsize hle⟩

end Single

/-! ## A set of classes -/

section Merged

variable {M : Module} {files : ClassFiles} {relatedCast : Finset ℕ} {a : ℕ}

/-- What the table of a member holds besides its closures, the table of the set holds too. -/
theorem Origin.Numbers.merged {name : Name} (ha : a ∈ relatedCast)
    (h : Origin.Numbers M files (.single a) name) :
    Origin.Numbers M files (.merged relatedCast) name ∨ ∃ c, M.ClosureOf a c ∧ name = M.typeName c := by
  rcases h with (rfl | ⟨b, hb, ⟨rfl, -⟩ | hinherits⟩) | hclosure
  · exact .inl (.inl ⟨a, ha, rfl⟩)
  · exact .inl (.inr ⟨b, ⟨a, ha, hb⟩, .inl rfl⟩)
  · exact .inl (.inr ⟨b, ⟨a, ha, hb⟩, .inr hinherits⟩)
  · exact .inr hclosure

/-- **When the table of a set accepts what the table of a member accepts**: exactly if for
each number that the member's table has a bit for, the table of the set has it too if it
comes from a closure, and has a byte for it. -/
theorem mergedTable_accepts_iff (hfiles : files.Numbered)
    (hrelated : ∀ b ∈ relatedCast, M.isInCastRelatedSet files b = true) (ha : a ∈ relatedCast)
    {table : List Byte} (hclass : a ∈ M.classTypes) (htable : M.classTable files a = some table) :
    (∀ code < 2 ^ 32, Accepted table code → Accepted (M.mergedTable files relatedCast) code) ↔
      (∀ c code, M.ClosureOf a c → files.bitypeCodeMap[M.typeName c]? = some code →
        Origin.HasRoom M files (.single a) code →
          Origin.Accepts M files (.merged relatedCast) code) ∧
      ∀ name code, Origin.Numbers M files (.single a) name →
        files.bitypeCodeMap[name]? = some code → Origin.HasRoom M files (.single a) code →
          Origin.HasRoom M files (.merged relatedCast) code := by
  have hemits : Origin.Emits M files (.single a) table := ⟨hclass, htable⟩
  have hemits' : Origin.Emits M files (.merged relatedCast) (M.mergedTable files relatedCast) :=
    ⟨⟨a, ha⟩, hrelated, rfl⟩
  constructor
  · intro h
    -- a number in the member's table is in the table of the set
    have hboth : ∀ name code, Origin.Numbers M files (.single a) name →
        files.bitypeCodeMap[name]? = some code → Origin.HasRoom M files (.single a) code →
        Origin.Accepts M files (.merged relatedCast) code ∧
          Origin.HasRoom M files (.merged relatedCast) code := by
      intro name code hname hcode hroom
      have hpos := hfiles.code_pos name code hcode
      have hlt : code < 2 ^ 32 := (hfiles.code_lt name code hcode).trans (by decide)
      have haccepted := (accepted_iff hfiles hemits hpos hlt).mpr ⟨⟨name, hname, hcode⟩, hroom⟩
      exact (accepted_iff hfiles hemits' hpos hlt).mp (h code hlt haccepted)
    exact ⟨fun c code hc hcode hroom => (hboth _ code (.inr ⟨c, hc, rfl⟩) hcode hroom).1,
      fun name code hname hcode hroom => (hboth name code hname hcode hroom).2⟩
  · rintro ⟨hclosure, hroom⟩ code hlt haccepted
    have hpos : 1 ≤ code := by
      rcases Nat.eq_zero_or_pos code with rfl | hpos
      · exact absurd haccepted (not_accepted_zero hfiles hemits)
      · exact hpos
    obtain ⟨⟨name, hname, hcode⟩, hown⟩ := (accepted_iff hfiles hemits hpos hlt).mp haccepted
    refine (accepted_iff hfiles hemits' hpos hlt).mpr ⟨?_, hroom name code hname hcode hown⟩
    rcases hname.merged ha with hmerged | ⟨c, hc, rfl⟩
    · exact ⟨name, hmerged, hcode⟩
    · exact hclosure c code hc hcode hown

end Merged

/-! ## A member of a greater family -/

theorem pocketModule_nodup : ([1, 2, 3, 4] : List ℕ).Nodup := by decide

/-- An untracked struct of `Y` and `X`, with a member `b` in `Y`. -/
def pocketModule : Module where
  struct a :=
    if a = 1 then ⟨some "struct.W".toList, false, false, [(0, .struct 2), (4, .struct 3)], 8⟩
    else if a = 2 then ⟨some "trackedtype.Y".toList, false, false, [(0, .struct 4)], 4⟩
    else if a = 3 then ⟨some "trackedtype.X".toList, false, false, [(0, .other 4)], 4⟩
    else ⟨some "trackedtype.b".toList, false, false, [(0, .other 4)], 4⟩
  depth a := if a = 1 then 2 else if a = 2 then 1 else 0
  contained := contained_of_cases 4 (by decide) fun a ha => by
    simp [show a ≠ 1 from ne_of_listed (by decide) ha,
      show a ≠ 2 from ne_of_listed (by decide) ha,
      show a ≠ 3 from ne_of_listed (by decide) ha]
  identified := [1, 2, 3, 4]
  nodup := pocketModule_nodup

/-- The classes `Y` and `X` start in one granule, and `b` starts with `Y`. -/
theorem pocketModule_elements :
    (pocketModule.elementsOf twoFamiliesFiles (.struct 1))[0]? = some {2, 3} ∧
      4 ∈ pocketModule.getOffetZeroStruct 2 ∅ := by decide +kernel

theorem pocketModule_typeNames : pocketModule.typeName 2 = ['Y'] ∧
    pocketModule.typeName 3 = ['X'] ∧ pocketModule.typeName 4 = ['b'] ∧
    ∀ b ∈ pocketModule.identified, ∀ b' ∈ pocketModule.identified,
      pocketModule.typeName b = pocketModule.typeName b' → b = b' := by decide +kernel

theorem pocketModule_class : 2 ∈ pocketModule.classTypes ∧
    ∀ b ∈ ({2, 3} : Finset ℕ), pocketModule.isTracked b = true := by decide +kernel

theorem pocketModule_related {b : ℕ} (hb : b ∈ ({2, 3} : Finset ℕ)) :
    pocketModule.isTracked b = true ∧
      pocketModule.isInCastRelatedSet twoFamiliesFiles b = true := by
  obtain ⟨hY, hX, -⟩ := pocketModule_typeNames
  obtain ⟨hrowY, hrowX, -⟩ := twoFamiliesFiles_rows
  refine ⟨pocketModule_class.2 b hb, isInCastRelatedSet_iff.mpr ?_⟩
  rcases Finset.mem_insert.mp hb with rfl | hb
  · simp [hY, hrowY]
  · rw [Finset.mem_singleton.mp hb]
    simp [hX, hrowX]

theorem pocketModule_index :
    twoFamiliesFiles.bitypeClassIndexSet2[pocketModule.typeName 2]? ≠ none := by
  rw [pocketModule_typeNames.1, twoFamiliesFiles_rows.2.2.2]
  exact Option.some_ne_none 0

/-- The number of `b` and the size of its family. -/
theorem pocketModule_number :
    twoFamiliesFiles.bitypeCodeMap[pocketModule.typeName 4]? = some 9 ∧
      twoFamiliesFiles.bitypeCastRelatedClass[pocketModule.typeName 4]? = some 9 := by
  rw [pocketModule_typeNames.2.2.1]
  exact ⟨twoFamiliesFiles_codes.2.2, twoFamiliesFiles_rows.2.2.1⟩

/-- The table of `Y` accepts its member `b`. -/
theorem classTable_accepts_sample :
    ∃ table, (pocketModule.getAllClassSafeCast twoFamiliesFiles)[pocketModule.typeName 2]? =
      some table ∧ Accepted table 9 :=
  classTable_accepts fromTool_twoFamiliesFiles.numbered pocketModule_typeNames.2.2.2
    pocketModule_class.1 (pocketModule_related (by decide)).2 pocketModule_index
    pocketModule_elements.2 pocketModule_number.1 pocketModule_number.2 le_rfl

theorem pocketModule_table : ∃ table, pocketModule.classTable twoFamiliesFiles 2 = some table :=
  exists_classTable (pocketModule_related (by decide)).2 pocketModule_index

theorem mergedTable_accepts_iff_sample : ∃ table,
    pocketModule.classTable twoFamiliesFiles 2 = some table ∧
      ((∀ code < 2 ^ 32, Accepted table code →
          Accepted (pocketModule.mergedTable twoFamiliesFiles {2, 3}) code) ↔
        (∀ c code, pocketModule.ClosureOf 2 c →
          twoFamiliesFiles.bitypeCodeMap[pocketModule.typeName c]? = some code →
          Origin.HasRoom pocketModule twoFamiliesFiles (.single 2) code →
            Origin.Accepts pocketModule twoFamiliesFiles (.merged {2, 3}) code) ∧
        ∀ name code, Origin.Numbers pocketModule twoFamiliesFiles (.single 2) name →
          twoFamiliesFiles.bitypeCodeMap[name]? = some code →
          Origin.HasRoom pocketModule twoFamiliesFiles (.single 2) code →
            Origin.HasRoom pocketModule twoFamiliesFiles (.merged {2, 3}) code) := by
  obtain ⟨table, htable⟩ := pocketModule_table
  exact ⟨table, htable, mergedTable_accepts_iff fromTool_twoFamiliesFiles.numbered
    (fun b hb => (pocketModule_related hb).2) (by decide) pocketModule_class.1 htable⟩

/-- The families of the two members have no room for number 9. -/
theorem pocketModule_hasRoom :
    ¬ Origin.HasRoom pocketModule twoFamiliesFiles (.merged {2, 3}) 9 := by
  rintro ⟨name, size, ⟨b, hb, rfl⟩, hsize, hle⟩
  obtain ⟨hY, hX, -⟩ := pocketModule_typeNames
  obtain ⟨hrowY, hrowX, -⟩ := twoFamiliesFiles_rows
  have hone : size = 1 := by
    rcases Finset.mem_insert.mp hb with rfl | hb
    · rw [hY, hrowY] at hsize
      exact (Option.some.inj hsize).symm
    · rw [Finset.mem_singleton.mp hb, hX, hrowX] at hsize
      exact (Option.some.inj hsize).symm
  subst hone
  exact absurd hle (by decide)

/-- The table of `Y` accepts its member `b`, the table of `Y` and `X` has no byte for it. -/
theorem member_accepts_more :
    ¬ ∀ (M : Module) (files : ClassFiles), FromTool files →
      ∀ (type : IRType) (granule : ℕ) (relatedCast : Finset ℕ),
        (M.elementsOf files type)[granule]? = some relatedCast → 2 ≤ relatedCast.card →
        (∀ b ∈ relatedCast, M.isTracked b = true ∧ M.isInCastRelatedSet files b = true) →
        ∀ a ∈ relatedCast, a ∈ M.classTypes → ∀ table, M.classTable files a = some table →
          ∀ code < 2 ^ 32, Accepted table code → Accepted (M.mergedTable files relatedCast) code := by
  intro h
  obtain ⟨table, htable⟩ := pocketModule_table
  have hclass := pocketModule_class.1
  have hemits' : Origin.Emits pocketModule twoFamiliesFiles (.merged {2, 3})
      (pocketModule.mergedTable twoFamiliesFiles {2, 3}) :=
    ⟨⟨2, by decide⟩, fun b hb => (pocketModule_related hb).2, rfl⟩
  -- `b` is at offset zero of `Y`
  have hsingle : Accepted table 9 :=
    accepted_of_offsetZero fromTool_twoFamiliesFiles.numbered ⟨hclass, htable⟩
      pocketModule_elements.2 pocketModule_number.1 pocketModule_number.2 le_rfl
  have hmerged := h pocketModule _ fromTool_twoFamiliesFiles (.struct 1) 0 {2, 3}
    pocketModule_elements.1 (by decide) (fun b hb => pocketModule_related hb) 2 (by decide) hclass
    table htable 9 (by decide) hsingle
  rw [accepted_iff fromTool_twoFamiliesFiles.numbered hemits' (by decide) (by decide)] at hmerged
  exact pocketModule_hasRoom hmerged.2

end Bitype.Pass
