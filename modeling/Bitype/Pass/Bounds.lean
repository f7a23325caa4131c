import Bitype.Pass.SafeTable

/-!
# The byte a check reads

The length of a table comes from the family sizes of the classes it was made for, the
byte a check reads from the number of the cast's target.  The two need not be of one
family, and then nothing keeps the byte inside the table: `check_inBounds_iff` says for
every table and every target when it is.
-/

namespace Bitype.Pass

open Bitype.Foundations Bitype.Runtime Bitype.Tool

/-- What `bitype_verify_cast` adds to the address of a table, for the number of a
target. -/
def readOffset (code : ℕ) : ℕ := ((byteIndex (BitVec.ofNat 32 code) + 2).setWidth 64).toNat

/-- Enough whole bytes for a family. -/
theorem arraySize_eq (familySize : ℕ) : arraySize familySize = (familySize + 7) / 8 := by
  unfold arraySize
  split <;> omega

theorem readOffset_eq {code : ℕ} (hpos : 1 ≤ code) (hlt : code < 2 ^ 32) :
    readOffset code = (code - 1) / 8 + 2 := by
  have hcode : (BitVec.ofNat 32 code).toNat = code := by
    rw [BitVec.toNat_ofNat]
    exact Nat.mod_eq_of_lt hlt
  rw [readOffset, toNat_checkIndex (by rwa [hcode]), hcode, BitVec.toNat_ofNat]
  omega

theorem length_maskTable (firstByte secondByte : Byte) (safeNum : Finset ℤ) (size : ℕ) :
    (maskTable firstByte secondByte safeNum size).length = size + 2 := by
  simp [maskTable]

theorem code_lt {files : ClassFiles} (hfiles : FromTool files) {name : Name} {code : ℕ}
    (hcode : files.bitypeCodeMap[name]? = some code) : code < 2 ^ 32 := by
  have hle := (hfiles.code_range hcode).2
  unfold MAX_NUM_CLASS at hle
  omega

section Bounds

variable {M : Module} {files : ClassFiles}
  {globalVariableMap : Std.TreeMap Name (List Byte)} {key : Name} {table : List Byte}

/-- **When the byte a check reads is in the table**: for every table that a granule can
hold, made for `origin`, and every target, exactly if the target's number is at most the
greatest family size of the classes the table was made for, rounded up to a multiple of
eight. -/
theorem check_inBounds_iff (hfiles : FromTool files)
    (hrecorded : M.Recorded files globalVariableMap)
    (htable : globalVariableMap[key]? = some table) :
    (∃ origin : Origin, key = origin.key M ∧ origin.Emits M files table) ∧
    ∀ origin : Origin, origin.Emits M files table →
      ∃ familySize, IsGreatest (familySizes files (origin.Sizes M files)) familySize ∧
        ∀ (name : Name) (code : ℕ), files.bitypeCodeMap[name]? = some code →
          (readOffset code < table.length ↔ code ≤ 8 * ((familySize + 7) / 8)) := by
  refine ⟨recorded_emitted hrecorded key table htable, fun origin hemits => ?_⟩
  obtain ⟨firstByte, secondByte, safeNum, familySize, rfl, -, hgreatest⟩ := emits_spec hemits
  refine ⟨familySize, hgreatest, fun name code hcode => ?_⟩
  have hpos := (hfiles.code_range hcode).1
  rw [readOffset_eq hpos (code_lt hfiles hcode), length_maskTable, arraySize_eq]
  omega

end Bounds

/-! ## Two families -/

/-- A class of a given size. -/
def sizedClass (name : Name) (size : ℕ) (bases : List CXXRecordDecl) : CXXRecordDecl :=
  .mk
    { name := name, hasDefinition := true, isCompleteDefinition := true
      isAnonymousStructOrUnion := false, isDependentContext := false, isAggregate := false
      isPolymorphic := false, fields := [], size := size, alignment := 8 } bases

/-- A class with one base, and a cast from the base to it. -/
def downcastTo (derived base : Name) : List Visit :=
  let decl := sizedClass derived 16 [sizedClass base 8 []]
  [.recordDecl decl, .castExpr (.baseToDerived none (some decl) (some (sizedClass base 8 [])))]

/-- `Y` derived from `X`, and nine classes derived from `Z`. -/
def twoFamilies : List Visit :=
  downcastTo ['Y'] ['X'] ++
    ['a', 'b', 'c', 'd', 'e', 'f', 'g', 'h', 'i'].flatMap fun name => downcastTo [name] ['Z']

/-- What the tool writes for them. -/
def twoFamiliesOutput : ToolOutput where
  codingNum := [(['Y'], 1), (['a'], 1), (['b'], 9), (['c'], 8), (['d'], 7), (['e'], 6), (['f'], 5),
    (['g'], 4), (['h'], 3), (['i'], 2)]
  castrelatedSet := [(['Y'], 1), (['X'], 1), (['a'], 9), (['Z'], 9), (['b'], 9), (['c'], 9),
    (['d'], 9), (['e'], 9), (['f'], 9), (['g'], 9), (['h'], 9), (['i'], 9)]
  safecast := [(['Y'], []), (['a'], []), (['b'], []), (['c'], []), (['d'], []), (['e'], []),
    (['f'], []), (['g'], []), (['h'], []), (['i'], [])]

/-- The files of the two families, as the pass reads them. -/
def twoFamiliesFiles : ClassFiles := initReadFiles twoFamiliesOutput

/-- `Y` and `X` are the only classes of their families, `b` is the last of nine. -/
theorem twoFamiliesFiles_rows : twoFamiliesFiles.bitypeCastRelatedClass[(['Y'] : Name)]? = some 1 ∧
    twoFamiliesFiles.bitypeCastRelatedClass[(['X'] : Name)]? = some 1 ∧
    twoFamiliesFiles.bitypeCastRelatedClass[(['b'] : Name)]? = some 9 ∧
    twoFamiliesFiles.bitypeClassIndexSet2[(['Y'] : Name)]? = some 0 := by decide +kernel

theorem twoFamiliesFiles_codes : twoFamiliesFiles.bitypeCodeMap[(['Y'] : Name)]? = some 1 ∧
    twoFamiliesFiles.bitypeCodeMap[(['a'] : Name)]? = some 1 ∧
    twoFamiliesFiles.bitypeCodeMap[(['b'] : Name)]? = some 9 := by decide +kernel

/-- Class `Y` with its base `X` at offset zero. -/
def derivedModule : Module where
  struct a :=
    if a = 1 then ⟨some "trackedtype.Y".toList, false, false, [(0, .struct 2), (8, .other 8)], 16⟩
    else ⟨some "trackedtype.X".toList, false, false, [(0, .other 8)], 8⟩
  depth a := if a = 1 then 1 else 0
  contained := contained_of_cases 2 (by decide) fun a ha => by
    simp [show a ≠ 1 from ne_of_listed (by decide) ha]
  identified := [1, 2]
  nodup := by decide

theorem derivedModule_names : derivedModule.classTypes = [1, 2] ∧
    derivedModule.typeName 1 = ['Y'] ∧ derivedModule.typeName 2 = ['X'] := by decide +kernel

/-- The run of the tool. -/
theorem exists_twoFamiliesRun : ∃ s, traversal.run twoFamilies Collector.empty = some s ∧
    s.currentIndex ≤ MAX_NUM_CLASS ∧
    DFS s.graph s.currentIndex = some [[0, 1], [2, 3, 11, 10, 9, 8, 7, 6, 5, 4]] ∧
    (s.classCode[(['Y'] : Name)]? = some 0 ∧ s.classCode[(['X'] : Name)]? = some 1 ∧
      s.classCode[(['a'] : Name)]? = some 2) ∧ writeFiles s = some twoFamiliesOutput :=
  ⟨_, rfl, by decide +kernel⟩

theorem fromTool_twoFamiliesFiles : FromTool twoFamiliesFiles := by
  obtain ⟨s, hs, hroom, -, -, hout⟩ := exists_twoFamiliesRun
  exact ⟨twoFamiliesOutput, ⟨twoFamilies, s, hs, hroom, hout⟩, rfl⟩

theorem derivedModule_recorded (files : ClassFiles) :
    derivedModule.Recorded files (derivedModule.getAllClassSafeCast files) := ⟨[], rfl⟩

/-- The table of `Y` is recorded under its name. -/
theorem derivedModule_table : ∃ table,
    (derivedModule.getAllClassSafeCast twoFamiliesFiles)[(['Y'] : Name)]? = some table ∧
      Origin.Emits derivedModule twoFamiliesFiles (.single 1) table := by
  obtain ⟨htypes, hname⟩ := derivedModule_names
  obtain ⟨hrow, -, -, hindex⟩ := twoFamiliesFiles_rows
  obtain ⟨table, htable⟩ : ∃ table, derivedModule.classTable twoFamiliesFiles 1 = some table := by
    simp [Module.classTable, hname.1, hrow, hindex]
  refine ⟨table, ?_, by simp [htypes], htable⟩
  have hfirst : ((∅ : Std.TreeMap Name (List Byte)).insertIfNew ['Y'] table)[(['Y'] : Name)]? =
      some table := by
    rw [Std.TreeMap.getElem?_insertIfNew]
    simp
  unfold Module.getAllClassSafeCast
  rw [htypes]
  simp only [List.foldl_cons, List.foldl_nil, Module.recordClass, htable, hname]
  cases derivedModule.classTable twoFamiliesFiles 2 with
  | none => exact hfirst
  | some other =>
      rw [Std.TreeMap.getElem?_insertIfNew, if_neg fun hnew => absurd hnew.1 (by decide)]
      exact hfirst

theorem derivedModule_typeName (b : ℕ) :
    derivedModule.typeName b = ['Y'] ∨ derivedModule.typeName b = ['X'] := by
  by_cases hb : b = 1
  · subst hb
    exact .inl derivedModule_names.2.1
  · have hstruct : derivedModule.struct b = derivedModule.struct 2 := (if_neg hb).trans rfl
    have hname : derivedModule.typeName b = derivedModule.typeName 2 := by
      rw [TypeTable.typeName, TypeTable.typeName, TypeTable.getName, TypeTable.getName, hstruct]
    rw [hname]
    exact .inr derivedModule_names.2.2

/-- The classes of the module are in a family of size one. -/
theorem derivedModule_sizes {a size : ℕ}
    (h : size ∈ familySizes twoFamiliesFiles
      (Origin.Sizes derivedModule twoFamiliesFiles (.single a))) : size = 1 := by
  obtain ⟨hrowY, hrowX, -⟩ := twoFamiliesFiles_rows
  obtain ⟨name, hname, hsize⟩ := h
  obtain ⟨b, rfl⟩ : ∃ b, name = derivedModule.typeName b := by
    rcases hname with (hname | ⟨b, -, hname, -⟩) | ⟨b, -, hname, -⟩
    · exact ⟨a, hname⟩
    · exact ⟨b, hname⟩
    · exact ⟨b, hname⟩
  rcases derivedModule_typeName b with hb | hb
  · rw [hb, hrowY] at hsize
    exact (Option.some.inj hsize).symm
  · rw [hb, hrowX] at hsize
    exact (Option.some.inj hsize).symm

/-- The table of `Y` has three bytes. -/
theorem derivedModule_length {table : List Byte}
    (h : Origin.Emits derivedModule twoFamiliesFiles (.single 1) table) : table.length = 3 := by
  obtain ⟨firstByte, secondByte, safeNum, familySize, rfl, -, hmem, -⟩ := emits_spec h
  rw [length_maskTable, derivedModule_sizes hmem]
  rfl

/-- The table of `Y` and a check for a class derived from `Z`. -/
theorem check_inBounds_iff_sample :
    ∃ table, Origin.Emits derivedModule twoFamiliesFiles (.single 1) table ∧
      (readOffset 9 < table.length ↔ 9 ≤ 8 * ((1 + 7) / 8)) := by
  obtain ⟨table, htable, hemits⟩ := derivedModule_table
  obtain ⟨familySize, ⟨hmem, -⟩, hreads⟩ :=
    (check_inBounds_iff fromTool_twoFamiliesFiles
      (derivedModule_recorded twoFamiliesFiles) htable).2 (.single 1) hemits
  have hone := derivedModule_sizes hmem
  have hcode : twoFamiliesFiles.bitypeCodeMap[(['b'] : Name)]? = some 9 :=
    twoFamiliesFiles_codes.2.2
  exact ⟨table, hemits, hone ▸ hreads ['b'] 9 hcode⟩

/-- A check for number 9 reads past the three bytes of a table for a family of one. -/
theorem check_reads_past :
    ¬ ∀ (M : Module) (files : ClassFiles), FromTool files →
      ∀ globalVariableMap, M.Recorded files globalVariableMap →
      ∀ (key : Name) (table : List Byte), globalVariableMap[key]? = some table →
      ∀ (name : Name) (code : ℕ), files.bitypeCodeMap[name]? = some code →
        readOffset code < table.length := by
  intro h
  obtain ⟨table, htable, hemits⟩ := derivedModule_table
  have hcode : twoFamiliesFiles.bitypeCodeMap[(['b'] : Name)]? = some 9 :=
    twoFamiliesFiles_codes.2.2
  have hless := h derivedModule _ fromTool_twoFamiliesFiles _
    (derivedModule_recorded twoFamiliesFiles) ['Y'] table htable ['b'] 9 hcode
  rw [derivedModule_length hemits] at hless
  exact absurd hless (by decide)

end Bitype.Pass
