import Bitype.Pass.CrossFamily

/-!
# Checks for a target of the same family

Inside a family a number stands for one phantom set, so a table made only from a class
and its bases accepts nothing else of the family.  But tables are made from more: the
pass takes every struct element of a class for a base, data members included, and the
first class type for an element it does not know.  `detection_iff` says when the
acceptance of a check is justified all the same.
-/

namespace Bitype.Pass

open Bitype.Foundations Bitype.Runtime Bitype.Tool

/-- The files of a run, as the pass reads them. -/
def filesOf (R : ToolRun) : ClassFiles := initReadFiles R.output

/-! ## Numbers inside a family -/

section Family

variable {R : ToolRun} {name other : Name} {code size : ℕ}

theorem fromTool_filesOf (R : ToolRun) : FromTool (filesOf R) := ⟨R.output, R.writes, rfl⟩

theorem code_of_files (h : (filesOf R).bitypeCodeMap[name]? = some code) :
    ∃ c, HasIndex name c R.state ∧ R.maps.1[c]? = some code := by
  rcases exists_of_readCodeMap R.output.codingNum ∅ h with hempty | hrow
  · simp at hempty
  · exact R.code_row hrow

theorem size_of_files (h : (filesOf R).bitypeCastRelatedClass[name]? = some size) :
    ∃ c, HasIndex name c R.state ∧ R.maps.2[c]? = some size := by
  rcases exists_of_readCodeMap R.output.castrelatedSet ∅ h with hempty | hrow
  · simp at hempty
  · exact R.size_row hrow

theorem HasIndex.unique {s : Collector} {i j : ℕ} (hi : HasIndex name i s)
    (hj : HasIndex name j s) : i = j :=
  Option.some.inj (hi.symm.trans hj)

/-- The number of a class is at most the size of its family. -/
theorem code_le_size (hrefine : R.Refining) (hfamily : SameFamily R.state R.families name other)
    (hsize : (filesOf R).bitypeCastRelatedClass[name]? = some size)
    (hcode : (filesOf R).bitypeCodeMap[other]? = some code) : code ≤ size := by
  obtain ⟨i, j, hi, hj, F, hF, hiF, hjF⟩ := hfamily
  obtain ⟨i', hi', hlookup⟩ := size_of_files hsize
  obtain ⟨j', hj', hlookup'⟩ := code_of_files hcode
  obtain rfl := HasIndex.unique hi hi'
  obtain rfl := HasIndex.unique hj hj'
  obtain ⟨k, hcodes, hsizes⟩ := (ToolRun.coded hrefine hF).size
  obtain rfl := Option.some.inj (hlookup.symm.trans (hsizes i hiF))
  exact ((hcodes code).mp ⟨j, hjF, hlookup'⟩).2

/-- **Classes of one family with one number share a phantom set.** -/
theorem samePhantom_of_code (hrefine : R.Refining)
    (hfamily : SameFamily R.state R.families name other)
    (hname : (filesOf R).bitypeCodeMap[name]? = some code)
    (hother : (filesOf R).bitypeCodeMap[other]? = some code) :
    SameFamily R.state R.phantomSets name other := by
  obtain ⟨i, j, hi, hj, F, hF, hiF, hjF⟩ := hfamily
  obtain ⟨i', hi', hlookup⟩ := code_of_files hname
  obtain ⟨j', hj', hlookup'⟩ := code_of_files hother
  obtain rfl := HasIndex.unique hi hi'
  obtain rfl := HasIndex.unique hj hj'
  have hsame : R.maps.1[i]? = R.maps.1[j]? := hlookup.trans hlookup'.symm
  have hcoded : ∀ c : ℕ, R.maps.1[c]? = some code → R.maps.1[c]? ≠ none := by
    intro c hc hnone
    rw [hnone] at hc
    cases hc
  refine ⟨i, j, hi, hj, ?_⟩
  apply ((ToolRun.coded hrefine hF).same i hiF j hjF (hcoded i hlookup) (hcoded j hlookup')).mp
  exact hsame

end Family

/-! ## Justified casts -/

/-- A struct of type `b` starts where a value of the type starts. -/
def IRType.Starts : IRType → ℕ → Prop
  | struct a, b => a = b
  | array numElements elementType, b => 0 < numElements ∧ elementType.Starts b
  | other _, _ => False

/-- A struct of type `b` lives at offset zero of a struct of type `a`. -/
def TypeTable.LivesAtZero (T : TypeTable) : ℕ → ℕ → Prop :=
  Relation.ReflTransGen fun a b => ∃ element ∈ (T.struct a).elements,
    element.1 = 0 ∧ element.2.Starts b

/-- A visit saw a class with the name that has the base. -/
def BaseOf (visits : List Visit) (name base : Name) : Prop :=
  ∃ v ∈ visits, ∃ decl ∈ v.classes, decl.name = name ∧
    ∃ baseDecl, CXXRecordDecl.TransitiveBase decl baseDecl ∧ baseDecl.name = base

section Detection

variable (R : ToolRun) (M : Module)

/-- The class of `a`, or a base of it. -/
def OwnOrBase (a : ℕ) (name : Name) : Prop :=
  name = M.typeName a ∨ BaseOf R.visits (M.typeName a) name

/-- An object of class type `a` may be cast to the class `target`: it is the class of
`a` or a base, shares a phantom set with one of these, or lives at offset zero. -/
def Justified (a : ℕ) (target : Name) : Prop :=
  (∃ name, OwnOrBase R M a name ∧
    (name = target ∨ SameFamily R.state R.phantomSets name target)) ∨
  ∃ b, M.LivesAtZero a b ∧ M.typeName b = target

/-- Wherever a table is placed, a check of it that passes is justified. -/
def Detects (a : ℕ) (table : List Byte) (target : Name) (code : ℕ) : Prop :=
  ∀ rodata address, Emitted rodata address table →
    maskRejects rodata address ((byteIndex (BitVec.ofNat 32 code) + 2).setWidth 64)
      (safeCode (BitVec.ofNat 32 code)) = false →
    Justified R M a target

/-- A family of the classes that the table for class type `a` is made for gives it a bit for the
number, and none of the classes it is made from has the number. -/
structure Apart (files : ClassFiles) (a code : ℕ) : Prop where
  inside : ∃ familySize ∈ familySizes files (Origin.Sizes M files (.single a)),
    readOffset code < arraySize familySize + 2
  own : files.bitypeCodeMap[M.typeName a]? ≠ some code
  zero : ∀ b, M.AtOffsetZero a b →
    files.bitypeCastRelatedClass.contains (M.typeName b) = true →
    files.bitypeCodeMap[M.typeName b]? ≠ some code
  inherited : ∀ b, M.AtOffsetZero a b → ∀ name, Inherits files (M.typeName b) name →
    files.bitypeCodeMap[name]? ≠ some code
  closure : ∀ c, M.ClosureOf a c → files.bitypeCodeMap[M.typeName c]? ≠ some code

/-- The classes with the number that the table for `a` is made from are the class of `a`
and bases of it, in the family of the target. -/
def Confined (a : ℕ) (target : Name) (code : ℕ) : Prop :=
  ∀ name, Origin.Numbers M (filesOf R) (.single a) name →
    (filesOf R).bitypeCodeMap[name]? = some code →
    OwnOrBase R M a name ∧ SameFamily R.state R.families name target

end Detection

section Theorems

variable {R : ToolRun} {M : Module} {a code : ℕ} {table : List Byte} {target : Name}

/-- The length of an emitted table. -/
theorem length_emitted {files : ClassFiles} {origin : Origin}
    (hemits : origin.Emits M files table) :
    ∃ familySize, table.length = arraySize familySize + 2 ∧
      IsGreatest (familySizes files (origin.Sizes M files)) familySize := by
  obtain ⟨firstByte, secondByte, safeNum, familySize, rfl, -, hgreatest⟩ := emits_spec hemits
  exact ⟨familySize, length_maskTable _ _ _ _, hgreatest⟩

/-- The greatest family decides which numbers a table has a bit for. -/
theorem exists_familySize_iff {files : ClassFiles} {origin : Origin}
    (hemits : origin.Emits M files table) (i : ℕ) :
    (∃ familySize ∈ familySizes files (origin.Sizes M files), i < arraySize familySize + 2) ↔
      i < table.length := by
  obtain ⟨greatest, hlength, hmem, hupper⟩ := length_emitted hemits
  rw [hlength]
  constructor
  · rintro ⟨familySize, hsize, hi⟩
    have hle := hupper hsize
    rw [arraySize_eq] at hi ⊢
    omega
  · exact fun hi => ⟨greatest, hmem, hi⟩

theorem apart_iff {files : ClassFiles} (hemits : Origin.Emits M files (.single a) table) :
    Apart M files a code ↔
      readOffset code < table.length ∧ ¬ Origin.Accepts M files (.single a) code := by
  rw [← exists_familySize_iff hemits]
  unfold Origin.Accepts Origin.Numbers
  constructor
  · intro h
    refine ⟨h.inside, ?_⟩
    rintro ⟨name, (rfl | ⟨b, hb, ⟨rfl, hrelated⟩ | hinherits⟩) | ⟨c, hc, rfl⟩, hcode⟩
    · exact h.own hcode
    · exact h.zero b hb hrelated hcode
    · exact h.inherited b hb name hinherits hcode
    · exact h.closure c hc hcode
  · rintro ⟨hinside, hnone⟩
    refine ⟨hinside, fun hcode => hnone ?_, fun b hb hrelated hcode => hnone ?_,
      fun b hb name hinherits hcode => hnone ?_, fun c hc hcode => hnone ?_⟩
    · exact ⟨_, .inl (.inl rfl), hcode⟩
    · exact ⟨_, .inl (.inr ⟨b, hb, .inl ⟨rfl, hrelated⟩⟩), hcode⟩
    · exact ⟨name, .inl (.inr ⟨b, hb, .inr hinherits⟩), hcode⟩
    · exact ⟨_, .inr ⟨c, hc, rfl⟩, hcode⟩

theorem emitted_length_le {files : ClassFiles} (hfiles : FromTool files) {origin : Origin}
    (hemits : origin.Emits M files table) : table.length ≤ 2 ^ 64 := by
  obtain ⟨familySize, hlength, ⟨name, -, hsize⟩, -⟩ := length_emitted hemits
  have hle := hfiles.size_le hsize
  unfold MAX_NUM_CLASS at hle
  rw [hlength, arraySize_eq]
  omega

/-- Behind the end of a table may stand any byte. -/
theorem exists_accepting {files : ClassFiles} (hfiles : FromTool files)
    (hcode : files.bitypeCodeMap[target]? = some code)
    (houtside : table.length ≤ readOffset code) (address : Word) :
    ∃ rodata, Emitted rodata address table ∧
      maskRejects rodata address ((byteIndex (BitVec.ofNat 32 code) + 2).setWidth 64)
        (safeCode (BitVec.ofNat 32 code)) = false := by
  have hoffset : readOffset code < 2 ^ 64 := BitVec.isLt _
  have hshift : ∀ w : Word, address + w - address = w := by
    intro w
    rw [BitVec.add_comm, BitVec.add_sub_cancel]
  -- the table, and ones behind it
  refine ⟨fun w => table.getD (w - address).toNat (BitVec.allOnes 8), fun i hi => ?_, ?_⟩
  · have hindex : (BitVec.ofNat 64 i).toNat = i := by
      rw [BitVec.toNat_ofNat]
      exact Nat.mod_eq_of_lt (by omega)
    dsimp only
    rw [hshift, hindex, List.getD_eq_getElem _ _ hi]
  · have hval : (BitVec.ofNat 32 code).toNat = code := by
      rw [BitVec.toNat_ofNat]
      exact Nat.mod_eq_of_lt (code_lt hfiles hcode)
    have hbit : (code - 1) % 8 < 8 := Nat.mod_lt _ (by decide)
    have hones : table.getD ((byteIndex (BitVec.ofNat 32 code) + 2).setWidth 64).toNat
        (BitVec.allOnes 8) = BitVec.allOnes 8 := List.getD_eq_default _ _ houtside
    rw [maskRejects, hshift, hones, safeCode_eq (hval.symm ▸ (hfiles.code_range hcode).1), hval,
      decide_eq_false_iff_not, lt_xor_twoPow _ hbit, BitVec.getLsbD_allOnes]
    simp [hbit]

/-- In a run whose phantom sets lie in its families, the table has a bit for every number
of the family. -/
theorem inside_of_family (hrefine : R.Refining)
    (hemits : Origin.Emits M (filesOf R) (.single a) table)
    (hfamily : SameFamily R.state R.families (M.typeName a) target)
    (hcode : (filesOf R).bitypeCodeMap[target]? = some code) : readOffset code < table.length := by
  obtain ⟨familySize, hlength, -, hupper⟩ := length_emitted hemits
  obtain ⟨-, htable⟩ := hemits
  simp only [Module.classTable, Option.bind_eq_bind, Option.bind_eq_some_iff] at htable
  obtain ⟨size, hsize, -⟩ := htable
  have hown : size ≤ familySize := hupper ⟨_, .inl (.inl rfl), hsize⟩
  have hle := code_le_size hrefine hfamily hsize hcode
  have hpos := ((fromTool_filesOf R).code_range hcode).1
  rw [readOffset_eq hpos (code_lt (fromTool_filesOf R) hcode), hlength, arraySize_eq]
  omega

/-- A class or base with the number of a target of its family. -/
theorem justified_of_ownOrBase (hrefine : R.Refining) {name : Name} (hown : OwnOrBase R M a name)
    (hfamily : SameFamily R.state R.families name target)
    (hname : (filesOf R).bitypeCodeMap[name]? = some code)
    (hcode : (filesOf R).bitypeCodeMap[target]? = some code) : Justified R M a target :=
  .inl ⟨name, hown, .inr (samePhantom_of_code hrefine hfamily hname hcode)⟩

/-- **When every check that passes is justified.**  For every run of the tool and every
table `getAllClassSafeCast` emits: the target is justified, or the table has a bit for
its number and was made from no class with that number.  When the phantom sets lie in
the families and the target is in the family of the table's class, the bit is there,
and classes with the number that are the class itself or a base do no harm. -/
theorem detection_iff (R : ToolRun)
    (hemits : Origin.Emits M (filesOf R) (.single a) table)
    (hcode : (filesOf R).bitypeCodeMap[target]? = some code) :
    (Detects R M a table target code ↔
      Justified R M a target ∨ Apart M (filesOf R) a code) ∧
    (R.Refining → SameFamily R.state R.families (M.typeName a) target →
      (Detects R M a table target code ↔ Justified R M a target ∨ Confined R M a target code)) := by
  have hfiles := fromTool_filesOf R
  have hexact : Detects R M a table target code ↔
      Justified R M a target ∨ Apart M (filesOf R) a code := by
    rw [apart_iff hemits]
    constructor
    · intro hdetects
      -- within the table a bit is read, and it says whether a class has the number
      by_cases hinside : readOffset code < table.length
      · by_cases haccepts : Origin.Accepts M (filesOf R) (.single a) code
        · have hemitted := emitted_placeTable 0 (emitted_length_le hfiles hemits)
          refine .inl (hdetects _ 0 hemitted ?_)
          rw [← Bool.not_eq_true, maskRejects_iff hfiles hemits hemitted hcode hinside, not_not]
          exact haccepts
        · exact .inr ⟨hinside, haccepts⟩
      -- behind the table, there are contents that let the target pass
      · obtain ⟨rodata, hemitted, hpass⟩ := exists_accepting hfiles hcode (not_lt.mp hinside) 0
        exact .inl (hdetects rodata 0 hemitted hpass)
    · rintro (hjustified | ⟨hinside, hnone⟩) rodata address hemitted hpass
      · exact hjustified
      · have hrejects := (maskRejects_iff hfiles hemits hemitted hcode hinside).mpr hnone
        rw [hrejects] at hpass
        cases hpass
  refine ⟨hexact, fun hrefine hfamily => hexact.trans ?_⟩
  rw [apart_iff hemits]
  constructor
  · rintro (hjustified | ⟨-, hnone⟩)
    · exact .inl hjustified
    · exact .inr fun name hname hlookup => absurd ⟨name, hname, hlookup⟩ hnone
  · rintro (hjustified | hconfined)
    · exact .inl hjustified
    · by_cases haccepts : Origin.Accepts M (filesOf R) (.single a) code
      · obtain ⟨name, hname, hlookup⟩ := haccepts
        obtain ⟨hown, hsame⟩ := hconfined name hname hlookup
        exact .inl (justified_of_ownOrBase hrefine hown hsame hlookup hcode)
      · exact .inr ⟨inside_of_family hrefine hemits hfamily hcode, haccepts⟩

end Theorems

/-! ## A class with a member of its family -/

/-- `S` derived from `X`, with a member of class `E` at offset 16. -/
def containing : CXXRecordDecl :=
  .mk
    { name := ['S'], hasDefinition := true, isCompleteDefinition := true
      isAnonymousStructOrUnion := false, isDependentContext := false, isAggregate := false
      isPolymorphic := false, fields := [⟨['E'], .structureOrClass, 128⟩], size := 32
      alignment := 8 }
    [sizedClass ['X'] 8 []]

/-- `E` and `S`, both derived from `X`, and a cast to each. -/
def memberVisits : List Visit :=
  downcastTo ['E'] ['X'] ++
    [.recordDecl containing,
      .castExpr (.baseToDerived none (some containing) (some (sizedClass ['X'] 8 [])))]

/-- What the tool writes for them. -/
def memberOutput : ToolOutput where
  codingNum := [(['E'], 1), (['S'], 2)]
  castrelatedSet := [(['E'], 2), (['X'], 2), (['S'], 2)]
  safecast := [(['E'], []), (['S'], [])]

/-- The struct types of `S`, `E` and `X`. -/
def memberModule : Module where
  struct a :=
    if a = 1 then
      ⟨some "trackedtype.S".toList, false, false,
        [(0, .struct 3), (8, .other 8), (16, .struct 2)], 32⟩
    else if a = 2 then
      ⟨some "trackedtype.E".toList, false, false, [(0, .struct 3), (8, .other 8)], 16⟩
    else ⟨some "trackedtype.X".toList, false, false, [(0, .other 8)], 8⟩
  depth a := if a = 1 then 2 else if a = 2 then 1 else 0
  contained := contained_of_cases 3 (by decide) fun a ha => by
    simp [show a ≠ 1 from ne_of_listed (by decide) ha, show a ≠ 2 from ne_of_listed (by decide) ha]
  identified := [1, 2, 3]
  nodup := by decide

theorem memberModule_types : memberModule.classTypes = [1, 2, 3] ∧
    memberModule.parentNames 1 = [['X'], ['E']] ∧ memberModule.typeName 1 = ['S'] ∧
    memberModule.typeName 2 = ['E'] ∧ memberModule.typeName 3 = ['X'] := by decide +kernel

/-- What the pass reads of the tool's files. -/
theorem memberFiles_rows :
    (initReadFiles memberOutput).bitypeCodeMap[(['E'] : Name)]? = some 1 ∧
      (initReadFiles memberOutput).bitypeCastRelatedClass[(['S'] : Name)]? = some 2 ∧
      (initReadFiles memberOutput).bitypeClassIndexSet2[(['S'] : Name)]? = some 2 ∧
      memberModule.isInCastRelatedSet (initReadFiles memberOutput) 2 = true := by decide +kernel

/-- The run of the tool. -/
structure MemberRun (R : ToolRun) : Prop where
  visits_eq : R.visits = memberVisits
  output_eq : R.output = memberOutput
  families_eq : R.families = [[0, 1, 2]]
  phantomSets_eq : R.phantomSets = [[0], [1], [2]]
  index_E : HasIndex ['E'] 0 R.state
  index_X : HasIndex ['X'] 1 R.state
  index_S : HasIndex ['S'] 2 R.state

theorem exists_memberRun : ∃ R, MemberRun R := by
  obtain ⟨s, hrun, ⟨hroom, hfamilies, hphantoms, hE, hX, hS⟩, hout⟩ :
      ∃ s, traversal.run memberVisits Collector.empty = some s ∧
        (s.currentIndex ≤ MAX_NUM_CLASS ∧ DFS s.graph s.currentIndex = some [[0, 1, 2]] ∧
          DFS s.graphPhantoms s.currentIndex = some [[0], [1], [2]] ∧
          s.classCode[(['E'] : Name)]? = some 0 ∧ s.classCode[(['X'] : Name)]? = some 1 ∧
          s.classCode[(['S'] : Name)]? = some 2) ∧ writeFiles s = some memberOutput :=
    ⟨_, rfl, by decide +kernel⟩
  exact ⟨⟨memberVisits, s, _, _, _, hrun, hroom, hfamilies, hphantoms, hout⟩,
    rfl, rfl, rfl, rfl, hE, hX, hS⟩

namespace MemberRun

variable {R : ToolRun} (h : MemberRun R)
include h

theorem refining : R.Refining := by
  intro P hP
  rw [h.phantomSets_eq] at hP
  rw [h.families_eq]
  revert P
  decide

theorem sameFamily : SameFamily R.state R.families ['S'] ['E'] := by
  refine ⟨2, 0, h.index_S, h.index_E, [0, 1, 2], ?_, by decide, by decide⟩
  rw [h.families_eq]
  exact List.mem_singleton_self _

theorem files_eq : filesOf R = initReadFiles memberOutput := by rw [filesOf, h.output_eq]

theorem code_E : (filesOf R).bitypeCodeMap[(['E'] : Name)]? = some 1 := by
  rw [h.files_eq]
  exact memberFiles_rows.1

/-- The table of `S`. -/
theorem table : ∃ table, Origin.Emits memberModule (filesOf R) (.single 1) table := by
  rw [h.files_eq]
  obtain ⟨htypes, -, hname, -⟩ := memberModule_types
  obtain ⟨-, hrow, hindex, -⟩ := memberFiles_rows
  obtain ⟨table, htable⟩ : ∃ table,
      memberModule.classTable (initReadFiles memberOutput) 1 = some table := by
    simp [Module.classTable, hname, hrow, hindex]
  exact ⟨table, by simp [htypes], htable⟩

end MemberRun

/-- The pass takes the member of `S` for a base. -/
theorem memberModule_closureOf : memberModule.ClosureOf 1 2 := by
  obtain ⟨htypes, hparents, hS, hE, hX⟩ := memberModule_types
  have hlinks : memberModule.Links 0 1 1 := by
    refine ⟨by decide, 1, 2, ?_, ?_, ?_⟩
    · rw [htypes]
      rfl
    · rw [htypes]
      rfl
    · rw [hparents, hE]
      rfl
  have hlast : ∀ t, memberModule.Links 0 1 t → t ≤ 1 := by
    rintro t ⟨-, a, b, ha, hb, hname⟩
    rw [htypes] at ha hb
    obtain rfl := Option.some.inj ha
    rw [hparents] at hname
    by_contra hlarge
    obtain ⟨hlt, -⟩ := List.getElem?_eq_some_iff.mp hb
    obtain rfl : t = 2 := by
      simp only [List.length_cons, List.length_nil] at hlt
      omega
    obtain rfl := Option.some.inj hb
    rw [hX] at hname
    exact absurd hname (by decide)
  have hfirst : memberModule.FirstNamed (memberModule.typeName 1) 0 := by
    refine ⟨⟨1, ?_, rfl⟩, fun j hj => absurd hj (Nat.not_lt_zero j)⟩
    rw [htypes]
    rfl
  refine ⟨0, 1, hfirst, .single (.inl ⟨1, ?_, 1, ?_, .inl ⟨hlinks, hlast⟩⟩), ?_⟩
  · rw [htypes]
    rfl
  · rw [hparents]
    decide
  · rw [htypes]
    rfl

/-- At offset zero of `S` lives nothing but `S` and `X`. -/
theorem memberModule_livesAtZero {b : ℕ} (h : memberModule.LivesAtZero 1 b) : b = 1 ∨ b = 3 := by
  induction h with
  | refl => exact .inl rfl
  | tail _ hstep ih =>
      obtain ⟨element, helement, hzero, hstarts⟩ := hstep
      rcases ih with rfl | rfl
      · have hmem : element ∈ [(0, IRType.struct 3), (8, .other 8), (16, .struct 2)] := helement
        simp only [List.mem_cons, List.not_mem_nil, or_false] at hmem
        rcases hmem with rfl | rfl | rfl
        · exact .inr hstarts.symm
        · cases hzero
        · cases hzero
      · have hmem : element ∈ [(0, IRType.other 8)] := helement
        rw [List.mem_singleton] at hmem
        subst hmem
        exact hstarts.elim

/-- `E` is neither `S` nor a base, shares no phantom set with them and is not at offset
zero. -/
theorem memberModule_unjustified {R : ToolRun} (h : MemberRun R) :
    ¬ Justified R memberModule 1 ['E'] := by
  obtain ⟨-, -, hS, hE, hX⟩ := memberModule_types
  have hbases : ∀ v ∈ memberVisits, ∀ decl ∈ v.classes, ∀ base ∈ collectAllBases decl,
      base.name = ['X'] := by decide +kernel
  have hown : ∀ name, OwnOrBase R memberModule 1 name → name = ['S'] ∨ name = ['X'] := by
    rintro name (hname | ⟨v, hv, decl, hdecl, -, base, hbase, hname⟩)
    · exact .inl (hname.trans hS)
    · rw [h.visits_eq] at hv
      exact .inr (hname.symm.trans (hbases v hv decl hdecl base (mem_collectAllBases.mpr hbase)))
  -- the phantom set of `E` is `E` alone
  have hapart : ∀ i, HasIndex ['E'] i R.state → ∀ j P, P ∈ R.phantomSets → i ∈ P → j ∈ P →
      j = 0 := by
    intro i hi j P hP hiP hjP
    obtain rfl := HasIndex.unique hi h.index_E
    rw [h.phantomSets_eq] at hP
    simp only [List.mem_cons, List.not_mem_nil, or_false] at hP
    rcases hP with rfl | rfl | rfl
    · exact List.mem_singleton.mp hjP
    · exact absurd hiP (by decide)
    · exact absurd hiP (by decide)
  rintro (⟨name, hname, hsame⟩ | ⟨b, hb, hname⟩)
  · rcases hsame with rfl | ⟨j, i, hj, hi, P, hP, hjP, hiP⟩
    · rcases hown _ hname with heq | heq
      · exact absurd heq (by decide)
      · exact absurd heq (by decide)
    · obtain rfl := hapart i hi j P hP hiP hjP
      rcases hown name hname with rfl | rfl
      · exact absurd (HasIndex.unique hj h.index_S) (by decide)
      · exact absurd (HasIndex.unique hj h.index_X) (by decide)
  · rcases memberModule_livesAtZero hb with rfl | rfl
    · rw [hS] at hname
      exact absurd hname (by decide)
    · rw [hX] at hname
      exact absurd hname (by decide)

/-- The table of `S` and a check for `E`. -/
theorem detection_iff_sample : ∃ (R : ToolRun) (table : List Byte),
    (Detects R memberModule 1 table ['E'] 1 ↔
      Justified R memberModule 1 ['E'] ∨ Apart memberModule (filesOf R) 1 1) ∧
    (R.Refining → SameFamily R.state R.families (memberModule.typeName 1) ['E'] →
      (Detects R memberModule 1 table ['E'] 1 ↔
        Justified R memberModule 1 ['E'] ∨ Confined R memberModule 1 ['E'] 1)) := by
  obtain ⟨R, hR⟩ := exists_memberRun
  obtain ⟨table, hemits⟩ := hR.table
  exact ⟨R, table, detection_iff R hemits hR.code_E⟩

/-- A check of an `S` for its member's class passes. -/
theorem member_accepted :
    ¬ ∀ (R : ToolRun), R.Refining → ∀ (M : Module) (a : ℕ) (table : List Byte),
      Origin.Emits M (filesOf R) (.single a) table →
      (∀ parent ∈ M.parentNames a, ∃ b ∈ M.classTypes, M.typeName b = parent) →
      ∀ e ∈ M.classTypes, M.isInCastRelatedSet (filesOf R) e = true →
      SameFamily R.state R.families (M.typeName a) (M.typeName e) →
      ∀ code, (filesOf R).bitypeCodeMap[M.typeName e]? = some code →
        Detects R M a table (M.typeName e) code := by
  intro hclaim
  obtain ⟨R, hR⟩ := exists_memberRun
  obtain ⟨table, hemits⟩ := hR.table
  obtain ⟨htypes, hparents, hS, hE, hX⟩ := memberModule_types
  have hpresent : ∀ parent ∈ memberModule.parentNames 1,
      ∃ b ∈ memberModule.classTypes, memberModule.typeName b = parent := by
    intro parent hparent
    rw [hparents] at hparent
    rw [htypes]
    simp only [List.mem_cons, List.not_mem_nil, or_false] at hparent
    rcases hparent with rfl | rfl
    · exact ⟨3, by decide, hX⟩
    · exact ⟨2, by decide, hE⟩
  have hrelated : memberModule.isInCastRelatedSet (filesOf R) 2 = true := by
    rw [hR.files_eq]
    exact memberFiles_rows.2.2.2
  have hdetects := hclaim R hR.refining memberModule 1 table hemits hpresent 2 (by simp [htypes])
    hrelated (by rw [hS, hE]; exact hR.sameFamily) 1 (by rw [hE]; exact hR.code_E)
  rw [hE] at hdetects
  have hfiles := fromTool_filesOf R
  have hinside := inside_of_family hR.refining hemits (by rw [hS]; exact hR.sameFamily) hR.code_E
  have hemitted := emitted_placeTable 0 (emitted_length_le hfiles hemits)
  -- the class of the member is in the closure of `S`
  have haccepts : Origin.Accepts memberModule (filesOf R) (.single 1) 1 :=
    ⟨['E'], .inr ⟨2, memberModule_closureOf, hE.symm⟩, hR.code_E⟩
  refine memberModule_unjustified hR (hdetects _ 0 hemitted ?_)
  rw [← Bool.not_eq_true, maskRejects_iff hfiles hemits hemitted hR.code_E hinside, not_not]
  exact haccepts

end Bitype.Pass
