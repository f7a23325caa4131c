import Bitype.Foundations.ClassHierarchy
import Bitype.Pass.Downcast
import Bitype.Pass.TableKeys

/-!
# The replacement of dynamic casts

With the option for dynamic casts on, `EmitDynamicCastCall` emits a call of
`__bitype_dynamic_cast_verification` in place of `__dynamic_cast`.  The call looks the
granule of its argument up, tests the bit of the target class and returns its argument
or null; it never moves the pointer.

`dynamicCast_agrees_iff` says for which casts inside a traced object that is what the
language asks for.
-/

namespace Bitype.Pass

open Bitype.Foundations Bitype.Runtime Bitype.Tool

/-! ## The emitted call -/

/-- How the emitted code goes on: with a pointer, or with `EmitBadCastCall`. -/
inductive CastEnd
  | value (pointer : Word)
  | badCast

/-- The branch behind the call: a null result of a cast to a reference is a bad cast. -/
def castEnd (isReferenceType : Bool) (dcastResult : Word) : CastEnd :=
  if isReferenceType = true ∧ dcastResult = 0 then .badCast else .value dcastResult

/-- The branch of `EmitDynamicCastCall` for the option, with what the emitted code does in
a state.  There is none if the assertion that the class has a code fails. -/
def emitDynamicCastCall (rodata : Word → Byte) (relationSet : Std.TreeMap Name ℕ)
    (className : Name) (isReferenceType : Bool) (value : Word) (s : Shadow) : Option CastEnd :=
  (relationSet[className]?).map fun codeN =>
    let dcastResult := bitypeDynamicCastVerification rodata value
      (byteIndex (BitVec.ofNat 32 codeN)) (safeCode (BitVec.ofNat 32 codeN)) s
    castEnd isReferenceType dcastResult.returned

theorem castEnd_injective {isReferenceType : Bool} {p q : Word}
    (h : castEnd isReferenceType p = castEnd isReferenceType q) : p = q := by
  unfold castEnd at h
  split at h
  · next hp =>
      split at h
      · next hq => rw [hp.2, hq.2]
      · cases h
  · split at h
    · cases h
    · exact CastEnd.value.inj h

/-- **The call returns its argument or null.** -/
theorem dynamicCastVerification_returned (rodata : Word → Byte) (s : Shadow) {value : Word}
    (hvalue : value ≠ 0) (code : ℕ) :
    (Passes rodata s value value code (-1) ∧
        (bitypeDynamicCastVerification rodata value (byteIndex (BitVec.ofNat 32 code))
          (safeCode (BitVec.ofNat 32 code)) s).returned = value) ∨
      (¬ Passes rodata s value value code (-1) ∧
        (bitypeDynamicCastVerification rodata value (byteIndex (BitVec.ofNat 32 code))
          (safeCode (BitVec.ofNat 32 code)) s).returned = 0) := by
  have hpasses := @passes_iff_verdict rodata s value hvalue value code (-1)
  rw [hpasses, bitypeDynamicCastVerification, verifyCast_eq]
  generalize hv : verdict rodata s.lookup value value _ _ = v
  cases v with
  | null =>
      unfold verdict maskVerdict at hv
      rw [if_neg hvalue] at hv
      split at hv
      · cases hv
      · rw [if_pos rfl] at hv
        split at hv <;> cases hv
  | untraced => exact .inl ⟨.inr ⟨rfl, rfl⟩, rfl⟩
  | confusion => exact .inr ⟨by simp, rfl⟩
  | safe => exact .inl ⟨.inl rfl, rfl⟩

/-! ## Casts inside a traced object -/

/-- The pointer a cast leads to in an object. -/
def castAddress (objAddr : Word) : Option ℕ → Word
  | some offset => objAddr + BitVec.ofNat 64 offset
  | none => 0

/-- The granule of an offset has no table, or one that was made from a class with the
number. -/
def Recognised (M : Module) (files : ClassFiles) (rodata : Word → Byte) (place : Name → Word)
    (allocType : AllocType) (x o code : ℕ) : Prop :=
  ∀ types, GranuleClasses M files allocType x o types →
    ∃ origin, Tabled M files rodata place types origin code ∧ origin.Accepts M files code

/-- The target starts where the source does and is recognised there; or there is none to
go to, and none is recognised. -/
def CastKept (M : Module) (files : ClassFiles) (rodata : Word → Byte) (place : Name → Word)
    (allocType : AllocType) (x oS code : ℕ) : Option ℕ → Prop
  | some offset => offset = oS ∧ Recognised M files rodata place allocType x oS code
  | none => ¬ Recognised M files rodata place allocType x oS code

/-- An object of class type `x` with its subobjects, and a subobject that takes space. -/
structure SourceIn (H : Hierarchy Name) (M : Module) (x : ℕ) (source : Name × ℕ) : Prop where
  subobject : H.Subobject (M.typeName x) source
  takesSpace : source.2 < (M.struct x).allocSize
  inside : ∀ t, H.Subobject (M.typeName x) t → t.2 ≤ (M.struct x).allocSize

section Agreement

variable {mmap : ℕ → ℕ} {rodata : Word → Byte} {M : Module} {files : ClassFiles}
  {place : Name → Word} {allocType : AllocType} {x oS code : ℕ} {H : Hierarchy Name}
  {objAddr : Word} {source : Name × ℕ} {target : Name}

/-- Where the tables have bits for the number, a check of a cast that keeps its pointer
passes exactly if the target is recognised. -/
theorem downcastPasses_self (hfiles : FromTool files) {name : Name}
    (hcode : files.bitypeCodeMap[name]? = some code)
    (htables : ∀ types, GranuleClasses M files allocType x oS types →
      ∃ origin, Tabled M files rodata place types origin code) :
    DowncastPasses M files rodata place allocType x oS oS code ↔
      Recognised M files rodata place allocType x oS code := by
  rw [downcastPasses_iff hfiles hcode htables]
  unfold DowncastAllowed Recognised
  constructor
  · rintro (⟨-, -, types, origin, htypes, htabled, haccepts⟩ | ⟨hnone, -⟩)
    · intro types' htypes'
      obtain rfl := htypes.unique htypes'
      exact ⟨origin, htabled, haccepts⟩
    · exact fun types htypes => absurd ⟨types, htypes⟩ hnone
  · intro h
    by_cases hclasses : ∃ types, GranuleClasses M files allocType x oS types
    · obtain ⟨types, htypes⟩ := hclasses
      obtain ⟨origin, htabled, haccepts⟩ := h types htypes
      exact .inl ⟨⟨types, htypes⟩, .inl rfl, types, origin, htypes, htabled, haccepts⟩
    · exact .inr ⟨hclasses, rfl⟩

/-- The call returns what the cast leads to, by whether its check passes. -/
theorem returned_eq_castAddress {s : Shadow} (hobject : ObjectAt M x objAddr)
    (hsource : SourceIn H M x source) (target : Name) (code : ℕ) :
    (bitypeDynamicCastVerification rodata (objAddr + BitVec.ofNat 64 source.2)
        (byteIndex (BitVec.ofNat 32 code)) (safeCode (BitVec.ofNat 32 code)) s).returned =
        castAddress objAddr (H.dynamicCast (M.typeName x) source target) ↔
      match H.dynamicCast (M.typeName x) source target with
      | some offset => offset = source.2 ∧ Passes rodata s (objAddr + BitVec.ofNat 64 source.2)
          (objAddr + BitVec.ofNat 64 source.2) code (-1)
      | none => ¬ Passes rodata s (objAddr + BitVec.ofNat 64 source.2)
          (objAddr + BitVec.ofNat 64 source.2) code (-1) := by
  have hle := hsource.takesSpace.le
  have hvalue := address_ne_zero hobject.fits hle hobject.nonnull
  cases hcast : H.dynamicCast (M.typeName x) source target with
  | some offset =>
      have hoffset : offset ≤ (M.struct x).allocSize :=
        hsource.inside _ (Hierarchy.subobject_of_dynamicCast hcast)
      have hne := address_ne_zero hobject.fits hoffset hobject.nonnull
      rcases dynamicCastVerification_returned rodata s hvalue code with
        ⟨hpasses, hreturned⟩ | ⟨hfails, hreturned⟩
      · rw [hreturned, castAddress, address_inj hobject.fits hle hoffset]
        exact ⟨fun h => ⟨h.symm, hpasses⟩, fun h => h.1.symm⟩
      · rw [hreturned, castAddress]
        exact ⟨fun h => absurd h.symm hne, fun h => absurd h.2 hfails⟩
  | none =>
      rcases dynamicCastVerification_returned rodata s hvalue code with
        ⟨hpasses, hreturned⟩ | ⟨hfails, hreturned⟩
      · rw [hreturned, castAddress]
        exact ⟨fun h => absurd h hvalue, fun h => absurd hpasses h⟩
      · rw [hreturned, castAddress]
        exact iff_of_true rfl hfails

/-- The emitted code ends as the cast does. -/
def EndsAsCast (rodata : Word → Byte) (relationSet : Std.TreeMap Name ℕ) (objAddr : Word)
    (source : Name × ℕ) (target : Name) (isReferenceType : Bool) (result : Option ℕ)
    (s : Shadow) : Prop :=
  emitDynamicCastCall rodata relationSet target isReferenceType
      (objAddr + BitVec.ofNat 64 source.2) s =
    some (castEnd isReferenceType (castAddress objAddr result))

variable (rodata) in
theorem endsAsCast_iff (s : Shadow) (hcode : files.bitypeCodeMap[target]? = some code)
    (hobject : ObjectAt M x objAddr) (hsource : SourceIn H M x source)
    (isReferenceType : Bool) :
    EndsAsCast rodata files.bitypeCodeMap objAddr source target isReferenceType
        (H.dynamicCast (M.typeName x) source target) s ↔
      match H.dynamicCast (M.typeName x) source target with
      | some offset => offset = source.2 ∧ Passes rodata s (objAddr + BitVec.ofNat 64 source.2)
          (objAddr + BitVec.ofNat 64 source.2) code (-1)
      | none => ¬ Passes rodata s (objAddr + BitVec.ofNat 64 source.2)
          (objAddr + BitVec.ofNat 64 source.2) code (-1) := by
  rw [← returned_eq_castAddress hobject hsource, EndsAsCast, emitDynamicCastCall, hcode,
    Option.map_some, Option.some.injEq]
  exact ⟨castEnd_injective, fun h => congrArg (castEnd isReferenceType) h⟩

variable (rodata) in
/-- **When the replacement agrees with `dynamic_cast`.**  For every hierarchy, layout,
source subobject and coded target, inside an object that has been traced: exactly as
`CastKept` says.  If the source's granule has the table made for its classes and these are
in the family of a target that takes space, exactly if the target starts where the source
does. -/
theorem dynamicCast_agrees_iff {R : ToolRun} {s : Shadow} (fresh : FreshMmap mmap)
    (layout : Layout mmap s) (hplace : ∀ name, place name ≠ 0) (inlineOpt isConstant : Bool)
    (hkind : allocType ≠ .reinterpret) (hobject : ObjectAt M x objAddr)
    (hsource : SourceIn H M x source)
    (hcode : (filesOf R).bitypeCodeMap[target]? = some code)
    (hclear : (¬ ∃ types, GranuleClasses M (filesOf R) allocType x source.2 types) →
      Entry.table? (s.lookup (objAddr + BitVec.ofNat 64 source.2)) = none)
    (isReferenceType : Bool) :
    ∃ s', (program mmap rodata).run (traceObject M (filesOf R) inlineOpt place allocType
        isConstant objAddr (.struct x)) s = some s' ∧
      ((∀ types, GranuleClasses M (filesOf R) allocType x source.2 types →
          ∃ origin, Tabled M (filesOf R) rodata place types origin code) →
        (EndsAsCast rodata (filesOf R).bitypeCodeMap objAddr source target isReferenceType
            (H.dynamicCast (M.typeName x) source target) s' ↔
          CastKept M (filesOf R) rodata place allocType x source.2 code
            (H.dynamicCast (M.typeName x) source target))) ∧
      (allocType ≠ .placementNew → (M.struct x).allocSize < 2 ^ 32 → R.Refining →
        OneFamily R M x → M.Regular (filesOf R) (.struct x) →
        GranuleTabled M (filesOf R) rodata place allocType x source.2 →
        ∀ offset d, H.dynamicCast (M.typeName x) source target = some offset →
          M.Contains (.struct x) offset d → M.typeName d = target →
          (EndsAsCast rodata (filesOf R).bitypeCodeMap objAddr source target isReferenceType
            (some offset) s' ↔ offset = source.2)) := by
  obtain ⟨s', hrun, -, hseen⟩ := traceObject_spec rodata M (filesOf R) inlineOpt fresh hplace
    hkind isConstant hobject.aligned (.struct x) layout
  have hpasses : Passes rodata s' (objAddr + BitVec.ofNat 64 source.2)
      (objAddr + BitVec.ofNat 64 source.2) code (-1) ↔
      DowncastPasses M (filesOf R) rodata place allocType x source.2 source.2 code := by
    refine passes_iff hobject.aligned hobject.nonnull hobject.fits le_rfl hsource.takesSpace
      (fun o ho hnone => ?_) hseen code (-1)
    rcases ho with rfl | rfl
    · exact hclear hnone
    · exact hclear hnone
  have hends := endsAsCast_iff rodata s' hcode hobject hsource isReferenceType
  refine ⟨s', hrun, fun htables => ?_, ?_⟩
  · rw [hends]
    have hself := hpasses.trans (downcastPasses_self (fromTool_filesOf R) hcode htables)
    cases H.dynamicCast (M.typeName x) source target with
    | some offset => exact and_congr_right' hself
    | none => exact not_congr hself
  · intro hnew hsize hrefine hfamily hregular htables offset d hcast hd hname
    rw [hcast] at hends
    rw [hends]
    refine ⟨fun h => h.1, fun hoffset => ⟨hoffset, hpasses.mpr ?_⟩⟩
    rw [hoffset] at hd
    -- a cast that keeps its pointer is the downcast of a `D` to itself
    have hlegal : LegalDowncast M (filesOf R) x source.2 source.2 d := by
      have hpositive := (hregular _ _ hd).1.positive
      exact ⟨hregular, hd, le_rfl, by omega⟩
    rw [← hname] at hcode
    exact (downcastPasses_of_madeFor ⟨hnew, hkind⟩ hsize hrefine hfamily hlegal hd hcode
      htables).mpr (.inl rfl)

end Agreement

/-! ## Two bases with their own granules -/

/-- A polymorphic class of a given size. -/
def polymorphicClass (name : Name) (size : ℕ) (bases : List CXXRecordDecl) : CXXRecordDecl :=
  .mk
    { name := name, hasDefinition := true, isCompleteDefinition := true
      isAnonymousStructOrUnion := false, isDependentContext := false, isAggregate := false
      isPolymorphic := true, fields := [], size := size, alignment := 8 } bases

/-- `D` with the polymorphic bases `A` and `B`. -/
def twinClass : CXXRecordDecl :=
  polymorphicClass ['D'] 16 [polymorphicClass ['A'] 8 [], polymorphicClass ['B'] 8 []]

/-- The class, and a cast to it from each base. -/
def twinVisits : List Visit :=
  [.recordDecl twinClass,
    .castExpr (.baseToDerived none (some twinClass) (some (polymorphicClass ['A'] 8 []))),
    .castExpr (.baseToDerived none (some twinClass) (some (polymorphicClass ['B'] 8 [])))]

/-- The bases of `D`; `B` lies behind the pointer to the table of `A`. -/
def twinHierarchy : Hierarchy Name where
  bases name := if name = ['D'] then [⟨['A'], some 0, true⟩, ⟨['B'], some 8, true⟩] else []
  virtualOffset _ _ := 0

theorem twinModule_nodup : ([1, 2, 3] : List ℕ).Nodup := by decide

/-- The struct types of `D`, `A` and `B`. -/
def twinModule : Module where
  struct a :=
    if a = 1 then
      ⟨some "trackedtype.D".toList, false, false, [(0, .struct 2), (8, .struct 3)], 16⟩
    else if a = 2 then ⟨some "trackedtype.A".toList, false, false, [(0, .other 8)], 8⟩
    else ⟨some "trackedtype.B".toList, false, false, [(0, .other 8)], 8⟩
  depth a := if a = 1 then 1 else 0
  contained := contained_of_cases 3 (by decide) fun a ha => by
    simp [show a ≠ 1 from ne_of_listed (by decide) ha, show a ≠ 2 from ne_of_listed (by decide) ha]
  identified := [1, 2, 3]
  nodup := twinModule_nodup

theorem twinModule_classes : (twinModule.typeName 1 = ['D'] ∧ twinModule.typeName 2 = ['A'] ∧
    twinModule.typeName 3 = ['B']) ∧ twinModule.classTypes = [1, 2, 3] ∧ ∀ b ∈ [1, 2, 3],
      twinModule.isInterestingStructType b = true ∧ twinModule.isTracked b = true := by
  decide +kernel

theorem twinModule_typeName : twinModule.typeName 1 = ['D'] ∧ twinModule.typeName 2 = ['A'] ∧
    twinModule.typeName 3 = ['B'] := twinModule_classes.1

/-- What lies inside a `D`. -/
theorem twinModule_contains {o b : ℕ} (h : twinModule.Contains (.struct 1) o b) :
    o = 0 ∧ b = 1 ∨ o = 0 ∧ b = 2 ∨ o = 8 ∧ b = 3 :=
  twoBases_contains rfl (fun a ha => by rcases ha with rfl | rfl <;> rfl) h

/-- `D` starts in the first granule, `B` in the second. -/
theorem twinModule_elements :
    (twinModule.elementsOf (initReadFiles pairOutput) (.struct 1)).toList =
      [(0, {1}), (1, {3})] := by
  decide +kernel

/-- The tool writes what it writes for the small classes. -/
theorem exists_twinRun : ∃ R, PairRun R := by
  obtain ⟨s, hrun, ⟨hroom, hfamilies, hphantoms, hD, hA, hB⟩, hout⟩ :
      ∃ s, traversal.run twinVisits Collector.empty = some s ∧
        (s.currentIndex ≤ MAX_NUM_CLASS ∧ DFS s.graph s.currentIndex = some [[0, 2, 1]] ∧
          DFS s.graphPhantoms s.currentIndex = some [[0], [1], [2]] ∧
          s.classCode[(['D'] : Name)]? = some 0 ∧ s.classCode[(['A'] : Name)]? = some 1 ∧
          s.classCode[(['B'] : Name)]? = some 2) ∧ writeFiles s = some pairOutput :=
    ⟨_, rfl, by decide +kernel⟩
  exact ⟨⟨twinVisits, s, _, _, _, hrun, hroom, hfamilies, hphantoms, hout⟩,
    rfl, rfl, rfl, hD, hA, hB⟩

theorem twinModule_regular : twinModule.Regular (initReadFiles pairOutput) (.struct 1) := by
  have hleaf : ∀ a, a = 2 ∨ a = 3 → twinModule.Laid a := by
    rintro a (rfl | rfl)
    · exact ⟨by decide, by decide, by decide⟩
    · exact ⟨by decide, by decide, by decide⟩
  obtain ⟨⟨hD, hA, hB⟩, -, hclass⟩ := twinModule_classes
  intro o b hb
  rcases twinModule_contains hb with ⟨-, rfl⟩ | ⟨-, rfl⟩ | ⟨-, rfl⟩
  · exact ⟨⟨by decide, by decide, by decide⟩, pairFiles_class (hclass 1 (by decide)) (.inl hD)⟩
  · exact ⟨hleaf 2 (.inl rfl), pairFiles_class (hclass 2 (by decide)) (.inr (.inl hA))⟩
  · exact ⟨hleaf 3 (.inr rfl), pairFiles_class (hclass 3 (by decide)) (.inr (.inr hB))⟩

/-- The subobjects of a `D`. -/
theorem twinHierarchy_subobject {t : Name × ℕ} (h : twinHierarchy.Subobject ['D'] t) :
    t = (['D'], 0) ∨ t = (['A'], 0) ∨ t = (['B'], 8) := by
  induction h with
  | refl => exact .inl rfl
  | @tail s t _ hstep ih =>
      obtain ⟨spec, hspec, hclass, hoffset⟩ := hstep
      rcases ih with rfl | rfl | rfl
      · have hmem : spec ∈ [(⟨['A'], some 0, true⟩ : BaseSpecifier Name), ⟨['B'], some 8, true⟩] :=
          hspec
        simp only [List.mem_cons, List.not_mem_nil, or_false] at hmem
        rcases hmem with rfl | rfl
        · exact .inr (.inl (Prod.ext hclass hoffset))
        · exact .inr (.inr (Prod.ext hclass hoffset))
      · cases hspec
      · cases hspec

theorem twinHierarchy_public : twinHierarchy.PublicBase ['D'] (['D'], 0) (['B'], 8) :=
  ⟨⟨['B'], some 8, true⟩, List.mem_cons_of_mem _ List.mem_cons_self, rfl, rfl, rfl⟩

theorem twinHierarchy_base : twinHierarchy.DirectBase ['D'] (['D'], 0) (['B'], 8) :=
  ⟨⟨['B'], some 8, true⟩, List.mem_cons_of_mem _ List.mem_cons_self, rfl, rfl⟩

/-- The cast from the second base to `D` leads to the start of the object. -/
theorem twinHierarchy_cast : twinHierarchy.dynamicCast ['D'] (['B'], 8) ['D'] = some 0 := by
  refine Hierarchy.dynamicCast_down ⟨fun o => ⟨fun h => ?_, ?_⟩, .single twinHierarchy_public⟩
  · rcases twinHierarchy_subobject h.1 with h | h | h
    · exact congrArg Prod.snd h
    · cases h
    · cases h
  · rintro rfl
    exact ⟨.refl, .single twinHierarchy_base⟩

theorem twinModule_objectAt : ObjectAt twinModule 1 16 := by
  refine ⟨by decide, by decide, ?_⟩
  show 16 + 16 ≤ 2 ^ 48
  decide

theorem twinModule_source : SourceIn twinHierarchy twinModule 1 (['B'], 8) := by
  refine ⟨?_, by decide, fun t ht => ?_⟩
  · rw [twinModule_typeName.1]
    exact .single twinHierarchy_base
  · rw [twinModule_typeName.1] at ht
    rcases twinHierarchy_subobject ht with rfl | rfl | rfl
    · decide
    · decide
    · decide

/-- The classes of the two granules of a `D`. -/
theorem twinModule_granule {o : ℕ} {types : Finset ℕ}
    (h : GranuleClasses twinModule (initReadFiles pairOutput) .stackAlloc 1 o types) :
    types = {1} ∨ types = {3} := by
  have hlookup := h.1
  rw [tracedElements, if_neg (by decide)] at hlookup
  have hmem := Std.TreeMap.mem_toList_iff_getElem?_eq_some.mpr hlookup
  rw [twinModule_elements] at hmem
  simp only [List.mem_cons, List.not_mem_nil, or_false] at hmem
  rcases hmem with hmem | hmem
  · exact .inl (congrArg Prod.snd hmem)
  · exact .inr (congrArg Prod.snd hmem)

/-- The tables of `D` and of `B`. -/
theorem twinModule_tables : ∃ tableD tableB,
    Origin.Emits twinModule (initReadFiles pairOutput) (.single 1) tableD ∧
      Origin.Emits twinModule (initReadFiles pairOutput) (.single 3) tableB := by
  obtain ⟨hname, htypes, -⟩ := twinModule_classes
  have hrow := pairFiles_rows
  obtain ⟨tableD, hD⟩ : ∃ table,
      twinModule.classTable (initReadFiles pairOutput) 1 = some table := by
    simp [Module.classTable, hname, hrow]
  obtain ⟨tableB, hB⟩ : ∃ table,
      twinModule.classTable (initReadFiles pairOutput) 3 = some table := by
    simp [Module.classTable, hname, hrow]
  exact ⟨tableD, tableB, ⟨by rw [htypes]; decide, hD⟩, ⟨by rw [htypes]; decide, hB⟩⟩

/-- A memory that holds a table in its first half and one in its second. -/
def placeTables (first second : List Byte) : Word → Byte :=
  fun a => if a.toNat < 2 ^ 63 then placeTable 4096 first a
    else placeTable (BitVec.ofNat 64 (2 ^ 63)) second a

/-- Where the tables for `D` and for `B` are. -/
def twinPlace (name : Name) : Word :=
  if name = twinModule.setName {1} then 4096 else BitVec.ofNat 64 (2 ^ 63)

theorem emitted_placeTables {first second : List Byte} (hfirst : first.length ≤ 2 ^ 62)
    (hsecond : second.length ≤ 2 ^ 62) :
    Emitted (placeTables first second) 4096 first ∧
      Emitted (placeTables first second) (BitVec.ofNat 64 (2 ^ 63)) second := by
  refine ⟨fun i hi => ?_, fun i hi => ?_⟩
  · have hlow : ((4096 : Word) + BitVec.ofNat 64 i).toNat < 2 ^ 63 := by
      rw [BitVec.toNat_add, BitVec.toNat_ofNat, show (4096 : Word).toNat = 4096 from rfl]
      omega
    rw [placeTables, if_pos hlow]
    exact emitted_placeTable 4096 (by omega) i hi
  · have hhigh : ¬ (BitVec.ofNat 64 (2 ^ 63) + BitVec.ofNat 64 i).toNat < 2 ^ 63 := by
      rw [BitVec.toNat_add, BitVec.toNat_ofNat, BitVec.toNat_ofNat]
      omega
    rw [placeTables, if_neg hhigh]
    exact emitted_placeTable _ (by omega) i hi

namespace PairRun

variable {R : ToolRun} (h : PairRun R)
include h

theorem twin_oneFamily : OneFamily R twinModule 1 := by
  obtain ⟨hD, hA, hB⟩ := twinModule_typeName
  apply h.oneFamily_of
  intro o a ha
  rcases twinModule_contains ha with ⟨-, rfl⟩ | ⟨-, rfl⟩ | ⟨-, rfl⟩
  · exact .inl hD
  · exact .inr (.inl hA)
  · exact .inr (.inr hB)

theorem twin_code : (filesOf R).bitypeCodeMap[(['D'] : Name)]? = some 1 := by
  rw [h.files_eq]
  exact pairFiles_rows.2.2.2

/-- The tables of both granules. -/
theorem twin_tabled : ∃ rodata, ∀ o,
    GranuleTabled twinModule (filesOf R) rodata twinPlace .stackAlloc 1 o := by
  have hfiles := fromTool_filesOf R
  rw [h.files_eq] at hfiles ⊢
  obtain ⟨tableD, tableB, hD, hB⟩ := twinModule_tables
  have hsmall : ∀ origin table, Origin.Emits twinModule (initReadFiles pairOutput) origin table →
      table.length ≤ 2 ^ 62 := by
    intro origin table hemits
    obtain ⟨familySize, hlength, ⟨name, -, hsize⟩, -⟩ := length_emitted hemits
    have hle := hfiles.size_le hsize
    unfold MAX_NUM_CLASS at hle
    rw [hlength, arraySize_eq]
    omega
  obtain ⟨hfirst, hsecond⟩ := emitted_placeTables (hsmall _ _ hD) (hsmall _ _ hB)
  have hother : twinModule.setName {3} ≠ twinModule.setName {1} := by
    rw [setName_singleton, setName_singleton, twinModule_typeName.1, twinModule_typeName.2.2]
    decide
  refine ⟨placeTables tableD tableB, fun o types htypes => ?_⟩
  rcases twinModule_granule htypes with rfl | rfl
  · refine ⟨.single 1, tableD, ⟨1, rfl, fun b hb => ⟨b, hb, rfl⟩⟩, hD, ?_⟩
    rw [twinPlace, if_pos rfl]
    exact hfirst
  · refine ⟨.single 3, tableB, ⟨3, rfl, fun b hb => ⟨b, hb, rfl⟩⟩, hB, ?_⟩
    rw [twinPlace, if_neg hother]
    exact hsecond

end PairRun

/-- The granule of the second base has the table of `B`. -/
theorem twinModule_second : GranuleClasses twinModule (initReadFiles pairOutput) .stackAlloc 1 8
    {3} := by
  refine ⟨?_, by decide⟩
  rw [tracedElements, if_neg (by decide), ← Std.TreeMap.mem_toList_iff_getElem?_eq_some,
    twinModule_elements]
  decide

theorem twinPlace_ne (name : Name) : twinPlace name ≠ 0 := by
  unfold twinPlace
  split
  · decide
  · decide

/-- A cast to `D` from the second base of a `D` at address 16. -/
theorem dynamicCast_agrees_iff_sample : ∃ (R : ToolRun) (rodata : Word → Byte) (s' : Shadow),
    (program spacedMmap rodata).run
        (traceObject twinModule (filesOf R) true twinPlace .stackAlloc true 16 (.struct 1))
        (bitypeInitialization spacedMmap fun _ => 0) = some s' ∧
      (EndsAsCast rodata (filesOf R).bitypeCodeMap 16 (['B'], 8) ['D'] false (some 0) s' ↔
        0 = 8) := by
  obtain ⟨R, hR⟩ := exists_twinRun
  obtain ⟨rodata, htabled⟩ := hR.twin_tabled
  have hregular : twinModule.Regular (filesOf R) (.struct 1) := by
    rw [hR.files_eq]
    exact twinModule_regular
  have hclasses : ∃ types, GranuleClasses twinModule (filesOf R) .stackAlloc 1 8 types := by
    rw [hR.files_eq]
    exact ⟨{3}, twinModule_second⟩
  have hcast : twinHierarchy.dynamicCast (twinModule.typeName 1) (['B'], 8) ['D'] = some 0 := by
    rw [twinModule_typeName.1]
    exact twinHierarchy_cast
  obtain ⟨s', hrun, -, hagrees⟩ := dynamicCast_agrees_iff rodata spacedMmap_fresh
    (layout_init fun _ => 0) twinPlace_ne true true
    (show AllocType.stackAlloc ≠ .reinterpret by decide) twinModule_objectAt twinModule_source
    hR.twin_code (fun hnone => absurd hclasses hnone) false
  exact ⟨R, rodata, s', hrun, hagrees (by decide) (by decide) hR.refining hR.twin_oneFamily hregular
    (htabled 8) 0 1 hcast (.self 1) twinModule_typeName.1⟩

/-- A cast to `D` from the second base of a `D` does not lead to the `D`. -/
theorem dynamicCast_moves :
    ¬ ∀ (mmap : ℕ → ℕ) (rodata : Word → Byte) (R : ToolRun) (M : Module) (place : Name → Word)
      (allocType : AllocType) (inlineOpt isConstant isReferenceType : Bool) (s s' : Shadow)
      (objAddr : Word) (x code : ℕ) (H : Hierarchy Name) (source : Name × ℕ) (target : Name),
      FreshMmap mmap → Layout mmap s → (∀ name, place name ≠ 0) → allocType ≠ .placementNew →
      allocType ≠ .reinterpret → R.Refining → OneFamily R M x → ObjectAt M x objAddr →
      (M.struct x).allocSize < 2 ^ 32 → M.Regular (filesOf R) (.struct x) →
      SourceIn H M x source →
      SameFamily R.state R.families (M.typeName x) target →
      (filesOf R).bitypeCodeMap[target]? = some code →
      (∀ o, GranuleTabled M (filesOf R) rodata place allocType x o) →
      (program mmap rodata).run (traceObject M (filesOf R) inlineOpt place allocType isConstant
        objAddr (.struct x)) s = some s' →
      EndsAsCast rodata (filesOf R).bitypeCodeMap objAddr source target isReferenceType
        (H.dynamicCast (M.typeName x) source target) s' := by
  intro hclaim
  obtain ⟨R, hR⟩ := exists_twinRun
  obtain ⟨rodata, htabled⟩ := hR.twin_tabled
  have hregular : twinModule.Regular (filesOf R) (.struct 1) := by
    rw [hR.files_eq]
    exact twinModule_regular
  have hkind : AllocType.stackAlloc ≠ .reinterpret := by decide
  have hlayout : Layout spacedMmap (bitypeInitialization spacedMmap fun _ => 0) :=
    layout_init fun _ => 0
  obtain ⟨s', hrun, -⟩ := traceObject_spec rodata twinModule (filesOf R) true spacedMmap_fresh
    twinPlace_ne hkind true twinModule_objectAt.aligned (.struct 1) hlayout
  have hfamily : SameFamily R.state R.families (twinModule.typeName 1) ['D'] := by
    have hself := hR.twin_oneFamily 0 1 0 1 (.self 1) (.self 1)
    rwa [twinModule_typeName.1] at hself ⊢
  have hends := hclaim spacedMmap rodata R twinModule twinPlace .stackAlloc true true false _ s' 16
    1 1 twinHierarchy (['B'], 8) ['D'] spacedMmap_fresh hlayout twinPlace_ne (by decide) hkind
    hR.refining hR.twin_oneFamily twinModule_objectAt (by decide) hregular twinModule_source hfamily
    hR.twin_code htabled hrun
  rw [endsAsCast_iff rodata s' hR.twin_code twinModule_objectAt twinModule_source,
    twinModule_typeName.1, twinHierarchy_cast] at hends
  exact absurd hends.1 (by decide)

end Bitype.Pass
