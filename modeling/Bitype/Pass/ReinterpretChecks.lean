import Bitype.Pass.DynamicCast
import Bitype.Pass.PlacementCoverage

/-!
# Downcasts in an object known from a `reinterpret_cast`

A `reinterpret_cast` does not know where the object starts, so it stores `-1` for the offset,
and the check reads the mark as offset zero: it takes the source for the start of the object.
That is right where the source starts with the derived object.  A base further in lies behind
the derived object, whose distance from the source comes out negative, and the check reports.

`reinterpreted_silent_iff` says that the check of a downcast to an accepted class is silent
iff the base starts where the derived object does or nothing is recorded for the base.
-/

namespace Bitype.Pass

open Bitype.Foundations Bitype.Runtime
open Bitype.Tool (Name)

/-! ## The sequence -/

/-- What a check sees in a granule after a `reinterpret_cast` to an object with these classes
in the granule. -/
def remarked (M : Module) (place : Name → Word) (entry : ℕ × Finset ℕ)
    (before : Option Word × U32) : Option Word × U32 :=
  if before.1 ≠ none ∧ before.2 ≠ -1 then before else (some (place (M.setName entry.2)), -1)

theorem seen_record_reinterpreted (m : GranuleMap) (g h : ℕ) {referenceAddr : Word}
    (hne : referenceAddr ≠ 0) :
    seen (m.record g (reinterpreted referenceAddr) h) =
      if h = g then
        if (seen (m h)).1 ≠ none ∧ (seen (m h)).2 ≠ -1 then seen (m h)
        else (some referenceAddr, -1)
      else seen (m h) := by
  by_cases hsame : h = g
  · subst hsame
    have hseen : seen (m h) = seen (some ((m h).getD Entry.zero)) := by
      cases m h <;> rfl
    rw [record_same, if_pos rfl, hseen]
    generalize (m h).getD Entry.zero = e
    have htable : (seen (some e)).1 ≠ none ↔ e.reference ≠ 0 := by
      simp [seen, Entry.table?]
    have hoffset : (seen (some e)).2 = e.offset := rfl
    simp only [htable, hoffset, reinterpreted]
    by_cases hkept : e.reference ≠ 0 ∧ e.offset ≠ -1
    · rw [if_pos hkept, if_pos hkept]
    · rw [if_neg hkept, if_neg hkept]
      exact Prod.ext (if_neg hne) rfl
  · rw [record_of_ne m _ hsame, seen_cover, if_neg hsame]

/-- One entry of the sequence. -/
theorem reinterpret_entry {mmap : ℕ → ℕ} (rodata : Word → Byte) (M : Module) (inlineOpt : Bool)
    {place : Name → Word} (fresh : FreshMmap mmap) (hplace : ∀ name, place name ≠ 0)
    {objAddr : Word} (haligned : objAddr.toNat % 8 = 0) :
    EntryChanges mmap rodata objAddr
      (emitEntry M inlineOpt place .conObjAdd ⟨.reinterpret, objAddr, 0, 1, false⟩ 0)
      (remarked M place) := by
  intro entry hsmall s layout
  by_cases hempty : entry.2.card = 0
  · refine ⟨s, ?_, layout, fun g => by simp [hempty]⟩
    rw [emitEntry, if_pos hempty]
    rfl
  · have hoffset : 8 * entry.1 < 2 ^ 32 := by omega
    have hgranule : granule (objAddr + BitVec.ofNat 64 (8 * entry.1)) =
        granuleAt objAddr entry.1 := by
      rw [granule_offset haligned, Nat.mul_div_cancel_left _ (by decide)]
    obtain ⟨hlayout, hview⟩ := handleReinterpretCast_spec layout fresh
      (objAddr + BitVec.ofNat 64 (8 * entry.1)) (place (M.setName entry.2))
      (BitVec.ofNat 32 (8 * entry.1))
    refine ⟨_, ?_, hlayout, fun g => ?_⟩
    · rw [emitEntry_con hempty hoffset (by omega), if_neg (by simp), if_pos rfl, Nat.zero_mul,
        Nat.add_zero]
      rfl
    · rw [hview, hgranule, seen_record_reinterpreted _ _ _ (hplace _)]
      simp only [ne_eq, hempty, not_false_eq_true, true_and, remarked]

/-! ## What is recorded -/

section Recorded

variable (M : Module) (files : ClassFiles) (place : Name → Word) (x : ℕ) (objAddr : Word)
  (s : Shadow)

/-- Of the object nothing is recorded but what a `reinterpret_cast` to it records. -/
def OnlyReinterpreted : Prop :=
  ∀ o < (M.struct x).allocSize, Entry.table? (s.lookup (objAddr + BitVec.ofNat 64 o)) = none ∨
    Entry.offsetOf (s.lookup (objAddr + BitVec.ofNat 64 o)) = -1 ∧
      ∃ types, GranuleClasses M files .reinterpret x o types

/-- Each granule of the object with a class has the class's table and the mark. -/
def Reinterpreted : Prop :=
  ∀ o < (M.struct x).allocSize,
    (∀ types, GranuleClasses M files .reinterpret x o types →
      seen (s.lookup (objAddr + BitVec.ofNat 64 o)) = (some (place (M.setName types)), -1)) ∧
    ((¬ ∃ types, GranuleClasses M files .reinterpret x o types) →
      Entry.table? (s.lookup (objAddr + BitVec.ofNat 64 o)) = none)

end Recorded

section Sequence

variable {mmap : ℕ → ℕ} {M : Module} {files : ClassFiles} {place : Name → Word}
  {bitypeClassIndexSet : Std.TreeMap ℕ Name} {first offsetConst : Word} {classIndex x : ℕ}
  {className : Name} {s : Shadow}

/-- **A `reinterpret_cast` records its class**, once or again. -/
theorem reinterpret_records (rodata : Word → Byte) (inlineOpt : Bool) (fresh : FreshMmap mmap)
    (hplace : ∀ name, place name ≠ 0)
    (hindex : bitypeClassIndexSet[classIndex]? = some className)
    (hstruct : (classStructSet M files)[className]? = some x)
    (hobject : ObjectAt M x (first + offsetConst)) (layout : Layout mmap s)
    (honly : OnlyReinterpreted M files x (first + offsetConst) s) :
    ∃ s', (program mmap rodata).run
        (emitExtendObjTraceInst M files inlineOpt place bitypeClassIndexSet .reinterpret first
          classIndex offsetConst) s = some s' ∧ Layout mmap s' ∧
      Reinterpreted M files place x (first + offsetConst) s' ∧
      OnlyReinterpreted M files x (first + offsetConst) s' := by
  rw [emitExtendObjTraceInst_eq M inlineOpt place (.inr rfl) hindex hstruct]
  generalize first + offsetConst = objAddr at *
  obtain ⟨s', hrun, hlayout, hseen⟩ := elements_spec
    (reinterpret_entry rodata M inlineOpt fresh hplace hobject.aligned)
    (fun _ _ h => tracedElements_small h) layout
  have hrecorded : Reinterpreted M files place x objAddr s' := by
    intro o ho
    have hfits := hobject.fits
    have hafter := hseen (o / 8) (by omega)
    rw [← lookup_offset s' hobject.aligned, ← lookup_offset s hobject.aligned] at hafter
    unfold seenAfterEntries at hafter
    constructor
    · intro types htypes
      rw [htypes.1] at hafter
      dsimp only at hafter
      rw [if_pos htypes.2] at hafter
      -- only a traced object's entry would be kept, and there is none
      rw [hafter, remarked, if_neg]
      rintro ⟨htable, hoffset⟩
      exact (honly o ho).elim htable fun h => hoffset h.1
    · intro hnone
      have hkept : seen (s'.lookup (objAddr + BitVec.ofNat 64 o)) =
          seen (s.lookup (objAddr + BitVec.ofNat 64 o)) := by
        rw [hafter]
        split
        · next types htypes => exact if_neg fun hcard => hnone ⟨types, htypes, hcard⟩
        · rfl
      exact (congrArg Prod.fst hkept).trans ((honly o ho).resolve_right fun h => hnone h.2)
  refine ⟨s', hrun, hlayout, hrecorded, fun o ho => ?_⟩
  by_cases hclasses : ∃ types, GranuleClasses M files .reinterpret x o types
  · obtain ⟨types, htypes⟩ := hclasses
    exact .inr ⟨congrArg Prod.snd ((hrecorded o ho).1 types htypes), types, htypes⟩
  · exact .inl ((hrecorded o ho).2 hclasses)

/-! ## The check -/

/-- The check of a downcast does not report. -/
def Silent (rodata : Word → Byte) (s : Shadow) (sourcePtr thisPtr : Word) (code : ℕ)
    (debugIndex : U32) : Prop :=
  (bitypeVerifyCast rodata sourcePtr thisPtr (byteIndex (BitVec.ofNat 32 code))
    (safeCode (BitVec.ofNat 32 code)) debugIndex s).confusion = false

/-- In an `x` object a `d` object lies at offset `oD`, and a base of it starts at `oB`. -/
structure SubobjectDowncast (M : Module) (x oD oB d : ℕ) : Prop where
  laid : M.WellLaid (.struct x)
  derived : M.Contains (.struct x) oD d
  le : oD ≤ oB
  lt : oB < oD + (M.struct d).allocSize

theorem SubobjectDowncast.lt_size {oD oB d : ℕ} (h : SubobjectDowncast M x oD oB d) :
    oB < (M.struct x).allocSize :=
  h.lt.trans_le (TypeTable.contains_fits h.derived h.laid)

/-- An address below the source is below a source taken for the start of the object. -/
theorem derivedOffset_mark_slt {objAddr : Word} {oD oB : ℕ} (hlt : oD < oB) (hB : oB < 2 ^ 48) :
    (derivedOffset (objAddr + BitVec.ofNat 64 oB) (objAddr + BitVec.ofNat 64 oD) (-1)).slt 0 =
      true := by
  have hsplit : objAddr + BitVec.ofNat 64 oD - (objAddr + BitVec.ofNat 64 oB -
      (0 : U32).signExtend 64) = -BitVec.ofNat 64 (oB - oD) := by
    have hsum : BitVec.ofNat 64 oB = BitVec.ofNat 64 oD + BitVec.ofNat 64 (oB - oD) := by
      rw [← BitVec.ofNat_add, Nat.add_sub_cancel' hlt.le]
    rw [show (0 : U32).signExtend 64 = (0 : Word) from rfl, hsum]
    ring
  rw [derivedOffset, if_pos rfl, hsplit, show (0 : Word) = 0#64 from rfl, BitVec.slt_zero_eq_msb,
    BitVec.msb_eq_decide, decide_eq_true_eq, BitVec.toNat_neg, BitVec.toNat_ofNat]
  omega

/-- **Which checks are silent** in an object known from a `reinterpret_cast`. -/
theorem silent_iff {rodata : Word → Byte} {objAddr : Word} {oD oB d code : ℕ}
    (hobject : ObjectAt M x objAddr) (hrecorded : Reinterpreted M files place x objAddr s)
    (hcast : SubobjectDowncast M x oD oB d)
    (haccepts : ∃ types, GranuleClasses M files .reinterpret x oD types ∧
      TableAccepts M rodata place types code) (debugIndex : U32) :
    Silent rodata s (objAddr + BitVec.ofNat 64 oB) (objAddr + BitVec.ofNat 64 oD) code
        debugIndex ↔
      oB = oD ∨ ¬ ∃ types, GranuleClasses M files .reinterpret x oB types := by
  have hsize := hcast.lt_size
  have hfits := hobject.fits
  have hsource := address_ne_zero hobject.fits hsize.le hobject.nonnull
  obtain ⟨typesD, htypesD, hmask⟩ := haccepts
  have htableD := congrArg Prod.fst ((hrecorded oD (hcast.le.trans_lt hsize)).1 typesD htypesD)
  rw [Silent, verifyCast_eq]
  change decide (_ = Verdict.confusion) = false ↔ _
  rw [decide_eq_false_iff_not, verdict, if_neg hsource]
  by_cases hclasses : ∃ types, GranuleClasses M files .reinterpret x oB types
  · obtain ⟨types, htypes⟩ := hclasses
    have hseen := (hrecorded oB hsize).1 types htypes
    have htable := congrArg Prod.fst hseen
    have hoffset := congrArg Prod.snd hseen
    dsimp only [seen] at htable hoffset htableD
    have hexists : ∃ types, GranuleClasses M files .reinterpret x oB types := ⟨types, htypes⟩
    rw [htable, hoffset]
    dsimp only
    by_cases hsame : oB = oD
    · subst hsame
      obtain rfl := htypesD.unique htypes
      have hsafe : maskVerdict rodata (place (M.setName typesD)) (byteIndex (BitVec.ofNat 32 code))
          (safeCode (BitVec.ofNat 32 code)) = .safe := by
        rw [maskVerdict, hmask]
        exact if_neg Bool.false_ne_true
      simp [hsafe]
    -- the mark makes every other target look as if it were below the object
    · have hne : ¬ objAddr + BitVec.ofNat 64 oB = objAddr + BitVec.ofNat 64 oD := by
        rw [address_inj hobject.fits hsize.le (hcast.le.trans hsize.le)]
        exact hsame
      have hbelow := @derivedOffset_mark_slt objAddr oD oB (by have := hcast.le; omega) (by omega)
      rw [if_neg hne, if_pos hbelow]
      simp [hsame, hexists]
  · have htable := (hrecorded oB hsize).2 hclasses
    rw [htable]
    simp [hclasses]

/-- **Downcasts in an object that only a `reinterpret_cast` has recorded.** -/
theorem reinterpreted_silent_iff (rodata : Word → Byte) (inlineOpt : Bool) (fresh : FreshMmap mmap)
    (hplace : ∀ name, place name ≠ 0)
    (hindex : bitypeClassIndexSet[classIndex]? = some className)
    (hstruct : (classStructSet M files)[className]? = some x)
    (hobject : ObjectAt M x (first + offsetConst)) (layout : Layout mmap s)
    (honly : OnlyReinterpreted M files x (first + offsetConst) s) :
    ∃ s', (program mmap rodata).run
        (emitExtendObjTraceInst M files inlineOpt place bitypeClassIndexSet .reinterpret first
          classIndex offsetConst) s = some s' ∧
      ∀ oD oB d code debugIndex, SubobjectDowncast M x oD oB d →
        (∃ types, GranuleClasses M files .reinterpret x oD types ∧
          TableAccepts M rodata place types code) →
        (Silent rodata s' (first + offsetConst + BitVec.ofNat 64 oB)
            (first + offsetConst + BitVec.ofNat 64 oD) code debugIndex ↔
          oB = oD ∨ ¬ ∃ types, GranuleClasses M files .reinterpret x oB types) := by
  obtain ⟨s', hrun, -, hrecorded, -⟩ := reinterpret_records rodata inlineOpt fresh hplace hindex
    hstruct hobject layout honly
  exact ⟨s', hrun, fun oD oB d code debugIndex hcast haccepts =>
    silent_iff hobject hrecorded hcast haccepts debugIndex⟩

end Sequence

/-! ## The second base -/

/-- A `D` and the second base of it have a granule each. -/
theorem twinModule_reinterpreted :
    (classStructSet twinModule (initReadFiles pairOutput))[(['D'] : Name)]? = some 1 ∧
      (tracedElements twinModule (initReadFiles pairOutput) .reinterpret (.struct 1)).toList =
        [(0, {1}), (1, {3})] := by
  decide +kernel

theorem twinModule_marked {o : ℕ} {types : Finset ℕ}
    (h : (o / 8, types) ∈ [((0 : ℕ), ({1} : Finset ℕ)), (1, {3})]) (hcard : types.card ≠ 0) :
    GranuleClasses twinModule (initReadFiles pairOutput) .reinterpret 1 o types := by
  rw [← twinModule_reinterpreted.2] at h
  exact ⟨mem_toList.mp h, hcard⟩

/-- The table of `D` accepts the number of `D`. -/
theorem twinModule_accepts : ∃ rodata, ∃ types,
    GranuleClasses twinModule (initReadFiles pairOutput) .reinterpret 1 0 types ∧
      TableAccepts twinModule rodata twinPlace types 1 := by
  obtain ⟨R, hR⟩ := exists_twinRun
  obtain ⟨rodata, htabled⟩ := hR.twin_tabled
  have hgranule : GranuleClasses twinModule (filesOf R) .stackAlloc 1 0 {1} := by
    refine ⟨?_, by decide⟩
    rw [hR.files_eq, tracedElements, if_neg (by decide),
      ← Std.TreeMap.mem_toList_iff_getElem?_eq_some, twinModule_elements]
    decide
  obtain ⟨origin, table, hmade, hemits, hemitted⟩ := htabled 0 {1} hgranule
  have hself : twinModule.Contains (.struct 1) 0 1 := .self 1
  obtain ⟨-, -, htracked, hrelated⟩ := twinModule_regular 0 1 hself
  rw [← hR.files_eq] at hrelated
  have hcode : (filesOf R).bitypeCodeMap[twinModule.typeName 1]? = some 1 := by
    rw [twinModule_typeName.1]
    exact hR.twin_code
  exact ⟨rodata, {1}, twinModule_marked (by decide) (by decide),
    tableAccepts_of_madeFor hR.refining hR.twin_oneFamily (Finset.mem_singleton_self 1) hself hself
      ⟨htracked, .refl⟩ ⟨hrelated, hrelated⟩ hcode hmade hemits hemitted⟩

theorem twinModule_downcast : SubobjectDowncast twinModule 1 0 8 1 :=
  ⟨twinModule_regular.wellLaid, .self 1, by decide, by decide⟩

theorem twinModule_reinterpretedAt : ObjectAt twinModule 1 (16 + 0) := twinModule_objectAt

/-- Nothing is recorded at the start. -/
theorem onlyReinterpreted_init (M : Module) (files : ClassFiles) (x : ℕ) (objAddr : Word) :
    OnlyReinterpreted M files x objAddr (bitypeInitialization spacedMmap fun _ => 0) := by
  intro o _
  left
  rw [lookup_eq_view, view_init]
  rfl

/-- The check of the cast from the second base. -/
theorem reinterpreted_silent_iff_sample : ∃ rodata s', (program spacedMmap rodata).run
      (emitExtendObjTraceInst twinModule (initReadFiles pairOutput) true twinPlace
        (oneClass ['D']) .reinterpret 16 0 0) (bitypeInitialization spacedMmap fun _ => 0) =
      some s' ∧
    (Silent rodata s' (16 + 0 + BitVec.ofNat 64 8) (16 + 0 + BitVec.ofNat 64 0) 1 0 ↔
      8 = 0 ∨ ¬ ∃ types, GranuleClasses twinModule (initReadFiles pairOutput) .reinterpret 1 8
        types) := by
  obtain ⟨rodata, haccepts⟩ := twinModule_accepts
  obtain ⟨s', hrun, hsilent⟩ := reinterpreted_silent_iff rodata true spacedMmap_fresh twinPlace_ne
    (oneClass_zero ['D']) twinModule_reinterpreted.1 twinModule_reinterpretedAt
    (layout_init fun _ => 0) (onlyReinterpreted_init _ _ _ _)
  exact ⟨rodata, s', hrun, hsilent 0 8 1 1 0 twinModule_downcast haccepts⟩

/-- The downcast of a `D` from its second base is reported. -/
theorem second_base_reported :
    ¬ ∀ (mmap : ℕ → ℕ) (rodata : Word → Byte) (M : Module) (files : ClassFiles)
      (place : Name → Word) (bitypeClassIndexSet : Std.TreeMap ℕ Name) (inlineOpt : Bool)
      (first offsetConst : Word) (classIndex x oD oB d code : ℕ) (className : Name)
      (debugIndex : U32) (s s' : Shadow), FreshMmap mmap → Layout mmap s →
      (∀ name, place name ≠ 0) → bitypeClassIndexSet[classIndex]? = some className →
      (classStructSet M files)[className]? = some x → ObjectAt M x (first + offsetConst) →
      (∀ o b, M.Contains (.struct x) o b → o % 8 = 0) →
      OnlyReinterpreted M files x (first + offsetConst) s →
      (program mmap rodata).run (emitExtendObjTraceInst M files inlineOpt place bitypeClassIndexSet
        .reinterpret first classIndex offsetConst) s = some s' →
      SubobjectDowncast M x oD oB d →
      (∃ types, GranuleClasses M files .reinterpret x oD types ∧
        TableAccepts M rodata place types code) →
      Silent rodata s' (first + offsetConst + BitVec.ofNat 64 oB)
        (first + offsetConst + BitVec.ofNat 64 oD) code debugIndex := by
  intro hclaim
  obtain ⟨rodata, haccepts⟩ := twinModule_accepts
  obtain ⟨s', hrun, -, hrecorded, -⟩ := reinterpret_records rodata true spacedMmap_fresh
    twinPlace_ne (oneClass_zero ['D']) twinModule_reinterpreted.1 twinModule_reinterpretedAt
    (layout_init fun _ => 0) (onlyReinterpreted_init _ _ _ _)
  have haligned : ∀ o b, twinModule.Contains (.struct 1) o b → o % 8 = 0 := by
    intro o b hb
    rcases twinModule_contains hb with ⟨rfl, -⟩ | ⟨rfl, -⟩ | ⟨rfl, -⟩ <;> rfl
  have hsilent := hclaim spacedMmap rodata twinModule (initReadFiles pairOutput) twinPlace
    (oneClass ['D']) true 16 0 0 1 0 8 1 1 ['D'] 0 _ s' spacedMmap_fresh (layout_init fun _ => 0)
    twinPlace_ne (oneClass_zero ['D']) twinModule_reinterpreted.1 twinModule_reinterpretedAt
    haligned (onlyReinterpreted_init _ _ _ _) hrun twinModule_downcast haccepts
  rcases (silent_iff twinModule_reinterpretedAt hrecorded twinModule_downcast haccepts 0).mp
    hsilent with hsame | hnone
  · cases hsame
  · exact hnone ⟨{3}, twinModule_marked (by decide) (by decide)⟩

end Bitype.Pass
