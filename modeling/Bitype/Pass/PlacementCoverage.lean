import Bitype.Pass.ClassTables
import Bitype.Pass.Coverage
import Bitype.Pass.PlacementNew

/-!
# What a placement new leaves of the old type

The front end names the class of a placement new by its index.  `emitExtendObjTraceInst`
looks the class up, takes the classes of less than eight bytes out of its granules and
records what is left.  There is no step that takes the trace of the old object away: a
granule is written if a class that is left starts in it, and stays as it is if none does
(`placementNew_writes`).

So the placement new replaces the recorded type where the new class has classes of eight
bytes or more (`placementNew_replaces`).
-/

namespace Bitype.Pass

open Bitype.Foundations Bitype.Runtime Bitype.Tool

/-! ## The emitted sequence -/

section Emission

variable (M : Module) (files : ClassFiles) (inlineOpt : Bool) (place : Name → Word)

/-- `classStructSet`: the first class type of each cast-related name. -/
def classStructSet : Std.TreeMap Name ℕ :=
  M.classTypes.foldl
    (fun classes a =>
      if M.isInCastRelatedSet files a = true then classes.insertIfNew (M.typeName a) a
      else classes) ∅

/-- `emitExtendObjTraceInst`, for the operands of the call: the address, the index of the
class and the offset. -/
def emitExtendObjTraceInst (bitypeClassIndexSet : Std.TreeMap ℕ Name) (extendTarget : AllocType)
    (first : Word) (classIndex : ℕ) (offsetConst : Word) : List Event :=
  match bitypeClassIndexSet[classIndex]? with
  | none => []
  | some className =>
      match (classStructSet M files)[className]? with
      | none => []
      | some a =>
          let offsets := tracedElements M files extendTarget (.struct a)
          if offsets.isEmpty = true then []
          else
            -- the source passes no size and no number of objects
            insertUpdate M inlineOpt place
              { allocType := extendTarget
                objAddr := first + offsetConst
                typeSize := 0
                arraySize := 1
                isConstant := false } offsets

end Emission

/-! ## Which granules are written -/

section Written

variable (M : Module) (files : ClassFiles) (place : Name → Word)

/-- An entry of the placement new of a class is for this granule. -/
def FilesGranule (a : ℕ) (objAddr : Word) (entry : ℕ × Finset ℕ) (g : ℕ) : Prop :=
  (tracedElements M files .placementNew (.struct a))[entry.1]? = some entry.2 ∧
    entry.2.card ≠ 0 ∧ granule (objAddr + BitVec.ofNat 64 (8 * entry.1)) = g

/-- At offset `o` of a class the runtime finds what the placement new has recorded: a set of
classes of which one starts there and holds class `c`. -/
def Described (a : ℕ) (objAddr : Word) (s : Shadow) (o c : ℕ) : Prop :=
  ∃ entry, FilesGranule M files a objAddr entry (granule (objAddr + BitVec.ofNat 64 o)) ∧
    seen (s.lookup (objAddr + BitVec.ofNat 64 o)) =
      (some (place (M.setName entry.2)), BitVec.ofNat 32 (8 * entry.1)) ∧
    ∃ b ∈ entry.2, M.Contains (.struct a) o b ∧ c ∈ M.getOffetZeroStruct b ∅

/-- Every recorded class of the new object is described. -/
def AllDescribed (a : ℕ) (objAddr : Word) (s : Shadow) : Prop :=
  ∀ o c, M.Contains (.struct a) o c → M.IsRecorded files c → Described M files place a objAddr s o c

/-- In every granule of the new object there is no reference, or that of the placement new. -/
def NoneLeft (a : ℕ) (objAddr : Word) (s : Shadow) : Prop :=
  ∀ i < (M.struct a).allocSize,
    (tableAt s.view (granule (objAddr + BitVec.ofNat 64 i))).1 = 0 ∨
      ∃ entry, FilesGranule M files a objAddr entry (granule (objAddr + BitVec.ofNat 64 i)) ∧
        tableAt s.view (granule (objAddr + BitVec.ofNat 64 i)) = entryTable M place entry

end Written

section Placement

variable {mmap : ℕ → ℕ} {rodata : Word → Byte} {M : Module} {files : ClassFiles}
  {inlineOpt : Bool} {place : Name → Word} {bitypeClassIndexSet : Std.TreeMap ℕ Name}
  {first offsetConst : Word} {classIndex a : ℕ} {className : Name}

/-- Different entries are for different granules. -/
theorem FilesGranule.unique {objAddr : Word} {entry entry' : ℕ × Finset ℕ} {g : ℕ}
    (h : FilesGranule M files a objAddr entry g) (h' : FilesGranule M files a objAddr entry' g) :
    entry = entry' := by
  obtain ⟨htypes, -, hgranule⟩ := h
  obtain ⟨htypes', -, hgranule'⟩ := h'
  have hsmall := tracedElements_small htypes
  have hsmall' := tracedElements_small htypes'
  have hsame := (granule_add_eq_iff objAddr (by omega) (by omega)).mp (hgranule.trans hgranule'.symm)
  have hkey : entry.1 = entry'.1 := by omega
  rw [hkey, htypes'] at htypes
  exact Prod.ext hkey (Option.some.inj htypes).symm

variable (M files place) in
/-- What a placement new of a class writes: an entry for each granule in which a class is left. -/
def placementLog (a : ℕ) (objAddr : Word) : TraceLog :=
  (tracedElements M files .placementNew (.struct a)).toList.flatMap fun entry =>
    if entry.2.card = 0 then [] else [placed M place objAddr 0 0 entry]

theorem mem_placementLog {objAddr : Word} {write : ℕ × (Word × U32)} :
    write ∈ placementLog M files place a objAddr ↔
      ∃ entry, FilesGranule M files a objAddr entry write.1 ∧
        write.2 = entryTable M place entry := by
  unfold placementLog
  rw [List.mem_flatMap]
  constructor
  · rintro ⟨entry, hentry, hwrite⟩
    split at hwrite
    · cases hwrite
    · next hcard =>
        obtain rfl := List.mem_singleton.mp hwrite
        refine ⟨entry, ⟨mem_toList.mp hentry, hcard, ?_⟩, rfl⟩
        rw [placed, objectGranule, Nat.mul_zero, Nat.add_zero]
  · rintro ⟨entry, ⟨htypes, hcard, hgranule⟩, hvalue⟩
    refine ⟨entry, mem_toList.mpr htypes, ?_⟩
    rw [if_neg hcard, List.mem_singleton, placed, objectGranule, Nat.mul_zero, Nat.add_zero,
      hgranule, ← hvalue]

variable (M inlineOpt place) in
/-- The sequence goes over the granules that are left. -/
theorem emitExtendObjTraceInst_eq {extendTarget : AllocType}
    (htarget : extendTarget = .placementNew ∨ extendTarget = .reinterpret)
    (hindex : bitypeClassIndexSet[classIndex]? = some className)
    (hstruct : (classStructSet M files)[className]? = some a) :
    emitExtendObjTraceInst M files inlineOpt place bitypeClassIndexSet extendTarget first classIndex
        offsetConst =
      (tracedElements M files extendTarget (.struct a)).toList.flatMap
        (emitEntry M inlineOpt place .conObjAdd ⟨extendTarget, first + offsetConst, 0, 1, false⟩ 0) := by
  unfold emitExtendObjTraceInst
  rw [hindex]
  dsimp only
  rw [hstruct]
  dsimp only
  split
  · next hempty =>
      rw [← Std.TreeMap.isEmpty_toList, List.isEmpty_iff] at hempty
      rw [hempty]
      rfl
  · unfold insertUpdate
    rcases htarget with rfl | rfl <;> rfl

variable (rodata inlineOpt place first offsetConst) in
/-- **What a placement new writes.** -/
theorem placementNew_writes (fresh : FreshMmap mmap)
    (hindex : bitypeClassIndexSet[classIndex]? = some className)
    (hstruct : (classStructSet M files)[className]? = some a) {s : Shadow}
    (layout : Layout mmap s) :
    ∃ s', (program mmap rodata).run
        (emitExtendObjTraceInst M files inlineOpt place bitypeClassIndexSet .placementNew first
          classIndex offsetConst) s = some s' ∧ Layout mmap s' ∧
      ∀ g, (∀ entry, FilesGranule M files a (first + offsetConst) entry g →
          tableAt s'.view g = entryTable M place entry) ∧
        ((∀ entry, ¬ FilesGranule M files a (first + offsetConst) entry g) →
          tableAt s'.view g = tableAt s.view g) := by
  generalize hobjAddr : first + offsetConst = objAddr
  -- the write of one entry, if a class is left in it
  have hentry : ∀ entry ∈ (tracedElements M files .placementNew (.struct a)).toList,
      Logs mmap rodata
        (emitEntry M inlineOpt place .conObjAdd ⟨.placementNew, objAddr, 0, 1, false⟩ 0 entry)
        (if entry.2.card = 0 then [] else [placed M place objAddr 0 0 entry]) := by
    intro entry hentry
    have hsmall := tracedElements_small (mem_toList.mp hentry)
    by_cases hcard : entry.2.card = 0
    · rw [emitEntry, if_pos hcard, if_pos hcard]
      exact Logs.nil
    · rw [if_neg hcard]
      refine logs_conObjAdd rodata M inlineOpt place fresh AllocType.noConfusion Nat.one_pos
        ⟨hcard, by omega, fun j hj => ?_⟩
      rw [Nat.zero_mul]
      omega
  obtain ⟨s', hrun, hlayout, htable⟩ := Logs.flatMap _ hentry s layout
  change tableAt s'.view = written (placementLog M files place a objAddr) (tableAt s.view) at htable
  refine ⟨s', ?_, hlayout, fun g => ⟨fun entry hfiles => ?_, fun hnone => ?_⟩⟩
  · rw [emitExtendObjTraceInst_eq M inlineOpt place (.inl rfl) hindex hstruct, hobjAddr]
    exact hrun
  · rw [htable]
    refine written_of_lastWrite _ (lastWrite_of_agree (mem_placementLog.mpr ⟨entry, hfiles, rfl⟩) ?_)
    intro write hwrite hkey
    obtain ⟨entry', hfiles', hvalue⟩ := mem_placementLog.mp hwrite
    rw [hvalue, hfiles.unique (hkey ▸ hfiles')]
  · rw [htable]
    apply written_of_untouched
    intro write hwrite hkey
    obtain ⟨entry, hfiles, -⟩ := mem_placementLog.mp hwrite
    exact hnone entry (hkey ▸ hfiles)

/-- What is written is what the runtime finds. -/
theorem described_of_filesGranule (hplace : ∀ name, place name ≠ 0) {objAddr : Word} {s : Shadow}
    {entry : ℕ × Finset ℕ} {o b c : ℕ}
    (hfiles : FilesGranule M files a objAddr entry (granule (objAddr + BitVec.ofNat 64 o)))
    (htable : tableAt s.view (granule (objAddr + BitVec.ofNat 64 o)) = entryTable M place entry)
    (hb : b ∈ entry.2) (hcontains : M.Contains (.struct a) o b)
    (hzero : c ∈ M.getOffetZeroStruct b ∅) : Described M files place a objAddr s o c := by
  refine ⟨entry, hfiles, ?_, b, hb, hcontains, hzero⟩
  rw [lookup_eq_view]
  exact seen_of_tableAt htable (hplace _)

/-- At a multiple of eight the outermost class at an offset is filed where it is looked up, if
it has eight bytes. -/
theorem exists_filesGranule (hlaid : M.WellLaid (.struct a))
    (hsize : (M.struct a).allocSize < 2 ^ 32) {objAddr : Word} (haligned : objAddr.toNat % 8 = 0)
    {o b : ℕ} (houter : M.Outermost files (.struct a) o b) (hlarge : 8 ≤ (M.struct b).allocSize) :
    ∃ entry, FilesGranule M files a objAddr entry (granule (objAddr + BitVec.ofNat 64 o)) ∧
      b ∈ entry.2 := by
  obtain ⟨types, htypes, hb⟩ := (TypeTable.mem_elementsOf hlaid hsize (o / 8) b).mpr ⟨o, rfl, houter⟩
  have hleft : b ∈ types.filter fun b => 8 ≤ (M.struct b).allocSize :=
    Finset.mem_filter.mpr ⟨hb, hlarge⟩
  refine ⟨(o / 8, types.filter fun b => 8 ≤ (M.struct b).allocSize), ⟨?_, ?_, ?_⟩, hleft⟩
  · unfold tracedElements
    rw [if_pos (.inl rfl), Std.TreeMap.getElem?_map, htypes]
    rfl
  · exact Finset.card_ne_zero_of_mem hleft
  · have hlt := TypeTable.contains_lt houter.visible.contains houter.recorded.1 hlaid
    have hless : o < 2 ^ 32 := hlt.trans hsize
    rw [granule_add_eq_iff objAddr (by omega) hless, haligned]
    omega

variable (rodata M files inlineOpt place first offsetConst) in
/-- **A placement new records its class where classes of eight bytes or more start**, and
leaves all other granules as they were. -/
theorem placementNew_replaces (fresh : FreshMmap mmap) (hplace : ∀ name, place name ≠ 0)
    (hindex : bitypeClassIndexSet[classIndex]? = some className)
    (hstruct : (classStructSet M files)[className]? = some a) {s : Shadow}
    (layout : Layout mmap s) :
    ∃ s', (program mmap rodata).run
        (emitExtendObjTraceInst M files inlineOpt place bitypeClassIndexSet .placementNew first
          classIndex offsetConst) s = some s' ∧
      (∀ o c, M.Contains (.struct a) o c → M.IsRecorded files c →
        (∃ entry, FilesGranule M files a (first + offsetConst) entry
            (granule (first + offsetConst + BitVec.ofNat 64 o)) ∧
          ∃ b ∈ entry.2, M.Contains (.struct a) o b ∧ c ∈ M.getOffetZeroStruct b ∅) →
        Described M files place a (first + offsetConst) s' o c) ∧
      ((∀ o b, M.Contains (.struct a) o b → M.HasStructLayout b ∧
          M.isInterestingStructType b = true ∧
          (M.isTracked b = true → 0 < (M.struct b).allocSize)) →
        (M.struct a).allocSize < 2 ^ 32 → (first + offsetConst).toNat % 8 = 0 →
        ∀ o c, M.Contains (.struct a) o c → M.IsRecorded files c →
          (∀ b, M.Outermost files (.struct a) o b → 8 ≤ (M.struct b).allocSize) →
          Described M files place a (first + offsetConst) s' o c) ∧
      ∀ g, (∃ entry, FilesGranule M files a (first + offsetConst) entry g ∧
          tableAt s'.view g = entryTable M place entry) ∨
        (∀ entry, ¬ FilesGranule M files a (first + offsetConst) entry g) ∧
          tableAt s'.view g = tableAt s.view g := by
  obtain ⟨s', hrun, -, hwrites⟩ :=
    placementNew_writes rodata inlineOpt place first offsetConst fresh hindex hstruct layout
  refine ⟨s', hrun, fun o c _ _ hfiled => ?_, ?_, fun g => ?_⟩
  · obtain ⟨entry, hfiles, b, hb, hcontains, hzero⟩ := hfiled
    exact described_of_filesGranule hplace hfiles ((hwrites _).1 entry hfiles) hb hcontains hzero
  · intro hinside hsize haligned o c hc hrecorded hlarge
    have hlaid : M.WellLaid (.struct a) := fun o b hb =>
      ⟨TypeTable.ordered_of_structLayout (hinside o b hb).1, (hinside o b hb).2.2⟩
    have hvisible := TypeTable.visible_of_contains hc fun o b hb => (hinside o b hb).2.1
    obtain ⟨b, houter⟩ := TypeTable.exists_outermost hlaid hsize hvisible hrecorded
    obtain ⟨entry, hfiles, hb⟩ := exists_filesGranule hlaid hsize haligned houter (hlarge b houter)
    exact described_of_filesGranule hplace hfiles ((hwrites _).1 entry hfiles) hb
      houter.visible.contains
      (TypeTable.mem_getOffetZeroStruct.mpr (.inr (houter.holds c hvisible hrecorded)))
  · by_cases hfiled : ∃ entry, FilesGranule M files a (first + offsetConst) entry g
    · obtain ⟨entry, hfiles⟩ := hfiled
      exact .inl ⟨entry, hfiles, (hwrites g).1 entry hfiles⟩
    · have hnone := not_exists.mp hfiled
      exact .inr ⟨hnone, (hwrites g).2 hnone⟩

end Placement

/-! ## An old trace that stays -/

/-- Storage in which an object has been traced, and a placement new of a class in it. -/
structure PlacedOver (mmap : ℕ → ℕ) (rodata : Word → Byte) (M : Module) (files : ClassFiles)
    (inlineOpt : Bool) (place : Name → Word) (old : IRType) (storage : Word) (a : ℕ)
    (objAddr : Word) (s' : Shadow) : Prop where
  runs : ∃ (s₀ s : Shadow) (bitypeClassIndexSet : Std.TreeMap ℕ Name) (classIndex : ℕ)
    (className : Name), Layout mmap s₀ ∧
      (program mmap rodata).run
        (traceObject M files inlineOpt place .stackAlloc true storage old) s₀ = some s ∧
      bitypeClassIndexSet[classIndex]? = some className ∧
      (classStructSet M files)[className]? = some a ∧
      (program mmap rodata).run
        (emitExtendObjTraceInst M files inlineOpt place bitypeClassIndexSet .placementNew objAddr
          classIndex 0) s = some s'
  inside : storage.toNat ≤ objAddr.toNat ∧
    objAddr.toNat + (M.struct a).allocSize ≤ storage.toNat + M.getTypeAllocSize old

/-- The table of class indices with one class. -/
def oneClass (className : Name) : Std.TreeMap ℕ Name := (∅ : Std.TreeMap ℕ Name).insert 0 className

theorem oneClass_zero (className : Name) : (oneClass className)[0]? = some className := by
  rw [oneClass, Std.TreeMap.getElem?_insert_self]

theorem wideModule_class :
    (classStructSet wideModule wideFiles)[(['D'] : Name)]? = some 1 := by decide +kernel

theorem wideModule_left :
    (tracedElements wideModule wideFiles .placementNew (.struct 1)).toList = [(0, {1}), (4, {2})] := by
  decide +kernel

theorem wideModule_array :
    (1, {2}) ∈ (wideModule.elementsOf wideFiles (.array 5 (.struct 2))).toList := by decide +kernel

/-- A `D` at 4096. -/
theorem placementNew_replaces_sample : ∃ s', (program spacedMmap fun _ => 0).run
    (emitExtendObjTraceInst wideModule wideFiles true (fun _ => 4096) (oneClass ['D']) .placementNew
      4096 0 0) (bitypeInitialization spacedMmap fun _ => 0) = some s' ∧
      Described wideModule wideFiles (fun _ => 4096) 1 4096 s' 0 1 := by
  obtain ⟨s', hrun, hdescribed, -⟩ := placementNew_replaces (fun _ => 0) wideModule wideFiles true
    (fun _ => 4096) 4096 0 spacedMmap_fresh (fun _ => by decide) (oneClass_zero _) wideModule_class
    (layout_init fun _ => 0)
  have hentry : (0, {1}) ∈
      (tracedElements wideModule wideFiles .placementNew (.struct 1)).toList := by
    rw [wideModule_left]
    exact List.mem_cons_self
  exact ⟨s', hrun, hdescribed 0 1 (.self 1) (by decide +kernel)
    ⟨_, ⟨mem_toList.mp hentry, by decide, rfl⟩, 1, Finset.mem_singleton_self 1, .self 1,
      by decide +kernel⟩⟩

/-- A `D` in place of five `B`: no class of `D` starts in the second granule, which keeps its
reference to `B`. -/
theorem placed_over_array : ∃ s', PlacedOver spacedMmap (fun _ => 0) wideModule wideFiles true
    (fun _ => 4096) (.array 5 (.struct 2)) 4096 1 4096 s' ∧
      (tableAt s'.view 513).1 = 4096 ∧
      ∀ entry, ¬ FilesGranule wideModule wideFiles 1 4096 entry 513 := by
  obtain ⟨log, hlogs, hmem⟩ := traceObject_logs (fun _ => 0) wideModule wideFiles true
    (fun _ => 4096) spacedMmap_fresh (.inl rfl) true 4096 (.array 5 (.struct 2))
  obtain ⟨s, hrun, layout, htable⟩ := hlogs _ (layout_init fun _ => 0)
  obtain ⟨s', hrun', -, hwrites⟩ := placementNew_writes (fun _ => 0) true (fun _ => 4096) 4096 0
    spacedMmap_fresh (oneClass_zero _) wideModule_class layout
  have hnone : ∀ entry, ¬ FilesGranule wideModule wideFiles 1 4096 entry 513 := by
    rintro entry ⟨htypes, -, hgranule⟩
    have hentry := mem_toList.mpr htypes
    rw [wideModule_left, List.mem_cons, List.mem_singleton] at hentry
    rcases hentry with rfl | rfl
    · exact absurd hgranule (by decide)
    · exact absurd hgranule (by decide)
  refine ⟨s', ⟨⟨_, s, oneClass ['D'], 0, ['D'], layout_init fun _ => 0, hrun, oneClass_zero _,
    wideModule_class, hrun'⟩, by decide⟩, ?_, hnone⟩
  have hlast := (agreeing_one wideModule wideFiles (.array 5 (.struct 2)) 4096).lastWrite hmem
    wideModule_array Nat.one_pos
  have hold : tableAt s.view 513 = entryTable wideModule (fun _ => 4096) (1, {2}) := by
    rw [htable]
    exact written_of_lastWrite _ hlast
  rw [(hwrites 513).2 hnone, hold]
  rfl

/-- A class of four bytes in place of another one: nothing is recorded. -/
theorem placed_small : ∃ s', PlacedOver spacedMmap (fun _ => 0) pocketModule twoFamiliesFiles true
    (fun _ => 4096) (.struct 3) 4096 2 4096 s' ∧
      ∀ entry g, ¬ FilesGranule pocketModule twoFamiliesFiles 2 4096 entry g := by
  have hclass : (classStructSet pocketModule twoFamiliesFiles)[(['Y'] : Name)]? = some 2 := by
    decide +kernel
  have hleft : ∀ entry ∈ (tracedElements pocketModule twoFamiliesFiles .placementNew
      (.struct 2)).toList, entry.2.card = 0 := by decide +kernel
  obtain ⟨log, hlogs, -⟩ := traceObject_logs (fun _ => 0) pocketModule twoFamiliesFiles true
    (fun _ => 4096) spacedMmap_fresh (.inl rfl) true 4096 (.struct 3)
  obtain ⟨s, hrun, layout, -⟩ := hlogs _ (layout_init fun _ => 0)
  obtain ⟨s', hrun', -⟩ := placementNew_writes (fun _ => 0) true (fun _ => 4096) 4096 0
    spacedMmap_fresh (oneClass_zero _) hclass layout
  refine ⟨s', ⟨⟨_, s, oneClass ['Y'], 0, ['Y'], layout_init fun _ => 0, hrun, oneClass_zero _, hclass,
    hrun'⟩, by decide⟩, ?_⟩
  rintro entry g ⟨htypes, hcard, -⟩
  exact hcard (hleft entry (mem_toList.mpr htypes))

/-- The old trace stays in a granule of the new object, and a small class is not recorded. -/
theorem old_type_stays :
    (¬ ∀ (mmap : ℕ → ℕ) (rodata : Word → Byte) (M : Module) (files : ClassFiles) (inlineOpt : Bool)
        (place : Name → Word) (old : IRType) (storage : Word) (a : ℕ) (objAddr : Word)
        (s' : Shadow), FreshMmap mmap → (∀ name, place name ≠ 0) →
        PlacedOver mmap rodata M files inlineOpt place old storage a objAddr s' →
        NoneLeft M files place a objAddr s') ∧
      ¬ ∀ (mmap : ℕ → ℕ) (rodata : Word → Byte) (M : Module) (files : ClassFiles) (inlineOpt : Bool)
        (place : Name → Word) (old : IRType) (storage : Word) (a : ℕ) (objAddr : Word)
        (s' : Shadow), FreshMmap mmap → (∀ name, place name ≠ 0) →
        PlacedOver mmap rodata M files inlineOpt place old storage a objAddr s' →
        AllDescribed M files place a objAddr s' := by
  constructor
  · intro h
    obtain ⟨s', hplaced, hheld, hnone⟩ := placed_over_array
    rcases h _ _ _ _ _ _ _ _ _ _ s' spacedMmap_fresh (fun _ => by decide) hplaced 8 (by decide)
      with hzero | ⟨entry, hfiles, -⟩
    · exact absurd (hheld.symm.trans hzero) (by decide)
    · exact hnone entry hfiles
  · intro h
    obtain ⟨s', hplaced, hnone⟩ := placed_small
    obtain ⟨entry, hfiles, -⟩ := h _ _ _ _ _ _ _ _ _ _ s' spacedMmap_fresh (fun _ => by decide)
      hplaced 0 2 (.self 2) (by decide +kernel)
    exact hnone entry _ hfiles

end Bitype.Pass
