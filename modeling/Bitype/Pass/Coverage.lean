import Bitype.Pass.Subobjects
import Bitype.Pass.TraceLog

/-!
# Which subobjects an update covers

The granule of a class is computed from its offset when the program is compiled, and the
entry is looked up from its address when it runs.  The two agree if the object starts at a
multiple of eight.  `BitypePass` sees to that if the class at the outermost level is
cast-related, but a class may lie in a struct that is not.  Then the object may start
inside a granule, and a class that starts behind the next multiple of eight is looked up one
granule later than the update filed it (`single_covered_iff`).
-/

namespace Bitype.Pass

open Bitype.Foundations Bitype.Runtime Bitype.Tool

/-! ## Addresses and granules -/

theorem granule_add (objAddr : Word) (o : ℕ) :
    granule (objAddr + BitVec.ofNat 64 o) =
      (objAddr.toNat / 8 + (objAddr.toNat % 8 + o) / 8) % (L1_BITS * L2_BITS) := by
  rw [granule, BitVec.toNat_add, BitVec.toNat_ofNat, L1_BITS, L2_BITS]
  omega

theorem granule_add_eq_iff (objAddr : Word) {o o' : ℕ} (ho : o < 2 ^ 32) (ho' : o' < 2 ^ 32) :
    granule (objAddr + BitVec.ofNat 64 o) = granule (objAddr + BitVec.ofNat 64 o') ↔
      (objAddr.toNat % 8 + o) / 8 = (objAddr.toNat % 8 + o') / 8 := by
  rw [granule_add, granule_add, L1_BITS, L2_BITS]
  omega

/-! ## Coverage -/

section Coverage

variable (M : Module) (files : ClassFiles) (place : Name → Word)

/-- At offset `o` of `n` objects of a type, which make up the `whole`, the runtime finds a
reference to a set of classes; one of them starts there and holds class `c`. -/
def Covered (whole type : IRType) (n : ℕ) (objAddr : Word) (s : Shadow) (o c : ℕ) : Prop :=
  ∃ k types j, j < n ∧ (M.elementsOf files type)[k]? = some types ∧
    objectGranule objAddr (M.getTypeAllocSize type) k j = granule (objAddr + BitVec.ofNat 64 o) ∧
    seen (s.lookup (objAddr + BitVec.ofNat 64 o)) =
      (some (place (M.setName types)), BitVec.ofNat 32 (8 * k)) ∧
    ∃ a ∈ types, M.Contains whole o a ∧ c ∈ M.getOffetZeroStruct a ∅

/-- Every recorded class of the objects is covered. -/
def AllCovered (whole type : IRType) (n : ℕ) (objAddr : Word) (s : Shadow) : Prop :=
  ∀ o c, M.Contains whole o c → M.IsRecorded files c →
    Covered M files place whole type n objAddr s o c

/-- In the granule of offset `o` some class is filed that starts there and holds `c`. -/
def Held (whole type : IRType) (n : ℕ) (objAddr : Word) (o c : ℕ) : Prop :=
  ∃ k types j, j < n ∧ (M.elementsOf files type)[k]? = some types ∧
    objectGranule objAddr (M.getTypeAllocSize type) k j = granule (objAddr + BitVec.ofNat 64 o) ∧
    ∃ a ∈ types, M.Contains whole o a ∧ c ∈ M.getOffetZeroStruct a ∅

/-- The same in terms of the layout, for objects that start `r` bytes behind a multiple of
eight. -/
def Met (whole type : IRType) (n r o c : ℕ) : Prop :=
  ∃ j o' a, j < n ∧ M.Outermost files type o' a ∧
    o' / 8 + (r + M.getTypeAllocSize type * j) / 8 = (r + o) / 8 ∧
    M.Contains whole o a ∧ M.AtOffsetZero a c

/-- Writes to one granule come from one entry. -/
def Agreeing (type : IRType) (n : ℕ) (objAddr : Word) : Prop :=
  ∀ e ∈ (M.elementsOf files type).toList, ∀ e' ∈ (M.elementsOf files type).toList,
    ∀ j < n, ∀ j' < n, objectGranule objAddr (M.getTypeAllocSize type) e.1 j =
      objectGranule objAddr (M.getTypeAllocSize type) e'.1 j' → e.1 = e'.1

variable {M files place} {whole type : IRType} {n : ℕ} {objAddr : Word} {s : Shadow}

theorem mem_toList {elements : Std.TreeMap ℕ (Finset ℕ)} {e : ℕ × Finset ℕ} :
    e ∈ elements.toList ↔ elements[e.1]? = some e.2 :=
  Std.TreeMap.mem_toList_iff_getElem?_eq_some

theorem Covered.held {o c : ℕ} (h : Covered M files place whole type n objAddr s o c) :
    Held M files whole type n objAddr o c := by
  obtain ⟨k, types, j, hj, htypes, hgranule, -, ha⟩ := h
  exact ⟨k, types, j, hj, htypes, hgranule, ha⟩

/-- Where the writes agree an entry is left in each of its granules. -/
theorem Agreeing.lastWrite (hagree : Agreeing M files type n objAddr) {log : TraceLog}
    (hmem : ∀ write, write ∈ log ↔ ∃ entry ∈ (M.elementsOf files type).toList, ∃ j < n,
      placed M place objAddr (M.getTypeAllocSize type) j entry = write)
    {e : ℕ × Finset ℕ} (he : e ∈ (M.elementsOf files type).toList) {j : ℕ} (hj : j < n) :
    lastWrite log (objectGranule objAddr (M.getTypeAllocSize type) e.1 j) =
      some (entryTable M place e) := by
  refine lastWrite_of_agree ((hmem _).mpr ⟨e, he, j, hj, rfl⟩) fun write hwrite hkey => ?_
  obtain ⟨e', he', j', hj', rfl⟩ := (hmem write).mp hwrite
  have hsame : e'.1 = e.1 := hagree e' he' e he j' hj' j hj hkey
  rw [mem_toList] at he he'
  rw [hsame, he] at he'
  exact congrArg (entryTable M place) (Prod.ext hsame (Option.some.inj he').symm)

/-- **What a log covers.**  A class that is filed for the granule it is looked up in is
covered, if no other entry writes there. -/
theorem Held.covered (hplace : ∀ name, place name ≠ 0) {log : TraceLog} {store : ℕ → Word × U32}
    (hmem : ∀ write, write ∈ log ↔ ∃ entry ∈ (M.elementsOf files type).toList, ∃ j < n,
      placed M place objAddr (M.getTypeAllocSize type) j entry = write)
    (hagree : Agreeing M files type n objAddr) (htable : tableAt s.view = written log store)
    {o c : ℕ} (h : Held M files whole type n objAddr o c) :
    Covered M files place whole type n objAddr s o c := by
  obtain ⟨k, types, j, hj, htypes, hgranule, ha⟩ := h
  refine ⟨k, types, j, hj, htypes, hgranule, ?_, ha⟩
  have hentry : (k, types) ∈ (M.elementsOf files type).toList := mem_toList.mpr htypes
  have hlast := hagree.lastWrite hmem hentry hj
  rw [hgranule] at hlast
  rw [lookup_eq_view]
  exact seen_of_tableAt ((congrFun htable _).trans (written_of_lastWrite _ hlast)) (hplace _)

/-! ## The layout -/

/-- A granule with classes lies in the object. -/
theorem eight_mul_lt (hlaid : M.WellLaid type) (hsize : M.getTypeAllocSize type < 2 ^ 32) {k : ℕ}
    {types : Finset ℕ} (h : (M.elementsOf files type)[k]? = some types) :
    8 * k < M.getTypeAllocSize type := by
  obtain ⟨a, ha⟩ := (TypeTable.filed_elementsOf type h).2.1
  obtain ⟨o, rfl, houter⟩ :=
    (TypeTable.mem_elementsOf hlaid hsize k a).mp ⟨types, h, ha⟩
  have hlt := TypeTable.contains_lt houter.visible.contains houter.recorded.1 hlaid
  omega

/-- All offsets in an array are small. -/
theorem offset_lt {typeSize k j : ℕ} (hk : 8 * k < typeSize) (hj : j < n)
    (hsize : n * typeSize < 2 ^ 32) : 8 * k + typeSize * j < 2 ^ 32 := by
  have hend : (j + 1) * typeSize ≤ n * typeSize := Nat.mul_le_mul_right _ hj
  rw [Nat.succ_mul, Nat.mul_comm] at hend
  omega

theorem size_lt_of_pos {typeSize : ℕ} (hpos : 0 < n) (hsize : n * typeSize < 2 ^ 32) :
    typeSize < 2 ^ 32 := (Nat.le_mul_of_pos_left _ hpos).trans_lt hsize

/-- Two granules of objects. -/
theorem objectGranule_eq_iff {typeSize k j o : ℕ} (hk : 8 * k + typeSize * j < 2 ^ 32)
    (ho : o < 2 ^ 32) :
    objectGranule objAddr typeSize k j = granule (objAddr + BitVec.ofNat 64 o) ↔
      k + (objAddr.toNat % 8 + typeSize * j) / 8 = (objAddr.toNat % 8 + o) / 8 := by
  rw [objectGranule, granule_add_eq_iff objAddr hk ho]
  omega

/-- **What is filed, by the layout.** -/
theorem held_iff_met (hlaid : M.WellLaid type) (hwhole : M.WellLaid whole)
    (hsame : M.getTypeAllocSize whole = n * M.getTypeAllocSize type)
    (hsize : n * M.getTypeAllocSize type < 2 ^ 32) {o c : ℕ} (hc : M.Contains whole o c)
    (hrecorded : M.IsRecorded files c) :
    Held M files whole type n objAddr o c ↔
      Met M files whole type n (objAddr.toNat % 8) o c := by
  have ho : o < 2 ^ 32 := by
    have hlt := TypeTable.contains_lt hc hrecorded.1 hwhole
    omega
  constructor
  · rintro ⟨k, types, j, hj, htypes, hgranule, a, ha, hcontains, hzero⟩
    have htype := size_lt_of_pos (by omega) hsize
    obtain ⟨o', rfl, houter⟩ := (TypeTable.mem_elementsOf hlaid htype k a).mp ⟨types, htypes, ha⟩
    have hreach := offset_lt (eight_mul_lt hlaid htype htypes) hj hsize
    refine ⟨j, o', a, hj, houter, (objectGranule_eq_iff hreach ho).mp hgranule, hcontains, ?_⟩
    exact (TypeTable.mem_getOffetZeroStruct.mp hzero).resolve_left (Finset.notMem_empty c)
  · rintro ⟨j, o', a, hj, houter, hgranule, hcontains, hzero⟩
    have htype := size_lt_of_pos (by omega) hsize
    obtain ⟨types, htypes, ha⟩ :=
      (TypeTable.mem_elementsOf hlaid htype (o' / 8) a).mpr ⟨o', rfl, houter⟩
    have hreach := offset_lt (eight_mul_lt hlaid htype htypes) hj hsize
    refine ⟨o' / 8, types, j, hj, htypes, (objectGranule_eq_iff hreach ho).mpr hgranule, a, ha,
      hcontains, TypeTable.mem_getOffetZeroStruct.mpr (.inr hzero)⟩

end Coverage

/-! ## One object -/

namespace TypeTable

variable (T : TypeTable) (files : ClassFiles)

/-- `isInCastRelatedSetType`. -/
def isInCastRelatedSetType (type : IRType) : Bool :=
  match type.core with
  | some a => T.isInCastRelatedSet files a
  | none => false

/-- The alignment `handleAllocaAdd` and `globalObjTracing` leave on an object. -/
def alignmentLeft (type : IRType) (alignment : ℕ) : ℕ :=
  if T.isInCastRelatedSetType files type = true ∧ alignment < 8 then 8 else alignment

/-- An address the object may have.  Alignment 0 stands for the one of the type. -/
def AllowedAt (type : IRType) (alignment typeAlignment : ℕ) (objAddr : Word) : Prop :=
  objAddr.toNat % (if T.alignmentLeft files type alignment = 0 then typeAlignment
    else T.alignmentLeft files type alignment) = 0

instance (type : IRType) (alignment typeAlignment : ℕ) (objAddr : Word) :
    Decidable (T.AllowedAt files type alignment typeAlignment objAddr) :=
  inferInstanceAs (Decidable (_ = _))

/-- The granules of an object that starts `r` bytes behind a multiple of eight hold its
classes: no class is looked up in the next granule, unless that one has it too. -/
def NoCarry (type : IRType) (r : ℕ) : Prop :=
  ∀ o a, T.Outermost files type o a →
    r + o % 8 < 8 ∨ ∃ o', T.Outermost files type o' a ∧ o' / 8 = o / 8 + 1

variable {T} {files}

theorem eight_dvd_of_allowedAt {type : IRType} {alignment typeAlignment : ℕ} {objAddr : Word}
    (hrelated : T.isInCastRelatedSetType files type = true)
    (hpower : alignment = 0 ∨ ∃ e, alignment = 2 ^ e)
    (h : T.AllowedAt files type alignment typeAlignment objAddr) : objAddr.toNat % 8 = 0 := by
  have height : 8 ∣ T.alignmentLeft files type alignment := by
    unfold alignmentLeft
    split
    · exact dvd_rfl
    · next hlarge =>
        rcases hpower with rfl | ⟨e, rfl⟩
        · exact absurd ⟨hrelated, by decide⟩ hlarge
        · have hle : 2 ^ 3 ≤ 2 ^ e := not_lt.mp fun hlt => hlarge ⟨hrelated, hlt⟩
          exact Nat.pow_dvd_pow 2 ((Nat.pow_le_pow_iff_right (by decide)).mp hle)
  have hne : T.alignmentLeft files type alignment ≠ 0 := by
    unfold alignmentLeft at *
    split
    · decide
    · next hlarge =>
        rintro rfl
        exact hlarge ⟨hrelated, by decide⟩
  rw [AllowedAt, if_neg hne] at h
  exact Nat.mod_eq_zero_of_dvd (height.trans (Nat.dvd_of_mod_eq_zero h))

end TypeTable

section Single

variable {mmap : ℕ → ℕ} {rodata : Word → Byte} {M : Module} {files : ClassFiles}
  {inlineOpt : Bool} {place : Name → Word} {allocType : AllocType} {type : IRType} {objAddr : Word}

/-- The granules of one object are different. -/
theorem agreeing_one (M : Module) (files : ClassFiles) (type : IRType) (objAddr : Word) :
    Agreeing M files type 1 objAddr := by
  intro e he e' he' j hj j' hj' hsame
  obtain rfl := Nat.lt_one_iff.mp hj
  obtain rfl := Nat.lt_one_iff.mp hj'
  have hsmall := (TypeTable.filed_elementsOf type (mem_toList.mp he)).1
  have hsmall' := (TypeTable.filed_elementsOf type (mem_toList.mp he')).1
  rw [objectGranule, objectGranule, granule_add_eq_iff objAddr (by omega) (by omega)] at hsame
  omega

variable (rodata M files inlineOpt place) in
/-- What is written for one object. -/
theorem traceObject_logs (fresh : FreshMmap mmap)
    (hkind : allocType = .stackAlloc ∨ allocType = .globalAlloc) (isConstant : Bool)
    (objAddr : Word) (type : IRType) :
    ∃ log, Logs mmap rodata
        (traceObject M files inlineOpt place allocType isConstant objAddr type) log ∧
      ∀ write, write ∈ log ↔ ∃ entry ∈ (M.elementsOf files type).toList, ∃ j < 1,
        placed M place objAddr (M.getTypeAllocSize type) j entry = write := by
  have hnew : ¬(allocType = .placementNew ∨ allocType = .reinterpret) := by
    rcases hkind with rfl | rfl
    · decide
    · decide
  have helements : tracedElements M files allocType type = M.elementsOf files type := if_neg hnew
  have hentries : ∀ e ∈ (M.elementsOf files type).toList, e.1 < 2 ^ 29 ∧ e.2.card ≠ 0 :=
    entries_of_elementsOf type
  unfold traceObject
  rw [helements]
  generalize hsite : Site.mk allocType objAddr _ 1 isConstant = site
  have hone : site.arraySize = 1 := by rw [← hsite]
  have hreach : ∀ e ∈ (M.elementsOf files type).toList, InReach site 1 e := by
    intro e he
    obtain ⟨hsmall, hne⟩ := hentries e he
    refine ⟨hne, by omega, fun j hj => ?_⟩
    obtain rfl := Nat.lt_one_iff.mp hj
    omega
  -- where the only object is, its size does not matter
  have hplaced : ∀ write, (∃ entry ∈ (M.elementsOf files type).toList, ∃ j < 1,
      placed M place site.objAddr site.typeSize j entry = write) ↔
      ∃ entry ∈ (M.elementsOf files type).toList, ∃ j < 1,
        placed M place objAddr (M.getTypeAllocSize type) j entry = write := by
    intro write
    simp only [Nat.lt_one_iff, exists_eq_left, placed, objectGranule, Nat.mul_zero, ← hsite]
  obtain ⟨emitType, hemit⟩ := insertUpdate_one M inlineOpt place hone (M.elementsOf files type)
  rw [hemit]
  cases emitType with
  | conObjAdd =>
      have hsiteKind : site.allocType ≠ .reinterpret := by
        rw [← hsite]
        exact fun h => hnew (.inr h)
      have hlog := Logs.flatMap _ fun e he =>
        logs_conObjAdd rodata M inlineOpt place fresh hsiteKind Nat.one_pos (hreach e he)
      refine ⟨_, hlog, fun write => Iff.trans ?_ (hplaced write)⟩
      simp only [List.mem_flatMap, List.mem_singleton, Nat.lt_one_iff, exists_eq_left, eq_comm]
  | vlaObjAdd =>
      have hcount : (site.arraySize.setWidth 32).toNat = 1 := by
        rw [hone]
        rfl
      have hlog := Logs.flatMap _ fun e he =>
        logs_vlaObjAdd rodata M inlineOpt place fresh (hcount ▸ hreach e he)
      refine ⟨_, hlog, fun write => Iff.trans ?_ (hplaced write)⟩
      rw [hcount]
      exact mem_vlaLog

/-- Where all structs are identified, the outermost classes decide. -/
theorem met_iff_noCarry (hlaid : M.WellLaid type) (hsize : M.getTypeAllocSize type < 2 ^ 32)
    (hidentified : ∀ o b, M.Contains type o b → M.isInterestingStructType b = true) {r : ℕ}
    (hr : r < 8) :
    (∀ o c, M.Contains type o c → M.IsRecorded files c → Met M files type type 1 r o c) ↔
      M.NoCarry files type r := by
  constructor
  · intro h o a houter
    obtain ⟨j, o', a', hj, houter', hgranule, hcontains, hzero⟩ :=
      h o a houter.visible.contains houter.recorded
    obtain rfl := Nat.lt_one_iff.mp hj
    have hvisible := TypeTable.visible_of_contains hcontains hidentified
    obtain rfl : a = a' := (houter.holds a' hvisible houter'.recorded).antisymm hzero
    by_cases hcarry : r + o % 8 < 8
    · exact .inl hcarry
    · exact .inr ⟨o', houter', by omega⟩
  · intro h o c hc hrecorded
    have hvisible := TypeTable.visible_of_contains hc hidentified
    obtain ⟨a, houter⟩ := TypeTable.exists_outermost hlaid hsize hvisible hrecorded
    have hzero := houter.holds c hvisible hrecorded
    rcases h o a houter with hstay | ⟨o', houter', hnext⟩
    · exact ⟨0, o, a, Nat.one_pos, houter, by omega, houter.visible.contains, hzero⟩
    · by_cases hstay : r + o % 8 < 8
      · exact ⟨0, o, a, Nat.one_pos, houter, by omega, houter.visible.contains, hzero⟩
      · exact ⟨0, o', a, Nat.one_pos, houter', by omega, houter.visible.contains, hzero⟩

variable (rodata M files inlineOpt place) in
/-- **Which single stack and global objects are covered.**  Those for whose every class a
class that starts with it and holds it is filed; below 4 GiB, exactly those in which the
granules meet; and if all structs inside are identified, exactly those with no carry, which
are all those with a cast-related class at the outermost level. -/
theorem single_covered_iff (fresh : FreshMmap mmap) (hplace : ∀ name, place name ≠ 0)
    (hkind : allocType = .stackAlloc ∨ allocType = .globalAlloc) (isConstant : Bool)
    (hlayout : ∀ o b, M.Contains type o b → M.HasStructLayout b)
    (hpositive : ∀ o b, M.Contains type o b → M.isTracked b = true → 0 < (M.struct b).allocSize)
    {alignment typeAlignment : ℕ} (hpower : alignment = 0 ∨ ∃ e, alignment = 2 ^ e)
    (hallowed : M.AllowedAt files type alignment typeAlignment objAddr) {s : Shadow}
    (layout : Layout mmap s) :
    ∃ s', (program mmap rodata).run
        (traceObject M files inlineOpt place allocType isConstant objAddr type) s = some s' ∧
      (AllCovered M files place type type 1 objAddr s' ↔
        ∀ o c, M.Contains type o c → M.IsRecorded files c →
          Held M files type type 1 objAddr o c) ∧
      (M.getTypeAllocSize type < 2 ^ 32 →
        (AllCovered M files place type type 1 objAddr s' ↔
          ∀ o c, M.Contains type o c → M.IsRecorded files c →
            Met M files type type 1 (objAddr.toNat % 8) o c) ∧
        ((∀ o b, M.Contains type o b → M.isInterestingStructType b = true) →
          (AllCovered M files place type type 1 objAddr s' ↔
            M.NoCarry files type (objAddr.toNat % 8)) ∧
          (M.isInCastRelatedSetType files type = true →
            AllCovered M files place type type 1 objAddr s'))) := by
  have hlaid : M.WellLaid type := fun o b hb =>
    ⟨TypeTable.ordered_of_structLayout (hlayout o b hb), hpositive o b hb⟩
  obtain ⟨log, hlogs, hmem⟩ :=
    traceObject_logs rodata M files inlineOpt place fresh hkind isConstant objAddr type
  obtain ⟨s', hrun, -, htable⟩ := hlogs s layout
  have hheld : AllCovered M files place type type 1 objAddr s' ↔
      ∀ o c, M.Contains type o c → M.IsRecorded files c → Held M files type type 1 objAddr o c := by
    constructor
    · exact fun h o c hc hrecorded => (h o c hc hrecorded).held
    · exact fun h o c hc hrecorded => (h o c hc hrecorded).covered hplace hmem
        (agreeing_one M files type objAddr) htable
  refine ⟨s', hrun, hheld, fun hsize => ?_⟩
  have hmet : AllCovered M files place type type 1 objAddr s' ↔
      ∀ o c, M.Contains type o c → M.IsRecorded files c →
        Met M files type type 1 (objAddr.toNat % 8) o c := by
    refine hheld.trans (forall₄_congr fun o c hc hrecorded => ?_)
    exact held_iff_met hlaid hlaid (Nat.one_mul _).symm (by rwa [Nat.one_mul]) hc hrecorded
  refine ⟨hmet, fun hidentified => ?_⟩
  have hcarry := hmet.trans
    (met_iff_noCarry hlaid hsize hidentified (Nat.mod_lt _ (by decide)))
  refine ⟨hcarry, fun hrelated => hcarry.mpr fun o a _ => .inl ?_⟩
  rw [TypeTable.eight_dvd_of_allowedAt hrelated hpower hallowed]
  omega

end Single

/-! ## A class behind the next multiple of eight -/

theorem wrapperModule_elements :
    (wrapperModule.elementsOf wrapperFiles (.struct 1)).toList = [(0, {2})] := by decide +kernel

theorem wrapperModule_allowedAt : wrapperModule.AllowedAt wrapperFiles (.struct 1) 4 4 20 := by
  decide +kernel

/-- The struct at address 20. -/
theorem single_covered_iff_sample : ∃ s',
    (program spacedMmap fun _ => 0).run
        (traceObject wrapperModule wrapperFiles true (fun _ => 4096) .stackAlloc true 20
          (.struct 1)) (bitypeInitialization spacedMmap fun _ => 0) = some s' ∧
      (AllCovered wrapperModule wrapperFiles (fun _ => 4096) (.struct 1) (.struct 1) 1 20 s' ↔
        wrapperModule.NoCarry wrapperFiles (.struct 1) 4) := by
  have hlayout := fun o b (hb : wrapperModule.Contains (.struct 1) o b) =>
    wrapperModule_layout (wrapperModule_inside hb)
  obtain ⟨s', hrun, -, hsmall⟩ := single_covered_iff (fun _ => 0) wrapperModule wrapperFiles true
    (fun _ => 4096) spacedMmap_fresh (fun _ => by decide) (.inl rfl) true
    (fun o b hb => (hlayout o b hb).2.1) (fun o b hb _ => (hlayout o b hb).2.2)
    (.inr ⟨2, rfl⟩) wrapperModule_allowedAt (layout_init fun _ => 0)
  exact ⟨s', hrun, ((hsmall (by decide)).2 fun o b hb => (hlayout o b hb).1).1⟩

/-- The class in the struct at address 20 is looked up at address 24. -/
theorem wrapped_class_missed :
    ¬ ∀ (mmap : ℕ → ℕ) (rodata : Word → Byte) (M : Module) (files : ClassFiles)
      (inlineOpt : Bool) (place : Name → Word) (allocType : AllocType) (isConstant : Bool)
      (type : IRType) (alignment typeAlignment : ℕ) (objAddr : Word) (s s' : Shadow),
      FreshMmap mmap → Layout mmap s → (∀ name, place name ≠ 0) →
      allocType = .stackAlloc ∨ allocType = .globalAlloc →
      M.isInterestingType type = true → (∀ o b, M.Contains type o b → M.HasStructLayout b) →
      (∀ o b, M.Contains type o b → M.isTracked b = true → 0 < (M.struct b).allocSize) →
      (∀ o b, M.Contains type o b → M.isInterestingStructType b = true) →
      M.getTypeAllocSize type < 2 ^ 32 → (alignment = 0 ∨ ∃ e, alignment = 2 ^ e) →
      M.AllowedAt files type alignment typeAlignment objAddr →
      (program mmap rodata).run
        (traceObject M files inlineOpt place allocType isConstant objAddr type) s = some s' →
      AllCovered M files place type type 1 objAddr s' := by
  intro hclaim
  have hlayout := fun o b (hb : wrapperModule.Contains (.struct 1) o b) =>
    wrapperModule_layout (wrapperModule_inside hb)
  have hinit : Layout spacedMmap (bitypeInitialization spacedMmap fun _ => 0) :=
    layout_init fun _ => 0
  obtain ⟨log, hlogs, -⟩ := traceObject_logs (fun _ => 0) wrapperModule wrapperFiles true
    (fun _ => 4096) spacedMmap_fresh (.inl rfl) true 20 (.struct 1)
  obtain ⟨s', hrun, -⟩ := hlogs _ hinit
  have hcovered := hclaim spacedMmap (fun _ => 0) wrapperModule wrapperFiles true (fun _ => 4096)
    .stackAlloc true (.struct 1) 4 4 20 _ s' spacedMmap_fresh hinit (fun _ => by decide) (.inl rfl)
    (by decide) (fun o b hb => (hlayout o b hb).2.1) (fun o b hb _ => (hlayout o b hb).2.2)
    (fun o b hb => (hlayout o b hb).1) (by decide) (.inr ⟨2, rfl⟩) wrapperModule_allowedAt hrun
  have hinside : wrapperModule.Contains (.struct 1) 4 2 :=
    .element (e := (4, .struct 2)) wrapperModule_element (.self 2)
  obtain ⟨k, types, j, hj, htypes, hgranule, -⟩ :=
    (hcovered 4 2 hinside (by decide +kernel)).held
  obtain rfl := Nat.lt_one_iff.mp hj
  -- the only granule filed is the first one
  have hmem : (k, types) ∈ (wrapperModule.elementsOf wrapperFiles (.struct 1)).toList :=
    mem_toList.mpr htypes
  rw [wrapperModule_elements, List.mem_singleton] at hmem
  obtain rfl := (Prod.mk.inj hmem).1
  exact absurd hgranule (by decide)

end Bitype.Pass
