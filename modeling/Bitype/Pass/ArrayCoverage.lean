import Bitype.Pass.Coverage

/-!
# Which arrays an update covers

For an array the pass rounds the offset inside an element down to a granule and then adds
multiples of the element size.  If the size is no multiple of eight this is not the granule
of the element's class, and two elements may share a granule: the sequence with a call for
each granule of each element leaves there what it wrote for the last element, the one with a
call for each granule of all elements what it wrote for the last granule.

So the two leave the same, and that covers every class, exactly if no granule is written for
two different entries (`Separate`) and every class is met (`arrays_covered_iff`).  That is so
for elements whose size is a multiple of eight (`separate_of_dvd`, `met_of_dvd`).
-/

namespace Bitype.Pass

open Bitype.Foundations Bitype.Runtime Bitype.Tool

namespace TypeTable

variable (T : TypeTable) (files : ClassFiles)

/-- What is written to one granule for `n` elements of a type comes from one granule of the
type. -/
def Separate (type : IRType) (n : ℕ) : Prop :=
  ∀ o a o' a', T.Outermost files type o a → T.Outermost files type o' a' →
    ∀ j < n, ∀ j' < n, o / 8 + T.getTypeAllocSize type * j / 8 =
      o' / 8 + T.getTypeAllocSize type * j' / 8 → o / 8 = o' / 8

variable {T} {files}

theorem WellLaid.array {type : IRType} (h : T.WellLaid type) (n : ℕ) :
    T.WellLaid (.array n type) := by
  intro o b hb
  cases hb with
  | item _ hb => exact h _ b hb

end TypeTable

/-- The site of an array, for `insertUpdate`. -/
def arraySite (M : Module) (allocType : AllocType) (isConstant : Bool) (objAddr : Word)
    (type : IRType) (arraySize : Word) : Site where
  allocType := allocType
  objAddr := objAddr
  typeSize := uint32 (M.getTypeAllocSize type)
  arraySize := arraySize
  isConstant := isConstant

section Arrays

variable {mmap : ℕ → ℕ} {rodata : Word → Byte} {M : Module} {files : ClassFiles}
  {inlineOpt : Bool} {place : Name → Word} {type : IRType} {objAddr : Word} {n : ℕ}

/-! ## The two sequences -/

/-- No element, no write. -/
theorem conLog_zero (typeSize : ℕ) (entries : List (ℕ × Finset ℕ)) :
    conLog M place objAddr typeSize 0 entries = [] := rfl

theorem vlaLog_zero (typeSize : ℕ) (entries : List (ℕ × Finset ℕ)) :
    vlaLog M place objAddr typeSize 0 entries = [] := by
  unfold vlaLog
  simp

variable (files) in
/-- The entries of an array whose bytes 32 bits can count. -/
theorem inReach_of_size (hlaid : M.WellLaid type) (hsize : n * M.getTypeAllocSize type < 2 ^ 32)
    (hpos : 0 < n) {site : Site} (hsite : site.typeSize = M.getTypeAllocSize type) :
    ∀ e ∈ (M.elementsOf files type).toList, InReach site n e := by
  intro e he
  obtain ⟨hsmall, hne⟩ := entries_of_elementsOf type e he
  have hlt := eight_mul_lt hlaid (size_lt_of_pos hpos hsize) (mem_toList.mp he)
  exact ⟨hne, by omega, fun j hj => hsite ▸ offset_lt hlt hj hsize⟩

variable (rodata files inlineOpt place) in
/-- **What the two sequences write.** -/
theorem arrays_log (fresh : FreshMmap mmap) (hlaid : M.WellLaid type) (site site' : Site)
    (hsize : site.arraySize.toNat * M.getTypeAllocSize type < 2 ^ 32)
    (hsite : site.typeSize = uint32 (M.getTypeAllocSize type))
    (hsite' : site'.typeSize = uint32 (M.getTypeAllocSize type))
    (hcount : site'.arraySize = site.arraySize) (haddr : site'.objAddr = site.objAddr)
    (hcon : (site.allocType = .stackAlloc ∨ site.allocType = .globalAlloc) ∧
      site.isConstant = true)
    (hvla : site'.allocType = .heapAlloc ∨ site'.allocType = .realloc ∨
      site'.allocType = .stackAlloc ∧ site'.isConstant = false) :
    Logs mmap rodata (insertUpdate M inlineOpt place site (M.elementsOf files type))
        (conLog M place site.objAddr (M.getTypeAllocSize type) site.arraySize.toNat
          (M.elementsOf files type).toList) ∧
      Logs mmap rodata (insertUpdate M inlineOpt place site' (M.elementsOf files type))
        (vlaLog M place site.objAddr (M.getTypeAllocSize type) site.arraySize.toNat
          (M.elementsOf files type).toList) := by
  have hkind : site.allocType ≠ .reinterpret := by
    rcases hcon.1 with hkind | hkind
    · simp [hkind]
    · simp [hkind]
  rw [insertUpdate_con hcon.1 hcon.2, insertUpdate_vla hvla]
  by_cases hempty : (M.elementsOf files type).toList = []
  · -- nothing to trace
    unfold emitInstForObjTrace conLog vlaLog
    simp only [hempty, List.flatMap_nil, List.map_nil, List.flatMap_eq_nil_iff.mpr, implies_true]
    exact ⟨Logs.nil, Logs.nil⟩
  rcases Nat.eq_zero_or_pos site.arraySize.toNat with hzero | hpos
  · have hcount32 : (site'.arraySize.setWidth 32).toNat = 0 := by
      rw [hcount, BitVec.toNat_setWidth, hzero]
    have hreach : ∀ e ∈ (M.elementsOf files type).toList,
        InReach site' (site'.arraySize.setWidth 32).toNat e := by
      intro e he
      obtain ⟨hsmall, hne⟩ := entries_of_elementsOf type e he
      rw [hcount32]
      exact ⟨hne, by omega, fun j hj => absurd hj (Nat.not_lt_zero j)⟩
    have hlog := logs_vlaLog rodata M inlineOpt place fresh hreach
    rw [hcount32, vlaLog_zero] at hlog
    rw [hzero, conLog_zero, vlaLog_zero]
    exact ⟨Logs.nil, hlog⟩
  · obtain ⟨e, he⟩ := List.exists_mem_of_ne_nil _ hempty
    have htype := size_lt_of_pos hpos hsize
    have hlt := eight_mul_lt hlaid htype (mem_toList.mp he)
    have hcount32 : (site'.arraySize.setWidth 32).toNat = site.arraySize.toNat := by
      have hle : site.arraySize.toNat ≤ site.arraySize.toNat * M.getTypeAllocSize type :=
        Nat.le_mul_of_pos_right _ (by omega)
      rw [hcount, BitVec.toNat_setWidth, Nat.mod_eq_of_lt (by omega)]
    rw [uint32, Nat.mod_eq_of_lt htype] at hsite hsite'
    have hlog := logs_conLog rodata M inlineOpt place fresh hkind site.arraySize.toNat
      (inReach_of_size files hlaid hsize hpos hsite)
    have hreach : ∀ e ∈ (M.elementsOf files type).toList,
        InReach site' (site'.arraySize.setWidth 32).toNat e := by
      rw [hcount32]
      exact inReach_of_size files hlaid hsize hpos hsite'
    have hlog' := logs_vlaLog rodata M inlineOpt place fresh hreach
    rw [hsite] at hlog
    rw [hsite', haddr, hcount32] at hlog'
    exact ⟨hlog, hlog'⟩

/-! ## Granules of two elements -/

variable (files) in
/-- The granules of an array, in terms of its layout. -/
theorem agreeing_iff_separate (hlaid : M.WellLaid type)
    (hsize : n * M.getTypeAllocSize type < 2 ^ 32) (haligned : objAddr.toNat % 8 = 0) :
    Agreeing M files type n objAddr ↔ M.Separate files type n := by
  -- two subobjects share a granule iff their distances from the array do
  have hgranule : ∀ k k' j j', 8 * k < M.getTypeAllocSize type →
      8 * k' < M.getTypeAllocSize type → j < n → j' < n →
      (objectGranule objAddr (M.getTypeAllocSize type) k j =
          objectGranule objAddr (M.getTypeAllocSize type) k' j' ↔
        k + M.getTypeAllocSize type * j / 8 = k' + M.getTypeAllocSize type * j' / 8) := by
    intro k k' j j' hk hk' hj hj'
    have hreach := offset_lt hk hj hsize
    have hreach' := offset_lt hk' hj' hsize
    rw [objectGranule, objectGranule, granule_add_eq_iff objAddr hreach hreach', haligned]
    omega
  constructor
  · intro h o a o' a' houter houter' j hj j' hj' hsame
    have htype := size_lt_of_pos (by omega) hsize
    obtain ⟨types, htypes, -⟩ :=
      (TypeTable.mem_elementsOf hlaid htype (o / 8) a).mpr ⟨o, rfl, houter⟩
    obtain ⟨types', htypes', -⟩ :=
      (TypeTable.mem_elementsOf hlaid htype (o' / 8) a').mpr ⟨o', rfl, houter'⟩
    refine h (o / 8, types) (mem_toList.mpr htypes) (o' / 8, types') (mem_toList.mpr htypes')
      j hj j' hj' ((hgranule _ _ _ _ ?_ ?_ hj hj').mpr hsame)
    · exact eight_mul_lt hlaid htype htypes
    · exact eight_mul_lt hlaid htype htypes'
  · intro h e he e' he' j hj j' hj' hsame
    have htype := size_lt_of_pos (by omega) hsize
    rw [mem_toList] at he he'
    obtain ⟨a, ha⟩ := (TypeTable.filed_elementsOf type he).2.1
    obtain ⟨a', ha'⟩ := (TypeTable.filed_elementsOf type he').2.1
    obtain ⟨o, hk, houter⟩ := (TypeTable.mem_elementsOf hlaid htype e.1 a).mp ⟨_, he, ha⟩
    obtain ⟨o', hk', houter'⟩ := (TypeTable.mem_elementsOf hlaid htype e'.1 a').mp ⟨_, he', ha'⟩
    have hsum := (hgranule _ _ _ _ (eight_mul_lt hlaid htype he) (eight_mul_lt hlaid htype he')
      hj hj').mp hsame
    rw [← hk, ← hk'] at hsum ⊢
    exact h o a o' a' houter houter' j hj j' hj' hsum

/-- The value of an entry tells the entry. -/
theorem entryTable_key {e e' : ℕ × Finset ℕ} (he : e.1 < 2 ^ 29) (he' : e'.1 < 2 ^ 29)
    (h : entryTable M place e = entryTable M place e') : e.1 = e'.1 := by
  have hoffset := congrArg BitVec.toNat (Prod.mk.inj h).2
  rw [BitVec.toNat_ofNat, BitVec.toNat_ofNat] at hoffset
  omega

/-- The last write of the sequence with a call for each granule of each element is one of
the last element to reach the granule. -/
theorem conLog_last {typeSize g : ℕ} {entries : List (ℕ × Finset ℕ)} {v : Word × U32}
    (h : lastWrite (conLog M place objAddr typeSize n entries) g = some v) :
    ∃ e ∈ entries, ∃ j < n, placed M place objAddr typeSize j e = (g, v) ∧
      ∀ e' ∈ entries, ∀ j' < n, objectGranule objAddr typeSize e'.1 j' = g → j' ≤ j := by
  obtain ⟨j, hj, hlast, hreached⟩ := lastWrite_flatMap _ List.pairwise_lt_range h
  obtain ⟨e, he, hplaced⟩ := List.mem_map.mp (mem_of_lastWrite hlast)
  refine ⟨e, he, j, List.mem_range.mp hj, hplaced, fun e' he' j' hj' hgranule => ?_⟩
  have hwritten := List.mem_map_of_mem (f := placed M place objAddr typeSize j') he'
  rcases hreached j' (List.mem_range.mpr hj') _ hwritten hgranule with rfl | hlt
  · exact le_rfl
  · exact hlt.le

/-- The last write of the other sequence is one of the last entry. -/
theorem vlaLog_last {typeSize g : ℕ} {entries : List (ℕ × Finset ℕ)} {v : Word × U32}
    (hsorted : entries.Pairwise fun e e' => e.1 < e'.1)
    (h : lastWrite (vlaLog M place objAddr typeSize n entries) g = some v) :
    ∃ e ∈ entries, ∃ j < n, placed M place objAddr typeSize j e = (g, v) ∧
      ∀ e' ∈ entries, ∀ j' < n, objectGranule objAddr typeSize e'.1 j' = g → e'.1 ≤ e.1 := by
  obtain ⟨e, he, hlast, hreached⟩ := lastWrite_flatMap _ hsorted h
  obtain ⟨j, hj, hplaced⟩ := List.mem_map.mp (mem_of_lastWrite hlast)
  refine ⟨e, he, j, List.mem_range.mp hj, hplaced, fun e' he' j' hj' hgranule => ?_⟩
  have hwritten : placed M place objAddr typeSize j' e' ∈
      (List.range n).map fun j => placed M place objAddr typeSize j e' :=
    List.mem_map.mpr ⟨j', List.mem_range.mpr hj', rfl⟩
  rcases hreached e' he' _ hwritten hgranule with rfl | hlt
  · exact le_rfl
  · exact hlt.le

theorem toList_sorted (elements : Std.TreeMap ℕ (Finset ℕ)) :
    elements.toList.Pairwise fun e e' => e.1 < e'.1 :=
  Std.TreeMap.ordered_keys_toList.imp fun hlt => compare_lt_iff_lt.mp hlt

/-- Of two entries that reach a granule, one that comes no later, for an element that comes
no later, is for the same granule of the element. -/
theorem key_eq_of_le {typeSize k k' j j' : ℕ} (haligned : objAddr.toNat % 8 = 0)
    (hfits : 8 * k + typeSize * j < 2 ^ 32) (hfits' : 8 * k' + typeSize * j' < 2 ^ 32)
    (hk : k ≤ k') (hj : j ≤ j')
    (h : objectGranule objAddr typeSize k j = objectGranule objAddr typeSize k' j') : k = k' := by
  have hmul : typeSize * j / 8 ≤ typeSize * j' / 8 :=
    Nat.div_le_div_right (Nat.mul_le_mul_left _ hj)
  rw [objectGranule, objectGranule, granule_add_eq_iff objAddr hfits hfits', haligned] at h
  omega

/-- **Two orders that leave the same.**  An entry that reaches a granule is the entry the
one order leaves there, and that is the entry the other leaves. -/
theorem agreeing_of_written_eq (hlaid : M.WellLaid type)
    (hsize : n * M.getTypeAllocSize type < 2 ^ 32) (haligned : objAddr.toNat % 8 = 0)
    {store : ℕ → Word × U32}
    (h : written (conLog M place objAddr (M.getTypeAllocSize type) n
        (M.elementsOf files type).toList) store =
      written (vlaLog M place objAddr (M.getTypeAllocSize type) n
        (M.elementsOf files type).toList) store) :
    Agreeing M files type n objAddr := by
  intro e he e' he' j hj j' hj' hsame
  have htype := size_lt_of_pos (by omega) hsize
  have hkey : ∀ e ∈ (M.elementsOf files type).toList, e.1 < 2 ^ 29 :=
    fun e he => (entries_of_elementsOf type e he).1
  have hfits : ∀ e ∈ (M.elementsOf files type).toList, ∀ l < n,
      8 * e.1 + M.getTypeAllocSize type * l < 2 ^ 32 :=
    fun e he l hl => offset_lt (eight_mul_lt hlaid htype (mem_toList.mp he)) hl hsize
  -- what the two orders leave in the granule that both entries reach
  obtain ⟨v, hv⟩ := exists_lastWrite (mem_conLog.mpr
    ⟨e, he, j, hj, (rfl : placed M place objAddr (M.getTypeAllocSize type) j e = _)⟩)
  obtain ⟨w, hw⟩ := exists_lastWrite (mem_vlaLog.mpr
    ⟨e, he, j, hj, (rfl : placed M place objAddr (M.getTypeAllocSize type) j e = _)⟩)
  have hvalue := congrFun h (placed M place objAddr (M.getTypeAllocSize type) j e).1
  rw [written_of_lastWrite _ hv, written_of_lastWrite _ hw] at hvalue
  obtain ⟨a, ha, i, hi, hplaced, hlast⟩ := conLog_last hv
  obtain ⟨b, hb, i', hi', hplaced', hlast'⟩ := vlaLog_last (toList_sorted _) hw
  obtain ⟨hgranule, htable⟩ := Prod.mk.inj hplaced
  obtain ⟨-, htable'⟩ := Prod.mk.inj hplaced'
  have hab : a.1 = b.1 :=
    entryTable_key (hkey a ha) (hkey b hb) (htable.trans (hvalue.trans htable'.symm))
  -- an entry that reaches the granule comes no later than `b` and no earlier than `a`
  have hbetween : ∀ c ∈ (M.elementsOf files type).toList, ∀ l < n,
      objectGranule objAddr (M.getTypeAllocSize type) c.1 l =
        objectGranule objAddr (M.getTypeAllocSize type) e.1 j → c.1 = a.1 := by
    intro c hc l hl hreach
    have hle : c.1 ≤ a.1 := hab ▸ hlast' c hc l hl hreach
    exact key_eq_of_le haligned (hfits c hc l hl) (hfits a ha i hi) hle (hlast c hc l hl hreach)
      (hreach.trans hgranule.symm)
  exact (hbetween e he j hj rfl).trans (hbetween e' he' j' hj' hsame.symm).symm

/-- Orders whose writes agree leave the same. -/
theorem written_eq_of_agreeing (hagree : Agreeing M files type n objAddr)
    (store : ℕ → Word × U32) :
    written (conLog M place objAddr (M.getTypeAllocSize type) n (M.elementsOf files type).toList)
        store =
      written (vlaLog M place objAddr (M.getTypeAllocSize type) n
        (M.elementsOf files type).toList) store := by
  funext g
  by_cases hreach : ∃ e ∈ (M.elementsOf files type).toList, ∃ j < n,
      objectGranule objAddr (M.getTypeAllocSize type) e.1 j = g
  · obtain ⟨e, he, j, hj, rfl⟩ := hreach
    rw [written_of_lastWrite _ (hagree.lastWrite (fun _ => mem_conLog) he hj),
      written_of_lastWrite _ (hagree.lastWrite (fun _ => mem_vlaLog) he hj)]
  · rw [written_of_untouched, written_of_untouched]
    · intro write hwrite hkey
      obtain ⟨e, he, j, hj, rfl⟩ := mem_vlaLog.mp hwrite
      exact hreach ⟨e, he, j, hj, hkey⟩
    · intro write hwrite hkey
      obtain ⟨e, he, j, hj, rfl⟩ := mem_conLog.mp hwrite
      exact hreach ⟨e, he, j, hj, hkey⟩

variable (files place) in
/-- **The two orders leave the same exactly if the writes agree.** -/
theorem logs_agree_iff (hlaid : M.WellLaid type)
    (hsize : n * M.getTypeAllocSize type < 2 ^ 32) (haligned : objAddr.toNat % 8 = 0)
    (store : ℕ → Word × U32) :
    written (conLog M place objAddr (M.getTypeAllocSize type) n (M.elementsOf files type).toList)
        store =
      written (vlaLog M place objAddr (M.getTypeAllocSize type) n
        (M.elementsOf files type).toList) store ↔
      Agreeing M files type n objAddr :=
  ⟨agreeing_of_written_eq hlaid hsize haligned, fun hagree => written_eq_of_agreeing hagree store⟩

/-! ## Elements of whole granules -/

theorem separate_of_dvd (hlaid : M.WellLaid type) (height : 8 ∣ M.getTypeAllocSize type) (n : ℕ) :
    M.Separate files type n := by
  intro o a o' a' houter houter' j _ j' _ hsame
  obtain ⟨m, hm⟩ := height
  have ho := TypeTable.contains_lt houter.visible.contains houter.recorded.1 hlaid
  have ho' := TypeTable.contains_lt houter'.visible.contains houter'.recorded.1 hlaid
  rw [hm] at hsame ho ho'
  rw [Nat.mul_assoc, Nat.mul_assoc, Nat.mul_div_cancel_left _ (by decide),
    Nat.mul_div_cancel_left _ (by decide)] at hsame
  rcases Nat.lt_trichotomy j j' with hless | rfl | hless
  · have hstep : m * (j + 1) ≤ m * j' := Nat.mul_le_mul_left m hless
    rw [Nat.mul_succ] at hstep
    omega
  · omega
  · have hstep : m * (j' + 1) ≤ m * j := Nat.mul_le_mul_left m hless
    rw [Nat.mul_succ] at hstep
    omega

theorem met_of_dvd (hlaid : M.WellLaid type) (hsize : n * M.getTypeAllocSize type < 2 ^ 32)
    (height : 8 ∣ M.getTypeAllocSize type)
    (hidentified : ∀ o b, M.Contains type o b → M.isInterestingStructType b = true) {o c : ℕ}
    (hc : M.Contains (.array n type) o c) (hrecorded : M.IsRecorded files c) :
    Met M files (.array n type) type n 0 o c := by
  cases hc with
  | @item _ i r _ _ hi hc =>
      have hvisible := TypeTable.visible_of_contains hc hidentified
      obtain ⟨a, houter⟩ :=
        TypeTable.exists_outermost hlaid (size_lt_of_pos (by omega) hsize) hvisible hrecorded
      have hcontains : M.Contains (.array n type) (i * M.getTypeAllocSize type + r) a :=
        .item hi houter.visible.contains
      refine ⟨i, r, a, hi, houter, ?_, hcontains, houter.holds c hvisible hrecorded⟩
      obtain ⟨m, hm⟩ := height
      rw [hm, Nat.zero_add, Nat.zero_add, Nat.mul_comm i, Nat.mul_assoc,
        Nat.mul_div_cancel_left _ (by decide)]
      omega

/-! ## Both sequences -/

variable (rodata files inlineOpt place) in
/-- **Which arrays are covered.**  Both sequences cover every class and leave the same
references and offsets exactly if the granules are separate and every class is met.  That is
so for identified elements whose size is a multiple of eight. -/
theorem arrays_covered_iff (fresh : FreshMmap mmap) (hplace : ∀ name, place name ≠ 0)
    (hlayout : ∀ o b, M.Contains type o b → M.HasStructLayout b)
    (hpositive : ∀ o b, M.Contains type o b → M.isTracked b = true → 0 < (M.struct b).allocSize)
    (arraySize : Word) (hsize : arraySize.toNat * M.getTypeAllocSize type < 2 ^ 32)
    (haligned : objAddr.toNat % 8 = 0) {allocType allocType' : AllocType} {isConstant : Bool}
    (hcon : allocType = .stackAlloc ∨ allocType = .globalAlloc)
    (hvla : allocType' = .heapAlloc ∨ allocType' = .realloc ∨
      allocType' = .stackAlloc ∧ isConstant = false) {s : Shadow} (layout : Layout mmap s) :
    ∃ s₁ s₂,
      (program mmap rodata).run (insertUpdate M inlineOpt place
        (arraySite M allocType true objAddr type arraySize) (M.elementsOf files type)) s = some s₁ ∧
      (program mmap rodata).run (insertUpdate M inlineOpt place
        (arraySite M allocType' isConstant objAddr type arraySize) (M.elementsOf files type)) s =
        some s₂ ∧
      let covered :=
        AllCovered M files place (.array arraySize.toNat type) type arraySize.toNat objAddr s₁ ∧
        AllCovered M files place (.array arraySize.toNat type) type arraySize.toNat objAddr s₂ ∧
        tableAt s₁.view = tableAt s₂.view
      (covered ↔ M.Separate files type arraySize.toNat ∧
        ∀ o c, M.Contains (.array arraySize.toNat type) o c → M.IsRecorded files c →
          Met M files (.array arraySize.toNat type) type arraySize.toNat 0 o c) ∧
      ((∀ o b, M.Contains type o b → M.isInterestingStructType b = true) →
        8 ∣ M.getTypeAllocSize type → covered) := by
  have hlaid : M.WellLaid type := fun o b hb =>
    ⟨TypeTable.ordered_of_structLayout (hlayout o b hb), hpositive o b hb⟩
  obtain ⟨hlogs, hlogs'⟩ := arrays_log rodata files inlineOpt place fresh hlaid
    (arraySite M allocType true objAddr type arraySize)
    (arraySite M allocType' isConstant objAddr type arraySize) hsize rfl rfl rfl rfl
    ⟨hcon, rfl⟩ hvla
  obtain ⟨s₁, hrun₁, -, htable₁⟩ := hlogs s layout
  obtain ⟨s₂, hrun₂, -, htable₂⟩ := hlogs' s layout
  refine ⟨s₁, s₂, hrun₁, hrun₂, ?_⟩
  have hseparate := agreeing_iff_separate files hlaid hsize haligned
  have hheld : ∀ o c, M.Contains (.array arraySize.toNat type) o c → M.IsRecorded files c →
      (Held M files (.array arraySize.toNat type) type arraySize.toNat objAddr o c ↔
        Met M files (.array arraySize.toNat type) type arraySize.toNat 0 o c) := by
    intro o c hc hrecorded
    rw [← haligned]
    exact held_iff_met hlaid (hlaid.array _) rfl hsize hc hrecorded
  have hsame := logs_agree_iff files place hlaid hsize haligned
    (tableAt s.view)
  have hcovered : (AllCovered M files place (.array arraySize.toNat type) type arraySize.toNat
        objAddr s₁ ∧
      AllCovered M files place (.array arraySize.toNat type) type arraySize.toNat objAddr s₂ ∧
      tableAt s₁.view = tableAt s₂.view) ↔ M.Separate files type arraySize.toNat ∧
        ∀ o c, M.Contains (.array arraySize.toNat type) o c → M.IsRecorded files c →
          Met M files (.array arraySize.toNat type) type arraySize.toNat 0 o c := by
    -- both tables are what the two logs leave
    rw [htable₁, htable₂]
    constructor
    · rintro ⟨hfirst, -, htables⟩
      refine ⟨hseparate.mp (hsame.mp htables), fun o c hc hrecorded => ?_⟩
      exact (hheld o c hc hrecorded).mp (hfirst o c hc hrecorded).held
    · rintro ⟨hapart, hmet⟩
      have hagree := hseparate.mpr hapart
      refine ⟨fun o c hc hrecorded => ?_, fun o c hc hrecorded => ?_, hsame.mpr hagree⟩
      · exact ((hheld o c hc hrecorded).mpr (hmet o c hc hrecorded)).covered hplace
          (fun _ => mem_conLog) hagree htable₁
      · exact ((hheld o c hc hrecorded).mpr (hmet o c hc hrecorded)).covered hplace
          (fun _ => mem_vlaLog) hagree htable₂
  -- multiples of eight keep elements apart, and every class is met
  refine ⟨hcovered, fun hidentified height => hcovered.mpr ⟨separate_of_dvd hlaid height _, ?_⟩⟩
  exact fun o c hc hrecorded => met_of_dvd hlaid hsize height hidentified hc hrecorded

end Arrays

/-! ## Two elements in one granule -/

theorem twelveModule_nodup : ([1, 2] : List ℕ).Nodup := by decide

/-- Class `D` of twelve bytes, with its base `B` at offset 8. -/
def twelveModule : Module where
  struct a :=
    if a = 1 then ⟨some "trackedtype.D".toList, false, false, [(0, .other 8), (8, .struct 2)], 12⟩
    else ⟨some "trackedtype.B".toList, false, false, [(0, .other 4)], 4⟩
  depth a := if a = 1 then 1 else 0
  contained := contained_of_cases 2 (by decide) fun a ha => by
    simp [show a ≠ 1 from ne_of_listed (by decide) ha]
  identified := [1, 2]
  nodup := twelveModule_nodup

/-- `D` and `B` are cast-related. -/
def twelveFiles : ClassFiles := initReadFiles ⟨[], [(['D'], 1), (['B'], 1)], []⟩

theorem twelveModule_elements :
    (twelveModule.elementsOf twelveFiles (.struct 1)).toList = [(0, {1}), (1, {2})] := by
  decide +kernel

theorem twelveModule_contains {o b : ℕ} (h : twelveModule.Contains (.struct 1) o b) :
    b = 1 ∨ b = 2 := by
  cases h with
  | self => exact .inl rfl
  | @element _ r _ e he hb =>
      have hmem : e ∈ [(0, IRType.other 8), (8, .struct 2)] := he
      simp only [List.mem_cons, List.not_mem_nil, or_false] at hmem
      rcases hmem with rfl | rfl
      · cases hb
      · cases hb with
        | self => exact .inr rfl
        | @element _ _ _ e he hb =>
            obtain rfl : e = (0, .other 4) := List.mem_singleton.mp he
            cases hb

theorem twelveModule_layout {o b : ℕ} (h : twelveModule.Contains (.struct 1) o b) :
    twelveModule.isInterestingStructType b = true ∧ twelveModule.HasStructLayout b ∧
      0 < (twelveModule.struct b).allocSize := by
  rcases twelveModule_contains h with rfl | rfl
  · exact ⟨by decide, ⟨[(4, .other 8), (4, .struct 2)], by decide, rfl⟩, by decide⟩
  · exact ⟨by decide, ⟨[(4, .other 4)], by decide, rfl⟩, by decide⟩

/-- Two `D` at address 4096. -/
theorem arrays_covered_iff_sample : ∃ s₁ s₂,
    (program spacedMmap fun _ => 0).run (insertUpdate twelveModule true (fun _ => 64)
        (arraySite twelveModule .stackAlloc true 4096 (.struct 1) 2)
        (twelveModule.elementsOf twelveFiles (.struct 1)))
      (bitypeInitialization spacedMmap fun _ => 0) = some s₁ ∧
    (program spacedMmap fun _ => 0).run (insertUpdate twelveModule true (fun _ => 64)
        (arraySite twelveModule .stackAlloc false 4096 (.struct 1) 2)
        (twelveModule.elementsOf twelveFiles (.struct 1)))
      (bitypeInitialization spacedMmap fun _ => 0) = some s₂ ∧
    (AllCovered twelveModule twelveFiles (fun _ => 64) (.array 2 (.struct 1)) (.struct 1) 2 4096 s₁ ∧
      AllCovered twelveModule twelveFiles (fun _ => 64) (.array 2 (.struct 1)) (.struct 1) 2 4096 s₂ ∧
      tableAt s₁.view = tableAt s₂.view ↔
      twelveModule.Separate twelveFiles (.struct 1) 2 ∧
        ∀ o c, twelveModule.Contains (.array 2 (.struct 1)) o c →
          twelveModule.IsRecorded twelveFiles c →
          Met twelveModule twelveFiles (.array 2 (.struct 1)) (.struct 1) 2 0 o c) := by
  obtain ⟨s₁, s₂, hrun₁, hrun₂, hcovered, -⟩ := arrays_covered_iff (fun _ => 0) twelveFiles true
    (fun _ => 64) spacedMmap_fresh (fun _ => by decide)
    (fun o b hb => (twelveModule_layout hb).2.1) (fun o b hb _ => (twelveModule_layout hb).2.2) 2
    (by decide)
    (show (4096 : Word).toNat % 8 = 0 by decide) (.inl rfl) (.inr (.inr ⟨rfl, rfl⟩))
    (layout_init fun _ => 0)
  exact ⟨s₁, s₂, hrun₁, hrun₂, hcovered⟩

/-- Two `D` at address 4096: the base of the first starts in the granule of the second. -/
theorem arrays_differ :
    ¬ ∀ (mmap : ℕ → ℕ) (rodata : Word → Byte) (M : Module) (files : ClassFiles)
      (inlineOpt : Bool) (place : Name → Word) (allocType allocType' : AllocType)
      (isConstant : Bool) (type : IRType) (objAddr arraySize : Word) (s s₁ s₂ : Shadow),
      FreshMmap mmap → Layout mmap s → (∀ name, place name ≠ 0) →
      (∀ o b, M.Contains type o b → M.HasStructLayout b) →
      (∀ o b, M.Contains type o b → M.isTracked b = true → 0 < (M.struct b).allocSize) →
      (∀ o b, M.Contains type o b → M.isInterestingStructType b = true) →
      arraySize.toNat * M.getTypeAllocSize type < 2 ^ 32 → objAddr.toNat % 8 = 0 →
      allocType = .stackAlloc ∨ allocType = .globalAlloc →
      (allocType' = .heapAlloc ∨ allocType' = .realloc ∨
        allocType' = .stackAlloc ∧ isConstant = false) →
      (program mmap rodata).run (insertUpdate M inlineOpt place
        (arraySite M allocType true objAddr type arraySize) (M.elementsOf files type)) s = some s₁ →
      (program mmap rodata).run (insertUpdate M inlineOpt place
        (arraySite M allocType' isConstant objAddr type arraySize) (M.elementsOf files type)) s =
        some s₂ →
      AllCovered M files place (.array arraySize.toNat type) type arraySize.toNat objAddr s₁ ∧
        AllCovered M files place (.array arraySize.toNat type) type arraySize.toNat objAddr s₂ ∧
        tableAt s₁.view = tableAt s₂.view := by
  intro hclaim
  have hinit : Layout spacedMmap (bitypeInitialization spacedMmap fun _ => 0) :=
    layout_init fun _ => 0
  have hlaid : twelveModule.WellLaid (.struct 1) := fun o b hb =>
    ⟨TypeTable.ordered_of_structLayout (twelveModule_layout hb).2.1,
      fun _ => (twelveModule_layout hb).2.2⟩
  have hsize : (2 : Word).toNat * twelveModule.getTypeAllocSize (.struct 1) < 2 ^ 32 := by decide
  obtain ⟨hlogs, hlogs'⟩ := arrays_log (fun _ => 0) twelveFiles true (fun _ => 64)
    spacedMmap_fresh hlaid (arraySite twelveModule .stackAlloc true 4096 (.struct 1) 2)
    (arraySite twelveModule .stackAlloc false 4096 (.struct 1) 2) hsize rfl rfl rfl rfl
    ⟨.inl rfl, rfl⟩ (.inr (.inr ⟨rfl, rfl⟩))
  obtain ⟨s₁, hrun₁, -, htable₁⟩ := hlogs _ hinit
  obtain ⟨s₂, hrun₂, -, htable₂⟩ := hlogs' _ hinit
  obtain ⟨-, -, hsame⟩ := hclaim spacedMmap (fun _ => 0) twelveModule twelveFiles true (fun _ => 64)
    .stackAlloc .stackAlloc false (.struct 1) 4096 2 _ s₁ s₂ spacedMmap_fresh hinit
    (fun _ => by decide) (fun o b hb => (twelveModule_layout hb).2.1)
    (fun o b hb _ => (twelveModule_layout hb).2.2) (fun o b hb => (twelveModule_layout hb).1) hsize
    (by decide) (.inl rfl) (.inr (.inr ⟨rfl, rfl⟩)) hrun₁ hrun₂
  rw [htable₁, htable₂] at hsame
  have hagree := (logs_agree_iff twelveFiles (fun _ => 64) hlaid hsize (by decide) _).mp hsame
  have hgranule := hagree (0, {1}) (by rw [twelveModule_elements]; decide) (1, {2})
    (by rw [twelveModule_elements]; decide) 1 (by decide) 0 (by decide) (by decide)
  cases hgranule

end Bitype.Pass
