import Bitype.Runtime.Content
import Bitype.Runtime.Check

/-!
# What the element loops touch

`__bitype_updateObjTrace` and `__bitype_eraseObj` go over the elements of an array with a
32-bit counter, and add the 32-bit product `TypeSize * i` to a 64-bit address.

* A count of `2^32` or more, which only `__bitype_eraseObj` can be given, is never reached:
  the counter wraps and the loop goes on.
* An element that starts `2^32` bytes or more behind the base is looked for in front of where
  it is.  No harm is done if all such elements lie in granules that other elements start in;
  since the wrapped addresses then share the granule of the base, nothing else is touched
  either (`sameGranules_iff`).

`elementLoops_iff` puts the two together for every call whose elements lie in the 48-bit
address space.
-/

namespace Bitype.Runtime

open Foundations

/-! ## The elements, in unbounded arithmetic -/

/-- The granules of `base + TypeSize * i` for `0 <= i < count`. -/
def PlainGranule (thisPtr : Word) (typeSize : U32) (count g : ℕ) : Prop :=
  ∃ i < count, plainAddressing.element thisPtr typeSize i = g

instance (thisPtr : Word) (typeSize : U32) (count g : ℕ) :
    Decidable (PlainGranule thisPtr typeSize count g) :=
  inferInstanceAs (Decidable (∃ i < count, plainAddressing.element thisPtr typeSize i = g))

/-- Every element that starts `2^32` bytes or more behind the base shares its granule with
one that starts before. -/
def FarElementsShared (thisPtr : Word) (typeSize : U32) (count : ℕ) : Prop :=
  ∀ i < count, 2 ^ 32 ≤ typeSize.toNat * i → ∃ j < count, typeSize.toNat * j < 2 ^ 32 ∧
    plainAddressing.element thisPtr typeSize j = plainAddressing.element thisPtr typeSize i

/-! ## Touching exactly the elements -/

/-- `__bitype_updateObjTrace` returns from every state, having recorded the reference in
the granules of the elements and nowhere else. -/
def UpdateCovers (mmap : ℕ → ℕ) (thisPtr : Word) (typeSize arraySize : U32) : Prop :=
  ∀ (referenceAddr : Word) (offset : U32) (s : Shadow), Reachable mmap s →
    ∃ s', bitypeUpdateObjTrace mmap thisPtr referenceAddr typeSize arraySize offset s = some s' ∧
      ∀ g, s'.view.content g = if PlainGranule thisPtr typeSize arraySize.toNat g
        then ⟨referenceAddr, 0, offset⟩ else s.view.content g

/-- `__bitype_eraseObj` on an object that is not on the heap returns from every state, having
cleared the references in the granules of the elements and nothing else. -/
def EraseCovers (mmap : ℕ → ℕ) (thisPtr : Word) (typeSize : U32) (arraySize : Word) : Prop :=
  ∀ (objAddr : Word) (allocType : AllocType) (s : Shadow),
    ¬ (allocType = .heapAlloc ∨ allocType = .realloc) → Reachable mmap s →
    ∃ s', bitypeEraseObj thisPtr objAddr typeSize arraySize allocType s = some s' ∧
      ∀ g, s'.view.content g = if PlainGranule thisPtr typeSize arraySize.toNat g
        then { s.view.content g with reference := 0 } else s.view.content g

/-! ## Wrapped products -/

theorem machine_element {thisPtr : Word} {typeSize : U32} {count i : ℕ} (hcount : count ≤ 2 ^ 32)
    (hi : i < count) (hspace : thisPtr.toNat + typeSize.toNat * count < 2 ^ 48) :
    machineAddressing.element thisPtr typeSize i =
      (thisPtr.toNat + typeSize.toNat * i % 2 ^ 32) / 8 := by
  have hmul : (typeSize * BitVec.ofNat 32 i).toNat = typeSize.toNat * i % 2 ^ 32 := by
    rw [BitVec.toNat_mul, BitVec.toNat_ofNat, Nat.mod_eq_of_lt (hi.trans_le hcount)]
  have hle : typeSize.toNat * i % 2 ^ 32 ≤ typeSize.toNat * count :=
    (Nat.mod_le _ _).trans (Nat.mul_le_mul_left _ hi.le)
  -- the product wraps, the sum does not
  have haddr : (elementAddr thisPtr typeSize (BitVec.ofNat 32 i)).toNat =
      thisPtr.toNat + typeSize.toNat * i % 2 ^ 32 := by
    rw [elementAddr, BitVec.toNat_add, BitVec.toNat_setWidth, hmul]
    omega
  change granule _ = _
  rw [granule_of_mapped (by rw [haddr, Mapped]; omega), haddr]

/-- **When wrapping does no harm.**  The wrapped elements have the granules of the elements
exactly if every element beyond `2^32` shares a granule with one before. -/
theorem sameGranules_iff {base size count : ℕ} :
    (∀ g, (∃ i < count, (base + size * i % 2 ^ 32) / 8 = g) ↔
        ∃ i < count, (base + size * i) / 8 = g) ↔
      ∀ i < count, 2 ^ 32 ≤ size * i →
        ∃ j < count, size * j < 2 ^ 32 ∧ (base + size * j) / 8 = (base + size * i) / 8 := by
  constructor
  · intro hsame i hi hfar
    -- the last element has a granule that a wrapped address reaches
    have hlast : size * i ≤ size * (count - 1) := Nat.mul_le_mul_left _ (by omega)
    obtain ⟨k, -, hk⟩ := (hsame _).mpr ⟨count - 1, by omega, rfl⟩
    obtain ⟨j, hj, hreached⟩ := (hsame _).mpr ⟨i, hi, rfl⟩
    have hle : size * j ≤ size * (count - 1) := Nat.mul_le_mul_left _ (by omega)
    have hnear : size * j < 2 ^ 32 := by
      by_contra hwrapped
      omega
    refine ⟨j, hj, hnear, ?_⟩
    rw [← hreached, Nat.mod_eq_of_lt hnear]
  · intro hshared g
    constructor
    · rintro ⟨i, hi, rfl⟩
      rcases lt_or_ge (size * i) (2 ^ 32) with hnear | hfar
      · exact ⟨i, hi, by rw [Nat.mod_eq_of_lt hnear]⟩
      · -- the wrapped address is in the granule of the base
        obtain ⟨j, -, hless, hgranule⟩ := hshared i hi hfar
        refine ⟨0, by omega, ?_⟩
        rw [Nat.mul_zero]
        omega
    · rintro ⟨i, hi, rfl⟩
      rcases lt_or_ge (size * i) (2 ^ 32) with hnear | hfar
      · exact ⟨i, hi, by rw [Nat.mod_eq_of_lt hnear]⟩
      · obtain ⟨j, hj, hless, hgranule⟩ := hshared i hi hfar
        exact ⟨j, hj, by rw [Nat.mod_eq_of_lt hless, hgranule]⟩

theorem elementGranule_iff {thisPtr : Word} {typeSize : U32} {count : ℕ} (hcount : count ≤ 2 ^ 32)
    (hspace : thisPtr.toNat + typeSize.toNat * count < 2 ^ 48) :
    (∀ g, ElementGranule thisPtr typeSize count g ↔ PlainGranule thisPtr typeSize count g) ↔
      FarElementsShared thisPtr typeSize count := by
  have helement : ∀ g, ElementGranule thisPtr typeSize count g ↔
      ∃ i < count, (thisPtr.toNat + typeSize.toNat * i % 2 ^ 32) / 8 = g := by
    intro g
    apply exists_congr
    intro i
    apply and_congr_right
    intro hi
    rw [machine_element hcount hi hspace]
  simp only [helement]
  exact sameGranules_iff

/-! ## The two loops -/

section Loops

variable {mmap : ℕ → ℕ} {thisPtr : Word} {typeSize : U32}

theorem updateObjTrace_content (thisPtr : Word) (typeSize : U32) (fresh : FreshMmap mmap)
    (referenceAddr : Word) (arraySize offset : U32) {s : Shadow} (layout : Layout mmap s) :
    ∃ s', bitypeUpdateObjTrace mmap thisPtr referenceAddr typeSize arraySize offset s = some s' ∧
      ∀ g, s'.view.content g = if ElementGranule thisPtr typeSize arraySize.toNat g
        then ⟨referenceAddr, 0, offset⟩ else s.view.content g := by
  have hview := (step_spec layout fresh
    (.updateObjTrace thisPtr referenceAddr typeSize arraySize offset)).2
  obtain ⟨s', hs', hmap⟩ := Option.map_eq_some_iff.mp hview
  refine ⟨s', hs', fun g => ?_⟩
  rw [hmap]
  exact content_records thisPtr typeSize _ _ _ g

theorem eraseObj_content (thisPtr : Word) (typeSize : U32) (fresh : FreshMmap mmap)
    (objAddr : Word) {arraySize : Word}
    (hcount : arraySize.toNat < 2 ^ 32) {allocType : AllocType}
    (hkind : ¬ (allocType = .heapAlloc ∨ allocType = .realloc)) {s : Shadow}
    (layout : Layout mmap s) :
    ∃ s', bitypeEraseObj thisPtr objAddr typeSize arraySize allocType s = some s' ∧
      ∀ g, s'.view.content g = if ElementGranule thisPtr typeSize arraySize.toNat g
        then { s.view.content g with reference := 0 } else s.view.content g := by
  obtain ⟨s', hloop, -, hview⟩ := eraseLoop_spec layout fresh thisPtr typeSize hcount
  refine ⟨s', ?_, fun g => ?_⟩
  · rw [bitypeEraseObj, if_neg hkind]
    exact hloop
  · rw [hview, content_eraseElements]

/-- A state in which a granule has a reference. -/
theorem exists_referenced (fresh : FreshMmap mmap) {g : ℕ} (hg : g < L1_BITS * L2_BITS) :
    ∃ s, Reachable mmap s ∧ (s.view.content g).reference ≠ 0 := by
  let op : Op := .directUpdateObjTrace (BitVec.ofNat 64 (8 * g)) 1 0
  have layout : Layout mmap (bitypeInitialization mmap fun _ => 0) := layout_init _
  have hview := (step_spec layout fresh op).2
  obtain ⟨s, hs, hmap⟩ := Option.map_eq_some_iff.mp hview
  have hrun : (machine mmap).run [op] (bitypeInitialization mmap fun _ => 0) = some s := by
    rw [Machine.run_cons]
    change (op.step mmap _).bind _ = _
    rw [hs]
    rfl
  refine ⟨s, ⟨fun _ => 0, [op], hrun⟩, ?_⟩
  have hgranule : granule (BitVec.ofNat 64 (8 * g)) = g := by
    rw [granule, BitVec.toNat_ofNat]
    rw [L1_BITS, L2_BITS] at *
    omega
  have hcontent := content_record (bitypeInitialization mmap fun _ => 0).view
    (granule (BitVec.ofNat 64 (8 * g))) g (traced 1 0)
  rw [hgranule, if_pos rfl] at hcontent
  rw [hmap]
  change ((GranuleMap.record (granule (BitVec.ofNat 64 (8 * g))) _ _).content g).reference ≠ 0
  rw [hgranule, hcontent]
  change (1 : Word) ≠ 0
  decide

theorem granule_bound {count g : ℕ} (hspace : thisPtr.toNat + typeSize.toNat * count < 2 ^ 48)
    (h : ElementGranule thisPtr typeSize count g ∨ PlainGranule thisPtr typeSize count g) :
    g < L1_BITS * L2_BITS := by
  rcases h with ⟨i, -, rfl⟩ | ⟨i, hi, rfl⟩
  · exact granule_lt _
  · have hle : typeSize.toNat * i ≤ typeSize.toNat * count := Nat.mul_le_mul_left _ hi.le
    change (thisPtr.toNat + typeSize.toNat * i) / 8 < _
    rw [L1_BITS, L2_BITS]
    omega

theorem updateCovers_iff (fresh : FreshMmap mmap) {arraySize : U32}
    (hspace : thisPtr.toNat + typeSize.toNat * arraySize.toNat < 2 ^ 48) :
    UpdateCovers mmap thisPtr typeSize arraySize ↔
      FarElementsShared thisPtr typeSize arraySize.toNat := by
  rw [← elementGranule_iff arraySize.isLt.le hspace]
  constructor
  · intro hcovers g
    -- an empty table shows what has been recorded
    obtain ⟨s', hs', hcontent⟩ := hcovers 1 0 _ ⟨fun _ => 0, [], rfl⟩
    obtain ⟨s'', hs'', hcontent'⟩ := updateObjTrace_content thisPtr typeSize fresh 1 arraySize 0
      (layout_init fun _ => 0)
    obtain rfl := Option.some.inj (hs'.symm.trans hs'')
    have hsame := (hcontent' g).symm.trans (hcontent g)
    rw [view_init, show emptyMap.content g = Entry.zero from rfl] at hsame
    by_cases helement : ElementGranule thisPtr typeSize arraySize.toNat g
    · by_cases hplain : PlainGranule thisPtr typeSize arraySize.toNat g
      · exact iff_of_true helement hplain
      · rw [if_pos helement, if_neg hplain] at hsame
        exact absurd hsame (by decide)
    · by_cases hplain : PlainGranule thisPtr typeSize arraySize.toNat g
      · rw [if_neg helement, if_pos hplain] at hsame
        exact absurd hsame (by decide)
      · exact iff_of_false helement hplain
  · intro hsame referenceAddr offset s hs
    obtain ⟨s', hs', hcontent⟩ := updateObjTrace_content thisPtr typeSize fresh referenceAddr
      arraySize offset (hs.layout fresh)
    refine ⟨s', hs', fun g => ?_⟩
    rw [hcontent]
    simp only [hsame]

theorem eraseCovers_iff (fresh : FreshMmap mmap) {arraySize : Word}
    (hspace : thisPtr.toNat + typeSize.toNat * arraySize.toNat < 2 ^ 48) :
    EraseCovers mmap thisPtr typeSize arraySize ↔
      arraySize.toNat < 2 ^ 32 ∧ FarElementsShared thisPtr typeSize arraySize.toNat := by
  have hstack : ¬ (AllocType.stackAlloc = .heapAlloc ∨ AllocType.stackAlloc = .realloc) := by decide
  constructor
  · intro hcovers
    -- a greater count keeps the loop from ending, in any state
    have hcount : arraySize.toNat < 2 ^ 32 := by
      by_contra hlarge
      obtain ⟨s', hs', -⟩ := hcovers 0 .stackAlloc _ hstack
        (⟨fun _ => 0, [], rfl⟩ : Reachable mmap (bitypeInitialization mmap fun _ => 0))
      rw [bitypeEraseObj, if_neg hstack, forLoop_eq_none _ (not_lt.mp hlarge)] at hs'
      cases hs'
    refine ⟨hcount, ?_⟩
    rw [← elementGranule_iff hcount.le hspace]
    intro g
    by_contra hdiffer
    have hbound : g < L1_BITS * L2_BITS := by
      by_contra hlarge
      exact hdiffer (iff_of_false (fun h => hlarge (granule_bound hspace (.inl h)))
        fun h => hlarge (granule_bound hspace (.inr h)))
    -- a reference in the granule shows whether it has been cleared
    obtain ⟨s, hs, hreference⟩ := exists_referenced fresh hbound
    obtain ⟨s', hs', hcontent⟩ := hcovers 0 .stackAlloc s hstack hs
    obtain ⟨s'', hs'', hcontent'⟩ := eraseObj_content thisPtr typeSize fresh 0 hcount hstack
      (hs.layout fresh)
    obtain rfl := Option.some.inj (hs'.symm.trans hs'')
    have hsame := congrArg Entry.reference ((hcontent' g).symm.trans (hcontent g))
    by_cases helement : ElementGranule thisPtr typeSize arraySize.toNat g
    · have hplain : ¬ PlainGranule thisPtr typeSize arraySize.toNat g :=
        fun hplain => hdiffer (iff_of_true helement hplain)
      rw [if_pos helement, if_neg hplain] at hsame
      exact hreference hsame.symm
    · have hplain : PlainGranule thisPtr typeSize arraySize.toNat g := by
        by_contra hplain
        exact hdiffer (iff_of_false helement hplain)
      rw [if_neg helement, if_pos hplain] at hsame
      exact hreference hsame
  · rintro ⟨hcount, hshared⟩ objAddr allocType s hkind hs
    obtain ⟨s', hs', hcontent⟩ := eraseObj_content thisPtr typeSize fresh objAddr hcount hkind
      (hs.layout fresh)
    refine ⟨s', hs', fun g => ?_⟩
    rw [hcontent]
    simp only [(elementGranule_iff hcount.le hspace).mpr hshared]

/-- **The element loops.**  Where the elements lie in the address space, the update loop
touches exactly their granules if and only if the elements beyond `2^32` share theirs with
others, and the erase loop if and only if in addition its count fits the counter. -/
theorem elementLoops_iff (fresh : FreshMmap mmap) (thisPtr : Word) (typeSize : U32) :
    (∀ arraySize : U32, thisPtr.toNat + typeSize.toNat * arraySize.toNat < 2 ^ 48 →
      (UpdateCovers mmap thisPtr typeSize arraySize ↔
        FarElementsShared thisPtr typeSize arraySize.toNat)) ∧
    ∀ arraySize : Word, thisPtr.toNat + typeSize.toNat * arraySize.toNat < 2 ^ 48 →
      (EraseCovers mmap thisPtr typeSize arraySize ↔
        arraySize.toNat < 2 ^ 32 ∧ FarElementsShared thisPtr typeSize arraySize.toNat) :=
  ⟨fun _ hspace => updateCovers_iff fresh hspace, fun _ hspace => eraseCovers_iff fresh hspace⟩

theorem elementLoops_iff_sample :
    (UpdateCovers spacedMmap 4096 8 3 ↔ FarElementsShared 4096 8 (3 : U32).toNat) ∧
      (EraseCovers spacedMmap 4096 8 3 ↔
        (3 : Word).toNat < 2 ^ 32 ∧ FarElementsShared 4096 8 (3 : Word).toNat) :=
  ⟨(elementLoops_iff spacedMmap_fresh 4096 8).1 3 (by decide),
    (elementLoops_iff spacedMmap_fresh 4096 8).2 3 (by decide)⟩

/-- Three elements of `2^31` bytes: the last is traced at the address of the first.  And a
count of `2^32` is never reached. -/
theorem far_element_missed :
    (¬ ∀ (thisPtr : Word) (typeSize arraySize : U32),
        thisPtr.toNat + typeSize.toNat * arraySize.toNat < 2 ^ 48 →
          UpdateCovers spacedMmap thisPtr typeSize arraySize) ∧
      ¬ ∀ (thisPtr : Word) (typeSize : U32) (arraySize : Word),
        thisPtr.toNat + typeSize.toNat * arraySize.toNat < 2 ^ 48 →
          EraseCovers spacedMmap thisPtr typeSize arraySize := by
  constructor
  · intro hcovers
    have hcovered := hcovers 4096 2147483648 3 (by decide)
    have hshared := (updateCovers_iff spacedMmap_fresh (by decide)).mp hcovered
    obtain ⟨j, -, hnear, hgranule⟩ := hshared 2 (by decide) (by decide)
    change (4096 + 2147483648 * j) / 8 = (4096 + 2147483648 * 2) / 8 at hgranule
    change 2147483648 * j < 2 ^ 32 at hnear
    omega
  · intro hcovers
    have hcovered := hcovers 4096 1 4294967296 (by decide)
    have hcount := ((eraseCovers_iff spacedMmap_fresh (by decide)).mp hcovered).1
    exact absurd hcount (by decide)

end Loops

end Bitype.Runtime
