import Mathlib.Data.Finset.Sort
import Bitype.Pass.Files
import Bitype.Pass.Types

/-!
# The classes of an object, granule by granule

`getArrayAlignment` walks the layout of a type and collects, for every granule of
eight bytes, the cast-related classes that start in it.  Of the classes at one offset
only the first that is found counts, which is the outermost.

Every granule found holds some cast-related classes (`filed_elementsOf`) and starts
inside the object (`elementsOf_lt`).
-/

namespace Bitype.Pass

open Bitype.Tool (Name)

/-- The classes found so far by granule, and the offsets they were found at. -/
structure AlignmentState where
  elements : Std.TreeMap ℕ (Finset ℕ)
  hasVisited : Finset ℕ

namespace TypeTable

variable (T : TypeTable) (files : ClassFiles)

/-- `isInCastRelatedSet`. -/
def isInCastRelatedSet (a : ℕ) : Bool := files.bitypeCastRelatedClass.contains (T.typeName a)

/-- The first part of `getStructAlignment`. -/
def recordStruct (a offset : ℕ) (st : AlignmentState) : AlignmentState :=
  if offset ∈ st.hasVisited then st
  else if T.isTracked a && T.isInCastRelatedSet files a then
    { hasVisited := insert offset st.hasVisited
      elements :=
        match st.elements[offset / 8]? with
        | none => st.elements.insertIfNew (offset / 8) {a}
        | some tempSet => st.elements.insert (offset / 8) (insert a tempSet) }
  else st

/-- `getArrayAlignment`, given the recursion into struct types. -/
def arrayAlignment (visit : ℕ → ℕ → AlignmentState → AlignmentState) :
    IRType → ℕ → AlignmentState → AlignmentState
  | .array numElements elementType, offset, st =>
      (List.range (uint32 numElements)).foldl
        (fun st i => arrayAlignment visit elementType
          (uint32 (offset + i * T.getTypeAllocSize elementType)) st) st
  | .struct a, offset, st => if T.isInterestingStructType a then visit a offset st else st
  | .other _, _, st => st

/-- The recursion of `getStructAlignment`. -/
def structAlignment : ℕ → ℕ → ℕ → AlignmentState → AlignmentState
  | 0, _, _, st => st
  | fuel + 1, a, offset, st =>
      (T.struct a).elements.foldl
        (fun st element =>
          T.arrayAlignment (structAlignment fuel) element.2 (uint32 (element.1 + offset)) st)
        (T.recordStruct files a offset st)

/-- `getStructAlignment`. -/
def getStructAlignment (a offset : ℕ) (st : AlignmentState) : AlignmentState :=
  T.structAlignment files (T.depth a + 1) a offset st

/-- `getArrayAlignment`. -/
def getArrayAlignment (type : IRType) (offset : ℕ) (st : AlignmentState) : AlignmentState :=
  T.arrayAlignment (T.getStructAlignment files) type offset st

/-- The `Elements` of a traced type, from empty sets and offset zero. -/
def elementsOf (type : IRType) : Std.TreeMap ℕ (Finset ℕ) :=
  (T.getArrayAlignment files type 0 ⟨∅, ∅⟩).elements

/-! ## What is filed -/

/-- Granules of 32-bit offsets, for each some cast-related structs. -/
def Filed (st : AlignmentState) : Prop :=
  ∀ (granule : ℕ) (types : Finset ℕ), st.elements[granule]? = some types →
    granule < 2 ^ 29 ∧ types.Nonempty ∧ ∀ a ∈ types, T.isInCastRelatedSet files a = true

theorem uint32_lt (n : ℕ) : uint32 n < 2 ^ 32 := Nat.mod_lt _ (by decide)

variable {T} {files}

/-- What `recordStruct` files: what was filed before, or the struct in its granule. -/
theorem of_recordStruct {st : AlignmentState} {a offset granule : ℕ} {types : Finset ℕ}
    (h : (T.recordStruct files a offset st).elements[granule]? = some types) :
    st.elements[granule]? = some types ∨
      granule = offset / 8 ∧ T.isTracked a = true ∧ T.isInCastRelatedSet files a = true ∧
        ∃ old, types = insert a old ∧ (old = ∅ ∨ st.elements[granule]? = some old) := by
  unfold TypeTable.recordStruct at h
  split at h
  · exact .inl h
  split at h
  · next hcond =>
      rw [Bool.and_eq_true] at hcond
      dsimp only at h
      split at h
      · rw [Std.TreeMap.getElem?_insertIfNew] at h
        split at h
        · next hnew =>
            obtain rfl := Std.LawfulEqCmp.eq_of_compare hnew.1
            exact .inr ⟨rfl, hcond.1, hcond.2, ∅, (Option.some.inj h).symm, .inl rfl⟩
        · exact .inl h
      · next tempSet hsome =>
          rw [Std.TreeMap.getElem?_insert] at h
          split at h
          · next heq =>
              obtain rfl := Std.LawfulEqCmp.eq_of_compare heq
              exact .inr ⟨rfl, hcond.1, hcond.2, tempSet, (Option.some.inj h).symm, .inr hsome⟩
          · exact .inl h
  · exact .inl h

theorem Filed.recordStruct {st : AlignmentState} (h : T.Filed files st) (a : ℕ) {offset : ℕ}
    (hoffset : offset < 2 ^ 32) : T.Filed files (T.recordStruct files a offset st) := by
  intro granule types htypes
  obtain hbefore | ⟨rfl, -, hrelated, old, rfl, hold⟩ := of_recordStruct htypes
  · exact h granule types hbefore
  · refine ⟨by omega, Finset.insert_nonempty a old, fun b hb => ?_⟩
    rcases Finset.mem_insert.mp hb with rfl | hb
    · exact hrelated
    · rcases hold with rfl | hold
      · exact absurd hb (Finset.notMem_empty b)
      · exact (h _ old hold).2.2 b hb

theorem Filed.arrayAlignment {visit : ℕ → ℕ → AlignmentState → AlignmentState}
    (hvisit : ∀ a offset st, offset < 2 ^ 32 → T.Filed files st →
      T.Filed files (visit a offset st)) :
    ∀ (type : IRType) (offset : ℕ) (st : AlignmentState), offset < 2 ^ 32 → T.Filed files st →
      T.Filed files (T.arrayAlignment visit type offset st) := by
  intro type
  induction type with
  | other _ => exact fun _ _ _ h => h
  | struct a =>
      intro offset st hoffset h
      simp only [TypeTable.arrayAlignment]
      split
      · exact hvisit a offset st hoffset h
      · exact h
  | array numElements elementType ih =>
      intro offset st _ h
      simp only [TypeTable.arrayAlignment]
      exact List.foldlRecOn _ _ h fun st h i _ => ih _ st (uint32_lt _) h

theorem Filed.structAlignment :
    ∀ (fuel a offset : ℕ) (st : AlignmentState), offset < 2 ^ 32 → T.Filed files st →
      T.Filed files (T.structAlignment files fuel a offset st) := by
  intro fuel
  induction fuel with
  | zero => exact fun _ _ _ _ h => h
  | succ fuel ih =>
      intro a offset st hoffset h
      simp only [TypeTable.structAlignment]
      exact List.foldlRecOn _ _ (h.recordStruct a hoffset)
        fun st h element _ => Filed.arrayAlignment ih element.2 _ st (uint32_lt _) h

theorem filed_elementsOf (type : IRType) {granule : ℕ} {types : Finset ℕ}
    (h : (T.elementsOf files type)[granule]? = some types) :
    granule < 2 ^ 29 ∧ types.Nonempty ∧ ∀ a ∈ types, T.isInCastRelatedSet files a = true :=
  have hempty : T.Filed files ⟨∅, ∅⟩ := fun granule types h => by simp at h
  Filed.arrayAlignment (fun a offset st => Filed.structAlignment _ a offset st) type 0 _
    (by decide) hempty granule types h

/-! ## Inside the type -/

variable (T) in
/-- Elements lie inside their struct, and a tracked struct takes space. -/
structure Fitting : Prop where
  fits : ∀ a, ∀ e ∈ (T.struct a).elements, e.1 + T.getTypeAllocSize e.2 ≤ (T.struct a).allocSize
  positive : ∀ a, T.isTracked a = true → 0 < (T.struct a).allocSize

/-- Every granule that has been filed starts before `bound`. -/
def Below (bound : ℕ) (st : AlignmentState) : Prop :=
  ∀ (granule : ℕ) (types : Finset ℕ), st.elements[granule]? = some types → 8 * granule < bound

theorem Below.recordStruct {bound : ℕ} {st : AlignmentState} (h : Below bound st) (a : ℕ)
    {offset : ℕ} (hoffset : T.isTracked a = true → offset < bound) :
    Below bound (T.recordStruct files a offset st) := by
  intro granule types htypes
  obtain hbefore | ⟨rfl, htracked, -⟩ := of_recordStruct htypes
  · exact h granule types hbefore
  · have := hoffset htracked
    omega

/-- The walk over a type that ends before `bound`. -/
theorem Below.arrayAlignment {bound : ℕ} (hbound : bound < 2 ^ 32)
    {visit : ℕ → ℕ → AlignmentState → AlignmentState}
    (hvisit : ∀ a offset st, offset + (T.struct a).allocSize ≤ bound → Below bound st →
      Below bound (visit a offset st)) :
    ∀ (type : IRType) (offset : ℕ) (st : AlignmentState),
      offset + T.getTypeAllocSize type ≤ bound → Below bound st →
      Below bound (T.arrayAlignment visit type offset st) := by
  intro type
  induction type with
  | other _ => exact fun _ _ _ h => h
  | struct a =>
      intro offset st hoffset h
      simp only [TypeTable.arrayAlignment]
      split
      · exact hvisit a offset st hoffset h
      · exact h
  | array numElements elementType ih =>
      intro offset st hoffset h
      simp only [TypeTable.arrayAlignment]
      apply List.foldlRecOn _ _ h
      intro st h i hi
      have hlt : i < numElements := (List.mem_range.mp hi).trans_le (Nat.mod_le _ _)
      have hend : offset + i * T.getTypeAllocSize elementType + T.getTypeAllocSize elementType ≤
          bound := by
        calc offset + i * T.getTypeAllocSize elementType + T.getTypeAllocSize elementType
            = offset + (i + 1) * T.getTypeAllocSize elementType := by rw [Nat.succ_mul]; omega
          _ ≤ offset + numElements * T.getTypeAllocSize elementType :=
              Nat.add_le_add_left (Nat.mul_le_mul_right _ hlt) _
          _ ≤ bound := hoffset
      rw [uint32, Nat.mod_eq_of_lt (by omega)]
      exact ih _ st hend h

theorem Below.structAlignment (hT : T.Fitting) {bound : ℕ} (hbound : bound < 2 ^ 32) :
    ∀ (fuel a offset : ℕ) (st : AlignmentState), offset + (T.struct a).allocSize ≤ bound →
      Below bound st → Below bound (T.structAlignment files fuel a offset st) := by
  intro fuel
  induction fuel with
  | zero => exact fun _ _ _ _ h => h
  | succ fuel ih =>
      intro a offset st hoffset h
      simp only [TypeTable.structAlignment]
      have hself : Below bound (T.recordStruct files a offset st) :=
        h.recordStruct a fun htracked => by
          have := hT.positive a htracked
          omega
      apply List.foldlRecOn _ _ hself
      intro st h e he
      have hfits := hT.fits a e he
      rw [uint32, Nat.mod_eq_of_lt (by omega)]
      exact Below.arrayAlignment hbound ih e.2 _ st (by omega) h

/-- **A granule in which a class of an object starts lies in the object.** -/
theorem elementsOf_lt (hT : T.Fitting) {type : IRType} {granule : ℕ} {types : Finset ℕ}
    (h : (T.elementsOf files type)[granule]? = some types) :
    8 * granule < T.getTypeAllocSize type := by
  by_cases hsize : T.getTypeAllocSize type < 2 ^ 32
  · have hempty : Below (T.getTypeAllocSize type) ⟨∅, ∅⟩ := fun granule types h => by simp at h
    exact Below.arrayAlignment hsize (fun a offset st => Below.structAlignment hT hsize _ a offset st)
      type 0 _ (Nat.zero_add _).le hempty granule types h
  · -- offsets have 32 bits
    have hsmall := (filed_elementsOf type h).1
    omega

end TypeTable

end Bitype.Pass
