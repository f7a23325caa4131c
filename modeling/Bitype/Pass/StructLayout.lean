import Mathlib.Algebra.Order.Floor.Div
import Bitype.Pass.Types

/-!
# Struct layouts

`StructLayout` places the elements of a struct one after the other, each at the next
address that its alignment allows, and rounds the size of the struct up to the greatest
alignment among them.  The elements therefore lie in order, apart from each other and
inside the struct (`ordered_of_structLayout`), which is all that the walk over a layout
relies on.

An element may take no space; then the next one may start where it does.
-/

namespace Bitype.Pass

/-- `alignTo`. -/
def alignTo (value align : ℕ) : ℕ := (value + align - 1) / align * align

theorem le_alignTo {align : ℕ} (hpos : 0 < align) (value : ℕ) : value ≤ alignTo value align := by
  rw [alignTo, ← Nat.ceilDiv_eq_add_pred_div, Nat.mul_comm]
  exact le_smul_ceilDiv hpos

namespace TypeTable

variable (T : TypeTable)

/-- What the constructor of `StructLayout` has computed after some elements. -/
structure LayoutState where
  structSize : ℕ
  structAlignment : ℕ
  memberOffsets : List (ℕ × IRType)

/-- The padding in front of an element, or behind the last one.  Alignments are powers of
two, so the remainder is what the source masks out. -/
def padTo (structSize align : ℕ) : ℕ :=
  if structSize % align ≠ 0 then alignTo structSize align else structSize

/-- The loop body of the constructor: `TyAlign` and the type of an element. -/
def placeMember (st : LayoutState) (member : ℕ × IRType) : LayoutState :=
  let structSize := padTo st.structSize member.1
  { structSize := structSize + T.getTypeAllocSize member.2
    structAlignment := max member.1 st.structAlignment
    memberOffsets := st.memberOffsets ++ [(structSize, member.2)] }

/-- The elements placed, before the size is rounded up. -/
def placeMembers (members : List (ℕ × IRType)) : LayoutState :=
  members.foldl T.placeMember ⟨0, 0, []⟩

/-- `StructLayout`: the elements with their offsets, and the size. -/
def structLayout (members : List (ℕ × IRType)) : List (ℕ × IRType) × ℕ :=
  let st := T.placeMembers members
  let structAlignment := if st.structAlignment = 0 then 1 else st.structAlignment
  (st.memberOffsets, padTo st.structSize structAlignment)

/-- The layout of a struct is what `StructLayout` makes of its element types. -/
def HasStructLayout (a : ℕ) : Prop :=
  ∃ members : List (ℕ × IRType), (∀ member ∈ members, 0 < member.1) ∧
    T.structLayout members = ((T.struct a).elements, (T.struct a).allocSize)

/-- The elements of a struct lie inside it, one after the other. -/
structure Ordered (a : ℕ) : Prop where
  ordered : (T.struct a).elements.Pairwise fun e e' => e.1 + T.getTypeAllocSize e.2 ≤ e'.1
  fits : ∀ e ∈ (T.struct a).elements, e.1 + T.getTypeAllocSize e.2 ≤ (T.struct a).allocSize

variable {T}

theorem le_padTo {align : ℕ} (hpos : 0 < align) (structSize : ℕ) :
    structSize ≤ padTo structSize align := by
  unfold padTo
  split
  · exact le_alignTo hpos structSize
  · exact le_rfl

/-- The elements placed so far lie in order and end before what comes next. -/
structure Placed (T : TypeTable) (st : LayoutState) : Prop where
  ordered : st.memberOffsets.Pairwise fun e e' => e.1 + T.getTypeAllocSize e.2 ≤ e'.1
  below : ∀ e ∈ st.memberOffsets, e.1 + T.getTypeAllocSize e.2 ≤ st.structSize

theorem Placed.placeMember {st : LayoutState} (h : T.Placed st) {member : ℕ × IRType}
    (hpos : 0 < member.1) : T.Placed (T.placeMember st member) := by
  have hpad := le_padTo hpos st.structSize
  refine ⟨?_, ?_⟩
  · simp only [TypeTable.placeMember]
    rw [List.pairwise_append]
    refine ⟨h.ordered, List.pairwise_singleton _ _, fun e he e' he' => ?_⟩
    obtain rfl := List.mem_singleton.mp he'
    exact (h.below e he).trans hpad
  · intro e he
    simp only [TypeTable.placeMember, List.mem_append, List.mem_singleton] at he ⊢
    rcases he with he | rfl
    · have hend := h.below e he
      omega
    · exact le_rfl

theorem placed_placeMembers {members : List (ℕ × IRType)}
    (hpos : ∀ member ∈ members, 0 < member.1) : T.Placed (T.placeMembers members) := by
  unfold placeMembers
  refine List.foldlRecOn members _ ⟨.nil, fun e he => absurd he List.not_mem_nil⟩ ?_
  exact fun st h member hmember => h.placeMember (hpos member hmember)

/-- **A layout is in order.** -/
theorem ordered_of_structLayout {a : ℕ} (h : T.HasStructLayout a) : T.Ordered a := by
  obtain ⟨members, hpos, hlayout⟩ := h
  obtain ⟨helements, hsize⟩ := Prod.mk.inj hlayout
  have hplaced : T.Placed (T.placeMembers members) := placed_placeMembers hpos
  refine ⟨helements ▸ hplaced.ordered, ?_⟩
  rw [← helements, ← hsize]
  refine fun e he => (hplaced.below e he).trans (le_padTo ?_ _)
  split
  · exact Nat.one_pos
  · next hne => exact Nat.pos_of_ne_zero hne

end TypeTable

end Bitype.Pass
