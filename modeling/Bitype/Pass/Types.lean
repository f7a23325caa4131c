import Mathlib.Data.Finset.Basic
import Mathlib.Logic.Relation
import Bitype.Tool.Visit

/-!
# Struct types

The pass identifies a class by the address of its struct type and names it by what
`syncTypeName` leaves of the type's name.  A `TypeTable` is the struct types of a
module; no struct contains itself by value, which the field `contained` records, so
the recursions over nested structs end.

`getOffetZeroStruct` collects the tracked struct types that start where a struct
starts.  `mem_getOffetZeroStruct` says that these are the ones reachable through
elements at offset zero.
-/

namespace Bitype.Pass

open Bitype.Tool (Name)

/-! ## Types -/

/-- A type of the IR.  Of a type that is neither an array nor a struct only its size
matters. -/
inductive IRType
  | struct (address : ℕ)
  | array (numElements : ℕ) (elementType : IRType)
  | other (allocSize : ℕ)

/-- A struct type with its layout: the offset and the type of each element. -/
structure StructType where
  name : Option Name
  isLiteral : Bool
  isOpaque : Bool
  elements : List (ℕ × IRType)
  allocSize : ℕ

/-- The struct type at the core of nested arrays. -/
def IRType.core : IRType → Option ℕ
  | struct address => some address
  | array _ elementType => elementType.core
  | other _ => none

/-- The struct types by address.  What a struct contains by value is less deep. -/
structure TypeTable where
  struct : ℕ → StructType
  depth : ℕ → ℕ
  contained : ∀ a, ∀ element ∈ (struct a).elements, ∀ b, element.2.core = some b →
    depth b < depth a

/-- What is not listed differs from what is. -/
theorem ne_of_listed {a b last : ℕ} (hb : b ≤ last) (ha : last < a) : a ≠ b :=
  (hb.trans_lt ha).ne'

/-- Struct types of which only finitely many differ can be checked one by one. -/
theorem contained_of_cases {struct : ℕ → StructType} {depth : ℕ → ℕ} (last : ℕ)
    (hlisted : ∀ a ≤ last, ∀ element ∈ (struct a).elements, ∀ b ∈ element.2.core, depth b < depth a)
    (hrest : ∀ a, last < a → struct a = struct last ∧ depth a = depth last) :
    ∀ a, ∀ element ∈ (struct a).elements, ∀ b, element.2.core = some b → depth b < depth a := by
  intro a element helement b hcore
  rcases le_or_gt a last with hle | hlt
  · exact hlisted a hle element helement b hcore
  · obtain ⟨hstruct, hdepth⟩ := hrest a hlt
    rw [hstruct] at helement
    rw [hdepth]
    exact hlisted last le_rfl element helement b hcore

/-- A module: its types, and what `getIdentifiedStructTypes` lists. -/
structure Module extends TypeTable where
  identified : List ℕ
  nodup : identified.Nodup

/-- An offset in a variable of type `uint32_t`. -/
def uint32 (offset : ℕ) : ℕ := offset % 2 ^ 32

/-! ## Names -/

/-- The text before and after the first occurrence of `pattern`. -/
def splitAtFirst (pattern : Name) : Name → Option (Name × Name)
  | [] => if pattern.isPrefixOf [] then some ([], []) else none
  | c :: rest =>
      if pattern.isPrefixOf (c :: rest) then some ([], (c :: rest).drop pattern.length)
      else (splitAtFirst pattern rest).map fun parts => (c :: parts.1, parts.2)

/-- The loop of `removeTargetStr`; every round makes the text shorter. -/
def removeLoop (removeStr : Name) : ℕ → Name → Name
  | 0, fullStr => fullStr
  | fuel + 1, fullStr =>
      match splitAtFirst removeStr fullStr with
      | none => fullStr
      | some (before, after) =>
          removeLoop removeStr fuel (if removeStr = "::".toList then after else before ++ after)

/-- `removeTargetStr`: erase every occurrence, for `::` with all that is in front. -/
def removeTargetStr (fullStr removeStr : Name) : Name :=
  removeLoop removeStr fullStr.length fullStr

/-- `removeTargetNum`: cut at the first dot if a digit follows it. -/
def removeTargetNum (targetStr : Name) : Name :=
  match splitAtFirst ".".toList targetStr with
  | some (before, c :: _) => if '0' ≤ c ∧ c ≤ '9' then before else targetStr
  | _ => targetStr

/-- `BitypeUtil::syncTypeName`. -/
@[irreducible] def syncTypeName (targetStr : Name) : Name :=
  removeTargetNum (["::".toList, "class.".toList, "./".toList, "struct.".toList,
    "union.".toList, ".base".toList, "trackedtype.".toList, "blacklistedtype.".toList,
    "*".toList, "'".toList].foldl removeTargetStr targetStr)

namespace TypeTable

variable (T : TypeTable)

/-- `getName`, empty for a type without a name. -/
def getName (a : ℕ) : Name := (T.struct a).name.getD []

/-- The name the pass looks a struct type up by. -/
def typeName (a : ℕ) : Name := syncTypeName (T.getName a)

/-- `isInterestingStructType`. -/
def isInterestingStructType (a : ℕ) : Bool :=
  (T.struct a).name.isSome && !(T.struct a).isLiteral && !(T.struct a).isOpaque

/-- `isInterestingType`. -/
def isInterestingType (type : IRType) : Bool :=
  match type.core with
  | some a => T.isInterestingStructType a
  | none => false

/-- `getName().startswith("trackedtype.")`. -/
def isTracked (a : ℕ) : Bool := "trackedtype.".toList.isPrefixOf (T.getName a)

/-- The struct types `getDirectTypeInfo` and `getAllClassSafeCast` do not skip. -/
def isClassType (a : ℕ) : Bool :=
  T.isInterestingStructType a && T.isTracked a && !".base".toList.isSuffixOf (T.getName a)

/-- `getTypeAllocSize`. -/
def getTypeAllocSize : IRType → ℕ
  | .struct a => (T.struct a).allocSize
  | .array numElements elementType => numElements * getTypeAllocSize elementType
  | .other allocSize => allocSize

/-! ## Offset zero -/

/-- `getOffsetZeroArray`, given the recursion into struct types. -/
def getOffsetZeroArray (visit : ℕ → Finset ℕ → Finset ℕ) : IRType → Finset ℕ → Finset ℕ
  | .array _ elementType, zeroSet => getOffsetZeroArray visit elementType zeroSet
  | .struct a, zeroSet => if T.isInterestingStructType a then visit a zeroSet else zeroSet
  | .other _, zeroSet => zeroSet

/-- The recursion of `getOffetZeroStruct`. -/
def zeroStruct : ℕ → ℕ → Finset ℕ → Finset ℕ
  | 0, _, zeroSet => zeroSet
  | fuel + 1, a, zeroSet =>
      (T.struct a).elements.foldl
        (fun zeroSet element =>
          if uint32 element.1 ≠ 0 then zeroSet
          else T.getOffsetZeroArray (zeroStruct fuel) element.2 zeroSet)
        (if T.isTracked a then insert a zeroSet else zeroSet)

/-- `getOffetZeroStruct`. -/
def getOffetZeroStruct (a : ℕ) (zeroSet : Finset ℕ) : Finset ℕ :=
  T.zeroStruct (T.depth a + 1) a zeroSet

/-- Struct `b`, or an array of it, is an element of `a` at offset zero. -/
def ZeroElement (a b : ℕ) : Prop :=
  ∃ element ∈ (T.struct a).elements, uint32 element.1 = 0 ∧ element.2.core = some b ∧
    T.isInterestingStructType b = true

/-- The tracked struct `b` starts where `a` starts. -/
def AtOffsetZero (a b : ℕ) : Prop :=
  T.isTracked b = true ∧ Relation.ReflTransGen T.ZeroElement a b

variable {T}

theorem getOffsetZeroArray_eq (visit : ℕ → Finset ℕ → Finset ℕ) (type : IRType)
    (zeroSet : Finset ℕ) :
    T.getOffsetZeroArray visit type zeroSet =
      match type.core with
      | some b => if T.isInterestingStructType b then visit b zeroSet else zeroSet
      | none => zeroSet := by
  induction type with
  | struct a => rfl
  | array _ _ ih => exact ih
  | other _ => rfl

/-- The loop over the elements, given what the recursion adds. -/
theorem mem_foldl_zero {visit : ℕ → Finset ℕ → Finset ℕ} {Adds : ℕ → ℕ → Prop} :
    ∀ (elements : List (ℕ × IRType)) (zeroSet : Finset ℕ),
      (∀ element ∈ elements, ∀ b, element.2.core = some b → ∀ zeroSet c,
        c ∈ visit b zeroSet ↔ c ∈ zeroSet ∨ Adds b c) →
      ∀ c, c ∈ elements.foldl
          (fun zeroSet element =>
            if uint32 element.1 ≠ 0 then zeroSet
            else T.getOffsetZeroArray visit element.2 zeroSet) zeroSet ↔
        c ∈ zeroSet ∨ ∃ element ∈ elements, uint32 element.1 = 0 ∧
          ∃ b, element.2.core = some b ∧ T.isInterestingStructType b = true ∧ Adds b c := by
  intro elements
  induction elements with
  | nil => simp
  | cons element rest ih =>
      intro zeroSet hvisit c
      rw [List.foldl_cons, ih _ fun e he => hvisit e (List.mem_cons_of_mem _ he)]
      simp only [List.mem_cons, or_and_right, exists_or, exists_eq_left, ← or_assoc]
      apply or_congr_left
      by_cases hzero : uint32 element.1 = 0
      · rw [if_neg (not_not.mpr hzero), getOffsetZeroArray_eq]
        cases hcore : element.2.core with
        | none => simp
        | some b =>
            by_cases hinteresting : T.isInterestingStructType b = true
            · simp only [hinteresting, if_true, hvisit element List.mem_cons_self b hcore]
              simp [hzero, hinteresting]
            · simp [hinteresting]
      · simp [hzero]

theorem atOffsetZero_iff {a c : ℕ} :
    T.AtOffsetZero a c ↔ (T.isTracked a = true ∧ c = a) ∨
      ∃ b, T.ZeroElement a b ∧ T.AtOffsetZero b c := by
  unfold AtOffsetZero
  constructor
  · rintro ⟨htracked, hpath⟩
    rcases Relation.ReflTransGen.cases_head hpath with rfl | ⟨b, hfirst, hrest⟩
    · exact .inl ⟨htracked, rfl⟩
    · exact .inr ⟨b, hfirst, htracked, hrest⟩
  · rintro (⟨htracked, rfl⟩ | ⟨b, hfirst, htracked, hrest⟩)
    · exact ⟨htracked, .refl⟩
    · exact ⟨htracked, .head hfirst hrest⟩

/-- Fuel above the depth of a struct is enough. -/
theorem mem_zeroStruct :
    ∀ (fuel a : ℕ), T.depth a < fuel → ∀ (zeroSet : Finset ℕ) (c : ℕ),
      c ∈ T.zeroStruct fuel a zeroSet ↔ c ∈ zeroSet ∨ T.AtOffsetZero a c := by
  intro fuel
  induction fuel with
  | zero => exact fun _ hfuel => absurd hfuel (Nat.not_lt_zero _)
  | succ fuel ih =>
      intro a hfuel zeroSet c
      -- elements lie less deep, so the fuel that is left is enough for them
      have hvisit : ∀ element ∈ (T.struct a).elements, ∀ b, element.2.core = some b →
          ∀ zeroSet c, c ∈ T.zeroStruct fuel b zeroSet ↔ c ∈ zeroSet ∨ T.AtOffsetZero b c := by
        intro element helement b hcore
        have hless := T.contained a element helement b hcore
        exact ih b (by omega)
      have hself : c ∈ (if T.isTracked a then insert a zeroSet else zeroSet) ↔
          c ∈ zeroSet ∨ T.isTracked a = true ∧ c = a := by
        by_cases htracked : T.isTracked a = true
        · simp [htracked, or_comm]
        · simp [htracked]
      have hrest : (∃ element ∈ (T.struct a).elements, uint32 element.1 = 0 ∧
          ∃ b, element.2.core = some b ∧ T.isInterestingStructType b = true ∧
            T.AtOffsetZero b c) ↔ ∃ b, T.ZeroElement a b ∧ T.AtOffsetZero b c := by
        unfold ZeroElement
        constructor
        · rintro ⟨element, hmem, hzero, b, hcore, hinteresting, hb⟩
          exact ⟨b, ⟨element, hmem, hzero, hcore, hinteresting⟩, hb⟩
        · rintro ⟨b, ⟨element, hmem, hzero, hcore, hinteresting⟩, hb⟩
          exact ⟨element, hmem, hzero, b, hcore, hinteresting, hb⟩
      simp only [zeroStruct]
      rw [mem_foldl_zero _ _ hvisit c, hself, hrest, or_assoc, ← atOffsetZero_iff]

/-- **What `getOffetZeroStruct` adds.** -/
theorem mem_getOffetZeroStruct {a c : ℕ} {zeroSet : Finset ℕ} :
    c ∈ T.getOffetZeroStruct a zeroSet ↔ c ∈ zeroSet ∨ T.AtOffsetZero a c :=
  mem_zeroStruct _ a (Nat.lt_succ_self _) zeroSet c

end TypeTable

/-- What `syncTypeName` makes of a qualified name and of a renumbered one. -/
example : syncTypeName "trackedtype.N::A".toList = ['A'] ∧
    syncTypeName "trackedtype.A.12".toList = ['A'] := by decide +kernel

end Bitype.Pass
