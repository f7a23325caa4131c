import Bitype.Foundations.Dominance
import Bitype.Pass.Types
import Bitype.Runtime.Check

/-!
# Functions

What the passes look at in a function: its instructions in order, block after block, and
where control goes from each of them.  An instruction is known by its position, and a
value by the instruction that computes it.
-/

namespace Bitype.Pass

open Bitype.Foundations Bitype.Runtime

/-- An operand: an instruction, a global variable, or an argument or constant. -/
inductive Value
  | inst (i : ℕ)
  | global (i : ℕ)
  | other (i : ℕ)
deriving DecidableEq

/-- An instruction.  A load or store is of a pointer, those of other values are `other`; a
conversion that is no `bitcast` or `ptrtoint` is a `cast`.  A constant array size is part of
an alloca; `allocatedType` is what `getMallocAllocatedType` finds for a call that allocates. -/
inductive Inst
  | alloca (type : IRType) (isPointerTy : Bool) (arraySize : Option Word)
  | load (pointer : Value)
  | store (value pointer : Value)
  | bitCast (value : Value)
  | ptrToInt (value : Value)
  | cast (value : Value)
  | getElementPtr (pointer : Value) (resultElementType : IRType)
  | phi (incoming : List Value)
  | call (allocatedType : Option IRType)
  | castVerification (sourcePtr thisPtr : Value) (index : U32) (code : Byte) (debugIndex : U32)
  | lifetimeStart (isMinusOne : Bool) (pointer : Value)
  | lifetimeEnd (isMinusOne : Bool) (pointer : Value)
  | ret (value : Option Value)
  | other

/-- A function with a body.  Its entry is instruction zero. -/
structure Function where
  insts : List Inst
  successors : ℕ → List ℕ
  nonempty : 0 < insts.length
  closed : ∀ i < insts.length, ∀ j ∈ successors i, j < insts.length

namespace Function

variable (F : Function)

/-- `DominatorTree::dominates`. -/
def dominates (a b : ℕ) : Bool :=
  Foundations.dominates F.successors (F.insts.length + 1) 0 a b

/-- The positions of the instructions, in order. -/
def positions : List ℕ := List.range F.insts.length

/-- The return instructions: `findReturnInst`. -/
def findReturnInst : List ℕ :=
  F.positions.filter fun i =>
    match F.insts[i]? with
    | some (.ret _) => true
    | _ => false

theorem dominates_iff {a b : ℕ} : F.dominates a b = true ↔ Dominates F.successors 0 a b := by
  have hclosed : ∀ v ∈ Finset.range F.insts.length, ∀ w ∈ F.successors v,
      w ∈ Finset.range F.insts.length := by
    intro v hv w hw
    rw [Finset.mem_range] at hv ⊢
    exact F.closed v hv w hw
  refine Foundations.dominates_iff hclosed ?_ (Finset.mem_range.mpr F.nonempty)
  rw [Finset.card_range]
  exact Nat.lt_succ_self _

theorem mem_findReturnInst {i : ℕ} :
    i ∈ F.findReturnInst ↔ ∃ value, F.insts[i]? = some (.ret value) := by
  unfold findReturnInst positions
  rw [List.mem_filter, List.mem_range]
  constructor
  · rintro ⟨-, hret⟩
    split at hret
    · next value hinst => exact ⟨value, hinst⟩
    · cases hret
  · rintro ⟨value, hinst⟩
    refine ⟨(List.getElem?_eq_some_iff.mp hinst).1, ?_⟩
    rw [hinst]

end Function

end Bitype.Pass
