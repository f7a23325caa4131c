import Bitype.Foundations.Worklist

/-!
# Stack objects that are left out

Under `safestack-opt` an alloca is not traced if `isSafeStackAlloca` finds nothing wrong with the
uses of its address and of what is computed from it.  The search follows a `ptrtoint` like any
other conversion, but a call counts only if the argument is a pointer, and every check passes
its addresses as integers (`check_hidden`).  A store of the address counts unless it is to
the alloca itself.

`safeStackAlloca_sound_iff`: an alloca that is left out has no use that matters exactly if no
use is of these two kinds, or another use counts anyway.
-/

namespace Bitype.Pass

open Bitype.Foundations

/-! ## Uses -/

/-- What the opcodes are for `isSafeStackAlloca`; `cast` is a conversion it does not name. -/
inductive Opcode
  | load
  | vaArg
  | store
  | getElementPtr
  | bitCast
  | intToPtr
  | phi
  | ptrToInt
  | select
  | call
  | invoke
  | cast
  | other
deriving DecidableEq

/-- An instruction as a user.  An operand is an instruction or something else; the arguments
of a call are its first operands. -/
structure UserInst where
  opcode : Opcode
  operands : List (Option ℕ)
  numArgs : ℕ
  isLifetime : Bool
  isPointerTy : Bool
deriving DecidableEq

/-- `arg_begin` to `arg_end`. -/
def UserInst.args (I : UserInst) : List (Option ℕ) := I.operands.take I.numArgs

/-- The instructions of a function with their use lists: every user is an instruction. -/
structure UseGraph where
  insts : List UserInst
  uses : ℕ → List ℕ
  mem_uses : ∀ v user, user ∈ uses v ↔ ∃ I, insts[user]? = some I ∧ some v ∈ I.operands

/-- Use lists in the order of the users. -/
def UseGraph.ofInsts (insts : List UserInst) : UseGraph where
  insts := insts
  uses v := (List.range insts.length).filter fun user =>
    (insts[user]?).any fun I => some v ∈ I.operands
  mem_uses v user := by
    rw [List.mem_filter, List.mem_range, Option.any_eq_true]
    constructor
    · rintro ⟨-, I, hI, hmem⟩
      exact ⟨I, hI, of_decide_eq_true hmem⟩
    · rintro ⟨I, hI, hmem⟩
      exact ⟨(List.getElem?_eq_some_iff.mp hI).1, I, hI, decide_eq_true hmem⟩

/-- An alloca of the function. -/
structure AllocaInst (F : UseGraph) where
  inst : ℕ
  lt : inst < F.insts.length
  allocatedIsPointerTy : Bool
  constantArraySize : Bool

/-! ## The search -/

section Search

variable {F : UseGraph}

/-- `V->getType()->isPointerTy()`. -/
def UseGraph.isPointerTy (F : UseGraph) (v : ℕ) : Bool := (F.insts[v]?).any UserInst.isPointerTy

/-- The `switch` of `isSafeStackAlloca` for the use of `v` by an instruction. -/
def useVerdict (AI : AllocaInst F) (v user : ℕ) : UseVerdict :=
  match F.insts[user]? with
  | none => .harmless
  | some I =>
      match I.opcode with
      | .load | .vaArg => .harmless
      | .store =>
          if I.operands[0]? = some (some v) then
            if I.operands[1]? = some (some AI.inst) ∧ AI.allocatedIsPointerTy = false then .harmless
            else .reject
          else .harmless
      | .getElementPtr => if AI.constantArraySize then .follow else .reject
      | .bitCast | .intToPtr | .phi | .ptrToInt | .select => .follow
      | .call | .invoke =>
          if I.isLifetime then .harmless
          else if some v ∈ I.args ∧ F.isPointerTy v = true then .reject
          else .harmless
      | .cast | .other => .reject

/-- `isSafeStackAlloca`. -/
def isSafeStackAlloca (AI : AllocaInst F) : Option Bool :=
  traverse F.uses (useVerdict AI) (F.insts.length + 2) ⟨[], [AI.inst]⟩

/-- **It ends and finds out.** -/
theorem isSafeStackAlloca_spec (AI : AllocaInst F) :
    ∃ answer, isSafeStackAlloca AI = some answer ∧
      (answer = true ↔ NothingRejected F.uses (useVerdict AI) AI.inst) := by
  have hclosed : ∀ a ∈ Finset.range F.insts.length, ∀ b ∈ F.uses a, b ∈ Finset.range F.insts.length := by
    intro a _ b hb
    obtain ⟨I, hI, -⟩ := (F.mem_uses a b).mp hb
    exact Finset.mem_range.mpr (List.getElem?_eq_some_iff.mp hI).1
  apply traverse_spec hclosed (Finset.mem_range.mpr AI.lt)
  rw [Finset.card_range]
  exact Nat.lt_succ_self _

/-- `collectAllocaInstInfo`: whether the alloca is put into `AllAllocaSet`. -/
def collectAllocaInstInfo (isInterestingType clSafeStackOpt : Bool) (AI : AllocaInst F) :
    Option Bool :=
  if isInterestingType then
    if clSafeStackOpt then (isSafeStackAlloca AI).map not else some true
  else some false

/-- What the option leaves out is what the search accepts. -/
theorem collectAllocaInstInfo_eq_false {AI : AllocaInst F} {clSafeStackOpt : Bool} :
    collectAllocaInstInfo true clSafeStackOpt AI = some false ↔
      clSafeStackOpt = true ∧ isSafeStackAlloca AI = some true := by
  obtain ⟨answer, hanswer, -⟩ := isSafeStackAlloca_spec AI
  rw [collectAllocaInstInfo, if_pos rfl, hanswer]
  cases clSafeStackOpt with
  | false => simp
  | true => simp

/-! ## What matters -/

/-- The opcodes whose result is derived from an operand. -/
def Opcode.derives : Opcode → Bool
  | .getElementPtr | .bitCast | .intToPtr | .phi | .ptrToInt | .select | .cast => true
  | _ => false

/-- One derivation. -/
def DerivedIn (F : UseGraph) (v user : ℕ) : Prop :=
  user ∈ F.uses v ∧ ∃ I, F.insts[user]? = some I ∧ I.opcode.derives = true

/-- A value derived from the address of the alloca. -/
def DerivedValue (AI : AllocaInst F) : ℕ → Prop := Relation.ReflTransGen (DerivedIn F) AI.inst

/-- `v` is an argument of a call or an invoke, and of no lifetime marker. -/
def UserInst.IsArgument (I : UserInst) (v : ℕ) : Prop :=
  (I.opcode = .call ∨ I.opcode = .invoke) ∧ I.isLifetime = false ∧ some v ∈ I.args

/-- `v` is stored as a value. -/
def UserInst.IsStored (I : UserInst) (v : ℕ) : Prop :=
  I.opcode = .store ∧ I.operands[0]? = some (some v)

/-- Something derived from the address is passed to a call, or stored. -/
def Escapes (AI : AllocaInst F) : Prop :=
  ∃ (v user : ℕ) (I : UserInst), DerivedValue AI v ∧ F.insts[user]? = some I ∧
    (I.IsArgument v ∨ I.IsStored v)

/-- **What is left out is safe.** -/
def SkippingSound (AI : AllocaInst F) : Prop := isSafeStackAlloca AI = some true → ¬ Escapes AI

/-- A use of `v` that counts: a pointer is an argument, the value is stored and not let through,
a `getelementptr` of an alloca whose size is no constant, or an instruction that is not named. -/
def CountedUse (AI : AllocaInst F) (v : ℕ) (I : UserInst) : Prop :=
  I.IsArgument v ∧ F.isPointerTy v = true ∨
    I.IsStored v ∧
      ¬ (I.operands[1]? = some (some AI.inst) ∧ AI.allocatedIsPointerTy = false) ∨
    I.opcode = .getElementPtr ∧ AI.constantArraySize = false ∨
    I.opcode = .cast ∨ I.opcode = .other

/-- A derived value has a use that counts. -/
def HasCountedUse (AI : AllocaInst F) : Prop :=
  ∃ (v user : ℕ) (I : UserInst), DerivedValue AI v ∧ F.insts[user]? = some I ∧
    some v ∈ I.operands ∧ CountedUse AI v I

/-- No derived value that is not a pointer is an argument, and none is stored into the alloca
itself, unless that holds a pointer. -/
def NoUncountedUse (AI : AllocaInst F) : Prop :=
  ∀ (v user : ℕ) (I : UserInst), DerivedValue AI v → F.insts[user]? = some I →
    (I.IsArgument v → F.isPointerTy v = true) ∧
      (I.IsStored v → I.operands[1]? = some (some AI.inst) → AI.allocatedIsPointerTy = true)

variable {AI : AllocaInst F}

theorem mem_operands_of_isArgument {v : ℕ} {I : UserInst} (h : I.IsArgument v) :
    some v ∈ I.operands :=
  List.mem_of_mem_take h.2.2

theorem mem_operands_of_isStored {v : ℕ} {I : UserInst} (h : I.IsStored v) :
    some v ∈ I.operands :=
  List.mem_of_getElem? h.2

/-- **What the `switch` rejects** are the uses that count. -/
theorem useVerdict_eq_reject {v user : ℕ} {I : UserInst} (hI : F.insts[user]? = some I) :
    useVerdict AI v user = .reject ↔ CountedUse AI v I := by
  unfold useVerdict CountedUse UserInst.IsArgument UserInst.IsStored
  rw [hI]
  dsimp only
  cases hopcode : I.opcode
  case store =>
    by_cases hstored : I.operands[0]? = some (some v)
    · simp [hstored]
    · simp [hstored]
  case getElementPtr => simp
  case call => cases hlifetime : I.isLifetime <;> simp
  case invoke => cases hlifetime : I.isLifetime <;> simp
  all_goals simp

/-- A derived value has a use that counts exactly if the `switch` rejects a use of one. -/
theorem hasCountedUse_iff : HasCountedUse AI ↔
    ∃ v user, DerivedValue AI v ∧ user ∈ F.uses v ∧ useVerdict AI v user = .reject := by
  constructor
  · rintro ⟨v, user, I, hderived, hI, hmem, hcounted⟩
    exact ⟨v, user, hderived, (F.mem_uses v user).mpr ⟨I, hI, hmem⟩,
      (useVerdict_eq_reject hI).mpr hcounted⟩
  · rintro ⟨v, user, hderived, huser, hreject⟩
    obtain ⟨I, hI, hmem⟩ := (F.mem_uses v user).mp huser
    exact ⟨v, user, I, hderived, hI, hmem, (useVerdict_eq_reject hI).mp hreject⟩

/-- A derivation is followed, unless it is rejected. -/
theorem useVerdict_derives {v user : ℕ} (h : DerivedIn F v user)
    (haccepts : useVerdict AI v user ≠ .reject) : useVerdict AI v user = .follow := by
  obtain ⟨-, I, hI, hderives⟩ := h
  unfold useVerdict at haccepts ⊢
  rw [hI] at haccepts ⊢
  dsimp only at haccepts ⊢
  cases hopcode : I.opcode
  all_goals rw [hopcode] at hderives haccepts
  case getElementPtr =>
    dsimp only at haccepts ⊢
    split at haccepts
    · next hconstant => rw [if_pos hconstant]
    · exact absurd rfl haccepts
  case cast => exact absurd rfl haccepts
  all_goals first | rfl | cases hderives

/-- What is followed is derived. -/
theorem derives_of_follows {v user : ℕ} (h : Follows F.uses (useVerdict AI) v user) :
    DerivedIn F v user := by
  obtain ⟨huser, hfollow⟩ := h
  obtain ⟨I, hI, -⟩ := (F.mem_uses v user).mp huser
  refine ⟨huser, I, hI, ?_⟩
  unfold useVerdict at hfollow
  rw [hI] at hfollow
  dsimp only at hfollow
  cases hopcode : I.opcode
  all_goals rw [hopcode] at hfollow
  all_goals first | rfl | (dsimp only at hfollow; split_ifs at hfollow) | cases hfollow

/-- **The answer**: true exactly if no use of a derived value counts. -/
theorem isSafeStackAlloca_iff : isSafeStackAlloca AI = some true ↔ ¬ HasCountedUse AI := by
  obtain ⟨answer, hanswer, haccepted⟩ := isSafeStackAlloca_spec AI
  rw [hanswer, Option.some.injEq, haccepted, hasCountedUse_iff]
  constructor
  · rintro h ⟨v, user, hderived, huser, hreject⟩
    -- up to the first rejected use, what is derived is followed
    have hfollowed : ∀ w, DerivedValue AI w →
        Relation.ReflTransGen (Follows F.uses (useVerdict AI)) AI.inst w := by
      intro w hw
      induction hw with
      | refl => exact .refl
      | tail _ hstep ih =>
          exact ih.tail ⟨hstep.1, useVerdict_derives hstep (h _ ih _ hstep.1)⟩
    exact h v (hfollowed v hderived) user huser hreject
  · intro h v hfollowed user huser hreject
    have hderived : DerivedValue AI v :=
      Relation.ReflTransGen.mono (fun _ _ hstep => derives_of_follows hstep) _ _ hfollowed
    exact h ⟨v, user, hderived, huser, hreject⟩

/-- **A use that matters counts**, if it is not of the two kinds. -/
theorem hasCountedUse_of_escapes (hcounted : NoUncountedUse AI) (h : Escapes AI) :
    HasCountedUse AI := by
  obtain ⟨v, user, I, hderived, hI, hargument | hstored⟩ := h
  · have hpointer := (hcounted v user I hderived hI).1 hargument
    exact ⟨v, user, I, hderived, hI, mem_operands_of_isArgument hargument,
      .inl ⟨hargument, hpointer⟩⟩
  · have hitself := (hcounted v user I hderived hI).2 hstored
    refine ⟨v, user, I, hderived, hI, mem_operands_of_isStored hstored, .inr (.inl ⟨hstored, ?_⟩)⟩
    rintro ⟨hpointer, hallocated⟩
    rw [hitself hpointer] at hallocated
    cases hallocated

/-- **When leaving an alloca out is safe.** -/
theorem safeStackAlloca_sound_iff (F : UseGraph) (AI : AllocaInst F) :
    SkippingSound AI ↔ HasCountedUse AI ∨ NoUncountedUse AI := by
  unfold SkippingSound
  rw [isSafeStackAlloca_iff]
  constructor
  · intro h
    by_cases huse : HasCountedUse AI
    · exact .inl huse
    · refine .inr fun v user I hderived hI => ⟨fun hargument => ?_, fun hstored => ?_⟩
      · exact absurd ⟨v, user, I, hderived, hI, .inl hargument⟩ (h huse)
      · exact absurd ⟨v, user, I, hderived, hI, .inr hstored⟩ (h huse)
  · rintro (huse | hcounted) hsafe hescapes
    · exact hsafe huse
    · exact hsafe (hasCountedUse_of_escapes hcounted hescapes)

end Search

/-! ## The checks -/

/-- `EmitCheckValue` of a pointer: `CreatePtrToInt`. -/
def emitCheckValue (pointer : ℕ) : UserInst where
  opcode := .ptrToInt
  operands := [some pointer]
  numArgs := 0
  isLifetime := false
  isPointerTy := false

/-- The call that `BitypeEmitCheck` emits: two addresses and three constants. -/
def bitypeEmitCheck (sourcePtr thisPtr : ℕ) : UserInst where
  opcode := .call
  operands := [some sourcePtr, some thisPtr, none, none, none, none]
  numArgs := 5
  isLifetime := false
  isPointerTy := false

/-- A check of a derived pointer is a use that matters. -/
theorem escapes_of_check {F : UseGraph} {AI : AllocaInst F} {pointer sourcePtr thisPtr user : ℕ}
    (hderived : DerivedValue AI pointer)
    (hvalue : F.insts[sourcePtr]? = some (emitCheckValue pointer))
    (hcheck : F.insts[user]? = some (bitypeEmitCheck sourcePtr thisPtr)) : Escapes AI := by
  have hconverted : DerivedValue AI sourcePtr := hderived.tail
    ⟨(F.mem_uses pointer sourcePtr).mpr ⟨_, hvalue, List.mem_cons_self⟩, _, hvalue, rfl⟩
  have hargument : (bitypeEmitCheck sourcePtr thisPtr).IsArgument sourcePtr :=
    ⟨.inl rfl, rfl, List.mem_cons_self⟩
  exact ⟨sourcePtr, user, _, hconverted, hcheck, .inl hargument⟩

/-- A downcast of an object on the stack: the address is converted and checked. -/
def checkedFunction : UseGraph :=
  .ofInsts [⟨.other, [none], 0, false, true⟩, emitCheckValue 0, bitypeEmitCheck 1 1]

/-- The object. -/
def checkedObject : AllocaInst checkedFunction := ⟨0, by decide, false, true⟩

/-- It is left out although it is checked. -/
theorem check_hidden : ¬ SkippingSound checkedObject := by
  have hsafe : isSafeStackAlloca checkedObject = some true := by decide
  have hcheck : checkedFunction.insts[2]? = some (bitypeEmitCheck 1 1) := rfl
  exact fun h => h hsafe (escapes_of_check .refl rfl hcheck)

end Bitype.Pass
