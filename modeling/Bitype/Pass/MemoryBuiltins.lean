import Bitype.Pass.Types
import Bitype.Runtime.Shadow

/-!
# Calls that allocate

What the analysis of the compiler tells the pass about a call.  A table has the library
functions that allocate, with the kind of each and the parameters that give the size; a
question about a call goes through the table with the kinds it asks for as a mask.

The four questions the pass asks overlap.  `kinds_spec` lists the kinds there are, and
`allocates_iff` and the lemmas after it say which of them answer each question.
-/

namespace Bitype.Pass.MemoryBuiltins

open Bitype.Runtime Bitype.Tool

/-! ## The library functions -/

/-- `AllocType`, one bit for each kind. -/
abbrev AllocType := BitVec 8

def OpNewLike : AllocType := 1
def MallocLike : AllocType := 1 <<< 1 ||| OpNewLike
def CallocLike : AllocType := 1 <<< 2
def ReallocLike : AllocType := 1 <<< 3
def StrDupLike : AllocType := 1 <<< 4
def AllocLike : AllocType := MallocLike ||| CallocLike ||| StrDupLike
def AnyAlloc : AllocType := AllocLike ||| ReallocLike

/-- The members of `LibFunc` that the table is about. -/
inductive LibFunc
  | malloc
  | valloc
  | Znwj
  | ZnwjRKSt9nothrow_t
  | Znwm
  | ZnwmRKSt9nothrow_t
  | Znaj
  | ZnajRKSt9nothrow_t
  | Znam
  | ZnamRKSt9nothrow_t
  | msvc_new_int
  | msvc_new_int_nothrow
  | msvc_new_longlong
  | msvc_new_longlong_nothrow
  | msvc_new_array_int
  | msvc_new_array_int_nothrow
  | msvc_new_array_longlong
  | msvc_new_array_longlong_nothrow
  | calloc
  | realloc
  | reallocf
  | strdup
  | strndup
deriving DecidableEq

/-- `StandardNames`. -/
def standardName : LibFunc → String
  | .malloc => "malloc"
  | .valloc => "valloc"
  | .Znwj => "_Znwj"
  | .ZnwjRKSt9nothrow_t => "_ZnwjRKSt9nothrow_t"
  | .Znwm => "_Znwm"
  | .ZnwmRKSt9nothrow_t => "_ZnwmRKSt9nothrow_t"
  | .Znaj => "_Znaj"
  | .ZnajRKSt9nothrow_t => "_ZnajRKSt9nothrow_t"
  | .Znam => "_Znam"
  | .ZnamRKSt9nothrow_t => "_ZnamRKSt9nothrow_t"
  | .msvc_new_int => "??2@YAPAXI@Z"
  | .msvc_new_int_nothrow => "??2@YAPAXIABUnothrow_t@std@@@Z"
  | .msvc_new_longlong => "??2@YAPEAX_K@Z"
  | .msvc_new_longlong_nothrow => "??2@YAPEAX_KAEBUnothrow_t@std@@@Z"
  | .msvc_new_array_int => "??_U@YAPAXI@Z"
  | .msvc_new_array_int_nothrow => "??_U@YAPAXIABUnothrow_t@std@@@Z"
  | .msvc_new_array_longlong => "??_U@YAPEAX_K@Z"
  | .msvc_new_array_longlong_nothrow => "??_U@YAPEAX_KAEBUnothrow_t@std@@@Z"
  | .calloc => "calloc"
  | .realloc => "realloc"
  | .reallocf => "reallocf"
  | .strdup => "strdup"
  | .strndup => "strndup"

/-- A parameter that is not used is -1 in the source, and `none` here. -/
structure AllocFnsTy where
  allocTy : AllocType
  numParams : ℕ
  fstParam : Option ℕ
  sndParam : Option ℕ
deriving DecidableEq

/-- `AllocationFnData`. -/
def allocationFnData : List (LibFunc × AllocFnsTy) :=
  [(.malloc, ⟨MallocLike, 1, some 0, none⟩),
    (.valloc, ⟨MallocLike, 1, some 0, none⟩),
    (.Znwj, ⟨OpNewLike, 1, some 0, none⟩),
    (.ZnwjRKSt9nothrow_t, ⟨MallocLike, 2, some 0, none⟩),
    (.Znwm, ⟨OpNewLike, 1, some 0, none⟩),
    (.ZnwmRKSt9nothrow_t, ⟨MallocLike, 2, some 0, none⟩),
    (.Znaj, ⟨OpNewLike, 1, some 0, none⟩),
    (.ZnajRKSt9nothrow_t, ⟨MallocLike, 2, some 0, none⟩),
    (.Znam, ⟨OpNewLike, 1, some 0, none⟩),
    (.ZnamRKSt9nothrow_t, ⟨MallocLike, 2, some 0, none⟩),
    (.msvc_new_int, ⟨OpNewLike, 1, some 0, none⟩),
    (.msvc_new_int_nothrow, ⟨MallocLike, 2, some 0, none⟩),
    (.msvc_new_longlong, ⟨OpNewLike, 1, some 0, none⟩),
    (.msvc_new_longlong_nothrow, ⟨MallocLike, 2, some 0, none⟩),
    (.msvc_new_array_int, ⟨OpNewLike, 1, some 0, none⟩),
    (.msvc_new_array_int_nothrow, ⟨MallocLike, 2, some 0, none⟩),
    (.msvc_new_array_longlong, ⟨OpNewLike, 1, some 0, none⟩),
    (.msvc_new_array_longlong_nothrow, ⟨MallocLike, 2, some 0, none⟩),
    (.calloc, ⟨CallocLike, 2, some 0, some 1⟩),
    (.realloc, ⟨ReallocLike, 2, some 1, none⟩),
    (.reallocf, ⟨ReallocLike, 2, some 1, none⟩),
    (.strdup, ⟨StrDupLike, 1, none, none⟩),
    (.strndup, ⟨StrDupLike, 2, some 1, none⟩)]

/-! ## Calls -/

/-- A function that is called: its name, whether it returns an `i8*`, and the widths of its
parameters, `none` for one that is no integer. -/
structure CalledFunction where
  name : Name
  isIntrinsic : Bool
  returnsInt8Ptr : Bool
  params : List (Option ℕ)

/-- A call: `getCalledFunction`, the values of the operands on a run, and the type that
`getMallocAllocatedType` finds from the casts of the result. -/
structure CallInst where
  calledFunction : Option CalledFunction
  args : List Word
  allocatedType : Option IRType

def CallInst.getArgOperand (call : CallInst) (i : ℕ) : Word := call.args.getD i 0

/-- `sanitizeFunctionName`; the empty name stands for none. -/
def sanitizeFunctionName (funcName : Name) : Name :=
  if Char.ofNat 0 ∈ funcName then []
  else if funcName.head? = some (Char.ofNat 1) then funcName.tail
  else funcName

/-- `TargetLibraryInfoImpl::getLibFunc`, as far as the table goes. -/
def getLibFunc (funcName : Name) : Option LibFunc :=
  (allocationFnData.map (·.1)).find? fun f =>
    (standardName f).toList = sanitizeFunctionName funcName

section Analysis

-- `TargetLibraryInfo::has`
variable (has : LibFunc → Bool)

/-- A parameter of the prototype that gives a size has 32 or 64 bits. -/
def CalledFunction.sizeParam (callee : CalledFunction) : Option ℕ → Bool
  | none => true
  | some i => callee.params[i]? = some (some 32) || callee.params[i]? = some (some 64)

/-- The prototype is the one the table expects. -/
def CalledFunction.HasPrototype (callee : CalledFunction) (fnData : AllocFnsTy) : Prop :=
  callee.returnsInt8Ptr = true ∧ callee.params.length = fnData.numParams ∧
    callee.sizeParam fnData.fstParam = true ∧ callee.sizeParam fnData.sndParam = true

instance (callee : CalledFunction) (fnData : AllocFnsTy) :
    Decidable (callee.HasPrototype fnData) :=
  inferInstanceAs (Decidable (_ ∧ _ ∧ _ ∧ _))

/-- `getAllocationDataForFunction`. -/
def getAllocationDataForFunction (callee : CalledFunction) (allocTy : AllocType) :
    Option AllocFnsTy :=
  match getLibFunc callee.name with
  | none => none
  | some tliFn =>
      if has tliFn = false then none
      else
        match (allocationFnData.find? fun entry => entry.1 = tliFn).map (·.2) with
        | none => none
        | some fnData =>
            if fnData.allocTy &&& allocTy ≠ fnData.allocTy then none
            else if callee.HasPrototype fnData then some fnData
            else none

/-- `getAllocationData`. -/
def getAllocationData (call : CallInst) (allocTy : AllocType) : Option AllocFnsTy :=
  match call.calledFunction with
  | none => none
  | some callee =>
      if callee.isIntrinsic = true then none
      else getAllocationDataForFunction has callee allocTy

def isAllocationFn (call : CallInst) : Bool := (getAllocationData has call AnyAlloc).isSome

def isMallocLikeFn (call : CallInst) : Bool := (getAllocationData has call MallocLike).isSome

def isCallocLikeFn (call : CallInst) : Bool := (getAllocationData has call CallocLike).isSome

def isAllocLikeFn (call : CallInst) : Bool := (getAllocationData has call AllocLike).isSome

/-! ## What the questions come to -/

variable {has} {call : CallInst}

/-- The kinds in the table: the size of an object comes first, a `realloc` has it behind the
old block, a `calloc` has the number of objects and their size, a `strdup` has none. -/
def AllocFnsTy.Known (data : AllocFnsTy) : Prop :=
  (data.allocTy = OpNewLike ∨ data.allocTy = MallocLike) ∧ data.fstParam = some 0 ∧
      data.sndParam = none ∨
    data.allocTy = ReallocLike ∧ data.fstParam = some 1 ∧ data.sndParam = none ∨
    data.allocTy = CallocLike ∧ data.fstParam = some 0 ∧ data.sndParam = some 1 ∨
    data.allocTy = StrDupLike

instance (data : AllocFnsTy) : Decidable data.Known := by
  unfold AllocFnsTy.Known
  infer_instance

theorem allocationFnData_known : ∀ entry ∈ allocationFnData, entry.2.Known := by decide

theorem AllocFnsTy.Known.any {data : AllocFnsTy} (h : data.Known) :
    data.allocTy &&& AnyAlloc = data.allocTy := by
  rcases h with ⟨h | h, -⟩ | ⟨h, -⟩ | ⟨h, -⟩ | h
  all_goals
    rw [h]
    decide

/-- The data of a call are in the table. -/
theorem getAllocationData_known {allocTy : AllocType} {data : AllocFnsTy}
    (h : getAllocationData has call allocTy = some data) : data.Known := by
  unfold getAllocationData at h
  split at h
  · cases h
  split at h
  · cases h
  unfold getAllocationDataForFunction at h
  split at h
  · cases h
  split at h
  · cases h
  split at h
  · cases h
  next fnData hfound =>
    obtain ⟨entry, hentry, rfl⟩ := Option.map_eq_some_iff.mp hfound
    split at h
    · cases h
    split at h
    · obtain rfl := Option.some.inj h
      exact allocationFnData_known entry (List.mem_of_find?_eq_some hentry)
    · cases h

/-- A question is the question for any kind, and then the mask. -/
theorem getAllocationData_eq (call : CallInst) (allocTy : AllocType) :
    getAllocationData has call allocTy =
      (getAllocationData has call AnyAlloc).filter fun data =>
        data.allocTy &&& allocTy = data.allocTy := by
  unfold getAllocationData
  split
  · rfl
  next callee _ =>
    by_cases hintrinsic : callee.isIntrinsic = true
    · rw [if_pos hintrinsic, if_pos hintrinsic]
      rfl
    rw [if_neg hintrinsic, if_neg hintrinsic]
    unfold getAllocationDataForFunction
    split
    · rfl
    next tliFn _ =>
      by_cases hhas : has tliFn = false
      · rw [if_pos hhas, if_pos hhas]
        rfl
      rw [if_neg hhas, if_neg hhas]
      split
      · rfl
      next fnData hfound =>
        obtain ⟨entry, hentry, rfl⟩ := Option.map_eq_some_iff.mp hfound
        have hany := (allocationFnData_known entry (List.mem_of_find?_eq_some hentry)).any
        rw [if_neg (not_not.mpr hany)]
        by_cases hprototype : callee.HasPrototype entry.2
        · simp only [if_pos hprototype, Option.filter_some, ne_eq, ite_not, decide_eq_true_eq]
        · simp only [if_neg hprototype, Option.filter_none, ite_self]

/-! ## The four questions -/

section Questions

variable {data : AllocFnsTy}

theorem asks_eq (h : getAllocationData has call AnyAlloc = some data) (allocTy : AllocType) :
    (getAllocationData has call allocTy).isSome = decide (data.allocTy &&& allocTy = data.allocTy) := by
  rw [getAllocationData_eq, h, Option.filter_some]
  by_cases hmask : data.allocTy &&& allocTy = data.allocTy
  · rw [decide_eq_true hmask]
    rfl
  · rw [decide_eq_false hmask]
    rfl

theorem asks_none (h : getAllocationData has call AnyAlloc = none) (allocTy : AllocType) :
    (getAllocationData has call allocTy).isSome = false := by
  rw [getAllocationData_eq, h]
  rfl

/-- `malloc` and `new`. -/
theorem answers_malloc (h : getAllocationData has call AnyAlloc = some data)
    (hkind : data.allocTy = OpNewLike ∨ data.allocTy = MallocLike) :
    isAllocationFn has call = true ∧ isMallocLikeFn has call = true ∧
      isCallocLikeFn has call = false ∧ isAllocLikeFn has call = true := by
  unfold isAllocationFn isMallocLikeFn isCallocLikeFn isAllocLikeFn
  rw [asks_eq h, asks_eq h, asks_eq h, asks_eq h]
  rcases hkind with hkind | hkind
  all_goals
    rw [hkind]
    decide

/-- `realloc` is none of the kinds that the pass tells apart. -/
theorem answers_realloc (h : getAllocationData has call AnyAlloc = some data)
    (hkind : data.allocTy = ReallocLike) :
    isAllocationFn has call = true ∧ isMallocLikeFn has call = false ∧
      isCallocLikeFn has call = false ∧ isAllocLikeFn has call = false := by
  unfold isAllocationFn isMallocLikeFn isCallocLikeFn isAllocLikeFn
  rw [asks_eq h, asks_eq h, asks_eq h, asks_eq h, hkind]
  decide

theorem answers_calloc (h : getAllocationData has call AnyAlloc = some data)
    (hkind : data.allocTy = CallocLike) :
    isAllocationFn has call = true ∧ isMallocLikeFn has call = false ∧
      isCallocLikeFn has call = true ∧ isAllocLikeFn has call = true := by
  unfold isAllocationFn isMallocLikeFn isCallocLikeFn isAllocLikeFn
  rw [asks_eq h, asks_eq h, asks_eq h, asks_eq h, hkind]
  decide

/-- A function that is not in the table. -/
theorem answers_none (h : getAllocationData has call AnyAlloc = none) :
    isAllocationFn has call = false ∧ isMallocLikeFn has call = false ∧
      isCallocLikeFn has call = false ∧ isAllocLikeFn has call = false :=
  ⟨asks_none h _, asks_none h _, asks_none h _, asks_none h _⟩

end Questions

/-- The bytes that a call asks for, by the parameters that give the size; a function that is
not in the table is an `operator new` of a class. -/
def CallInst.requested (has : LibFunc → Bool) (call : CallInst) : ℕ :=
  let value : Option ℕ → ℕ := fun param =>
    (param.map fun i => (call.getArgOperand i).toNat).getD 1
  match getAllocationData has call AnyAlloc with
  | some data => value data.fstParam * value data.sndParam
  | none => (call.getArgOperand 0).toNat

end Analysis

end Bitype.Pass.MemoryBuiltins
