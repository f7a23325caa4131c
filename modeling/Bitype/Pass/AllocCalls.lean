import Bitype.Pass.HeapLifeCycle
import Bitype.Pass.MemoryBuiltins
import Bitype.Pass.TraceLog

/-!
# Tracing what a call has allocated

`handleHeapAlloc` works out from the arguments of a call how many objects there are.  For
`malloc`, `new` and `realloc` it divides the bytes by the size of an object.  For `calloc`
it takes the second argument, which is the size of an object and not their number.

The runtime gets the number as 32 bits.  `allocCall_inside_iff` says when the sequence stays
inside the block and notes the right number.
-/

namespace Bitype.Pass

open Bitype.Foundations Bitype.Runtime
open Bitype.Tool (Name)
open MemoryBuiltins (LibFunc CallInst AllocFnsTy AnyAlloc StrDupLike CallocLike getAllocationData isAllocationFn
  isMallocLikeFn isCallocLikeFn isAllocLikeFn getAllocationData_known answers_malloc answers_realloc
  answers_calloc answers_none)

/-! ## The calls -/

section Calls

-- `TargetLibraryInfo::has` and `abi::__cxa_demangle`
variable (has : LibFunc → Bool) (demangle : Name → Option Name)

/-- `text.find(pattern) != npos`. -/
def containsText (pattern : String) (text : Name) : Bool :=
  (splitAtFirst pattern.toList text).isSome

def isAllocCall (call : CallInst) : Bool :=
  isAllocationFn has call &&
    (isMallocLikeFn has call || isCallocLikeFn has call || !isAllocLikeFn has call)

/-- The name of the function, the empty name if it is not known. -/
def functionName (call : CallInst) : Name := (call.calledFunction.map (·.name)).getD []

/-- `isOverloadedNew` in `collectHeapAlloc`: the `operator new` of a class. -/
def isOverloadedNew (call : CallInst) : Bool :=
  match demangle (functionName call) with
  | none => false
  | some unmangledNameStr =>
      containsText "::operator new(unsigned long)" unmangledNameStr ||
        containsText "::operator new(unsigned long, std::nothrow_t const&)" unmangledNameStr ||
        containsText "::operator new[](unsigned long)" unmangledNameStr ||
        containsText "::operator new[](unsigned long, std::nothrow_t const&)" unmangledNameStr

/-- `isReallocFn`. -/
def isReallocFn (call : CallInst) : Bool := containsText "realloc" (functionName call)

variable (M : Module) (files : ClassFiles) (inlineOpt : Bool) (place : Name → Word)

/-- `collectHeapAlloc`: the type of the objects, if the call is collected. -/
def collectHeapAlloc (call : CallInst) : Option IRType :=
  if isAllocCall has call || isOverloadedNew demangle call then
    match call.allocatedType with
    | some allocTy => if M.isInterestingType allocTy then some allocTy else none
    | none => none
  else none

/-- The loop body of `handleHeapAlloc` for a call that returns `objAddr`. -/
def handleAllocCall (isConstant : Bool) (call : CallInst) (objAddr : Word) (type : IRType) :
    List Event :=
  let offsets := M.elementsOf files type
  if offsets.isEmpty = true then []
  else if isMallocLikeFn has call || !isAllocLikeFn has call || !isAllocationFn has call then
    let arraySize :=
      if isMallocLikeFn has call || !isAllocationFn has call then call.getArgOperand 0
      else call.getArgOperand 1
    insertUpdate M inlineOpt place
      (heapSite M (isReallocFn call) isConstant ⟨objAddr, arraySize, type⟩) offsets
  else if isCallocLikeFn has call then
    insertUpdate M inlineOpt place
      { heapSite M false isConstant ⟨objAddr, 0, type⟩ with arraySize := call.getArgOperand 1 }
      offsets
  else []

/-- What the pass emits behind a call that returns `objAddr`. -/
def traceAllocCall (isConstant : Bool) (call : CallInst) (objAddr : Word) : List Event :=
  match collectHeapAlloc has demangle M call with
  | none => []
  | some type => handleAllocCall has M files inlineOpt place isConstant call objAddr type

/-- The call allocates: it is one of the library functions for that, other than `strdup`, or
the `operator new` of a class. -/
def Allocates (call : CallInst) : Prop :=
  match getAllocationData has call AnyAlloc with
  | some data => data.allocTy ≠ StrDupLike
  | none => isOverloadedNew demangle call = true

end Calls

/-! ## What a sequence registers -/

/-- The addresses at which an event stores a reference. -/
def registered : Event → List Word
  | .call (.updateObjTrace thisPtr _ typeSize arraySize _) =>
      (List.range arraySize.toNat).map fun i => elementAddr thisPtr typeSize (BitVec.ofNat 32 i)
  | .call (.directUpdateObjTrace thisPtr _ _) => [thisPtr]
  | .inlineUpdate newAddr _ _ => [newAddr]
  | _ => []

/-- The event updates the trace of objects, or notes their number. -/
def IsUpdate : Event → Prop
  | .call (.updateObjTrace ..) => True
  | .call (.directUpdateObjTrace ..) => True
  | .call (.updateArraySize ..) => True
  | .inlineUpdate .. => True
  | _ => False

/-- The number of objects that an event notes. -/
def notedSize : Event → Option U32
  | .call (.updateArraySize _ arraySize) => some arraySize
  | _ => none

/-- The references lie in the block, and the number noted is `count`. -/
structure TracesBlock (objAddr : Word) (bytes count : ℕ) (events : List Event) : Prop where
  inside : ∀ event ∈ events, ∀ addr ∈ registered event,
    objAddr.toNat ≤ addr.toNat ∧ addr.toNat < objAddr.toNat + bytes
  size : ∀ event ∈ events, ∀ arraySize, notedSize event = some arraySize → arraySize.toNat = count

section Registered

variable {mmap : ℕ → ℕ} (rodata : Word → Byte)

/-- What is registered is what is written. -/
theorem logs_event (fresh : FreshMmap mmap) {event : Event} (h : IsUpdate event) :
    ∃ log, Logs mmap rodata [event] log ∧ log.map Prod.fst = (registered event).map granule := by
  cases event with
  | call op =>
      cases op with
      | updateObjTrace thisPtr referenceAddr typeSize arraySize offset =>
          refine ⟨_, logs_updateObjTrace rodata fresh thisPtr referenceAddr typeSize arraySize offset,
            ?_⟩
          rw [List.map_map, registered, List.map_map]
          rfl
      | directUpdateObjTrace thisPtr referenceAddr offset =>
          exact ⟨_, logs_directUpdateObjTrace fresh thisPtr referenceAddr offset, rfl⟩
      | updateArraySize thisPtr arraySize =>
          exact ⟨_, logs_updateArraySize fresh thisPtr arraySize, rfl⟩
      | _ => exact absurd h id
  | inlineUpdate newAddr referenceAddr offset =>
      exact ⟨_, logs_inlineUpdate fresh newAddr referenceAddr offset, rfl⟩
  | _ => exact absurd h id

/-- **A sequence of updates writes the granules of the addresses it registers**, and no
others. -/
theorem logs_registered (fresh : FreshMmap mmap) (events : List Event)
    (h : ∀ event ∈ events, IsUpdate event) :
    ∃ log, Logs mmap rodata events log ∧
      log.map Prod.fst = (events.flatMap registered).map granule := by
  induction events with
  | nil => exact ⟨[], Logs.nil, rfl⟩
  | cons event rest ih =>
      obtain ⟨log, hlog, hkeys⟩ := logs_event rodata fresh (h event List.mem_cons_self)
      obtain ⟨log', hlog', hkeys'⟩ := ih fun e he => h e (List.mem_cons_of_mem _ he)
      refine ⟨log ++ log', hlog.append hlog', ?_⟩
      rw [List.map_append, hkeys, hkeys', List.flatMap_cons, List.map_append]

end Registered

section Sequence

variable {M : Module} {files : ClassFiles} {inlineOpt : Bool} {place : Name → Word} {site : Site}
  {type : IRType}

/-- The two calls for a granule. -/
theorem mem_emitEntry_vla {entry : ℕ × Finset ℕ} (hne : entry.2.card ≠ 0)
    (hsmall : 8 * entry.1 < 2 ^ 32) {event : Event} :
    event ∈ emitEntry M inlineOpt place .vlaObjAdd site 0 entry ↔
      event = .call (.updateObjTrace (site.objAddr + BitVec.ofNat 64 (8 * entry.1))
        (place (M.setName entry.2)) (BitVec.ofNat 32 site.typeSize) (site.arraySize.setWidth 32)
        (BitVec.ofNat 32 (8 * entry.1))) ∨
      event = .call (.updateArraySize site.objAddr (site.arraySize.setWidth 32)) := by
  rw [emitEntry_vla hne hsmall, List.mem_cons, List.mem_singleton]

/-- **The sequence for a heap block** stays inside the block and notes the number of objects
if the runtime gets that number, and only then. -/
theorem tracesBlock_iff (hM : M.Fitting) (hne : (M.elementsOf files type).isEmpty = false)
    (hkind : site.allocType = .heapAlloc ∨ site.allocType = .realloc)
    (hsize : site.typeSize = uint32 (M.getTypeAllocSize type)) {bytes : ℕ}
    (hblock : site.objAddr.toNat + bytes ≤ 2 ^ 64) :
    TracesBlock site.objAddr bytes (bytes / M.getTypeAllocSize type)
        (insertUpdate M inlineOpt place site (M.elementsOf files type)) ↔
      site.arraySize.toNat % 2 ^ 32 = bytes / M.getTypeAllocSize type := by
  have hcount : (site.arraySize.setWidth 32).toNat = site.arraySize.toNat % 2 ^ 32 :=
    BitVec.toNat_setWidth 32 site.arraySize
  rw [insertUpdate_vla (hkind.imp_right .inl), ← hcount]
  constructor
  -- each entry notes the number of objects, so the first one does
  · intro h
    obtain ⟨entry, rest, hlist⟩ : ∃ entry rest, (M.elementsOf files type).toList = entry :: rest :=
      List.exists_cons_of_ne_nil (by simpa [← Std.TreeMap.isEmpty_toList] using hne)
    have hentry : entry ∈ (M.elementsOf files type).toList := hlist ▸ List.mem_cons_self
    obtain ⟨hsmall, hcard⟩ := entries_of_elementsOf type entry hentry
    refine h.size (.call (.updateArraySize site.objAddr (site.arraySize.setWidth 32))) ?_ _ rfl
    exact List.mem_flatMap.mpr ⟨entry, hentry, (mem_emitEntry_vla hcard (by omega)).mpr (.inr rfl)⟩
  · intro h
    constructor
    · intro event hevent addr haddr
      obtain ⟨entry, hentry, hevent⟩ := List.mem_flatMap.mp hevent
      obtain ⟨hsmall, hcard⟩ := entries_of_elementsOf type entry hentry
      rcases (mem_emitEntry_vla hcard (by omega)).mp hevent with rfl | rfl
      · obtain ⟨i, hi, rfl⟩ := List.mem_map.mp haddr
        have hlt : 8 * entry.1 < M.getTypeAllocSize type :=
          TypeTable.elementsOf_lt hM (Std.TreeMap.mem_toList_iff_getElem?_eq_some.mp hentry)
        have hend : M.getTypeAllocSize type * i + M.getTypeAllocSize type ≤ bytes := by
          rw [List.mem_range, h] at hi
          calc M.getTypeAllocSize type * i + M.getTypeAllocSize type
              = M.getTypeAllocSize type * (i + 1) := (Nat.mul_succ _ _).symm
            _ ≤ M.getTypeAllocSize type * (bytes / M.getTypeAllocSize type) :=
                Nat.mul_le_mul_left _ hi
            _ ≤ bytes := Nat.mul_div_le _ _
        -- the 32-bit product is never behind the true one
        have hless : M.getTypeAllocSize type * i % 2 ^ 32 ≤ M.getTypeAllocSize type * i :=
          Nat.mod_le _ _
        rw [hsize, toNat_objectAddr (by omega)]
        omega
      · cases haddr
    · intro event hevent arraySize hsize'
      obtain ⟨entry, hentry, hevent⟩ := List.mem_flatMap.mp hevent
      obtain ⟨hsmall, hcard⟩ := entries_of_elementsOf type entry hentry
      rcases (mem_emitEntry_vla hcard (by omega)).mp hevent with rfl | rfl
      · cases hsize'
      · rw [← Option.some.inj hsize', h]

/-- The sequence is made of updates. -/
theorem isUpdate_heap (hkind : site.allocType = .heapAlloc ∨ site.allocType = .realloc) :
    ∀ event ∈ insertUpdate M inlineOpt place site (M.elementsOf files type), IsUpdate event := by
  rw [insertUpdate_vla (hkind.imp_right .inl)]
  intro event hevent
  obtain ⟨entry, hentry, hevent⟩ := List.mem_flatMap.mp hevent
  obtain ⟨hsmall, hcard⟩ := entries_of_elementsOf type entry hentry
  rcases (mem_emitEntry_vla hcard (by omega)).mp hevent with rfl | rfl
  · trivial
  · trivial

end Sequence

/-! ## The arguments of a call -/

section Arguments

variable {has : LibFunc → Bool} {demangle : Name → Option Name} {M : Module}
  {files : ClassFiles} {inlineOpt : Bool} {place : Name → Word} {call : CallInst}
  {data : AllocFnsTy} {type : IRType} {isConstant : Bool} {objAddr : Word}

/-- The kinds of call, by the answers the pass gets: what it divides, and what the call asks
for. -/
theorem allocates_cases (hcall : Allocates has demangle call) :
    (isAllocCall has call || isOverloadedNew demangle call) = true ∧
      ((isMallocLikeFn has call || !isAllocationFn has call) = true ∧
          isCallocLikeFn has call = false ∧
          call.requested has = (call.getArgOperand 0).toNat ∨
        isMallocLikeFn has call = false ∧ isAllocationFn has call = true ∧
          isAllocLikeFn has call = false ∧ isCallocLikeFn has call = false ∧
          call.requested has = (call.getArgOperand 1).toNat ∨
        isMallocLikeFn has call = false ∧ isAllocationFn has call = true ∧
          isAllocLikeFn has call = true ∧ isCallocLikeFn has call = true) := by
  unfold Allocates at hcall
  unfold isAllocCall CallInst.requested
  cases hdata : getAllocationData has call AnyAlloc with
  | none =>
      rw [hdata] at hcall
      obtain ⟨hany, hmalloc, hcalloc, -⟩ := answers_none hdata
      rw [show isOverloadedNew demangle call = true from hcall, Bool.or_true]
      exact ⟨rfl, .inl ⟨by rw [hany, Bool.not_false, Bool.or_true], hcalloc, rfl⟩⟩
  | some data =>
      rw [hdata] at hcall
      rcases getAllocationData_known hdata with
        ⟨hkind, hfst, hsnd⟩ | ⟨hkind, hfst, hsnd⟩ | ⟨hkind, -, -⟩ | hkind
      · obtain ⟨hany, hmalloc, hcalloc, -⟩ := answers_malloc hdata hkind
        simp [hany, hmalloc, hcalloc, hfst, hsnd]
      · obtain ⟨hany, hmalloc, hcalloc, halloc⟩ := answers_realloc hdata hkind
        simp [hany, hmalloc, hcalloc, halloc, hfst, hsnd]
      · obtain ⟨hany, hmalloc, hcalloc, halloc⟩ := answers_calloc hdata hkind
        simp [hany, hmalloc, hcalloc, halloc]
      · exact absurd hkind hcall

variable (inlineOpt place isConstant objAddr) in
/-- What is emitted for a call that allocates objects of a type with traced classes. -/
theorem traceAllocCall_spec (hcall : Allocates has demangle call)
    (htype : call.allocatedType = some type) (hinteresting : M.isInterestingType type = true)
    (hne : (M.elementsOf files type).isEmpty = false) (hpos : 0 < M.getTypeAllocSize type)
    (hsize : M.getTypeAllocSize type < 2 ^ 64) :
    ∃ site : Site, (site.allocType = .heapAlloc ∨ site.allocType = .realloc) ∧
      site.objAddr = objAddr ∧ site.typeSize = uint32 (M.getTypeAllocSize type) ∧
      site.arraySize.toNat = (if isCallocLikeFn has call = true then (call.getArgOperand 1).toNat
        else call.requested has / M.getTypeAllocSize type) ∧
      traceAllocCall has demangle M files inlineOpt place isConstant call objAddr =
        insertUpdate M inlineOpt place site (M.elementsOf files type) := by
  obtain ⟨hseen, hcases⟩ := allocates_cases hcall
  have hcollect : collectHeapAlloc has demangle M call = some type := by
    unfold collectHeapAlloc
    rw [if_pos hseen, htype]
    exact if_pos hinteresting
  have hkind : ∀ isRealloc b, (heapSite M isRealloc isConstant b).allocType = .heapAlloc ∨
      (heapSite M isRealloc isConstant b).allocType = .realloc := by
    intro isRealloc b
    cases isRealloc
    · exact .inl rfl
    · exact .inr rfl
  have hdivided : ∀ arraySize : Word, (arraySizeF M ⟨objAddr, arraySize, type⟩).toNat =
      arraySize.toNat / M.getTypeAllocSize type := by
    intro arraySize
    rw [toNat_arraySizeF hsize, if_pos hpos.ne']
  unfold traceAllocCall handleAllocCall
  rw [hcollect]
  simp only [hne, Bool.false_eq_true, if_false]
  rcases hcases with ⟨hmalloc, hcalloc, hbytes⟩ | ⟨hmalloc, hany, halloc, hcalloc, hbytes⟩ |
    ⟨hmalloc, hany, halloc, hcalloc⟩
  -- the bytes are the first operand
  · have hbranch : (isMallocLikeFn has call || !isAllocLikeFn has call || !isAllocationFn has call) =
        true := by
      rcases Bool.or_eq_true_iff.mp hmalloc with h | h
      · rw [h, Bool.true_or, Bool.true_or]
      · rw [h, Bool.or_true]
    rw [if_pos hbranch, if_pos hmalloc]
    refine ⟨_, hkind _ _, rfl, rfl, ?_, rfl⟩
    rw [hcalloc, if_neg Bool.false_ne_true, hbytes]
    exact hdivided _
  -- the bytes are the second operand
  · rw [hmalloc, hany, halloc]
    refine ⟨_, hkind _ _, rfl, rfl, ?_, rfl⟩
    rw [hcalloc, if_neg Bool.false_ne_true, hbytes]
    exact hdivided _
  -- `calloc` is given the count itself
  · rw [hmalloc, hany, halloc, hcalloc]
    exact ⟨{ heapSite M false isConstant ⟨objAddr, 0, type⟩ with
      arraySize := call.getArgOperand 1 }, .inl rfl, rfl, rfl, rfl, rfl⟩

/-- The number of objects that the pass takes from the arguments is the right one, and has
32 bits. -/
def Countable (has : LibFunc → Bool) (call : CallInst) (typeSize : ℕ) : Prop :=
  if isCallocLikeFn has call = true then
    (call.getArgOperand 1).toNat % 2 ^ 32 = call.requested has / typeSize
  else call.requested has / typeSize < 2 ^ 32

/-- **When heap tracing stays inside the block**: the number that the arguments give is the
number of objects. -/
theorem allocCall_inside_iff (hM : M.Fitting) (hcall : Allocates has demangle call)
    (htype : call.allocatedType = some type) (hinteresting : M.isInterestingType type = true)
    (hne : (M.elementsOf files type).isEmpty = false) (hpos : 0 < M.getTypeAllocSize type)
    (hsize : M.getTypeAllocSize type < 2 ^ 64)
    (hblock : objAddr.toNat + call.requested has ≤ 2 ^ 64) :
    TracesBlock objAddr (call.requested has) (call.requested has / M.getTypeAllocSize type)
        (traceAllocCall has demangle M files inlineOpt place isConstant call objAddr) ↔
      Countable has call (M.getTypeAllocSize type) := by
  obtain ⟨site, hkind, rfl, htypeSize, hcount, hevents⟩ :=
    traceAllocCall_spec inlineOpt place isConstant objAddr hcall htype hinteresting hne hpos hsize
  rw [hevents, tracesBlock_iff hM hne hkind htypeSize hblock, hcount]
  unfold Countable
  split
  · rfl
  · exact Nat.mod_eq_iff_lt (by decide)

variable (inlineOpt place isConstant objAddr) in
/-- What a run of the sequence writes lies in the block, if the number is right. -/
theorem allocCall_writes {mmap : ℕ → ℕ} (rodata : Word → Byte) (fresh : FreshMmap mmap)
    (hM : M.Fitting) (hcall : Allocates has demangle call)
    (htype : call.allocatedType = some type) (hinteresting : M.isInterestingType type = true)
    (hne : (M.elementsOf files type).isEmpty = false) (hpos : 0 < M.getTypeAllocSize type)
    (hsize : M.getTypeAllocSize type < 2 ^ 64)
    (hblock : objAddr.toNat + call.requested has ≤ 2 ^ 64)
    (hcountable : Countable has call (M.getTypeAllocSize type)) :
    ∃ log, Logs mmap rodata
        (traceAllocCall has demangle M files inlineOpt place isConstant call objAddr) log ∧
      ∀ write ∈ log, ∃ addr : Word, granule addr = write.1 ∧ objAddr.toNat ≤ addr.toNat ∧
        addr.toNat < objAddr.toNat + call.requested has := by
  obtain ⟨site, hkind, rfl, htypeSize, hcount, hevents⟩ :=
    traceAllocCall_spec inlineOpt place isConstant objAddr hcall htype hinteresting hne hpos hsize
  rw [hevents]
  have htraces : TracesBlock site.objAddr (call.requested has)
      (call.requested has / M.getTypeAllocSize type)
      (insertUpdate M inlineOpt place site (M.elementsOf files type)) := by
    rw [tracesBlock_iff hM hne hkind htypeSize hblock, hcount]
    unfold Countable at hcountable
    split
    · next hcalloc => rwa [if_pos hcalloc] at hcountable
    · next hcalloc =>
        rw [if_neg hcalloc] at hcountable
        exact Nat.mod_eq_of_lt hcountable
  obtain ⟨log, hlog, hkeys⟩ := logs_registered rodata fresh _ (isUpdate_heap hkind)
  refine ⟨log, hlog, fun write hwrite => ?_⟩
  have hkey : write.1 ∈ log.map Prod.fst := List.mem_map_of_mem hwrite
  rw [hkeys] at hkey
  obtain ⟨addr, haddr, hgranule⟩ := List.mem_map.mp hkey
  obtain ⟨event, hevent, haddr⟩ := List.mem_flatMap.mp haddr
  exact ⟨addr, hgranule, htraces.inside event hevent addr haddr⟩

end Arguments

/-! ## The size of an object for the number of objects -/

/-- `calloc(1, sizeof(D))`. -/
def callocCall : CallInst where
  calledFunction := some ⟨"calloc".toList, false, true, [some 64, some 64]⟩
  args := [1, 40]
  allocatedType := some (.struct 1)

theorem callocCall_data : getAllocationData (fun _ => true) callocCall AnyAlloc =
    some ⟨CallocLike, 2, some 0, some 1⟩ := by decide +kernel

theorem callocCall_requested : callocCall.requested (fun _ => true) = 40 := by
  unfold CallInst.requested
  rw [callocCall_data]
  rfl

theorem callocCall_allocates (demangle : Name → Option Name) :
    Allocates (fun _ => true) demangle callocCall := by
  unfold Allocates
  rw [callocCall_data]
  show CallocLike ≠ StrDupLike
  decide

theorem wideModule_interesting :
    wideModule.isInterestingType (.struct 1) = true ∧
      (wideModule.elementsOf wideFiles (.struct 1)).isEmpty = false := by decide +kernel

/-- A `D` from `calloc`, at 4096. -/
theorem allocCall_inside_iff_sample :
    TracesBlock 4096 (callocCall.requested fun _ => true)
        (callocCall.requested (fun _ => true) / wideModule.getTypeAllocSize (.struct 1))
        (traceAllocCall (fun _ => true) (fun _ => none) wideModule wideFiles true (fun _ => 4096)
          true callocCall 4096) ↔
      Countable (fun _ => true) callocCall (wideModule.getTypeAllocSize (.struct 1)) :=
  allocCall_inside_iff wideModule_fitting (callocCall_allocates _) rfl wideModule_interesting.1
    wideModule_interesting.2 (by decide) (by decide) (by rw [callocCall_requested]; decide)

/-- The sequence for one `D` from `calloc` goes over forty of them. -/
theorem calloc_traces_past :
    ¬ ∀ (has : LibFunc → Bool) (demangle : Name → Option Name) (M : Module) (files : ClassFiles)
      (inlineOpt : Bool) (place : Name → Word) (isConstant : Bool) (call : CallInst)
      (objAddr : Word) (type : IRType), M.Fitting → Allocates has demangle call →
      call.allocatedType = some type → M.isInterestingType type = true →
      (M.elementsOf files type).isEmpty = false → 0 < M.getTypeAllocSize type →
      objAddr.toNat + call.requested has ≤ 2 ^ 64 →
      TracesBlock objAddr (call.requested has) (call.requested has / M.getTypeAllocSize type)
        (traceAllocCall has demangle M files inlineOpt place isConstant call objAddr) := by
  intro h
  have htraces := h (fun _ => true) (fun _ => none) wideModule wideFiles true (fun _ => 4096) true
    callocCall 4096 (.struct 1) wideModule_fitting (callocCall_allocates _) rfl
    wideModule_interesting.1 wideModule_interesting.2 (by decide)
    (by rw [callocCall_requested]; decide)
  obtain ⟨site, hkind, haddr, htypeSize, hcount, hevents⟩ :=
    traceAllocCall_spec true (fun _ => 4096) true 4096 (callocCall_allocates fun _ => none) rfl
      wideModule_interesting.1 wideModule_interesting.2 (by decide) (by decide)
  have hcalloc : isCallocLikeFn (fun _ => true) callocCall = true :=
    (answers_calloc callocCall_data rfl).2.2.1
  rw [hevents, ← haddr, tracesBlock_iff wideModule_fitting wideModule_interesting.2 hkind htypeSize
    (by rw [haddr, callocCall_requested]; decide), hcount, if_pos hcalloc,
    callocCall_requested] at htraces
  exact absurd htraces (by decide)

end Bitype.Pass
