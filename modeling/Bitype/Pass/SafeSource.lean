import Bitype.Pass.Alignment
import Bitype.Pass.Function

/-!
# Safe source pointers

`compileTimeVerification` erases the check of a cast if its source pointer is safe: if the
values it may come from are variables, allocations and elements of an interesting type.
It goes back through bitcasts, and through a pointer variable to what the function stores
into it.

It runs behind `heapObjTracing`, which casts the result of every call that it traces once
more; after that `getMallocAllocatedType` finds no type for the call.  So an allocation is
safe only if it is not traced (`SafeSource.not_heapTraced`), and what is safe then was so
before (`SafeSource.of_heapObjTracing`).

A value `ComesFrom` those the search goes on with, and all of them are safe if it is
(`SafeSource.comesFrom`).
-/

namespace Bitype.Pass

open Bitype.Foundations Bitype.Runtime

/-- `isa<StructType>`. -/
def isStructType : IRType → Bool
  | .struct _ => true
  | _ => false

/-- `isHeapObj`. -/
def TypeTable.isHeapObj (T : TypeTable) : Option IRType → Bool
  | some allocTy => T.isInterestingType allocTy
  | none => false

/-! ## Behind the tracing -/

section Tracing

variable (T : TypeTable) (files : ClassFiles)

/-- Whether `handleHeapAlloc` inserts a sequence for a call. -/
def TypeTable.isHeapTraced (allocatedType : Option IRType) : Bool :=
  match allocatedType with
  | some allocTy => T.isInterestingType allocTy && !(T.elementsOf files allocTy).isEmpty
  | none => false

/-- What the search finds of an instruction behind the tracing.  The sequence for a call starts
with a cast of its result to `i64*`, and `recast` says that one for a free or a `realloc` does.
With two casts a call has no allocated type; with one it is `i64`, which is not interesting
either. -/
def Inst.heapTraced (recast : Bool) : Inst → Inst
  | .call allocatedType =>
      .call (if recast || T.isHeapTraced files allocatedType then none else allocatedType)
  | inst => inst

/-- `heapObjTracing`.  The sequences themselves are left out: no operand of the function is
computed in them, and they do not store into its variables. -/
def Function.heapObjTracing (F : Function) (recast : ℕ → Bool) : Function where
  insts := F.insts.mapIdx fun i inst => inst.heapTraced T files (recast i)
  successors := F.successors
  nonempty := by rw [List.length_mapIdx]; exact F.nonempty
  closed := by rw [List.length_mapIdx]; exact F.closed

end Tracing

namespace Function

/-! ## The search -/

section Search

variable (T : TypeTable) (F : Function)

/-- `isLocalPointer`. -/
def isLocalPointer : Value → Bool
  | .inst a =>
      match F.insts[a]? with
      | some (.alloca ..) => true
      | _ => false
  | _ => false

/-- The loop of `isSafePointer` over the instructions. -/
def storesSafe (isSafe : Value → Option Bool) (target : Value) : List Inst → Option Bool
  | [] => some true
  | .store value pointer :: rest =>
      if target = pointer then do
        if ← isSafe value then storesSafe isSafe target rest else some false
      else storesSafe isSafe target rest
  | _ :: rest => storesSafe isSafe target rest

/-- `isSafePointer`, given `isSafeSrcValue`. -/
def isSafePointer (isSafe : Value → Option Bool) (target : Value) : Option Bool :=
  if F.isLocalPointer target = true then storesSafe isSafe target F.insts else some false

/-- `isSafeSrcValue`.  The option is for a search that does not end. -/
def isSafeSrcValue : ℕ → Value → Option Bool
  | 0, _ => none
  | _ + 1, .global _ => some true
  | _ + 1, .other _ => some false
  | fuel + 1, .inst i =>
      match F.insts[i]? with
      | some (.alloca type isPointerTy _) =>
          if T.isInterestingType type = true ∧ isStructType type = true then some true
          else if isPointerTy = true then F.isSafePointer (isSafeSrcValue fuel) (.inst i)
          else some false
      | some (.call allocatedType) => some (T.isHeapObj allocatedType)
      | some (.getElementPtr _ resultElementType) => some (isStructType resultElementType)
      | some (.load pointer) => F.isSafePointer (isSafeSrcValue fuel) pointer
      | some (.store value _) => isSafeSrcValue fuel value
      | some (.bitCast value) => isSafeSrcValue fuel value
      | _ => some false

/-- Whether the call at a position is erased. -/
def verifiedAt (fuel c : ℕ) : Option Bool :=
  match F.insts[c]? with
  | some (.castVerification (.inst p) ..) =>
      match F.insts[p]? with
      | some (.ptrToInt pointer) => F.isSafeSrcValue T fuel pointer
      | _ => some false
  | _ => some false

/-- The loop of `compileTimeVerification`: the calls it erases. -/
def erasedCalls (fuel : ℕ) : List ℕ → Option (List ℕ)
  | [] => some []
  | c :: rest => do
      if ← F.verifiedAt T fuel c then (c :: ·) <$> erasedCalls fuel rest
      else erasedCalls fuel rest

/-- `compileTimeVerification`. -/
def compileTimeVerification (fuel : ℕ) : Option (List ℕ) := F.erasedCalls T fuel F.positions

/-- The search ends and finds the value safe. -/
def SafeSource (v : Value) : Prop := ∃ fuel, F.isSafeSrcValue T fuel v = some true

/-- Where the search goes on from a value; it starts at the operand of a cast to an
integer. -/
inductive ComesFrom : Value → Value → Prop
  | ptrToInt {i : ℕ} {value : Value} (hinst : F.insts[i]? = some (.ptrToInt value)) :
      ComesFrom (.inst i) value
  | bitCast {i : ℕ} {value : Value} (hinst : F.insts[i]? = some (.bitCast value)) :
      ComesFrom (.inst i) value
  | load {i a k : ℕ} {value : Value} (hinst : F.insts[i]? = some (.load (.inst a)))
      (hstore : F.insts[k]? = some (.store value (.inst a))) : ComesFrom (.inst i) value

end Search

/-! ## What a safe value comes from -/

section Safe

variable {T : TypeTable} {F : Function}

theorem storesSafe_spec {isSafe : Value → Option Bool} {target : Value} {insts : List Inst}
    (h : storesSafe isSafe target insts = some true) {value : Value}
    (hstore : Inst.store value target ∈ insts) : isSafe value = some true := by
  induction insts with
  | nil => cases hstore
  | cons inst rest ih =>
      have hrest : storesSafe isSafe target rest = some true := by
        cases inst with
        | store value' pointer =>
            rw [storesSafe] at h
            split at h
            · obtain ⟨safe, -, hnext⟩ := Option.bind_eq_some_iff.mp h
              split at hnext
              · exact hnext
              · cases hnext
            · exact h
        | _ => exact h
      rcases List.mem_cons.mp hstore with rfl | hlater
      · rw [storesSafe, if_pos rfl] at h
        obtain ⟨safe, hsafe, hnext⟩ := Option.bind_eq_some_iff.mp h
        split at hnext
        · next htrue => rw [hsafe, htrue]
        · cases hnext
      · exact ih hrest hlater

theorem isSafePointer_spec {isSafe : Value → Option Bool} {target : Value}
    (h : F.isSafePointer isSafe target = some true) :
    F.isLocalPointer target = true ∧ storesSafe isSafe target F.insts = some true := by
  unfold isSafePointer at h
  split at h
  · next hlocal => exact ⟨hlocal, h⟩
  · cases h

theorem isLocalPointer_spec {target : Value} (h : F.isLocalPointer target = true) :
    ∃ a type isPointerTy arraySize, target = .inst a ∧
      F.insts[a]? = some (.alloca type isPointerTy arraySize) := by
  cases target with
  | inst a =>
      unfold isLocalPointer at h
      simp only at h
      split at h
      · next type isPointerTy arraySize hinst => exact ⟨a, _, _, _, rfl, hinst⟩
      · cases h
  | global i => cases h
  | other i => cases h

/-- **What a safe value comes from is safe.** -/
theorem SafeSource.comesFrom {v w : Value} (h : F.SafeSource T v) (hfrom : F.ComesFrom v w) :
    F.SafeSource T w := by
  obtain ⟨fuel, hsafe⟩ := h
  cases fuel with
  | zero => cases hsafe
  | succ fuel =>
      cases hfrom with
      | ptrToInt hinst =>
          rw [isSafeSrcValue, hinst] at hsafe
          cases hsafe
      | bitCast hinst =>
          rw [isSafeSrcValue, hinst] at hsafe
          exact ⟨fuel, hsafe⟩
      | load hinst hstore =>
          rw [isSafeSrcValue, hinst] at hsafe
          obtain ⟨-, hstores⟩ := isSafePointer_spec hsafe
          exact ⟨fuel, storesSafe_spec hstores (List.mem_of_getElem? hstore)⟩

theorem SafeSource.trans {v w : Value} (h : F.SafeSource T v)
    (hfrom : Relation.ReflTransGen F.ComesFrom v w) : F.SafeSource T w := by
  induction hfrom with
  | refl => exact h
  | tail _ hlast ih => exact ih.comesFrom hlast

/-- A safe value is a global or an instruction. -/
theorem SafeSource.cases {v : Value} (h : F.SafeSource T v) :
    (∃ g, v = .global g) ∨ ∃ i, v = .inst i := by
  obtain ⟨fuel, hsafe⟩ := h
  cases fuel with
  | zero => cases hsafe
  | succ fuel =>
      cases v with
      | inst i => exact .inr ⟨i, rfl⟩
      | global g => exact .inl ⟨g, rfl⟩
      | other i => cases hsafe

/-- A safe load is of a variable of the function. -/
theorem SafeSource.load {i : ℕ} {pointer : Value} (h : F.SafeSource T (.inst i))
    (hinst : F.insts[i]? = some (.load pointer)) : ∃ a type isPointerTy arraySize,
      pointer = .inst a ∧ F.insts[a]? = some (.alloca type isPointerTy arraySize) := by
  obtain ⟨fuel, hsafe⟩ := h
  cases fuel with
  | zero => cases hsafe
  | succ fuel =>
      rw [isSafeSrcValue, hinst] at hsafe
      exact isLocalPointer_spec (isSafePointer_spec hsafe).1

/-- The loop over the instructions goes to every value that is stored. -/
theorem storesSafe_of_forall {isSafe : Value → Option Bool} {target : Value} {insts : List Inst}
    (h : ∀ value, Inst.store value target ∈ insts → isSafe value = some true) :
    storesSafe isSafe target insts = some true := by
  induction insts with
  | nil => rfl
  | cons inst rest ih =>
      have hrest := ih fun value hvalue => h value (List.mem_cons_of_mem _ hvalue)
      cases inst with
      | store value pointer =>
          rw [storesSafe]
          split
          · next htarget =>
              subst htarget
              rw [h value List.mem_cons_self]
              exact hrest
          · exact hrest
      | _ => exact hrest

/-- The calls that are erased. -/
theorem verifiedAt_of_mem {fuel : ℕ} : ∀ {calls erased : List ℕ},
    F.erasedCalls T fuel calls = some erased → ∀ c ∈ erased, F.verifiedAt T fuel c = some true := by
  intro calls
  induction calls with
  | nil =>
      intro erased h c hc
      obtain rfl := Option.some.inj h
      cases hc
  | cons call rest ih =>
      intro erased h c hc
      obtain ⟨verified, hverified, hnext⟩ := Option.bind_eq_some_iff.mp h
      split at hnext
      · next htrue =>
          obtain ⟨erased', herased', rfl⟩ := Option.map_eq_some_iff.mp hnext
          rcases List.mem_cons.mp hc with rfl | hlater
          · rw [hverified, htrue]
          · exact ih herased' c hlater
      · exact ih hnext c hc

/-- The operand of the source of an erased call is safe. -/
theorem safeSource_of_verifiedAt {fuel c p : ℕ} {thisPtr : Value} {index : U32} {code : Byte}
    {debugIndex : U32} (h : F.verifiedAt T fuel c = some true)
    (hcall : F.insts[c]? = some (.castVerification (.inst p) thisPtr index code debugIndex)) :
    ∃ v, F.insts[p]? = some (.ptrToInt v) ∧ F.SafeSource T v := by
  rw [verifiedAt, hcall] at h
  simp only at h
  split at h
  · next v hsource => exact ⟨v, hsource, fuel, h⟩
  · cases h

end Safe

/-! ## What is safe behind the tracing -/

section Tracing

variable {T : TypeTable} {files : ClassFiles} {F : Function} {recast : ℕ → Bool}

theorem getElem?_heapObjTracing (i : ℕ) : (F.heapObjTracing T files recast).insts[i]? =
    F.insts[i]?.map (Inst.heapTraced T files (recast i)) := by
  rw [heapObjTracing, List.getElem?_mapIdx]

theorem isLocalPointer_heapObjTracing (target : Value) :
    (F.heapObjTracing T files recast).isLocalPointer target = F.isLocalPointer target := by
  cases target with
  | inst a =>
      unfold isLocalPointer
      simp only [getElem?_heapObjTracing]
      cases F.insts[a]? with
      | none => rfl
      | some inst => cases inst <;> rfl
  | global i => rfl
  | other i => rfl

theorem isSafePointer_of_heapObjTracing {isSafe isSafe' : Value → Option Bool}
    (hsafe : ∀ v, isSafe v = some true → isSafe' v = some true) {target : Value}
    (h : (F.heapObjTracing T files recast).isSafePointer isSafe target = some true) :
    F.isSafePointer isSafe' target = some true := by
  obtain ⟨hlocal, hstores⟩ := isSafePointer_spec h
  rw [isLocalPointer_heapObjTracing] at hlocal
  rw [isSafePointer, if_pos hlocal]
  refine storesSafe_of_forall fun value hvalue => hsafe value (storesSafe_spec hstores ?_)
  obtain ⟨k, hk⟩ := List.mem_iff_getElem?.mp hvalue
  refine List.mem_iff_getElem?.mpr ⟨k, ?_⟩
  rw [getElem?_heapObjTracing, hk]
  rfl

/-- The tracing takes types away from calls, it gives none a type. -/
theorem isSafeSrcValue_of_heapObjTracing : ∀ {fuel : ℕ} {v : Value},
    (F.heapObjTracing T files recast).isSafeSrcValue T fuel v = some true →
      F.isSafeSrcValue T fuel v = some true := by
  intro fuel
  induction fuel with
  | zero => exact fun h => h
  | succ fuel ih =>
      intro v h
      cases v with
      | global g => exact h
      | other i => exact h
      | inst i =>
          rw [isSafeSrcValue, getElem?_heapObjTracing] at h
          rw [isSafeSrcValue]
          cases hinst : F.insts[i]? with
          | none => rw [hinst] at h; exact h
          | some inst =>
              rw [hinst] at h
              cases inst with
              | alloca type isPointerTy arraySize =>
                  simp only [Option.map_some, Inst.heapTraced] at h ⊢
                  split at h
                  · next hstruct => rw [if_pos hstruct]
                  · next hstruct =>
                      rw [if_neg hstruct]
                      split at h
                      · next hpointer =>
                          rw [if_pos hpointer]
                          exact isSafePointer_of_heapObjTracing (fun v => ih) h
                      · cases h
              | call allocatedType =>
                  simp only [Option.map_some, Inst.heapTraced] at h ⊢
                  -- the call that is traced has no type any more
                  split at h
                  · cases h
                  · exact h
              | load pointer => exact isSafePointer_of_heapObjTracing (fun v => ih) h
              | store value pointer => exact ih h
              | bitCast value => exact ih h
              | _ => exact h

theorem SafeSource.of_heapObjTracing {v : Value}
    (h : (F.heapObjTracing T files recast).SafeSource T v) : F.SafeSource T v := by
  obtain ⟨fuel, hsafe⟩ := h
  exact ⟨fuel, isSafeSrcValue_of_heapObjTracing hsafe⟩

/-- A call that is traced is not safe. -/
theorem SafeSource.not_heapTraced {i : ℕ} {allocatedType : Option IRType}
    (h : (F.heapObjTracing T files recast).SafeSource T (.inst i))
    (hinst : F.insts[i]? = some (.call allocatedType)) :
    T.isHeapTraced files allocatedType = false := by
  obtain ⟨fuel, hsafe⟩ := h
  cases fuel with
  | zero => cases hsafe
  | succ fuel =>
      rw [isSafeSrcValue, getElem?_heapObjTracing, hinst] at hsafe
      simp only [Option.map_some, Inst.heapTraced] at hsafe
      by_contra htraced
      rw [Bool.not_eq_false] at htraced
      rw [htraced, Bool.or_true, if_pos rfl] at hsafe
      cases hsafe

/-- The source of a call that is erased behind the tracing is safe there. -/
theorem safeSource_of_erased {fuel c p : ℕ} {thisPtr : Value} {index : U32} {code : Byte}
    {debugIndex : U32} (h : (F.heapObjTracing T files recast).verifiedAt T fuel c = some true)
    (hcall : F.insts[c]? = some (.castVerification (.inst p) thisPtr index code debugIndex)) :
    ∃ v, F.insts[p]? = some (.ptrToInt v) ∧
      (F.heapObjTracing T files recast).SafeSource T v := by
  have hcall' : (F.heapObjTracing T files recast).insts[c]? =
      some (.castVerification (.inst p) thisPtr index code debugIndex) := by
    rw [getElem?_heapObjTracing, hcall]
    rfl
  obtain ⟨v, hsource, hsafe⟩ := safeSource_of_verifiedAt h hcall'
  refine ⟨v, ?_, hsafe⟩
  rw [getElem?_heapObjTracing] at hsource
  obtain ⟨inst, hinst, hsame⟩ := Option.map_eq_some_iff.mp hsource
  cases inst with
  | ptrToInt value => exact hinst.trans (congrArg some hsame)
  | _ => cases hsame

end Tracing

end Function

end Bitype.Pass
