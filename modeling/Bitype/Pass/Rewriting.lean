import Bitype.Foundations.Expansion
import Bitype.Pass.PlacementCoverage

/-!
# Expanding the handles and checks

The front end marks a placement new, a reinterpret cast and a check by a call.
`extendClangInstrumentation` expands the first two and `typecastinginlineoptimization` the last,
each in a loop over the blocks that it splits as it goes.

What is emitted depends on the call alone and holds no such call again, so both loops come to an
end and expand every call once, in its place (`rewriting_complete`).  A phi names the blocks it
comes from, and these names change where a block is split; that touches no instruction.
-/

namespace Bitype.Pass.Rewriting

open Bitype.Foundations Bitype.Foundations.Flowchart Bitype.Runtime
open Bitype.Tool (Name)

/-! ## What is emitted -/

/-- The operations of the builder that are used, calls apart. -/
inductive BuilderOp
  | isNotNull
  | isNull
  | ptrToInt
  | intToPtr
  | bitCast
  | add
  | lShr (bits : ℕ)
  | and (mask : ℕ)
  | shl (bits : ℕ)
  | xor
  | icmpUGT
  | icmpUGE
  | load
  | gep
  | store

/-- An instruction: a call that was there before, with its number, `getCalledFunction` and the
second operand, for which the front end passes the index of a class; one that has been made for
a call; or another one. -/
inductive Inst
  | call (id : ℕ) (calledFunction : Option Name) (classIndex : ℕ)
  | made (call : ℕ) (op : BuilderOp)
  | madeCall (call : ℕ) (calledFunction : Name)
  | other (id : ℕ)

/-- `getCalledFunction`, of a `CallInst`. -/
def Inst.calledFunction : Inst → Option Name
  | .call _ calledFunction _ => calledFunction
  | .madeCall _ calledFunction => some calledFunction
  | _ => none

/-- The number of a call. -/
def Inst.id : Inst → ℕ
  | .call id _ _ => id
  | .made origin _ => origin
  | .madeCall origin _ => origin
  | .other id => id

def Inst.classIndex : Inst → ℕ
  | .call _ _ classIndex => classIndex
  | _ => 0

def castVerification : Name := "__bitype_cast_verification".toList
def placementNewHandle : Name := "__placement_new_handle".toList
def reinterpretCastingHandle : Name := "__reinterpret_casting_handle".toList
def printTypeConfusion : Name := "__bitype_print_type_confusion".toList
def mallocNewSpace : Name := "__bitype_malloc_new_space".toList
def handleReinterpretCast : Name := "__bitype_handle_reinterpret_cast".toList
def directUpdateObjTrace : Name := "__bitype_direct_updateObjTrace".toList
def objUpdateCount : Name := "__obj_update_count".toList

section Emission

-- whether the builder makes an instruction: it makes none for constant operands, or to convert
-- a value to the type it has
variable (makes : ℕ → BuilderOp → Bool)

/-- Operations of the builder, one after the other. -/
def build (call : ℕ) : List BuilderOp → Code Inst → Code Inst
  | [], rest => rest
  | op :: ops, rest =>
      if makes call op = true then .inst (.made call op) (build call ops rest)
      else build call ops rest

/-- What `typecastinginlineoptimization` emits for a check: the source is not null, nor is the
table of its region, nor the reference of its granule, and the code does not fit. -/
def checkCode (call : ℕ) : Code Inst :=
  build makes call [.isNotNull] <| .ifThen
    (build makes call [.ptrToInt, .lShr 26, .and (2 ^ 22 - 1), .load, .gep, .load, .isNotNull] <|
      .ifThen
        (build makes call [.lShr 3, .and (2 ^ 23 - 1), .shl 1, .gep, .load, .isNotNull] <| .ifThen
          (build makes call [.add, .gep, .load, .xor, .icmpUGT] <| .ifThen
            (.inst (.madeCall call printTypeConfusion) .done) .done)
          .done)
        .done)
    .done

/-- The sequence that `emitInstForObjTrace` emits for `CONOBJADD` with `inline-opt` on: a table
is made for the region if there is none. -/
def inlineUpdateCode (call : ℕ) (rest : Code Inst) : Code Inst :=
  build makes call [.lShr 26, .and (2 ^ 22 - 1), .lShr 3, .and (2 ^ 23 - 1), .shl 1, .add, .load,
      .gep, .load, .isNull] <| .ifThenElse
    (build makes call [.load, .load, .icmpUGE] <| .ifThen
      (.inst (.madeCall call mallocNewSpace) .done)
      (build makes call [.load, .gep, .store, .gep, .bitCast, .store, .gep, .bitCast, .gep, .store,
        .gep, .store, .gep, .store] .done))
    (build makes call [.gep, .store, .gep, .bitCast, .gep, .store, .gep, .store] .done)
    rest

variable (M : Module) (files : ClassFiles) (bitypeClassIndexSet : Std.TreeMap ℕ Name)
  (inlineOpt makeLogInfo : Bool)

/-- The loop of `emitInstForObjTrace` over the entries, for `CONOBJADD`. -/
def entriesCode (extendTarget : AllocType) (call : ℕ) : List (ℕ × Finset ℕ) → Code Inst
  | [] => .done
  | entry :: entries =>
      let rest := entriesCode extendTarget call entries
      build makes call [.ptrToInt, .add, .intToPtr] <|
        if entry.2.card = 0 then rest
        else
          let counted := if makeLogInfo = true then .inst (.madeCall call objUpdateCount) rest else rest
          if inlineOpt = true ∧ extendTarget ≠ .reinterpret ∧ extendTarget ≠ .globalAlloc then
            inlineUpdateCode makes call counted
          else if extendTarget = .reinterpret then
            .inst (.madeCall call handleReinterpretCast) counted
          else .inst (.madeCall call directUpdateObjTrace) counted

/-- `emitExtendObjTraceInst`. -/
def extendCode (extendTarget : AllocType) (call classIndex : ℕ) : Code Inst :=
  match bitypeClassIndexSet[classIndex]? with
  | none => .done
  | some className =>
      match (classStructSet M files)[className]? with
      | none => .done
      | some a =>
          let offsets := tracedElements M files extendTarget (.struct a)
          if offsets.isEmpty = true then .done
          else
            build makes call [.ptrToInt, .add, .intToPtr] <|
              entriesCode makes inlineOpt makeLogInfo extendTarget call offsets.toList

/-! ## The loops -/

/-- The code of a check. -/
def expandCheck (i : Inst) : Option (Code Inst) :=
  if i.calledFunction = some castVerification then some (checkCode makes i.id) else none

/-- The code of a handle of the front end. -/
def expandHandle (i : Inst) : Option (Code Inst) :=
  if i.calledFunction = some placementNewHandle then
    some (extendCode makes M files bitypeClassIndexSet inlineOpt makeLogInfo .placementNew i.id
      i.classIndex)
  else if i.calledFunction = some reinterpretCastingHandle then
    some (extendCode makes M files bitypeClassIndexSet inlineOpt makeLogInfo .reinterpret i.id
      i.classIndex)
  else none

def typecastinginlineoptimization (fuel : ℕ) (functions : List (Chart Inst)) :
    Option (List (List (Flowchart.Block Inst) × ℕ)) :=
  expandFunctions (expandCheck makes) fuel functions

def extendClangInstrumentation (fuel : ℕ) (functions : List (Chart Inst)) :
    Option (List (List (Flowchart.Block Inst) × ℕ)) :=
  expandFunctions (expandHandle makes M files bitypeClassIndexSet inlineOpt makeLogInfo) fuel functions

end Emission

/-! ## What the code calls -/

/-- The functions that emitted code calls. -/
def emittedCalls : List Name :=
  [printTypeConfusion, mallocNewSpace, handleReinterpretCast, directUpdateObjTrace, objUpdateCount]

/-- Code that calls no other functions. -/
def CallsEmitted (code : Code Inst) : Prop :=
  ∀ i ∈ code.listing, ∀ name, i.calledFunction = some name → name ∈ emittedCalls

section Calls

variable {makes : ℕ → BuilderOp → Bool} {rest thenBody elseBody : Code Inst} {call : ℕ}

theorem CallsEmitted.done : CallsEmitted .done := fun _ hi => nomatch hi

theorem CallsEmitted.madeCall {name : Name} (hname : name ∈ emittedCalls) (h : CallsEmitted rest) :
    CallsEmitted (.inst (.madeCall call name) rest) := by
  intro i hi name' hcalled
  rcases List.mem_cons.mp hi with rfl | hi
  · exact Option.some.inj hcalled ▸ hname
  · exact h i hi name' hcalled

theorem CallsEmitted.ifThen (hbody : CallsEmitted thenBody) (h : CallsEmitted rest) :
    CallsEmitted (.ifThen thenBody rest) := by
  intro i hi name hcalled
  rcases List.mem_append.mp hi with hi | hi
  · exact hbody i hi name hcalled
  · exact h i hi name hcalled

theorem CallsEmitted.ifThenElse (hthen : CallsEmitted thenBody) (helse : CallsEmitted elseBody)
    (h : CallsEmitted rest) : CallsEmitted (.ifThenElse thenBody elseBody rest) := by
  intro i hi name hcalled
  rcases List.mem_append.mp hi with hi | hi
  · exact hthen i hi name hcalled
  · rcases List.mem_append.mp hi with hi | hi
    · exact helse i hi name hcalled
    · exact h i hi name hcalled

/-- Operations of the builder are no calls. -/
theorem CallsEmitted.build (h : CallsEmitted rest) :
    ∀ ops : List BuilderOp, CallsEmitted (Rewriting.build makes call ops rest) := by
  intro ops
  induction ops with
  | nil => exact h
  | cons op ops ih =>
      rw [Rewriting.build]
      split
      · intro i hi name hcalled
        rcases List.mem_cons.mp hi with rfl | hi
        · cases hcalled
        · exact ih i hi name hcalled
      · exact ih

theorem checkCode_calls (makes : ℕ → BuilderOp → Bool) (call : ℕ) :
    CallsEmitted (checkCode makes call) := by
  have hprint : CallsEmitted (.inst (.madeCall call printTypeConfusion) .done) :=
    .madeCall (by simp [emittedCalls]) .done
  exact .build (.ifThen (.build (.ifThen (.build (.ifThen (.build (.ifThen hprint .done) _) .done) _)
    .done) _) .done) _

theorem inlineUpdateCode_calls (h : CallsEmitted rest) :
    CallsEmitted (inlineUpdateCode makes call rest) := by
  have hmalloc : CallsEmitted (.inst (.madeCall call mallocNewSpace) .done) :=
    .madeCall (by simp [emittedCalls]) .done
  exact .build (.ifThenElse (.build (.ifThen hmalloc (.build .done _)) _) (.build .done _) h) _

theorem entriesCode_calls (inlineOpt makeLogInfo : Bool) (extendTarget : AllocType) :
    ∀ entries : List (ℕ × Finset ℕ),
      CallsEmitted (entriesCode makes inlineOpt makeLogInfo extendTarget call entries) := by
  intro entries
  induction entries with
  | nil => exact .done
  | cons entry entries ih =>
      have hcounted : CallsEmitted (if makeLogInfo = true then
          .inst (.madeCall call objUpdateCount)
            (entriesCode makes inlineOpt makeLogInfo extendTarget call entries)
          else entriesCode makes inlineOpt makeLogInfo extendTarget call entries) := by
        split
        · exact .madeCall (by simp [emittedCalls]) ih
        · exact ih
      rw [entriesCode]
      apply CallsEmitted.build
      split
      · exact ih
      · dsimp only
        split
        · exact inlineUpdateCode_calls hcounted
        · split
          · exact .madeCall (by simp [emittedCalls]) hcounted
          · exact .madeCall (by simp [emittedCalls]) hcounted

theorem extendCode_calls (M : Module) (files : ClassFiles) (bitypeClassIndexSet : Std.TreeMap ℕ Name)
    (inlineOpt makeLogInfo : Bool) (extendTarget : AllocType) (classIndex : ℕ) :
    CallsEmitted (extendCode makes M files bitypeClassIndexSet inlineOpt makeLogInfo extendTarget call
      classIndex) := by
  unfold extendCode
  split
  · exact .done
  · split
    · exact .done
    · dsimp only
      split
      · exact .done
      · exact .build (entriesCode_calls inlineOpt makeLogInfo extendTarget _) _

end Calls

/-! ## Both loops -/

/-- No call of the functions is left. -/
def NoneCalled (names : List Name) (F : Chart Inst) : Prop :=
  ∀ block ∈ F.blocks, ∀ i ∈ block.insts, ∀ name ∈ names, i.calledFunction ≠ some name

/-- A loop over the functions of a module comes to an end.  The functions it leaves hold no call of
the given names; each such call has been expanded once, in its place, and nothing else has
changed. -/
def Completes (run : ℕ → List (Chart Inst) → Option (List (List (Flowchart.Block Inst) × ℕ)))
    (expand : Inst → Option (Code Inst)) (names : List Name) (functions : List (Chart Inst)) : Prop :=
  ∃ functions' : List (Chart Inst),
    (∃ fuel, run fuel functions = some (functions'.map fun F => (F.blocks, F.nextLabel))) ∧
    (∀ fuel result, run fuel functions = some result →
      result = functions'.map fun F => (F.blocks, F.nextLabel)) ∧
    List.Forall₂ (Expanded expand) functions functions' ∧ ∀ F ∈ functions', NoneCalled names F

/-- What a loop of the library comes to. -/
theorem completes_of_free {expand : Inst → Option (Code Inst)} {names : List Name}
    (hfree : ∀ i code, expand i = some code → ∀ j ∈ code.listing, expand j = none)
    (hnames : ∀ i, expand i = none → ∀ name ∈ names, i.calledFunction ≠ some name)
    (functions : List (Chart Inst)) :
    Completes (expandFunctions expand) expand names functions := by
  have hall := expandsAll hfree functions
  refine ⟨functions.map (·.expanded expand), hall.ends, hall.only, hall.expanded, ?_⟩
  intro F' hF' block hblock i hi
  obtain ⟨F, -, rfl⟩ := List.mem_map.mp hF'
  exact hnames i ((F.expanded_spec hfree).noneLeft block hblock i hi)

section Loops

variable (makes : ℕ → BuilderOp → Bool) (M : Module) (files : ClassFiles)
  (bitypeClassIndexSet : Std.TreeMap ℕ Name) (inlineOpt makeLogInfo : Bool)

theorem not_emitted : castVerification ∉ emittedCalls ∧ placementNewHandle ∉ emittedCalls ∧
    reinterpretCastingHandle ∉ emittedCalls := by decide +kernel

theorem expandCheck_free (i : Inst) (code : Code Inst) (h : expandCheck makes i = some code) :
    ∀ j ∈ code.listing, expandCheck makes j = none := by
  intro j hj
  unfold expandCheck at h ⊢
  split at h
  · obtain rfl := Option.some.inj h
    exact if_neg fun hcalled => not_emitted.1 (checkCode_calls makes i.id j hj _ hcalled)
  · cases h

theorem expandHandle_free (i : Inst) (code : Code Inst)
    (h : expandHandle makes M files bitypeClassIndexSet inlineOpt makeLogInfo i = some code) :
    ∀ j ∈ code.listing,
      expandHandle makes M files bitypeClassIndexSet inlineOpt makeLogInfo j = none := by
  have hcalls : CallsEmitted code := by
    unfold expandHandle at h
    split at h
    · exact Option.some.inj h ▸ extendCode_calls M files bitypeClassIndexSet inlineOpt makeLogInfo _ _
    · split at h
      · exact Option.some.inj h ▸ extendCode_calls M files bitypeClassIndexSet inlineOpt makeLogInfo _ _
      · cases h
  intro j hj
  unfold expandHandle
  rw [if_neg fun hcalled => not_emitted.2.1 (hcalls j hj _ hcalled),
    if_neg fun hcalled => not_emitted.2.2 (hcalls j hj _ hcalled)]

theorem expandCheck_names (i : Inst) (h : expandCheck makes i = none) :
    ∀ name ∈ [castVerification], i.calledFunction ≠ some name := by
  intro name hname hcalled
  obtain rfl := List.mem_singleton.mp hname
  rw [expandCheck, if_pos hcalled] at h
  cases h

theorem expandHandle_names (i : Inst)
    (h : expandHandle makes M files bitypeClassIndexSet inlineOpt makeLogInfo i = none) :
    ∀ name ∈ [placementNewHandle, reinterpretCastingHandle], i.calledFunction ≠ some name := by
  intro name hname hcalled
  unfold expandHandle at h
  split at h
  · cases h
  · next hplacement =>
      split at h
      · cases h
      · next hreinterpret =>
          simp only [List.mem_cons, List.not_mem_nil, or_false] at hname
          rcases hname with rfl | rfl
          · exact hplacement hcalled
          · exact hreinterpret hcalled

/-- **Both loops are complete.** Whatever the functions are, each loop comes to an end and has
expanded every call once in its place. -/
theorem rewriting_complete (functions : List (Chart Inst)) :
    Completes (typecastinginlineoptimization makes) (expandCheck makes) [castVerification]
        functions ∧
      Completes (extendClangInstrumentation makes M files bitypeClassIndexSet inlineOpt makeLogInfo)
        (expandHandle makes M files bitypeClassIndexSet inlineOpt makeLogInfo)
        [placementNewHandle, reinterpretCastingHandle] functions :=
  ⟨completes_of_free (expandCheck_free makes) (expandCheck_names makes) functions,
    completes_of_free (expandHandle_free makes M files bitypeClassIndexSet inlineOpt makeLogInfo)
      (expandHandle_names makes M files bitypeClassIndexSet inlineOpt makeLogInfo) functions⟩

end Loops

end Bitype.Pass.Rewriting
