import Bitype.Pass.Instructions
import Bitype.Pass.StackObject

/-!
# The code for a traced object

`insertUpdate` and `insertRemove` emit code for an object whose address the function has in a
register.  `Trace` and `StackObject` have the operations that the code does on the table for an
address; here is the code.  A recipe for operands is what is emitted, the same recipe for words says
what it does.

`insertUpdateCode_meaning` and `insertRemoveCode_meaning`: the code does the operations, one after
the other, and nothing else.  With `inline-opt` on this needs a table that is laid out soundly.
The calls of `__obj_update_count` that `make-loginfo` adds are left out: they count, and touch
neither the table nor the function.
-/

namespace Bitype.Pass.IR

open Bitype.Foundations Bitype.Foundations.Flowchart Bitype.Runtime
open Bitype.Tool (Name)

/-! ## Arguments -/

/-- An argument of a call: a constant, or a value of the function. -/
inductive Arg
  | constant (word : Word)
  | register (r : ℕ)
deriving DecidableEq

namespace Arg

def value (locals : ℕ → Word) : Arg → Word
  | constant word => word
  | register r => locals r

/-- What an instruction names. -/
def operand : Arg → Operand Value
  | constant word => .const (ofWord word)
  | register r => .host r

/-- `dyn_cast<ConstantInt>`. -/
def constant? : Arg → Option Word
  | constant word => some word
  | register _ => none

end Arg

/-- The type of the address that is passed. -/
inductive AddrType
  | integer
  | longPtr
  | otherPtr
deriving DecidableEq

/-- What the callers of `insertUpdate` and `insertRemove` pass. -/
structure Request where
  allocType : AllocType
  addrType : AddrType
  objAddr : Arg
  typeSize : ℕ
  arraySize : Arg
  elements : Std.TreeMap ℕ (Finset ℕ)

/-- The object, when the function has these values. -/
def Request.site (q : Request) (locals : ℕ → Word) : Site where
  allocType := q.allocType
  objAddr := q.objAddr.value locals
  typeSize := q.typeSize
  arraySize := q.arraySize.value locals
  isConstant := q.arraySize.constant?.isSome

/-! ## The code -/

section Code

variable {V : Type} (const : Word → V) (arg : Arg → V) (M : Module) (inlineOpt : Bool)
  (place : Name → Word) (q : Request)

/-- `CreatePointerCast` to `long *`. -/
def pointerCast (objAddr : V) (rest : V → Recipe Op Effect V) : Recipe Op Effect V :=
  if q.addrType = .otherPtr then .create .bitCast [objAddr] rest else rest objAddr

/-- `CreatePtrToInt`. -/
def ptrToInt (objAddr : V) (rest : V → Recipe Op Effect V) : Recipe Op Effect V :=
  if q.addrType = .integer then rest objAddr else .create .ptrToInt [objAddr] rest

/-- `NewAddr`: where the entry of the current object is. -/
def newAddrCode (objAddr : V) (currArrayIndex : ℕ) (entry : ℕ × Finset ℕ)
    (rest : V → Recipe Op Effect V) : Recipe Op Effect V :=
  ptrToInt q objAddr fun second =>
    .create (.add 64) [const (BitVec.ofNat 64 (uint32 (uint32 (entry.1 * 8) +
      q.typeSize * currArrayIndex))), second] rest

/-- The loop body of `emitInstForObjTrace` for a new object.  To make a pointer of `NewAddr` emits
nothing, since the type asked for is an integer type. -/
def emitEntryCode (emitType : EmitType) (objAddr : V) (currArrayIndex : ℕ) (entry : ℕ × Finset ℕ)
    (rest : Recipe Op Effect V) : Recipe Op Effect V :=
  newAddrCode const q objAddr currArrayIndex entry fun newAddr =>
    if entry.2.card = 0 then rest
    else
      let currentGlobalVari := const (place (M.setName entry.2))
      let offsetV := const ((BitVec.ofNat 32 (uint32 (entry.1 * 8))).setWidth 64)
      match emitType with
      | .conObjAdd =>
          if inlineOpt = true ∧ q.allocType ≠ .reinterpret ∧ q.allocType ≠ .globalAlloc then
            updateSequence const newAddr currentGlobalVari offsetV rest
          else if q.allocType = .reinterpret then
            .effect (.call .bitypeHandleReinterpretCast) [newAddr, currentGlobalVari, offsetV] rest
          else
            .effect (.call .bitypeDirectUpdateObjTrace) [newAddr, currentGlobalVari, offsetV] rest
      | .vlaObjAdd =>
          .effect (.call .bitypeUpdateObjTrace) [newAddr, currentGlobalVari,
            const ((BitVec.ofNat 32 q.typeSize).setWidth 64), arg q.arraySize, offsetV] <|
          ptrToInt q objAddr fun tempAddr =>
          .effect (.call .bitypeUpdateArraySize) [tempAddr, arg q.arraySize] rest

def emitInstForObjTraceCode (emitType : EmitType) (currArrayIndex : ℕ) (rest : Recipe Op Effect V) :
    Recipe Op Effect V :=
  pointerCast q (arg q.objAddr) fun objAddr =>
    q.elements.toList.foldr
      (emitEntryCode const arg M inlineOpt place q emitType objAddr currArrayIndex) rest

/-- `insertUpdate`. -/
def insertUpdateCode (rest : Recipe Op Effect V) : Recipe Op Effect V :=
  if q.allocType = .realloc then
    emitInstForObjTraceCode const arg M inlineOpt place q .vlaObjAdd 0 rest
  else if q.allocType = .placementNew ∨ q.allocType = .reinterpret then
    emitInstForObjTraceCode const arg M inlineOpt place q .conObjAdd 0 rest
  else
    match q.arraySize.constant? with
    | some constantSize =>
        if q.allocType ≠ .heapAlloc then
          (List.range constantSize.toNat).foldr
            (emitInstForObjTraceCode const arg M inlineOpt place q .conObjAdd) rest
        else emitInstForObjTraceCode const arg M inlineOpt place q .vlaObjAdd 0 rest
    | none => emitInstForObjTraceCode const arg M inlineOpt place q .vlaObjAdd 0 rest

/-- The loop body for a removal. -/
def emitRemoveEntryCode (removeType : RemoveType) (objAddr : V) (currArrayIndex : ℕ)
    (entry : ℕ × Finset ℕ) (last : Bool) (rest : Recipe Op Effect V) : Recipe Op Effect V :=
  newAddrCode const q objAddr currArrayIndex entry fun newAddr =>
    if entry.2.card = 0 then rest
    else
      match removeType with
      | .conObjDel =>
          if inlineOpt = true then eraseSequence const newAddr rest
          else .effect (.call .bitypeDirectEraseObj) [newAddr] rest
      | .vlaObjDel =>
          ptrToInt q objAddr fun tempAddr =>
          .effect (.call (.bitypeEraseObj q.allocType)) [newAddr, tempAddr,
            const ((BitVec.ofNat 32 q.typeSize).setWidth 64), arg q.arraySize] <|
          if last = true then .effect (.call .bitypeDirectEraseArraySize) [tempAddr] rest else rest

def emitInstForObjRemoveCode (removeType : RemoveType) (currArrayIndex : ℕ)
    (rest : Recipe Op Effect V) : Recipe Op Effect V :=
  pointerCast q (arg q.objAddr) fun objAddr =>
    q.elements.toList.zipIdx.foldr (fun entry => emitRemoveEntryCode const arg inlineOpt q removeType
      objAddr currArrayIndex entry.1 (entry.2 + 1 = q.elements.size)) rest

/-- `insertRemove`. -/
def insertRemoveCode (rest : Recipe Op Effect V) : Recipe Op Effect V :=
  if q.elements.isEmpty = true then rest
  else
    match q.arraySize.constant? with
    | some constantSize =>
        if q.allocType ≠ .heapAlloc then
          (List.range constantSize.toNat).foldr
            (emitInstForObjRemoveCode const arg inlineOpt q .conObjDel) rest
        else emitInstForObjRemoveCode const arg inlineOpt q .vlaObjDel 0 rest
    | none => emitInstForObjRemoveCode const arg inlineOpt q .vlaObjDel 0 rest

end Code

/-! ## What the code does -/

/-- Code that does operations on the table, one after the other, and nothing else. -/
def Does (mmap : ℕ → ℕ) (rodata : Word → Byte) (P : Type) (events : List Event)
    (code : Recipe Op Effect Value → Recipe Op Effect Value) : Prop :=
  ∀ (r : Running P) (rest : Recipe Op Effect Value), Layout mmap r.shadow →
    (code rest).meaning (target mmap rodata P) r =
      ((program mmap rodata).run events r.shadow).bind fun s =>
        rest.meaning (target mmap rodata P) (r.withShadow s)

section Does

variable {mmap : ℕ → ℕ} {rodata : Word → Byte} {P : Type} {events events' : List Event}
  {code code' : Recipe Op Effect Value → Recipe Op Effect Value}

theorem Does.nil : Does mmap rodata P [] id := fun _ _ _ => rfl

theorem Does.append (fresh : FreshMmap mmap) (h : Does mmap rodata P events code)
    (h' : Does mmap rodata P events' code') :
    Does mmap rodata P (events ++ events') fun rest => code (code' rest) := by
  intro r rest layout
  rw [h r _ layout, Machine.run_append, Option.bind_assoc]
  refine Option.bind_congr fun s hs => h' (r.withShadow s) rest ?_
  exact (program mmap rodata).run_of_step (event_layout rodata fresh) events _ s layout hs

/-- One piece of code for each item of a list. -/
theorem Does.foldr (fresh : FreshMmap mmap) {α : Type} {f : α → List Event}
    {g : α → Recipe Op Effect Value → Recipe Op Effect Value} {xs : List α}
    (h : ∀ x ∈ xs, Does mmap rodata P (f x) (g x)) :
    Does mmap rodata P (xs.flatMap f) fun rest => xs.foldr g rest := by
  induction xs with
  | nil => exact .nil
  | cons x xs ih =>
      rw [List.flatMap_cons]
      exact (h x List.mem_cons_self).append fresh (ih fun y hy => h y (List.mem_cons_of_mem _ hy))

/-- A call of the runtime. -/
theorem Does.call (callee : Callee) (args : List Value) {op : Runtime.Op}
    (hop : callee.op (args.map (·.word)) = some op) :
    Does mmap rodata P [.call op] (.effect (.call callee) args) := by
  intro r rest _
  have hperform : (Effect.call callee).perform mmap args r =
      (op.step mmap r.shadow).map fun s => r.withShadow s := by
    cases callee with
    | bitypePrintTypeConfusion => cases hop
    | bitypeMallocNewSpace => cases hop
    | _ => simp only [Effect.perform, hop, Option.bind_some]
  have hrun : (program mmap rodata).run [.call op] r.shadow = op.step mmap r.shadow :=
    Option.bind_fun_some _
  rw [hrun]
  show ((Effect.call callee).perform mmap args r).bind _ = _
  rw [hperform]
  cases op.step mmap r.shadow <;> rfl

theorem Does.inlineUpdate (low : LowMmap mmap) (newAddr reference offset : Word) :
    Does mmap rodata P [.inlineUpdate newAddr reference (offset.setWidth 32)]
      (updateSequence ofWord (ofWord newAddr) (ofWord reference) (ofWord offset)) :=
  fun r rest layout => updateSequence_meaning low r layout newAddr reference offset rest

theorem Does.inlineErase (low : LowMmap mmap) (newAddr : Word) :
    Does mmap rodata P [.inlineErase newAddr] (eraseSequence ofWord (ofWord newAddr)) :=
  fun r rest layout => eraseSequence_meaning low r layout newAddr rest

/-- Code behind operations of the builder that leave the table alone. -/
theorem Does.behind (h : Does mmap rodata P events code)
    (hsame : ∀ (r : Running P) rest, (code' rest).meaning (target mmap rodata P) r =
      (code rest).meaning (target mmap rodata P) r) : Does mmap rodata P events code' :=
  fun r rest layout => (hsame r rest).trans (h r rest layout)

end Does

section Meanings

variable {mmap : ℕ → ℕ} {rodata : Word → Byte} {P : Type} {M : Module} {inlineOpt : Bool}
  {place : Name → Word} {q : Request} (locals : ℕ → Word) {events : List Event}

/-- The arguments as the code has them. -/
def argValue (locals : ℕ → Word) (a : Arg) : Value := ofWord (a.value locals)

theorem pointerCast_meaning (r : Running P) (v : Value) (rest : Value → Recipe Op Effect Value) :
    (pointerCast q v rest).meaning (target mmap rodata P) r =
      (rest v).meaning (target mmap rodata P) r := by
  unfold pointerCast
  split <;> rfl

theorem ptrToInt_meaning (r : Running P) (v : Value) (rest : Value → Recipe Op Effect Value) :
    (ptrToInt q v rest).meaning (target mmap rodata P) r =
      (rest v).meaning (target mmap rodata P) r := by
  unfold ptrToInt
  split <;> rfl

theorem newAddrCode_meaning (r : Running P) (objAddr : Word) (i : ℕ) (entry : ℕ × Finset ℕ)
    (rest : Value → Recipe Op Effect Value) :
    (newAddrCode ofWord q (ofWord objAddr) i entry rest).meaning (target mmap rodata P) r =
      (rest (ofWord (objAddr +
        BitVec.ofNat 64 (uint32 (uint32 (entry.1 * 8) + q.typeSize * i))))).meaning
          (target mmap rodata P) r := by
  have hsum : ∀ x : Word, truncated 64 (x + objAddr) = objAddr + x := by
    intro x
    rw [truncated, BitVec.setWidth_eq, BitVec.setWidth_eq, BitVec.add_comm]
  unfold newAddrCode
  rw [ptrToInt_meaning]
  show (rest (ofWord (truncated 64 (_ + objAddr)))).meaning _ _ = _
  rw [hsum]

theorem setWidth_offset (offset : U32) : (offset.setWidth 64).setWidth 32 = offset := by
  rw [BitVec.setWidth_setWidth_of_le _ (by decide), BitVec.setWidth_eq]

/-- The code for an entry that is not empty starts with its address. -/
theorem Does.entry {objAddr : Word} {i : ℕ} {entry : ℕ × Finset ℕ}
    (body : Value → Recipe Op Effect Value → Recipe Op Effect Value)
    (h : Does mmap rodata P events (body (ofWord (objAddr +
      BitVec.ofNat 64 (uint32 (uint32 (entry.1 * 8) + q.typeSize * i)))))) :
    Does mmap rodata P events fun rest =>
      newAddrCode ofWord q (ofWord objAddr) i entry fun newAddr => body newAddr rest :=
  h.behind fun r _ => newAddrCode_meaning r objAddr i entry _

/-- **The code for an entry** does the operations of `emitEntry`. -/
theorem emitEntryCode_does (low : LowMmap mmap) (emitType : EmitType) (i : ℕ)
    (entry : ℕ × Finset ℕ) :
    Does mmap rodata P (emitEntry M inlineOpt place emitType (q.site locals) i entry)
      (emitEntryCode ofWord (argValue locals) M inlineOpt place q emitType
        (argValue locals q.objAddr) i entry) := by
  have hkind : (q.site locals).allocType = q.allocType := rfl
  unfold emitEntry emitEntryCode
  -- an entry whose classes have all been dropped emits nothing
  by_cases hempty : entry.2.card = 0
  · simp only [if_pos hempty]
    exact Does.nil.entry fun _ rest => rest
  simp only [if_neg hempty, hkind]
  cases emitType with
  | conObjAdd =>
      refine Does.entry (fun newAddr rest => _) ?_
      dsimp only
      -- inlined, or one of the two calls
      split
      · have hdoes : Does mmap rodata P _ _ := .inlineUpdate low
          (q.objAddr.value locals + BitVec.ofNat 64 (uint32 (uint32 (entry.1 * 8) + q.typeSize * i)))
          (place (M.setName entry.2)) ((BitVec.ofNat 32 (uint32 (entry.1 * 8))).setWidth 64)
        rw [setWidth_offset] at hdoes
        exact hdoes
      · split
        · refine Does.call _ _ ?_
          simp only [List.map_cons, List.map_nil, Callee.op, setWidth_offset]
          rfl
        · refine Does.call _ _ ?_
          simp only [List.map_cons, List.map_nil, Callee.op, setWidth_offset]
          rfl
  | vlaObjAdd =>
      refine Does.entry (fun newAddr rest => _) ?_
      have hupdate : Does mmap rodata P [.call (.updateObjTrace (q.objAddr.value locals +
          BitVec.ofNat 64 (uint32 (uint32 (entry.1 * 8) + q.typeSize * i))) (place (M.setName entry.2))
          (BitVec.ofNat 32 q.typeSize) ((q.arraySize.value locals).setWidth 32)
          (BitVec.ofNat 32 (uint32 (entry.1 * 8))))] _ :=
        Does.call .bitypeUpdateObjTrace [ofWord _, ofWord _,
          ofWord ((BitVec.ofNat 32 q.typeSize).setWidth 64), argValue locals q.arraySize,
          ofWord ((BitVec.ofNat 32 (uint32 (entry.1 * 8))).setWidth 64)] (by
            simp only [List.map_cons, List.map_nil, Callee.op, setWidth_offset]
            rfl)
      -- behind the elements, the number of objects is noted at their first byte
      have hsize : Does mmap rodata P [.call (.updateArraySize (q.objAddr.value locals)
          ((q.arraySize.value locals).setWidth 32))] fun rest =>
            ptrToInt q (argValue locals q.objAddr) fun tempAddr =>
              .effect (.call .bitypeUpdateArraySize) [tempAddr, argValue locals q.arraySize] rest :=
        (Does.call _ _ rfl).behind fun r rest => ptrToInt_meaning r _ _
      exact hupdate.append low.toFreshMmap hsize

/-- **The code for an entry of a removal** does the operations of `emitRemoveEntry`. -/
theorem emitRemoveEntryCode_does (low : LowMmap mmap) (removeType : RemoveType) (i : ℕ)
    (entry : ℕ × Finset ℕ) (last : Bool) :
    Does mmap rodata P (emitRemoveEntry inlineOpt removeType (q.site locals) i entry last)
      (emitRemoveEntryCode ofWord (argValue locals) inlineOpt q removeType
        (argValue locals q.objAddr) i entry last) := by
  unfold emitRemoveEntry emitRemoveEntryCode
  by_cases hempty : entry.2.card = 0
  · simp only [if_pos hempty]
    exact Does.nil.entry fun _ rest => rest
  simp only [if_neg hempty]
  cases removeType with
  | conObjDel =>
      refine Does.entry (fun newAddr rest => _) ?_
      dsimp only
      split
      · exact Does.inlineErase low _
      · exact Does.call _ _ rfl
  | vlaObjDel =>
      refine Does.entry (fun newAddr rest => _) ?_
      have herase : Does mmap rodata P [.call (.eraseObj (q.objAddr.value locals +
          BitVec.ofNat 64 (uint32 (uint32 (entry.1 * 8) + q.typeSize * i))) (q.objAddr.value locals)
          (BitVec.ofNat 32 q.typeSize) (q.arraySize.value locals) q.allocType)] _ :=
        Does.call (.bitypeEraseObj q.allocType) [ofWord _, argValue locals q.objAddr,
          ofWord ((BitVec.ofNat 32 q.typeSize).setWidth 64), argValue locals q.arraySize] (by
            simp only [List.map_cons, List.map_nil, Callee.op, setWidth_offset]
            rfl)
      -- the last entry takes the number of objects back
      have hlast : Does mmap rodata P (if last = true then
          [.call (.directEraseArraySize (q.objAddr.value locals))] else []) fun rest =>
            if last = true then
              .effect (.call .bitypeDirectEraseArraySize) [argValue locals q.objAddr] rest
            else rest := by
        split
        · exact Does.call _ _ rfl
        · exact .nil
      exact (herase.append low.toFreshMmap hlast).behind fun r rest => ptrToInt_meaning r _ _

/-- The code for an object starts with its address. -/
theorem Does.cast (code : Value → Recipe Op Effect Value → Recipe Op Effect Value) {v : Value}
    (h : Does mmap rodata P events (code v)) :
    Does mmap rodata P events fun rest => pointerCast q v fun objAddr => code objAddr rest :=
  h.behind fun r _ => pointerCast_meaning r v _

theorem emitInstForObjTraceCode_does (low : LowMmap mmap) (emitType : EmitType) (i : ℕ) :
    Does mmap rodata P (emitInstForObjTrace M inlineOpt place emitType (q.site locals) i q.elements)
      (emitInstForObjTraceCode ofWord (argValue locals) M inlineOpt place q emitType i) :=
  .cast (fun objAddr rest => q.elements.toList.foldr
      (emitEntryCode ofWord (argValue locals) M inlineOpt place q emitType objAddr i) rest)
    (.foldr low.toFreshMmap fun entry _ => emitEntryCode_does locals low emitType i entry)

theorem emitInstForObjRemoveCode_does (low : LowMmap mmap) (removeType : RemoveType) (i : ℕ) :
    Does mmap rodata P (emitInstForObjRemove inlineOpt removeType (q.site locals) i q.elements)
      (emitInstForObjRemoveCode ofWord (argValue locals) inlineOpt q removeType i) := by
  have hentry : ∀ entry ∈ q.elements.toList.zipIdx,
      Does mmap rodata P (emitRemoveEntry inlineOpt removeType (q.site locals) i entry.1
        (entry.2 + 1 = q.elements.size)) (emitRemoveEntryCode ofWord (argValue locals) inlineOpt q
          removeType (argValue locals q.objAddr) i entry.1 (entry.2 + 1 = q.elements.size)) :=
    fun entry _ => emitRemoveEntryCode_does locals low removeType i entry.1 _
  exact .cast _ (.foldr low.toFreshMmap hentry)

/-- The number of objects is a constant in the code if it is one for the runtime. -/
theorem arraySize_constant {word : Word} (h : q.arraySize.constant? = some word) :
    (q.site locals).isConstant = true ∧ (q.site locals).arraySize = word := by
  obtain ⟨allocType, addrType, objAddr, typeSize, arraySize, elements⟩ := q
  cases arraySize with
  | constant word' => exact ⟨rfl, Option.some.inj h⟩
  | register r => cases h

/-- **The code of `insertUpdate`** does its operations. -/
theorem insertUpdateCode_does (low : LowMmap mmap) :
    Does mmap rodata P (insertUpdate M inlineOpt place (q.site locals) q.elements)
      (insertUpdateCode ofWord (argValue locals) M inlineOpt place q) := by
  have hkind : (q.site locals).allocType = q.allocType := rfl
  have hvla : Does mmap rodata P
      (emitInstForObjTrace M inlineOpt place .vlaObjAdd (q.site locals) 0 q.elements)
      (emitInstForObjTraceCode ofWord (argValue locals) M inlineOpt place q .vlaObjAdd 0) :=
    emitInstForObjTraceCode_does locals low .vlaObjAdd 0
  unfold insertUpdate insertUpdateCode
  simp only [hkind]
  split
  · exact hvla
  split
  · exact emitInstForObjTraceCode_does locals low .conObjAdd 0
  cases hconstant : q.arraySize.constant? with
  | none =>
      have hregister : (q.site locals).isConstant = false := by
        show q.arraySize.constant?.isSome = false
        rw [hconstant, Option.isSome_none]
      simp only [hregister, Bool.false_eq_true, false_and, if_false]
      exact hvla
  | some word =>
      obtain ⟨hisConstant, hword⟩ := arraySize_constant locals hconstant
      simp only [hisConstant, hword, true_and]
      split
      · exact .foldr low.toFreshMmap fun i _ => emitInstForObjTraceCode_does locals low .conObjAdd i
      · exact hvla

/-- **The code of `insertRemove`** does its operations. -/
theorem insertRemoveCode_does (low : LowMmap mmap) :
    Does mmap rodata P (insertRemove inlineOpt (q.site locals) q.elements)
      (insertRemoveCode ofWord (argValue locals) inlineOpt q) := by
  have hkind : (q.site locals).allocType = q.allocType := rfl
  have hvla : Does mmap rodata P
      (emitInstForObjRemove inlineOpt .vlaObjDel (q.site locals) 0 q.elements)
      (emitInstForObjRemoveCode ofWord (argValue locals) inlineOpt q .vlaObjDel 0) :=
    emitInstForObjRemoveCode_does locals low .vlaObjDel 0
  unfold insertRemove insertRemoveCode
  simp only [hkind]
  split
  · exact .nil
  cases hconstant : q.arraySize.constant? with
  | none =>
      have hregister : (q.site locals).isConstant = false := by
        show q.arraySize.constant?.isSome = false
        rw [hconstant, Option.isSome_none]
      simp only [hregister, Bool.false_eq_true, and_false, if_false]
      exact hvla
  | some word =>
      obtain ⟨hisConstant, hword⟩ := arraySize_constant locals hconstant
      simp only [hisConstant, hword, and_true]
      split
      · exact .foldr low.toFreshMmap fun i _ => emitInstForObjRemoveCode_does locals low .conObjDel i
      · exact hvla

end Meanings

/-! ## One recipe for operands and values -/

section Parametric

variable {V W : Type} {R : V → W → Prop} {const : Word → V} {const' : Word → W}
  (hconst : ∀ word, R (const word) (const' word))

include hconst

theorem checkSequence_related {source derived index code debug : V}
    {source' derived' index' code' debug' : W} (hsource : R source source')
    (hderived : R derived derived') (hindex : R index index') (hcode : R code code')
    (hdebug : R debug debug') :
    Recipe.Related R (checkSequence const source derived index code debug)
      (checkSequence const' source' derived' index' code' debug') := by
  refine .create (.cons hsource .nil) fun _ _ hnull => .ifThen hnull ?_ .done
  refine .create (.cons hderived (.cons (hconst _) .nil)) fun _ _ hfirst => ?_
  refine .create (.cons hfirst (.cons (hconst _) .nil)) fun _ _ hidx => ?_
  refine .create .nil fun _ _ hstart => .create (.cons hstart (.cons hidx .nil)) fun _ _ haddr => ?_
  refine .create (.cons haddr .nil) fun _ _ htable => ?_
  refine .create (.cons htable .nil) fun _ _ hnull => .ifThen hnull ?_ .done
  refine .create (.cons hderived (.cons (hconst _) .nil)) fun _ _ hsecond => ?_
  refine .create (.cons hsecond (.cons (hconst _) .nil)) fun _ _ hidx => ?_
  refine .create (.cons hidx (.cons (hconst _) .nil)) fun _ _ hidx => ?_
  refine .create (.cons htable (.cons hidx .nil)) fun _ _ haddr => ?_
  refine .create (.cons haddr .nil) fun _ _ htarget => ?_
  refine .create (.cons htarget .nil) fun _ _ hnull => .ifThen hnull ?_ .done
  refine .create (.cons hindex (.cons (hconst _) .nil)) fun _ _ hindex => ?_
  refine .create (.cons htarget (.cons hindex .nil)) fun _ _ haddr => ?_
  refine .create (.cons haddr .nil) fun _ _ hchar => ?_
  refine .create (.cons hchar (.cons hcode .nil)) fun _ _ hxor => ?_
  refine .create (.cons hxor (.cons hchar .nil)) fun _ _ hcmp => ?_
  exact .ifThen hcmp (.effect (.cons hdebug .nil) .done) .done

omit hconst in
theorem storeEntry_related (tempArr : Bool) {level2 idx2 idx222 reference size offset : V}
    {level2' idx2' idx222' reference' size' offset' : W} {rest : Recipe Op Effect V}
    {rest' : Recipe Op Effect W} (hlevel2 : R level2 level2') (hidx2 : R idx2 idx2')
    (hidx222 : R idx222 idx222') (hreference : R reference reference') (hsize : R size size')
    (hoffset : R offset offset') (hrest : Recipe.Related R rest rest') :
    Recipe.Related R (storeEntry tempArr level2 idx2 idx222 reference size offset rest)
      (storeEntry tempArr level2' idx2' idx222' reference' size' offset' rest') := by
  refine .create (.cons hlevel2 (.cons hidx2 .nil)) fun _ _ hstored => ?_
  refine .effect (.cons hreference (.cons hstored .nil)) ?_
  refine .create (.cons hlevel2 (.cons hidx222 .nil)) fun _ _ hloaded => ?_
  refine .create (.cons hloaded .nil) fun _ _ harray => ?_
  refine .create (.cons harray .nil) fun _ _ haddr => .effect (.cons hsize (.cons haddr .nil)) ?_
  exact .create (.cons harray .nil) fun _ _ haddr => .effect (.cons hoffset (.cons haddr .nil)) hrest

theorem newTableSequence_related {start idx1 idx2 idx222 reference offset : V}
    {start' idx1' idx2' idx222' reference' offset' : W} (hstart : R start start')
    (hidx1 : R idx1 idx1') (hidx2 : R idx2 idx2') (hidx222 : R idx222 idx222')
    (hreference : R reference reference') (hoffset : R offset offset') :
    Recipe.Related R (newTableSequence const start idx1 idx2 idx222 reference offset)
      (newTableSequence const' start' idx1' idx2' idx222' reference' offset') := by
  refine .create .nil fun _ _ hsecond => .create .nil fun _ _ hend => ?_
  refine .create (.cons hsecond (.cons hend .nil)) fun _ _ hused => ?_
  refine .ifThen hused (.effect .nil .done) (.create .nil fun _ _ hsecond => ?_)
  refine .create (.cons hstart (.cons hidx1 .nil)) fun _ _ haddr => ?_
  refine .effect (.cons hsecond (.cons haddr .nil)) ?_
  refine storeEntry_related false hsecond hidx2 hidx222 hreference (hconst 1) hoffset ?_
  refine .create (.cons hsecond (.cons (hconst _) .nil)) fun _ _ hnext => ?_
  exact .effect (.cons hnext .nil) .done

theorem updateSequence_related {newAddr reference offset : V} {newAddr' reference' offset' : W}
    {rest : Recipe Op Effect V} {rest' : Recipe Op Effect W} (haddr : R newAddr newAddr')
    (hreference : R reference reference') (hoffset : R offset offset')
    (hrest : Recipe.Related R rest rest') :
    Recipe.Related R (updateSequence const newAddr reference offset rest)
      (updateSequence const' newAddr' reference' offset' rest') := by
  refine .create (.cons haddr (.cons (hconst _) .nil)) fun _ _ hfirst => ?_
  refine .create (.cons hfirst (.cons (hconst _) .nil)) fun _ _ hidx1 => ?_
  refine .create (.cons haddr (.cons (hconst _) .nil)) fun _ _ hsecond => ?_
  refine .create (.cons hsecond (.cons (hconst _) .nil)) fun _ _ hidx2 => ?_
  refine .create (.cons hidx2 (.cons (hconst _) .nil)) fun _ _ hidx2 => ?_
  refine .create (.cons hidx2 (.cons (hconst _) .nil)) fun _ _ hidx222 => ?_
  refine .create .nil fun _ _ hstart => .create (.cons hstart (.cons hidx1 .nil)) fun _ _ hslot => ?_
  refine .create (.cons hslot .nil) fun _ _ htable => .create (.cons htable .nil) fun _ _ hnull => ?_
  refine .ifThenElse hnull ?_ ?_ hrest
  · exact newTableSequence_related hconst hstart hidx1 hidx2 hidx222 hreference hoffset
  · exact storeEntry_related true htable hidx2 hidx222 hreference (hconst 0) hoffset .done

theorem eraseSequence_related {newAddr : V} {newAddr' : W} {rest : Recipe Op Effect V}
    {rest' : Recipe Op Effect W} (haddr : R newAddr newAddr') (hrest : Recipe.Related R rest rest') :
    Recipe.Related R (eraseSequence const newAddr rest) (eraseSequence const' newAddr' rest') := by
  refine .create (.cons haddr (.cons (hconst _) .nil)) fun _ _ hfirst => ?_
  refine .create (.cons hfirst (.cons (hconst _) .nil)) fun _ _ hidx1 => ?_
  refine .create (.cons haddr (.cons (hconst _) .nil)) fun _ _ hsecond => ?_
  refine .create (.cons hsecond (.cons (hconst _) .nil)) fun _ _ hidx2 => ?_
  refine .create (.cons hidx2 (.cons (hconst _) .nil)) fun _ _ hidx2 => ?_
  refine .create .nil fun _ _ hstart => .create (.cons hstart (.cons hidx1 .nil)) fun _ _ hslot => ?_
  refine .create (.cons hslot .nil) fun _ _ htable => .create (.cons htable .nil) fun _ _ hnull => ?_
  refine .ifThen hnull ?_ hrest
  refine .create (.cons htable (.cons hidx2 .nil)) fun _ _ hentry => ?_
  refine .effect (.cons (hconst 0) (.cons hentry .nil)) ?_
  refine .create (.cons hidx2 (.cons (hconst _) .nil)) fun _ _ hidx222 => ?_
  refine .create (.cons htable (.cons hidx222 .nil)) fun _ _ hentry => ?_
  exact .effect (.cons (hconst 0) (.cons hentry .nil)) .done

/-- Code put in front of code. -/
def Fronts (R : V → W → Prop) (code : Recipe Op Effect V → Recipe Op Effect V)
    (code' : Recipe Op Effect W → Recipe Op Effect W) : Prop :=
  ∀ rest rest', Recipe.Related R rest rest' → Recipe.Related R (code rest) (code' rest')

variable {q : Request}

omit hconst in
theorem fronts_foldr {α : Type} {g : α → Recipe Op Effect V → Recipe Op Effect V}
    {g' : α → Recipe Op Effect W → Recipe Op Effect W} {xs : List α}
    (h : ∀ x, Fronts R (g x) (g' x)) :
    Fronts R (fun rest => xs.foldr g rest) fun rest => xs.foldr g' rest := by
  induction xs with
  | nil => exact fun _ _ hrest => hrest
  | cons x xs ih => exact fun rest rest' hrest => h x _ _ (ih rest rest' hrest)

omit hconst in
theorem pointerCast_related {v : V} {w : W} {rest : V → Recipe Op Effect V}
    {rest' : W → Recipe Op Effect W} (h : R v w)
    (hrest : ∀ v w, R v w → Recipe.Related R (rest v) (rest' w)) :
    Recipe.Related R (pointerCast q v rest) (pointerCast q w rest') := by
  unfold pointerCast
  split
  · exact .create (.cons h .nil) hrest
  · exact hrest v w h

omit hconst in
theorem ptrToInt_related {v : V} {w : W} {rest : V → Recipe Op Effect V}
    {rest' : W → Recipe Op Effect W} (h : R v w)
    (hrest : ∀ v w, R v w → Recipe.Related R (rest v) (rest' w)) :
    Recipe.Related R (ptrToInt q v rest) (ptrToInt q w rest') := by
  unfold ptrToInt
  split
  · exact hrest v w h
  · exact .create (.cons h .nil) hrest

theorem newAddrCode_related {v : V} {w : W} {i : ℕ} {entry : ℕ × Finset ℕ}
    {rest : V → Recipe Op Effect V} {rest' : W → Recipe Op Effect W} (h : R v w)
    (hrest : ∀ v w, R v w → Recipe.Related R (rest v) (rest' w)) :
    Recipe.Related R (newAddrCode const q v i entry rest) (newAddrCode const' q w i entry rest') :=
  ptrToInt_related h fun _ _ hsecond => .create (.cons (hconst _) (.cons hsecond .nil)) hrest

variable {M : Module} {inlineOpt : Bool} {place : Name → Word} {arg : Arg → V} {arg' : Arg → W}
  (harg : ∀ a, R (arg a) (arg' a))

include harg

theorem emitEntryCode_fronts (emitType : EmitType) {v : V} {w : W} (h : R v w) (i : ℕ)
    (entry : ℕ × Finset ℕ) :
    Fronts R (emitEntryCode const arg M inlineOpt place q emitType v i entry)
      (emitEntryCode const' arg' M inlineOpt place q emitType w i entry) := by
  intro rest rest' hrest
  refine newAddrCode_related hconst h fun _ _ hnew => ?_
  split
  · exact hrest
  have hparams := List.Forall₂.cons hnew (.cons (hconst (place (M.setName entry.2))) (.cons
    (hconst ((BitVec.ofNat 32 (uint32 (entry.1 * 8))).setWidth 64)) .nil))
  cases emitType with
  | conObjAdd =>
      dsimp only
      split
      · exact updateSequence_related hconst hnew (hconst _) (hconst _) hrest
      · split
        · exact .effect hparams hrest
        · exact .effect hparams hrest
  | vlaObjAdd =>
      refine .effect (.cons hnew (.cons (hconst _) (.cons (hconst _) (.cons (harg _) (.cons (hconst _)
        .nil))))) ?_
      exact ptrToInt_related h fun _ _ htemp => .effect (.cons htemp (.cons (harg _) .nil)) hrest

theorem emitInstForObjTraceCode_fronts (emitType : EmitType) (i : ℕ) :
    Fronts R (emitInstForObjTraceCode const arg M inlineOpt place q emitType i)
      (emitInstForObjTraceCode const' arg' M inlineOpt place q emitType i) :=
  fun rest rest' hrest => pointerCast_related (harg _) fun _ _ h =>
    fronts_foldr (fun entry => emitEntryCode_fronts hconst harg emitType h i entry) rest rest' hrest

/-- The code of `insertUpdate` is the same for operands and values. -/
theorem insertUpdateCode_fronts : Fronts R (insertUpdateCode const arg M inlineOpt place q)
    (insertUpdateCode const' arg' M inlineOpt place q) := by
  intro rest rest' hrest
  have hcode : ∀ emitType i, Recipe.Related R
      (emitInstForObjTraceCode const arg M inlineOpt place q emitType i rest)
      (emitInstForObjTraceCode const' arg' M inlineOpt place q emitType i rest') :=
    fun emitType i => emitInstForObjTraceCode_fronts hconst harg emitType i rest rest' hrest
  unfold insertUpdateCode
  split
  · exact hcode .vlaObjAdd 0
  split
  · exact hcode .conObjAdd 0
  cases q.arraySize.constant? with
  | none => exact hcode .vlaObjAdd 0
  | some word =>
      dsimp only
      split
      · exact fronts_foldr (fun i => emitInstForObjTraceCode_fronts hconst harg .conObjAdd i) rest
          rest' hrest
      · exact hcode .vlaObjAdd 0

theorem emitRemoveEntryCode_fronts (removeType : RemoveType) {v : V} {w : W} (h : R v w) (i : ℕ)
    (entry : ℕ × Finset ℕ) (last : Bool) :
    Fronts R (emitRemoveEntryCode const arg inlineOpt q removeType v i entry last)
      (emitRemoveEntryCode const' arg' inlineOpt q removeType w i entry last) := by
  intro rest rest' hrest
  refine newAddrCode_related hconst h fun _ _ hnew => ?_
  split
  · exact hrest
  cases removeType with
  | conObjDel =>
      dsimp only
      split
      · exact eraseSequence_related hconst hnew hrest
      · exact .effect (.cons hnew .nil) hrest
  | vlaObjDel =>
      refine ptrToInt_related h fun _ _ htemp => .effect (.cons hnew (.cons htemp (.cons (hconst _)
        (.cons (harg _) .nil)))) ?_
      split
      · exact .effect (.cons htemp .nil) hrest
      · exact hrest

theorem emitInstForObjRemoveCode_fronts (removeType : RemoveType) (i : ℕ) :
    Fronts R (emitInstForObjRemoveCode const arg inlineOpt q removeType i)
      (emitInstForObjRemoveCode const' arg' inlineOpt q removeType i) := by
  refine fun rest rest' hrest => pointerCast_related (harg _) fun v w h => ?_
  have hentry : ∀ entry : (ℕ × Finset ℕ) × ℕ,
      Fronts R (emitRemoveEntryCode const arg inlineOpt q removeType v i entry.1
          (entry.2 + 1 = q.elements.size))
        (emitRemoveEntryCode const' arg' inlineOpt q removeType w i entry.1
          (entry.2 + 1 = q.elements.size)) :=
    fun entry => emitRemoveEntryCode_fronts hconst harg removeType h i entry.1 _
  exact fronts_foldr hentry rest rest' hrest

/-- The code of `insertRemove` is the same for operands and values. -/
theorem insertRemoveCode_fronts : Fronts R (insertRemoveCode const arg inlineOpt q)
    (insertRemoveCode const' arg' inlineOpt q) := by
  intro rest rest' hrest
  have hvla : Recipe.Related R (emitInstForObjRemoveCode const arg inlineOpt q .vlaObjDel 0 rest)
      (emitInstForObjRemoveCode const' arg' inlineOpt q .vlaObjDel 0 rest') :=
    emitInstForObjRemoveCode_fronts hconst harg .vlaObjDel 0 rest rest' hrest
  unfold insertRemoveCode
  split
  · exact hrest
  cases q.arraySize.constant? with
  | none => exact hvla
  | some word =>
      dsimp only
      split
      · exact fronts_foldr (fun i => emitInstForObjRemoveCode_fronts hconst harg .conObjDel i) rest
          rest' hrest
      · exact hvla

end Parametric

end Bitype.Pass.IR
