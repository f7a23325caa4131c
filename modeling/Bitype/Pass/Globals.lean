import Bitype.Pass.ObjectLog

/-!
# Tracing global variables

`globalObjTracing` fills one function with the sequences of all global variables and has it
run before the constructors of the program.  An array is traced element by element, but only
its outermost dimension is taken off.
-/

namespace Bitype.Pass

open Bitype.Foundations Bitype.Runtime
open Bitype.Tool (Name)

/-- A global variable, at the address it is linked to. -/
structure GlobalVariable where
  name : Name
  valueType : IRType
  addr : Word

namespace GlobalVariable

variable (gv : GlobalVariable)

/-- The variables the loop of `globalObjTracing` passes by. -/
def isReserved : Bool :=
  gv.name = "llvm.global_ctors".toList || gv.name = "llvm.global_dtors".toList ||
    gv.name = "llvm.global.annotations".toList || gv.name = "llvm.used".toList ||
    "bitype.".toList.isPrefixOf gv.name

/-- `AllocaType`. -/
def allocaType : IRType :=
  match gv.valueType with
  | .array _ elementType => elementType
  | type => type

/-- `NElems`. -/
def nElems : Word :=
  match gv.valueType with
  | .array numElements _ => BitVec.ofNat 64 numElements
  | _ => 1

variable (M : Module) (files : ClassFiles) (inlineOpt : Bool) (place : Name → Word)

/-- What `globalObjTracing` passes on. -/
def site : Site where
  allocType := .globalAlloc
  objAddr := gv.addr
  typeSize := uint32 (M.getTypeAllocSize gv.allocaType)
  arraySize := gv.nElems
  isConstant := true

/-- The entries the sequence of a variable is made from; none if the loop passes it by. -/
def offsets : Std.TreeMap ℕ (Finset ℕ) :=
  if gv.isReserved = true then ∅
  else if M.isInterestingType gv.valueType = true then M.elementsOf files gv.allocaType
  else ∅

/-- The loop body of `globalObjTracing`. -/
def events : List Event :=
  if gv.isReserved = true then []
  else if M.isInterestingType gv.valueType = true then
    let offsets := M.elementsOf files gv.allocaType
    if offsets.isEmpty = true then []
    else insertUpdate M inlineOpt place (gv.site M) offsets
  else []

/-- What the sequence of a variable writes. -/
def log : TraceLog := objectLog M place (gv.site M) (gv.offsets M files)

/-- The granules of a variable: those that are written, and its first. -/
def Granule (g : ℕ) : Prop := ObjectGranule M place (gv.site M) (gv.offsets M files) g

end GlobalVariable

/-- `globalObjTracing`: the body of `__init_global_object`. -/
def globalObjTracing (M : Module) (files : ClassFiles) (inlineOpt : Bool) (place : Name → Word)
    (globals : List GlobalVariable) : List Event :=
  globals.flatMap fun gv => gv.events M files inlineOpt place

section Specs

variable {mmap : ℕ → ℕ} {rodata : Word → Byte} {M : Module} {files : ClassFiles}
  {inlineOpt : Bool} {place : Name → Word} {gv : GlobalVariable}

namespace GlobalVariable

/-- What is emitted for a variable is what its entries call for. -/
theorem events_eq : gv.events M files inlineOpt place =
    if (gv.offsets M files).isEmpty = true then []
    else insertUpdate M inlineOpt place (gv.site M) (gv.offsets M files) := by
  unfold events offsets
  split
  · rfl
  · split
    · rfl
    · rfl

variable (rodata inlineOpt place) in
/-- **The sequence of a variable** returns, and leaves what its log writes. -/
theorem events_logs (fresh : FreshMmap mmap) (gv : GlobalVariable) :
    Logs mmap rodata (gv.events M files inlineOpt place) (gv.log M files place) := by
  rw [events_eq]
  split
  · next hempty =>
      rw [log, objectLog_of_isEmpty hempty]
      exact .nil
  · exact logs_insertUpdate rodata M inlineOpt place (gv.site M) fresh nofun _

variable (rodata inlineOpt place) in
theorem events_within (fresh : FreshMmap mmap) (gv : GlobalVariable) :
    StaysWithin mmap rodata (gv.events M files inlineOpt place) (gv.Granule M files place) := by
  rw [events_eq]
  split
  · exact .nil
  · exact insertUpdate_within rodata M inlineOpt place (gv.site M) fresh nofun _

end GlobalVariable

end Specs

end Bitype.Pass
