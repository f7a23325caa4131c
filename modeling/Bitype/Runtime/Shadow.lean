import Bitype.Foundations.Execution

/-!
# The shadow table of the runtime

`bitype.cpp` keeps, for every 8-byte granule of the address space, the table of
the class traced there and a word that packs an array size and an offset.  The
entries live in a two-level table in `mmap`ed memory:

* the first level is an array of `L1_BITS` pointers at `BitypeLookupStart`;
* a second-level table is an array of `2 * L2_BITS` words, two for each granule,
  carved from the current pool `[BitypeSecondLevelStart, BitypeSecondLevelEnd)`
  the first time an address of its 64 MiB is written.

Memory is word-addressed here: `mem a` is the 64-bit word at byte address `a`.
Pointers of the runtime's own globals are natural numbers, and a word read back
as a pointer is its value.  `mmap k` is the address the `k`-th call returns; a
failing call ends the program, so only successful ones are modelled.  The code's
`printf` and `BITYPE_LOG` lines touch none of this state.
-/

namespace Bitype.Runtime

open Foundations

/-- A pointer or an `unsigned long`. -/
abbrev Word := BitVec 64

/-- `uint32_t`, `unsigned` and the bits of an `int32_t`. -/
abbrev U32 := BitVec 32

/-! ## Constants of `bitype.h` and `bitype.cpp` -/

def L1_BITS : ℕ := 2 ^ 22
def L2_BITS : ℕ := 2 ^ 23
def L1_MASK : Word := BitVec.ofNat 64 (2 ^ 22 - 1)
def L2_MASK : Word := BitVec.ofNat 64 (2 ^ 23 - 1)
def L2_NUM : ℕ := 26

def bitypePageNum : ℕ := 10

/-- The bytes of a later pool; `added_memory_size` counts its words. -/
def mmapSize : ℕ := L2_BITS * 8 * bitypePageNum * 2
def addedMemorySize : ℕ := L2_BITS * bitypePageNum * 2

/-- The bytes of the first region: the first level and the first pool. -/
def initialSize : ℕ := L1_BITS * 8 + L2_BITS * 8 * bitypePageNum * 2

/-- The bytes of one second-level table, two words for each of its granules. -/
def tableBytes : ℕ := 8 * (L2_BITS * 2)

/-- `AllocType`, the allocation kind passed to the runtime. -/
inductive AllocType
  | stackAlloc
  | heapAlloc
  | globalAlloc
  | realloc
  | placementNew
  | reinterpret
deriving DecidableEq, Repr

/-! ## State -/

/-- The globals of the runtime and the memory behind them; `mmapCalls` counts
the regions mapped so far. -/
structure Shadow where
  bitypeLookupStart : ℕ
  bitypeSecondLevelStart : ℕ
  bitypeSecondLevelEnd : ℕ
  mem : ℕ → Word
  mmapCalls : ℕ
  debugArray : ℕ → Bool

/-- A fresh mapping reads as zero. -/
def mapRegion (start len : ℕ) (mem : ℕ → Word) : ℕ → Word :=
  fun a => if start ≤ a ∧ a < start + len then 0 else mem a

variable (mmap : ℕ → ℕ)

/-- `bitypeInitialization`, from whatever memory the process starts with. -/
def bitypeInitialization (mem : ℕ → Word) : Shadow where
  bitypeLookupStart := mmap 0
  bitypeSecondLevelStart := mmap 0 + 8 * L1_BITS
  bitypeSecondLevelEnd := mmap 0 + 8 * (initialSize / 8)
  mem := mapRegion (mmap 0) initialSize mem
  mmapCalls := 1
  debugArray := fun _ => false

/-! ## Index arithmetic -/

/-- `(unsigned long)addr >> L2_NUM & L1_MASK`. -/
def idx1 (addr : Word) : ℕ := (addr >>> L2_NUM &&& L1_MASK).toNat

/-- `((unsigned long)addr >> 3 & L2_MASK) << 1`, in the functions that declare the
index `unsigned long`. -/
def idx2 (addr : Word) : ℕ := ((addr >>> 3 &&& L2_MASK) <<< 1).toNat

/-- The same index in the functions that declare it `unsigned`. -/
def idx2Unsigned (addr : Word) : ℕ := ((addr >>> 3 &&& L2_MASK).setWidth 32 <<< 1).toNat

/-! ## The `size_offset` overlay

The second word of an entry is `struct { uint32_t size; int32_t offset; }`. -/

def sizeField (word : Word) : U32 := word.extractLsb' 0 32
def offsetField (word : Word) : U32 := word.extractLsb' 32 32
def setSizeField (size : U32) (word : Word) : Word := offsetField word ++ size
def setOffsetField (offset : U32) (word : Word) : Word := offset ++ sizeField word

namespace Shadow

/-! ## Table access -/

/-- `BitypeLookupStart[i]`. -/
def firstLevel (s : Shadow) (i : ℕ) : ℕ := (s.mem (s.bitypeLookupStart + 8 * i)).toNat

/-- `level2[i]`. -/
def word (s : Shadow) (level2 i : ℕ) : Word := s.mem (level2 + 8 * i)

/-- `level2[i] = ..`, the new word computed from the old one. -/
def modifyWord (s : Shadow) (level2 i : ℕ) (f : Word → Word) : Shadow :=
  { s with mem := Function.update s.mem (level2 + 8 * i) (f (s.mem (level2 + 8 * i))) }

end Shadow

/-- `__bitype_malloc_new_space`, also written out in each update function. -/
def bitypeMallocNewSpace (s : Shadow) : Shadow :=
  { s with
    bitypeSecondLevelStart := mmap s.mmapCalls
    bitypeSecondLevelEnd := mmap s.mmapCalls + 8 * addedMemorySize
    mem := mapRegion (mmap s.mmapCalls) mmapSize s.mem
    mmapCalls := s.mmapCalls + 1 }

/-- The block all update functions start with: the second-level table of a
first-level slot, carved from the current pool if the slot is still null. -/
def secondLevel (s : Shadow) (i : ℕ) : Shadow × ℕ :=
  if s.firstLevel i = 0 then
    let s := if s.bitypeSecondLevelEnd ≤ s.bitypeSecondLevelStart
      then bitypeMallocNewSpace mmap s else s
    let tmp := s.bitypeSecondLevelStart
    ({ s with
        mem := Function.update s.mem (s.bitypeLookupStart + 8 * i) (BitVec.ofNat 64 tmp)
        bitypeSecondLevelStart := tmp + 8 * (L2_BITS * 2) }, tmp)
  else (s, s.firstLevel i)

/-! ## The runtime functions -/

/-- `__bitype_update_arraySize`. -/
def bitypeUpdateArraySize (thisPtr : Word) (arraySize : U32) (s : Shadow) : Shadow :=
  if thisPtr = 0 then s
  else
    let (s, level22) := secondLevel mmap s (idx1 thisPtr)
    s.modifyWord level22 (idx2Unsigned thisPtr + 1) (setSizeField arraySize)

/-- `__bitype_direct_updateObjTrace`. -/
def bitypeDirectUpdateObjTrace (thisPtr referenceAddr : Word) (offset : U32) (s : Shadow) :
    Shadow :=
  let (s, level2) := secondLevel mmap s (idx1 thisPtr)
  let s := s.modifyWord level2 (idx2 thisPtr) fun _ => referenceAddr
  let s := s.modifyWord level2 (idx2 thisPtr + 1) (setSizeField 0)
  s.modifyWord level2 (idx2 thisPtr + 1) (setOffsetField offset)

/-- The address of element `i`: `TypeSize * i` is a 32-bit product. -/
def elementAddr (thisPtr : Word) (typeSize i : U32) : Word :=
  thisPtr + (typeSize * i).setWidth 64

/-- The loop body of `__bitype_updateObjTrace`. -/
def updateElement (thisPtr referenceAddr : Word) (typeSize offset i : U32) (s : Shadow) :
    Shadow :=
  let addr := elementAddr thisPtr typeSize i
  let (s, level2) := secondLevel mmap s (idx1 addr)
  let s := s.modifyWord level2 (idx2Unsigned addr) fun _ => referenceAddr
  let s := s.modifyWord level2 (idx2Unsigned addr + 1) (setSizeField 0)
  s.modifyWord level2 (idx2Unsigned addr + 1) (setOffsetField offset)

/-- More condition tests than any loop over a 32-bit counter makes before it
ends; a loop that outlives it never ends. -/
def loopFuel : ℕ := 2 ^ 32 + 1

/-- `__bitype_updateObjTrace`. -/
def bitypeUpdateObjTrace (thisPtr referenceAddr : Word) (typeSize arraySize offset : U32)
    (s : Shadow) : Option Shadow :=
  forLoop arraySize.toNat (updateElement mmap thisPtr referenceAddr typeSize offset) loopFuel
    (0 : U32) s

/-- `__bitype_handle_reinterpret_cast`; its `offset` argument is not used. -/
def bitypeHandleReinterpretCast (thisPtr referenceAddr : Word) (_offset : U32) (s : Shadow) :
    Shadow :=
  let (s, level2) := secondLevel mmap s (idx1 thisPtr)
  if s.word level2 (idx2 thisPtr) ≠ 0 ∧
      offsetField (s.word level2 (idx2 thisPtr + 1)) ≠ -1 then s
  else
    let s := s.modifyWord level2 (idx2 thisPtr) fun _ => referenceAddr
    let s := s.modifyWord level2 (idx2 thisPtr + 1) (setSizeField 0)
    s.modifyWord level2 (idx2 thisPtr + 1) (setOffsetField (-1))

/-- `__bitype_direct_eraseObj`. -/
def bitypeDirectEraseObj (thisPtr : Word) (s : Shadow) : Shadow :=
  let level2 := s.firstLevel (idx1 thisPtr)
  if level2 ≠ 0 then
    let s := s.modifyWord level2 (idx2 thisPtr) fun _ => 0
    s.modifyWord level2 (idx2 thisPtr + 1) fun _ => 0
  else s

/-- `__bitype_direct_eraseArraySize`. -/
def bitypeDirectEraseArraySize (thisPtr : Word) (s : Shadow) : Shadow :=
  if thisPtr = 0 then s
  else
    let level2 := s.firstLevel (idx1 thisPtr)
    if level2 ≠ 0 then s.modifyWord level2 (idx2 thisPtr + 1) fun _ => 0 else s

/-- The loop body of `__bitype_eraseObj`. -/
def eraseElement (thisPtr : Word) (typeSize i : U32) (s : Shadow) : Shadow :=
  let addr := elementAddr thisPtr typeSize i
  let level2 := s.firstLevel (idx1 addr)
  if level2 ≠ 0 then s.modifyWord level2 (idx2 addr) fun _ => 0 else s

/-- `__bitype_eraseObj`.  For heap blocks the count comes from the size slot of
the object address, and nothing happens if that address has no table. -/
def bitypeEraseObj (thisPtr objAddr : Word) (typeSize : U32) (arraySize : Word)
    (allocType : AllocType) (s : Shadow) : Option Shadow :=
  if allocType = .heapAlloc ∨ allocType = .realloc then
    let level2 := s.firstLevel (idx1 objAddr)
    if level2 = 0 then some s
    else
      let sized := sizeField (s.word level2 (idx2 objAddr + 1))
      let arraySize := if sized ≠ 0 then sized.toNat else 1
      forLoop arraySize (eraseElement thisPtr typeSize) loopFuel (0 : U32) s
  else
    forLoop arraySize.toNat (eraseElement thisPtr typeSize) loopFuel (0 : U32) s

/-! ## Runs -/

/-- A call of one of the functions that write the table. -/
inductive Op
  | updateArraySize (thisPtr : Word) (arraySize : U32)
  | directUpdateObjTrace (thisPtr referenceAddr : Word) (offset : U32)
  | updateObjTrace (thisPtr referenceAddr : Word) (typeSize arraySize offset : U32)
  | handleReinterpretCast (thisPtr referenceAddr : Word) (offset : U32)
  | directEraseObj (thisPtr : Word)
  | eraseObj (thisPtr objAddr : Word) (typeSize : U32) (arraySize : Word) (allocType : AllocType)
  | directEraseArraySize (thisPtr : Word)
deriving DecidableEq

/-- The state a call leaves, if it returns. -/
def Op.step : Op → Shadow → Option Shadow
  | .updateArraySize thisPtr arraySize, s => some (bitypeUpdateArraySize mmap thisPtr arraySize s)
  | .directUpdateObjTrace thisPtr referenceAddr offset, s =>
      some (bitypeDirectUpdateObjTrace mmap thisPtr referenceAddr offset s)
  | .updateObjTrace thisPtr referenceAddr typeSize arraySize offset, s =>
      bitypeUpdateObjTrace mmap thisPtr referenceAddr typeSize arraySize offset s
  | .handleReinterpretCast thisPtr referenceAddr offset, s =>
      some (bitypeHandleReinterpretCast mmap thisPtr referenceAddr offset s)
  | .directEraseObj thisPtr, s => some (bitypeDirectEraseObj thisPtr s)
  | .eraseObj thisPtr objAddr typeSize arraySize allocType, s =>
      bitypeEraseObj thisPtr objAddr typeSize arraySize allocType s
  | .directEraseArraySize thisPtr, s => some (bitypeDirectEraseArraySize thisPtr s)

/-- The runtime as a machine driven by calls. -/
def machine : Machine Shadow Op where
  step := Op.step mmap

/-! ## What the indices are -/

theorem idx1_eq (addr : Word) : idx1 addr = addr.toNat / 2 ^ 26 % 2 ^ 22 := by
  rw [idx1, L2_NUM, L1_MASK, BitVec.toNat_and, BitVec.toNat_ushiftRight, BitVec.toNat_ofNat,
    Nat.shiftRight_eq_div_pow, Nat.mod_eq_of_lt (by decide), Nat.and_two_pow_sub_one_eq_mod]

theorem toNat_granule_bits (addr : Word) :
    (addr >>> 3 &&& L2_MASK).toNat = addr.toNat / 8 % 2 ^ 23 := by
  rw [L2_MASK, BitVec.toNat_and, BitVec.toNat_ushiftRight, BitVec.toNat_ofNat,
    Nat.shiftRight_eq_div_pow, Nat.mod_eq_of_lt (by decide), Nat.and_two_pow_sub_one_eq_mod]

theorem idx2_eq (addr : Word) : idx2 addr = 2 * (addr.toNat / 8 % 2 ^ 23) := by
  rw [idx2, BitVec.toNat_shiftLeft, toNat_granule_bits, Nat.shiftLeft_eq]
  omega

theorem idx2Unsigned_eq (addr : Word) : idx2Unsigned addr = idx2 addr := by
  rw [idx2_eq, idx2Unsigned, BitVec.toNat_shiftLeft, BitVec.toNat_setWidth, toNat_granule_bits,
    Nat.shiftLeft_eq]
  omega

theorem idx1_lt (addr : Word) : idx1 addr < L1_BITS := by
  rw [idx1_eq]
  exact Nat.mod_lt _ (by decide)

/-- Both words of an entry lie inside its second-level table. -/
theorem idx2_succ_lt (addr : Word) : idx2 addr + 1 < 2 * L2_BITS := by
  rw [idx2_eq, L2_BITS]
  omega

@[simp] theorem sizeField_setSizeField (size : U32) (word : Word) :
    sizeField (setSizeField size word) = size := BitVec.extractLsb'_append_eq_right

@[simp] theorem offsetField_setSizeField (size : U32) (word : Word) :
    offsetField (setSizeField size word) = offsetField word := BitVec.extractLsb'_append_eq_left

@[simp] theorem sizeField_setOffsetField (offset : U32) (word : Word) :
    sizeField (setOffsetField offset word) = sizeField word := BitVec.extractLsb'_append_eq_right

@[simp] theorem offsetField_setOffsetField (offset : U32) (word : Word) :
    offsetField (setOffsetField offset word) = offset := BitVec.extractLsb'_append_eq_left

@[simp] theorem sizeField_zero : sizeField 0#64 = 0#32 := by decide

@[simp] theorem offsetField_zero : offsetField 0#64 = 0#32 := by decide

end Bitype.Runtime
