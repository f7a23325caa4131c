import Bitype.Foundations.Builder
import Bitype.Pass.Heap

/-!
# The instructions that are emitted

With `inline-opt` on, the passes write the bodies of the runtime's functions out, instruction by
instruction.  Here are the operations of the builder that they use, with what the instructions do
to a running program, and the three sequences: the update and the erase of `emitInstForObjTrace`,
and the check of `typecastinginlineoptimization`.

`updateSequence_meaning`, `eraseSequence_meaning` and `checkSequence_meaning` say what they compute.
The pointers of the runtime are 64-bit words in an instruction, so this needs tables that lie below
the end of the address space.
-/

namespace Bitype.Pass.IR

open Bitype.Foundations Bitype.Foundations.Flowchart Bitype.Runtime

/-! ## Operations -/

/-- What a register holds.  Integers of fewer bits are extended with zeros.  A pointer to a field of
the `size_offset` of a word is the address of the word and the field. -/
structure Value where
  word : Word
  field : Bool
deriving DecidableEq

abbrev ofWord (word : Word) : Value := ⟨word, false⟩

def ofBool (b : Bool) : Value := ofWord (if b = true then 1 else 0)

/-- The global variables of the runtime that emitted code names. -/
inductive Global
  | bitypeLookupStart
  | bitypeSecondLevelStart
  | bitypeSecondLevelEnd
deriving DecidableEq

/-- The operations of the builder: `gep` has the size of an element and the bits of the index, and
`gepField` says which of the two fields. -/
inductive Op
  | isNull
  | isNotNull
  | ptrToInt
  | bitCast
  | add (bits : ℕ)
  | lShr
  | and
  | shl
  | xor (bits : ℕ)
  | icmpUGT (bits : ℕ)
  | icmpUGE
  | gep (scale bits : ℕ)
  | gepField (field : Bool)
  | load
  | loadByte
  | loadGlobal (g : Global)
deriving DecidableEq

/-- The functions of the runtime that emitted code calls. -/
inductive Callee
  | bitypePrintTypeConfusion
  | bitypeMallocNewSpace
  | bitypeDirectUpdateObjTrace
  | bitypeHandleReinterpretCast
  | bitypeUpdateObjTrace
  | bitypeUpdateArraySize
  | bitypeDirectEraseObj
  | bitypeEraseObj (allocType : AllocType)
  | bitypeDirectEraseArraySize
deriving DecidableEq

inductive Effect
  | store
  | storeField
  | storeGlobal (g : Global)
  | call (callee : Callee)
deriving DecidableEq

/-- An integer of some bits, as a register holds it. -/
def truncated (bits : ℕ) (word : Word) : Word := (word.setWidth bits).setWidth 64

/-- The index of a `gep`, extended by its sign. -/
def signed (bits : ℕ) (word : Word) : Word := (word.setWidth bits).signExtend 64

/-- The operations that read nothing but their operands. -/
def Op.evalPure : Op → List Value → Option Value
  | .isNull, [a] => some (ofBool (a.word = 0))
  | .isNotNull, [a] => some (ofBool (a.word ≠ 0))
  | .ptrToInt, [a] => some a
  | .bitCast, [a] => some a
  | .add bits, [a, b] => some (ofWord (truncated bits (a.word + b.word)))
  | .lShr, [a, b] => some (ofWord (a.word >>> b.word.toNat))
  | .and, [a, b] => some (ofWord (a.word &&& b.word))
  | .shl, [a, b] => some (ofWord (a.word <<< b.word.toNat))
  | .xor bits, [a, b] => some (ofWord (truncated bits (a.word ^^^ b.word)))
  | .icmpUGT bits, [a, b] => some (ofBool (b.word.setWidth bits < a.word.setWidth bits))
  | .icmpUGE, [a, b] => some (ofBool (b.word ≤ a.word))
  | .gep scale bits, [a, b] => some (ofWord (a.word + BitVec.ofNat 64 scale * signed bits b.word))
  | .gepField field, [a] => some ⟨a.word, field⟩
  | _, _ => none

/-! ## Running programs -/

/-- A running program: the values of the function, the memory of the program, the shadow table, and
the type confusions reported, the newest first. -/
structure Running (P : Type) where
  locals : ℕ → Word
  memory : P
  shadow : Shadow
  reports : List U32

/-- What `print_confusion_inline` prints: a location that has been reported is not reported again,
except for a negative one. -/
def newReports (debug : U32) (s : Shadow) : List U32 :=
  if debug.slt 0 = true then [debug]
  else if s.debugArray debug.toNat = true then [] else [debug]

section Execution

variable (mmap : ℕ → ℕ) (rodata : Word → Byte) {P : Type}

namespace Running

/-- Change the table. -/
def withShadow (r : Running P) (s : Shadow) : Running P := { r with shadow := s }

/-- Report a type confusion. -/
def report (r : Running P) (debug : U32) : Running P :=
  { r with
    shadow := bitypePrintTypeConfusion debug r.shadow
    reports := newReports debug r.shadow ++ r.reports }

@[simp] theorem shadow_withShadow (r : Running P) (s : Shadow) : (r.withShadow s).shadow = s := rfl

end Running

/-- The pointer in a global variable of the runtime. -/
def Global.read (s : Shadow) : Global → ℕ
  | .bitypeLookupStart => s.bitypeLookupStart
  | .bitypeSecondLevelStart => s.bitypeSecondLevelStart
  | .bitypeSecondLevelEnd => s.bitypeSecondLevelEnd

def Global.write (s : Shadow) (p : ℕ) : Global → Shadow
  | .bitypeLookupStart => { s with bitypeLookupStart := p }
  | .bitypeSecondLevelStart => { s with bitypeSecondLevelStart := p }
  | .bitypeSecondLevelEnd => { s with bitypeSecondLevelEnd := p }

/-- What an operation yields. -/
def Op.eval (op : Op) (args : List Value) (r : Running P) : Value :=
  match op, args with
  | .load, [a] => ofWord (r.shadow.mem a.word.toNat)
  | .loadByte, [a] => ofWord ((rodata a.word).setWidth 64)
  | .loadGlobal g, [] => ofWord (BitVec.ofNat 64 (g.read r.shadow))
  | op, args => (op.evalPure args).getD (ofWord 0)

/-- The call of the runtime that writes the table. -/
def Callee.op : Callee → List Word → Option Runtime.Op
  | .bitypeDirectUpdateObjTrace, [this, reference, offset] =>
      some (.directUpdateObjTrace this reference (offset.setWidth 32))
  | .bitypeHandleReinterpretCast, [this, reference, offset] =>
      some (.handleReinterpretCast this reference (offset.setWidth 32))
  | .bitypeUpdateObjTrace, [this, reference, typeSize, arraySize, offset] =>
      some (.updateObjTrace this reference (typeSize.setWidth 32) (arraySize.setWidth 32)
        (offset.setWidth 32))
  | .bitypeUpdateArraySize, [this, arraySize] => some (.updateArraySize this (arraySize.setWidth 32))
  | .bitypeDirectEraseObj, [this] => some (.directEraseObj this)
  | .bitypeEraseObj allocType, [this, obj, typeSize, arraySize] =>
      some (.eraseObj this obj (typeSize.setWidth 32) arraySize allocType)
  | .bitypeDirectEraseArraySize, [this] => some (.directEraseArraySize this)
  | _, _ => none

def storeWord (value : Word) (address : ℕ) (s : Shadow) : Shadow :=
  { s with mem := Function.update s.mem address value }

/-- A store to one of the two fields of a word. -/
def storeField (value : U32) (address : ℕ) (field : Bool) (s : Shadow) : Shadow :=
  storeWord (if field = true then setOffsetField value (s.mem address)
    else setSizeField value (s.mem address)) address s

/-- What an effect leaves, if it returns. -/
def Effect.perform (e : Effect) (args : List Value) (r : Running P) : Option (Running P) :=
  match e, args with
  | .store, [value, address] =>
      some (r.withShadow (storeWord value.word address.word.toNat r.shadow))
  | .storeField, [value, address] =>
      some (r.withShadow (Pass.IR.storeField (value.word.setWidth 32) address.word.toNat
        address.field r.shadow))
  | .storeGlobal g, [value] => some (r.withShadow (g.write r.shadow value.word.toNat))
  | .call .bitypePrintTypeConfusion, [debug] => some (r.report (debug.word.setWidth 32))
  | .call .bitypeMallocNewSpace, [] =>
      some (r.withShadow (bitypeMallocNewSpace mmap r.shadow))
  | .call callee, args =>
      (callee.op (args.map (·.word))).bind fun op =>
        (op.step mmap r.shadow).map fun s => r.withShadow s
  | _, _ => none

theorem Effect.perform_locals {e : Effect} {args : List Value} {r r' : Running P}
    (h : e.perform mmap args r = some r') : r'.locals = r.locals := by
  unfold Effect.perform at h
  split at h
  case h_6 =>
    obtain ⟨op, -, h⟩ := Option.bind_eq_some_iff.mp h
    obtain ⟨s, -, rfl⟩ := Option.map_eq_some_iff.mp h
    rfl
  case h_7 => cases h
  all_goals
    obtain rfl := Option.some.inj h
    rfl

/-- The instructions, for the builder.  It folds what reads nothing but constants. -/
def target (P : Type) : Target (Running P) Op Effect Value where
  value r i := ofWord (r.locals i)
  eval := Op.eval rodata
  perform := Effect.perform mmap
  truth v := decide (v.word ≠ 0)
  fold := Op.evalPure
  fold_eq := by
    intro op args v h r
    unfold Op.eval
    split
    · cases h
    · cases h
    · cases h
    · rw [h]
      rfl
  perform_value h := by
    rw [Effect.perform_locals mmap h]

end Execution

/-! ## The sequences -/

section Sequences

variable {V : Type} (const : Word → V)

/-- What `typecastinginlineoptimization` emits for a check.  The pointers are integers already, so
`CreatePtrToInt` emits nothing. -/
def checkSequence (source derived index code debug : V) : Recipe Op Effect V :=
  .create .isNotNull [source] fun isNotNull =>
  .ifThen isNotNull
    (.create .lShr [derived, const 26] fun firstLeR =>
      .create .and [firstLeR, const L1_MASK] fun firstLeIndex =>
      .create (.loadGlobal .bitypeLookupStart) [] fun bitypeLookupInit =>
      .create (.gep 8 64) [bitypeLookupInit, firstLeIndex] fun firstLeAddr =>
      .create .load [firstLeAddr] fun firstLeAddr =>
      .create .isNotNull [firstLeAddr] fun isNotNull2 =>
      .ifThen isNotNull2
        (.create .lShr [derived, const 3] fun secondLeR =>
          .create .and [secondLeR, const L2_MASK] fun secondLeIndex =>
          .create .shl [secondLeIndex, const 1] fun secondLeIndex =>
          .create (.gep 8 64) [firstLeAddr, secondLeIndex] fun targetAddr =>
          .create .load [targetAddr] fun targetAddr =>
          .create .isNotNull [targetAddr] fun isNotNull3 =>
          .ifThen isNotNull3
            (.create (.add 32) [index, const 2] fun indexValue =>
              .create (.gep 1 32) [targetAddr, indexValue] fun targetValue =>
              .create .loadByte [targetValue] fun targetValue =>
              .create (.xor 8) [targetValue, code] fun xordValue =>
              .create (.icmpUGT 8) [xordValue, targetValue] fun cmpge =>
              .ifThen cmpge (.effect (.call .bitypePrintTypeConfusion) [debug] .done) .done)
            .done)
        .done)
    .done

/-- The stores to an entry: the table, and two fields behind it.  The field of the first is the last
index in `tempArr`, which is that of the size while the code for a new table is emitted.  `tempArr`
refers to `tempVec`, and afterwards that index has been replaced by the one of the offset. -/
def storeEntry (tempArr : Bool) (level2 idx2 idx222 currentGlobalVari size offset : V)
    (rest : Recipe Op Effect V) : Recipe Op Effect V :=
  .create (.gep 8 64) [level2, idx2] fun storedAddr =>
  .effect .store [currentGlobalVari, storedAddr] <|
  .create (.gep 8 64) [level2, idx222] fun loadedAddr =>
  .create .bitCast [loadedAddr] fun arrayOffset =>
  .create (.gepField tempArr) [arrayOffset] fun sizeAddr =>
  .effect .storeField [size, sizeAddr] <|
  .create (.gepField true) [arrayOffset] fun offsetAddr =>
  .effect .storeField [offset, offsetAddr] rest

/-- The update where the region has no table yet. -/
def newTableSequence (bitypeLookupInit idx1 idx2 idx222 currentGlobalVari offset : V) :
    Recipe Op Effect V :=
  .create (.loadGlobal .bitypeSecondLevelStart) [] fun bitypeLookupSecondStart =>
  .create (.loadGlobal .bitypeSecondLevelEnd) [] fun bitypeLookupSecondEnd =>
  .create .icmpUGE [bitypeLookupSecondStart, bitypeLookupSecondEnd] fun bitypeSecondGE =>
  .ifThen bitypeSecondGE (.effect (.call .bitypeMallocNewSpace) [] .done) <|
  .create (.loadGlobal .bitypeSecondLevelStart) [] fun bitypeLookupSecondStart =>
  .create (.gep 8 64) [bitypeLookupInit, idx1] fun storedAddressed =>
  .effect .store [bitypeLookupSecondStart, storedAddressed] <|
  storeEntry false bitypeLookupSecondStart idx2 idx222 currentGlobalVari (const 1) offset <|
  .create (.gep 8 64) [bitypeLookupSecondStart, const (2 ^ 24)] fun loadedAddr =>
  .effect (.storeGlobal .bitypeSecondLevelStart) [loadedAddr] .done

/-- What `emitInstForObjTrace` emits for `CONOBJADD` with `inline-opt` on. -/
def updateSequence (newAddr currentGlobalVari offset : V) (rest : Recipe Op Effect V) :
    Recipe Op Effect V :=
  .create .lShr [newAddr, const 26] fun idx11 =>
  .create .and [idx11, const L1_MASK] fun idx1 =>
  .create .lShr [newAddr, const 3] fun idx22 =>
  .create .and [idx22, const L2_MASK] fun idx2 =>
  .create .shl [idx2, const 1] fun idx2 =>
  .create (.add 64) [idx2, const 1] fun idx222 =>
  .create (.loadGlobal .bitypeLookupStart) [] fun bitypeLookupInit =>
  .create (.gep 8 64) [bitypeLookupInit, idx1] fun firstLevelValue1 =>
  .create .load [firstLevelValue1] fun firstLevelValue =>
  .create .isNull [firstLevelValue] fun isNull =>
  .ifThenElse isNull
    (newTableSequence const bitypeLookupInit idx1 idx2 idx222 currentGlobalVari offset)
    (storeEntry true firstLevelValue idx2 idx222 currentGlobalVari (const 0) offset .done)
    rest

/-- What it emits for `CONOBJDEL` with `inline-opt` on. -/
def eraseSequence (newAddr : V) (rest : Recipe Op Effect V) : Recipe Op Effect V :=
  .create .lShr [newAddr, const 26] fun idx11 =>
  .create .and [idx11, const L1_MASK] fun idx1 =>
  .create .lShr [newAddr, const 3] fun idx22 =>
  .create .and [idx22, const L2_MASK] fun idx2 =>
  .create .shl [idx2, const 1] fun idx2 =>
  .create (.loadGlobal .bitypeLookupStart) [] fun bitypeLookupInit =>
  .create (.gep 8 64) [bitypeLookupInit, idx1] fun firstLevelValue1 =>
  .create .load [firstLevelValue1] fun firstLevelValue =>
  .create .isNotNull [firstLevelValue] fun isNotNull =>
  .ifThen isNotNull
    (.create (.gep 8 64) [firstLevelValue, idx2] fun gepvalue =>
      .effect .store [const 0, gepvalue] <|
      .create (.add 64) [idx2, const 1] fun idx222 =>
      .create (.gep 8 64) [firstLevelValue, idx222] fun sizeOffset =>
      .effect .store [const 0, sizeOffset] .done)
    rest

end Sequences

/-! ## What they compute -/

/-- Regions that end below the end of the address space. -/
structure LowMmap (mmap : ℕ → ℕ) : Prop extends FreshMmap mmap where
  below : ∀ k ≤ L1_BITS, mmap k + regionBytes k < 2 ^ 64

theorem spacedMmap_low : LowMmap spacedMmap where
  toFreshMmap := spacedMmap_fresh
  below k hk := by
    have hcalls : L1_BITS = 2 ^ 22 := rfl
    have hbytes : regionBytes k ≤ 2 ^ 31 := by
      unfold regionBytes
      split <;> decide
    unfold spacedMmap
    omega

section Pointers

variable {mmap : ℕ → ℕ} {s : Shadow}

theorem poolEnd_lt (low : LowMmap mmap) (layout : Layout mmap s) {k : ℕ} (hk : k < s.mmapCalls) :
    poolEnd mmap k < 2 ^ 64 := by
  have hbound := layout.calls_bound
  exact low.below k (by omega)

theorem lookupStart_lt (low : LowMmap mmap) (layout : Layout mmap s) :
    s.bitypeLookupStart + 8 * L1_BITS < 2 ^ 64 := by
  have hfirst : 8 * L1_BITS ≤ regionBytes 0 := by decide
  have hbelow := low.below 0 (Nat.zero_le _)
  rw [layout.lookup_eq]
  omega

theorem table_lt (low : LowMmap mmap) (layout : Layout mmap s) {i : ℕ} (hi : i < L1_BITS)
    (hne : s.firstLevel i ≠ 0) : s.firstLevel i + Runtime.tableBytes < 2 ^ 64 := by
  obtain ⟨k, hk, -, hend⟩ := layout.table_in_pool i hi hne
  exact hend.trans_lt (poolEnd_lt low layout hk)

theorem secondLevelEnd_lt (low : LowMmap mmap) (layout : Layout mmap s) :
    s.bitypeSecondLevelStart ≤ s.bitypeSecondLevelEnd ∧ s.bitypeSecondLevelEnd < 2 ^ 64 := by
  obtain ⟨k, hk, -, hend⟩ := layout.rest_in_pool
  obtain ⟨r, hr⟩ := layout.rest_whole
  have hlow := poolEnd_lt low layout hk
  omega

/-- A `gep` to a pointer that does not wrap around. -/
theorem toNat_gep {base index : Word} (h : base.toNat + 8 * index.toNat < 2 ^ 64) :
    (base + BitVec.ofNat 64 8 * signed 64 index).toNat = base.toNat + 8 * index.toNat := by
  have hsigned : signed 64 index = index := by simp [signed]
  rw [hsigned, BitVec.toNat_add, BitVec.toNat_mul, BitVec.toNat_ofNat]
  omega

/-- The address of a slot of the first level. -/
def slotAddr (s : Shadow) (addr : Word) : Word :=
  BitVec.ofNat 64 s.bitypeLookupStart + BitVec.ofNat 64 8 * signed 64 (addr >>> L2_NUM &&& L1_MASK)

theorem toNat_slotAddr (low : LowMmap mmap) (layout : Layout mmap s) (addr : Word) :
    (slotAddr s addr).toNat = s.bitypeLookupStart + 8 * idx1 addr := by
  have hlow := lookupStart_lt low layout
  have hidx := idx1_lt addr
  have hval : (BitVec.ofNat 64 s.bitypeLookupStart).toNat = s.bitypeLookupStart := by
    rw [BitVec.toNat_ofNat]
    omega
  have hindex : (addr >>> L2_NUM &&& L1_MASK).toNat = idx1 addr := rfl
  rw [slotAddr, toNat_gep (by rw [hval, hindex]; omega), hval, hindex]

/-- What is loaded from it. -/
def slot (s : Shadow) (addr : Word) : Word := s.mem (slotAddr s addr).toNat

theorem toNat_slot (low : LowMmap mmap) (layout : Layout mmap s) (addr : Word) :
    (slot s addr).toNat = s.firstLevel (idx1 addr) := by
  rw [slot, toNat_slotAddr low layout]
  rfl

theorem slot_eq_zero (low : LowMmap mmap) (layout : Layout mmap s) (addr : Word) :
    slot s addr = 0 ↔ s.firstLevel (idx1 addr) = 0 := by
  rw [← toNat_slot low layout, BitVec.toNat_eq]
  rfl

/-- The address of a word of the entry of an address in a table. -/
theorem toNat_entryAddr {table : Word} (htable : table.toNat + Runtime.tableBytes < 2 ^ 64)
    (addr : Word) :
    (table + BitVec.ofNat 64 8 * signed 64 ((addr >>> 3 &&& L2_MASK) <<< 1)).toNat =
        table.toNat + 8 * idx2 addr ∧
      (table + BitVec.ofNat 64 8 * signed 64
          (truncated 64 ((addr >>> 3 &&& L2_MASK) <<< 1 + 1))).toNat =
        table.toNat + 8 * (idx2 addr + 1) := by
  have hidx := idx2_succ_lt addr
  have hbytes : Runtime.tableBytes = 8 * (2 * L2_BITS) := rfl
  have hindex : ((addr >>> 3 &&& L2_MASK) <<< 1).toNat = idx2 addr := rfl
  have hsucc : (truncated 64 ((addr >>> 3 &&& L2_MASK) <<< 1 + 1)).toNat = idx2 addr + 1 := by
    have hsmall : 2 * L2_BITS < 2 ^ 64 := by decide
    have hone : (1 : Word).toNat = 1 := rfl
    rw [truncated, BitVec.setWidth_eq, BitVec.setWidth_eq, BitVec.toNat_add, hindex, hone]
    omega
  constructor
  · rw [toNat_gep (by rw [hindex]; omega), hindex]
  · rw [toNat_gep (by rw [hsucc]; omega), hsucc]

end Pointers

section Meanings

variable {mmap : ℕ → ℕ} {rodata : Word → Byte} {P : Type} {s : Shadow}

theorem truth_ofBool (b : Bool) : decide ((ofBool b).word ≠ 0) = b := by
  cases b <;> rfl

theorem mem_slotAddr (s : Shadow) (addr : Word) :
    s.mem (BitVec.ofNat 64 s.bitypeLookupStart +
      BitVec.ofNat 64 8 * signed 64 (addr >>> (26 : Word).toNat &&& L1_MASK)).toNat = slot s addr :=
  rfl

theorem toNat_three : (3 : Word).toNat = 3 := rfl

theorem toNat_one : (1 : Word).toNat = 1 := rfl

/-- A table that a slot holds lies below the end of the address space. -/
theorem slot_lt (low : LowMmap mmap) (layout : Layout mmap s) {addr : Word}
    (hne : s.firstLevel (idx1 addr) ≠ 0) : (slot s addr).toNat + Runtime.tableBytes < 2 ^ 64 := by
  rw [toNat_slot low layout]
  exact table_lt low layout (idx1_lt addr) hne

/-! ### The check -/

/-- Where the byte is loaded from. -/
theorem byteIndex_eq (index : Word) :
    BitVec.ofNat 64 1 * signed 32 (truncated 32 (index + 2)) =
      (index.setWidth 32 + 2).signExtend 64 := by
  have hone : BitVec.ofNat 64 1 * signed 32 (truncated 32 (index + 2)) =
      signed 32 (truncated 32 (index + 2)) := BitVec.one_mul ..
  have hbits : (truncated 32 (index + 2)).setWidth 32 = index.setWidth 32 + 2 := by
    unfold truncated
    rw [BitVec.setWidth_setWidth_of_le _ (by decide), BitVec.setWidth_eq,
      BitVec.setWidth_add _ _ (by decide)]
    rfl
  rw [hone, signed, hbits]

theorem byteTest_eq (tempChar : Byte) (code : Word) :
    decide ((tempChar.setWidth 64).setWidth 8 <
        (truncated 8 (tempChar.setWidth 64 ^^^ code)).setWidth 8) =
      decide (tempChar < tempChar ^^^ code.setWidth 8) := by
  have hchar : ((tempChar.setWidth 64).setWidth 8 : Byte) = tempChar := by
    rw [BitVec.setWidth_setWidth_of_le _ (by decide), BitVec.setWidth_eq]
  have hxor : (truncated 8 (tempChar.setWidth 64 ^^^ code)).setWidth 8 =
      tempChar ^^^ code.setWidth 8 := by
    unfold truncated
    rw [BitVec.setWidth_setWidth_of_le _ (by decide), BitVec.setWidth_eq, BitVec.setWidth_xor, hchar]
  rw [hchar, hxor]

theorem mem_entry (low : LowMmap mmap) (layout : Layout mmap s) {addr : Word}
    (hne : s.firstLevel (idx1 addr) ≠ 0) :
    s.mem (slot s addr + BitVec.ofNat 64 8 * signed 64 ((addr >>> 3 &&& L2_MASK) <<< 1)).toNat =
      s.word (s.firstLevel (idx1 addr)) (idx2 addr) := by
  rw [(toNat_entryAddr (slot_lt low layout hne) addr).1, toNat_slot low layout]
  rfl

/-- **The check that is emitted** reports what `inlineVerification` says. -/
theorem checkSequence_meaning (low : LowMmap mmap) (r : Running P) (layout : Layout mmap r.shadow)
    (source derived index code debug : Word) :
    (checkSequence ofWord (ofWord source) (ofWord derived) (ofWord index) (ofWord code)
        (ofWord debug)).meaning (target mmap rodata P) r =
      some (if (inlineVerification rodata source derived (index.setWidth 32) (code.setWidth 8)
        (debug.setWidth 32) r.shadow).2 = true then r.report (debug.setWidth 32) else r) := by
  unfold checkSequence inlineVerification
  simp only [Recipe.meaning, target, Op.eval, Op.evalPure, Option.getD_some, Global.read,
    truth_ofBool, Effect.perform, Option.bind_fun_some, mem_slotAddr, toNat_three, toNat_one,
    byteIndex_eq]
  simp only [byteTest_eq, decide_eq_true_eq]
  by_cases hsource : source ≠ 0
  · rw [if_pos hsource, if_pos hsource]
    -- the derived granule has a table iff its slot is not null
    by_cases hfirst : r.shadow.firstLevel (idx1 derived) ≠ 0
    · rw [if_pos (mt (slot_eq_zero low layout derived).mp hfirst), if_pos hfirst,
        mem_entry low layout hfirst]
      split
      · simp only [maskRejects, decide_eq_true_eq]
        split <;> rfl
      · rfl
    · rw [if_neg (not_not.mpr ((slot_eq_zero low layout derived).mpr (not_not.mp hfirst))),
        if_neg hfirst]
      rfl
  · rw [if_neg hsource, if_neg hsource]
    rfl

/-! ### The update -/

theorem storeEntry_meaning (tempArr : Bool) (r : Running P) {table : Word}
    (htable : table.toNat + Runtime.tableBytes < 2 ^ 64) (addr reference size offset : Word)
    (rest : Recipe Op Effect Value) :
    (storeEntry tempArr (ofWord table) (ofWord ((addr >>> 3 &&& L2_MASK) <<< 1))
        (ofWord (truncated 64 ((addr >>> 3 &&& L2_MASK) <<< 1 + 1))) (ofWord reference) (ofWord size)
        (ofWord offset) rest).meaning (target mmap rodata P) r =
      rest.meaning (target mmap rodata P) (r.withShadow
        (((r.shadow.modifyWord table.toNat (idx2 addr) fun _ => reference).modifyWord table.toNat
          (idx2 addr + 1) (if tempArr = true then setOffsetField (size.setWidth 32)
            else setSizeField (size.setWidth 32))).modifyWord table.toNat (idx2 addr + 1)
              (setOffsetField (offset.setWidth 32)))) := by
  obtain ⟨hfirst, hsecond⟩ := toNat_entryAddr htable addr
  unfold storeEntry
  simp only [Recipe.meaning, target, Op.eval, Op.evalPure, Option.getD_some, Effect.perform,
    Option.bind_some, hfirst, hsecond]
  cases tempArr <;> rfl

theorem lookupStart_refill : (refill mmap s).bitypeLookupStart = s.bitypeLookupStart := by
  unfold refill
  split <;> rfl

/-- The pool from which the table is taken. -/
theorem refill_lt (low : LowMmap mmap) (layout : Layout mmap s) {addr : Word}
    (hnull : s.firstLevel (idx1 addr) = 0) :
    (refill mmap s).bitypeSecondLevelStart + Runtime.tableBytes < 2 ^ 64 := by
  obtain ⟨hplacement, -, hroom, -⟩ := refill_placement layout.toPlacement low.toFreshMmap
    (layout.calls_of_null (idx1_lt addr) hnull)
  obtain ⟨k, hk, -, hend⟩ := hplacement.rest_in_pool
  have hbound := hplacement.calls_bound
  have hlow : poolEnd mmap k < 2 ^ 64 := low.below k (by omega)
  omega

/-- The comparison of the pointers into the pool. -/
theorem poolUsed_iff (low : LowMmap mmap) (layout : Layout mmap s) :
    BitVec.ofNat 64 s.bitypeSecondLevelEnd ≤ BitVec.ofNat 64 s.bitypeSecondLevelStart ↔
      s.bitypeSecondLevelEnd ≤ s.bitypeSecondLevelStart := by
  obtain ⟨hle, hlt⟩ := secondLevelEnd_lt low layout
  rw [BitVec.le_def, BitVec.toNat_ofNat, BitVec.toNat_ofNat, Nat.mod_eq_of_lt hlt,
    Nat.mod_eq_of_lt (by omega)]

theorem newTableSequence_meaning (low : LowMmap mmap) (r : Running P)
    (layout : Layout mmap r.shadow) {addr : Word} (hnull : r.shadow.firstLevel (idx1 addr) = 0)
    (reference offset : Word) :
    (newTableSequence ofWord (ofWord (BitVec.ofNat 64 r.shadow.bitypeLookupStart))
        (ofWord (addr >>> L2_NUM &&& L1_MASK)) (ofWord ((addr >>> 3 &&& L2_MASK) <<< 1))
        (ofWord (truncated 64 ((addr >>> 3 &&& L2_MASK) <<< 1 + 1))) (ofWord reference)
        (ofWord offset)).meaning (target mmap rodata P) r =
      some (r.withShadow (writeEntry (claimTable (refill mmap r.shadow) (idx1 addr))
        (refill mmap r.shadow).bitypeSecondLevelStart addr reference 1 (offset.setWidth 32))) := by
  have hlt := refill_lt low layout hnull
  have hbytes : Runtime.tableBytes = 8 * 2 ^ 24 := by decide
  have hstart : (BitVec.ofNat 64 (refill mmap r.shadow).bitypeSecondLevelStart).toNat =
      (refill mmap r.shadow).bitypeSecondLevelStart := by
    rw [BitVec.toNat_ofNat]
    omega
  -- the pool is refilled if it has been used up
  have hrefill : (if BitVec.ofNat 64 r.shadow.bitypeSecondLevelEnd ≤
      BitVec.ofNat 64 r.shadow.bitypeSecondLevelStart then
      some (r.withShadow (bitypeMallocNewSpace mmap r.shadow)) else some r) =
        some (r.withShadow (refill mmap r.shadow)) := by
    simp only [poolUsed_iff low layout]
    unfold refill
    split <;> rfl
  have hslot : (BitVec.ofNat 64 r.shadow.bitypeLookupStart +
      BitVec.ofNat 64 8 * signed 64 (addr >>> L2_NUM &&& L1_MASK)).toNat =
        (refill mmap r.shadow).bitypeLookupStart + 8 * idx1 addr := by
    rw [lookupStart_refill]
    exact toNat_slotAddr low layout addr
  have hnext : (BitVec.ofNat 64 (refill mmap r.shadow).bitypeSecondLevelStart +
      BitVec.ofNat 64 8 * signed 64 (2 ^ 24)).toNat =
        (refill mmap r.shadow).bitypeSecondLevelStart + 8 * (L2_BITS * 2) := by
    have hadded : (2 ^ 24 : Word).toNat = 2 ^ 24 := by decide
    rw [toNat_gep (by rw [hstart, hadded]; omega), hstart, hadded]
    rfl
  unfold newTableSequence
  simp only [Recipe.meaning, target, Op.eval, Op.evalPure, Option.getD_some, Global.read,
    truth_ofBool, Effect.perform, Option.bind_fun_some, decide_eq_true_eq]
  rw [hrefill, Option.bind_some, Option.bind_some, Running.shadow_withShadow, hslot]
  -- the entry goes into the new table, and the pool starts behind it
  refine (storeEntry_meaning false _ (by rw [hstart]; exact hlt) addr reference 1 offset _).trans ?_
  simp only [Recipe.meaning, target, Op.eval, Op.evalPure, Option.getD_some, Effect.perform,
    Option.bind_some]
  rw [hstart]
  refine congrArg some ?_
  show r.withShadow (Global.write (writeEntry _ _ _ _ _ _) _ .bitypeSecondLevelStart) = _
  rw [hnext]
  rfl

/-- **The update that is emitted** computes `inlineUpdateObjTrace`. -/
theorem updateSequence_meaning (low : LowMmap mmap) (r : Running P) (layout : Layout mmap r.shadow)
    (newAddr reference offset : Word) (rest : Recipe Op Effect Value) :
    (updateSequence ofWord (ofWord newAddr) (ofWord reference) (ofWord offset) rest).meaning
        (target mmap rodata P) r =
      rest.meaning (target mmap rodata P) (r.withShadow
        (inlineUpdateObjTrace mmap newAddr reference (offset.setWidth 32) r.shadow)) := by
  have hshape : (updateSequence ofWord (ofWord newAddr) (ofWord reference) (ofWord offset)
      rest).meaning (target mmap rodata P) r =
      (if (target mmap rodata P).truth (ofBool (slot r.shadow newAddr = 0)) = true then
        (newTableSequence ofWord (ofWord (BitVec.ofNat 64 r.shadow.bitypeLookupStart))
          (ofWord (newAddr >>> L2_NUM &&& L1_MASK)) (ofWord ((newAddr >>> 3 &&& L2_MASK) <<< 1))
          (ofWord (truncated 64 ((newAddr >>> 3 &&& L2_MASK) <<< 1 + 1))) (ofWord reference)
          (ofWord offset)).meaning (target mmap rodata P) r
      else
        (storeEntry true (ofWord (slot r.shadow newAddr)) (ofWord ((newAddr >>> 3 &&& L2_MASK) <<< 1))
          (ofWord (truncated 64 ((newAddr >>> 3 &&& L2_MASK) <<< 1 + 1))) (ofWord reference)
          (ofWord 0) (ofWord offset) .done).meaning (target mmap rodata P) r).bind
        (rest.meaning (target mmap rodata P)) := rfl
  have htruth : (target mmap rodata P).truth (ofBool (slot r.shadow newAddr = 0)) = true ↔
      r.shadow.firstLevel (idx1 newAddr) = 0 := by
    rw [← slot_eq_zero low layout]
    simp only [target, truth_ofBool, decide_eq_true_eq]
  rw [hshape]
  by_cases hnull : r.shadow.firstLevel (idx1 newAddr) = 0
  · rw [if_pos (htruth.mpr hnull), newTableSequence_meaning low r layout hnull,
      inlineUpdate_of_null hnull, secondLevel_of_null hnull]
    rfl
  · rw [if_neg (mt htruth.mp hnull), storeEntry_meaning true r (slot_lt low layout hnull),
      inlineUpdate_of_ne hnull, toNat_slot low layout]
    rfl

/-! ### The erase -/

/-- **The erase that is emitted** computes `inlineEraseObj`. -/
theorem eraseSequence_meaning (low : LowMmap mmap) (r : Running P) (layout : Layout mmap r.shadow)
    (newAddr : Word) (rest : Recipe Op Effect Value) :
    (eraseSequence ofWord (ofWord newAddr) rest).meaning (target mmap rodata P) r =
      rest.meaning (target mmap rodata P) (r.withShadow (inlineEraseObj newAddr r.shadow)) := by
  unfold eraseSequence inlineEraseObj
  simp only [Recipe.meaning, target, Op.eval, Op.evalPure, Option.getD_some, Global.read,
    truth_ofBool, Effect.perform, mem_slotAddr, toNat_three, toNat_one, decide_eq_true_eq]
  by_cases hnull : r.shadow.firstLevel (idx1 newAddr) ≠ 0
  · obtain ⟨hfirst, hsecond⟩ := toNat_entryAddr (slot_lt low layout hnull) newAddr
    rw [toNat_slot low layout] at hfirst hsecond
    rw [if_pos (mt (slot_eq_zero low layout newAddr).mp hnull), if_pos hnull, hfirst,
      Option.bind_some, hsecond]
    rfl
  · rw [if_neg (not_not.mpr ((slot_eq_zero low layout newAddr).mpr (not_not.mp hnull))),
      if_neg hnull]
    rfl

end Meanings

end Bitype.Pass.IR
