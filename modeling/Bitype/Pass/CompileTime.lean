import Bitype.Pass.Downcast
import Bitype.Pass.SafeSource

/-!
# Checks erased at compile time

The search for a safe source never looks at the class of the cast: where it succeeds, the
source pointer is an address inside an object of the function or a global variable, of
whatever class.  It comes behind the tracing of the heap, so the object is none whose own
allocation is traced, unless the source goes to a part of it.

Two things are between that and a check that could not have reported.  A pointer variable
may change without a store into it, be read before it is written, or an address may be of
something else than an object; `Orderly` excludes these.  And the object's class may not be
that of the cast: `erased_reports_iff` says that in an orderly run an erased check would have
reported exactly if so.
-/

namespace Bitype.Pass

open Bitype.Foundations Bitype.Runtime Bitype.Tool

/-! ## Objects -/

/-- An object that the function allocates or a global variable, with the type that it is
traced with; one that is not traced has a type without classes. -/
structure TypedObject where
  type : IRType
  addr : Word

section Objects

variable (M : Module) (files : ClassFiles) (rodata : Word → Byte) (place : Name → Word)

/-- The address is `o` bytes inside an object. -/
def TypedObject.Holds (object : TypedObject) (o : ℕ) (addr : Word) : Prop :=
  o < M.getTypeAllocSize object.type ∧ addr = object.addr + BitVec.ofNat 64 o

/-- How far an object starts behind the start of its first granule.  The pass raises the
alignment of variables of cast-related types only. -/
def TypedObject.lead (object : TypedObject) : ℕ := object.addr.toNat % 8

/-- Where the first granule of an object starts. -/
def TypedObject.firstGranule (object : TypedObject) : Word :=
  object.addr - BitVec.ofNat 64 object.lead

/-- How far an object reaches from the start of its first granule. -/
def TypedObject.extent (object : TypedObject) : ℕ := object.lead + M.getTypeAllocSize object.type

/-- The classes whose table is recorded for a granule of an object, `i` bytes behind the start
of its first granule. -/
def ClassesAt (type : IRType) (i : ℕ) (types : Finset ℕ) : Prop :=
  (M.elementsOf files type)[i / 8]? = some types

/-- The table says of each granule of an object what the object's type says. -/
structure Traced (s : Shadow) (object : TypedObject) : Prop where
  nonnull : object.addr ≠ 0
  fits : object.addr.toNat + M.getTypeAllocSize object.type ≤ 2 ^ 48
  classes : ∀ i types, i < object.extent M → ClassesAt M files object.type i types →
    seen (s.lookup (object.firstGranule + BitVec.ofNat 64 i)) = leaves M place (i / 8, types)
  clear : ∀ i, i < object.extent M → (¬ ∃ types, ClassesAt M files object.type i types) →
    Entry.table? (s.lookup (object.firstGranule + BitVec.ofNat 64 i)) = none

/-- A cast from `i` bytes behind the start of an object's first granule to `k` bytes before is
let through: nothing is recorded for the granule, or the derived object does not start before
the granule does and the table of the granule it starts in has the number. -/
def CastAllowed (type : IRType) (i k code : ℕ) : Prop :=
  (¬ ∃ types, ClassesAt M files type i types) ∨
    k ≤ i ∧ WithinReach (i - k) i ∧ ∃ types origin, ClassesAt M files type (i - k) types ∧
      Tabled M files rodata place types origin code ∧ origin.Accepts M files code

/-- `__bitype_cast_verification` reports a type confusion. -/
def Reports (s : Shadow) (sourcePtr thisPtr : Word) (code : ℕ) (debugIndex : U32) : Prop :=
  (bitypeCastVerification rodata sourcePtr thisPtr (byteIndex (BitVec.ofNat 32 code))
    (safeCode (BitVec.ofNat 32 code)) debugIndex s).2 = true

end Objects

section Check

variable {M : Module} {files : ClassFiles} {rodata : Word → Byte} {place : Name → Word}
  {s : Shadow} {object : TypedObject} {o k code : ℕ} {debugIndex : U32}

theorem not_reports_null (thisPtr : Word) : ¬ Reports rodata s 0 thisPtr code debugIndex := by
  unfold Reports bitypeCastVerification bitypeVerifyCast
  simp

theorem not_reports_of_untraced {sourcePtr : Word}
    (h : Entry.table? (s.lookup sourcePtr) = none) (thisPtr : Word) :
    ¬ Reports rodata s sourcePtr thisPtr code debugIndex := by
  unfold Reports bitypeCastVerification
  rw [verifyCast_eq]
  unfold verdict
  rw [h]
  split
  · simp [Verdict.result]
  · simp [Verdict.result]

/-- Where the source has a table, a check that does not report passes. -/
theorem not_reports_iff_passes {sourcePtr : Word} (hsource : sourcePtr ≠ 0) {address : Word}
    (h : Entry.table? (s.lookup sourcePtr) = some address) (thisPtr : Word) :
    ¬ Reports rodata s sourcePtr thisPtr code debugIndex ↔
      Passes rodata s sourcePtr thisPtr code debugIndex := by
  rw [passes_iff_verdict hsource]
  unfold Reports bitypeCastVerification
  rw [verifyCast_eq]
  generalize hv : verdict rodata s.lookup sourcePtr thisPtr _ _ = v
  have htraced : v ≠ .null ∧ v ≠ .untraced := by
    rw [← hv]
    unfold verdict maskVerdict
    rw [if_neg hsource]
    simp only [h]
    repeat' split
    all_goals simp
  cases v with
  | null => exact absurd rfl htraced.1
  | untraced => exact absurd rfl htraced.2
  | confusion => simp [Verdict.result]
  | safe => simp [Verdict.result]

theorem Traced.address_ne_zero (htraced : Traced M files place s object)
    (ho : o < M.getTypeAllocSize object.type) : object.addr + BitVec.ofNat 64 o ≠ 0 :=
  Pass.address_ne_zero htraced.fits ho.le htraced.nonnull

theorem TypedObject.address_eq (object : TypedObject) (o : ℕ) :
    object.addr + BitVec.ofNat 64 o = object.firstGranule + BitVec.ofNat 64 (object.lead + o) := by
  rw [firstGranule, BitVec.ofNat_add]
  ring

variable (debugIndex) in
/-- **When a check of a cast inside a traced object does not report.** -/
theorem Traced.not_reports_iff (htraced : Traced M files place s object)
    (ho : o < M.getTypeAllocSize object.type) (hk : k < 2 ^ 32) (hfiles : FromTool files)
    {name : Name} (hcode : files.bitypeCodeMap[name]? = some code)
    (htables : ∀ i types, i < object.extent M → ClassesAt M files object.type i types →
      ∃ origin, Tabled M files rodata place types origin code) :
    ¬ Reports rodata s (object.addr + BitVec.ofNat 64 o)
        (object.addr + BitVec.ofNat 64 o - BitVec.ofNat 64 k) code debugIndex ↔
      CastAllowed M files rodata place object.type (object.lead + o) k code := by
  have hsource := htraced.address_ne_zero ho
  have hsame : object.addr + BitVec.ofNat 64 o =
      object.addr + BitVec.ofNat 64 o - BitVec.ofNat 64 k ↔ k = 0 := by
    constructor
    · intro h
      have hval := congrArg BitVec.toNat h
      rw [BitVec.toNat_sub, toNat_address htraced.fits ho.le, BitVec.toNat_ofNat] at hval
      have := htraced.fits
      omega
    · rintro rfl
      simp
  -- from here on the source counts from the start of the first granule
  have hi : object.lead + o < object.extent M := Nat.add_lt_add_left ho _
  rw [object.address_eq] at hsource hsame ⊢
  generalize object.lead + o = i at hsource hsame hi ⊢
  by_cases hclasses : ∃ types, ClassesAt M files object.type i types
  swap
  · exact iff_of_true (not_reports_of_untraced (htraced.clear i hi hclasses) _) (.inl hclasses)
  obtain ⟨types, htypes⟩ := hclasses
  have hseen := htraced.classes i types hi htypes
  have htable : Entry.table? (s.lookup (object.firstGranule + BitVec.ofNat 64 i)) =
      some (place (M.setName types)) := congrArg Prod.fst hseen
  have hoffset : Entry.offsetOf (s.lookup (object.firstGranule + BitVec.ofNat 64 i)) =
      BitVec.ofNat 32 (8 * (i / 8)) := congrArg Prod.snd hseen
  have hsmall : i / 8 < 2 ^ 29 := (TypeTable.filed_elementsOf object.type htypes).1
  rw [not_reports_iff_passes hsource htable, passes_of_traced hsource htable, hoffset,
    derivedOffset_sub_slt _ hsmall hk, not_not]
  have hexists : ∃ types, ClassesAt M files object.type i types := ⟨types, htypes⟩
  have hreach : (k = 0 ∨ k ≤ 8 * (i / 8) ∧ 8 * (i / 8) < 2 ^ 31) ↔
      k ≤ i ∧ WithinReach (i - k) i := by
    unfold WithinReach
    omega
  rw [hsame, hreach, and_assoc]
  unfold CastAllowed
  rw [or_iff_right (not_not.mpr hexists)]
  refine and_congr_right fun hle => and_congr_right fun _ => ?_
  -- the derived object starts in a granule of the traced one
  have hinside : i - k < object.extent M := (Nat.sub_le i k).trans_lt hi
  have htraces : ∀ types, ClassesAt M files object.type (i - k) types →
      Entry.table? (s.lookup (object.firstGranule + BitVec.ofNat 64 (i - k))) =
        some (place (M.setName types)) :=
    fun types htypes => congrArg Prod.fst (htraced.classes (i - k) types hinside htypes)
  rw [address_sub object.firstGranule hle, table_accepts_iff rodata code _
    (fun _ _ h h' => Option.some.inj (h.symm.trans h')) htraces (htraced.clear (i - k) hinside)]
  constructor
  · rintro ⟨types', htypes', haccepts⟩
    obtain ⟨origin, htabled⟩ := htables (i - k) types' hinside htypes'
    exact ⟨types', origin, htypes', htabled, (tableAccepts_iff hfiles hcode htabled).mp haccepts⟩
  · rintro ⟨types', origin, htypes', htabled, haccepts⟩
    exact ⟨types', htypes', (tableAccepts_iff hfiles hcode htabled).mpr haccepts⟩

/-- Tracing an object in a clear place. -/
theorem traced_of_seen {allocType : AllocType} {s' : Shadow}
    (hkind : allocType ≠ .placementNew ∧ allocType ≠ .reinterpret)
    (haligned : object.addr.toNat % 8 = 0) (hnonnull : object.addr ≠ 0)
    (hfits : object.addr.toNat + M.getTypeAllocSize object.type ≤ 2 ^ 48)
    (hclear : ∀ o, o < M.getTypeAllocSize object.type →
      (¬ ∃ types, ClassesAt M files object.type o types) →
      Entry.table? (s.lookup (object.addr + BitVec.ofNat 64 o)) = none)
    (hseen : ∀ g < 2 ^ 45, seen (s'.view (granuleAt object.addr g)) =
      seenAfter M files place allocType object.addr object.type s g) :
    Traced M files place s' object := by
  have helements : tracedElements M files allocType object.type = M.elementsOf files object.type :=
    if_neg (not_or.mpr hkind)
  have hlead : object.lead = 0 := haligned
  have hstart : object.firstGranule = object.addr := by
    rw [TypedObject.firstGranule, hlead]
    exact BitVec.sub_zero _
  have hextent : object.extent M = M.getTypeAllocSize object.type := by
    rw [TypedObject.extent, hlead, Nat.zero_add]
  refine ⟨hnonnull, hfits, ?_, ?_⟩ <;> rw [hstart, hextent]
  · intro o types ho htypes
    rw [lookup_offset s' haligned, hseen _ (by omega), seenAfter, helements, htypes]
    exact if_pos (Finset.card_ne_zero.mpr (TypeTable.filed_elementsOf object.type htypes).2.1)
  · intro o ho hnone
    have hnone' : (M.elementsOf files object.type)[o / 8]? = none :=
      Option.eq_none_iff_forall_ne_some.mpr fun types h => hnone ⟨types, h⟩
    have hafter : seen (s'.lookup (object.addr + BitVec.ofNat 64 o)) =
        seen (s.lookup (object.addr + BitVec.ofNat 64 o)) := by
      rw [lookup_offset s' haligned, lookup_offset s haligned, hseen _ (by omega), seenAfter,
        helements, hnone']
    exact (congrArg Prod.fst hafter).trans (hclear o ho hnone)

end Check

/-! ## Executions -/

/-- A call of the function in front of an instruction: what each instruction has last
computed, the words in memory, the objects there are (the global variables and those
allocated so far) and the instructions executed, the newest first. -/
structure Activation where
  pc : ℕ
  regs : ℕ → Word
  mem : Word → Word
  objects : List TypedObject
  trace : List ℕ

/-- The operand has been computed. -/
def Computed (trace : List ℕ) (operand : Value) : Prop := ∀ i, operand = .inst i → i ∈ trace

namespace Activation

section Semantics

variable (M : Module) (consts : Value → Word) (F : Function)

/-- What an operand stands for. -/
def value (f : Activation) : Value → Word
  | .inst i => f.regs i
  | operand => consts operand

/-- The objects of an allocation that the passes trace. -/
def allocated (type : IRType) (addr : Word) (count : ℕ) : List TypedObject :=
  if M.isInterestingType type = true then
    (List.range count).map fun n => ⟨type, addr + BitVec.ofNat 64 (n * M.getTypeAllocSize type)⟩
  else []

/-- What an instruction may do: the word it computes, the memory it leaves and the objects
it allocates.  A load or store is of a pointer; of what is left open any word will do. -/
inductive Executes (f : Activation) : Inst → Word → (Word → Word) → List TypedObject → Prop
  | alloca {type : IRType} {isPointerTy : Bool} {arraySize : Option Word} (addr : Word)
      (count : ℕ) (hcount : ∀ c, arraySize = some c → count = c.toNat) :
      Executes f (.alloca type isPointerTy arraySize) addr f.mem (allocated M type addr count)
  | load {pointer : Value} (hpointer : Computed f.trace pointer) :
      Executes f (.load pointer) (f.mem (f.value consts pointer)) f.mem []
  | store {value pointer : Value} (hvalue : Computed f.trace value)
      (hpointer : Computed f.trace pointer) (word : Word) :
      Executes f (.store value pointer) word
        (Function.update f.mem (f.value consts pointer) (f.value consts value)) []
  | bitCast {operand : Value} (hoperand : Computed f.trace operand) :
      Executes f (.bitCast operand) (f.value consts operand) f.mem []
  | ptrToInt {operand : Value} (hoperand : Computed f.trace operand) :
      Executes f (.ptrToInt operand) (f.value consts operand) f.mem []
  | cast {operand : Value} (word : Word) : Executes f (.cast operand) word f.mem []
  | getElementPtr {pointer : Value} {resultElementType : IRType} (word : Word) :
      Executes f (.getElementPtr pointer resultElementType) word f.mem []
  | phi {incoming : List Value} (word : Word) : Executes f (.phi incoming) word f.mem []
  | newObjects {type : IRType} (addr : Word) (mem : Word → Word) (count : ℕ) (hnew : addr ≠ 0) :
      Executes f (.call (some type)) addr mem (allocated M type addr count)
  | noObjects {allocatedType : Option IRType} (word : Word) (mem : Word → Word)
      (hnone : M.isHeapObj allocatedType = true → word = 0) :
      Executes f (.call allocatedType) word mem []
  | castVerification {sourcePtr thisPtr : Value} {index : U32} {code : Byte} {debugIndex : U32}
      (word : Word) :
      Executes f (.castVerification sourcePtr thisPtr index code debugIndex) word f.mem []
  | lifetimeStart {isMinusOne : Bool} {pointer : Value} (word : Word) (mem : Word → Word) :
      Executes f (.lifetimeStart isMinusOne pointer) word mem []
  | lifetimeEnd {isMinusOne : Bool} {pointer : Value} (word : Word) (mem : Word → Word) :
      Executes f (.lifetimeEnd isMinusOne pointer) word mem []
  | other (word : Word) (mem : Word → Word) : Executes f .other word mem []

/-- From one instruction to the next; a return ends the call. -/
inductive Step (f : Activation) : Activation → Prop
  | step {inst : Inst} {word : Word} {mem : Word → Word} {objects : List TypedObject} {next : ℕ}
      (hinst : F.insts[f.pc]? = some inst) (hexecutes : Executes M consts f inst word mem objects)
      (hnext : next ∈ F.successors f.pc) :
      Step f ⟨next, Function.update f.regs f.pc word, mem, objects ++ f.objects, f.pc :: f.trace⟩

/-- The call has come to an instruction. -/
def Reached (globals : List TypedObject) (f : Activation) : Prop :=
  ∃ regs mem, Relation.ReflTransGen (Step M consts F) ⟨0, regs, mem, globals, []⟩ f

end Semantics

/-! ## Orderly executions -/

section Orderly

variable (M : Module) (F : Function) (p : ℕ)

/-- The value is one that the source of a check comes from. -/
def OnChain (v : Value) : Prop := Relation.ReflTransGen F.ComesFrom (.inst p) v

/-- The pointer variable is one that the source of a check is loaded from. -/
def ChainVariable (a : ℕ) : Prop :=
  ∃ i, OnChain F p (.inst i) ∧ F.insts[i]? = some (.load (.inst a))

/-- Since the variable has been allocated there has been a store into it. -/
def StoredSince (a : ℕ) (trace : List ℕ) : Prop :=
  ∃ newer k older, trace = newer ++ k :: older ∧
    (∃ stored, F.insts[k]? = some (.store stored (.inst a))) ∧ a ∉ newer

/-- The address is null or inside one of the objects. -/
def Grounded (objects : List TypedObject) (addr : Word) : Prop :=
  addr = 0 ∨ ∃ object ∈ objects, ∃ o, object.Holds M o addr

/-- An instruction that passes on what an operand or a variable holds. -/
def PassesOn (i : ℕ) : Prop :=
  ∃ operand, F.insts[i]? = some (.ptrToInt operand) ∨ F.insts[i]? = some (.bitCast operand) ∨
    F.insts[i]? = some (.load operand)

/-- What the search takes for granted of a step: an address the source comes from is null or
inside an object, and a pointer variable it is loaded from has been stored into and changes
through stores into it only. -/
structure Orderly (f f' : Activation) : Prop where
  grounded : OnChain F p (.inst f.pc) → ¬ PassesOn F f.pc → Grounded M f'.objects (f'.regs f.pc)
  stored : ∀ a, OnChain F p (.inst f.pc) → F.insts[f.pc]? = some (.load (.inst a)) →
    StoredSince F a f.trace
  kept : ∀ a, ChainVariable F p a → StoredSince F a f.trace → f.pc ≠ a →
    (¬ ∃ stored, F.insts[f.pc]? = some (.store stored (.inst a))) →
    f'.mem (f.regs a) = f.mem (f.regs a)

/-- The call has come to an instruction in orderly steps. -/
def OrderlyReached (consts : Value → Word) (globals : List TypedObject) (f : Activation) : Prop :=
  ∃ regs mem, Relation.ReflTransGen (fun f f' => Step M consts F f f' ∧ Orderly M F p f f')
    ⟨0, regs, mem, globals, []⟩ f

/-- Every global variable the source comes from is one of the objects. -/
def GlobalsGrounded (consts : Value → Word) (objects : List TypedObject) : Prop :=
  ∀ g, OnChain F p (.global g) → Grounded M objects (consts (.global g))

/-- What the source comes from is grounded, in registers and in variables. -/
structure ChainInvariant (consts : Value → Word) (f : Activation) : Prop where
  globals : GlobalsGrounded M F p consts f.objects
  values : ∀ i, OnChain F p (.inst i) → i ∈ f.trace → Grounded M f.objects (f.regs i)
  stored : ∀ a, ChainVariable F p a → StoredSince F a f.trace →
    Grounded M f.objects (f.mem (f.regs a))

end Orderly

section Invariant

variable {M : Module} {consts : Value → Word} {F : Function} {globals : List TypedObject} {p : ℕ}
  {f f' : Activation}

theorem OrderlyReached.reached (h : OrderlyReached M F p consts globals f) :
    Reached M consts F globals f := by
  obtain ⟨regs, mem, hsteps⟩ := h
  refine ⟨regs, mem, ?_⟩
  induction hsteps with
  | refl => exact .refl
  | tail _ hstep ih => exact ih.tail hstep.1

theorem Grounded.append {objects : List TypedObject} {addr : Word} (h : Grounded M objects addr)
    (more : List TypedObject) : Grounded M (more ++ objects) addr := by
  rcases h with hnull | ⟨object, hmem, o, hholds⟩
  · exact .inl hnull
  · exact .inr ⟨object, List.mem_append_right _ hmem, o, hholds⟩

/-- An allocation of at least one object gives an address inside it. -/
theorem grounded_allocated {type : IRType} (hinteresting : M.isInterestingType type = true)
    (hsize : 0 < M.getTypeAllocSize type) (addr : Word) {count : ℕ} (hcount : 0 < count)
    (objects : List TypedObject) : Grounded M (allocated M type addr count ++ objects) addr := by
  refine .inr ⟨⟨type, addr⟩, List.mem_append_left _ ?_, 0, hsize, by simp⟩
  rw [allocated, if_pos hinteresting, List.mem_map]
  exact ⟨0, List.mem_range.mpr hcount, by simp⟩

/-- What the operand of a source comes from is safe. -/
theorem safe_of_onChain {v w : Value} (hsource : F.insts[p]? = some (.ptrToInt v))
    (hsafe : F.SafeSource M.toTypeTable v) (h : OnChain F p w) :
    w = .inst p ∨ F.SafeSource M.toTypeTable w := by
  rcases Relation.ReflTransGen.cases_head h with rfl | ⟨u, hfirst, hrest⟩
  · exact .inl rfl
  · cases hfirst with
    | ptrToInt hinst =>
        obtain rfl := Inst.ptrToInt.inj (Option.some.inj (hsource.symm.trans hinst))
        exact .inr (hsafe.trans hrest)
    | bitCast hinst => cases hsource.symm.trans hinst
    | load hinst => cases hsource.symm.trans hinst

section Step

variable {v : Value} (hsource : F.insts[p]? = some (.ptrToInt v))
  (hsafe : F.SafeSource M.toTypeTable v)
include hsource hsafe

/-- What an operand on the chain stands for. -/
theorem ChainInvariant.operand (inv : ChainInvariant M F p consts f) {w : Value} (hw : OnChain F p w)
    (hcomputed : Computed f.trace w) : Grounded M f.objects (f.value consts w) := by
  rcases safe_of_onChain hsource hsafe hw with rfl | hsafeW
  · exact inv.values p hw (hcomputed p rfl)
  · rcases hsafeW.cases with ⟨g, rfl⟩ | ⟨i, rfl⟩
    · exact inv.globals g hw
    · exact inv.values i hw (hcomputed i rfl)

/-- A load on the chain is of a variable. -/
theorem load_of_onChain {i : ℕ} {pointer : Value} (hi : OnChain F p (.inst i))
    (hinst : F.insts[i]? = some (.load pointer)) : ∃ a type isPointerTy arraySize,
      pointer = .inst a ∧ F.insts[a]? = some (.alloca type isPointerTy arraySize) := by
  rcases safe_of_onChain hsource hsafe hi with hself | hsafeI
  · obtain rfl := Value.inst.inj hself
    cases hsource.symm.trans hinst
  · exact hsafeI.load hinst

/-- What an instruction passes on is grounded. -/
theorem ChainInvariant.passesOn (inv : ChainInvariant M F p consts f) (horderly : Orderly M F p f f')
    {inst : Inst} {word : Word} {mem : Word → Word} {objects : List TypedObject}
    (hinst : F.insts[f.pc]? = some inst) (hexecutes : Executes M consts f inst word mem objects)
    (hpc : OnChain F p (.inst f.pc)) (hpasses : PassesOn F f.pc) :
    Grounded M f.objects word := by
  obtain ⟨operand, hcases⟩ := hpasses
  rw [hinst, Option.some.injEq, Option.some.injEq, Option.some.injEq] at hcases
  rcases hcases with rfl | rfl | rfl
  · cases hexecutes with
    | ptrToInt hoperand =>
        exact inv.operand hsource hsafe (hpc.tail (.ptrToInt hinst)) hoperand
  · cases hexecutes with
    | bitCast hoperand =>
        exact inv.operand hsource hsafe (hpc.tail (.bitCast hinst)) hoperand
  · obtain ⟨a, _, _, _, rfl, -⟩ := load_of_onChain hsource hsafe hpc hinst
    cases hexecutes with
    | load hpointer => exact inv.stored a ⟨f.pc, hpc, hinst⟩ (horderly.stored a hpc hinst)

/-- **One orderly step** keeps the chain grounded. -/
theorem ChainInvariant.step (inv : ChainInvariant M F p consts f) (hstep : Step M consts F f f')
    (horderly : Orderly M F p f f') : ChainInvariant M F p consts f' := by
  obtain @⟨inst, word, mem, objects, next, hinst, hexecutes, -⟩ := hstep
  refine ⟨fun g hg => (inv.globals g hg).append objects, fun i hi hexecuted => ?_,
    fun a hvariable hstored => ?_⟩
  · by_cases hpc : i = f.pc
    · -- the instruction passes an operand on or starts a chain
      subst hpc
      by_cases hpasses : PassesOn F f.pc
      · simp only [Function.update_self]
        exact (inv.passesOn hsource hsafe horderly hinst hexecutes hi hpasses).append objects
      · exact horderly.grounded hi hpasses
    · simp only [Function.update_of_ne hpc]
      have hbefore : i ∈ f.trace := (List.mem_cons.mp hexecuted).resolve_left hpc
      exact (inv.values i hi hbefore).append objects
  · obtain ⟨i, hi, hload⟩ := hvariable
    obtain ⟨a', _, _, _, hsame, halloca⟩ := load_of_onChain hsource hsafe hi hload
    obtain rfl := Value.inst.inj hsame
    obtain ⟨newer, k, older, htrace, ⟨stored, hstore⟩, hnewer⟩ := hstored
    have hpc : f.pc ≠ a := by
      rintro rfl
      cases newer with
      | nil =>
          obtain rfl := (List.cons.inj htrace).1
          cases halloca.symm.trans hstore
      | cons n _ => exact hnewer ((List.cons.inj htrace).1 ▸ List.mem_cons_self)
    simp only [Function.update_of_ne hpc.symm]
    by_cases hown : ∃ stored, F.insts[f.pc]? = some (.store stored (.inst a))
    · -- a store into the variable itself
      obtain ⟨stored', hown⟩ := hown
      obtain rfl := Option.some.inj (hinst.symm.trans hown)
      cases hexecutes with
      | store hvalue hpointer word =>
          simp only [value, Function.update_self]
          have hvalueOn : OnChain F p stored' := hi.tail (.load hload hown)
          exact (inv.operand hsource hsafe hvalueOn hvalue).append _
    · -- the variable keeps what an earlier store left
      have hbefore : StoredSince F a f.trace := by
        cases newer with
        | nil =>
            obtain rfl := (List.cons.inj htrace).1
            exact absurd ⟨stored, hstore⟩ hown
        | cons n newer =>
            exact ⟨newer, k, older, (List.cons.inj htrace).2, ⟨stored, hstore⟩,
              fun hmem => hnewer (List.mem_cons_of_mem _ hmem)⟩
      have hkept := horderly.kept a ⟨i, hi, hload⟩ hbefore hpc hown
      simp only at hkept
      rw [hkept]
      exact (inv.stored a ⟨i, hi, hload⟩ hbefore).append objects

/-- **Every activation reached in orderly steps** has a grounded chain. -/
theorem OrderlyReached.invariant (h : OrderlyReached M F p consts globals f)
    (hglobals : GlobalsGrounded M F p consts globals) : ChainInvariant M F p consts f := by
  obtain ⟨regs, mem, hsteps⟩ := h
  induction hsteps with
  | refl =>
      refine ⟨hglobals, fun i _ hexecuted => absurd hexecuted List.not_mem_nil,
        fun a _ hstored => ?_⟩
      obtain ⟨newer, k, older, htrace, -⟩ := hstored
      cases newer <;> cases htrace
  | tail _ hstep ih => exact ih.step hsource hsafe hstep.1 hstep.2

end Step

end Invariant

end Activation

/-! ## What an erased check would have done -/

section Erased

variable {M : Module} {files : ClassFiles} {rodata : Word → Byte} {place : Name → Word}
  {consts : Value → Word} {F : Function} {globals : List TypedObject} {f : Activation}
  {p code k : ℕ}

open Activation

/-- **When an erased check would not have reported**: for every function, every call that
is erased behind the tracing and every orderly execution that comes to it, exactly if every
object the source points into allows the cast. -/
theorem erased_reports_iff {recast : ℕ → Bool} {s : Shadow} {fuel : ℕ} {thisPtr : Value}
    {debugIndex : U32} {name : Name} (hfiles : FromTool files)
    (hcode : files.bitypeCodeMap[name]? = some code)
    (herased : (F.heapObjTracing M.toTypeTable files recast).verifiedAt M.toTypeTable fuel f.pc =
      some true)
    (hcall : F.insts[f.pc]? = some (.castVerification (.inst p) thisPtr
      (byteIndex (BitVec.ofNat 32 code)) (safeCode (BitVec.ofNat 32 code)) debugIndex))
    (hglobals : GlobalsGrounded M F p consts globals)
    (hreached : OrderlyReached M F p consts globals f)
    (hcomputed : p ∈ f.trace)
    (htraced : ∀ object ∈ f.objects, (∃ o, object.Holds M o (f.regs p)) →
      Traced M files place s object)
    (htables : ∀ object ∈ f.objects, (∃ o, object.Holds M o (f.regs p)) →
      ∀ i types, i < object.extent M → ClassesAt M files object.type i types →
        ∃ origin, Tabled M files rodata place types origin code)
    (hthis : f.regs p ≠ 0 → f.value consts thisPtr = f.regs p - BitVec.ofNat 64 k)
    (hk : k < 2 ^ 32) :
    ¬ Reports rodata s (f.regs p) (f.value consts thisPtr) code debugIndex ↔
      ∀ object ∈ f.objects, ∀ o, object.Holds M o (f.regs p) →
        CastAllowed M files rodata place object.type (object.lead + o) k code := by
  obtain ⟨v, hsource, hsafe⟩ := Function.safeSource_of_erased herased hcall
  have hgrounded : Grounded M f.objects (f.regs p) :=
    (hreached.invariant hsource hsafe.of_heapObjTracing hglobals).values p .refl hcomputed
  -- inside an object the check sees what has been traced there
  have hcheck : ∀ object ∈ f.objects, ∀ o, object.Holds M o (f.regs p) →
      (¬ Reports rodata s (f.regs p) (f.value consts thisPtr) code debugIndex ↔
        CastAllowed M files rodata place object.type (object.lead + o) k code) := by
    intro object hobject o hholds
    have hobjectTraced := htraced object hobject ⟨o, hholds⟩
    have hspec := hobjectTraced.not_reports_iff debugIndex hholds.1 hk hfiles hcode
      (htables object hobject ⟨o, hholds⟩)
    rw [hholds.2] at hthis ⊢
    rw [hthis (hobjectTraced.address_ne_zero hholds.1)]
    exact hspec
  constructor
  · intro hsilent object hobject o hholds
    exact (hcheck object hobject o hholds).mp hsilent
  · intro hallowed
    rcases hgrounded with hnull | ⟨object, hobject, o, hholds⟩
    · rw [hnull]
      exact not_reports_null _
    · exact (hcheck object hobject o hholds).mpr (hallowed object hobject o hholds)

end Erased

/-! ## A downcast of a base object -/

/-- An object of a base class is on the stack, its address kept in a pointer variable, and
the pointer cast to the derived class. -/
def downcastFunction : Function where
  insts := [.alloca (.struct 2) false (some 1), .alloca (.other 8) true (some 1),
    .store (.inst 0) (.inst 1), .load (.inst 1), .ptrToInt (.inst 3),
    .castVerification (.inst 4) (.inst 4) (byteIndex (BitVec.ofNat 32 1))
      (safeCode (BitVec.ofNat 32 1)) 0, .ret none]
  successors i := if i < 6 then [i + 1] else []
  nonempty := by decide
  closed := by decide

/-- There is nothing for the tracing of the heap to do. -/
theorem downcastFunction_heapObjTracing (files : ClassFiles) :
    downcastFunction.heapObjTracing pairModule.toTypeTable files (fun _ => false) =
      downcastFunction := rfl

theorem downcastFunction_verified (files : ClassFiles) :
    (downcastFunction.heapObjTracing pairModule.toTypeTable files fun _ => false).verifiedAt
      pairModule.toTypeTable 4 5 = some true := by
  rw [downcastFunction_heapObjTracing]
  have herased : downcastFunction.compileTimeVerification pairModule.toTypeTable 4 = some [5] := by
    decide +kernel
  exact Function.verifiedAt_of_mem herased 5 List.mem_cons_self

open Activation

/-- The source comes from the object. -/
theorem downcastFunction_chain {w : Value} (h : OnChain downcastFunction 4 w) :
    w = .inst 4 ∨ w = .inst 3 ∨ w = .inst 0 := by
  induction h with
  | refl => exact .inl rfl
  | @tail u w _ hlast ih =>
      cases hlast with
      | @ptrToInt i value hinst =>
          rcases ih with h | h | h <;> obtain rfl := Value.inst.inj h <;> cases hinst
          exact .inr (.inl rfl)
      | @bitCast i value hinst =>
          rcases ih with h | h | h <;> obtain rfl := Value.inst.inj h <;> cases hinst
      | @load i a k value hinst hstore =>
          have hmem := List.mem_of_getElem? hstore
          simp only [downcastFunction, List.mem_cons, reduceCtorEq, Inst.store.injEq, false_or,
            or_false, List.not_mem_nil] at hmem
          exact .inr (.inr hmem.1)

/-- Of the steps only the first makes an address, and only the store writes. -/
theorem downcastFunction_orderly {f f' : Activation}
    (hgrounded : f.pc = 0 → Grounded pairModule f'.objects (f'.regs 0))
    (hstored : f.pc = 3 → StoredSince downcastFunction 1 f.trace)
    (hkept : f.pc ≠ 2 → f'.mem = f.mem) : Orderly pairModule downcastFunction 4 f f' := by
  have hloads : ∀ i a, OnChain downcastFunction 4 (.inst i) →
      downcastFunction.insts[i]? = some (.load (.inst a)) → i = 3 ∧ a = 1 := by
    intro i a hi hload
    rcases downcastFunction_chain hi with h | h | h <;> obtain rfl := Value.inst.inj h <;>
      cases hload
    exact ⟨rfl, rfl⟩
  refine ⟨fun hpc hpasses => ?_, fun a hpc hload => ?_, fun a hvariable _ _ hother => ?_⟩
  · rcases downcastFunction_chain hpc with h | h | h
    · exact absurd ⟨_, .inl (by rw [Value.inst.inj h]; rfl)⟩ hpasses
    · exact absurd ⟨_, .inr (.inr (by rw [Value.inst.inj h]; rfl))⟩ hpasses
    · rw [Value.inst.inj h]
      exact hgrounded (Value.inst.inj h)
  · obtain ⟨hthree, rfl⟩ := hloads _ a hpc hload
    exact hstored hthree
  · obtain ⟨i, hi, hload⟩ := hvariable
    obtain ⟨-, rfl⟩ := hloads i a hi hload
    rw [hkept fun htwo => hother ⟨.inst 0, by rw [htwo]; rfl⟩]

/-- The object on the stack. -/
def baseObject : TypedObject := ⟨.struct 2, 16⟩

theorem downcastFunction_next {consts : Value → Word} {f : Activation}
    (hf : OrderlyReached pairModule downcastFunction 4 consts [] f) {inst : Inst} {word : Word}
    {mem : Word → Word} {objects : List TypedObject} {next : ℕ}
    (hinst : downcastFunction.insts[f.pc]? = some inst)
    (hexecutes : Executes pairModule consts f inst word mem objects)
    (hnext : next ∈ downcastFunction.successors f.pc)
    (hgrounded : f.pc = 0 → Grounded pairModule (objects ++ f.objects) word)
    (hstored : f.pc = 3 → StoredSince downcastFunction 1 f.trace)
    (hkept : f.pc ≠ 2 → mem = f.mem) :
    OrderlyReached pairModule downcastFunction 4 consts []
      ⟨next, Function.update f.regs f.pc word, mem, objects ++ f.objects, f.pc :: f.trace⟩ := by
  obtain ⟨regs, initial, hsteps⟩ := hf
  refine ⟨regs, initial, hsteps.tail ⟨.step hinst hexecutes hnext, ?_⟩⟩
  refine downcastFunction_orderly (fun hpc => ?_) hstored hkept
  simp only [hpc, Function.update_self]
  exact hgrounded hpc

/-- The execution up to the cast. -/
theorem exists_downcast (consts : Value → Word) :
    ∃ f, OrderlyReached pairModule downcastFunction 4 consts [] f ∧ f.pc = 5 ∧ f.regs 4 = 16 ∧
      f.objects = [baseObject] ∧ 4 ∈ f.trace := by
  have hstart : OrderlyReached pairModule downcastFunction 4 consts []
      ⟨0, fun _ => 0, fun _ => 0, [], []⟩ := ⟨_, _, .refl⟩
  have hobject := downcastFunction_next hstart
    (show downcastFunction.insts[0]? = some (.alloca (.struct 2) false (some 1)) from rfl)
    (.alloca 16 1 fun c hc => by cases hc; rfl) (show 1 ∈ downcastFunction.successors 0 by decide)
    (fun _ => grounded_allocated (by decide) (by decide) 16 (by decide) _) (by simp) (fun _ => rfl)
  -- a variable that keeps the address of the object
  have hvariable := downcastFunction_next hobject
    (show downcastFunction.insts[1]? = some (.alloca (.other 8) true (some 1)) from rfl)
    (.alloca 8 1 fun c hc => by cases hc; rfl) (show 2 ∈ downcastFunction.successors 1 by decide)
    (by simp) (by simp) (fun _ => rfl)
  have hkept := downcastFunction_next hvariable
    (show downcastFunction.insts[2]? = some (.store (.inst 0) (.inst 1)) from rfl)
    (.store (fun i hi => Value.inst.inj hi ▸ by simp)
      (fun i hi => Value.inst.inj hi ▸ List.mem_cons_self) 0)
    (show 3 ∈ downcastFunction.successors 2 by decide) (by simp) (by simp) (by simp)
  have hloaded := downcastFunction_next hkept
    (show downcastFunction.insts[3]? = some (.load (.inst 1)) from rfl)
    (.load fun i hi => Value.inst.inj hi ▸ by simp)
    (show 4 ∈ downcastFunction.successors 3 by decide)
    (by simp) (fun _ => ⟨[], 2, [1, 0], rfl, ⟨.inst 0, rfl⟩, List.not_mem_nil⟩) (fun _ => rfl)
  -- the source of the cast, read back from the variable
  have hsource := downcastFunction_next hloaded
    (show downcastFunction.insts[4]? = some (.ptrToInt (.inst 3)) from rfl)
    (.ptrToInt fun i hi => Value.inst.inj hi ▸ List.mem_cons_self)
    (show 5 ∈ downcastFunction.successors 4 by decide)
    (by simp) (by simp) (fun _ => rfl)
  exact ⟨_, hsource, rfl, rfl, rfl, List.mem_cons_self⟩

/-- The table of the base class. -/
def baseTable : List Byte := (pairModule.classTable (initReadFiles pairOutput) 2).getD []

/-- The first granule of a base object, and its table: it has no bit for the derived class. -/
theorem pairModule_base_elements :
    (pairModule.elementsOf (initReadFiles pairOutput) (.struct 2))[0]? = some {2} ∧
      (2 ∈ pairModule.classTypes ∧
        pairModule.classTable (initReadFiles pairOutput) 2 = some baseTable) ∧
      readOffset 1 < baseTable.length ∧
      maskRejects (placeTable 4096 baseTable) 4096
        ((byteIndex (BitVec.ofNat 32 1) + 2).setWidth 64) (safeCode (BitVec.ofNat 32 1)) = true := by
  decide +kernel

section Base

variable {R : ToolRun} (hR : PairRun R)
include hR

theorem PairRun.baseClasses {o : ℕ} (ho : o < 4) {types : Finset ℕ}
    (h : ClassesAt pairModule (filesOf R) (.struct 2) o types) : types = {2} := by
  rw [ClassesAt, hR.files_eq, Nat.div_eq_of_lt (by omega), pairModule_base_elements.1] at h
  exact (Option.some.inj h).symm

theorem PairRun.baseTabled : Tabled pairModule (filesOf R) (placeTable 4096 baseTable)
    (fun _ => 4096) {2} (.single 2) 1 := by
  have hfiles := fromTool_filesOf R
  rw [hR.files_eq] at hfiles ⊢
  have hemits : Origin.Emits pairModule (initReadFiles pairOutput) (.single 2) baseTable :=
    pairModule_base_elements.2.1
  exact ⟨baseTable, hemits, emitted_placeTable 4096 (emitted_length_le hfiles hemits),
    pairModule_base_elements.2.2.1⟩

/-- Every place of a base object has its table. -/
theorem PairRun.baseTables {o : ℕ} {types : Finset ℕ}
    (ho : o < pairModule.getTypeAllocSize baseObject.type)
    (h : ClassesAt pairModule (filesOf R) baseObject.type o types) :
    ∃ origin, Tabled pairModule (filesOf R) (placeTable 4096 baseTable) (fun _ => 4096) types
      origin 1 := by
  obtain rfl := hR.baseClasses ho h
  exact ⟨.single 2, hR.baseTabled⟩

/-- The derived class is not among those of a base object. -/
theorem PairRun.base_not_allowed :
    ¬ CastAllowed pairModule (filesOf R) (placeTable 4096 baseTable) (fun _ => 4096) (.struct 2)
      0 0 1 := by
  rintro (hnone | ⟨-, -, types, origin, htypes, htabled, haccepts⟩)
  · refine hnone ⟨{2}, ?_⟩
    rw [ClassesAt, hR.files_eq]
    exact pairModule_base_elements.1
  · obtain rfl := hR.baseClasses (by decide) htypes
    have hbyte := (tableAccepts_iff (fromTool_filesOf R) hR.code_D htabled).mpr haccepts
    rw [TableAccepts, pairModule_base_elements.2.2.2] at hbyte
    cases hbyte

end Base

/-- A table state in which the object is traced. -/
theorem exists_baseTraced (R : ToolRun) : ∃ s, Layout spacedMmap s ∧
    Traced pairModule (filesOf R) (fun _ => 4096) s baseObject := by
  have hplace : ∀ _ : Name, (4096 : Word) ≠ 0 := fun _ => by decide
  have hinit : Layout spacedMmap (bitypeInitialization spacedMmap fun _ => 0) :=
    layout_init fun _ => 0
  obtain ⟨s, -, hlayout, hseen⟩ := traceObject_spec (placeTable 4096 baseTable) pairModule
    (filesOf R) true spacedMmap_fresh hplace (show AllocType.stackAlloc ≠ .reinterpret by decide)
    true (show (16 : Word).toNat % 8 = 0 by decide) (.struct 2) hinit
  refine ⟨s, hlayout, traced_of_seen (by decide) (by decide) (by decide) (by decide)
    (fun o ho hnone => ?_) hseen⟩
  rw [lookup_eq_view, view_init]
  rfl

/-- The downcast of a base object. -/
theorem erased_reports_iff_sample : ∃ (R : ToolRun) (s : Shadow) (f : Activation),
    f.pc = 5 ∧ Layout spacedMmap s ∧
      OrderlyReached pairModule downcastFunction 4 (fun _ => 0) [] f ∧
      (¬ Reports (placeTable 4096 baseTable) s (f.regs 4) (f.value (fun _ => 0) (.inst 4)) 1 0 ↔
        ∀ object ∈ f.objects, ∀ o, object.Holds pairModule o (f.regs 4) →
          CastAllowed pairModule (filesOf R) (placeTable 4096 baseTable) (fun _ => 4096)
            object.type (object.lead + o) 0 1) := by
  obtain ⟨R, hR⟩ := exists_pairRun
  obtain ⟨s, hlayout, htraced⟩ := exists_baseTraced R
  obtain ⟨f, hreached, hpc, hregs, hobjects, htrace⟩ := exists_downcast fun _ => 0
  refine ⟨R, s, f, hpc, hlayout, hreached, erased_reports_iff (fromTool_filesOf R) hR.code_D
    (hpc ▸ downcastFunction_verified (filesOf R)) (by rw [hpc]; rfl) (fun g hg => ?_) hreached
    htrace ?_ ?_ (fun _ => by simp [Activation.value]) (by decide)⟩
  · rcases downcastFunction_chain hg with h | h | h <;> cases h
  · rw [hobjects]
    exact List.forall_mem_singleton.mpr fun _ => htraced
  · rw [hobjects]
    exact List.forall_mem_singleton.mpr fun _ o types => hR.baseTables

/-- The check of the downcast is erased and would have reported. -/
theorem erased_reports :
    ¬ ∀ (mmap : ℕ → ℕ) (rodata : Word → Byte) (R : ToolRun) (M : Module) (place : Name → Word)
      (F : Function) (recast : ℕ → Bool) (consts : Value → Word) (globals : List TypedObject)
      (f : Activation) (s : Shadow) (fuel p code k : ℕ) (name : Name) (thisPtr : Value)
      (debugIndex : U32), FreshMmap mmap → Layout mmap s →
      (∀ name, place name ≠ 0) → (filesOf R).bitypeCodeMap[name]? = some code →
      (F.heapObjTracing M.toTypeTable (filesOf R) recast).verifiedAt M.toTypeTable fuel f.pc =
        some true →
      F.insts[f.pc]? = some (.castVerification (.inst p) thisPtr (byteIndex (BitVec.ofNat 32 code))
        (safeCode (BitVec.ofNat 32 code)) debugIndex) →
      Reached M consts F globals f → p ∈ f.trace →
      (∀ object ∈ f.objects, Traced M (filesOf R) place s object) →
      (∀ object ∈ f.objects, ∀ i types, i < object.extent M →
        ClassesAt M (filesOf R) object.type i types →
        ∃ origin, Tabled M (filesOf R) rodata place types origin code) →
      f.value consts thisPtr = f.regs p - BitVec.ofNat 64 k → k < 2 ^ 32 →
      ¬ Reports rodata s (f.regs p) (f.value consts thisPtr) code debugIndex := by
  intro hclaim
  obtain ⟨R, hR⟩ := exists_pairRun
  obtain ⟨s, hlayout, htraced⟩ := exists_baseTraced R
  obtain ⟨f, hreached, hpc, hregs, hobjects, htrace⟩ := exists_downcast fun _ => 0
  have hthis : f.value (fun _ => 0) (.inst 4) = f.regs 4 - BitVec.ofNat 64 0 := by
    simp [Activation.value]
  have hsilent := hclaim spacedMmap (placeTable 4096 baseTable) R pairModule (fun _ => 4096)
    downcastFunction (fun _ => false) (fun _ => 0) [] f s 4 4 1 0 _ (.inst 4) 0 spacedMmap_fresh
    hlayout (fun _ => by decide) hR.code_D (hpc ▸ downcastFunction_verified (filesOf R))
    (by rw [hpc]; rfl) hreached.reached htrace
    (by rw [hobjects]; exact List.forall_mem_singleton.mpr htraced)
    (by rw [hobjects]; exact List.forall_mem_singleton.mpr fun o types => hR.baseTables) hthis
    (by decide)
  rw [hthis, hregs] at hsilent
  have hinside : 0 < pairModule.getTypeAllocSize baseObject.type := by decide
  have hspec := htraced.not_reports_iff 0 hinside (show 0 < 2 ^ 32 by decide) (fromTool_filesOf R)
    hR.code_D fun o types => hR.baseTables
  exact hR.base_not_allowed (hspec.mp hsilent)

end Bitype.Pass
