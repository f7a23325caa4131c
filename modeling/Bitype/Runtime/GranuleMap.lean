import Bitype.Runtime.Shadow

/-!
# The abstract table: a map from granules to entries

What the two-level table is for, with no memory in it: a map from the number of
an 8-byte granule to the entry recorded there.  The map is partial.  A granule is
in it once an update has touched some granule of the same 64 MiB, because that is
when the runtime gives those granules their (zeroed) entries, and
`__bitype_eraseObj` on a heap block can tell: it does nothing if its object
address is not in the map.

The calls act on the map through an `Addressing`, which says what granule an
address has and what granule element `i` of an array has.  `machineAddressing` is
the runtime's own arithmetic; `plainAddressing` is unbounded arithmetic.  They
agree on the calls that `Op.InRange` describes.
-/

namespace Bitype.Runtime

/-- The two words of a granule. -/
structure Entry where
  reference : Word
  size : U32
  offset : U32
deriving DecidableEq

/-- The entry of a zeroed table. -/
def Entry.zero : Entry := ⟨0, 0, 0⟩

/-- The abstract table. -/
abbrev GranuleMap := ℕ → Option Entry

namespace GranuleMap

/-- Give every granule of region `r` an entry, keeping those that have one. -/
def cover (r : ℕ) (m : GranuleMap) : GranuleMap :=
  fun g => if g / L2_BITS = r then some ((m g).getD Entry.zero) else m g

/-- Change the entry of a granule, if it has one. -/
def modify (g : ℕ) (f : Entry → Entry) (m : GranuleMap) : GranuleMap :=
  Function.update m g ((m g).map f)

/-- Change the entry of a granule, giving its region entries first. -/
def record (g : ℕ) (f : Entry → Entry) (m : GranuleMap) : GranuleMap :=
  modify g f (cover (g / L2_BITS) m)

end GranuleMap

/-- The entry of an object registered as real. -/
def traced (referenceAddr : Word) (offset : U32) : Entry → Entry :=
  fun _ => ⟨referenceAddr, 0, offset⟩

/-- The entry a `reinterpret_cast` leaves: entries of real objects stay. -/
def reinterpreted (referenceAddr : Word) : Entry → Entry :=
  fun e => if e.reference ≠ 0 ∧ e.offset ≠ -1 then e else ⟨referenceAddr, 0, -1⟩

/-- How addresses are turned into granules. -/
structure Addressing where
  granule : Word → ℕ
  element : Word → U32 → ℕ → ℕ

/-- The granule of an address as the runtime computes it. -/
def granule (addr : Word) : ℕ := addr.toNat / 8 % (L1_BITS * L2_BITS)

/-- The runtime's arithmetic: 32-bit products, 48 address bits. -/
def machineAddressing : Addressing where
  granule := granule
  element thisPtr typeSize i := granule (elementAddr thisPtr typeSize (BitVec.ofNat 32 i))

/-- Unbounded arithmetic. -/
def plainAddressing : Addressing where
  granule addr := addr.toNat / 8
  element thisPtr typeSize i := (thisPtr.toNat + typeSize.toNat * i) / 8

/-- The elements `__bitype_eraseObj` clears: for a heap block, the count in the
size slot of the object address, or one if that slot is zero. -/
def heapCount (e : Entry) : ℕ := if e.size ≠ 0 then e.size.toNat else 1

/-- Clear the references of elements `0, .., count - 1`. -/
def eraseElements (A : Addressing) (thisPtr : Word) (typeSize : U32) (count : ℕ)
    (m : GranuleMap) : GranuleMap :=
  (List.range count).foldl
    (fun m i => m.modify (A.element thisPtr typeSize i) fun e => { e with reference := 0 }) m

/-- What a call does to the abstract table; `none` is a loop that does not end. -/
def Op.abstractStep (A : Addressing) : Op → GranuleMap → Option GranuleMap
  | .updateArraySize thisPtr arraySize, m =>
      some (if thisPtr = 0 then m
        else m.record (A.granule thisPtr) fun e => { e with size := arraySize })
  | .directUpdateObjTrace thisPtr referenceAddr offset, m =>
      some (m.record (A.granule thisPtr) (traced referenceAddr offset))
  | .updateObjTrace thisPtr referenceAddr typeSize arraySize offset, m =>
      some ((List.range arraySize.toNat).foldl
        (fun m i => m.record (A.element thisPtr typeSize i) (traced referenceAddr offset)) m)
  | .handleReinterpretCast thisPtr referenceAddr _, m =>
      some (m.record (A.granule thisPtr) (reinterpreted referenceAddr))
  | .directEraseObj thisPtr, m => some (m.modify (A.granule thisPtr) fun _ => Entry.zero)
  | .eraseObj thisPtr objAddr typeSize arraySize allocType, m =>
      if allocType = .heapAlloc ∨ allocType = .realloc then
        match m (A.granule objAddr) with
        | none => some m
        | some e => some (eraseElements A thisPtr typeSize (heapCount e) m)
      else if arraySize.toNat < 2 ^ 32 then
        some (eraseElements A thisPtr typeSize arraySize.toNat m)
      else none
  | .directEraseArraySize thisPtr, m =>
      some (if thisPtr = 0 then m
        else m.modify (A.granule thisPtr) fun e => { e with size := 0, offset := 0 })

/-! ## Calls on which the two addressings agree -/

/-- An address in the 48-bit address space. -/
def Mapped (addr : ℕ) : Prop := addr < 2 ^ 48

instance (a : ℕ) : Decidable (Mapped a) := inferInstanceAs (Decidable (a < 2 ^ 48))

/-- Elements `0, .., count - 1` lie in the 48-bit address space, and no product
`TypeSize * i` leaves 32 bits. -/
def ElementsInRange (thisPtr : Word) (typeSize : U32) (count : ℕ) : Prop :=
  ∀ i < count, typeSize.toNat * i < 2 ^ 32 ∧ Mapped (thisPtr.toNat + typeSize.toNat * i)

/-- The calls the refinement speaks of.  The count of a heap erase is the one
the table holds when the call is made. -/
def Op.InRange (m : GranuleMap) : Op → Prop
  | .updateArraySize thisPtr _ | .directUpdateObjTrace thisPtr _ _
  | .handleReinterpretCast thisPtr _ _ | .directEraseObj thisPtr
  | .directEraseArraySize thisPtr => Mapped thisPtr.toNat
  | .updateObjTrace thisPtr _ typeSize arraySize _ =>
      ElementsInRange thisPtr typeSize arraySize.toNat
  | .eraseObj thisPtr objAddr typeSize arraySize allocType =>
      if allocType = .heapAlloc ∨ allocType = .realloc then
        Mapped objAddr.toNat ∧
          ∀ e, m (objAddr.toNat / 8) = some e → ElementsInRange thisPtr typeSize (heapCount e)
      else arraySize.toNat < 2 ^ 32 ∧ ElementsInRange thisPtr typeSize arraySize.toNat

theorem granule_lt (addr : Word) : granule addr < L1_BITS * L2_BITS :=
  Nat.mod_lt _ (by decide)

/-- Below `2^48` no address bit is dropped. -/
theorem granule_of_mapped {addr : Word} (h : Mapped addr.toNat) :
    granule addr = addr.toNat / 8 := by
  apply Nat.mod_eq_of_lt
  rw [Mapped] at h
  rw [L1_BITS, L2_BITS]
  omega

/-- In range, the machine computes the address of element `i` exactly. -/
theorem toNat_elementAddr {thisPtr : Word} {typeSize : U32} {i : ℕ} (hi : i < 2 ^ 32)
    (hproduct : typeSize.toNat * i < 2 ^ 32)
    (haddr : Mapped (thisPtr.toNat + typeSize.toNat * i)) :
    (elementAddr thisPtr typeSize (BitVec.ofNat 32 i)).toNat =
      thisPtr.toNat + typeSize.toNat * i := by
  have hmul : (typeSize * BitVec.ofNat 32 i).toNat = typeSize.toNat * i := by
    rw [BitVec.toNat_mul, BitVec.toNat_ofNat, Nat.mod_eq_of_lt hi, Nat.mod_eq_of_lt hproduct]
  rw [Mapped] at haddr
  rw [elementAddr, BitVec.toNat_add, BitVec.toNat_setWidth, hmul,
    Nat.mod_eq_of_lt (hproduct.trans (by decide))]
  exact Nat.mod_eq_of_lt (haddr.trans (by decide))

theorem element_eq {thisPtr : Word} {typeSize : U32} {count : ℕ} (hcount : count ≤ 2 ^ 32)
    (h : ElementsInRange thisPtr typeSize count) {i : ℕ} (hi : i < count) :
    machineAddressing.element thisPtr typeSize i = plainAddressing.element thisPtr typeSize i := by
  obtain ⟨hproduct, haddr⟩ := h i hi
  have htoNat := toNat_elementAddr (hi.trans_le hcount) hproduct haddr
  show granule _ = (thisPtr.toNat + typeSize.toNat * i) / 8
  rw [granule_of_mapped (by rw [htoNat]; exact haddr), htoNat]

theorem heapCount_pos (e : Entry) : 0 < heapCount e := by
  unfold heapCount
  split
  · next hsize => exact Nat.pos_of_ne_zero fun hzero => hsize (BitVec.eq_of_toNat_eq hzero)
  · decide

theorem heapCount_lt (e : Entry) : heapCount e < 2 ^ 32 := by
  unfold heapCount
  split
  · exact e.size.isLt
  · decide

theorem eraseElements_eq {thisPtr : Word} {typeSize : U32} {count : ℕ} (hcount : count ≤ 2 ^ 32)
    (h : ElementsInRange thisPtr typeSize count) (m : GranuleMap) :
    eraseElements machineAddressing thisPtr typeSize count m =
      eraseElements plainAddressing thisPtr typeSize count m := by
  apply List.foldl_ext
  intro m i hi
  rw [element_eq hcount h (List.mem_range.mp hi)]

/-- **On calls in range the runtime's arithmetic is exact.** -/
theorem Op.abstractStep_machine {op : Op} {m : GranuleMap} (h : op.InRange m) :
    op.abstractStep machineAddressing m = op.abstractStep plainAddressing m := by
  -- a mapped address is not cut by the index masks
  have hgranule : ∀ addr : Word, Mapped addr.toNat →
      machineAddressing.granule addr = plainAddressing.granule addr :=
    fun _ => granule_of_mapped
  cases op with
  | updateArraySize thisPtr arraySize => simp only [abstractStep, hgranule thisPtr h]
  | directUpdateObjTrace thisPtr referenceAddr offset =>
      simp only [abstractStep, hgranule thisPtr h]
  | handleReinterpretCast thisPtr referenceAddr offset =>
      simp only [abstractStep, hgranule thisPtr h]
  | directEraseObj thisPtr => simp only [abstractStep, hgranule thisPtr h]
  | directEraseArraySize thisPtr => simp only [abstractStep, hgranule thisPtr h]
  | updateObjTrace thisPtr referenceAddr typeSize arraySize offset =>
      refine congrArg some (List.foldl_ext _ _ _ fun m i hi => ?_)
      rw [element_eq arraySize.isLt.le h (List.mem_range.mp hi)]
  | eraseObj thisPtr objAddr typeSize arraySize allocType =>
      simp only [InRange] at h
      simp only [abstractStep]
      split at h
      · next hheap =>
          obtain ⟨hobj, hcount⟩ := h
          rw [if_pos hheap, if_pos hheap, hgranule objAddr hobj]
          cases hentry : m (plainAddressing.granule objAddr) with
          | none => rfl
          | some e => exact congrArg some (eraseElements_eq (heapCount_lt e).le (hcount e hentry) m)
      · next hheap =>
          rw [if_neg hheap, if_neg hheap, eraseElements_eq h.1.le h.2]

/-! ## Small facts -/

theorem modify_same (m : GranuleMap) (g : ℕ) (f : Entry → Entry) :
    m.modify g f g = (m g).map f := Function.update_self ..

theorem modify_of_ne (m : GranuleMap) {g h : ℕ} (f : Entry → Entry) (hne : h ≠ g) :
    m.modify g f h = m h := Function.update_of_ne hne ..

/-- Two changes of one entry are one. -/
theorem modify_modify (m : GranuleMap) (g : ℕ) (f f' : Entry → Entry) :
    (m.modify g f).modify g f' = m.modify g (f' ∘ f) := by
  unfold GranuleMap.modify
  rw [Function.update_self, Function.update_idem, Option.map_map]

theorem modify_id (m : GranuleMap) (g : ℕ) : m.modify g id = m := by
  unfold GranuleMap.modify
  rw [Option.map_id, id, Function.update_eq_self]

/-- A recorded granule has an entry. -/
theorem cover_same (m : GranuleMap) (g : ℕ) :
    m.cover (g / L2_BITS) g = some ((m g).getD Entry.zero) := if_pos rfl

theorem record_same (m : GranuleMap) (g : ℕ) (f : Entry → Entry) :
    m.record g f g = some (f ((m g).getD Entry.zero)) := by
  rw [GranuleMap.record, modify_same, cover_same, Option.map_some]

/-- The other granules of the region keep their entries, or get zeroed ones. -/
theorem record_of_ne (m : GranuleMap) {g h : ℕ} (f : Entry → Entry) (hne : h ≠ g) :
    m.record g f h = m.cover (g / L2_BITS) h := modify_of_ne _ f hne

end Bitype.Runtime
