import Bitype.Pass.Heap

/-!
# The life cycle of heap blocks

A heap is the shadow table and the list of the blocks that are live.  Blocks are what an
allocator gives out: 8-aligned, apart from each other, and at least one byte long.  A free
carries the type of its allocation, since it is of the same block.

`HeapInvariant` holds along every run: only granules of live blocks hold references, and
the size slot of a live block holds its number of objects.  So a free finds the number
again, unless the block has no object at all: the size slot then reads zero, which
`__bitype_eraseObj` takes for one.  `freesExactly_iff` says when that does harm.
-/

namespace Bitype.Pass

open Bitype.Foundations Bitype.Runtime
open Bitype.Tool (Name)

/-! ## Blocks -/

namespace Block

/-- Where a block ends; an allocator gives out at least one byte. -/
def stop (b : Block) : ℕ := b.addr.toNat + max 1 b.size.toNat

/-- A block of a 48-bit address space, and a type whose size is an `unsigned long`. -/
structure Usable (M : Module) (b : Block) : Prop where
  aligned : b.addr.toNat % 8 = 0
  nonnull : b.addr ≠ 0
  fits : b.stop ≤ 2 ^ 48
  typeSize : M.getTypeAllocSize b.type < 2 ^ 64

/-- Two blocks share no byte. -/
def Apart (b c : Block) : Prop := b.stop ≤ c.addr.toNat ∨ c.stop ≤ b.addr.toNat

/-- A byte of the block lies in the granule. -/
def Covers (b : Block) (g : ℕ) : Prop :=
  ∃ a, b.addr.toNat ≤ a ∧ a < b.addr.toNat + b.size.toNat ∧ a / 8 = g

/-- The number of objects `__bitype_eraseObj` takes a block to have. -/
def erasedCount (M : Module) (b : Block) : ℕ :=
  if b.count M ≠ 0 then (b.count M).toNat else 1

theorem Apart.symm {b c : Block} (h : b.Apart c) : c.Apart b := Or.symm h

instance : Std.Symm Block.Apart := ⟨fun _ _ => Apart.symm⟩

end Block

section Geometry

variable {M : Module} {files : ClassFiles} {b c : Block}

theorem granule_base (hb : b.Usable M) : granule b.addr = b.addr.toNat / 8 := by
  have hfits := hb.fits
  apply granule_of_mapped
  show b.addr.toNat < 2 ^ 48
  unfold Block.stop at hfits
  omega

/-- Blocks that are apart have no granule in common. -/
theorem Block.Apart.covers {g : ℕ} (h : b.Apart c) (hb : b.Usable M) (hc : c.Usable M)
    (hcovers : b.Covers g) : ¬ c.Covers g := by
  obtain ⟨a, hle, hlt, rfl⟩ := hcovers
  rintro ⟨a', hle', hlt', hsame⟩
  have halignedB := hb.aligned
  have halignedC := hc.aligned
  rcases h with h | h
  · unfold Block.stop at h
    omega
  · unfold Block.stop at h
    omega

/-- The first granule of a block is in no block apart from it. -/
theorem Block.Apart.not_covers_base (h : b.Apart c) (hb : b.Usable M) (hc : c.Usable M) :
    ¬ b.Covers (granule c.addr) := by
  rw [granule_base hc]
  rintro ⟨a, hle, hlt, hsame⟩
  have halignedB := hb.aligned
  have halignedC := hc.aligned
  rcases h with h | h
  · unfold Block.stop at h
    omega
  · unfold Block.stop at h
    omega

theorem Block.Apart.base_ne (h : b.Apart c) (hb : b.Usable M) (hc : c.Usable M) :
    granule b.addr ≠ granule c.addr := by
  rw [granule_base hb, granule_base hc]
  have halignedB := hb.aligned
  have halignedC := hc.aligned
  rcases h with h | h
  · unfold Block.stop at h
    omega
  · unfold Block.stop at h
    omega

theorem toNat_arraySizeF (hsize : M.getTypeAllocSize b.type < 2 ^ 64) :
    (arraySizeF M b).toNat =
      if M.getTypeAllocSize b.type ≠ 0 then b.size.toNat / M.getTypeAllocSize b.type
      else b.size.toNat := by
  have hval : (BitVec.ofNat 64 (M.getTypeAllocSize b.type)).toNat = M.getTypeAllocSize b.type := by
    rw [BitVec.toNat_ofNat, Nat.mod_eq_of_lt hsize]
  have hzero : BitVec.ofNat 64 (M.getTypeAllocSize b.type) ≠ 0 ↔
      M.getTypeAllocSize b.type ≠ 0 := by
    rw [ne_eq, BitVec.toNat_eq, hval]
    rfl
  unfold arraySizeF
  simp only [hzero]
  split
  · rw [BitVec.toNat_udiv, hval]
  · rfl

/-- The 32-bit product of the runtime. -/
theorem toNat_product (typeSize i : ℕ) :
    (BitVec.ofNat 32 (uint32 typeSize) * BitVec.ofNat 32 i).toNat = typeSize * i % 2 ^ 32 := by
  rw [BitVec.toNat_mul, BitVec.toNat_ofNat, BitVec.toNat_ofNat, uint32, Nat.mod_mod, ← Nat.mul_mod]

/-- Where the runtime puts granule `k` of object `i`, below the end of the address space. -/
theorem toNat_objectAddr {objAddr : Word} {typeSize k i : ℕ}
    (hfits : objAddr.toNat + 8 * k + typeSize * i % 2 ^ 32 < 2 ^ 64) :
    (elementAddr (objAddr + BitVec.ofNat 64 (8 * k)) (BitVec.ofNat 32 (uint32 typeSize))
        (BitVec.ofNat 32 i)).toNat = objAddr.toNat + 8 * k + typeSize * i % 2 ^ 32 := by
  rw [elementAddr, BitVec.toNat_add, BitVec.toNat_add, BitVec.toNat_ofNat, BitVec.toNat_setWidth,
    toNat_product]
  omega

/-- The last byte of an object lies in the block. -/
theorem object_fits (hb : b.Usable M) (hpos : 0 < M.getTypeAllocSize b.type) {i : ℕ}
    (hi : i < (arraySizeF M b).toNat) :
    M.getTypeAllocSize b.type * i + M.getTypeAllocSize b.type ≤ b.size.toNat := by
  rw [toNat_arraySizeF hb.typeSize, if_pos hpos.ne'] at hi
  calc M.getTypeAllocSize b.type * i + M.getTypeAllocSize b.type
      = M.getTypeAllocSize b.type * (i + 1) := (Nat.mul_succ _ _).symm
    _ ≤ M.getTypeAllocSize b.type * (b.size.toNat / M.getTypeAllocSize b.type) :=
        Nat.mul_le_mul_left _ hi
    _ ≤ b.size.toNat := Nat.mul_div_le _ _

/-- Where the runtime puts granule `k` of object `i`. -/
theorem element_entryAddr (hb : b.Usable M) {k i : ℕ} (hk : 8 * k < M.getTypeAllocSize b.type)
    (hi : i < (arraySizeF M b).toNat) :
    machineAddressing.element (b.entryAddr k) (b.typeSize M) i =
      (b.addr.toNat + 8 * k + M.getTypeAllocSize b.type * i % 2 ^ 32) / 8 := by
  have hend := object_fits hb (by omega) hi
  have hfits := hb.fits
  unfold Block.stop at hfits
  have hless : M.getTypeAllocSize b.type * i % 2 ^ 32 ≤ M.getTypeAllocSize b.type * i :=
    Nat.mod_le _ _
  have haddr : (elementAddr (b.entryAddr k) (b.typeSize M) (BitVec.ofNat 32 i)).toNat =
      b.addr.toNat + 8 * k + M.getTypeAllocSize b.type * i % 2 ^ 32 :=
    toNat_objectAddr (by omega)
  have hmapped : Mapped (elementAddr (b.entryAddr k) (b.typeSize M) (BitVec.ofNat 32 i)).toNat := by
    show (elementAddr _ _ _).toNat < 2 ^ 48
    rw [haddr]
    omega
  show granule (elementAddr (b.entryAddr k) (b.typeSize M) (BitVec.ofNat 32 i)) = _
  rw [granule_of_mapped hmapped, haddr]

/-- The first objects of a block lie inside it. -/
theorem covers_of_reaches (hM : M.Fitting) (hb : b.Usable M) {count g : ℕ}
    (hcount : count ≤ (arraySizeF M b).toNat) (h : b.Reaches M files count g) : b.Covers g := by
  obtain ⟨e, he, i, hi, rfl⟩ := h
  have hinside : 8 * e.1 < M.getTypeAllocSize b.type :=
    TypeTable.elementsOf_lt hM (Std.TreeMap.mem_toList_iff_getElem?_eq_some.mp he)
  have hend := object_fits hb (by omega) (hi.trans_le hcount)
  have hless : M.getTypeAllocSize b.type * i % 2 ^ 32 ≤ M.getTypeAllocSize b.type * i :=
    Nat.mod_le _ _
  rw [element_entryAddr hb hinside (hi.trans_le hcount)]
  exact ⟨_, by omega, by omega, rfl⟩

theorem count_le (M : Module) (b : Block) : (b.count M).toNat ≤ (arraySizeF M b).toNat := by
  rw [Block.count, BitVec.toNat_setWidth]
  exact Nat.mod_le _ _

/-- What has been traced is erased. -/
theorem erased_of_traced {g : ℕ} (h : b.Traced M files g) :
    b.Reaches M files (b.erasedCount M) g := by
  obtain ⟨e, he, i, hi, hsame⟩ := h
  have hpos : b.count M ≠ 0 := fun hzero => by
    rw [hzero] at hi
    exact absurd hi (Nat.not_lt_zero i)
  exact ⟨e, he, i, by rwa [Block.erasedCount, if_pos hpos], hsame⟩

theorem covers_of_traced (hM : M.Fitting) (hb : b.Usable M) {g : ℕ} (h : b.Traced M files g) :
    b.Covers g := covers_of_reaches hM hb (count_le M b) h

end Geometry

/-! ## Runs -/

/-- The shadow table, and the blocks that are live. -/
structure Heap where
  shadow : Shadow
  live : List Block

section Runs

variable (mmap : ℕ → ℕ) (rodata : Word → Byte) (M : Module) (files : ClassFiles)
  (inlineOpt : Bool) (place : Name → Word)

/-- An allocation that yields a block apart from all live ones, or the free of a live
block. -/
inductive HeapStep : Heap → Heap → Prop
  | alloc {h : Heap} {s' : Shadow} (isConstant : Bool) (b : Block) :
      b.Usable M → (∀ c ∈ h.live, b.Apart c) →
      (program mmap rodata).run (handleHeapAlloc M files inlineOpt place false isConstant b)
        h.shadow = some s' →
      HeapStep h ⟨s', b :: h.live⟩
  | free {h : Heap} {s' : Shadow} {before after : List Block} (b : Block) :
      h.live = before ++ b :: after →
      (program mmap rodata).run (handleFree M files inlineOpt b) h.shadow = some s' →
      HeapStep h ⟨s', before ++ after⟩

/-- The heaps that runs reach, from whatever memory the process starts with. -/
def HeapReachable (h : Heap) : Prop :=
  ∃ mem, Relation.ReflTransGen (HeapStep mmap rodata M files inlineOpt place)
    ⟨bitypeInitialization mmap mem, []⟩ h

/-- What holds along every run. -/
structure HeapInvariant (h : Heap) : Prop where
  layout : Layout mmap h.shadow
  usable : ∀ b ∈ h.live, b.Usable M
  apart : h.live.Pairwise Block.Apart
  held : ∀ g, (h.shadow.view.content g).reference ≠ 0 → ∃ b ∈ h.live, b.Traced M files g
  noted : ∀ b ∈ h.live, (M.elementsOf files b.type).isEmpty = false →
    (h.shadow.view (granule b.addr)).isSome ∧
      (h.shadow.view.content (granule b.addr)).size = b.count M

end Runs

section Invariant

variable {mmap : ℕ → ℕ} {rodata : Word → Byte} {M : Module} {files : ClassFiles}
  {inlineOpt : Bool} {place : Name → Word} {h : Heap} {b : Block}

theorem not_reaches_of_isEmpty (hempty : (M.elementsOf files b.type).isEmpty = true)
    (count g : ℕ) : ¬ b.Reaches M files count g := by
  rintro ⟨e, he, -⟩
  rw [isEmpty_iff_toList.mp hempty] at he
  cases he

/-- What the free of a live block does. -/
theorem handleFree_of_live (rodata : Word → Byte) (inlineOpt : Bool) (fresh : FreshMmap mmap)
    (inv : HeapInvariant mmap M files h) (hb : b ∈ h.live) :
    ∃ s', (program mmap rodata).run (handleFree M files inlineOpt b) h.shadow = some s' ∧
      Layout mmap s' ∧ (∀ g, (s'.view g).isSome = (h.shadow.view g).isSome) ∧
      (∀ g, (s'.view.content g).reference =
        if b.Reaches M files (b.erasedCount M) g then 0
        else (h.shadow.view.content g).reference) ∧
      ∀ g, g ≠ granule b.addr → (s'.view.content g).size = (h.shadow.view.content g).size := by
  cases hempty : (M.elementsOf files b.type).isEmpty with
  | true =>
      have hnone : handleFree M files inlineOpt b = [] := by
        rw [handleFree, insertRemove, if_pos hempty]
      refine ⟨h.shadow, by rw [hnone]; rfl, inv.layout, fun _ => rfl, fun g => ?_, fun _ _ => rfl⟩
      rw [if_neg (not_reaches_of_isEmpty hempty _ g)]
  | false =>
      obtain ⟨hsome, hsize⟩ := inv.noted b hb hempty
      have hcount : heapCount (h.shadow.view.content (granule b.addr)) = b.erasedCount M := by
        rw [heapCount, Block.erasedCount, hsize]
      obtain ⟨s', hrun, hlayout, hsome', hreference, hsize'⟩ := handleFree_spec rodata inlineOpt
        fresh (inv.usable b hb).nonnull hempty inv.layout hsome
      rw [hcount] at hreference
      exact ⟨s', hrun, hlayout, hsome', hreference, hsize'⟩

theorem heapInvariant_init (mem : ℕ → Word) :
    HeapInvariant mmap M files ⟨bitypeInitialization mmap mem, []⟩ where
  layout := layout_init mem
  usable b hb := absurd hb List.not_mem_nil
  apart := List.Pairwise.nil
  held g hg := by
    have hempty : (bitypeInitialization mmap mem).view g = none := congrFun (view_init mem) g
    rw [GranuleMap.content, hempty] at hg
    exact absurd rfl hg
  noted b hb := absurd hb List.not_mem_nil

/-- An allocation keeps the invariant. -/
theorem HeapInvariant.alloc (fresh : FreshMmap mmap) (hM : M.Fitting)
    (inv : HeapInvariant mmap M files h) {isConstant : Bool} (hb : b.Usable M)
    (hapart : ∀ c ∈ h.live, b.Apart c) {s' : Shadow}
    (hrun : (program mmap rodata).run
      (handleHeapAlloc M files inlineOpt place false isConstant b) h.shadow = some s') :
    HeapInvariant mmap M files ⟨s', b :: h.live⟩ := by
  have husable : ∀ c ∈ b :: h.live, c.Usable M :=
    List.forall_mem_cons.mpr ⟨hb, inv.usable⟩
  have hpairwise : (b :: h.live).Pairwise Block.Apart :=
    List.pairwise_cons.mpr ⟨hapart, inv.apart⟩
  cases hempty : (M.elementsOf files b.type).isEmpty with
  | true =>
      -- nothing is emitted for a type without cast-related classes
      have hnone : handleHeapAlloc M files inlineOpt place false isConstant b = [] := by
        simp only [handleHeapAlloc, hempty, if_true]
      rw [hnone] at hrun
      obtain rfl := Option.some.inj hrun
      refine ⟨inv.layout, husable, hpairwise, fun g hg => ?_, fun c hc hne => ?_⟩
      · obtain ⟨c, hc, htraced⟩ := inv.held g hg
        exact ⟨c, List.mem_cons_of_mem _ hc, htraced⟩
      · rcases List.mem_cons.mp hc with rfl | hc
        · rw [hempty] at hne
          cases hne
        · exact inv.noted c hc hne
  | false =>
      obtain ⟨s₁, hrun₁, hlayout, hrecords⟩ := handleHeapAlloc_spec rodata files inlineOpt place
        fresh hb.nonnull hempty false isConstant inv.layout
      obtain rfl := Option.some.inj (hrun.symm.trans hrun₁)
      have htraced : ∀ g r, blockWrites M files place b g r → b.Traced M files g :=
        fun g r ⟨e, he, hwrites⟩ => ⟨e, he, hwrites.2⟩
      refine ⟨hlayout, husable, hpairwise, fun g hg => ?_, fun c hc hne => ?_⟩
      · rcases hrecords.table g with hwritten | ⟨-, hsame⟩
        · exact ⟨b, List.mem_cons_self, htraced g _ hwritten⟩
        · have hbefore : (h.shadow.view.content g).reference ≠ 0 :=
            fun hzero => hg ((congrArg Prod.fst hsame).trans hzero)
          obtain ⟨c, hc, hold⟩ := inv.held g hbefore
          exact ⟨c, List.mem_cons_of_mem _ hc, hold⟩
      · rcases List.mem_cons.mp hc with rfl | hc
        · exact ⟨hrecords.isSome, hrecords.size⟩
        · -- the sequence does not come near the first granule of another block
          have hother := hapart c hc
          have hc' := inv.usable c hc
          obtain ⟨hsome, hsize⟩ := inv.noted c hc hne
          have hframe : s'.view.content (granule c.addr) = h.shadow.view.content (granule c.addr) :=
            hrecords.frame _
              (fun r hr => hother.not_covers_base hb hc' (covers_of_traced hM hb (htraced _ r hr)))
              (hother.base_ne hb hc').symm
          exact ⟨hrecords.keeps _ hsome, by rw [hframe, hsize]⟩

/-- A free keeps the invariant. -/
theorem HeapInvariant.free (fresh : FreshMmap mmap) (inv : HeapInvariant mmap M files h)
    {before after : List Block} (hlive : h.live = before ++ b :: after) {s' : Shadow}
    (hrun : (program mmap rodata).run (handleFree M files inlineOpt b) h.shadow = some s') :
    HeapInvariant mmap M files ⟨s', before ++ after⟩ := by
  have hb : b ∈ h.live := by simp [hlive]
  have hsub : ∀ c ∈ before ++ after, c ∈ h.live := by
    intro c hc
    rw [hlive]
    rcases List.mem_append.mp hc with hc | hc
    · exact List.mem_append_left _ hc
    · exact List.mem_append_right _ (List.mem_cons_of_mem _ hc)
  have hpairwise : (b :: (before ++ after)).Pairwise Block.Apart := by
    have hperm : (b :: (before ++ after)).Perm h.live := by
      rw [hlive]
      exact List.perm_middle.symm
    exact (hperm.pairwise_iff fun {_ _} => Block.Apart.symm).mpr inv.apart
  obtain ⟨hapart, hrest⟩ := List.pairwise_cons.mp hpairwise
  obtain ⟨s₁, hrun₁, hlayout, hsome, hreference, hsize⟩ :=
    handleFree_of_live rodata inlineOpt fresh inv hb
  obtain rfl := Option.some.inj (hrun.symm.trans hrun₁)
  refine ⟨hlayout, fun c hc => inv.usable c (hsub c hc), hrest, fun g hg => ?_, fun c hc hne => ?_⟩
  · -- a reference that is left belongs to a block that is still live
    rw [hreference] at hg
    split at hg
    · exact absurd rfl hg
    · next hspared =>
        obtain ⟨c, hc, htraced⟩ := inv.held g hg
        have hc' : c = b ∨ c ∈ before ++ after := by
          rw [hlive] at hc
          simpa [or_left_comm] using hc
        rcases hc' with rfl | hc'
        · exact absurd (erased_of_traced htraced) hspared
        · exact ⟨c, hc', htraced⟩
  · obtain ⟨hsome', hsize'⟩ := inv.noted c (hsub c hc) hne
    have hother := (hapart c hc).base_ne (inv.usable b hb) (inv.usable c (hsub c hc))
    exact ⟨by rw [hsome]; exact hsome', by rw [hsize _ hother.symm]; exact hsize'⟩

/-- **The invariant holds along every run.** -/
theorem HeapReachable.invariant (fresh : FreshMmap mmap) (hM : M.Fitting)
    (hreach : HeapReachable mmap rodata M files inlineOpt place h) :
    HeapInvariant mmap M files h := by
  obtain ⟨mem, hsteps⟩ := hreach
  induction hsteps with
  | refl => exact heapInvariant_init mem
  | tail _ hstep ih =>
      cases hstep with
      | alloc isConstant b hb hapart hrun => exact ih.alloc fresh hM hb hapart hrun
      | free b hlive hrun => exact ih.free fresh hlive hrun

end Invariant

/-! ## What a free clears -/

/-- From `s` to `s'` the references in a block are cleared, and no others change. -/
structure FreesExactly (b : Block) (s s' : Shadow) : Prop where
  inside : ∀ g, b.Covers g → (s'.view.content g).reference = 0
  outside : ∀ g, ¬ b.Covers g → (s'.view.content g).reference = (s.view.content g).reference

/-- If the block has no object, no granule outside it that a first object would have used
holds a reference. -/
def SparesNeighbours (M : Module) (files : ClassFiles) (b : Block) (s : Shadow) : Prop :=
  arraySizeF M b = 0 → ∀ e ∈ (M.elementsOf files b.type).toList,
    ¬ b.Covers (granule (b.entryAddr e.1)) →
      (s.view.content (granule (b.entryAddr e.1))).reference = 0

section LifeCycle

variable {mmap : ℕ → ℕ} {rodata : Word → Byte} {M : Module} {files : ClassFiles}
  {inlineOpt : Bool} {place : Name → Word} {h : Heap} {b : Block}

/-- The granules of a single object. -/
theorem reaches_one {g : ℕ} : b.Reaches M files 1 g ↔
    ∃ e ∈ (M.elementsOf files b.type).toList, granule (b.entryAddr e.1) = g := by
  refine exists_congr fun e => and_congr_right fun _ => ?_
  unfold Block.Writes ElementGranule
  constructor
  · rintro ⟨i, hi, hsame⟩
    obtain rfl : i = 0 := by omega
    rwa [element_zero] at hsame
  · exact fun hsame => ⟨0, Nat.zero_lt_one, by rwa [element_zero]⟩

/-- In a live block only what has been traced holds references. -/
theorem HeapInvariant.traced_of_covers (inv : HeapInvariant mmap M files h) (hM : M.Fitting)
    (hb : b ∈ h.live) {g : ℕ} (hcovers : b.Covers g)
    (hheld : (h.shadow.view.content g).reference ≠ 0) : b.Traced M files g := by
  obtain ⟨c, hc, htraced⟩ := inv.held g hheld
  by_cases hsame : b = c
  · exact hsame ▸ htraced
  · have hapart : b.Apart c := inv.apart.forall hb hc hsame
    exact absurd (covers_of_traced hM (inv.usable c hc) htraced)
      (hapart.covers (inv.usable b hb) (inv.usable c hc) hcovers)

/-- **When a free clears just the references of its block.**  In every run of allocations
and frees, the sequence for the free of a live block returns; it clears all references in
the block and no other if and only if the block has an object, or no granule that a first
object would have used holds a reference outside the block. -/
theorem freesExactly_iff (fresh : FreshMmap mmap) (hM : M.Fitting)
    (hreach : HeapReachable mmap rodata M files inlineOpt place h) (hb : b ∈ h.live) :
    ∃ s', (program mmap rodata).run (handleFree M files inlineOpt b) h.shadow = some s' ∧
      (FreesExactly b h.shadow s' ↔ SparesNeighbours M files b h.shadow) := by
  have inv := hreach.invariant fresh hM
  have husable := inv.usable b hb
  obtain ⟨s', hrun, -, -, hreference, -⟩ := handleFree_of_live rodata inlineOpt fresh inv hb
  refine ⟨s', hrun, fun hexact hzero e he hcovers => ?_, fun hspares => ⟨fun g hg => ?_, fun g hg => ?_⟩⟩
  · -- without objects, the first one is erased
    have hcount : b.erasedCount M = 1 := by
      rw [Block.erasedCount, Block.count, hzero]
      rfl
    have hkept := hexact.outside _ hcovers
    rw [hreference, hcount, if_pos (reaches_one.mpr ⟨e, he, rfl⟩)] at hkept
    exact hkept.symm
  · -- inside, what the loops spare held nothing
    rw [hreference]
    split
    · rfl
    · next hspared =>
        by_contra hheld
        exact hspared (erased_of_traced (inv.traced_of_covers hM hb hg hheld))
  · -- outside, the loops reach only where a block without objects has its first one erased
    rw [hreference]
    split
    · next herased =>
        by_cases hcount : b.count M = 0
        · rw [Block.erasedCount, if_neg (not_not.mpr hcount)] at herased
          by_cases hzero : arraySizeF M b = 0
          · obtain ⟨e, he, rfl⟩ := reaches_one.mp herased
            exact (hspares hzero e he hg).symm
          · have hpos : 1 ≤ (arraySizeF M b).toNat := by
              rw [Nat.one_le_iff_ne_zero]
              exact fun h => hzero (BitVec.eq_of_toNat_eq h)
            exact absurd (covers_of_reaches hM husable hpos herased) hg
        · rw [Block.erasedCount, if_pos hcount] at herased
          exact absurd (covers_of_traced hM husable herased) hg
    · rfl

end LifeCycle

/-! ## A block without objects -/

theorem wideModule_nodup : ([1, 2] : List ℕ).Nodup := by decide

/-- Class `D` of forty bytes, with its base `B` at offset 32. -/
def wideModule : Module where
  struct a :=
    if a = 1 then ⟨some "trackedtype.D".toList, false, false, [(0, .other 32), (32, .struct 2)], 40⟩
    else ⟨some "trackedtype.B".toList, false, false, [(0, .other 8)], 8⟩
  depth a := if a = 1 then 1 else 0
  contained := contained_of_cases 2 (by decide) fun a ha => by
    simp [show a ≠ 1 from ne_of_listed (by decide) ha]
  identified := [1, 2]
  nodup := wideModule_nodup

theorem wideModule_fitting : wideModule.Fitting := by
  have hstruct : ∀ a, wideModule.struct a = wideModule.struct 1 ∨
      wideModule.struct a = wideModule.struct 2 := by
    intro a
    by_cases ha : a = 1
    · exact .inl (ha ▸ rfl)
    · exact .inr ((if_neg ha).trans rfl)
  refine ⟨fun a e he => ?_, fun a _ => ?_⟩
  · rcases hstruct a with ha | ha
    · rw [ha] at he ⊢
      have hmem : e ∈ [(0, IRType.other 32), (32, .struct 2)] := he
      simp only [List.mem_cons, List.not_mem_nil, or_false] at hmem
      rcases hmem with rfl | rfl
      · decide
      · decide
    · rw [ha] at he ⊢
      obtain rfl := List.mem_singleton.mp he
      decide
  · rcases hstruct a with ha | ha
    · rw [ha]
      decide
    · rw [ha]
      decide

/-- `D` and `B` are cast-related. -/
def wideFiles : ClassFiles := initReadFiles ⟨[], [(['D'], 1), (['B'], 1)], []⟩

theorem wideModule_elements :
    (wideModule.elementsOf wideFiles (.struct 1)).toList = [(0, {1}), (4, {2})] := by
  decide +kernel

/-- An array of no objects. -/
def emptyBlock : Block := ⟨4096, 0, .struct 1⟩

/-- The block behind it. -/
def nextBlock : Block := ⟨4128, 40, .struct 1⟩

theorem emptyBlock_usable : emptyBlock.Usable wideModule := by
  refine ⟨by decide, by decide, ?_, by decide⟩
  show 4096 + max 1 0 ≤ 2 ^ 48
  decide

theorem nextBlock_usable : nextBlock.Usable wideModule := by
  refine ⟨by decide, by decide, ?_, by decide⟩
  show 4128 + max 1 40 ≤ 2 ^ 48
  decide

section Sample

variable {mmap : ℕ → ℕ} {rodata : Word → Byte} {inlineOpt : Bool} {place : Name → Word} {h : Heap}

/-- A run can go on with the allocation of a `D` array. -/
theorem HeapReachable.allocD (fresh : FreshMmap mmap) (hplace : ∀ name, place name ≠ 0)
    (hreach : HeapReachable mmap rodata wideModule wideFiles inlineOpt place h) {b : Block}
    (htype : b.type = .struct 1) (hb : b.Usable wideModule) (hapart : ∀ c ∈ h.live, b.Apart c) :
    ∃ s', HeapReachable mmap rodata wideModule wideFiles inlineOpt place ⟨s', b :: h.live⟩ ∧
      ∀ g, b.Traced wideModule wideFiles g → (s'.view.content g).reference ≠ 0 := by
  have hne : (wideModule.elementsOf wideFiles b.type).isEmpty = false := by
    rw [htype]
    decide +kernel
  have inv := hreach.invariant fresh wideModule_fitting
  obtain ⟨s', hrun, -, hrecords⟩ := handleHeapAlloc_spec rodata wideFiles inlineOpt place fresh
    hb.nonnull hne false false inv.layout
  obtain ⟨mem, hsteps⟩ := hreach
  exact ⟨s', ⟨mem, hsteps.tail (.alloc false b hb hapart hrun)⟩,
    fun g hg => hrecords.reference_ne hplace hg⟩

variable (rodata inlineOpt) in
/-- Both blocks are live, and the second one starts with a reference. -/
theorem exists_emptyBlock (fresh : FreshMmap mmap) (hplace : ∀ name, place name ≠ 0) :
    ∃ s, HeapReachable mmap rodata wideModule wideFiles inlineOpt place
        ⟨s, [nextBlock, emptyBlock]⟩ ∧ (s.view.content 516).reference ≠ 0 := by
  have hstart : HeapReachable mmap rodata wideModule wideFiles inlineOpt place
      ⟨bitypeInitialization mmap fun _ => 0, []⟩ := ⟨fun _ => 0, .refl⟩
  obtain ⟨s₁, hreach₁, -⟩ := hstart.allocD fresh hplace rfl emptyBlock_usable
    fun c hc => absurd hc List.not_mem_nil
  obtain ⟨s₂, hreach₂, hheld⟩ := hreach₁.allocD fresh hplace rfl nextBlock_usable
    fun c hc => by
      obtain rfl := List.mem_singleton.mp hc
      refine .inr ?_
      show 4096 + max 1 0 ≤ 4128
      decide
  refine ⟨s₂, hreach₂, hheld 516 ⟨(0, {1}), ?_, 0, by decide, by decide⟩⟩
  rw [show nextBlock.type = .struct 1 from rfl, wideModule_elements]
  exact List.mem_cons_self

end Sample

/-- The free of the array, whose first object would have reached the next block. -/
theorem freesExactly_iff_sample : ∃ s s' : Shadow,
    (program spacedMmap fun _ => 0).run (handleFree wideModule wideFiles true emptyBlock) s =
      some s' ∧
      (FreesExactly emptyBlock s s' ↔ SparesNeighbours wideModule wideFiles emptyBlock s) := by
  have hplace : ∀ _ : Name, (4096 : Word) ≠ 0 := fun _ => by decide
  obtain ⟨s, hreach, -⟩ := exists_emptyBlock (fun _ => 0) true spacedMmap_fresh hplace
  obtain ⟨s', hrun, hiff⟩ := freesExactly_iff spacedMmap_fresh wideModule_fitting hreach
    (List.mem_cons_of_mem _ List.mem_cons_self)
  exact ⟨s, s', hrun, hiff⟩

/-- The free of an array of no objects clears a reference of the block behind it. -/
theorem free_clears_neighbour :
    ¬ ∀ (mmap : ℕ → ℕ) (rodata : Word → Byte) (M : Module) (files : ClassFiles) (inlineOpt : Bool)
      (place : Name → Word) (h : Heap) (b : Block) (s' : Shadow), FreshMmap mmap → M.Fitting →
      (∀ name, place name ≠ 0) → HeapReachable mmap rodata M files inlineOpt place h →
      b ∈ h.live →
      (program mmap rodata).run (handleFree M files inlineOpt b) h.shadow = some s' →
      FreesExactly b h.shadow s' := by
  intro hall
  have hplace : ∀ _ : Name, (4096 : Word) ≠ 0 := fun _ => by decide
  obtain ⟨s, hreach, hheld⟩ := exists_emptyBlock (fun _ => 0) true spacedMmap_fresh hplace
  have hlive : emptyBlock ∈ [nextBlock, emptyBlock] := List.mem_cons_of_mem _ List.mem_cons_self
  have inv := hreach.invariant spacedMmap_fresh wideModule_fitting
  obtain ⟨s', hrun, -, -, hreference, -⟩ :=
    handleFree_of_live (fun _ => 0) true spacedMmap_fresh inv hlive
  have hexact := hall spacedMmap (fun _ => 0) wideModule wideFiles true (fun _ => 4096) _
    emptyBlock s' spacedMmap_fresh wideModule_fitting hplace hreach hlive hrun
  have houtside : ¬ emptyBlock.Covers 516 := by
    rintro ⟨a, hle, hlt, -⟩
    exact absurd (hle.trans_lt hlt) (lt_irrefl _)
  have hreached : emptyBlock.Reaches wideModule wideFiles (emptyBlock.erasedCount wideModule) 516 := by
    refine ⟨(4, {2}), ?_, 0, by decide, by decide⟩
    rw [show emptyBlock.type = .struct 1 from rfl, wideModule_elements]
    exact List.mem_cons_of_mem _ List.mem_cons_self
  have hkept := hexact.outside 516 houtside
  rw [hreference, if_pos hreached] at hkept
  exact hheld hkept.symm

end Bitype.Pass
