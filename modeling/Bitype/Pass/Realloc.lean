import Mathlib.Data.Finset.Max
import Bitype.Pass.HeapLifeCycle

/-!
# The trace of a realloc

For a `realloc` the pass emits the sequence of an allocation at the new address.  The old
address is handed down to `emitInstForObjTrace` and not used there, so the old block keeps
what it held.

The new block is traced as the runtime's arithmetic allows: the offset of an object is a
32-bit product.  `traced_iff_fits` says when every object gets its entries, and
`movesTrace_iff` sums up.
-/

namespace Bitype.Pass

open Bitype.Foundations Bitype.Runtime
open Bitype.Tool (Name)

namespace Block

variable (M : Module) (files : ClassFiles) (place : Name → Word) (b : Block)

/-- Granule `k` of object `i`. -/
def objectGranule (k i : ℕ) : ℕ := (b.addr.toNat + 8 * k + M.getTypeAllocSize b.type * i) / 8

/-- A granule holds the entry of an object that has a class there. -/
def HoldsEntry (m : GranuleMap) (g : ℕ) : Prop :=
  ∃ e ∈ (M.elementsOf files b.type).toList, (∃ i < (arraySizeF M b).toNat, b.objectGranule M e.1 i = g) ∧
    tableAt m g = (place (M.setName e.2), BitVec.ofNat 32 (8 * e.1))

/-- All objects start within the reach of a 32-bit product and counter. -/
def Fits32 : Prop :=
  (arraySizeF M b).toNat = 0 ∨ (arraySizeF M b).toNat < 2 ^ 32 ∧
    M.getTypeAllocSize b.type * ((arraySizeF M b).toNat - 1) < 2 ^ 32

end Block

/-- The new block holds the entries of its objects, and the old one holds nothing. -/
structure MovesTrace (M : Module) (files : ClassFiles) (place : Name → Word) (old new : Block)
    (m : GranuleMap) : Prop where
  new : ∀ e ∈ (M.elementsOf files new.type).toList, ∀ i < (arraySizeF M new).toNat,
    new.HoldsEntry M files place m (new.objectGranule M e.1 i)
  old : ∀ g, old.Covers g → (m.content g).reference = 0

section Positions

variable {M : Module} {files : ClassFiles} {b : Block}

/-- Objects in reach are traced where they are. -/
theorem fits_spec (hfits : b.Fits32 M) :
    (b.count M).toNat = (arraySizeF M b).toNat ∧
      ∀ i < (arraySizeF M b).toNat,
        M.getTypeAllocSize b.type * i % 2 ^ 32 = M.getTypeAllocSize b.type * i := by
  rw [Block.count, BitVec.toNat_setWidth]
  rcases hfits with hzero | ⟨hcount, hproduct⟩
  · rw [hzero]
    exact ⟨rfl, fun i hi => absurd hi (Nat.not_lt_zero i)⟩
  · refine ⟨Nat.mod_eq_of_lt hcount, fun i hi => Nat.mod_eq_of_lt ?_⟩
    calc M.getTypeAllocSize b.type * i
        ≤ M.getTypeAllocSize b.type * ((arraySizeF M b).toNat - 1) :=
          Nat.mul_le_mul_left _ (by omega)
      _ < 2 ^ 32 := hproduct

/-- If some object is out of reach, the last entry of the last object is not traced. -/
theorem exists_missed (hM : M.Fitting) (hb : b.Usable M)
    (hne : (M.elementsOf files b.type).toList ≠ []) (hfits : ¬ b.Fits32 M) :
    ∃ e ∈ (M.elementsOf files b.type).toList, ∃ i < (arraySizeF M b).toNat,
      ¬ b.Traced M files (b.objectGranule M e.1 i) := by
  have hinside : ∀ e ∈ (M.elementsOf files b.type).toList,
      8 * e.1 < M.getTypeAllocSize b.type := fun e he =>
    TypeTable.elementsOf_lt hM (Std.TreeMap.mem_toList_iff_getElem?_eq_some.mp he)
  obtain ⟨first, hfirst⟩ := List.exists_mem_of_ne_nil _ hne
  obtain ⟨last, hlast, hmax⟩ := Finset.exists_max_image (M.elementsOf files b.type).toList.toFinset
    Prod.fst ⟨first, List.mem_toFinset.mpr hfirst⟩
  rw [List.mem_toFinset] at hlast
  unfold Block.Fits32 at hfits
  rw [not_or, not_and_or, not_lt, not_lt] at hfits
  obtain ⟨hzero, hlarge⟩ := hfits
  have halignedB := hb.aligned
  refine ⟨last, hlast, (arraySizeF M b).toNat - 1, by omega, ?_⟩
  rintro ⟨e, he, i, hi, hsame⟩
  have hreached := (count_le M b).trans_lt' hi
  have hle := hmax e (List.mem_toFinset.mpr he)
  rw [element_entryAddr hb (hinside e he) hreached, Block.objectGranule] at hsame
  by_cases hproduct : 2 ^ 32 ≤ M.getTypeAllocSize b.type * ((arraySizeF M b).toNat - 1)
  · -- a product modulo 2^32 does not get that far
    have hmod : M.getTypeAllocSize b.type * i % 2 ^ 32 < 2 ^ 32 := Nat.mod_lt _ (by decide)
    omega
  · -- objects of one byte, and the counter is zero
    have hcount := hlarge.resolve_right hproduct
    have hone : M.getTypeAllocSize b.type = 1 := by
      by_contra hother
      have hbig : 2 * ((arraySizeF M b).toNat - 1) ≤
          M.getTypeAllocSize b.type * ((arraySizeF M b).toNat - 1) :=
        Nat.mul_le_mul_right _ (by have := hinside e he; omega)
      omega
    rw [Block.count, BitVec.toNat_setWidth] at hi
    rw [hone] at hproduct
    omega

end Positions

section Move

variable {mmap : ℕ → ℕ} {rodata : Word → Byte} {M : Module} {files : ClassFiles}
  {inlineOpt : Bool} {place : Name → Word} {s : Shadow} {old b : Block}

/-- A granule of an object lies in the block. -/
theorem objectGranule_covers (hM : M.Fitting) (hb : b.Usable M) {e : ℕ × Finset ℕ}
    (he : e ∈ (M.elementsOf files b.type).toList) {i : ℕ} (hi : i < (arraySizeF M b).toNat) :
    b.Covers (b.objectGranule M e.1 i) := by
  have hinside : 8 * e.1 < M.getTypeAllocSize b.type :=
    TypeTable.elementsOf_lt hM (Std.TreeMap.mem_toList_iff_getElem?_eq_some.mp he)
  have hend := object_fits hb (by omega) hi
  exact ⟨_, by omega, by omega, rfl⟩

/-- What has been recorded for a block in reach. -/
theorem holdsEntry_of_records (hM : M.Fitting) (hb : b.Usable M) (hfits : b.Fits32 M) {base : ℕ}
    {count : U32} {m m' : GranuleMap} (h : Records (blockWrites M files place b) base count m m')
    {e : ℕ × Finset ℕ} (he : e ∈ (M.elementsOf files b.type).toList) {i : ℕ}
    (hi : i < (arraySizeF M b).toNat) :
    b.HoldsEntry M files place m' (b.objectGranule M e.1 i) := by
  obtain ⟨hcount, hproduct⟩ := fits_spec hfits
  have hposition : ∀ e ∈ (M.elementsOf files b.type).toList, ∀ i < (arraySizeF M b).toNat,
      machineAddressing.element (b.entryAddr e.1) (b.typeSize M) i = b.objectGranule M e.1 i := by
    intro e he i hi
    rw [element_entryAddr hb (TypeTable.elementsOf_lt hM
      (Std.TreeMap.mem_toList_iff_getElem?_eq_some.mp he)) hi, hproduct i hi]
    rfl
  rcases h.table (b.objectGranule M e.1 i) with ⟨e', he', htable, i', hi', hsame⟩ | ⟨hnone, -⟩
  · rw [hcount] at hi'
    exact ⟨e', he', ⟨i', hi', (hposition e' he' i' hi').symm.trans hsame⟩, htable⟩
  · exact absurd ⟨e, he, rfl, i, hcount.symm ▸ hi, hposition e he i hi⟩ (hnone _)

/-- **When a realloc moves the trace.**  The sequence returns.  Afterwards the new block
holds the entries of its objects and the old one holds nothing, if and only if the old one
held nothing before and the new one is within the reach of 32-bit products (or has a type
that is not traced).  Where it is not, nothing must be left over in the new block from
before. -/
theorem movesTrace_iff (rodata : Word → Byte) (files : ClassFiles) (inlineOpt : Bool)
    (fresh : FreshMmap mmap) (hM : M.Fitting) (hplace : ∀ name, place name ≠ 0)
    (hold : old.Usable M) (hb : b.Usable M) (hapart : old.Apart b) (isConstant : Bool)
    (layout : Layout mmap s)
    (hclear : ¬ b.Fits32 M → ∀ g, b.Covers g → (s.view.content g).reference = 0) :
    ∃ s', (program mmap rodata).run
        (handleHeapAlloc M files inlineOpt place true isConstant b) s = some s' ∧
      (MovesTrace M files place old b s'.view ↔
        (∀ g, old.Covers g → (s.view.content g).reference = 0) ∧
          ((M.elementsOf files b.type).isEmpty = true ∨ b.Fits32 M)) := by
  cases hempty : (M.elementsOf files b.type).isEmpty with
  | true =>
      refine ⟨s, ?_, fun h => ⟨h.old, .inl rfl⟩, fun h => ⟨fun e he => ?_, h.1⟩⟩
      · simp only [handleHeapAlloc, hempty, if_true, Machine.run_nil]
      · rw [isEmpty_iff_toList.mp hempty] at he
        cases he
  | false =>
      obtain ⟨s', hrun, -, hrecords⟩ := handleHeapAlloc_spec rodata files inlineOpt place fresh
        hb.nonnull hempty true isConstant layout
      -- the sequence does not come near the old block
      have hkept : ∀ g, old.Covers g →
          (s'.view.content g).reference = (s.view.content g).reference := by
        intro g hg
        rcases hrecords.table g with ⟨e, he, -, hwrites⟩ | ⟨-, hsame⟩
        · have htraced : b.Traced M files g := ⟨e, he, hwrites⟩
          exact absurd (covers_of_traced hM hb htraced) (hapart.covers hold hb hg)
        · exact congrArg Prod.fst hsame
      refine ⟨s', hrun, fun h => ⟨fun g hg => ?_, .inr ?_⟩, fun h => ⟨?_, ?_⟩⟩
      · rw [← hkept g hg]
        exact h.old g hg
      · by_contra hfits
        have hne : (M.elementsOf files b.type).toList ≠ [] := fun hnil => by
          rw [← isEmpty_iff_toList, hempty] at hnil
          cases hnil
        obtain ⟨e, he, i, hi, hmissed⟩ := exists_missed hM hb hne hfits
        obtain ⟨e', -, -, hentry⟩ := h.new e he i hi
        rcases hrecords.table (b.objectGranule M e.1 i) with ⟨e₁, he₁, -, hwrites⟩ | ⟨-, hsame⟩
        · exact hmissed ⟨e₁, he₁, hwrites⟩
        · have hreference : place (M.setName e'.2) =
              (s.view.content (b.objectGranule M e.1 i)).reference :=
            congrArg Prod.fst (hentry.symm.trans hsame)
          exact hplace _ (hreference.trans (hclear hfits _ (objectGranule_covers hM hb he hi)))
      · have hfits := h.2.resolve_left Bool.false_ne_true
        exact fun e he i hi => holdsEntry_of_records hM hb hfits hrecords he hi
      · intro g hg
        rw [hkept g hg]
        exact h.1 g hg

end Move

/-- One `D`, and where it is moved to. -/
def oldBlock : Block := ⟨4096, 40, .struct 1⟩
def newBlock : Block := ⟨8192, 80, .struct 1⟩

theorem oldBlock_usable : oldBlock.Usable wideModule := by
  refine ⟨by decide, by decide, ?_, by decide⟩
  show 4096 + max 1 40 ≤ 2 ^ 48
  decide

theorem newBlock_usable : newBlock.Usable wideModule := by
  refine ⟨by decide, by decide, ?_, by decide⟩
  show 8192 + max 1 80 ≤ 2 ^ 48
  decide

theorem oldBlock_apart : oldBlock.Apart newBlock := by
  refine .inl ?_
  show 4096 + max 1 40 ≤ 8192
  decide

theorem newBlock_fits : newBlock.Fits32 wideModule := .inr ⟨by decide, by decide⟩

/-- A realloc from one `D` to two. -/
theorem movesTrace_iff_sample : ∃ s s' : Shadow,
    (program spacedMmap fun _ => 0).run
        (handleHeapAlloc wideModule wideFiles true (fun _ => 4096) true false newBlock) s =
      some s' ∧
      (MovesTrace wideModule wideFiles (fun _ => 4096) oldBlock newBlock s'.view ↔
        (∀ g, oldBlock.Covers g → (s.view.content g).reference = 0) ∧
          ((wideModule.elementsOf wideFiles (.struct 1)).isEmpty = true ∨
            newBlock.Fits32 wideModule)) := by
  have hplace : ∀ _ : Name, (4096 : Word) ≠ 0 := fun _ => by decide
  obtain ⟨s', hrun, hiff⟩ := movesTrace_iff (fun _ => 0) wideFiles true spacedMmap_fresh
    wideModule_fitting hplace oldBlock_usable newBlock_usable oldBlock_apart false
    (layout_init fun _ => 0) fun hlarge => absurd newBlock_fits hlarge
  exact ⟨_, s', hrun, hiff⟩

/-- The old block keeps its references. -/
theorem realloc_keeps_old :
    ¬ ∀ (mmap : ℕ → ℕ) (rodata : Word → Byte) (M : Module) (files : ClassFiles) (inlineOpt : Bool)
      (place : Name → Word) (old new : Block) (s s₁ s₂ : Shadow), FreshMmap mmap → M.Fitting →
      (∀ name, place name ≠ 0) → old.Usable M → new.Usable M → old.Apart new → Layout mmap s →
      (program mmap rodata).run (handleHeapAlloc M files inlineOpt place false false old) s =
        some s₁ →
      (program mmap rodata).run (handleHeapAlloc M files inlineOpt place true false new) s₁ =
        some s₂ →
      MovesTrace M files place old new s₂.view := by
  intro hall
  have hplace : ∀ _ : Name, (4096 : Word) ≠ 0 := fun _ => by decide
  have hempty : (wideModule.elementsOf wideFiles (.struct 1)).isEmpty = false := by decide +kernel
  have layout : Layout spacedMmap (bitypeInitialization spacedMmap fun _ => 0) := layout_init _
  obtain ⟨s₁, hrun₁, hlayout₁, hrecords₁⟩ := handleHeapAlloc_spec (fun _ => 0) wideFiles true
    (fun _ => 4096) spacedMmap_fresh oldBlock_usable.nonnull hempty false false layout
  obtain ⟨s₂, hrun₂, -, hrecords₂⟩ := handleHeapAlloc_spec (fun _ => 0) wideFiles true
    (fun _ => 4096) spacedMmap_fresh newBlock_usable.nonnull hempty true false hlayout₁
  have hmoves := hall spacedMmap (fun _ => 0) wideModule wideFiles true (fun _ => 4096) oldBlock
    newBlock _ s₁ s₂ spacedMmap_fresh wideModule_fitting hplace oldBlock_usable newBlock_usable
    oldBlock_apart layout hrun₁ hrun₂
  have htraced : oldBlock.Traced wideModule wideFiles 512 := by
    refine ⟨(0, {1}), ?_, 0, by decide, by decide⟩
    rw [show oldBlock.type = .struct 1 from rfl, wideModule_elements]
    exact List.mem_cons_self
  have hcovers : oldBlock.Covers 512 := covers_of_traced wideModule_fitting oldBlock_usable htraced
  rcases hrecords₂.table 512 with ⟨e, he, -, hwrites⟩ | ⟨-, hsame⟩
  · have hnew : newBlock.Traced wideModule wideFiles 512 := ⟨e, he, hwrites⟩
    exact oldBlock_apart.covers oldBlock_usable newBlock_usable hcovers
      (covers_of_traced wideModule_fitting newBlock_usable hnew)
  · have hzero : (s₁.view.content 512).reference = 0 :=
      (congrArg Prod.fst hsame).symm.trans (hmoves.old 512 hcovers)
    exact hrecords₁.reference_ne hplace htraced hzero

end Bitype.Pass
