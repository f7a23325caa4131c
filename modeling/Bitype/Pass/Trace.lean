import Bitype.Pass.SafeTable
import Bitype.Runtime.Inline

/-!
# Tracing an object

After an object has been allocated or constructed the pass emits one update for each
granule in which a cast-related class of the object starts: a call of the runtime, or
the inlined sequence.  The update stores the table of the granule's classes and the
offset of the granule in the object.

`traceObject_spec` says what a check then sees at every address of the object.
-/

namespace Bitype.Pass

open Bitype.Foundations Bitype.Runtime
open Bitype.Tool (Name)

/-! ## The emitted sequence -/

/-- The kinds of update `emitInstForObjTrace` emits for a new object. -/
inductive EmitType
  | conObjAdd
  | vlaObjAdd
deriving DecidableEq

/-- Where and how objects are made.  `isConstant` says that the number of objects is a
constant of the program. -/
structure Site where
  allocType : AllocType
  objAddr : Word
  typeSize : ℕ
  arraySize : Word
  isConstant : Bool

section Emission

variable (M : Module) (files : ClassFiles) (inlineOpt : Bool) (place : Name → Word)

/-- The loop body of `emitInstForObjTrace`; `place` is where the tables are emitted to. -/
def emitEntry (emitType : EmitType) (site : Site) (currArrayIndex : ℕ) (entry : ℕ × Finset ℕ) :
    List Event :=
  if entry.2.card = 0 then []
  else
    let currentGlobalVari := place (M.setName entry.2)
    let offsetInt := uint32 (entry.1 * 8)
    let offsetV := BitVec.ofNat 32 offsetInt
    let objAddrT :=
      site.objAddr + BitVec.ofNat 64 (uint32 (offsetInt + site.typeSize * currArrayIndex))
    match emitType with
    | .conObjAdd =>
        if inlineOpt = true ∧ site.allocType ≠ .reinterpret ∧ site.allocType ≠ .globalAlloc then
          [.inlineUpdate objAddrT currentGlobalVari offsetV]
        else if site.allocType = .reinterpret then
          [.call (.handleReinterpretCast objAddrT currentGlobalVari offsetV)]
        else [.call (.directUpdateObjTrace objAddrT currentGlobalVari offsetV)]
    | .vlaObjAdd =>
        -- the flag for the first entry is never cleared, so every entry notes the size
        [.call (.updateObjTrace objAddrT currentGlobalVari (BitVec.ofNat 32 site.typeSize)
            (site.arraySize.setWidth 32) offsetV),
          .call (.updateArraySize site.objAddr (site.arraySize.setWidth 32))]

/-- `emitInstForObjTrace` for a new object. -/
def emitInstForObjTrace (emitType : EmitType) (site : Site) (currArrayIndex : ℕ)
    (elements : Std.TreeMap ℕ (Finset ℕ)) : List Event :=
  elements.toList.flatMap (emitEntry M inlineOpt place emitType site currArrayIndex)

/-- `insertUpdate`. -/
def insertUpdate (site : Site) (elements : Std.TreeMap ℕ (Finset ℕ)) : List Event :=
  if site.allocType = .realloc then
    emitInstForObjTrace M inlineOpt place .vlaObjAdd site 0 elements
  else if site.allocType = .placementNew ∨ site.allocType = .reinterpret then
    emitInstForObjTrace M inlineOpt place .conObjAdd site 0 elements
  else if site.isConstant = true ∧ site.allocType ≠ .heapAlloc then
    (List.range site.arraySize.toNat).flatMap fun i =>
      emitInstForObjTrace M inlineOpt place .conObjAdd site i elements
  else emitInstForObjTrace M inlineOpt place .vlaObjAdd site 0 elements

/-- The `Elements` the callers of `insertUpdate` pass.  `emitExtendObjTraceInst` deletes
the classes of less than eight bytes. -/
def tracedElements (allocType : AllocType) (type : IRType) : Std.TreeMap ℕ (Finset ℕ) :=
  if allocType = .placementNew ∨ allocType = .reinterpret then
    (M.elementsOf files type).map fun _ types => types.filter fun a => 8 ≤ (M.struct a).allocSize
  else M.elementsOf files type

/-- What is emitted for one object; `emitExtendObjTraceInst` passes no size. -/
def traceObject (allocType : AllocType) (isConstant : Bool) (objAddr : Word) (type : IRType) :
    List Event :=
  insertUpdate M inlineOpt place
    { allocType := allocType
      objAddr := objAddr
      typeSize :=
        if allocType = .placementNew ∨ allocType = .reinterpret then 0
        else uint32 (M.getTypeAllocSize type)
      arraySize := 1
      isConstant := isConstant }
    (tracedElements M files allocType type)

end Emission

/-! ### The calls -/

section Entries

variable {M : Module} {inlineOpt : Bool} {place : Name → Word} {site : Site} {i : ℕ}
  {entry : ℕ × Finset ℕ}

theorem uint32_of_lt {offset : ℕ} (h : offset < 2 ^ 32) : uint32 offset = offset :=
  Nat.mod_eq_of_lt h

/-- The entry of one object that lies within reach of 32-bit offsets. -/
theorem emitEntry_con (hne : entry.2.card ≠ 0) (hsmall : 8 * entry.1 < 2 ^ 32)
    (haddr : 8 * entry.1 + site.typeSize * i < 2 ^ 32) :
    emitEntry M inlineOpt place .conObjAdd site i entry =
      if inlineOpt = true ∧ site.allocType ≠ .reinterpret ∧ site.allocType ≠ .globalAlloc then
        [.inlineUpdate (site.objAddr + BitVec.ofNat 64 (8 * entry.1 + site.typeSize * i))
          (place (M.setName entry.2)) (BitVec.ofNat 32 (8 * entry.1))]
      else if site.allocType = .reinterpret then
        [.call (.handleReinterpretCast
          (site.objAddr + BitVec.ofNat 64 (8 * entry.1 + site.typeSize * i))
          (place (M.setName entry.2)) (BitVec.ofNat 32 (8 * entry.1)))]
      else
        [.call (.directUpdateObjTrace
          (site.objAddr + BitVec.ofNat 64 (8 * entry.1 + site.typeSize * i))
          (place (M.setName entry.2)) (BitVec.ofNat 32 (8 * entry.1)))] := by
  unfold emitEntry
  simp only [if_neg hne, Nat.mul_comm entry.1 8, uint32_of_lt hsmall, uint32_of_lt haddr]

/-- The entry of all objects. -/
theorem emitEntry_vla (hne : entry.2.card ≠ 0) (hsmall : 8 * entry.1 < 2 ^ 32) :
    emitEntry M inlineOpt place .vlaObjAdd site 0 entry =
      [.call (.updateObjTrace (site.objAddr + BitVec.ofNat 64 (8 * entry.1))
          (place (M.setName entry.2)) (BitVec.ofNat 32 site.typeSize)
          (site.arraySize.setWidth 32) (BitVec.ofNat 32 (8 * entry.1))),
        .call (.updateArraySize site.objAddr (site.arraySize.setWidth 32))] := by
  unfold emitEntry
  simp only [if_neg hne, Nat.mul_comm entry.1 8, Nat.mul_zero, Nat.add_zero, uint32_of_lt hsmall]

/-- The pass emits a call for each granule of each element of a stack or global array with a
constant size. -/
theorem insertUpdate_con (hkind : site.allocType = .stackAlloc ∨
    site.allocType = .globalAlloc) (hconstant : site.isConstant = true)
    (elements : Std.TreeMap ℕ (Finset ℕ)) :
    insertUpdate M inlineOpt place site elements =
      (List.range site.arraySize.toNat).flatMap fun j =>
        emitInstForObjTrace M inlineOpt place .conObjAdd site j elements := by
  unfold insertUpdate
  rcases hkind with hkind | hkind
  · simp [hkind, hconstant]
  · simp [hkind, hconstant]

/-- It emits a call for each granule of all elements of any other array. -/
theorem insertUpdate_vla (hkind : site.allocType = .heapAlloc ∨
    site.allocType = .realloc ∨ site.allocType = .stackAlloc ∧ site.isConstant = false)
    (elements : Std.TreeMap ℕ (Finset ℕ)) :
    insertUpdate M inlineOpt place site elements =
      emitInstForObjTrace M inlineOpt place .vlaObjAdd site 0 elements := by
  unfold insertUpdate
  rcases hkind with hkind | hkind | ⟨hkind, hvariable⟩
  · simp [hkind]
  · simp [hkind]
  · simp [hkind, hvariable]

end Entries

/-! ## What a check sees -/

/-- The table and the offset in an entry. -/
def seen (e : Option Entry) : Option Word × U32 := (Entry.table? e, Entry.offsetOf e)

theorem seen_cover (m : GranuleMap) (r g : ℕ) : seen (m.cover r g) = seen (m g) := by
  unfold GranuleMap.cover
  split
  · cases m g with
    | none => rfl
    | some e => rfl
  · rfl

theorem seen_record_trace (m : GranuleMap) (g h : ℕ) {referenceAddr : Word}
    (hne : referenceAddr ≠ 0) (size offset : U32) :
    seen (m.record g (fun _ => ⟨referenceAddr, size, offset⟩) h) =
      if h = g then (some referenceAddr, offset) else seen (m h) := by
  by_cases hsame : h = g
  · subst hsame
    rw [record_same, if_pos rfl]
    exact Prod.ext (if_neg hne) rfl
  · rw [record_of_ne m _ hsame, seen_cover, if_neg hsame]

theorem seen_record_size (m : GranuleMap) (g h : ℕ) (size : U32) :
    seen (m.record g (fun e => { e with size := size }) h) = seen (m h) := by
  by_cases hsame : h = g
  · subst hsame
    rw [record_same]
    cases m h with
    | none => rfl
    | some e => rfl
  · rw [record_of_ne m _ hsame, seen_cover]

/-! ## Granules of an object -/

/-- The granule `k` granules after an address. -/
def granuleAt (objAddr : Word) (k : ℕ) : ℕ := (objAddr.toNat / 8 + k) % (L1_BITS * L2_BITS)

theorem granule_offset {objAddr : Word} (haligned : objAddr.toNat % 8 = 0) (o : ℕ) :
    granule (objAddr + BitVec.ofNat 64 o) = granuleAt objAddr (o / 8) := by
  rw [granule, granuleAt, BitVec.toNat_add, BitVec.toNat_ofNat, L1_BITS, L2_BITS]
  omega

/-- What the runtime finds for a place of an object. -/
theorem lookup_offset (s : Shadow) {objAddr : Word} (haligned : objAddr.toNat % 8 = 0) (o : ℕ) :
    s.lookup (objAddr + BitVec.ofNat 64 o) = s.view (granuleAt objAddr (o / 8)) := by
  rw [lookup_eq_view, granule_offset haligned]

theorem granuleAt_injective (objAddr : Word) {k k' : ℕ} (hk : k < 2 ^ 45) (hk' : k' < 2 ^ 45)
    (h : granuleAt objAddr k = granuleAt objAddr k') : k = k' := by
  rw [granuleAt, granuleAt, L1_BITS, L2_BITS] at h
  omega

/-! ## The sequence -/

section Sequence

variable {mmap : ℕ → ℕ} {rodata : Word → Byte} {M : Module} {files : ClassFiles}
  {inlineOpt : Bool} {place : Name → Word} {s : Shadow}

/-- A call that returns on the abstract table returns. -/
theorem call_spec (fresh : FreshMmap mmap) (layout : Layout mmap s) {op : Op} {m : GranuleMap}
    (h : op.abstractStep machineAddressing s.view = some m) :
    ∃ s', op.step mmap s = some s' ∧ Implements mmap s' m := by
  obtain ⟨hlayout, hview⟩ := step_spec layout fresh op
  rw [h] at hview
  obtain ⟨s', hs', hm⟩ := Option.map_eq_some_iff.mp hview
  exact ⟨s', hs', hlayout s' hs', hm⟩

/-- The first element of an array is where the array is. -/
theorem element_zero (thisPtr : Word) (typeSize : U32) :
    machineAddressing.element thisPtr typeSize 0 = granule thisPtr := by
  show granule (elementAddr thisPtr typeSize (BitVec.ofNat 32 0)) = granule thisPtr
  rw [elementAddr]
  simp

/-- An array of one is traced like an object. -/
theorem updateObjTrace_one (thisPtr referenceAddr : Word) (typeSize offset : U32)
    (m : GranuleMap) :
    Op.abstractStep machineAddressing
        (.updateObjTrace thisPtr referenceAddr typeSize ((1 : Word).setWidth 32) offset) m =
      some (m.record (granule thisPtr) (traced referenceAddr offset)) := by
  have hrange : List.range ((1 : Word).setWidth 32 : U32).toNat = [0] := rfl
  rw [Op.abstractStep, hrange, List.foldl_cons, List.foldl_nil, element_zero]

variable (rodata M inlineOpt) in
/-- **One entry** of an object changes what a check sees in one granule. -/
theorem emitEntry_spec (fresh : FreshMmap mmap) (hplace : ∀ name, place name ≠ 0)
    {site : Site} (hone : site.arraySize = 1) (hkind : site.allocType ≠ .reinterpret)
    (haligned : site.objAddr.toNat % 8 = 0) (emitType : EmitType) {entry : ℕ × Finset ℕ}
    (hsmall : entry.1 < 2 ^ 29) (layout : Layout mmap s) :
    ∃ s', (program mmap rodata).run (emitEntry M inlineOpt place emitType site 0 entry) s =
        some s' ∧ Layout mmap s' ∧
      ∀ g, seen (s'.view g) =
        if entry.2.card ≠ 0 ∧ g = granuleAt site.objAddr entry.1 then
          (some (place (M.setName entry.2)), BitVec.ofNat 32 (8 * entry.1))
        else seen (s.view g) := by
  by_cases hempty : entry.2.card = 0
  · refine ⟨s, ?_, layout, fun g => by simp [hempty]⟩
    rw [emitEntry, if_pos hempty]
    rfl
  · have hsmall' : 8 * entry.1 < 2 ^ 32 := by omega
    have hgranule : granule (site.objAddr + BitVec.ofNat 64 (8 * entry.1)) =
        granuleAt site.objAddr entry.1 := by
      rw [granule_offset haligned, Nat.mul_div_cancel_left _ (by decide)]
    -- what remains to show once the entry has been recorded
    have hrecord : ∀ (s' : Shadow) (size : U32),
        s'.view = s.view.record (granule (site.objAddr + BitVec.ofNat 64 (8 * entry.1)))
          (fun _ => ⟨place (M.setName entry.2), size, BitVec.ofNat 32 (8 * entry.1)⟩) →
        ∀ g, seen (s'.view g) =
          if entry.2.card ≠ 0 ∧ g = granuleAt site.objAddr entry.1 then
            (some (place (M.setName entry.2)), BitVec.ofNat 32 (8 * entry.1))
          else seen (s.view g) := by
      intro s' size hview g
      rw [hview, hgranule, seen_record_trace _ _ _ (hplace _)]
      simp only [ne_eq, hempty, not_false_eq_true, true_and]
    cases emitType with
    | conObjAdd =>
        rw [emitEntry_con hempty hsmall' hsmall', Nat.mul_zero, Nat.add_zero, if_neg hkind]
        split
        · obtain ⟨hlayout, hview⟩ := inlineUpdate_spec layout fresh
            (site.objAddr + BitVec.ofNat 64 (8 * entry.1)) (place (M.setName entry.2))
            (BitVec.ofNat 32 (8 * entry.1))
          exact ⟨_, rfl, hlayout, hrecord _ _ hview⟩
        · obtain ⟨hlayout, hview⟩ := directUpdateObjTrace_spec layout fresh
            (site.objAddr + BitVec.ofNat 64 (8 * entry.1)) (place (M.setName entry.2))
            (BitVec.ofNat 32 (8 * entry.1))
          exact ⟨_, rfl, hlayout, hrecord _ _ hview⟩
    | vlaObjAdd =>
        rw [emitEntry_vla hempty hsmall', hone]
        obtain ⟨s₁, hs₁, hlayout₁, hview₁⟩ := call_spec fresh layout
          (updateObjTrace_one (site.objAddr + BitVec.ofNat 64 (8 * entry.1))
            (place (M.setName entry.2)) (BitVec.ofNat 32 site.typeSize)
            (BitVec.ofNat 32 (8 * entry.1)) s.view)
        obtain ⟨s₂, hs₂, hlayout₂, hview₂⟩ := call_spec fresh hlayout₁
          (show Op.abstractStep machineAddressing
            (.updateArraySize site.objAddr ((1 : Word).setWidth 32)) s₁.view = some _ from rfl)
        refine ⟨s₂, ?_, hlayout₂, fun g => ?_⟩
        · simp only [Machine.run_cons, Machine.run_nil, program, Event.step, hs₁, hs₂,
            Option.bind_some]
        · calc seen (s₂.view g) = seen (s₁.view g) := by
                rw [hview₂]
                split
                · rfl
                · exact seen_record_size _ _ _ _
            _ = _ := hrecord s₁ 0 hview₁ g

/-- What an entry leaves in its granule. -/
def leaves (M : Module) (place : Name → Word) (entry : ℕ × Finset ℕ) : Option Word × U32 :=
  (some (place (M.setName entry.2)), BitVec.ofNat 32 (8 * entry.1))

/-- What a check sees in granule `k` after one entry for each granule of an object. -/
def seenAfterEntries (effect : ℕ × Finset ℕ → Option Word × U32 → Option Word × U32)
    (elements : Std.TreeMap ℕ (Finset ℕ)) (k : ℕ) (before : Option Word × U32) :
    Option Word × U32 :=
  match elements[k]? with
  | some types => if types.card ≠ 0 then effect (k, types) before else before
  | none => before

/-- The events of an entry return and change what a check sees in the entry's granule. -/
def EntryChanges (mmap : ℕ → ℕ) (rodata : Word → Byte) (objAddr : Word)
    (events : ℕ × Finset ℕ → List Event)
    (effect : ℕ × Finset ℕ → Option Word × U32 → Option Word × U32) : Prop :=
  ∀ entry : ℕ × Finset ℕ, entry.1 < 2 ^ 29 → ∀ s, Layout mmap s →
    ∃ s', (program mmap rodata).run (events entry) s = some s' ∧ Layout mmap s' ∧
      ∀ g, seen (s'.view g) =
        if entry.2.card ≠ 0 ∧ g = granuleAt objAddr entry.1 then effect entry (seen (s.view g))
        else seen (s.view g)

section Entries

variable {objAddr : Word} {events : ℕ × Finset ℕ → List Event}
  {effect : ℕ × Finset ℕ → Option Word × U32 → Option Word × U32}

/-- The entries one after the other. -/
theorem entries_spec (hentry : EntryChanges mmap rodata objAddr events effect) :
    ∀ (entries : List (ℕ × Finset ℕ)) (s : Shadow), (∀ e ∈ entries, e.1 < 2 ^ 29) →
      entries.Pairwise (fun e e' => e.1 ≠ e'.1) → Layout mmap s →
      ∃ s', (program mmap rodata).run (entries.flatMap events) s = some s' ∧ Layout mmap s' ∧
        (∀ e ∈ entries, e.2.card ≠ 0 → seen (s'.view (granuleAt objAddr e.1)) =
          effect e (seen (s.view (granuleAt objAddr e.1)))) ∧
        ∀ g, (∀ e ∈ entries, e.2.card ≠ 0 → g ≠ granuleAt objAddr e.1) →
          seen (s'.view g) = seen (s.view g) := by
  intro entries
  induction entries with
  | nil => exact fun s _ _ layout => ⟨s, rfl, layout, by simp, fun _ _ => rfl⟩
  | cons entry rest ih =>
      intro s hsmall hkeys layout
      obtain ⟨hfirst, hrest⟩ := List.pairwise_cons.mp hkeys
      have hsmall' := fun e he => hsmall e (List.mem_cons_of_mem _ he)
      obtain ⟨s₁, hrun₁, hlayout₁, hseen₁⟩ := hentry entry (hsmall entry List.mem_cons_self) s layout
      obtain ⟨s₂, hrun₂, hlayout₂, hwritten, hframe⟩ := ih s₁ hsmall' hrest hlayout₁
      -- the entries are about different granules
      have hother : ∀ e' ∈ rest, granuleAt objAddr entry.1 ≠ granuleAt objAddr e'.1 := by
        intro e' he' hsame
        have hk := hsmall entry List.mem_cons_self
        have hk' := hsmall' e' he'
        exact hfirst e' he' (granuleAt_injective objAddr (by omega) (by omega) hsame)
      refine ⟨s₂, ?_, hlayout₂, fun e he hne => ?_, fun g hg => ?_⟩
      · rw [List.flatMap_cons, Machine.run_append, hrun₁]
        exact hrun₂
      · rcases List.mem_cons.mp he with rfl | he
        · rw [hframe _ fun e' he' _ => hother e' he', hseen₁, if_pos ⟨hne, rfl⟩]
        · rw [hwritten e he hne, hseen₁, if_neg fun h => hother e he h.2.symm]
      · rw [hframe g fun e he => hg e (List.mem_cons_of_mem _ he), hseen₁, if_neg]
        rintro ⟨hne, rfl⟩
        exact hg entry List.mem_cons_self hne rfl

/-- **The entries of an object**, one for each granule. -/
theorem elements_spec (hentry : EntryChanges mmap rodata objAddr events effect)
    {elements : Std.TreeMap ℕ (Finset ℕ)}
    (hsmall : ∀ k types, elements[k]? = some types → k < 2 ^ 29) (layout : Layout mmap s) :
    ∃ s', (program mmap rodata).run (elements.toList.flatMap events) s = some s' ∧
      Layout mmap s' ∧
      ∀ k < 2 ^ 45, seen (s'.view (granuleAt objAddr k)) =
        seenAfterEntries effect elements k (seen (s.view (granuleAt objAddr k))) := by
  have hmem : ∀ e : ℕ × Finset ℕ, e ∈ elements.toList ↔ elements[e.1]? = some e.2 :=
    fun e => Std.TreeMap.mem_toList_iff_getElem?_eq_some
  have hkeys : elements.toList.Pairwise fun e e' => e.1 ≠ e'.1 := by
    refine Std.TreeMap.distinct_keys_toList.imp fun hne heq => hne ?_
    exact Std.LawfulEqCmp.compare_eq_iff_eq.mpr heq
  obtain ⟨s', hrun, hlayout, hwritten, hframe⟩ := entries_spec hentry elements.toList s
    (fun e he => hsmall e.1 e.2 ((hmem e).mp he)) hkeys layout
  refine ⟨s', hrun, hlayout, fun k hk => ?_⟩
  -- an entry for another granule does not touch granule `k`
  have hapart : ∀ e ∈ elements.toList, e.1 ≠ k → granuleAt objAddr k ≠ granuleAt objAddr e.1 := by
    intro e he hne hsame
    have hlt := hsmall e.1 e.2 ((hmem e).mp he)
    exact hne (granuleAt_injective objAddr (by omega) hk hsame.symm)
  unfold seenAfterEntries
  cases hlookup : elements[k]? with
  | none =>
      refine hframe _ fun e he _ => hapart e he fun hsame => ?_
      rw [hmem, hsame, hlookup] at he
      cases he
  | some types =>
      by_cases hne : types.card ≠ 0
      · simp only [if_pos hne]
        exact hwritten (k, types) ((hmem (k, types)).mpr hlookup) hne
      · simp only [if_neg hne]
        refine hframe _ fun e he hne' => hapart e he fun hsame => ?_
        rw [hmem, hsame, hlookup] at he
        exact hne (Option.some.inj he ▸ hne')

end Entries

variable (M inlineOpt place) in
/-- For one object `insertUpdate` emits the entries once. -/
theorem insertUpdate_one {site : Site} (hone : site.arraySize = 1)
    (elements : Std.TreeMap ℕ (Finset ℕ)) :
    ∃ emitType, insertUpdate M inlineOpt place site elements =
      elements.toList.flatMap (emitEntry M inlineOpt place emitType site 0) := by
  unfold insertUpdate
  split
  · exact ⟨.vlaObjAdd, rfl⟩
  split
  · exact ⟨.conObjAdd, rfl⟩
  split
  · refine ⟨.conObjAdd, ?_⟩
    have hrange : List.range (1 : Word).toNat = [0] := rfl
    rw [hone, hrange, List.flatMap_singleton]
    rfl
  · exact ⟨.vlaObjAdd, rfl⟩

/-- The granules in `tracedElements`. -/
theorem tracedElements_small {allocType : AllocType} {type : IRType} {k : ℕ} {types : Finset ℕ}
    (h : (tracedElements M files allocType type)[k]? = some types) : k < 2 ^ 29 := by
  unfold tracedElements at h
  split at h
  · rw [Std.TreeMap.getElem?_map] at h
    obtain ⟨types', htypes', -⟩ := Option.map_eq_some_iff.mp h
    exact (TypeTable.filed_elementsOf type htypes').1
  · exact (TypeTable.filed_elementsOf type h).1

/-- What a check sees in granule `k` of an object that has been traced from `s`. -/
def seenAfter (M : Module) (files : ClassFiles) (place : Name → Word) (allocType : AllocType)
    (objAddr : Word) (type : IRType) (s : Shadow) (k : ℕ) : Option Word × U32 :=
  match (tracedElements M files allocType type)[k]? with
  | some types =>
      if types.card ≠ 0 then leaves M place (k, types) else seen (s.view (granuleAt objAddr k))
  | none => seen (s.view (granuleAt objAddr k))

variable (rodata M files inlineOpt) in
/-- **Tracing an object.**  The sequence returns, and in each granule of the object a
check sees the table of the classes that start there, or what it saw before. -/
theorem traceObject_spec (fresh : FreshMmap mmap) (hplace : ∀ name, place name ≠ 0)
    {allocType : AllocType} (hkind : allocType ≠ .reinterpret) (isConstant : Bool)
    {objAddr : Word} (haligned : objAddr.toNat % 8 = 0) (type : IRType) (layout : Layout mmap s) :
    ∃ s', (program mmap rodata).run
        (traceObject M files inlineOpt place allocType isConstant objAddr type) s = some s' ∧
      Layout mmap s' ∧
      ∀ k < 2 ^ 45, seen (s'.view (granuleAt objAddr k)) =
        seenAfter M files place allocType objAddr type s k := by
  unfold traceObject
  generalize hsite : Site.mk allocType objAddr _ 1 isConstant = site
  have hone : site.arraySize = 1 := by rw [← hsite]
  have hsiteKind : site.allocType = allocType := by rw [← hsite]
  have hsiteAddr : site.objAddr = objAddr := by rw [← hsite]
  obtain ⟨emitType, hemit⟩ := insertUpdate_one M inlineOpt place hone
    (tracedElements M files allocType type)
  have hentry : EntryChanges mmap rodata objAddr (emitEntry M inlineOpt place emitType site 0)
      fun entry _ => leaves M place entry := by
    intro entry hsmall s layout
    subst hsiteAddr
    exact emitEntry_spec rodata M inlineOpt fresh hplace hone (hsiteKind ▸ hkind) haligned emitType
      hsmall layout
  obtain ⟨s', hrun, hlayout, hseen⟩ :=
    elements_spec hentry (fun _ _ h => tracedElements_small h) layout
  refine ⟨s', by rw [hemit]; exact hrun, hlayout, fun k hk => ?_⟩
  rw [hseen k hk]
  unfold seenAfterEntries seenAfter
  split <;> rfl

end Sequence

end Bitype.Pass
