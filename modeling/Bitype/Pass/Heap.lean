import Bitype.Pass.Trace
import Bitype.Runtime.Content

/-!
# Tracing and erasing a heap block

For a heap block the pass does not know how many objects there are.  It emits, for
every granule of one object in which a cast-related class starts, a loop over the
objects, and has the runtime note their number in the size slot of the block's first
granule.  The sequence for a free only has the address: it reads the number back and
clears the granules of that many objects.

`handleHeapAlloc_spec` and `handleFree_spec` say what the two sequences do to each
granule.
-/

namespace Bitype.Pass

open Bitype.Foundations Bitype.Runtime
open Bitype.Tool (Name)

/-! ## The emitted sequences -/

/-- The kinds of removal `emitInstForObjTrace` emits. -/
inductive RemoveType
  | conObjDel
  | vlaObjDel
deriving DecidableEq

/-- A heap block: where it is, how many bytes were asked for, and the type that the pass
takes its objects to have. -/
structure Block where
  addr : Word
  size : Word
  type : IRType

section Emission

variable (M : Module) (files : ClassFiles) (inlineOpt : Bool) (place : Name → Word)

/-- The loop body of `emitInstForObjTrace` for a removal; `last` says that
`currentIndex == elementSize`. -/
def emitRemoveEntry (removeType : RemoveType) (site : Site) (currArrayIndex : ℕ)
    (entry : ℕ × Finset ℕ) (last : Bool) : List Event :=
  if entry.2.card = 0 then []
  else
    let offsetInt := uint32 (entry.1 * 8)
    let objAddrT :=
      site.objAddr + BitVec.ofNat 64 (uint32 (offsetInt + site.typeSize * currArrayIndex))
    match removeType with
    | .conObjDel =>
        if inlineOpt = true then [.inlineErase objAddrT] else [.call (.directEraseObj objAddrT)]
    | .vlaObjDel =>
        .call (.eraseObj objAddrT site.objAddr (BitVec.ofNat 32 site.typeSize) site.arraySize
            site.allocType) ::
          if last = true then [.call (.directEraseArraySize site.objAddr)] else []

/-- `emitInstForObjTrace` for a removal. -/
def emitInstForObjRemove (removeType : RemoveType) (site : Site) (currArrayIndex : ℕ)
    (elements : Std.TreeMap ℕ (Finset ℕ)) : List Event :=
  elements.toList.zipIdx.flatMap fun entry =>
    emitRemoveEntry inlineOpt removeType site currArrayIndex entry.1
      (entry.2 + 1 = elements.size)

/-- `insertRemove`. -/
def insertRemove (site : Site) (elements : Std.TreeMap ℕ (Finset ℕ)) : List Event :=
  if elements.isEmpty = true then []
  else if site.allocType ≠ .heapAlloc ∧ site.isConstant = true then
    (List.range site.arraySize.toNat).flatMap fun i =>
      emitInstForObjRemove inlineOpt .conObjDel site i elements
  else emitInstForObjRemove inlineOpt .vlaObjDel site 0 elements

/-- `ArraySizeF`: the bytes asked for, in objects. -/
def arraySizeF (b : Block) : Word :=
  if BitVec.ofNat 64 (M.getTypeAllocSize b.type) ≠ 0 then
    b.size / BitVec.ofNat 64 (M.getTypeAllocSize b.type)
  else b.size

/-- What `handleHeapAlloc` passes to `insertUpdate`. -/
def heapSite (isRealloc isConstant : Bool) (b : Block) : Site where
  allocType := if isRealloc = true then .realloc else .heapAlloc
  objAddr := b.addr
  typeSize := uint32 (M.getTypeAllocSize b.type)
  arraySize := arraySizeF M b
  isConstant := isConstant

/-- The loop body of `handleHeapAlloc`, for `new`, `malloc` and `realloc`.  The old
address of a `realloc` is passed on to `emitInstForObjTrace`, which does not use it. -/
def handleHeapAlloc (isRealloc isConstant : Bool) (b : Block) : List Event :=
  let offsets := M.elementsOf files b.type
  if offsets.isEmpty = true then []
  else insertUpdate M inlineOpt place (heapSite M isRealloc isConstant b) offsets

/-- The loop body of `handleFree`, which passes no size. -/
def handleFree (b : Block) : List Event :=
  insertRemove inlineOpt
    { allocType := .heapAlloc
      objAddr := b.addr
      typeSize := uint32 (M.getTypeAllocSize b.type)
      arraySize := 1
      isConstant := true } (M.elementsOf files b.type)

end Emission

/-! ## The granules of a block -/

namespace Block

variable (M : Module) (files : ClassFiles) (b : Block)

/-- The size of one object, as the runtime gets it. -/
def typeSize : U32 := BitVec.ofNat 32 (uint32 (M.getTypeAllocSize b.type))

/-- The number of objects, as the runtime gets it. -/
def count : U32 := (arraySizeF M b).setWidth 32

/-- Where granule `k` of the first object starts. -/
def entryAddr (k : ℕ) : Word := b.addr + BitVec.ofNat 64 (8 * k)

/-- The sequence for an entry of one object writes a granule, for some count. -/
def Writes (count k g : ℕ) : Prop := ElementGranule (b.entryAddr k) (b.typeSize M) count g

/-- The granules that a sequence reaches if it counts so many objects. -/
def Reaches (count g : ℕ) : Prop :=
  ∃ e ∈ (M.elementsOf files b.type).toList, b.Writes M count e.1 g

/-- The granules whose references the sequence of an allocation sets. -/
def Traced (g : ℕ) : Prop := b.Reaches M files (b.count M).toNat g

instance (count k g : ℕ) : Decidable (b.Writes M count k g) :=
  inferInstanceAs (Decidable (ElementGranule (b.entryAddr k) (b.typeSize M) count g))

instance (count g : ℕ) : Decidable (b.Reaches M files count g) :=
  inferInstanceAs (Decidable (∃ e ∈ (M.elementsOf files b.type).toList, b.Writes M count e.1 g))

end Block

/-! ## What a sequence of updates leaves -/

/-- What the granule `g` refers to. -/
def tableAt (m : GranuleMap) (g : ℕ) : Word × U32 := ((m.content g).reference, (m.content g).offset)

/-- From `m` to `m'` granules were written as `L` says, and the size slot of `base` holds
`count`. -/
structure Records (L : ℕ → Word × U32 → Prop) (base : ℕ) (count : U32) (m m' : GranuleMap) :
    Prop where
  table : ∀ g, L g (tableAt m' g) ∨ (∀ r, ¬ L g r) ∧ tableAt m' g = tableAt m g
  frame : ∀ g, (∀ r, ¬ L g r) → g ≠ base → m'.content g = m.content g
  keeps : ∀ g, (m g).isSome → (m' g).isSome
  isSome : (m' base).isSome
  size : (m'.content base).size = count

theorem Records.trans {L L' : ℕ → Word × U32 → Prop} {base : ℕ} {count : U32}
    {m m₁ m₂ : GranuleMap} (h : Records L base count m m₁) (h' : Records L' base count m₁ m₂) :
    Records (fun g r => L g r ∨ L' g r) base count m m₂ where
  table g := by
    rcases h'.table g with hwritten | ⟨hnone, hsame⟩
    · exact .inl (.inr hwritten)
    rw [hsame]
    rcases h.table g with hwritten | ⟨hnone', hsame'⟩
    · exact .inl (.inl hwritten)
    · exact .inr ⟨fun r hr => hr.elim (hnone' r) (hnone r), hsame'⟩
  frame g hnone hne := by
    calc m₂.content g = m₁.content g := h'.frame g (fun r hr => hnone r (.inr hr)) hne
      _ = m.content g := h.frame g (fun r hr => hnone r (.inl hr)) hne
  keeps g hg := h'.keeps g (h.keeps g hg)
  isSome := h'.isSome
  size := h'.size

theorem Records.congr {L L' : ℕ → Word × U32 → Prop} {base : ℕ} {count : U32}
    {m m' : GranuleMap} (h : Records L base count m m') (hL : ∀ g r, L g r ↔ L' g r) :
    Records L' base count m m' := by
  obtain rfl : L = L' := by
    funext g r
    exact propext (hL g r)
  exact h

section Updates

variable {mmap : ℕ → ℕ} {rodata : Word → Byte} {M : Module} {files : ClassFiles}
  {inlineOpt : Bool} {place : Name → Word} {s : Shadow}

/-- One loop of updates, with the note of the size. -/
theorem records_updates (thisPtr objAddr : Word) (typeSize count : U32)
    (e : Entry) (m : GranuleMap) :
    Records
      (fun g r => r = (e.reference, e.offset) ∧ ElementGranule thisPtr typeSize count.toNat g)
      (granule objAddr) count m
      (((List.range count.toNat).foldl
          (fun m i => m.record (machineAddressing.element thisPtr typeSize i) fun _ => e) m).record
        (granule objAddr) fun e => { e with size := count }) := by
  have htable : ∀ (m : GranuleMap) g,
      tableAt (m.record (granule objAddr) fun e => { e with size := count }) g = tableAt m g := by
    intro m g
    unfold tableAt
    rw [content_record]
    split
    · next hsame => rw [hsame]
    · rfl
  refine ⟨fun g => ?_, fun g hnone hne => ?_,
    fun g hg => isSome_record _ _ (isSome_records _ _ _ _ hg), isSome_record_same _ _ _, ?_⟩
  · rw [htable, tableAt, content_records]
    by_cases hg : ElementGranule thisPtr typeSize count.toNat g
    · rw [if_pos hg]
      exact .inl ⟨rfl, hg⟩
    · rw [if_neg hg]
      exact .inr ⟨fun r hr => hg hr.2, rfl⟩
  · have hg : ¬ ElementGranule thisPtr typeSize count.toNat g := fun hg => hnone _ ⟨rfl, hg⟩
    rw [content_record, if_neg hne, content_records, if_neg hg]
  · rw [content_record, if_pos rfl]

/-- What an entry writes. -/
def entryWrites (place : Name → Word) (M : Module) (b : Block) (entry : ℕ × Finset ℕ) (g : ℕ)
    (r : Word × U32) : Prop :=
  r = (place (M.setName entry.2), BitVec.ofNat 32 (8 * entry.1)) ∧
    b.Writes M (b.count M).toNat entry.1 g

variable (rodata inlineOpt place) in
/-- One entry of a block. -/
theorem emitHeapEntry_spec (fresh : FreshMmap mmap) {b : Block} (haddr : b.addr ≠ 0)
    (isRealloc isConstant : Bool) {entry : ℕ × Finset ℕ} (hsmall : entry.1 < 2 ^ 29)
    (hne : entry.2.card ≠ 0) (layout : Layout mmap s) :
    ∃ s', (program mmap rodata).run (emitEntry M inlineOpt place .vlaObjAdd
        (heapSite M isRealloc isConstant b) 0 entry) s = some s' ∧ Layout mmap s' ∧
      Records (entryWrites place M b entry) (granule b.addr) (b.count M) s.view s'.view := by
  rw [emitEntry_vla hne (by omega)]
  obtain ⟨s₁, hs₁, hlayout₁, hview₁⟩ := call_spec fresh layout
    (show Op.abstractStep machineAddressing
      (.updateObjTrace (b.entryAddr entry.1) (place (M.setName entry.2)) (b.typeSize M)
        (b.count M) (BitVec.ofNat 32 (8 * entry.1))) s.view = some _ from rfl)
  obtain ⟨s₂, hs₂, hlayout₂, hview₂⟩ := call_spec fresh hlayout₁
    (show Op.abstractStep machineAddressing (.updateArraySize b.addr (b.count M)) s₁.view =
      some _ from rfl)
  refine ⟨s₂, ?_, hlayout₂, ?_⟩
  · have hrun : (program mmap rodata).run
        [.call (.updateObjTrace (b.entryAddr entry.1) (place (M.setName entry.2)) (b.typeSize M)
            (b.count M) (BitVec.ofNat 32 (8 * entry.1))),
          .call (.updateArraySize b.addr (b.count M))] s = some s₂ := by
      simp only [Machine.run_cons, Machine.run_nil, program, Event.step, hs₁, hs₂,
        Option.bind_some]
    exact hrun
  · rw [hview₂, if_neg haddr, hview₁]
    exact records_updates (b.entryAddr entry.1) b.addr (b.typeSize M) (b.count M)
      ⟨place (M.setName entry.2), 0, BitVec.ofNat 32 (8 * entry.1)⟩ s.view

variable (rodata inlineOpt place) in
/-- The entries of a block, one after the other. -/
theorem emitHeapEntries_spec (fresh : FreshMmap mmap) {b : Block} (haddr : b.addr ≠ 0)
    (isRealloc isConstant : Bool) :
    ∀ (entries : List (ℕ × Finset ℕ)) (s : Shadow), entries ≠ [] →
      (∀ e ∈ entries, e.1 < 2 ^ 29 ∧ e.2.card ≠ 0) → Layout mmap s →
      ∃ s', (program mmap rodata).run
          (entries.flatMap (emitEntry M inlineOpt place .vlaObjAdd
            (heapSite M isRealloc isConstant b) 0)) s = some s' ∧
        Layout mmap s' ∧
        Records (fun g r => ∃ e ∈ entries, entryWrites place M b e g r) (granule b.addr)
          (b.count M) s.view s'.view := by
  intro entries
  induction entries with
  | nil => exact fun _ hne => absurd rfl hne
  | cons entry rest ih =>
      intro s _ hentries layout
      obtain ⟨hsmall, hcard⟩ := hentries entry List.mem_cons_self
      obtain ⟨s₁, hrun₁, hlayout₁, hrecords₁⟩ := emitHeapEntry_spec rodata inlineOpt place fresh
        haddr isRealloc isConstant hsmall hcard layout
      by_cases hlast : rest = []
      · subst hlast
        refine ⟨s₁, ?_, hlayout₁, hrecords₁.congr fun g r => by simp⟩
        rw [List.flatMap_singleton]
        exact hrun₁
      · obtain ⟨s₂, hrun₂, hlayout₂, hrecords₂⟩ := ih s₁ hlast
          (fun e he => hentries e (List.mem_cons_of_mem _ he)) hlayout₁
        refine ⟨s₂, ?_, hlayout₂, (hrecords₁.trans hrecords₂).congr fun g r => by simp⟩
        rw [List.flatMap_cons, Machine.run_append, hrun₁]
        exact hrun₂

theorem isEmpty_iff_toList {elements : Std.TreeMap ℕ (Finset ℕ)} :
    elements.isEmpty = true ↔ elements.toList = [] := by
  rw [← Std.TreeMap.isEmpty_toList, List.isEmpty_iff]

/-- The entries of a walk. -/
theorem entries_of_elementsOf (type : IRType) :
    ∀ e ∈ (M.elementsOf files type).toList, e.1 < 2 ^ 29 ∧ e.2.card ≠ 0 := by
  intro e he
  obtain ⟨hsmall, hne, -⟩ :=
    TypeTable.filed_elementsOf type (Std.TreeMap.mem_toList_iff_getElem?_eq_some.mp he)
  exact ⟨hsmall, Finset.card_ne_zero.mpr hne⟩

/-- What the sequence of an allocation writes. -/
def blockWrites (M : Module) (files : ClassFiles) (place : Name → Word) (b : Block) (g : ℕ)
    (r : Word × U32) : Prop :=
  ∃ e ∈ (M.elementsOf files b.type).toList, entryWrites place M b e g r

/-- What has been traced refers to a table. -/
theorem Records.reference_ne (hplace : ∀ name, place name ≠ 0) {b : Block} {m m' : GranuleMap}
    {base : ℕ} {count : U32} (h : Records (blockWrites M files place b) base count m m') {g : ℕ}
    (hg : b.Traced M files g) : (m'.content g).reference ≠ 0 := by
  obtain ⟨e, he, hwrites⟩ := hg
  rcases h.table g with ⟨e', -, htable, -⟩ | ⟨hnone, -⟩
  · have hreference : (m'.content g).reference = place (M.setName e'.2) := congrArg Prod.fst htable
    rw [hreference]
    exact hplace _
  · exact absurd ⟨e, he, rfl, hwrites⟩ (hnone _)

/-- **The sequence of an allocation** returns.  It writes the granules of its objects and
notes their number. -/
theorem handleHeapAlloc_spec (rodata : Word → Byte) (files : ClassFiles) (inlineOpt : Bool)
    (place : Name → Word) (fresh : FreshMmap mmap) {b : Block} (haddr : b.addr ≠ 0)
    (hne : (M.elementsOf files b.type).isEmpty = false) (isRealloc isConstant : Bool)
    (layout : Layout mmap s) :
    ∃ s', (program mmap rodata).run
        (handleHeapAlloc M files inlineOpt place isRealloc isConstant b) s = some s' ∧
      Layout mmap s' ∧
      Records (blockWrites M files place b) (granule b.addr) (b.count M) s.view s'.view := by
  unfold handleHeapAlloc
  simp only [hne, Bool.false_eq_true, if_false]
  have hemit : insertUpdate M inlineOpt place (heapSite M isRealloc isConstant b)
        (M.elementsOf files b.type) =
      (M.elementsOf files b.type).toList.flatMap
        (emitEntry M inlineOpt place .vlaObjAdd (heapSite M isRealloc isConstant b) 0) := by
    refine insertUpdate_vla ?_ _
    cases isRealloc with
    | true => exact .inr (.inl rfl)
    | false => exact .inl rfl
  have hnonempty : (M.elementsOf files b.type).toList ≠ [] := fun h => by
    rw [← isEmpty_iff_toList, hne] at h
    cases h
  obtain ⟨s', hrun, hlayout, hrecords⟩ := emitHeapEntries_spec rodata inlineOpt place fresh haddr
    isRealloc isConstant _ s hnonempty (entries_of_elementsOf b.type) layout
  exact ⟨s', by rw [hemit]; exact hrun, hlayout, hrecords⟩

end Updates

/-! ## What a free leaves -/

section Removal

variable {mmap : ℕ → ℕ} {rodata : Word → Byte} {M : Module} {files : ClassFiles}
  {inlineOpt : Bool} {s : Shadow}

/-- The call that clears the granules of an entry. -/
def removeCall (site : Site) (entry : ℕ × Finset ℕ) : Event :=
  .call (.eraseObj (site.objAddr + BitVec.ofNat 64 (8 * entry.1)) site.objAddr
    (BitVec.ofNat 32 site.typeSize) site.arraySize site.allocType)

variable (inlineOpt) in
/-- The entries one after the other; the last one also clears the size. -/
theorem emitRemoveEntries_eq (site : Site) (elementSize : ℕ) :
    ∀ (entries : List (ℕ × Finset ℕ)) (first : ℕ), first + entries.length = elementSize →
      (∀ e ∈ entries, e.1 < 2 ^ 29 ∧ e.2.card ≠ 0) →
      (entries.zipIdx first).flatMap (fun entry =>
          emitRemoveEntry inlineOpt .vlaObjDel site 0 entry.1 (entry.2 + 1 = elementSize)) =
        entries.map (removeCall site) ++
          if entries = [] then [] else [.call (.directEraseArraySize site.objAddr)] := by
  intro entries
  induction entries with
  | nil => exact fun _ _ _ => rfl
  | cons entry rest ih =>
      intro first hlength hentries
      obtain ⟨hsmall, hne⟩ := hentries entry List.mem_cons_self
      have hoffset : uint32 (uint32 (entry.1 * 8) + site.typeSize * 0) = 8 * entry.1 := by
        rw [Nat.mul_zero, Nat.add_zero, uint32, uint32, Nat.mod_mod, Nat.mod_eq_of_lt (by omega),
          Nat.mul_comm]
      have hentry : ∀ last, emitRemoveEntry inlineOpt .vlaObjDel site 0 entry last =
          removeCall site entry ::
            if last = true then [.call (.directEraseArraySize site.objAddr)] else [] := by
        intro last
        simp only [emitRemoveEntry, if_neg hne, hoffset]
        rfl
      have hrest := ih (first + 1) (by rw [List.length_cons] at hlength; omega)
        fun e he => hentries e (List.mem_cons_of_mem _ he)
      rw [List.zipIdx_cons, List.flatMap_cons, hrest, hentry, List.map_cons]
      rw [List.length_cons] at hlength
      -- the size goes with the last entry
      by_cases hlast : rest = []
      · subst hlast
        have hend : first + 1 = elementSize := by simpa using hlength
        simp [hend]
      · have hmore : first + 1 ≠ elementSize := by
          have := List.length_pos_iff.mpr hlast
          omega
        simp [hlast, hmore]

/-- A removal that goes over the objects when the program runs, as calls. -/
theorem insertRemove_eq (site : Site)
    (hloop : site.allocType = .heapAlloc ∨ site.isConstant = false) (type : IRType)
    (hne : (M.elementsOf files type).isEmpty = false) :
    insertRemove inlineOpt site (M.elementsOf files type) =
      (M.elementsOf files type).toList.map (removeCall site) ++
        [.call (.directEraseArraySize site.objAddr)] := by
  have hnonempty : (M.elementsOf files type).toList ≠ [] := fun h => by
    rw [← isEmpty_iff_toList, hne] at h
    cases h
  have hentries := emitRemoveEntries_eq inlineOpt site
    (M.elementsOf files type).size (M.elementsOf files type).toList 0
    (by rw [Nat.zero_add, Std.TreeMap.length_toList]) (entries_of_elementsOf type)
  have hcall : ¬ (site.allocType ≠ .heapAlloc ∧ site.isConstant = true) := fun hconstant =>
    hloop.elim hconstant.1 fun h => Bool.noConfusion (h.symm.trans hconstant.2)
  rw [if_neg hnonempty] at hentries
  rw [← hentries, insertRemove, hne, if_neg Bool.false_ne_true, if_neg hcall]
  rfl

/-- The number of objects that the calls go over. -/
def Site.erased (site : Site) (m : GranuleMap) : ℕ :=
  if site.allocType = .heapAlloc ∨ site.allocType = .realloc then
    heapCount (m.content (granule site.objAddr))
  else site.arraySize.toNat

/-- The loops of the calls end. -/
def Site.Ends (site : Site) : Prop :=
  site.allocType = .heapAlloc ∨ site.allocType = .realloc ∨ site.arraySize.toNat < 2 ^ 32

/-- The granules that the call for an entry clears. -/
def Site.Erases (site : Site) (m : GranuleMap) (k g : ℕ) : Prop :=
  ElementGranule (site.objAddr + BitVec.ofNat 64 (8 * k)) (BitVec.ofNat 32 site.typeSize)
    (site.erased m) g

instance (site : Site) (m : GranuleMap) (k g : ℕ) : Decidable (site.Erases m k g) :=
  inferInstanceAs (Decidable (ElementGranule _ _ (site.erased m) g))

/-- One call on the abstract table. -/
theorem removeCall_step {site : Site} (hends : site.Ends) {m : GranuleMap}
    (hsome : (m (granule site.objAddr)).isSome) (k : ℕ) :
    Op.abstractStep machineAddressing
        (.eraseObj (site.objAddr + BitVec.ofNat 64 (8 * k)) site.objAddr
          (BitVec.ofNat 32 site.typeSize) site.arraySize site.allocType) m =
      some (eraseElements machineAddressing (site.objAddr + BitVec.ofNat 64 (8 * k))
        (BitVec.ofNat 32 site.typeSize) (site.erased m) m) := by
  rw [Op.abstractStep, Site.erased]
  split
  · have hlookup : m (machineAddressing.granule site.objAddr) =
        some (m.content (granule site.objAddr)) := eq_some_content hsome
    rw [hlookup]
  · next hkind =>
      obtain ⟨hheap, hrealloc⟩ := not_or.mp hkind
      exact if_pos ((hends.resolve_left hheap).resolve_left hrealloc)

/-- The number of objects does not change while references are cleared. -/
theorem Site.erased_congr (site : Site) {m m' : GranuleMap}
    (h : (m'.content (granule site.objAddr)).size = (m.content (granule site.objAddr)).size) :
    site.erased m' = site.erased m := by
  rw [Site.erased, Site.erased, heapCount, heapCount, h]

variable (rodata) in
/-- The calls of a removal. -/
theorem removeCalls_spec (fresh : FreshMmap mmap) (site : Site) (hends : site.Ends) :
    ∀ (entries : List (ℕ × Finset ℕ)) (s : Shadow), Layout mmap s →
      (s.view (granule site.objAddr)).isSome →
      ∃ s', (program mmap rodata).run (entries.map (removeCall site)) s = some s' ∧
        Layout mmap s' ∧ (∀ g, (s'.view g).isSome = (s.view g).isSome) ∧
        ∀ g, s'.view.content g =
          if ∃ e ∈ entries, site.Erases s.view e.1 g then { s.view.content g with reference := 0 }
          else s.view.content g := by
  intro entries
  induction entries with
  | nil => exact fun s layout _ => ⟨s, rfl, layout, fun _ => rfl, fun g => by simp⟩
  | cons entry rest ih =>
      intro s layout hsome
      obtain ⟨s₁, hs₁, hlayout₁, hview₁⟩ :=
        call_spec fresh layout (removeCall_step hends hsome entry.1)
      have hsome₁ : ∀ g, (s₁.view g).isSome = (s.view g).isSome := fun g => by
        rw [hview₁, isSome_eraseElements]
      have hcontent₁ : ∀ g, s₁.view.content g =
          if site.Erases s.view entry.1 g then { s.view.content g with reference := 0 }
          else s.view.content g := by
        intro g
        rw [hview₁, content_eraseElements]
        rfl
      -- an erase leaves the size, so the next one counts the same objects
      have hcount : ∀ k g, site.Erases s₁.view k g ↔ site.Erases s.view k g := by
        intro k g
        have hsize : (s₁.view.content (granule site.objAddr)).size =
            (s.view.content (granule site.objAddr)).size := by
          rw [hcontent₁]
          split
          · rfl
          · rfl
        rw [Site.Erases, Site.Erases, site.erased_congr hsize]
      obtain ⟨s₂, hrun₂, hlayout₂, hsome₂, hcontent₂⟩ := ih s₁ hlayout₁ (hsome₁ _ ▸ hsome)
      refine ⟨s₂, ?_, hlayout₂, fun g => (hsome₂ g).trans (hsome₁ g), fun g => ?_⟩
      · rw [List.map_cons, Machine.run_cons]
        have hfirst : (program mmap rodata).step (removeCall site entry) s = some s₁ := hs₁
        rw [hfirst]
        exact hrun₂
      · rw [hcontent₂, hcontent₁]
        simp only [List.exists_mem_cons_iff, hcount]
        by_cases hfirst : site.Erases s.view entry.1 g
        · simp only [hfirst, if_true, true_or, ite_self]
        · simp only [hfirst, if_false, false_or]

/-! ### The free of a block -/

/-- What `handleFree` passes to `insertRemove`. -/
def freeSite (M : Module) (b : Block) : Site where
  allocType := .heapAlloc
  objAddr := b.addr
  typeSize := uint32 (M.getTypeAllocSize b.type)
  arraySize := 1
  isConstant := true

/-- The call that clears the granules of an entry of a block. -/
def eraseCall (M : Module) (b : Block) (entry : ℕ × Finset ℕ) : Event :=
  .call (.eraseObj (b.entryAddr entry.1) b.addr (b.typeSize M) 1 .heapAlloc)

/-- `handleFree` as calls. -/
theorem handleFree_eq (b : Block) (hne : (M.elementsOf files b.type).isEmpty = false) :
    handleFree M files inlineOpt b =
      (M.elementsOf files b.type).toList.map (eraseCall M b) ++
        [.call (.directEraseArraySize b.addr)] :=
  insertRemove_eq (freeSite M b) (.inl rfl) b.type hne

variable (rodata M) in
/-- The calls that clear the entries of a block. -/
theorem eraseCalls_spec (fresh : FreshMmap mmap) (b : Block) :
    ∀ (entries : List (ℕ × Finset ℕ)) (s : Shadow), Layout mmap s →
      (s.view (granule b.addr)).isSome →
      ∃ s', (program mmap rodata).run (entries.map (eraseCall M b)) s = some s' ∧
        Layout mmap s' ∧ (∀ g, (s'.view g).isSome = (s.view g).isSome) ∧
        ∀ g, s'.view.content g =
          if ∃ e ∈ entries, b.Writes M (heapCount (s.view.content (granule b.addr))) e.1 g then
            { s.view.content g with reference := 0 }
          else s.view.content g :=
  removeCalls_spec rodata fresh (freeSite M b) (.inl rfl)

variable (rodata inlineOpt) in
/-- **The sequence of a free** returns.  It clears the granules of as many objects as the
size slot of the block says, and the size slot. -/
theorem handleFree_spec (fresh : FreshMmap mmap) {b : Block} (haddr : b.addr ≠ 0)
    (hne : (M.elementsOf files b.type).isEmpty = false) (layout : Layout mmap s)
    (hsome : (s.view (granule b.addr)).isSome) :
    ∃ s', (program mmap rodata).run (handleFree M files inlineOpt b) s = some s' ∧
      Layout mmap s' ∧ (∀ g, (s'.view g).isSome = (s.view g).isSome) ∧
      (∀ g, (s'.view.content g).reference =
        if b.Reaches M files (heapCount (s.view.content (granule b.addr))) g then 0
        else (s.view.content g).reference) ∧
      ∀ g, g ≠ granule b.addr → (s'.view.content g).size = (s.view.content g).size := by
  obtain ⟨s₁, hrun₁, hlayout₁, hsome₁, hcontent₁⟩ := eraseCalls_spec rodata M fresh b
    (M.elementsOf files b.type).toList s layout hsome
  obtain ⟨s₂, hs₂, hlayout₂, hview₂⟩ := call_spec fresh hlayout₁
    (show Op.abstractStep machineAddressing (.directEraseArraySize b.addr) s₁.view = some _ from rfl)
  rw [if_neg haddr] at hview₂
  -- the last call clears the size slot and the offset beside it
  have hcontent₂ : ∀ g, s₂.view.content g =
      if g = granule b.addr then { s₁.view.content g with size := 0, offset := 0 }
      else s₁.view.content g := by
    intro g
    rw [hview₂, content_modify _ _ _ rfl]
    show (if g = granule b.addr then _ else _) = _
    split
    · next hsame => rw [hsame]; rfl
    · rfl
  refine ⟨s₂, ?_, hlayout₂, fun g => ?_, fun g => ?_, fun g hg => ?_⟩
  · rw [handleFree_eq b hne, Machine.run_append, hrun₁]
    have hlast : (program mmap rodata).step (.call (.directEraseArraySize b.addr)) s₁ = some s₂ :=
      hs₂
    rw [Option.bind_some, Machine.run_cons, hlast]
    rfl
  · rw [hview₂, isSome_modify, hsome₁]
  · have hreference : (s₂.view.content g).reference = (s₁.view.content g).reference := by
      rw [hcontent₂]
      split
      · rfl
      · rfl
    have hcleared : s₁.view.content g =
        if b.Reaches M files (heapCount (s.view.content (granule b.addr))) g then
          { s.view.content g with reference := 0 } else s.view.content g := hcontent₁ g
    rw [hreference, hcleared]
    by_cases hreached : b.Reaches M files (heapCount (s.view.content (granule b.addr))) g
    · rw [if_pos hreached, if_pos hreached]
    · rw [if_neg hreached, if_neg hreached]
  · rw [hcontent₂, if_neg hg, hcontent₁]
    split
    · rfl
    · rfl

end Removal

end Bitype.Pass
