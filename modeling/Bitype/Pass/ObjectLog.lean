import Bitype.Pass.HeapLifeCycle
import Bitype.Pass.StackObject
import Bitype.Pass.TraceLog

/-!
# What the sequences of an object write, and where

`insertUpdate` writes references and offsets, and which ones depends only on where and how
the objects are made.  `objectLog` is the list of these writes for any `Site`, with the
arithmetic of the emitted code (`logs_insertUpdate`).

Next to its writes a sequence may touch the size slot of the first granule of its objects
and nothing else (`insertUpdate_within`, `removeEvents_within`, `handleFree_within`).  So
what it does to one object it does to no other.
-/

namespace Bitype.Pass

open Bitype.Foundations Bitype.Runtime
open Bitype.Tool (Name)

/-! ## Sequences that stay within some granules -/

/-- Whenever the sequence returns it has changed no entry outside `L`, and every entry that
was there is there. -/
def StaysWithin (mmap : ℕ → ℕ) (rodata : Word → Byte) (events : List Event) (L : ℕ → Prop) :
    Prop :=
  ∀ s s', Layout mmap s → (program mmap rodata).run events s = some s' → Layout mmap s' ∧
    (∀ g, ¬ L g → s'.view.content g = s.view.content g) ∧
    ∀ g, (s.view g).isSome → (s'.view g).isSome

section Within

variable {mmap : ℕ → ℕ} {rodata : Word → Byte} {events events' : List Event} {L L' : ℕ → Prop}

theorem StaysWithin.nil : StaysWithin mmap rodata [] L := by
  intro s s' layout hrun
  cases hrun
  exact ⟨layout, fun _ _ => rfl, fun _ h => h⟩

theorem StaysWithin.append (h : StaysWithin mmap rodata events L)
    (h' : StaysWithin mmap rodata events' L) : StaysWithin mmap rodata (events ++ events') L := by
  intro s s' layout hrun
  rw [Machine.run_append, Option.bind_eq_some_iff] at hrun
  obtain ⟨s₁, hrun₁, hrun₂⟩ := hrun
  obtain ⟨hlayout₁, hframe₁, hkeeps₁⟩ := h s s₁ layout hrun₁
  obtain ⟨hlayout₂, hframe₂, hkeeps₂⟩ := h' s₁ s' hlayout₁ hrun₂
  exact ⟨hlayout₂, fun g hg => (hframe₂ g hg).trans (hframe₁ g hg),
    fun g hg => hkeeps₂ g (hkeeps₁ g hg)⟩

theorem StaysWithin.mono (h : StaysWithin mmap rodata events L) (hL : ∀ g, L g → L' g) :
    StaysWithin mmap rodata events L' := by
  intro s s' layout hrun
  obtain ⟨hlayout, hframe, hkeeps⟩ := h s s' layout hrun
  exact ⟨hlayout, fun g hg => hframe g fun hmem => hg (hL g hmem), hkeeps⟩

/-- One sequence for each item of a list. -/
theorem StaysWithin.flatMap {α : Type} {f : α → List Event} (xs : List α)
    (h : ∀ x ∈ xs, StaysWithin mmap rodata (f x) L) : StaysWithin mmap rodata (xs.flatMap f) L := by
  induction xs with
  | nil => exact .nil
  | cons x rest ih =>
      rw [List.flatMap_cons]
      exact (h x List.mem_cons_self).append (ih fun y hy => h y (List.mem_cons_of_mem _ hy))

/-- One event, by what it leaves. -/
theorem StaysWithin.event {event : Event}
    (h : ∀ s s', Layout mmap s → event.step mmap rodata s = some s' → Layout mmap s' ∧
      (∀ g, ¬ L g → s'.view.content g = s.view.content g) ∧
      ∀ g, (s.view g).isSome → (s'.view g).isSome) : StaysWithin mmap rodata [event] L := by
  intro s s' layout hrun
  have hstep : (event.step mmap rodata s).bind some = some s' := hrun
  rw [Option.bind_fun_some] at hstep
  exact h s s' layout hstep

/-- A call, by what it does to the abstract table. -/
theorem StaysWithin.call (fresh : FreshMmap mmap) {op : Op}
    (h : ∀ m m', op.abstractStep machineAddressing m = some m' →
      (∀ g, ¬ L g → m'.content g = m.content g) ∧ ∀ g, (m g).isSome → (m' g).isSome) :
    StaysWithin mmap rodata [.call op] L := by
  apply StaysWithin.event
  intro s s' layout hstep
  obtain ⟨hlayout, hview⟩ := step_spec layout fresh op
  have hcall : op.step mmap s = some s' := hstep
  rw [hcall, Option.map_some] at hview
  exact ⟨hlayout s' hcall, h s.view s'.view hview.symm⟩

/-! ### The calls -/

theorem ne_of_outside {g h : ℕ} (hg : L g) (hh : ¬ L h) : h ≠ g := fun hsame => hh (hsame ▸ hg)

/-- Recording an entry changes one granule. -/
theorem within_record {m : GranuleMap} {g : ℕ} {f : Entry → Entry} (hg : L g) :
    (∀ h, ¬ L h → (m.record g f).content h = m.content h) ∧
      ∀ h, (m h).isSome → (m.record g f h).isSome := by
  refine ⟨fun h hh => ?_, fun h => isSome_record g f⟩
  rw [content_record, if_neg (ne_of_outside hg hh)]

/-- Clearing part of an entry changes one granule. -/
theorem within_modify {m : GranuleMap} {g : ℕ} {f : Entry → Entry} (hzero : f Entry.zero = Entry.zero)
    (hg : L g) : (∀ h, ¬ L h → (m.modify g f).content h = m.content h) ∧
      ∀ h, (m h).isSome → (m.modify g f h).isSome := by
  refine ⟨fun h hh => ?_, fun h hsome => ?_⟩
  · rw [content_modify _ _ _ hzero, if_neg (ne_of_outside hg hh)]
  · rwa [isSome_modify]

theorem within_updateArraySize (fresh : FreshMmap mmap) {thisPtr : Word} (hg : L (granule thisPtr))
    (arraySize : U32) :
    StaysWithin mmap rodata [.call (.updateArraySize thisPtr arraySize)] L := by
  apply StaysWithin.call fresh
  intro m m' hstep
  obtain rfl := Option.some.inj hstep
  split
  · exact ⟨fun _ _ => rfl, fun _ h => h⟩
  · exact within_record hg

theorem within_directUpdateObjTrace (fresh : FreshMmap mmap) {thisPtr : Word}
    (hg : L (granule thisPtr)) (referenceAddr : Word) (offset : U32) :
    StaysWithin mmap rodata [.call (.directUpdateObjTrace thisPtr referenceAddr offset)] L := by
  apply StaysWithin.call fresh
  intro m m' hstep
  obtain rfl := Option.some.inj hstep
  exact within_record hg

theorem within_inlineUpdate (fresh : FreshMmap mmap) {newAddr : Word} (hg : L (granule newAddr))
    (referenceAddr : Word) (offset : U32) :
    StaysWithin mmap rodata [.inlineUpdate newAddr referenceAddr offset] L := by
  apply StaysWithin.event
  intro s s' layout hstep
  obtain rfl := Option.some.inj hstep
  obtain ⟨hlayout, hview⟩ := inlineUpdate_spec layout fresh newAddr referenceAddr offset
  rw [hview]
  exact ⟨hlayout, within_record hg⟩

theorem within_updateObjTrace (fresh : FreshMmap mmap) {thisPtr : Word} {typeSize arraySize : U32}
    (hg : ∀ g, ElementGranule thisPtr typeSize arraySize.toNat g → L g) (referenceAddr : Word)
    (offset : U32) :
    StaysWithin mmap rodata
      [.call (.updateObjTrace thisPtr referenceAddr typeSize arraySize offset)] L := by
  apply StaysWithin.call fresh
  intro m m' hstep
  obtain rfl := Option.some.inj hstep
  refine ⟨fun g hnone => ?_, fun g hsome => ?_⟩
  · have hcontent := content_records thisPtr typeSize ⟨referenceAddr, 0, offset⟩ arraySize.toNat m g
    rw [if_neg fun hmem => hnone (hg g hmem)] at hcontent
    exact hcontent
  · exact isSome_records thisPtr typeSize ⟨referenceAddr, 0, offset⟩ arraySize.toNat hsome

theorem within_directEraseObj (fresh : FreshMmap mmap) {thisPtr : Word} (hg : L (granule thisPtr)) :
    StaysWithin mmap rodata [.call (.directEraseObj thisPtr)] L := by
  apply StaysWithin.call fresh
  intro m m' hstep
  obtain rfl := Option.some.inj hstep
  exact within_modify rfl hg

theorem within_directEraseArraySize (fresh : FreshMmap mmap) {thisPtr : Word}
    (hg : L (granule thisPtr)) :
    StaysWithin mmap rodata [.call (.directEraseArraySize thisPtr)] L := by
  apply StaysWithin.call fresh
  intro m m' hstep
  obtain rfl := Option.some.inj hstep
  split
  · exact ⟨fun _ _ => rfl, fun _ h => h⟩
  · exact within_modify rfl hg

/-- The loop of an erase that is told the number of objects. -/
theorem within_eraseObj_stack (fresh : FreshMmap mmap) {thisPtr objAddr arraySize : Word}
    {typeSize : U32} (hg : arraySize.toNat < 2 ^ 32 →
      ∀ g, ElementGranule thisPtr typeSize arraySize.toNat g → L g) :
    StaysWithin mmap rodata
      [.call (.eraseObj thisPtr objAddr typeSize arraySize .stackAlloc)] L := by
  apply StaysWithin.call fresh
  intro m m' hstep
  have hkind : ¬(AllocType.stackAlloc = .heapAlloc ∨ AllocType.stackAlloc = .realloc) := by decide
  rw [Op.abstractStep, if_neg hkind] at hstep
  split at hstep
  · next hcount =>
    obtain rfl := Option.some.inj hstep
    refine ⟨fun g hnone => ?_, fun g hsome => ?_⟩
    · rw [content_eraseElements, if_neg fun hmem => hnone (hg hcount g hmem)]
    · rwa [isSome_eraseElements]
  · cases hstep

end Within

/-! ## The log of a sequence of updates -/

section Log

variable (M : Module) (place : Name → Word) (site : Site)

/-- The writes of `emitEntry`. -/
def entryLog (emitType : EmitType) (currArrayIndex : ℕ) (entry : ℕ × Finset ℕ) : TraceLog :=
  if entry.2.card = 0 then []
  else
    let offsetInt := uint32 (entry.1 * 8)
    let objAddrT :=
      site.objAddr + BitVec.ofNat 64 (uint32 (offsetInt + site.typeSize * currArrayIndex))
    let written := (place (M.setName entry.2), BitVec.ofNat 32 offsetInt)
    match emitType with
    | .conObjAdd => [(granule objAddrT, written)]
    | .vlaObjAdd => (List.range (site.arraySize.setWidth 32).toNat).map fun j =>
        (machineAddressing.element objAddrT (BitVec.ofNat 32 site.typeSize) j, written)

/-- The writes of `insertUpdate`, for a site that is no `reinterpret_cast`. -/
def objectLog (elements : Std.TreeMap ℕ (Finset ℕ)) : TraceLog :=
  if site.allocType = .realloc then
    elements.toList.flatMap (entryLog M place site .vlaObjAdd 0)
  else if site.allocType = .placementNew then
    elements.toList.flatMap (entryLog M place site .conObjAdd 0)
  else if site.isConstant = true ∧ site.allocType ≠ .heapAlloc then
    (List.range site.arraySize.toNat).flatMap fun i =>
      elements.toList.flatMap (entryLog M place site .conObjAdd i)
  else elements.toList.flatMap (entryLog M place site .vlaObjAdd 0)

end Log

section Logged

variable {mmap : ℕ → ℕ} {rodata : Word → Byte} {M : Module} {inlineOpt : Bool}
  {place : Name → Word} {site : Site}

variable (rodata M inlineOpt place) in
theorem logs_emitEntry (fresh : FreshMmap mmap) (hkind : site.allocType ≠ .reinterpret)
    (emitType : EmitType) (i : ℕ) (entry : ℕ × Finset ℕ) :
    Logs mmap rodata (emitEntry M inlineOpt place emitType site i entry)
      (entryLog M place site emitType i entry) := by
  unfold emitEntry entryLog
  by_cases hempty : entry.2.card = 0
  · rw [if_pos hempty, if_pos hempty]
    exact .nil
  · rw [if_neg hempty, if_neg hempty]
    cases emitType with
    | conObjAdd =>
        dsimp only
        rw [if_neg hkind]
        split
        · exact logs_inlineUpdate fresh _ _ _
        · exact logs_directUpdateObjTrace fresh _ _ _
    | vlaObjAdd =>
        have hloop := logs_updateObjTrace rodata fresh (site.objAddr + BitVec.ofNat 64
            (uint32 (uint32 (entry.1 * 8) + site.typeSize * i))) (place (M.setName entry.2))
          (BitVec.ofNat 32 site.typeSize) (site.arraySize.setWidth 32)
          (BitVec.ofNat 32 (uint32 (entry.1 * 8)))
        have hsize : Logs mmap rodata
            [.call (.updateArraySize site.objAddr (site.arraySize.setWidth 32))] [] :=
          logs_updateArraySize fresh _ _
        have happend := hloop.append hsize
        rwa [List.append_nil] at happend

variable (rodata M inlineOpt place site) in
/-- **The sequence for new objects** returns, and leaves what its log writes. -/
theorem logs_insertUpdate (fresh : FreshMmap mmap) (hkind : site.allocType ≠ .reinterpret)
    (elements : Std.TreeMap ℕ (Finset ℕ)) :
    Logs mmap rodata (insertUpdate M inlineOpt place site elements)
      (objectLog M place site elements) := by
  have hentries : ∀ emitType i, Logs mmap rodata
      (emitInstForObjTrace M inlineOpt place emitType site i elements)
      (elements.toList.flatMap (entryLog M place site emitType i)) := fun emitType i =>
    Logs.flatMap _ fun entry _ => logs_emitEntry rodata M inlineOpt place fresh hkind emitType i entry
  unfold insertUpdate objectLog
  simp only [hkind, or_false]
  split
  · exact hentries _ _
  · split
    · exact hentries _ _
    · split
      · exact Logs.flatMap _ fun i _ => hentries _ i
      · exact hentries _ _

theorem objectLog_of_isEmpty {elements : Std.TreeMap ℕ (Finset ℕ)} (h : elements.isEmpty = true) :
    objectLog M place site elements = [] := by
  rw [isEmpty_iff_toList] at h
  unfold objectLog
  simp [h]

/-! ### The granules of a log -/

theorem exists_mem_flatMap {α : Type} {f : α → TraceLog} {xs : List α} {g : ℕ} :
    (∃ write ∈ xs.flatMap f, write.1 = g) ↔ ∃ x ∈ xs, ∃ write ∈ f x, write.1 = g := by
  constructor
  · rintro ⟨write, hwrite, hg⟩
    obtain ⟨x, hx, hwrite⟩ := List.mem_flatMap.mp hwrite
    exact ⟨x, hx, write, hwrite, hg⟩
  · rintro ⟨x, hx, write, hwrite, hg⟩
    exact ⟨write, List.mem_flatMap.mpr ⟨x, hx, hwrite⟩, hg⟩

theorem exists_mem_conObjAdd {entry : ℕ × Finset ℕ} (hne : entry.2.card ≠ 0) {i g : ℕ} :
    (∃ write ∈ entryLog M place site .conObjAdd i entry, write.1 = g) ↔
      granule (site.objAddr +
        BitVec.ofNat 64 (uint32 (uint32 (entry.1 * 8) + site.typeSize * i))) = g := by
  rw [entryLog, if_neg hne]
  simp only [List.mem_singleton, exists_eq_left]

theorem exists_mem_vlaObjAdd {entry : ℕ × Finset ℕ} (hne : entry.2.card ≠ 0) {i g : ℕ} :
    (∃ write ∈ entryLog M place site .vlaObjAdd i entry, write.1 = g) ↔
      ElementGranule (site.objAddr +
        BitVec.ofNat 64 (uint32 (uint32 (entry.1 * 8) + site.typeSize * i)))
        (BitVec.ofNat 32 site.typeSize) (site.arraySize.setWidth 32).toNat g := by
  rw [entryLog, if_neg hne]
  constructor
  · rintro ⟨write, hwrite, hg⟩
    obtain ⟨j, hj, rfl⟩ := List.mem_map.mp hwrite
    exact ⟨j, List.mem_range.mp hj, hg⟩
  · rintro ⟨j, hj, hg⟩
    exact ⟨_, List.mem_map_of_mem (List.mem_range.mpr hj), hg⟩

/-! ## Where the sequences stay -/

/-- The granules a sequence of updates may change. -/
def ObjectGranule (M : Module) (place : Name → Word) (site : Site)
    (elements : Std.TreeMap ℕ (Finset ℕ)) (g : ℕ) : Prop :=
  g = granule site.objAddr ∨ ∃ write ∈ objectLog M place site elements, write.1 = g

variable (rodata M inlineOpt place) in
theorem emitEntry_within (fresh : FreshMmap mmap) (hkind : site.allocType ≠ .reinterpret)
    {L : ℕ → Prop} (hbase : L (granule site.objAddr)) (emitType : EmitType) (i : ℕ)
    (entry : ℕ × Finset ℕ) (hlog : ∀ write ∈ entryLog M place site emitType i entry, L write.1) :
    StaysWithin mmap rodata (emitEntry M inlineOpt place emitType site i entry) L := by
  unfold entryLog at hlog
  unfold emitEntry
  by_cases hempty : entry.2.card = 0
  · rw [if_pos hempty]
    exact .nil
  · rw [if_neg hempty] at hlog ⊢
    cases emitType with
    | conObjAdd =>
        dsimp only at hlog ⊢
        have hg := hlog _ List.mem_cons_self
        rw [if_neg hkind]
        split
        · exact within_inlineUpdate fresh hg _ _
        · exact within_directUpdateObjTrace fresh hg _ _
    | vlaObjAdd =>
        dsimp only at hlog ⊢
        rw [← List.singleton_append]
        refine (within_updateObjTrace fresh ?_ _ _).append (within_updateArraySize fresh hbase _)
        rintro g ⟨j, hj, rfl⟩
        exact hlog _ (List.mem_map_of_mem (List.mem_range.mpr hj))

variable (rodata M inlineOpt place site) in
/-- **The sequence for new objects** stays within its writes and the first granule. -/
theorem insertUpdate_within (fresh : FreshMmap mmap) (hkind : site.allocType ≠ .reinterpret)
    (elements : Std.TreeMap ℕ (Finset ℕ)) :
    StaysWithin mmap rodata (insertUpdate M inlineOpt place site elements)
      (ObjectGranule M place site elements) := by
  have hentries : ∀ emitType i, (∀ write ∈ elements.toList.flatMap (entryLog M place site emitType i),
      ObjectGranule M place site elements write.1) → StaysWithin mmap rodata
      (emitInstForObjTrace M inlineOpt place emitType site i elements)
      (ObjectGranule M place site elements) := by
    intro emitType i hlog
    apply StaysWithin.flatMap
    intro entry hentry
    apply emitEntry_within rodata M inlineOpt place fresh hkind (.inl rfl)
    exact fun write hwrite => hlog write (List.mem_flatMap.mpr ⟨entry, hentry, hwrite⟩)
  have hmem : ∀ write ∈ objectLog M place site elements,
      ObjectGranule M place site elements write.1 := fun write hwrite => .inr ⟨write, hwrite, rfl⟩
  unfold objectLog at hmem
  unfold insertUpdate
  simp only [hkind, or_false]
  -- one case for each branch of `insertUpdate`
  split
  · next hrealloc =>
      rw [if_pos hrealloc] at hmem
      exact hentries _ _ hmem
  · next hrealloc =>
      rw [if_neg hrealloc] at hmem
      split
      · next hnew =>
          rw [if_pos hnew] at hmem
          exact hentries _ _ hmem
      · next hnew =>
          rw [if_neg hnew] at hmem
          split
          · next hconstant =>
              rw [if_pos hconstant] at hmem
              exact StaysWithin.flatMap _ fun i hi => hentries _ i fun write hwrite =>
                hmem write (List.mem_flatMap.mpr ⟨i, hi, hwrite⟩)
          · next hconstant =>
              rw [if_neg hconstant] at hmem
              exact hentries _ _ hmem

end Logged

/-! ## Stack objects -/

section Stack

variable {mmap : ℕ → ℕ} {rodata : Word → Byte} {M : Module} {files : ClassFiles}
  {inlineOpt : Bool} {place : Name → Word} {o : StackObject}

namespace StackObject

/-- What the sequence of an alloca writes. -/
def log (M : Module) (files : ClassFiles) (place : Name → Word) (o : StackObject) : TraceLog :=
  objectLog M place (allocaSite M o) (M.elementsOf files o.type)

/-- The granules of an object: those it tracks, and its first. -/
def Granule (M : Module) (files : ClassFiles) (o : StackObject) (g : ℕ) : Prop :=
  g = granule o.addr ∨ o.Tracks M files g

/-- The granules an object tracks are those its log writes. -/
theorem exists_mem_log {g : ℕ} :
    (∃ write ∈ o.log M files place, write.1 = g) ↔ o.Tracks M files g := by
  have hentries : ∀ e ∈ (M.elementsOf files o.type).toList, e.2.card ≠ 0 := fun e he =>
    (entries_of_elementsOf o.type e he).2
  have hcongr : ∀ {P Q : ℕ × Finset ℕ → Prop}, (∀ e, e.2.card ≠ 0 → (P e ↔ Q e)) →
      ((∃ e ∈ (M.elementsOf files o.type).toList, P e) ↔
        ∃ e ∈ (M.elementsOf files o.type).toList, Q e) := fun h =>
    exists_congr fun e => and_congr_right fun he => h e (hentries e he)
  unfold log objectLog
  cases hconstant : o.isConstant with
  | true =>
      simp only [allocaSite, hconstant, reduceCtorEq, if_false, ne_eq, not_false_eq_true, and_self,
        if_true, exists_mem_flatMap]
      rw [← tracks_constant hconstant]
      exact exists_congr fun i => and_congr_right fun _ => hcongr fun e he => exists_mem_conObjAdd he
  | false =>
      simp only [allocaSite, hconstant, reduceCtorEq, if_false, Bool.false_eq_true, false_and,
        exists_mem_flatMap]
      rw [← tracks_variable hconstant]
      exact hcongr fun e he => exists_mem_vlaObjAdd he

end StackObject

variable (rodata inlineOpt place) in
/-- **The sequence of an alloca** returns, and leaves what its log writes. -/
theorem updateEvents_logs (fresh : FreshMmap mmap) (o : StackObject) :
    Logs mmap rodata (updateEvents M files inlineOpt place o) (o.log M files place) := by
  unfold updateEvents
  dsimp only
  split
  · next hempty =>
      rw [StackObject.log, objectLog_of_isEmpty hempty]
      exact .nil
  · exact logs_insertUpdate rodata M inlineOpt place (allocaSite M o) fresh nofun _

variable (rodata inlineOpt place) in
theorem updateEvents_within (fresh : FreshMmap mmap) (o : StackObject) :
    StaysWithin mmap rodata (updateEvents M files inlineOpt place o) (o.Granule M files) := by
  unfold updateEvents
  dsimp only
  split
  · exact .nil
  · refine (insertUpdate_within rodata M inlineOpt place (allocaSite M o) fresh nofun
      _).mono fun g hg => ?_
    exact hg.imp id StackObject.exists_mem_log.mp

variable (rodata inlineOpt) in
/-- **The removal of an alloca** stays within the granules of the object. -/
theorem removeEvents_within (fresh : FreshMmap mmap) (o : StackObject) :
    StaysWithin mmap rodata (removeEvents M files inlineOpt o) (o.Granule M files) := by
  have hentries : ∀ entry ∈ (M.elementsOf files o.type).toList.zipIdx,
      entry.1 ∈ (M.elementsOf files o.type).toList ∧ entry.1.2.card ≠ 0 := by
    intro entry hentry
    have hmem : entry.1 ∈ (M.elementsOf files o.type).toList :=
      (List.mem_zipIdx' hentry).2 ▸ List.getElem_mem _
    exact ⟨hmem, (entries_of_elementsOf o.type entry.1 hmem).2⟩
  have hkind : AllocType.stackAlloc ≠ .heapAlloc := by decide
  unfold removeEvents insertRemove
  dsimp only
  split
  · exact .nil
  · cases hconstant : o.isConstant with
    | true =>
        simp only [allocaSite, hkind, hconstant, ne_eq, not_false_eq_true, and_self, if_true]
        refine StaysWithin.flatMap _ fun i hi => StaysWithin.flatMap _ fun entry hentry => ?_
        obtain ⟨hmem, hne⟩ := hentries entry hentry
        have hg : o.Granule M files (granule (o.entryAddr M entry.1.1 i)) :=
          .inr ((tracks_constant hconstant _).mp ⟨i, hi, entry.1, hmem, rfl⟩)
        unfold emitRemoveEntry
        rw [if_neg hne]
        dsimp only
        split
        · -- the inlined sequence is the body of the call
          exact within_directEraseObj fresh hg
        · exact within_directEraseObj fresh hg
    | false =>
        simp only [allocaSite, hconstant, Bool.false_eq_true, and_false, if_false]
        refine StaysWithin.flatMap _ fun entry hentry => ?_
        obtain ⟨hmem, hne⟩ := hentries entry hentry
        unfold emitRemoveEntry
        rw [if_neg hne]
        dsimp only
        rw [← List.singleton_append]
        apply StaysWithin.append
        · apply within_eraseObj_stack fresh
          intro hcount g hg
          have hwidth : o.arraySize.toNat = (o.arraySize.setWidth 32).toNat := by
            rw [BitVec.toNat_setWidth, Nat.mod_eq_of_lt hcount]
          rw [hwidth] at hg
          exact .inr ((tracks_variable hconstant g).mp ⟨entry.1, hmem, hg⟩)
        · split
          · exact within_directEraseArraySize fresh (.inl rfl)
          · exact .nil

end Stack

/-! ## Heap blocks -/

section Heap

variable {mmap : ℕ → ℕ} {rodata : Word → Byte} {M : Module} {files : ClassFiles}
  {inlineOpt : Bool} {place : Name → Word} {b : Block}

namespace Block

/-- What the sequence of an allocation writes. -/
def log (M : Module) (files : ClassFiles) (place : Name → Word) (b : Block) : TraceLog :=
  objectLog M place (heapSite M false false b) (M.elementsOf files b.type)

/-- The granules of a block: those its bytes lie in, and its first. -/
def Granule (b : Block) (g : ℕ) : Prop := g = granule b.addr ∨ b.Covers g

theorem exists_mem_log {g : ℕ} :
    (∃ write ∈ b.log M files place, write.1 = g) ↔ b.Traced M files g := by
  have hkind : (AllocType.heapAlloc = .realloc) = False ∧
      (AllocType.heapAlloc = .placementNew) = False := by decide
  unfold log objectLog
  simp only [heapSite, Bool.false_eq_true, if_false, false_and, hkind, exists_mem_flatMap]
  refine exists_congr fun e => and_congr_right fun he => ?_
  obtain ⟨hsmall, hne⟩ := entries_of_elementsOf b.type e he
  have hoffset : uint32 (uint32 (e.1 * 8) + uint32 (M.getTypeAllocSize b.type) * 0) = 8 * e.1 := by
    rw [Nat.mul_zero, Nat.add_zero, uint32, uint32, Nat.mod_mod, Nat.mod_eq_of_lt (by omega),
      Nat.mul_comm]
  rw [exists_mem_vlaObjAdd hne]
  simp only [hoffset]
  rfl

end Block

theorem heapAllocSite_kind (isConstant : Bool) (b : Block) :
    (heapSite M false isConstant b).allocType ≠ .reinterpret := by
  simp [heapSite]

variable (rodata inlineOpt place) in
/-- **The sequence of an allocation** returns, and leaves what its log writes. -/
theorem handleHeapAlloc_logs (fresh : FreshMmap mmap) (isConstant : Bool) (b : Block) :
    Logs mmap rodata (handleHeapAlloc M files inlineOpt place false isConstant b)
      (b.log M files place) := by
  unfold handleHeapAlloc
  dsimp only
  split
  · next hempty =>
      rw [Block.log, objectLog_of_isEmpty hempty]
      exact .nil
  · have hsame : b.log M files place = objectLog M place (heapSite M false isConstant b)
        (M.elementsOf files b.type) := by
      cases isConstant <;> rfl
    rw [hsame]
    exact logs_insertUpdate rodata M inlineOpt place _ fresh (heapAllocSite_kind isConstant b) _

variable (rodata inlineOpt place) in
theorem handleHeapAlloc_within (fresh : FreshMmap mmap) (hM : M.Fitting) (hb : b.Usable M)
    (isConstant : Bool) :
    StaysWithin mmap rodata (handleHeapAlloc M files inlineOpt place false isConstant b)
      b.Granule := by
  unfold handleHeapAlloc
  dsimp only
  split
  · exact .nil
  · have hsame : b.log M files place = objectLog M place (heapSite M false isConstant b)
        (M.elementsOf files b.type) := by
      cases isConstant <;> rfl
    refine (insertUpdate_within rodata M inlineOpt place _ fresh (heapAllocSite_kind isConstant b)
      _).mono fun g hg => ?_
    refine hg.imp id fun hwrite => ?_
    rw [← hsame] at hwrite
    exact covers_of_traced hM hb (Block.exists_mem_log.mp hwrite)

variable (rodata inlineOpt) in
/-- **The sequence of a free** keeps the entries of all granules it does not reach. -/
theorem handleFree_frame (fresh : FreshMmap mmap)
    (hne : (M.elementsOf files b.type).isEmpty = false) {s s' : Shadow} (layout : Layout mmap s)
    (hsome : (s.view (granule b.addr)).isSome)
    (hrun : (program mmap rodata).run (handleFree M files inlineOpt b) s = some s') {g : ℕ}
    (hbase : g ≠ granule b.addr)
    (hg : ¬ b.Reaches M files (heapCount (s.view.content (granule b.addr))) g) :
    s'.view.content g = s.view.content g := by
  obtain ⟨s₁, hrun₁, hlayout₁, -, hcontent₁⟩ := eraseCalls_spec rodata M fresh b
    (M.elementsOf files b.type).toList s layout hsome
  rw [handleFree_eq b hne, Machine.run_append, hrun₁, Option.bind_some] at hrun
  have hlast : StaysWithin mmap rodata [.call (.directEraseArraySize b.addr)]
      (· = granule b.addr) := within_directEraseArraySize fresh rfl
  obtain ⟨-, hsize, -⟩ := hlast s₁ s' hlayout₁ hrun
  calc s'.view.content g = s₁.view.content g := hsize g hbase
    _ = s.view.content g := (hcontent₁ g).trans (if_neg hg)

end Heap

end Bitype.Pass
