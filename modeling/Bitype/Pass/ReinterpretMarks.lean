import Bitype.Pass.AllocCalls
import Bitype.Pass.StackObject
import Bitype.Runtime.Provenance

/-!
# Entries of a `reinterpret_cast`

A `reinterpret_cast` leaves its mark in the offset of an entry, and the offset shares a word
with the size that the removal of objects clears at the end.  The removal clears this word
for the first granule of the block, whether or not it has cleared the reference there.  If a
`reinterpret_cast` has marked that granule and no object of the block has a class in it, the
reference stays and its mark goes.

`marksKept_iff` says of every run of the sequences that the pass emits that the marks are
kept exactly if no removal does this.
-/

namespace Bitype.Pass

open Bitype.Foundations Bitype.Runtime
open Bitype.Tool (Name)
open MemoryBuiltins (LibFunc CallInst)

/-! ## The sequences -/

/-- A call of `insertUpdate` or of `insertRemove`, for objects of some type. -/
inductive Sequence
  | update (site : Site) (type : IRType)
  | remove (site : Site) (type : IRType)

section Sequences

variable (M : Module) (files : ClassFiles) (inlineOpt : Bool) (place : Name → Word)

/-- What the call emits. -/
def Sequence.events : Sequence → List Event
  | update site type =>
      insertUpdate M inlineOpt place site (tracedElements M files site.allocType type)
  | remove site type => insertRemove inlineOpt site (M.elementsOf files type)

/-- A removal clears the size of an entry that a `reinterpret_cast` has left, and not its
reference: the removal goes over the objects when the program runs, and none of them has a
class in the first granule of the block. -/
structure TurnsMark (site : Site) (type : IRType) (m : GranuleMap) : Prop where
  loop : site.allocType = .heapAlloc ∨ site.isConstant = false
  traced : (M.elementsOf files type).isEmpty = false
  ends : site.Ends
  nonnull : site.objAddr ≠ 0
  marked : (m.content (granule site.objAddr)).Marked
  missed : ∀ e ∈ (M.elementsOf files type).toList, ¬ site.Erases m e.1 (granule site.objAddr)

/-- The sequence turns no mark when it starts in this state. -/
def Sequence.Spares (m : GranuleMap) : Sequence → Prop
  | update _ _ => True
  | remove site type => ¬ TurnsMark M files site type m

end Sequences

section Emitted

variable {M : Module} {files : ClassFiles} {inlineOpt : Bool} {place : Name → Word}

/-- Without granules nothing is emitted. -/
theorem insertUpdate_empty (site : Site) {elements : Std.TreeMap ℕ (Finset ℕ)}
    (hempty : elements.isEmpty = true) : insertUpdate M inlineOpt place site elements = [] := by
  have hnone : ∀ emitType i, emitInstForObjTrace M inlineOpt place emitType site i elements = [] := by
    intro emitType i
    rw [emitInstForObjTrace, isEmpty_iff_toList.mp hempty, List.flatMap_nil]
  have hloop : ((List.range site.arraySize.toNat).flatMap fun i =>
      emitInstForObjTrace M inlineOpt place .conObjAdd site i elements) = [] :=
    List.flatMap_eq_nil_iff.mpr fun i _ => hnone .conObjAdd i
  rw [insertUpdate, hloop, hnone, hnone, ite_self, ite_self, ite_self]

/-- The classes of less than eight bytes count for an allocation. -/
theorem events_update {site : Site} (hkind : ¬(site.allocType = .placementNew ∨
    site.allocType = .reinterpret)) (type : IRType) :
    (if (M.elementsOf files type).isEmpty = true then []
      else insertUpdate M inlineOpt place site (M.elementsOf files type)) =
      (Sequence.update site type).events M files inlineOpt place := by
  rw [Sequence.events, tracedElements, if_neg hkind]
  split
  · next hempty => exact (insertUpdate_empty site hempty).symm
  · rfl

theorem heapSite_kind (isRealloc isConstant : Bool) (b : Block) :
    ¬((heapSite M isRealloc isConstant b).allocType = .placementNew ∨
      (heapSite M isRealloc isConstant b).allocType = .reinterpret) := by
  cases isRealloc with
  | true => exact fun h => h.elim AllocType.noConfusion AllocType.noConfusion
  | false => exact fun h => h.elim AllocType.noConfusion AllocType.noConfusion

/-- A `new`, a `malloc` or a `realloc`. -/
theorem handleHeapAlloc_sequence (isRealloc isConstant : Bool) (b : Block) :
    handleHeapAlloc M files inlineOpt place isRealloc isConstant b =
      (Sequence.update (heapSite M isRealloc isConstant b) b.type).events M files inlineOpt place :=
  events_update (heapSite_kind isRealloc isConstant b) b.type

/-- Any other call that allocates, if anything is emitted behind it. -/
theorem handleAllocCall_sequence (has : LibFunc → Bool) (isConstant : Bool) (call : CallInst)
    (objAddr : Word) (type : IRType) :
    handleAllocCall has M files inlineOpt place isConstant call objAddr type = [] ∨
      ∃ site, handleAllocCall has M files inlineOpt place isConstant call objAddr type =
        (Sequence.update site type).events M files inlineOpt place := by
  unfold handleAllocCall
  simp only
  split
  · exact .inl rfl
  · next hempty =>
      split
      · exact .inr ⟨_, (if_neg hempty).symm.trans (events_update (heapSite_kind _ _ _) type)⟩
      split
      · refine .inr ⟨_, (if_neg hempty).symm.trans (events_update ?_ type)⟩
        exact heapSite_kind (M := M) false isConstant ⟨objAddr, 0, type⟩
      · exact .inl rfl

/-- A stack object. -/
theorem updateEvents_sequence (o : StackObject) :
    updateEvents M files inlineOpt place o =
      (Sequence.update (allocaSite M o) o.type).events M files inlineOpt place :=
  events_update (fun h => h.elim AllocType.noConfusion AllocType.noConfusion) o.type

/-- A placement new, a `reinterpret_cast` or a global. -/
theorem traceObject_sequence (allocType : AllocType) (isConstant : Bool) (objAddr : Word)
    (type : IRType) : ∃ site, traceObject M files inlineOpt place allocType isConstant objAddr type =
      (Sequence.update site type).events M files inlineOpt place := ⟨_, rfl⟩

/-- A `delete` or a `free`. -/
theorem handleFree_sequence (b : Block) :
    handleFree M files inlineOpt b =
      (Sequence.remove (freeSite M b) b.type).events M files inlineOpt place := rfl

/-- The end of a stack object. -/
theorem removeEvents_sequence (o : StackObject) :
    removeEvents M files inlineOpt o =
      (Sequence.remove (allocaSite M o) o.type).events M files inlineOpt place := by
  rw [removeEvents, Sequence.events, insertRemove]
  split
  · rfl
  · rfl

/-! ## The events of a sequence -/

/-- The offset of a granule is never `-1`. -/
theorem offset_ne_mark (k : ℕ) : BitVec.ofNat 32 (uint32 (k * 8)) ≠ -1 := by
  intro h
  have hval : uint32 (k * 8) % 2 ^ 32 = 2 ^ 32 - 1 := congrArg BitVec.toNat h
  rw [uint32] at hval
  omega

/-- An update stores the offset of a granule. -/
theorem keeps_of_mem_emitEntry {emitType : EmitType} {site : Site} {i : ℕ} {entry : ℕ × Finset ℕ}
    {event : Event} (h : event ∈ emitEntry M inlineOpt place emitType site i entry) (m : GranuleMap) :
    event.Keeps m := by
  have hoffset := offset_ne_mark entry.1
  unfold emitEntry at h
  split at h
  · cases h
  cases emitType with
  | conObjAdd =>
      simp only at h
      split at h
      · rw [List.mem_singleton.mp h]
        exact hoffset
      split at h
      · rw [List.mem_singleton.mp h]
        trivial
      · rw [List.mem_singleton.mp h]
        exact hoffset
  | vlaObjAdd =>
      rcases List.mem_cons.mp h with heq | h
      · rw [heq]
        exact hoffset
      · rw [List.mem_singleton.mp h]
        trivial

theorem keeps_of_mem_insertUpdate {site : Site} {elements : Std.TreeMap ℕ (Finset ℕ)} {event : Event}
    (h : event ∈ insertUpdate M inlineOpt place site elements) (m : GranuleMap) : event.Keeps m := by
  have hobject : ∀ {emitType : EmitType} {i : ℕ},
      event ∈ emitInstForObjTrace M inlineOpt place emitType site i elements → event.Keeps m := by
    intro emitType i hmem
    obtain ⟨entry, -, hmem⟩ := List.mem_flatMap.mp hmem
    exact keeps_of_mem_emitEntry hmem m
  unfold insertUpdate at h
  split at h
  · exact hobject h
  split at h
  · exact hobject h
  split at h
  · obtain ⟨i, -, h⟩ := List.mem_flatMap.mp h
    exact hobject h
  · exact hobject h

/-- A removal in a number that the program fixes clears whole entries. -/
theorem keeps_of_mem_constant {site : Site} {elements : Std.TreeMap ℕ (Finset ℕ)}
    (hconstant : site.allocType ≠ .heapAlloc ∧ site.isConstant = true) {event : Event}
    (h : event ∈ insertRemove inlineOpt site elements) (m : GranuleMap) : event.Keeps m := by
  unfold insertRemove at h
  split at h
  · cases h
  obtain ⟨i, -, h⟩ := List.mem_flatMap.mp h
  obtain ⟨entry, -, h⟩ := List.mem_flatMap.mp h
  unfold emitRemoveEntry at h
  split at h
  · cases h
  simp only at h
  split at h
  · rw [List.mem_singleton.mp h]
    trivial
  · rw [List.mem_singleton.mp h]
    trivial

end Emitted

/-! ## The mark in the first granule -/

section Marks

variable {mmap : ℕ → ℕ} {rodata : Word → Byte} {M : Module} {files : ClassFiles}
  {inlineOpt : Bool} {place : Name → Word} {t t' : Tracked}

/-- Clearing references makes no mark. -/
theorem marked_of_removeCalls (fresh : FreshMmap mmap) {site : Site} {g : ℕ} :
    ∀ (entries : List (ℕ × Finset ℕ)) (t : Tracked), Layout mmap t.shadow →
      (tracker mmap rodata).run (entries.map (removeCall site)) t = some t' →
      (t'.entry g).Marked → (t.entry g).Marked := by
  intro entries
  induction entries with
  | nil => exact fun t _ hrun hmarked => Option.some.inj hrun ▸ hmarked
  | cons entry rest ih =>
      intro t layout hrun hmarked
      obtain ⟨t₁, hstep, hrest⟩ := Option.bind_eq_some_iff.mp hrun
      obtain ⟨hevent, -⟩ := tracker_step_iff.mp hstep
      have hmarked₁ := ih t₁ (event_layout rodata fresh _ _ _ layout hevent) hrest hmarked
      have hchange : Change none (t.entry g) (t₁.entry g) :=
        change_event fresh layout hevent trivial g
      exact hchange.marked hmarked₁

/-- A marked granule has an entry. -/
theorem isSome_of_marked {m : GranuleMap} {g : ℕ} (h : (m.content g).Marked) : (m g).isSome := by
  cases hg : m g with
  | some e => rfl
  | none =>
      refine absurd ?_ h.1
      rw [GranuleMap.content, hg]
      rfl

/-- A loop that does not end does not return. -/
theorem removeCalls_none {site : Site} (hends : ¬ site.Ends) {entries : List (ℕ × Finset ℕ)}
    (hne : entries ≠ []) (fresh : FreshMmap mmap) {s : Shadow} (layout : Layout mmap s) :
    (program mmap rodata).run (entries.map (removeCall site)) s = none := by
  obtain ⟨entry, rest, rfl⟩ := List.exists_cons_of_ne_nil hne
  obtain ⟨hheap, hrest⟩ := not_or.mp hends
  obtain ⟨hrealloc, hlarge⟩ := not_or.mp hrest
  have habstract := (step_spec layout fresh (.eraseObj (site.objAddr + BitVec.ofNat 64 (8 * entry.1))
    site.objAddr (BitVec.ofNat 32 site.typeSize) site.arraySize site.allocType)).2
  rw [Op.abstractStep, if_neg (not_or.mpr ⟨hheap, hrealloc⟩), if_neg hlarge,
    Option.map_eq_none_iff] at habstract
  have hstep : (program mmap rodata).step (removeCall site entry) s = none := habstract
  rw [List.map_cons, Machine.run_cons, hstep]
  rfl

/-- **A sequence that turns no mark** meets what its events ask for. -/
theorem meets_keeps (fresh : FreshMmap mmap) (layout : Layout mmap t.shadow) (q : Sequence)
    (hspares : q.Spares M files t.shadow.view) :
    (tracker mmap rodata).Meets (fun event t => event.Keeps t.shadow.view)
      (q.events M files inlineOpt place) t := by
  cases q with
  | update site type =>
      exact Machine.meets_of_forall (fun event hevent t => keeps_of_mem_insertUpdate hevent _) t
  | remove site type =>
      show Machine.Meets _ _ (insertRemove inlineOpt site (M.elementsOf files type)) t
      by_cases hconstant : site.allocType ≠ .heapAlloc ∧ site.isConstant = true
      · exact Machine.meets_of_forall (fun event hevent t => keeps_of_mem_constant hconstant hevent _) t
      have hloop : site.allocType = .heapAlloc ∨ site.isConstant = false := by
        rw [not_and_or, not_not, Bool.not_eq_true] at hconstant
        exact hconstant
      cases hempty : (M.elementsOf files type).isEmpty with
      | true =>
          rw [insertRemove, if_pos hempty]
          trivial
      | false =>
          rw [insertRemove_eq site hloop type hempty, Machine.meets_append]
          refine ⟨Machine.meets_of_forall (fun event hevent t => ?_) t, fun t₁ hrun => ⟨?_, fun _ _ => trivial⟩⟩
          · obtain ⟨entry, -, rfl⟩ := List.mem_map.mp hevent
            trivial
          · -- a mark that is there at the end was there at the start and has been spared
            intro hnonnull hmarked₁
            have hmarked := marked_of_removeCalls fresh _ t layout hrun hmarked₁
            have hprogram : (program mmap rodata).run ((M.elementsOf files type).toList.map
                (removeCall site)) t.shadow = some t₁.shadow := by
              rw [← tracker_refines, hrun]
              rfl
            have hends : site.Ends := by
              by_contra hends
              have hne : (M.elementsOf files type).toList ≠ [] := fun hnil => by
                rw [← isEmpty_iff_toList, hempty] at hnil
                cases hnil
              rw [removeCalls_none hends hne fresh layout] at hprogram
              cases hprogram
            obtain ⟨s₁, hrun₁, -, -, hcontent⟩ := removeCalls_spec rodata fresh site hends
              (M.elementsOf files type).toList t.shadow layout (isSome_of_marked hmarked)
            obtain rfl := Option.some.inj (hrun₁.symm.trans hprogram)
            refine hspares ⟨hloop, hempty, hends, hnonnull, hmarked, fun e he herases => hmarked₁.1 ?_⟩
            rw [hcontent, if_pos ⟨e, he, herases⟩]

/-- **A removal that turns a mark** makes it look like an allocated object. -/
theorem not_along_of_turnsMark (fresh : FreshMmap mmap) (layout : Layout mmap t.shadow)
    {site : Site} {type : IRType} (hturns : TurnsMark M files site type t.shadow.view) :
    ¬ (tracker mmap rodata).Along Distinguishes KeepsApart
      ((Sequence.remove site type).events M files inlineOpt place) t := by
  intro halong
  rw [Sequence.events, insertRemove_eq site hturns.loop type hturns.traced, Machine.along_append] at halong
  obtain ⟨s₁, hrun₁, hlayout₁, -, hcontent₁⟩ := removeCalls_spec rodata fresh site hturns.ends
    (M.elementsOf files type).toList t.shadow layout (isSome_of_marked hturns.marked)
  rw [← tracker_refines] at hrun₁
  obtain ⟨t₁, hrun, rfl⟩ := Option.map_eq_some_iff.mp hrun₁
  -- the mark is still there when the size is cleared
  have hmarked₁ : (t₁.entry (granule site.objAddr)).Marked := by
    have hspared : ¬ ∃ e ∈ (M.elementsOf files type).toList,
        site.Erases t.shadow.view e.1 (granule site.objAddr) :=
      fun ⟨e, he, herases⟩ => hturns.missed e he herases
    rw [Tracked.entry, hcontent₁, if_neg hspared]
    exact hturns.marked
  obtain ⟨s₂, hs₂, -, hview₂⟩ := call_spec fresh hlayout₁
    (show Op.abstractStep machineAddressing (.directEraseArraySize site.objAddr) t₁.shadow.view =
      some _ from rfl)
  have hstep : (tracker mmap rodata).step (.call (.directEraseArraySize site.objAddr)) t₁ =
      some ⟨s₂, t₁.setter⟩ := tracker_step_iff.mpr ⟨hs₂, rfl⟩
  have hapart := ((halong.2 t₁ hrun).2 _ hstep).1
  refine hapart.marked _ hmarked₁ (fun hset => Option.some_ne_none _ hset.symm) ?_
  rw [Tracked.entry]
  show (s₂.view.content _).Real
  rw [hview₂, if_neg hturns.nonnull, content_modify _ _ _ rfl]
  exact (if_pos rfl).symm ▸ ⟨hmarked₁.1, show (0 : U32) ≠ -1 by decide⟩

/-- The start is laid out, and no reference is set. -/
theorem start_invariant (mem : ℕ → Word) :
    Layout mmap (Tracked.start mmap mem).shadow ∧ Distinguishes (Tracked.start mmap mem) := by
  refine ⟨layout_init mem, fun g hne => absurd ?_ hne⟩
  show ((bitypeInitialization mmap mem).view.content g).reference = 0
  rw [view_init]
  rfl

variable (rodata M files inlineOpt place) in
/-- **When the marks are kept.**  Take any run of allocations, removals, placement news and
`reinterpret_cast`s from the start.  In every state on the way the offset of a set reference
is other than `-1` just if an allocation has set it, a `reinterpret_cast` changes no such
entry, and nothing but an allocation makes an entry that a `reinterpret_cast` has left look
like one; if and only if no removal of the run turns a mark in the state in which it starts. -/
theorem marksKept_iff (fresh : FreshMmap mmap) (mem : ℕ → Word) (run : List Sequence) :
    (tracker mmap rodata).Along Distinguishes KeepsApart
        (run.flatMap fun q => q.events M files inlineOpt place) (Tracked.start mmap mem) ↔
      ((tracker mmap rodata).sequences fun q => q.events M files inlineOpt place).Meets
        (fun q t => q.Spares M files t.shadow.view) run (Tracked.start mmap mem) := by
  have hrun := (tracker mmap rodata).along_of_meets
    (I := fun t => Layout mmap t.shadow ∧ Distinguishes t)
    (C := fun event t => event.Keeps t.shadow.view) (fun t h => h.2)
    (fun event t t' hinv hkeeps hstep => tracker_step fresh hinv hkeeps hstep)
  constructor
  · intro halong
    refine Machine.Meets.mono (I := fun t => Layout mmap t.shadow) (fun q t layout hq => ?_)
      (fun q t t' layout _ hq => ?_) (layout_init mem) (Machine.meets_of_along_flatMap run _ halong)
    · cases q with
      | update site type => trivial
      | remove site type => exact fun hturns => not_along_of_turnsMark fresh layout hturns hq
    · refine (program mmap rodata).run_of_step (event_layout rodata fresh)
        (q.events M files inlineOpt place) t.shadow t'.shadow layout ?_
      rw [← tracker_refines]
      exact Option.map_eq_some_iff.mpr ⟨t', hq, rfl⟩
  · intro hspares
    refine (hrun _ _ (start_invariant mem) ((Machine.meets_flatMap run _).mpr ?_)).1
    refine Machine.Meets.mono (I := fun t => Layout mmap t.shadow ∧ Distinguishes t)
      (fun q t hinv hq => meets_keeps fresh hinv.1 q hq)
      (fun q t t' hinv hq hstep => ?_) (start_invariant mem) hspares
    exact (hrun _ t hinv (meets_keeps fresh hinv.1 q hq)).2 t' hstep

end Marks

/-! ## A block whose first granule has no class -/

/-- Of the classes of `wideModule` only `B` is cast-related. -/
def baseFiles : ClassFiles := initReadFiles ⟨[], [(['B'], 1)], []⟩

/-- In a `D` it starts in granule 4. -/
theorem baseFiles_elements :
    (wideModule.elementsOf baseFiles (.struct 1)).toList = [(4, {2})] := by
  decide +kernel

theorem baseFiles_nonempty :
    (wideModule.elementsOf baseFiles (.struct 1)).isEmpty = false := by
  rw [Bool.eq_false_iff, ne_eq, isEmpty_iff_toList, baseFiles_elements]
  exact List.cons_ne_nil _ _

/-- A `D` is allocated, cast to another class and freed. -/
def castBlock : Block := ⟨4096, 40, .struct 1⟩

def castSite : Site := ⟨.reinterpret, castBlock.addr, 0, 1, false⟩

def castRun : List Sequence :=
  [.update (heapSite wideModule false false castBlock) (.struct 1), .update castSite (.struct 2),
    .remove (freeSite wideModule castBlock) (.struct 1)]

/-- The run of the cast. -/
theorem marksKept_iff_sample :
    (tracker spacedMmap fun _ => 0).Along Distinguishes KeepsApart
        (castRun.flatMap fun q => q.events wideModule baseFiles true fun _ => 64)
        (Tracked.start spacedMmap fun _ => 0) ↔
      ((tracker spacedMmap fun _ => 0).sequences fun q : Sequence =>
          q.events wideModule baseFiles true fun _ => 64).Meets
        (fun q t => q.Spares wideModule baseFiles t.shadow.view) castRun
        (Tracked.start spacedMmap fun _ => 0) :=
  marksKept_iff (fun _ => 0) wideModule baseFiles true (fun _ => 64) spacedMmap_fresh (fun _ => 0)
    castRun

theorem castRun_cast : (Sequence.update castSite (.struct 2)).events wideModule baseFiles true
    (fun _ => 64) = [.call (.handleReinterpretCast castBlock.addr 64 0)] := by
  have helements : (tracedElements wideModule baseFiles .reinterpret (.struct 2)).toList =
      [(0, {2})] := by
    decide +kernel
  show (tracedElements wideModule baseFiles .reinterpret (.struct 2)).toList.flatMap
    (emitEntry wideModule true (fun _ => 64) .conObjAdd castSite 0) = _
  rw [helements, List.flatMap_singleton]
  rfl

/-- The allocation leaves the first granule alone. -/
theorem exists_castBlock : ∃ t, (tracker spacedMmap fun _ => 0).run
      ((Sequence.update (heapSite wideModule false false castBlock) (.struct 1)).events wideModule
        baseFiles true fun _ => 64) (Tracked.start spacedMmap fun _ => 0) = some t ∧
    Layout spacedMmap t.shadow ∧ ¬ (t.entry (granule castBlock.addr)).Real := by
  obtain ⟨s, hrun, hlayout, hrecords⟩ := handleHeapAlloc_spec (fun _ => 0) baseFiles true
    (fun _ => 64) spacedMmap_fresh (b := castBlock) (by decide) baseFiles_nonempty false false
    (layout_init fun _ => 0)
  rw [handleHeapAlloc_sequence] at hrun
  obtain ⟨t, hrun', rfl⟩ := Option.map_eq_some_iff.mp
    ((tracker_refines spacedMmap (fun _ => 0) _ (Tracked.start spacedMmap fun _ => 0)).trans hrun)
  refine ⟨t, hrun', hlayout, fun hreal => hreal.1 ?_⟩
  rcases hrecords.table (granule castBlock.addr) with ⟨e, he, -, hwrites⟩ | ⟨-, hsame⟩
  · rw [castBlock, baseFiles_elements] at he
    obtain rfl := List.mem_singleton.mp he
    exact absurd hwrites (by decide)
  · rw [view_init] at hsame
    exact congrArg Prod.fst hsame

/-- The cast marks it. -/
theorem exists_marked {t : Tracked} (layout : Layout spacedMmap t.shadow)
    (hloose : ¬ (t.entry (granule castBlock.addr)).Real) : ∃ t', (tracker spacedMmap fun _ => 0).run
      ((Sequence.update castSite (.struct 2)).events wideModule baseFiles true fun _ => 64) t =
        some t' ∧
    Layout spacedMmap t'.shadow ∧ t'.entry (granule castBlock.addr) = ⟨64, 0, -1⟩ := by
  obtain ⟨hlayout, hview⟩ := handleReinterpretCast_spec layout spacedMmap_fresh castBlock.addr 64 0
  have hrun : (program spacedMmap fun _ => 0).run ((Sequence.update castSite (.struct 2)).events
      wideModule baseFiles true fun _ => 64) t.shadow =
      some (bitypeHandleReinterpretCast spacedMmap castBlock.addr 64 0 t.shadow) := by
    rw [castRun_cast]
    rfl
  obtain ⟨t', hrun', hshadow⟩ := Option.map_eq_some_iff.mp
    ((tracker_refines spacedMmap (fun _ => 0) _ t).trans hrun)
  rw [← hshadow] at hlayout hview
  refine ⟨t', hrun', hlayout, ?_⟩
  rw [Tracked.entry, hview, content_record, if_pos rfl, reinterpreted_eq]
  exact if_neg hloose

/-- The free finds one object and clears the granule of its `B` only. -/
theorem turnsMark_castBlock {m : GranuleMap}
    (hcontent : m.content (granule castBlock.addr) = ⟨64, 0, -1⟩) :
    TurnsMark wideModule baseFiles (freeSite wideModule castBlock) (.struct 1) m := by
  have hcount : (freeSite wideModule castBlock).erased m = 1 := by
    rw [Site.erased, if_pos (.inl rfl)]
    show heapCount (m.content (granule castBlock.addr)) = 1
    rw [hcontent]
    rfl
  refine ⟨.inl rfl, baseFiles_nonempty, .inl rfl, by decide, ?_, fun e he herases => ?_⟩
  · show (m.content (granule castBlock.addr)).Marked
    rw [hcontent]
    exact ⟨by decide, rfl⟩
  · rw [baseFiles_elements] at he
    obtain rfl := List.mem_singleton.mp he
    rw [Site.Erases, hcount] at herases
    exact absurd herases (by decide)

/-- The free turns the mark of the cast. -/
theorem free_turns_mark :
    ¬ ∀ (mmap : ℕ → ℕ) (rodata : Word → Byte) (M : Module) (files : ClassFiles) (inlineOpt : Bool)
      (place : Name → Word) (mem : ℕ → Word) (run : List Sequence), FreshMmap mmap →
      (∀ name, place name ≠ 0) →
      (tracker mmap rodata).Along Distinguishes KeepsApart
        (run.flatMap fun q => q.events M files inlineOpt place) (Tracked.start mmap mem) := by
  intro hall
  have halong := hall spacedMmap (fun _ => 0) wideModule baseFiles true (fun _ => 64) (fun _ => 0)
    castRun spacedMmap_fresh fun _ => by decide
  obtain ⟨-, hcast⟩ := Machine.meets_of_along_flatMap castRun _ halong
  obtain ⟨t₁, hstep₁, hlayout₁, hloose⟩ := exists_castBlock
  obtain ⟨t₂, hstep₂, hlayout₂, hmarked⟩ := exists_marked hlayout₁ hloose
  exact not_along_of_turnsMark spacedMmap_fresh hlayout₂ (turnsMark_castBlock hmarked)
    ((hcast t₁ hstep₁).2 t₂ hstep₂).1

end Bitype.Pass
