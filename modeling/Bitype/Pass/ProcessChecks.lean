import Bitype.Pass.ArrayCoverage
import Bitype.Pass.Downcast
import Bitype.Pass.TidyRuns

/-!
# Checks in a running program

In every state of a tidy run a check gives the verdict that the objects alive call for,
whatever else has been in memory before (`checks_refine`).

So what has been shown of a check right behind the sequence of its object holds as long as
the object lives: which casts inside an object pass is a matter of its class and of the
tables alone (`process_passes_iff`, `process_downcast_iff`).  That is for arrays laid out so
that no granule gets two different entries (`ElementAt`), and for tables in memory that the pass
has emitted, with a bit for the number (`Tabled`).
-/

namespace Bitype.Pass

open Bitype.Foundations Bitype.Runtime Bitype.Tool

/-! ## Verdicts -/

/-- What the objects say of an address that are alive and traced. -/
def Executable.lookup (X : Executable) (p : Process) (addr : Word) : Option Entry :=
  (lastWrite (X.log p) (granule addr)).map fun value => ⟨value.1, 0, value.2⟩

/-- Two lookups give the same tables, and the same offsets beside them. -/
def SameTables (lookup lookup' : Word → Option Entry) : Prop :=
  ∀ addr, Entry.table? (lookup addr) = Entry.table? (lookup' addr) ∧
    (Entry.table? (lookup addr) ≠ none →
      Entry.offsetOf (lookup addr) = Entry.offsetOf (lookup' addr))

section Verdicts

variable {mmap : ℕ → ℕ} {rodata : Word → Byte} {X : Executable} {p p' : Process} {s : Shadow}
  {lookup lookup' : Word → Option Entry}

/-- A verdict asks for no more than the tables and the offsets beside them. -/
theorem SameTables.verdict_eq (h : SameTables lookup lookup') (sourcePtr thisPtr : Word)
    (index : U32) (code : Byte) : verdict rodata lookup sourcePtr thisPtr index code =
      verdict rodata lookup' sourcePtr thisPtr index code := by
  obtain ⟨hsource, hoffset⟩ := h sourcePtr
  obtain ⟨hthis, -⟩ := h thisPtr
  unfold verdict
  rw [← hsource, ← hthis]
  cases htable : Entry.table? (lookup sourcePtr) with
  | none => rfl
  | some table =>
      rw [hoffset (by rw [htable]; exact Option.some_ne_none _)]

theorem SameTables.inlineReports (h : SameTables lookup lookup') (sourcePtr thisPtr : Word)
    (index : U32) (code : Byte) : InlineReports rodata lookup sourcePtr thisPtr index code ↔
      InlineReports rodata lookup' sourcePtr thisPtr index code := by
  unfold InlineReports
  rw [(h thisPtr).1]

/-- What a check finds in a granule, by what the granule shows. -/
theorem shows_lookup {log : TraceLog} {addr : Word} (h : Shows log s (granule addr)) :
    Entry.table? (s.lookup addr) =
        Entry.table? ((lastWrite log (granule addr)).map fun value => ⟨value.1, 0, value.2⟩) ∧
      (Entry.table? (s.lookup addr) ≠ none → Entry.offsetOf (s.lookup addr) =
        Entry.offsetOf ((lastWrite log (granule addr)).map fun value => ⟨value.1, 0, value.2⟩)) := by
  have hcontent : ∀ e : Option Entry, Entry.table? e =
      if (e.getD Entry.zero).reference = 0 then none else some (e.getD Entry.zero).reference := by
    intro e
    cases e with
    | none => rfl
    | some e => rfl
  rw [lookup_eq_view, hcontent, hcontent]
  cases hlast : lastWrite log (granule addr) with
  | none =>
      have hzero : ((s.view (granule addr)).getD Entry.zero).reference = 0 :=
        (shows_of_none hlast).mp h
      rw [if_pos hzero]
      exact ⟨rfl, fun hne => absurd rfl hne⟩
  | some value =>
      obtain ⟨hreference, hoffset⟩ := Prod.mk.inj ((shows_of_some hlast).mp h)
      unfold GranuleMap.content at hreference hoffset
      rw [hreference]
      exact ⟨rfl, fun _ => hoffset⟩

theorem ProcessInvariant.sameTables (inv : ProcessInvariant mmap X p) :
    SameTables p.shadow.lookup (X.lookup p) := fun addr => shows_lookup (inv.shows (granule addr))

open Classical in
/-- **Checks see the objects that are alive.**  In every state of every tidy run each form of check
does and returns what the objects call for that are alive and traced; what has been in memory
before, and in which order the objects came, makes no difference. -/
theorem checks_refine (fresh : FreshMmap mmap) (hreach : TidyReachable mmap rodata X p)
    (sourcePtr thisPtr : Word) (index : U32) (code : Byte) (debugIndex : U32) :
    bitypeVerifyCast rodata sourcePtr thisPtr index code debugIndex p.shadow =
        (verdict rodata (X.lookup p) sourcePtr thisPtr index code).result sourcePtr thisPtr
          debugIndex p.shadow ∧
      bitypeDynamicCastVerification rodata thisPtr index code p.shadow =
        (verdict rodata (X.lookup p) thisPtr thisPtr index code).result thisPtr thisPtr (-1)
          p.shadow ∧
      inlineVerification rodata sourcePtr thisPtr index code debugIndex p.shadow =
        if InlineReports rodata (X.lookup p) sourcePtr thisPtr index code then
          (printConfusionInline debugIndex p.shadow, true)
        else (p.shadow, false) := by
  have hsame := (hreach.invariant fresh).sameTables
  refine ⟨?_, ?_, ?_⟩
  · rw [verifyCast_eq, hsame.verdict_eq]
  · rw [bitypeDynamicCastVerification, verifyCast_eq, hsame.verdict_eq]
  · rw [inlineVerification_eq]
    simp only [hsame.inlineReports]

open Classical in
/-- A check of the block, while the call is open. -/
theorem checks_refine_sample : ∃ p, TidyReachable spacedMmap (fun _ => 0) earlyProgram p ∧
    bitypeVerifyCast (fun _ => 0) 8192 8192 0 1 0 p.shadow =
      (verdict (fun _ => 0) (earlyProgram.lookup p) 8192 8192 0 1).result 8192 8192 0 p.shadow := by
  obtain ⟨s, hreach⟩ := exists_earlyRun (fun _ => 0) spacedMmap_fresh
  exact ⟨_, hreach, (checks_refine spacedMmap_fresh hreach 8192 8192 0 1 0).1⟩

/-! ### History -/

/-- Two tables with the same owners show the same. -/
theorem ProcessInvariant.sameTables_of_perm {mmap' : ℕ → ℕ} (inv : ProcessInvariant mmap X p)
    (inv' : ProcessInvariant mmap' X p') (hsame : (X.owners p).Perm (X.owners p')) :
    SameTables p.shadow.lookup p'.shadow.lookup := by
  intro addr
  have hlog : ∃ log, Shows log p.shadow (granule addr) ∧ Shows log p'.shadow (granule addr) := by
    by_cases howner : ∃ w ∈ X.owners p, granule addr ∈ X.footprint w
    · obtain ⟨w, hw, hg⟩ := howner
      exact ⟨X.ownerLog w, Executable.shows_ownerLog (inv.owned.good w hw) hg,
        Executable.shows_ownerLog (inv'.owned.good w (hsame.subset hw)) hg⟩
    · have hfree : ∀ w ∈ X.owners p, granule addr ∉ X.footprint w :=
        fun w hw hg => howner ⟨w, hw, hg⟩
      exact ⟨[], inv.owned.blank _ hfree,
        inv'.owned.blank _ fun w hw => hfree w (hsame.symm.subset hw)⟩
  obtain ⟨log, hshows, hshows'⟩ := hlog
  obtain ⟨htable, hoffset⟩ := shows_lookup hshows
  obtain ⟨htable', hoffset'⟩ := shows_lookup hshows'
  refine ⟨htable.trans htable'.symm, fun hne => (hoffset hne).trans (hoffset' ?_).symm⟩
  rw [htable', ← htable]
  exact hne

/-- **Checks do not depend on history.**  Take two tidy runs of a program, in whatever order
their steps have come and wherever the runtime has mapped its pages.  If the same calls are
open and the same blocks are alive, every check has the same verdict in both. -/
theorem verdicts_of_owners {mmap' : ℕ → ℕ} {rodata' : Word → Byte} (fresh : FreshMmap mmap)
    (fresh' : FreshMmap mmap') (hreach : TidyReachable mmap rodata X p)
    (hreach' : TidyReachable mmap' rodata' X p') (hcalls : p.calls.Perm p'.calls)
    (hlive : p.live.Perm p'.live) (sourcePtr thisPtr : Word) (index : U32) (code : Byte) :
    verdict rodata p.shadow.lookup sourcePtr thisPtr index code =
        verdict rodata p'.shadow.lookup sourcePtr thisPtr index code ∧
      (InlineReports rodata p.shadow.lookup sourcePtr thisPtr index code ↔
        InlineReports rodata p'.shadow.lookup sourcePtr thisPtr index code) := by
  have howners : (X.owners p).Perm (X.owners p') :=
    (hcalls.map _).append ((hlive.map _).append_right _)
  have hsame := (hreach.invariant fresh).sameTables_of_perm (hreach'.invariant fresh') howners
  exact ⟨hsame.verdict_eq .., hsame.inlineReports ..⟩

/-- A second block. -/
def nearBlock : Block := ⟨4096, 40, .struct 1⟩

theorem nearBlock_usable : nearBlock.Usable wideModule := by
  refine ⟨by decide, by decide, ?_, by decide⟩
  show 4096 + max 1 40 ≤ 2 ^ 48
  decide

theorem nearBlock_granule {g : ℕ} (h : nearBlock.Granule g) : g < 1024 := by
  rcases h with rfl | ⟨a, -, hend, rfl⟩
  · decide
  · have haddr : nearBlock.addr.toNat = 4096 := by decide
    have hsize : nearBlock.size.toNat = 40 := by decide
    omega

variable (mmap rodata) in
/-- A run that allocates one block and then the other. -/
theorem exists_twoBlocks (fresh : FreshMmap mmap) {a b : Block}
    (ha : a.Usable wideModule ∧ arraySizeF wideModule a ≠ 0)
    (hb : b.Usable wideModule ∧ arraySizeF wideModule b ≠ 0)
    (hapart : ∀ g, b.Granule g → ¬ a.Granule g) :
    ∃ s, TidyReachable mmap rodata earlyProgram ⟨s, [], [b, a]⟩ := by
  have hstart : TidyReachable mmap rodata earlyProgram
      ⟨bitypeInitialization mmap fun _ => 0, [], []⟩ := ⟨_, ⟨fun _ => 0, _, rfl, rfl⟩, .refl⟩
  obtain ⟨s₁, hfirst⟩ := hstart.alloc fresh ha.1 ha.2 fun w hw => absurd hw List.not_mem_nil
  refine hfirst.alloc fresh hb.1 hb.2 fun w hw g hg => ?_
  obtain rfl := List.mem_singleton.mp hw
  exact hapart g hg

/-- Two blocks, in both orders. -/
theorem verdicts_of_owners_sample : ∃ p p', p ≠ p' ∧
    TidyReachable spacedMmap (fun _ => 0) earlyProgram p ∧
    TidyReachable spacedMmap (fun _ => 0) earlyProgram p' ∧
    verdict (fun _ => 0) p.shadow.lookup 8192 8192 0 1 =
      verdict (fun _ => 0) p'.shadow.lookup 8192 8192 0 1 := by
  have hnear : nearBlock.Usable wideModule ∧ arraySizeF wideModule nearBlock ≠ 0 :=
    ⟨nearBlock_usable, by decide⟩
  have hfar : farBlock.Usable wideModule ∧ arraySizeF wideModule farBlock ≠ 0 :=
    ⟨farBlock_usable, by decide⟩
  have hapart : ∀ g, farBlock.Granule g → ¬ nearBlock.Granule g := fun g hg hg' =>
    absurd (farBlock_granule hg) (Nat.not_le.mpr (nearBlock_granule hg'))
  obtain ⟨s, hreach⟩ := exists_twoBlocks spacedMmap (fun _ => 0) spacedMmap_fresh hnear hfar hapart
  obtain ⟨s', hreach'⟩ := exists_twoBlocks spacedMmap (fun _ => 0) spacedMmap_fresh hfar hnear
    fun g hg hg' => hapart g hg' hg
  refine ⟨_, _, fun hsame => ?_, hreach, hreach', (verdicts_of_owners spacedMmap_fresh
    spacedMmap_fresh hreach hreach' (.refl _) (.swap _ _ _) 8192 8192 0 1).1⟩
  have hlive : [farBlock, nearBlock] = [nearBlock, farBlock] := congrArg Process.live hsame
  have haddr : (8192 : Word) = 4096 := congrArg Block.addr (List.cons.inj hlive).1
  exact absurd haddr (by decide)

end Verdicts

/-! ## Casts inside an object -/

/-- Objects of a type that are alive and traced, with where and how they have been made. -/
inductive Executable.Alive (X : Executable) (p : Process) : Site → IRType → Prop
  | block {b : Block} (hb : b ∈ p.live) : X.Alive p (heapSite X.M false false b) b.type
  | object {c : OpenCall} {o : StackObject} (hc : c ∈ p.calls) (halloca : IsAlloca c.fn.F o.alloca)
      (ho : (o, true) ∈ c.marked o.alloca) : X.Alive p (allocaSite X.M o) o.type
  | global {gv : GlobalVariable} (hgv : gv ∈ X.globals) (hreserved : gv.isReserved = false)
      (hinteresting : X.M.isInterestingType gv.valueType = true) :
      X.Alive p (gv.site X.M) gv.allocaType

/-- The number of objects of a site, as its sequence counts them. -/
def Site.objects (site : Site) : ℕ :=
  if site.isConstant = true ∧ site.allocType ≠ .heapAlloc then site.arraySize.toNat
  else (site.arraySize.setWidth 32).toNat

section Casts

variable {mmap : ℕ → ℕ} {rodata : Word → Byte} {X : Executable} {p : Process} {site : Site}
  {type : IRType}

/-- The sites of live objects are those of `new`, of allocas and of global variables. -/
theorem Executable.Alive.site_eq (h : X.Alive p site type) :
    (site.allocType = .heapAlloc ∨ site.allocType = .stackAlloc ∨ site.allocType = .globalAlloc) ∧
      site.typeSize = uint32 (X.M.getTypeAllocSize type) := by
  cases h with
  | block hb => exact ⟨.inl rfl, rfl⟩
  | object hc halloca ho => exact ⟨.inr (.inl rfl), rfl⟩
  | global hgv hreserved hinteresting => exact ⟨.inr (.inr rfl), rfl⟩

/-- **What a live object has written** is in the table. -/
theorem ProcessInvariant.alive (inv : ProcessInvariant mmap X p) (h : X.Alive p site type) {g : ℕ}
    {value : Word × U32}
    (hlast : lastWrite (objectLog X.M X.place site (X.M.elementsOf X.files type)) g = some value) :
    tableAt p.shadow.view g = value := by
  have hwrite := mem_of_lastWrite hlast
  cases h with
  | @block b hb =>
      have hsound : X.BlockSound b p.shadow := inv.owned.good _ (block_mem_owners.mpr hb)
      have htraced : b.Traced X.M X.files g := Block.exists_mem_log.mp ⟨_, hwrite, rfl⟩
      exact (shows_of_some hlast).mp
        (hsound.shows g (.inr (covers_of_traced X.fitting hsound.usable htraced)))
  | @object c o hc halloca ho =>
      have hsound : c.Sound p.shadow := inv.owned.good _ (call_mem_owners.mpr hc)
      obtain ⟨hM, hfiles, -, hplace⟩ := X.shared c.fn (inv.functions c hc)
      have hshows := (List.forall₂_iff_zip.mp (hsound.shows _ halloca)).2 ho
      rw [ObjectShows, hM, hfiles, hplace] at hshows
      have htracks : o.Tracks X.M X.files g := StackObject.exists_mem_log.mp ⟨_, hwrite, rfl⟩
      exact (shows_of_some hlast).mp (hshows g (.inr htracks))
  | @global gv hgv hreserved hinteresting =>
      have hgood : X.Good (.global gv) p.shadow := inv.owned.good _ (global_mem_owners.mpr hgv)
      have hoffsets : gv.offsets X.M X.files = X.M.elementsOf X.files gv.allocaType := by
        rw [GlobalVariable.offsets, if_neg (Bool.eq_false_iff.mp hreserved), if_pos hinteresting]
      rw [← hoffsets] at hlast hwrite
      exact (shows_of_some hlast).mp (hgood g (.inr ⟨_, hwrite, rfl⟩))

/-! ### The log of an array -/

theorem entryLog_con {M : Module} {place : Name → Word} {n j : ℕ} (hj : j < n)
    {entry : ℕ × Finset ℕ} (hreach : InReach site n entry) :
    entryLog M place site .conObjAdd j entry =
      [placed M place site.objAddr site.typeSize j entry] := by
  obtain ⟨hne, hsmall, hrange⟩ := hreach
  have hoffset : uint32 (entry.1 * 8) = 8 * entry.1 := by
    rw [Nat.mul_comm]
    exact uint32_of_lt hsmall
  rw [entryLog, if_neg hne]
  simp only [hoffset, uint32_of_lt (hrange j hj)]
  rfl

theorem entryLog_vla {M : Module} {place : Name → Word} {entry : ℕ × Finset ℕ}
    (hreach : InReach site (site.arraySize.setWidth 32).toNat entry) :
    entryLog M place site .vlaObjAdd 0 entry =
      (List.range (site.arraySize.setWidth 32).toNat).map fun j =>
        placed M place site.objAddr site.typeSize j entry := by
  obtain ⟨hne, hsmall, hrange⟩ := hreach
  have hoffset : uint32 (entry.1 * 8) = 8 * entry.1 := by
    rw [Nat.mul_comm]
    exact uint32_of_lt hsmall
  rw [entryLog, if_neg hne]
  simp only [hoffset, Nat.mul_zero, Nat.add_zero, uint32_of_lt hsmall]
  apply List.map_congr_left
  intro j hj
  rw [element_objectGranule _ (hrange j (List.mem_range.mp hj))]
  rfl

/-- The entries of the elements of an array are in reach, also if it has no elements. -/
theorem inReach_objects {M : Module} (files : ClassFiles) (hlaid : M.WellLaid type)
    (hsize : site.objects * M.getTypeAllocSize type < 2 ^ 32)
    (hsame : 0 < site.objects → site.typeSize = M.getTypeAllocSize type) :
    ∀ e ∈ (M.elementsOf files type).toList, InReach site site.objects e := by
  intro e he
  rcases Nat.eq_zero_or_pos site.objects with hzero | hpos
  · obtain ⟨hsmall, hne⟩ := entries_of_elementsOf type e he
    rw [hzero]
    exact ⟨hne, by omega, fun j hj => absurd hj (Nat.not_lt_zero j)⟩
  · exact inReach_of_size files hlaid hsize hpos (hsame hpos) e he

/-- **What is written for an array**, element by element. -/
theorem mem_objectLog {M : Module} {files : ClassFiles} (place : Name → Word)
    (hkind : site.allocType = .heapAlloc ∨ site.allocType = .stackAlloc ∨
      site.allocType = .globalAlloc)
    (htype : site.typeSize = uint32 (M.getTypeAllocSize type)) (hlaid : M.WellLaid type)
    (hsize : site.objects * M.getTypeAllocSize type < 2 ^ 32) (write : ℕ × (Word × U32)) :
    write ∈ objectLog M place site (M.elementsOf files type) ↔
      ∃ entry ∈ (M.elementsOf files type).toList, ∃ j < site.objects,
        placed M place site.objAddr (M.getTypeAllocSize type) j entry = write := by
  have hnew : site.allocType ≠ .realloc ∧ site.allocType ≠ .placementNew := by
    rcases hkind with hkind | hkind | hkind <;> rw [hkind] <;> decide
  have hsame : 0 < site.objects → site.typeSize = M.getTypeAllocSize type := fun hpos =>
    htype.trans (uint32_of_lt (size_lt_of_pos hpos hsize))
  have hreach := inReach_objects files hlaid hsize hsame
  have hplaced : ∀ j < site.objects, ∀ e,
      placed M place site.objAddr site.typeSize j e =
        placed M place site.objAddr (M.getTypeAllocSize type) j e := fun j hj e => by
    rw [hsame (Nat.zero_lt_of_lt hj)]
  unfold objectLog
  rw [if_neg hnew.1, if_neg hnew.2]
  by_cases hconstant : site.isConstant = true ∧ site.allocType ≠ .heapAlloc
  · -- element after element
    have hobjects : site.arraySize.toNat = site.objects := (if_pos hconstant).symm
    rw [if_pos hconstant, hobjects]
    constructor
    · intro hwrite
      obtain ⟨j, hj, hwrite⟩ := List.mem_flatMap.mp hwrite
      obtain ⟨e, he, hwrite⟩ := List.mem_flatMap.mp hwrite
      rw [List.mem_range] at hj
      rw [entryLog_con hj (hreach e he), List.mem_singleton] at hwrite
      exact ⟨e, he, j, hj, (hwrite.trans (hplaced j hj e)).symm⟩
    · intro h
      obtain ⟨e, he, j, hj, rfl⟩ := h
      refine List.mem_flatMap.mpr ⟨j, List.mem_range.mpr hj, List.mem_flatMap.mpr ⟨e, he, ?_⟩⟩
      rw [entryLog_con hj (hreach e he), hplaced j hj e]
      exact List.mem_singleton_self _
  · -- entry after entry
    have hobjects : (site.arraySize.setWidth 32).toNat = site.objects := (if_neg hconstant).symm
    rw [← hobjects] at hreach
    rw [if_neg hconstant, List.mem_flatMap]
    refine exists_congr fun e => and_congr_right fun he => ?_
    rw [entryLog_vla (hreach e he), hobjects, List.mem_map]
    constructor
    · intro h
      obtain ⟨j, hj, hwrite⟩ := h
      rw [List.mem_range] at hj
      exact ⟨j, hj, (hplaced j hj e).symm.trans hwrite⟩
    · intro h
      obtain ⟨j, hj, hwrite⟩ := h
      exact ⟨j, List.mem_range.mpr hj, (hplaced j hj e).trans hwrite⟩

/-! ### Elements -/

/-- The address of an element. -/
def Site.element (site : Site) (typeSize j : ℕ) : Word :=
  site.objAddr + BitVec.ofNat 64 (typeSize * j)

theorem objectGranule_element {typeSize j : ℕ}
    (haligned : (site.element typeSize j).toNat % 8 = 0) (k : ℕ) :
    objectGranule site.objAddr typeSize k j = granuleAt (site.element typeSize j) k := by
  calc objectGranule site.objAddr typeSize k j
      = granule (site.element typeSize j + BitVec.ofNat 64 (8 * k)) := by
        rw [objectGranule, Site.element, BitVec.add_assoc, ← BitVec.ofNat_add, Nat.add_comm]
    _ = granuleAt (site.element typeSize j) (8 * k / 8) := granule_offset haligned _
    _ = granuleAt (site.element typeSize j) k := by rw [Nat.mul_div_cancel_left k (by decide)]

variable {x j oD oB : ℕ}

/-- Where an element of a live array is, and how the array lies in memory: no granule is
written for two of its entries. -/
structure Executable.ElementAt (X : Executable) (p : Process) (site : Site) (x j : ℕ) : Prop where
  alive : X.Alive p site (.struct x)
  laid : X.M.WellLaid (.struct x)
  size : site.objects * (X.M.struct x).allocSize < 2 ^ 32
  agreeing : Agreeing X.M X.files (.struct x) site.objects site.objAddr
  lt : j < site.objects
  object : ObjectAt X.M x (site.element (X.M.struct x).allocSize j)

/-- **What a check sees in a live object** is what its sequence has written. -/
theorem ProcessInvariant.seen_element (inv : ProcessInvariant mmap X p)
    (hplace : ∀ name, X.place name ≠ 0) (h : X.ElementAt p site x j) (k : ℕ) :
    seen (p.shadow.view (granuleAt (site.element (X.M.struct x).allocSize j) k)) =
      seenAfter X.M X.files X.place site.allocType (site.element (X.M.struct x).allocSize j)
        (.struct x) p.shadow k := by
  obtain ⟨hkind, htype⟩ := h.alive.site_eq
  have helements : tracedElements X.M X.files site.allocType (.struct x) =
      X.M.elementsOf X.files (.struct x) := by
    apply if_neg
    rcases hkind with hkind | hkind | hkind <;> rw [hkind] <;> decide
  unfold seenAfter
  cases hlookup : (tracedElements X.M X.files site.allocType (.struct x))[k]? with
  | none => rfl
  | some types =>
      dsimp only
      split
      · rw [helements] at hlookup
        have hentry : (k, types) ∈ (X.M.elementsOf X.files (.struct x)).toList :=
          mem_toList.mpr hlookup
        have hlast := h.agreeing.lastWrite
          (mem_objectLog X.place hkind htype h.laid h.size) hentry h.lt
        have htable := inv.alive h.alive hlast
        rw [← objectGranule_element h.object.aligned]
        exact seen_of_tableAt htable (hplace _)
      · rfl

/-- Casts from and to granules of a live object that have classes. -/
theorem ProcessInvariant.passes_iff (inv : ProcessInvariant mmap X p)
    (hplace : ∀ name, X.place name ≠ 0) (h : X.ElementAt p site x j) (hle : oD ≤ oB)
    (hlt : oB < (X.M.struct x).allocSize)
    (hclasses : ∀ o, o = oD ∨ o = oB → ∃ types, GranuleClasses X.M X.files site.allocType x o types)
    (code : ℕ) (debugIndex : U32) :
    Passes rodata p.shadow (site.element (X.M.struct x).allocSize j + BitVec.ofNat 64 oB)
        (site.element (X.M.struct x).allocSize j + BitVec.ofNat 64 oD) code debugIndex ↔
      DowncastPasses X.M X.files rodata X.place site.allocType x oD oB code :=
  Pass.passes_iff h.object.aligned h.object.nonnull h.object.fits hle hlt
    (fun o ho hnone => absurd (hclasses o ho) hnone) (fun k _ => inv.seen_element hplace h k)
    code debugIndex

variable {d : ℕ} {code : ℕ}

/-- **Which casts inside a live object pass.**  In every state of every tidy run, and whatever
has been in its memory before: those within reach whose number belongs to a class that the table
of the derived granule was made from. -/
theorem process_passes_iff (fresh : FreshMmap mmap) (hplace : ∀ name, X.place name ≠ 0)
    (hreach : TidyReachable mmap rodata X p) (hfiles : FromTool X.files)
    (h : X.ElementAt p site x j) (hle : oD ≤ oB) (hlt : oB < (X.M.struct x).allocSize)
    (hclasses : ∀ o, o = oD ∨ o = oB → ∃ types, GranuleClasses X.M X.files site.allocType x o types)
    {name : Name} (hcode : X.files.bitypeCodeMap[name]? = some code)
    (htables : ∀ types, GranuleClasses X.M X.files site.allocType x oD types →
      ∃ origin, Tabled X.M X.files rodata X.place types origin code) (debugIndex : U32) :
    Passes rodata p.shadow (site.element (X.M.struct x).allocSize j + BitVec.ofNat 64 oB)
        (site.element (X.M.struct x).allocSize j + BitVec.ofNat 64 oD) code debugIndex ↔
      WithinReach oD oB ∧ ∃ types origin, GranuleClasses X.M X.files site.allocType x oD types ∧
        Tabled X.M X.files rodata X.place types origin code ∧ origin.Accepts X.M X.files code := by
  have hsource := hclasses oB (.inr rfl)
  rw [(hreach.invariant fresh).passes_iff hplace h hle hlt hclasses,
    downcastPasses_iff hfiles hcode htables, DowncastAllowed]
  simp only [hsource, true_and, not_true_eq_false, false_and, or_false]

/-- What is alive has no mark of a placement or of a reinterpretation. -/
theorem Executable.Alive.allocType_ne {type : IRType} (h : X.Alive p site type) :
    site.allocType ≠ .placementNew ∧ site.allocType ≠ .reinterpret := by
  rcases h.site_eq.1 with hkind | hkind | hkind <;> rw [hkind] <;> decide

/-- Where a subobject of an element starts, the granule has classes. -/
theorem Executable.ElementAt.classes (h : X.ElementAt p site x j)
    (hregular : X.M.Regular X.files (.struct x)) {o b : ℕ} (hb : X.M.Contains (.struct x) o b) :
    ∃ types, GranuleClasses X.M X.files site.allocType x o types := by
  have hsize : (X.M.struct x).allocSize < 2 ^ 32 :=
    size_lt_of_pos (Nat.zero_lt_of_lt h.lt) h.size
  obtain ⟨types, -, htypes, -⟩ :=
    granuleClasses_of_contains h.alive.allocType_ne hregular hsize hb
  exact ⟨types, htypes⟩

/-- Legal downcasts inside an element of a live array. -/
theorem TidyReachable.legal_passes_iff {R : ToolRun} (fresh : FreshMmap mmap)
    (hplace : ∀ name, X.place name ≠ 0) (hreach : TidyReachable mmap rodata X p)
    (hfiles : X.files = filesOf R) (hrefine : R.Refining) (hfamily : OneFamily R X.M x)
    (h : X.ElementAt p site x j) (hlegal : LegalDowncast X.M X.files x oD oB d)
    (hbase : ∃ b, X.M.Contains (.struct x) oB b)
    (hcode : X.files.bitypeCodeMap[X.M.typeName d]? = some code)
    (htables : GranuleTabled X.M X.files rodata X.place site.allocType x oD) (debugIndex : U32) :
    Passes rodata p.shadow (site.element (X.M.struct x).allocSize j + BitVec.ofNat 64 oB)
        (site.element (X.M.struct x).allocSize j + BitVec.ofNat 64 oD) code debugIndex ↔
      WithinReach oD oB := by
  have hsize : (X.M.struct x).allocSize < 2 ^ 32 :=
    size_lt_of_pos (Nat.zero_lt_of_lt h.lt) h.size
  obtain ⟨b, hb⟩ := hbase
  have hboth : ∀ o, o = oD ∨ o = oB →
      ∃ types, GranuleClasses X.M X.files site.allocType x o types := by
    intro o ho
    rcases ho with rfl | rfl
    · exact h.classes hlegal.regular hlegal.derived
    · exact h.classes hlegal.regular hb
  rw [(hreach.invariant fresh).passes_iff hplace h hlegal.le hlegal.lt_size hboth]
  rw [hfiles] at hlegal hcode htables ⊢
  exact downcastPasses_of_madeFor h.alive.allocType_ne hsize hrefine hfamily hlegal hb hcode htables

/-- **Which legal downcasts inside a live object pass.**  In every state of every tidy run exactly
those within reach, if the tables were made for the granules and the classes are of one
family. -/
theorem process_downcast_iff {R : ToolRun} (fresh : FreshMmap mmap)
    (hplace : ∀ name, X.place name ≠ 0) (hreach : TidyReachable mmap rodata X p)
    (hfiles : X.files = filesOf R) (hrefine : R.Refining) (hfamily : OneFamily R X.M x)
    (h : X.ElementAt p site x j) (hlegal : LegalDowncast X.M X.files x oD oB d)
    (hbase : ∃ b, X.M.Contains (.struct x) oB b)
    (hcode : X.files.bitypeCodeMap[X.M.typeName d]? = some code)
    (htables : GranuleTabled X.M X.files rodata X.place site.allocType x oD) (debugIndex : U32) :
    Passes rodata p.shadow (site.element (X.M.struct x).allocSize j + BitVec.ofNat 64 oB)
        (site.element (X.M.struct x).allocSize j + BitVec.ofNat 64 oD) code debugIndex ↔
      WithinReach oD oB :=
  hreach.legal_passes_iff fresh hplace hfiles hrefine hfamily h hlegal hbase hcode htables debugIndex

/-! ### A `D` on the heap -/

theorem pairModule_fitting : pairModule.Fitting := by
  have hstruct : ∀ a, pairModule.struct a = pairModule.struct 1 ∨
      pairModule.struct a = pairModule.struct 2 ∨ pairModule.struct a = pairModule.struct 3 := by
    intro a
    by_cases h₁ : a = 1
    · exact .inl (h₁ ▸ rfl)
    · by_cases h₂ : a = 2
      · exact .inr (.inl (h₂ ▸ rfl))
      · exact .inr (.inr (((if_neg h₁).trans (if_neg h₂)).trans rfl))
  have hlisted : ∀ a ∈ [1, 2, 3], (∀ e ∈ (pairModule.struct a).elements,
      e.1 + pairModule.getTypeAllocSize e.2 ≤ (pairModule.struct a).allocSize) ∧
        0 < (pairModule.struct a).allocSize := by decide
  refine ⟨fun a => ?_, fun a _ => ?_⟩
  · rcases hstruct a with h | h | h <;> rw [h] <;> exact (hlisted _ (by decide)).1
  · rcases hstruct a with h | h | h <;> rw [h] <;> exact (hlisted _ (by decide)).2

/-- A program with the class `D`. -/
def pairProgram (R : ToolRun) : Executable where
  M := pairModule
  fitting := pairModule_fitting
  files := filesOf R
  inlineOpt := true
  place _ := 4096
  globals := []
  apart := .nil
  functions := []
  shared _ hI := absurd hI List.not_mem_nil

/-- A block with one `D`. -/
def lowBlock : Block := ⟨16, 8, .struct 1⟩

theorem lowBlock_usable : lowBlock.Usable pairModule := by
  refine ⟨by decide, by decide, ?_, by decide⟩
  show 16 + max 1 8 ≤ 2 ^ 48
  decide

variable (rodata) in
theorem exists_lowBlock (R : ToolRun) (fresh : FreshMmap mmap) :
    ∃ s, TidyReachable mmap rodata (pairProgram R) ⟨s, [], [lowBlock]⟩ := by
  have hstart : TidyReachable mmap rodata (pairProgram R)
      ⟨bitypeInitialization mmap fun _ => 0, [], []⟩ := ⟨_, ⟨fun _ => 0, _, rfl, rfl⟩, .refl⟩
  have hroom : arraySizeF pairModule lowBlock ≠ 0 := by decide
  exact hstart.alloc fresh lowBlock_usable hroom fun w hw => absurd hw List.not_mem_nil

/-- The only element of the block. -/
theorem lowBlock_element (R : ToolRun) (s : Shadow) :
    (pairProgram R).ElementAt ⟨s, [], [lowBlock]⟩ (heapSite pairModule false false lowBlock) 1 0 := by
  have hone : (heapSite pairModule false false lowBlock).objects = 1 := by decide
  have haddr : (heapSite pairModule false false lowBlock).element 8 0 = 16 := by decide
  refine ⟨.block List.mem_cons_self, pairModule_regular.wellLaid, ?_, ?_, ?_, ?_⟩
  · rw [hone]
    show 1 * (pairModule.struct 1).allocSize < 2 ^ 32
    decide
  · rw [hone]
    exact agreeing_one _ _ _ _
  · rw [hone]
    decide
  · show ObjectAt pairModule 1 ((heapSite pairModule false false lowBlock).element 8 0)
    rw [haddr]
    exact pairModule_objectAt

/-- What is traced for a heap block is traced for a stack object. -/
theorem granuleClasses_heap {M : Module} {files : ClassFiles} {o : ℕ} {types : Finset ℕ} :
    GranuleClasses M files .heapAlloc x o types ↔ GranuleClasses M files .stackAlloc x o types := by
  have hsame : tracedElements M files .heapAlloc (.struct x) =
      tracedElements M files .stackAlloc (.struct x) := by
    rw [tracedElements, tracedElements, if_neg (by decide), if_neg (by decide)]
  rw [GranuleClasses, GranuleClasses, hsame]

theorem lowBlock_tabled {R : ToolRun} (hR : PairRun R) : GranuleTabled pairModule (filesOf R)
    (placeTable 4096 pairTable) (fun _ => 4096) .heapAlloc 1 0 := fun types htypes =>
  hR.tabled (by decide) types (granuleClasses_heap.mp htypes)

/-- A check of the block from its base `B`. -/
theorem process_downcast_iff_sample : ∃ (R : ToolRun) (p : Process),
    TidyReachable spacedMmap (placeTable 4096 pairTable) (pairProgram R) p ∧
      (Passes (placeTable 4096 pairTable) p.shadow
          ((heapSite pairModule false false lowBlock).element 8 0 + BitVec.ofNat 64 4)
          ((heapSite pairModule false false lowBlock).element 8 0 + BitVec.ofNat 64 0) 1 0 ↔
        WithinReach 0 4) := by
  obtain ⟨R, hR⟩ := exists_pairRun
  obtain ⟨s, hreach⟩ := exists_lowBlock (placeTable 4096 pairTable) R spacedMmap_fresh
  exact ⟨R, _, hreach, process_downcast_iff spacedMmap_fresh
    (fun _ => show (4096 : Word) ≠ 0 by decide) hreach rfl hR.refining hR.oneFamily
    (lowBlock_element R s) hR.legal pairModule_base hR.code_D (lowBlock_tabled hR) 0⟩

/-- The table in memory has a bit for the number of `D`. -/
theorem lowBlock_tables {R : ToolRun} (hR : PairRun R) :
    ∀ types, GranuleClasses pairModule (filesOf R) .heapAlloc 1 0 types →
      ∃ origin, Tabled pairModule (filesOf R) (placeTable 4096 pairTable) (fun _ => 4096) types
        origin 1 := by
  intro types htypes
  rw [granuleClasses_heap, hR.files_eq] at htypes
  obtain rfl := pairModule_granule (by decide) htypes
  have hrelated : ∀ b ∈ ({1, 3} : Finset ℕ),
      pairModule.isInCastRelatedSet (initReadFiles pairOutput) b = true := by
    intro b hb
    rcases Finset.mem_insert.mp hb with rfl | hb
    · exact pairFiles_related (.inl pairModule_typeName.1)
    · obtain rfl := Finset.mem_singleton.mp hb
      exact pairFiles_related (.inr (.inr pairModule_typeName.2.2))
  have hemits : Origin.Emits pairModule (filesOf R) (.merged {1, 3}) pairTable := by
    rw [hR.files_eq]
    exact ⟨⟨1, by decide⟩, hrelated, rfl⟩
  have hsize : (filesOf R).bitypeCastRelatedClass[pairModule.typeName 1]? = some 1 := by
    rw [hR.files_eq, pairModule_typeName.1]
    exact pairFiles_rows.1.1
  obtain ⟨familySize, hlength, -, hupper⟩ := length_emitted hemits
  have hpos : 1 ≤ familySize := hupper ⟨_, ⟨1, by decide, rfl⟩, hsize⟩
  refine ⟨.merged {1, 3}, pairTable, hemits,
    emitted_placeTable 4096 (emitted_length_le (fromTool_filesOf R) hemits), ?_⟩
  rw [hlength, arraySize_eq]
  show 2 < _
  omega

/-- The same check, by the table. -/
theorem process_passes_iff_sample : ∃ (R : ToolRun) (p : Process),
    TidyReachable spacedMmap (placeTable 4096 pairTable) (pairProgram R) p ∧
      (Passes (placeTable 4096 pairTable) p.shadow
          ((heapSite pairModule false false lowBlock).element 8 0 + BitVec.ofNat 64 4)
          ((heapSite pairModule false false lowBlock).element 8 0 + BitVec.ofNat 64 0) 1 0 ↔
        WithinReach 0 4 ∧ ∃ types origin,
          GranuleClasses pairModule (filesOf R) .heapAlloc 1 0 types ∧
          Tabled pairModule (filesOf R) (placeTable 4096 pairTable) (fun _ => 4096) types origin 1 ∧
          origin.Accepts pairModule (filesOf R) 1) := by
  obtain ⟨R, hR⟩ := exists_pairRun
  obtain ⟨s, hreach⟩ := exists_lowBlock (placeTable 4096 pairTable) R spacedMmap_fresh
  have hclasses : ∀ o, o = 0 ∨ o = 4 →
      ∃ types, GranuleClasses pairModule (filesOf R) .heapAlloc 1 o types := by
    intro o ho
    obtain ⟨types, htypes⟩ := hR.traced (show o < 8 by omega)
    exact ⟨types, granuleClasses_heap.mpr htypes⟩
  exact ⟨R, _, hreach, process_passes_iff spacedMmap_fresh
    (fun _ => show (4096 : Word) ≠ 0 by decide) hreach (fromTool_filesOf R)
    (lowBlock_element R s) (by decide) (show 4 < 8 by decide) hclasses hR.code_D
    (lowBlock_tables hR) 0⟩

end Casts

end Bitype.Pass
