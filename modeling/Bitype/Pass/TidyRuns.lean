import Bitype.Pass.ProcessInvariant

/-!
# Tidy runs

In every state of a tidy run a granule holds a reference just if an object that is alive and
traced has written it (`references_iff`).  Of the steps of `ProcessStep` the only one that can
spoil this is the return of a call some of whose objects are still traced (`step_exact_iff`), so
if no function can return like that every run of these steps is tidy (`tidy_functions_exact`).

The number of objects that a free looks for stands in a granule of the block, and nobody else
writes there.  So a free of a block with at least one object always finds it, and gives back what
the allocation has traced (`process_free`).
-/

namespace Bitype.Pass

open Bitype.Foundations Bitype.Runtime
open Bitype.Tool (Name)

section Tidy

variable {mmap : ℕ → ℕ} {rodata : Word → Byte} {X : Executable} {p p' : Process} {s : Shadow}

/-! ## Going on with a run -/

/-- A step that ends no call gives back all there is to give back. -/
theorem givesBack_of_length (h : p.calls.length ≤ p'.calls.length) : GivesBack p p' := by
  intro c hcalls
  rw [hcalls, List.length_cons] at h
  omega

theorem TidyReachable.step (hreach : TidyReachable mmap rodata X p)
    (hstep : ProcessStep mmap rodata X p p') (hlength : p.calls.length ≤ p'.calls.length) :
    TidyReachable mmap rodata X p' := by
  obtain ⟨p₀, hstart, hsteps⟩ := hreach
  exact ⟨p₀, hstart, hsteps.tail ⟨hstep, givesBack_of_length hlength⟩⟩

theorem TidyReachable.processReachable (hreach : TidyReachable mmap rodata X p) :
    ProcessReachable mmap rodata X p := by
  obtain ⟨p₀, hstart, hsteps⟩ := hreach
  exact ⟨p₀, hstart, Relation.ReflTransGen.mono (fun _ _ hstep => hstep.1) _ _ hsteps⟩

/-- **An allocation in a running program** returns. -/
theorem TidyReachable.alloc (fresh : FreshMmap mmap) (hreach : TidyReachable mmap rodata X p)
    {b : Block} (husable : b.Usable X.M) (hroom : arraySizeF X.M b ≠ 0)
    (hunused : X.Unused p b.Granule) :
    ∃ s', TidyReachable mmap rodata X ⟨s', p.calls, b :: p.live⟩ := by
  obtain ⟨s', hrun, -⟩ := handleHeapAlloc_logs rodata X.inlineOpt X.place fresh false b p.shadow
    (hreach.invariant fresh).layout
  exact ⟨s', hreach.step (.alloc false b husable hroom hunused hrun) le_rfl⟩

/-- An instruction that makes no object. -/
theorem TidyReachable.other (fresh : FreshMmap mmap) {I : Instrumented} {s' : Shadow}
    {objects : List StackObject} {i j : ℕ} {older : List ℕ} {calls : List OpenCall}
    {live : List Block}
    (hreach : TidyReachable mmap rodata X ⟨s, ⟨I, objects, i :: older⟩ :: calls, live⟩)
    {inst : Inst} (hinst : I.F.insts[i]? = some inst)
    (halloca : ∀ type isPointerTy arraySize, inst ≠ .alloca type isPointerTy arraySize)
    (hret : ∀ value, inst ≠ .ret value) (hnext : j ∈ I.F.successors i)
    (hrun : I.runInserted mmap rodata objects (I.inserted j) s = some s') :
    TidyReachable mmap rodata X ⟨s', ⟨I, objects, j :: i :: older⟩ :: calls, live⟩ :=
  hreach.step (.next rfl rfl hinst (.other halloca hret (hreach.invariant fresh).layout)
    (fun _ ho => absurd ho (List.ne_cons_self)) hnext hrun) le_rfl

variable (rodata) in
/-- An update that has been inserted alone returns. -/
theorem Instrumented.runInserted_update (fresh : FreshMmap mmap) {I : Instrumented}
    {o : StackObject} {objects : List StackObject} (ho : objects.find? (·.alloca = o.alloca) = some o)
    (layout : Layout mmap s) :
    ∃ s', I.runInserted mmap rodata objects [.update o.alloca] s = some s' := by
  have hlogs : Logs mmap rodata (updateEvents I.M I.files I.inlineOpt I.place o)
      (o.log I.M I.files I.place) := updateEvents_logs rodata I.inlineOpt I.place fresh o
  obtain ⟨s', hrun, -⟩ := hlogs s layout
  refine ⟨s', ?_⟩
  rw [Instrumented.runInserted, List.foldlM_cons, Instrumented.events, ho]
  show ((program mmap rodata).run _ s).bind some = some s'
  rw [Option.bind_fun_some]
  exact hrun

end Tidy

/-! ## A program -/

/-- A program of one function. -/
def wideProgram (I : Instrumented) (h : I.M = wideModule ∧ I.files = wideFiles ∧
    I.inlineOpt = true ∧ I.place = fun _ => 4096) : Executable where
  M := wideModule
  fitting := wideModule_fitting
  files := wideFiles
  inlineOpt := true
  place _ := 4096
  globals := []
  apart := .nil
  functions := [I]
  shared I' hI := by
    obtain rfl := List.mem_singleton.mp hI
    exact h

/-- The program with the function that leaves its object behind. -/
def earlyProgram : Executable := wideProgram earlyReturn ⟨rfl, rfl, rfl, rfl⟩

/-- A `D` on the heap. -/
def farBlock : Block := ⟨8192, 40, .struct 1⟩

theorem farBlock_usable : farBlock.Usable wideModule := by
  refine ⟨by decide, by decide, ?_, by decide⟩
  show 8192 + max 1 40 ≤ 2 ^ 48
  decide

theorem farBlock_granule {g : ℕ} (h : farBlock.Granule g) : 1024 ≤ g := by
  rcases h with rfl | ⟨a, hlow, -, rfl⟩
  · decide
  · have hstart : farBlock.addr.toNat = 8192 := by decide
    omega

theorem earlyObject_granule {g : ℕ} (h : earlyObject.Granule wideModule wideFiles g) :
    g < 1024 := by
  have hentries : ∀ e ∈ [((0 : ℕ), ({1} : Finset ℕ)), (4, {2})], ∀ i < 1,
      granule (earlyObject.entryAddr wideModule e.1 i) < 1024 := by decide
  rcases h with rfl | htracks
  · decide
  · obtain ⟨i, hi, e, he, rfl⟩ := (tracks_constant rfl g).mpr htracks
    rw [show earlyObject.type = .struct 1 from rfl, wideModule_elements] at he
    exact hentries e he i (List.mem_range.mp hi)

section Sample

variable {mmap : ℕ → ℕ} {rodata : Word → Byte} {I : Instrumented}
  {h : I.M = wideModule ∧ I.files = wideFiles ∧ I.inlineOpt = true ∧ I.place = fun _ => 4096}

variable (rodata h) in
/-- A block, a call and the object of its first instruction. -/
theorem exists_wideRun (fresh : FreshMmap mmap)
    (halloca : I.F.insts[0]? = some (.alloca (.struct 1) false (some 1)))
    (hnext : 1 ∈ I.F.successors 0) (hinserted : I.inserted 0 = [])
    (hrun : ∀ s, Layout mmap s →
      ∃ s', I.runInserted mmap rodata [earlyObject] (I.inserted 1) s = some s') :
    ∃ s, TidyReachable mmap rodata (wideProgram I h)
      ⟨s, [⟨I, [earlyObject], [1, 0]⟩], [farBlock]⟩ := by
  have hstart : TidyReachable mmap rodata (wideProgram I h)
      ⟨bitypeInitialization mmap fun _ => 0, [], []⟩ := ⟨_, ⟨fun _ => 0, _, rfl, rfl⟩, .refl⟩
  have hroom : arraySizeF wideModule farBlock ≠ 0 := by decide
  obtain ⟨s₁, hblock⟩ := hstart.alloc fresh farBlock_usable hroom
    fun w hw => absurd hw List.not_mem_nil
  have hcall : TidyReachable mmap rodata (wideProgram I h) ⟨s₁, [⟨I, [], [0]⟩], [farBlock]⟩ :=
    hblock.step (.call I List.mem_cons_self (by rw [hinserted]; rfl)) (Nat.zero_le _)
  obtain ⟨s₂, hrun₂⟩ := hrun s₁ (hcall.invariant fresh).layout
  have hunused : (wideProgram I h).Unused ⟨s₁, [⟨I, [], [0]⟩], [farBlock]⟩
      (earlyObject.Granule I.M I.files) := by
    intro w hw g hg
    rw [h.1, h.2.1] at hg
    rcases List.mem_cons.mp hw with rfl | hw
    · -- the call has no object yet
      exact fun hmem => absurd hmem.choose_spec.1 List.not_mem_nil
    · obtain rfl := List.mem_singleton.mp hw
      exact fun hmem => absurd (farBlock_granule hmem) (Nat.not_le.mpr (earlyObject_granule hg))
  have hexecutes : Executes mmap 0 (.alloca (.struct 1) false (some 1)) s₁ [] s₁ [earlyObject] :=
    .alloca earlyObject rfl rfl rfl fun c hc => Option.some.inj hc
  have hstep : ProcessStep mmap rodata (wideProgram I h)
      ⟨s₁, [⟨I, [], [0]⟩], [farBlock]⟩ ⟨s₂, [⟨I, [earlyObject], [1, 0]⟩], [farBlock]⟩ :=
    .next (c := ⟨I, [], [0]⟩) rfl rfl halloca hexecutes
      (fun o ho => (List.cons.inj ho).1 ▸ hunused) hnext hrun₂
  exact ⟨s₂, hcall.step hstep le_rfl⟩

variable (rodata) in
/-- The path through the second end marker. -/
theorem exists_earlyRun (fresh : FreshMmap mmap) : ∃ s, TidyReachable mmap rodata earlyProgram
    ⟨s, [⟨earlyReturn, [earlyObject], [7, 6, 3, 2, 1, 0]⟩], [farBlock]⟩ := by
  obtain ⟨h₀, h₁, h₂, h₃, -, h₆, h₇⟩ := earlyReturn_inserted
  obtain ⟨s, hobject⟩ := exists_wideRun rodata (I := earlyReturn) ⟨rfl, rfl, rfl, rfl⟩ fresh rfl
    (by decide) h₀ fun s _ => ⟨s, by rw [h₁]; rfl⟩
  obtain ⟨s', hupdate⟩ := earlyReturn.runInserted_update rodata fresh
    (show [earlyObject].find? (·.alloca = earlyObject.alloca) = some earlyObject from rfl)
    (hobject.invariant fresh).layout
  have hstart := hobject.other fresh (j := 2) rfl (by simp) (by simp) (by decide)
    (by rw [h₂]; exact hupdate)
  have hbranch := hstart.other fresh (j := 3) rfl (by simp) (by simp) (by decide) (by rw [h₃]; rfl)
  have hend := hbranch.other fresh (j := 6) rfl (by simp) (by simp) (by decide) (by rw [h₆]; rfl)
  exact ⟨s', hend.other fresh rfl (by simp) (by simp) (by decide) (by rw [h₇]; rfl)⟩

end Sample

section Tidy

variable {mmap : ℕ → ℕ} {rodata : Word → Byte} {X : Executable} {p p' : Process} {s : Shadow}

/-! ## References -/

/-- What an entry writes refers to a table. -/
theorem reference_of_entryLog {M : Module} {place : Name → Word} {site : Site}
    {emitType : EmitType} {i : ℕ} {entry : ℕ × Finset ℕ} {write : ℕ × (Word × U32)}
    (h : write ∈ entryLog M place site emitType i entry) :
    write.2.1 = place (M.setName entry.2) := by
  unfold entryLog at h
  split at h
  · cases h
  · cases emitType with
    | conObjAdd => rw [List.mem_singleton.mp h]
    | vlaObjAdd =>
        obtain ⟨j, -, rfl⟩ := List.mem_map.mp h
        rfl

/-- What a sequence for new objects writes refers to a table. -/
theorem reference_of_objectLog {M : Module} {place : Name → Word} {site : Site}
    {elements : Std.TreeMap ℕ (Finset ℕ)} {write : ℕ × (Word × U32)}
    (h : write ∈ objectLog M place site elements) : ∃ name, write.2.1 = place name := by
  have hentries : ∀ emitType i, write ∈ elements.toList.flatMap (entryLog M place site emitType i) →
      ∃ name, write.2.1 = place name := by
    intro emitType i hwrite
    obtain ⟨entry, -, hwrite⟩ := List.mem_flatMap.mp hwrite
    exact ⟨_, reference_of_entryLog hwrite⟩
  unfold objectLog at h
  split at h
  · exact hentries _ _ h
  · split at h
    · exact hentries _ _ h
    · split at h
      · obtain ⟨i, -, h⟩ := List.mem_flatMap.mp h
        exact hentries _ i h
      · exact hentries _ _ h

theorem ProcessInvariant.reference_ne (inv : ProcessInvariant mmap X p)
    (hplace : ∀ name, X.place name ≠ 0) {w : Owner} (hw : w ∈ X.owners p)
    {write : ℕ × (Word × U32)} (h : write ∈ X.ownerLog w) : write.2.1 ≠ 0 := by
  have hname : ∃ name, write.2.1 = X.place name := by
    cases w with
    | block b =>
        have hlog : write ∈ b.log X.M X.files X.place := h
        exact reference_of_objectLog hlog
    | global gv =>
        have hlog : write ∈ gv.log X.M X.files X.place := h
        exact reference_of_objectLog hlog
    | call c =>
        obtain ⟨a, -, h⟩ := List.mem_flatMap.mp h
        obtain ⟨object, -, h⟩ := List.mem_flatMap.mp h
        obtain ⟨-, -, -, hsame⟩ := X.shared c.fn (inv.functions c (call_mem_owners.mp hw))
        unfold StackObject.markedLog at h
        split at h
        · rw [hsame] at h
          exact reference_of_objectLog h
        · cases h
  obtain ⟨name, hname⟩ := hname
  exact hname ▸ hplace name

/-- A granule holds a reference if it has been written by an object alive and traced. -/
theorem ProcessInvariant.reference_iff (inv : ProcessInvariant mmap X p)
    (hplace : ∀ name, X.place name ≠ 0) (g : ℕ) : (p.shadow.view.content g).reference ≠ 0 ↔
      ∃ w ∈ X.owners p, ∃ write ∈ X.ownerLog w, write.1 = g := by
  have hshows := inv.shows g
  have hlogged : (∃ w ∈ X.owners p, ∃ write ∈ X.ownerLog w, write.1 = g) ↔
      ∃ write ∈ X.log p, write.1 = g := exists_mem_flatMap.symm
  rw [hlogged]
  cases hlast : lastWrite (X.log p) g with
  | none =>
      rw [(shows_of_none hlast).mp hshows]
      refine iff_of_false (fun h => h rfl) fun h => ?_
      obtain ⟨write, hwrite, hsame⟩ := h
      exact lastWrite_eq_none_iff.mp hlast write hwrite hsame
  | some value =>
      have hmem := mem_of_lastWrite hlast
      obtain ⟨w, hw, hwrite⟩ := List.mem_flatMap.mp hmem
      have hreference : (p.shadow.view.content g).reference = value.1 :=
        congrArg Prod.fst ((shows_of_some hlast).mp hshows)
      rw [hreference]
      exact iff_of_true (inv.reference_ne hplace hw hwrite) ⟨_, hmem, rfl⟩

/-- **Which granules hold references.**  In every state of every tidy run those that an object has
written that is alive and traced, and so none of what has been given back. -/
theorem references_iff (fresh : FreshMmap mmap) (hplace : ∀ name, X.place name ≠ 0)
    (hreach : TidyReachable mmap rodata X p) (addr : Word) :
    Entry.table? (p.shadow.lookup addr) ≠ none ↔
      ∃ w ∈ X.owners p, ∃ write ∈ X.ownerLog w, write.1 = granule addr := by
  rw [← (hreach.invariant fresh).reference_iff hplace, lookup_eq_view]
  unfold GranuleMap.content
  cases p.shadow.view (granule addr) with
  | none => exact iff_of_false (fun h => h rfl) (fun h => h rfl)
  | some e =>
      show (if e.reference = 0 then none else some e.reference) ≠ none ↔ e.reference ≠ 0
      split
      · next hzero => exact iff_of_false (fun h => h rfl) (fun h => h hzero)
      · next hne => exact iff_of_true (Option.some_ne_none _) hne

/-- In front of the second return. -/
theorem references_iff_sample : ∃ p, TidyReachable spacedMmap (fun _ => 0) earlyProgram p ∧
    (Entry.table? (p.shadow.lookup 4096) ≠ none ↔
      ∃ w ∈ earlyProgram.owners p, ∃ write ∈ earlyProgram.ownerLog w, write.1 = granule 4096) := by
  obtain ⟨s, hreach⟩ := exists_earlyRun (fun _ => 0) spacedMmap_fresh
  exact ⟨_, hreach, references_iff spacedMmap_fresh earlyReturn_place hreach 4096⟩

/-- No step but a return shortens the calls. -/
theorem ProcessStep.of_calls (hstep : ProcessStep mmap rodata X p p') {c : OpenCall}
    (hcalls : p.calls = c :: p'.calls) : p'.shadow = p.shadow ∧ p'.live = p.live ∧
      ∃ i older value, c.path = i :: older ∧ c.fn.F.insts[i]? = some (.ret value) := by
  have hlength := congrArg List.length hcalls
  rw [List.length_cons] at hlength
  cases hstep with
  | ret hcalls' hpath hinst =>
      obtain rfl := (List.cons.inj (hcalls.symm.trans hcalls')).1
      exact ⟨rfl, rfl, _, _, _, hpath, hinst⟩
  | next hcalls' hpath hinst hexecutes hunused hnext hrun =>
      rw [hcalls', List.length_cons, List.length_cons] at hlength
      omega
  | call I hfn hrun =>
      rw [List.length_cons] at hlength
      omega
  | alloc isConstant b husable hroom hunused hrun => exact absurd hlength (by simp)
  | free b hlive hrun => exact absurd hlength (by simp)
  | check event hcheck hrun => exact absurd hlength (by simp)

/-- **When a step leaves the table right.**  In every tidy run, behind any of its steps the
granules show what the objects write that are alive and traced, unless the step is the return
of a call that still has a traced object; then they do not. -/
theorem step_exact_iff (fresh : FreshMmap mmap) (hplace : ∀ name, X.place name ≠ 0)
    (hreach : TidyReachable mmap rodata X p) (hstep : ProcessStep mmap rodata X p p') :
    (∀ g, Shows (X.log p') p'.shadow g) ↔ GivesBack p p' := by
  have inv := hreach.invariant fresh
  refine ⟨fun hshows c hcalls => ?_, fun hback => (inv.step fresh hstep hback).shows⟩
  obtain ⟨hshadow, hlive, -⟩ := hstep.of_calls hcalls
  by_contra hleft
  obtain ⟨write, hwrite⟩ := List.exists_mem_of_ne_nil _ hleft
  have howners : X.owners p = .call c :: X.owners p' := by
    unfold Executable.owners
    rw [hcalls, hlive]
    rfl
  have hc : Owner.call c ∈ X.owners p := howners ▸ List.mem_cons_self
  -- the granule belonged to the call, so nobody who is left writes to it
  have hgranule : c.Granule write.1 := by
    by_contra hnone
    exact lastWrite_eq_none_iff.mp (c.lastWrite_none hnone) write hwrite rfl
  have hnone : lastWrite (X.log p') write.1 = none := by
    apply lastWrite_flatMap_none
    intro w hw
    have hw' : w ∈ X.owners p := howners ▸ List.mem_cons_of_mem _ hw
    apply Executable.lastWrite_none (inv.owned.good w hw')
    have hapart : X.ownership.Apart (.call c) w :=
      (List.pairwise_cons.mp (howners ▸ inv.owned.apart)).1 w hw
    exact fun hg => Set.disjoint_left.mp hapart hgranule hg
  have hzero := (shows_of_none hnone).mp (hshows write.1)
  rw [hshadow] at hzero
  exact (inv.reference_iff hplace write.1).mpr ⟨.call c, hc, write, hwrite, rfl⟩ hzero

/-- The call in front of the second return still has a traced object. -/
theorem earlyReturn_log :
    (⟨earlyReturn, [earlyObject], [7, 6, 3, 2, 1, 0]⟩ : OpenCall).log ≠ [] := by
  have hmarks : insertedMarks earlyReturn.inserted 0 [7, 6, 3, 2, 1, 0] = [true] := by
    decide +kernel
  have hobject : (earlyObject, true) ∈
      (⟨earlyReturn, [earlyObject], [7, 6, 3, 2, 1, 0]⟩ : OpenCall).marked 0 := by
    rw [OpenCall.marked, hmarks]
    exact List.mem_cons_self
  have hwrites : ∃ write ∈ earlyObject.log earlyReturn.M earlyReturn.files earlyReturn.place,
      write.1 = 512 := StackObject.exists_mem_log.mpr earlyObject_tracks
  obtain ⟨write, hwrite, -⟩ := hwrites
  have hmem : write ∈ (⟨earlyReturn, [earlyObject], [7, 6, 3, 2, 1, 0]⟩ : OpenCall).log :=
    List.mem_flatMap.mpr ⟨0, List.mem_cons_self, List.mem_flatMap.mpr ⟨_, hobject, hwrite⟩⟩
  exact List.ne_nil_of_mem hmem

/-- The second return leaves the table wrong. -/
theorem step_exact_iff_sample : ∃ p p', TidyReachable spacedMmap (fun _ => 0) earlyProgram p ∧
    ProcessStep spacedMmap (fun _ => 0) earlyProgram p p' ∧
    ¬ ∀ g, Shows (earlyProgram.log p') p'.shadow g := by
  obtain ⟨s, hreach⟩ := exists_earlyRun (fun _ => 0) spacedMmap_fresh
  have hstep : ProcessStep spacedMmap (fun _ => 0) earlyProgram
      ⟨s, [⟨earlyReturn, [earlyObject], [7, 6, 3, 2, 1, 0]⟩], [farBlock]⟩ ⟨s, [], [farBlock]⟩ :=
    .ret rfl rfl (show earlyFunction.insts[7]? = some (.ret none) from rfl)
  refine ⟨_, _, hreach, hstep, fun hshows => ?_⟩
  exact earlyReturn_log
    ((step_exact_iff spacedMmap_fresh earlyReturn_place hreach hstep).mp hshows _ rfl)

/-! ## Tidy functions -/

/-- On every path to a return, no object that has entries is traced any more. -/
def Instrumented.Tidy (I : Instrumented) : Prop :=
  ∀ i older value, PathFrom I.F.successors 0 (i :: older) → I.F.insts[i]? = some (.ret value) →
    ∀ a type isPointerTy arraySize, I.F.insts[a]? = some (.alloca type isPointerTy arraySize) →
      (I.M.elementsOf I.files type).isEmpty = false →
      ∀ mark ∈ insertedMarks I.inserted a (i :: older), mark = false

/-- A call has come along a path of its function, and each object is of the type of its
alloca. -/
structure OpenCall.OnPath (c : OpenCall) : Prop where
  path : PathFrom c.fn.F.successors 0 c.path
  types : ∀ o ∈ c.objects, ∃ isPointerTy arraySize,
    c.fn.F.insts[o.alloca]? = some (.alloca o.type isPointerTy arraySize)

theorem ProcessStep.onPath (hstep : ProcessStep mmap rodata X p p')
    (h : ∀ c ∈ p.calls, c.OnPath) : ∀ c ∈ p'.calls, c.OnPath := by
  cases hstep with
  | alloc | free | check => exact h
  | call I hfn hrun =>
      exact List.forall_mem_cons.mpr ⟨⟨.entry, fun o ho => absurd ho List.not_mem_nil⟩, h⟩
  | @next s' c rest i j older inst objects hcalls hpath hinst hexecutes hunused hnext hrun =>
      rw [hcalls] at h
      obtain ⟨hc, hrest⟩ := List.forall_mem_cons.mp h
      have hobjects : ∀ o ∈ objects, ∃ isPointerTy arraySize,
          c.fn.F.insts[o.alloca]? = some (.alloca o.type isPointerTy arraySize) := by
        cases hexecutes with
        | alloca o halloca htype hconstant hsize =>
            exact List.forall_mem_cons.mpr ⟨⟨_, _, by rw [halloca, htype]; exact hinst⟩, hc.types⟩
        | other halloca hret layout => exact hc.types
      have hstep : PathFrom c.fn.F.successors 0 (j :: c.path) := by
        have hbefore := hc.path
        rw [hpath] at hbefore ⊢
        exact hbefore.step hnext
      exact List.forall_mem_cons.mpr ⟨⟨hstep, hobjects⟩, hrest⟩
  | ret hcalls hpath hinst =>
      rw [hcalls] at h
      exact (List.forall_mem_cons.mp h).2

/-- A call of a tidy function has given back its objects at a return. -/
theorem Instrumented.Tidy.log_eq_nil {c : OpenCall} (h : c.fn.Tidy) (hc : c.OnPath) {i : ℕ}
    {older : List ℕ} {value : Option Value} (hpath : c.path = i :: older)
    (hinst : c.fn.F.insts[i]? = some (.ret value)) : c.log = [] := by
  have hfrom := hc.path
  rw [hpath] at hfrom
  refine List.flatMap_eq_nil_iff.mpr fun a _ => List.flatMap_eq_nil_iff.mpr fun object hobject => ?_
  obtain ⟨hmem, rfl⟩ := OpenCall.mem_marked hobject
  obtain ⟨isPointerTy, arraySize, halloca⟩ := hc.types _ hmem
  have hmark : object.2 ∈ insertedMarks c.fn.inserted object.1.alloca (i :: older) := by
    rw [← hpath]
    exact (List.of_mem_zip hobject).2
  unfold StackObject.markedLog
  split
  · next htraced =>
      cases hempty : (c.fn.M.elementsOf c.fn.files object.1.type).isEmpty with
      | true => exact objectLog_of_isEmpty hempty
      | false =>
          have hfalse := h i older value hfrom hinst _ _ _ _ halloca hempty _ hmark
          rw [htraced] at hfalse
          cases hfalse
  · rfl

/-- **If every function is tidy, so is every run.** -/
theorem ProcessReachable.tidy (fresh : FreshMmap mmap) (htidy : ∀ I ∈ X.functions, I.Tidy)
    (hreach : ProcessReachable mmap rodata X p) :
    TidyReachable mmap rodata X p ∧ ∀ c ∈ p.calls, c.OnPath := by
  obtain ⟨p₀, hstart, hsteps⟩ := hreach
  induction hsteps with
  | refl =>
      refine ⟨⟨p₀, hstart, .refl⟩, fun c hc => ?_⟩
      obtain ⟨mem, s₀, -, rfl⟩ := hstart
      cases hc
  | @tail p p' _ hstep ih =>
      obtain ⟨hreach, hpaths⟩ := ih
      refine ⟨?_, hstep.onPath hpaths⟩
      have hback : GivesBack p p' := by
        intro c hcalls
        obtain ⟨-, -, i, older, value, hpath, hinst⟩ := hstep.of_calls hcalls
        have hc : c ∈ p.calls := hcalls ▸ List.mem_cons_self
        have hfn := (hreach.invariant fresh).functions c hc
        exact (htidy _ hfn).log_eq_nil (hpaths c hc) hpath hinst
      obtain ⟨p₀, hstart, hsteps⟩ := hreach
      exact ⟨p₀, hstart, hsteps.tail ⟨hstep, hback⟩⟩

/-- **Programs whose table is always right.**  If no function can reach a return with an
object still traced, then in every state of every run of the steps of `ProcessStep`, in whatever
order they have come, each granule shows what the objects write that are alive and traced. -/
theorem tidy_functions_exact (fresh : FreshMmap mmap) (htidy : ∀ I ∈ X.functions, I.Tidy)
    (hreach : ProcessReachable mmap rodata X p) (g : ℕ) : Shows (X.log p) p.shadow g :=
  ((hreach.tidy fresh htidy).1.invariant fresh).shows g

/-- A function that gives back its object. -/
def tidyFunction : Function where
  insts := [.alloca (.struct 1) false (some 1), .other, .ret none]
  successors i := if i = 0 then [1] else if i = 1 then [2] else []
  nonempty := by decide
  closed := by decide

def tidyReturn : Instrumented where
  M := wideModule
  files := wideFiles
  inlineOpt := true
  place _ := 4096
  F := tidyFunction
  isSafe _ := false
  order := [0]
  perm := by decide +kernel
  fuel := 3
  maps := ⟨∅, ∅⟩
  collected := rfl

theorem tidyFunction_paths {path : List ℕ} (h : PathFrom tidyFunction.successors 0 path) :
    path = [0] ∨ path = [1, 0] ∨ path = [2, 1, 0] := by
  induction h with
  | entry => exact .inl rfl
  | step _ hw ih =>
      rcases ih with ih | ih | ih
      · obtain ⟨rfl, rfl⟩ := List.cons.inj ih
        obtain rfl := List.mem_singleton.mp hw
        exact .inr (.inl rfl)
      · obtain ⟨rfl, rfl⟩ := List.cons.inj ih
        obtain rfl := List.mem_singleton.mp hw
        exact .inr (.inr rfl)
      · obtain ⟨rfl, rfl⟩ := List.cons.inj ih
        exact absurd hw List.not_mem_nil

theorem tidyReturn_tidy : tidyReturn.Tidy := by
  have hmarks : insertedMarks tidyReturn.inserted 0 [2, 1, 0] = [false] := by decide +kernel
  have halloca : ∀ a type isPointerTy arraySize,
      tidyFunction.insts[a]? = some (.alloca type isPointerTy arraySize) → a = 0 := by
    intro a
    match a with
    | 0 => exact fun _ _ _ _ => rfl
    | 1 | 2 => exact nofun
    | a + 3 => exact nofun
  intro i older value hpath hinst a type isPointerTy arraySize ha _ mark hmark
  obtain rfl := halloca a type isPointerTy arraySize ha
  rcases tidyFunction_paths hpath with h | h | h
  · obtain ⟨rfl, -⟩ := List.cons.inj h
    cases hinst
  · obtain ⟨rfl, -⟩ := List.cons.inj h
    cases hinst
  · rw [h, hmarks] at hmark
    exact List.mem_singleton.mp hmark

/-- The object of the function, once it has been traced. -/
theorem tidy_functions_exact_sample : ∃ (X : Executable) (p : Process),
    ProcessReachable spacedMmap (fun _ => 0) X p ∧ p.calls ≠ [] ∧ p.live ≠ [] ∧
      Shows (X.log p) p.shadow 512 := by
  have hinserted : tidyReturn.inserted 0 = [] ∧ tidyReturn.inserted 1 = [.update 0] := by
    decide +kernel
  obtain ⟨s, hreach⟩ := exists_wideRun (fun _ => 0) (I := tidyReturn) ⟨rfl, rfl, rfl, rfl⟩
    spacedMmap_fresh rfl (by decide) hinserted.1 fun s layout => by
      rw [hinserted.2]
      exact tidyReturn.runInserted_update (fun _ => 0) spacedMmap_fresh
        (show [earlyObject].find? (·.alloca = earlyObject.alloca) = some earlyObject from rfl) layout
  have hall := hreach.processReachable
  refine ⟨_, _, hall, List.cons_ne_nil _ _, List.cons_ne_nil _ _,
    tidy_functions_exact spacedMmap_fresh (fun I hI => ?_) hall 512⟩
  obtain rfl := List.mem_singleton.mp hI
  exact tidyReturn_tidy

/-! ## Frees -/

theorem TidyReachable.free (fresh : FreshMmap mmap) (hreach : TidyReachable mmap rodata X p)
    {before after : List Block} {b : Block} (hlive : p.live = before ++ b :: after) :
    ∃ s', (program mmap rodata).run (handleFree X.M X.files X.inlineOpt b) p.shadow = some s' ∧
      TidyReachable mmap rodata X ⟨s', p.calls, before ++ after⟩ ∧
      (∀ g, b.Granule g → (s'.view.content g).reference = 0) ∧
      ∀ g, ¬ b.Granule g → Executable.Kept g p.shadow s' := by
  have inv := hreach.invariant fresh
  have hmem : b ∈ p.live := hlive ▸ List.mem_append_right _ List.mem_cons_self
  have hsound : X.BlockSound b p.shadow := inv.owned.good _ (block_mem_owners.mpr hmem)
  obtain ⟨s', hrun, -, hblank, hkept⟩ := hsound.free rodata fresh inv.layout
  exact ⟨s', hrun, hreach.step (.free b hlive hrun) le_rfl, hblank, hkept⟩

/-- **A free in a running program.**  In every state of every tidy run the free of a live
block, with the type of its allocation, returns.  Then none of the granules of the block holds a reference, and no other granule
has changed, whoever owns it. -/
theorem process_free (fresh : FreshMmap mmap) (hreach : TidyReachable mmap rodata X p)
    {before after : List Block} {b : Block} (hlive : p.live = before ++ b :: after) :
    ∃ s', (program mmap rodata).run (handleFree X.M X.files X.inlineOpt b) p.shadow = some s' ∧
      TidyReachable mmap rodata X ⟨s', p.calls, before ++ after⟩ ∧
      (∀ g, b.Granule g → (s'.view.content g).reference = 0) ∧
      ∀ g, ¬ b.Granule g → s'.view.content g = p.shadow.view.content g := by
  obtain ⟨s', hrun, hreach', hblank, hkept⟩ := hreach.free fresh hlive
  exact ⟨s', hrun, hreach', hblank, fun g hg => (hkept g hg).1⟩

/-- The free of the block, while the call is open. -/
theorem process_free_sample : ∃ p s',
    TidyReachable spacedMmap (fun _ => 0) earlyProgram p ∧
    (program spacedMmap fun _ => 0).run (handleFree wideModule wideFiles true farBlock) p.shadow =
      some s' ∧ TidyReachable spacedMmap (fun _ => 0) earlyProgram ⟨s', p.calls, []⟩ := by
  obtain ⟨s, hreach⟩ := exists_earlyRun (fun _ => 0) spacedMmap_fresh
  obtain ⟨s', hrun, hreach', -⟩ := process_free spacedMmap_fresh hreach
    (show [farBlock] = [] ++ farBlock :: [] from rfl)
  exact ⟨_, s', hreach, hrun, hreach'⟩

end Tidy

end Bitype.Pass
