import Bitype.Pass.Process

/-!
# The invariant of a running program

Every step of a running program keeps `ProcessInvariant`, one owner at a time: an allocation
and a call take granules that nobody has, a free and a return give theirs back, and an
instruction works on the granules of the newest call.  No step needs to know who else there
is.

So in every state of a tidy run a check sees in each granule what the objects write that are
alive and traced (`ProcessInvariant.shows`).
-/

namespace Bitype.Pass

open Bitype.Foundations Bitype.Runtime
open Bitype.Tool (Name)

section Steps

variable {mmap : ℕ → ℕ} {rodata : Word → Byte} {X : Executable} {p : Process} {s s' : Shadow}

/-! ## Owners -/

theorem Executable.Unused.apart {w : Owner} (h : X.Unused p (· ∈ X.footprint w)) :
    ∀ w' ∈ X.owners p, X.ownership.Apart w w' :=
  fun w' hw' => Set.disjoint_left.mpr fun g hg => h w' hw' g hg

/-- A granule that nobody has holds no reference. -/
theorem ProcessInvariant.blank (inv : ProcessInvariant mmap X p) {L : ℕ → Prop}
    (hunused : X.Unused p L) {g : ℕ} (hg : L g) : (p.shadow.view.content g).reference = 0 :=
  inv.owned.blank g fun w hw => hunused w hw g hg

theorem call_mem_owners {c : OpenCall} : .call c ∈ X.owners p ↔ c ∈ p.calls := by
  simp [Executable.owners]

theorem block_mem_owners {b : Block} : .block b ∈ X.owners p ↔ b ∈ p.live := by
  simp [Executable.owners]

theorem global_mem_owners {gv : GlobalVariable} : .global gv ∈ X.owners p ↔ gv ∈ X.globals := by
  simp [Executable.owners]

theorem owners_alloc (p : Process) (s : Shadow) (b : Block) :
    (Owner.block b :: X.owners p).Perm (X.owners ⟨s, p.calls, b :: p.live⟩) :=
  List.perm_middle.symm

theorem owners_free {before after : List Block} {b : Block} (hlive : p.live = before ++ b :: after) :
    (X.owners p).Perm (.block b :: X.owners ⟨s, p.calls, before ++ after⟩) := by
  unfold Executable.owners
  rw [hlive, List.map_append, List.map_cons, List.map_append, List.append_assoc, List.cons_append]
  refine (List.Perm.append_left _ ?_).trans List.perm_middle
  rw [List.append_assoc]
  exact List.perm_middle

theorem owners_calls {c : OpenCall} {rest : List OpenCall} (hcalls : p.calls = c :: rest) :
    X.owners p = .call c :: X.owners ⟨s, rest, p.live⟩ := by
  unfold Executable.owners
  rw [hcalls]
  rfl

/-! ## Heap blocks -/

/-- **An allocation** takes granules that nobody has. -/
theorem ProcessInvariant.alloc (fresh : FreshMmap mmap) (inv : ProcessInvariant mmap X p)
    {isConstant : Bool} {b : Block} (husable : b.Usable X.M) (hroom : arraySizeF X.M b ≠ 0)
    (hunused : X.Unused p b.Granule)
    (hrun : (program mmap rodata).run
      (handleHeapAlloc X.M X.files X.inlineOpt X.place false isConstant b) p.shadow = some s') :
    ProcessInvariant mmap X ⟨s', p.calls, b :: p.live⟩ := by
  obtain ⟨hlayout, hframe, hkeeps⟩ := handleHeapAlloc_within rodata X.inlineOpt X.place fresh X.fitting
    husable isConstant p.shadow s' inv.layout hrun
  obtain ⟨-, htable⟩ := (handleHeapAlloc_logs rodata X.inlineOpt X.place fresh isConstant b).of_run
    inv.layout hrun
  have hnoted : (X.M.elementsOf X.files b.type).isEmpty = false →
      (s'.view (granule b.addr)).isSome ∧
        (s'.view.content (granule b.addr)).size = b.count X.M := by
    intro hne
    obtain ⟨s₁, hrun₁, -, hrecords⟩ := handleHeapAlloc_spec rodata X.files X.inlineOpt X.place
      fresh husable.nonnull hne false isConstant inv.layout
    obtain rfl := Option.some.inj (hrun.symm.trans hrun₁)
    exact ⟨hrecords.isSome, hrecords.size⟩
  have hsound : X.BlockSound b s' := ⟨husable, hroom, hnoted, fun g hg =>
    shows_of_written htable fun _ => inv.blank hunused hg⟩
  have howned : X.ownership.Owned (.block b :: X.owners p) s' :=
    inv.owned.acquire hsound (fun g hg => ⟨hframe g hg, hkeeps g⟩) (Executable.Unused.apart hunused)
  exact ⟨hlayout, inv.functions, howned.perm (owners_alloc p s' b)⟩

/-- The objects that a free erases lie in the block. -/
theorem covers_of_erased {b : Block} (husable : b.Usable X.M)
    (hroom : arraySizeF X.M b ≠ 0) {g : ℕ} (h : b.Reaches X.M X.files (b.erasedCount X.M) g) :
    b.Covers g := by
  apply covers_of_reaches X.fitting husable _ h
  unfold Block.erasedCount
  split
  · exact count_le X.M b
  · rw [Nat.one_le_iff_ne_zero]
    exact fun hzero => hroom (BitVec.eq_of_toNat_eq hzero)

variable (rodata) in
/-- What a free does to a block that is as it must be. -/
theorem Executable.BlockSound.free (fresh : FreshMmap mmap) {b : Block}
    (h : X.BlockSound b s) (layout : Layout mmap s) : ∃ s', (program mmap rodata).run
        (handleFree X.M X.files X.inlineOpt b) s = some s' ∧ Layout mmap s' ∧
      (∀ g, b.Granule g → (s'.view.content g).reference = 0) ∧
      ∀ g, ¬ b.Granule g → Executable.Kept g s s' := by
  -- where nothing has been traced there was no reference
  have huntraced : ∀ g, b.Granule g → ¬ b.Traced X.M X.files g →
      (s.view.content g).reference = 0 := by
    intro g hg hnone
    exact (shows_of_none (lastWrite_none_of (fun g hwrite => Block.exists_mem_log.mp hwrite)
      hnone)).mp (h.shows g hg)
  cases hempty : (X.M.elementsOf X.files b.type).isEmpty with
  | true =>
      have hnone : handleFree X.M X.files X.inlineOpt b = [] := by
        rw [handleFree, insertRemove, if_pos hempty]
      refine ⟨s, by rw [hnone]; rfl, layout, fun g hg => huntraced g hg ?_,
        fun g _ => ⟨rfl, fun h => h⟩⟩
      exact not_reaches_of_isEmpty hempty _ g
  | false =>
      obtain ⟨hsome, hsize⟩ := h.noted hempty
      have hcount : heapCount (s.view.content (granule b.addr)) = b.erasedCount X.M := by
        rw [heapCount, Block.erasedCount, hsize]
      obtain ⟨s', hrun, hlayout, hsome', hreference, -⟩ := handleFree_spec rodata X.inlineOpt
        fresh h.usable.nonnull hempty layout hsome
      rw [hcount] at hreference
      refine ⟨s', hrun, hlayout, fun g hg => ?_, fun g hg => ⟨?_, fun hgiven => ?_⟩⟩
      · rw [hreference]
        split
        · rfl
        · next hspared => exact huntraced g hg fun htraced => hspared (erased_of_traced htraced)
      · apply handleFree_frame rodata X.inlineOpt fresh hempty layout hsome hrun
        · exact fun hbase => hg (.inl hbase)
        · rw [hcount]
          exact fun herased => hg (.inr (covers_of_erased h.usable h.room herased))
      · rw [hsome']
        exact hgiven

/-- **A free** gives the granules of its block back. -/
theorem ProcessInvariant.free (fresh : FreshMmap mmap) (inv : ProcessInvariant mmap X p)
    {before after : List Block} {b : Block}
    (hlive : p.live = before ++ b :: after) (hrun : (program mmap rodata).run
      (handleFree X.M X.files X.inlineOpt b) p.shadow = some s') :
    ProcessInvariant mmap X ⟨s', p.calls, before ++ after⟩ := by
  have howned := inv.owned.perm (owners_free (X := X) (s := s') hlive)
  have hsound : X.BlockSound b p.shadow := howned.good _ List.mem_cons_self
  obtain ⟨s₁, hrun₁, hlayout, hblank, hkept⟩ := hsound.free rodata fresh inv.layout
  obtain rfl := Option.some.inj (hrun.symm.trans hrun₁)
  exact ⟨hlayout, inv.functions, howned.release hblank hkept⟩

/-! ## Calls -/

/-- **A call** has no objects yet. -/
theorem ProcessInvariant.call (fresh : FreshMmap mmap) (inv : ProcessInvariant mmap X p)
    {I : Instrumented} (hfn : I ∈ X.functions)
    (hrun : I.runInserted mmap rodata [] (I.inserted 0) p.shadow = some s') :
    ProcessInvariant mmap X ⟨s', ⟨I, [], [0]⟩ :: p.calls, p.live⟩ := by
  have hinserts := runInserted_shows fresh .nil _ _ _ inv.layout hrun
  have hframe : ∀ g, Executable.Kept g p.shadow s' := fun g =>
    ⟨hinserts.frame g fun _ ho => absurd ho List.not_mem_nil, hinserts.keeps g⟩
  have hsound : OpenCall.Sound ⟨I, [], [0]⟩ s' :=
    ⟨.nil, fun _ ho => absurd ho List.not_mem_nil, fun a _ => hinserts.shows a [] .nil⟩
  have hempty : ∀ w ∈ X.owners p, X.ownership.Apart (.call ⟨I, [], [0]⟩) w := by
    intro w _
    refine Set.disjoint_left.mpr fun g hg => ?_
    obtain ⟨_, ho, _⟩ := hg
    cases ho
  have howned : X.ownership.Owned (.call ⟨I, [], [0]⟩ :: X.owners p) s' :=
    inv.owned.acquire hsound (fun g _ => hframe g) hempty
  exact ⟨hinserts.layout, List.forall_mem_cons.mpr ⟨hfn, inv.functions⟩, howned⟩

/-- An instruction makes no more than one object. -/
theorem objects_grow {i : ℕ} {inst : Inst} {objects objects' : List StackObject}
    (hexecutes : Executes mmap i inst s objects s objects') :
    objects' = objects ∨ ∃ o, objects' = o :: objects := by
  cases hexecutes with
  | alloca o => exact .inr ⟨o, rfl⟩
  | other => exact .inl rfl

/-- The objects of a call after an instruction, with the marks before what is inserted. -/
theorem OpenCall.Sound.executes {c : OpenCall} (h : c.Sound s) {i : ℕ} {older : List ℕ}
    (hpath : c.path = i :: older) {inst : Inst} (hinst : c.fn.F.insts[i]? = some inst)
    {objects : List StackObject} (hexecutes : Executes mmap i inst s c.objects s objects)
    (hapart : ∀ o, objects = o :: c.objects → ∀ o' ∈ c.objects,
      o.GranuleApart c.fn.M c.fn.files o')
    (hblank : ∀ o, objects = o :: c.objects → ∀ g, o.Granule c.fn.M c.fn.files g →
      (s.view.content g).reference = 0) :
    objects.Pairwise (StackObject.GranuleApart c.fn.M c.fn.files) ∧
      (∀ o ∈ objects, IsAlloca c.fn.F o.alloca) ∧
      ∀ a, IsAlloca c.fn.F a → List.Forall₂ (ObjectShows c.fn s) (objectsOf a objects)
        (if c.path.head? = some a then false :: insertedMarks c.fn.inserted a c.path
        else insertedMarks c.fn.inserted a c.path) := by
  rw [hpath, List.head?_cons, ← hpath]
  cases hexecutes with
  | alloca o halloca htype hconstant hsize =>
      refine ⟨List.pairwise_cons.mpr ⟨hapart o rfl, h.apart⟩,
        List.forall_mem_cons.mpr ⟨halloca ▸ ⟨_, _, _, hinst⟩, h.allocas⟩, fun a ha => ?_⟩
      rw [objectsOf, List.filter_cons]
      simp only [halloca, Option.some.injEq, decide_eq_true_eq]
      split
      · -- nothing has been recorded for the new object yet
        exact .cons (objectShows_false.mpr (hblank o rfl)) (h.shows a ha)
      · exact h.shows a ha
  | other halloca hret layout =>
      refine ⟨h.apart, h.allocas, fun a ha => ?_⟩
      have hother : i ≠ a := by
        rintro rfl
        obtain ⟨type, isPointerTy, arraySize, halloca'⟩ := ha
        exact halloca type isPointerTy arraySize (Option.some.inj (hinst.symm.trans halloca'))
      rw [if_neg fun h => hother (Option.some.inj h)]
      exact h.shows a ha

/-- **An instruction** of the newest call works on the granules of this call and of the
object it makes. -/
theorem ProcessInvariant.next (fresh : FreshMmap mmap) (inv : ProcessInvariant mmap X p)
    {c : OpenCall} {rest : List OpenCall} {i j : ℕ} {older : List ℕ} {inst : Inst}
    {objects : List StackObject} (hcalls : p.calls = c :: rest) (hpath : c.path = i :: older)
    (hinst : c.fn.F.insts[i]? = some inst)
    (hexecutes : Executes mmap i inst p.shadow c.objects p.shadow objects)
    (hunused : ∀ o, objects = o :: c.objects → X.Unused p (o.Granule c.fn.M c.fn.files))
    (hrun : c.fn.runInserted mmap rodata objects (c.fn.inserted j) p.shadow = some s') :
    ProcessInvariant mmap X ⟨s', ⟨c.fn, objects, j :: c.path⟩ :: rest, p.live⟩ := by
  have howners := owners_calls (X := X) (s := s') hcalls
  have howned := inv.owned
  have hmem : Owner.call c ∈ X.owners p := by
    rw [howners]
    exact List.mem_cons_self
  have hsound : c.Sound p.shadow := howned.good _ hmem
  -- nobody uses the granules of a new object, so it shows nothing yet
  obtain ⟨hapart, hallocas, hshows⟩ := hsound.executes hpath hinst hexecutes
    (fun o ho o' ho' g hg hg' => hunused o ho _ hmem g hg ⟨o', ho', hg'⟩)
    (fun o ho g hg => inv.blank (hunused o ho) hg)
  have hinserts := runInserted_shows fresh hapart _ _ _ inv.layout hrun
  have hsound' : OpenCall.Sound ⟨c.fn, objects, j :: c.path⟩ s' :=
    ⟨hapart, hallocas, fun a ha => hinserts.shows a _ (hshows a ha)⟩
  have hgrow := objects_grow hexecutes
  -- the call owns what it owned, and the new object
  have hsub : X.footprint (.call c) ⊆ X.footprint (.call ⟨c.fn, objects, j :: c.path⟩) := by
    intro g hg
    obtain ⟨o, ho, hg⟩ := hg
    rcases hgrow with rfl | ⟨new, rfl⟩
    · exact ⟨o, ho, hg⟩
    · exact ⟨o, List.mem_cons_of_mem _ ho, hg⟩
  rw [howners] at howned
  have hothers : ∀ w ∈ X.owners ⟨s', rest, p.live⟩,
      X.ownership.Apart (.call ⟨c.fn, objects, j :: c.path⟩) w := by
    intro w hw
    have hbefore : X.ownership.Apart (.call c) w := (List.pairwise_cons.mp howned.apart).1 w hw
    refine Set.disjoint_left.mpr fun g hg hg' => ?_
    obtain ⟨o, ho, hgranule⟩ := hg
    rcases hgrow with rfl | ⟨new, rfl⟩
    · exact Set.disjoint_left.mp hbefore ⟨o, ho, hgranule⟩ hg'
    · rcases List.mem_cons.mp ho with rfl | ho
      · exact hunused o rfl w (howners ▸ List.mem_cons_of_mem _ hw) g hgranule hg'
      · exact Set.disjoint_left.mp hbefore ⟨o, ho, hgranule⟩ hg'
  -- what is inserted stays within the call
  have howned' : X.ownership.Owned (.call ⟨c.fn, objects, j :: c.path⟩ ::
      X.owners ⟨s', rest, p.live⟩) s' := by
    refine howned.act hsub hsound' ?_ hothers
    exact fun g hg => ⟨hinserts.frame g fun o ho hmem => hg ⟨o, ho, hmem⟩, hinserts.keeps g⟩
  refine ⟨hinserts.layout, ?_, howned'⟩
  have hfunctions := inv.functions
  rw [hcalls] at hfunctions
  exact List.forall_mem_cons.mpr (List.forall_mem_cons.mp hfunctions)

/-- **A return** gives the granules of its call back, if none of its objects is traced. -/
theorem ProcessInvariant.ret (inv : ProcessInvariant mmap X p) {c : OpenCall}
    {rest : List OpenCall} (hcalls : p.calls = c :: rest) (hback : c.log = []) :
    ProcessInvariant mmap X ⟨p.shadow, rest, p.live⟩ := by
  have howned := inv.owned
  rw [owners_calls (X := X) (s := p.shadow) hcalls] at howned
  have hsound : c.Sound p.shadow := howned.good _ List.mem_cons_self
  have hfunctions := inv.functions
  rw [hcalls] at hfunctions
  refine ⟨inv.layout, (List.forall_mem_cons.mp hfunctions).2, howned.release (fun g hg => ?_)
    fun g _ => ⟨rfl, fun h => h⟩⟩
  have hshows := hsound.shows_log hg
  rw [hback] at hshows
  exact hshows

/-! ## Checks -/

/-- A check changes no entry. -/
theorem view_check {event : Event} (hcheck : isCheck event = true)
    (hrun : (program mmap rodata).step event s = some s') : s'.view = s.view := by
  cases event with
  | call | inlineUpdate | inlineErase => cases hcheck
  | check =>
      obtain rfl := Option.some.inj hrun
      rw [bitypeCastVerification, view_verifyCast]
  | dynamicCheck =>
      obtain rfl := Option.some.inj hrun
      rw [bitypeDynamicCastVerification, view_verifyCast]
  | inlineCheck =>
      obtain rfl := Option.some.inj hrun
      rw [inlineVerification_eq]
      split
      · exact view_print _ _
      · rfl

theorem ProcessInvariant.check (fresh : FreshMmap mmap) (inv : ProcessInvariant mmap X p)
    {event : Event} (hcheck : isCheck event = true)
    (hrun : (program mmap rodata).step event p.shadow = some s') :
    ProcessInvariant mmap X ⟨s', p.calls, p.live⟩ := by
  have hkept : ∀ g, Executable.Kept g p.shadow s' := by
    intro g
    rw [Executable.Kept, view_check hcheck hrun]
    exact ⟨rfl, fun h => h⟩
  exact ⟨event_layout rodata fresh event _ _ inv.layout hrun, inv.functions,
    inv.owned.of_kept hkept⟩

/-! ## Runs -/

/-- **Every step** keeps the invariant, if a call gives back its objects before it returns. -/
theorem ProcessInvariant.step (fresh : FreshMmap mmap) {p' : Process}
    (inv : ProcessInvariant mmap X p) (hstep : ProcessStep mmap rodata X p p')
    (hback : GivesBack p p') : ProcessInvariant mmap X p' := by
  cases hstep with
  | alloc isConstant b husable hroom hunused hrun =>
      exact inv.alloc fresh husable hroom hunused hrun
  | free b hlive hrun => exact inv.free fresh hlive hrun
  | call I hfn hrun => exact inv.call fresh hfn hrun
  | next hcalls hpath hinst hexecutes hunused hnext hrun =>
      exact inv.next fresh hcalls hpath hinst hexecutes hunused hrun
  | check event hcheck hrun => exact inv.check fresh hcheck hrun
  | ret hcalls hpath hinst => exact inv.ret hcalls (hback _ hcalls)

/-- The global variables are traced one after the other. -/
theorem globalObjTracing_owned (fresh : FreshMmap mmap) :
    ∀ (globals : List GlobalVariable) (ws : List Owner) (s s' : Shadow), Layout mmap s →
      X.ownership.Owned ws s →
      (globals.map Owner.global ++ ws).Pairwise X.ownership.Apart →
      (program mmap rodata).run (globalObjTracing X.M X.files X.inlineOpt X.place globals) s =
        some s' →
      Layout mmap s' ∧ X.ownership.Owned (globals.map .global ++ ws) s' := by
  intro globals
  induction globals with
  | nil =>
      intro ws s s' layout howned _ hrun
      cases hrun
      exact ⟨layout, howned⟩
  | cons gv rest ih =>
      intro ws s s' layout howned hapart hrun
      rw [globalObjTracing, List.flatMap_cons, Machine.run_append, Option.bind_eq_some_iff] at hrun
      obtain ⟨s₁, hrun₁, hrest⟩ := hrun
      obtain ⟨hlayout₁, hframe, hkeeps⟩ := gv.events_within rodata X.inlineOpt X.place fresh s s₁
        layout hrun₁
      obtain ⟨-, htable⟩ := (gv.events_logs rodata X.inlineOpt X.place fresh).of_run layout hrun₁
      have hapart₁ := (List.pairwise_cons.mp hapart).1
      have hothers : ∀ w ∈ ws, X.ownership.Apart (.global gv) w := fun w hw =>
        hapart₁ w (List.mem_append_right _ hw)
      have hgood : X.Good (.global gv) s₁ := fun g hg => shows_of_written htable fun _ =>
        howned.blank g fun w hw => Set.disjoint_left.mp (hothers w hw) hg
      have howned₁ : X.ownership.Owned (.global gv :: ws) s₁ :=
        howned.acquire hgood (fun g hg => ⟨hframe g hg, hkeeps g⟩) hothers
      have hmiddle : (Owner.global gv :: (rest.map Owner.global ++ ws)).Perm
          (rest.map .global ++ .global gv :: ws) := List.perm_middle.symm
      obtain ⟨hlayout, howned'⟩ := ih _ _ _ hlayout₁ howned₁
        ((hmiddle.pairwise_iff fun {_ _} h => Disjoint.symm h).mp hapart) hrest
      exact ⟨hlayout, howned'.perm hmiddle.symm⟩

/-- The invariant holds at the start. -/
theorem ProcessStart.invariant (fresh : FreshMmap mmap) (hstart : ProcessStart mmap rodata X p) :
    ProcessInvariant mmap X p := by
  obtain ⟨mem, s₀, hrun, rfl⟩ := hstart
  have hempty : ∀ g, ((bitypeInitialization mmap mem).view.content g).reference = 0 := by
    intro g
    rw [view_init]
    rfl
  have hapart : (X.globals.map Owner.global ++ []).Pairwise X.ownership.Apart := by
    rw [List.append_nil, List.pairwise_map]
    exact X.apart.imp fun h => Set.disjoint_left.mpr h
  have hnobody : X.ownership.Owned [] (bitypeInitialization mmap mem) := .nil hempty
  obtain ⟨hlayout, howned⟩ := globalObjTracing_owned fresh X.globals [] _ _ (layout_init mem)
    hnobody hapart hrun
  rw [List.append_nil] at howned
  exact ⟨hlayout, fun _ hc => absurd hc List.not_mem_nil, howned⟩

/-- **The invariant holds along every tidy run.** -/
theorem TidyReachable.invariant (fresh : FreshMmap mmap) (hreach : TidyReachable mmap rodata X p) :
    ProcessInvariant mmap X p := by
  obtain ⟨p₀, hstart, hsteps⟩ := hreach
  induction hsteps with
  | refl => exact hstart.invariant fresh
  | tail _ hstep ih => exact ih.step fresh hstep.1 hstep.2

/-- The granules an owner writes to are its own. -/
theorem Executable.lastWrite_none {w : Owner} (hgood : X.Good w s) {g : ℕ}
    (hg : g ∉ X.footprint w) : lastWrite (X.ownerLog w) g = none := by
  cases w with
  | call c => exact c.lastWrite_none hg
  | block b =>
      refine lastWrite_none_of (fun g hwrite => ?_) hg
      exact .inr (covers_of_traced X.fitting hgood.usable (Block.exists_mem_log.mp hwrite))
  | global gv => exact lastWrite_none_of (fun g hwrite => .inr hwrite) hg

/-- The granules of an owner show what it writes. -/
theorem Executable.shows_ownerLog {w : Owner} (hgood : X.Good w s) {g : ℕ}
    (hg : g ∈ X.footprint w) : Shows (X.ownerLog w) s g := by
  cases w with
  | call c => exact hgood.shows_log hg
  | block b => exact hgood.shows g hg
  | global gv => exact hgood g hg

/-- **What the table holds** is what the objects write that are alive and traced. -/
theorem ProcessInvariant.shows (inv : ProcessInvariant mmap X p) (g : ℕ) :
    Shows (X.log p) p.shadow g := by
  by_cases howner : ∃ w ∈ X.owners p, g ∈ X.footprint w
  · obtain ⟨w, hw, hg⟩ := howner
    apply (Executable.shows_ownerLog (inv.owned.good w hw) hg).congr
    apply lastWrite_flatMap_eq hw rfl
    intro w' hw'
    by_cases hsame : w' = w
    · exact .inl (hsame ▸ rfl)
    · refine .inr (Executable.lastWrite_none (inv.owned.good w' hw') fun hg' => hsame ?_)
      exact inv.owned.owner_unique hw' hw hg' hg
  · have hfree : ∀ w ∈ X.owners p, g ∉ X.footprint w := fun w hw hg => howner ⟨w, hw, hg⟩
    have hnone : lastWrite (X.log p) g = none := lastWrite_flatMap_none fun w hw =>
      Executable.lastWrite_none (inv.owned.good w hw) (hfree w hw)
    exact (shows_of_none hnone).mpr (inv.owned.blank g hfree)

end Steps

end Bitype.Pass
