import Bitype.Foundations.Ownership
import Bitype.Pass.Globals
import Bitype.Pass.StackTracing
import Bitype.Runtime.Provenance

/-!
# A running program

All objects of a program share one table: its global variables, its live heap blocks and the
stack objects of the calls that have not returned.  `ProcessStep` lets allocations, frees, calls,
instructions, checks and returns come in any order.

The runs are those of one thread in which nothing else writes to the table: no placement `new`,
no `reinterpret_cast`, no `realloc` and no unwinding.  Every block comes from `new` or `malloc`
and has room for at least one object; what is new has granules that nobody has; and a free has
the sequence for the type that the block was allocated with.  A block without room is left out
because its free goes wrong: it takes the zero in the size slot for one object, so after
`p = new D[0]` and `q = new D` the free of `p` may clear granules of `q`.

What the table should hold is said without it: `Executable.log` is what the objects that are
alive and traced write.  A run is tidy if each call gives back its objects before it returns,
and in every state of a tidy run a check sees just that (`ProcessInvariant.shows`).  The
argument goes owner by owner: every live object owns the granules its sequences may touch, and
all other granules hold no reference.
-/

namespace Bitype.Pass

open Bitype.Foundations Bitype.Runtime
open Bitype.Tool (Name)

/-! ## What a granule shows -/

/-- The granule holds what the log writes to it last, or no reference. -/
def Shows (log : TraceLog) (s : Shadow) (g : ℕ) : Prop :=
  match lastWrite log g with
  | some value => tableAt s.view g = value
  | none => (s.view.content g).reference = 0

section Shows

variable {log log' : TraceLog} {s s' : Shadow} {g : ℕ}

theorem shows_of_some {value : Word × U32} (h : lastWrite log g = some value) :
    Shows log s g ↔ tableAt s.view g = value := by
  rw [Shows, h]

theorem shows_of_none (h : lastWrite log g = none) :
    Shows log s g ↔ (s.view.content g).reference = 0 := by
  rw [Shows, h]

theorem Shows.kept (h : Shows log s g) (hkept : s'.view.content g = s.view.content g) :
    Shows log s' g := by
  unfold Shows tableAt at *
  rwa [hkept]

/-- Two logs that end alike in the granule. -/
theorem Shows.congr (h : Shows log s g) (hsame : lastWrite log' g = lastWrite log g) :
    Shows log' s g := by
  rwa [Shows, hsame]

/-- A sequence with a log, where no reference was before. -/
theorem shows_of_written (htable : tableAt s'.view = written log (tableAt s.view))
    (hblank : lastWrite log g = none → (s.view.content g).reference = 0) : Shows log s' g := by
  have hg : tableAt s'.view g = (lastWrite log g).getD (tableAt s.view g) := congrFun htable g
  cases hlast : lastWrite log g with
  | none =>
      rw [hlast] at hg
      exact (shows_of_none hlast).mpr ((congrArg Prod.fst hg).trans (hblank hlast))
  | some value =>
      rw [hlast] at hg
      exact (shows_of_some hlast).mpr hg

/-- What writes to no granule of an object leaves it blank. -/
theorem lastWrite_none_of {L : ℕ → Prop} (h : ∀ g, (∃ write ∈ log, write.1 = g) → L g)
    (hg : ¬ L g) : lastWrite log g = none :=
  lastWrite_eq_none_iff.mpr fun write hwrite hsame => hg (h g ⟨write, hwrite, hsame⟩)

end Shows

/-! ## Programs -/

/-- A call that has not returned: its function with what has been inserted there, its
objects and the instructions it has been at, both the newest first. -/
structure OpenCall where
  fn : Instrumented
  objects : List StackObject
  path : List ℕ

/-- What owns granules. -/
inductive Owner
  | call (c : OpenCall)
  | block (b : Block)
  | global (gv : GlobalVariable)

/-- A program, as it has been compiled from one module.  Its global variables are linked to
places apart from each other. -/
structure Executable where
  M : Module
  fitting : M.Fitting
  files : ClassFiles
  inlineOpt : Bool
  place : Name → Word
  globals : List GlobalVariable
  apart : globals.Pairwise fun gv gv' =>
    ∀ g, gv.Granule M files place g → ¬ gv'.Granule M files place g
  functions : List Instrumented
  shared : ∀ I ∈ functions, I.M = M ∧ I.files = files ∧ I.inlineOpt = inlineOpt ∧ I.place = place

/-- The table, the calls that have not returned, the newest first, and the live blocks. -/
structure Process where
  shadow : Shadow
  calls : List OpenCall
  live : List Block

namespace StackObject

variable (M : Module) (files : ClassFiles) (place : Name → Word)

/-- What the sequence of an alloca has left of an object, if it is traced. -/
def markedLog (o : StackObject) (mark : Bool) : TraceLog :=
  if mark = true then o.log M files place else []

end StackObject

namespace OpenCall

variable (c : OpenCall)

/-- The objects of one alloca, each with whether it is traced. -/
def marked (a : ℕ) : List (StackObject × Bool) :=
  (objectsOf a c.objects).zip (insertedMarks c.fn.inserted a c.path)

/-- What the traced objects of a call write. -/
def log : TraceLog :=
  (c.objects.map (·.alloca)).dedup.flatMap fun a => (c.marked a).flatMap fun object =>
    object.1.markedLog c.fn.M c.fn.files c.fn.place object.2

/-- The granules of the objects of a call. -/
def Granule (g : ℕ) : Prop := ∃ o ∈ c.objects, o.Granule c.fn.M c.fn.files g

end OpenCall

namespace Executable

variable (X : Executable)

/-- The granules an owner has. -/
def footprint : Owner → Set ℕ
  | .call c => {g | c.Granule g}
  | .block b => {g | b.Granule g}
  | .global gv => {g | gv.Granule X.M X.files X.place g}

/-- What an owner writes. -/
def ownerLog : Owner → TraceLog
  | .call c => c.log
  | .block b => b.log X.M X.files X.place
  | .global gv => gv.log X.M X.files X.place

/-- Who owns granules. -/
def owners (p : Process) : List Owner :=
  p.calls.map .call ++ (p.live.map .block ++ X.globals.map .global)

/-- What the objects that are alive and traced write. -/
def log (p : Process) : TraceLog := (X.owners p).flatMap X.ownerLog

/-- Nobody owns any of these granules. -/
def Unused (p : Process) (L : ℕ → Prop) : Prop :=
  ∀ w ∈ X.owners p, ∀ g, L g → g ∉ X.footprint w

end Executable

/-! ## Runs -/

/-- The events that only read the table. -/
def isCheck : Event → Bool
  | .check .. | .dynamicCheck .. | .inlineCheck .. => true
  | _ => false

section Runs

variable (mmap : ℕ → ℕ) (rodata : Word → Byte) (X : Executable)

/-- The steps of a running program.  A block has room for an object (`hroom`), what is new has
granules that nobody has (`hunused`), and a free carries the type of its allocation, since it is
of the same block.  There are no other steps that write to the table. -/
inductive ProcessStep : Process → Process → Prop
  | alloc {p : Process} {s' : Shadow} (isConstant : Bool) (b : Block) (husable : b.Usable X.M)
      (hroom : arraySizeF X.M b ≠ 0) (hunused : X.Unused p b.Granule)
      (hrun : (program mmap rodata).run
        (handleHeapAlloc X.M X.files X.inlineOpt X.place false isConstant b) p.shadow = some s') :
      ProcessStep p ⟨s', p.calls, b :: p.live⟩
  | free {p : Process} {s' : Shadow} {before after : List Block} (b : Block)
      (hlive : p.live = before ++ b :: after)
      (hrun : (program mmap rodata).run (handleFree X.M X.files X.inlineOpt b) p.shadow = some s') :
      ProcessStep p ⟨s', p.calls, before ++ after⟩
  | call {p : Process} {s' : Shadow} (I : Instrumented) (hfn : I ∈ X.functions)
      (hrun : I.runInserted mmap rodata [] (I.inserted 0) p.shadow = some s') :
      ProcessStep p ⟨s', ⟨I, [], [0]⟩ :: p.calls, p.live⟩
  | next {p : Process} {s' : Shadow} {c : OpenCall} {rest : List OpenCall} {i j : ℕ}
      {older : List ℕ} {inst : Inst} {objects : List StackObject}
      (hcalls : p.calls = c :: rest) (hpath : c.path = i :: older)
      (hinst : c.fn.F.insts[i]? = some inst)
      (hexecutes : Executes mmap i inst p.shadow c.objects p.shadow objects)
      (hunused : ∀ o, objects = o :: c.objects → X.Unused p (o.Granule c.fn.M c.fn.files))
      (hnext : j ∈ c.fn.F.successors i)
      (hrun : c.fn.runInserted mmap rodata objects (c.fn.inserted j) p.shadow = some s') :
      ProcessStep p ⟨s', ⟨c.fn, objects, j :: c.path⟩ :: rest, p.live⟩
  | check {p : Process} {s' : Shadow} (event : Event) (hcheck : isCheck event = true)
      (hrun : (program mmap rodata).step event p.shadow = some s') :
      ProcessStep p ⟨s', p.calls, p.live⟩
  | ret {p : Process} {c : OpenCall} {rest : List OpenCall} {i : ℕ} {older : List ℕ}
      {value : Option Value} (hcalls : p.calls = c :: rest) (hpath : c.path = i :: older)
      (hinst : c.fn.F.insts[i]? = some (.ret value)) :
      ProcessStep p ⟨p.shadow, rest, p.live⟩

/-- If the step is the return of a call, none of its objects is traced any more. -/
def GivesBack (p p' : Process) : Prop := ∀ c, p.calls = c :: p'.calls → c.log = []

/-- The table has been set up and the global variables have been traced. -/
def ProcessStart (p : Process) : Prop :=
  ∃ mem s₀, (program mmap rodata).run
      (globalObjTracing X.M X.files X.inlineOpt X.place X.globals)
      (bitypeInitialization mmap mem) = some s₀ ∧ p = ⟨s₀, [], []⟩

/-- The states of all runs of these steps. -/
def ProcessReachable (p : Process) : Prop :=
  ∃ p₀, ProcessStart mmap rodata X p₀ ∧ Relation.ReflTransGen (ProcessStep mmap rodata X) p₀ p

/-- The states of the runs in which each call gives back its objects before it returns. -/
def TidyReachable (p : Process) : Prop :=
  ∃ p₀, ProcessStart mmap rodata X p₀ ∧
    Relation.ReflTransGen (fun p p' => ProcessStep mmap rodata X p p' ∧ GivesBack p p') p₀ p

end Runs

/-! ## What an owner looks like -/

/-- The instruction makes objects. -/
def IsAlloca (F : Function) (a : ℕ) : Prop :=
  ∃ type isPointerTy arraySize, F.insts[a]? = some (.alloca type isPointerTy arraySize)

/-- Two objects have no granule in common. -/
def StackObject.GranuleApart (M : Module) (files : ClassFiles) (o o' : StackObject) : Prop :=
  ∀ g, o.Granule M files g → ¬ o'.Granule M files g

instance (M : Module) (files : ClassFiles) : Std.Symm (StackObject.GranuleApart M files) :=
  ⟨fun _ _ h g hg hg' => h g hg' hg⟩

/-- The granules of an object show what its mark says. -/
def ObjectShows (I : Instrumented) (s : Shadow) (o : StackObject) (mark : Bool) : Prop :=
  ∀ g, o.Granule I.M I.files g → Shows (o.markedLog I.M I.files I.place mark) s g

/-- The objects of a call share no granule, and each shows what its mark says. -/
structure OpenCall.Sound (c : OpenCall) (s : Shadow) : Prop where
  apart : c.objects.Pairwise (StackObject.GranuleApart c.fn.M c.fn.files)
  allocas : ∀ o ∈ c.objects, IsAlloca c.fn.F o.alloca
  shows : ∀ a, IsAlloca c.fn.F a →
    List.Forall₂ (ObjectShows c.fn s) (objectsOf a c.objects) (insertedMarks c.fn.inserted a c.path)

namespace Executable

variable (X : Executable)

/-- The granules of a block show what its allocation has traced, and its first granule has
the number of objects that a free looks for. -/
structure BlockSound (b : Block) (s : Shadow) : Prop where
  usable : b.Usable X.M
  room : arraySizeF X.M b ≠ 0
  noted : (X.M.elementsOf X.files b.type).isEmpty = false →
    (s.view (granule b.addr)).isSome ∧ (s.view.content (granule b.addr)).size = b.count X.M
  shows : ∀ g, b.Granule g → Shows (b.log X.M X.files X.place) s g

/-- What must be true of the granules of an owner. -/
def Good : Owner → Shadow → Prop
  | .call c, s => c.Sound s
  | .block b, s => X.BlockSound b s
  | .global gv, s => ∀ g, gv.Granule X.M X.files X.place g →
      Shows (gv.log X.M X.files X.place) s g

/-- The entry of a granule is as it was, and if it was there it is there. -/
def Kept (g : ℕ) (s s' : Shadow) : Prop :=
  s'.view.content g = s.view.content g ∧ ((s.view g).isSome → (s'.view g).isSome)

theorem Good.kept {w : Owner} {s s' : Shadow} (h : ∀ g ∈ X.footprint w, Kept g s s')
    (hgood : X.Good w s) : X.Good w s' := by
  cases w with
  | call c =>
      refine ⟨hgood.apart, hgood.allocas, fun a ha => ?_⟩
      apply forall₂_imp_of_mem (hgood.shows a ha)
      exact fun o ho mark hshows g hg => (hshows g hg).kept (h g ⟨o, (mem_objectsOf.mp ho).1, hg⟩).1
  | block b =>
      refine ⟨hgood.usable, hgood.room, fun hne => ?_, fun g hg => (hgood.shows g hg).kept (h g hg).1⟩
      obtain ⟨hcontent, hkeeps⟩ := h (granule b.addr) (.inl rfl)
      obtain ⟨hsome, hsize⟩ := hgood.noted hne
      exact ⟨hkeeps hsome, by rw [hcontent, hsize]⟩
  | global gv => exact fun g hg => (hgood g hg).kept (h g hg).1

/-- Who owns which granules of the table. -/
def ownership : Ownership Shadow ℕ Owner where
  footprint := X.footprint
  Good := X.Good
  Blank g s := (s.view.content g).reference = 0
  Kept := Kept
  good_of_kept := Good.kept X
  blank_of_kept h hblank := (congrArg Entry.reference h.1).trans hblank

end Executable

/-- What holds in every state of a run. -/
structure ProcessInvariant (mmap : ℕ → ℕ) (X : Executable) (p : Process) : Prop where
  layout : Layout mmap p.shadow
  functions : ∀ c ∈ p.calls, c.fn ∈ X.functions
  owned : X.ownership.Owned (X.owners p) p.shadow

/-! ## The log of a call -/

section CallLog

variable {c : OpenCall} {s : Shadow} {g : ℕ}

theorem StackObject.lastWrite_markedLog_none {M : Module} {files : ClassFiles} {place : Name → Word}
    {o : StackObject} (mark : Bool) (hg : ¬ o.Granule M files g) :
    lastWrite (o.markedLog M files place mark) g = none := by
  unfold markedLog
  split
  · exact lastWrite_none_of (fun g hwrite => .inr (exists_mem_log.mp hwrite)) hg
  · rfl

theorem OpenCall.mem_marked {a : ℕ} {object : StackObject × Bool} (h : object ∈ c.marked a) :
    object.1 ∈ c.objects ∧ object.1.alloca = a :=
  mem_objectsOf.mp (List.of_mem_zip h).1

/-- A call writes to its own granules only. -/
theorem OpenCall.lastWrite_none (hg : ¬ c.Granule g) : lastWrite c.log g = none := by
  apply lastWrite_flatMap_none
  intro a _
  apply lastWrite_flatMap_none
  intro object hobject
  apply StackObject.lastWrite_markedLog_none
  exact fun hmem => hg ⟨object.1, (mem_marked hobject).1, hmem⟩

/-- **The granules of a call** show what its traced objects write. -/
theorem OpenCall.Sound.shows_log (h : c.Sound s) (hg : c.Granule g) : Shows c.log s g := by
  obtain ⟨o, ho, hgranule⟩ := hg
  obtain ⟨hlength, hshows⟩ := List.forall₂_iff_zip.mp (h.shows o.alloca (h.allocas o ho))
  -- the object and its mark
  obtain ⟨k, hk, hget⟩ := List.getElem_of_mem (mem_objectsOf.mpr ⟨ho, rfl⟩)
  have hmark : k < (insertedMarks c.fn.inserted o.alloca c.path).length := hlength ▸ hk
  have hpair : (o, (insertedMarks c.fn.inserted o.alloca c.path)[k]) ∈ c.marked o.alloca := by
    rw [OpenCall.marked, List.mem_iff_getElem]
    exact ⟨k, by rw [List.length_zip]; omega, by rw [List.getElem_zip, hget]⟩
  generalize (insertedMarks c.fn.inserted o.alloca c.path)[k] = mark at hpair
  -- no other object has the granule
  have hother : ∀ o' ∈ c.objects, o' ≠ o → ¬ o'.Granule c.fn.M c.fn.files g :=
    fun o' ho' hne => h.apart.forall ho ho' hne.symm g hgranule
  have hapart : (c.marked o.alloca).Pairwise fun x y =>
      x.1.GranuleApart c.fn.M c.fn.files y.1 := by
    have hobjects : ((c.marked o.alloca).map Prod.fst).Pairwise
        (StackObject.GranuleApart c.fn.M c.fn.files) := by
      rw [OpenCall.marked, List.map_fst_zip hlength.le]
      exact h.apart.filter _
    exact List.pairwise_map.mp hobjects
  have hsymm : Std.Symm fun x y : StackObject × Bool =>
      x.1.GranuleApart c.fn.M c.fn.files y.1 := ⟨fun _ _ h g hg hg' => h g hg' hg⟩
  have halloca : lastWrite ((c.marked o.alloca).flatMap fun object =>
      object.1.markedLog c.fn.M c.fn.files c.fn.place object.2) g =
      lastWrite (o.markedLog c.fn.M c.fn.files c.fn.place mark) g := by
    apply lastWrite_flatMap_eq hpair rfl
    intro object hobject
    by_cases hsame : object = (o, mark)
    · exact .inl (hsame ▸ rfl)
    · exact .inr (StackObject.lastWrite_markedLog_none _
        (hapart.forall hpair hobject (Ne.symm hsame) g hgranule))
  apply (hshows hpair g hgranule).congr
  apply lastWrite_flatMap_eq (List.mem_dedup.mpr (List.mem_map_of_mem ho)) halloca
  · intro a _
    by_cases hsame : a = o.alloca
    · exact .inl (hsame ▸ halloca)
    · refine .inr (lastWrite_flatMap_none fun object hobject => ?_)
      obtain ⟨hmem, halloca⟩ := OpenCall.mem_marked hobject
      apply StackObject.lastWrite_markedLog_none
      exact hother _ hmem fun h => hsame (halloca.symm.trans (congrArg StackObject.alloca h))

end CallLog

/-! ## The inserted sequences -/

section Inserted

variable {mmap : ℕ → ℕ} {rodata : Word → Byte} {I : Instrumented} {s s' : Shadow}
  {objects : List StackObject}

theorem Logs.of_run {events : List Event} {log : TraceLog} (h : Logs mmap rodata events log)
    (layout : Layout mmap s) (hrun : (program mmap rodata).run events s = some s') :
    Layout mmap s' ∧ tableAt s'.view = written log (tableAt s.view) := by
  obtain ⟨s₁, hrun₁, hlayout, htable⟩ := h s layout
  obtain rfl := Option.some.inj (hrun.symm.trans hrun₁)
  exact ⟨hlayout, htable⟩

theorem ObjectShows.kept {o : StackObject} {mark : Bool} (h : ObjectShows I s o mark)
    (hkept : ∀ g, o.Granule I.M I.files g → s'.view.content g = s.view.content g) :
    ObjectShows I s' o mark := fun g hg => (h g hg).kept (hkept g hg)

/-- Where an object is not traced its granules hold no references. -/
theorem objectShows_false {o : StackObject} : ObjectShows I s o false ↔
    ∀ g, o.Granule I.M I.files g → (s.view.content g).reference = 0 := Iff.rfl

/-- A granule that an object has but does not track holds no reference. -/
theorem ObjectShows.untracked {o : StackObject} {mark : Bool} (h : ObjectShows I s o mark) {g : ℕ}
    (hg : o.Granule I.M I.files g) (hnone : ¬ o.Tracks I.M I.files g) :
    (s.view.content g).reference = 0 := by
  apply (shows_of_none _).mp (h g hg)
  unfold StackObject.markedLog
  split
  · exact lastWrite_none_of (fun g hwrite => StackObject.exists_mem_log.mp hwrite) hnone
  · rfl

variable (rodata) in
/-- The update of an object makes it show its log. -/
theorem updateEvents_shows (fresh : FreshMmap mmap) {o : StackObject} {mark : Bool}
    (layout : Layout mmap s)
    (hrun : (program mmap rodata).run (updateEvents I.M I.files I.inlineOpt I.place o) s = some s')
    (h : ObjectShows I s o mark) : ObjectShows I s' o true := by
  obtain ⟨-, htable⟩ := (updateEvents_logs rodata I.inlineOpt I.place fresh o).of_run layout hrun
  refine fun g hg => shows_of_written htable fun hnone => h.untracked hg fun htracks => ?_
  obtain ⟨write, hwrite, hsame⟩ := StackObject.exists_mem_log.mpr htracks
  exact lastWrite_eq_none_iff.mp hnone write hwrite hsame

variable (rodata) in
/-- The removal of an object makes it show nothing. -/
theorem removeEvents_shows (fresh : FreshMmap mmap) {o : StackObject} {mark : Bool}
    (layout : Layout mmap s)
    (hrun : (program mmap rodata).run (removeEvents I.M I.files I.inlineOpt o) s = some s')
    (h : ObjectShows I s o mark) : ObjectShows I s' o false := by
  obtain ⟨-, hleaves⟩ := removeEvents_effect rodata I.inlineOpt fresh o s s' layout hrun
  intro g hg
  by_cases htracks : o.Tracks I.M I.files g
  · exact (hleaves g).1 htracks
  · exact ((hleaves g).2 htracks).trans (h.untracked hg htracks)

variable (rodata) in
/-- An inserted sequence is about the newest object of an alloca, and says whether it is
traced. -/
theorem events_shows (fresh : FreshMmap mmap) {insert : Insert} {events : List Event}
    (h : I.events objects insert = some events) :
    ∃ (b : ℕ) (mark : Bool) (o : StackObject), objects.find? (·.alloca = b) = some o ∧
      (∀ a marks, insert.mark a marks = if b = a then setNewest mark marks else marks) ∧
      StaysWithin mmap rodata events (o.Granule I.M I.files) ∧
      ∀ s s', Layout mmap s → (program mmap rodata).run events s = some s' →
        ∀ m, ObjectShows I s o m → ObjectShows I s' o mark := by
  cases insert with
  | update b =>
      obtain ⟨o, ho, rfl⟩ := Option.map_eq_some_iff.mp h
      exact ⟨b, true, o, ho, fun _ _ => rfl, updateEvents_within rodata I.inlineOpt I.place fresh o,
        fun s s' layout hrun m => updateEvents_shows rodata fresh layout hrun⟩
  | remove b =>
      obtain ⟨o, ho, rfl⟩ := Option.map_eq_some_iff.mp h
      exact ⟨b, false, o, ho, fun _ _ => rfl, removeEvents_within rodata I.inlineOpt fresh o,
        fun s s' layout hrun m => removeEvents_shows rodata fresh layout hrun⟩

/-- From `s` to `s'` sequences have changed nothing but the granules of some objects, and the
marks of these as `mark` says. -/
structure Inserts (mmap : ℕ → ℕ) (I : Instrumented) (objects : List StackObject)
    (mark : ℕ → List Bool → List Bool) (s s' : Shadow) : Prop where
  layout : Layout mmap s'
  frame : ∀ g, (∀ o ∈ objects, ¬ o.Granule I.M I.files g) → s'.view.content g = s.view.content g
  keeps : ∀ g, (s.view g).isSome → (s'.view g).isSome
  shows : ∀ a marks, List.Forall₂ (ObjectShows I s) (objectsOf a objects) marks →
    List.Forall₂ (ObjectShows I s') (objectsOf a objects) (mark a marks)

/-- **One inserted sequence.** -/
theorem insert_shows (fresh : FreshMmap mmap) (layout : Layout mmap s)
    (hapart : objects.Pairwise (StackObject.GranuleApart I.M I.files))
    {insert : Insert} {events : List Event} (hevents : I.events objects insert = some events)
    (hrun : (program mmap rodata).run events s = some s') :
    Inserts mmap I objects (fun a marks => insert.mark a marks) s s' := by
  obtain ⟨b, mark, o, ho, hmark, hwithin, heffect⟩ := events_shows rodata fresh hevents
  obtain ⟨hlayout, hframe, hkeeps⟩ := hwithin s s' layout hrun
  have hmem := List.mem_of_find?_eq_some ho
  refine ⟨hlayout, fun g hg => hframe g (hg o hmem), hkeeps, fun a marks hmarks => ?_⟩
  have hkept : ∀ o' : StackObject, o.GranuleApart I.M I.files o' →
      ∀ m, ObjectShows I s o' m → ObjectShows I s' o' m :=
    fun o' hother m hm => hm.kept fun g hg => hframe g fun hg' => hother g hg' hg
  rw [hmark]
  by_cases hb : b = a
  · subst hb
    rw [if_pos rfl]
    obtain ⟨older, hcons⟩ := objectsOf_eq_cons ho
    have hfilter := hapart.filter (fun o => o.alloca = b)
    rw [← objectsOf, hcons, List.pairwise_cons] at hfilter
    rw [hcons] at hmarks ⊢
    cases hmarks with
    | @cons _ m _ _ hnewest hrest =>
        -- the older objects of the alloca lie apart from the newest
        refine .cons (heffect s s' layout hrun m hnewest)
          (forall₂_imp_of_mem hrest fun o' ho' => ?_)
        exact hkept o' (hfilter.1 o' ho')
  · rw [if_neg hb]
    refine forall₂_imp_of_mem hmarks fun o' ho' => hkept o' ?_
    obtain ⟨hmem', halloca⟩ := mem_objectsOf.mp ho'
    have hfound := List.find?_some ho
    rw [decide_eq_true_eq] at hfound
    have hne : o ≠ o' := fun h => hb (hfound.symm.trans (h ▸ halloca))
    exact hapart.forall hmem hmem' hne

/-- **What has been inserted before an instruction**, sequence by sequence. -/
theorem runInserted_shows (fresh : FreshMmap mmap)
    (hapart : objects.Pairwise (StackObject.GranuleApart I.M I.files)) :
    ∀ (inserts : List Insert) (s s' : Shadow), Layout mmap s →
      I.runInserted mmap rodata objects inserts s = some s' →
      Inserts mmap I objects (fun a marks => inserts.foldl (Insert.mark a) marks) s s' := by
  intro inserts
  induction inserts with
  | nil =>
      intro s s' layout hrun
      cases hrun
      exact ⟨layout, fun _ _ => rfl, fun _ h => h, fun _ _ h => h⟩
  | cons insert rest ih =>
      intro s s' layout hrun
      rw [Instrumented.runInserted, List.foldlM_cons, Option.bind_eq_bind,
        Option.bind_eq_some_iff] at hrun
      obtain ⟨s₁, hfirst, hrest⟩ := hrun
      obtain ⟨events, hevents, hrun₁⟩ := Option.bind_eq_some_iff.mp hfirst
      have h₁ := insert_shows fresh layout hapart hevents hrun₁
      have h₂ := ih s₁ s' h₁.layout hrest
      exact ⟨h₂.layout, fun g hg => (h₂.frame g hg).trans (h₁.frame g hg),
        fun g hg => h₂.keeps g (h₁.keeps g hg), fun a marks h => h₂.shows a _ (h₁.shows a marks h)⟩

end Inserted

end Bitype.Pass
