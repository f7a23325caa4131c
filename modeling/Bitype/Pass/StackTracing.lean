import Bitype.Pass.HeapLifeCycle
import Bitype.Pass.StackPlan

/-!
# Tracing the objects of a frame

A frame follows a path through the function and runs what has been inserted before each
instruction.  Next to it `marks` follows the same path without a table: of each object it
knows whether the path has passed the update of its alloca or a removal since.

The invariant is that the granules of an object hold references exactly if it is marked.
So the tracing of an alloca is balanced exactly if its marks are (`balanced_iff`).

That takes objects with granules of their own (`Separate`), which the pass does not see to:
it aligns the allocas of cast-related types only, so two small objects of a type that merely
contains such a class may lie in one granule, and the removal of one clears the other's.
-/

namespace Bitype.Pass

open Bitype.Foundations Bitype.Runtime
open Bitype.Tool (Name)

namespace Instrumented

variable (I : Instrumented)

/-- The events of an inserted sequence. -/
def events (objects : List StackObject) : Insert → Option (List Event)
  | .update a => (objects.find? (·.alloca = a)).map (updateEvents I.M I.files I.inlineOpt I.place)
  | .remove a => (objects.find? (·.alloca = a)).map (removeEvents I.M I.files I.inlineOpt)

/-- Run what has been inserted; there is nothing to run it on before the alloca. -/
def runInserted (mmap : ℕ → ℕ) (rodata : Word → Byte) (objects : List StackObject)
    (inserts : List Insert) (s : Shadow) : Option Shadow :=
  inserts.foldlM (fun s insert => do (program mmap rodata).run (← I.events objects insert) s) s

end Instrumented

/-! ## Frames -/

/-- A frame in front of an instruction, with what is inserted there done: the table, the
objects of the frame and the instructions it has been at, both the newest first. -/
structure Frame where
  shadow : Shadow
  objects : List StackObject
  path : List ℕ

/-- The objects of one alloca. -/
def objectsOf (a : ℕ) (objects : List StackObject) : List StackObject :=
  objects.filter (·.alloca = a)

section Steps

variable (mmap : ℕ → ℕ) (rodata : Word → Byte) (I : Instrumented)

/-- What an instruction may do: an alloca makes an object, any other instruction may change
the table.  A return ends the frame. -/
inductive Executes (i : ℕ) : Inst → Shadow → List StackObject → Shadow → List StackObject → Prop
  | alloca {type : IRType} {isPointerTy : Bool} {arraySize : Option Word} {s : Shadow}
      {objects : List StackObject} (o : StackObject) (halloca : o.alloca = i)
      (htype : o.type = type) (hconstant : o.isConstant = arraySize.isSome)
      (hsize : ∀ c, arraySize = some c → o.arraySize = c) :
      Executes i (.alloca type isPointerTy arraySize) s objects s (o :: objects)
  | other {inst : Inst} {s s' : Shadow} {objects : List StackObject}
      (halloca : ∀ type isPointerTy arraySize, inst ≠ .alloca type isPointerTy arraySize)
      (hret : ∀ value, inst ≠ .ret value) (layout : Layout mmap s') :
      Executes i inst s objects s' objects

/-- An instruction neither sets nor clears a reference of the frame's objects. -/
def Undisturbed (s : Shadow) (objects : List StackObject) (s' : Shadow) : Prop :=
  ∀ o ∈ objects, ∀ g, o.Tracks I.M I.files g →
    ((s'.view.content g).reference = 0 ↔ (s.view.content g).reference = 0)

/-- From one instruction to the next. -/
inductive FrameStep : Frame → Frame → Prop
  | step {i j : ℕ} {rest : List ℕ} {inst : Inst} {s s₁ s₂ : Shadow}
      {objects objects₁ : List StackObject} (hinst : I.F.insts[i]? = some inst)
      (hexecutes : Executes mmap i inst s objects s₁ objects₁)
      (hundisturbed : Undisturbed I s objects s₁) (hnext : j ∈ I.F.successors i)
      (hrun : I.runInserted mmap rodata objects₁ (I.inserted j) s₁ = some s₂) :
      FrameStep ⟨s, objects, i :: rest⟩ ⟨s₂, objects₁, j :: i :: rest⟩

/-- The frame is reached from a call of the function. -/
def FrameReachable (f : Frame) : Prop :=
  ∃ s s', Layout mmap s ∧ I.runInserted mmap rodata [] (I.inserted 0) s = some s' ∧
    Relation.ReflTransGen (FrameStep mmap rodata I) ⟨s', [], [0]⟩ f

/-- A new object tracks granules of its own, and they hold nothing yet. -/
structure Separate (f f' : Frame) : Prop where
  apart : ∀ o, f'.objects = o :: f.objects → ∀ o' ∈ f.objects, o.Apart I.M I.files o'
  unused : ∀ o, f'.objects = o :: f.objects → ∀ g, o.Tracks I.M I.files g →
    (f.shadow.view.content g).reference = 0

/-- The frame is reached in steps that keep the objects separate. -/
def SeparateReachable (f : Frame) : Prop :=
  ∃ s s', Layout mmap s ∧ I.runInserted mmap rodata [] (I.inserted 0) s = some s' ∧
    Relation.ReflTransGen (fun f f' => FrameStep mmap rodata I f f' ∧ Separate I f f')
      ⟨s', [], [0]⟩ f

end Steps

/-! ## The life of an alloca -/

section Life

variable (F : Function) (a : ℕ)

/-- A `lifetime.start` that names the alloca. -/
def LifeTimeStart (i : ℕ) : Prop :=
  ∃ isMinusOne pointer, F.insts[i]? = some (.lifetimeStart isMinusOne pointer) ∧ Names F a pointer

/-- A `lifetime.end` that names the alloca. -/
def LifeTimeEnd (i : ℕ) : Prop :=
  ∃ isMinusOne pointer, F.insts[i]? = some (.lifetimeEnd isMinusOne pointer) ∧ Names F a pointer

/-- The life of an alloca starts at its markers, or if it has none at the alloca. -/
def LifeBegins (i : ℕ) : Prop :=
  LifeTimeStart F a i ∨ (¬ ∃ j, LifeTimeStart F a j) ∧ i = a

/-- Since the life has started it has not ended. -/
def LifeOpen (path : List ℕ) : Prop :=
  ∃ newer i older, path = newer ++ i :: older ∧ LifeBegins F a i ∧
    ∀ j ∈ newer, ¬ LifeTimeEnd F a j ∧ j ≠ a

/-- A path is in the life of the alloca, past its start and in front of neither an end nor
a return. -/
def InLife (path : List ℕ) : Prop :=
  ∃ i rest, path = i :: rest ∧ LifeOpen F a rest ∧ ¬ LifeTimeEnd F a i ∧ i ∉ F.findReturnInst

/-- A path is in front of a return that the alloca dominates and that does not give the
alloca back. -/
def AtReturn (path : List ℕ) : Prop :=
  ∃ i rest value, path = i :: rest ∧ F.insts[i]? = some (.ret value) ∧
    Dominates F.successors 0 a i ∧ value ≠ some (.inst a)

end Life

/-- The granules of an alloca hold references in its life and none at a return. -/
structure Balanced (I : Instrumented) (a : ℕ) (f : Frame) : Prop where
  held : InLife I.F a f.path → ∀ o, (objectsOf a f.objects)[0]? = some o →
    ∀ g, o.Tracks I.M I.files g → (f.shadow.view.content g).reference ≠ 0
  cleared : AtReturn I.F a f.path → ∀ o ∈ objectsOf a f.objects,
    ∀ g, o.Tracks I.M I.files g → (f.shadow.view.content g).reference = 0

/-- In the life of the alloca the newest object is marked, and none is at a return.  An
object without granules needs no mark. -/
structure Marked (I : Instrumented) (a : ℕ) (f : Frame) : Prop where
  held : InLife I.F a f.path → ∀ o, (objectsOf a f.objects)[0]? = some o →
    (∃ g, o.Tracks I.M I.files g) → (marks I.F a f.path)[0]? = some true
  cleared : AtReturn I.F a f.path → ∀ (k : ℕ) o, (objectsOf a f.objects)[k]? = some o →
    (∃ g, o.Tracks I.M I.files g) → (marks I.F a f.path)[k]? = some false

/-! ## The invariant of a frame -/

/-- What a mark says of an object. -/
def Holds (I : Instrumented) (s : Shadow) (o : StackObject) (mark : Bool) : Prop :=
  ∀ g, o.Tracks I.M I.files g →
    if mark = true then (s.view.content g).reference ≠ 0 else (s.view.content g).reference = 0

/-- The objects of a frame share no granule, and the marks say what they hold. -/
structure FrameInvariant (mmap : ℕ → ℕ) (I : Instrumented) (f : Frame) : Prop where
  layout : Layout mmap f.shadow
  apart : f.objects.Pairwise (StackObject.Apart I.M I.files)
  marked : ∀ a ∈ I.order,
    List.Forall₂ (Holds I f.shadow) (objectsOf a f.objects) (insertedMarks I.inserted a f.path)

theorem forall₂_imp_of_mem {α β : Type} {R S : α → β → Prop} {l : List α} {l' : List β}
    (h : List.Forall₂ R l l') (himp : ∀ a ∈ l, ∀ b, R a b → S a b) : List.Forall₂ S l l' := by
  induction h with
  | nil => exact .nil
  | cons hfirst _ ih =>
      refine .cons (himp _ List.mem_cons_self _ hfirst) (ih fun a ha => ?_)
      exact himp a (List.mem_cons_of_mem _ ha)

section Invariant

variable {mmap : ℕ → ℕ} {rodata : Word → Byte} {I : Instrumented} {s s' : Shadow}
  {objects : List StackObject} {a : ℕ}

/-- An object none of whose references are set or cleared. -/
theorem Holds.kept {o : StackObject} {mark : Bool} (h : Holds I s o mark)
    (hkept : ∀ g, o.Tracks I.M I.files g →
      ((s'.view.content g).reference = 0 ↔ (s.view.content g).reference = 0)) :
    Holds I s' o mark := by
  intro g hg
  rw [Ne, hkept g hg]
  exact h g hg

theorem SeparateReachable.reachable {f : Frame} (hf : SeparateReachable mmap rodata I f) :
    FrameReachable mmap rodata I f := by
  obtain ⟨s, s', layout, hstart, hsteps⟩ := hf
  refine ⟨s, s', layout, hstart, ?_⟩
  induction hsteps with
  | refl => exact .refl
  | tail _ hstep ih => exact ih.tail hstep.1

theorem mem_objectsOf {o : StackObject} : o ∈ objectsOf a objects ↔ o ∈ objects ∧ o.alloca = a := by
  rw [objectsOf, List.mem_filter, decide_eq_true_eq]

variable (rodata) in
/-- An inserted sequence is about the newest object of an alloca. -/
theorem events_spec (fresh : FreshMmap mmap) (hplace : ∀ name, I.place name ≠ 0)
    {insert : Insert} {events : List Event} (h : I.events objects insert = some events) :
    ∃ (b : ℕ) (mark : Bool) (o : StackObject), objects.find? (·.alloca = b) = some o ∧
      (∀ a marks, insert.mark a marks = if b = a then setNewest mark marks else marks) ∧
      Effect mmap rodata (fun reference => if mark = true then reference ≠ 0 else reference = 0)
        events (o.Tracks I.M I.files) := by
  cases insert with
  | update b =>
      obtain ⟨o, ho, rfl⟩ := Option.map_eq_some_iff.mp h
      refine ⟨b, true, o, ho, fun _ _ => rfl, ?_⟩
      simp only [if_true]
      exact (updateEvents_effect rodata I.inlineOpt fresh hplace o).2
  | remove b =>
      obtain ⟨o, ho, rfl⟩ := Option.map_eq_some_iff.mp h
      refine ⟨b, false, o, ho, fun _ _ => rfl, ?_⟩
      simp only [Bool.false_eq_true, if_false]
      exact removeEvents_effect rodata I.inlineOpt fresh o

/-- The first object of an alloca is its newest. -/
theorem objectsOf_eq_cons {o : StackObject} (h : objects.find? (·.alloca = a) = some o) :
    ∃ older, objectsOf a objects = o :: older := by
  rw [← List.head?_filter] at h
  exact List.head?_eq_some_iff.mp h

/-- **One inserted sequence** changes the marks as it changes the table. -/
theorem insert_marks (fresh : FreshMmap mmap) (hplace : ∀ name, I.place name ≠ 0)
    (layout : Layout mmap s)
    (hapart : objects.Pairwise (StackObject.Apart I.M I.files))
    {insert : Insert} {events : List Event} (hevents : I.events objects insert = some events)
    (hrun : (program mmap rodata).run events s = some s') :
    Layout mmap s' ∧ ∀ a marks, List.Forall₂ (Holds I s) (objectsOf a objects) marks →
      List.Forall₂ (Holds I s') (objectsOf a objects) (insert.mark a marks) := by
  obtain ⟨b, mark, o, ho, hmark, heffect⟩ := events_spec rodata fresh hplace hevents
  obtain ⟨hlayout, hleaves⟩ := heffect s s' layout hrun
  refine ⟨hlayout, fun a marks hmarks => ?_⟩
  have hkept : ∀ o' : StackObject, o.Apart I.M I.files o' →
      ∀ m, Holds I s o' m → Holds I s' o' m :=
    fun o' hother m hm => hm.kept fun g hg => by rw [(hleaves g).2 fun hg' => hother g hg' hg]
  rw [hmark]
  by_cases hb : b = a
  · subst hb
    rw [if_pos rfl]
    obtain ⟨older, hcons⟩ := objectsOf_eq_cons ho
    have hfilter := hapart.filter (fun o => o.alloca = b)
    rw [← objectsOf, hcons, List.pairwise_cons] at hfilter
    rw [hcons] at hmarks ⊢
    cases hmarks with
    | cons _ hrest =>
        -- the older objects of the alloca lie apart from the newest
        refine .cons (fun g hg => (hleaves g).1 hg) (forall₂_imp_of_mem hrest fun o' ho' => ?_)
        exact hkept o' (hfilter.1 o' ho')
  · rw [if_neg hb]
    refine forall₂_imp_of_mem hmarks fun o' ho' => hkept o' ?_
    obtain ⟨hmem, halloca⟩ := mem_objectsOf.mp ho'
    have hfound := List.find?_some ho
    rw [decide_eq_true_eq] at hfound
    have hne : o ≠ o' := fun h => hb (hfound.symm.trans (h ▸ halloca))
    exact hapart.forall (List.mem_of_find?_eq_some ho) hmem hne

/-- **What has been inserted before an instruction**, sequence by sequence. -/
theorem runInserted_marks (fresh : FreshMmap mmap) (hplace : ∀ name, I.place name ≠ 0)
    (hapart : objects.Pairwise (StackObject.Apart I.M I.files)) :
    ∀ (inserts : List Insert) (s s' : Shadow), Layout mmap s →
      I.runInserted mmap rodata objects inserts s = some s' →
      Layout mmap s' ∧ ∀ a marks, List.Forall₂ (Holds I s) (objectsOf a objects) marks →
        List.Forall₂ (Holds I s') (objectsOf a objects) (inserts.foldl (Insert.mark a) marks) := by
  intro inserts
  induction inserts with
  | nil =>
      intro s s' layout hrun
      cases hrun
      exact ⟨layout, fun _ _ h => h⟩
  | cons insert rest ih =>
      intro s s' layout hrun
      rw [Instrumented.runInserted, List.foldlM_cons, Option.bind_eq_bind,
        Option.bind_eq_some_iff] at hrun
      obtain ⟨s₁, hfirst, hrest⟩ := hrun
      obtain ⟨events, hevents, hrun₁⟩ := Option.bind_eq_some_iff.mp hfirst
      obtain ⟨hlayout₁, hmarks₁⟩ := insert_marks fresh hplace layout hapart hevents hrun₁
      obtain ⟨hlayout', hmarks'⟩ := ih s₁ s' hlayout₁ hrest
      exact ⟨hlayout', fun a marks h => hmarks' a _ (hmarks₁ a marks h)⟩

/-- An instrumented alloca is an alloca. -/
theorem exists_alloca (ha : a ∈ I.order) :
    ∃ type isPointerTy arraySize, I.F.insts[a]? = some (.alloca type isPointerTy arraySize) := by
  have hmem := I.perm.mem_iff.mp ha
  rw [Function.allAllocaSet, List.mem_filter] at hmem
  obtain ⟨-, hinst⟩ := hmem
  split at hinst
  · next type isPointerTy arraySize h => exact ⟨type, isPointerTy, arraySize, h⟩
  · cases hinst

/-- **One step** keeps the invariant. -/
theorem FrameInvariant.step (fresh : FreshMmap mmap) (hplace : ∀ name, I.place name ≠ 0)
    {f f' : Frame} (inv : FrameInvariant mmap I f) (hstep : FrameStep mmap rodata I f f')
    (hseparate : Separate I f f') : FrameInvariant mmap I f' := by
  obtain @⟨i, j, rest, inst, s, s₁, s₂, objects, objects₁, hinst, hexecutes, hundisturbed, -,
    hrun⟩ := hstep
  cases hexecutes with
  | alloca o halloca htype hconstant hsize =>
      have hapart := inv.apart.cons fun o' ho' => hseparate.apart o rfl o' ho'
      obtain ⟨hlayout, hmarks⟩ := runInserted_marks fresh hplace hapart _ _ _ inv.layout hrun
      refine ⟨hlayout, hapart, fun a ha => hmarks a _ ?_⟩
      rw [List.head?_cons, objectsOf, List.filter_cons]
      simp only [halloca, Option.some.injEq, decide_eq_true_eq]
      split
      · -- nothing has been recorded for the new object yet
        exact .cons (fun g hg => hseparate.unused o rfl g hg) (inv.marked a ha)
      · exact inv.marked a ha
  | other halloca hret layout =>
      obtain ⟨hlayout, hmarks⟩ := runInserted_marks fresh hplace inv.apart _ _ _ layout hrun
      refine ⟨hlayout, inv.apart, fun a ha => hmarks a _ ?_⟩
      have hother : i ≠ a := by
        rintro rfl
        obtain ⟨type, isPointerTy, arraySize, halloca'⟩ := exists_alloca ha
        exact halloca type isPointerTy arraySize (Option.some.inj (hinst.symm.trans halloca'))
      rw [List.head?_cons, if_neg fun h => hother (Option.some.inj h)]
      apply forall₂_imp_of_mem (inv.marked a ha)
      intro o ho mark hholds
      exact hholds.kept fun g hg => hundisturbed o (mem_objectsOf.mp ho).1 g hg

/-- **Every frame reached in separate steps** keeps the invariant. -/
theorem SeparateReachable.invariant (fresh : FreshMmap mmap) (hplace : ∀ name, I.place name ≠ 0)
    {f : Frame} (hf : SeparateReachable mmap rodata I f) : FrameInvariant mmap I f := by
  obtain ⟨s, s', layout, hstart, hsteps⟩ := hf
  induction hsteps with
  | refl =>
      obtain ⟨hlayout, hmarks⟩ := runInserted_marks fresh hplace .nil _ _ _ layout hstart
      exact ⟨hlayout, .nil, fun a _ => hmarks a [] .nil⟩
  | tail _ hstep ih => exact ih.step fresh hplace hstep.1 hstep.2

/-- What the mark of an object says of it. -/
theorem FrameInvariant.holds {f : Frame} (inv : FrameInvariant mmap I f) (ha : a ∈ I.order)
    {k : ℕ} {o : StackObject} (ho : (objectsOf a f.objects)[k]? = some o) :
    ∃ mark, (marks I.F a f.path)[k]? = some mark ∧ Holds I f.shadow o mark := by
  rw [← insertedMarks_eq ha]
  obtain ⟨hlength, hget⟩ := List.forall₂_iff_get.mp (inv.marked a ha)
  obtain ⟨hk, rfl⟩ := List.getElem?_eq_some_iff.mp ho
  have hk' : k < (insertedMarks I.inserted a f.path).length := hlength ▸ hk
  exact ⟨_, List.getElem?_eq_getElem hk', hget k hk hk'⟩

/-- A mark is what the granules hold, if there are any. -/
theorem Holds.mark_eq {o : StackObject} {mark : Bool} (h : Holds I s o mark)
    (hexists : ∃ g, o.Tracks I.M I.files g) (value : Bool)
    (hvalue : ∀ g, o.Tracks I.M I.files g →
      if value = true then (s.view.content g).reference ≠ 0
      else (s.view.content g).reference = 0) : mark = value := by
  obtain ⟨g, hg⟩ := hexists
  have hmark := h g hg
  have hsame := hvalue g hg
  cases mark with
  | true =>
      cases value with
      | true => rfl
      | false => exact absurd hsame hmark
  | false =>
      cases value with
      | true => exact absurd hmark hsame
      | false => rfl

end Invariant

/-- **When stack tracing is balanced**: for every function, every instrumented alloca and
every frame reached along any path in separate steps, exactly if the marks of the path are. -/
theorem balanced_iff {mmap : ℕ → ℕ} {rodata : Word → Byte} {I : Instrumented}
    (fresh : FreshMmap mmap) (hplace : ∀ name, I.place name ≠ 0) {f : Frame}
    (hf : SeparateReachable mmap rodata I f) {a : ℕ} (ha : a ∈ I.order) :
    Balanced I a f ↔ Marked I a f := by
  have inv := hf.invariant fresh hplace
  constructor
  · intro h
    refine ⟨fun hlife o ho hexists => ?_, fun hreturn k o ho hexists => ?_⟩
    · obtain ⟨mark, hmark, hholds⟩ := inv.holds ha ho
      rw [hmark, hholds.mark_eq hexists true (h.held hlife o ho)]
    · obtain ⟨mark, hmark, hholds⟩ := inv.holds ha ho
      rw [hmark, hholds.mark_eq hexists false (h.cleared hreturn o (List.mem_of_getElem? ho))]
  · intro h
    refine ⟨fun hlife o ho g hg => ?_, fun hreturn o ho g hg => ?_⟩
    · obtain ⟨mark, hmark, hholds⟩ := inv.holds ha ho
      obtain rfl := Option.some.inj (hmark.symm.trans (h.held hlife o ho ⟨g, hg⟩))
      exact hholds g hg
    · obtain ⟨k, hk⟩ := List.getElem?_of_mem ho
      obtain ⟨mark, hmark, hholds⟩ := inv.holds ha hk
      obtain rfl := Option.some.inj (hmark.symm.trans (h.cleared hreturn k o hk ⟨g, hg⟩))
      exact hholds g hg

/-! ## A second end marker -/

/-- An object whose life ends in front of each of two returns. -/
def earlyFunction : Function where
  insts := [.alloca (.struct 1) false (some 1), .bitCast (.inst 0), .lifetimeStart false (.inst 1),
    .other, .lifetimeEnd false (.inst 1), .ret none, .lifetimeEnd false (.inst 1), .ret none]
  successors i := if i = 3 then [4, 6] else if i = 5 ∨ 7 ≤ i then [] else [i + 1]
  nonempty := by decide
  closed := by decide

/-- The pass finds the second end marker taken. -/
def earlyReturn : Instrumented where
  M := wideModule
  files := wideFiles
  inlineOpt := true
  place _ := 4096
  F := earlyFunction
  isSafe _ := false
  order := [0]
  perm := by decide +kernel
  fuel := 3
  maps := ⟨(∅ : AllocaMap).insertIfNew 0 2, ((∅ : AllocaMap).insertIfNew 0 4).insertIfNew 0 6⟩
  collected := rfl

/-- The update is in front of the start marker, the removal in front of the first end. -/
theorem earlyReturn_inserted : earlyReturn.inserted 0 = [] ∧ earlyReturn.inserted 1 = [] ∧
    earlyReturn.inserted 2 = [.update 0] ∧ earlyReturn.inserted 3 = [] ∧
    earlyReturn.inserted 4 = [.remove 0] ∧ earlyReturn.inserted 6 = [] ∧
    earlyReturn.inserted 7 = [] := by decide +kernel

theorem earlyReturn_place (name : Name) : earlyReturn.place name ≠ 0 := by
  show (4096 : Word) ≠ 0
  decide

/-- The object at address 4096. -/
def earlyObject : StackObject := ⟨0, .struct 1, true, 4096, 1⟩

theorem earlyObject_tracks : earlyObject.Tracks earlyReturn.M earlyReturn.files 512 := by
  refine ⟨(0, {1}), ?_, 0, by decide, by decide⟩
  rw [show earlyReturn.files = wideFiles from rfl, show earlyReturn.M = wideModule from rfl,
    show earlyObject.type = .struct 1 from rfl, wideModule_elements]
  exact List.mem_cons_self

section Early

variable {mmap : ℕ → ℕ} {rodata : Word → Byte}

/-- A step that makes no object and leaves the table alone. -/
theorem SeparateReachable.next (fresh : FreshMmap mmap) {s s' : Shadow} {objects : List StackObject}
    {i j : ℕ} {rest : List ℕ}
    (hf : SeparateReachable mmap rodata earlyReturn ⟨s, objects, i :: rest⟩) {inst : Inst}
    (hinst : earlyFunction.insts[i]? = some inst)
    (halloca : ∀ type isPointerTy arraySize, inst ≠ .alloca type isPointerTy arraySize)
    (hret : ∀ value, inst ≠ .ret value) (hnext : j ∈ earlyFunction.successors i)
    (hrun : earlyReturn.runInserted mmap rodata objects (earlyReturn.inserted j) s = some s') :
    SeparateReachable mmap rodata earlyReturn ⟨s', objects, j :: i :: rest⟩ := by
  have layout := (hf.invariant fresh earlyReturn_place).layout
  obtain ⟨s₀, s₀', hlayout, hstart, hsteps⟩ := hf
  refine ⟨s₀, s₀', hlayout, hstart, hsteps.tail
    ⟨.step hinst (.other halloca hret layout) (fun _ _ _ _ => Iff.rfl) hnext hrun, ?_⟩⟩
  exact ⟨fun o ho => absurd ho List.ne_cons_self, fun o ho => absurd ho List.ne_cons_self⟩

variable (rodata) in
/-- The path through the second end marker. -/
theorem exists_earlyFrame (fresh : FreshMmap mmap) :
    ∃ s, SeparateReachable mmap rodata earlyReturn ⟨s, [earlyObject], [7, 6, 3, 2, 1, 0]⟩ := by
  obtain ⟨h₀, h₁, h₂, h₃, -, h₆, h₇⟩ := earlyReturn_inserted
  have hlayout : Layout mmap (bitypeInitialization mmap fun _ => 0) := layout_init _
  have hempty : ∀ g, ((bitypeInitialization mmap fun _ => 0).view.content g).reference = 0 := by
    intro g
    rw [view_init]
    rfl
  -- the alloca
  have hobject : SeparateReachable mmap rodata earlyReturn
      ⟨bitypeInitialization mmap fun _ => 0, [earlyObject], [1, 0]⟩ := by
    refine ⟨bitypeInitialization mmap fun _ => 0, bitypeInitialization mmap fun _ => 0, hlayout,
      by rw [h₀]; rfl, .single ⟨.step
        (show earlyFunction.insts[0]? = some (.alloca (.struct 1) false (some 1)) from rfl)
        (.alloca earlyObject rfl rfl rfl fun c hc => Option.some.inj hc)
        (fun _ ho => absurd ho List.not_mem_nil)
        (by decide : 1 ∈ earlyFunction.successors 0) (by rw [h₁]; rfl), ?_⟩⟩
    exact ⟨fun o ho o' ho' => absurd ho' List.not_mem_nil, fun o ho g hg => hempty g⟩
  -- the update in front of the start marker
  have hspec : Returns mmap rodata (updateEvents earlyReturn.M earlyReturn.files
      earlyReturn.inlineOpt earlyReturn.place earlyObject) ∧ Effect mmap rodata (· ≠ 0)
      (updateEvents earlyReturn.M earlyReturn.files earlyReturn.inlineOpt earlyReturn.place
        earlyObject) (earlyObject.Tracks earlyReturn.M earlyReturn.files) :=
    updateEvents_effect rodata _ fresh earlyReturn_place earlyObject
  obtain ⟨s₁, hrun₁, -⟩ := hspec.2.of_run hspec.1 hlayout
  have hupdate : earlyReturn.runInserted mmap rodata [earlyObject] (earlyReturn.inserted 2)
      (bitypeInitialization mmap fun _ => 0) = some s₁ := by
    rw [h₂]
    show ((program mmap rodata).run _ _).bind some = some s₁
    rw [Option.bind_fun_some]
    exact hrun₁
  have hstart := hobject.next fresh
    (show earlyFunction.insts[1]? = some (.bitCast (.inst 0)) from rfl) (by simp) (by simp)
    (by decide : 2 ∈ earlyFunction.successors 1) hupdate
  have hbranch := hstart.next fresh
    (show earlyFunction.insts[2]? = some (.lifetimeStart false (.inst 1)) from rfl) (by simp)
    (by simp) (by decide : 3 ∈ earlyFunction.successors 2) (by rw [h₃]; rfl)
  have hend := hbranch.next fresh (show earlyFunction.insts[3]? = some .other from rfl) (by simp)
    (by simp) (by decide : 6 ∈ earlyFunction.successors 3) (by rw [h₆]; rfl)
  exact ⟨s₁, hend.next fresh
    (show earlyFunction.insts[6]? = some (.lifetimeEnd false (.inst 1)) from rfl) (by simp)
    (by simp) (by decide : 7 ∈ earlyFunction.successors 6) (by rw [h₇]; rfl)⟩

end Early

/-- The frame in front of the second return. -/
theorem balanced_iff_sample : ∃ f, SeparateReachable spacedMmap (fun _ => 0) earlyReturn f ∧
    (Balanced earlyReturn 0 f ↔ Marked earlyReturn 0 f) := by
  obtain ⟨s, hf⟩ := exists_earlyFrame (fun _ => 0) spacedMmap_fresh
  exact ⟨_, hf, balanced_iff spacedMmap_fresh earlyReturn_place hf List.mem_cons_self⟩

/-- The object is left behind at the second return. -/
theorem second_end_leaves :
    ¬ ∀ (mmap : ℕ → ℕ) (rodata : Word → Byte) (I : Instrumented) (f : Frame) (a : ℕ),
      FreshMmap mmap → (∀ name, I.place name ≠ 0) → FrameReachable mmap rodata I f →
      a ∈ I.order → Balanced I a f := by
  intro hall
  obtain ⟨s, hf⟩ := exists_earlyFrame (fun _ => 0) spacedMmap_fresh
  have hbalanced := hall _ _ earlyReturn _ 0 spacedMmap_fresh earlyReturn_place hf.reachable
    List.mem_cons_self
  have hdominates : earlyFunction.dominates 0 7 = true := by decide +kernel
  have hreturn : AtReturn earlyReturn.F 0 [7, 6, 3, 2, 1, 0] :=
    ⟨7, _, none, rfl, rfl, earlyFunction.dominates_iff.mp hdominates, by decide⟩
  have hmem : earlyObject ∈ objectsOf 0 [earlyObject] := mem_objectsOf.mpr ⟨List.mem_cons_self, rfl⟩
  have hzero := hbalanced.cleared hreturn earlyObject hmem 512 earlyObject_tracks
  obtain ⟨mark, hmark, hholds⟩ := (hf.invariant spacedMmap_fresh earlyReturn_place).holds
    (show 0 ∈ earlyReturn.order from List.mem_cons_self)
    (show (objectsOf 0 [earlyObject])[0]? = some earlyObject from rfl)
  have htrue : (marks earlyReturn.F 0 [7, 6, 3, 2, 1, 0])[0]? = some true := by
    rw [← insertedMarks_eq List.mem_cons_self]
    decide +kernel
  obtain rfl := Option.some.inj (hmark.symm.trans htrue)
  exact hholds 512 earlyObject_tracks hzero

end Bitype.Pass
