import Bitype.Pass.Heap

/-!
# Tracing and erasing a stack object

For an alloca with a constant array size the pass emits one update and one erase for each
granule of each object; for any other it emits the loops over the objects, and hands the
number of objects to the erase as well.

A sequence `Leaves` references as it should in some granules and keeps all others.  The
sequence of an alloca leaves references in the granules that the object `Tracks`
(`updateEvents_effect`), its removal leaves none there (`removeEvents_effect`).
-/

namespace Bitype.Pass

open Bitype.Foundations Bitype.Runtime
open Bitype.Tool (Name)

/-! ## References -/

/-- The references of the granules in `L` are as `P` says, all others are kept. -/
def Leaves (P : Word → Prop) (L : ℕ → Prop) (m m' : GranuleMap) : Prop :=
  ∀ g, (L g → P (m'.content g).reference) ∧
    (¬ L g → (m'.content g).reference = (m.content g).reference)

/-- Whenever a sequence returns it leaves references so. -/
def Effect (mmap : ℕ → ℕ) (rodata : Word → Byte) (P : Word → Prop) (events : List Event)
    (L : ℕ → Prop) : Prop :=
  ∀ s s', Layout mmap s → (program mmap rodata).run events s = some s' →
    Layout mmap s' ∧ Leaves P L s.view s'.view

/-- From every state a sequence returns. -/
def Returns (mmap : ℕ → ℕ) (rodata : Word → Byte) (events : List Event) : Prop :=
  ∀ s, Layout mmap s → ((program mmap rodata).run events s).isSome

section Effects

variable {mmap : ℕ → ℕ} {rodata : Word → Byte} {P : Word → Prop} {events events' : List Event}
  {L L' : ℕ → Prop}

theorem Leaves.trans {m m₁ m₂ : GranuleMap} (h : Leaves P L m m₁) (h' : Leaves P L' m₁ m₂) :
    Leaves P (fun g => L g ∨ L' g) m m₂ := by
  intro g
  by_cases hlast : L' g
  · exact ⟨fun _ => (h' g).1 hlast, fun hnone => absurd (.inr hlast) hnone⟩
  · have hkept := (h' g).2 hlast
    refine ⟨fun hg => ?_, fun hnone => hkept.trans ((h g).2 fun hg => hnone (.inl hg))⟩
    rw [hkept]
    exact (h g).1 (hg.resolve_right hlast)

theorem Leaves.congr {m m' : GranuleMap} (h : Leaves P L m m') (hL : ∀ g, L g ↔ L' g) :
    Leaves P L' m m' := by
  intro g
  rw [← hL]
  exact h g

theorem Effect.congr (h : Effect mmap rodata P events L) (hL : ∀ g, L g ↔ L' g) :
    Effect mmap rodata P events L' := by
  intro s s' layout hrun
  obtain ⟨hlayout, hleaves⟩ := h s s' layout hrun
  exact ⟨hlayout, hleaves.congr hL⟩

theorem Effect.nil (hL : ∀ g, ¬ L g) : Effect mmap rodata P [] L := by
  intro s s' layout hrun
  cases hrun
  exact ⟨layout, fun g => ⟨fun hg => absurd hg (hL g), fun _ => rfl⟩⟩

theorem Effect.append (h : Effect mmap rodata P events L) (h' : Effect mmap rodata P events' L') :
    Effect mmap rodata P (events ++ events') fun g => L g ∨ L' g := by
  intro s s' layout hrun
  rw [Machine.run_append, Option.bind_eq_some_iff] at hrun
  obtain ⟨s₁, hrun₁, hrun₂⟩ := hrun
  obtain ⟨hlayout₁, hleaves₁⟩ := h s s₁ layout hrun₁
  obtain ⟨hlayout₂, hleaves₂⟩ := h' s₁ s' hlayout₁ hrun₂
  exact ⟨hlayout₂, hleaves₁.trans hleaves₂⟩

/-- One sequence for each item of a list. -/
theorem Effect.flatMap {α : Type} {f : α → List Event} {L : α → ℕ → Prop} (xs : List α)
    (h : ∀ x ∈ xs, Effect mmap rodata P (f x) (L x)) :
    Effect mmap rodata P (xs.flatMap f) fun g => ∃ x ∈ xs, L x g := by
  induction xs with
  | nil => exact Effect.nil (by simp)
  | cons x rest ih =>
      rw [List.flatMap_cons]
      have hrest := ih fun y hy => h y (List.mem_cons_of_mem _ hy)
      apply ((h x List.mem_cons_self).append hrest).congr
      intro g
      rw [List.exists_mem_cons_iff]

/-- One event, by what it does to the contents. -/
theorem Effect.event {event : Event}
    (h : ∀ s s', Layout mmap s → event.step mmap rodata s = some s' →
      Layout mmap s' ∧ Leaves P L s.view s'.view) : Effect mmap rodata P [event] L := by
  intro s s' layout hrun
  have hstep : (event.step mmap rodata s).bind some = some s' := hrun
  rw [Option.bind_fun_some] at hstep
  exact h s s' layout hstep

theorem Returns.append (h : Returns mmap rodata events) (h' : Returns mmap rodata events')
    (heffect : Effect mmap rodata P events L) : Returns mmap rodata (events ++ events') := by
  intro s layout
  obtain ⟨s₁, hrun₁⟩ := Option.isSome_iff_exists.mp (h s layout)
  rw [Machine.run_append, hrun₁]
  exact h' s₁ (heffect s s₁ layout hrun₁).1

theorem Returns.flatMap {α : Type} {f : α → List Event} {L : α → ℕ → Prop} (xs : List α)
    (h : ∀ x ∈ xs, Returns mmap rodata (f x) ∧ Effect mmap rodata P (f x) (L x)) :
    Returns mmap rodata (xs.flatMap f) := by
  induction xs with
  | nil => exact fun s _ => rfl
  | cons x rest ih =>
      rw [List.flatMap_cons]
      obtain ⟨hreturns, heffect⟩ := h x List.mem_cons_self
      exact hreturns.append (ih fun y hy => h y (List.mem_cons_of_mem _ hy)) heffect

/-- An effect of a sequence that returns. -/
theorem Effect.of_run (h : Effect mmap rodata P events L) (hreturns : Returns mmap rodata events)
    {s : Shadow} (layout : Layout mmap s) :
    ∃ s', (program mmap rodata).run events s = some s' ∧ Layout mmap s' ∧
      Leaves P L s.view s'.view := by
  obtain ⟨s', hrun⟩ := Option.isSome_iff_exists.mp (hreturns s layout)
  exact ⟨s', hrun, h s s' layout hrun⟩

end Effects

/-! ## Calls -/

section Calls

variable {mmap : ℕ → ℕ} {rodata : Word → Byte} {P : Word → Prop} {L : ℕ → Prop}

/-- A call, by what it does to the abstract table. -/
theorem Effect.call (fresh : FreshMmap mmap) {op : Op}
    (h : ∀ m m', op.abstractStep machineAddressing m = some m' → Leaves P L m m') :
    Effect mmap rodata P [.call op] L := by
  apply Effect.event
  intro s s' layout hstep
  obtain ⟨hlayout, hview⟩ := step_spec layout fresh op
  have hcall : op.step mmap s = some s' := hstep
  rw [hcall, Option.map_some] at hview
  exact ⟨hlayout s' hcall, h s.view s'.view hview.symm⟩

theorem returns_call (fresh : FreshMmap mmap) {op : Op}
    (h : ∀ m, (op.abstractStep machineAddressing m).isSome) :
    Returns mmap rodata [.call op] := by
  intro s layout
  obtain ⟨m, hm⟩ := Option.isSome_iff_exists.mp (h s.view)
  obtain ⟨s', hs', -⟩ := call_spec fresh layout hm
  have hstep : (program mmap rodata).step (.call op) s = some s' := hs'
  rw [Machine.run_cons, hstep]
  rfl

/-- Recording an entry changes one reference. -/
theorem leaves_record {m : GranuleMap} {g : ℕ} {e : Entry} (he : P e.reference) :
    Leaves P (fun h => h = g) m (m.record g fun _ => e) := by
  intro h
  rw [content_record]
  by_cases hsame : h = g
  · rw [if_pos hsame]
    exact ⟨fun _ => he, fun hne => absurd hsame hne⟩
  · rw [if_neg hsame]
    exact ⟨fun hg => absurd hg hsame, fun _ => rfl⟩

/-- A note of the size changes no reference. -/
theorem leaves_size {m m' : GranuleMap} {thisPtr : Word} {arraySize : U32}
    (h : Op.abstractStep machineAddressing (.updateArraySize thisPtr arraySize) m = some m') :
    Leaves P (fun _ => False) m m' := by
  refine fun g => ⟨False.elim, fun _ => ?_⟩
  obtain rfl := Option.some.inj h
  split
  · rfl
  · rw [content_record]
    split
    · next hsame => rw [hsame]
    · rfl

/-- Nor does clearing it. -/
theorem leaves_clearSize {m m' : GranuleMap} {thisPtr : Word}
    (h : Op.abstractStep machineAddressing (.directEraseArraySize thisPtr) m = some m') :
    Leaves P (fun _ => False) m m' := by
  refine fun g => ⟨False.elim, fun _ => ?_⟩
  obtain rfl := Option.some.inj h
  split
  · rfl
  · rw [content_modify _ _ _ rfl]
    split
    · next hsame => rw [hsame]
    · rfl

end Calls

/-! ## The sequences of an alloca -/

/-- What an execution of an alloca makes: the objects are of the allocated type. -/
structure StackObject where
  alloca : ℕ
  type : IRType
  isConstant : Bool
  addr : Word
  arraySize : Word

section Sequences

variable (M : Module) (files : ClassFiles) (inlineOpt : Bool) (place : Name → Word)
  (o : StackObject)

/-- What `handleAllocaAdd` and `emitRemoveInst` pass on. -/
def allocaSite : Site where
  allocType := .stackAlloc
  objAddr := o.addr
  typeSize := uint32 (M.getTypeAllocSize o.type)
  arraySize := o.arraySize
  isConstant := o.isConstant

/-- What `handleAllocaAdd` inserts for an alloca. -/
def updateEvents : List Event :=
  let offsets := M.elementsOf files o.type
  if offsets.isEmpty = true then [] else insertUpdate M inlineOpt place (allocaSite M o) offsets

/-- `emitRemoveInst`. -/
def removeEvents : List Event :=
  let elements := M.elementsOf files o.type
  if elements.isEmpty = true then [] else insertRemove inlineOpt (allocaSite M o) elements

namespace StackObject

/-- Where the sequences look for granule `k` of object `i`. -/
def entryAddr (k i : ℕ) : Word :=
  o.addr + BitVec.ofNat 64 (uint32 (uint32 (k * 8) + uint32 (M.getTypeAllocSize o.type) * i))

/-- The granules that the sequences reach for granule `k` of each object. -/
def EntryGranule (k g : ℕ) : Prop :=
  if o.isConstant = true then ∃ i < o.arraySize.toNat, granule (o.entryAddr M k i) = g
  else ElementGranule (o.entryAddr M k 0) (BitVec.ofNat 32 (uint32 (M.getTypeAllocSize o.type)))
    (o.arraySize.setWidth 32).toNat g

/-- The granules whose references the sequence of an alloca sets. -/
def Tracks (g : ℕ) : Prop :=
  ∃ e ∈ (M.elementsOf files o.type).toList, o.EntryGranule M e.1 g

/-- Two objects track no granule in common. -/
def Apart (o o' : StackObject) : Prop := ∀ g, o.Tracks M files g → ¬ o'.Tracks M files g

instance : Std.Symm (Apart M files) := ⟨fun _ _ h g hg hg' => h g hg' hg⟩

end StackObject

end Sequences

/-! ## What the sequences leave -/

section Specs

variable {mmap : ℕ → ℕ} {rodata : Word → Byte} {M : Module} {files : ClassFiles}
  {inlineOpt : Bool} {place : Name → Word} {o : StackObject}

/-- A constant number of objects, granule by granule. -/
theorem tracks_constant (hconstant : o.isConstant = true) (g : ℕ) :
    (∃ i ∈ List.range o.arraySize.toNat, ∃ e ∈ (M.elementsOf files o.type).toList,
      granule (o.entryAddr M e.1 i) = g) ↔ o.Tracks M files g := by
  unfold StackObject.Tracks StackObject.EntryGranule
  simp only [hconstant, if_true, List.mem_range]
  constructor
  · rintro ⟨i, hi, e, he, hg⟩
    exact ⟨e, he, i, hi, hg⟩
  · rintro ⟨e, he, i, hi, hg⟩
    exact ⟨i, hi, e, he, hg⟩

theorem tracks_variable (hvariable : o.isConstant = false) (g : ℕ) :
    (∃ e ∈ (M.elementsOf files o.type).toList, ElementGranule (o.entryAddr M e.1 0)
      (BitVec.ofNat 32 (uint32 (M.getTypeAllocSize o.type))) (o.arraySize.setWidth 32).toNat g) ↔
      o.Tracks M files g := by
  unfold StackObject.Tracks StackObject.EntryGranule
  simp only [hvariable, Bool.false_eq_true, if_false]

variable (rodata inlineOpt) in
/-- One entry of one object. -/
theorem emitEntry_conObjAdd (fresh : FreshMmap mmap) (hplace : ∀ name, place name ≠ 0) (i : ℕ)
    {entry : ℕ × Finset ℕ} (hne : entry.2.card ≠ 0) :
    Returns mmap rodata (emitEntry M inlineOpt place .conObjAdd (allocaSite M o) i entry) ∧
      Effect mmap rodata (· ≠ 0)
        (emitEntry M inlineOpt place .conObjAdd (allocaSite M o) i entry)
        fun g => granule (o.entryAddr M entry.1 i) = g := by
  have hkind : AllocType.stackAlloc ≠ .reinterpret ∧ AllocType.stackAlloc ≠ .globalAlloc := by
    decide
  unfold emitEntry
  simp only [if_neg hne, allocaSite, hkind, and_true, if_false, ne_eq, not_false_eq_true]
  split
  · refine ⟨fun s _ => rfl, Effect.event fun s s' layout hstep => ?_⟩
    obtain rfl := Option.some.inj hstep
    obtain ⟨hlayout, hview⟩ := inlineUpdate_spec layout fresh (o.entryAddr M entry.1 i)
      (place (M.setName entry.2)) (BitVec.ofNat 32 (uint32 (entry.1 * 8)))
    refine ⟨hlayout, ?_⟩
    have hleaves := leaves_record (P := (· ≠ 0)) (m := s.view) (g := granule (o.entryAddr M entry.1 i))
      (e := ⟨place (M.setName entry.2),
        inlineSize (s.view (granule (o.entryAddr M entry.1 i))),
        BitVec.ofNat 32 (uint32 (entry.1 * 8))⟩) (hplace (M.setName entry.2))
    rw [← hview] at hleaves
    exact hleaves.congr fun g => eq_comm
  · refine ⟨returns_call fresh fun m => rfl, Effect.call fresh fun m m' hstep => ?_⟩
    obtain rfl := Option.some.inj hstep
    have hleaves := leaves_record (P := (· ≠ 0)) (m := m) (g := granule (o.entryAddr M entry.1 i))
      (e := ⟨place (M.setName entry.2), 0, BitVec.ofNat 32 (uint32 (entry.1 * 8))⟩)
      (hplace (M.setName entry.2))
    exact hleaves.congr fun g => eq_comm

variable (rodata inlineOpt) in
/-- One entry of all objects. -/
theorem emitEntry_vlaObjAdd (fresh : FreshMmap mmap) (hplace : ∀ name, place name ≠ 0)
    {entry : ℕ × Finset ℕ} (hne : entry.2.card ≠ 0) :
    Returns mmap rodata (emitEntry M inlineOpt place .vlaObjAdd (allocaSite M o) 0 entry) ∧
      Effect mmap rodata (· ≠ 0)
        (emitEntry M inlineOpt place .vlaObjAdd (allocaSite M o) 0 entry)
        fun g => ElementGranule (o.entryAddr M entry.1 0)
          (BitVec.ofNat 32 (uint32 (M.getTypeAllocSize o.type)))
          (o.arraySize.setWidth 32).toNat g := by
  unfold emitEntry
  simp only [if_neg hne, allocaSite]
  have hloop : Effect mmap rodata (· ≠ 0)
      [.call (.updateObjTrace (o.entryAddr M entry.1 0) (place (M.setName entry.2))
        (BitVec.ofNat 32 (uint32 (M.getTypeAllocSize o.type))) (o.arraySize.setWidth 32)
        (BitVec.ofNat 32 (uint32 (entry.1 * 8))))]
      fun g => ElementGranule (o.entryAddr M entry.1 0)
        (BitVec.ofNat 32 (uint32 (M.getTypeAllocSize o.type))) (o.arraySize.setWidth 32).toNat g := by
    apply Effect.call fresh
    intro m m' hstep g
    obtain rfl := Option.some.inj hstep
    have hcontent := content_records (o.entryAddr M entry.1 0)
      (BitVec.ofNat 32 (uint32 (M.getTypeAllocSize o.type)))
      ⟨place (M.setName entry.2), 0, BitVec.ofNat 32 (uint32 (entry.1 * 8))⟩
      (o.arraySize.setWidth 32).toNat m g
    refine ⟨fun hg => ?_, fun hg => ?_⟩
    · rw [if_pos hg] at hcontent
      exact (congrArg Entry.reference hcontent).trans_ne (hplace _)
    · rw [if_neg hg] at hcontent
      exact congrArg Entry.reference hcontent
  have hsize : Effect mmap rodata (· ≠ 0)
      [.call (.updateArraySize o.addr (o.arraySize.setWidth 32))] fun _ => False :=
    Effect.call fresh fun m m' hstep => leaves_size hstep
  refine ⟨Returns.append (returns_call fresh fun m => rfl) (returns_call fresh fun m => rfl) hloop,
    (hloop.append hsize).congr fun g => iff_of_eq (or_false _)⟩

variable (rodata inlineOpt) in
/-- **The sequence of an alloca** returns and leaves references in the granules the object
tracks. -/
theorem updateEvents_effect (fresh : FreshMmap mmap) (hplace : ∀ name, place name ≠ 0)
    (o : StackObject) :
    Returns mmap rodata (updateEvents M files inlineOpt place o) ∧
      Effect mmap rodata (· ≠ 0) (updateEvents M files inlineOpt place o) (o.Tracks M files) := by
  have hentries : ∀ e ∈ (M.elementsOf files o.type).toList, e.1 < 2 ^ 29 ∧ e.2.card ≠ 0 :=
    entries_of_elementsOf o.type
  unfold updateEvents
  simp only
  split
  · next hempty =>
      rw [isEmpty_iff_toList] at hempty
      refine ⟨fun s _ => rfl, Effect.nil fun g => ?_⟩
      rintro ⟨e, he, -⟩
      rw [hempty] at he
      cases he
  · cases hconstant : o.isConstant with
    | true =>
        -- a call for each entry of each object
        have hobject : ∀ i ∈ List.range o.arraySize.toNat,
            Returns mmap rodata (emitInstForObjTrace M inlineOpt place .conObjAdd (allocaSite M o) i
              (M.elementsOf files o.type)) ∧
            Effect mmap rodata (· ≠ 0) (emitInstForObjTrace M inlineOpt place .conObjAdd
              (allocaSite M o) i (M.elementsOf files o.type))
              fun g => ∃ e ∈ (M.elementsOf files o.type).toList,
                granule (o.entryAddr M e.1 i) = g := by
          intro i _
          have hentry := fun e he => emitEntry_conObjAdd (M := M) (o := o) rodata inlineOpt fresh
            hplace i (hentries e he).2
          exact ⟨Returns.flatMap _ hentry, Effect.flatMap _ fun e he => (hentry e he).2⟩
        rw [insertUpdate_con (.inl rfl) hconstant]
        exact ⟨Returns.flatMap _ hobject, (Effect.flatMap _ fun i hi => (hobject i hi).2).congr
          (tracks_constant hconstant)⟩
    | false =>
        -- a call for each entry, which goes over the objects itself
        have hentry := fun e he => emitEntry_vlaObjAdd (M := M) (o := o) rodata inlineOpt fresh
          hplace (hentries e he).2
        rw [insertUpdate_vla (.inr (.inr ⟨rfl, hconstant⟩))]
        exact ⟨Returns.flatMap _ hentry, (Effect.flatMap _ fun e he => (hentry e he).2).congr
          (tracks_variable hconstant)⟩

/-- Clearing an entry changes one reference. -/
theorem leaves_clear {m : GranuleMap} {g : ℕ} :
    Leaves (· = 0) (fun h => h = g) m (m.modify g fun _ => Entry.zero) := by
  intro h
  rw [content_modify _ _ _ rfl]
  by_cases hsame : h = g
  · rw [if_pos hsame]
    exact ⟨fun _ => rfl, fun hne => absurd hsame hne⟩
  · rw [if_neg hsame]
    exact ⟨fun hg => absurd hg hsame, fun _ => rfl⟩

variable (rodata inlineOpt) in
/-- The removal of one entry of one object. -/
theorem emitRemoveEntry_conObjDel (fresh : FreshMmap mmap) (i : ℕ) {entry : ℕ × Finset ℕ}
    (hne : entry.2.card ≠ 0) (last : Bool) :
    Effect mmap rodata (· = 0)
      (emitRemoveEntry inlineOpt .conObjDel (allocaSite M o) i entry last)
      fun g => granule (o.entryAddr M entry.1 i) = g := by
  unfold emitRemoveEntry
  simp only [if_neg hne, allocaSite]
  have hcall : Effect mmap rodata (· = 0) [.call (.directEraseObj (o.entryAddr M entry.1 i))]
      fun g => granule (o.entryAddr M entry.1 i) = g := by
    apply Effect.call fresh
    intro m m' hstep
    obtain rfl := Option.some.inj hstep
    exact leaves_clear.congr fun g => eq_comm
  split
  · -- the inlined sequence is the body of the call
    refine Effect.event fun s s' layout hstep => hcall s s' layout ?_
    have hsame : (program mmap rodata).step (.call (.directEraseObj (o.entryAddr M entry.1 i))) s =
        some s' := hstep
    rw [Machine.run_cons, hsame]
    rfl
  · exact hcall

variable (rodata inlineOpt) in
/-- The removal of one entry of all objects, if it returns. -/
theorem emitRemoveEntry_vlaObjDel (fresh : FreshMmap mmap) {entry : ℕ × Finset ℕ}
    (hne : entry.2.card ≠ 0) (last : Bool) :
    Effect mmap rodata (· = 0)
      (emitRemoveEntry inlineOpt .vlaObjDel (allocaSite M o) 0 entry last)
      fun g => ElementGranule (o.entryAddr M entry.1 0)
        (BitVec.ofNat 32 (uint32 (M.getTypeAllocSize o.type)))
        (o.arraySize.setWidth 32).toNat g := by
  unfold emitRemoveEntry
  simp only [if_neg hne, allocaSite]
  have hloop : Effect mmap rodata (· = 0)
      [.call (.eraseObj (o.entryAddr M entry.1 0) o.addr
        (BitVec.ofNat 32 (uint32 (M.getTypeAllocSize o.type))) o.arraySize .stackAlloc)]
      fun g => ElementGranule (o.entryAddr M entry.1 0)
        (BitVec.ofNat 32 (uint32 (M.getTypeAllocSize o.type))) (o.arraySize.setWidth 32).toNat g := by
    apply Effect.call fresh
    intro m m' hstep g
    have hkind : ¬(AllocType.stackAlloc = .heapAlloc ∨ AllocType.stackAlloc = .realloc) := by decide
    simp only [Op.abstractStep, if_neg hkind] at hstep
    split at hstep
    · next hcount =>
        obtain rfl := Option.some.inj hstep
        -- a count that the counter reaches fits 32 bits
        have hwidth : (o.arraySize.setWidth 32).toNat = o.arraySize.toNat := by
          rw [BitVec.toNat_setWidth, Nat.mod_eq_of_lt hcount]
        rw [content_eraseElements, hwidth]
        refine ⟨fun hg => ?_, fun hg => ?_⟩
        · rw [if_pos hg]
        · rw [if_neg hg]
    · cases hstep
  have hsize : Effect mmap rodata (· = 0) [.call (.directEraseArraySize o.addr)] fun _ => False :=
    Effect.call fresh fun m m' hstep => leaves_clearSize hstep
  cases last with
  | true => exact (hloop.append hsize).congr fun g => iff_of_eq (or_false _)
  | false => exact hloop

variable (rodata inlineOpt) in
/-- **The removal of an alloca**, if it returns, leaves no reference in the granules the
object tracks. -/
theorem removeEvents_effect (fresh : FreshMmap mmap) (o : StackObject) :
    Effect mmap rodata (· = 0) (removeEvents M files inlineOpt o) (o.Tracks M files) := by
  have hentries : ∀ entry ∈ (M.elementsOf files o.type).toList.zipIdx, entry.1.2.card ≠ 0 := by
    intro entry hentry
    have hmem : entry.1 ∈ (M.elementsOf files o.type).toList :=
      (List.mem_zipIdx' hentry).2 ▸ List.getElem_mem _
    exact (entries_of_elementsOf o.type entry.1 hmem).2
  -- the entries with their numbers are the entries
  have hzip : ∀ L : ℕ × Finset ℕ → Prop,
      (∃ entry ∈ (M.elementsOf files o.type).toList.zipIdx, L entry.1) ↔
        ∃ e ∈ (M.elementsOf files o.type).toList, L e := by
    intro L
    constructor
    · rintro ⟨entry, hentry, hL⟩
      exact ⟨entry.1, (List.mem_zipIdx' hentry).2 ▸ List.getElem_mem _, hL⟩
    · rintro ⟨e, he, hL⟩
      obtain ⟨i, hi, rfl⟩ := List.getElem_of_mem he
      exact ⟨(_, i), List.mem_zipIdx_iff_getElem?.mpr (List.getElem?_eq_getElem hi), hL⟩
  unfold removeEvents
  simp only
  split
  · next hempty =>
      rw [isEmpty_iff_toList] at hempty
      apply Effect.nil
      intro g
      rintro ⟨e, he, -⟩
      rw [hempty] at he
      cases he
  · next hempty =>
      unfold insertRemove
      have hkind : AllocType.stackAlloc ≠ .heapAlloc := by decide
      cases hconstant : o.isConstant with
      | true =>
          simp only [allocaSite, hempty, hkind, hconstant, ne_eq, not_false_eq_true, and_self,
            if_true]
          have hobject : ∀ i ∈ List.range o.arraySize.toNat,
              Effect mmap rodata (· = 0) (emitInstForObjRemove inlineOpt .conObjDel (allocaSite M o)
                i (M.elementsOf files o.type))
                fun g => ∃ e ∈ (M.elementsOf files o.type).toList,
                  granule (o.entryAddr M e.1 i) = g := by
            intro i _
            refine (Effect.flatMap _ fun entry hentry => emitRemoveEntry_conObjDel (M := M) (o := o)
              rodata inlineOpt fresh i (hentries entry hentry) _).congr fun g => ?_
            exact hzip fun e => granule (o.entryAddr M e.1 i) = g
          have hloop := Effect.flatMap _ hobject
          simp only [allocaSite, hconstant] at hloop
          exact hloop.congr (tracks_constant hconstant)
      | false =>
          simp only [allocaSite, hempty, if_false, hconstant, Bool.false_eq_true, and_false]
          have hloop := Effect.flatMap _ fun entry hentry => emitRemoveEntry_vlaObjDel (M := M)
            (o := o) rodata inlineOpt fresh (hentries entry hentry)
            (entry.2 + 1 = (M.elementsOf files o.type).size)
          simp only [allocaSite, hconstant] at hloop
          refine hloop.congr fun g => Iff.trans ?_ (tracks_variable hconstant g)
          exact hzip fun e => ElementGranule (o.entryAddr M e.1 0)
            (BitVec.ofNat 32 (uint32 (M.getTypeAllocSize o.type))) (o.arraySize.setWidth 32).toNat g

end Specs

end Bitype.Pass
