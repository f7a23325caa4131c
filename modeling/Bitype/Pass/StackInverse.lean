import Bitype.Pass.StackObject
import Bitype.Pass.Subobjects

/-!
# The removal of a stack object undoes its update

The update and the removal of an alloca go over its granules on their own: each chooses
between a call for each granule of each object and a loop, and between calls and inlined
code.  They reach the same granules (`StackObject.Tracks`), so where these had no reference
the two sequences together leave every reference as it was (`remove_undoes_update`).
-/

namespace Bitype.Pass

open Bitype.Foundations Bitype.Runtime
open Bitype.Tool (Name)

/-- From some state the sequence changes the reference of a granule. -/
def Changes (mmap : ℕ → ℕ) (rodata : Word → Byte) (events : List Event) (g : ℕ) : Prop :=
  ∃ t t', Layout mmap t ∧ (program mmap rodata).run events t = some t' ∧
    (t'.view.content g).reference ≠ (t.view.content g).reference

section Inverse

variable {mmap : ℕ → ℕ} {rodata : Word → Byte} {M : Module} {files : ClassFiles}
  {inlineOpt : Bool} {place : Name → Word} {o : StackObject}

theorem Effect.of_changes {P : Word → Prop} {events : List Event} {L : ℕ → Prop} {g : ℕ}
    (h : Effect mmap rodata P events L) (hchanges : Changes mmap rodata events g) : L g := by
  obtain ⟨t, t', layout, hrun, hne⟩ := hchanges
  by_contra hkept
  exact hne (((h t t' layout hrun).2 g).2 hkept)

/-- What the removal of a stack object consists of. -/
theorem mem_removeEvents {event : Event} (h : event ∈ removeEvents M files inlineOpt o) :
    (∃ thisPtr, event = .inlineErase thisPtr ∨ event = .call (.directEraseObj thisPtr)) ∨
    (∃ thisPtr typeSize,
      event = .call (.eraseObj thisPtr o.addr typeSize o.arraySize .stackAlloc)) ∨
    event = .call (.directEraseArraySize o.addr) := by
  -- one erase for an entry of one object, the loop and the size for many
  have hentry : ∀ {removeType : RemoveType} {i : ℕ} {entry : ℕ × Finset ℕ} {last : Bool},
      event ∈ emitRemoveEntry inlineOpt removeType (allocaSite M o) i entry last →
      (∃ thisPtr, event = .inlineErase thisPtr ∨ event = .call (.directEraseObj thisPtr)) ∨
      (∃ thisPtr typeSize,
        event = .call (.eraseObj thisPtr o.addr typeSize o.arraySize .stackAlloc)) ∨
      event = .call (.directEraseArraySize o.addr) := by
    intro removeType i entry last hmem
    unfold emitRemoveEntry at hmem
    split at hmem
    · cases hmem
    cases removeType with
    | conObjDel =>
        simp only at hmem
        split at hmem
        · exact .inl ⟨_, .inl (List.mem_singleton.mp hmem)⟩
        · exact .inl ⟨_, .inr (List.mem_singleton.mp hmem)⟩
    | vlaObjDel =>
        rcases List.mem_cons.mp hmem with heq | hmem
        · exact .inr (.inl ⟨_, _, heq⟩)
        · split at hmem
          · exact .inr (.inr (List.mem_singleton.mp hmem))
          · cases hmem
  unfold removeEvents insertRemove emitInstForObjRemove at h
  simp only at h
  split at h
  · cases h
  split at h
  · obtain ⟨i, -, h⟩ := List.mem_flatMap.mp h
    obtain ⟨entry, -, h⟩ := List.mem_flatMap.mp h
    exact hentry h
  · obtain ⟨entry, -, h⟩ := List.mem_flatMap.mp h
    exact hentry h

variable (rodata M files inlineOpt) in
/-- The removal returns if 32 bits can count the objects. -/
theorem removeEvents_returns (fresh : FreshMmap mmap) (hcount : o.arraySize.toNat < 2 ^ 32) :
    Returns mmap rodata (removeEvents M files inlineOpt o) := by
  have hkind : ¬(AllocType.stackAlloc = .heapAlloc ∨ AllocType.stackAlloc = .realloc) := by decide
  have hcall : ∀ (op : Op) (t : Shadow), Layout mmap t →
      (op.abstractStep machineAddressing t.view).isSome →
      ((program mmap rodata).step (.call op) t).isSome := by
    intro op t layout hsome
    obtain ⟨m, hm⟩ := Option.isSome_iff_exists.mp hsome
    obtain ⟨t', ht', -⟩ := call_spec fresh layout hm
    exact Option.isSome_iff_exists.mpr ⟨t', ht'⟩
  apply (program mmap rodata).run_isSome (event_layout rodata fresh)
  intro event hevent t layout
  rcases mem_removeEvents hevent with ⟨thisPtr, rfl | rfl⟩ | ⟨thisPtr, typeSize, rfl⟩ | rfl
  · rfl
  · exact hcall _ t layout rfl
  · apply hcall _ t layout
    simp only [Op.abstractStep, if_neg hkind, if_pos hcount]
    rfl
  · exact hcall _ t layout rfl

variable (rodata M files inlineOpt place) in
/-- **The removal undoes the update.**  Each sequence may or may not be inlined.  Where the
granules that they change had no reference, every granule refers to what it did before; and
the update leaves a reference in every granule that the removal changes. -/
theorem remove_undoes_update (fresh : FreshMmap mmap) (hplace : ∀ name, place name ≠ 0)
    (inlineOpt' : Bool) (o : StackObject) (hcount : o.arraySize.toNat < 2 ^ 32) {s : Shadow}
    (layout : Layout mmap s)
    (hnull : ∀ g, Changes mmap rodata (updateEvents M files inlineOpt place o) g ∨
      Changes mmap rodata (removeEvents M files inlineOpt' o) g →
        (s.view.content g).reference = 0) :
    ∃ s₁ s₂, (program mmap rodata).run (updateEvents M files inlineOpt place o) s = some s₁ ∧
      (program mmap rodata).run (removeEvents M files inlineOpt' o) s₁ = some s₂ ∧
      (∀ g, (s₂.view.content g).reference = (s.view.content g).reference) ∧
      ∀ g, Changes mmap rodata (removeEvents M files inlineOpt' o) g →
        (s₁.view.content g).reference ≠ 0 := by
  have hremove : Effect mmap rodata (· = 0) (removeEvents M files inlineOpt' o)
      (o.Tracks M files) := removeEvents_effect rodata inlineOpt' fresh o
  obtain ⟨hreturns, hupdate⟩ :
      Returns mmap rodata (updateEvents M files inlineOpt place o) ∧
        Effect mmap rodata (· ≠ 0) (updateEvents M files inlineOpt place o) (o.Tracks M files) :=
    updateEvents_effect rodata inlineOpt fresh hplace o
  have hreturns' := removeEvents_returns rodata M files inlineOpt' fresh hcount
  obtain ⟨s₁, hrun₁, hlayout₁, hleaves₁⟩ := hupdate.of_run hreturns layout
  obtain ⟨s₂, hrun₂, -, hleaves₂⟩ := hremove.of_run hreturns' hlayout₁
  refine ⟨s₁, s₂, hrun₁, hrun₂, fun g => ?_, fun g hg => (hleaves₁ g).1 (hremove.of_changes hg)⟩
  by_cases htracks : o.Tracks M files g
  · have hzero : (s.view.content g).reference = 0 := by
      -- otherwise the removal would change the reference in `s`
      by_contra hne
      obtain ⟨t, hrun, -, hleaves⟩ := hremove.of_run hreturns' layout
      refine hne (hnull g (.inr ⟨s, t, layout, hrun, fun hsame => hne ?_⟩))
      exact hsame.symm.trans ((hleaves g).1 htracks)
    rw [hzero]
    exact (hleaves₂ g).1 htracks
  · calc (s₂.view.content g).reference = (s₁.view.content g).reference := (hleaves₂ g).2 htracks
      _ = (s.view.content g).reference := (hleaves₁ g).2 htracks

end Inverse

/-- Three structs on the stack, in a number found when the program runs. -/
theorem remove_undoes_update_sample :
    let o : StackObject := ⟨0, .struct 1, false, 4096, 3⟩
    let s := bitypeInitialization spacedMmap fun _ => 0
    ∃ s₁ s₂, (program spacedMmap fun _ => 0).run
        (updateEvents wrapperModule wrapperFiles true (fun _ => 64) o) s = some s₁ ∧
      (program spacedMmap fun _ => 0).run
        (removeEvents wrapperModule wrapperFiles false o) s₁ = some s₂ ∧
      ∀ g, (s₂.view.content g).reference = (s.view.content g).reference := by
  intro o s
  obtain ⟨s₁, s₂, hrun₁, hrun₂, hsame, -⟩ := remove_undoes_update (fun _ => 0) wrapperModule
    wrapperFiles true (fun _ => 64) spacedMmap_fresh (fun _ => by decide) false o (by decide)
    (layout_init fun _ => 0) fun g _ => by rw [view_init]; rfl
  exact ⟨s₁, s₂, hrun₁, hrun₂, hsame⟩

end Bitype.Pass
