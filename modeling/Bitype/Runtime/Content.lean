import Bitype.Runtime.Refinement

/-!
# What a granule holds

A granule that no update has reached yet reads like one with a zeroed entry.  Only
`__bitype_eraseObj` on a heap block can tell the two apart, so most of what a call does
can be said about the `content` of each granule: a call writes some granules and leaves
the rest as it was.

The loops of `__bitype_updateObjTrace` and `__bitype_eraseObj` write the granules of the
elements they count (`content_records`, `content_eraseElements`).
-/

namespace Bitype.Runtime

open Foundations

/-- The entry of a granule, zero if it has none. -/
def GranuleMap.content (m : GranuleMap) (g : ℕ) : Entry := (m g).getD Entry.zero

/-! ## One granule -/

theorem content_cover (m : GranuleMap) (r g : ℕ) : (m.cover r).content g = m.content g := by
  unfold GranuleMap.content GranuleMap.cover
  split
  · rfl
  · rfl

theorem content_record (m : GranuleMap) (g h : ℕ) (f : Entry → Entry) :
    (m.record g f).content h = if h = g then f (m.content g) else m.content h := by
  by_cases hsame : h = g
  · subst hsame
    rw [GranuleMap.content, record_same, if_pos rfl]
    rfl
  · rw [if_neg hsame, GranuleMap.content, record_of_ne m f hsame]
    exact content_cover m _ h

/-- Clearing part of an entry clears nothing where there is none. -/
theorem content_modify (m : GranuleMap) (g h : ℕ) {f : Entry → Entry}
    (hzero : f Entry.zero = Entry.zero) :
    (m.modify g f).content h = if h = g then f (m.content g) else m.content h := by
  by_cases hsame : h = g
  · subst hsame
    rw [if_pos rfl, GranuleMap.content, GranuleMap.content, modify_same]
    cases m h with
    | none => exact hzero.symm
    | some e => rfl
  · rw [if_neg hsame, GranuleMap.content, modify_of_ne m f hsame]
    rfl

/-- An entry once given stays. -/
theorem isSome_record {m : GranuleMap} (g : ℕ) {h : ℕ} (f : Entry → Entry)
    (hsome : (m h).isSome) : (m.record g f h).isSome := by
  by_cases hsame : h = g
  · subst hsame
    rw [record_same]
    rfl
  · rw [record_of_ne m f hsame]
    unfold GranuleMap.cover
    split
    · rfl
    · exact hsome

theorem isSome_record_same (m : GranuleMap) (g : ℕ) (f : Entry → Entry) :
    (m.record g f g).isSome := by
  rw [record_same]
  rfl

theorem isSome_modify (m : GranuleMap) (g h : ℕ) (f : Entry → Entry) :
    (m.modify g f h).isSome = (m h).isSome := by
  by_cases hsame : h = g
  · subst hsame
    rw [modify_same, Option.isSome_map]
  · rw [modify_of_ne m f hsame]

/-- The entry of a granule that has one. -/
theorem eq_some_content {m : GranuleMap} {g : ℕ} (h : (m g).isSome) : m g = some (m.content g) := by
  obtain ⟨e, he⟩ := Option.isSome_iff_exists.mp h
  rw [GranuleMap.content, he]
  rfl

/-! ## Loops -/

/-- The granules of elements `0, .., count - 1`. -/
def ElementGranule (thisPtr : Word) (typeSize : U32) (count g : ℕ) : Prop :=
  ∃ i < count, machineAddressing.element thisPtr typeSize i = g

instance (thisPtr : Word) (typeSize : U32) (count g : ℕ) :
    Decidable (ElementGranule thisPtr typeSize count g) :=
  inferInstanceAs (Decidable (∃ i < count, machineAddressing.element thisPtr typeSize i = g))

theorem elementGranule_succ {thisPtr : Word} {typeSize : U32} {count g : ℕ} :
    ElementGranule thisPtr typeSize (count + 1) g ↔
      g = machineAddressing.element thisPtr typeSize count ∨
        ElementGranule thisPtr typeSize count g := by
  unfold ElementGranule
  rw [Nat.exists_lt_succ_right, or_comm, eq_comm]

/-- The loop of `__bitype_updateObjTrace`. -/
theorem content_records (thisPtr : Word) (typeSize : U32) (e : Entry) (count : ℕ)
    (m : GranuleMap) (g : ℕ) :
    ((List.range count).foldl
        (fun m i => m.record (machineAddressing.element thisPtr typeSize i) fun _ => e) m).content g =
      if ElementGranule thisPtr typeSize count g then e else m.content g := by
  induction count with
  | zero => rw [if_neg fun ⟨i, hi, _⟩ => Nat.not_lt_zero i hi]; rfl
  | succ count ih =>
      rw [List.range_succ, List.foldl_append, List.foldl_cons, List.foldl_nil, content_record]
      simp only [ih, elementGranule_succ]
      by_cases hlast : g = machineAddressing.element thisPtr typeSize count
      · rw [if_pos hlast, if_pos (.inl hlast)]
      · rw [if_neg hlast]
        simp only [hlast, false_or]

theorem isSome_records (thisPtr : Word) (typeSize : U32) (e : Entry) (count : ℕ)
    {m : GranuleMap} {g : ℕ} (h : (m g).isSome) :
    ((List.range count).foldl
      (fun m i => m.record (machineAddressing.element thisPtr typeSize i) fun _ => e) m g).isSome :=
  List.foldlRecOn (motive := fun m : GranuleMap => (m g).isSome) _ _ h fun _ h _ _ => isSome_record _ _ h

/-- The loop of `__bitype_eraseObj`. -/
theorem content_eraseElements (thisPtr : Word) (typeSize : U32) (count : ℕ) (m : GranuleMap)
    (g : ℕ) :
    (eraseElements machineAddressing thisPtr typeSize count m).content g =
      if ElementGranule thisPtr typeSize count g then { m.content g with reference := 0 }
      else m.content g := by
  unfold eraseElements
  induction count with
  | zero => rw [if_neg fun ⟨i, hi, _⟩ => Nat.not_lt_zero i hi]; rfl
  | succ count ih =>
      rw [List.range_succ, List.foldl_append, List.foldl_cons, List.foldl_nil,
        content_modify _ _ _ rfl]
      simp only [ih, elementGranule_succ]
      by_cases hlast : g = machineAddressing.element thisPtr typeSize count
      · rw [if_pos hlast, if_pos (.inl hlast), ← hlast, ih]
        split
        · rfl
        · rfl
      · rw [if_neg hlast]
        simp only [hlast, false_or]

theorem isSome_eraseElements (thisPtr : Word) (typeSize : U32) (count : ℕ) (m : GranuleMap)
    (g : ℕ) :
    (eraseElements machineAddressing thisPtr typeSize count m g).isSome = (m g).isSome := by
  unfold eraseElements
  refine List.foldlRecOn (motive := fun m' : GranuleMap => (m' g).isSome = (m g).isSome) _ _ rfl
    fun m' h i _ => ?_
  rw [isSome_modify]
  exact h

end Bitype.Runtime
