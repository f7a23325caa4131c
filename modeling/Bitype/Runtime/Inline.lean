import Bitype.Runtime.Check
import Bitype.Runtime.Content

/-!
# The inlined trace update and erase

With `inline-opt` on, `emitInstForObjTrace` emits the body of
`__bitype_direct_updateObjTrace` and `__bitype_direct_eraseObj` as instructions.
The erase is the same.  The update stores the reference and the offset as the
function does, but not the size, where the function stores `0`: on a fresh
second-level table it stores `1`, and in a table that exists it leaves the size as
it was.  There both of its stores go to the offset, as `tempArr` refers to the
vector whose last element has been replaced for `tempArr2`.

Only `__bitype_eraseObj` reads the size of an entry, and it takes `0` for `1`.  So
`EntryAlike` compares sizes by `heapCount`; two states with alike entries stay so
under every operation (`congruence`), and no lookup, check or erase tells them
apart (`observe_of_alike`).  The inlined update agrees with the function just if
the entry counted one object before (`inline_observationallyEqual_iff`): otherwise
a free clears, after the one, elements that it does not clear after the other.
-/

namespace Bitype.Runtime

open Foundations

/-! ## The emitted instructions -/

/-- What `emitInstForObjTrace` emits for `CONOBJADD`. -/
def inlineUpdateObjTrace (mmap : ℕ → ℕ) (newAddr referenceAddr : Word) (offset : U32)
    (s : Shadow) : Shadow :=
  let firstLevelValue := s.firstLevel (idx1 newAddr)
  if firstLevelValue = 0 then
    let s := if s.bitypeSecondLevelEnd ≤ s.bitypeSecondLevelStart
      then bitypeMallocNewSpace mmap s else s
    let secondStart := s.bitypeSecondLevelStart
    let s := { s with
      mem := Function.update s.mem (s.bitypeLookupStart + 8 * idx1 newAddr)
        (BitVec.ofNat 64 secondStart) }
    let s := s.modifyWord secondStart (idx2 newAddr) fun _ => referenceAddr
    let s := s.modifyWord secondStart (idx2 newAddr + 1) (setSizeField 1)
    let s := s.modifyWord secondStart (idx2 newAddr + 1) (setOffsetField offset)
    { s with bitypeSecondLevelStart := secondStart + 8 * 2 ^ 24 }
  else
    let s := s.modifyWord firstLevelValue (idx2 newAddr) fun _ => referenceAddr
    -- both GEPs of this branch have the indices `{0, 1}`: the size is not written
    let s := s.modifyWord firstLevelValue (idx2 newAddr + 1) (setOffsetField 0)
    s.modifyWord firstLevelValue (idx2 newAddr + 1) (setOffsetField offset)

/-- What `emitInstForObjTrace` emits for `CONOBJDEL`. -/
def inlineEraseObj (newAddr : Word) (s : Shadow) : Shadow :=
  let firstLevelValue := s.firstLevel (idx1 newAddr)
  if firstLevelValue ≠ 0 then
    let s := s.modifyWord firstLevelValue (idx2 newAddr) fun _ => 0
    s.modifyWord firstLevelValue (idx2 newAddr + 1) fun _ => 0
  else s

/-! ## Programs that trace and check -/

/-- An operation of an instrumented program: a call of the runtime or an inlined
sequence. -/
inductive Event
  | call (op : Op)
  | inlineUpdate (newAddr referenceAddr : Word) (offset : U32)
  | inlineErase (newAddr : Word)
  | check (sourcePtr thisPtr : Word) (index : U32) (code : Byte) (debugIndex : U32)
  | dynamicCheck (thisPtr : Word) (index : U32) (code : Byte)
  | inlineCheck (sourcePtr thisPtr : Word) (index : U32) (code : Byte) (debugIndex : U32)

variable (mmap : ℕ → ℕ) (rodata : Word → Byte)

/-- The state an event leaves, if it returns. -/
def Event.step : Event → Shadow → Option Shadow
  | .call op, s => op.step mmap s
  | .inlineUpdate newAddr referenceAddr offset, s =>
      some (inlineUpdateObjTrace mmap newAddr referenceAddr offset s)
  | .inlineErase newAddr, s => some (inlineEraseObj newAddr s)
  | .check sourcePtr thisPtr index code debugIndex, s =>
      some (bitypeCastVerification rodata sourcePtr thisPtr index code debugIndex s).1
  | .dynamicCheck thisPtr index code, s =>
      some (bitypeDynamicCastVerification rodata thisPtr index code s).state
  | .inlineCheck sourcePtr thisPtr index code debugIndex, s =>
      some (inlineVerification rodata sourcePtr thisPtr index code debugIndex s).1

/-- An instrumented program as a machine driven by its operations. -/
def program : Machine Shadow Event where
  step := Event.step mmap rodata

/-! ## Observations -/

/-- The addresses whose reference a step clears. -/
def cleared (before after : Shadow) : Set Word :=
  {addr | Entry.table? (before.lookup addr) ≠ none ∧ Entry.table? (after.lookup addr) = none}

/-- Two states that one more operation does not tell apart. -/
structure SameObservations (s t : Shadow) : Prop where
  lookup : ∀ addr, (s.lookup addr).map (fun e => (e.reference, e.offset)) =
    (t.lookup addr).map fun e => (e.reference, e.offset)
  check : ∀ sourcePtr thisPtr index code debugIndex,
    let r := bitypeVerifyCast rodata sourcePtr thisPtr index code debugIndex s
    let r' := bitypeVerifyCast rodata sourcePtr thisPtr index code debugIndex t
    r.returned = r'.returned ∧ r.confusion = r'.confusion ∧
      r.state.debugArray = r'.state.debugArray
  inlineCheck : ∀ sourcePtr thisPtr index code debugIndex,
    let r := inlineVerification rodata sourcePtr thisPtr index code debugIndex s
    let r' := inlineVerification rodata sourcePtr thisPtr index code debugIndex t
    r.2 = r'.2 ∧ r.1.debugArray = r'.1.debugArray
  erase : ∀ thisPtr objAddr typeSize arraySize allocType,
    Option.Rel (fun s' t' => cleared s s' = cleared t t')
      (bitypeEraseObj thisPtr objAddr typeSize arraySize allocType s)
      (bitypeEraseObj thisPtr objAddr typeSize arraySize allocType t)

/-- **Observational equality**: after any further operations, the states reached
are not told apart. -/
def ObservationallyEqual (s t : Shadow) : Prop :=
  ∀ events, Option.Rel (SameObservations rodata)
    ((program mmap rodata).run events s) ((program mmap rodata).run events t)

variable {mmap} {rodata} {s t : Shadow}

/-! ## Alike entries -/

/-- Entries that differ at most in a size that `__bitype_eraseObj` reads alike. -/
structure EntryAlike (e f : Entry) : Prop where
  reference : e.reference = f.reference
  offset : e.offset = f.offset
  count : heapCount e = heapCount f

theorem EntryAlike.refl (e : Entry) : EntryAlike e e := ⟨rfl, rfl, rfl⟩

/-- Maps with alike entries. -/
def MapAlike (m n : GranuleMap) : Prop := ∀ g, Option.Rel EntryAlike (m g) (n g)

/-- A change of entries that keeps them alike. -/
def Respects (f f' : Entry → Entry) : Prop := ∀ e e', EntryAlike e e' → EntryAlike (f e) (f' e')

theorem MapAlike.refl (m : GranuleMap) : MapAlike m m := by
  intro g
  cases m g with
  | none => exact .none
  | some e => exact .some (.refl e)

variable {m n : GranuleMap}

theorem MapAlike.cover (h : MapAlike m n) (r : ℕ) : MapAlike (m.cover r) (n.cover r) := by
  intro g
  unfold GranuleMap.cover
  have hg := h g
  split
  · generalize m g = x at hg ⊢
    generalize n g = y at hg ⊢
    cases hg with
    | none => exact .some (.refl _)
    | some he => exact .some he
  · exact hg

theorem MapAlike.modify (h : MapAlike m n) (g : ℕ) {f f' : Entry → Entry} (hf : Respects f f') :
    MapAlike (m.modify g f) (n.modify g f') := by
  intro g'
  by_cases heq : g' = g
  · subst heq
    rw [modify_same, modify_same]
    have hg := h g'
    generalize m g' = x at hg ⊢
    generalize n g' = y at hg ⊢
    cases hg with
    | none => exact .none
    | some he => exact .some (hf _ _ he)
  · rw [modify_of_ne _ _ heq, modify_of_ne _ _ heq]
    exact h g'

theorem MapAlike.record (h : MapAlike m n) (g : ℕ) {f f' : Entry → Entry} (hf : Respects f f') :
    MapAlike (m.record g f) (n.record g f') := (h.cover _).modify g hf

/-- A loop whose body keeps maps alike keeps them alike. -/
theorem MapAlike.foldl {body : GranuleMap → ℕ → GranuleMap}
    (hbody : ∀ m n i, MapAlike m n → MapAlike (body m i) (body n i)) :
    ∀ (indices : List ℕ) {m n : GranuleMap}, MapAlike m n →
      MapAlike (indices.foldl body m) (indices.foldl body n) := by
  intro indices
  induction indices with
  | nil => intro m n h; exact h
  | cons i rest ih => intro m n h; exact ih (hbody m n i h)

theorem respects_const {e e' : Entry} (h : EntryAlike e e') :
    Respects (fun _ => e) (fun _ => e') := fun _ _ _ => h

theorem respects_traced (referenceAddr : Word) (offset : U32) :
    Respects (traced referenceAddr offset) (traced referenceAddr offset) :=
  respects_const (.refl _)

theorem respects_setSize (arraySize : U32) :
    Respects (fun e => { e with size := arraySize }) (fun e => { e with size := arraySize }) :=
  fun _ _ h => ⟨h.reference, h.offset, rfl⟩

theorem respects_clear :
    Respects (fun e => { e with reference := 0 }) (fun e => { e with reference := 0 }) :=
  fun _ _ h => ⟨rfl, h.offset, h.count⟩

theorem respects_clearInfo :
    Respects (fun e => { e with size := 0, offset := 0 })
      (fun e => { e with size := 0, offset := 0 }) :=
  fun _ _ h => ⟨h.reference, rfl, rfl⟩

theorem respects_reinterpreted (referenceAddr : Word) :
    Respects (reinterpreted referenceAddr) (reinterpreted referenceAddr) := by
  intro e e' h
  unfold reinterpreted
  rw [h.reference, h.offset]
  split
  · exact h
  · exact .refl _

theorem MapAlike.eraseElements (h : MapAlike m n) (A : Addressing) (thisPtr : Word)
    (typeSize : U32) (count : ℕ) :
    MapAlike (eraseElements A thisPtr typeSize count m) (eraseElements A thisPtr typeSize count n) :=
  MapAlike.foldl (fun _ _ i hmn => hmn.modify (A.element thisPtr typeSize i) respects_clear) _ h

/-- **Every call keeps maps alike**, and returns on both or on neither. -/
theorem abstractStep_alike (A : Addressing) (op : Op) (h : MapAlike m n) :
    Option.Rel MapAlike (op.abstractStep A m) (op.abstractStep A n) := by
  cases op with
  | updateArraySize thisPtr arraySize =>
      refine .some ?_
      split
      · exact h
      · exact h.record _ (respects_setSize arraySize)
  | directUpdateObjTrace thisPtr referenceAddr offset =>
      exact .some (h.record _ (respects_traced referenceAddr offset))
  | updateObjTrace thisPtr referenceAddr typeSize arraySize offset =>
      exact .some (MapAlike.foldl (fun _ _ i hmn =>
        hmn.record (A.element thisPtr typeSize i) (respects_traced referenceAddr offset)) _ h)
  | handleReinterpretCast thisPtr referenceAddr offset =>
      exact .some (h.record _ (respects_reinterpreted referenceAddr))
  | directEraseObj thisPtr => exact .some (h.modify _ (respects_const (.refl _)))
  | directEraseArraySize thisPtr =>
      refine .some ?_
      split
      · exact h
      · exact h.modify _ respects_clearInfo
  | eraseObj thisPtr objAddr typeSize arraySize allocType =>
      simp only [Op.abstractStep]
      split
      · -- the count comes from alike entries
        have hobj := h (A.granule objAddr)
        generalize m (A.granule objAddr) = x at hobj ⊢
        generalize n (A.granule objAddr) = y at hobj ⊢
        cases hobj with
        | none => exact .some h
        | some he =>
            simp only [he.count]
            exact .some (h.eraseElements A thisPtr typeSize _)
      · split
        · exact .some (h.eraseElements A thisPtr typeSize _)
        · exact .none

/-! ## Alike states -/

/-- Well laid out states with the same `debugArray` and alike entries. -/
structure Alike (mmap : ℕ → ℕ) (s t : Shadow) : Prop where
  left : Layout mmap s
  right : Layout mmap t
  debugArray : s.debugArray = t.debugArray
  view : MapAlike s.view t.view

theorem Alike.refl (layout : Layout mmap s) : Alike mmap s s :=
  ⟨layout, layout, rfl, MapAlike.refl _⟩

theorem EntryAlike.trans {e f g : Entry} (h : EntryAlike e f) (h' : EntryAlike f g) : EntryAlike e g :=
  ⟨h.reference.trans h'.reference, h.offset.trans h'.offset, h.count.trans h'.count⟩

theorem MapAlike.trans {m n p : GranuleMap} (h : MapAlike m n) (h' : MapAlike n p) : MapAlike m p := by
  intro g
  have hg := h g
  have hg' := h' g
  generalize m g = x at hg ⊢
  generalize n g = y at hg hg'
  generalize p g = z at hg' ⊢
  cases hg with
  | none =>
      cases hg' with
      | none => exact .none
  | some he =>
      cases hg' with
      | some he' => exact .some (he.trans he')

theorem Alike.trans {s t u : Shadow} (h : Alike mmap s t) (h' : Alike mmap t u) : Alike mmap s u :=
  ⟨h.left, h'.right, h.debugArray.trans h'.debugArray, h.view.trans h'.view⟩

theorem EntryAlike.symm {e f : Entry} (h : EntryAlike e f) : EntryAlike f e :=
  ⟨h.reference.symm, h.offset.symm, h.count.symm⟩

theorem MapAlike.symm {m n : GranuleMap} (h : MapAlike m n) : MapAlike n m := by
  intro g
  have hg := h g
  generalize m g = x at hg ⊢
  generalize n g = y at hg ⊢
  cases hg with
  | none => exact .none
  | some he => exact .some he.symm

theorem Alike.symm {s t : Shadow} (h : Alike mmap s t) : Alike mmap t s :=
  ⟨h.right, h.left, h.debugArray.symm, h.view.symm⟩

@[simp] theorem modifyWord_debugArray (level2 i : ℕ) (f : Word → Word) :
    (s.modifyWord level2 i f).debugArray = s.debugArray := rfl

@[simp] theorem secondLevel_debugArray (i : ℕ) :
    (secondLevel mmap s i).1.debugArray = s.debugArray := by
  unfold secondLevel bitypeMallocNewSpace
  split
  · dsimp only
    split <;> rfl
  · rfl

/-- No call touches the reported locations. -/
theorem step_debugArray (op : Op) {s' : Shadow} (h : op.step mmap s = some s') :
    s'.debugArray = s.debugArray := by
  -- a loop touches nothing that its body does not touch
  have hloop : ∀ {bound : ℕ} {body : U32 → Shadow → Shadow} {s' : Shadow},
      (∀ i s, (body i s).debugArray = s.debugArray) →
      forLoop bound body loopFuel 0 s = some s' → s'.debugArray = s.debugArray :=
    fun {_ body s'} hbody hrun =>
      (forLoop_invariant (fun i s'' hs => (hbody i s'').trans hs :
        ∀ i s'', s''.debugArray = s.debugArray → (body i s'').debugArray = s.debugArray)
        _ _ _ s' rfl hrun)
  cases op with
  | updateArraySize thisPtr arraySize =>
      obtain rfl := Option.some.inj h
      unfold bitypeUpdateArraySize
      split <;> simp
  | directUpdateObjTrace thisPtr referenceAddr offset =>
      obtain rfl := Option.some.inj h
      simp [bitypeDirectUpdateObjTrace]
  | updateObjTrace thisPtr referenceAddr typeSize arraySize offset =>
      exact hloop (fun i s => by simp [updateElement]) h
  | handleReinterpretCast thisPtr referenceAddr offset =>
      obtain rfl := Option.some.inj h
      simp only [bitypeHandleReinterpretCast]
      split <;> simp
  | directEraseObj thisPtr =>
      obtain rfl := Option.some.inj h
      simp only [bitypeDirectEraseObj]
      split <;> simp
  | directEraseArraySize thisPtr =>
      obtain rfl := Option.some.inj h
      simp only [bitypeDirectEraseArraySize]
      split
      · rfl
      · split <;> simp
  | eraseObj thisPtr objAddr typeSize arraySize allocType =>
      have hbody : ∀ i s, (eraseElement thisPtr typeSize i s).debugArray = s.debugArray := by
        intro i s
        simp only [eraseElement]
        split <;> simp
      simp only [Op.step, bitypeEraseObj] at h
      split at h
      · split at h
        · exact Option.some.inj h ▸ rfl
        · exact hloop hbody h
      · exact hloop hbody h

/-- Reported locations are no part of the layout. -/
theorem layout_debugArray (layout : Layout mmap s) (reported : ℕ → Bool) :
    Layout mmap { s with debugArray := reported } :=
  ⟨{ layout.toPlacement with }, layout.calls_le⟩

theorem Alike.print (h : Alike mmap s t) (debug : U32) :
    Alike mmap (printConfusionInline debug s) (printConfusionInline debug t) := by
  unfold printConfusionInline
  rw [h.debugArray]
  split
  · exact h
  split
  · exact h
  · exact ⟨layout_debugArray h.left _, layout_debugArray h.right _, rfl, h.view⟩

/-! ## The inlined sequences on the abstract table -/

/-- The size in an entry that the inlined update has written. -/
def inlineSize : Option Entry → U32
  | none => 1
  | some e => e.size

/-- A store to the offset keeps the size and nothing else. -/
theorem setOffsetField_congr (offset : U32) {word word' : Word}
    (h : sizeField word = sizeField word') : setOffsetField offset word = setOffsetField offset word' :=
  congrArg (offset ++ ·) h

/-- Two stores to the offset leave the size. -/
theorem modifyWord_offset_offset (level2 i : ℕ) (offset offset' : U32) :
    (s.modifyWord level2 i (setOffsetField offset)).modifyWord level2 i (setOffsetField offset') =
      (s.modifyWord level2 i (setSizeField (sizeField (s.word level2 i)))).modifyWord level2 i
        (setOffsetField offset') := by
  have hsize : sizeField (setOffsetField offset (s.word level2 i)) =
      sizeField (setSizeField (sizeField (s.word level2 i)) (s.word level2 i)) := by simp
  have hword := setOffsetField_congr offset' hsize
  simp only [Shadow.word] at hword
  simp [Shadow.modifyWord, Shadow.word, hword]

/-- Where there is no table, the inlined update is the update but for a size of one. -/
theorem inlineUpdate_of_null {newAddr : Word} (hnull : s.firstLevel (idx1 newAddr) = 0)
    (referenceAddr : Word) (offset : U32) :
    inlineUpdateObjTrace mmap newAddr referenceAddr offset s =
      writeEntry (secondLevel mmap s (idx1 newAddr)).1 (secondLevel mmap s (idx1 newAddr)).2
        newAddr referenceAddr 1 offset := by
  unfold inlineUpdateObjTrace
  rw [secondLevel_of_null hnull, if_pos hnull]
  rfl

/-- Where there is one, it stores the reference and, twice, to the offset. -/
theorem inlineUpdate_of_ne {newAddr : Word} (hne : s.firstLevel (idx1 newAddr) ≠ 0)
    (referenceAddr : Word) (offset : U32) :
    inlineUpdateObjTrace mmap newAddr referenceAddr offset s =
      ((s.modifyWord (s.firstLevel (idx1 newAddr)) (idx2 newAddr) fun _ => referenceAddr).modifyWord
        (s.firstLevel (idx1 newAddr)) (idx2 newAddr + 1) (setOffsetField 0)).modifyWord
          (s.firstLevel (idx1 newAddr)) (idx2 newAddr + 1) (setOffsetField offset) := if_neg hne

/-- The inlined update is the update, but for the size. -/
theorem inlineUpdate_eq (newAddr referenceAddr : Word) (offset : U32) :
    inlineUpdateObjTrace mmap newAddr referenceAddr offset s =
      writeEntry (secondLevel mmap s (idx1 newAddr)).1 (secondLevel mmap s (idx1 newAddr)).2
        newAddr referenceAddr (inlineSize (s.lookup newAddr)) offset := by
  unfold Shadow.lookup
  by_cases hnull : s.firstLevel (idx1 newAddr) = 0
  · rw [inlineUpdate_of_null hnull, if_pos hnull]
    rfl
  · rw [inlineUpdate_of_ne hnull, secondLevel_of_ne hnull, if_neg hnull]
    -- the store of the reference leaves the word of the size
    have hword : (s.modifyWord (s.firstLevel (idx1 newAddr)) (idx2 newAddr)
        fun _ => referenceAddr).word (s.firstLevel (idx1 newAddr)) (idx2 newAddr + 1) =
        s.word (s.firstLevel (idx1 newAddr)) (idx2 newAddr + 1) :=
      Function.update_of_ne (by omega) ..
    dsimp only [inlineSize, writeEntry]
    rw [modifyWord_offset_offset, hword]

theorem inlineUpdate_spec (layout : Layout mmap s) (fresh : FreshMmap mmap)
    (newAddr referenceAddr : Word) (offset : U32) :
    Implements mmap (inlineUpdateObjTrace mmap newAddr referenceAddr offset s)
      (s.view.record (granule newAddr) fun _ =>
        ⟨referenceAddr, inlineSize (s.view (granule newAddr)), offset⟩) := by
  rw [inlineUpdate_eq, lookup_eq_view]
  exact trace_spec layout fresh newAddr referenceAddr _ offset

/-- The entry of an address, if it has one, counts one object. -/
def CountsOne (s : Shadow) (addr : Word) : Prop := ∀ e, s.lookup addr = some e → heapCount e = 1

theorem heapCount_of_size {e f : Entry} (h : e.size = f.size) : heapCount e = heapCount f := by
  unfold heapCount
  rw [h]

/-- What counted one object before does so after the inlined update. -/
theorem CountsOne.inlineSize {newAddr : Word} (h : CountsOne s newAddr) (referenceAddr : Word)
    (offset : U32) :
    heapCount ⟨referenceAddr, inlineSize (s.view (granule newAddr)), offset⟩ = 1 := by
  rw [CountsOne, lookup_eq_view] at h
  cases hentry : s.view (granule newAddr) with
  | none => rfl
  | some e => exact (heapCount_of_size rfl).trans (h e hentry)

theorem inlineUpdate_debugArray (newAddr referenceAddr : Word) (offset : U32) :
    (inlineUpdateObjTrace mmap newAddr referenceAddr offset s).debugArray = s.debugArray := by
  rw [inlineUpdate_eq]
  simp [writeEntry]

theorem inlineErase_eq (newAddr : Word) : inlineEraseObj newAddr s = bitypeDirectEraseObj newAddr s :=
  rfl

/-- Where the entry counts one object, the inlined update and the function lead from one state to
alike states. -/
theorem alike_inlineUpdate (layout : Layout mmap s) (fresh : FreshMmap mmap)
    {newAddr : Word} (hone : CountsOne s newAddr) (referenceAddr : Word) (offset : U32) :
    Alike mmap (inlineUpdateObjTrace mmap newAddr referenceAddr offset s)
      (bitypeDirectUpdateObjTrace mmap newAddr referenceAddr offset s) := by
  obtain ⟨hlayout, hview⟩ := inlineUpdate_spec layout fresh newAddr referenceAddr offset
  obtain ⟨hlayout', hview'⟩ := directUpdateObjTrace_spec layout fresh newAddr referenceAddr offset
  refine ⟨hlayout, hlayout', ?_, ?_⟩
  · rw [inlineUpdate_debugArray]
    exact (step_debugArray (.directUpdateObjTrace newAddr referenceAddr offset) rfl).symm
  · rw [hview, hview']
    exact (MapAlike.refl _).record _
      (respects_const ⟨rfl, rfl, hone.inlineSize referenceAddr offset⟩)

/-! ## Alike states stay alike -/

/-- A call returns on both states or on neither, and leaves them alike. -/
theorem call_alike (fresh : FreshMmap mmap) (op : Op) (h : Alike mmap s t) :
    Option.Rel (Alike mmap) (op.step mmap s) (op.step mmap t) := by
  obtain ⟨hkeep, hview⟩ := step_spec h.left fresh op
  obtain ⟨hkeep', hview'⟩ := step_spec h.right fresh op
  have habstract := abstractStep_alike machineAddressing op h.view
  rw [← hview, ← hview'] at habstract
  cases hs : op.step mmap s with
  | none =>
      cases ht : op.step mmap t with
      | none => exact .none
      | some t' =>
          rw [hs, ht] at habstract
          cases habstract
  | some s' =>
      cases ht : op.step mmap t with
      | none =>
          rw [hs, ht] at habstract
          cases habstract
      | some t' =>
          rw [hs, ht] at habstract
          cases habstract with
          | some hmap =>
              refine .some ⟨hkeep s' hs, hkeep' t' ht, ?_, hmap⟩
              rw [step_debugArray op hs, step_debugArray op ht, h.debugArray]

theorem inlineUpdate_alike (fresh : FreshMmap mmap) (newAddr referenceAddr : Word) (offset : U32)
    (h : Alike mmap s t) :
    Alike mmap (inlineUpdateObjTrace mmap newAddr referenceAddr offset s)
      (inlineUpdateObjTrace mmap newAddr referenceAddr offset t) := by
  obtain ⟨hlayout, hview⟩ := inlineUpdate_spec h.left fresh newAddr referenceAddr offset
  obtain ⟨hlayout', hview'⟩ := inlineUpdate_spec h.right fresh newAddr referenceAddr offset
  refine ⟨hlayout, hlayout', ?_, ?_⟩
  · rw [inlineUpdate_debugArray, inlineUpdate_debugArray, h.debugArray]
  · rw [hview, hview']
    refine h.view.record _ (respects_const ⟨rfl, rfl, ?_⟩)
    -- the sizes that were there are alike
    have hentry := h.view (granule newAddr)
    generalize s.view (granule newAddr) = x at hentry ⊢
    generalize t.view (granule newAddr) = y at hentry ⊢
    cases hentry with
    | none => rfl
    | some he => exact he.count

/-- Alike states hold alike entries for every address. -/
theorem Alike.lookup (h : Alike mmap s t) (addr : Word) :
    Option.Rel EntryAlike (s.lookup addr) (t.lookup addr) := by
  rw [lookup_eq_view, lookup_eq_view]
  exact h.view (granule addr)

/-- Alike states give the same table for every address. -/
theorem Alike.table? (h : Alike mmap s t) (addr : Word) :
    Entry.table? (s.lookup addr) = Entry.table? (t.lookup addr) := by
  have hentry := h.lookup addr
  generalize s.lookup addr = x at hentry ⊢
  generalize t.lookup addr = y at hentry ⊢
  cases hentry with
  | none => rfl
  | some he => simp only [Entry.table?, Option.bind_some, he.reference]

theorem Alike.offsetOf (h : Alike mmap s t) (addr : Word) :
    Entry.offsetOf (s.lookup addr) = Entry.offsetOf (t.lookup addr) := by
  have hentry := h.lookup addr
  generalize s.lookup addr = x at hentry ⊢
  generalize t.lookup addr = y at hentry ⊢
  cases hentry with
  | none => rfl
  | some he => exact he.offset

theorem Alike.verdict (h : Alike mmap s t) (sourcePtr thisPtr : Word) (index : U32) (code : Byte) :
    verdict rodata s.lookup sourcePtr thisPtr index code =
      verdict rodata t.lookup sourcePtr thisPtr index code := by
  unfold Runtime.verdict
  rw [h.table? sourcePtr, h.table? thisPtr, h.offsetOf sourcePtr]

theorem Alike.inlineReports (h : Alike mmap s t) (sourcePtr thisPtr : Word) (index : U32)
    (code : Byte) :
    InlineReports rodata s.lookup sourcePtr thisPtr index code ↔
      InlineReports rodata t.lookup sourcePtr thisPtr index code := by
  unfold InlineReports
  rw [h.table? thisPtr]

theorem verifyCast_alike (rodata : Word → Byte) (h : Alike mmap s t) (sourcePtr thisPtr : Word) (index : U32)
    (code : Byte) (debugIndex : U32) :
    let r := bitypeVerifyCast rodata sourcePtr thisPtr index code debugIndex s
    let r' := bitypeVerifyCast rodata sourcePtr thisPtr index code debugIndex t
    r.returned = r'.returned ∧ r.confusion = r'.confusion ∧ Alike mmap r.state r'.state := by
  intro r r'
  simp only [r, r', verifyCast_eq, h.verdict, Verdict.result, true_and]
  split
  · exact h.print debugIndex
  · exact h

theorem inlineVerification_alike (rodata : Word → Byte) (h : Alike mmap s t) (sourcePtr thisPtr : Word) (index : U32)
    (code : Byte) (debugIndex : U32) :
    let r := inlineVerification rodata sourcePtr thisPtr index code debugIndex s
    let r' := inlineVerification rodata sourcePtr thisPtr index code debugIndex t
    r.2 = r'.2 ∧ Alike mmap r.1 r'.1 := by
  intro r r'
  simp only [r, r', inlineVerification_eq]
  by_cases hreports : InlineReports rodata t.lookup sourcePtr thisPtr index code
  · rw [if_pos hreports, if_pos ((h.inlineReports ..).mpr hreports)]
    exact ⟨rfl, h.print debugIndex⟩
  · rw [if_neg hreports, if_neg fun hs => hreports ((h.inlineReports ..).mp hs)]
    exact ⟨rfl, h⟩

/-- **Every operation keeps alike states alike.** -/
theorem congruence (rodata : Word → Byte) (fresh : FreshMmap mmap) : (program mmap rodata).Congruence (Alike mmap) := by
  intro event s t h
  cases event with
  | call op => exact call_alike fresh op h
  | inlineUpdate newAddr referenceAddr offset =>
      exact .some (inlineUpdate_alike fresh newAddr referenceAddr offset h)
  | inlineErase newAddr => exact call_alike fresh (.directEraseObj newAddr) h
  | check sourcePtr thisPtr index code debugIndex =>
      exact .some (verifyCast_alike rodata h sourcePtr thisPtr index code debugIndex).2.2
  | dynamicCheck thisPtr index code =>
      exact .some (verifyCast_alike rodata h thisPtr thisPtr index code (-1)).2.2
  | inlineCheck sourcePtr thisPtr index code debugIndex =>
      exact .some (inlineVerification_alike rodata h sourcePtr thisPtr index code debugIndex).2

/-- Every operation keeps the layout. -/
theorem event_layout (rodata : Word → Byte) (fresh : FreshMmap mmap) (event : Event) (s s' : Shadow)
    (layout : Layout mmap s) (h : (program mmap rodata).step event s = some s') :
    Layout mmap s' := by
  have hstep := congruence rodata fresh event s s (.refl layout)
  rw [h] at hstep
  cases hstep with
  | some halike => exact halike.left

/-- **Alike states are not told apart.** -/
theorem observe_of_alike (fresh : FreshMmap mmap) (h : Alike mmap s t) :
    SameObservations rodata s t := by
  refine ⟨?_, ?_, ?_, ?_⟩
  · intro addr
    have hentry := h.lookup addr
    generalize s.lookup addr = x at hentry ⊢
    generalize t.lookup addr = y at hentry ⊢
    cases hentry with
    | none => rfl
    | some he => simp only [Option.map_some, he.reference, he.offset]
  · intro sourcePtr thisPtr index code debugIndex
    obtain ⟨hreturned, hconfusion, hstate⟩ :=
      verifyCast_alike rodata h sourcePtr thisPtr index code debugIndex
    exact ⟨hreturned, hconfusion, hstate.debugArray⟩
  · intro sourcePtr thisPtr index code debugIndex
    obtain ⟨hreport, hstate⟩ :=
      inlineVerification_alike rodata h sourcePtr thisPtr index code debugIndex
    exact ⟨hreport, hstate.debugArray⟩
  -- alike entries count the same objects, so both erases go equally far
  · intro thisPtr objAddr typeSize arraySize allocType
    have hstep := call_alike fresh (.eraseObj thisPtr objAddr typeSize arraySize allocType) h
    simp only [Op.step] at hstep
    generalize bitypeEraseObj thisPtr objAddr typeSize arraySize allocType s = x at hstep ⊢
    generalize bitypeEraseObj thisPtr objAddr typeSize arraySize allocType t = y at hstep ⊢
    cases hstep with
    | none => exact .none
    | some h' =>
        refine .some (Set.ext fun addr => ?_)
        simp only [cleared, Set.mem_ofPred_eq, h.table? addr, h'.table? addr]

/-- Alike states are observationally equal. -/
theorem observationallyEqual_of_alike (fresh : FreshMmap mmap) (h : Alike mmap s t) :
    ObservationallyEqual mmap rodata s t := by
  intro events
  have hrun := (congruence rodata fresh).run events s t h
  generalize (program mmap rodata).run events s = x at hrun ⊢
  generalize (program mmap rodata).run events t = y at hrun ⊢
  cases hrun with
  | none => exact .none
  | some h' => exact .some (observe_of_alike fresh h')

/-! ## Where they are told apart -/

theorem granule_ne_next (addr : Word) : granule (addr + 8) ≠ granule addr := by
  rw [granule, granule, BitVec.toNat_add, show (8 : Word).toNat = 8 from rfl, L1_BITS, L2_BITS]
  omega

theorem table?_eq_none_iff (addr : Word) :
    Entry.table? (s.lookup addr) = none ↔ (s.view.content (granule addr)).reference = 0 := by
  rw [lookup_eq_view, GranuleMap.content]
  cases s.view (granule addr) with
  | none => exact iff_of_true rfl rfl
  | some e => simp [Entry.table?]

/-- The entry of a granule after it and another one have been written. -/
theorem view_records (m : GranuleMap) {g h : ℕ} (hne : g ≠ h) (e f : Entry) :
    ((m.record g fun _ => e).record h fun _ => f) g = some e := by
  rw [eq_some_content (isSome_record h _ (isSome_record_same m g _)), content_record, if_neg hne,
    content_record, if_pos rfl]

/-- A free of granules from `addr` on clears as many as the entry of `addr` counts, so the next one
just if that is more than one. -/
theorem cleared_next (layout : Layout mmap s) (fresh : FreshMmap mmap) {addr : Word} {e : Entry}
    (he : s.lookup addr = some e) (hnext : Entry.table? (s.lookup (addr + 8)) ≠ none) :
    ∃ s', bitypeEraseObj addr addr 8 0 .heapAlloc s = some s' ∧
      (addr + 8 ∈ cleared s s' ↔ 1 < heapCount e) := by
  obtain ⟨-, hview⟩ := step_spec layout fresh (.eraseObj addr addr 8 0 .heapAlloc)
  have hentry : s.view (machineAddressing.granule addr) = some e := (lookup_eq_view addr).symm.trans he
  rw [Op.abstractStep, if_pos (.inl rfl), hentry] at hview
  obtain ⟨s', hs', hview'⟩ := Option.map_eq_some_iff.mp hview
  have hzero : machineAddressing.element addr 8 0 = granule addr :=
    congrArg granule (BitVec.add_zero addr)
  have hone : machineAddressing.element addr 8 1 = granule (addr + 8) := rfl
  refine ⟨s', hs', ?_⟩
  rw [cleared, Set.mem_ofPred_eq, and_iff_right hnext, table?_eq_none_iff, hview',
    content_eraseElements]
  constructor
  · intro hcleared
    by_contra hfew
    -- only the granule of `addr` itself has been cleared
    have hspared : ¬ ElementGranule addr 8 (heapCount e) (granule (addr + 8)) := by
      rintro ⟨i, hi, hsame⟩
      obtain rfl : i = 0 := by omega
      exact granule_ne_next addr (hsame.symm.trans hzero)
    rw [if_neg hspared] at hcleared
    exact hnext ((table?_eq_none_iff _).mpr hcleared)
  · intro hmany
    rw [if_pos ⟨1, hmany, hone⟩]

/-- A reference in the next granule, and a free that takes its count from the entry, tell the two
updates apart where the entry has counted several objects. -/
theorem countsOne_of_observationallyEqual (layout : Layout mmap s) (fresh : FreshMmap mmap)
    {newAddr referenceAddr : Word} {offset : U32}
    (h : ObservationallyEqual mmap rodata
      (inlineUpdateObjTrace mmap newAddr referenceAddr offset s)
      (bitypeDirectUpdateObjTrace mmap newAddr referenceAddr offset s)) : CountsOne s newAddr := by
  intro e he
  have hkept : s.view (granule newAddr) = some e := (lookup_eq_view newAddr).symm.trans he
  obtain ⟨hlayout, hview⟩ := inlineUpdate_spec layout fresh newAddr referenceAddr offset
  obtain ⟨hlayout', hview'⟩ := directUpdateObjTrace_spec layout fresh newAddr referenceAddr offset
  -- the next granule gets a reference, for the erase to clear
  have hobserve := h [.call (.directUpdateObjTrace (newAddr + 8) 1 0)]
  generalize inlineUpdateObjTrace mmap newAddr referenceAddr offset s = s₁ at hlayout hview hobserve
  generalize bitypeDirectUpdateObjTrace mmap newAddr referenceAddr offset s = t₁
    at hlayout' hview' hobserve
  obtain ⟨hlayout₂, hview₂⟩ := directUpdateObjTrace_spec hlayout fresh (newAddr + 8) 1 0
  obtain ⟨hlayout₂', hview₂'⟩ := directUpdateObjTrace_spec hlayout' fresh (newAddr + 8) 1 0
  obtain ⟨-, -, -, herase⟩ : SameObservations rodata
      (bitypeDirectUpdateObjTrace mmap (newAddr + 8) 1 0 s₁)
      (bitypeDirectUpdateObjTrace mmap (newAddr + 8) 1 0 t₁) := by
    cases hobserve with
    | some hsame => exact hsame
  generalize bitypeDirectUpdateObjTrace mmap (newAddr + 8) 1 0 s₁ = s₂ at hlayout₂ hview₂ herase
  generalize bitypeDirectUpdateObjTrace mmap (newAddr + 8) 1 0 t₁ = t₂ at hlayout₂' hview₂' herase
  have hne := (granule_ne_next newAddr).symm
  -- the inlined update keeps the size of the entry, the call sets it to zero
  have hentry : s₂.lookup newAddr = some ⟨referenceAddr, e.size, offset⟩ := by
    rw [lookup_eq_view, hview₂, hview, hkept]
    exact view_records _ hne _ _
  have hentry' : t₂.lookup newAddr = some ⟨referenceAddr, 0, offset⟩ := by
    rw [lookup_eq_view, hview₂', hview']
    exact view_records _ hne _ _
  have hnext : ∀ {r r' : Shadow}, r'.view = r.view.record (granule (newAddr + 8)) (traced 1 0) →
      Entry.table? (r'.lookup (newAddr + 8)) ≠ none := by
    intro r r' hr
    rw [ne_eq, table?_eq_none_iff, hr, content_record, if_pos rfl]
    show (1 : Word) ≠ 0
    decide
  obtain ⟨s₃, hs₃, hcleared⟩ := cleared_next hlayout₂ fresh hentry (hnext hview₂)
  obtain ⟨t₃, ht₃, hcleared'⟩ := cleared_next hlayout₂' fresh hentry' (hnext hview₂')
  -- erasing objects of eight bytes reaches the next granule if two are counted
  have hsame := herase newAddr newAddr 8 0 .heapAlloc
  rw [hs₃, ht₃] at hsame
  cases hsame with
  | some hsame =>
      have hone : heapCount ⟨referenceAddr, 0, offset⟩ = 1 := rfl
      have hcount : heapCount ⟨referenceAddr, e.size, offset⟩ = heapCount e := heapCount_of_size rfl
      rw [hsame, hcleared', hone, hcount] at hcleared
      have hpos := heapCount_pos e
      have hfew : ¬ 1 < heapCount e := fun hmany => lt_irrefl 1 (hcleared.mpr hmany)
      omega

/-- **Where the inlined trace update and erase agree with the functions**, in a state with a sound
layout: the erase everywhere, the update exactly where the entry of the address counts one object. -/
theorem inline_observationallyEqual_iff (fresh : FreshMmap mmap) (layout : Layout mmap s)
    (rodata : Word → Byte) (newAddr referenceAddr : Word) (offset : U32) :
    ObservationallyEqual mmap rodata (inlineEraseObj newAddr s) (bitypeDirectEraseObj newAddr s) ∧
      (ObservationallyEqual mmap rodata (inlineUpdateObjTrace mmap newAddr referenceAddr offset s)
        (bitypeDirectUpdateObjTrace mmap newAddr referenceAddr offset s) ↔ CountsOne s newAddr) := by
  constructor
  · rw [inlineErase_eq]
    exact observationallyEqual_of_alike fresh
      (Alike.refl (directEraseObj_spec layout fresh newAddr).1)
  · constructor
    · exact countsOne_of_observationallyEqual layout fresh
    · intro hone
      exact observationallyEqual_of_alike fresh
        (alike_inlineUpdate layout fresh hone referenceAddr offset)

theorem inline_observationallyEqual_iff_sample :
    ObservationallyEqual spacedMmap (fun _ => 0)
        (inlineEraseObj 4096 (bitypeInitialization spacedMmap fun _ => 0))
        (bitypeDirectEraseObj 4096 (bitypeInitialization spacedMmap fun _ => 0)) ∧
      (ObservationallyEqual spacedMmap (fun _ => 0)
        (inlineUpdateObjTrace spacedMmap 4096 77 0
          (bitypeInitialization spacedMmap fun _ => 0))
        (bitypeDirectUpdateObjTrace spacedMmap 4096 77 0
          (bitypeInitialization spacedMmap fun _ => 0)) ↔
        CountsOne (bitypeInitialization spacedMmap fun _ => 0) 4096) :=
  inline_observationallyEqual_iff spacedMmap_fresh (layout_init fun _ => 0) (fun _ => 0) 4096 77 0

/-- After `new D[2]`, the inlined placement new of a `D` at its start leaves a count of two. -/
theorem inline_update_keeps_count :
    ¬ ∀ (mmap : ℕ → ℕ) (rodata : Word → Byte) (s : Shadow) (newAddr referenceAddr : Word)
      (offset : U32), FreshMmap mmap → Layout mmap s →
      ObservationallyEqual mmap rodata (inlineUpdateObjTrace mmap newAddr referenceAddr offset s)
        (bitypeDirectUpdateObjTrace mmap newAddr referenceAddr offset s) := by
  intro hall
  have hinit : Layout spacedMmap (bitypeInitialization spacedMmap fun _ => 0) := layout_init _
  obtain ⟨hkeep, hview⟩ := step_spec hinit spacedMmap_fresh (.updateObjTrace 4096 77 8 2 0)
  obtain ⟨s₁, hs₁, -⟩ := Option.map_eq_some_iff.mp hview
  obtain ⟨hlayout, hview₂⟩ := updateArraySize_spec (hkeep s₁ hs₁) spacedMmap_fresh 4096 2
  have hone := countsOne_of_observationallyEqual hlayout spacedMmap_fresh
    (hall _ (fun _ => 0) _ 4096 77 0 spacedMmap_fresh hlayout)
  have hentry : (bitypeUpdateArraySize spacedMmap 4096 2 s₁).lookup 4096 =
      some { s₁.view.content (granule 4096) with size := 2 } := by
    rw [lookup_eq_view, hview₂, if_neg (by decide), record_same]
    rfl
  exact absurd (hone _ hentry) (by simp [heapCount])

end Bitype.Runtime
