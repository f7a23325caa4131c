import Bitype.Runtime.Layout

/-!
# The shadow table refines the granule map

`Shadow.view` reads the whole two-level table as a `GranuleMap`.  In a well laid
out state every runtime function keeps the layout and acts on the view as
`Op.abstractStep machineAddressing` says (`step_spec`), so whole runs do
(`run_refines_machine`), and a run of calls in range is a run of the plain map
(`run_refines_plain`).
-/

namespace Bitype.Runtime

open Foundations

namespace Shadow

/-- The entry of slot `k` of table `i`, if the table exists. -/
def entryAt (s : Shadow) (i k : ℕ) : Option Entry :=
  if s.firstLevel i = 0 then none
  else some
    { reference := s.word (s.firstLevel i) (2 * k)
      size := sizeField (s.word (s.firstLevel i) (2 * k + 1))
      offset := offsetField (s.word (s.firstLevel i) (2 * k + 1)) }

/-- The lookup of an address, as every check makes it. -/
def lookup (s : Shadow) (addr : Word) : Option Entry :=
  let level2 := s.firstLevel (idx1 addr)
  if level2 = 0 then none
  else some
    { reference := s.word level2 (idx2 addr)
      size := sizeField (s.word level2 (idx2 addr + 1))
      offset := offsetField (s.word level2 (idx2 addr + 1)) }

/-- The table as a map. -/
def view (s : Shadow) : GranuleMap :=
  fun g => if g < L1_BITS * L2_BITS then s.entryAt (g / L2_BITS) (g % L2_BITS) else none

end Shadow

variable {mmap : ℕ → ℕ} {s : Shadow}

/-! ## Granules and indices -/

theorem granule_div (addr : Word) : granule addr / L2_BITS = idx1 addr := by
  rw [idx1_eq, granule, L1_BITS, L2_BITS]
  omega

theorem idx2_eq_granule (addr : Word) : idx2 addr = 2 * (granule addr % L2_BITS) := by
  rw [idx2_eq, granule, L1_BITS, L2_BITS]
  omega

/-- A lookup reads the view at the granule of the address. -/
theorem lookup_eq_view (addr : Word) : s.lookup addr = s.view (granule addr) := by
  rw [Shadow.view, if_pos (granule_lt addr), granule_div, Shadow.entryAt, Shadow.lookup,
    idx2_eq_granule]

theorem entryAt_of_ne {i k : ℕ} (h : s.firstLevel i ≠ 0) :
    s.entryAt i k = some
      { reference := s.word (s.firstLevel i) (2 * k)
        size := sizeField (s.word (s.firstLevel i) (2 * k + 1))
        offset := offsetField (s.word (s.firstLevel i) (2 * k + 1)) } := if_neg h

theorem entryAt_of_null {i k : ℕ} (h : s.firstLevel i = 0) : s.entryAt i k = none := if_pos h

theorem div_lt_of_lt {g : ℕ} (hg : g < L1_BITS * L2_BITS) : g / L2_BITS < L1_BITS := by
  rw [L1_BITS, L2_BITS] at *
  omega

theorem mod_lt_table (g : ℕ) : g % L2_BITS < L2_BITS := Nat.mod_lt _ (by decide)

/-! ## One write -/

/-- A word of an entry's table changed: the view changes at that granule only,
by whatever the change does to the entry. -/
theorem view_modifyWord (layout : Layout mmap s) (fresh : FreshMmap mmap) (addr : Word)
    (hne : s.firstLevel (idx1 addr) ≠ 0) {j : ℕ} (hj : j = idx2 addr ∨ j = idx2 addr + 1)
    (f : Word → Word) (change : Entry → Entry)
    (hchange : ∀ reference info : Word,
      change ⟨reference, sizeField info, offsetField info⟩ =
        if j = idx2 addr then ⟨f reference, sizeField info, offsetField info⟩
        else ⟨reference, sizeField (f info), offsetField (f info)⟩) :
    (s.modifyWord (s.firstLevel (idx1 addr)) j f).view = s.view.modify (granule addr) change := by
  have hi := idx1_lt addr
  have hj2 : j < 2 * L2_BITS := by
    have := idx2_succ_lt addr
    omega
  funext g
  by_cases hg : g < L1_BITS * L2_BITS
  · have hdiv := div_lt_of_lt hg
    have hmod := mod_lt_table g
    have hfirst := firstLevel_modifyWord layout.toPlacement fresh hi hne hj2 hdiv f
    have heven : ∀ hne' : s.firstLevel (g / L2_BITS) ≠ 0, _ :=
      fun hne' => word_modifyWord layout.toPlacement hi hne hj2 hdiv hne'
        (show 2 * (g % L2_BITS) < 2 * L2_BITS by omega) f
    have hodd : ∀ hne' : s.firstLevel (g / L2_BITS) ≠ 0, _ :=
      fun hne' => word_modifyWord layout.toPlacement hi hne hj2 hdiv hne'
        (show 2 * (g % L2_BITS) + 1 < 2 * L2_BITS by omega) f
    by_cases heq : g = granule addr
    · subst heq
      rw [modify_same]
      simp only [Shadow.view, if_pos hg] at *
      rw [granule_div] at *
      rw [entryAt_of_ne (by rw [hfirst]; exact hne), entryAt_of_ne hne, hfirst, Option.map_some,
        hchange, ← idx2_eq_granule]
      rw [← idx2_eq_granule] at heven hodd
      rw [heven hne, hodd hne]
      rcases hj with rfl | rfl
      · simp
      · simp
    · rw [modify_of_ne _ _ heq]
      simp only [Shadow.view, if_pos hg]
      by_cases hnull : s.firstLevel (g / L2_BITS) = 0
      · rw [entryAt_of_null (by rw [hfirst]; exact hnull), entryAt_of_null hnull]
      · rw [entryAt_of_ne (by rw [hfirst]; exact hnull), entryAt_of_ne hnull, hfirst,
          heven hnull, hodd hnull]
        -- another granule has another table or another slot
        have hother : ¬(g / L2_BITS = idx1 addr ∧ g % L2_BITS = granule addr % L2_BITS) := by
          rintro ⟨hd, hm⟩
          apply heq
          rw [← Nat.div_add_mod g L2_BITS, hd, hm, ← granule_div, Nat.div_add_mod]
        rw [idx2_eq_granule] at hj
        rw [if_neg (by omega), if_neg (by omega)]
  · have hne' : g ≠ granule addr := fun h => hg (h ▸ granule_lt addr)
    rw [modify_of_ne _ _ hne']
    simp only [Shadow.view, if_neg hg]

/-- Setting the reference of an existing entry. -/
theorem view_setReference (layout : Layout mmap s) (fresh : FreshMmap mmap) (addr : Word)
    (hne : s.firstLevel (idx1 addr) ≠ 0) (referenceAddr : Word) :
    (s.modifyWord (s.firstLevel (idx1 addr)) (idx2 addr) fun _ => referenceAddr).view =
      s.view.modify (granule addr) fun e => { e with reference := referenceAddr } :=
  view_modifyWord layout fresh addr hne (Or.inl rfl) _ _ fun _ _ => by simp

/-- Setting the size and offset word of an existing entry. -/
theorem view_setInfo (layout : Layout mmap s) (fresh : FreshMmap mmap) (addr : Word)
    (hne : s.firstLevel (idx1 addr) ≠ 0) (f : Word → Word) (change : Entry → Entry)
    (hchange : ∀ reference info : Word,
      change ⟨reference, sizeField info, offsetField info⟩ =
        ⟨reference, sizeField (f info), offsetField (f info)⟩) :
    (s.modifyWord (s.firstLevel (idx1 addr)) (idx2 addr + 1) f).view =
      s.view.modify (granule addr) change :=
  view_modifyWord layout fresh addr hne (Or.inr rfl) f change fun reference info => by
    rw [hchange, if_neg (Nat.succ_ne_self _)]

/-! ## The shared blocks -/

/-- The allocation block gives the region of the address its entries. -/
theorem view_secondLevel (layout : Layout mmap s) (fresh : FreshMmap mmap) (addr : Word) :
    (secondLevel mmap s (idx1 addr)).1.view = s.view.cover (granule addr / L2_BITS) := by
  obtain ⟨_, _, hne, hsame, hzero⟩ := secondLevel_spec layout fresh (idx1_lt addr)
  funext g
  rw [granule_div, GranuleMap.cover]
  by_cases hg : g < L1_BITS * L2_BITS
  · have hdiv := div_lt_of_lt hg
    have hmod := mod_lt_table g
    simp only [Shadow.view, if_pos hg]
    -- the region of the address has a table now, a new one is all zero
    by_cases hregion : g / L2_BITS = idx1 addr
    · rw [if_pos hregion, hregion, entryAt_of_ne hne]
      by_cases hnull : s.firstLevel (idx1 addr) = 0
      · rw [entryAt_of_null hnull, hzero hnull _ (by omega), hzero hnull _ (by omega)]
        simp [Entry.zero]
      · rw [entryAt_of_ne hnull, hsame.firstLevel_eq _ (idx1_lt addr) (Or.inr hnull),
          hsame.word_eq _ (idx1_lt addr) hnull _ (by omega),
          hsame.word_eq _ (idx1_lt addr) hnull _ (by omega), Option.getD_some]
    · rw [if_neg hregion]
      have hfirst := hsame.firstLevel_eq _ hdiv (Or.inl hregion)
      by_cases hnull : s.firstLevel (g / L2_BITS) = 0
      · rw [entryAt_of_null (by rw [hfirst]; exact hnull), entryAt_of_null hnull]
      · rw [entryAt_of_ne (by rw [hfirst]; exact hnull), entryAt_of_ne hnull, hfirst,
          hsame.word_eq _ hdiv hnull _ (by omega), hsame.word_eq _ hdiv hnull _ (by omega)]
  · have hregion : g / L2_BITS ≠ idx1 addr := by
      have := idx1_lt addr
      rw [L1_BITS, L2_BITS] at *
      omega
    simp only [Shadow.view, if_neg hg, if_neg hregion]

/-- What the functions do to an entry once its table exists: any change of the two
words, made one after the other, is a change of the entry. -/
theorem record_of_modify (layout : Layout mmap s) (fresh : FreshMmap mmap) (addr : Word)
    {s' : Shadow} {change : Entry → Entry}
    (h : s'.view = (secondLevel mmap s (idx1 addr)).1.view.modify (granule addr) change) :
    s'.view = s.view.record (granule addr) change := by
  rw [h, view_secondLevel layout fresh addr, GranuleMap.record]

/-- The three stores of a reference, a size and an offset. -/
def writeEntry (s : Shadow) (level2 : ℕ) (addr referenceAddr : Word) (size offset : U32) :
    Shadow :=
  ((s.modifyWord level2 (idx2 addr) fun _ => referenceAddr).modifyWord level2 (idx2 addr + 1)
    (setSizeField size)).modifyWord level2 (idx2 addr + 1) (setOffsetField offset)

theorem writeEntry_spec (layout : Layout mmap s) (fresh : FreshMmap mmap) (addr : Word)
    (hne : s.firstLevel (idx1 addr) ≠ 0) (referenceAddr : Word) (size offset : U32) :
    Layout mmap (writeEntry s (s.firstLevel (idx1 addr)) addr referenceAddr size offset) ∧
      (writeEntry s (s.firstLevel (idx1 addr)) addr referenceAddr size offset).view =
        s.view.modify (granule addr) fun _ => ⟨referenceAddr, size, offset⟩ := by
  have hi := idx1_lt addr
  have hj : idx2 addr < 2 * L2_BITS := Nat.lt_of_succ_lt (idx2_succ_lt addr)
  have hj' := idx2_succ_lt addr
  have hlayout₁ := modifyWord_layout layout fresh hi hne hj fun _ => referenceAddr
  have hview₁ := view_setReference layout fresh addr hne referenceAddr
  have hfirst₁ := firstLevel_modifyWord layout.toPlacement fresh hi hne hj hi
    fun _ => referenceAddr
  unfold writeEntry
  generalize s.modifyWord (s.firstLevel (idx1 addr)) (idx2 addr) (fun _ => referenceAddr) = s₁ at *
  rw [← hfirst₁] at hne ⊢
  have hlayout₂ := modifyWord_layout hlayout₁ fresh hi hne hj' (setSizeField size)
  have hview₂ := view_setInfo hlayout₁ fresh addr hne (setSizeField size)
    (fun e => { e with size := size }) fun _ _ => by simp
  have hfirst₂ := firstLevel_modifyWord hlayout₁.toPlacement fresh hi hne hj' hi (setSizeField size)
  generalize s₁.modifyWord (s₁.firstLevel (idx1 addr)) (idx2 addr + 1) (setSizeField size) = s₂ at *
  rw [← hfirst₂] at hne ⊢
  refine ⟨modifyWord_layout hlayout₂ fresh hi hne hj' _, ?_⟩
  rw [view_setInfo hlayout₂ fresh addr hne (setOffsetField offset)
    (fun e => { e with offset := offset }) (fun _ _ => by simp), hview₂, hview₁,
    modify_modify, modify_modify]
  rfl

/-! ## The functions -/

/-- The state is well laid out and reads as the given map. -/
def Implements (mmap : ℕ → ℕ) (s : Shadow) (m : GranuleMap) : Prop :=
  Layout mmap s ∧ s.view = m

theorem updateArraySize_spec (layout : Layout mmap s) (fresh : FreshMmap mmap) (thisPtr : Word)
    (arraySize : U32) :
    Implements mmap (bitypeUpdateArraySize mmap thisPtr arraySize s)
      (if thisPtr = 0 then s.view
        else s.view.record (granule thisPtr) fun e => { e with size := arraySize }) := by
  unfold bitypeUpdateArraySize
  split
  · exact ⟨layout, rfl⟩
  · obtain ⟨hlayout, htable, hne, _⟩ := secondLevel_spec layout fresh (idx1_lt thisPtr)
    simp only [htable, idx2Unsigned_eq]
    refine ⟨modifyWord_layout hlayout fresh (idx1_lt _) hne (idx2_succ_lt _) _, ?_⟩
    apply record_of_modify layout fresh thisPtr
    exact view_setInfo hlayout fresh thisPtr hne (setSizeField arraySize)
      (fun e => { e with size := arraySize }) fun _ _ => by simp

/-- The body shared by `__bitype_direct_updateObjTrace` and the loop of
`__bitype_updateObjTrace`. -/
theorem trace_spec (layout : Layout mmap s) (fresh : FreshMmap mmap) (addr referenceAddr : Word)
    (size offset : U32) :
    Implements mmap
      (writeEntry (secondLevel mmap s (idx1 addr)).1 (secondLevel mmap s (idx1 addr)).2 addr
        referenceAddr size offset)
      (s.view.record (granule addr) fun _ => ⟨referenceAddr, size, offset⟩) := by
  obtain ⟨hlayout, htable, hne, _⟩ := secondLevel_spec layout fresh (idx1_lt addr)
  rw [htable]
  obtain ⟨hlayout', hview⟩ := writeEntry_spec hlayout fresh addr hne referenceAddr size offset
  exact ⟨hlayout', record_of_modify layout fresh addr hview⟩

theorem directUpdateObjTrace_spec (layout : Layout mmap s) (fresh : FreshMmap mmap)
    (thisPtr referenceAddr : Word) (offset : U32) :
    Implements mmap (bitypeDirectUpdateObjTrace mmap thisPtr referenceAddr offset s)
      (s.view.record (granule thisPtr) (traced referenceAddr offset)) :=
  trace_spec layout fresh thisPtr referenceAddr 0 offset

theorem updateElement_spec (layout : Layout mmap s) (fresh : FreshMmap mmap)
    (thisPtr referenceAddr : Word) (typeSize offset i : U32) :
    Implements mmap (updateElement mmap thisPtr referenceAddr typeSize offset i s)
      (s.view.record (granule (elementAddr thisPtr typeSize i))
        (traced referenceAddr offset)) := by
  have h := trace_spec layout fresh (elementAddr thisPtr typeSize i) referenceAddr 0 offset
  simp only [updateElement, idx2Unsigned_eq]
  exact h

theorem handleReinterpretCast_spec (layout : Layout mmap s) (fresh : FreshMmap mmap)
    (thisPtr referenceAddr : Word) (offset : U32) :
    Implements mmap (bitypeHandleReinterpretCast mmap thisPtr referenceAddr offset s)
      (s.view.record (granule thisPtr) (reinterpreted referenceAddr)) := by
  obtain ⟨hlayout, htable, hne, _⟩ := secondLevel_spec layout fresh (idx1_lt thisPtr)
  have hcovered := view_secondLevel layout fresh thisPtr
  simp only [bitypeHandleReinterpretCast]
  rw [htable]
  generalize (secondLevel mmap s (idx1 thisPtr)).1 = s₁ at *
  have hentry : s₁.view (granule thisPtr) = some ⟨s₁.word (s₁.firstLevel (idx1 thisPtr))
      (idx2 thisPtr), sizeField (s₁.word (s₁.firstLevel (idx1 thisPtr)) (idx2 thisPtr + 1)),
      offsetField (s₁.word (s₁.firstLevel (idx1 thisPtr)) (idx2 thisPtr + 1))⟩ := by
    rw [← lookup_eq_view, Shadow.lookup, if_neg hne]
  -- either way the entry becomes `reinterpreted` of what it was
  have hmodify : ∀ change : Entry → Entry,
      (∀ e, s₁.view (granule thisPtr) = some e → change e = reinterpreted referenceAddr e) →
      s₁.view.modify (granule thisPtr) change =
        s.view.record (granule thisPtr) (reinterpreted referenceAddr) := by
    intro change hchange
    rw [GranuleMap.record, ← hcovered]
    unfold GranuleMap.modify
    rw [hentry, Option.map_some, Option.map_some, hchange _ hentry]
  split
  · next hreal =>
      refine ⟨hlayout, ?_⟩
      rw [← hmodify id, modify_id]
      intro e he
      obtain rfl : _ = e := Option.some.inj (hentry.symm.trans he)
      exact (if_pos hreal).symm
  · next hreal =>
      obtain ⟨hlayout', hview⟩ := writeEntry_spec hlayout fresh thisPtr hne referenceAddr 0 (-1)
      refine ⟨hlayout', hview.trans (hmodify _ ?_)⟩
      intro e he
      obtain rfl : _ = e := Option.some.inj (hentry.symm.trans he)
      exact (if_neg hreal).symm

/-- With no table there is no entry to change. -/
theorem modify_of_null (addr : Word) (hnull : s.firstLevel (idx1 addr) = 0)
    (f : Entry → Entry) : s.view.modify (granule addr) f = s.view := by
  have hentry : s.view (granule addr) = none := by
    rw [← lookup_eq_view, Shadow.lookup, if_pos hnull]
  unfold GranuleMap.modify
  rw [hentry, Option.map_none, ← hentry, Function.update_eq_self]

theorem directEraseObj_spec (layout : Layout mmap s) (fresh : FreshMmap mmap) (thisPtr : Word) :
    Implements mmap (bitypeDirectEraseObj thisPtr s)
      (s.view.modify (granule thisPtr) fun _ => Entry.zero) := by
  unfold bitypeDirectEraseObj
  by_cases hnull : s.firstLevel (idx1 thisPtr) = 0
  · simp only [hnull, ne_eq, not_true_eq_false, if_false]
    exact ⟨layout, (modify_of_null thisPtr hnull _).symm⟩
  · have hi := idx1_lt thisPtr
    have hj : idx2 thisPtr < 2 * L2_BITS := Nat.lt_of_succ_lt (idx2_succ_lt thisPtr)
    have hlayout₁ := modifyWord_layout layout fresh hi hnull hj fun _ => 0
    have hview₁ := view_setReference layout fresh thisPtr hnull 0
    have hfirst₁ := firstLevel_modifyWord layout.toPlacement fresh hi hnull hj hi fun _ => 0
    simp only [hnull, ne_eq, not_false_eq_true, if_true]
    generalize s.modifyWord (s.firstLevel (idx1 thisPtr)) (idx2 thisPtr) (fun _ => 0) = s₁ at *
    rw [← hfirst₁] at hnull ⊢
    refine ⟨modifyWord_layout hlayout₁ fresh hi hnull (idx2_succ_lt _) _, ?_⟩
    rw [view_setInfo hlayout₁ fresh thisPtr hnull (fun _ => 0)
      (fun e => { e with size := 0, offset := 0 }) (fun _ _ => by simp), hview₁, modify_modify]
    rfl

theorem directEraseArraySize_spec (layout : Layout mmap s) (fresh : FreshMmap mmap)
    (thisPtr : Word) :
    Implements mmap (bitypeDirectEraseArraySize thisPtr s)
      (if thisPtr = 0 then s.view
        else s.view.modify (granule thisPtr) fun e => { e with size := 0, offset := 0 }) := by
  unfold bitypeDirectEraseArraySize
  split
  · exact ⟨layout, rfl⟩
  · by_cases hnull : s.firstLevel (idx1 thisPtr) = 0
    · simp only [hnull, ne_eq, not_true_eq_false, if_false]
      exact ⟨layout, (modify_of_null thisPtr hnull _).symm⟩
    · simp only [hnull, ne_eq, not_false_eq_true, if_true]
      exact ⟨modifyWord_layout layout fresh (idx1_lt _) hnull (idx2_succ_lt _) _,
        view_setInfo layout fresh thisPtr hnull _ _ fun _ _ => by simp⟩

theorem eraseElement_spec (layout : Layout mmap s) (fresh : FreshMmap mmap) (thisPtr : Word)
    (typeSize i : U32) :
    Implements mmap (eraseElement thisPtr typeSize i s)
      (s.view.modify (granule (elementAddr thisPtr typeSize i))
        fun e => { e with reference := 0 }) := by
  unfold eraseElement
  by_cases hnull : s.firstLevel (idx1 (elementAddr thisPtr typeSize i)) = 0
  · simp only [hnull, ne_eq, not_true_eq_false, if_false]
    exact ⟨layout, (modify_of_null _ hnull _).symm⟩
  · simp only [hnull, ne_eq, not_false_eq_true, if_true]
    exact ⟨modifyWord_layout layout fresh (idx1_lt _) hnull
      (Nat.lt_of_succ_lt (idx2_succ_lt _)) _, view_setReference layout fresh _ hnull 0⟩

/-! ## Loops -/

/-- A loop over elements acts on the view element by element. -/
theorem foldl_spec (mmap : ℕ → ℕ) (body : U32 → Shadow → Shadow) (change : ℕ → GranuleMap → GranuleMap)
    (hbody : ∀ (s : Shadow) (i : ℕ), Layout mmap s →
      Implements mmap (body (BitVec.ofNat 32 i) s) (change i s.view)) :
    ∀ (indices : List ℕ) (s : Shadow), Layout mmap s →
      Implements mmap (indices.foldl (fun s i => body (BitVec.ofNat 32 i) s) s)
        (indices.foldl (fun m i => change i m) s.view) := by
  intro indices
  induction indices with
  | nil => intro s layout; exact ⟨layout, rfl⟩
  | cons i rest ih =>
      intro s layout
      obtain ⟨hlayout, hview⟩ := hbody s i layout
      obtain ⟨hlayout', hview'⟩ := ih _ hlayout
      refine ⟨hlayout', ?_⟩
      rw [List.foldl_cons, List.foldl_cons, hview', hview]

/-- `__bitype_eraseObj` after its count is known. -/
theorem eraseLoop_spec (layout : Layout mmap s) (fresh : FreshMmap mmap) (thisPtr : Word)
    (typeSize : U32) {count : ℕ} (hcount : count < 2 ^ 32) :
    ∃ s', forLoop count (eraseElement thisPtr typeSize) loopFuel (0 : U32) s = some s' ∧
      Implements mmap s' (eraseElements machineAddressing thisPtr typeSize count s.view) := by
  refine ⟨_, forLoop_eq_foldl _ hcount (hcount.trans (Nat.lt_succ_self _)) s, ?_⟩
  exact foldl_spec mmap _ _ (fun s i hs => eraseElement_spec hs fresh thisPtr typeSize _) _ s layout

/-- **One call.**  In a well laid out state every call keeps the layout and does on
the view what it does on the abstract table. -/
theorem step_spec (layout : Layout mmap s) (fresh : FreshMmap mmap) (op : Op) :
    (∀ s', op.step mmap s = some s' → Layout mmap s') ∧
      (op.step mmap s).map Shadow.view = op.abstractStep machineAddressing s.view := by
  have of_implements : ∀ {s' : Shadow} {m : GranuleMap}, Implements mmap s' m →
      (∀ s'', some s' = some s'' → Layout mmap s'') ∧
        (some s').map Shadow.view = some m := by
    rintro s' m ⟨hlayout, rfl⟩
    exact ⟨fun _ h => Option.some.inj h ▸ hlayout, rfl⟩
  cases op with
  | updateArraySize thisPtr arraySize =>
      exact of_implements (updateArraySize_spec layout fresh thisPtr arraySize)
  | directUpdateObjTrace thisPtr referenceAddr offset =>
      exact of_implements (directUpdateObjTrace_spec layout fresh thisPtr referenceAddr offset)
  | handleReinterpretCast thisPtr referenceAddr offset =>
      exact of_implements (handleReinterpretCast_spec layout fresh thisPtr referenceAddr offset)
  | directEraseObj thisPtr => exact of_implements (directEraseObj_spec layout fresh thisPtr)
  | directEraseArraySize thisPtr =>
      exact of_implements (directEraseArraySize_spec layout fresh thisPtr)
  | updateObjTrace thisPtr referenceAddr typeSize arraySize offset =>
      -- a 32-bit count is below the fuel, so the loop is a fold
      have hloop := forLoop_eq_foldl
        (updateElement mmap thisPtr referenceAddr typeSize offset) arraySize.isLt
        (show arraySize.toNat < loopFuel from arraySize.isLt.trans (Nat.lt_succ_self _)) s
      have hspec := foldl_spec mmap
        (updateElement mmap thisPtr referenceAddr typeSize offset) _
        (fun s i hs => updateElement_spec hs fresh thisPtr referenceAddr typeSize offset _)
        (List.range arraySize.toNat) s layout
      rw [Op.step, bitypeUpdateObjTrace, hloop]
      exact of_implements hspec
  | eraseObj thisPtr objAddr typeSize arraySize allocType =>
      rw [Op.step, bitypeEraseObj, Op.abstractStep]
      split
      -- a heap object has its count in the entry of `objAddr`
      · rw [show machineAddressing.granule objAddr = granule objAddr from rfl, ← lookup_eq_view,
          Shadow.lookup]
        by_cases hnull : s.firstLevel (idx1 objAddr) = 0
        · simp only [if_pos hnull]
          exact of_implements ⟨layout, rfl⟩
        · simp only [if_neg hnull]
          obtain ⟨s', hloop, hspec⟩ := eraseLoop_spec layout fresh thisPtr typeSize
            (heapCount_lt ⟨s.word (s.firstLevel (idx1 objAddr)) (idx2 objAddr),
              sizeField (s.word (s.firstLevel (idx1 objAddr)) (idx2 objAddr + 1)),
              offsetField (s.word (s.firstLevel (idx1 objAddr)) (idx2 objAddr + 1))⟩)
          simp only [heapCount] at hloop hspec ⊢
          rw [hloop]
          exact of_implements hspec
      -- any other count is the caller's, and the counter may never reach it
      · by_cases hcount : arraySize.toNat < 2 ^ 32
        · rw [if_pos hcount]
          obtain ⟨s', hloop, hspec⟩ := eraseLoop_spec layout fresh thisPtr typeSize hcount
          rw [hloop]
          exact of_implements hspec
        · rw [if_neg hcount, forLoop_eq_none _ (not_lt.mp hcount)]
          exact ⟨fun _ h => absurd h.symm (Option.some_ne_none _), rfl⟩

/-! ## Runs -/

/-- The abstract table as a machine. -/
def abstractMachine (A : Addressing) : Machine GranuleMap Op where
  step := Op.abstractStep A

/-- Every state a run reaches is well laid out. -/
theorem run_layout (fresh : FreshMmap mmap) (ops : List Op) (s s' : Shadow)
    (layout : Layout mmap s) (hrun : (machine mmap).run ops s = some s') : Layout mmap s' :=
  (machine mmap).run_of_step (fun op _ s' hs hstep => (step_spec hs fresh op).1 s' hstep)
    ops s s' layout hrun

/-- **Whole runs refine runs of the abstract table**, with the runtime's arithmetic. -/
theorem run_refines_machine (fresh : FreshMmap mmap) (ops : List Op) (s : Shadow)
    (layout : Layout mmap s) :
    ((machine mmap).run ops s).map Shadow.view =
      (abstractMachine machineAddressing).run ops s.view :=
  (machine mmap).run_refines (abstractMachine machineAddressing) Shadow.view
    (fun op _ s' hs hstep => (step_spec hs fresh op).1 s' hstep)
    (fun op _ hs => (step_spec hs fresh op).2) ops s layout

/-- A run of calls each of which is in range when it is made. -/
def RunInRange : List Op → GranuleMap → Prop
  | [], _ => True
  | op :: rest, m =>
      op.InRange m ∧ ∀ m', op.abstractStep plainAddressing m = some m' → RunInRange rest m'

/-- Calls in range return. -/
theorem abstractStep_isSome {op : Op} {m : GranuleMap} (h : op.InRange m) :
    ∃ m', op.abstractStep plainAddressing m = some m' := by
  cases op with
  | eraseObj thisPtr objAddr typeSize arraySize allocType =>
      simp only [Op.InRange, Op.abstractStep] at *
      split
      · cases m (plainAddressing.granule objAddr) <;> exact ⟨_, rfl⟩
      · next hheap =>
          rw [if_neg hheap] at h
          rw [if_pos h.1]
          exact ⟨_, rfl⟩
  | _ => exact ⟨_, rfl⟩

/-- **On runs in range the arithmetic is exact**, and every run returns. -/
theorem run_plain : ∀ (ops : List Op) (m : GranuleMap), RunInRange ops m →
    ∃ m', (abstractMachine plainAddressing).run ops m = some m' ∧
      (abstractMachine machineAddressing).run ops m = some m' := by
  intro ops
  induction ops with
  | nil => intro m _; exact ⟨m, rfl, rfl⟩
  | cons op rest ih =>
      rintro m ⟨hrange, hrest⟩
      obtain ⟨next, hnext⟩ := abstractStep_isSome hrange
      obtain ⟨m', hplain, hmachine⟩ := ih next (hrest next hnext)
      refine ⟨m', ?_, ?_⟩
      · simp only [Machine.run_cons, abstractMachine, hnext, Option.bind_some]
        exact hplain
      · simp only [Machine.run_cons, abstractMachine, Op.abstractStep_machine hrange, hnext,
          Option.bind_some]
        exact hmachine

/-- The states the calls lead to. -/
def Reachable (mmap : ℕ → ℕ) (s : Shadow) : Prop :=
  ∃ mem ops, (machine mmap).run ops (bitypeInitialization mmap mem) = some s

theorem Reachable.layout (fresh : FreshMmap mmap) (h : Reachable mmap s) : Layout mmap s := by
  obtain ⟨mem, ops, hrun⟩ := h
  exact run_layout fresh ops _ s (layout_init mem) hrun

/-! ## The refinement theorem -/

/-- Where the second-level tables are, relative to the pools, the first level, the
rest of the current pool and each other. -/
structure TablesPlaced (mmap : ℕ → ℕ) (s : Shadow) : Prop where
  distinct : ∀ i < L1_BITS, ∀ j < L1_BITS, s.firstLevel i ≠ 0 →
    s.firstLevel i = s.firstLevel j → i = j
  mapped : ∀ i < L1_BITS, s.firstLevel i ≠ 0 → ∃ k < s.mmapCalls,
    poolStart mmap k ≤ s.firstLevel i ∧ s.firstLevel i + 8 * 2 ^ 24 ≤ poolEnd mmap k
  disjoint : ∀ i < L1_BITS, ∀ j < L1_BITS, i ≠ j → s.firstLevel i ≠ 0 → s.firstLevel j ≠ 0 →
    s.firstLevel i + 8 * 2 ^ 24 ≤ s.firstLevel j ∨ s.firstLevel j + 8 * 2 ^ 24 ≤ s.firstLevel i
  off_firstLevel : ∀ i < L1_BITS, s.firstLevel i ≠ 0 →
    s.bitypeLookupStart + 8 * L1_BITS ≤ s.firstLevel i ∨
      s.firstLevel i + 8 * 2 ^ 24 ≤ s.bitypeLookupStart
  off_rest : ∀ i < L1_BITS, s.firstLevel i ≠ 0 →
    s.firstLevel i + 8 * 2 ^ 24 ≤ s.bitypeSecondLevelStart ∨
      s.bitypeSecondLevelEnd ≤ s.firstLevel i

theorem Layout.tablesPlaced (layout : Layout mmap s) (fresh : FreshMmap mmap) :
    TablesPlaced mmap s := by
  have hbytes : tableBytes = 8 * 2 ^ 24 := by decide
  refine ⟨?_, ?_, ?_, ?_, ?_⟩
  · intro i hi j hj hne heq
    by_contra hij
    have := layout.tables_disjoint i hi j hj hij hne (heq ▸ hne)
    omega
  · intro i hi hne
    rw [← hbytes]
    exact layout.table_in_pool i hi hne
  · rw [← hbytes]
    exact layout.tables_disjoint
  · intro i hi hne
    rw [← hbytes]
    exact layout.table_off_firstLevel fresh hi hne
  · rw [← hbytes]
    exact layout.table_off_rest

/-- The map before any call: no region has entries. -/
def emptyMap : GranuleMap := fun _ => none

theorem view_init (mem : ℕ → Word) : (bitypeInitialization mmap mem).view = emptyMap := by
  funext g
  by_cases hg : g < L1_BITS * L2_BITS
  · rw [Shadow.view, if_pos hg, entryAt_of_null (firstLevel_init mem (div_lt_of_lt hg))]
    rfl
  · rw [Shadow.view, if_neg hg]
    rfl

/-- **The two-level table is a map from granules to entries.**  From the state
`bitypeInitialization` leaves, a run of calls in range returns; its tables are
placed soundly, no second-level index leaves a table, and a lookup gives what the
same run of the plain map gives. -/
theorem shadow_refines_granuleMap (fresh : FreshMmap mmap) (mem : ℕ → Word) (ops : List Op)
    (hrange : RunInRange ops emptyMap) :
    ∃ s m, (machine mmap).run ops (bitypeInitialization mmap mem) = some s ∧
      (abstractMachine plainAddressing).run ops emptyMap = some m ∧
      TablesPlaced mmap s ∧
      (∀ addr, idx2 addr + 1 < 2 ^ 24 ∧ idx2Unsigned addr + 1 < 2 ^ 24) ∧
      ∀ addr : Word, Mapped addr.toNat → s.lookup addr = m (addr.toNat / 8) := by
  obtain ⟨m, hplain, hmachine⟩ := run_plain ops emptyMap hrange
  have hrun := run_refines_machine fresh ops _ (layout_init mem)
  rw [view_init, hmachine] at hrun
  obtain ⟨s, hs, rfl⟩ := Option.map_eq_some_iff.mp hrun
  have hlayout := run_layout fresh ops _ s (layout_init mem) hs
  have hindex : ∀ addr, idx2 addr + 1 < 2 ^ 24 := fun addr => idx2_succ_lt addr
  refine ⟨s, s.view, hs, hplain, hlayout.tablesPlaced fresh, fun addr => ⟨hindex addr, ?_⟩,
    fun addr haddr => ?_⟩
  · rw [idx2Unsigned_eq]
    exact hindex addr
  · rw [lookup_eq_view, granule_of_mapped haddr]

/-- A system that maps regions one after the other, 2 GiB apart. -/
def spacedMmap (k : ℕ) : ℕ := 2 ^ 12 + k * 2 ^ 31

theorem spacedMmap_fresh : FreshMmap spacedMmap := by
  have hbytes : ∀ k, regionBytes k ≤ 2 ^ 31 := by
    intro k
    unfold regionBytes
    split <;> decide
  refine ⟨fun k _ => ?_, fun k hk => ?_, fun k _ j hj => Or.inl ?_⟩
  · unfold spacedMmap
    omega
  · have := hbytes k
    rw [L1_BITS] at hk
    unfold spacedMmap
    omega
  · have := hbytes j
    unfold spacedMmap
    omega

/-- Trace three elements, note their number, and free them. -/
def sampleRun : List Op :=
  [.updateObjTrace 4096 77 16 3 0, .updateArraySize 4096 3, .eraseObj 4096 4096 16 1 .heapAlloc]

theorem sampleRun_inRange : RunInRange sampleRun emptyMap := by
  refine ⟨?_, ?_⟩
  · intro i hi
    change i < 3 at hi
    rw [Mapped, show (16 : U32).toNat = 16 from rfl, show (4096 : Word).toNat = 4096 from rfl]
    omega
  rintro m₁ ⟨⟩
  refine ⟨show Mapped (4096 : Word).toNat by decide, ?_⟩
  rintro m₂ ⟨⟩
  refine ⟨⟨by decide, ?_⟩, fun _ _ => trivial⟩
  intro e he
  have hcount : heapCount e = 3 := by
    have : some e = some ⟨77, 3, 0⟩ := he.symm.trans (by decide)
    rw [Option.some.inj this]
    rfl
  rw [hcount]
  intro i hi
  rw [Mapped, show (16 : U32).toNat = 16 from rfl, show (4096 : Word).toNat = 4096 from rfl]
  omega

theorem shadow_refines_granuleMap_sample :
    ∃ s m, (machine spacedMmap).run sampleRun
        (bitypeInitialization spacedMmap fun _ => 0) = some s ∧
      (abstractMachine plainAddressing).run sampleRun emptyMap = some m ∧
      TablesPlaced spacedMmap s ∧
      (∀ addr, idx2 addr + 1 < 2 ^ 24 ∧ idx2Unsigned addr + 1 < 2 ^ 24) ∧
      ∀ addr : Word, Mapped addr.toNat → s.lookup addr = m (addr.toNat / 8) :=
  shadow_refines_granuleMap spacedMmap_fresh (fun _ => 0) sampleRun sampleRun_inRange

end Bitype.Runtime
