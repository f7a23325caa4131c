import Bitype.Runtime.Inline

/-!
# What has set a reference

An update for a `reinterpret_cast` leaves the offset `-1` in an entry, and the next one
replaces only such entries: an entry of an object that has been allocated keeps its
reference and its offset.  So the offset has to say which kind of update has set the
reference.

`Tracked` adds to the state what the table itself does not say, the kind of the last update
that has set the reference of each granule.  An event does one of five things to a granule
(`Change`), and `tracker_step` reads off when an event leaves the offsets right: the one that
may not is `__bitype_direct_eraseArraySize`, which clears the offset along with the size.
-/

namespace Bitype.Runtime

open Foundations

/-! ## Entries -/

/-- A `reinterpret_cast` takes the entry for one of an allocated object. -/
def Entry.Real (e : Entry) : Prop := e.reference ≠ 0 ∧ e.offset ≠ -1

/-- A `reinterpret_cast` takes the entry for one that a `reinterpret_cast` has left. -/
def Entry.Marked (e : Entry) : Prop := e.reference ≠ 0 ∧ e.offset = -1

instance (e : Entry) : Decidable e.Real :=
  inferInstanceAs (Decidable (e.reference ≠ 0 ∧ e.offset ≠ -1))

theorem Entry.Marked.not_real {e : Entry} (h : e.Marked) : ¬ e.Real := fun hreal => hreal.2 h.2

/-! ## The last update -/

/-- The kinds of update that set a reference. -/
inductive Setter
  | allocation
  | reinterpret
deriving DecidableEq

/-- Whether an event sets the reference of a granule, and as what. -/
def Event.sets (event : Event) (m : GranuleMap) (g : ℕ) : Option Setter :=
  match event with
  | .call (.directUpdateObjTrace thisPtr _ _) =>
      if granule thisPtr = g then some .allocation else none
  | .inlineUpdate newAddr _ _ => if granule newAddr = g then some .allocation else none
  | .call (.updateObjTrace thisPtr _ typeSize arraySize _) =>
      if ElementGranule thisPtr typeSize arraySize.toNat g then some .allocation else none
  | .call (.handleReinterpretCast thisPtr _ _) =>
      if granule thisPtr = g ∧ ¬ (m.content g).Real then some .reinterpret else none
  | _ => none

/-- A state, and for each granule what has set its reference last. -/
structure Tracked where
  shadow : Shadow
  setter : ℕ → Option Setter

/-- The entry of a granule. -/
def Tracked.entry (t : Tracked) (g : ℕ) : Entry := t.shadow.view.content g

/-- The program, with a record of what sets the references. -/
def tracker (mmap : ℕ → ℕ) (rodata : Word → Byte) : Machine Tracked Event where
  step event t := ((program mmap rodata).step event t.shadow).map fun s =>
    ⟨s, fun g => (event.sets t.shadow.view g).or (t.setter g)⟩

/-- The start: no reference has been set. -/
def Tracked.start (mmap : ℕ → ℕ) (mem : ℕ → Word) : Tracked :=
  ⟨bitypeInitialization mmap mem, fun _ => none⟩

/-- **The record changes nothing.** -/
theorem tracker_refines (mmap : ℕ → ℕ) (rodata : Word → Byte) (events : List Event) (t : Tracked) :
    ((tracker mmap rodata).run events t).map Tracked.shadow =
      (program mmap rodata).run events t.shadow := by
  refine (tracker mmap rodata).run_refines (program mmap rodata) Tracked.shadow
    (P := fun _ => True) (fun _ _ _ _ _ => trivial) (fun event t _ => ?_) events t trivial
  rw [tracker, Option.map_map]
  exact Option.map_id'

/-! ## What an event does -/

/-- From `e` to `e'` the entry of a granule changes, and its reference is set or not. -/
inductive Change : Option Setter → Entry → Entry → Prop
  | allocated {e e' : Entry} (hoffset : e'.offset ≠ -1) : Change (some .allocation) e e'
  | reinterpreted {e : Entry} (hloose : ¬ e.Real) (referenceAddr : Word) :
      Change (some .reinterpret) e ⟨referenceAddr, 0, -1⟩
  | cleared {e e' : Entry} (hreference : e'.reference = 0) : Change none e e'
  | kept {e e' : Entry} (hreference : e'.reference = e.reference) (hoffset : e'.offset = e.offset) :
      Change none e e'
  | unsized {e : Entry} (hunmarked : ¬ e.Marked) : Change none e { e with size := 0, offset := 0 }

theorem Change.refl (e : Entry) : Change none e e := .kept rfl rfl

/-- The event tells allocated objects from `reinterpret_cast`s: no offset that it stores is
`-1`, and it clears the size of no entry that a `reinterpret_cast` has left. -/
def Event.Keeps (event : Event) (m : GranuleMap) : Prop :=
  match event with
  | .call (.directUpdateObjTrace _ _ offset) | .inlineUpdate _ _ offset
  | .call (.updateObjTrace _ _ _ _ offset) => offset ≠ -1
  | .call (.directEraseArraySize thisPtr) =>
      thisPtr ≠ 0 → ¬ (m.content (granule thisPtr)).Marked
  | _ => True

/-- The entry that a `reinterpret_cast` leaves. -/
theorem reinterpreted_eq (referenceAddr : Word) (e : Entry) :
    reinterpreted referenceAddr e = if e.Real then e else ⟨referenceAddr, 0, -1⟩ := rfl

/-- A new entry with an offset. -/
theorem change_record {m : GranuleMap} {g h : ℕ} {e : Entry} (hoffset : e.offset ≠ -1) :
    Change (if g = h then some .allocation else none) (m.content h)
      ((m.record g fun _ => e).content h) := by
  rw [content_record]
  by_cases hsame : g = h
  · rw [if_pos hsame, if_pos hsame.symm]
    exact .allocated hoffset
  · rw [if_neg hsame, if_neg (Ne.symm hsame)]
    exact .refl _

/-- A loop of new entries with an offset. -/
theorem change_records (thisPtr : Word) (typeSize : U32) (count : ℕ) (e : Entry)
    (hoffset : e.offset ≠ -1) (m : GranuleMap) (g : ℕ) :
    Change (if ElementGranule thisPtr typeSize count g then some .allocation else none) (m.content g)
      (((List.range count).foldl (fun m i =>
        m.record (machineAddressing.element thisPtr typeSize i) fun _ => e) m).content g) := by
  rw [content_records]
  split
  · exact .allocated hoffset
  · exact .refl _

/-- The entry that a `reinterpret_cast` leaves, or spares. -/
theorem change_reinterpreted (m : GranuleMap) (g h : ℕ) (referenceAddr : Word) :
    Change (if g = h ∧ ¬ (m.content h).Real then some .reinterpret else none) (m.content h)
      ((m.record g (reinterpreted referenceAddr)).content h) := by
  rw [content_record, reinterpreted_eq]
  by_cases hsame : g = h
  · subst hsame
    rw [if_pos rfl]
    by_cases hreal : (m.content g).Real
    · rw [if_pos hreal, if_neg fun hset => hset.2 hreal]
      exact .refl _
    · rw [if_neg hreal, if_pos ⟨rfl, hreal⟩]
      exact .reinterpreted hreal referenceAddr
  · rw [if_neg (Ne.symm hsame), if_neg fun hset => hsame hset.1]
    exact .refl _

/-- References that go. -/
theorem change_eraseElements (thisPtr : Word) (typeSize : U32) (count : ℕ) (m : GranuleMap) (g : ℕ) :
    Change none (m.content g)
      ((eraseElements machineAddressing thisPtr typeSize count m).content g) := by
  rw [content_eraseElements]
  split
  · exact .cleared rfl
  · exact .refl _

/-- An entry of which something is cleared or noted. -/
theorem change_at {m : GranuleMap} {g h : ℕ} {e : Entry} (hchange : Change none (m.content g) e) :
    Change none (m.content h) (if h = g then e else m.content h) := by
  split
  · next hsame => exact hsame ▸ hchange
  · exact .refl _

/-- **One call** on the abstract table. -/
theorem change_call (op : Op) {m m' : GranuleMap}
    (h : op.abstractStep machineAddressing m = some m') (hkeeps : (Event.call op).Keeps m) (g : ℕ) :
    Change ((Event.call op).sets m g) (m.content g) (m'.content g) := by
  cases op with
  | updateArraySize thisPtr arraySize =>
      obtain rfl := Option.some.inj h
      -- a null address is left alone
      split
      · exact .refl _
      · rw [content_record]
        exact change_at (.kept rfl rfl)
  | directUpdateObjTrace thisPtr referenceAddr offset =>
      obtain rfl := Option.some.inj h
      exact change_record hkeeps
  | updateObjTrace thisPtr referenceAddr typeSize arraySize offset =>
      obtain rfl := Option.some.inj h
      exact change_records thisPtr typeSize arraySize.toNat ⟨referenceAddr, 0, offset⟩ hkeeps m g
  | handleReinterpretCast thisPtr referenceAddr offset =>
      obtain rfl := Option.some.inj h
      exact change_reinterpreted m (granule thisPtr) g referenceAddr
  | directEraseObj thisPtr =>
      obtain rfl := Option.some.inj h
      rw [content_modify _ _ _ rfl]
      exact change_at (.cleared rfl)
  | directEraseArraySize thisPtr =>
      obtain rfl := Option.some.inj h
      split
      · exact .refl _
      · next hne =>
          rw [content_modify _ _ _ rfl]
          exact change_at (.unsized (hkeeps hne))
  | eraseObj thisPtr objAddr typeSize arraySize allocType =>
      simp only [Op.abstractStep] at h
      -- the count is in the table for the heap, else it is the caller's
      split at h
      · split at h
        · obtain rfl := Option.some.inj h
          exact .refl _
        · obtain rfl := Option.some.inj h
          exact change_eraseElements thisPtr typeSize _ m g
      · split at h
        · obtain rfl := Option.some.inj h
          exact change_eraseElements thisPtr typeSize _ m g
        · cases h

section Step

variable {mmap : ℕ → ℕ} {rodata : Word → Byte} {s s' : Shadow}

/-- A report changes no entry. -/
theorem view_print (debug : U32) (s : Shadow) : (printConfusionInline debug s).view = s.view := by
  unfold printConfusionInline
  split
  · rfl
  split
  · rfl
  · rfl

theorem view_verifyCast (rodata : Word → Byte) (sourcePtr thisPtr : Word) (index : U32) (code : Byte)
    (debugIndex : U32) (s : Shadow) :
    (bitypeVerifyCast rodata sourcePtr thisPtr index code debugIndex s).state.view = s.view := by
  rw [verifyCast_eq]
  unfold Verdict.result
  dsimp only
  split
  · exact view_print debugIndex s
  · rfl

/-- **One event** changes each granule in one of the five ways. -/
theorem change_event (fresh : FreshMmap mmap) (layout : Layout mmap s) {event : Event}
    (h : (program mmap rodata).step event s = some s') (hkeeps : event.Keeps s.view) (g : ℕ) :
    Change (event.sets s.view g) (s.view.content g) (s'.view.content g) := by
  cases event with
  | call op =>
      have hstep : op.step mmap s = some s' := h
      have habstract := (step_spec layout fresh op).2
      rw [hstep] at habstract
      exact change_call op habstract.symm hkeeps g
  | inlineUpdate newAddr referenceAddr offset =>
      obtain rfl := Option.some.inj h
      rw [(inlineUpdate_spec layout fresh newAddr referenceAddr offset).2]
      exact change_record hkeeps
  | inlineErase newAddr =>
      obtain rfl := Option.some.inj h
      -- the inlined erase is the runtime's
      have habstract := (step_spec layout fresh (.directEraseObj newAddr)).2
      exact change_call (.directEraseObj newAddr) habstract.symm trivial g
  | check sourcePtr thisPtr index code debugIndex =>
      obtain rfl := Option.some.inj h
      rw [bitypeCastVerification, view_verifyCast]
      exact .refl _
  | dynamicCheck thisPtr index code =>
      obtain rfl := Option.some.inj h
      rw [bitypeDynamicCastVerification, view_verifyCast]
      exact .refl _
  | inlineCheck sourcePtr thisPtr index code debugIndex =>
      obtain rfl := Option.some.inj h
      rw [inlineVerification_eq]
      split
      · rw [view_print]
        exact .refl _
      · exact .refl _

end Step

/-! ## The offset says what has set the reference -/

/-- The offset of a set reference is other than `-1` just if an allocation has set it. -/
def Distinguishes (t : Tracked) : Prop :=
  ∀ g, (t.entry g).reference ≠ 0 → ((t.entry g).offset ≠ -1 ↔ t.setter g = some .allocation)

/-- From `t` to `t'` a `reinterpret_cast` has changed no entry of an allocated object, and no
entry that a `reinterpret_cast` has left turned into one of an allocated object without an
allocation. -/
structure KeepsApart (event : Event) (t t' : Tracked) : Prop where
  real : (∃ thisPtr referenceAddr offset,
      event = .call (.handleReinterpretCast thisPtr referenceAddr offset)) →
    ∀ g, (t.entry g).Real →
      (t'.entry g).reference = (t.entry g).reference ∧ (t'.entry g).offset = (t.entry g).offset
  marked : ∀ g, (t.entry g).Marked → event.sets t.shadow.view g ≠ some .allocation →
    ¬ (t'.entry g).Real

/-- A change keeps the offset right. -/
theorem Change.distinguishes {set setter : Option Setter} {e e' : Entry} (h : Change set e e')
    (hbefore : e.reference ≠ 0 → (e.offset ≠ -1 ↔ setter = some .allocation))
    (hne : e'.reference ≠ 0) : e'.offset ≠ -1 ↔ set.or setter = some .allocation := by
  cases h with
  | allocated hoffset => exact iff_of_true hoffset rfl
  | reinterpreted hloose referenceAddr =>
      exact iff_of_false (not_not.mpr rfl) fun hset => Setter.noConfusion (Option.some.inj hset)
  | cleared hreference => exact absurd hreference hne
  | kept hreference hoffset =>
      rw [hoffset, Option.none_or]
      exact hbefore (hreference ▸ hne)
  | unsized hunmarked =>
      have hoffset : e.offset ≠ -1 := fun hsame => hunmarked ⟨hne, hsame⟩
      rw [Option.none_or]
      exact iff_of_true (show (0 : U32) ≠ -1 by decide) ((hbefore hne).mp hoffset)

/-- A mark stays a mark, goes, or is replaced by an allocation. -/
theorem Change.not_real {set : Option Setter} {e e' : Entry} (h : Change set e e') (hmarked : e.Marked)
    (hset : set ≠ some .allocation) : ¬ e'.Real := by
  cases h with
  | allocated hoffset => exact absurd rfl hset
  | reinterpreted hloose referenceAddr => exact fun hreal => hreal.2 rfl
  | cleared hreference => exact fun hreal => hreal.1 hreference
  | kept hreference hoffset => exact fun hreal => hreal.2 (hoffset.trans hmarked.2)
  | unsized hunmarked => exact absurd hmarked hunmarked

/-- What sets no reference makes no mark. -/
theorem Change.marked {e e' : Entry} (h : Change none e e') (hmarked : e'.Marked) : e.Marked := by
  cases h with
  | cleared hreference => exact absurd hreference hmarked.1
  | kept hreference hoffset => exact ⟨hreference ▸ hmarked.1, hoffset.symm.trans hmarked.2⟩
  | unsized hunmarked => exact absurd hmarked.2 (show (0 : U32) ≠ -1 by decide)

section Tracker

variable {mmap : ℕ → ℕ} {rodata : Word → Byte} {t t' : Tracked} {event : Event}

/-- What a step of the tracker is. -/
theorem tracker_step_iff : (tracker mmap rodata).step event t = some t' ↔
    (program mmap rodata).step event t.shadow = some t'.shadow ∧
      t'.setter = fun g => (event.sets t.shadow.view g).or (t.setter g) := by
  rw [tracker, Option.map_eq_some_iff]
  constructor
  · rintro ⟨s', hs', rfl⟩
    exact ⟨hs', rfl⟩
  · rintro ⟨hs', hsetter⟩
    exact ⟨t'.shadow, hs', by rw [← hsetter]⟩

/-- A `reinterpret_cast` spares the entry of an allocated object. -/
theorem content_of_real (fresh : FreshMmap mmap) {s : Shadow} (layout : Layout mmap s) {g : ℕ}
    (hreal : (s.view.content g).Real) (thisPtr referenceAddr : Word) (offset : U32) :
    (bitypeHandleReinterpretCast mmap thisPtr referenceAddr offset s).view.content g =
      s.view.content g := by
  rw [(handleReinterpretCast_spec layout fresh thisPtr referenceAddr offset).2, content_record]
  split
  · next hsame =>
      rw [← hsame, reinterpreted_eq, if_pos hreal]
  · rfl

/-- **A step that keeps the marks** leaves the offsets right. -/
theorem tracker_step (fresh : FreshMmap mmap) (hinv : Layout mmap t.shadow ∧ Distinguishes t)
    (hkeeps : event.Keeps t.shadow.view) (hstep : (tracker mmap rodata).step event t = some t') :
    (Layout mmap t'.shadow ∧ Distinguishes t') ∧ KeepsApart event t t' := by
  obtain ⟨layout, hbefore⟩ := hinv
  obtain ⟨hrun, hsetter⟩ := tracker_step_iff.mp hstep
  have hlayout : Layout mmap t'.shadow := event_layout rodata fresh event _ _ layout hrun
  have hchange : ∀ g, Change (event.sets t.shadow.view g) (t.entry g) (t'.entry g) :=
    change_event fresh layout hrun hkeeps
  refine ⟨⟨hlayout, fun g hne => ?_⟩, ⟨?_, fun g hmarked hset => ?_⟩⟩
  · rw [hsetter]
    exact (hchange g).distinguishes (hbefore g) hne
  · rintro ⟨thisPtr, referenceAddr, offset, rfl⟩ g hreal
    have hsame : t'.entry g = t.entry g := by
      rw [Tracked.entry, ← Option.some.inj hrun]
      exact content_of_real fresh layout hreal thisPtr referenceAddr offset
    rw [hsame]
    exact ⟨rfl, rfl⟩
  · exact (hchange g).not_real hmarked hset

end Tracker

end Bitype.Runtime
