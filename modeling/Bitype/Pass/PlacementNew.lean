import Bitype.Pass.HeapLifeCycle

/-!
# Updates inside a heap block

Placement new and `reinterpret_cast` trace objects inside a block that has been traced
as a whole.  They write granules one by one, and a granule that a call of the runtime
writes loses the number that its size slot held.  The inlined update of a placement new
leaves the number.  The only number that matters is the one in the first granule of the
block, which the free reads.

A step of such a sequence `Overwrites` one granule; `Overwritten` strings the steps
together.  `count_of_overwritten` says what is left of the number: it is untouched unless
a step reset it, and then it reads as one.
-/

namespace Bitype.Pass

open Bitype.Foundations Bitype.Runtime
open Bitype.Tool (Name)

/-! ## One granule after the other -/

/-- A `reinterpret_cast` may replace the entry. -/
def Loose (e : Entry) : Prop := e.reference = 0 ∨ e.offset = -1

/-- How an entry is written: by a call for a placement new, by the inlined update for one, or by a
call for a `reinterpret_cast`. -/
inductive UpdateForm
  | called
  | inlined
  | reinterpret
deriving DecidableEq

/-- An update of this form resets the size slot of an entry that is `loose` or not. -/
def UpdateForm.Resets (form : UpdateForm) (loose : Prop) : Prop :=
  form = .called ∨ form = .reinterpret ∧ loose

/-- From `m` to `m'` an update of some form wrote granule `g`. -/
structure Overwrites (form : UpdateForm) (g : ℕ) (m m' : GranuleMap) : Prop where
  frame : ∀ h, h ≠ g → m'.content h = m.content h
  keeps : ∀ h, (m h).isSome → (m' h).isSome
  held : (m'.content g).reference ≠ 0
  loose : Loose (m'.content g) ↔ form = .reinterpret ∧ Loose (m.content g)
  reset : form.Resets (Loose (m.content g)) → heapCount (m'.content g) = 1
  count : (m g).isSome → ¬ form.Resets (Loose (m.content g)) →
    heapCount (m'.content g) = heapCount (m.content g)

/-- Updates of given forms wrote given granules, in this order. -/
inductive Overwritten : List (UpdateForm × ℕ) → GranuleMap → GranuleMap → Prop
  | nil (m : GranuleMap) : Overwritten [] m m
  | cons {form : UpdateForm} {g : ℕ} {rest : List (UpdateForm × ℕ)} {m m₁ m₂ : GranuleMap} :
      Overwrites form g m m₁ → Overwritten rest m₁ m₂ → Overwritten ((form, g) :: rest) m m₂

theorem Overwritten.append {first rest : List (UpdateForm × ℕ)} {m m₁ m₂ : GranuleMap}
    (h : Overwritten first m m₁) (h' : Overwritten rest m₁ m₂) :
    Overwritten (first ++ rest) m m₂ := by
  induction h with
  | nil => exact h'
  | cons hstep _ ih => exact .cons hstep (ih h')

/-- No reference is lost. -/
theorem Overwritten.held {touched : List (UpdateForm × ℕ)} {m m' : GranuleMap}
    (h : Overwritten touched m m') {g : ℕ} (hg : (m.content g).reference ≠ 0) :
    (m'.content g).reference ≠ 0 := by
  induction h with
  | nil => exact hg
  | @cons form g' rest m m₁ m₂ hstep _ ih =>
      apply ih
      by_cases hsame : g = g'
      · exact hsame ▸ hstep.held
      · rwa [hstep.frame g hsame]

theorem Overwritten.keeps {touched : List (UpdateForm × ℕ)} {m m' : GranuleMap}
    (h : Overwritten touched m m') {g : ℕ} (hg : (m g).isSome) : (m' g).isSome := by
  induction h with
  | nil => exact hg
  | cons hstep _ ih => exact ih (hstep.keeps g hg)

/-- One of the updates resets the size slot of a granule whose entry is `loose` or not before them:
a called placement new does, and a `reinterpret_cast` does if the entry is loose and no inlined
placement new has written it before. -/
def ResetBy (touched : List (UpdateForm × ℕ)) (base : ℕ) (loose : Prop) : Prop :=
  ∃ before form after, touched = before ++ (form, base) :: after ∧
    form.Resets (loose ∧ (.inlined, base) ∉ before)

theorem not_resetBy_nil (base : ℕ) (loose : Prop) : ¬ ResetBy [] base loose := by
  rintro ⟨before, form, after, hnil, -⟩
  cases before <;> cases hnil

theorem resetBy_cons {form : UpdateForm} {g base : ℕ} {rest : List (UpdateForm × ℕ)}
    {loose : Prop} : ResetBy ((form, g) :: rest) base loose ↔
      (g = base ∧ form.Resets loose) ∨ ResetBy rest base (loose ∧ (.inlined, base) ≠ (form, g)) := by
  constructor
  · rintro ⟨before, form', after, hsplit, hresets⟩
    cases before with
    | nil =>
        obtain ⟨⟨rfl, rfl⟩, rfl⟩ : (form = form' ∧ g = base) ∧ rest = after := by simpa using hsplit
        exact .inl ⟨rfl, hresets.imp_right fun h => ⟨h.1, h.2.1⟩⟩
    | cons first before =>
        obtain ⟨rfl, rfl⟩ := List.cons.inj hsplit
        refine .inr ⟨before, form', after, rfl, hresets.imp_right fun h => ⟨h.1, ?_⟩⟩
        obtain ⟨hloose, hnone⟩ := h.2
        rw [List.mem_cons, not_or] at hnone
        exact ⟨⟨hloose, hnone.1⟩, hnone.2⟩
  · rintro (⟨rfl, hresets⟩ | ⟨before, form', after, rfl, hresets⟩)
    · exact ⟨[], form, rest, rfl, hresets.imp_right fun h => ⟨h.1, h.2, List.not_mem_nil⟩⟩
    · refine ⟨(form, g) :: before, form', after, rfl, hresets.imp_right fun h => ⟨h.1, ?_⟩⟩
      obtain ⟨⟨hloose, hfirst⟩, hnone⟩ := h.2
      exact ⟨hloose, fun h => (List.mem_cons.mp h).elim hfirst hnone⟩

/-- What an update leaves of an entry that later ones ask for: is it loose? -/
theorem Overwrites.loose_iff {form : UpdateForm} {g base : ℕ} {m m' : GranuleMap}
    (h : Overwrites form g m m') (hkept : ¬ (g = base ∧ form.Resets (Loose (m.content base)))) :
    Loose (m'.content base) ↔ Loose (m.content base) ∧ (UpdateForm.inlined, base) ≠ (form, g) := by
  by_cases hsame : base = g
  · subst hsame
    rw [h.loose]
    unfold UpdateForm.Resets at hkept
    cases form <;> simp_all
  · rw [h.frame base hsame]
    exact (and_iff_left fun heq => hsame (Prod.mk.inj heq).2).symm

/-- **What is left of the number of objects.** -/
theorem count_of_overwritten {touched : List (UpdateForm × ℕ)} {m m' : GranuleMap}
    (h : Overwritten touched m m') {base : ℕ} (hsome : (m base).isSome) :
    (¬ ResetBy touched base (Loose (m.content base)) →
        heapCount (m'.content base) = heapCount (m.content base)) ∧
      (ResetBy touched base (Loose (m.content base)) → heapCount (m'.content base) = 1) := by
  induction h with
  | nil => exact ⟨fun _ => rfl, fun hreset => absurd hreset (not_resetBy_nil _ _)⟩
  | @cons form g rest m m₁ m₂ hstep _ ih =>
      specialize ih (hstep.keeps base hsome)
      rw [resetBy_cons]
      by_cases hfirst : g = base ∧ form.Resets (Loose (m.content base))
      · refine ⟨fun hnone => absurd (.inl hfirst) hnone, fun _ => ?_⟩
        obtain ⟨rfl, hresets⟩ := hfirst
        -- once reset, the slot reads as one whatever follows
        by_cases hrest : ResetBy rest g (Loose (m₁.content g))
        · exact ih.2 hrest
        · rw [ih.1 hrest]
          exact hstep.reset hresets
      · have hcount : heapCount (m₁.content base) = heapCount (m.content base) := by
          by_cases hbase : base = g
          · subst hbase
            exact hstep.count hsome fun hresets => hfirst ⟨rfl, hresets⟩
          · rw [hstep.frame base hbase]
        rw [hcount, hstep.loose_iff hfirst] at ih
        simpa only [hfirst, false_or] using ih

/-! ## The sequences -/

/-- A placement new, or a `reinterpret_cast`, of an object of some type. -/
inductive ObjectUpdate
  | placementNew (addr : Word) (type : IRType)
  | reinterpretCast (addr : Word) (type : IRType)

namespace ObjectUpdate

def kind : ObjectUpdate → AllocType
  | placementNew _ _ => .placementNew
  | reinterpretCast _ _ => .reinterpret

def addr : ObjectUpdate → Word
  | placementNew addr _ => addr
  | reinterpretCast addr _ => addr

def type : ObjectUpdate → IRType
  | placementNew _ type => type
  | reinterpretCast _ type => type

variable (M : Module) (files : ClassFiles) (inlineOpt : Bool) (place : Name → Word)

/-- What `emitExtendObjTraceInst` emits. -/
def events (u : ObjectUpdate) : List Event :=
  traceObject M files inlineOpt place u.kind false u.addr u.type

/-- How its entries are written. -/
def form : ObjectUpdate → UpdateForm
  | placementNew _ _ => if inlineOpt = true then .inlined else .called
  | reinterpretCast _ _ => .reinterpret

/-- The granules that are written, in order. -/
def touched (u : ObjectUpdate) : List (UpdateForm × ℕ) :=
  ((tracedElements M files u.kind u.type).toList.filter fun e => e.2.card ≠ 0).map fun e =>
    (u.form inlineOpt, granule (u.addr + BitVec.ofNat 64 (8 * e.1)))

theorem kind_eq (u : ObjectUpdate) : u.kind = .placementNew ∨ u.kind = .reinterpret := by
  cases u with
  | placementNew _ _ => exact .inl rfl
  | reinterpretCast _ _ => exact .inr rfl

end ObjectUpdate

section Sequences

variable {mmap : ℕ → ℕ} {rodata : Word → Byte} {M : Module} {files : ClassFiles}
  {inlineOpt : Bool} {place : Name → Word} {s : Shadow}

/-- Once it is written for an object, an entry is not loose. -/
theorem not_loose {referenceAddr : Word} (href : referenceAddr ≠ 0) (size : U32) (o : ℕ) :
    ¬ Loose ⟨referenceAddr, size, BitVec.ofNat 32 (8 * o)⟩ := by
  rintro (hzero | hmark)
  · exact href hzero
  · have hnat := congrArg BitVec.toNat hmark
    rw [BitVec.toNat_ofNat, show ((-1 : U32)).toNat = 2 ^ 32 - 1 from rfl] at hnat
    omega

/-- A placement new writes a granule by a call. -/
theorem overwrites_called (m : GranuleMap) (g : ℕ) {referenceAddr : Word} (href : referenceAddr ≠ 0)
    (o : ℕ) :
    Overwrites .called g m (m.record g (traced referenceAddr (BitVec.ofNat 32 (8 * o)))) where
  frame h hne := by rw [content_record, if_neg hne]
  keeps h hsome := isSome_record g _ hsome
  held := by rwa [content_record, if_pos rfl]
  loose := by
    rw [content_record, if_pos rfl]
    exact iff_of_false (not_loose href 0 o) fun h => nomatch h.1
  reset _ := by
    rw [content_record, if_pos rfl]
    rfl
  count _ hresets := absurd (.inl rfl) hresets

/-- A placement new writes a granule inline. -/
theorem overwrites_inlined (m : GranuleMap) (g : ℕ) {referenceAddr : Word} (href : referenceAddr ≠ 0)
    (o : ℕ) :
    Overwrites .inlined g m
      (m.record g fun _ => ⟨referenceAddr, inlineSize (m g), BitVec.ofNat 32 (8 * o)⟩) where
  frame h hne := by rw [content_record, if_neg hne]
  keeps h hsome := isSome_record g _ hsome
  held := by rwa [content_record, if_pos rfl]
  loose := by
    rw [content_record, if_pos rfl]
    exact iff_of_false (not_loose href _ o) fun h => nomatch h.1
  reset hresets := by rcases hresets with h | ⟨h, -⟩ <;> cases h
  count hsome _ := by
    rw [content_record, if_pos rfl, eq_some_content hsome]
    exact heapCount_of_size rfl

/-- A `reinterpret_cast` of a granule. -/
theorem overwrites_reinterpreted (m : GranuleMap) (g : ℕ) {referenceAddr : Word}
    (hne : referenceAddr ≠ 0) :
    Overwrites .reinterpret g m (m.record g (reinterpreted referenceAddr)) := by
  have hcontent : (m.record g (reinterpreted referenceAddr)).content g =
      reinterpreted referenceAddr (m.content g) := by rw [content_record, if_pos rfl]
  have hloose : Loose (m.content g) → reinterpreted referenceAddr (m.content g) =
      ⟨referenceAddr, 0, -1⟩ :=
    fun hloose => if_neg fun hreal => hloose.elim hreal.1 hreal.2
  have hreal : ¬ Loose (m.content g) → reinterpreted referenceAddr (m.content g) = m.content g :=
    fun hloose => if_pos (not_or.mp hloose)
  refine ⟨fun h hother => by rw [content_record, if_neg hother],
    fun h hsome => isSome_record g _ hsome, ?_, ?_, ?_, ?_⟩
  · rw [hcontent]
    by_cases h : Loose (m.content g)
    · rwa [hloose h]
    · rw [hreal h]
      exact fun hzero => h (.inl hzero)
  · rw [hcontent, and_iff_right rfl]
    by_cases h : Loose (m.content g)
    · rw [hloose h]
      exact iff_of_true (.inr rfl) h
    · rw [hreal h]
  · rintro (h | ⟨-, h⟩)
    · cases h
    · rw [hcontent, hloose h]
      rfl
  · intro _ hresets
    rw [hcontent, hreal fun h => hresets (.inr ⟨rfl, h⟩)]

variable (rodata M inlineOpt) in
/-- One entry of an update. -/
theorem emitUpdateEntry_spec (fresh : FreshMmap mmap) (hplace : ∀ name, place name ≠ 0)
    (u : ObjectUpdate) {site : Site} (hkind : site.allocType = u.kind)
    {entry : ℕ × Finset ℕ} (hsmall : entry.1 < 2 ^ 29) (hne : entry.2.card ≠ 0)
    (layout : Layout mmap s) :
    ∃ s', (program mmap rodata).run (emitEntry M inlineOpt place .conObjAdd site 0 entry) s =
        some s' ∧ Layout mmap s' ∧
      Overwrites (u.form inlineOpt) (granule (site.objAddr + BitVec.ofNat 64 (8 * entry.1)))
        s.view s'.view := by
  have hsmall' : 8 * entry.1 < 2 ^ 32 := by omega
  rw [emitEntry_con hne hsmall' hsmall', Nat.mul_zero, Nat.add_zero, hkind]
  generalize site.objAddr + BitVec.ofNat 64 (8 * entry.1) = addr
  cases u with
  | placementNew _ _ =>
      unfold ObjectUpdate.form
      by_cases hinline : inlineOpt = true
      · rw [if_pos ⟨hinline, nofun, nofun⟩, if_pos hinline]
        obtain ⟨hlayout, hview⟩ := inlineUpdate_spec layout fresh addr (place (M.setName entry.2))
          (BitVec.ofNat 32 (8 * entry.1))
        refine ⟨_, rfl, hlayout, ?_⟩
        rw [hview]
        exact overwrites_inlined s.view _ (hplace _) _
      · rw [if_neg fun h => hinline h.1, if_neg nofun, if_neg hinline]
        obtain ⟨hlayout, hview⟩ := directUpdateObjTrace_spec layout fresh addr
          (place (M.setName entry.2)) (BitVec.ofNat 32 (8 * entry.1))
        refine ⟨_, rfl, hlayout, ?_⟩
        rw [hview]
        exact overwrites_called s.view _ (hplace _) _
  | reinterpretCast _ _ =>
      -- a `reinterpret_cast` is never inlined; the runtime decides whether it writes
      rw [if_neg fun h => h.2.1 rfl, ObjectUpdate.kind, if_pos rfl]
      obtain ⟨hlayout, hview⟩ := handleReinterpretCast_spec layout fresh addr
        (place (M.setName entry.2)) (BitVec.ofNat 32 (8 * entry.1))
      refine ⟨_, rfl, hlayout, ?_⟩
      rw [hview]
      exact overwrites_reinterpreted s.view _ (hplace _)

variable (rodata M inlineOpt) in
/-- The entries of an update, one after the other. -/
theorem emitUpdateEntries_spec (fresh : FreshMmap mmap) (hplace : ∀ name, place name ≠ 0)
    (u : ObjectUpdate) {site : Site} (hkind : site.allocType = u.kind) :
    ∀ (entries : List (ℕ × Finset ℕ)) (s : Shadow), (∀ e ∈ entries, e.1 < 2 ^ 29) →
      Layout mmap s →
      ∃ s', (program mmap rodata).run
          (entries.flatMap (emitEntry M inlineOpt place .conObjAdd site 0)) s = some s' ∧
        Layout mmap s' ∧
        Overwritten ((entries.filter fun e => e.2.card ≠ 0).map fun e =>
          (u.form inlineOpt, granule (site.objAddr + BitVec.ofNat 64 (8 * e.1)))) s.view
            s'.view := by
  intro entries
  induction entries with
  | nil => exact fun s _ layout => ⟨s, rfl, layout, .nil _⟩
  | cons entry rest ih =>
      intro s hsmall layout
      have hsmall' := fun e he => hsmall e (List.mem_cons_of_mem _ he)
      rw [List.flatMap_cons]
      by_cases hne : entry.2.card = 0
      · have hskip : emitEntry M inlineOpt place .conObjAdd site 0 entry = [] := if_pos hne
        rw [hskip, List.nil_append, List.filter_cons_of_neg (by simpa using hne)]
        exact ih s hsmall' layout
      · obtain ⟨s₁, hrun₁, hlayout₁, hstep⟩ := emitUpdateEntry_spec rodata M inlineOpt fresh hplace
          u hkind (hsmall entry List.mem_cons_self) hne layout
        obtain ⟨s₂, hrun₂, hlayout₂, hrest⟩ := ih s₁ hsmall' hlayout₁
        refine ⟨s₂, ?_, hlayout₂, ?_⟩
        · rw [Machine.run_append, hrun₁]
          exact hrun₂
        · rw [List.filter_cons_of_pos (by simpa using hne), List.map_cons]
          exact .cons hstep hrest

variable (rodata M files inlineOpt) in
/-- One update. -/
theorem objectUpdate_spec (fresh : FreshMmap mmap) (hplace : ∀ name, place name ≠ 0)
    (u : ObjectUpdate) (layout : Layout mmap s) :
    ∃ s', (program mmap rodata).run (u.events M files inlineOpt place) s = some s' ∧
      Layout mmap s' ∧ Overwritten (u.touched M files inlineOpt) s.view s'.view := by
  unfold ObjectUpdate.events traceObject
  generalize hsite : Site.mk u.kind u.addr _ 1 false = site
  have hkind : site.allocType = u.kind := by rw [← hsite]
  have haddr : site.objAddr = u.addr := by rw [← hsite]
  have hreal : site.allocType = .placementNew ∨ site.allocType = .reinterpret :=
    hkind ▸ u.kind_eq
  have hemit : insertUpdate M inlineOpt place site (tracedElements M files u.kind u.type) =
      (tracedElements M files u.kind u.type).toList.flatMap
        (emitEntry M inlineOpt place .conObjAdd site 0) := by
    have hrealloc : site.allocType ≠ .realloc := by
      rcases hreal with h | h
      · rw [h]
        decide
      · rw [h]
        decide
    rw [insertUpdate, if_neg hrealloc, if_pos hreal]
    rfl
  obtain ⟨s', hrun, hlayout, hwritten⟩ := emitUpdateEntries_spec rodata M inlineOpt fresh hplace
    u hkind (tracedElements M files u.kind u.type).toList s
    (fun e he => tracedElements_small (Std.TreeMap.mem_toList_iff_getElem?_eq_some.mp he)) layout
  rw [haddr] at hwritten
  exact ⟨s', by rw [hemit]; exact hrun, hlayout, hwritten⟩

variable (rodata M files inlineOpt) in
/-- **A sequence of updates** returns, and writes its granules one after the other. -/
theorem objectUpdates_spec (fresh : FreshMmap mmap) (hplace : ∀ name, place name ≠ 0) :
    ∀ (updates : List ObjectUpdate) (s : Shadow), Layout mmap s →
      ∃ s', (program mmap rodata).run
          (updates.flatMap fun u => u.events M files inlineOpt place) s = some s' ∧
        Layout mmap s' ∧
        Overwritten (updates.flatMap fun u => u.touched M files inlineOpt) s.view s'.view := by
  intro updates
  induction updates with
  | nil => exact fun s layout => ⟨s, rfl, layout, .nil _⟩
  | cons u rest ih =>
      intro s layout
      obtain ⟨s₁, hrun₁, hlayout₁, hfirst⟩ := objectUpdate_spec rodata M files inlineOpt fresh
        hplace u layout
      obtain ⟨s₂, hrun₂, hlayout₂, hrest⟩ := ih s₁ hlayout₁
      refine ⟨s₂, ?_, hlayout₂, ?_⟩
      · rw [List.flatMap_cons, Machine.run_append, hrun₁]
        exact hrun₂
      · rw [List.flatMap_cons]
        exact hfirst.append hrest

end Sequences

/-! ## The free after the updates -/

section Removal

variable {mmap : ℕ → ℕ} {M : Module} {files : ClassFiles} {place : Name → Word} {s : Shadow}

/-- **When a free clears a block after updates inside it.**  The block is traced, updated
and freed.  No granule that the allocation set keeps a reference if and only if no update
reset the size slot of the first granule, or the granules of all objects are those of the
first one. -/
theorem freeAfterUpdates_iff (rodata : Word → Byte) (files : ClassFiles) (inlineOpt : Bool)
    (fresh : FreshMmap mmap) (hplace : ∀ name, place name ≠ 0) {b : Block} (haddr : b.addr ≠ 0)
    (isRealloc isConstant : Bool) (updates : List ObjectUpdate) (layout : Layout mmap s) :
    ∃ s₁ s₂ s₃,
      (program mmap rodata).run
        (handleHeapAlloc M files inlineOpt place isRealloc isConstant b) s = some s₁ ∧
      (program mmap rodata).run
        (updates.flatMap fun u => u.events M files inlineOpt place) s₁ = some s₂ ∧
      (program mmap rodata).run (handleFree M files inlineOpt b) s₂ = some s₃ ∧
      ((∀ g, b.Traced M files g → (s₃.view.content g).reference = 0) ↔
        ¬ ResetBy (updates.flatMap fun u => u.touched M files inlineOpt) (granule b.addr)
            (Loose (s₁.view.content (granule b.addr))) ∨
          ∀ g, b.Traced M files g → b.Reaches M files 1 g) := by
  cases hempty : (M.elementsOf files b.type).isEmpty with
  | true =>
      have hnone : ∀ g, ¬ b.Traced M files g := not_reaches_of_isEmpty hempty _
      obtain ⟨s₂, hrun₂, -, -⟩ := objectUpdates_spec rodata M files inlineOpt fresh hplace updates
        s layout
      refine ⟨s, s₂, s₂, ?_, hrun₂, ?_, ?_⟩
      · simp only [handleHeapAlloc, hempty, if_true, Machine.run_nil]
      · rw [handleFree, insertRemove, if_pos hempty, Machine.run_nil]
      · exact iff_of_true (fun g hg => absurd hg (hnone g)) (.inr fun g hg => absurd hg (hnone g))
  | false =>
      obtain ⟨s₁, hrun₁, hlayout₁, hrecords⟩ := handleHeapAlloc_spec rodata files inlineOpt place
        fresh haddr hempty isRealloc isConstant layout
      obtain ⟨s₂, hrun₂, hlayout₂, hwritten⟩ := objectUpdates_spec rodata M files inlineOpt fresh
        hplace updates s₁ hlayout₁
      obtain ⟨s₃, hrun₃, -, -, hreference, -⟩ := handleFree_spec rodata inlineOpt fresh haddr hempty
        hlayout₂ (hwritten.keeps hrecords.isSome)
      obtain ⟨hkept, hreset⟩ := count_of_overwritten hwritten hrecords.isSome
      refine ⟨s₁, s₂, s₃, hrun₁, hrun₂, hrun₃, fun hcleared => ?_, fun hcondition g hg => ?_⟩
      · by_cases hlost : ResetBy (updates.flatMap fun u => u.touched M files inlineOpt) (granule b.addr)
            (Loose (s₁.view.content (granule b.addr)))
        · refine .inr fun g hg => ?_
          -- the reference is still there, so the free must have reached it
          have hheld := hwritten.held (hrecords.reference_ne hplace hg)
          have hzero := hcleared g hg
          rw [hreference, hreset hlost] at hzero
          by_contra hmissed
          rw [if_neg hmissed] at hzero
          exact hheld hzero
        · exact .inl hlost
      · rw [hreference]
        by_cases hlost : ResetBy (updates.flatMap fun u => u.touched M files inlineOpt) (granule b.addr)
            (Loose (s₁.view.content (granule b.addr)))
        · have hfirst := hcondition.resolve_left (not_not.mpr hlost) g hg
          rw [hreset hlost, if_pos hfirst]
        · have hcount : heapCount (s₂.view.content (granule b.addr)) = b.erasedCount M := by
            rw [hkept hlost, heapCount, hrecords.size, Block.erasedCount]
          rw [hcount, if_pos (erased_of_traced hg)]

end Removal

/-- An array of two `D`. -/
def pairBlock : Block := ⟨4096, 80, .struct 1⟩

/-- A new `D` in place of the first one. -/
def renewFirst : List ObjectUpdate := [.placementNew 4096 (.struct 1)]

theorem renewFirst_touched : (renewFirst.flatMap fun u => u.touched wideModule wideFiles false) =
    [(.called, 512), (.called, 516)] := by decide +kernel

/-- The array, the new object and the free. -/
theorem freeAfterUpdates_iff_sample : ∃ s₁ s₃ : Shadow,
    (∀ g, pairBlock.Traced wideModule wideFiles g → (s₃.view.content g).reference = 0) ↔
      ¬ ResetBy (renewFirst.flatMap fun u => u.touched wideModule wideFiles true) 512
          (Loose (s₁.view.content 512)) ∨
        ∀ g, pairBlock.Traced wideModule wideFiles g → pairBlock.Reaches wideModule wideFiles 1 g := by
  have hplace : ∀ _ : Name, (4096 : Word) ≠ 0 := fun _ => by decide
  have haddr : pairBlock.addr ≠ 0 := by decide
  obtain ⟨s₁, s₂, s₃, -, -, -, hiff⟩ := freeAfterUpdates_iff (M := wideModule) (fun _ => 0) wideFiles
    true spacedMmap_fresh hplace haddr false false renewFirst (layout_init fun _ => 0)
  exact ⟨s₁, s₃, hiff⟩

/-- The second object of the array keeps its references. -/
theorem free_leaves_second :
    ¬ ∀ (mmap : ℕ → ℕ) (rodata : Word → Byte) (M : Module) (files : ClassFiles) (inlineOpt : Bool)
      (place : Name → Word) (b : Block) (updates : List ObjectUpdate) (s s₁ s₂ s₃ : Shadow),
      FreshMmap mmap → (∀ name, place name ≠ 0) → b.Usable M → Layout mmap s →
      (∀ u ∈ updates, b.addr.toNat ≤ u.addr.toNat ∧ u.addr.toNat < b.stop) →
      (program mmap rodata).run (handleHeapAlloc M files inlineOpt place false false b) s =
        some s₁ →
      (program mmap rodata).run
        (updates.flatMap fun u => u.events M files inlineOpt place) s₁ = some s₂ →
      (program mmap rodata).run (handleFree M files inlineOpt b) s₂ = some s₃ →
      ∀ g, b.Traced M files g → (s₃.view.content g).reference = 0 := by
  intro hall
  have hplace : ∀ _ : Name, (4096 : Word) ≠ 0 := fun _ => by decide
  have husable : pairBlock.Usable wideModule := by
    refine ⟨by decide, by decide, ?_, by decide⟩
    show 4096 + max 1 80 ≤ 2 ^ 48
    decide
  have hempty : (wideModule.elementsOf wideFiles (.struct 1)).isEmpty = false := by decide +kernel
  have layout : Layout spacedMmap (bitypeInitialization spacedMmap fun _ => 0) := layout_init _
  obtain ⟨s₁, hrun₁, hlayout₁, hrecords⟩ := handleHeapAlloc_spec (fun _ => 0) wideFiles false
    (fun _ => 4096) spacedMmap_fresh husable.nonnull hempty false false layout
  obtain ⟨s₂, hrun₂, hlayout₂, hwritten⟩ := objectUpdates_spec (fun _ => 0) wideModule wideFiles false
    spacedMmap_fresh hplace renewFirst s₁ hlayout₁
  obtain ⟨s₃, hrun₃, -, -, hreference, -⟩ := handleFree_spec (fun _ => 0) false spacedMmap_fresh
    husable.nonnull hempty hlayout₂ (hwritten.keeps hrecords.isSome)
  have hinside : ∀ u ∈ renewFirst, pairBlock.addr.toNat ≤ u.addr.toNat ∧
      u.addr.toNat < pairBlock.stop := by
    intro u hu
    obtain rfl := List.mem_singleton.mp hu
    refine ⟨le_rfl, ?_⟩
    show 4096 < 4096 + max 1 80
    decide
  -- the second `D` starts in granule 517
  have htraced : pairBlock.Traced wideModule wideFiles 517 := by
    refine ⟨(0, {1}), ?_, 1, by decide, by decide⟩
    rw [show pairBlock.type = .struct 1 from rfl, wideModule_elements]
    exact List.mem_cons_self
  have hreset : ResetBy (renewFirst.flatMap fun u => u.touched wideModule wideFiles false)
      (granule pairBlock.addr) (Loose (s₁.view.content (granule pairBlock.addr))) := by
    rw [renewFirst_touched]
    exact ⟨[], .called, [(.called, 516)], rfl, .inl rfl⟩
  have hmissed : ¬ pairBlock.Reaches wideModule wideFiles 1 517 := by
    rw [reaches_one]
    rintro ⟨e, he, hsame⟩
    rw [show pairBlock.type = .struct 1 from rfl, wideModule_elements] at he
    simp only [List.mem_cons, List.not_mem_nil, or_false] at he
    rcases he with rfl | rfl
    · exact absurd hsame (by decide)
    · exact absurd hsame (by decide)
  have hzero := hall spacedMmap (fun _ => 0) wideModule wideFiles false (fun _ => 4096) pairBlock
    renewFirst _ s₁ s₂ s₃ spacedMmap_fresh hplace husable layout hinside hrun₁ hrun₂ hrun₃ 517 htraced
  rw [hreference, (count_of_overwritten hwritten hrecords.isSome).2 hreset, if_neg hmissed] at hzero
  exact hwritten.held (hrecords.reference_ne hplace htraced) hzero

end Bitype.Pass
