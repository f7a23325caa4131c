import Bitype.Pass.Alignment
import Bitype.Pass.StructLayout

/-!
# What the walk over a layout finds

`Contains` is what a walk should find: the structs inside a type, each at its offset,
through elements and array items alike.  The walk comes to those that it need not enter an
unidentified struct for (`Visible`), and records the tracked and cast-related ones
(`IsRecorded`).  It keeps one struct for each offset, the first it meets there, and files
it under the granule of the offset.

In a layout whose elements lie one after the other (`WellLaid`) two recorded structs at one
offset are nested, so the first one met holds the others at its own offset zero.  It is the
`Outermost` at the offset, and these are what the walk files (`mem_elementsOf`).  That is
what makes one table for each granule enough.

The walk is a composition of steps that are each `Exact` about some structs; steps about
structs at different offsets compose.
-/

namespace Bitype.Pass

namespace TypeTable

/-! ## Structs inside a type -/

/-- Struct type `b` lies at an offset inside a type. -/
inductive Contains (T : TypeTable) : IRType → ℕ → ℕ → Prop
  | self (a : ℕ) : Contains T (.struct a) 0 a
  | element {a r b : ℕ} {e : ℕ × IRType} :
      e ∈ (T.struct a).elements → Contains T e.2 r b → Contains T (.struct a) (e.1 + r) b
  | item {numElements i r b : ℕ} {elementType : IRType} :
      i < numElements → Contains T elementType r b →
      Contains T (.array numElements elementType) (i * T.getTypeAllocSize elementType + r) b

/-- The walk over a type comes to struct type `b`: the structs around it, and `b` itself,
are identified. -/
inductive Visible (T : TypeTable) : IRType → ℕ → ℕ → Prop
  | self {a : ℕ} : T.isInterestingStructType a = true → Visible T (.struct a) 0 a
  | element {a r b : ℕ} {e : ℕ × IRType} : T.isInterestingStructType a = true →
      e ∈ (T.struct a).elements → Visible T e.2 r b → Visible T (.struct a) (e.1 + r) b
  | item {numElements i r b : ℕ} {elementType : IRType} :
      i < numElements → Visible T elementType r b →
      Visible T (.array numElements elementType) (i * T.getTypeAllocSize elementType + r) b

/-- A struct takes space, and its elements lie inside it, one after the other. -/
structure Laid (T : TypeTable) (a : ℕ) : Prop where
  positive : 0 < (T.struct a).allocSize
  ordered : (T.struct a).elements.Pairwise fun e e' => e.1 + T.getTypeAllocSize e.2 ≤ e'.1
  fits : ∀ e ∈ (T.struct a).elements, e.1 + T.getTypeAllocSize e.2 ≤ (T.struct a).allocSize

/-- Every struct inside a type is laid out, tracked and cast-related. -/
def Regular (T : TypeTable) (files : ClassFiles) (type : IRType) : Prop :=
  ∀ o b, T.Contains type o b →
    T.Laid b ∧ T.isInterestingStructType b = true ∧ T.isTracked b = true ∧
      T.isInCastRelatedSet files b = true

/-- A struct that the walk records. -/
def IsRecorded (T : TypeTable) (files : ClassFiles) (b : ℕ) : Prop :=
  T.isTracked b = true ∧ T.isInCastRelatedSet files b = true

instance (T : TypeTable) (files : ClassFiles) (b : ℕ) : Decidable (T.IsRecorded files b) :=
  inferInstanceAs (Decidable (_ ∧ _))

/-- Every struct inside a type is laid out in order, and a tracked one takes space. -/
def WellLaid (T : TypeTable) (type : IRType) : Prop :=
  ∀ o b, T.Contains type o b → T.Ordered b ∧ (T.isTracked b = true → 0 < (T.struct b).allocSize)

/-- The recorded struct at an offset that holds the others there. -/
structure Outermost (T : TypeTable) (files : ClassFiles) (type : IRType) (o a : ℕ) : Prop where
  visible : T.Visible type o a
  recorded : T.IsRecorded files a
  holds : ∀ b, T.Visible type o b → T.IsRecorded files b → T.AtOffsetZero a b

section Contents

variable {T : TypeTable} {files : ClassFiles}

theorem Visible.contains {type : IRType} {o b : ℕ} (h : T.Visible type o b) :
    T.Contains type o b := by
  induction h with
  | self _ => exact .self _
  | element _ he _ ih => exact .element he ih
  | item hi _ ih => exact .item hi ih

/-- Where all structs are identified the walk comes to all of them. -/
theorem visible_of_contains {type : IRType} {o b : ℕ} (hb : T.Contains type o b)
    (h : ∀ o b, T.Contains type o b → T.isInterestingStructType b = true) :
    T.Visible type o b := by
  induction hb with
  | self a => exact .self (h 0 a (.self a))
  | @element a r b e he hb ih =>
      exact .element (h 0 a (.self a)) he (ih fun o b hb => h _ b (.element he hb))
  | item hi hb ih => exact .item hi (ih fun o b hb => h _ b (.item hi hb))

theorem Regular.element {a : ℕ} {e : ℕ × IRType} (h : T.Regular files (.struct a))
    (he : e ∈ (T.struct a).elements) : T.Regular files e.2 :=
  fun _ _ hb => h _ _ (.element he hb)

theorem Regular.item {numElements : ℕ} {elementType : IRType}
    (h : T.Regular files (.array numElements elementType)) (hpos : 0 < numElements) :
    T.Regular files elementType :=
  fun _ _ hb => h _ _ (.item hpos hb)

theorem Regular.wellLaid {type : IRType} (h : T.Regular files type) : T.WellLaid type := by
  intro o b hb
  obtain ⟨hlaid, -⟩ := h o b hb
  exact ⟨⟨hlaid.ordered, hlaid.fits⟩, fun _ => hlaid.positive⟩

theorem Regular.visible {type : IRType} (h : T.Regular files type) {o b : ℕ}
    (hb : T.Contains type o b) : T.Visible type o b :=
  visible_of_contains hb fun o b hb => (h o b hb).2.1

theorem Regular.recorded {type : IRType} (h : T.Regular files type) {o b : ℕ}
    (hb : T.Contains type o b) : T.IsRecorded files b :=
  (h o b hb).2.2

theorem WellLaid.element {a : ℕ} {e : ℕ × IRType} (h : T.WellLaid (.struct a))
    (he : e ∈ (T.struct a).elements) : T.WellLaid e.2 :=
  fun _ _ hb => h _ _ (.element he hb)

theorem WellLaid.item {numElements : ℕ} {elementType : IRType}
    (h : T.WellLaid (.array numElements elementType)) (hpos : 0 < numElements) :
    T.WellLaid elementType :=
  fun _ _ hb => h _ _ (.item hpos hb)

/-- What lies inside a type ends inside it. -/
theorem contains_fits {type : IRType} {o b : ℕ} (hb : T.Contains type o b)
    (h : T.WellLaid type) : o + (T.struct b).allocSize ≤ T.getTypeAllocSize type := by
  induction hb with
  | self a => exact (Nat.zero_add _).le
  | @element a r b e he hb ih =>
      have hr := ih (h.element he)
      have hfits := (h 0 a (.self a)).1.fits e he
      calc e.1 + r + (T.struct b).allocSize ≤ e.1 + T.getTypeAllocSize e.2 := by omega
        _ ≤ (T.struct a).allocSize := hfits
  | @item numElements i r b elementType hi hb ih =>
      have hr := ih (h.item (by omega))
      calc i * T.getTypeAllocSize elementType + r + (T.struct b).allocSize
          ≤ i * T.getTypeAllocSize elementType + T.getTypeAllocSize elementType := by omega
        _ = (i + 1) * T.getTypeAllocSize elementType := (Nat.succ_mul _ _).symm
        _ ≤ numElements * T.getTypeAllocSize elementType := Nat.mul_le_mul_right _ hi

/-- A tracked struct inside a type starts before its end. -/
theorem contains_lt {type : IRType} {o b : ℕ} (hb : T.Contains type o b)
    (htracked : T.isTracked b = true) (h : T.WellLaid type) : o < T.getTypeAllocSize type := by
  have hfits := contains_fits hb h
  have hpos := (h o b hb).2 htracked
  omega

/-- What lies at offset zero of a type lies at offset zero of the struct at its core. -/
theorem atOffsetZero_of_visible {type : IRType} {o b : ℕ} (hb : T.Visible type o b)
    (htracked : T.isTracked b = true) (hzero : o = 0) :
    ∃ c, type.core = some c ∧ T.isInterestingStructType c = true ∧ T.AtOffsetZero c b := by
  induction hb with
  | @self a hinteresting => exact ⟨a, rfl, hinteresting, htracked, .refl⟩
  | @element a r b e hinteresting he hb ih =>
      obtain ⟨c, hcore, hc, htracked, hpath⟩ := ih htracked (by omega)
      have hstart : e.1 = 0 := by omega
      refine ⟨a, rfl, hinteresting, htracked, .head ⟨e, he, ?_, hcore, hc⟩ hpath⟩
      rw [hstart]
      rfl
  | item hi hb ih => exact ih htracked (by omega)

/-- A struct at offset zero of another one is less deep. -/
theorem depth_lt_of_zeroElement {a b : ℕ} (h : T.ZeroElement a b) : T.depth b < T.depth a := by
  obtain ⟨e, he, -, hcore, -⟩ := h
  exact T.contained a e he b hcore

theorem depth_lt_of_path {a b : ℕ} (h : Relation.ReflTransGen T.ZeroElement a b) :
    a = b ∨ T.depth b < T.depth a := by
  induction h with
  | refl => exact .inl rfl
  | tail _ hlast ih =>
      have hless := depth_lt_of_zeroElement hlast
      rcases ih with rfl | hdeeper
      · exact .inr hless
      · exact .inr (hless.trans hdeeper)

theorem AtOffsetZero.antisymm {a b : ℕ} (h : T.AtOffsetZero a b) (h' : T.AtOffsetZero b a) :
    a = b := by
  rcases depth_lt_of_path h.2 with hsame | hless
  · exact hsame
  · rcases depth_lt_of_path h'.2 with hsame | hless'
    · exact hsame.symm
    · exact absurd hless hless'.asymm

/-- There is one outermost struct at an offset. -/
theorem Outermost.unique {type : IRType} {o a a' : ℕ} (h : T.Outermost files type o a)
    (h' : T.Outermost files type o a') : a = a' :=
  (h.holds a' h'.visible h'.recorded).antisymm (h'.holds a h.visible h.recorded)

end Contents

/-! ## Steps of the walk -/

/-- Struct type `a` is filed under a granule. -/
def FiledAs (st : AlignmentState) (granule a : ℕ) : Prop :=
  ∃ types, st.elements[granule]? = some types ∧ a ∈ types

/-- Struct type `a` is filed under the granule of an offset. -/
def Found (st : AlignmentState) (o a : ℕ) : Prop :=
  ∃ types, st.elements[o / 8]? = some types ∧ a ∈ types

/-- A step of the walk covers the structs `C`, which lie at offsets: it marks the offset
of each, and at every offset that it newly marks it files one that holds all others
there. -/
structure Covers (T : TypeTable) (f : AlignmentState → AlignmentState) (C : ℕ → ℕ → Prop) :
    Prop where
  marked : ∀ st, ∀ o ∈ st.hasVisited, o ∈ (f st).hasVisited
  kept : ∀ st o a, Found st o a → Found (f st) o a
  covered : ∀ st o b, C o b → o ∈ (f st).hasVisited
  first : ∀ st, ∀ o ∈ (f st).hasVisited, o ∉ st.hasVisited →
    ∃ a, Found (f st) o a ∧ C o a ∧ ∀ b, C o b → T.AtOffsetZero a b

/-- A step that covers the structs `C` and files nothing else: at offsets that it newly
marks, the one that holds all others there. -/
structure Exact (T : TypeTable) (f : AlignmentState → AlignmentState) (C : ℕ → ℕ → Prop) : Prop
    extends Covers T f C where
  only : ∀ st granule a, FiledAs (f st) granule a →
    FiledAs st granule a ∨ ∃ o, o ∉ st.hasVisited ∧ o / 8 = granule ∧ C o a ∧
      ∀ b, C o b → T.AtOffsetZero a b

section Walk

variable {T : TypeTable} {files : ClassFiles} {f g : AlignmentState → AlignmentState}
  {C C' : ℕ → ℕ → Prop}

theorem Covers.congr (h : T.Covers f C) (hC : ∀ o b, C o b ↔ C' o b) : T.Covers f C' := by
  obtain rfl : C = C' := by
    funext o b
    exact propext (hC o b)
  exact h

/-- A step that does nothing. -/
theorem Covers.skip (hC : ∀ o b, ¬ C o b) : T.Covers id C where
  marked _ _ ho := ho
  kept _ _ _ ha := ha
  covered _ o b hb := absurd hb (hC o b)
  first _ _ ho hnew := absurd ho hnew

/-- Steps that cover structs at different offsets. -/
theorem Covers.comp (hf : T.Covers f C) (hg : T.Covers g C')
    (hapart : ∀ o b b', C o b → ¬ C' o b') :
    T.Covers (fun st => g (f st)) fun o b => C o b ∨ C' o b where
  marked st o ho := hg.marked _ o (hf.marked st o ho)
  kept st o a ha := hg.kept _ o a (hf.kept st o a ha)
  covered st o b hb := hb.elim (fun hb => hg.marked _ o (hf.covered st o b hb))
    fun hb => hg.covered _ o b hb
  first st o ho hnew := by
    by_cases hmarked : o ∈ (f st).hasVisited
    · obtain ⟨a, hfound, ha, hzero⟩ := hf.first st o hmarked hnew
      refine ⟨a, hg.kept _ o a hfound, .inl ha, fun b hb => ?_⟩
      exact hb.elim (hzero b) fun hb => absurd hb (hapart o a b ha)
    · obtain ⟨a, hfound, ha, hzero⟩ := hg.first _ o ho hmarked
      refine ⟨a, hfound, .inr ha, fun b hb => ?_⟩
      exact hb.elim (fun hb => absurd (hf.covered st o b hb) hmarked) (hzero b)

/-- Whatever holds of nothing and of two steps at different offsets holds of a loop. -/
theorem foldl_of_comp {α : Type} {step : AlignmentState → α → AlignmentState} {C : α → ℕ → ℕ → Prop}
    {P : (AlignmentState → AlignmentState) → (ℕ → ℕ → Prop) → Prop}
    (hskip : ∀ C, (∀ o b, ¬ C o b) → P id C)
    (hcomp : ∀ f g C C', P f C → P g C' → (∀ o b b', C o b → ¬ C' o b') →
      P (fun st => g (f st)) fun o b => C o b ∨ C' o b) :
    ∀ l : List α, (∀ x ∈ l, P (fun st => step st x) (C x)) →
      l.Pairwise (fun x y => ∀ o b b', C x o b → ¬ C y o b') →
      P (fun st => l.foldl step st) fun o b => ∃ x ∈ l, C x o b := by
  intro l
  induction l with
  | nil => exact fun _ _ => hskip _ fun o b => by simp
  | cons x rest ih =>
      intro hstep hapart
      obtain ⟨hfirst, hrest⟩ := List.pairwise_cons.mp hapart
      have htail := ih (fun y hy => hstep y (List.mem_cons_of_mem _ hy)) hrest
      have hboth := hcomp _ _ _ _ (hstep x List.mem_cons_self) htail
        fun o b b' hb ⟨y, hy, hb'⟩ => hfirst y hy o b b' hb hb'
      simp only [List.mem_cons, or_and_right, exists_or, exists_eq_left]
      exact hboth

/-- A loop of such steps. -/
theorem Covers.foldl {α : Type} {step : AlignmentState → α → AlignmentState}
    {C : α → ℕ → ℕ → Prop} :
    ∀ l : List α, (∀ x ∈ l, T.Covers (fun st => step st x) (C x)) →
      l.Pairwise (fun x y => ∀ o b b', C x o b → ¬ C y o b') →
      T.Covers (fun st => l.foldl step st) fun o b => ∃ x ∈ l, C x o b :=
  foldl_of_comp (fun _ => Covers.skip) fun _ _ _ _ => Covers.comp

/-- What `recordStruct` does for a tracked, cast-related struct. -/
theorem recordStruct_spec {a : ℕ} (htracked : T.isTracked a = true)
    (hrelated : T.isInCastRelatedSet files a = true) (offset : ℕ) (st : AlignmentState) :
    (T.recordStruct files a offset st).hasVisited = insert offset st.hasVisited ∧
      (∀ o c, Found st o c → Found (T.recordStruct files a offset st) o c) ∧
      (offset ∉ st.hasVisited → Found (T.recordStruct files a offset st) offset a) := by
  unfold recordStruct
  split
  -- an offset is recorded at its first visit only
  · next hvisited =>
      exact ⟨(Finset.insert_eq_of_mem hvisited).symm, fun _ _ h => h, fun h => absurd hvisited h⟩
  · rw [if_pos (by rw [htracked, hrelated]; rfl)]
    refine ⟨rfl, ?_, fun _ => ?_⟩
    · rintro o c ⟨types, htypes, hc⟩
      unfold Found
      split
      -- the first struct of its granule
      · next hnone =>
          refine ⟨types, ?_, hc⟩
          rw [Std.TreeMap.getElem?_insertIfNew, if_neg, htypes]
          rintro ⟨heq, -⟩
          rw [Std.LawfulEqCmp.compare_eq_iff_eq] at heq
          rw [heq, htypes] at hnone
          cases hnone
      -- another struct of the granule
      · next tempSet hsome =>
          dsimp only
          rw [Std.TreeMap.getElem?_insert]
          split
          · next heq =>
              rw [Std.LawfulEqCmp.compare_eq_iff_eq] at heq
              rw [heq, htypes] at hsome
              obtain rfl := Option.some.inj hsome
              exact ⟨_, rfl, Finset.mem_insert_of_mem hc⟩
          · exact ⟨types, htypes, hc⟩
    · unfold Found
      split
      · next hnone =>
          refine ⟨{a}, ?_, Finset.mem_singleton_self a⟩
          have hnew : offset / 8 ∉ st.elements := by
            rw [← Std.TreeMap.isSome_getElem?_iff_mem, hnone]
            simp
          rw [Std.TreeMap.getElem?_insertIfNew, if_pos ⟨Std.LawfulEqCmp.compare_eq_iff_eq.mpr rfl, hnew⟩]
      · next tempSet hsome =>
          refine ⟨insert a tempSet, ?_, Finset.mem_insert_self a tempSet⟩
          rw [Std.TreeMap.getElem?_insert_self]

/-- A struct, then what it holds. -/
theorem Covers.struct {a : ℕ} (offset : ℕ) (htracked : T.isTracked a = true)
    (hrelated : T.isInCastRelatedSet files a = true) (hg : T.Covers g C)
    (hzero : ∀ b, C offset b → T.AtOffsetZero a b) :
    T.Covers (fun st => g (T.recordStruct files a offset st))
      fun o b => o = offset ∧ b = a ∨ C o b where
  marked st o ho := by
    apply hg.marked
    rw [(recordStruct_spec htracked hrelated offset st).1]
    exact Finset.mem_insert_of_mem ho
  kept st o c hc := hg.kept _ o c ((recordStruct_spec htracked hrelated offset st).2.1 o c hc)
  covered st o b hb := by
    rcases hb with ⟨rfl, -⟩ | hb
    · apply hg.marked
      rw [(recordStruct_spec htracked hrelated o st).1]
      exact Finset.mem_insert_self _ _
    · exact hg.covered _ o b hb
  first st o ho hnew := by
    obtain ⟨hvisited, -, hfound⟩ := recordStruct_spec htracked hrelated offset st
    -- at its own offset the struct comes first
    by_cases hself : o = offset
    · subst hself
      refine ⟨a, hg.kept _ o a (hfound hnew), .inl ⟨rfl, rfl⟩, fun b hb => ?_⟩
      rcases hb with ⟨-, rfl⟩ | hb
      · exact ⟨htracked, .refl⟩
      · exact hzero b hb
    · have hunmarked : o ∉ (T.recordStruct files a offset st).hasVisited := by
        rw [hvisited, Finset.mem_insert, not_or]
        exact ⟨hself, hnew⟩
      obtain ⟨c, hc, hC, hall⟩ := hg.first _ o ho hunmarked
      refine ⟨c, hc, .inr hC, fun b hb => ?_⟩
      exact hb.elim (fun hb => absurd hb.1 hself) (hall b)

/-! The same for steps that file nothing else. -/

theorem Exact.congr (h : T.Exact f C) (hC : ∀ o b, C o b ↔ C' o b) : T.Exact f C' := by
  obtain rfl : C = C' := by
    funext o b
    exact propext (hC o b)
  exact h

theorem Exact.skip (hC : ∀ o b, ¬ C o b) : T.Exact id C where
  toCovers := Covers.skip hC
  only _ _ _ h := .inl h

theorem Exact.comp (hf : T.Exact f C) (hg : T.Exact g C')
    (hapart : ∀ o b b', C o b → ¬ C' o b') :
    T.Exact (fun st => g (f st)) fun o b => C o b ∨ C' o b where
  toCovers := hf.toCovers.comp hg.toCovers hapart
  only st granule a ha := by
    rcases hg.only (f st) granule a ha with hfound | ⟨o, hnew, hgranule, hC', hall⟩
    · rcases hf.only st granule a hfound with hbefore | ⟨o, hnew, hgranule, hC, hall⟩
      · exact .inl hbefore
      · refine .inr ⟨o, hnew, hgranule, .inl hC, fun b hb => ?_⟩
        exact hb.elim (hall b) fun hb => absurd hb (hapart o a b hC)
    · refine .inr ⟨o, fun hold => hnew (hf.marked st o hold), hgranule, .inr hC', fun b hb => ?_⟩
      exact hb.elim (fun hb => absurd hC' (hapart o b a hb)) (hall b)

theorem Exact.foldl {α : Type} {step : AlignmentState → α → AlignmentState}
    {C : α → ℕ → ℕ → Prop} :
    ∀ l : List α, (∀ x ∈ l, T.Exact (fun st => step st x) (C x)) →
      l.Pairwise (fun x y => ∀ o b b', C x o b → ¬ C y o b') →
      T.Exact (fun st => l.foldl step st) fun o b => ∃ x ∈ l, C x o b :=
  foldl_of_comp (fun _ => Exact.skip) fun _ _ _ _ => Exact.comp

/-- A recorded struct, then what it holds. -/
theorem Exact.struct {a : ℕ} (offset : ℕ) (hrecorded : T.IsRecorded files a) (hg : T.Exact g C)
    (hzero : ∀ b, C offset b → T.AtOffsetZero a b) :
    T.Exact (fun st => g (T.recordStruct files a offset st))
      fun o b => o = offset ∧ b = a ∨ C o b where
  toCovers := hg.toCovers.struct offset hrecorded.1 hrecorded.2 hzero
  only st granule c hc := by
    have hvisited := (recordStruct_spec hrecorded.1 hrecorded.2 offset st).1
    rcases hg.only _ granule c hc with ⟨types, htypes, hmem⟩ | ⟨o, hnew, hgranule, hC, hall⟩
    -- what is filed was filed before, or is the struct
    · rcases of_recordStruct htypes with hbefore | ⟨rfl, -, -, old, rfl, hold⟩
      · exact .inl ⟨types, hbefore, hmem⟩
      · by_cases hmarked : offset ∈ st.hasVisited
        · -- the offset was taken, so nothing has been filed
          rw [recordStruct, if_pos hmarked] at htypes
          exact .inl ⟨_, htypes, hmem⟩
        rcases Finset.mem_insert.mp hmem with rfl | hmem
        · refine .inr ⟨offset, hmarked, rfl, .inl ⟨rfl, rfl⟩, fun b hb => ?_⟩
          rcases hb with ⟨-, rfl⟩ | hb
          · exact ⟨hrecorded.1, .refl⟩
          · exact hzero b hb
        · rcases hold with rfl | hold
          · exact absurd hmem (Finset.notMem_empty c)
          · exact .inl ⟨old, hold, hmem⟩
    · rw [hvisited, Finset.mem_insert, not_or] at hnew
      refine .inr ⟨o, hnew.2, hgranule, .inr hC, fun b hb => ?_⟩
      exact hb.elim (fun hb => absurd hb.1 hnew.1) (hall b)

/-! ## The walk -/

/-- What the walk comes to in a type that starts at an offset. -/
def At (T : TypeTable) (type : IRType) (offset o b : ℕ) : Prop :=
  ∃ r, o = offset + r ∧ T.Visible type r b

/-- What the walk over a type that starts at an offset records. -/
def StartsAt (T : TypeTable) (files : ClassFiles) (type : IRType) (offset o b : ℕ) : Prop :=
  T.At type offset o b ∧ T.IsRecorded files b

theorem startsAt_lt {type : IRType} (hlaid : T.WellLaid type) {offset o b : ℕ}
    (h : T.StartsAt files type offset o b) : offset ≤ o ∧ o < offset + T.getTypeAllocSize type := by
  obtain ⟨⟨r, rfl, hb⟩, hrecorded⟩ := h
  have := contains_lt hb.contains hrecorded.1 hlaid
  omega

theorem at_struct {a : ℕ} (hinteresting : T.isInterestingStructType a = true) (offset o b : ℕ) :
    T.At (.struct a) offset o b ↔
      o = offset ∧ b = a ∨ ∃ e ∈ (T.struct a).elements, T.At e.2 (offset + e.1) o b := by
  constructor
  · rintro ⟨r, rfl, hb⟩
    cases hb with
    | self _ => exact .inl ⟨rfl, rfl⟩
    | element _ he hb => exact .inr ⟨_, he, _, by omega, hb⟩
  · rintro (⟨rfl, rfl⟩ | ⟨e, he, r, rfl, hb⟩)
    · exact ⟨0, rfl, .self hinteresting⟩
    · exact ⟨e.1 + r, by omega, .element hinteresting he hb⟩

theorem at_array (numElements : ℕ) (elementType : IRType) (offset o b : ℕ) :
    T.At (.array numElements elementType) offset o b ↔
      ∃ i ∈ List.range numElements,
        T.At elementType (offset + i * T.getTypeAllocSize elementType) o b := by
  constructor
  · rintro ⟨r, rfl, hb⟩
    cases hb with
    | item hi hb => exact ⟨_, List.mem_range.mpr hi, _, by omega, hb⟩
  · rintro ⟨i, hi, r, rfl, hb⟩
    exact ⟨i * T.getTypeAllocSize elementType + r, by omega, .item (List.mem_range.mp hi) hb⟩

theorem uint32_of_lt {n : ℕ} (h : n < 2 ^ 32) : uint32 n = n := Nat.mod_eq_of_lt h

/-- What starts in an array is what starts in its items. -/
theorem startsAt_array (numElements : ℕ) (elementType : IRType) (offset o b : ℕ) :
    T.StartsAt files (.array numElements elementType) offset o b ↔
      ∃ i ∈ List.range numElements,
        T.StartsAt files elementType (offset + i * T.getTypeAllocSize elementType) o b := by
  unfold StartsAt
  rw [at_array]
  constructor
  · rintro ⟨⟨i, hi, hat⟩, hrecorded⟩
    exact ⟨i, hi, hat, hrecorded⟩
  · rintro ⟨i, hi, hat, hrecorded⟩
    exact ⟨⟨i, hi, hat⟩, hrecorded⟩

/-- An item ends where its array ends, or before. -/
theorem item_end_le {numElements i : ℕ} (hi : i < numElements) (offset size : ℕ) :
    offset + i * size + size ≤ offset + numElements * size := by
  calc offset + i * size + size
      = offset + (i + 1) * size := by rw [Nat.succ_mul]; omega
    _ ≤ offset + numElements * size := Nat.add_le_add_left (Nat.mul_le_mul_right _ hi) _

/-- What starts in two items of an array starts at two offsets. -/
theorem startsAt_items_apart {elementType : IRType} (hitem : T.WellLaid elementType)
    {offset i j o b b' : ℕ} (hij : i < j)
    (h : T.StartsAt files elementType (offset + i * T.getTypeAllocSize elementType) o b) :
    ¬ T.StartsAt files elementType (offset + j * T.getTypeAllocSize elementType) o b' := by
  intro h'
  have hfirst := startsAt_lt hitem h
  have hsecond := startsAt_lt hitem h'
  have hbefore := item_end_le hij offset (T.getTypeAllocSize elementType)
  omega

/-- The loop over the items of an array that fits counts in 32 bits: it misses no item in
which something starts. -/
theorem startsAt_array_uint32 {numElements : ℕ} {elementType : IRType}
    (hlaid : T.WellLaid (.array numElements elementType)) {offset : ℕ}
    (hfits : offset + numElements * T.getTypeAllocSize elementType < 2 ^ 32) (o b : ℕ) :
    (∃ i ∈ List.range (uint32 numElements),
        T.StartsAt files elementType (offset + i * T.getTypeAllocSize elementType) o b) ↔
      T.StartsAt files (.array numElements elementType) offset o b := by
  rw [startsAt_array]
  by_cases hempty : T.getTypeAllocSize elementType = 0
  · -- nothing that is recorded starts inside items without a size
    have hnone : ∀ i < numElements, ¬ T.StartsAt files elementType
        (offset + i * T.getTypeAllocSize elementType) o b := by
      intro i hi hat
      have := startsAt_lt (hlaid.item (by omega)) hat
      omega
    constructor
    · rintro ⟨i, hi, hat⟩
      exact absurd hat (hnone i ((List.mem_range.mp hi).trans_le (Nat.mod_le _ _)))
    · rintro ⟨i, hi, hat⟩
      exact absurd hat (hnone i (List.mem_range.mp hi))
  · have hcount : numElements < 2 ^ 32 := by
      calc numElements ≤ numElements * T.getTypeAllocSize elementType :=
            Nat.le_mul_of_pos_right _ (Nat.pos_of_ne_zero hempty)
        _ ≤ offset + numElements * T.getTypeAllocSize elementType := Nat.le_add_left _ _
        _ < 2 ^ 32 := hfits
    rw [uint32_of_lt hcount]

/-- The walk over a type, given the walk over the struct at its core. -/
theorem arrayAlignment_exact {visit : ℕ → ℕ → AlignmentState → AlignmentState} :
    ∀ (type : IRType) (offset : ℕ), T.WellLaid type →
      offset + T.getTypeAllocSize type < 2 ^ 32 →
      (∀ a o, type.core = some a → T.isInterestingStructType a = true → T.WellLaid (.struct a) →
        o + (T.struct a).allocSize < 2 ^ 32 →
        T.Exact (visit a o) (T.StartsAt files (.struct a) o)) →
      T.Exact (T.arrayAlignment visit type offset) (T.StartsAt files type offset) := by
  intro type
  induction type with
  | other _ =>
      intro offset _ _ _
      refine Exact.skip fun o b => ?_
      rintro ⟨⟨r, -, hb⟩, -⟩
      cases hb
  | struct a =>
      intro offset hlaid hfits hvisit
      -- only interesting structs are entered
      by_cases hinteresting : T.isInterestingStructType a = true
      · have hexact := hvisit a offset rfl hinteresting hlaid hfits
        simp only [arrayAlignment, hinteresting, if_true]
        exact hexact
      · simp only [arrayAlignment, if_neg hinteresting]
        refine Exact.skip fun o b => ?_
        rintro ⟨⟨r, -, hb⟩, -⟩
        cases hb with
        | self h => exact hinteresting h
        | element h _ _ => exact hinteresting h
  | array numElements elementType ih =>
      intro offset hlaid hfits hvisit
      -- the counter is an `unsigned`
      have hcounted : ∀ i ∈ List.range (uint32 numElements), i < numElements := by
        intro i hi
        exact (List.mem_range.mp hi).trans_le (Nat.mod_le _ _)
      have hitem : ∀ i ∈ List.range (uint32 numElements), T.Exact
          (fun st => T.arrayAlignment visit elementType
            (uint32 (offset + i * T.getTypeAllocSize elementType)) st)
          (T.StartsAt files elementType (offset + i * T.getTypeAllocSize elementType)) := by
        intro i hi
        have hlt := hcounted i hi
        have hend := (item_end_le hlt offset (T.getTypeAllocSize elementType)).trans_lt hfits
        rw [uint32_of_lt (by omega)]
        exact ih _ (hlaid.item (by omega)) hend hvisit
      -- items do not overlap, so no offset is visited for two of them
      have hapart : (List.range (uint32 numElements)).Pairwise fun i j => ∀ o b b',
          T.StartsAt files elementType (offset + i * T.getTypeAllocSize elementType) o b →
            ¬ T.StartsAt files elementType (offset + j * T.getTypeAllocSize elementType) o b' := by
        refine List.pairwise_lt_range.imp_of_mem fun {i _} hi _ hij _ _ _ hb => ?_
        have hpos : 0 < numElements := (Nat.zero_le i).trans_lt (hcounted i hi)
        exact startsAt_items_apart (hlaid.item hpos) hij hb
      have hloop := Exact.foldl _ hitem hapart
      exact hloop.congr (startsAt_array_uint32 hlaid hfits)

/-- What starts in a struct: the struct itself, and what starts in its elements. -/
theorem startsAt_struct {a : ℕ} (hinteresting : T.isInterestingStructType a = true)
    (offset o b : ℕ) :
    T.StartsAt files (.struct a) offset o b ↔
      (o = offset ∧ b = a) ∧ T.IsRecorded files a ∨
        ∃ e ∈ (T.struct a).elements, T.StartsAt files e.2 (offset + e.1) o b := by
  unfold StartsAt
  rw [at_struct hinteresting]
  constructor
  · rintro ⟨⟨rfl, rfl⟩ | ⟨e, he, hat⟩, hrecorded⟩
    · exact .inl ⟨⟨rfl, rfl⟩, hrecorded⟩
    · exact .inr ⟨e, he, hat, hrecorded⟩
  · rintro (⟨⟨rfl, rfl⟩, hrecorded⟩ | ⟨e, he, hat, hrecorded⟩)
    · exact ⟨.inl ⟨rfl, rfl⟩, hrecorded⟩
    · exact ⟨.inr ⟨e, he, hat⟩, hrecorded⟩

/-- The walk over a struct. -/
theorem structAlignment_exact :
    ∀ (fuel a offset : ℕ), T.depth a < fuel → T.isInterestingStructType a = true →
      T.WellLaid (.struct a) → offset + (T.struct a).allocSize < 2 ^ 32 →
      T.Exact (T.structAlignment files fuel a offset) (T.StartsAt files (.struct a) offset) := by
  intro fuel
  induction fuel with
  | zero => exact fun _ _ hfuel => absurd hfuel (Nat.not_lt_zero _)
  | succ fuel ih =>
      intro a offset hfuel hinteresting hlaid hfits
      obtain ⟨hordered, -⟩ := hlaid 0 a (.self a)
      -- the walk over an element starts at its offset in the whole type
      have helement : ∀ e ∈ (T.struct a).elements, T.Exact
          (fun st => T.arrayAlignment (T.structAlignment files fuel) e.2 (uint32 (e.1 + offset)) st)
          (T.StartsAt files e.2 (offset + e.1)) := by
        intro e he
        have hend := hordered.fits e he
        rw [uint32_of_lt (by omega), Nat.add_comm e.1]
        refine arrayAlignment_exact e.2 _ (hlaid.element he) (by omega)
          fun b o hcore => ?_
        have hdepth := T.contained a e he b hcore
        exact ih b o (by omega)
      -- elements do not overlap
      have hapart : (T.struct a).elements.Pairwise fun e e' => ∀ o b b',
          T.StartsAt files e.2 (offset + e.1) o b →
            ¬ T.StartsAt files e'.2 (offset + e'.1) o b' := by
        refine hordered.ordered.imp_of_mem fun {e e'} he he' horder o b b' hb hb' => ?_
        have hfirst := startsAt_lt (hlaid.element he) hb
        have hsecond := startsAt_lt (hlaid.element he') hb'
        omega
      have hloop := Exact.foldl _ helement hapart
      -- the struct is filed before its elements, so it is the outermost at its offset
      by_cases hrecorded : T.IsRecorded files a
      · refine (Exact.struct offset hrecorded hloop ?_).congr fun o b => ?_
        · rintro b ⟨e, he, ⟨r, hr, hb⟩, hrecorded⟩
          have hstart := Visible.element hinteresting he hb
          obtain ⟨c, hcore, -, hpath⟩ := atOffsetZero_of_visible hstart hrecorded.1 (by omega)
          exact Option.some.inj hcore ▸ hpath
        · rw [startsAt_struct hinteresting]
          simp only [hrecorded, and_true]
      · -- the walk goes through the struct without recording it
        have hskip : ∀ st, T.recordStruct files a offset st = st := by
          intro st
          unfold recordStruct
          split
          · rfl
          · rw [if_neg]
            rwa [Bool.and_eq_true]
        simp only [structAlignment, hskip]
        apply hloop.congr
        intro o b
        rw [startsAt_struct hinteresting]
        simp only [hrecorded, and_false, false_or]

/-- The whole walk. -/
theorem getArrayAlignment_exact {type : IRType} (hlaid : T.WellLaid type)
    (hsize : T.getTypeAllocSize type < 2 ^ 32) :
    T.Exact (T.getArrayAlignment files type 0) (T.StartsAt files type 0) :=
  arrayAlignment_exact type 0 hlaid (by rwa [Nat.zero_add]) fun a o _ =>
    structAlignment_exact _ a o (Nat.lt_succ_self _)

theorem startsAt_zero {type : IRType} {o b : ℕ} :
    T.StartsAt files type 0 o b ↔ T.Visible type o b ∧ T.IsRecorded files b := by
  unfold StartsAt At
  simp only [Nat.zero_add, exists_eq_left']

/-- **What the walk files for a granule**: the outermost struct at each of its offsets. -/
theorem mem_elementsOf {type : IRType} (hlaid : T.WellLaid type)
    (hsize : T.getTypeAllocSize type < 2 ^ 32) (granule a : ℕ) :
    (∃ types, (T.elementsOf files type)[granule]? = some types ∧ a ∈ types) ↔
      ∃ o, o / 8 = granule ∧ T.Outermost files type o a := by
  have hexact : T.Exact (T.getArrayAlignment files type 0) (T.StartsAt files type 0) :=
    getArrayAlignment_exact hlaid hsize
  constructor
  · intro h
    -- the walk starts with nothing filed
    rcases hexact.only ⟨∅, ∅⟩ granule a h with ⟨types, htypes, -⟩ | ⟨o, -, hgranule, ha, hall⟩
    · simp at htypes
    · obtain ⟨hvisible, hrecorded⟩ := startsAt_zero.mp ha
      exact ⟨o, hgranule, hvisible, hrecorded, fun b hb hb' => hall b (startsAt_zero.mpr ⟨hb, hb'⟩)⟩
  · rintro ⟨o, rfl, houter⟩
    have hstarts := startsAt_zero.mpr ⟨houter.visible, houter.recorded⟩
    obtain ⟨a', hfound, ha', hall⟩ :=
      hexact.first ⟨∅, ∅⟩ o (hexact.covered _ o a hstarts) (Finset.notMem_empty o)
    obtain ⟨hvisible, hrecorded⟩ := startsAt_zero.mp ha'
    -- two outermost structs at an offset hold each other
    have hsame : a' = a := by
      apply Outermost.unique (o := o) _ houter
      exact ⟨hvisible, hrecorded, fun b hb hb' => hall b (startsAt_zero.mpr ⟨hb, hb'⟩)⟩
    exact hsame ▸ hfound

/-- Some struct is the outermost where a recorded one starts. -/
theorem exists_outermost {type : IRType} (hlaid : T.WellLaid type)
    (hsize : T.getTypeAllocSize type < 2 ^ 32) {o b : ℕ} (hb : T.Visible type o b)
    (hrecorded : T.IsRecorded files b) : ∃ a, T.Outermost files type o a := by
  have hexact : T.Exact (T.getArrayAlignment files type 0) (T.StartsAt files type 0) :=
    getArrayAlignment_exact hlaid hsize
  obtain ⟨a, -, ha, hall⟩ := hexact.first ⟨∅, ∅⟩ o
    (hexact.covered _ o b (startsAt_zero.mpr ⟨hb, hrecorded⟩)) (Finset.notMem_empty o)
  obtain ⟨hvisible, hrecorded'⟩ := startsAt_zero.mp ha
  exact ⟨a, hvisible, hrecorded', fun b hb hb' => hall b (startsAt_zero.mpr ⟨hb, hb'⟩)⟩

/-- In a type all of whose structs are recorded the walk finds every one of them, or one
that holds it. -/
theorem found_of_contains {x o b : ℕ} (hregular : T.Regular files (.struct x))
    (hsize : (T.struct x).allocSize < 2 ^ 32) (hb : T.Contains (.struct x) o b) :
    ∃ types a, (T.elementsOf files (.struct x))[o / 8]? = some types ∧ a ∈ types ∧
      T.Contains (.struct x) o a ∧ T.AtOffsetZero a b := by
  have hvisible := hregular.visible hb
  obtain ⟨a, houter⟩ := exists_outermost hregular.wellLaid hsize hvisible (hregular.recorded hb)
  obtain ⟨types, htypes, ha⟩ :=
    (mem_elementsOf hregular.wellLaid hsize (o / 8) a).mpr ⟨o, rfl, houter⟩
  exact ⟨types, a, htypes, ha, houter.visible.contains,
    houter.holds b hvisible (hregular.recorded hb)⟩

/-- **The walk is complete and files nothing else.**  For every occurrence of a recorded
struct the granule of its offset holds a struct that occurs at the offset too and has the
recorded one in its offset-zero set; and what a granule holds occurs at an offset of the
granule and is recorded. -/
theorem elementsOf_complete {type : IRType}
    (hidentified : ∀ o b, T.Contains type o b → T.isInterestingStructType b = true)
    (hlayout : ∀ o b, T.Contains type o b → T.HasStructLayout b)
    (hpositive : ∀ o b, T.Contains type o b → T.isTracked b = true → 0 < (T.struct b).allocSize)
    (hsize : T.getTypeAllocSize type < 2 ^ 32) :
    (∀ o c, T.Contains type o c → T.IsRecorded files c →
      ∃ types, (T.elementsOf files type)[o / 8]? = some types ∧
        ∃ a ∈ types, T.Contains type o a ∧ c ∈ T.getOffetZeroStruct a ∅) ∧
    ∀ granule types, (T.elementsOf files type)[granule]? = some types → ∀ a ∈ types,
      ∃ o, o / 8 = granule ∧ T.Contains type o a ∧ T.IsRecorded files a := by
  have hlaid : T.WellLaid type := fun o b hb =>
    ⟨ordered_of_structLayout (hlayout o b hb), hpositive o b hb⟩
  constructor
  · intro o c hc hrecorded
    have hvisible := visible_of_contains hc hidentified
    obtain ⟨a, houter⟩ := exists_outermost hlaid hsize hvisible hrecorded
    obtain ⟨types, htypes, ha⟩ := (mem_elementsOf hlaid hsize (o / 8) a).mpr ⟨o, rfl, houter⟩
    have hzero : c ∈ T.getOffetZeroStruct a ∅ :=
      mem_getOffetZeroStruct.mpr (.inr (houter.holds c hvisible hrecorded))
    exact ⟨types, htypes, a, ha, houter.visible.contains, hzero⟩
  · intro granule types htypes a ha
    obtain ⟨o, hgranule, houter⟩ :=
      (mem_elementsOf hlaid hsize granule a).mp ⟨types, htypes, ha⟩
    exact ⟨o, hgranule, houter.visible.contains, houter.recorded⟩

end Walk

end TypeTable

/-! ## A class in an untracked struct -/

theorem wrapperModule_nodup : ([1, 2] : List ℕ).Nodup := by decide

/-- Class `A` of four bytes as the second member of an untracked struct. -/
def wrapperModule : Module where
  struct a :=
    if a = 1 then ⟨some "struct.W".toList, false, false, [(0, .other 4), (4, .struct 2)], 8⟩
    else ⟨some "trackedtype.A".toList, false, false, [(0, .other 4)], 4⟩
  depth a := if a = 1 then 1 else 0
  contained := contained_of_cases 2 (by decide) fun a ha => by
    simp [show a ≠ 1 from ne_of_listed (by decide) ha]
  identified := [1, 2]
  nodup := wrapperModule_nodup

/-- `A` is cast-related. -/
def wrapperFiles : ClassFiles := initReadFiles ⟨[(['A'], 1)], [(['A'], 1)], []⟩

/-- What lies inside the struct. -/
theorem wrapperModule_contains {o b : ℕ} (h : wrapperModule.Contains (.struct 1) o b) :
    o = 0 ∧ b = 1 ∨ o = 4 ∧ b = 2 := by
  cases h with
  | self => exact .inl ⟨rfl, rfl⟩
  | @element _ r _ e he hb =>
      have hmem : e ∈ [(0, IRType.other 4), (4, .struct 2)] := he
      simp only [List.mem_cons, List.not_mem_nil, or_false] at hmem
      rcases hmem with rfl | rfl
      · cases hb
      · cases hb with
        | self => exact .inr ⟨rfl, rfl⟩
        | @element _ _ _ e he hb =>
            obtain rfl : e = (0, .other 4) := List.mem_singleton.mp he
            cases hb

theorem wrapperModule_layout {b : ℕ} (hb : b = 1 ∨ b = 2) :
    wrapperModule.isInterestingStructType b = true ∧ wrapperModule.HasStructLayout b ∧
      0 < (wrapperModule.struct b).allocSize := by
  rcases hb with rfl | rfl
  · exact ⟨by decide, ⟨[(4, .other 4), (4, .struct 2)], by decide, rfl⟩, by decide⟩
  · exact ⟨by decide, ⟨[(4, .other 4)], by decide, rfl⟩, by decide⟩

theorem wrapperModule_element : (4, IRType.struct 2) ∈ (wrapperModule.struct 1).elements := by
  show _ ∈ [(0, IRType.other 4), (4, .struct 2)]
  simp

theorem wrapperModule_inside {o b : ℕ} (h : wrapperModule.Contains (.struct 1) o b) :
    b = 1 ∨ b = 2 := (wrapperModule_contains h).imp And.right And.right

theorem wrapperModule_inArray {n o b : ℕ}
    (h : wrapperModule.Contains (.array n (.struct 1)) o b) : b = 1 ∨ b = 2 := by
  cases h with
  | item _ hb => exact wrapperModule_inside hb

/-- The class in the second of two such structs is filed under granule 1. -/
theorem elementsOf_complete_sample :
    ∃ types, (wrapperModule.elementsOf wrapperFiles (.array 2 (.struct 1)))[12 / 8]? =
      some types ∧ ∃ a ∈ types, wrapperModule.Contains (.array 2 (.struct 1)) 12 a ∧
        2 ∈ wrapperModule.getOffetZeroStruct a ∅ := by
  have hlayout := fun o b (hb : wrapperModule.Contains (.array 2 (.struct 1)) o b) =>
    wrapperModule_layout (wrapperModule_inArray hb)
  have hsecond : wrapperModule.Contains (.array 2 (.struct 1)) 12 2 :=
    .item (i := 1) (by decide) (.element wrapperModule_element (.self 2))
  exact (TypeTable.elementsOf_complete (fun o b hb => (hlayout o b hb).1)
    (fun o b hb => (hlayout o b hb).2.1) (fun o b hb _ => (hlayout o b hb).2.2)
    (by decide)).1 12 2 hsecond (by decide +kernel)

end Bitype.Pass
