import Mathlib.Data.Finset.Card
import Mathlib.Data.Finset.Insert
import Mathlib.Data.Finset.Lattice.Lemmas
import Bitype.Tool.Visit

/-!
# What a visit does to the numbering and the family graph

`Numbered known fields edges s` says what `s` knows in terms of names: the known
names are numbered from zero on without gaps, and `graph` has an edge between two
numbers iff `edges` has one between their names.

`Records pre act names pairs` is the specification of a piece of a visit: from any
such state it makes `names` known and adds the edges `pairs`, provided that at most
`MAX_NUM_CLASS` names are known then.  There is one rule for each way pieces are put
together (`Records.bind`, `Records.foldlM`, `Records.indexOf`), and one specification
for each function of the visitor.
-/

namespace Bitype.Tool

open CXXRecordDecl

/-! ## States in terms of names -/

/-- The numbering and the family graph of `s`, in terms of names. -/
structure Numbered (known : Finset Name) (fields : Name → Prop) (edges : Name → Name → Prop)
    (s : Collector) : Prop where
  code_iff : ∀ (name : Name) (i : ℕ), s.classCode[name]? = some i ↔ s.numberName[i]? = some name
  known_iff : ∀ name : Name, name ∈ known ↔ ∃ i, s.classCode[name]? = some i
  index_iff : ∀ i : ℕ, i < s.currentIndex ↔ ∃ name, s.numberName[i]? = some name
  card_eq : s.currentIndex = known.card
  fields_iff : ∀ name : Name, s.hasVisitedField.contains name = true ↔ fields name
  edges_known : ∀ a b, edges a b → a ∈ known ∧ b ∈ known
  graph_iff : ∀ i j : ℕ, s.graph i j = true ↔
    ∃ a b : Name, s.classCode[a]? = some i ∧ s.classCode[b]? = some j ∧ edges a b

/-- Names keep their numbers. -/
def Extends (s s' : Collector) : Prop :=
  ∀ (name : Name) (i : ℕ), s.classCode[name]? = some i → s'.classCode[name]? = some i

theorem Extends.refl (s : Collector) : Extends s s := fun _ _ h => h

theorem Extends.trans {s s' s'' : Collector} (h : Extends s s') (h' : Extends s' s'') :
    Extends s s'' := fun name i hi => h' name i (h name i hi)

variable {known : Finset Name} {fields : Name → Prop} {edges : Name → Name → Prop}
  {s : Collector}

theorem numbered_empty : Numbered ∅ (fun _ => False) (fun _ _ => False) Collector.empty := by
  refine ⟨?_, ?_, ?_, rfl, ?_, ?_, ?_⟩ <;> simp [Collector.empty]

theorem Numbered.congr {known' : Finset Name} {fields' : Name → Prop}
    {edges' : Name → Name → Prop} (h : Numbered known fields edges s) (hknown : known = known')
    (hfields : ∀ name, fields name ↔ fields' name) (hedges : ∀ a b, edges a b ↔ edges' a b) :
    Numbered known' fields' edges' s := by
  subst hknown
  refine ⟨h.code_iff, h.known_iff, h.index_iff, h.card_eq, ?_, ?_, ?_⟩
  · intro name
    rw [h.fields_iff, hfields]
  · intro a b hab
    exact h.edges_known a b ((hedges a b).mpr hab)
  · intro i j
    simp only [h.graph_iff, hedges]

/-- A number in use is below the number of names. -/
theorem Numbered.lt_card (h : Numbered known fields edges s) {name : Name} {i : ℕ}
    (hi : s.classCode[name]? = some i) : i < known.card :=
  h.card_eq ▸ (h.index_iff i).mpr ⟨name, (h.code_iff name i).mp hi⟩

/-! ## Numbering a name -/

/-- The two maps of `s` are inverse to each other and have no gaps. -/
structure NamesNumbered (s : Collector) : Prop where
  code_iff : ∀ (name : Name) (i : ℕ), s.classCode[name]? = some i ↔ s.numberName[i]? = some name
  index_iff : ∀ i : ℕ, i < s.currentIndex ↔ ∃ name, s.numberName[i]? = some name

theorem namesNumbered_empty : NamesNumbered Collector.empty := by
  constructor <;> simp [Collector.empty]

/-- What `indexOf` makes of the maps when the name is new. -/
theorem indexOf_lookup (h : NamesNumbered s) {name : Name} (hcode : s.classCode[name]? = none) :
    (∀ other : Name, (s.indexOf name).2.classCode[other]? =
      if name = other then some s.currentIndex else s.classCode[other]?) ∧
    ∀ i : ℕ, (s.indexOf name).2.numberName[i]? =
      if s.currentIndex = i then some name else s.numberName[i]? := by
  have hfree : s.numberName[s.currentIndex]? = none := by
    cases hname : s.numberName[s.currentIndex]? with
    | none => rfl
    | some other => exact absurd ((h.index_iff _).mpr ⟨other, hname⟩) (lt_irrefl _)
  unfold Collector.indexOf
  simp only [hcode]
  constructor
  · intro other
    rw [Std.TreeMap.getElem?_insertIfNew]
    simp only [Std.LawfulEqCmp.compare_eq_iff_eq]
    have : name ∉ s.classCode := by
      rw [← Std.TreeMap.isSome_getElem?_iff_mem, hcode]
      simp
    simp only [this, not_false_eq_true, and_true]
  · intro i
    rw [Std.TreeMap.getElem?_insertIfNew]
    simp only [Std.LawfulEqCmp.compare_eq_iff_eq]
    have : s.currentIndex ∉ s.numberName := by
      rw [← Std.TreeMap.isSome_getElem?_iff_mem, hfree]
      simp
    simp only [this, not_false_eq_true, and_true]

/-- A new name gets a new number. -/
theorem indexOf_named (h : NamesNumbered s) (name : Name) :
    NamesNumbered (s.indexOf name).2 ∧ Extends s (s.indexOf name).2 ∧
      (s.indexOf name).2.classCode[name]? = some (s.indexOf name).1 := by
  cases hcode : s.classCode[name]? with
  | some i =>
      have hsame : s.indexOf name = (i, s) := by simp [Collector.indexOf, hcode]
      rw [hsame]
      exact ⟨h, .refl s, hcode⟩
  | none =>
      obtain ⟨hcode', hname'⟩ := indexOf_lookup h hcode
      -- `currentIndex` is nobody's number yet
      have hfree : ∀ other, s.numberName[s.currentIndex]? ≠ some other := fun other hother =>
        lt_irrefl _ ((h.index_iff _).mpr ⟨other, hother⟩)
      have hfst : (s.indexOf name).1 = s.currentIndex := by simp [Collector.indexOf, hcode]
      have hnext : (s.indexOf name).2.currentIndex = s.currentIndex + 1 := by
        simp [Collector.indexOf, hcode]
      refine ⟨⟨fun other i => ?_, fun i => ?_⟩, fun other i hi => ?_, ?_⟩
      · rw [hcode', hname']
        by_cases hother : name = other
        · subst hother
          by_cases hi : s.currentIndex = i
          · simp [hi]
          · simp only [if_true, hi, if_false, Option.some.injEq, false_iff]
            intro hi'
            rw [← h.code_iff, hcode] at hi'
            cases hi'
        · by_cases hi : s.currentIndex = i
          · subst hi
            simp only [hother, if_false, if_true, Option.some.injEq, iff_false]
            exact fun hi' => hfree other ((h.code_iff other _).mp hi')
          · simp only [hother, hi, if_false]
            exact h.code_iff other i
      · rw [hnext]
        simp only [hname']
        by_cases hi : s.currentIndex = i
        · simp [hi]
        · simp only [hi, if_false, ← h.index_iff]
          omega
      · rw [hcode', if_neg, hi]
        rintro rfl
        rw [hcode] at hi
        cases hi
      · rw [hcode', if_pos rfl, hfst]

theorem Numbered.named (h : Numbered known fields edges s) : NamesNumbered s :=
  ⟨h.code_iff, h.index_iff⟩

/-- `indexOf` makes a name known and returns its number. -/
theorem indexOf_spec (h : Numbered known fields edges s) (name : Name) :
    Numbered (insert name known) fields edges (s.indexOf name).2 ∧
      Extends s (s.indexOf name).2 ∧
      (s.indexOf name).2.classCode[name]? = some (s.indexOf name).1 := by
  obtain ⟨hnamed, hkeep, hfound⟩ := indexOf_named h.named name
  refine ⟨?_, hkeep, hfound⟩
  cases hcode : s.classCode[name]? with
  | some i =>
      have hmem : name ∈ known := (h.known_iff name).mpr ⟨i, hcode⟩
      have hsame : s.indexOf name = (i, s) := by simp [Collector.indexOf, hcode]
      rw [Finset.insert_eq_of_mem hmem, hsame]
      exact h
  | none =>
      have hnew : name ∉ known := by
        rw [h.known_iff]
        simp [hcode]
      obtain ⟨hcode', -⟩ := indexOf_lookup h.named hcode
      have hframe : (s.indexOf name).2.graph = s.graph ∧
          (s.indexOf name).2.hasVisitedField = s.hasVisitedField ∧
          (s.indexOf name).2.currentIndex = s.currentIndex + 1 := by
        simp [Collector.indexOf, hcode]
      refine ⟨hnamed.code_iff, fun other => ?_, hnamed.index_iff, ?_, ?_, ?_, ?_⟩
      · rw [Finset.mem_insert, h.known_iff]
        simp only [hcode']
        by_cases hother : name = other
        · simp [hother]
        · simp [hother, Ne.symm hother]
      · rw [hframe.2.2, Finset.card_insert_of_notMem hnew, h.card_eq]
      · rw [hframe.2.1]
        exact h.fields_iff
      · intro a b hab
        obtain ⟨ha, hb⟩ := h.edges_known a b hab
        exact ⟨Finset.mem_insert_of_mem ha, Finset.mem_insert_of_mem hb⟩
      · -- edges join names known before, whose numbers have not changed
        intro i j
        rw [hframe.1, h.graph_iff]
        constructor
        · rintro ⟨a, b, ha, hb, hedge⟩
          exact ⟨a, b, hkeep a i ha, hkeep b j hb, hedge⟩
        · rintro ⟨a, b, ha, hb, hedge⟩
          obtain ⟨hka, hkb⟩ := h.edges_known a b hedge
          rw [hcode', if_neg fun heq : name = a => hnew (heq ▸ hka)] at ha
          rw [hcode', if_neg fun heq : name = b => hnew (heq ▸ hkb)] at hb
          exact ⟨a, b, ha, hb, hedge⟩

/-- The field branch's exit is not taken while there is room for the name. -/
theorem indexOrExit_eq (h : Numbered known fields edges s) {name : Name}
    (hroom : (insert name known).card ≤ MAX_NUM_CLASS) :
    s.indexOrExit name = some (s.indexOf name) := by
  obtain ⟨hnumbered, _, _⟩ := indexOf_spec h name
  unfold Collector.indexOrExit
  cases hcode : s.classCode[name]? with
  | some i => simp [Collector.indexOf, hcode]
  | none =>
      have hnext : (s.indexOf name).2.currentIndex = s.currentIndex + 1 := by
        simp [Collector.indexOf, hcode]
      have := hnumbered.card_eq
      exact if_neg (by omega)

/-! ## Writing an edge -/

theorem setEdge_eq {matrix : ℕ → ℕ → Bool} {i j : ℕ} (hi : i < MAX_NUM_CLASS)
    (hj : j < MAX_NUM_CLASS) :
    setEdge matrix i j = some fun a b => if a = i ∧ b = j then true else matrix a b :=
  if_pos ⟨hi, hj⟩

/-- A write to `graph` adds the edge between the two names. -/
theorem setGraph_spec (h : Numbered known fields edges s) (hroom : known.card ≤ MAX_NUM_CLASS)
    {a b : Name} {i j : ℕ} (ha : s.classCode[a]? = some i) (hb : s.classCode[b]? = some j) :
    ∃ s', s.setGraph i j = some s' ∧ s'.classCode = s.classCode ∧
      Numbered known fields (fun c d => edges c d ∨ c = a ∧ d = b) s' := by
  refine ⟨{ s with graph := fun k l => if k = i ∧ l = j then true else s.graph k l }, ?_, rfl, ?_⟩
  · rw [Collector.setGraph, setEdge_eq ((h.lt_card ha).trans_le hroom)
      ((h.lt_card hb).trans_le hroom), Option.map_some]
  refine ⟨h.code_iff, h.known_iff, h.index_iff, h.card_eq, h.fields_iff, ?_, ?_⟩
  · rintro c d (hcd | ⟨rfl, rfl⟩)
    · exact h.edges_known c d hcd
    · exact ⟨(h.known_iff c).mpr ⟨i, ha⟩, (h.known_iff d).mpr ⟨j, hb⟩⟩
  · intro k l
    -- a number belongs to one name
    have hinj : ∀ {c d : Name} {n : ℕ}, s.classCode[c]? = some n → s.classCode[d]? = some n →
        c = d := by
      intro c d n hc hd
      exact Option.some.inj (((h.code_iff c n).mp hc).symm.trans ((h.code_iff d n).mp hd))
    dsimp only
    by_cases hkl : k = i ∧ l = j
    · obtain ⟨rfl, rfl⟩ := hkl
      simp only [and_self, if_true, true_iff]
      exact ⟨a, b, ha, hb, .inr ⟨rfl, rfl⟩⟩
    · rw [if_neg hkl, h.graph_iff]
      constructor
      · rintro ⟨c, d, hc, hd, hedge⟩
        exact ⟨c, d, hc, hd, .inl hedge⟩
      · rintro ⟨c, d, hc, hd, hedge | ⟨rfl, rfl⟩⟩
        · exact ⟨c, d, hc, hd, hedge⟩
        · exact absurd ⟨Option.some.inj (hc.symm.trans ha), Option.some.inj (hd.symm.trans hb)⟩ hkl

/-! ## Specifications of pieces of a visit -/

/-- From a state with `pre` and room for its names, `act` makes `names` known and adds
the edges `pairs`. -/
def Records (pre : Collector → Prop) (act : Collector → Option Collector) (names : List Name)
    (pairs : Name → Name → Prop) : Prop :=
  ∀ (known : Finset Name) (fields : Name → Prop) (edges : Name → Name → Prop) (s : Collector),
    Numbered known fields edges s → pre s → (known ∪ names.toFinset).card ≤ MAX_NUM_CLASS →
    ∃ s', act s = some s' ∧ Extends s s' ∧
      Numbered (known ∪ names.toFinset) fields (fun a b => edges a b ∨ pairs a b) s'

/-- Properties of states that numbering more names keeps. -/
def Stable (pre : Collector → Prop) : Prop := ∀ s s', Extends s s' → pre s → pre s'

/-- `name` has number `i`. -/
def HasIndex (name : Name) (i : ℕ) (s : Collector) : Prop := s.classCode[name]? = some i

theorem stable_hasIndex (name : Name) (i : ℕ) : Stable (HasIndex name i) :=
  fun _ _ h hi => h name i hi

theorem Stable.and {pre pre' : Collector → Prop} (h : Stable pre) (h' : Stable pre') :
    Stable fun s => pre s ∧ pre' s :=
  fun s s' hs hpre => ⟨h s s' hs hpre.1, h' s s' hs hpre.2⟩

theorem stable_true : Stable fun _ => True := fun _ _ _ h => h

/-- No edges. -/
def noPairs : Name → Name → Prop := fun _ _ => False

variable {pre : Collector → Prop} {names names' : List Name} {pairs pairs' : Name → Name → Prop}

theorem Records.congr {act : Collector → Option Collector} (h : Records pre act names pairs)
    (hnames : ∀ name, name ∈ names ↔ name ∈ names') (hpairs : ∀ a b, pairs a b ↔ pairs' a b) :
    Records pre act names' pairs' := by
  have hset : names.toFinset = names'.toFinset := by
    ext name
    rw [List.mem_toFinset, List.mem_toFinset, hnames]
  intro known fields edges s hs hpre hroom
  obtain ⟨s', hact, hext, hs'⟩ := h known fields edges s hs hpre (hset ▸ hroom)
  exact ⟨s', hact, hext, hs'.congr (by rw [hset]) (fun _ => Iff.rfl) fun a b => by rw [hpairs]⟩

/-- A piece that touches neither the numbering nor the family graph. -/
theorem Records.skip {act : Collector → Option Collector}
    (h : ∀ known fields edges s, Numbered known fields edges s → pre s →
      known.card ≤ MAX_NUM_CLASS →
      ∃ s', act s = some s' ∧ s'.classCode = s.classCode ∧ Numbered known fields edges s') :
    Records pre act [] noPairs := by
  intro known fields edges s hs hpre hroom
  rw [List.toFinset_nil, Finset.union_empty] at *
  obtain ⟨s', hact, hcode, hs'⟩ := h known fields edges s hs hpre hroom
  refine ⟨s', hact, fun name i hi => hcode ▸ hi, hs'.congr rfl (fun _ => Iff.rfl) ?_⟩
  intro a b
  simp [noPairs]

/-- One piece after the other. -/
theorem Records.bind {act act' : Collector → Option Collector} (hpre : Stable pre)
    (h : Records pre act names pairs) (h' : Records pre act' names' pairs') :
    Records pre (fun s => act s >>= act') (names ++ names')
      (fun a b => pairs a b ∨ pairs' a b) := by
  intro known fields edges s hs hs_pre hroom
  rw [List.toFinset_append, ← Finset.union_assoc] at *
  have hroom' := (Finset.card_le_card Finset.subset_union_left).trans hroom
  obtain ⟨s₁, hact, hext, hs₁⟩ := h known fields edges s hs hs_pre hroom'
  obtain ⟨s₂, hact', hext', hs₂⟩ := h' _ fields _ s₁ hs₁ (hpre s s₁ hext hs_pre) hroom
  refine ⟨s₂, ?_, hext.trans hext', hs₂.congr rfl (fun _ => Iff.rfl) fun a b => or_assoc⟩
  simp only [hact, hact', Option.bind_eq_bind, Option.bind_some]

/-- A loop, from what its body does for each element. -/
theorem Records.foldlM {β : Type*} {body : Collector → β → Option Collector}
    {namesOf : β → List Name} {pairsOf : β → Name → Name → Prop} (hpre : Stable pre) :
    ∀ elements : List β,
      (∀ x ∈ elements, Records pre (fun s => body s x) (namesOf x) (pairsOf x)) →
      Records pre (fun s => elements.foldlM body s) (elements.flatMap namesOf)
        (fun a b => ∃ x ∈ elements, pairsOf x a b) := by
  intro elements
  induction elements with
  | nil =>
      intro _
      refine (Records.skip fun known fields edges s hs _ _ => ⟨s, rfl, rfl, hs⟩).congr ?_ ?_
      · simp
      · simp [noPairs]
  | cons x rest ih =>
      intro hbody
      have hrest := ih fun y hy => hbody y (List.mem_cons_of_mem _ hy)
      refine ((hbody x List.mem_cons_self).bind hpre hrest).congr ?_ ?_
      · simp
      · simp

/-- Number a name, then go on with its number. -/
theorem Records.indexOf {rest : ℕ → Collector → Option Collector} {name : Name}
    (hpre : Stable pre)
    (h : ∀ i, Records (fun s => pre s ∧ HasIndex name i s) (rest i) names pairs) :
    Records pre (fun s => rest (s.indexOf name).1 (s.indexOf name).2) (name :: names) pairs := by
  intro known fields edges s hs hs_pre hroom
  obtain ⟨hnumbered, hext, hindex⟩ := indexOf_spec hs name
  have hset : insert name known ∪ names.toFinset = known ∪ (name :: names).toFinset := by
    rw [List.toFinset_cons, Finset.insert_union, Finset.union_insert]
  obtain ⟨s', hact, hext', hs'⟩ := h (s.indexOf name).1 _ fields edges _ hnumbered
    ⟨hpre s _ hext hs_pre, hindex⟩ (hset ▸ hroom)
  exact ⟨s', hact, hext.trans hext', hset ▸ hs'⟩

/-- A write to `graph`. -/
theorem Records.setGraph {a b : Name} {i j : ℕ} (ha : ∀ s, pre s → HasIndex a i s)
    (hb : ∀ s, pre s → HasIndex b j s) :
    Records pre (fun s => s.setGraph i j) [] (fun c d => c = a ∧ d = b) := by
  intro known fields edges s hs hs_pre hroom
  rw [List.toFinset_nil, Finset.union_empty] at *
  obtain ⟨s', hact, hcode, hs'⟩ := setGraph_spec hs hroom (ha s hs_pre) (hb s hs_pre)
  exact ⟨s', hact, fun name i hi => hcode ▸ hi, hs'⟩

/-- A write to one of the other matrices. -/
theorem Records.setFamily {a b : Name} {i j : ℕ} (ha : ∀ s, pre s → HasIndex a i s)
    (hb : ∀ s, pre s → HasIndex b j s) : Records pre (fun s => s.setFamily i j) [] noPairs := by
  apply Records.skip
  intro known fields edges s hs hs_pre hroom
  refine ⟨{ s with graphFamily := fun k l => if k = i ∧ l = j then true else s.graphFamily k l }, ?_,
    rfl, { hs with }⟩
  rw [Collector.setFamily, setEdge_eq ((hs.lt_card (ha s hs_pre)).trans_le hroom)
    ((hs.lt_card (hb s hs_pre)).trans_le hroom), Option.map_some]

theorem Records.setPhantoms {a b : Name} {i j : ℕ} (ha : ∀ s, pre s → HasIndex a i s)
    (hb : ∀ s, pre s → HasIndex b j s) : Records pre (fun s => s.setPhantoms i j) [] noPairs := by
  apply Records.skip
  intro known fields edges s hs hs_pre hroom
  refine ⟨{ s with graphPhantoms := fun k l => if k = i ∧ l = j then true else s.graphPhantoms k l }, ?_,
    rfl, { hs with }⟩
  rw [Collector.setPhantoms, setEdge_eq ((hs.lt_card (ha s hs_pre)).trans_le hroom)
    ((hs.lt_card (hb s hs_pre)).trans_le hroom), Option.map_some]

theorem Records.addRelations (declName : Name) (tempBaseVec : List Name) :
    Records pre (fun s => some (s.addRelations declName tempBaseVec)) [] noPairs := by
  refine Records.skip fun known fields edges s hs _ _ => ⟨_, rfl, ?_, ?_⟩
  · unfold Collector.addRelations
    split
    · split <;> rfl
    · rfl
  · unfold Collector.addRelations
    split
    · split
      · exact { hs with }
      · exact { hs with }
    · exact hs

/-! ## The two visits -/

/-- Two names joined both ways. -/
def JoinBoth (a b : Name) : Name → Name → Prop :=
  fun c d => c = a ∧ d = b ∨ c = b ∧ d = a

/-- An edge and the edge back. -/
theorem Records.joinGraph {a b : Name} {i j : ℕ} (hpre : Stable pre)
    (ha : ∀ s, pre s → HasIndex a i s) (hb : ∀ s, pre s → HasIndex b j s) :
    Records pre (fun s => s.setGraph i j >>= fun s => s.setGraph j i) [] (JoinBoth a b) :=
  ((Records.setGraph ha hb).bind hpre (Records.setGraph hb ha)).congr (by simp)
    fun _ _ => Iff.rfl

theorem Records.indexOrExit {rest : ℕ → Collector → Option Collector} {name : Name}
    (hpre : Stable pre)
    (h : ∀ i, Records (fun s => pre s ∧ HasIndex name i s) (rest i) names pairs) :
    Records pre (fun s => s.indexOrExit name >>= fun p => rest p.1 p.2) (name :: names) pairs := by
  intro known fields edges s hs hs_pre hroom
  have hsub : insert name known ⊆ known ∪ (name :: names).toFinset := by
    rw [List.toFinset_cons, Finset.union_insert]
    exact Finset.insert_subset_insert _ Finset.subset_union_left
  obtain ⟨s', hact, hrest⟩ := Records.indexOf hpre h known fields edges s hs hs_pre hroom
  refine ⟨s', ?_, hrest⟩
  dsimp only
  rw [indexOrExit_eq hs ((Finset.card_le_card hsub).trans hroom), Option.bind_eq_bind,
    Option.bind_some]
  exact hact

/-- One field. -/
theorem joinField_spec (declName : Name) (field : FieldDecl) (hzero : field.isOffsetZero) :
    Records (fun _ => True) (fun s => joinField declName s field) [declName, field.name]
      (JoinBoth declName field.name) := by
  simp only [joinField, hzero, if_true]
  apply Records.indexOrExit stable_true
  intro declIndex
  have hstable := stable_true.and (stable_hasIndex declName declIndex)
  change Records _ (fun s => s.indexOrExit field.name >>= fun p => joinFieldPair declIndex p.1 p.2)
    _ _
  apply Records.indexOrExit hstable
  intro fieldIndex
  exact Records.joinGraph (hstable.and (stable_hasIndex _ _)) (fun _ h => h.1.2) fun _ h => h.2

/-- The names of the fields that `VisitCXXRecordDecl` joins to a class. -/
def zeroFields (decl : CXXRecordDecl) : List Name :=
  if !decl.info.isDependentContext && !decl.info.isAggregate && !decl.info.isPolymorphic then
    (decl.info.fields.filter FieldDecl.isOffsetZero).map FieldDecl.name
  else []

/-- The named bases of a class. -/
def namedBases (decl : CXXRecordDecl) : List Name :=
  ((collectAllBases decl).map name).filter (· ≠ [])

/-- The names `VisitCXXRecordDecl` joins to a class. -/
def partners (decl : CXXRecordDecl) : List Name := zeroFields decl ++ namedBases decl

/-- The loop over the fields. -/
theorem joinFields_spec (decl : CXXRecordDecl) :
    Records (fun _ => True) (fun s => decl.info.fields.foldlM (joinField decl.name) s)
      ((decl.info.fields.filter FieldDecl.isOffsetZero).flatMap fun f => [decl.name, f.name])
      (fun a b => ∃ f ∈ decl.info.fields.filter FieldDecl.isOffsetZero,
        JoinBoth decl.name f.name a b) := by
  have hskip : ∀ (fields : List FieldDecl) (s : Collector),
      fields.foldlM (joinField decl.name) s =
        (fields.filter FieldDecl.isOffsetZero).foldlM (joinField decl.name) s := by
    intro fields
    induction fields with
    | nil => intro s; rfl
    | cons field rest ih =>
        intro s
        by_cases hzero : field.isOffsetZero
        · rw [List.filter_cons_of_pos hzero, List.foldlM_cons, List.foldlM_cons]
          exact congrArg _ (funext ih)
        · rw [List.filter_cons_of_neg hzero, List.foldlM_cons]
          simp only [joinField, hzero]
          exact ih s
  rw [show (fun s => decl.info.fields.foldlM (joinField decl.name) s) = _ from funext (hskip _)]
  exact Records.foldlM stable_true _ fun field hfield =>
    joinField_spec decl.name field (List.mem_filter.mp hfield).2

/-- The phantom edges, in the order of either visit. -/
theorem phantoms_spec {a b : Name} {i j : ℕ} (hpre : Stable pre)
    (ha : ∀ s, pre s → HasIndex a i s) (hb : ∀ s, pre s → HasIndex b j s) (sameSize : Bool) :
    Records pre (fun s => if sameSize then s.setPhantoms i j >>= fun s => s.setPhantoms j i
      else some s) [] noPairs := by
  split
  · exact ((Records.setPhantoms ha hb).bind hpre (Records.setPhantoms hb ha)).congr (by simp)
      (by simp [noPairs])
  · exact Records.skip fun known fields edges s hs _ _ => ⟨s, rfl, rfl, hs⟩

/-- One base. -/
theorem joinBase_spec (decl base : CXXRecordDecl) (declIndex : ℕ) (hnamed : base.name ≠ []) :
    Records (HasIndex decl.name declIndex) (fun s => joinBase decl declIndex s base) [base.name]
      (JoinBoth base.name decl.name) := by
  simp only [joinBase, if_neg hnamed]
  have hdecl := stable_hasIndex decl.name declIndex
  apply Records.indexOf hdecl
  intro baseIndex
  have hpre := hdecl.and (stable_hasIndex base.name baseIndex)
  have hfamily := ((Records.setFamily (fun _ h => h.2) fun _ h => h.1).bind hpre
    ((Records.setFamily (fun _ h => h.1) fun _ h => h.2).bind hpre
      (phantoms_spec hpre (fun _ h => h.2) (fun _ h => h.1) (sameLayoutSize decl base))))
  refine ((Records.setGraph (fun _ h => h.2) fun _ h => h.1).bind hpre
    ((Records.setGraph (fun _ h => h.1) fun _ h => h.2).bind hpre hfamily)).congr (by simp) ?_
  intro a b
  simp [noPairs, JoinBoth]

/-- The loop over the bases. -/
theorem joinBases_spec (decl : CXXRecordDecl) (declIndex : ℕ) :
    Records (HasIndex decl.name declIndex)
      (fun s => (collectAllBases decl).foldlM (joinBase decl declIndex) s) (namedBases decl)
      (fun a b => ∃ base ∈ namedBases decl, JoinBoth base decl.name a b) := by
  have hbody : ∀ base ∈ collectAllBases decl,
      Records (HasIndex decl.name declIndex) (fun s => joinBase decl declIndex s base)
        ([base.name].filter (· ≠ []))
        (fun a b => base.name ≠ [] ∧ JoinBoth base.name decl.name a b) := by
    intro base _
    -- a base without a name is skipped
    by_cases hnamed : base.name = []
    · have hskip : Records (HasIndex decl.name declIndex)
          (fun s => joinBase decl declIndex s base) [] noPairs :=
        .skip fun known fields edges s hs _ _ => ⟨s, by simp [joinBase, hnamed], rfl, hs⟩
      refine hskip.congr ?_ ?_
      · simp [hnamed]
      · simp [hnamed, noPairs]
    · exact (joinBase_spec decl base declIndex hnamed).congr (by simp [hnamed]) (by simp [hnamed])
  refine (Records.foldlM (stable_hasIndex _ _) _ hbody).congr ?_ ?_
  · intro name
    simp only [namedBases, List.mem_flatMap, List.mem_filter, List.mem_map, List.mem_singleton,
      decide_eq_true_eq]
    constructor
    · rintro ⟨base, hbase, rfl, hnamed⟩
      exact ⟨⟨base, hbase, rfl⟩, hnamed⟩
    · rintro ⟨⟨base, hbase, rfl⟩, hnamed⟩
      exact ⟨base, hbase, rfl, hnamed⟩
  · intro a b
    simp only [namedBases, List.mem_filter, List.mem_map, decide_eq_true_eq]
    constructor
    · rintro ⟨base, hbase, hnamed, hjoin⟩
      exact ⟨base.name, ⟨⟨base, hbase, rfl⟩, hnamed⟩, hjoin⟩
    · rintro ⟨_, ⟨⟨base, hbase, rfl⟩, hnamed⟩, hjoin⟩
      exact ⟨base, hbase, hnamed, hjoin⟩

/-- The second part of `VisitCXXRecordDecl`, the numbering of the class included. -/
theorem visitBases_spec (decl : CXXRecordDecl) :
    Records (fun _ => True)
      (fun s => visitBases decl (s.indexOf decl.name).1 (s.indexOf decl.name).2)
      (decl.name :: namedBases decl)
      (fun a b => ∃ base ∈ namedBases decl, JoinBoth base decl.name a b) := by
  apply Records.indexOf stable_true
  intro declIndex
  have hpre := stable_true.and (stable_hasIndex decl.name declIndex)
  have hbases : Records (fun s => True ∧ HasIndex decl.name declIndex s)
      (fun s => (collectAllBases decl).foldlM (joinBase decl declIndex) s) (namedBases decl)
      (fun a b => ∃ base ∈ namedBases decl, JoinBoth base decl.name a b) :=
    fun known fields edges s hs hs_pre => joinBases_spec decl declIndex known fields edges s hs
      hs_pre.2
  exact (hbases.bind hpre (Records.addRelations decl.name _)).congr (by simp) (by simp [noPairs])

/-- The first part of `VisitCXXRecordDecl`. -/
theorem visitFields_spec {decl : CXXRecordDecl} (hcontext : decl.info.isDependentContext = false)
    (h : Numbered known fields edges s)
    (hroom : (known ∪ (decl.name :: zeroFields decl).toFinset).card ≤ MAX_NUM_CLASS) :
    ∃ s', visitFields decl s = some s' ∧
      Numbered (known ∪ ((zeroFields decl).flatMap fun f => [decl.name, f]).toFinset)
        (fun name => fields name ∨ name = decl.name)
        (fun a b => edges a b ∨ ∃ f ∈ zeroFields decl, JoinBoth decl.name f a b) s' := by
  -- marking the name as visited numbers nothing
  have hstart : Numbered known (fun name => fields name ∨ name = decl.name) edges
      { s with
        hasVisitedField := s.hasVisitedField.insert decl.name
        classSize := s.classSize.insertIfNew decl.name decl.info.alignment } := by
    refine { h with fields_iff := fun name => ?_ }
    rw [Std.TreeSet.contains_insert, Bool.or_eq_true, h.fields_iff, beq_iff_eq,
      Std.LawfulEqCmp.compare_eq_iff_eq, eq_comm, or_comm]
  unfold visitFields
  -- fields count in classes that are neither aggregates nor polymorphic
  by_cases hclass : (!decl.info.isAggregate && !decl.info.isPolymorphic) = true
  · have hzero : zeroFields decl =
        (decl.info.fields.filter FieldDecl.isOffsetZero).map FieldDecl.name := by
      unfold zeroFields
      rw [hcontext, Bool.not_false, Bool.true_and, if_pos hclass]
    have hnames : ((decl.info.fields.filter FieldDecl.isOffsetZero).flatMap
        fun f => [decl.name, f.name]) = (zeroFields decl).flatMap fun f => [decl.name, f] := by
      rw [hzero, List.flatMap_map]
    have hspec := joinFields_spec decl
    rw [hnames] at hspec
    rw [if_pos hclass]
    have hsub : ((zeroFields decl).flatMap fun f => [decl.name, f]).toFinset ⊆
        (decl.name :: zeroFields decl).toFinset := by
      intro name
      simp only [List.mem_toFinset, List.mem_flatMap, List.mem_cons, List.not_mem_nil, or_false]
      rintro ⟨f, hf, rfl | rfl⟩
      · exact .inl rfl
      · exact .inr hf
    obtain ⟨s', hact, _, hs'⟩ := hspec known _ edges _ hstart trivial
      ((Finset.card_le_card (Finset.union_subset_union_right hsub)).trans hroom)
    refine ⟨s', hact, hs'.congr rfl (fun _ => Iff.rfl) fun a b => ?_⟩
    rw [hzero]
    simp
  · have hzero : zeroFields decl = [] := by
      unfold zeroFields
      rw [hcontext, Bool.not_false, Bool.true_and, if_neg hclass]
    rw [if_neg hclass, hzero]
    exact ⟨_, rfl, hstart.congr (by simp) (fun _ => Iff.rfl) fun a b => by simp⟩

/-- A first visit: the fields, then the bases. -/
theorem visitCXXRecordDecl_first {decl : CXXRecordDecl} (hvisited : isVisited decl)
    (hcontext : decl.info.isDependentContext = false)
    (hfirst : s.hasVisitedField.contains decl.name = false)
    (h : Numbered known fields edges s)
    (hroom : (known ∪ (decl.name :: partners decl).toFinset).card ≤ MAX_NUM_CLASS) :
    ∃ s', visitCXXRecordDecl decl s = some s' ∧
      Numbered (known ∪ (decl.name :: partners decl).toFinset)
        (fun name => fields name ∨ decl.info.isDependentContext = false ∧ name = decl.name)
        (fun a b => edges a b ∨ ∃ p ∈ partners decl, JoinBoth p decl.name a b) s' := by
  have hcomm : ∀ f a b, JoinBoth decl.name f a b ↔ JoinBoth f decl.name a b := by
    intro f a b
    unfold JoinBoth
    tauto
  have hsub : (decl.name :: zeroFields decl).toFinset ⊆
      (decl.name :: partners decl).toFinset := by
    intro name
    simp only [partners, List.mem_toFinset, List.mem_cons, List.mem_append]
    tauto
  obtain ⟨s₁, hfields, hs₁⟩ := visitFields_spec hcontext h
    ((Finset.card_le_card (Finset.union_subset_union_right hsub)).trans hroom)
  -- the fields and the bases together are the partners
  have hset : known ∪ ((zeroFields decl).flatMap fun f => [decl.name, f]).toFinset ∪
      (decl.name :: namedBases decl).toFinset =
        known ∪ (decl.name :: partners decl).toFinset := by
    ext name
    simp only [partners, Finset.mem_union, List.mem_toFinset, List.mem_flatMap, List.mem_cons,
      List.mem_append, List.not_mem_nil, or_false]
    constructor
    · rintro ((hname | ⟨f, hf, rfl | rfl⟩) | hname) <;> tauto
    · rintro (hname | hname | hname | hname)
      · tauto
      · tauto
      · exact .inl (.inr ⟨name, hname, .inr rfl⟩)
      · tauto
  obtain ⟨s₂, hbases, _, hs₂⟩ := visitBases_spec decl _ _ _ s₁ hs₁ trivial (hset ▸ hroom)
  refine ⟨s₂, ?_, hs₂.congr hset (fun name => by simp [hcontext]) fun a b => ?_⟩
  · simp only [visitCXXRecordDecl, if_pos hvisited, hfirst, hcontext, Bool.not_false,
      Bool.and_self, if_true]
    rw [hfields]
    exact hbases
  · simp only [hcomm, partners, List.mem_append, or_and_right, exists_or, or_assoc]

/-- A later visit, or one without fields: only the bases. -/
theorem visitCXXRecordDecl_later {decl : CXXRecordDecl} (hvisited : isVisited decl)
    (hlater : ¬ (!s.hasVisitedField.contains decl.name && !decl.info.isDependentContext) = true)
    (h : Numbered known fields edges s)
    (hroom : (known ∪ (decl.name :: partners decl).toFinset).card ≤ MAX_NUM_CLASS)
    (hknown : ∀ field ∈ zeroFields decl, field ∈ known ∧ edges decl.name field ∧
      edges field decl.name) :
    ∃ s', visitCXXRecordDecl decl s = some s' ∧
      Numbered (known ∪ (decl.name :: partners decl).toFinset)
        (fun name => fields name ∨ decl.info.isDependentContext = false ∧ name = decl.name)
        (fun a b => edges a b ∨ ∃ p ∈ partners decl, JoinBoth p decl.name a b) s' := by
  have hset : known ∪ (decl.name :: namedBases decl).toFinset =
      known ∪ (decl.name :: partners decl).toFinset := by
    ext name
    simp only [partners, Finset.mem_union, List.mem_toFinset, List.mem_cons, List.mem_append]
    constructor
    · tauto
    · rintro (hname | hname | hname | hname)
      · tauto
      · tauto
      · exact .inl (hknown name hname).1
      · tauto
  obtain ⟨s₂, hbases, _, hs₂⟩ := visitBases_spec decl _ _ _ s h trivial (hset ▸ hroom)
  refine ⟨s₂, ?_, hs₂.congr hset (fun name => ?_) fun a b => ?_⟩
  · simp only [visitCXXRecordDecl, if_pos hvisited]
    rw [if_neg hlater]
    exact hbases
  · constructor
    · exact .inl
    · rintro (hname | ⟨hcontext, rfl⟩)
      · exact hname
      · simp only [hcontext, Bool.not_false, Bool.and_true, Bool.not_eq_true'] at hlater
        exact (h.fields_iff _).mp (by simpa using hlater)
  · constructor
    · rintro (hedge | ⟨p, hp, hjoin⟩)
      · exact .inl hedge
      · exact .inr ⟨p, List.mem_append_right _ hp, hjoin⟩
    · rintro (hedge | ⟨p, hp, hjoin⟩)
      · exact .inl hedge
      · rcases List.mem_append.mp hp with hp | hp
        · -- a field was joined when it was visited
          obtain ⟨_, hto, hfrom⟩ := hknown p hp
          rcases hjoin with ⟨rfl, rfl⟩ | ⟨rfl, rfl⟩
          · exact .inl hfrom
          · exact .inl hto
        · exact .inr ⟨p, hp, hjoin⟩

/-- **`VisitCXXRecordDecl`.**  On a declaration it does not skip, it makes the class
and its partners known and joins the class to each of them, provided that the fields
are visited now or were joined before. -/
theorem visitCXXRecordDecl_spec {decl : CXXRecordDecl} (hvisited : isVisited decl)
    (h : Numbered known fields edges s)
    (hroom : (known ∪ (decl.name :: partners decl).toFinset).card ≤ MAX_NUM_CLASS)
    (hbefore : fields decl.name → ∀ field ∈ zeroFields decl, field ∈ known ∧
      edges decl.name field ∧ edges field decl.name) :
    ∃ s', visitCXXRecordDecl decl s = some s' ∧
      Numbered (known ∪ (decl.name :: partners decl).toFinset)
        (fun name => fields name ∨ decl.info.isDependentContext = false ∧ name = decl.name)
        (fun a b => edges a b ∨ ∃ p ∈ partners decl, JoinBoth p decl.name a b) s' := by
  by_cases hfirst : (!s.hasVisitedField.contains decl.name &&
      !decl.info.isDependentContext) = true
  · obtain ⟨hnew, hcontext⟩ := Bool.and_eq_true_iff.mp hfirst
    exact visitCXXRecordDecl_first hvisited (by simpa using hcontext) (by simpa using hnew) h hroom
  · apply visitCXXRecordDecl_later hvisited hfirst h hroom
    intro field hfield
    cases hcontext : decl.info.isDependentContext with
    | true => simp [zeroFields, hcontext] at hfield
    | false =>
        simp only [hcontext, Bool.not_false, Bool.and_true, Bool.not_eq_true'] at hfirst
        exact hbefore ((h.fields_iff _).mp (by simpa using hfirst)) field hfield

/-- The edges `addRelationShip` writes for a class and a base. -/
def JoinOneWay (current base : Name) : Name → Name → Prop :=
  fun a b => a = current ∧ b = current ∨ a = base ∧ b = current

/-- One base. -/
theorem relateBase_spec (current base : CXXRecordDecl) (currentDeclIndex : ℕ) :
    Records (HasIndex current.name currentDeclIndex)
      (fun s => relateBase current currentDeclIndex s base) [base.name]
      (JoinOneWay current.name base.name) := by
  simp only [relateBase]
  have hcurrent := stable_hasIndex current.name currentDeclIndex
  apply Records.indexOf hcurrent
  intro currentBaseIndex
  have hpre := hcurrent.and (stable_hasIndex base.name currentBaseIndex)
  have hfamily := ((Records.setFamily (fun _ h => h.2) fun _ h => h.1).bind hpre
    ((Records.setFamily (fun _ h => h.1) fun _ h => h.2).bind hpre
      (phantoms_spec hpre (fun _ h => h.1) (fun _ h => h.2) (sameLayoutSize current base))))
  refine ((Records.setGraph (fun _ h => h.1) fun _ h => h.1).bind hpre
    ((Records.setGraph (fun _ h => h.2) fun _ h => h.1).bind hpre hfamily)).congr (by simp) ?_
  intro a b
  simp [noPairs, JoinOneWay]

/-- `addRelationShip` for a class with all its bases. -/
theorem relateClass_spec (decl : CXXRecordDecl) :
    Records (fun _ => True) (relateClass decl) (decl.name :: (collectAllBases decl).map name)
      (fun a b => ∃ base ∈ collectAllBases decl, JoinOneWay decl.name base.name a b) := by
  change Records _ (fun s => relateBases (collectAllBases decl) decl (s.indexOf decl.name).1
    (s.indexOf decl.name).2) _ _
  apply Records.indexOf stable_true
  intro declIndex
  have hpre := stable_true.and (stable_hasIndex decl.name declIndex)
  have hbases : Records (fun s => True ∧ HasIndex decl.name declIndex s)
      (fun s => (collectAllBases decl).foldlM (relateBase decl declIndex) s)
      ((collectAllBases decl).flatMap fun base => [base.name])
      (fun a b => ∃ base ∈ collectAllBases decl, JoinOneWay decl.name base.name a b) :=
    Records.foldlM hpre _ fun base _ known fields edges s hs hs_pre =>
      relateBase_spec decl base declIndex known fields edges s hs hs_pre.2
  refine (hbases.bind hpre (Records.addRelations decl.name _)).congr ?_ (by simp [noPairs])
  simp [eq_comm]

/-- The names a cast mentions. -/
def CastExpr.mentions (expr : CastExpr) : List Name :=
  expr.related.flatMap fun decl => decl.name :: (collectAllBases decl).map name

/-- **`VisitCastExpr`.** -/
theorem visitCastExpr_spec (expr : CastExpr) :
    Records (fun _ => True) (visitCastExpr expr) expr.mentions
      (fun a b => ∃ decl ∈ expr.related, ∃ base ∈ collectAllBases decl,
        JoinOneWay decl.name base.name a b) := by
  have hrelated := Records.foldlM stable_true expr.related fun decl _ => relateClass_spec decl
  intro known fields edges s hs _ hroom
  cases expr with
  | baseToDerived location derived based =>
      exact hrelated known fields edges (recordDownCast location derived based s) { hs with }
        trivial hroom
  | derivedToBase derived => exact hrelated known fields edges s hs trivial hroom
  | bitCast dest src => exact hrelated known fields edges s hs trivial hroom
  | other => exact hrelated known fields edges s hs trivial hroom

/-! ## Numbering in every run

What follows holds of every run, with room or without. -/

/-- The numbering is the same. -/
def SameNames (s s' : Collector) : Prop :=
  s'.classCode = s.classCode ∧ s'.numberName = s.numberName ∧ s'.currentIndex = s.currentIndex

theorem SameNames.trans {s s' s'' : Collector} (h : SameNames s s') (h' : SameNames s' s'') :
    SameNames s s'' :=
  ⟨h'.1.trans h.1, h'.2.1.trans h.2.1, h'.2.2.trans h.2.2⟩

theorem NamesNumbered.same {s s' : Collector} (h : NamesNumbered s) (hsame : SameNames s s') :
    NamesNumbered s' := by
  obtain ⟨hcode, hname, hindex⟩ := hsame
  refine ⟨?_, ?_⟩
  · rw [hcode, hname]
    exact h.code_iff
  · rw [hindex, hname]
    exact h.index_iff

theorem setGraph_same {s s' : Collector} {i j : ℕ} (h : s.setGraph i j = some s') :
    SameNames s s' := by
  obtain ⟨_, _, rfl⟩ := Option.map_eq_some_iff.mp h
  exact ⟨rfl, rfl, rfl⟩

theorem setFamily_same {s s' : Collector} {i j : ℕ} (h : s.setFamily i j = some s') :
    SameNames s s' := by
  obtain ⟨_, _, rfl⟩ := Option.map_eq_some_iff.mp h
  exact ⟨rfl, rfl, rfl⟩

theorem setPhantoms_same {s s' : Collector} {i j : ℕ} (h : s.setPhantoms i j = some s') :
    SameNames s s' := by
  obtain ⟨_, _, rfl⟩ := Option.map_eq_some_iff.mp h
  exact ⟨rfl, rfl, rfl⟩

/-- The edges of a pair of classes; both ways of writing them end alike. -/
theorem pairs_same {s₁ s₅ : Collector} {sameSize : Bool} {i j k l a b c d : ℕ}
    (h : (do
      let s ← s₁.setFamily i j
      let s ← s.setFamily k l
      if sameSize then do
        let s ← s.setPhantoms a b
        s.setPhantoms c d
      else some s) = some s₅) : SameNames s₁ s₅ := by
  simp only [Option.bind_eq_bind, Option.bind_eq_some_iff] at h
  obtain ⟨s₂, h₂, s₃, h₃, h⟩ := h
  have hsame := (setFamily_same h₂).trans (setFamily_same h₃)
  split at h
  · obtain ⟨s₄, h₄, h₅⟩ := Option.bind_eq_some_iff.mp h
    exact hsame.trans ((setPhantoms_same h₄).trans (setPhantoms_same h₅))
  · exact Option.some.inj h ▸ hsame

theorem joinPair_same {s s' : Collector} {sameSize : Bool} {i j : ℕ}
    (h : joinPair sameSize i j s = some s') : SameNames s s' := by
  obtain ⟨s₁, h₁, h⟩ := Option.bind_eq_some_iff.mp h
  obtain ⟨s₂, h₂, h⟩ := Option.bind_eq_some_iff.mp h
  exact ((setGraph_same h₁).trans (setGraph_same h₂)).trans (pairs_same h)

theorem relatePair_same {s s' : Collector} {sameSize : Bool} {i j : ℕ}
    (h : relatePair sameSize i j s = some s') : SameNames s s' := by
  obtain ⟨s₁, h₁, h⟩ := Option.bind_eq_some_iff.mp h
  obtain ⟨s₂, h₂, h⟩ := Option.bind_eq_some_iff.mp h
  exact ((setGraph_same h₁).trans (setGraph_same h₂)).trans (pairs_same h)

theorem addRelations_same (s : Collector) (declName : Name) (tempBaseVec : List Name) :
    SameNames s (s.addRelations declName tempBaseVec) := by
  unfold Collector.addRelations
  split
  · split <;> exact ⟨rfl, rfl, rfl⟩
  · exact ⟨rfl, rfl, rfl⟩

/-- `act` keeps the numbering sound if it returns. -/
def KeepsNames (act : Collector → Option Collector) : Prop :=
  ∀ s s', NamesNumbered s → act s = some s' → NamesNumbered s'

theorem KeepsNames.foldlM {α : Type} {act : Collector → α → Option Collector}
    (h : ∀ a, KeepsNames fun s => act s a) : ∀ l : List α, KeepsNames fun s => l.foldlM act s := by
  intro l
  induction l with
  | nil => exact fun s s' hs hact => Option.some.inj hact ▸ hs
  | cons a rest ih =>
      intro s s' hs hact
      obtain ⟨next, hnext, hrest⟩ := Option.bind_eq_some_iff.mp hact
      exact ih next s' (h a s next hs hnext) hrest

theorem indexOrExit_named {s s' : Collector} {name : Name} {i : ℕ} (hs : NamesNumbered s)
    (h : s.indexOrExit name = some (i, s')) : NamesNumbered s' := by
  unfold Collector.indexOrExit at h
  split at h
  · cases h
    exact hs
  · split at h
    · cases h
    · have := (indexOf_named hs name).1
      rwa [Option.some.inj h] at this

theorem joinField_keeps (declName : Name) (field : FieldDecl) :
    KeepsNames fun s => joinField declName s field := by
  intro s s' hs hact
  unfold joinField at hact
  split at hact
  · obtain ⟨⟨declIndex, s₁⟩, h₁, hact⟩ := Option.bind_eq_some_iff.mp hact
    obtain ⟨⟨fieldIndex, s₂⟩, h₂, hact⟩ := Option.bind_eq_some_iff.mp hact
    obtain ⟨s₃, h₃, h₄⟩ := Option.bind_eq_some_iff.mp hact
    have hs₂ := indexOrExit_named (indexOrExit_named hs h₁) h₂
    exact hs₂.same ((setGraph_same h₃).trans (setGraph_same h₄))
  · exact Option.some.inj hact ▸ hs

theorem joinBase_keeps (decl base : CXXRecordDecl) (declIndex : ℕ) :
    KeepsNames fun s => joinBase decl declIndex s base := by
  intro s s' hs hact
  unfold joinBase at hact
  split at hact
  · exact Option.some.inj hact ▸ hs
  · exact (indexOf_named hs base.name).1.same (joinPair_same hact)

theorem visitBases_keeps (decl : CXXRecordDecl) (declIndex : ℕ) :
    KeepsNames (visitBases decl declIndex) := by
  intro s s' hs hact
  obtain ⟨s₁, h₁, hact⟩ := Option.bind_eq_some_iff.mp hact
  obtain rfl := Option.some.inj hact
  exact (KeepsNames.foldlM (fun base => joinBase_keeps decl base declIndex) _ s s₁ hs h₁).same
    (addRelations_same s₁ _ _)

theorem visitFields_keeps (decl : CXXRecordDecl) : KeepsNames (visitFields decl) := by
  intro s s' hs hact
  unfold visitFields at hact
  split at hact
  · have hfields := KeepsNames.foldlM (joinField_keeps decl.name) decl.info.fields
    refine hfields _ s' ?_ hact
    exact hs.same ⟨rfl, rfl, rfl⟩
  · obtain rfl := Option.some.inj hact
    exact hs.same ⟨rfl, rfl, rfl⟩

theorem visitCXXRecordDecl_keeps (decl : CXXRecordDecl) : KeepsNames (visitCXXRecordDecl decl) := by
  intro s s' hs hact
  have hrest : ∀ s₁, NamesNumbered s₁ →
      visitBases decl (s₁.indexOf decl.name).1 (s₁.indexOf decl.name).2 = some s' →
      NamesNumbered s' :=
    fun s₁ hs₁ h => visitBases_keeps decl _ _ s' (indexOf_named hs₁ decl.name).1 h
  unfold visitCXXRecordDecl at hact
  split at hact
  · dsimp only at hact
    split at hact
    · obtain ⟨s₁, h₁, hact⟩ := Option.bind_eq_some_iff.mp hact
      exact hrest s₁ (visitFields_keeps decl s s₁ hs h₁) hact
    · exact hrest s hs hact
  · exact Option.some.inj hact ▸ hs

theorem relateClass_keeps (decl : CXXRecordDecl) : KeepsNames (relateClass decl) := by
  intro s s' hs hact
  obtain ⟨s₁, h₁, hact⟩ := Option.bind_eq_some_iff.mp hact
  obtain rfl := Option.some.inj hact
  have hbase : ∀ base, KeepsNames fun s₀ => relateBase decl (s.indexOf decl.name).1 s₀ base :=
    fun base s₀ s₁ hs₀ hact => (indexOf_named hs₀ base.name).1.same (relatePair_same hact)
  refine NamesNumbered.same ?_ (addRelations_same s₁ _ _)
  exact KeepsNames.foldlM hbase _ _ s₁ (indexOf_named hs decl.name).1 h₁

theorem visitCastExpr_keeps (expr : CastExpr) : KeepsNames (visitCastExpr expr) := by
  intro s s' hs hact
  refine KeepsNames.foldlM relateClass_keeps expr.related _ s' ?_ hact
  cases expr <;> exact hs.same ⟨rfl, rfl, rfl⟩

/-- **Names are numbered soundly in every run.** -/
theorem run_named {visits : List Visit} {s : Collector}
    (hrun : traversal.run visits Collector.empty = some s) : NamesNumbered s := by
  refine traversal.run_of_step (fun v s s' hs hstep => ?_) visits _ s namesNumbered_empty hrun
  cases v with
  | recordDecl decl => exact visitCXXRecordDecl_keeps decl s s' hs hstep
  | castExpr expr => exact visitCastExpr_keeps expr s s' hs hstep

end Bitype.Tool
