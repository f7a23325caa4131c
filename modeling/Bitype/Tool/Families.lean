import Bitype.Foundations.GraphSearch
import Bitype.Tool.Numbering

/-!
# Families

`DFS` splits the numbered names into families along `graph`.  `VisitCXXRecordDecl`
writes every edge both ways; `addRelationShip` means to, but writes the class's
number twice in the first of its two assignments and leaves an edge from each base to
the class only.  A search that starts at the class does not find the base.

`Orderly` is the condition on a sequence of visits under which no harm is done: what
`addRelationShip` joined one way is connected both ways by what `VisitCXXRecordDecl`
joined.  It speaks of the set of visits, not of their order.  `families_sound` is the
result: the families are the classes of the relation "connected by edges", so related
classes share a family and the order of the visits does not matter.
-/

namespace Bitype.Tool

open CXXRecordDecl Bitype.Foundations

/-- `DFS`, with the globals it reads as arguments. -/
def DFS (graphtemp : ℕ → ℕ → Bool) (currentIndex : ℕ) : Option (List (List ℕ)) :=
  components graphtemp currentIndex

/-! ## What a visit records, in terms of names -/

/-- The names a visit mentions. -/
def Visit.mentions : Visit → List Name
  | .recordDecl decl => if isVisited decl then decl.name :: partners decl else []
  | .castExpr expr => expr.mentions

/-- The pairs a visit joins both ways. -/
def Visit.joined : Visit → List (Name × Name)
  | .recordDecl decl => if isVisited decl then (partners decl).map (decl.name, ·) else []
  | .castExpr _ => []

/-- The pairs of a class and a base that a visit joins one way. -/
def Visit.related : Visit → List (Name × Name)
  | .recordDecl _ => []
  | .castExpr expr =>
      expr.related.flatMap fun decl => (collectAllBases decl).map fun base => (decl.name, base.name)

/-- The classes whose bases a visit records. -/
def Visit.classes : Visit → List CXXRecordDecl
  | .recordDecl decl => if isVisited decl then [decl] else []
  | .castExpr expr => expr.related

def namesOf (visits : List Visit) : Finset Name := (visits.flatMap Visit.mentions).toFinset

/-- The names whose fields have been visited. -/
def FieldsVisited (visits : List Visit) (name : Name) : Prop :=
  ∃ decl, Visit.recordDecl decl ∈ visits ∧ isVisited decl ∧
    decl.info.isDependentContext = false ∧ name = decl.name

/-- Joined both ways by some visit. -/
def TwoWay (visits : List Visit) (a b : Name) : Prop :=
  ∃ v ∈ visits, (a, b) ∈ v.joined ∨ (b, a) ∈ v.joined

/-- The edges of `graph` after the visits. -/
def Edge (visits : List Visit) (a b : Name) : Prop :=
  TwoWay visits a b ∨ ∃ v ∈ visits, ∃ p ∈ v.related, JoinOneWay p.1 p.2 a b

/-- The condition on the visits. -/
structure Orderly (visits : List Visit) : Prop where
  /-- There is room for all names. -/
  fits : (namesOf visits).card ≤ MAX_NUM_CLASS
  /-- Declarations of one name have the same fields at offset zero. -/
  sameFields : ∀ decl decl', .recordDecl decl ∈ visits → .recordDecl decl' ∈ visits →
    isVisited decl → isVisited decl' → decl.info.isDependentContext = false →
    decl'.info.isDependentContext = false → decl.name = decl'.name →
    ∀ field ∈ zeroFields decl', field ∈ zeroFields decl
  /-- What is joined one way is connected both ways. -/
  covered : ∀ v ∈ visits, ∀ p ∈ v.related, Relation.ReflTransGen (TwoWay visits) p.1 p.2

/-- Two names are in one family. -/
def SameFamily (s : Collector) (result : List (List ℕ)) (a b : Name) : Prop :=
  ∃ i j, HasIndex a i s ∧ HasIndex b j s ∧ SameSet result i j

/-- A class is in the family of each of its named transitive bases, if a visit recorded
the class's bases. -/
def RelatedTogether (visits : List Visit) (s : Collector) (result : List (List ℕ)) : Prop :=
  ∀ v ∈ visits, ∀ decl ∈ v.classes, ∀ base, TransitiveBase decl base → base.name ≠ [] →
    SameFamily s result decl.name base.name

/-- The traversal returns, its families are connected, and any traversal that makes the
same visits in another order or number gives the same families. -/
def FamiliesSound (visits : List Visit) : Prop :=
  ∃ s result, traversal.run visits Collector.empty = some s ∧
    DFS s.graph s.currentIndex = some result ∧ RelatedTogether visits s result ∧
    ∀ visits', (∀ v, v ∈ visits' ↔ v ∈ visits) →
      ∃ s' result', traversal.run visits' Collector.empty = some s' ∧
        DFS s'.graph s'.currentIndex = some result' ∧
        ∀ a b, SameFamily s result a b ↔ SameFamily s' result' a b

/-! ## Only the set of visits matters -/

section Sets

variable {visits visits' : List Visit} (h : ∀ v, v ∈ visits' ↔ v ∈ visits)
include h

theorem namesOf_congr : namesOf visits' = namesOf visits := by
  ext name
  simp only [namesOf, List.mem_toFinset, List.mem_flatMap, h]

theorem twoWay_congr : TwoWay visits' = TwoWay visits := by
  funext a b
  simp only [TwoWay, h]

theorem edge_congr : Edge visits' = Edge visits := by
  funext a b
  simp only [Edge, twoWay_congr h, h]

theorem Orderly.congr (horderly : Orderly visits) : Orderly visits' := by
  refine ⟨?_, ?_, ?_⟩
  · rw [namesOf_congr h]
    exact horderly.fits
  · simp only [h]
    exact horderly.sameFields
  · simp only [h, twoWay_congr h]
    exact horderly.covered

end Sets

/-! ## One visit -/

theorem namesOf_append (visits : List Visit) (v : Visit) :
    namesOf (visits ++ [v]) = namesOf visits ∪ v.mentions.toFinset := by
  simp [namesOf, List.flatMap_append]

theorem edge_append (visits : List Visit) (v : Visit) (a b : Name) :
    Edge (visits ++ [v]) a b ↔ Edge visits a b ∨
      (((a, b) ∈ v.joined ∨ (b, a) ∈ v.joined) ∨ ∃ p ∈ v.related, JoinOneWay p.1 p.2 a b) := by
  simp only [Edge, TwoWay, List.mem_append, List.mem_singleton, or_and_right, exists_or,
    exists_eq_left]
  exact or_or_or_comm

/-- The pairs a declaration joins. -/
theorem joined_recordDecl {decl : CXXRecordDecl} (hvisited : isVisited decl) (a b : Name) :
    ((a, b) ∈ (Visit.recordDecl decl).joined ∨ (b, a) ∈ (Visit.recordDecl decl).joined) ↔
      ∃ p ∈ partners decl, JoinBoth p decl.name a b := by
  simp only [Visit.joined, if_pos hvisited, List.mem_map, Prod.mk.injEq, JoinBoth]
  constructor
  · rintro (⟨p, hp, rfl, rfl⟩ | ⟨p, hp, rfl, rfl⟩)
    · exact ⟨p, hp, .inr ⟨rfl, rfl⟩⟩
    · exact ⟨p, hp, .inl ⟨rfl, rfl⟩⟩
  · rintro ⟨p, hp, ⟨rfl, rfl⟩ | ⟨rfl, rfl⟩⟩
    · exact .inr ⟨a, hp, rfl, rfl⟩
    · exact .inl ⟨b, hp, rfl, rfl⟩

/-- The pairs a cast relates. -/
theorem related_castExpr (expr : CastExpr) (a b : Name) :
    (∃ p ∈ (Visit.castExpr expr).related, JoinOneWay p.1 p.2 a b) ↔
      ∃ decl ∈ expr.related, ∃ base ∈ collectAllBases decl, JoinOneWay decl.name base.name a b := by
  simp only [Visit.related, List.mem_flatMap, List.mem_map]
  constructor
  · rintro ⟨_, ⟨decl, hdecl, base, hbase, rfl⟩, hjoin⟩
    exact ⟨decl, hdecl, base, hbase, hjoin⟩
  · rintro ⟨decl, hdecl, base, hbase, hjoin⟩
    exact ⟨_, ⟨decl, hdecl, base, hbase, rfl⟩, hjoin⟩

theorem fieldsVisited_append (visits : List Visit) (v : Visit) (name : Name) :
    FieldsVisited (visits ++ [v]) name ↔ FieldsVisited visits name ∨
      ∃ decl, .recordDecl decl = v ∧ isVisited decl ∧ decl.info.isDependentContext = false ∧
        name = decl.name := by
  simp only [FieldsVisited, List.mem_append, List.mem_singleton, or_and_right, exists_or]

/-- **A visit adds what it records.** -/
theorem step_numbered {all done : List Visit} {v : Visit} {s : Collector}
    (horderly : Orderly all) (hdone : ∀ w ∈ done ++ [v], w ∈ all)
    (h : Numbered (namesOf done) (FieldsVisited done) (Edge done) s) :
    ∃ s', traversal.step v s = some s' ∧
      Numbered (namesOf (done ++ [v])) (FieldsVisited (done ++ [v])) (Edge (done ++ [v])) s' := by
  have hroom : (namesOf done ∪ v.mentions.toFinset).card ≤ MAX_NUM_CLASS := by
    rw [← namesOf_append]
    refine (Finset.card_le_card fun name hname => ?_).trans horderly.fits
    simp only [namesOf, List.mem_toFinset, List.mem_flatMap] at hname ⊢
    obtain ⟨w, hw, hname⟩ := hname
    exact ⟨w, hdone w hw, hname⟩
  cases v with
  | recordDecl decl =>
      by_cases hvisited : isVisited decl
      · simp only [Visit.mentions, if_pos hvisited] at hroom
        have hbefore : FieldsVisited done decl.name → ∀ field ∈ zeroFields decl,
            field ∈ namesOf done ∧ Edge done decl.name field ∧ Edge done field decl.name := by
          -- an earlier declaration of the name joined the same fields
          rintro ⟨decl', hdecl', hvisited', hcontext', hname⟩ field hfield
          have hcontext : decl.info.isDependentContext = false := by
            by_contra hdependent
            simp [zeroFields, hdependent] at hfield
          have hfield' : field ∈ partners decl' := List.mem_append_left _
            (horderly.sameFields decl' decl (hdone _ (List.mem_append_left _ hdecl'))
              (hdone _ (by simp)) hvisited' hvisited hcontext' hcontext hname.symm field hfield)
          have hedge : ∀ a b, JoinBoth field decl'.name a b → Edge done a b := fun a b hjoin =>
            .inl ⟨_, hdecl', (joined_recordDecl hvisited' a b).mpr ⟨field, hfield', hjoin⟩⟩
          refine ⟨?_, hname ▸ hedge _ _ (.inr ⟨rfl, rfl⟩), hname ▸ hedge _ _ (.inl ⟨rfl, rfl⟩)⟩
          simp only [namesOf, List.mem_toFinset, List.mem_flatMap]
          refine ⟨_, hdecl', ?_⟩
          rw [Visit.mentions, if_pos hvisited']
          exact List.mem_cons_of_mem _ hfield'
        obtain ⟨s', hact, hs'⟩ := visitCXXRecordDecl_spec hvisited h hroom hbefore
        refine ⟨s', hact, hs'.congr ?_ (fun name => ?_) fun a b => ?_⟩
        · rw [namesOf_append, Visit.mentions, if_pos hvisited]
        · rw [fieldsVisited_append]
          refine or_congr_right ⟨fun h => ⟨decl, rfl, hvisited, h.1, h.2⟩, ?_⟩
          rintro ⟨_, ⟨⟩, _, hcontext, hname⟩
          exact ⟨hcontext, hname⟩
        · rw [edge_append, joined_recordDecl hvisited]
          simp [Visit.related]
      · refine ⟨s, by simp [traversal, Visit.step, visitCXXRecordDecl, hvisited], ?_⟩
        refine h.congr ?_ (fun name => ?_) fun a b => ?_
        · simp [namesOf_append, Visit.mentions, hvisited]
        · rw [fieldsVisited_append]
          simp [hvisited]
        · rw [edge_append]
          simp [Visit.joined, Visit.related, hvisited]
  | castExpr expr =>
      obtain ⟨s', hact, _, hs'⟩ := visitCastExpr_spec expr _ _ _ s h trivial hroom
      refine ⟨s', hact, hs'.congr ?_ (fun name => ?_) fun a b => ?_⟩
      · rw [namesOf_append]
        rfl
      · rw [fieldsVisited_append]
        simp
      · rw [edge_append, related_castExpr]
        simp [Visit.joined]

/-- **A run adds what its visits record.** -/
theorem run_numbered {all : List Visit} (horderly : Orderly all) :
    ∀ (rest done : List Visit) (s : Collector), (∀ w ∈ done ++ rest, w ∈ all) →
      Numbered (namesOf done) (FieldsVisited done) (Edge done) s →
      ∃ s', traversal.run rest s = some s' ∧
        Numbered (namesOf (done ++ rest)) (FieldsVisited (done ++ rest)) (Edge (done ++ rest)) s' := by
  intro rest
  induction rest with
  | nil =>
      intro done s _ h
      rw [List.append_nil]
      exact ⟨s, rfl, h⟩
  | cons v rest ih =>
      intro done s hdone h
      have hsplit : done ++ v :: rest = done ++ [v] ++ rest := by simp
      rw [hsplit] at hdone ⊢
      obtain ⟨s₁, hstep, hs₁⟩ :=
        step_numbered horderly (fun w hw => hdone w (List.mem_append_left _ hw)) h
      obtain ⟨s', hrun, hs'⟩ := ih _ s₁ hdone hs₁
      exact ⟨s', by rw [Machine.run_cons, hstep]; exact hrun, hs'⟩

/-! ## Families -/

theorem twoWay_symm {visits : List Visit} {a b : Name} (h : TwoWay visits a b) :
    TwoWay visits b a := by
  obtain ⟨v, hv, hpair⟩ := h
  exact ⟨v, hv, hpair.symm⟩

/-- What is connected both ways is connected by edges. -/
theorem twoWay_path {visits : List Visit} {a b : Name}
    (h : Relation.ReflTransGen (TwoWay visits) a b) : Relation.ReflTransGen (Edge visits) a b :=
  Relation.ReflTransGen.mono (fun _ _ hedge => .inl hedge) _ _ h

/-- In an orderly run every edge can be undone. -/
theorem edge_back {visits : List Visit} (horderly : Orderly visits) {a b : Name}
    (h : Edge visits a b) : Relation.ReflTransGen (Edge visits) b a := by
  rcases h with htwo | ⟨v, hv, p, hp, ⟨rfl, rfl⟩ | ⟨rfl, rfl⟩⟩
  · exact .single (.inl (twoWay_symm htwo))
  · exact .refl
  · exact twoWay_path (horderly.covered v hv p hp)

/-- Connected by edges. -/
theorem connected_symm {visits : List Visit} (horderly : Orderly visits) {a b : Name}
    (h : Relation.ReflTransGen (Edge visits) a b) : Relation.ReflTransGen (Edge visits) b a := by
  induction h with
  | refl => exact .refl
  | tail _ hedge ih => exact (edge_back horderly hedge).trans ih

/-- **Paths over numbers are paths over names**, in a matrix with the edges between names. -/
theorem reach_names {adjacent : ℕ → ℕ → Bool} {edges : Name → Name → Prop} {s : Collector}
    (hs : NamesNumbered s) (hknown : ∀ a b, edges a b → ∃ i, HasIndex a i s)
    (hadjacent : ∀ i j, adjacent i j = true ↔ ∃ a b, HasIndex a i s ∧ HasIndex b j s ∧ edges a b)
    {a b : Name} {i j : ℕ} (ha : HasIndex a i s) (hb : HasIndex b j s) :
    Reach adjacent s.currentIndex i j ↔ Relation.ReflTransGen edges a b := by
  -- a number stands for one name
  have hname : ∀ {c d : Name} {n : ℕ}, HasIndex c n s → HasIndex d n s → c = d := fun hc hd =>
    Option.some.inj (((hs.code_iff _ _).mp hc).symm.trans ((hs.code_iff _ _).mp hd))
  constructor
  · intro hreach
    induction hreach generalizing b with
    | refl => rw [hname ha hb]
    | tail _ hedge ih =>
        obtain ⟨c, d, hc, hd, hcd⟩ := (hadjacent _ _).mp hedge.2
        rw [hname hb hd]
        exact (ih hc).tail hcd
  · intro hpath
    induction hpath generalizing j with
    | refl =>
        rw [Option.some.inj (ha.symm.trans hb)]
        exact .refl
    | tail _ hedge ih =>
        obtain ⟨n, hn⟩ := hknown _ _ hedge
        refine (ih hn).tail ⟨(hs.index_iff j).mpr ⟨_, (hs.code_iff _ _).mp hb⟩, ?_⟩
        exact (hadjacent n j).mpr ⟨_, _, hn, hb, hedge⟩

/-- Paths in `graph`. -/
theorem reach_iff {known : Finset Name} {fields : Name → Prop} {edges : Name → Name → Prop}
    {s : Collector} (h : Numbered known fields edges s) {a b : Name} {i j : ℕ}
    (ha : HasIndex a i s) (hb : HasIndex b j s) :
    Reach s.graph s.currentIndex i j ↔ Relation.ReflTransGen edges a b :=
  reach_names ⟨h.code_iff, h.index_iff⟩
    (fun a b hedge => (h.known_iff a).mp (h.edges_known a b hedge).1) h.graph_iff ha hb

/-- **The families of an orderly run** are the classes of connected names. -/
theorem families_spec {visits : List Visit} (horderly : Orderly visits) :
    ∃ s result, traversal.run visits Collector.empty = some s ∧
      DFS s.graph s.currentIndex = some result ∧
      ∀ a b, SameFamily s result a b ↔
        a ∈ namesOf visits ∧ Relation.ReflTransGen (Edge visits) a b := by
  have hempty : Numbered (namesOf []) (FieldsVisited []) (Edge []) Collector.empty :=
    numbered_empty.congr rfl (fun _ => by simp [FieldsVisited]) fun _ _ => by simp [Edge, TwoWay]
  obtain ⟨s, hrun, hs⟩ := run_numbered horderly visits [] _ (fun _ hw => hw) hempty
  rw [List.nil_append] at hs
  obtain ⟨result, hresult, _, hclasses⟩ := components_spec s.graph s.currentIndex
  -- edges go both ways, so what reaches is reached
  have hsymm : ∀ i < s.currentIndex, ∀ j, Reach s.graph s.currentIndex i j →
      Reach s.graph s.currentIndex j i := by
    intro i hi j hreach
    obtain ⟨a, ha⟩ := (hs.index_iff i).mp hi
    obtain ⟨b, hb⟩ := (hs.index_iff j).mp (hreach.lt hi)
    rw [← hs.code_iff] at ha hb
    exact (reach_iff hs hb ha).mpr (connected_symm horderly ((reach_iff hs ha hb).mp hreach))
  refine ⟨s, result, hrun, hresult, fun a b => ⟨?_, ?_⟩⟩
  · rintro ⟨i, j, ha, hb, hsame⟩
    exact ⟨(hs.known_iff a).mpr ⟨i, ha⟩,
      (reach_iff hs ha hb).mp ((hclasses hsymm i j).mp hsame).2⟩
  · rintro ⟨hmem, hpath⟩
    obtain ⟨i, ha⟩ := (hs.known_iff a).mp hmem
    -- a path ends at a name of the run, its last edge says so
    have hb : b ∈ namesOf visits := by
      rcases Relation.ReflTransGen.cases_tail hpath with rfl | ⟨c, _, hedge⟩
      · exact hmem
      · exact (hs.edges_known c b hedge).2
    obtain ⟨j, hb⟩ := (hs.known_iff b).mp hb
    refine ⟨i, j, ha, hb, (hclasses hsymm i j).mpr ⟨?_, (reach_iff hs ha hb).mpr hpath⟩⟩
    exact (hs.index_iff i).mpr ⟨a, (hs.code_iff a i).mp ha⟩

/-- A class and its named bases are connected. -/
theorem classes_connected {visits : List Visit} (horderly : Orderly visits) {v : Visit}
    (hv : v ∈ visits) {decl base : CXXRecordDecl} (hdecl : decl ∈ v.classes)
    (hbase : TransitiveBase decl base) (hnamed : base.name ≠ []) :
    decl.name ∈ namesOf visits ∧ Relation.ReflTransGen (Edge visits) decl.name base.name := by
  have hcollected := mem_collectAllBases.mpr hbase
  have hmentioned : decl.name ∈ v.mentions → decl.name ∈ namesOf visits := fun h =>
    List.mem_toFinset.mpr (List.mem_flatMap.mpr ⟨v, hv, h⟩)
  cases v with
  | recordDecl decl' =>
      by_cases hvisited : isVisited decl'
      · simp only [Visit.classes, if_pos hvisited, List.mem_singleton] at hdecl
        subst hdecl
        -- a base with a name is a partner of its class
        have hpartner : base.name ∈ partners decl := by
          refine List.mem_append_right _ (List.mem_filter.mpr ⟨?_, by simpa using hnamed⟩)
          exact List.mem_map_of_mem hcollected
        refine ⟨hmentioned (by simp [Visit.mentions, hvisited]), .single (.inl ⟨_, hv, ?_⟩)⟩
        exact (joined_recordDecl hvisited _ _).mpr ⟨_, hpartner, .inr ⟨rfl, rfl⟩⟩
      · simp [Visit.classes, hvisited] at hdecl
  | castExpr expr =>
      refine ⟨hmentioned ?_, ?_⟩
      · exact List.mem_flatMap.mpr ⟨decl, hdecl, List.mem_cons_self⟩
      · have hpair : (decl.name, base.name) ∈ (Visit.castExpr expr).related :=
          List.mem_flatMap.mpr ⟨decl, hdecl, List.mem_map.mpr ⟨base, hcollected, rfl⟩⟩
        -- the cast relates the names, but the edges come from visits of the classes
        exact twoWay_path (horderly.covered _ hv _ hpair)

/-- **Families are connected and independent of the order of the visits**, for every
orderly sequence of visits. -/
theorem families_sound {visits : List Visit} (horderly : Orderly visits) :
    FamiliesSound visits := by
  obtain ⟨s, result, hrun, hresult, hfamilies⟩ := families_spec horderly
  refine ⟨s, result, hrun, hresult, ?_, ?_⟩
  · intro v hv decl hdecl base hbase hnamed
    exact (hfamilies _ _).mpr (classes_connected horderly hv hdecl hbase hnamed)
  · intro visits' hsame
    obtain ⟨s', result', hrun', hresult', hfamilies'⟩ := families_spec (horderly.congr hsame)
    refine ⟨s', result', hrun', hresult', fun a b => ?_⟩
    rw [hfamilies, hfamilies', namesOf_congr hsame, edge_congr hsame]

/-- A class without fields. -/
def sampleClass (name : Name) (bases : List CXXRecordDecl) : CXXRecordDecl :=
  .mk
    { name := name, hasDefinition := true, isCompleteDefinition := true
      isAnonymousStructOrUnion := false, isDependentContext := false, isAggregate := false
      isPolymorphic := false, fields := [], size := 8, alignment := 8 } bases

/-- A class `D` with a base `B`. -/
def sampleDerived : CXXRecordDecl := sampleClass ['D'] [sampleClass ['B'] []]

/-- A cast in front of the definition of its class. -/
def sampleVisits : List Visit :=
  [.castExpr (.derivedToBase (some sampleDerived)), .recordDecl sampleDerived]

theorem sampleVisits_orderly : Orderly sampleVisits := by
  refine ⟨by decide, ?_, ?_⟩
  · intro decl decl' hdecl hdecl' _ _ _ _ _ field hfield
    simp only [sampleVisits, List.mem_cons, reduceCtorEq, Visit.recordDecl.injEq, false_or,
      List.not_mem_nil, or_false] at hdecl hdecl'
    rw [hdecl'] at hfield
    rw [hdecl]
    exact hfield
  · intro v hv p hp
    have hpair : p = (['D'], ['B']) := by
      simp only [sampleVisits, List.mem_cons, List.not_mem_nil, or_false] at hv
      rcases hv with rfl | rfl
      · exact List.mem_singleton.mp hp
      · cases hp
    subst hpair
    exact .single ⟨.recordDecl sampleDerived, by simp [sampleVisits], .inl (by decide)⟩

theorem families_sound_sample : FamiliesSound sampleVisits := families_sound sampleVisits_orderly

/-- A class that only a cast visits is not in the family of its base. -/
theorem families_split : ¬ ∀ visits, FamiliesSound visits := by
  intro h
  obtain ⟨s, result, hrun, hresult, hrelated, _⟩ :=
    h [.castExpr (.derivedToBase (some sampleDerived))]
  have hbase : TransitiveBase sampleDerived (sampleClass ['B'] []) :=
    .single (List.mem_singleton.mpr rfl)
  obtain ⟨i, j, hi, hj, S, hS, hiS, hjS⟩ :=
    hrelated _ List.mem_cons_self sampleDerived (by simp [Visit.classes, CastExpr.related])
      _ hbase (by decide)
  obtain ⟨s', hrun', hcode, hcomponents⟩ : ∃ s', traversal.run
      [.castExpr (.derivedToBase (some sampleDerived))] Collector.empty = some s' ∧
      (s'.classCode[(['D'] : Name)]? = some 0 ∧ s'.classCode[(['B'] : Name)]? = some 1) ∧
      DFS s'.graph s'.currentIndex = some [[0], [1]] :=
    ⟨_, rfl, by decide, by decide⟩
  obtain rfl := Option.some.inj (hrun.symm.trans hrun')
  obtain rfl := Option.some.inj (hresult.symm.trans hcomponents)
  obtain rfl := Option.some.inj (hi.symm.trans hcode.1)
  obtain rfl := Option.some.inj (hj.symm.trans hcode.2)
  have hapart : ∀ S ∈ [[0], [1]], ¬ (0 ∈ S ∧ 1 ∈ S) := by decide
  exact hapart S hS ⟨hiS, hjS⟩

end Bitype.Tool
