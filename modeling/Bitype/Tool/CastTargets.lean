import Bitype.Tool.Containment

/-!
# Which classes get a code

`VisitCastExpr` records the target of a downcast if its type is a pointer to a class, and
`codingFunc` gives a code to the whole phantom set of each target.  The phantom sets are drawn
while the classes are visited, from the pairs of a class and a base that have one size.

`coded_iff` says what comes of it, for every run of the tool, whether or not its families are
sound: a class gets a code if and only if a chain of such pairs joins it to a target.
-/

namespace Bitype.Tool

open CXXRecordDecl Bitype.Foundations

/-! ## Phantom sets are coded as a whole -/

section Codes

variable {numberName : Std.TreeMap ℕ Name} {downCastVec : Std.TreeSet Name}
  {phantomSet families : List (List ℕ)} {ground : ℕ → Prop}

/-- All members of a phantom set have codes or none has, and one that has shares its set with
a downcast class. -/
structure CodedBySets (numberName : Std.TreeMap ℕ Name) (downCastVec : Std.TreeSet Name)
    (phantomSet : List (List ℕ)) (result : Std.TreeMap ℕ ℕ) : Prop where
  whole : ∀ c d : ℕ, SameSet phantomSet c d → result[c]? ≠ none → result[d]? ≠ none
  needed : ∀ c : ℕ, result[c]? ≠ none → NeedsCode numberName downCastVec phantomSet c

/-- What the walk over some classes does to the codes. -/
structure Codes (numberName : Std.TreeMap ℕ Name) (downCastVec : Std.TreeSet Name)
    (phantomSet : List (List ℕ)) (classes : List ℕ) (result result' : Std.TreeMap ℕ ℕ) : Prop where
  sets : CodedBySets numberName downCastVec phantomSet result →
    CodedBySets numberName downCastVec phantomSet result'
  downCast : ∀ c ∈ classes, isDownCast numberName downCastVec c = true → result'[c]? ≠ none
  kept : ∀ c : ℕ, result[c]? ≠ none → result'[c]? ≠ none

theorem Codes.nil {result : Std.TreeMap ℕ ℕ} :
    Codes numberName downCastVec phantomSet [] result result :=
  ⟨fun h => h, fun _ hc => absurd hc List.not_mem_nil, fun _ hc => hc⟩

theorem Codes.append {classes classes' : List ℕ} {result result' result'' : Std.TreeMap ℕ ℕ}
    (h : Codes numberName downCastVec phantomSet classes result result')
    (h' : Codes numberName downCastVec phantomSet classes' result' result'') :
    Codes numberName downCastVec phantomSet (classes ++ classes') result result'' where
  sets hsets := h'.sets (h.sets hsets)
  downCast c hc hdown := by
    rcases List.mem_append.mp hc with hc | hc
    · exact h'.kept c (h.downCast c hc hdown)
    · exact h'.downCast c hc hdown
  kept c hc := h'.kept c (h.kept c hc)

/-- The phantom set of a class of a partition. -/
theorem find?_partition (hpartition : IsPartition phantomSet ground) {c : ℕ} (hc : ground c) :
    ∃ P ∈ phantomSet, phantomSet.find? (fun P => decide (c ∈ P)) = some P ∧ c ∈ P := by
  obtain ⟨Q, hQ, hcQ⟩ := List.mem_flatten.mp ((hpartition.cover c).mpr hc)
  have hfound : (phantomSet.find? fun P => decide (c ∈ P)).isSome = true :=
    List.find?_isSome.mpr ⟨Q, hQ, decide_eq_true hcQ⟩
  obtain ⟨P, hP⟩ := Option.isSome_iff_exists.mp hfound
  exact ⟨P, List.mem_of_find?_eq_some hP, hP, by simpa using List.find?_some hP⟩

/-- **One member** leaves no phantom set coded in part. -/
theorem codeMember_codes (hpartition : IsPartition phantomSet ground) {c : ℕ} (hc : ground c)
    (st : FamilyState) : Codes numberName downCastVec phantomSet [c] st.result
      (codeMember numberName downCastVec phantomSet st c).result := by
  unfold codeMember
  split
  · next hno =>
      refine ⟨fun h => h, fun d hd hdown => ?_, fun _ hd => hd⟩
      obtain rfl := List.mem_singleton.mp hd
      rw [hdown] at hno
      cases hno
  next hdown =>
  rw [Bool.not_eq_true', Bool.not_eq_false] at hdown
  split
  · next hold =>
      rw [Std.TreeMap.contains_eq_isSome_getElem?, Option.isSome_iff_ne_none] at hold
      refine ⟨fun h => h, fun d hd _ => ?_, fun _ hd => hd⟩
      exact List.mem_singleton.mp hd ▸ hold
  · obtain ⟨P, hP, hfind, hcP⟩ := find?_partition hpartition hc
    rw [hfind]
    -- the set of the class is coded, and nothing else changes
    have hresult : ∀ d : ℕ, ((insertAll st.result P st.currentIndex).insertIfNew c
        st.currentIndex)[d]? ≠ none ↔ d ∈ P ∨ st.result[d]? ≠ none := by
      intro d
      rw [getElem?_insertIfNew, getElem?_insertAll]
      by_cases hdP : d ∈ P
      · by_cases hnone : st.result[d]? = none
        · simp [hdP, hnone]
        · simp [hdP, hnone]
      · have hne : d ≠ c := fun heq => hdP (heq ▸ hcP)
        simp [hdP, hne]
    dsimp only
    refine ⟨fun h => ⟨fun d e hsame hd => ?_, fun d hd => ?_⟩, fun d hd _ => ?_, fun d hd => ?_⟩
    · obtain ⟨S, hS, hdS, heS⟩ := hsame
      rw [hresult] at hd ⊢
      refine hd.imp (fun hdP => ?_) (h.whole d e ⟨S, hS, hdS, heS⟩)
      exact partition_disjoint hpartition hS hP hdS hdP ▸ heS
    · rcases (hresult d).mp hd with hdP | hd
      · exact ⟨c, hdown, P, hP, hdP, hcP⟩
      · exact h.needed d hd
    · exact (hresult d).mpr (.inl (List.mem_singleton.mp hd ▸ hcP))
    · exact (hresult d).mpr (.inr hd)

/-- **One family.** -/
theorem codeFamily_codes (hpartition : IsPartition phantomSet ground) :
    ∀ (family : List ℕ) (st : FamilyState), (∀ c ∈ family, ground c) →
      Codes numberName downCastVec phantomSet family st.result
        (family.foldl (codeMember numberName downCastVec phantomSet) st).result := by
  intro family
  induction family with
  | nil => exact fun _ _ => .nil
  | cons c rest ih =>
      intro st hground
      obtain ⟨hc, hrest⟩ := List.forall_mem_cons.mp hground
      exact (codeMember_codes hpartition hc st).append (ih _ hrest)

/-- **All families.** -/
theorem codingFunc_codes (hpartition : IsPartition phantomSet ground) :
    ∀ (families : List (List ℕ)) (maps : Std.TreeMap ℕ ℕ × Std.TreeMap ℕ ℕ),
      (∀ F ∈ families, ∀ c ∈ F, ground c) →
      Codes numberName downCastVec phantomSet families.flatten maps.1
        (families.foldl (codeFamily numberName downCastVec phantomSet) maps).1 := by
  intro families
  induction families with
  | nil => exact fun _ _ => .nil
  | cons F rest ih =>
      intro maps hground
      obtain ⟨hF, hrest⟩ := List.forall_mem_cons.mp hground
      have hfamily : Codes numberName downCastVec phantomSet F maps.1
          (codeFamily numberName downCastVec phantomSet maps F).1 :=
        codeFamily_codes hpartition F ⟨maps.1, 0, 1⟩ hF
      exact hfamily.append (ih _ hrest)

end Codes

/-- **A class has a code** just if its phantom set has a downcast class. -/
theorem ToolRun.needsCode_iff (R : ToolRun) (c : ℕ) : R.maps.1[c]? ≠ none ↔
    NeedsCode R.state.numberName R.state.downCastVec R.phantomSets c := by
  have hfamilies := partition R.families_eq
  have hphantoms := partition R.phantoms_eq
  have hground : ∀ F ∈ R.families, ∀ c ∈ F, c < R.state.currentIndex := fun F hF c hc =>
    (hfamilies.cover c).mp (List.mem_flatten.mpr ⟨F, hF, hc⟩)
  have hcodes : Codes R.state.numberName R.state.downCastVec R.phantomSets R.families.flatten ∅
      R.maps.1 := codingFunc_codes hphantoms R.families (∅, ∅) hground
  have hsets := hcodes.sets ⟨fun c d _ hc => by simp at hc, fun c hc => by simp at hc⟩
  refine ⟨hsets.needed c, fun hneeds => ?_⟩
  obtain ⟨d, hdown, hsame⟩ := hneeds
  obtain ⟨P, hP, hcP, hdP⟩ := hsame
  -- the downcast class is in some family
  have hd : d ∈ R.families.flatten :=
    (hfamilies.cover d).mpr ((hphantoms.cover d).mp (List.mem_flatten.mpr ⟨P, hP, hdP⟩))
  exact hsets.whole d c ⟨P, hP, hdP, hcP⟩ (hcodes.downCast d hd hdown)

/-! ## The pairs of one size -/

/-- The names are those of a class and a base of it that has its size. -/
def SizePair (decl : CXXRecordDecl) (a b : Name) : Prop :=
  ∃ base, TransitiveBase decl base ∧ sameLayoutSize decl base = true ∧
    JoinBoth decl.name base.name a b

/-- The names are such a pair in some definition the visits see. -/
def SizeLink (visits : List Visit) (a b : Name) : Prop :=
  ∃ v ∈ visits, ∃ decl ∈ v.classes, SizePair decl a b

theorem joinBoth_comm {a b c d : Name} : JoinBoth b a c d ↔ JoinBoth a b c d := by
  simp only [JoinBoth, or_comm]

theorem sizeLink_symm {visits : List Visit} {a b : Name} (h : SizeLink visits a b) :
    SizeLink visits b a := by
  obtain ⟨v, hv, decl, hdecl, base, hbase, hsize, hjoin⟩ := h
  refine ⟨v, hv, decl, hdecl, base, hbase, hsize, ?_⟩
  exact hjoin.symm.imp And.symm And.symm

section Edges

variable {decl base : CXXRecordDecl} {a b : Name}

theorem phantom_phantomActions {sameSize : Bool} {c d : Name} :
    .edge .phantoms a b ∈ phantomActions sameSize c d ↔ sameSize = true ∧ JoinBoth c d a b := by
  cases sameSize with
  | true => simp [phantomActions, JoinBoth]
  | false => simp [phantomActions]

theorem phantom_joinBaseActions (hnamed : base.name ≠ []) :
    .edge .phantoms a b ∈ joinBaseActions decl base ↔
      sameLayoutSize decl base = true ∧ JoinBoth decl.name base.name a b := by
  rw [joinBaseActions, if_neg hnamed, List.mem_append, phantom_phantomActions, joinBoth_comm]
  simp

theorem phantom_relateBaseActions : .edge .phantoms a b ∈ relateBaseActions decl base ↔
    sameLayoutSize decl base = true ∧ JoinBoth decl.name base.name a b := by
  rw [relateBaseActions, List.mem_append, phantom_phantomActions]
  simp

theorem phantom_visitFieldsActions : .edge .phantoms a b ∉ visitFieldsActions decl := by
  have hfield : ∀ field, .edge .phantoms a b ∉ fieldActions decl.name field := by
    intro field
    unfold fieldActions
    split <;> simp
  unfold visitFieldsActions
  split <;> simp [hfield]

/-- The pairs of one size that a definition is walked for. -/
theorem phantom_recordDeclActions {hasVisitedField : Bool}
    (hnamed : ∀ base, TransitiveBase decl base → base.name ≠ []) :
    .edge .phantoms a b ∈ recordDeclActions hasVisitedField decl ↔
      isVisited decl ∧ SizePair decl a b := by
  have hbases : .edge .phantoms a b ∈ visitBasesActions decl ↔ SizePair decl a b := by
    simp only [visitBasesActions, List.mem_append, List.mem_flatMap, mem_collectAllBases,
      List.mem_singleton, reduceCtorEq, or_false]
    exact exists_congr fun base => and_congr_right fun hbase =>
      phantom_joinBaseActions (hnamed base hbase)
  have hfields : .edge .phantoms a b ∉ (if !hasVisitedField && !decl.info.isDependentContext
      then visitFieldsActions decl else []) := by
    split
    · exact phantom_visitFieldsActions
    · exact List.not_mem_nil
  unfold recordDeclActions
  split
  · next hvisited =>
      rw [List.mem_append, or_iff_right hfields, List.mem_cons, or_iff_right (by simp), hbases,
        and_iff_right hvisited]
  · next hskipped => simp [hskipped]

/-- The pairs of one size that a cast is walked for. -/
theorem phantom_castExprActions {expr : CastExpr} :
    .edge .phantoms a b ∈ castExprActions expr ↔ ∃ decl ∈ expr.related, SizePair decl a b := by
  have hrelate : ∀ decl, .edge .phantoms a b ∈ addRelationShipActions decl ↔
      SizePair decl a b := by
    intro decl
    simp only [SizePair, addRelationShipActions, List.cons_append, List.mem_cons, reduceCtorEq,
      false_or, List.mem_append, List.mem_flatMap, mem_collectAllBases, phantom_relateBaseActions,
      List.not_mem_nil, or_false]
  calc .edge .phantoms a b ∈ castExprActions expr
    _ ↔ .edge .phantoms a b ∈ expr.related.flatMap addRelationShipActions := by
        unfold castExprActions
        refine List.mem_append.trans (or_iff_right ?_)
        -- the record of a downcast is no edge
        split <;> simp
    _ ↔ ∃ decl ∈ expr.related, .edge .phantoms a b ∈ addRelationShipActions decl :=
        List.mem_flatMap
    _ ↔ ∃ decl ∈ expr.related, SizePair decl a b :=
        exists_congr fun decl => and_congr_right fun _ => hrelate decl

/-- **The pairs of one size** are all a run joins in `graphPhantoms`. -/
theorem phantom_program {visits : List Visit} (hnamed : ∀ v ∈ visits, v.Named) :
    .edge .phantoms a b ∈ program [] visits ↔ SizeLink visits a b := by
  have hactions : ∀ v ∈ visits, ∀ fieldsVisited,
      .edge .phantoms a b ∈ v.actions fieldsVisited ↔ ∃ decl ∈ v.classes, SizePair decl a b := by
    intro v hv fieldsVisited
    cases v with
    | recordDecl decl =>
        by_cases hvisited : isVisited decl
        · have hclasses : (Visit.recordDecl decl).classes = [decl] := if_pos hvisited
          have hbases := (hnamed _ hv decl (hclasses ▸ List.mem_singleton_self decl)).2
          refine (phantom_recordDeclActions hbases).trans ?_
          simp [hclasses, hvisited]
        · simp [Visit.actions, recordDeclActions, Visit.classes, hvisited]
    | castExpr expr => exact phantom_castExprActions
  rw [mem_program]
  constructor
  · rintro ⟨before, v, after, hsplit, haction⟩
    have hv : v ∈ visits := hsplit ▸ List.mem_append_right _ List.mem_cons_self
    exact ⟨v, hv, (hactions v hv _).mp haction⟩
  · rintro ⟨v, hv, hjoin⟩
    obtain ⟨before, after, rfl⟩ := List.append_of_mem hv
    exact ⟨before, v, after, rfl, (hactions v hv _).mpr hjoin⟩

end Edges

/-! ## Phantom sets in terms of names -/

namespace ToolRun

variable {R : ToolRun}

/-- What the actions of a run do is there when it has ended. -/
theorem settled (R : ToolRun) : ∀ action ∈ program [] R.visits, Settled R.state action :=
  (settled_of_runActions lists_empty (scoped_program R.visits [] []) (runActions_of_run R.run_eq)).2

/-- The entries of `graphPhantoms`. -/
theorem graphPhantoms_iff (hnamed : ∀ v ∈ R.visits, v.Named) (i j : ℕ) :
    R.state.graphPhantoms i j = true ↔
      ∃ a b, HasIndex a i R.state ∧ HasIndex b j R.state ∧ SizeLink R.visits a b := by
  have hactions := runActions_of_run R.run_eq
  have hlists : Lists (numbering (program [] R.visits)) R.state := lists_empty.runActions hactions
  refine (runActions_matrix (scoped_program R.visits [] []) hactions .phantoms i j).trans ?_
  simp only [phantom_program hnamed, HasIndex, hlists.code_iff]
  refine exists_congr fun a => exists_congr fun b => ?_
  rw [and_comm, and_assoc]

/-- Both classes of a pair have numbers. -/
theorem sizeLink_known (hnamed : ∀ v ∈ R.visits, v.Named) {a b : Name}
    (h : SizeLink R.visits a b) : ∃ i, HasIndex a i R.state := by
  obtain ⟨i, j, ha, -⟩ := R.settled _ ((phantom_program hnamed).mpr h)
  exact ⟨i, ha⟩

/-- A downcast target has a number. -/
theorem target_known {target : Name} (h : DownCastTarget R.visits target) :
    ∃ i, HasIndex target i R.state := by
  obtain ⟨v, hv, htarget⟩ := h
  have hnumber : .number target ∈ program [] R.visits := by
    obtain ⟨before, after, hsplit⟩ := List.append_of_mem hv
    refine (mem_program R.visits []).mpr ⟨before, v, after, hsplit, ?_⟩
    unfold Visit.targets at htarget
    split at htarget
    · next location derived based =>
        obtain ⟨decl, hderived, rfl⟩ := List.mem_map.mp htarget
        refine List.mem_append_right _ (List.mem_flatMap.mpr ⟨decl, ?_, ?_⟩)
        · exact List.mem_flatMap.mpr ⟨decl, hderived, List.mem_cons_self⟩
        · exact List.mem_cons_self
    · cases htarget
  exact R.settled _ hnumber

/-- **The phantom sets** are the classes that chains of pairs of one size join. -/
theorem sameSet_phantoms_iff (hnamed : ∀ v ∈ R.visits, v.Named) {a b : Name} {i j : ℕ}
    (ha : HasIndex a i R.state) (hb : HasIndex b j R.state) :
    SameSet R.phantomSets i j ↔ Relation.ReflTransGen (SizeLink R.visits) a b := by
  have hs := run_named R.run_eq
  have hreach : ∀ {a b : Name} {i j : ℕ}, HasIndex a i R.state → HasIndex b j R.state →
      (Reach R.state.graphPhantoms R.state.currentIndex i j ↔
        Relation.ReflTransGen (SizeLink R.visits) a b) :=
    reach_names hs (fun _ _ => sizeLink_known hnamed) (graphPhantoms_iff hnamed)
  obtain ⟨result, hresult, -, hclasses⟩ :=
    components_spec R.state.graphPhantoms R.state.currentIndex
  obtain rfl := Option.some.inj (hresult.symm.trans R.phantoms_eq)
  have hsymm : ∀ i < R.state.currentIndex, ∀ j,
      Reach R.state.graphPhantoms R.state.currentIndex i j →
        Reach R.state.graphPhantoms R.state.currentIndex j i := by
    intro i hi j hpath
    obtain ⟨c, hc⟩ := (hs.index_iff i).mp hi
    obtain ⟨d, hd⟩ := (hs.index_iff j).mp (hpath.lt hi)
    rw [← hs.code_iff] at hc hd
    have hnames := (hreach hc hd).mp hpath
    exact (hreach hd hc).mpr (Relation.reflTransGen_swap.mp
      (Relation.ReflTransGen.mono (fun _ _ => sizeLink_symm) _ _ hnames))
  have hi : i < R.state.currentIndex := (hs.index_iff i).mpr ⟨a, (hs.code_iff a i).mp ha⟩
  rw [hclasses hsymm, and_iff_right hi, hreach ha hb]

/-- A class number of a downcast. -/
theorem isDownCast_iff (hnamed : ∀ v ∈ R.visits, v.Named) {target : Name} {d : ℕ}
    (hd : HasIndex target d R.state) :
    isDownCast R.state.numberName R.state.downCastVec d = true ↔ DownCastTarget R.visits target := by
  rw [isDownCast, ((run_named R.run_eq).code_iff target d).mp hd, Option.getD_some,
    Std.TreeSet.contains_iff_mem]
  exact (run_recorded hnamed R.run_eq).2.2.1 target

/-- A class has a row just if its number has a code. -/
theorem row_iff (name : Name) : (∃ code, (name, code) ∈ R.output.codingNum) ↔
    ∃ c, HasIndex name c R.state ∧ R.maps.1[c]? ≠ none := by
  constructor
  · intro ⟨code, hrow⟩
    obtain ⟨c, hc, hcode⟩ := code_row hrow
    exact ⟨c, hc, by simp [hcode]⟩
  · intro ⟨c, hc, hsome⟩
    obtain ⟨code, hcode⟩ := Option.ne_none_iff_exists'.mp hsome
    obtain ⟨_, hrows, -⟩ := R.rows_eq
    have hentry : (c, code) ∈ R.maps.1.toList :=
      Std.TreeMap.mem_toList_iff_getElem?_eq_some.mpr hcode
    obtain ⟨row, hrow, hname⟩ := exists_mem_of_mapM _ _ hrows _ hentry
    rw [((run_named R.run_eq).code_iff name c).mp hc] at hname
    obtain rfl := Option.some.inj hname
    exact ⟨code, hrow⟩

/-- A class that needs a code is linked to a target. -/
theorem linked_of_needsCode (hnamed : ∀ v ∈ R.visits, v.Named) {name : Name} {c : ℕ}
    (hc : HasIndex name c R.state)
    (h : NeedsCode R.state.numberName R.state.downCastVec R.phantomSets c) :
    ∃ target, DownCastTarget R.visits target ∧
      Relation.ReflTransGen (SizeLink R.visits) name target := by
  have hs := run_named R.run_eq
  obtain ⟨d, hdown, P, hP, hcP, hdP⟩ := h
  -- the downcast class has a name, as it is in a phantom set
  have hd : d < R.state.currentIndex :=
    ((partition R.phantoms_eq).cover d).mp (List.mem_flatten.mpr ⟨P, hP, hdP⟩)
  obtain ⟨target, htarget⟩ := (hs.index_iff d).mp hd
  have hindex : HasIndex target d R.state := (hs.code_iff target d).mpr htarget
  exact ⟨target, (isDownCast_iff hnamed hindex).mp hdown,
    (sameSet_phantoms_iff hnamed hc hindex).mp ⟨P, hP, hcP, hdP⟩⟩

/-- A name that is linked to a target has a number, and that needs a code. -/
theorem needsCode_of_linked (hnamed : ∀ v ∈ R.visits, v.Named) {name target : Name}
    (htarget : DownCastTarget R.visits target)
    (hpath : Relation.ReflTransGen (SizeLink R.visits) name target) :
    ∃ c, HasIndex name c R.state ∧
      NeedsCode R.state.numberName R.state.downCastVec R.phantomSets c := by
  obtain ⟨d, hd⟩ := target_known htarget
  have hnumber : ∃ c, HasIndex name c R.state := by
    rcases Relation.ReflTransGen.cases_head hpath with rfl | ⟨next, hlink, -⟩
    · exact ⟨d, hd⟩
    · exact sizeLink_known hnamed hlink
  obtain ⟨c, hc⟩ := hnumber
  exact ⟨c, hc, d, (isDownCast_iff hnamed hd).mpr htarget,
    (sameSet_phantoms_iff hnamed hc hd).mpr hpath⟩

end ToolRun

/-- A class has a row just if a chain of pairs of one size joins it to a target. -/
theorem ToolRun.coded_iff_linked (R : ToolRun) (hnamed : ∀ v ∈ R.visits, v.Named) (name : Name) :
    (∃ code, (name, code) ∈ R.output.codingNum) ↔ ∃ target, DownCastTarget R.visits target ∧
      Relation.ReflTransGen (SizeLink R.visits) name target := by
  calc (∃ code, (name, code) ∈ R.output.codingNum)
    _ ↔ ∃ c, HasIndex name c R.state ∧ R.maps.1[c]? ≠ none := R.row_iff name
    _ ↔ ∃ c, HasIndex name c R.state ∧
          NeedsCode R.state.numberName R.state.downCastVec R.phantomSets c :=
        exists_congr fun c => and_congr_right fun _ => R.needsCode_iff c
    _ ↔ _ := by
        constructor
        · rintro ⟨c, hc, hneeds⟩
          exact ToolRun.linked_of_needsCode hnamed hc hneeds
        · rintro ⟨target, htarget, hpath⟩
          exact ToolRun.needsCode_of_linked hnamed htarget hpath

/-- **Which classes get a code.**  In every run of the tool on classes with names, those that a
chain of pairs of a class and a base of one size joins to the target of a downcast. -/
theorem coded_iff (R : ToolRun) (hnamed : ∀ v ∈ R.visits, v.Named) (name : Name) :
    (∃ code, (name, code) ∈ R.output.codingNum) ↔ ∃ target, DownCastTarget R.visits target ∧
      Relation.ReflTransGen (SizeLink R.visits) name target :=
  R.coded_iff_linked hnamed name

/-- A downcast to `D`. -/
def downCastVisits : List Visit := [.castExpr (.baseToDerived none (some sampleDerived) none)]

theorem downCastVisits_named : ∀ v ∈ downCastVisits, v.Named := by
  have hnames : ∀ v ∈ downCastVisits, ∀ decl ∈ v.classes,
      decl.name ≠ [] ∧ ∀ base ∈ collectAllBases decl, base.name ≠ [] := by decide
  intro v hv decl hdecl
  obtain ⟨hname, hbases⟩ := hnames v hv decl hdecl
  exact ⟨hname, fun base hbase => hbases base (mem_collectAllBases.mpr hbase)⟩

theorem exists_downCastRun : ∃ R : ToolRun, R.visits = downCastVisits := by
  obtain ⟨s, hrun, ⟨hroom, hfamilies, hphantoms⟩, houtput⟩ :
      ∃ s, traversal.run downCastVisits Collector.empty = some s ∧
        (s.currentIndex ≤ MAX_NUM_CLASS ∧ DFS s.graph s.currentIndex = some [[0], [1]] ∧
          DFS s.graphPhantoms s.currentIndex = some [[0, 1]]) ∧ (writeFiles s).isSome :=
    ⟨_, rfl, by decide +kernel⟩
  obtain ⟨output, houtput⟩ := Option.isSome_iff_exists.mp houtput
  exact ⟨⟨downCastVisits, s, _, _, output, hrun, hroom, hfamilies, hphantoms, houtput⟩, rfl⟩

/-- The base of the target has a code, although nothing is cast down to it. -/
theorem coded_iff_sample : ∃ R : ToolRun, ¬ DownCastTarget R.visits ['B'] ∧
    ∃ code, (['B'], code) ∈ R.output.codingNum := by
  obtain ⟨R, hvisits⟩ := exists_downCastRun
  refine ⟨R, ?_, (coded_iff R (hvisits ▸ downCastVisits_named) ['B']).mpr ?_⟩
  · rw [hvisits]
    intro ⟨v, hv, htarget⟩
    obtain rfl := List.mem_singleton.mp hv
    revert htarget
    decide
  · have hlink : SizeLink downCastVisits ['B'] ['D'] :=
      ⟨_, List.mem_cons_self, sampleDerived, by simp [Visit.classes, CastExpr.related],
        sampleClass ['B'] [], .single (List.mem_singleton.mpr rfl), by decide, .inr ⟨rfl, rfl⟩⟩
    rw [hvisits]
    exact ⟨['D'], ⟨_, List.mem_cons_self, List.mem_cons_self⟩, .single hlink⟩

end Bitype.Tool
