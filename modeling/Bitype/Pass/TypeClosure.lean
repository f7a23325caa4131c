import Bitype.Pass.TypeRelations

/-!
# The closures of the type relation

`extendTypeRelationInfo` closes two relations between the class types of a module.  Both
searches mark the types they have been to in `VisitCheck`, which has room for `MAXNODE`
marks.

* `AllPhantomTypes` is closed under the links between types of one size.  These are symmetric,
  so the closure is an equivalence (`phantomTypes_equivalence`).
* `AllParents` is closed under the resolved indices of the elements as well.  An index starts as
  zero and is overwritten for every type of the element's name.  So an element that no type has
  the name of leads to the first class type, and of several types of one name only the last is
  led to.  `parents_exact_iff` says when neither matters.
-/

namespace Bitype.Pass

open Bitype.Foundations
open Bitype.Tool (Name)

/-- The length of `VisitCheck`. -/
def MAXNODE : ℕ := 1000000

namespace Module

variable (M : Module)

/-- `getDirectTypeInfo` and `extendTypeRelationInfo`.  The latter clears as many marks of
`VisitCheck` as there are class types; past its end the code has no meaning. -/
def typeRelations : Option (List TypeInfo) :=
  if M.classTypes.length ≤ MAXNODE then some (M.extendTypeRelationInfo M.getDirectTypeInfo)
  else none

/-! ## What the closures are for -/

/-- Class type `i` has a struct element with the name of class type `t`. -/
def HasElementNamed (i t : ℕ) : Prop :=
  ∃ a b, M.classTypes[i]? = some a ∧ M.classTypes[t]? = some b ∧ M.typeName b ∈ M.parentNames a

/-- Two distinct types of one size, one with an element named like the other. -/
def PhantomLink (i t : ℕ) : Prop :=
  i ≠ t ∧ M.SameSize i t ∧ (M.HasElementNamed i t ∨ M.HasElementNamed t i)

/-- A type and one named like an element of it, or two such types of one size. -/
def ParentLink (i t : ℕ) : Prop :=
  M.HasElementNamed i t ∨ M.SameSize i t ∧ (M.HasElementNamed i t ∨ M.HasElementNamed t i)

/-- The search that starts at class type `i` ends. -/
def SearchReturns (nodes : List TypeInfo → ℕ → List ℕ) (i : ℕ) : Prop :=
  (descend (nodes (M.linkAll M.getDirectTypeInfo)) (M.classTypes.length + 1) [] i).isSome

/-- Element `j` of class type `i` has the name of no other class type. -/
def Unresolved (i j : ℕ) : Prop :=
  (∃ a, M.classTypes[i]? = some a ∧ j < (M.parentNames a).length) ∧ ∀ t, ¬ M.Links i j t

/-- Element `j` of class type `i` has the name of class type `t`, and of a later one. -/
def Shadowed (i j t : ℕ) : Prop := M.Links i j t ∧ ∃ u, M.Links i j u ∧ t < u

end Module

/-- The details of a list are those of the types that `R` reaches, each once. -/
structure ClosureOf (R : ℕ → ℕ → Prop) (i : ℕ) (details : List TypeDetailInfo) : Prop where
  nodup : (details.map (·.typeIndex)).Nodup
  mem_iff : ∀ k, k ∈ details.map (·.typeIndex) ↔ Relation.ReflTransGen R i k

/-- Class type `k` is among `AllPhantomTypes` of class type `i`. -/
def HasPhantom (infos : List TypeInfo) (i k : ℕ) : Prop :=
  ∃ info, infos[i]? = some info ∧ k ∈ info.allPhantomTypes.map (·.typeIndex)

namespace Module

variable (M : Module)

/-- `AllParents` is closed under the links, for every class type. -/
def ParentsExact : Prop :=
  ∃ infos, M.typeRelations = some infos ∧ ∀ i info, infos[i]? = some info →
    ClosureOf M.ParentLink i info.allParents

/-- There is room for the marks; an element without a type belongs to a type that is linked to
the first one anyway; and of several types with the name of an element, those before the last
are reached from its type through the resolved indices. -/
structure ParentsResolved : Prop where
  fits : M.classTypes.length ≤ MAXNODE
  unresolved : ∀ i j, M.Unresolved i j → Relation.ReflTransGen M.ParentLink i 0
  shadowed : ∀ i j t, M.Shadowed i j t → Relation.ReflTransGen M.Related i t

end Module

variable {M : Module}

/-! ## The searches -/

/-- A search returns, with the details of what is reached, each once. -/
theorem closureOf_extendSet {infos : List TypeInfo} (hframed : Framed M infos)
    {nodes : List TypeInfo → ℕ → List ℕ} {R : ℕ → ℕ → Prop}
    (hnodes : ∀ i k, k ∈ nodes infos i ↔ R i k) (hlt : ∀ i k, R i k → k < infos.length) {i : ℕ}
    (hi : i < infos.length) :
    (descend (nodes infos) (infos.length + 1) [] i).isSome ∧
      ClosureOf R i (extendSet nodes infos i) := by
  obtain ⟨found, hfound, hmem⟩ := descend_nodes hnodes hlt hi
  -- the index of a detail is the index of its type
  have hindices : (extendSet nodes infos i).map (·.typeIndex) = found := by
    rw [extendSet, hfound, Option.getD_some, List.map_filterMap]
    have hsome : ∀ c ∈ found, ((infos[c]?).map (·.detailInfo)).map (·.typeIndex) = some c := by
      intro c hc
      rw [hmem] at hc
      have hc : c < infos.length := by
        rcases Relation.ReflTransGen.cases_tail hc with rfl | ⟨b, -, hb⟩
        · exact hi
        · exact hlt b c hb
      obtain ⟨-, hdetail, -⟩ := hframed.get' (List.getElem?_eq_getElem hc)
      rw [List.getElem?_eq_getElem hc, Option.map_some, Option.map_some, hdetail]
    rw [List.filterMap_congr hsome, List.filterMap_some]
  refine ⟨by rw [hfound]; rfl, ?_, ?_⟩
  · rw [hindices]
    exact nodup_of_descend List.nodup_nil hfound
  · intro k
    rw [hindices, hmem]

/-- **What `extendTypeRelationInfo` computes**, in terms of what the searches follow. -/
theorem typeRelations_spec (hnodes : M.classTypes.length ≤ MAXNODE) :
    ∃ infos, M.typeRelations = some infos ∧ infos.length = M.classTypes.length ∧
      ∀ i info, infos[i]? = some info →
        (M.SearchReturns parentNodes i ∧ ClosureOf M.Related i info.allParents) ∧
          M.SearchReturns phantomNodes i ∧ ClosureOf M.PhantomOf i info.allPhantomTypes := by
  refine ⟨_, if_pos hnodes, length_extendTypeRelationInfo, fun i info hinfo => ?_⟩
  have hframed := (linked_linkAll (M := M)).framed
  have hlength := hframed.length_eq
  obtain ⟨hi, linked, -, rfl⟩ := getElem?_extendTypeRelationInfo hinfo
  unfold Module.SearchReturns
  rw [← hlength]
  constructor
  · exact closureOf_extendSet hframed (fun _ _ => mem_parentNodes)
      (fun _ _ hk => hlength.symm ▸ Module.Related.lt hk) hi
  · exact closureOf_extendSet hframed (fun _ _ => mem_phantomNodes)
      (fun _ _ hk => hlength.symm ▸ Module.PhantomOf.lt hk) hi

/-! ## Phantom types -/

/-- An element is named like another class type. -/
theorem exists_links_iff {i t : ℕ} : (∃ j, M.Links i j t) ↔ i ≠ t ∧ M.HasElementNamed i t := by
  constructor
  · rintro ⟨j, hne, a, b, ha, hb, hname⟩
    exact ⟨hne, a, b, ha, hb, List.mem_of_getElem? hname⟩
  · rintro ⟨hne, a, b, ha, hb, hname⟩
    obtain ⟨j, hj⟩ := List.mem_iff_getElem?.mp hname
    exact ⟨j, hne, a, b, ha, hb, hj⟩

/-- What the phantom search follows is the links. -/
theorem phantomOf_iff {i k : ℕ} : M.PhantomOf i k ↔ M.PhantomLink i k := by
  unfold Module.PhantomOf Module.PhantomLink
  rw [exists_or, exists_links_iff, exists_links_iff]
  constructor
  · rintro ⟨hsize, ⟨hne, hnamed⟩ | ⟨hne, hnamed⟩⟩
    · exact ⟨hne, hsize, .inl hnamed⟩
    · exact ⟨hne.symm, hsize, .inr hnamed⟩
  · rintro ⟨hne, hsize, hnamed | hnamed⟩
    · exact ⟨hsize, .inl ⟨hne, hnamed⟩⟩
    · exact ⟨hsize, .inr ⟨hne.symm, hnamed⟩⟩

theorem Module.PhantomLink.symm {i k : ℕ} (h : M.PhantomLink i k) : M.PhantomLink k i :=
  ⟨h.1.symm, h.2.1.symm, h.2.2.symm⟩

theorem phantomOf_eq : M.PhantomOf = M.PhantomLink := by
  funext i k
  exact propext phantomOf_iff

/-- **The phantom closure is an equivalence relation.** -/
theorem phantomTypes_equivalence (hnodes : M.classTypes.length ≤ MAXNODE) :
    ∃ infos, M.typeRelations = some infos ∧ infos.length = M.classTypes.length ∧
      (∀ i info, infos[i]? = some info →
        M.SearchReturns phantomNodes i ∧ ClosureOf M.PhantomLink i info.allPhantomTypes) ∧
      Equivalence fun i k : Fin M.classTypes.length => HasPhantom infos i k := by
  obtain ⟨infos, hinfos, hlength, hspec⟩ := typeRelations_spec hnodes
  rw [phantomOf_eq] at hspec
  have hmem : ∀ i k : Fin M.classTypes.length,
      HasPhantom infos i k ↔ Relation.ReflTransGen M.PhantomLink i k := by
    intro i k
    have hlt : (i : ℕ) < infos.length := hlength.symm ▸ i.isLt
    have hinfo := List.getElem?_eq_getElem hlt
    have hclosure := (hspec i _ hinfo).2.2
    unfold HasPhantom
    simp only [hinfo, Option.some.injEq, exists_eq_left', hclosure.mem_iff]
  refine ⟨infos, hinfos, hlength, fun i info hinfo => (hspec i info hinfo).2, ?_, ?_, ?_⟩
  · intro i
    exact (hmem i i).mpr .refl
  · intro i k h
    have hsymm : Std.Symm M.PhantomLink := ⟨fun _ _ hlink => hlink.symm⟩
    exact (hmem k i).mpr (symm ((hmem i k).mp h))
  · intro i k l hik hkl
    exact (hmem i l).mpr (((hmem i k).mp hik).trans ((hmem k l).mp hkl))

theorem plainMemberModule_nodup : ([1, 2, 3, 4] : List ℕ).Nodup := by decide

/-- Class `A`, a class `C` that is an `A` and nothing else, and a class `B` with a member of a
struct type `P` that is no class type. -/
def plainMemberModule : Module where
  struct a :=
    if a = 1 then ⟨some "trackedtype.A".toList, false, false, [(0, .other 8)], 8⟩
    else if a = 2 then ⟨some "trackedtype.C".toList, false, false, [(0, .struct 1)], 8⟩
    else if a = 3 then
      ⟨some "trackedtype.B".toList, false, false, [(0, .struct 4), (8, .other 8)], 16⟩
    else ⟨some "struct.P".toList, false, false, [(0, .other 8)], 8⟩
  depth a := if a = 2 ∨ a = 3 then 1 else 0
  contained := contained_of_cases 4 (by decide) fun a ha => by
    simp [show a ≠ 1 from ne_of_listed (by decide) ha,
      show a ≠ 2 from ne_of_listed (by decide) ha,
      show a ≠ 3 from ne_of_listed (by decide) ha]
  identified := [1, 2, 3, 4]
  nodup := plainMemberModule_nodup

theorem plainMemberModule_names : plainMemberModule.classTypes = [1, 2, 3] ∧
    plainMemberModule.parentNames 3 = [['P']] ∧
    (∀ b ∈ plainMemberModule.classTypes, plainMemberModule.typeName b ≠ ['P']) ∧
    ∀ a ∈ plainMemberModule.classTypes,
      plainMemberModule.typeName 3 ∉ plainMemberModule.parentNames a := by
  decide +kernel

theorem phantomTypes_equivalence_sample :
    ∃ infos, plainMemberModule.typeRelations = some infos ∧
      infos.length = plainMemberModule.classTypes.length ∧
      (∀ i info, infos[i]? = some info → plainMemberModule.SearchReturns phantomNodes i ∧
        ClosureOf plainMemberModule.PhantomLink i info.allPhantomTypes) ∧
      Equivalence fun i k : Fin plainMemberModule.classTypes.length => HasPhantom infos i k :=
  phantomTypes_equivalence (by rw [plainMemberModule_names.1]; decide)

/-! ## Parents -/

/-- What is resolved is a link. -/
theorem parentLink_of_related {i k : ℕ} (h : M.Related i k) :
    M.ParentLink i k ∨ ∃ j, M.Unresolved i j ∧ k = 0 := by
  rcases h with ⟨a, ha, j, hj, ⟨hlink, -⟩ | ⟨hnone, rfl⟩⟩ | hphantom
  · exact .inl (.inl (exists_links_iff.mp ⟨j, hlink⟩).2)
  · exact .inr ⟨j, ⟨⟨a, ha, hj⟩, hnone⟩, rfl⟩
  · obtain ⟨-, hsize, hnamed⟩ := phantomOf_iff.mp hphantom
    exact .inl (.inr ⟨hsize, hnamed⟩)

theorem related_of_unresolved {i j : ℕ} (h : M.Unresolved i j) : M.Related i 0 := by
  obtain ⟨⟨a, ha, hj⟩, hnone⟩ := h
  exact .inl ⟨a, ha, j, hj, .inr ⟨hnone, rfl⟩⟩

/-- A link between distinct types is followed, but for types that share their name with a
later one. -/
theorem related_of_parentLink {i t : ℕ} (hne : i ≠ t) (h : M.ParentLink i t) :
    M.Related i t ∨ ∃ j, M.Shadowed i j t := by
  by_cases hsize : M.SameSize i t
  · refine .inl (.inr (phantomOf_iff.mpr ⟨hne, hsize, ?_⟩))
    exact h.elim .inl fun h => h.2
  · have hnamed : M.HasElementNamed i t := h.elim id fun h => absurd h.1 hsize
    obtain ⟨j, hlink⟩ := exists_links_iff.mpr ⟨hne, hnamed⟩
    by_cases hlast : ∀ u, M.Links i j u → u ≤ t
    · obtain ⟨-, a, b, ha, -, hname⟩ := id hlink
      have hj := (List.getElem?_eq_some_iff.mp hname).1
      exact .inl (.inl ⟨a, ha, j, hj, .inl ⟨hlink, hlast⟩⟩)
    · push Not at hlast
      obtain ⟨u, hu, hlater⟩ := hlast
      exact .inr ⟨j, hlink, u, hu, hlater⟩

theorem Module.ParentsExact.resolved (h : M.ParentsExact) : M.ParentsResolved := by
  obtain ⟨infos, hinfos, hexact⟩ := h
  have hfits : M.classTypes.length ≤ MAXNODE := by
    by_contra hlarge
    rw [Module.typeRelations, if_neg hlarge] at hinfos
    cases hinfos
  obtain ⟨infos', hinfos', hlength, hspec⟩ := typeRelations_spec hfits
  obtain rfl := Option.some.inj (hinfos.symm.trans hinfos')
  have hsame : ∀ i a, M.classTypes[i]? = some a → ∀ k,
      Relation.ReflTransGen M.Related i k ↔ Relation.ReflTransGen M.ParentLink i k := by
    intro i a ha k
    have hi : i < infos.length := hlength ▸ (List.getElem?_eq_some_iff.mp ha).1
    have hinfo := List.getElem?_eq_getElem hi
    rw [← (hspec i _ hinfo).1.2.mem_iff, (hexact i _ hinfo).mem_iff]
  refine ⟨hfits, fun i j h => ?_, fun i j t h => ?_⟩
  · obtain ⟨⟨a, ha, -⟩, -⟩ := id h
    exact (hsame i a ha 0).mp (.single (related_of_unresolved h))
  · obtain ⟨⟨hne, a, b, ha, hb, hname⟩, -⟩ := h
    exact (hsame i a ha t).mpr (.single (.inl ⟨a, b, ha, hb, List.mem_of_getElem? hname⟩))

theorem Module.ParentsResolved.exact (hresolved : M.ParentsResolved) : M.ParentsExact := by
  obtain ⟨infos, hinfos, -, hspec⟩ := typeRelations_spec hresolved.fits
  refine ⟨infos, hinfos, fun i info hinfo => ?_⟩
  obtain ⟨-, hclosure⟩ := (hspec i info hinfo).1
  refine ⟨hclosure.nodup, fun k => ?_⟩
  rw [hclosure.mem_iff]
  constructor
  · intro hpath
    induction hpath with
    | refl => exact .refl
    | tail _ hstep ih =>
        rcases parentLink_of_related hstep with hlink | ⟨j, hnone, rfl⟩
        · exact ih.tail hlink
        · exact ih.trans (hresolved.unresolved _ j hnone)
  · intro hpath
    induction hpath with
    | refl => exact .refl
    | @tail b c _ hstep ih =>
        by_cases hne : b = c
        · exact hne ▸ ih
        · rcases related_of_parentLink hne hstep with hrelated | ⟨j, hshadowed⟩
          · exact ih.tail hrelated
          · exact ih.trans (hresolved.shadowed _ j _ hshadowed)

/-- **The parent closure.**  It is the closure of the links exactly if unresolved elements and
shared names do not matter. -/
theorem parents_exact_iff : M.ParentsExact ↔ M.ParentsResolved :=
  ⟨fun h => h.resolved, fun h => h.exact⟩

/-- The member of `B` makes `A` a parent of `B`. -/
theorem member_makes_parent : ¬ ∀ M : Module, M.ParentsExact := by
  intro hexact
  obtain ⟨hclasses, hparents, hnone, hunused⟩ := plainMemberModule_names
  have hunnamed : ∀ t, ¬ plainMemberModule.HasElementNamed 2 t := by
    rintro t ⟨a, b, ha, hb, hname⟩
    rw [hclasses] at ha
    obtain rfl : 3 = a := Option.some.inj ha
    rw [hparents, List.mem_singleton] at hname
    exact hnone b (List.mem_of_getElem? hb) hname
  have hunresolved : plainMemberModule.Unresolved 2 0 := by
    refine ⟨⟨3, by rw [hclasses]; rfl, by rw [hparents]; decide⟩, fun t hlink => ?_⟩
    exact hunnamed t (exists_links_iff.mp ⟨0, hlink⟩).2
  have hreached := (hexact plainMemberModule).resolved.unresolved 2 0 hunresolved
  -- no link leads away from `B`
  rcases Relation.ReflTransGen.cases_head hreached with heq | ⟨t, hlink, -⟩
  · exact absurd heq (by decide)
  · rcases hlink with hnamed | ⟨-, hnamed | ⟨a, b, ha, hb, hname⟩⟩
    · exact hunnamed t hnamed
    · exact hunnamed t hnamed
    · rw [hclasses] at hb
      obtain rfl : 3 = b := Option.some.inj hb
      exact hunused a (List.mem_of_getElem? ha) hname

end Bitype.Pass
