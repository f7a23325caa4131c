import Mathlib.Data.List.Range
import Bitype.Foundations.Closure
import Bitype.Pass.Types

/-!
# Relations between the types of a module

The pass has no inheritance at hand, so it takes the struct elements of a class for
its bases.  `getDirectTypeInfo` lists the elements of every class type by name,
`extendTypeRelationInfo` resolves the names to indices and closes the relation.

An element whose name no other class type has keeps the index it started with, which
is zero: the first class type of the module stands for it (`ParentIndex`).

`Related` is the relation the closure is taken of, in terms of the module alone, and
`allParents_spec` says that `AllParents` is its reflexive transitive closure.
-/

namespace Bitype.Pass

open Bitype.Foundations
open Bitype.Tool (Name)

/-! ## The tables of the pass -/

structure TypeDetailInfo where
  typeIndex : ℕ
  typeName : Name

structure TypeInfo where
  structTy : ℕ
  detailInfo : TypeDetailInfo
  directParents : List TypeDetailInfo
  directPhantomTypes : List TypeDetailInfo
  allParents : List TypeDetailInfo
  allPhantomTypes : List TypeDetailInfo

namespace TypeInfo

/-- `DirectParents[j].TypeIndex = t`. -/
def setParentIndex (j t : ℕ) (info : TypeInfo) : TypeInfo :=
  { info with directParents := info.directParents.modify j fun p => { p with typeIndex := t } }

/-- `DirectPhantomTypes.push_back`. -/
def addPhantom (detail : TypeDetailInfo) (info : TypeInfo) : TypeInfo :=
  { info with directPhantomTypes := info.directPhantomTypes ++ [detail] }

/-- What no loop changes. -/
def frame (info : TypeInfo) : ℕ × TypeDetailInfo × List Name :=
  (info.structTy, info.detailInfo, info.directParents.map (·.typeName))

@[simp] theorem frame_setParentIndex (j t : ℕ) (info : TypeInfo) :
    (info.setParentIndex j t).frame = info.frame := by
  simp only [frame, setParentIndex, Prod.mk.injEq, true_and]
  apply List.ext_getElem?
  intro k
  rw [List.getElem?_map, List.getElem?_map, List.getElem?_modify]
  cases info.directParents[k]? with
  | none => rfl
  | some p => by_cases hk : j = k <;> simp [hk]

@[simp] theorem frame_addPhantom (detail : TypeDetailInfo) (info : TypeInfo) :
    (info.addPhantom detail).frame = info.frame := rfl

@[simp] theorem directPhantomTypes_setParentIndex (j t : ℕ) (info : TypeInfo) :
    (info.setParentIndex j t).directPhantomTypes = info.directPhantomTypes := rfl

@[simp] theorem directParents_addPhantom (detail : TypeDetailInfo) (info : TypeInfo) :
    (info.addPhantom detail).directParents = info.directParents := rfl

end TypeInfo

namespace TypeTable

variable (T : TypeTable)

/-- The names of the struct elements of a struct. -/
def parentNames (a : ℕ) : List Name :=
  (T.struct a).elements.filterMap fun element =>
    match element.2 with
    | .struct b => if T.isInterestingStructType b then some (T.typeName b) else none
    | _ => none

/-- `setTypeDetailInfo` and `parsingTypeInfo`. -/
def parsingTypeInfo (a allTypeNum : ℕ) : TypeInfo where
  structTy := a
  detailInfo := ⟨allTypeNum, T.typeName a⟩
  directParents := (T.parentNames a).map fun name => ⟨0, name⟩
  directPhantomTypes := []
  allParents := []
  allPhantomTypes := []

/-- The body of the three nested loops of `extendTypeRelationInfo`. -/
def linkTypes (infos : List TypeInfo) (index : ℕ × ℕ × ℕ) : List TypeInfo :=
  let (i, j, t) := index
  match infos[i]?, infos[t]? with
  | some info, some other =>
      if i ≠ t ∧ (info.directParents[j]?).map (·.typeName) = some other.detailInfo.typeName then
        let infos := infos.modify i (·.setParentIndex j t)
        if (T.struct info.structTy).allocSize = (T.struct other.structTy).allocSize then
          (infos.modify i (·.addPhantom other.detailInfo)).modify t (·.addPhantom info.detailInfo)
        else infos
      else infos
  | _, _ => infos

end TypeTable

/-- The counters of the three loops, in order.  No round changes a length. -/
def loopIndices (infos : List TypeInfo) : List (ℕ × ℕ × ℕ) :=
  (List.range infos.length).flatMap fun i =>
    (List.range (((infos[i]?).map (·.directParents.length)).getD 0)).flatMap fun j =>
      (List.range infos.length).map fun t => (i, j, t)

/-- Where `extendPhantomSet` goes from index `c`. -/
def phantomNodes (infos : List TypeInfo) (c : ℕ) : List ℕ :=
  ((infos[c]?).map fun info => info.directPhantomTypes.map (·.typeIndex)).getD []

/-- Where `extendParentSet` goes from index `c`. -/
def parentNodes (infos : List TypeInfo) (c : ℕ) : List ℕ :=
  ((infos[c]?).map fun info => info.directParents.map (·.typeIndex)).getD [] ++
    phantomNodes infos c

/-- The details pushed by a recursive search from `target`; `VisitCheck` holds for the
indices whose details have been pushed. -/
def extendSet (nodes : List TypeInfo → ℕ → List ℕ) (infos : List TypeInfo) (target : ℕ) :
    List TypeDetailInfo :=
  ((descend (nodes infos) (infos.length + 1) [] target).getD []).filterMap fun c =>
    (infos[c]?).map (·.detailInfo)

/-- `extendParentSet(target, target)` after `VisitCheck` has been cleared. -/
def extendParentSet (infos : List TypeInfo) (target : ℕ) : List TypeDetailInfo :=
  extendSet parentNodes infos target

/-- `extendPhantomSet(target, target)` after `VisitCheck` has been cleared. -/
def extendPhantomSet (infos : List TypeInfo) (target : ℕ) : List TypeDetailInfo :=
  extendSet phantomNodes infos target

namespace Module

variable (M : Module)

/-- The class types of a module, in order. -/
def classTypes : List ℕ := M.identified.filter M.isClassType

/-- `getDirectTypeInfo`. -/
def getDirectTypeInfo : List TypeInfo :=
  M.classTypes.mapIdx fun allTypeNum a => M.parsingTypeInfo a allTypeNum

/-- The first loop nest of `extendTypeRelationInfo`. -/
def linkAll (infos : List TypeInfo) : List TypeInfo :=
  (loopIndices infos).foldl M.linkTypes infos

/-- `extendTypeRelationInfo`. -/
def extendTypeRelationInfo (infos : List TypeInfo) : List TypeInfo :=
  let infos := M.linkAll infos
  infos.mapIdx fun i info =>
    { info with
      allParents := extendParentSet infos i
      allPhantomTypes := extendPhantomSet infos i }

/-! ## The relations -/

/-- Element `j` of class type `i` has the name of class type `t`, another one. -/
def Links (i j t : ℕ) : Prop :=
  i ≠ t ∧ ∃ a b, M.classTypes[i]? = some a ∧ M.classTypes[t]? = some b ∧
    (M.parentNames a)[j]? = some (M.typeName b)

/-- The index an element is resolved to: the last type of its name, zero if there is
none. -/
def ParentIndex (i j k : ℕ) : Prop :=
  (M.Links i j k ∧ ∀ t, M.Links i j t → t ≤ k) ∨ (∀ t, ¬ M.Links i j t) ∧ k = 0

/-- Class type `k` stands for an element of class type `i`. -/
def ParentOf (i k : ℕ) : Prop :=
  ∃ a, M.classTypes[i]? = some a ∧ ∃ j < (M.parentNames a).length, M.ParentIndex i j k

def SameSize (i k : ℕ) : Prop :=
  ∃ a b, M.classTypes[i]? = some a ∧ M.classTypes[k]? = some b ∧
    (M.struct a).allocSize = (M.struct b).allocSize

/-- One of the two has an element with the name of the other, and the same size. -/
def PhantomOf (i k : ℕ) : Prop :=
  M.SameSize i k ∧ ∃ j, M.Links i j k ∨ M.Links k j i

/-- What `extendParentSet` follows. -/
def Related (i k : ℕ) : Prop := M.ParentOf i k ∨ M.PhantomOf i k

end Module

/-! ## The loop nest -/

section Loop

variable {M : Module} {infos : List TypeInfo}

/-- The table is the one `getDirectTypeInfo` made, up to indices and phantoms. -/
def Framed (M : Module) (infos : List TypeInfo) : Prop :=
  ∀ i, (infos[i]?).map TypeInfo.frame =
    (M.classTypes[i]?).map fun a => (a, ⟨i, M.typeName a⟩, M.parentNames a)

/-- The index of parent `j` of type `i`. -/
def parentIndexAt (infos : List TypeInfo) (i j : ℕ) : Option ℕ :=
  (infos[i]?).bind fun info => (info.directParents[j]?).map (·.typeIndex)

/-- Type `i` has a phantom of index `k`. -/
def PhantomAt (infos : List TypeInfo) (i k : ℕ) : Prop := k ∈ phantomNodes infos i

namespace Framed

variable (h : Framed M infos)
include h

theorem get {i a : ℕ} (ha : M.classTypes[i]? = some a) :
    ∃ info, infos[i]? = some info ∧ info.structTy = a ∧ info.detailInfo = ⟨i, M.typeName a⟩ ∧
      info.directParents.map (·.typeName) = M.parentNames a := by
  have hframe := h i
  rw [ha] at hframe
  obtain ⟨info, hinfo, heq⟩ := Option.map_eq_some_iff.mp hframe
  simp only [TypeInfo.frame, Prod.mk.injEq] at heq
  exact ⟨info, hinfo, heq⟩

theorem get' {i : ℕ} {info : TypeInfo} (hinfo : infos[i]? = some info) :
    M.classTypes[i]? = some info.structTy ∧
      info.detailInfo = ⟨i, M.typeName info.structTy⟩ ∧
      info.directParents.map (·.typeName) = M.parentNames info.structTy := by
  have hframe := h i
  rw [hinfo] at hframe
  obtain ⟨a, ha, heq⟩ := Option.map_eq_some_iff.mp hframe.symm
  simp only [TypeInfo.frame, Prod.mk.injEq] at heq
  obtain ⟨rfl, hdetail, hnames⟩ := heq
  exact ⟨ha, hdetail.symm, hnames.symm⟩

theorem length_eq : infos.length = M.classTypes.length := by
  apply le_antisymm
  · by_contra hlt
    have := h M.classTypes.length
    rw [List.getElem?_eq_none (le_refl _), List.getElem?_eq_getElem (by omega)] at this
    cases this
  · by_contra hlt
    have := h infos.length
    rw [List.getElem?_eq_none (le_refl _), List.getElem?_eq_getElem (by omega)] at this
    cases this

/-- The test of the loop body. -/
theorem links_iff {i j t : ℕ} {info other : TypeInfo} (hinfo : infos[i]? = some info)
    (hother : infos[t]? = some other) :
    (i ≠ t ∧ (info.directParents[j]?).map (·.typeName) = some other.detailInfo.typeName) ↔
      M.Links i j t := by
  obtain ⟨hi, -, hnames⟩ := h.get' hinfo
  obtain ⟨ht, hdetail, -⟩ := h.get' hother
  rw [← List.getElem?_map, hnames, hdetail]
  unfold Module.Links
  simp only [hi, ht, Option.some.injEq, exists_eq_left', exists_and_left]

theorem sameSize_iff {i t : ℕ} {info other : TypeInfo} (hinfo : infos[i]? = some info)
    (hother : infos[t]? = some other) :
    (M.struct info.structTy).allocSize = (M.struct other.structTy).allocSize ↔
      M.SameSize i t := by
  obtain ⟨hi, -, -⟩ := h.get' hinfo
  obtain ⟨ht, -, -⟩ := h.get' hother
  unfold Module.SameSize
  simp only [hi, ht, Option.some.injEq, exists_eq_left', exists_and_left]

/-- A round that links nothing does nothing. -/
theorem linkTypes_of_not {i j t : ℕ} (hlinks : ¬ M.Links i j t) :
    M.linkTypes infos (i, j, t) = infos := by
  unfold TypeTable.linkTypes
  dsimp only
  cases hinfo : infos[i]? with
  | none => rfl
  | some info =>
      cases hother : infos[t]? with
      | none => rfl
      | some other =>
          dsimp only
          rw [if_neg fun hcond => hlinks ((h.links_iff hinfo hother).mp hcond)]

open Classical in
/-- What a round that links types `i` and `t` makes of type `c`. -/
theorem getElem?_linkTypes {i j t : ℕ} (hlinks : M.Links i j t) :
    ∃ detail other : TypeDetailInfo, detail.typeIndex = i ∧ other.typeIndex = t ∧
      ∀ c, (M.linkTypes infos (i, j, t))[c]? = (infos[c]?).map fun info =>
        if c = i then
          if M.SameSize i t then (info.setParentIndex j t).addPhantom other
          else info.setParentIndex j t
        else if c = t ∧ M.SameSize i t then info.addPhantom detail else info := by
  obtain ⟨hne, a, b, ha, hb, hname⟩ := id hlinks
  obtain ⟨info, hinfo, hstruct, hdetail, -⟩ := h.get ha
  obtain ⟨other, hother, -, hotherDetail, -⟩ := h.get hb
  refine ⟨info.detailInfo, other.detailInfo, by rw [hdetail], by rw [hotherDetail], fun c => ?_⟩
  unfold TypeTable.linkTypes
  simp only [hinfo, hother, if_pos ((h.links_iff hinfo hother).mpr hlinks)]
  by_cases hsize : M.SameSize i t
  · rw [if_pos ((h.sameSize_iff hinfo hother).mpr hsize)]
    simp only [List.getElem?_modify, hsize, if_true, and_true]
    cases infos[c]? with
    | none => rfl
    | some current =>
        by_cases hci : c = i
        · subst hci
          simp [Ne.symm hne]
        · by_cases hct : c = t
          · simp [hct, hne, Ne.symm hne]
          · simp [hct, hci, Ne.symm hci, Ne.symm hct]
  · rw [if_neg fun heq => hsize ((h.sameSize_iff hinfo hother).mp heq)]
    simp only [List.getElem?_modify, hsize, if_false, and_false]
    cases infos[c]? with
    | none => rfl
    | some current =>
        by_cases hci : c = i
        · simp [hci]
        · simp [hci, Ne.symm hci]

/-- A round keeps the frame. -/
theorem link (p : ℕ × ℕ × ℕ) : Framed M (M.linkTypes infos p) := by
  obtain ⟨i, j, t⟩ := p
  by_cases hlinks : M.Links i j t
  · obtain ⟨detail, other, -, -, hget⟩ := h.getElem?_linkTypes hlinks
    intro c
    rw [hget c, ← h c, Option.map_map]
    congr 1
    funext info
    simp only [Function.comp_apply]
    split_ifs <;> simp
  · rw [h.linkTypes_of_not hlinks]
    exact h

/-- A round that links sets one index. -/
theorem parentIndexAt_link {i j t : ℕ} (hlinks : M.Links i j t) (c l : ℕ) :
    parentIndexAt (M.linkTypes infos (i, j, t)) c l =
      if c = i ∧ l = j then (parentIndexAt infos c l).map fun _ => t
      else parentIndexAt infos c l := by
  obtain ⟨detail, other, -, -, hget⟩ := h.getElem?_linkTypes hlinks
  unfold parentIndexAt
  rw [hget c]
  cases infos[c]? with
  | none => simp
  | some info =>
      have hset : ((info.setParentIndex j t).directParents[l]?).map (·.typeIndex) =
          if l = j then ((info.directParents[l]?).map (·.typeIndex)).map fun _ => t
          else (info.directParents[l]?).map (·.typeIndex) := by
        simp only [TypeInfo.setParentIndex, List.getElem?_modify]
        cases info.directParents[l]? with
        | none => simp
        | some parent => by_cases hl : j = l <;> simp [hl, Ne.symm]
      simp only [Option.map_some, Option.bind_some]
      by_cases hci : c = i
      · simp only [hci, if_true, true_and, ← hset]
        split_ifs <;> rfl
      · simp only [hci, if_false, false_and]
        split_ifs <;> rfl

/-- A round that links types of one size makes each a phantom of the other. -/
theorem phantomAt_link {i j t : ℕ} (hlinks : M.Links i j t) (c k : ℕ) :
    PhantomAt (M.linkTypes infos (i, j, t)) c k ↔
      PhantomAt infos c k ∨ M.SameSize i t ∧ (c = i ∧ k = t ∨ c = t ∧ k = i) := by
  obtain ⟨hne, a, b, ha, hb, -⟩ := id hlinks
  obtain ⟨info, hinfo, -⟩ := h.get ha
  obtain ⟨info', hinfo', -⟩ := h.get hb
  obtain ⟨detail, other, hdetail, hother, hget⟩ := h.getElem?_linkTypes hlinks
  unfold PhantomAt phantomNodes
  rw [hget c]
  by_cases hci : c = i
  · subst hci
    by_cases hsize : M.SameSize c t
    · simp [hinfo, hsize, TypeInfo.addPhantom, hother, hne]
    · simp [hinfo, hsize]
  · by_cases hct : c = t
    · subst hct
      by_cases hsize : M.SameSize i c
      · simp [hinfo', hsize, TypeInfo.addPhantom, hdetail, hci]
      · simp [hsize, hci]
    · simp [hci, hct]

end Framed

theorem Module.SameSize.symm {i k : ℕ} (h : M.SameSize i k) : M.SameSize k i := by
  obtain ⟨a, b, ha, hb, hsize⟩ := h
  exact ⟨b, a, hb, ha, hsize.symm⟩

/-- The table after the rounds `done`. -/
structure Linked (M : Module) (done : List (ℕ × ℕ × ℕ)) (infos : List TypeInfo) : Prop where
  framed : Framed M infos
  parents : ∀ i j k, parentIndexAt infos i j = some k →
    (M.Links i j k ∧ ∀ t, (i, j, t) ∈ done → M.Links i j t → t ≤ k) ∨
      (∀ t, (i, j, t) ∈ done → ¬ M.Links i j t) ∧ k = 0
  phantoms : ∀ i k, PhantomAt infos i k ↔
    M.SameSize i k ∧ ∃ j, (i, j, k) ∈ done ∧ M.Links i j k ∨ (k, j, i) ∈ done ∧ M.Links k j i

/-- One round, with a greater `t` than the rounds before it for the same element. -/
theorem Linked.step {done : List (ℕ × ℕ × ℕ)} {p : ℕ × ℕ × ℕ} (h : Linked M done infos)
    (hlast : ∀ q ∈ done, q.1 = p.1 → q.2.1 = p.2.1 → q.2.2 < p.2.2) :
    Linked M (done ++ [p]) (M.linkTypes infos p) := by
  obtain ⟨i, j, t⟩ := p
  by_cases hlinks : M.Links i j t
  · refine ⟨h.framed.link _, fun c l k hk => ?_, fun c k => ?_⟩
    -- the slot of this round holds its parent, the other slots are as they were
    · rw [h.framed.parentIndexAt_link hlinks] at hk
      by_cases hcl : c = i ∧ l = j
      · obtain ⟨rfl, rfl⟩ := hcl
        rw [if_pos ⟨rfl, rfl⟩] at hk
        obtain ⟨_, _, rfl⟩ := Option.map_eq_some_iff.mp hk
        refine .inl ⟨hlinks, fun u hu _ => ?_⟩
        rcases List.mem_append.mp hu with hu | hu
        · exact (hlast _ hu rfl rfl).le
        · simp only [List.mem_singleton, Prod.mk.injEq, true_and] at hu
          exact hu.le
      · rw [if_neg hcl] at hk
        have hother : ∀ u, (c, l, u) ∈ done ++ [(i, j, t)] → (c, l, u) ∈ done := by
          intro u hu
          rcases List.mem_append.mp hu with hu | hu
          · exact hu
          · simp only [List.mem_singleton, Prod.mk.injEq] at hu
            exact absurd ⟨hu.1, hu.2.1⟩ hcl
        rcases h.parents c l k hk with ⟨hlink, hmax⟩ | ⟨hnone, rfl⟩
        · exact .inl ⟨hlink, fun u hu => hmax u (hother u hu)⟩
        · exact .inr ⟨fun u hu => hnone u (hother u hu), rfl⟩
    -- types of one size become phantoms of each other
    · rw [h.framed.phantomAt_link hlinks, h.phantoms]
      simp only [List.mem_append, List.mem_singleton, Prod.mk.injEq, or_and_right]
      constructor
      · rintro (⟨hsize, l, hl⟩ | ⟨hsize, ⟨rfl, rfl⟩ | ⟨rfl, rfl⟩⟩)
        · refine ⟨hsize, l, ?_⟩
          tauto
        · exact ⟨hsize, j, .inl (.inr ⟨⟨rfl, rfl, rfl⟩, hlinks⟩)⟩
        · exact ⟨hsize.symm, j, .inr (.inr ⟨⟨rfl, rfl, rfl⟩, hlinks⟩)⟩
      · rintro ⟨hsize, l, (hl | ⟨⟨rfl, rfl, rfl⟩, _⟩) | (hl | ⟨⟨rfl, rfl, rfl⟩, _⟩)⟩
        · exact .inl ⟨hsize, l, .inl hl⟩
        · exact .inr ⟨hsize, .inl ⟨rfl, rfl⟩⟩
        · exact .inl ⟨hsize, l, .inr hl⟩
        · exact .inr ⟨hsize.symm, .inr ⟨rfl, rfl⟩⟩
  -- a round without a link says nothing new
  · rw [h.framed.linkTypes_of_not hlinks]
    have hnew : ∀ c l u, M.Links c l u → ((c, l, u) ∈ done ++ [(i, j, t)] ↔ (c, l, u) ∈ done) := by
      intro c l u hu
      rw [List.mem_append, List.mem_singleton]
      refine ⟨fun hmem => hmem.resolve_right ?_, .inl⟩
      rintro heq
      cases heq
      exact hlinks hu
    refine ⟨h.framed, fun c l k hk => ?_, fun c k => ?_⟩
    · rcases h.parents c l k hk with ⟨hlink, hmax⟩ | ⟨hnone, rfl⟩
      · exact .inl ⟨hlink, fun u hu hlinku => hmax u ((hnew c l u hlinku).mp hu) hlinku⟩
      · exact .inr ⟨fun u hu hlinku => hnone u ((hnew c l u hlinku).mp hu) hlinku, rfl⟩
    · rw [h.phantoms]
      have hiff : ∀ c l u, (c, l, u) ∈ done ++ [(i, j, t)] ∧ M.Links c l u ↔
          (c, l, u) ∈ done ∧ M.Links c l u :=
        fun c l u => and_congr_left fun hu => hnew c l u hu
      simp only [hiff]

/-- The rounds for one element come in increasing order of the third counter. -/
theorem pairwise_loopIndices (infos : List TypeInfo) :
    (loopIndices infos).Pairwise fun p q => p.1 = q.1 → p.2.1 = q.2.1 → p.2.2 < q.2.2 := by
  unfold loopIndices
  rw [List.pairwise_flatMap]
  constructor
  · intro i _
    rw [List.pairwise_flatMap]
    constructor
    · intro j _
      rw [List.pairwise_map]
      exact List.pairwise_lt_range.imp fun hlt _ _ => hlt
    · refine List.pairwise_lt_range.imp fun hlt => ?_
      simp only [List.mem_map]
      rintro _ ⟨t, -, rfl⟩ _ ⟨u, -, rfl⟩ - heq
      exact absurd heq (Nat.ne_of_lt hlt)
  · refine List.pairwise_lt_range.imp fun hlt => ?_
    simp only [List.mem_flatMap, List.mem_map]
    rintro _ ⟨_, -, _, -, rfl⟩ _ ⟨_, -, _, -, rfl⟩ heq
    exact absurd heq (Nat.ne_of_lt hlt)

/-- Every link is found in some round. -/
theorem Framed.mem_loopIndices (h : Framed M infos) {i j t : ℕ} (hlinks : M.Links i j t) :
    (i, j, t) ∈ loopIndices infos := by
  obtain ⟨-, a, b, ha, hb, hname⟩ := hlinks
  obtain ⟨info, hinfo, -, -, hnames⟩ := h.get ha
  obtain ⟨other, hother, -⟩ := h.get hb
  have hj : j < info.directParents.length := by
    have := (List.getElem?_eq_some_iff.mp hname).1
    rwa [← hnames, List.length_map] at this
  simp only [loopIndices, List.mem_flatMap, List.mem_range, List.mem_map, Prod.mk.injEq]
  refine ⟨i, (List.getElem?_eq_some_iff.mp hinfo).1, j, ?_, t,
    (List.getElem?_eq_some_iff.mp hother).1, rfl, rfl, rfl⟩
  rw [hinfo]
  exact hj

/-- All rounds. -/
theorem foldl_linked :
    ∀ (rest done : List (ℕ × ℕ × ℕ)) (infos : List TypeInfo), Linked M done infos →
      (done ++ rest).Pairwise (fun p q => p.1 = q.1 → p.2.1 = q.2.1 → p.2.2 < q.2.2) →
      Linked M (done ++ rest) (rest.foldl M.linkTypes infos) := by
  intro rest
  induction rest with
  | nil =>
      intro done infos h _
      rw [List.append_nil]
      exact h
  | cons p rest ih =>
      intro done infos h hpairwise
      rw [List.append_cons] at hpairwise ⊢
      refine ih (done ++ [p]) _ (h.step fun q hq => ?_) hpairwise
      have hprefix := (List.pairwise_append.mp hpairwise).1
      exact (List.pairwise_append.mp hprefix).2.2 q hq p (List.mem_singleton.mpr rfl)

theorem getElem?_getDirectTypeInfo (i : ℕ) :
    M.getDirectTypeInfo[i]? = (M.classTypes[i]?).map fun a => M.parsingTypeInfo a i := by
  rw [Module.getDirectTypeInfo, List.getElem?_mapIdx]

/-- The table before the first round. -/
theorem linked_getDirectTypeInfo : Linked M [] M.getDirectTypeInfo := by
  refine ⟨fun i => ?_, fun i j k hk => .inr ⟨by simp, ?_⟩, fun i k => ?_⟩
  · rw [getElem?_getDirectTypeInfo, Option.map_map]
    congr 1
    funext a
    simp [TypeInfo.frame, TypeTable.parsingTypeInfo, Function.comp_def]
  · unfold parentIndexAt at hk
    rw [getElem?_getDirectTypeInfo] at hk
    cases ha : M.classTypes[i]? with
    | none =>
        rw [ha] at hk
        cases hk
    | some a =>
        rw [ha] at hk
        simp only [Option.map_some, Option.bind_some, TypeTable.parsingTypeInfo,
          List.getElem?_map, Option.map_map] at hk
        obtain ⟨_, -, rfl⟩ := Option.map_eq_some_iff.mp hk
        rfl
  · unfold PhantomAt phantomNodes
    rw [getElem?_getDirectTypeInfo]
    cases M.classTypes[i]? <;> simp [TypeTable.parsingTypeInfo]

/-- **The table after the loop nest.** -/
theorem linked_linkAll :
    Linked M (loopIndices M.getDirectTypeInfo) (M.linkAll M.getDirectTypeInfo) := by
  have hpairwise := pairwise_loopIndices M.getDirectTypeInfo
  exact foldl_linked _ [] M.getDirectTypeInfo linked_getDirectTypeInfo hpairwise

theorem Module.ParentIndex.unique {i j k k' : ℕ} (h : M.ParentIndex i j k)
    (h' : M.ParentIndex i j k') : k = k' := by
  rcases h with ⟨hlink, hmax⟩ | ⟨hnone, rfl⟩ <;> rcases h' with ⟨hlink', hmax'⟩ | ⟨hnone', rfl⟩
  · exact le_antisymm (hmax' k hlink) (hmax k' hlink')
  · exact absurd hlink (hnone' k)
  · exact absurd hlink' (hnone k')
  · rfl

theorem parentIndexAt_linkAll {i j k : ℕ}
    (hk : parentIndexAt (M.linkAll M.getDirectTypeInfo) i j = some k) : M.ParentIndex i j k := by
  have hall := fun t => linked_getDirectTypeInfo.framed.mem_loopIndices (M := M) (i := i) (j := j)
    (t := t)
  rcases linked_linkAll.parents i j k hk with ⟨hlink, hmax⟩ | ⟨hnone, rfl⟩
  · exact .inl ⟨hlink, fun t ht => hmax t (hall t ht) ht⟩
  · exact .inr ⟨fun t ht => hnone t (hall t ht) ht, rfl⟩

/-- What the phantom search follows. -/
theorem mem_phantomNodes {i k : ℕ} :
    k ∈ phantomNodes (M.linkAll M.getDirectTypeInfo) i ↔ M.PhantomOf i k := by
  change PhantomAt _ i k ↔ _
  rw [linked_linkAll.phantoms]
  apply and_congr_right
  intro _
  apply exists_congr
  intro j
  exact or_congr (and_iff_right_of_imp linked_getDirectTypeInfo.framed.mem_loopIndices)
    (and_iff_right_of_imp linked_getDirectTypeInfo.framed.mem_loopIndices)

/-- What the parent search follows. -/
theorem mem_parentNodes {i k : ℕ} :
    k ∈ parentNodes (M.linkAll M.getDirectTypeInfo) i ↔ M.Related i k := by
  unfold parentNodes Module.Related
  rw [List.mem_append, mem_phantomNodes]
  apply or_congr_left
  have hframed := (linked_linkAll (M := M)).framed
  unfold Module.ParentOf
  constructor
  · intro hk
    cases hinfo : (M.linkAll M.getDirectTypeInfo)[i]? with
    | none =>
        rw [hinfo] at hk
        cases hk
    | some info =>
        obtain ⟨ha, -, hnames⟩ := hframed.get' hinfo
        rw [hinfo, Option.map_some, Option.getD_some, List.mem_iff_getElem?] at hk
        obtain ⟨j, hj⟩ := hk
        -- the list of parents and `parentIndexAt` read the same slot
        have hindex : parentIndexAt (M.linkAll M.getDirectTypeInfo) i j = some k := by
          unfold parentIndexAt
          rw [hinfo, Option.bind_some, ← List.getElem?_map]
          exact hj
        refine ⟨_, ha, j, ?_, parentIndexAt_linkAll hindex⟩
        rw [← hnames, List.length_map]
        simpa using (List.getElem?_eq_some_iff.mp hj).1
  · rintro ⟨a, ha, j, hj, hindex⟩
    obtain ⟨info, hinfo, -, -, hnames⟩ := hframed.get ha
    rw [← hnames, List.length_map] at hj
    have hfound : parentIndexAt (M.linkAll M.getDirectTypeInfo) i j =
        some info.directParents[j].typeIndex := by
      unfold parentIndexAt
      rw [hinfo, Option.bind_some, List.getElem?_eq_getElem hj, Option.map_some]
    rw [hinfo, Option.map_some, Option.getD_some, List.mem_map]
    exact ⟨_, List.getElem_mem hj, (parentIndexAt_linkAll hfound).unique hindex⟩

end Loop

/-! ## The closures -/

section Closures

variable {M : Module}

theorem Module.PhantomOf.lt {i k : ℕ} (h : M.PhantomOf i k) : k < M.classTypes.length := by
  obtain ⟨⟨_, _, -, hk, -⟩, -⟩ := h
  exact (List.getElem?_eq_some_iff.mp hk).1

/-- The searches stay among the class types. -/
theorem Module.Related.lt {i k : ℕ} (h : M.Related i k) : k < M.classTypes.length := by
  rcases h with ⟨a, ha, j, -, ⟨⟨-, _, b, -, hb, -⟩, -⟩ | ⟨-, rfl⟩⟩ | hphantom
  · exact (List.getElem?_eq_some_iff.mp hb).1
  · exact Nat.zero_lt_of_lt (List.getElem?_eq_some_iff.mp ha).1
  · exact hphantom.lt

/-- A search over the table returns what it reaches. -/
theorem descend_nodes {infos : List TypeInfo} {nodes : List TypeInfo → ℕ → List ℕ} {R : ℕ → ℕ → Prop}
    (hnodes : ∀ i k, k ∈ nodes infos i ↔ R i k) (hlt : ∀ i k, R i k → k < infos.length) {i : ℕ}
    (hi : i < infos.length) :
    ∃ found, descend (nodes infos) (infos.length + 1) [] i = some found ∧
      ∀ k, k ∈ found ↔ Relation.ReflTransGen R i k := by
  have hground : ∀ a ∈ Finset.range infos.length, ∀ b ∈ nodes infos a,
      b ∈ Finset.range infos.length :=
    fun a _ b hb => Finset.mem_range.mpr (hlt a b ((hnodes a b).mp hb))
  have hfuel : (Finset.range infos.length).card < infos.length + 1 := by simp
  obtain ⟨found, hfound, hmem⟩ := mem_descend_iff hground hfuel (Finset.mem_range.mpr hi)
  have hbelow : Below (nodes infos) i = Relation.ReflTransGen R i := by
    unfold Below
    simp only [hnodes]
  refine ⟨found, hfound, fun k => ?_⟩
  rw [hmem, hbelow]

/-- A search over the table collects the details of what it reaches. -/
theorem mem_extendSet {infos : List TypeInfo} {nodes : List TypeInfo → ℕ → List ℕ} {R : ℕ → ℕ → Prop}
    (hnodes : ∀ i k, k ∈ nodes infos i ↔ R i k) (hlt : ∀ i k, R i k → k < infos.length) {i : ℕ}
    (hi : i < infos.length) (detail : TypeDetailInfo) :
    detail ∈ extendSet nodes infos i ↔
      ∃ k info, Relation.ReflTransGen R i k ∧ infos[k]? = some info ∧ info.detailInfo = detail := by
  obtain ⟨found, hfound, hmem⟩ := descend_nodes hnodes hlt hi
  rw [extendSet, hfound, Option.getD_some, List.mem_filterMap]
  simp only [hmem, Option.map_eq_some_iff, exists_and_left]

/-- An entry is the linked one, with what the searches from it find. -/
theorem getElem?_extendTypeRelationInfo {i : ℕ} {info : TypeInfo}
    (hinfo : (M.extendTypeRelationInfo M.getDirectTypeInfo)[i]? = some info) :
    i < (M.linkAll M.getDirectTypeInfo).length ∧
      ∃ linked, (M.linkAll M.getDirectTypeInfo)[i]? = some linked ∧
        info = { linked with
          allParents := extendParentSet (M.linkAll M.getDirectTypeInfo) i
          allPhantomTypes := extendPhantomSet (M.linkAll M.getDirectTypeInfo) i } := by
  unfold Module.extendTypeRelationInfo at hinfo
  dsimp only at hinfo
  rw [List.getElem?_mapIdx] at hinfo
  obtain ⟨linked, hlinked, rfl⟩ := Option.map_eq_some_iff.mp hinfo
  exact ⟨(List.getElem?_eq_some_iff.mp hlinked).1, linked, hlinked, rfl⟩

/-- **What `extendTypeRelationInfo` computes**: the names of `AllParents` are those of
the class types that `Related` reaches, and those of `AllPhantomTypes` are among them. -/
theorem allParents_spec {i : ℕ} {info : TypeInfo}
    (hinfo : (M.extendTypeRelationInfo M.getDirectTypeInfo)[i]? = some info) :
    M.classTypes[i]? = some info.structTy ∧
      info.detailInfo.typeName = M.typeName info.structTy ∧
      (∀ name, (∃ detail ∈ info.allParents, detail.typeName = name) ↔
        ∃ k a, Relation.ReflTransGen M.Related i k ∧ M.classTypes[k]? = some a ∧
          M.typeName a = name) ∧
      ∀ detail ∈ info.allPhantomTypes, detail ∈ info.allParents := by
  have hframed := (linked_linkAll (M := M)).framed
  have hlength := hframed.length_eq
  obtain ⟨hi, linked, hlinked, rfl⟩ := getElem?_extendTypeRelationInfo hinfo
  obtain ⟨hstruct, hdetail, -⟩ := hframed.get' hlinked
  have hparents : ∀ detail, detail ∈ extendParentSet (M.linkAll M.getDirectTypeInfo) i ↔ _ :=
    mem_extendSet (fun i k => mem_parentNodes)
      (fun i k hk => hlength.symm ▸ Module.Related.lt hk) hi
  have hphantoms : ∀ detail, detail ∈ extendPhantomSet (M.linkAll M.getDirectTypeInfo) i ↔ _ :=
    mem_extendSet (fun i k => mem_phantomNodes)
      (fun i k hk => hlength.symm ▸ Module.PhantomOf.lt hk) hi
  refine ⟨hstruct, by rw [hdetail], fun name => ?_, fun detail hmem => ?_⟩
  · simp only [hparents]
    constructor
    · rintro ⟨_, ⟨k, reached, hpath, hreached, rfl⟩, rfl⟩
      obtain ⟨ha, hname, -⟩ := hframed.get' hreached
      exact ⟨k, _, hpath, ha, by rw [hname]⟩
    · rintro ⟨k, a, hpath, ha, rfl⟩
      obtain ⟨reached, hreached, -, hname, -⟩ := hframed.get ha
      exact ⟨_, ⟨k, reached, hpath, hreached, rfl⟩, by rw [hname]⟩
  · obtain ⟨k, reached, hpath, hreached, rfl⟩ := (hphantoms detail).mp hmem
    refine (hparents _).mpr ⟨k, reached, ?_, hreached, rfl⟩
    exact Relation.ReflTransGen.mono (fun _ _ hphantom => .inr hphantom) _ _ hpath

/-- There is one entry for every class type. -/
theorem length_extendTypeRelationInfo :
    (M.extendTypeRelationInfo M.getDirectTypeInfo).length = M.classTypes.length := by
  unfold Module.extendTypeRelationInfo
  dsimp only
  rw [List.length_mapIdx, linked_linkAll.framed.length_eq]

end Closures

end Bitype.Pass
