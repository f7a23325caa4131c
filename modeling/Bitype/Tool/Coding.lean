import Bitype.Foundations.GraphSearch
import Bitype.Tool.Visit

/-!
# Codes

`codingFunc` numbers the classes of each family that can be the target of a cast.
It walks a family in order and gives the next number to a downcast class that has
none, and to the whole phantom set of that class, whose members cannot be told apart
by a check.  Numbers start from one in every family.

`Coded` says what is true of one family when it has been walked, `Walked` what is
true in the middle of the walk.  Both speak of phantom sets through `SameSet`, so
nothing depends on the order of families, of their members or of the phantom sets.
-/

namespace Bitype.Tool

open Bitype.Foundations

/-! ## `codingFunc` -/

section Definitions

variable (numberName : Std.TreeMap ℕ Name) (downCastVec : Std.TreeSet Name)
  (phantomSet : List (List ℕ))

/-- The class has a name, and the name is a downcast target. -/
def isDownCast (currentClass : ℕ) : Bool :=
  downCastVec.contains ((numberName[currentClass]?).getD [])

/-- `result.insert` for every member of a set, which overwrites nothing. -/
def insertAll (result : Std.TreeMap ℕ ℕ) (classes : List ℕ) (code : ℕ) : Std.TreeMap ℕ ℕ :=
  classes.foldl (fun result tempClass => result.insertIfNew tempClass code) result

/-- The variables of the inner loop. -/
structure FamilyState where
  result : Std.TreeMap ℕ ℕ
  familySize : ℕ
  currentIndex : ℕ

/-- The body of the inner loop. -/
def codeMember (st : FamilyState) (currentClass : ℕ) : FamilyState :=
  if !isDownCast numberName downCastVec currentClass then st
  else if st.result.contains currentClass then st
  else
    let result :=
      match phantomSet.find? (currentClass ∈ ·) with
      | some tempPhantom => insertAll st.result tempPhantom st.currentIndex
      | none => st.result
    { result := result.insertIfNew currentClass st.currentIndex
      familySize := st.currentIndex
      currentIndex := st.currentIndex + 1 }

/-- The body of the outer loop, on `result` and `relatedResult`. -/
def codeFamily (maps : Std.TreeMap ℕ ℕ × Std.TreeMap ℕ ℕ) (tempVec : List ℕ) :
    Std.TreeMap ℕ ℕ × Std.TreeMap ℕ ℕ :=
  let st := tempVec.foldl (codeMember numberName downCastVec phantomSet) ⟨maps.1, 0, 1⟩
  (st.result, insertAll maps.2 tempVec st.familySize)

/-- `codingFunc`, from empty maps. -/
def codingFunc (filteredFamily : List (List ℕ)) : Std.TreeMap ℕ ℕ × Std.TreeMap ℕ ℕ :=
  filteredFamily.foldl (codeFamily numberName downCastVec phantomSet) (∅, ∅)

end Definitions

/-! ## Insertions -/

theorem getElem?_insertIfNew (result : Std.TreeMap ℕ ℕ) (a code c : ℕ) :
    (result.insertIfNew a code)[c]? =
      if c = a ∧ result[c]? = none then some code else result[c]? := by
  rw [Std.TreeMap.getElem?_insertIfNew]
  simp only [Std.LawfulEqCmp.compare_eq_iff_eq]
  by_cases hac : a = c
  · subst hac
    have hmem : a ∉ result ↔ result[a]? = none := by
      rw [← Std.TreeMap.isSome_getElem?_iff_mem]
      simp
    simp only [true_and, hmem]
  · simp only [hac, Ne.symm hac, false_and, if_false]

/-- An insertion changes the entries of members that had none. -/
theorem getElem?_insertAll (code c : ℕ) :
    ∀ (classes : List ℕ) (result : Std.TreeMap ℕ ℕ), (insertAll result classes code)[c]? =
      if c ∈ classes ∧ result[c]? = none then some code else result[c]? := by
  intro classes
  induction classes with
  | nil => intro result; simp [insertAll]
  | cons a rest ih =>
      intro result
      have hstep : insertAll result (a :: rest) code =
          insertAll (result.insertIfNew a code) rest code := rfl
      rw [hstep, ih, getElem?_insertIfNew]
      simp only [List.mem_cons]
      by_cases hca : c = a
      · subst hca
        by_cases hnone : result[c]? = none
        · simp [hnone]
        · simp [hnone]
      · simp only [hca, false_and, if_false, false_or]

/-! ## One family -/

section Family

variable {numberName : Std.TreeMap ℕ Name} {downCastVec : Std.TreeSet Name}
  {phantomSet : List (List ℕ)}

/-- A downcast class is in the phantom set of `c`. -/
def NeedsCode (numberName : Std.TreeMap ℕ Name) (downCastVec : Std.TreeSet Name)
    (phantomSet : List (List ℕ)) (c : ℕ) : Prop :=
  ∃ d, isDownCast numberName downCastVec d = true ∧ SameSet phantomSet c d

/-- A family in the middle of its walk: `seen` are the members walked so far, `before`
the map at the start. -/
structure Walked (numberName : Std.TreeMap ℕ Name) (downCastVec : Std.TreeSet Name)
    (phantomSet : List (List ℕ)) (family : List ℕ) (before : Std.TreeMap ℕ ℕ) (seen : List ℕ)
    (st : FamilyState) : Prop where
  index_eq : st.currentIndex = st.familySize + 1
  frame : ∀ c ∉ family, st.result[c]? = before[c]?
  coded : ∀ c ∈ family, st.result[c]? ≠ none ↔
    ∃ d ∈ seen, isDownCast numberName downCastVec d = true ∧ SameSet phantomSet c d
  range : ∀ c ∈ family, ∀ n, st.result[c]? = some n → 1 ≤ n ∧ n ≤ st.familySize
  onto : ∀ n, 1 ≤ n → n ≤ st.familySize → ∃ c ∈ family, st.result[c]? = some n
  same : ∀ c ∈ family, ∀ d ∈ family, ∀ n, st.result[c]? = some n →
    (st.result[d]? = some n ↔ SameSet phantomSet c d)

/-- What is assumed of the phantom sets, relative to one family. -/
structure Refines (phantomSet : List (List ℕ)) (family : List ℕ) : Prop where
  covered : ∀ c ∈ family, ∃ P ∈ phantomSet, c ∈ P
  inside : ∀ P ∈ phantomSet, ∀ c ∈ P, c ∈ family → ∀ d ∈ P, d ∈ family
  disjoint : ∀ P ∈ phantomSet, ∀ Q ∈ phantomSet, ∀ c, c ∈ P → c ∈ Q → P = Q

variable {family : List ℕ} {before : Std.TreeMap ℕ ℕ} {seen : List ℕ} {st : FamilyState}

theorem sameSet_symm {sets : List (List ℕ)} {c d : ℕ} (h : SameSet sets c d) :
    SameSet sets d c := by
  obtain ⟨S, hS, hc, hd⟩ := h
  exact ⟨S, hS, hd, hc⟩

theorem sameSet_trans {c d e : ℕ} (hphantoms : Refines phantomSet family)
    (h : SameSet phantomSet c d) (h' : SameSet phantomSet d e) : SameSet phantomSet c e := by
  obtain ⟨P, hP, hc, hd⟩ := h
  obtain ⟨Q, hQ, hd', he⟩ := h'
  obtain rfl := hphantoms.disjoint P hP Q hQ d hd hd'
  exact ⟨P, hP, hc, he⟩

/-- The phantom set the inner loop finds. -/
theorem find?_phantom (hphantoms : Refines phantomSet family) {currentClass : ℕ}
    (hmem : currentClass ∈ family) :
    ∃ P, phantomSet.find? (fun P => decide (currentClass ∈ P)) = some P ∧ currentClass ∈ P ∧
      ∀ c, c ∈ P ↔ SameSet phantomSet currentClass c := by
  obtain ⟨Q, hQ, hmemQ⟩ := hphantoms.covered currentClass hmem
  cases hfind : phantomSet.find? (fun P => decide (currentClass ∈ P)) with
  | none => exact absurd hmemQ (by simpa using List.find?_eq_none.mp hfind Q hQ)
  | some P =>
      have hP := List.mem_of_find?_eq_some hfind
      have hmemP : currentClass ∈ P := by simpa using List.find?_some hfind
      refine ⟨P, rfl, hmemP, fun c => ⟨fun hc => ⟨P, hP, hmemP, hc⟩, ?_⟩⟩
      rintro ⟨R, hR, hmemR, hc⟩
      exact hphantoms.disjoint P hP R hR currentClass hmemP hmemR ▸ hc

/-- A member that needs no new number. -/
theorem Walked.skip (h : Walked numberName downCastVec phantomSet family before seen st)
    {currentClass : ℕ} (hskip : isDownCast numberName downCastVec currentClass = true →
      ∀ c ∈ family, SameSet phantomSet c currentClass → st.result[c]? ≠ none) :
    Walked numberName downCastVec phantomSet family before (seen ++ [currentClass]) st := by
  refine { h with coded := fun c hc => ?_ }
  constructor
  · intro hcoded
    obtain ⟨d, hd, hrest⟩ := (h.coded c hc).mp hcoded
    exact ⟨d, List.mem_append_left _ hd, hrest⟩
  · rintro ⟨d, hd, hdown, hsame⟩
    rcases List.mem_append.mp hd with hd | hd
    · exact (h.coded c hc).mpr ⟨d, hd, hdown, hsame⟩
    · obtain rfl := List.mem_singleton.mp hd
      exact hskip hdown c hc hsame

section Fresh

variable {currentClass : ℕ} {P : List ℕ} {result : Std.TreeMap ℕ ℕ}

/-- The members of a phantom set have a code together or not at all. -/
theorem Walked.fresh (hphantoms : Refines phantomSet family) (hmem : currentClass ∈ family)
    (h : Walked numberName downCastVec phantomSet family before seen st)
    (hP : ∀ c, c ∈ P ↔ SameSet phantomSet currentClass c)
    (hnone : st.result[currentClass]? = none) :
    ∀ c ∈ P, c ∈ family ∧ st.result[c]? = none := by
  intro c hc
  obtain ⟨R, hR, hmemR, hcR⟩ := (hP c).mp hc
  have hinside : c ∈ family := hphantoms.inside R hR currentClass hmemR hmem c hcR
  refine ⟨hinside, ?_⟩
  by_contra hcoded
  obtain ⟨d, hd, hdown, hsame⟩ := (h.coded c hinside).mp hcoded
  exact (h.coded currentClass hmem).mpr
    ⟨d, hd, hdown, sameSet_trans hphantoms ((hP c).mp hc) hsame⟩ hnone

/-- The new number tells the phantom set from the rest of the family. -/
theorem Walked.assign_same (hphantoms : Refines phantomSet family)
    (h : Walked numberName downCastVec phantomSet family before seen st)
    (hP : ∀ c, c ∈ P ↔ SameSet phantomSet currentClass c)
    (hresult : ∀ c, result[c]? = if c ∈ P then some st.currentIndex else st.result[c]?) :
    ∀ c ∈ family, ∀ d ∈ family, ∀ n, result[c]? = some n →
      (result[d]? = some n ↔ SameSet phantomSet c d) := by
  intro c hc d hd n hn
  have hindex := h.index_eq
  rw [hresult] at hn ⊢
  by_cases hcP : c ∈ P
  · rw [if_pos hcP, Option.some.injEq] at hn
    subst hn
    by_cases hdP : d ∈ P
    · rw [if_pos hdP]
      exact iff_of_true rfl
        (sameSet_trans hphantoms (sameSet_symm ((hP c).mp hcP)) ((hP d).mp hdP))
    · rw [if_neg hdP]
      refine iff_of_false (fun hcode => ?_) fun hsame => hdP ?_
      · -- the number has not been given before
        have := h.range d hd _ hcode
        omega
      · exact (hP d).mpr (sameSet_trans hphantoms ((hP c).mp hcP) hsame)
  · rw [if_neg hcP] at hn
    by_cases hdP : d ∈ P
    · rw [if_pos hdP]
      refine iff_of_false (fun hcode => ?_) fun hsame => hcP ?_
      · have := h.range c hc n hn
        rw [Option.some.injEq] at hcode
        omega
      · exact (hP c).mpr (sameSet_trans hphantoms ((hP d).mp hdP) (sameSet_symm hsame))
    · rw [if_neg hdP]
      exact h.same c hc d hd n hn

/-- A phantom set without a code gets the next number. -/
theorem Walked.assign (hphantoms : Refines phantomSet family) (hmem : currentClass ∈ family)
    (h : Walked numberName downCastVec phantomSet family before seen st)
    (hdown : isDownCast numberName downCastVec currentClass = true)
    (hmemP : currentClass ∈ P) (hP : ∀ c, c ∈ P ↔ SameSet phantomSet currentClass c)
    (hfresh : ∀ c ∈ P, c ∈ family ∧ st.result[c]? = none)
    (hresult : ∀ c, result[c]? = if c ∈ P then some st.currentIndex else st.result[c]?) :
    Walked numberName downCastVec phantomSet family before (seen ++ [currentClass])
      ⟨result, st.currentIndex, st.currentIndex + 1⟩ := by
  have hindex := h.index_eq
  refine ⟨rfl, ?_, ?_, ?_, ?_, h.assign_same hphantoms hP hresult⟩
  · intro c hc
    have hcP : c ∉ P := fun hcP => hc (hfresh c hcP).1
    rw [hresult, if_neg hcP]
    exact h.frame c hc
  · intro c hc
    rw [hresult]
    -- the members of the set get the number, the others keep theirs
    by_cases hcP : c ∈ P
    · simp only [if_pos hcP, ne_eq, reduceCtorEq, not_false_eq_true, true_iff]
      exact ⟨currentClass, by simp, hdown, sameSet_symm ((hP c).mp hcP)⟩
    · rw [if_neg hcP, h.coded c hc]
      constructor
      · rintro ⟨d, hd, hrest⟩
        exact ⟨d, List.mem_append_left _ hd, hrest⟩
      · rintro ⟨d, hd, hdown', hsame⟩
        rcases List.mem_append.mp hd with hd | hd
        · exact ⟨d, hd, hdown', hsame⟩
        · rw [List.mem_singleton] at hd
          exact absurd ((hP c).mpr (sameSet_symm (hd ▸ hsame))) hcP
  · intro c hc n hn
    rw [hresult] at hn
    by_cases hcP : c ∈ P
    · rw [if_pos hcP, Option.some.injEq] at hn
      simp only
      omega
    · rw [if_neg hcP] at hn
      have := h.range c hc n hn
      simp only
      omega
  · intro n hpos hle
    simp only at hle
    simp only [hresult]
    -- numbers below were taken before, the next one is taken by `currentClass`
    rcases Nat.lt_or_ge n st.currentIndex with hlt | hge
    · obtain ⟨c, hc, hn⟩ := h.onto n hpos (by omega)
      have hcP : c ∉ P := fun hcP => by
        rw [(hfresh c hcP).2] at hn
        cases hn
      exact ⟨c, hc, by rw [if_neg hcP, hn]⟩
    · obtain rfl : n = st.currentIndex := by omega
      exact ⟨currentClass, hmem, if_pos hmemP⟩

end Fresh

/-- **One member.** -/
theorem codeMember_spec (hphantoms : Refines phantomSet family) {currentClass : ℕ}
    (hmem : currentClass ∈ family)
    (h : Walked numberName downCastVec phantomSet family before seen st) :
    Walked numberName downCastVec phantomSet family before (seen ++ [currentClass])
      (codeMember numberName downCastVec phantomSet st currentClass) := by
  unfold codeMember
  by_cases hdown : isDownCast numberName downCastVec currentClass = true
  · rw [hdown, Bool.not_true]
    by_cases hold : st.result.contains currentClass = true
    · -- the class got its code with another member of its phantom set
      simp only [Bool.false_eq_true, if_false, hold, if_true]
      have hcoded : st.result[currentClass]? ≠ none := by
        rw [Std.TreeMap.contains_eq_isSome_getElem?] at hold
        intro hnone
        simp [hnone] at hold
      apply h.skip
      intro _ c hc hsame
      obtain ⟨e, he, hdown', hsame'⟩ := (h.coded currentClass hmem).mp hcoded
      exact (h.coded c hc).mpr ⟨e, he, hdown', sameSet_trans hphantoms hsame hsame'⟩
    · -- the class and its phantom set get the next number
      obtain ⟨P, hfind, hmemP, hP⟩ := find?_phantom hphantoms hmem
      have hnone : st.result[currentClass]? = none := by
        rw [Std.TreeMap.contains_eq_isSome_getElem?] at hold
        simpa using hold
      have hfresh := h.fresh hphantoms hmem hP hnone
      simp only [Bool.false_eq_true, if_false, hold, hfind]
      apply h.assign hphantoms hmem hdown hmemP hP hfresh
      intro c
      rw [getElem?_insertIfNew, getElem?_insertAll]
      by_cases hc : c ∈ P
      · simp [hc, (hfresh c hc).2]
      · have hne : c ≠ currentClass := fun heq => hc (heq ▸ hmemP)
        simp [hc, hne]
  · simp only [hdown, Bool.not_false, if_true]
    exact h.skip fun hdown' => absurd hdown' hdown

/-- The members one after the other. -/
theorem foldl_codeMember_spec (hphantoms : Refines phantomSet family) :
    ∀ (rest seen : List ℕ) (st : FamilyState), (∀ c ∈ rest, c ∈ family) →
      Walked numberName downCastVec phantomSet family before seen st →
      Walked numberName downCastVec phantomSet family before (seen ++ rest)
        (rest.foldl (codeMember numberName downCastVec phantomSet) st) := by
  intro rest
  induction rest with
  | nil =>
      intro seen st _ h
      rw [List.append_nil]
      exact h
  | cons c rest ih =>
      intro seen st hrest h
      rw [List.foldl_cons, List.append_cons]
      exact ih _ _ (fun d hd => hrest d (List.mem_cons_of_mem _ hd))
        (codeMember_spec hphantoms (hrest c List.mem_cons_self) h)

/-- A family that has been coded. -/
structure Coded (numberName : Std.TreeMap ℕ Name) (downCastVec : Std.TreeSet Name)
    (phantomSet : List (List ℕ)) (maps : Std.TreeMap ℕ ℕ × Std.TreeMap ℕ ℕ)
    (family : List ℕ) : Prop where
  coded : ∀ c ∈ family, maps.1[c]? ≠ none ↔ NeedsCode numberName downCastVec phantomSet c
  same : ∀ c ∈ family, ∀ d ∈ family, maps.1[c]? ≠ none → maps.1[d]? ≠ none →
    (maps.1[c]? = maps.1[d]? ↔ SameSet phantomSet c d)
  size : ∃ k, (∀ n, (∃ c ∈ family, maps.1[c]? = some n) ↔ 1 ≤ n ∧ n ≤ k) ∧
    ∀ c ∈ family, maps.2[c]? = some k

/-- Being coded is about the entries of the members. -/
theorem Coded.congr {maps maps' : Std.TreeMap ℕ ℕ × Std.TreeMap ℕ ℕ}
    (h : Coded numberName downCastVec phantomSet maps family)
    (hmaps : ∀ c ∈ family, maps'.1[c]? = maps.1[c]? ∧ maps'.2[c]? = maps.2[c]?) :
    Coded numberName downCastVec phantomSet maps' family := by
  obtain ⟨k, hcodes, hrelated⟩ := h.size
  refine ⟨?_, ?_, k, fun n => ?_, ?_⟩
  · intro c hc
    rw [(hmaps c hc).1, h.coded c hc]
  · intro c hc d hd
    rw [(hmaps c hc).1, (hmaps d hd).1]
    exact h.same c hc d hd
  · rw [← hcodes n]
    refine exists_congr fun c => and_congr_right fun hc => ?_
    rw [(hmaps c hc).1]
  · intro c hc
    rw [(hmaps c hc).2, hrelated c hc]

variable (numberName downCastVec) in
/-- **One family.** -/
theorem codeFamily_spec (hphantoms : Refines phantomSet family)
    {maps : Std.TreeMap ℕ ℕ × Std.TreeMap ℕ ℕ}
    (hnew : ∀ c ∈ family, maps.1[c]? = none ∧ maps.2[c]? = none) :
    Coded numberName downCastVec phantomSet
        (codeFamily numberName downCastVec phantomSet maps family) family ∧
      ∀ c ∉ family,
        (codeFamily numberName downCastVec phantomSet maps family).1[c]? = maps.1[c]? ∧
        (codeFamily numberName downCastVec phantomSet maps family).2[c]? = maps.2[c]? := by
  -- the walk starts with no member coded
  have hstart : Walked numberName downCastVec phantomSet family maps.1 [] ⟨maps.1, 0, 1⟩ := by
    refine ⟨rfl, fun _ _ => rfl, ?_, ?_, ?_, ?_⟩
    · intro c hc
      simp [(hnew c hc).1]
    · intro c hc n hn
      rw [(hnew c hc).1] at hn
      cases hn
    · intro n hpos hle
      simp only at hle
      omega
    · intro c hc d _ n hn
      rw [(hnew c hc).1] at hn
      cases hn
  have hwalked := foldl_codeMember_spec hphantoms family [] _ (fun _ hc => hc) hstart
  rw [List.nil_append] at hwalked
  have hrelated : ∀ c, (codeFamily numberName downCastVec phantomSet maps family).2[c]? =
      if c ∈ family ∧ maps.2[c]? = none then
        some (family.foldl (codeMember numberName downCastVec phantomSet) ⟨maps.1, 0, 1⟩).familySize
      else maps.2[c]? := fun c => getElem?_insertAll _ c family maps.2
  have hresult : (codeFamily numberName downCastVec phantomSet maps family).1 =
      (family.foldl (codeMember numberName downCastVec phantomSet) ⟨maps.1, 0, 1⟩).result := rfl
  generalize family.foldl (codeMember numberName downCastVec phantomSet) ⟨maps.1, 0, 1⟩ = st at *
  refine ⟨⟨?_, ?_, st.familySize, fun n => ⟨?_, ?_⟩, fun c hc => ?_⟩, fun c hc => ⟨?_, ?_⟩⟩
  · intro c hc
    rw [hresult]
    refine (hwalked.coded c hc).trans ⟨?_, ?_⟩
    · rintro ⟨d, _, hdown, hsame⟩
      exact ⟨d, hdown, hsame⟩
    -- the partner is of the same family, so the walk meets it
    · rintro ⟨d, hdown, P, hP, hcP, hdP⟩
      exact ⟨d, hphantoms.inside P hP c hcP hc d hdP, hdown, P, hP, hcP, hdP⟩
  · intro c hc d hd hcoded _
    rw [hresult] at hcoded ⊢
    obtain ⟨n, hn⟩ := Option.ne_none_iff_exists'.mp hcoded
    rw [hn, eq_comm]
    exact hwalked.same c hc d hd n hn
  · rintro ⟨c, hc, hn⟩
    exact hwalked.range c hc n (hresult ▸ hn)
  · rintro ⟨hpos, hle⟩
    rw [hresult]
    exact hwalked.onto n hpos hle
  · rw [hrelated, if_pos ⟨hc, (hnew c hc).2⟩]
  · rw [hresult]
    exact hwalked.frame c hc
  · rw [hrelated, if_neg fun h => hc h.1]

end Family

/-! ## All families -/

/-- Sets of a partition that share a member are equal. -/
theorem partition_disjoint {sets : List (List ℕ)} {ground : ℕ → Prop}
    (h : IsPartition sets ground) {S T : List ℕ} (hS : S ∈ sets) (hT : T ∈ sets) {c : ℕ}
    (hcS : c ∈ S) (hcT : c ∈ T) : S = T := by
  by_contra hne
  have : Std.Symm (@List.Disjoint ℕ) := ⟨fun _ _ h => h.symm⟩
  have hdisjoint := (List.nodup_flatten.mp h.nodup).2.forall hS hT hne
  exact hdisjoint hcS hcT

section Families

variable {numberName : Std.TreeMap ℕ Name} {downCastVec : Std.TreeSet Name}
  {phantomSet families : List (List ℕ)} {ground : ℕ → Prop}

theorem refines_of_partition (hfamilies : IsPartition families ground)
    (hphantoms : IsPartition phantomSet ground)
    (hrefine : ∀ P ∈ phantomSet, ∃ F ∈ families, ∀ c ∈ P, c ∈ F) {family : List ℕ}
    (hfamily : family ∈ families) : Refines phantomSet family := by
  refine ⟨?_, ?_, fun P hP Q hQ c => partition_disjoint hphantoms hP hQ⟩
  · intro c hc
    have hground := (hfamilies.cover c).mp (List.mem_flatten.mpr ⟨family, hfamily, hc⟩)
    exact List.mem_flatten.mp ((hphantoms.cover c).mpr hground)
  · intro P hP c hcP hc d hdP
    obtain ⟨F, hF, hPF⟩ := hrefine P hP
    rw [partition_disjoint hfamilies hfamily hF hc (hPF c hcP)]
    exact hPF d hdP

variable (numberName downCastVec) in
/-- The families one after the other. -/
theorem foldl_codeFamily_spec (hphantoms : ∀ F ∈ families, Refines phantomSet F) :
    ∀ (rest done : List (List ℕ)) (maps : Std.TreeMap ℕ ℕ × Std.TreeMap ℕ ℕ),
      (∀ F ∈ rest, F ∈ families) → (done ++ rest).flatten.Nodup →
      (∀ F ∈ done, Coded numberName downCastVec phantomSet maps F) →
      (∀ c ∉ done.flatten, maps.1[c]? = none ∧ maps.2[c]? = none) →
      (∀ F ∈ done ++ rest, Coded numberName downCastVec phantomSet
        (rest.foldl (codeFamily numberName downCastVec phantomSet) maps) F) ∧
      ∀ c ∉ (done ++ rest).flatten,
        (rest.foldl (codeFamily numberName downCastVec phantomSet) maps).1[c]? = none := by
  intro rest
  induction rest with
  | nil =>
      intro done maps _ _ hdone hfresh
      rw [List.append_nil]
      exact ⟨hdone, fun c hc => (hfresh c hc).1⟩
  | cons F rest ih =>
      intro done maps hrest hnodup hdone hfresh
      rw [List.append_cons] at hnodup ⊢
      -- families have no class in common, so the codes of the earlier ones stay
      have hdisjoint : ∀ c ∈ F, c ∉ done.flatten := by
        intro c hc hcdone
        rw [List.flatten_append, List.flatten_append, List.flatten_singleton] at hnodup
        exact (List.nodup_append.mp (List.nodup_append.mp hnodup).1).2.2 c hcdone c hc rfl
      obtain ⟨hcoded, hframe⟩ := codeFamily_spec numberName downCastVec (hphantoms F (hrest F List.mem_cons_self))
        fun c hc => hfresh c (hdisjoint c hc)
      refine ih (done ++ [F]) _ (fun G hG => hrest G (List.mem_cons_of_mem _ hG)) hnodup ?_ ?_
      · intro G hG
        rcases List.mem_append.mp hG with hG | hG
        · refine (hdone G hG).congr fun c hc => hframe c fun hcF => ?_
          exact hdisjoint c hcF (List.mem_flatten.mpr ⟨G, hG, hc⟩)
        · rw [List.mem_singleton.mp hG]
          exact hcoded
      · intro c hc
        rw [List.flatten_append, List.flatten_singleton, List.mem_append, not_or] at hc
        obtain ⟨hfirst, hsecond⟩ := hframe c hc.2
        rw [hfirst, hsecond]
        exact hfresh c hc.1

/-- **`codingFunc` codes what has to be coded.**  For families that partition the
numbered classes and phantom sets that refine them: the coded classes are those that
share a phantom set with a downcast class; in a family, equal codes mean equal phantom
sets; and the codes of a family are the numbers from one to the size written for each
of its members. -/
theorem codingFunc_correct (hfamilies : IsPartition families ground)
    (hphantoms : IsPartition phantomSet ground)
    (hrefine : ∀ P ∈ phantomSet, ∃ F ∈ families, ∀ c ∈ P, c ∈ F)
    (hnamed : ∀ c, ground c → ∃ name, numberName[c]? = some name) :
    let maps := codingFunc numberName downCastVec phantomSet families
    (∀ c, maps.1[c]? ≠ none ↔ ∃ P ∈ phantomSet, c ∈ P ∧
      ∃ d ∈ P, ∃ name, numberName[d]? = some name ∧ name ∈ downCastVec) ∧
    ∀ family ∈ families,
      (∀ c ∈ family, ∀ d ∈ family, maps.1[c]? ≠ none → maps.1[d]? ≠ none →
        (maps.1[c]? = maps.1[d]? ↔ ∃ P ∈ phantomSet, c ∈ P ∧ d ∈ P)) ∧
      ∃ k, (∀ n, (∃ c ∈ family, maps.1[c]? = some n) ↔ 1 ≤ n ∧ n ≤ k) ∧
        ∀ c ∈ family, maps.2[c]? = some k := by
  intro maps
  obtain ⟨hcoded, hfresh⟩ := foldl_codeFamily_spec numberName downCastVec
    (fun F hF => refines_of_partition hfamilies hphantoms hrefine hF) families [] (∅, ∅)
    (fun _ hF => hF) hfamilies.nodup (by simp) (by simp)
  rw [List.nil_append] at hcoded hfresh
  have hdown : ∀ d, ground d → (isDownCast numberName downCastVec d = true ↔
      ∃ name, numberName[d]? = some name ∧ name ∈ downCastVec) := by
    intro d hd
    obtain ⟨name, hname⟩ := hnamed d hd
    simp [isDownCast, hname, Std.TreeSet.contains_iff_mem]
  have hneeds : ∀ c, NeedsCode numberName downCastVec phantomSet c ↔
      ∃ P ∈ phantomSet, c ∈ P ∧
        ∃ d ∈ P, ∃ name, numberName[d]? = some name ∧ name ∈ downCastVec := by
    intro c
    constructor
    · rintro ⟨d, hd, P, hP, hcP, hdP⟩
      have hground := (hphantoms.cover d).mp (List.mem_flatten.mpr ⟨P, hP, hdP⟩)
      exact ⟨P, hP, hcP, d, hdP, (hdown d hground).mp hd⟩
    · rintro ⟨P, hP, hcP, d, hdP, hd⟩
      have hground := (hphantoms.cover d).mp (List.mem_flatten.mpr ⟨P, hP, hdP⟩)
      exact ⟨d, (hdown d hground).mpr hd, P, hP, hcP, hdP⟩
  refine ⟨fun c => ?_, fun family hfamily => ?_⟩
  -- a class without a number is in no family and in no phantom set
  · by_cases hground : ground c
    · obtain ⟨F, hF, hcF⟩ := List.mem_flatten.mp ((hfamilies.cover c).mpr hground)
      exact ((hcoded F hF).coded c hcF).trans (hneeds c)
    · refine iff_of_false (fun hne => hne (hfresh c fun hc => hground ((hfamilies.cover c).mp hc))) ?_
      rintro ⟨P, hP, hcP, _⟩
      exact hground ((hphantoms.cover c).mp (List.mem_flatten.mpr ⟨P, hP, hcP⟩))
  · exact ⟨(hcoded family hfamily).same, (hcoded family hfamily).size⟩

end Families

/-- Two families; the phantom set `{0, 1}` has a downcast member, and so has `{3}`. -/
theorem codingFunc_correct_sample :
    let numberName : Std.TreeMap ℕ Name := .ofList [(0, ['A']), (1, ['B']), (2, ['C']), (3, ['D'])]
    let downCastVec : Std.TreeSet Name := .ofList [['B'], ['D']]
    let maps := codingFunc numberName downCastVec [[0, 1], [2], [3]] [[0, 1, 2], [3]]
    (∀ c, maps.1[c]? ≠ none ↔ ∃ P ∈ [[0, 1], [2], [3]], c ∈ P ∧
      ∃ d ∈ P, ∃ name, numberName[d]? = some name ∧ name ∈ downCastVec) ∧
    ∀ family ∈ [[0, 1, 2], [3]],
      (∀ c ∈ family, ∀ d ∈ family, maps.1[c]? ≠ none → maps.1[d]? ≠ none →
        (maps.1[c]? = maps.1[d]? ↔ ∃ P ∈ [[0, 1], [2], [3]], c ∈ P ∧ d ∈ P)) ∧
      ∃ k, (∀ n, (∃ c ∈ family, maps.1[c]? = some n) ↔ 1 ≤ n ∧ n ≤ k) ∧
        ∀ c ∈ family, maps.2[c]? = some k := by
  intro numberName downCastVec
  have hcover : ∀ c, c ∈ [0, 1, 2, 3] ↔ c < 4 := by
    intro c
    simp only [List.mem_cons, List.not_mem_nil, or_false]
    omega
  refine codingFunc_correct ⟨by decide, hcover⟩ ⟨by decide, hcover⟩
    (by decide) ?_
  intro c hc
  have : c = 0 ∨ c = 1 ∨ c = 2 ∨ c = 3 := by omega
  rcases this with rfl | rfl | rfl | rfl <;> exact ⟨_, rfl⟩

end Bitype.Tool
