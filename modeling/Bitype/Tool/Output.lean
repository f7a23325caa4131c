import Bitype.Tool.Coding
import Bitype.Tool.Families

/-!
# The files the tool writes

`writeFiles` is what `main` does after the traversal: it searches the graphs, codes the
families and writes a file of codes, a file of the sizes of the families of the
cast-related classes and a file of the downcast classes among the bases of each
cast-related class.  A file is the list of its lines, a line its comma-separated parts.

`rows_range` bounds what is written for every run, whether or not its families are sound.
-/

namespace Bitype.Tool

open Bitype.Foundations

/-- The lines of `coding-num.txt`, `castrelated-set.txt` and `safecast.txt`. -/
structure ToolOutput where
  codingNum : List (Name × ℕ)
  castrelatedSet : List (Name × ℕ)
  safecast : List (Name × List Name)
deriving DecidableEq

/-- The body of the outer loop of `calculateRelatedClass`. -/
def relateBasedClass (relations : Std.TreeMap Name (List Name))
    (castrelatedClass : Std.TreeSet Name) (baseClass : Name) : Std.TreeSet Name :=
  relations.toList.foldl
    (fun castrelatedClass tempRelation =>
      if castrelatedClass.contains tempRelation.1 then castrelatedClass
      else if baseClass ∈ tempRelation.2 then castrelatedClass.insert tempRelation.1
      else castrelatedClass)
    (castrelatedClass.insert baseClass)

/-- `calculateRelatedClass`. -/
def calculateRelatedClass (s : Collector) : Std.TreeSet Name :=
  s.downCastVec.toList.foldl (fun castrelatedClass downClass => castrelatedClass.insert downClass)
    (s.basedCastClass.toList.foldl (relateBasedClass s.relations) ∅)

/-- `outputCodeResult`; a class without a name ends the program.  It has no return statement
behind the loop: the file has been closed by then, and its caller drops the result. -/
def outputCodeResult (s : Collector) (result : Std.TreeMap ℕ ℕ) : Option (List (Name × ℕ)) :=
  result.toList.mapM fun rowResult =>
    (s.numberName[rowResult.1]?).map fun className => (className, rowResult.2)

/-- `outputCastedRelatedSet`; classes that are not cast-related and families without a
code are left out. -/
def outputCastedRelatedSet (s : Collector) (castrelatedClass : Std.TreeSet Name)
    (result : Std.TreeMap ℕ ℕ) : Option (List (Name × ℕ)) :=
  (outputCodeResult s result).map fun rows =>
    rows.filter fun row => castrelatedClass.contains row.1 && 0 < row.2

/-- `outputSafeCast`. -/
def outputSafeCast (s : Collector) (castrelatedClass : Std.TreeSet Name) :
    List (Name × List Name) :=
  (s.relations.toList.filter fun tempSet => castrelatedClass.contains tempSet.1).map
    fun tempSet => (tempSet.1, tempSet.2.filter fun tempclass => s.downCastVec.contains tempclass)

/-- `main` after the traversal. -/
def writeFiles (s : Collector) : Option ToolOutput := do
  let castrelatedClass := calculateRelatedClass s
  let result ← DFS s.graph s.currentIndex
  let phantomSets ← DFS s.graphPhantoms s.currentIndex
  let maps := codingFunc s.numberName s.downCastVec phantomSets result
  let codingNum ← outputCodeResult s maps.1
  let castrelatedSet ← outputCastedRelatedSet s castrelatedClass maps.2
  some ⟨codingNum, castrelatedSet, outputSafeCast s castrelatedClass⟩

/-- `out` is what the tool writes after some visits.  The marks of `DFS` have room for
`MAX_NUM_CLASS` classes. -/
def Writes (out : ToolOutput) : Prop :=
  ∃ visits s, traversal.run visits Collector.empty = some s ∧ s.currentIndex ≤ MAX_NUM_CLASS ∧
    writeFiles s = some out

/-! ## The range of the codes -/

section Range

variable {numberName : Std.TreeMap ℕ Name} {downCastVec : Std.TreeSet Name}
  {phantomSet : List (List ℕ)} {bound : ℕ}

/-- Every code is between one and `bound`. -/
def CodesWithin (bound : ℕ) (result : Std.TreeMap ℕ ℕ) : Prop :=
  ∀ c code : ℕ, result[c]? = some code → 1 ≤ code ∧ code ≤ bound

theorem CodesWithin.insertIfNew {result : Std.TreeMap ℕ ℕ} {a code : ℕ}
    (h : CodesWithin bound result) (hcode : 1 ≤ code ∧ code ≤ bound) :
    CodesWithin bound (result.insertIfNew a code) := by
  intro c code' hc
  rw [getElem?_insertIfNew] at hc
  split at hc
  · exact Option.some.inj hc ▸ hcode
  · exact h c code' hc

theorem CodesWithin.insertAll {result : Std.TreeMap ℕ ℕ} {classes : List ℕ} {code : ℕ}
    (h : CodesWithin bound result) (hcode : 1 ≤ code ∧ code ≤ bound) :
    CodesWithin bound (insertAll result classes code) := by
  intro c code' hc
  rw [getElem?_insertAll] at hc
  split at hc
  · exact Option.some.inj hc ▸ hcode
  · exact h c code' hc

variable (numberName downCastVec phantomSet) in
/-- One member takes at most one number. -/
theorem codeMember_range {st : FamilyState} (c : ℕ) (h : CodesWithin bound st.result)
    (hindex : st.familySize < st.currentIndex ∧ st.currentIndex ≤ bound) :
    CodesWithin bound (codeMember numberName downCastVec phantomSet st c).result ∧
      (codeMember numberName downCastVec phantomSet st c).familySize <
        (codeMember numberName downCastVec phantomSet st c).currentIndex ∧
      (codeMember numberName downCastVec phantomSet st c).currentIndex ≤ st.currentIndex + 1 := by
  have hcode : 1 ≤ st.currentIndex ∧ st.currentIndex ≤ bound := ⟨by omega, hindex.2⟩
  unfold codeMember
  split
  · exact ⟨h, hindex.1, Nat.le_succ _⟩
  split
  · exact ⟨h, hindex.1, Nat.le_succ _⟩
  · refine ⟨CodesWithin.insertIfNew ?_ hcode, Nat.lt_succ_self _, le_refl _⟩
    split
    · exact h.insertAll hcode
    · exact h

/-- A family takes at most as many numbers as it has members. -/
theorem foldl_codeMember_range :
    ∀ (members : List ℕ) (st : FamilyState), CodesWithin bound st.result →
      st.familySize < st.currentIndex → st.currentIndex + members.length ≤ bound + 1 →
      CodesWithin bound
          (members.foldl (codeMember numberName downCastVec phantomSet) st).result ∧
        (members.foldl (codeMember numberName downCastVec phantomSet) st).familySize ≤ bound := by
  intro members
  induction members with
  | nil =>
      intro st h hless hlength
      rw [List.length_nil] at hlength
      exact ⟨h, show st.familySize ≤ bound by omega⟩
  | cons c rest ih =>
      intro st h hless hlength
      rw [List.length_cons] at hlength
      obtain ⟨hnext, hless', hle⟩ :=
        codeMember_range numberName downCastVec phantomSet c h ⟨hless, by omega⟩
      exact ih _ hnext hless' (by omega)

/-- Codes and family sizes are at most `bound`. -/
def MapsWithin (bound : ℕ) (maps : Std.TreeMap ℕ ℕ × Std.TreeMap ℕ ℕ) : Prop :=
  CodesWithin bound maps.1 ∧ ∀ c size : ℕ, maps.2[c]? = some size → size ≤ bound

theorem codingFunc_range :
    ∀ (families : List (List ℕ)) (maps : Std.TreeMap ℕ ℕ × Std.TreeMap ℕ ℕ),
      (∀ F ∈ families, F.length ≤ bound) → MapsWithin bound maps →
      MapsWithin bound (families.foldl (codeFamily numberName downCastVec phantomSet) maps) := by
  intro families
  induction families with
  | nil => exact fun maps _ h => h
  | cons F rest ih =>
      intro maps hlength h
      have hF := hlength F List.mem_cons_self
      obtain ⟨hcodes, hsize⟩ := foldl_codeMember_range F ⟨maps.1, 0, 1⟩ h.1 Nat.one_pos
        (by dsimp only; omega)
      refine ih _ (fun G hG => hlength G (List.mem_cons_of_mem _ hG)) ⟨hcodes, fun c size hc => ?_⟩
      rw [codeFamily, getElem?_insertAll] at hc
      split at hc
      · exact Option.some.inj hc ▸ hsize
      · exact h.2 c size hc

end Range

/-- What a successful pass over a list returns comes from its members. -/
theorem exists_of_mem_mapM {α β : Type} {f : α → Option β} :
    ∀ (l : List α) (out : List β), l.mapM f = some out → ∀ b ∈ out, ∃ a ∈ l, f a = some b := by
  intro l
  induction l with
  | nil =>
      intro out hout b hb
      obtain rfl := Option.some.inj hout
      exact absurd hb List.not_mem_nil
  | cons a rest ih =>
      intro out hout b hb
      simp only [List.mapM_cons, Option.bind_eq_bind, Option.bind_eq_some_iff,
        Option.pure_def, Option.some.injEq] at hout
      obtain ⟨first, hfirst, others, hothers, rfl⟩ := hout
      rcases List.mem_cons.mp hb with rfl | hb
      · exact ⟨a, List.mem_cons_self, hfirst⟩
      · obtain ⟨a', ha', hf⟩ := ih others hothers b hb
        exact ⟨a', List.mem_cons_of_mem _ ha', hf⟩

/-- Each member of the list has something in what a successful pass returns. -/
theorem exists_mem_of_mapM {α β : Type} {f : α → Option β} :
    ∀ (l : List α) (out : List β), l.mapM f = some out → ∀ a ∈ l, ∃ b ∈ out, f a = some b := by
  intro l
  induction l with
  | nil => exact fun _ _ a ha => absurd ha List.not_mem_nil
  | cons first rest ih =>
      intro out hout a ha
      simp only [List.mapM_cons, Option.bind_eq_bind, Option.bind_eq_some_iff,
        Option.pure_def, Option.some.injEq] at hout
      obtain ⟨b, hb, others, hothers, rfl⟩ := hout
      rcases List.mem_cons.mp ha with rfl | ha
      · exact ⟨b, List.mem_cons_self, hb⟩
      · obtain ⟨b', hb', hf⟩ := ih others hothers a ha
        exact ⟨b', List.mem_cons_of_mem _ hb', hf⟩

/-- The rows of a map. -/
theorem mem_outputCodeResult {s : Collector} {result : Std.TreeMap ℕ ℕ} {rows : List (Name × ℕ)}
    (hrows : outputCodeResult s result = some rows) {row : Name × ℕ} (hrow : row ∈ rows) :
    ∃ c : ℕ, result[c]? = some row.2 ∧ s.numberName[c]? = some row.1 := by
  obtain ⟨entry, hentry, hmap⟩ := exists_of_mem_mapM _ _ hrows row hrow
  obtain ⟨className, hname, rfl⟩ := Option.map_eq_some_iff.mp hmap
  exact ⟨entry.1, Std.TreeMap.mem_toList_iff_getElem?_eq_some.mp hentry, hname⟩

/-- **Codes are positive and fit, and sizes fit**, in everything the tool writes. -/
theorem rows_range {out : ToolOutput} (hout : Writes out) :
    (∀ row ∈ out.codingNum, 1 ≤ row.2 ∧ row.2 ≤ MAX_NUM_CLASS) ∧
      ∀ row ∈ out.castrelatedSet, row.2 ≤ MAX_NUM_CLASS := by
  obtain ⟨visits, s, -, hroom, hfinish⟩ := hout
  obtain ⟨families, hfamilies, hpartition, -⟩ := components_spec s.graph s.currentIndex
  -- the numbers of a family are distinct and below `currentIndex`
  have hlength : ∀ F ∈ families, F.length ≤ MAX_NUM_CLASS := by
    intro F hF
    have hnodup : F.Nodup := (List.nodup_flatten.mp hpartition.nodup).1 F hF
    have hlt : ∀ c ∈ F, c < s.currentIndex :=
      fun c hc => (hpartition.cover c).mp (List.mem_flatten.mpr ⟨F, hF, hc⟩)
    exact (length_le_of_nodup hnodup hlt).trans hroom
  unfold writeFiles at hfinish
  simp only [Option.bind_eq_bind, Option.bind_eq_some_iff] at hfinish
  obtain ⟨families', hfamilies', phantomSets, -, codingNum, hcodes, castrelatedSet, hsizes, hsome⟩ :=
    hfinish
  obtain rfl := Option.some.inj (hfamilies.symm.trans hfamilies')
  obtain rfl := Option.some.inj hsome
  have hempty : MapsWithin MAX_NUM_CLASS (∅, ∅) := by
    constructor
    · exact fun c code hcode => by simp at hcode
    · exact fun c size hsize => by simp at hsize
  obtain ⟨hcodeRange, hsizeRange⟩ := codingFunc_range families _ hlength hempty
  constructor
  · intro row hrow
    obtain ⟨c, hc, -⟩ := mem_outputCodeResult hcodes hrow
    exact hcodeRange c row.2 hc
  · intro row hrow
    obtain ⟨rows, hrows, heq⟩ := Option.map_eq_some_iff.mp hsizes
    rw [← heq] at hrow
    obtain ⟨c, hc, -⟩ := mem_outputCodeResult hrows (List.mem_of_mem_filter hrow)
    exact hsizeRange c row.2 hc

/-! ## Finished runs -/

/-- A run of the tool up to its files.  With exactly `MAX_NUM_CLASS` names the searches of the
source look at the mark behind the last one, as `boundedDFS` says; here they go on as they do
with fewer names. -/
structure ToolRun where
  visits : List Visit
  state : Collector
  families : List (List ℕ)
  phantomSets : List (List ℕ)
  output : ToolOutput
  run_eq : traversal.run visits Collector.empty = some state
  room : state.currentIndex ≤ MAX_NUM_CLASS
  families_eq : DFS state.graph state.currentIndex = some families
  phantoms_eq : DFS state.graphPhantoms state.currentIndex = some phantomSets
  output_eq : writeFiles state = some output

namespace ToolRun

variable (R : ToolRun)

theorem writes : Writes R.output := ⟨R.visits, R.state, R.run_eq, R.room, R.output_eq⟩

/-- The phantom sets lie inside the families, as they do when every edge of `graph` goes
both ways. -/
def Refining : Prop := ∀ P ∈ R.phantomSets, ∃ F ∈ R.families, ∀ c ∈ P, c ∈ F

/-- The codes and the family sizes by number. -/
def maps : Std.TreeMap ℕ ℕ × Std.TreeMap ℕ ℕ :=
  codingFunc R.state.numberName R.state.downCastVec R.phantomSets R.families

variable {R}

theorem partition {matrix : ℕ → ℕ → Bool} {result : List (List ℕ)}
    (h : DFS matrix R.state.currentIndex = some result) :
    IsPartition result (· < R.state.currentIndex) := by
  obtain ⟨result', hresult, hpartition, -⟩ := components_spec matrix R.state.currentIndex
  obtain rfl := Option.some.inj (hresult.symm.trans h)
  exact hpartition

/-- Every family of the run has been coded. -/
theorem coded (hrefine : R.Refining) {family : List ℕ} (hfamily : family ∈ R.families) :
    Coded R.state.numberName R.state.downCastVec R.phantomSets R.maps family := by
  have hfamilies := partition R.families_eq
  have hphantoms := partition R.phantoms_eq
  have hrefines : ∀ F ∈ R.families, Refines R.phantomSets F :=
    fun F hF => refines_of_partition hfamilies hphantoms hrefine hF
  exact (foldl_codeFamily_spec _ _ hrefines R.families [] (∅, ∅) (fun _ hF => hF) hfamilies.nodup
    (by simp) (by simp)).1 family hfamily

/-- Where the rows of the files come from. -/
theorem rows_eq : ∃ castrelatedClass,
    outputCodeResult R.state R.maps.1 = some R.output.codingNum ∧
    outputCastedRelatedSet R.state castrelatedClass R.maps.2 = some R.output.castrelatedSet := by
  have hout := R.output_eq
  unfold writeFiles at hout
  simp only [R.families_eq, R.phantoms_eq, Option.bind_eq_bind, Option.bind_some,
    Option.bind_eq_some_iff] at hout
  obtain ⟨codingNum, hcodes, castrelatedSet, hsizes, hsome⟩ := hout
  have houtput := Option.some.inj hsome
  refine ⟨calculateRelatedClass R.state, ?_, ?_⟩
  · rw [← houtput]
    exact hcodes
  · rw [← houtput]
    exact hsizes

/-- A row of codes. -/
theorem code_row {name : Name} {code : ℕ} (hrow : (name, code) ∈ R.output.codingNum) :
    ∃ c, HasIndex name c R.state ∧ R.maps.1[c]? = some code := by
  obtain ⟨_, hcodes, -⟩ := R.rows_eq
  obtain ⟨c, hcode, hname⟩ := mem_outputCodeResult hcodes hrow
  exact ⟨c, ((run_named R.run_eq).code_iff name c).mpr hname, hcode⟩

/-- A row of family sizes. -/
theorem size_row {name : Name} {size : ℕ} (hrow : (name, size) ∈ R.output.castrelatedSet) :
    ∃ c, HasIndex name c R.state ∧ R.maps.2[c]? = some size := by
  obtain ⟨_, -, hsizes⟩ := R.rows_eq
  obtain ⟨rows, hrows, heq⟩ := Option.map_eq_some_iff.mp hsizes
  rw [← heq] at hrow
  obtain ⟨c, hsize, hname⟩ := mem_outputCodeResult hrows (List.mem_of_mem_filter hrow)
  exact ⟨c, ((run_named R.run_eq).code_iff name c).mpr hname, hsize⟩

end ToolRun

end Bitype.Tool
