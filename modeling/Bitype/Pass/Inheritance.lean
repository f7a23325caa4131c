import Bitype.Pass.RoundTrip
import Bitype.Tool.Relations

/-!
# The safe-cast relation, from the tool to the pass

`outputSafeCast` writes for each cast-related class the downcast targets among its
bases, `readInheritanceSet` reads them back.  A line without a second column is skipped,
so a class without such a base gets no entry.
-/

namespace Bitype.Pass

open Bitype.Foundations Bitype.Tool

/-! ## The reader -/

/-- The loop of `readInheritanceSet` over the columns of a line, and the last column. -/
def inheritanceNames (splitLine : Name × Name) : List Name :=
  if _ : splitLine.2 = [] then (if splitLine.1 = [] then [] else [splitLine.1])
  else splitLine.1 :: inheritanceNames (splitFirst ',' splitLine.2)
termination_by splitLine.2.length
decreasing_by exact length_splitFirst_lt ',' ‹_›

/-- The loop body of `readInheritanceSet`. -/
def readInheritanceLine (bitypeInheritanceSet : Std.TreeMap Name (Std.TreeSet Name))
    (line : Name) : Std.TreeMap Name (Std.TreeSet Name) :=
  if line = [] then bitypeInheritanceSet
  else
    let splitLine := splitFirst ',' line
    if splitLine.2 = [] then bitypeInheritanceSet
    else
      bitypeInheritanceSet.insertIfNew splitLine.1
        (Std.TreeSet.ofList (inheritanceNames splitLine))

/-- `readInheritanceSet`. -/
def BitypeUtil.readInheritanceSet (text : Name) : Std.TreeMap Name (Std.TreeSet Name) :=
  (pieces '\n' text).foldl readInheritanceLine ∅

/-! ## Lines that were written -/

/-- The text of `safecast.txt`. -/
def safeCastText (rows : List (Name × List Name)) : Name := fileText (rows.map safeCastLine)

/-- The columns after the first. -/
def restColumns : List Name → Name
  | [] => []
  | column :: rest => column ++ rest.flatMap fun column => ',' :: column

theorem splitFirst_columns {first : Name} (h : ',' ∉ first) (rest : List Name) :
    splitFirst ',' (first ++ rest.flatMap fun column => ',' :: column) =
      (first, restColumns rest) := by
  cases rest with
  | nil =>
      rw [List.flatMap_nil, List.append_nil]
      exact splitFirst_of_notMem h
  | cons column rest =>
      rw [List.flatMap_cons, List.cons_append]
      exact splitFirst_append h _

theorem restColumns_eq_nil {rest : List Name} (h : ∀ column ∈ rest, Plain column) :
    restColumns rest = [] ↔ rest = [] := by
  cases rest with
  | nil => exact iff_of_true rfl rfl
  | cons column rest =>
      have hne := (h column List.mem_cons_self).nonempty
      simp [restColumns, hne]

/-- **The columns of a line are read back.** -/
theorem inheritanceNames_columns :
    ∀ (rest : List Name) (first : Name), Plain first → (∀ column ∈ rest, Plain column) →
      inheritanceNames (first, restColumns rest) = first :: rest := by
  intro rest
  induction rest with
  | nil =>
      intro first hfirst _
      rw [inheritanceNames]
      exact (dif_pos rfl).trans (if_neg hfirst.nonempty)
  | cons column rest ih =>
      intro first _ hrest
      obtain ⟨hcolumn, hrest'⟩ := List.forall_mem_cons.mp hrest
      have hne : restColumns (column :: rest) ≠ [] := by
        rw [ne_eq, restColumns_eq_nil hrest]
        exact List.cons_ne_nil _ _
      rw [inheritanceNames, dif_neg hne, restColumns, splitFirst_columns hcolumn.comma,
        ih column hcolumn hrest']

/-- A line that was written, as the reader takes it. -/
theorem readInheritanceLine_safeCastLine {row : Name × List Name} (hname : Plain row.1)
    (htargets : ∀ target ∈ row.2, Plain target)
    (bitypeInheritanceSet : Std.TreeMap Name (Std.TreeSet Name)) :
    readInheritanceLine bitypeInheritanceSet (safeCastLine row) =
      if row.2 = [] then bitypeInheritanceSet
      else bitypeInheritanceSet.insertIfNew row.1 (Std.TreeSet.ofList (row.1 :: row.2)) := by
  have hne : safeCastLine row ≠ [] := by
    simp [safeCastLine, hname.nonempty]
  unfold readInheritanceLine
  rw [if_neg hne]
  dsimp only
  rw [safeCastLine, splitFirst_columns hname.comma, inheritanceNames_columns _ _ hname htargets]
  simp only [restColumns_eq_nil htargets]

theorem newline_notMem_safeCastLine {row : Name × List Name} (hname : Plain row.1)
    (htargets : ∀ target ∈ row.2, Plain target) : '\n' ∉ safeCastLine row := by
  rw [safeCastLine, List.mem_append, List.mem_flatMap, not_or]
  refine ⟨hname.newline, ?_⟩
  rintro ⟨target, htarget, hmem⟩
  rcases List.mem_cons.mp hmem with heq | hmem
  · exact absurd heq (by decide)
  · exact (htargets target htarget).newline hmem

/-- Rows of `outputSafeCast` that can be written and read back. -/
structure PrintableSets (rows : List (Name × List Name)) : Prop where
  nodup : (rows.map Prod.fst).Nodup
  plain : ∀ row ∈ rows, Plain row.1 ∧ ∀ target ∈ row.2, Plain target

/-- **`readInheritanceSet` on the file**: the rows that name a target, each with its own
class. -/
theorem readInheritanceSet_safeCastText {rows : List (Name × List Name)} (h : PrintableSets rows) :
    BitypeUtil.readInheritanceSet (safeCastText rows) =
      firstWins ((rows.filter fun row => !row.2.isEmpty).map fun row =>
        (row.1, Std.TreeSet.ofList (row.1 :: row.2))) := by
  have hlines : pieces '\n' (safeCastText rows) = rows.map safeCastLine := by
    apply pieces_fileText
    intro line hline
    obtain ⟨row, hrow, rfl⟩ := List.mem_map.mp hline
    exact newline_notMem_safeCastLine (h.plain row hrow).1 (h.plain row hrow).2
  unfold BitypeUtil.readInheritanceSet firstWins
  rw [hlines, List.foldl_map, List.foldl_map, List.foldl_filter]
  apply List.foldl_ext
  intro bitypeInheritanceSet row hrow
  rw [readInheritanceLine_safeCastLine (h.plain row hrow).1 (h.plain row hrow).2]
  cases row.2 with
  | nil => rfl
  | cons target rest => rfl

/-- The entries. -/
theorem getElem?_readInheritanceSet {rows : List (Name × List Name)} (h : PrintableSets rows)
    {className : Name} {entry : Std.TreeSet Name} :
    (BitypeUtil.readInheritanceSet (safeCastText rows))[className]? = some entry ↔
      ∃ targets, (className, targets) ∈ rows ∧ targets ≠ [] ∧
        entry = Std.TreeSet.ofList (className :: targets) := by
  have hnodup : (((rows.filter fun row => !row.2.isEmpty).map fun row =>
      (row.1, Std.TreeSet.ofList (row.1 :: row.2))).map Prod.fst).Nodup := by
    rw [List.map_map]
    exact h.nodup.sublist (List.filter_sublist.map Prod.fst)
  rw [readInheritanceSet_safeCastText h, getElem?_firstWins_of_nodup hnodup]
  simp only [List.mem_map, List.mem_filter, Prod.exists, Prod.mk.injEq]
  constructor
  · rintro ⟨_, targets, ⟨hrow, hne⟩, rfl, rfl⟩
    exact ⟨targets, hrow, by simpa using hne, rfl⟩
  · rintro ⟨targets, hrow, hne, rfl⟩
    exact ⟨className, targets, ⟨hrow, by simpa using hne⟩, rfl, rfl⟩

/-! ## The rows and the text -/

theorem lineNames_plain :
    ∀ (rest : List Name) (first : Name), Plain first → (∀ column ∈ rest, Plain column) →
      lineNames first rest = first :: rest := by
  intro rest
  induction rest with
  | nil =>
      intro first hfirst _
      exact if_neg hfirst.nonempty
  | cons column rest ih =>
      intro first _ hrest
      obtain ⟨hcolumn, hrest'⟩ := List.forall_mem_cons.mp hrest
      have hne : column :: rest ≠ [[]] := fun h => hcolumn.nonempty (List.cons.inj h).1
      rw [lineNames, if_neg hne, ih column hcolumn hrest']

/-- **`initReadFiles` reads what the text of the files holds.** -/
theorem initReadFiles_text {out : ToolOutput} (hcodes : Printable out.codingNum)
    (hsizes : Printable out.castrelatedSet) (hsets : PrintableSets out.safecast) :
    (∀ (name : Name) (code : ℕ), (initReadFiles out).bitypeCodeMap[name]? = some code ↔
      (BitypeUtil.readCodeMap (rowsText out.codingNum))[name]? = some (code : ℤ)) ∧
    (∀ (name : Name) (size : ℕ), (initReadFiles out).bitypeCastRelatedClass[name]? = some size ↔
      (BitypeUtil.readRelatedClass (rowsText out.castrelatedSet)).bitypeCastRelatedClass[name]? =
        some (size : ℤ)) ∧
    (initReadFiles out).bitypeInheritanceSet =
      BitypeUtil.readInheritanceSet (safeCastText out.safecast) := by
  refine ⟨fun name code => ?_, fun name size => ?_, ?_⟩
  · show (firstWins out.codingNum)[name]? = some code ↔ _
    rw [readCodeMap_rowsText hcodes, getElem?_firstWins_of_nodup hcodes.nodup]
    simp
  · show (firstWins out.castrelatedSet)[name]? = some size ↔ _
    rw [readRelatedClass_rowsText hsizes, getElem?_firstWins_of_nodup hsizes.nodup]
    simp
  · rw [readInheritanceSet_safeCastText hsets, initReadFiles, readInheritanceSet, firstWins,
      List.foldl_map, List.foldl_filter]
    apply List.foldl_ext
    intro bitypeInheritanceSet row hrow
    obtain ⟨hname, htargets⟩ := hsets.plain row hrow
    rw [lineNames_plain row.2 row.1 hname htargets]
    cases htail : row.2 with
    | nil => rfl
    | cons target rest =>
        rw [htail] at htargets
        have hne : ¬ (target :: rest = [] ∨ target :: rest = [[]]) := by
          rintro (h | h)
          · cases h
          · exact (htargets target List.mem_cons_self).nonempty (List.cons.inj h).1
        rw [if_neg hne]
        rfl

/-! ## The relation -/

section Survives

variable {visits : List Visit} {s : Collector}

/-- Every class that the visits record bases for, and every base, has a name of one
column. -/
def WellNamed (visits : List Visit) : Prop :=
  ∀ v ∈ visits, ∀ decl ∈ v.classes, Plain decl.name ∧
    ∀ base, CXXRecordDecl.TransitiveBase decl base → Plain base.name

/-- The source of a downcast, a class derived from one, or a target. -/
def CastRelated (visits : List Visit) (className : Name) : Prop :=
  DownCastSource visits className ∨
    (∃ source, DownCastSource visits source ∧ DerivedFrom visits className source) ∨
    DownCastTarget visits className

theorem WellNamed.named (h : WellNamed visits) : ∀ v ∈ visits, v.Named := fun v hv decl hdecl =>
  ⟨(h v hv decl hdecl).1.nonempty, fun base hbase => ((h v hv decl hdecl).2 base hbase).nonempty⟩

/-- The classes `relations` speaks of have names of one column. -/
theorem WellNamed.plain (h : WellNamed visits) {className base : Name}
    (hbase : DerivedFrom visits className base) : Plain className ∧ Plain base := by
  obtain ⟨v, hv, decl, hdecl, rfl, baseDecl, hpath, rfl⟩ := hbase
  exact ⟨(h v hv decl hdecl).1, (h v hv decl hdecl).2 baseDecl hpath⟩

/-- The bases of a class among the downcast targets. -/
theorem mem_safeCastRow {bases : List Name} {target : Name} :
    target ∈ bases.filter (fun tempclass => s.downCastVec.contains tempclass) ↔
      target ∈ bases ∧ target ∈ s.downCastVec := by
  rw [List.mem_filter, Std.TreeSet.contains_iff_mem]

theorem mem_outputSafeCast {castrelatedClass : Std.TreeSet Name} {row : Name × List Name} :
    row ∈ outputSafeCast s castrelatedClass ↔
      ∃ bases, s.relations[row.1]? = some bases ∧ row.1 ∈ castrelatedClass ∧
        row.2 = bases.filter fun tempclass => s.downCastVec.contains tempclass := by
  unfold outputSafeCast
  simp only [List.mem_map, List.mem_filter, Prod.exists, Std.TreeMap.mem_toList_iff_getElem?_eq_some,
    Std.TreeSet.contains_iff_mem]
  constructor
  · rintro ⟨className, bases, ⟨hbases, hrelated⟩, rfl⟩
    exact ⟨bases, hbases, hrelated, rfl⟩
  · rintro ⟨bases, hbases, hrelated, htargets⟩
    exact ⟨row.1, bases, ⟨hbases, hrelated⟩, Prod.ext rfl htargets.symm⟩

/-- The rows of a run can be written and read back. -/
theorem printableSets_outputSafeCast (h : WellNamed visits)
    (hrun : traversal.run visits Collector.empty = some s) (castrelatedClass : Std.TreeSet Name) :
    PrintableSets (outputSafeCast s castrelatedClass) := by
  obtain ⟨hrecorded, hnone, -, -⟩ := run_recorded h.named hrun
  constructor
  · have hkeys : (s.relations.toList.map Prod.fst).Nodup := by
      rw [Std.TreeMap.map_fst_toList_eq_keys]
      exact Std.TreeMap.nodup_keys
    rw [outputSafeCast, List.map_map]
    exact hkeys.sublist (List.filter_sublist.map Prod.fst)
  · intro row hrow
    obtain ⟨bases, hbases, -, htargets⟩ := mem_outputSafeCast.mp hrow
    have hplain : ∀ base ∈ bases, Plain row.1 ∧ Plain base := fun base hbase =>
      h.plain ((hrecorded row.1 base).mp ⟨bases, hbases, hbase⟩)
    obtain ⟨base, hbase⟩ := List.exists_mem_of_ne_nil _ (hnone row.1 bases hbases)
    refine ⟨(hplain base hbase).1, fun target htarget => ?_⟩
    rw [htargets, mem_safeCastRow] at htarget
    exact (hplain target htarget.1).2

/-- **The safe-cast relation survives.**  For every sequence of visits: the pass has an
entry for a class iff the class is cast-related, `relations` has a base of it, and a
downcast target is among its transitive bases; the entry is the class with these
targets. -/
theorem inheritance_survives (hnamed : WellNamed visits)
    (hrun : traversal.run visits Collector.empty = some s) (className : Name) :
    (className ∈ BitypeUtil.readInheritanceSet
        (safeCastText (outputSafeCast s (calculateRelatedClass s))) ↔
      CastRelated visits className ∧ (∃ base, Recorded s className base) ∧
        ∃ target, DerivedFrom visits className target ∧ DownCastTarget visits target) ∧
    ∀ entry, (BitypeUtil.readInheritanceSet
        (safeCastText (outputSafeCast s (calculateRelatedClass s))))[className]? = some entry →
      ∀ name, name ∈ entry ↔
        name = className ∨ DerivedFrom visits className name ∧ DownCastTarget visits name := by
  obtain ⟨hrecorded, -, htarget, hsource⟩ := run_recorded hnamed.named hrun
  have hprint := printableSets_outputSafeCast hnamed hrun (calculateRelatedClass s)
  have hrelated : className ∈ calculateRelatedClass s ↔ CastRelated visits className := by
    rw [mem_calculateRelatedClass, CastRelated]
    simp only [htarget, hsource, hrecorded]
  -- an entry comes from the one row of the class
  have hentry : ∀ entry, (BitypeUtil.readInheritanceSet
      (safeCastText (outputSafeCast s (calculateRelatedClass s))))[className]? = some entry ↔
      ∃ bases, s.relations[className]? = some bases ∧ CastRelated visits className ∧
        (∃ target ∈ bases, target ∈ s.downCastVec) ∧
        entry = Std.TreeSet.ofList (className ::
          bases.filter fun tempclass => s.downCastVec.contains tempclass) := by
    intro entry
    rw [getElem?_readInheritanceSet hprint]
    simp only [mem_outputSafeCast, hrelated]
    constructor
    · rintro ⟨_, ⟨bases, hbases, hcast, rfl⟩, hne, rfl⟩
      obtain ⟨target, hmem⟩ := List.exists_mem_of_ne_nil _ hne
      exact ⟨bases, hbases, hcast, ⟨target, mem_safeCastRow.mp hmem⟩, rfl⟩
    · rintro ⟨bases, hbases, hcast, ⟨target, hmem⟩, rfl⟩
      exact ⟨_, ⟨bases, hbases, hcast, rfl⟩, List.ne_nil_of_mem (mem_safeCastRow.mpr hmem), rfl⟩
  -- and the row lists the transitive bases
  have hbases : ∀ bases, s.relations[className]? = some bases → ∀ base, base ∈ bases ↔
      DerivedFrom visits className base := by
    intro bases hlookup base
    rw [← hrecorded]
    constructor
    · exact fun hbase => ⟨bases, hlookup, hbase⟩
    · rintro ⟨bases', hlookup', hbase⟩
      exact Option.some.inj (hlookup.symm.trans hlookup') ▸ hbase
  constructor
  · rw [← Std.TreeMap.isSome_getElem?_iff_mem, Option.isSome_iff_exists]
    simp only [hentry]
    constructor
    · rintro ⟨_, bases, hlookup, hcast, ⟨target, hmem, hdown⟩, -⟩
      refine ⟨hcast, ⟨target, bases, hlookup, hmem⟩, target, ?_, (htarget target).mp hdown⟩
      exact (hbases bases hlookup target).mp hmem
    · rintro ⟨hcast, ⟨-, bases, hlookup, -⟩, target, hderived, hdown⟩
      refine ⟨_, bases, hlookup, hcast, ⟨target, ?_, (htarget target).mpr hdown⟩, rfl⟩
      exact (hbases bases hlookup target).mpr hderived
  · intro entry hlookup name
    obtain ⟨bases, hrow, -, -, rfl⟩ := (hentry entry).mp hlookup
    rw [Std.TreeSet.mem_ofList, List.contains_iff_mem, List.mem_cons, mem_safeCastRow,
      hbases bases hrow, htarget]

end Survives

/-- `B` derived from `A`. -/
def middleClass : CXXRecordDecl := sampleClass ['B'] [sampleClass ['A'] []]

/-- `C` derived from `B`, and a downcast from `A` to `B`. -/
def chainVisits : List Visit :=
  [.recordDecl (sampleClass ['C'] [middleClass]),
    .castExpr (.baseToDerived none (some middleClass) (some (sampleClass ['A'] [])))]

theorem chainVisits_wellNamed : WellNamed chainVisits := by
  have hnames : ∀ v ∈ chainVisits, ∀ decl ∈ v.classes,
      ∀ name ∈ decl.name :: (collectAllBases decl).map CXXRecordDecl.name,
        name ≠ [] ∧ ',' ∉ name ∧ '\n' ∉ name := by decide +kernel
  have hplain : ∀ v ∈ chainVisits, ∀ decl ∈ v.classes,
      ∀ name ∈ decl.name :: (collectAllBases decl).map CXXRecordDecl.name, Plain name := by
    intro v hv decl hdecl name hname
    obtain ⟨hne, hcomma, hnewline⟩ := hnames v hv decl hdecl name hname
    exact ⟨hne, hcomma, hnewline⟩
  refine fun v hv decl hdecl => ⟨hplain v hv decl hdecl _ List.mem_cons_self, fun base hbase => ?_⟩
  exact hplain v hv decl hdecl _ (List.mem_cons_of_mem _ (mem_baseNames.mpr ⟨base, hbase, rfl⟩))

/-- The entry of `C`, of which `A` is the source and `B` the target of a downcast. -/
theorem inheritance_survives_sample : ∃ s, traversal.run chainVisits Collector.empty = some s ∧
    ['C'] ∈ BitypeUtil.readInheritanceSet
      (safeCastText (outputSafeCast s (calculateRelatedClass s))) := by
  obtain ⟨s, hrun⟩ : ∃ s, traversal.run chainVisits Collector.empty = some s := ⟨_, rfl⟩
  have hbase : DerivedFrom chainVisits ['C'] ['B'] ∧ DerivedFrom chainVisits ['C'] ['A'] := by
    have hclass : sampleClass ['C'] [middleClass] ∈
        (Visit.recordDecl (sampleClass ['C'] [middleClass])).classes := by
      show _ ∈ [_]
      exact List.mem_singleton_self _
    have hdirect : CXXRecordDecl.DirectBase (sampleClass ['C'] [middleClass]) middleClass :=
      List.mem_singleton_self _
    have hnext : CXXRecordDecl.DirectBase middleClass (sampleClass ['A'] []) :=
      List.mem_singleton_self _
    exact ⟨⟨_, List.mem_cons_self, _, hclass, rfl, _, .single hdirect, rfl⟩,
      ⟨_, List.mem_cons_self, _, hclass, rfl, _, .tail (.single hdirect) hnext, rfl⟩⟩
  have hsource : DownCastSource chainVisits ['A'] :=
    ⟨_, List.mem_cons_of_mem _ List.mem_cons_self, by decide⟩
  have htarget : DownCastTarget chainVisits ['B'] :=
    ⟨_, List.mem_cons_of_mem _ List.mem_cons_self, by decide⟩
  obtain ⟨hrecorded, -⟩ := run_recorded chainVisits_wellNamed.named hrun
  refine ⟨s, hrun, (inheritance_survives chainVisits_wellNamed hrun ['C']).1.mpr ⟨?_, ?_, ?_⟩⟩
  · exact .inr (.inl ⟨['A'], hsource, hbase.2⟩)
  · exact ⟨['B'], (hrecorded _ _).mpr hbase.1⟩
  · exact ⟨['B'], hbase.1, htarget⟩

end Bitype.Pass
