import Bitype.Foundations.Text
import Bitype.Pass.Detection
import Bitype.Pass.Trace

/-!
# The keys of the tables

`GlobalVariableMap` keeps the tables of single classes and those of sets of classes
under one kind of key: the class name, or the names of the set one after the other.
A key that is taken stays with the table that took it, so a granule gets the table of
its own classes as long as no other table was there first.

`provideTables_eq` says which table is under a key: the first one in the order in
which the tables are emitted.  `ownTables_iff` says when that is always the right one.
-/

namespace Bitype.Pass

open Bitype.Foundations Bitype.Runtime Bitype.Tool
open Bitype.Tool (Name)

/-! ## A run of the pass -/

section Run

variable (M : Module) (files : ClassFiles)

/-- The sets of classes `emitInstForObjTrace` looks tables up for, in order, when it
instruments some objects. -/
def granuleSets (traces : List (AllocType × IRType)) : List (Finset ℕ) :=
  traces.flatMap fun trace =>
    ((tracedElements M files trace.1 trace.2).toList.map Prod.snd).filter fun types =>
      types.card ≠ 0

/-- `GlobalVariableMap` after these lookups. -/
def provideTables (sets : List (Finset ℕ)) : Std.TreeMap Name (List Byte) :=
  sets.foldl (M.provideTable files) (M.getAllClassSafeCast files)

/-- Instrumentation as a machine: a label is a traced object. -/
def tracing : Machine (Std.TreeMap Name (List Byte)) (AllocType × IRType) where
  step trace globalVariableMap :=
    some ((tracedElements M files trace.1 trace.2).toList.foldl
      (fun globalVariableMap entry => M.provideTable files globalVariableMap entry.2)
      globalVariableMap)

variable {M} {files}

/-- The lookups of one call, one after the other. -/
theorem foldl_provideTable (entries : List (ℕ × Finset ℕ))
    (globalVariableMap : Std.TreeMap Name (List Byte)) :
    entries.foldl (fun globalVariableMap entry => M.provideTable files globalVariableMap entry.2)
        globalVariableMap =
      ((entries.map Prod.snd).filter fun types => types.card ≠ 0).foldl (M.provideTable files)
        globalVariableMap := by
  induction entries generalizing globalVariableMap with
  | nil => rfl
  | cons entry rest ih =>
      rw [List.foldl_cons, ih, List.map_cons]
      by_cases hempty : entry.2.card = 0
      · rw [List.filter_cons_of_neg (by simpa using hempty), Module.provideTable, if_pos hempty]
      · rw [List.filter_cons_of_pos (by simpa using hempty), List.foldl_cons]

/-- **A run is its lookups.** -/
theorem run_tracing (traces : List (AllocType × IRType)) :
    (tracing M files).run traces (M.getAllClassSafeCast files) =
      some (provideTables M files (granuleSets M files traces)) := by
  unfold provideTables
  generalize M.getAllClassSafeCast files = globalVariableMap
  induction traces generalizing globalVariableMap with
  | nil => rfl
  | cons trace rest ih =>
      have hstep : (tracing M files).step trace globalVariableMap =
          some ((granuleSets M files [trace]).foldl (M.provideTable files) globalVariableMap) := by
        rw [granuleSets, List.flatMap_singleton, ← foldl_provideTable]
        rfl
      have hsets : granuleSets M files (trace :: rest) =
          granuleSets M files [trace] ++ granuleSets M files rest := by simp [granuleSets]
      rw [Machine.run_cons, hstep, Option.bind_some, ih, hsets, List.foldl_append]

/-- The classes of a granule are cast-related, and there are some. -/
theorem granuleSets_related {traces : List (AllocType × IRType)} {types : Finset ℕ}
    (h : types ∈ granuleSets M files traces) :
    types.Nonempty ∧ ∀ a ∈ types, M.isInCastRelatedSet files a = true := by
  obtain ⟨trace, -, hmem⟩ := List.mem_flatMap.mp h
  obtain ⟨hmem, hne⟩ := List.mem_filter.mp hmem
  obtain ⟨⟨granule, types⟩, hentry, rfl⟩ := List.mem_map.mp hmem
  have hne : types.card ≠ 0 := by simpa using hne
  refine ⟨Finset.card_ne_zero.mp hne, ?_⟩
  rw [Std.TreeMap.mem_toList_iff_getElem?_eq_some, tracedElements] at hentry
  split at hentry
  · rw [Std.TreeMap.getElem?_map] at hentry
    obtain ⟨all, hall, rfl⟩ := Option.map_eq_some_iff.mp hentry
    exact fun a ha => (TypeTable.filed_elementsOf _ hall).2.2 a (Finset.mem_filter.mp ha).1
  · exact (TypeTable.filed_elementsOf _ hentry).2.2

end Run

/-! ## Which table is under a key -/

section Keys

variable (M : Module) (files : ClassFiles)

/-- The tables of the class types, with what they were made for. -/
def classVariables : List (Origin × List Byte) :=
  M.classTypes.filterMap fun a => (M.classTable files a).map fun table => (.single a, table)

/-- The tables for sets of classes, whether or not their key is free. -/
def setVariables (sets : List (Finset ℕ)) : List (Origin × List Byte) :=
  sets.map fun types => (.merged types, M.mergedTable files types)

/-- The variable under a key after some lookups: the first with this key. -/
def variableAt (sets : List (Finset ℕ)) (key : Name) : Option (Origin × List Byte) :=
  (classVariables M files ++ setVariables M files sets).find? fun v => v.1.key M = key

/-- A cast-related class type has the name. -/
def NamesClass (name : Name) : Prop :=
  ∃ b ∈ M.classTypes, M.typeName b = name ∧ M.isInCastRelatedSet files b = true

variable {M} {files}

/-- The key and the table of a variable. -/
def entryOf (M : Module) (v : Origin × List Byte) : Name × List Byte := (v.1.key M, v.2)

theorem getAllClassSafeCast_eq :
    M.getAllClassSafeCast files = firstWins ((classVariables M files).map (entryOf M)) := by
  unfold Module.getAllClassSafeCast firstWins classVariables
  rw [List.foldl_map, List.foldl_filterMap]
  congr 1
  funext globalVariableMap a
  unfold Module.recordClass
  cases M.classTable files a with
  | none => rfl
  | some table => rfl

theorem provideTables_eq_firstWins {sets : List (Finset ℕ)} (hne : ∀ T ∈ sets, T.Nonempty) :
    provideTables M files sets =
      firstWins ((classVariables M files ++ setVariables M files sets).map (entryOf M)) := by
  rw [provideTables, getAllClassSafeCast_eq, List.map_append, firstWins, firstWins,
    List.foldl_append, setVariables, List.map_map]
  refine (List.foldl_ext _ _ _ fun globalVariableMap T hT => ?_).trans List.foldl_map.symm
  rw [Module.provideTable, if_neg (Finset.card_ne_zero.mpr (hne T hT))]
  rfl

/-- **The table under a key** is the first that was emitted for it. -/
theorem provideTables_eq {sets : List (Finset ℕ)} (hne : ∀ T ∈ sets, T.Nonempty) (key : Name) :
    (provideTables M files sets)[key]? = (variableAt M files sets key).map Prod.snd := by
  have hempty : (∅ : Std.TreeMap Name (List Byte))[key]? = none := Std.TreeMap.getElem?_emptyc
  rw [provideTables_eq_firstWins hne, firstWins, foldl_insertIfNew, hempty, Option.none_or,
    List.find?_map, Option.map_map, variableAt]
  rfl

theorem variableAt_key {sets : List (Finset ℕ)} {key : Name} {v : Origin × List Byte}
    (h : variableAt M files sets key = some v) : v.1.key M = key := by
  simpa using List.find?_some h

/-- A key that has been looked up is taken, and stays with its table. -/
theorem variableAt_append {before : List (Finset ℕ)} {T : Finset ℕ} (after : List (Finset ℕ)) :
    variableAt M files (before ++ T :: after) (M.setName T) =
      variableAt M files (before ++ [T]) (M.setName T) := by
  have hcons : setVariables M files (before ++ T :: after) =
      setVariables M files (before ++ [T]) ++ setVariables M files after := by
    simp [setVariables]
  have htaken : (variableAt M files (before ++ [T]) (M.setName T)).isSome := by
    rw [variableAt, List.find?_isSome]
    exact ⟨(.merged T, M.mergedTable files T), by simp [setVariables], by simp [Origin.key]⟩
  obtain ⟨v, hv⟩ := Option.isSome_iff_exists.mp htaken
  rw [hv, variableAt, hcons, ← List.append_assoc, List.find?_append]
  unfold variableAt at hv
  rw [hv, Option.some_or]

end Keys

/-! ## A class type has taken the key, or not -/

section Taken

variable {M : Module} {out : ToolOutput} {sets : List (Finset ℕ)} {name : Name}

/-- Every row has a size and an index. -/
theorem isSome_readClassIndex (rows : List (Name × ℕ)) (name : Name) :
    (readClassIndex rows)[name]?.isSome = (readCodeMap rows)[name]?.isSome := by
  have hcodes : readCodeMap rows = firstWins rows := rfl
  have hindex : readClassIndex rows = firstWins (rows.zipIdx.map fun row => (row.1.1, row.2)) := by
    rw [firstWins, List.foldl_map]
    rfl
  have hnames : (rows.zipIdx.map fun row => (row.1.1, row.2)).map Prod.fst =
      rows.map Prod.fst := by
    calc (rows.zipIdx.map fun row => (row.1.1, row.2)).map Prod.fst
        = (rows.zipIdx.map Prod.fst).map Prod.fst := by simp only [List.map_map]; rfl
      _ = rows.map Prod.fst := by rw [List.zipIdx_map_fst]
  rw [hcodes, hindex, Bool.eq_iff_iff, isSome_firstWins, isSome_firstWins, hnames]

/-- The cast-related class types are those with a table. -/
theorem isSome_classTable (a : ℕ) :
    (M.classTable (initReadFiles out) a).isSome = M.isInCastRelatedSet (initReadFiles out) a := by
  have hrow := isSome_readClassIndex out.castrelatedSet (M.typeName a)
  unfold TypeTable.isInCastRelatedSet Module.classTable initReadFiles
  rw [← Std.TreeMap.isSome_getElem?_eq_contains]
  cases hsize : (readCodeMap out.castrelatedSet)[M.typeName a]? with
  | none => rfl
  | some size =>
      rw [hsize, Option.isSome_some, Option.isSome_iff_exists] at hrow
      obtain ⟨index, hindex⟩ := hrow
      simp [hindex]

variable (sets) in
/-- If a class type has the name, the first one has the key. -/
theorem variableAt_of_namesClass (h : NamesClass M (initReadFiles out) name) :
    ∃ b table, M.classTypes.find? (fun b => M.typeName b = name) = some b ∧
      M.classTable (initReadFiles out) b = some table ∧
      variableAt M (initReadFiles out) sets name = some (.single b, table) := by
  obtain ⟨c, hc, hname, hrelated⟩ := h
  have hfound : (M.classTypes.find? fun b => M.typeName b = name).isSome := by
    rw [List.find?_isSome]
    exact ⟨c, hc, by simpa using hname⟩
  obtain ⟨b, hb⟩ := Option.isSome_iff_exists.mp hfound
  -- every class type of this name has a table
  have htable : ∀ a, M.typeName a = name → (M.classTable (initReadFiles out) a).isSome := by
    intro a ha
    rw [isSome_classTable, TypeTable.isInCastRelatedSet, ha, ← hname]
    exact hrelated
  obtain ⟨table, hbtable⟩ := Option.isSome_iff_exists.mp (htable b (by simpa using List.find?_some hb))
  refine ⟨b, table, hb, hbtable, ?_⟩
  have hsame : (fun a => ((M.classTable (initReadFiles out) a).map fun table =>
      (Origin.single a, table)).any fun v => v.1.key M = name) = fun a => M.typeName a = name := by
    funext a
    rw [Bool.eq_iff_iff]
    cases hlookup : M.classTable (initReadFiles out) a with
    | none =>
        have hother : M.typeName a ≠ name := fun ha => by
          simpa [hlookup] using htable a ha
        simpa using hother
    | some table =>
        rw [Option.map_some, Option.any_some, decide_eq_true_eq, decide_eq_true_eq]
        rfl
  rw [variableAt, List.find?_append, classVariables, List.find?_filterMap, hsame, hb,
    Option.bind_some, hbtable]
  rfl

/-- If no class type has the name, the first set of this name has the key. -/
theorem variableAt_of_not_namesClass (h : ¬ NamesClass M (initReadFiles out) name) :
    variableAt M (initReadFiles out) sets name =
      (sets.find? fun T => M.setName T = name).map fun T =>
        (.merged T, M.mergedTable (initReadFiles out) T) := by
  have hnone : (classVariables M (initReadFiles out)).find? (fun v => v.1.key M = name) = none := by
    rw [List.find?_eq_none]
    intro v hv hkey
    simp only [classVariables, List.mem_filterMap, Option.map_eq_some_iff] at hv
    obtain ⟨a, ha, table, htable, rfl⟩ := hv
    refine h ⟨a, ha, of_decide_eq_true hkey, ?_⟩
    rw [← isSome_classTable, htable]
    rfl
  rw [variableAt, List.find?_append, hnone, Option.none_or, setVariables, List.find?_map]
  rfl

end Taken

/-! ## The right table -/

section Own

variable (M : Module)

/-- A table was made for just these types.  A type that `getAllClassSafeCast` skips, such
as the `.base` type of a class, has the table of a class type of its name. -/
def Origin.Owns (T : Finset ℕ) : Origin → Prop
  | .single b => ∃ a, T = {a} ∧ (a = b ∨ a ∉ M.classTypes ∧ M.typeName a = M.typeName b)
  | .merged U => U = T ∧ ∀ a ∈ M.classTypes, T ≠ {a}

/-- Every lookup finds the table of its own types, and two sets with different class names
never find the same one. -/
def OwnTables (files : ClassFiles) (sets : List (Finset ℕ)) : Prop :=
  (∀ before T after, sets = before ++ T :: after →
    ∃ v, variableAt M files (before ++ [T]) (M.setName T) = some v ∧ v.1.Owns M T) ∧
  ∀ T ∈ sets, ∀ T' ∈ sets, T.image M.typeName ≠ T'.image M.typeName →
    variableAt M files sets (M.setName T) ≠ variableAt M files sets (M.setName T')

/-- The keys of the sets are nobody else's: a class type is the first of its name, no
cast-related class type is named like several types one after the other, and sets with one
key are the same. -/
structure Unambiguous (files : ClassFiles) (sets : List (Finset ℕ)) : Prop where
  single : ∀ a ∈ M.classTypes, {a} ∈ sets →
    M.classTypes.find? (fun b => M.typeName b = M.typeName a) = some a
  merged : ∀ T ∈ sets, T.card ≠ 1 → ¬ NamesClass M files (M.setName T)
  apart : ∀ T ∈ sets, ∀ T' ∈ sets, M.setName T = M.setName T' →
    ¬ NamesClass M files (M.setName T) → T = T'

variable {M}

theorem setName_singleton (a : ℕ) : M.setName {a} = M.typeName a := by
  simp [Module.setName, TypeTable.namesOf]

section Lookup

variable {files : ClassFiles} {out : ToolOutput} {sets : List (Finset ℕ)} {T : Finset ℕ}

variable (sets) in
/-- A lookup under the key of a class type. -/
theorem owns_of_namesClass (hname : NamesClass M (initReadFiles out) (M.setName T)) :
    ∃ v, variableAt M (initReadFiles out) sets (M.setName T) = some v ∧
      (v.1.Owns M T ↔ ∃ a, T = {a} ∧ (a ∈ M.classTypes →
        M.classTypes.find? (fun b => M.typeName b = M.typeName a) = some a)) := by
  obtain ⟨b, table, hb, -, hvariable⟩ := variableAt_of_namesClass sets hname
  refine ⟨_, hvariable, exists_congr fun a => and_congr_right fun ha => ?_⟩
  subst ha
  rw [setName_singleton] at hb
  have hsame : M.typeName b = M.typeName a := by simpa using List.find?_some hb
  rw [hb, Option.some.injEq]
  constructor
  · rintro (rfl | ⟨hnot, -⟩)
    · exact fun _ => rfl
    · exact fun h => absurd h hnot
  · intro h
    by_cases hclass : a ∈ M.classTypes
    · exact .inl (h hclass).symm
    · exact .inr ⟨hclass, hsame.symm⟩

/-- What is found at the time of a lookup is what is found at the end. -/
theorem lookups_iff {P : Finset ℕ → Option (Origin × List Byte) → Prop} :
    (∀ before T after, sets = before ++ T :: after →
      P T (variableAt M files (before ++ [T]) (M.setName T))) ↔
      ∀ T ∈ sets, P T (variableAt M files sets (M.setName T)) := by
  constructor
  · intro h T hT
    obtain ⟨before, after, rfl⟩ := List.append_of_mem hT
    rw [variableAt_append]
    exact h before T after rfl
  · intro h before T after heq
    rw [← variableAt_append after, ← heq]
    exact h T (by simp [heq])

/-- A set under the key of a class type has one class name. -/
theorem Unambiguous.image_typeName (h : Unambiguous M files sets) (hT : T ∈ sets)
    (hname : NamesClass M files (M.setName T)) : T.image M.typeName = {M.setName T} := by
  have hcard : T.card = 1 := by
    by_contra hcard
    exact h.merged T hT hcard hname
  obtain ⟨a, rfl⟩ := Finset.card_eq_one.mp hcard
  rw [Finset.image_singleton, setName_singleton]

variable (hrelated : ∀ T ∈ sets, ∀ a ∈ T, M.isInCastRelatedSet (initReadFiles out) a = true)

include hrelated

/-- A lookup under a key that is no class type's. -/
theorem owns_of_not_namesClass (hT : T ∈ sets)
    (hname : ¬ NamesClass M (initReadFiles out) (M.setName T)) :
    ∃ U ∈ sets, M.setName U = M.setName T ∧
      variableAt M (initReadFiles out) sets (M.setName T) =
        some (.merged U, M.mergedTable (initReadFiles out) U) ∧
      ((Origin.merged U).Owns M T ↔ U = T) := by
  have hfound : (sets.find? fun U => M.setName U = M.setName T).isSome := by
    rw [List.find?_isSome]
    exact ⟨T, hT, by simp⟩
  obtain ⟨U, hU⟩ := Option.isSome_iff_exists.mp hfound
  have hkey : M.setName U = M.setName T := by simpa using List.find?_some hU
  refine ⟨U, List.mem_of_find?_eq_some hU, hkey, ?_, and_iff_left fun a ha hsingle => ?_⟩
  · rw [variableAt_of_not_namesClass hname, hU]
    rfl
  · subst hsingle
    exact hname ⟨a, ha, (setName_singleton a).symm,
      hrelated {a} hT a (Finset.mem_singleton_self a)⟩

/-- Every lookup finds a variable with its key. -/
theorem exists_variableAt (hT : T ∈ sets) :
    ∃ v, variableAt M (initReadFiles out) sets (M.setName T) = some v := by
  by_cases hname : NamesClass M (initReadFiles out) (M.setName T)
  · obtain ⟨v, hv, -⟩ := owns_of_namesClass sets hname
    exact ⟨v, hv⟩
  · obtain ⟨U, -, -, hv, -⟩ := owns_of_not_namesClass hrelated hT hname
    exact ⟨_, hv⟩

/-- If every lookup is right, the keys are nobody else's. -/
theorem unambiguous_of_owns
    (h : ∀ T ∈ sets, ∃ v, variableAt M (initReadFiles out) sets (M.setName T) = some v ∧
      v.1.Owns M T) : Unambiguous M (initReadFiles out) sets := by
  -- the type or the set that a lookup finds, by whether a class type has the key
  have hclass : ∀ T ∈ sets, NamesClass M (initReadFiles out) (M.setName T) →
      ∃ a, T = {a} ∧ (a ∈ M.classTypes →
        M.classTypes.find? (fun b => M.typeName b = M.typeName a) = some a) := by
    intro T hT hname
    obtain ⟨v, hv, hiff⟩ := owns_of_namesClass sets hname
    obtain ⟨v', hv', hown⟩ := h T hT
    obtain rfl := Option.some.inj (hv.symm.trans hv')
    exact hiff.mp hown
  have hset : ∀ T ∈ sets, ¬ NamesClass M (initReadFiles out) (M.setName T) →
      variableAt M (initReadFiles out) sets (M.setName T) =
        some (.merged T, M.mergedTable (initReadFiles out) T) := by
    intro T hT hname
    obtain ⟨U, -, -, hv, hiff⟩ := owns_of_not_namesClass hrelated hT hname
    obtain ⟨v', hv', hown⟩ := h T hT
    obtain rfl := Option.some.inj (hv.symm.trans hv')
    rw [hv, hiff.mp hown]
  refine ⟨fun a ha hT => ?_, fun T hT hcard hname => ?_, fun T hT T' hT' hkey hname => ?_⟩
  · obtain ⟨a', ha', hfirst⟩ := hclass {a} hT ⟨a, ha, (setName_singleton a).symm,
      hrelated {a} hT a (Finset.mem_singleton_self a)⟩
    obtain rfl := Finset.singleton_injective ha'
    exact hfirst ha
  · obtain ⟨a, rfl, -⟩ := hclass T hT hname
    exact hcard (Finset.card_singleton a)
  · have hT'' := hset T' hT' (hkey ▸ hname)
    rw [← hkey, hset T hT hname, Option.some.injEq, Prod.mk.injEq] at hT''
    exact Origin.merged.inj hT''.1

/-- If the keys are nobody else's, every lookup is right. -/
theorem Unambiguous.owns (h : Unambiguous M (initReadFiles out) sets) (hT : T ∈ sets) :
    ∃ v, variableAt M (initReadFiles out) sets (M.setName T) = some v ∧ v.1.Owns M T := by
  by_cases hname : NamesClass M (initReadFiles out) (M.setName T)
  · obtain ⟨v, hv, hiff⟩ := owns_of_namesClass sets hname
    have hcard : T.card = 1 := by
      by_contra hcard
      exact h.merged T hT hcard hname
    obtain ⟨a, rfl⟩ := Finset.card_eq_one.mp hcard
    exact ⟨v, hv, hiff.mpr ⟨a, rfl, fun ha => h.single a ha hT⟩⟩
  · obtain ⟨U, hU, hkey, hv, hiff⟩ := owns_of_not_namesClass hrelated hT hname
    exact ⟨_, hv, hiff.mpr (h.apart T hT U hU hkey.symm hname).symm⟩

/-- Sets that find the same variable have the same class names. -/
theorem Unambiguous.image_eq (h : Unambiguous M (initReadFiles out) sets) {T' : Finset ℕ}
    (hT : T ∈ sets) (hT' : T' ∈ sets)
    (hsame : variableAt M (initReadFiles out) sets (M.setName T) =
      variableAt M (initReadFiles out) sets (M.setName T')) :
    T.image M.typeName = T'.image M.typeName := by
  obtain ⟨v, hv⟩ := exists_variableAt hrelated hT
  have hkey : M.setName T = M.setName T' :=
    (variableAt_key hv).symm.trans (variableAt_key (hsame.symm.trans hv))
  by_cases hname : NamesClass M (initReadFiles out) (M.setName T)
  · rw [h.image_typeName hT hname, h.image_typeName hT' (hkey ▸ hname), hkey]
  · rw [h.apart T hT T' hT' hkey hname]

end Lookup

/-- **When every granule gets the table of its own classes.**  In a run that instruments
any objects, the table under each key is that of the variable emitted first for it.  Every
lookup finds the variable made for just its types, and no two sets with different class
names share one, if and only if the keys of the looked up sets are nobody else's. -/
theorem ownTables_iff (M : Module) (out : ToolOutput) (traces : List (AllocType × IRType)) :
    ∃ globalVariableMap,
      (tracing M (initReadFiles out)).run traces (M.getAllClassSafeCast (initReadFiles out)) =
        some globalVariableMap ∧
      (∀ key, globalVariableMap[key]? =
        (variableAt M (initReadFiles out) (granuleSets M (initReadFiles out) traces) key).map
          Prod.snd) ∧
      (OwnTables M (initReadFiles out) (granuleSets M (initReadFiles out) traces) ↔
        Unambiguous M (initReadFiles out) (granuleSets M (initReadFiles out) traces)) := by
  have hrelated : ∀ T ∈ granuleSets M (initReadFiles out) traces,
      ∀ a ∈ T, M.isInCastRelatedSet (initReadFiles out) a = true :=
    fun T hT => (granuleSets_related hT).2
  refine ⟨_, run_tracing traces, provideTables_eq fun T hT => (granuleSets_related hT).1, ?_⟩
  unfold OwnTables
  rw [lookups_iff (P := fun T found => ∃ v, found = some v ∧ v.1.Owns M T)]
  constructor
  · exact fun h => unambiguous_of_owns hrelated h.1
  · intro h
    refine ⟨fun T hT => h.owns hrelated hT, fun T hT T' hT' hnames heq => hnames ?_⟩
    exact h.image_eq hrelated hT hT' heq

end Own

/-! ## A class called like two others -/

/-- `A`, `B` and `AB`, derived from an empty class. -/
def collidingVisits : List Visit :=
  downcastTo ['A'] ['Z'] ++ downcastTo ['B'] ['Z'] ++ downcastTo ['A', 'B'] ['Z']

/-- What the tool writes for them. -/
def collidingOutput : ToolOutput where
  codingNum := [(['A'], 1), (['B'], 3), (['A', 'B'], 2)]
  castrelatedSet := [(['A'], 3), (['Z'], 3), (['B'], 3), (['A', 'B'], 3)]
  safecast := [(['A'], []), (['A', 'B'], []), (['B'], [])]

theorem writes_collidingOutput : Writes collidingOutput := by
  have hrun : ((traversal.run collidingVisits Collector.empty).bind fun s =>
      if s.currentIndex ≤ MAX_NUM_CLASS then writeFiles s else none) = some collidingOutput := by
    decide +kernel
  obtain ⟨s, hs, hout⟩ := Option.bind_eq_some_iff.mp hrun
  split at hout
  · next hroom => exact ⟨collidingVisits, s, hs, hroom, hout⟩
  · cases hout

/-- The struct types of `A`, `B` and `AB`, and one with an `A` and a `B` side by side. -/
def collidingModule : Module where
  struct a :=
    if a = 4 then ⟨some "trackedtype.S".toList, false, false, [(0, .struct 1), (4, .struct 2)], 8⟩
    else if a = 1 then ⟨some "trackedtype.A".toList, false, false, [(0, .other 4)], 4⟩
    else if a = 2 then ⟨some "trackedtype.B".toList, false, false, [(0, .other 4)], 4⟩
    else ⟨some "trackedtype.AB".toList, false, false, [(0, .other 16)], 16⟩
  depth a := if a = 4 then 1 else 0
  contained := contained_of_cases 5 (by decide) fun a ha => by
    simp [show a ≠ 4 from ne_of_listed (by decide) ha,
      show a ≠ 1 from ne_of_listed (by decide) ha,
      show a ≠ 2 from ne_of_listed (by decide) ha]
  identified := [1, 2, 3, 4]
  nodup := by decide

theorem collidingModule_types : collidingModule.classTypes = [1, 2, 3, 4] ∧
    collidingModule.typeName 1 = ['A'] ∧ collidingModule.typeName 2 = ['B'] ∧
    collidingModule.typeName 3 = ['A', 'B'] ∧ collidingModule.typeName 4 = ['S'] := by
  decide +kernel

/-- `A` and `B` start in one granule. -/
theorem granuleSets_collidingModule :
    granuleSets collidingModule (initReadFiles collidingOutput) [(.stackAlloc, .struct 4)] =
      [{1, 2}] := by decide +kernel

theorem collidingModule_setName : collidingModule.setName {1, 2} = ['A', 'B'] := by
  obtain ⟨-, hA, hB, -, -⟩ := collidingModule_types
  have hsort : ({1, 2} : Finset ℕ).sort (· ≤ ·) = [1, 2] := by
    rw [Finset.sort_insert _ (by decide) (by decide), Finset.sort_singleton]
  simp [Module.setName, TypeTable.namesOf, hsort, hA, hB]

/-- The granule of `A` and `B` gets the table of `AB`. -/
theorem set_gets_table_of_class :
    ¬ ∀ (M : Module) (files : ClassFiles), FromTool files →
      ∀ (traces : List (AllocType × IRType)) (globalVariableMap : Std.TreeMap Name (List Byte)),
        (tracing M files).run traces (M.getAllClassSafeCast files) = some globalVariableMap →
        ∀ T ∈ granuleSets M files traces, T.card ≠ 1 →
          globalVariableMap[M.setName T]? = some (M.mergedTable files T) := by
  intro h
  obtain ⟨htypes, hA, hB, hAB, hS⟩ := collidingModule_types
  have hfound := h collidingModule _ ⟨collidingOutput, writes_collidingOutput, rfl⟩
    [(.stackAlloc, .struct 4)] _ (run_tracing _) {1, 2}
    (by rw [granuleSets_collidingModule]; exact List.mem_singleton_self _) (by decide)
  have hclass : NamesClass collidingModule (initReadFiles collidingOutput) ['A', 'B'] :=
    ⟨3, by rw [htypes]; decide, hAB, by decide +kernel⟩
  obtain ⟨b, table, hb, htable, hvariable⟩ := variableAt_of_namesClass [{1, 2}] hclass
  have hfirst : collidingModule.classTypes.find?
      (fun b => collidingModule.typeName b = ['A', 'B']) = some 3 := by decide +kernel
  obtain rfl := Option.some.inj (hb.symm.trans hfirst)
  rw [granuleSets_collidingModule, provideTables_eq (by simp), collidingModule_setName, hvariable,
    Option.map_some, Option.some.injEq] at hfound
  -- the first byte of the table is the index of `AB`, that of a set is zero
  have hrow : (initReadFiles collidingOutput).bitypeCastRelatedClass[(['A', 'B'] : Name)]? =
      some 3 ∧
      (initReadFiles collidingOutput).bitypeClassIndexSet2[(['A', 'B'] : Name)]? = some 3 := by
    decide +kernel
  have hhead : table.head? = some 3 := by
    simp only [Module.classTable, hAB, hrow, Option.bind_eq_bind, Option.bind_some,
      Option.some.injEq] at htable
    rw [← htable]
    rfl
  have hzero : table.head? = some 0 := congrArg List.head? hfound
  exact absurd (Option.some.inj (hhead.symm.trans hzero)) (by decide)

end Bitype.Pass
