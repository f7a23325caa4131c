import Bitype.Tool.Output

/-!
# What the visits record besides the graphs

`relations` maps a class to its transitive bases, merged over all visits of the class;
`downCastVec` and `basedCastClass` are the targets and the sources of the downcasts.
None of the other steps of a visit touches them (`SameRecords`), so a run records what
its visits record one by one (`run_recorded`).

`calculateRelatedClass` closes the sources under derivation, with one pass over
`relations` for each source (`contains_calculateRelatedClass`).
-/

namespace Bitype.Tool

open Bitype.Foundations CXXRecordDecl

/-! ## Steps that record nothing -/

/-- The recorded names are the same. -/
def SameRecords (s s' : Collector) : Prop :=
  s'.relations = s.relations ∧ s'.downCastVec = s.downCastVec ∧
    s'.basedCastClass = s.basedCastClass

theorem SameRecords.refl (s : Collector) : SameRecords s s := ⟨rfl, rfl, rfl⟩

theorem SameRecords.trans {s s' s'' : Collector} (h : SameRecords s s')
    (h' : SameRecords s' s'') : SameRecords s s'' :=
  ⟨h'.1.trans h.1, h'.2.1.trans h.2.1, h'.2.2.trans h.2.2⟩

/-- `act` records nothing if it returns. -/
def KeepsRecords (act : Collector → Option Collector) : Prop :=
  ∀ s s', act s = some s' → SameRecords s s'

theorem KeepsRecords.bind {act act' : Collector → Option Collector} (h : KeepsRecords act)
    (h' : KeepsRecords act') : KeepsRecords fun s => (act s).bind act' := by
  intro s s' hact
  obtain ⟨next, hnext, hrest⟩ := Option.bind_eq_some_iff.mp hact
  exact (h s next hnext).trans (h' next s' hrest)

theorem KeepsRecords.foldlM {α : Type} {act : Collector → α → Option Collector}
    (h : ∀ a, KeepsRecords fun s => act s a) :
    ∀ l : List α, KeepsRecords fun s => l.foldlM act s := by
  intro l
  induction l with
  | nil => exact fun s s' hact => Option.some.inj hact ▸ SameRecords.refl s
  | cons a rest ih => exact (h a).bind ih

theorem setGraph_records (i j : ℕ) : KeepsRecords fun s => s.setGraph i j := by
  intro s s' h
  obtain ⟨_, _, rfl⟩ := Option.map_eq_some_iff.mp h
  exact ⟨rfl, rfl, rfl⟩

theorem setFamily_records (i j : ℕ) : KeepsRecords fun s => s.setFamily i j := by
  intro s s' h
  obtain ⟨_, _, rfl⟩ := Option.map_eq_some_iff.mp h
  exact ⟨rfl, rfl, rfl⟩

theorem setPhantoms_records (i j : ℕ) : KeepsRecords fun s => s.setPhantoms i j := by
  intro s s' h
  obtain ⟨_, _, rfl⟩ := Option.map_eq_some_iff.mp h
  exact ⟨rfl, rfl, rfl⟩

theorem indexOf_records (name : Name) (s : Collector) : SameRecords s (s.indexOf name).2 := by
  unfold Collector.indexOf
  split <;> exact ⟨rfl, rfl, rfl⟩

theorem indexOrExit_records {name : Name} {s s' : Collector} {i : ℕ}
    (h : s.indexOrExit name = some (i, s')) : SameRecords s s' := by
  unfold Collector.indexOrExit at h
  split at h
  · cases h
    exact SameRecords.refl s
  · split at h
    · cases h
    · have hindex := indexOf_records name s
      rwa [Option.some.inj h] at hindex

/-- The edges of a pair of classes; both ways of writing them end alike. -/
theorem edges_records {sameSize : Bool} {i j k l a b c d : ℕ} {s s' : Collector}
    (hact : (do
      let s ← s.setFamily i j
      let s ← s.setFamily k l
      if sameSize then do
        let s ← s.setPhantoms a b
        s.setPhantoms c d
      else some s) = some s') : SameRecords s s' := by
  obtain ⟨s₁, h₁, hact⟩ := Option.bind_eq_some_iff.mp hact
  obtain ⟨s₂, h₂, hact⟩ := Option.bind_eq_some_iff.mp hact
  have hsame := (setFamily_records i j s s₁ h₁).trans (setFamily_records k l s₁ s₂ h₂)
  split at hact
  · obtain ⟨s₃, h₃, h₄⟩ := Option.bind_eq_some_iff.mp hact
    exact hsame.trans ((setPhantoms_records a b s₂ s₃ h₃).trans (setPhantoms_records c d s₃ s' h₄))
  · exact Option.some.inj hact ▸ hsame

theorem joinPair_records (sameSize : Bool) (declIndex baseIndex : ℕ) :
    KeepsRecords (joinPair sameSize declIndex baseIndex) :=
  (setGraph_records baseIndex declIndex).bind
    ((setGraph_records declIndex baseIndex).bind fun _ _ => edges_records)

theorem relatePair_records (sameSize : Bool) (declIndex baseIndex : ℕ) :
    KeepsRecords (relatePair sameSize declIndex baseIndex) :=
  (setGraph_records declIndex declIndex).bind
    ((setGraph_records baseIndex declIndex).bind fun _ _ => edges_records)

theorem joinField_records (declName : Name) (field : FieldDecl) :
    KeepsRecords fun s => joinField declName s field := by
  intro s s' hact
  unfold joinField at hact
  split at hact
  · obtain ⟨⟨declIndex, s₁⟩, h₁, hact⟩ := Option.bind_eq_some_iff.mp hact
    obtain ⟨⟨fieldIndex, s₂⟩, h₂, hact⟩ := Option.bind_eq_some_iff.mp hact
    have hpair := (setGraph_records declIndex fieldIndex).bind
      (setGraph_records fieldIndex declIndex) s₂ s' hact
    exact ((indexOrExit_records h₁).trans (indexOrExit_records h₂)).trans hpair
  · exact Option.some.inj hact ▸ SameRecords.refl s

theorem joinBase_records (decl base : CXXRecordDecl) (declIndex : ℕ) :
    KeepsRecords fun s => joinBase decl declIndex s base := by
  intro s s' hact
  unfold joinBase at hact
  split at hact
  · exact Option.some.inj hact ▸ SameRecords.refl s
  · exact (indexOf_records base.name s).trans (joinPair_records _ _ _ _ s' hact)

theorem relateBase_records (current base : CXXRecordDecl) (currentDeclIndex : ℕ) :
    KeepsRecords fun s => relateBase current currentDeclIndex s base := fun s s' hact =>
  (indexOf_records base.name s).trans (relatePair_records _ _ _ _ s' hact)

theorem visitFields_records (decl : CXXRecordDecl) : KeepsRecords (visitFields decl) := by
  intro s s' hact
  unfold visitFields at hact
  split at hact
  · have hfields := KeepsRecords.foldlM (joinField_records decl.name) decl.info.fields
    have hkept := hfields _ s' hact
    exact ⟨hkept.1, hkept.2.1, hkept.2.2⟩
  · exact Option.some.inj hact ▸ ⟨rfl, rfl, rfl⟩

/-! ## Recording bases -/

/-- `relations` has a base of a class. -/
def Recorded (s : Collector) (name base : Name) : Prop :=
  ∃ bases, s.relations[name]? = some bases ∧ base ∈ bases

/-- No class is recorded without a base. -/
def NoneEmpty (s : Collector) : Prop :=
  ∀ (name : Name) (bases : List Name), s.relations[name]? = some bases → bases ≠ []

theorem SameRecords.recorded {s s' : Collector} (h : SameRecords s s') (name base : Name) :
    Recorded s' name base ↔ Recorded s name base := by
  unfold Recorded
  rw [h.1]

theorem SameRecords.noneEmpty {s s' : Collector} (h : SameRecords s s') (hs : NoneEmpty s) :
    NoneEmpty s' := by
  unfold NoneEmpty
  rw [h.1]
  exact hs

/-- The merge of two lists of bases. -/
theorem mem_mergeBases {known tempBaseVec : List Name} {base : Name} :
    base ∈ tempBaseVec.foldl
        (fun known name => if name ∈ known then known else known ++ [name]) known ↔
      base ∈ known ∨ base ∈ tempBaseVec := by
  induction tempBaseVec generalizing known with
  | nil => simp
  | cons name rest ih =>
      rw [List.foldl_cons, ih, List.mem_cons]
      split
      · next hknown =>
          constructor
          · rintro (h | h)
            · exact .inl h
            · exact .inr (.inr h)
          · rintro (h | rfl | h)
            · exact .inl h
            · exact .inl hknown
            · exact .inr h
      · rw [List.mem_append, List.mem_singleton, or_assoc]

/-- **`addRelations`** records the bases, and nothing else. -/
theorem addRelations_spec (declName : Name) (tempBaseVec : List Name) (s : Collector) :
    (∀ name base, Recorded (s.addRelations declName tempBaseVec) name base ↔
      Recorded s name base ∨ name = declName ∧ base ∈ tempBaseVec) ∧
    (NoneEmpty s → NoneEmpty (s.addRelations declName tempBaseVec)) ∧
    (s.addRelations declName tempBaseVec).downCastVec = s.downCastVec ∧
    (s.addRelations declName tempBaseVec).basedCastClass = s.basedCastClass := by
  unfold Collector.addRelations
  split
  · next hpos =>
      have hne : tempBaseVec ≠ [] := List.length_pos_iff.mp hpos
      cases hknown : s.relations[declName]? with
      | none =>
          have hnew : declName ∉ s.relations := by
            rw [← Std.TreeMap.isSome_getElem?_iff_mem, hknown]
            exact Bool.false_ne_true
          have hlookup : ∀ name : Name, (s.relations.insertIfNew declName tempBaseVec)[name]? =
              if declName = name then some tempBaseVec else s.relations[name]? := by
            intro name
            rw [Std.TreeMap.getElem?_insertIfNew]
            simp only [Std.LawfulEqCmp.compare_eq_iff_eq, hnew, not_false_eq_true, and_true]
          refine ⟨fun name base => ?_, fun hs name bases hbases => ?_, rfl, rfl⟩
          · unfold Recorded
            dsimp only
            rw [hlookup]
            split
            · next heq =>
                subst heq
                rw [hknown]
                simp
            · next hother => simp [Ne.symm hother]
          · dsimp only at hbases
            rw [hlookup] at hbases
            split at hbases
            · exact Option.some.inj hbases ▸ hne
            · exact hs name bases hbases
      | some known =>
          -- the bases are merged into what other declarations of the name said
          refine ⟨fun name base => ?_, fun hs name bases hbases => ?_, rfl, rfl⟩
          · unfold Recorded
            dsimp only
            rw [Std.TreeMap.getElem?_insert]
            simp only [Std.LawfulEqCmp.compare_eq_iff_eq]
            split
            · next heq =>
                subst heq
                rw [hknown]
                simp [mem_mergeBases]
            · next hother => simp [Ne.symm hother]
          · dsimp only at hbases
            rw [Std.TreeMap.getElem?_insert] at hbases
            split at hbases
            · obtain rfl := Option.some.inj hbases
              obtain ⟨base, hbase⟩ := List.exists_mem_of_ne_nil _ hne
              exact List.ne_nil_of_mem (mem_mergeBases.mpr (.inr hbase))
            · exact hs name bases hbases
  · next hnone =>
      have hempty : tempBaseVec = [] := by simpa using hnone
      refine ⟨fun name base => ?_, id, rfl, rfl⟩
      rw [hempty]
      simp

/-! ## What a visit records -/

/-- A class of a visit has a base. -/
def Visit.bases (v : Visit) (name base : Name) : Prop :=
  ∃ decl ∈ v.classes, decl.name = name ∧
    ∃ baseDecl, TransitiveBase decl baseDecl ∧ baseDecl.name = base

/-- The targets of the downcast of a visit. -/
def Visit.targets : Visit → List Name
  | .castExpr (.baseToDerived _ derived _) => derived.toList.map name
  | _ => []

/-- The sources of the downcast of a visit. -/
def Visit.sources : Visit → List Name
  | .castExpr (.baseToDerived _ _ based) => based.toList.map name
  | _ => []

/-- Every class a visit records bases for has a name, and its bases have one. -/
def Visit.Named (v : Visit) : Prop :=
  ∀ decl ∈ v.classes, decl.name ≠ [] ∧ ∀ base, TransitiveBase decl base → base.name ≠ []

/-- `act` records the bases, the targets and the sources given. -/
structure RecordsNames (act : Collector → Option Collector) (bases : Name → Name → Prop)
    (targets sources : List Name) : Prop where
  recorded : ∀ s s', act s = some s' → ∀ name base,
    Recorded s' name base ↔ Recorded s name base ∨ bases name base
  noneEmpty : ∀ s s', act s = some s' → NoneEmpty s → NoneEmpty s'
  downCastVec : ∀ s s', act s = some s' → ∀ name,
    name ∈ s'.downCastVec ↔ name ∈ s.downCastVec ∨ name ∈ targets
  basedCastClass : ∀ s s', act s = some s' → ∀ name,
    name ∈ s'.basedCastClass ↔ name ∈ s.basedCastClass ∨ name ∈ sources

theorem RecordsNames.congr {act : Collector → Option Collector} {bases bases' : Name → Name → Prop}
    {targets sources : List Name} (h : RecordsNames act bases targets sources)
    (hsame : ∀ name base, bases name base ↔ bases' name base) :
    RecordsNames act bases' targets sources := by
  obtain rfl : bases = bases' := by
    funext name base
    exact propext (hsame name base)
  exact h

theorem KeepsRecords.recordsNames {act : Collector → Option Collector} (h : KeepsRecords act) :
    RecordsNames act (fun _ _ => False) [] [] where
  recorded s s' hact name base := by rw [(h s s' hact).recorded, or_false]
  noneEmpty s s' hact hs := (h s s' hact).noneEmpty hs
  downCastVec s s' hact name := by
    rw [(h s s' hact).2.1]
    simp
  basedCastClass s s' hact name := by
    rw [(h s s' hact).2.2]
    simp

/-- One step after the other. -/
theorem RecordsNames.bind {act act' : Collector → Option Collector}
    {bases bases' : Name → Name → Prop} {targets targets' sources sources' : List Name}
    (h : RecordsNames act bases targets sources) (h' : RecordsNames act' bases' targets' sources') :
    RecordsNames (fun s => (act s).bind act') (fun name base => bases name base ∨ bases' name base)
      (targets ++ targets') (sources ++ sources') where
  recorded s s' hact name base := by
    obtain ⟨next, hnext, hrest⟩ := Option.bind_eq_some_iff.mp hact
    rw [h'.recorded next s' hrest, h.recorded s next hnext, or_assoc]
  noneEmpty s s' hact hs := by
    obtain ⟨next, hnext, hrest⟩ := Option.bind_eq_some_iff.mp hact
    exact h'.noneEmpty next s' hrest (h.noneEmpty s next hnext hs)
  downCastVec s s' hact name := by
    obtain ⟨next, hnext, hrest⟩ := Option.bind_eq_some_iff.mp hact
    rw [h'.downCastVec next s' hrest, h.downCastVec s next hnext, List.mem_append, or_assoc]
  basedCastClass s s' hact name := by
    obtain ⟨next, hnext, hrest⟩ := Option.bind_eq_some_iff.mp hact
    rw [h'.basedCastClass next s' hrest, h.basedCastClass s next hnext, List.mem_append, or_assoc]

/-- Recording the bases of a class. -/
theorem addRelations_recordsNames (declName : Name) (tempBaseVec : List Name) :
    RecordsNames (fun s => some (s.addRelations declName tempBaseVec))
      (fun name base => name = declName ∧ base ∈ tempBaseVec) [] [] where
  recorded s s' hact := by
    obtain rfl := Option.some.inj hact
    exact (addRelations_spec declName tempBaseVec s).1
  noneEmpty s s' hact := by
    obtain rfl := Option.some.inj hact
    exact (addRelations_spec declName tempBaseVec s).2.1
  downCastVec s s' hact name := by
    obtain rfl := Option.some.inj hact
    rw [(addRelations_spec declName tempBaseVec s).2.2.1]
    simp
  basedCastClass s s' hact name := by
    obtain rfl := Option.some.inj hact
    rw [(addRelations_spec declName tempBaseVec s).2.2.2]
    simp

/-- The bases of one class. -/
def BasesOf (decl : CXXRecordDecl) (name base : Name) : Prop :=
  decl.name = name ∧ ∃ baseDecl, TransitiveBase decl baseDecl ∧ baseDecl.name = base

theorem mem_baseNames {decl : CXXRecordDecl} {base : Name} :
    base ∈ (collectAllBases decl).map CXXRecordDecl.name ↔
      ∃ baseDecl, TransitiveBase decl baseDecl ∧ baseDecl.name = base := by
  simp only [List.mem_map, mem_collectAllBases]

/-- A step after a class has been given its number. -/
theorem RecordsNames.indexOf {act : ℕ → Collector → Option Collector}
    {bases : Name → Name → Prop} {targets sources : List Name} (declName : Name)
    (h : ∀ i, RecordsNames (act i) bases targets sources) :
    RecordsNames (fun s => act (s.indexOf declName).1 (s.indexOf declName).2) bases targets
      sources where
  recorded s s' hact name base := by
    rw [(h _).recorded _ s' hact, (indexOf_records declName s).recorded]
  noneEmpty s s' hact hs :=
    (h _).noneEmpty _ s' hact ((indexOf_records declName s).noneEmpty hs)
  downCastVec s s' hact name := by
    rw [(h _).downCastVec _ s' hact, (indexOf_records declName s).2.1]
  basedCastClass s s' hact name := by
    rw [(h _).basedCastClass _ s' hact, (indexOf_records declName s).2.2]

/-- **`addRelationShip`** records the bases of the class. -/
theorem relateClass_recordsNames (decl : CXXRecordDecl) :
    RecordsNames (relateClass decl) (BasesOf decl) [] [] := by
  have hclass : ∀ i, RecordsNames (relateBases (collectAllBases decl) decl i) (BasesOf decl) [] [] := by
    intro i
    have hbases := (KeepsRecords.foldlM (fun base => relateBase_records decl base i)
      (collectAllBases decl)).recordsNames
    apply (hbases.bind (addRelations_recordsNames decl.name _)).congr
    intro className base
    rw [false_or, mem_baseNames, BasesOf, eq_comm]
  have hindex := RecordsNames.indexOf decl.name hclass
  exact hindex

/-- **The end of `VisitCXXRecordDecl`** records the bases of the class. -/
theorem visitBases_recordsNames {decl : CXXRecordDecl}
    (hnamed : ∀ base, TransitiveBase decl base → base.name ≠ []) (declIndex : ℕ) :
    RecordsNames (visitBases decl declIndex) (BasesOf decl) [] [] := by
  have hbases := (KeepsRecords.foldlM (fun base => joinBase_records decl base declIndex)
    (collectAllBases decl)).recordsNames
  have hall : ((collectAllBases decl).map CXXRecordDecl.name).filter (· ≠ []) =
      (collectAllBases decl).map CXXRecordDecl.name := by
    apply List.filter_eq_self.mpr
    intro base hbase
    obtain ⟨baseDecl, hpath, rfl⟩ := mem_baseNames.mp hbase
    simpa using hnamed baseDecl hpath
  apply (hbases.bind (addRelations_recordsNames decl.name _)).congr
  intro className base
  rw [hall, false_or, mem_baseNames, BasesOf, eq_comm]

/-- **`VisitCXXRecordDecl`.** -/
theorem visitCXXRecordDecl_recordsNames {decl : CXXRecordDecl}
    (hnamed : (Visit.recordDecl decl).Named) :
    RecordsNames (visitCXXRecordDecl decl) (Visit.recordDecl decl).bases [] [] := by
  by_cases hvisited : isVisited decl = true
  · have hclasses : (Visit.recordDecl decl).classes = [decl] := if_pos hvisited
    have hbases := (hnamed decl (by rw [hclasses]; exact List.mem_singleton_self _)).2
    have hfields : KeepsRecords fun s =>
        if !s.hasVisitedField.contains decl.name && !decl.info.isDependentContext then
          visitFields decl s
        else some s := by
      intro s s' hact
      dsimp only at hact
      split at hact
      · exact visitFields_records decl s s' hact
      · exact Option.some.inj hact ▸ SameRecords.refl s
    have hrest := RecordsNames.indexOf decl.name fun i => visitBases_recordsNames hbases i
    have hact : visitCXXRecordDecl decl = fun s =>
        (if !s.hasVisitedField.contains decl.name && !decl.info.isDependentContext then
          visitFields decl s
        else some s).bind fun s => visitBases decl (s.indexOf decl.name).1 (s.indexOf decl.name).2 := by
      funext s
      unfold visitCXXRecordDecl
      rw [if_pos hvisited]
      dsimp only
      split <;> rfl
    rw [hact]
    apply (hfields.recordsNames.bind hrest).congr
    intro className base
    rw [false_or, Visit.bases, hclasses]
    simp [BasesOf]
  · -- a declaration without a complete definition is skipped
    have hclasses : (Visit.recordDecl decl).classes = [] := if_neg hvisited
    have hact : visitCXXRecordDecl decl = some := by
      funext s
      exact if_neg hvisited
    have hskip : KeepsRecords some := fun s s' h => Option.some.inj h ▸ SameRecords.refl s
    rw [hact]
    apply hskip.recordsNames.congr
    intro className base
    rw [Visit.bases, hclasses]
    simp

/-- The classes of a cast, one after the other. -/
theorem relateClasses_recordsNames :
    ∀ decls : List CXXRecordDecl, RecordsNames (fun s => decls.foldlM (fun s decl => relateClass decl s) s)
      (fun className base => ∃ decl ∈ decls, BasesOf decl className base) [] [] := by
  intro decls
  induction decls with
  | nil =>
      have hskip : KeepsRecords some := fun s s' h => Option.some.inj h ▸ SameRecords.refl s
      exact hskip.recordsNames.congr fun _ _ => by simp
  | cons decl rest ih =>
      apply ((relateClass_recordsNames decl).bind ih).congr
      intro className base
      simp only [List.mem_cons, or_and_right, exists_or, exists_eq_left]

theorem mem_insertMany {set : Std.TreeSet Name} {names : List Name} {className : Name} :
    className ∈ set.insertMany names ↔ className ∈ set ∨ className ∈ names := by
  rw [Std.TreeSet.mem_insertMany_list]
  simp

theorem recordDownCast_recordsNames (location : Option Name) (derived based : Option CXXRecordDecl) :
    RecordsNames (fun s => some (recordDownCast location derived based s)) (fun _ _ => False)
      (derived.toList.map CXXRecordDecl.name) (based.toList.map CXXRecordDecl.name) where
  recorded s s' hact className base := by
    obtain rfl := Option.some.inj hact
    rw [or_false]
    rfl
  noneEmpty s s' hact hs := by
    obtain rfl := Option.some.inj hact
    exact hs
  downCastVec s s' hact className := by
    obtain rfl := Option.some.inj hact
    exact mem_insertMany
  basedCastClass s s' hact className := by
    obtain rfl := Option.some.inj hact
    exact mem_insertMany

/-- **`VisitCastExpr`.** -/
theorem visitCastExpr_recordsNames (expr : CastExpr) :
    RecordsNames (visitCastExpr expr) (Visit.castExpr expr).bases (Visit.castExpr expr).targets
      (Visit.castExpr expr).sources := by
  have hrelated := relateClasses_recordsNames expr.related
  cases expr with
  | baseToDerived location derived based =>
      have hboth := (recordDownCast_recordsNames location derived based).bind hrelated
      rw [List.append_nil, List.append_nil] at hboth
      exact hboth.congr fun className base => by rw [false_or]; rfl
  | derivedToBase derived => exact hrelated
  | bitCast dest src => exact hrelated
  | other => exact hrelated

/-! ## What a run records -/

/-- A class is transitively derived from another, in the definitions the visits see. -/
def DerivedFrom (visits : List Visit) (className base : Name) : Prop := ∃ v ∈ visits, v.bases className base

/-- A class is the target of a downcast. -/
def DownCastTarget (visits : List Visit) (className : Name) : Prop :=
  ∃ v ∈ visits, className ∈ v.targets

/-- A class is the source of a downcast. -/
def DownCastSource (visits : List Visit) (className : Name) : Prop :=
  ∃ v ∈ visits, className ∈ v.sources

theorem run_recordsNames : ∀ visits : List Visit, (∀ v ∈ visits, v.Named) →
    RecordsNames (traversal.run visits) (DerivedFrom visits) (visits.flatMap Visit.targets)
      (visits.flatMap Visit.sources) := by
  intro visits
  induction visits with
  | nil =>
      intro _
      have hskip : KeepsRecords some := fun s s' h => Option.some.inj h ▸ SameRecords.refl s
      exact hskip.recordsNames.congr fun _ _ => by simp [DerivedFrom]
  | cons v rest ih =>
      intro hnamed
      obtain ⟨hv, hrest⟩ := List.forall_mem_cons.mp hnamed
      have hstep : RecordsNames (traversal.step v) v.bases v.targets v.sources := by
        cases v with
        | recordDecl decl => exact visitCXXRecordDecl_recordsNames hv
        | castExpr expr => exact visitCastExpr_recordsNames expr
      apply (hstep.bind (ih hrest)).congr
      intro className base
      simp only [DerivedFrom, List.mem_cons, or_and_right, exists_or, exists_eq_left]

/-- **What is recorded after a run.** -/
theorem run_recorded {visits : List Visit} {s : Collector} (hnamed : ∀ v ∈ visits, v.Named)
    (hrun : traversal.run visits Collector.empty = some s) :
    (∀ className base, Recorded s className base ↔ DerivedFrom visits className base) ∧ NoneEmpty s ∧
      (∀ className, className ∈ s.downCastVec ↔ DownCastTarget visits className) ∧
      ∀ className, className ∈ s.basedCastClass ↔ DownCastSource visits className := by
  have h := run_recordsNames visits hnamed
  have hnone : ∀ className base, ¬ Recorded Collector.empty className base := by
    rintro className base ⟨bases, hbases, -⟩
    simp [Collector.empty] at hbases
  have hempty : NoneEmpty Collector.empty := by
    intro className bases hbases
    simp [Collector.empty] at hbases
  refine ⟨fun className base => ?_, h.noneEmpty _ s hrun hempty, fun className => ?_,
    fun className => ?_⟩
  · rw [h.recorded _ s hrun, or_iff_right (hnone className base)]
  · rw [h.downCastVec _ s hrun]
    simp [Collector.empty, DownCastTarget, List.mem_flatMap]
  · rw [h.basedCastClass _ s hrun]
    simp [Collector.empty, DownCastSource, List.mem_flatMap]

/-! ## The cast-related classes -/

theorem mem_relateBasedClass {relations : Std.TreeMap Name (List Name)}
    {castrelatedClass : Std.TreeSet Name} {baseClass className : Name} :
    className ∈ relateBasedClass relations castrelatedClass baseClass ↔
      className ∈ castrelatedClass ∨ className = baseClass ∨
        ∃ bases, relations[className]? = some bases ∧ baseClass ∈ bases := by
  have hloop : ∀ (rows : List (Name × List Name)) (set : Std.TreeSet Name),
      className ∈ rows.foldl
          (fun castrelatedClass tempRelation =>
            if castrelatedClass.contains tempRelation.1 then castrelatedClass
            else if baseClass ∈ tempRelation.2 then castrelatedClass.insert tempRelation.1
            else castrelatedClass) set ↔
        className ∈ set ∨ ∃ row ∈ rows, row.1 = className ∧ baseClass ∈ row.2 := by
    intro rows
    induction rows with
    | nil => simp
    | cons row rest ih =>
        intro set
        rw [List.foldl_cons, ih]
        simp only [List.mem_cons, or_and_right, exists_or, exists_eq_left]
        rw [← or_assoc]
        apply or_congr_left
        -- a class of the set is not looked at again
        split
        · next hcontained =>
            constructor
            · exact .inl
            · rintro (h | ⟨rfl, -⟩)
              · exact h
              · exact Std.TreeSet.contains_iff_mem.mp hcontained
        split
        · next hbase =>
            rw [Std.TreeSet.mem_insert, Std.LawfulEqCmp.compare_eq_iff_eq]
            simp only [hbase, and_true, or_comm]
        · next hbase => simp only [hbase, and_false, or_false]
  unfold relateBasedClass
  rw [hloop, Std.TreeSet.mem_insert, Std.LawfulEqCmp.compare_eq_iff_eq]
  have hrows : (∃ row ∈ relations.toList, row.1 = className ∧ baseClass ∈ row.2) ↔
      ∃ bases, relations[className]? = some bases ∧ baseClass ∈ bases := by
    simp only [Prod.exists, Std.TreeMap.mem_toList_iff_getElem?_eq_some]
    constructor
    · rintro ⟨_, bases, hbases, rfl, hbase⟩
      exact ⟨bases, hbases, hbase⟩
    · rintro ⟨bases, hbases, hbase⟩
      exact ⟨className, bases, hbases, rfl, hbase⟩
  rw [hrows, or_comm (a := baseClass = className), or_assoc, eq_comm]

/-- **`calculateRelatedClass`**: the sources of downcasts, the classes derived from one,
and the targets. -/
theorem mem_calculateRelatedClass {s : Collector} {className : Name} :
    className ∈ calculateRelatedClass s ↔
      className ∈ s.basedCastClass ∨ (∃ source ∈ s.basedCastClass, Recorded s className source) ∨
        className ∈ s.downCastVec := by
  have hbased : ∀ (baseClasses : List Name) (set : Std.TreeSet Name),
      className ∈ baseClasses.foldl (relateBasedClass s.relations) set ↔
        className ∈ set ∨ ∃ source ∈ baseClasses,
          className = source ∨ Recorded s className source := by
    intro baseClasses
    induction baseClasses with
    | nil => simp
    | cons baseClass rest ih =>
        intro set
        rw [List.foldl_cons, ih, mem_relateBasedClass, or_assoc]
        simp only [List.mem_cons, or_and_right, exists_or, exists_eq_left]
        rfl
  have htargets : ∀ (downClasses : List Name) (set : Std.TreeSet Name),
      className ∈ downClasses.foldl (fun castrelatedClass downClass =>
          castrelatedClass.insert downClass) set ↔ className ∈ set ∨ className ∈ downClasses := by
    intro downClasses
    induction downClasses with
    | nil => simp
    | cons downClass rest ih =>
        intro set
        rw [List.foldl_cons, ih, Std.TreeSet.mem_insert, Std.LawfulEqCmp.compare_eq_iff_eq,
          List.mem_cons, eq_comm, or_comm (a := className = downClass), or_assoc]
  unfold calculateRelatedClass
  rw [htargets, hbased]
  simp only [Std.TreeSet.mem_toList, Std.TreeSet.not_mem_emptyc, false_or, or_assoc,
    and_or_left, exists_or, exists_eq_right']

end Bitype.Tool
