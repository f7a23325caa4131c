import Bitype.Tool.Bijection

/-!
# Classes that contain a class at offset zero

An object of a class `C` whose first member is of a class `T` has the address of a `T`, so the
field branch of `VisitCXXRecordDecl` is there to put `C` and `T` into one family.  It looks at
the type of the field and then registers the field under its own name: the node joined to `C`
is called like the member.  It does not see an array whose type is a `typedef`.

`Joins` says which pairs of names the visits of class definitions join; `run_numbered` that
the graph of every run, of whatever length, has these edges and no other.  `containment_iff`
follows: `C` and `T` get one family iff such pairs lead from one to the other for another
reason, and the numbered names are names of classes iff the fields are called like classes.
-/

namespace Bitype.Tool

open CXXRecordDecl Bitype.Foundations

/-! ## The graph of a run -/

variable {s s' : Collector} {actions : List Action}

/-- An action writes at most one entry of a matrix. -/
theorem Action.run_entry {action : Action} (h : Action.run s action = .ok s') (matrix : Matrix)
    (i j : ℕ) : s'.matrix matrix i j = true ↔ s.matrix matrix i j = true ∨
      ∃ a b, action = .edge matrix a b ∧ i = s.index a ∧ j = s.index b := by
  by_cases hedge : ∃ matrix' a b, action = .edge matrix' a b
  · obtain ⟨matrix', a, b, rfl⟩ := hedge
    rw [(Action.run_edge h).matrix_iff]
    apply or_congr_right
    constructor
    · intro ⟨hmatrix, hi, hj⟩
      exact ⟨a, b, hmatrix ▸ rfl, hi, hj⟩
    · intro ⟨a', b', haction, hi, hj⟩
      obtain ⟨rfl, rfl, rfl⟩ := Action.edge.inj haction
      exact ⟨rfl, hi, hj⟩
  · rw [(Action.run_matrix h).resolve_right hedge]
    exact (or_iff_left fun ⟨a, b, haction, _⟩ => hedge ⟨matrix, a, b, haction⟩).symm

/-- A name numbered before had its number before. -/
theorem getElem?_of_numbered {rest : List Action} {name : Name} {i : ℕ}
    (hname : name ∈ numbering actions) (hi : (numbering (actions ++ rest))[i]? = some name) :
    (numbering actions)[i]? = some name := by
  obtain ⟨j, hj⟩ := List.mem_iff_getElem?.mp hname
  have hj' := getElem?_numbering hj rest
  have hlt : j < (numbering (actions ++ rest)).length := (List.getElem?_eq_some_iff.mp hj').1
  rwa [(List.getElem?_inj hlt (nodup_numbering _)).mp (hj'.trans hi.symm)] at hj

/-- The names an action uses are numbered. -/
theorem mem_numbering_of_touched (hscoped : Scoped [] actions) {action : Action}
    (haction : action ∈ actions) {name : Name} (hname : name ∈ action.touched) :
    name ∈ numbering actions := by
  obtain ⟨first, last, rfl⟩ := List.append_of_mem haction
  exact (numbering_append first _).subset ((scoped_append.mp hscoped).2.1 name hname)

/-- **The edges of a run**, in each matrix. -/
theorem runActions_matrix (hscoped : Scoped [] actions)
    (hrun : runActions actions Collector.empty = .ok s) (matrix : Matrix) (i j : ℕ) :
    s.matrix matrix i j = true ↔ ∃ a b, .edge matrix a b ∈ actions ∧
      (numbering actions)[i]? = some a ∧ (numbering actions)[j]? = some b := by
  induction actions using List.reverseRecOn generalizing s with
  | nil =>
      rw [← Except.ok.inj hrun]
      cases matrix <;> simp [Collector.matrix, Collector.empty]
  | append_singleton actions action ih =>
      obtain ⟨s₁, hfirst, hlast⟩ := foldlM_append_ok hrun
      obtain ⟨s₂, hstep, hnil⟩ := foldlM_cons_ok hlast
      obtain rfl := Except.ok.inj hnil
      obtain ⟨hscoped, htouched, -⟩ := scoped_append.mp hscoped
      have hlists : Lists (numbering actions) s₁ := lists_empty.runActions hfirst
      rw [Action.run_entry hstep, ih hscoped hfirst]
      constructor
      · rintro (⟨a, b, hedge, hi, hj⟩ | ⟨a, b, rfl, rfl, rfl⟩)
        · exact ⟨a, b, List.mem_append_left _ hedge, getElem?_numbering hi _,
            getElem?_numbering hj _⟩
        · have ha := hlists.index (htouched a (by simp [Action.touched]))
          have hb := hlists.index (htouched b (by simp [Action.touched]))
          exact ⟨a, b, by simp, getElem?_numbering ha _, getElem?_numbering hb _⟩
      · rintro ⟨a, b, hedge, hi, hj⟩
        rcases List.mem_append.mp hedge with hedge | hedge
        · -- an edge written before joins names numbered before
          have ha := mem_numbering_of_touched hscoped hedge (List.mem_cons_self)
          have hb := mem_numbering_of_touched hscoped hedge (List.mem_cons_of_mem _
            (List.mem_singleton_self b))
          exact .inl ⟨a, b, hedge, getElem?_of_numbered ha hi, getElem?_of_numbered hb hj⟩
        · obtain rfl := List.mem_singleton.mp hedge
          have ha := htouched a (by simp [Action.touched])
          have hb := htouched b (by simp [Action.touched])
          have hi' := (hlists.code_iff a i).mpr (getElem?_of_numbered ha hi)
          have hj' := (hlists.code_iff b j).mpr (getElem?_of_numbered hb hj)
          exact .inr ⟨a, b, rfl, by simp [Collector.index, hi'], by simp [Collector.index, hj']⟩

/-- A run does the actions of its visits. -/
theorem runActions_of_run {visits : List Visit}
    (hrun : traversal.run visits Collector.empty = some s) :
    runActions (program [] visits) Collector.empty = .ok s := by
  have hmarks : Marks [] Collector.empty := fun name => by simp [Collector.empty]
  exact toOption_eq_some.mp ((run_program visits [] _ hmarks).trans hrun)

/-- **What a run knows**, in terms of names. -/
theorem run_known {visits : List Visit} (hrun : traversal.run visits Collector.empty = some s) :
    Numbered (numbering (program [] visits)).toFinset (fun name => s.hasVisitedField.contains name)
      (fun a b => .edge .graph a b ∈ program [] visits) s := by
  have hactions := runActions_of_run hrun
  have hlists : Lists (numbering (program [] visits)) s := lists_empty.runActions hactions
  have hnamed := run_named hrun
  have hscoped := scoped_program visits [] []
  refine ⟨hnamed.code_iff, fun name => ?_, hnamed.index_iff, ?_, fun name => Iff.rfl, ?_, ?_⟩
  · rw [List.mem_toFinset, List.mem_iff_getElem?]
    exact exists_congr fun i => (hlists.code_iff name i).symm
  · rw [hlists.length_eq, List.toFinset_card_of_nodup (nodup_numbering _)]
  · intro a b hedge
    rw [List.mem_toFinset, List.mem_toFinset]
    exact ⟨mem_numbering_of_touched hscoped hedge List.mem_cons_self,
      mem_numbering_of_touched hscoped hedge (List.mem_cons_of_mem _ (List.mem_singleton_self b))⟩
  · intro i j
    refine (runActions_matrix hscoped hactions .graph i j).trans ?_
    simp only [hlists.code_iff]
    constructor
    · rintro ⟨a, b, hedge, hi, hj⟩
      exact ⟨a, b, hi, hj, hedge⟩
    · rintro ⟨a, b, hi, hj, hedge⟩
      exact ⟨a, b, hedge, hi, hj⟩

/-! ## Fields and their types -/

/-- The types `getElemQualTypeOrNull` tells apart, a class by its name. -/
inductive QualType
  | record (className : Name)
  | array (elem : QualType)
  | sugar (type : QualType)
  | other

namespace QualType

/-- The class of a class type, however it is written. -/
def recordName : QualType → Option Name
  | record className => some className
  | sugar type => type.recordName
  | array _ | other => none

/-- The class of a class type or of an array of classes, however these are written. -/
def elemClass : QualType → Option Name
  | record className => some className
  | array elem => elem.elemClass
  | sugar type => type.elemClass
  | other => none

def toFieldType : QualType → FieldType
  | record _ => .structureOrClass
  | array elem => .array elem.toFieldType
  | sugar type => .sugar type.toFieldType
  | other => .other

end QualType

/-- `getElemQualTypeOrNull`: the class of a class type or of an array of classes, unless a `typedef`
hides the array. -/
def getElemQualTypeOrNull : QualType → Option Name
  | .array elem => getElemQualTypeOrNull elem
  | .record className => some className
  | .sugar type => type.recordName
  | .other => none

theorem isStructureOrClassType_toFieldType (type : QualType) :
    type.toFieldType.isStructureOrClassType = type.recordName.isSome := by
  induction type with
  | sugar type ih => exact ih
  | _ => rfl

/-- What the visitor asks of a field is whether the search finds a class in its type. -/
theorem isCompoundElem_toFieldType (type : QualType) :
    type.toFieldType.isCompoundElem = (getElemQualTypeOrNull type).isSome := by
  induction type with
  | array elem ih => exact ih
  | sugar type => exact isStructureOrClassType_toFieldType type
  | _ => rfl

/-- A field with its type. -/
structure TypedField where
  name : Name
  type : QualType
  offsetBits : ℕ

def TypedField.toFieldDecl (field : TypedField) : FieldDecl where
  name := field.name
  type := field.type.toFieldType
  offsetBits := field.offsetBits

/-- A class definition with the types of its fields. -/
structure ClassDecl where
  decl : CXXRecordDecl
  fields : List TypedField
  fields_eq : decl.info.fields = fields.map TypedField.toFieldDecl

def definitions (classes : List ClassDecl) : List Visit :=
  classes.map fun C => .recordDecl C.decl

/-! ## What the visits of definitions join -/

/-- No definition of the name comes before whose fields are visited. -/
def FirstOfName (before : List ClassDecl) (C : ClassDecl) : Prop :=
  ∀ D ∈ before, isVisited D.decl → D.decl.info.isDependentContext = false →
    D.decl.name ≠ C.decl.name

/-- The pairs of a class and a name that the visits join: the bases of a class, and the
fields of the first class of a name. -/
def Joins (classes : List ClassDecl) (a b : Name) : Prop :=
  ∃ before C after, classes = before ++ C :: after ∧ isVisited C.decl ∧ a = C.decl.name ∧
    (b ∈ namedBases C.decl ∨ b ∈ zeroFields C.decl ∧ FirstOfName before C)

/-- Joined one way or the other. -/
def Linked (classes : List ClassDecl) (a b : Name) : Prop :=
  Joins classes a b ∨ Joins classes b a

theorem mem_program {action : Action} : ∀ (visits : List Visit) (fieldsVisited : List Name),
    action ∈ program fieldsVisited visits ↔ ∃ before v after, visits = before ++ v :: after ∧
      action ∈ v.actions (fieldsVisited ++ before.flatMap Visit.fields) := by
  intro visits
  induction visits with
  | nil => simp [program]
  | cons v rest ih =>
      intro fieldsVisited
      rw [program, List.mem_append, ih]
      constructor
      · rintro (haction | ⟨before, w, after, rfl, haction⟩)
        · exact ⟨[], v, rest, rfl, by simpa using haction⟩
        · refine ⟨v :: before, w, after, rfl, ?_⟩
          rwa [List.flatMap_cons, ← List.append_assoc]
      · rintro ⟨before, w, after, hsplit, haction⟩
        cases before with
        | nil =>
            obtain ⟨rfl, rfl⟩ := List.cons.inj hsplit
            exact .inl (by simpa using haction)
        | cons first before =>
            obtain ⟨rfl, rfl⟩ := List.cons.inj hsplit
            refine .inr ⟨before, w, after, rfl, ?_⟩
            rwa [List.flatMap_cons, ← List.append_assoc] at haction

/-- Whether the fields of a name have been visited. -/
def hasVisited (before : List ClassDecl) (name : Name) : Bool :=
  name ∈ (definitions before).flatMap Visit.fields

theorem hasVisited_eq_false {before : List ClassDecl} {C : ClassDecl} :
    hasVisited before C.decl.name = false ↔ FirstOfName before C := by
  rw [hasVisited, decide_eq_false_iff_not]
  simp only [definitions, List.mem_flatMap, List.mem_map, FirstOfName]
  constructor
  · intro h D hD hvisited hcontext hname
    exact h ⟨_, ⟨D, hD, rfl⟩, by simp [Visit.fields, hvisited, hcontext, hname]⟩
  · rintro h ⟨_, ⟨D, hD, rfl⟩, hname⟩
    simp only [Visit.fields] at hname
    split at hname
    · next hvisited =>
        rw [Bool.and_eq_true, Bool.not_eq_true'] at hvisited
        exact h D hD hvisited.1 hvisited.2 (List.mem_singleton.mp hname).symm
    · cases hname

/-- The actions of the visits of definitions. -/
theorem mem_program_definitions {action : Action} {classes : List ClassDecl} :
    action ∈ program [] (definitions classes) ↔
      ∃ before C after, classes = before ++ C :: after ∧
        action ∈ recordDeclActions (hasVisited before C.decl.name) C.decl := by
  rw [mem_program]
  constructor
  · rintro ⟨_, _, _, hsplit, haction⟩
    obtain ⟨before, rest, rfl, rfl, hrest⟩ := List.map_eq_append_iff.mp hsplit
    obtain ⟨C, after, rfl, rfl, rfl⟩ := List.map_eq_cons_iff.mp hrest
    exact ⟨before, C, after, rfl, haction⟩
  · rintro ⟨before, C, after, rfl, haction⟩
    exact ⟨definitions before, .recordDecl C.decl, definitions after, by simp [definitions],
      haction⟩

/-! ## One definition -/

theorem mem_zeroFields {decl : CXXRecordDecl} {name : Name} :
    name ∈ zeroFields decl ↔ (decl.info.isDependentContext = false ∧
      decl.info.isAggregate = false ∧ decl.info.isPolymorphic = false) ∧
      ∃ field ∈ decl.info.fields, field.isOffsetZero ∧ field.name = name := by
  unfold zeroFields
  split
  · next hclass =>
      simp only [Bool.and_eq_true, Bool.not_eq_true'] at hclass
      simp [hclass, and_assoc]
  · next hclass =>
      simp only [Bool.and_eq_true, Bool.not_eq_true', and_assoc] at hclass
      simp [hclass]

theorem edge_phantomActions (sameSize : Bool) (a b c d : Name) :
    .edge .graph a b ∉ phantomActions sameSize c d := by
  cases sameSize <;> simp [phantomActions]

theorem edge_joinBaseActions {decl base : CXXRecordDecl} {a b : Name} :
    .edge .graph a b ∈ joinBaseActions decl base ↔
      base.name ≠ [] ∧ JoinBoth base.name decl.name a b := by
  unfold joinBaseActions
  split
  · next hnone => simp [hnone]
  · next hnamed => simp [hnamed, edge_phantomActions, JoinBoth]

theorem edge_fieldActions {declName : Name} {field : FieldDecl} {a b : Name} :
    .edge .graph a b ∈ fieldActions declName field ↔
      field.isOffsetZero ∧ JoinBoth field.name declName a b := by
  unfold fieldActions
  split
  · next hzero => simp [hzero, JoinBoth, or_comm]
  · next hzero => simp [hzero]

theorem edge_visitBasesActions {decl : CXXRecordDecl} {a b : Name} :
    .edge .graph a b ∈ visitBasesActions decl ↔
      ∃ p ∈ namedBases decl, JoinBoth p decl.name a b := by
  simp only [visitBasesActions, List.mem_append, List.mem_flatMap, edge_joinBaseActions,
    List.mem_singleton, reduceCtorEq, or_false, namedBases, List.mem_filter, List.mem_map,
    decide_eq_true_eq]
  constructor
  · rintro ⟨base, hbase, hnamed, hjoin⟩
    exact ⟨_, ⟨⟨base, hbase, rfl⟩, hnamed⟩, hjoin⟩
  · rintro ⟨_, ⟨⟨base, hbase, rfl⟩, hnamed⟩, hjoin⟩
    exact ⟨base, hbase, hnamed, hjoin⟩

theorem edge_visitFieldsActions {decl : CXXRecordDecl} {a b : Name}
    (hcontext : decl.info.isDependentContext = false) :
    .edge .graph a b ∈ visitFieldsActions decl ↔
      ∃ p ∈ zeroFields decl, JoinBoth p decl.name a b := by
  unfold visitFieldsActions
  simp only [mem_zeroFields, hcontext, true_and, List.mem_cons, reduceCtorEq, false_or]
  split
  · next hclass =>
      simp only [Bool.and_eq_true, Bool.not_eq_true'] at hclass
      simp only [hclass, and_self, true_and, List.mem_flatMap, edge_fieldActions]
      constructor
      · rintro ⟨field, hfield, hzero, hjoin⟩
        exact ⟨_, ⟨field, hfield, hzero, rfl⟩, hjoin⟩
      · rintro ⟨_, ⟨field, hfield, hzero, rfl⟩, hjoin⟩
        exact ⟨field, hfield, hzero, hjoin⟩
  · next hclass =>
      simp only [Bool.and_eq_true, Bool.not_eq_true'] at hclass
      simp [hclass]

/-- The edges a visit writes. -/
theorem edge_recordDeclActions {hasVisitedField : Bool} {decl : CXXRecordDecl} {a b : Name} :
    .edge .graph a b ∈ recordDeclActions hasVisitedField decl ↔ isVisited decl ∧
      ∃ p, (p ∈ namedBases decl ∨ p ∈ zeroFields decl ∧ hasVisitedField = false) ∧
        JoinBoth p decl.name a b := by
  unfold recordDeclActions
  split
  · next hvisited =>
      simp only [hvisited, true_and, List.mem_append, List.mem_cons, reduceCtorEq, false_or,
        edge_visitBasesActions, or_and_right, exists_or]
      rw [or_comm]
      apply or_congr_right
      split
      · next hfirst =>
          simp only [Bool.and_eq_true, Bool.not_eq_true'] at hfirst
          simp [edge_visitFieldsActions hfirst.2, hfirst.1]
      · next hlater =>
          simp only [Bool.and_eq_true, Bool.not_eq_true', not_and, Bool.not_eq_false] at hlater
          refine ⟨fun h => absurd h List.not_mem_nil, fun ⟨p, ⟨hp, hnew⟩, _⟩ => ?_⟩
          have hcontext := (mem_zeroFields.mp hp).1.1
          rw [hlater hnew] at hcontext
          cases hcontext
  · next hskipped => simp [hskipped]

/-- **The edges of a run over definitions.** -/
theorem edge_definitions {classes : List ClassDecl} {a b : Name} :
    .edge .graph a b ∈ program [] (definitions classes) ↔ Linked classes a b := by
  simp only [mem_program_definitions, edge_recordDeclActions, hasVisited_eq_false, Linked, Joins]
  constructor
  · rintro ⟨before, C, after, rfl, hvisited, p, hp, ⟨rfl, rfl⟩ | ⟨rfl, rfl⟩⟩
    · exact .inr ⟨before, C, after, rfl, hvisited, rfl, hp⟩
    · exact .inl ⟨before, C, after, rfl, hvisited, rfl, hp⟩
  · rintro (⟨before, C, after, rfl, hvisited, rfl, hp⟩ | ⟨before, C, after, rfl, hvisited, rfl, hp⟩)
    · exact ⟨before, C, after, rfl, hvisited, b, hp, .inr ⟨rfl, rfl⟩⟩
    · exact ⟨before, C, after, rfl, hvisited, a, hp, .inl ⟨rfl, rfl⟩⟩

/-- One of the actions numbers the name. -/
def Numbers (actions : List Action) (name : Name) : Prop :=
  ∃ action ∈ actions, action.numbered = some name

@[simp] theorem numbers_nil (name : Name) : ¬ Numbers [] name := by simp [Numbers]

@[simp] theorem numbers_cons {action : Action} {rest : List Action} {name : Name} :
    Numbers (action :: rest) name ↔ action.numbered = some name ∨ Numbers rest name := by
  simp [Numbers]

@[simp] theorem numbers_append {rest : List Action} {name : Name} :
    Numbers (actions ++ rest) name ↔ Numbers actions name ∨ Numbers rest name := by
  simp only [Numbers, List.mem_append, or_and_right, exists_or]

theorem numbers_flatMap {β : Type} {actionsOf : β → List Action} {elements : List β}
    {name : Name} :
    Numbers (elements.flatMap actionsOf) name ↔ ∃ x ∈ elements, Numbers (actionsOf x) name := by
  simp only [Numbers, List.mem_flatMap]
  constructor
  · rintro ⟨action, ⟨x, hx, haction⟩, hname⟩
    exact ⟨x, hx, action, haction, hname⟩
  · rintro ⟨x, hx, action, haction, hname⟩
    exact ⟨action, ⟨x, hx, haction⟩, hname⟩

theorem mem_numbering {name : Name} : name ∈ numbering actions ↔ Numbers actions name := by
  induction actions using List.reverseRecOn with
  | nil => simp [numbering, Numbers]
  | append_singleton actions action ih =>
      have hlast : numbering (actions ++ [action]) = action.extend (numbering actions) := by
        simp [numbering]
      rw [hlast, numbers_append, ← ih, Action.extend]
      cases hnumbered : action.numbered with
      | none => simp [Numbers, hnumbered]
      | some other =>
          dsimp only
          split
          · next hold =>
              have hsame : name = other → name ∈ numbering actions := fun h => h ▸ hold
              simpa [Numbers, hnumbered, eq_comm] using hsame
          · simp [Numbers, hnumbered, eq_comm]

theorem numbers_phantomActions (sameSize : Bool) (a b name : Name) :
    ¬ Numbers (phantomActions sameSize a b) name := by
  cases sameSize <;> simp [phantomActions, Action.numbered]

theorem numbers_visitBasesActions {decl : CXXRecordDecl} {name : Name} :
    Numbers (visitBasesActions decl) name ↔ name ∈ namedBases decl := by
  have hbase : ∀ base, Numbers (joinBaseActions decl base) name ↔
      base.name ≠ [] ∧ base.name = name := by
    intro base
    unfold joinBaseActions
    split
    · next hnone => simp [hnone]
    · next hnamed => simp [numbers_phantomActions, Action.numbered, hnamed]
  simp only [visitBasesActions, numbers_append, numbers_flatMap, hbase, namedBases,
    List.mem_filter, List.mem_map, decide_eq_true_eq, numbers_cons, Action.numbered,
    reduceCtorEq, numbers_nil, or_self, or_false]
  constructor
  · rintro ⟨base, hmem, hnamed, rfl⟩
    exact ⟨⟨base, hmem, rfl⟩, hnamed⟩
  · rintro ⟨⟨base, hmem, rfl⟩, hnamed⟩
    exact ⟨base, hmem, hnamed, rfl⟩

theorem numbers_visitFieldsActions {decl : CXXRecordDecl} {name : Name}
    (hcontext : decl.info.isDependentContext = false) :
    (Numbers (visitFieldsActions decl) name ∨ name = decl.name) ↔
      name ∈ zeroFields decl ∨ name = decl.name := by
  have hfield : ∀ field, Numbers (fieldActions decl.name field) name ↔
      field.isOffsetZero ∧ (decl.name = name ∨ field.name = name) := by
    intro field
    unfold fieldActions
    split
    · next hzero => simp [Action.numbered, hzero]
    · next hzero => simp [hzero]
  simp only [visitFieldsActions, numbers_cons, Action.numbered, reduceCtorEq, false_or,
    mem_zeroFields, hcontext, true_and]
  split
  · next hclass =>
      simp only [Bool.and_eq_true, Bool.not_eq_true'] at hclass
      simp only [hclass, and_self, true_and, numbers_flatMap, hfield]
      constructor
      · rintro (⟨field, hmem, hzero, rfl | hname⟩ | rfl)
        · exact .inr rfl
        · exact .inl ⟨field, hmem, hzero, hname⟩
        · exact .inr rfl
      · rintro (⟨field, hmem, hzero, hname⟩ | rfl)
        · exact .inl ⟨field, hmem, hzero, .inr hname⟩
        · exact .inr rfl
  · next hclass =>
      simp only [Bool.and_eq_true, Bool.not_eq_true'] at hclass
      simp [hclass]

/-- The names a visit numbers. -/
theorem numbers_recordDeclActions {hasVisitedField : Bool} {decl : CXXRecordDecl} {name : Name} :
    Numbers (recordDeclActions hasVisitedField decl) name ↔
      isVisited decl ∧ (name = decl.name ∨ name ∈ namedBases decl ∨
        name ∈ zeroFields decl ∧ hasVisitedField = false) := by
  unfold recordDeclActions
  split
  · next hvisited =>
      simp only [hvisited, true_and, numbers_append, numbers_cons, Action.numbered,
        Option.some.injEq, numbers_visitBasesActions]
      split
      · next hfirst =>
          simp only [Bool.and_eq_true, Bool.not_eq_true'] at hfirst
          have hfields := @numbers_visitFieldsActions decl name hfirst.2
          simp only [hfirst.1, and_true]
          tauto
      · next hlater =>
          simp only [Bool.and_eq_true, Bool.not_eq_true', not_and, Bool.not_eq_false] at hlater
          have hnone : ¬ (name ∈ zeroFields decl ∧ hasVisitedField = false) := by
            rintro ⟨hp, hnew⟩
            have hcontext := (mem_zeroFields.mp hp).1.1
            rw [hlater hnew] at hcontext
            cases hcontext
          simp only [hnone, or_false, eq_comm, numbers_nil, false_or]
  · next hskipped => simp [hskipped]

/-- **The names of a run over definitions.** -/
theorem mem_numbering_definitions {classes : List ClassDecl} {name : Name} :
    name ∈ numbering (program [] (definitions classes)) ↔
      ∃ before C after, classes = before ++ C :: after ∧ isVisited C.decl ∧
        (name = C.decl.name ∨ name ∈ namedBases C.decl ∨
          name ∈ zeroFields C.decl ∧ FirstOfName before C) := by
  simp only [mem_numbering, ← hasVisited_eq_false, ← numbers_recordDeclActions]
  constructor
  · rintro ⟨action, haction, hname⟩
    obtain ⟨before, C, after, hsplit, haction⟩ := mem_program_definitions.mp haction
    exact ⟨before, C, after, hsplit, action, haction, hname⟩
  · rintro ⟨before, C, after, hsplit, action, haction, hname⟩
    exact ⟨action, mem_program_definitions.mpr ⟨before, C, after, hsplit, haction⟩, hname⟩

/-! ## Containment -/

/-- `C` is a visited class with a named member at offset zero that is a `className` or an
array of them, and its definition is one whose fields count. -/
structure Contains (C : ClassDecl) (className : Name) : Prop where
  visited : isVisited C.decl
  nonDependent : C.decl.info.isDependentContext = false
  nonAggregate : C.decl.info.isAggregate = false
  nonPolymorphic : C.decl.info.isPolymorphic = false
  field : ∃ field ∈ C.fields, field.name ≠ [] ∧ field.offsetBits = 0 ∧
    field.type.elemClass = some className

/-- The names of classes: those of the visited classes, of their bases and of the types of
their fields, and `others`. -/
def IsClassName (others : Name → Prop) (classes : List ClassDecl) (name : Name) : Prop :=
  others name ∨ ∃ C ∈ classes, name = C.decl.name ∨ name ∈ namedBases C.decl ∨
    ∃ field ∈ C.fields, field.type.elemClass = some name

/-- Two names are connected in `graph`. -/
def Connected (s : Collector) (a b : Name) : Prop :=
  ∃ i j, HasIndex a i s ∧ HasIndex b j s ∧ Reach s.graph s.currentIndex i j

/-- A class and the class it contains are connected and share a family, and only names of
classes have a number or an edge. -/
structure ContainmentJoins (others : Name → Prop) (classes : List ClassDecl)
    (s : Collector) : Prop where
  together : ∀ C ∈ classes, ∀ T ∈ classes, isVisited T.decl → Contains C T.decl.name →
    Connected s C.decl.name T.decl.name ∧
      ∃ result, DFS s.graph s.currentIndex = some result ∧
        SameFamily s result C.decl.name T.decl.name
  nodes : ∀ name i, HasIndex name i s → IsClassName others classes name
  edges : ∀ i j, s.graph i j = true → ∃ a b, HasIndex a i s ∧ HasIndex b j s ∧
    IsClassName others classes a ∧ IsClassName others classes b

/-- Other pairs lead from a class to the class it contains, and the fields at offset zero are
called like classes. -/
structure FieldsNamedLikeClasses (others : Name → Prop) (classes : List ClassDecl) : Prop where
  linked : ∀ C ∈ classes, ∀ T ∈ classes, isVisited T.decl → Contains C T.decl.name →
    Relation.ReflTransGen (Linked classes) C.decl.name T.decl.name
  named : ∀ before C after, classes = before ++ C :: after → isVisited C.decl →
    FirstOfName before C → ∀ name ∈ zeroFields C.decl, IsClassName others classes name

section Run

variable {classes : List ClassDecl}

/-- What a run over definitions knows. -/
theorem definitions_known (hrun : traversal.run (definitions classes) Collector.empty = some s) :
    Numbered (numbering (program [] (definitions classes))).toFinset
      (fun name => s.hasVisitedField.contains name) (Linked classes) s :=
  (run_known hrun).congr rfl (fun _ => Iff.rfl) fun _ _ => edge_definitions

theorem linked_symm {a b : Name} (h : Relation.ReflTransGen (Linked classes) a b) :
    Relation.ReflTransGen (Linked classes) b a := by
  induction h with
  | refl => exact .refl
  | tail _ hedge ih => exact .head hedge.symm ih

/-- Connected, in one family and linked are the same for a name with a number. -/
theorem family_iff (hrun : traversal.run (definitions classes) Collector.empty = some s)
    {a b : Name} {i : ℕ} (ha : HasIndex a i s) :
    (Connected s a b ∧ ∃ result, DFS s.graph s.currentIndex = some result ∧
      SameFamily s result a b) ↔ Relation.ReflTransGen (Linked classes) a b := by
  have hknown := definitions_known hrun
  constructor
  · rintro ⟨⟨k, l, hk, hl, hreach⟩, -⟩
    exact (reach_iff hknown hk hl).mp hreach
  · intro hpath
    obtain ⟨j, hb⟩ : ∃ j, HasIndex b j s := by
      rcases Relation.ReflTransGen.cases_tail hpath with rfl | ⟨c, _, hedge⟩
      · exact ⟨i, ha⟩
      · exact (hknown.known_iff b).mp (hknown.edges_known c b hedge).2
    have hreach := (reach_iff hknown ha hb).mpr hpath
    obtain ⟨result, hresult, -, hsets⟩ := components_spec s.graph s.currentIndex
    have hsymm : ∀ i < s.currentIndex, ∀ j, Reach s.graph s.currentIndex i j →
        Reach s.graph s.currentIndex j i := by
      intro k hk l hreach
      have hname : ∀ n < s.currentIndex, ∃ c, HasIndex c n s := fun n hn => by
        obtain ⟨c, hc⟩ := (hknown.index_iff n).mp hn
        exact ⟨c, (hknown.code_iff c n).mpr hc⟩
      obtain ⟨c, hc⟩ := hname k hk
      obtain ⟨d, hd⟩ := hname l (hreach.lt hk)
      exact (reach_iff hknown hd hc).mpr (linked_symm ((reach_iff hknown hc hd).mp hreach))
    have hlt : i < s.currentIndex := (hknown.index_iff i).mpr ⟨a, (hknown.code_iff a i).mp ha⟩
    exact ⟨⟨i, j, ha, hb, hreach⟩, result, hresult, i, j, ha, hb,
      (hsets hsymm i j).mpr ⟨hlt, hreach⟩⟩

/-- **When containment at offset zero joins families.** -/
theorem containment_iff (others : Name → Prop)
    (hrun : traversal.run (definitions classes) Collector.empty = some s) :
    ContainmentJoins others classes s ↔ FieldsNamedLikeClasses others classes := by
  have hknown := definitions_known hrun
  -- the numbered names, by the definitions that have been visited
  have hnumbered : ∀ name, (∃ i, HasIndex name i s) ↔
      ∃ before C after, classes = before ++ C :: after ∧ isVisited C.decl ∧
        (name = C.decl.name ∨ name ∈ namedBases C.decl ∨
          name ∈ zeroFields C.decl ∧ FirstOfName before C) := by
    intro name
    rw [← mem_numbering_definitions, ← List.mem_toFinset]
    exact (hknown.known_iff name).symm
  have hfamily : ∀ C ∈ classes, ∀ className, Contains C className →
      ((Connected s C.decl.name className ∧ ∃ result, DFS s.graph s.currentIndex = some result ∧
        SameFamily s result C.decl.name className) ↔
        Relation.ReflTransGen (Linked classes) C.decl.name className) := by
    intro C hC className hcontains
    obtain ⟨before, after, hsplit⟩ := List.append_of_mem hC
    obtain ⟨i, hi⟩ := (hnumbered C.decl.name).mpr
      ⟨before, C, after, hsplit, hcontains.visited, .inl rfl⟩
    exact family_iff hrun hi
  constructor
  · intro h
    refine ⟨fun C hC T hT hvisited hcontains => ?_, ?_⟩
    · exact (hfamily C hC _ hcontains).mp (h.together C hC T hT hvisited hcontains)
    · intro before C after hsplit hvisited hfirst name hname
      obtain ⟨i, hi⟩ := (hnumbered name).mpr
        ⟨before, C, after, hsplit, hvisited, .inr (.inr ⟨hname, hfirst⟩)⟩
      exact h.nodes name i hi
  · intro h
    -- a numbered name is a class, a base of one, or a field named like one
    have hnodes : ∀ name i, HasIndex name i s → IsClassName others classes name := by
      intro name i hi
      obtain ⟨before, C, after, hsplit, hvisited, hname⟩ := (hnumbered name).mp ⟨i, hi⟩
      have hC : C ∈ classes := by rw [hsplit]; simp
      rcases hname with rfl | hbase | ⟨hzero, hfirst⟩
      · exact .inr ⟨C, hC, .inl rfl⟩
      · exact .inr ⟨C, hC, .inr (.inl hbase)⟩
      · exact h.named before C after hsplit hvisited hfirst name hzero
    refine ⟨fun C hC T hT hvisited hcontains => ?_, hnodes, fun i j hedge => ?_⟩
    · exact (hfamily C hC _ hcontains).mpr (h.linked C hC T hT hvisited hcontains)
    · obtain ⟨a, b, ha, hb, -⟩ := (hknown.graph_iff i j).mp hedge
      exact ⟨a, b, ha, hb, hnodes a i ha, hnodes b j hb⟩

end Run

/-! ## A class with a member -/

/-- A class `C` whose first member, of class `T`, is called `memberName`. -/
def sampleContainer (memberName : Name) : ClassDecl where
  decl := .mk
    { name := ['C'], hasDefinition := true, isCompleteDefinition := true
      isAnonymousStructOrUnion := false, isDependentContext := false, isAggregate := false
      isPolymorphic := false
      fields := [{ name := memberName, type := .structureOrClass, offsetBits := 0 }]
      size := 8, alignment := 8 } []
  fields := [{ name := memberName, type := .record ['T'], offsetBits := 0 }]
  fields_eq := rfl

def sampleMember : ClassDecl where
  decl := sampleClass ['T'] []
  fields := []
  fields_eq := rfl

theorem sampleContainer_contains {memberName : Name} (hnamed : memberName ≠ []) :
    Contains (sampleContainer memberName) sampleMember.decl.name :=
  ⟨rfl, rfl, rfl, rfl, _, List.mem_singleton_self _, hnamed, rfl, rfl⟩

theorem containment_iff_sample :
    ∃ s, traversal.run (definitions [sampleContainer ['T'], sampleMember]) Collector.empty =
        some s ∧
      (ContainmentJoins (fun _ => False) [sampleContainer ['T'], sampleMember] s ↔
        FieldsNamedLikeClasses (fun _ => False) [sampleContainer ['T'], sampleMember]) :=
  ⟨_, rfl, containment_iff _ rfl⟩

/-- A member called `m` leaves its class in another family. -/
theorem member_not_joined : ¬ ∀ others classes s,
    traversal.run (definitions classes) Collector.empty = some s →
      ContainmentJoins others classes s := by
  intro h
  have hrun : ∃ s, traversal.run (definitions [sampleContainer ['m'], sampleMember])
      Collector.empty = some s ∧
      (s.classCode[(['C'] : Name)]? = some 0 ∧ s.classCode[(['T'] : Name)]? = some 2) ∧
      DFS s.graph s.currentIndex = some [[0, 1], [2]] := ⟨_, rfl, by decide, by decide⟩
  obtain ⟨s, hrun, hcode, hsets⟩ := hrun
  obtain ⟨-, result, hresult, i, j, hi, hj, S, hS, hiS, hjS⟩ :=
    (h (fun _ => False) _ s hrun).together _ List.mem_cons_self _
      (List.mem_cons_of_mem _ (List.mem_singleton_self _)) rfl
      (sampleContainer_contains (by decide))
  obtain rfl := Option.some.inj (hresult.symm.trans hsets)
  obtain rfl := Option.some.inj (hi.symm.trans hcode.1)
  obtain rfl := Option.some.inj (hj.symm.trans hcode.2)
  have hapart : ∀ S ∈ [[0, 1], [2]], ¬ (0 ∈ S ∧ 2 ∈ S) := by decide
  exact hapart S hS ⟨hiS, hjS⟩

end Bitype.Tool
