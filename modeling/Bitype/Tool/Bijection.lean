import Bitype.Tool.Accesses
import Bitype.Tool.Relations

/-!
# The numbering after any visits

`VisitCXXRecordDecl` and `addRelationShip` look a name up, or give it the next number, in six
places, and write edges and bases between.  `numbering_bijective` says what holds after any
sequence of such visits: the two maps are inverse to each other between the names met and the
numbers given out, a name keeps its number, every edge is between numbers given out, and a
visit that has been made already changes nothing.

For the last part an action is `Settled` if all it does is there.  What has been done is settled
(`settled_of_run`), stays settled (`Settled.grows`), and does nothing when it is done again
(`Settled.run`); and a visit does no more when it is made again
(`NameVisit.actions_again`).
-/

namespace Bitype.Tool

open CXXRecordDecl Bitype.Foundations

/-! ## The visits -/

/-- A visit of one of the two functions that number names. -/
inductive NameVisit
  | recordDecl (decl : CXXRecordDecl)
  | relationShip (bases : List CXXRecordDecl) (current : CXXRecordDecl)

def NameVisit.step : NameVisit → Collector → Option Collector
  | .recordDecl decl, s => visitCXXRecordDecl decl s
  | .relationShip bases current, s => addRelationShip bases current s

/-- Visits in any order. -/
def nameVisits : Machine Collector NameVisit where
  step := NameVisit.step

/-- The name whose fields a visit visits. -/
def NameVisit.fields : NameVisit → List Name
  | .recordDecl decl =>
      if isVisited decl && !decl.info.isDependentContext then [decl.name] else []
  | .relationShip _ _ => []

/-- The names a visit meets after the fields of some names have been visited. -/
def NameVisit.met (fieldsVisited : List Name) : NameVisit → List Name
  | .recordDecl decl =>
      if isVisited decl then
        (if decl.name ∈ fieldsVisited then [] else zeroFields decl) ++
          decl.name :: namedBases decl
      else []
  | .relationShip bases current => current.name :: bases.map name

/-- The names a sequence of visits meets. -/
def namesMet : List Name → List NameVisit → List Name
  | _, [] => []
  | fieldsVisited, v :: rest => v.met fieldsVisited ++ namesMet (fieldsVisited ++ v.fields) rest

/-! ## What holds -/

/-- The maps are inverse to each other, between `names` and the numbers below
`currentIndex`. -/
structure Bijective (names : List Name) (s : Collector) : Prop where
  code_iff : ∀ (name : Name) (i : ℕ), s.classCode[name]? = some i ↔ s.numberName[i]? = some name
  names_iff : ∀ name : Name, (∃ i, s.classCode[name]? = some i) ↔ name ∈ names
  index_iff : ∀ i : ℕ, (∃ name, s.numberName[i]? = some name) ↔ i < s.currentIndex

/-- An entry of a matrix. -/
def Collector.matrix (s : Collector) : Matrix → ℕ → ℕ → Bool
  | .graph => s.graph
  | .phantoms => s.graphPhantoms
  | .family => s.graphFamily

/-- Every edge is between numbers that have been given out. -/
def EdgesNumbered (s : Collector) : Prop :=
  ∀ matrix i j, s.matrix matrix i j = true → i < s.currentIndex ∧ j < s.currentIndex

/-- The same numbering, graphs and relations. -/
structure SameTables (s s' : Collector) : Prop where
  names : SameNames s s'
  matrix : s'.matrix = s.matrix
  relations : ∀ name : Name, s'.relations[name]? = s.relations[name]?

theorem SameTables.refl (s : Collector) : SameTables s s := ⟨⟨rfl, rfl, rfl⟩, rfl, fun _ => rfl⟩

theorem SameTables.trans {s s' s'' : Collector} (h : SameTables s s') (h' : SameTables s' s'') :
    SameTables s s'' :=
  ⟨h.names.trans h'.names, h'.matrix.trans h.matrix,
    fun name => (h'.relations name).trans (h.relations name)⟩

/-! ## The actions of a visit -/

/-- `addRelationShip`. -/
def relationShipActions (bases : List CXXRecordDecl) (current : CXXRecordDecl) : List Action :=
  .number current.name :: bases.flatMap (relateBaseActions current) ++
    [.addRelations current.name (bases.map name)]

def NameVisit.actions (fieldsVisited : List Name) : NameVisit → List Action
  | .recordDecl decl => recordDeclActions (decl.name ∈ fieldsVisited) decl
  | .relationShip bases current => relationShipActions bases current

variable {s s' : Collector}

theorem relationShipActions_does (bases : List CXXRecordDecl) (current : CXXRecordDecl) :
    Does (fun _ => True) (relationShipActions bases current) (addRelationShip bases current) := by
  change Does _ (.number current.name :: (_ ++ _)) fun s =>
    relateBases bases current (s.indexOf current.name).1 (s.indexOf current.name).2
  apply Does.number stable_true
  intro currentDeclIndex
  have hpre := stable_true.and (stable_hasIndex current.name currentDeclIndex)
  exact (Does.flatMap hpre _ fun base _ =>
    (relateBaseActions_does current base currentDeclIndex).mono fun _ h => h.2).append hpre
      (.single fun _ => rfl)

/-- The marks of a visit's actions. -/
theorem NameVisit.fields_actions (fieldsVisited : List Name) (v : NameVisit) (name : Name) :
    name ∈ (v.actions fieldsVisited).flatMap Action.fields ↔
      name ∈ v.fields ∧ name ∉ fieldsVisited := by
  cases v with
  | recordDecl decl => exact Bitype.Tool.fields_actions fieldsVisited (.recordDecl decl) name
  | relationShip bases current =>
      simp [NameVisit.actions, NameVisit.fields, relationShipActions, fields_relateBaseActions,
        Action.fields, List.flatMap_assoc]

/-- **A visit does its actions.** -/
theorem NameVisit.actions_does {fieldsVisited : List Name} (hmarks : Marks fieldsVisited s)
    (v : NameVisit) : (runActions (v.actions fieldsVisited) s).toOption = nameVisits.step v s := by
  cases v with
  | recordDecl decl => exact Bitype.Tool.actions_does hmarks (.recordDecl decl)
  | relationShip bases current => exact relationShipActions_does bases current s trivial

theorem NameVisit.marks_actions {fieldsVisited : List Name} (hmarks : Marks fieldsVisited s)
    {v : NameVisit} (h : runActions (v.actions fieldsVisited) s = .ok s') :
    Marks (fieldsVisited ++ v.fields) s' :=
  hmarks.runActions (v.fields_actions fieldsVisited) h

/-- Every name is numbered before its number is used. -/
theorem NameVisit.scoped_actions (names fieldsVisited : List Name) (v : NameVisit) :
    Scoped names (v.actions fieldsVisited) := by
  cases v with
  | recordDecl decl => exact scoped_recordDeclActions names _ decl
  | relationShip bases current =>
      apply Scoped.number rfl rfl
      intro names' _ hcurrent
      refine (Scoped.flatMap _ fun base _ => scoped_relateBaseActions hcurrent base).append ?_
      exact scoped_of_known (by simp [Action.touched])

/-- The names some actions number. -/
def numberedIn (actions : List Action) : List Name := actions.filterMap Action.numbered

theorem mem_foldl_extend {actions : List Action} {name : Name} : ∀ {names : List Name},
    name ∈ actions.foldl Action.extend names ↔ name ∈ names ∨ name ∈ numberedIn actions := by
  induction actions with
  | nil => simp [numberedIn]
  | cons action rest ih =>
      intro names
      have hextend : name ∈ action.extend names ↔ name ∈ names ∨ action.numbered = some name := by
        unfold Action.extend
        split
        · next other hother =>
            rw [hother, Option.some.injEq]
            split
            · next hold => exact ⟨.inl, fun h => h.elim id fun heq => heq ▸ hold⟩
            · rw [List.mem_append, List.mem_singleton, @eq_comm _ name]
        · next hnone => simp [hnone]
      rw [List.foldl_cons, ih, hextend, or_assoc]
      refine or_congr_right ?_
      simp [numberedIn]

theorem numberedIn_phantomActions (sameSize : Bool) (a b : Name) :
    numberedIn (phantomActions sameSize a b) = [] := by
  cases sameSize <;> rfl

theorem numberedIn_addRelations (declName : Name) (tempBaseVec : List Name) :
    numberedIn [.addRelations declName tempBaseVec] = [] := rfl

theorem numberedIn_append (actions rest : List Action) :
    numberedIn (actions ++ rest) = numberedIn actions ++ numberedIn rest :=
  List.filterMap_append

theorem mem_numberedIn_flatMap {β : Type} {actionsOf : β → List Action} {elements : List β}
    {name : Name} : name ∈ numberedIn (elements.flatMap actionsOf) ↔
      ∃ x ∈ elements, name ∈ numberedIn (actionsOf x) := by
  unfold numberedIn
  rw [List.filterMap_flatMap, List.mem_flatMap]

/-- The names of the first part of `VisitCXXRecordDecl`; the class has a number anyway. -/
theorem mem_numberedIn_fields {decl : CXXRecordDecl}
    (hcontext : decl.info.isDependentContext = false) {name : Name} (hne : name ≠ decl.name) :
    name ∈ numberedIn (visitFieldsActions decl) ↔ name ∈ zeroFields decl := by
  have hfield : ∀ field : FieldDecl, name ∈ numberedIn (fieldActions decl.name field) ↔
      field.isOffsetZero = true ∧ field.name = name := by
    intro field
    unfold fieldActions
    split
    · next hzero => simp [numberedIn, Action.numbered, hzero, hne, eq_comm]
    · next hzero => simp [numberedIn, hzero]
  change name ∈ numberedIn (if !decl.info.isAggregate && !decl.info.isPolymorphic then
    decl.info.fields.flatMap (fieldActions decl.name) else []) ↔ _
  unfold zeroFields
  rw [hcontext, Bool.not_false, Bool.true_and]
  split
  · simp only [mem_numberedIn_flatMap, hfield, List.mem_map, List.mem_filter, and_assoc]
  · simp [numberedIn]

/-- The names of the second part. -/
theorem mem_numberedIn_bases (decl : CXXRecordDecl) (name : Name) :
    name ∈ numberedIn (visitBasesActions decl) ↔ name ∈ namedBases decl := by
  have hbase : ∀ base : CXXRecordDecl, name ∈ numberedIn (joinBaseActions decl base) ↔
      base.name ≠ [] ∧ base.name = name := by
    intro base
    unfold joinBaseActions
    split
    · next hnone => simp [numberedIn, hnone]
    · next hnamed =>
        rw [numberedIn_append, numberedIn_phantomActions]
        simp [numberedIn, Action.numbered, hnamed, eq_comm]
  unfold visitBasesActions namedBases
  change name ∈ numberedIn (_ ++ _) ↔ _
  rw [numberedIn_append, List.mem_append, mem_numberedIn_flatMap, numberedIn_addRelations]
  simp only [hbase, List.not_mem_nil, or_false, List.mem_filter, List.mem_map, decide_eq_true_eq]
  constructor
  · rintro ⟨base, hmem, hnamed, rfl⟩
    exact ⟨⟨base, hmem, rfl⟩, hnamed⟩
  · rintro ⟨⟨base, hmem, rfl⟩, hnamed⟩
    exact ⟨base, hmem, hnamed, rfl⟩

/-- **The names met** are those the actions number. -/
theorem NameVisit.mem_met (fieldsVisited : List Name) (v : NameVisit) (name : Name) :
    name ∈ v.met fieldsVisited ↔ name ∈ numberedIn (v.actions fieldsVisited) := by
  cases v with
  | recordDecl decl =>
      change name ∈ (if isVisited decl then _ else _) ↔ name ∈ numberedIn (recordDeclActions _ decl)
      unfold recordDeclActions
      by_cases hvisited : isVisited decl = true
      · rw [if_pos hvisited, if_pos hvisited, numberedIn_append, List.mem_append, List.mem_append]
        change _ ↔ _ ∨ name ∈ numberedIn ([.number decl.name] ++ visitBasesActions decl)
        rw [numberedIn_append, List.mem_append, mem_numberedIn_bases, List.mem_cons]
        -- the class numbers itself, whatever else it does
        by_cases hself : name = decl.name
        · simp [hself, numberedIn, Action.numbered]
        · refine or_congr ?_ (by simp [numberedIn, Action.numbered, hself])
          by_cases hdone : decl.name ∈ fieldsVisited
          · simp [hdone, numberedIn]
          · cases hcontext : decl.info.isDependentContext with
            | true => simp [hdone, numberedIn, zeroFields, hcontext]
            | false => simp [hdone, mem_numberedIn_fields hcontext hself]
      · rw [if_neg hvisited, if_neg hvisited]
        rfl
  | relationShip bases current =>
      have hbase : ∀ base : CXXRecordDecl, name ∈ numberedIn (relateBaseActions current base) ↔
          base.name = name := by
        intro base
        unfold relateBaseActions
        rw [numberedIn_append, numberedIn_phantomActions]
        simp [numberedIn, Action.numbered, eq_comm]
      change _ ↔ name ∈ numberedIn ([.number current.name] ++ (_ ++ _))
      rw [numberedIn_append, numberedIn_append, List.mem_append, List.mem_append,
        mem_numberedIn_flatMap]
      simp only [NameVisit.met, List.mem_cons, List.mem_map, hbase]
      simp [numberedIn, Action.numbered]

/-! ## The maps -/

theorem Action.run_named {action : Action} (hs : NamesNumbered s)
    (h : Action.run s action = .ok s') : NamesNumbered s' := by
  rcases Action.run_names h with ⟨-, hsame⟩ | ⟨name, -, rfl⟩
  · exact hs.same hsame
  · exact (indexOf_named hs name).1

theorem runActions_named {actions : List Action} (hs : NamesNumbered s)
    (h : runActions actions s = .ok s') : NamesNumbered s' := by
  induction actions generalizing s with
  | nil => exact Except.ok.inj h ▸ hs
  | cons action rest ih =>
      obtain ⟨s₁, hstep, hrest⟩ := foldlM_cons_ok h
      exact ih (Action.run_named hs hstep) hrest

/-! ## The edges -/

/-- What a write to a matrix does. -/
structure Written (matrix : Matrix) (i j : ℕ) (s s' : Collector) : Prop where
  inRange : i < MAX_NUM_CLASS ∧ j < MAX_NUM_CLASS
  relations : s'.relations = s.relations
  matrix_iff : ∀ matrix' k l, s'.matrix matrix' k l = true ↔
    s.matrix matrix' k l = true ∨ matrix' = matrix ∧ k = i ∧ l = j

theorem setMatrix_written {matrix : Matrix} {i j : ℕ} (h : s.setMatrix matrix i j = some s') :
    Written matrix i j s s' := by
  -- an edge is set if both numbers are in range
  have hedge : ∀ m m' : ℕ → ℕ → Bool, setEdge m i j = some m' →
      (i < MAX_NUM_CLASS ∧ j < MAX_NUM_CLASS) ∧
        ∀ k l, m' k l = true ↔ m k l = true ∨ k = i ∧ l = j := by
    intro m m' hset
    unfold setEdge at hset
    split at hset
    · next hrange =>
        refine ⟨hrange, fun k l => ?_⟩
        rw [← Option.some.inj hset]
        dsimp only
        split
        · next hsame => exact iff_of_true rfl (.inr hsame)
        · next hother => rw [or_iff_left hother]
    · cases hset
  cases matrix with
  | graph =>
      obtain ⟨m', hset, rfl⟩ := Option.map_eq_some_iff.mp h
      refine ⟨(hedge _ _ hset).1, rfl, fun matrix' k l => ?_⟩
      cases matrix' with
      | graph => simpa [Collector.matrix] using (hedge _ _ hset).2 k l
      | phantoms => simp [Collector.matrix]
      | family => simp [Collector.matrix]
  | phantoms =>
      obtain ⟨m', hset, rfl⟩ := Option.map_eq_some_iff.mp h
      refine ⟨(hedge _ _ hset).1, rfl, fun matrix' k l => ?_⟩
      cases matrix' with
      | graph => simp [Collector.matrix]
      | phantoms => simpa [Collector.matrix] using (hedge _ _ hset).2 k l
      | family => simp [Collector.matrix]
  | family =>
      obtain ⟨m', hset, rfl⟩ := Option.map_eq_some_iff.mp h
      refine ⟨(hedge _ _ hset).1, rfl, fun matrix' k l => ?_⟩
      cases matrix' with
      | graph => simp [Collector.matrix]
      | phantoms => simp [Collector.matrix]
      | family => simpa [Collector.matrix] using (hedge _ _ hset).2 k l

/-- An edge is written between the numbers of its names. -/
theorem Action.run_edge {matrix : Matrix} {a b : Name} (h : Action.run s (.edge matrix a b) = .ok s') :
    Written matrix (s.index a) (s.index b) s s' := by
  rw [Action.run] at h
  split at h
  · next hset => exact Except.ok.inj h ▸ setMatrix_written hset
  · cases h

theorem indexOf_matrix (s : Collector) (name : Name) :
    (s.indexOf name).2.matrix = s.matrix ∧ (s.indexOf name).2.relations = s.relations := by
  unfold Collector.indexOf
  split <;> exact ⟨rfl, rfl⟩

theorem addRelations_matrix (s : Collector) (declName : Name) (tempBaseVec : List Name) :
    (s.addRelations declName tempBaseVec).matrix = s.matrix := by
  unfold Collector.addRelations
  split
  · split <;> rfl
  · rfl

/-- Only edges change the matrices. -/
theorem Action.run_matrix {action : Action} (h : Action.run s action = .ok s') :
    s'.matrix = s.matrix ∨ ∃ matrix a b, action = .edge matrix a b := by
  cases action with
  | visitField decl => exact .inl (Except.ok.inj h ▸ rfl)
  | numberOrExit name =>
      rw [Action.run] at h
      split at h
      · next p hp =>
          left
          rw [← Except.ok.inj h, indexOrExit_eq_some hp]
          exact (indexOf_matrix s name).1
      · cases h
  | number name => exact .inl (Except.ok.inj h ▸ (indexOf_matrix s name).1)
  | edge matrix a b => exact .inr ⟨matrix, a, b, rfl⟩
  | addRelations declName tempBaseVec =>
      exact .inl (Except.ok.inj h ▸ addRelations_matrix s declName tempBaseVec)
  | downCast location derived based => exact .inl (Except.ok.inj h ▸ rfl)

theorem Lists.index_lt {names : List Name} (h : Lists names s) {name : Name}
    (hname : name ∈ names) : s.index name < s.currentIndex := by
  rw [h.length_eq]
  exact (List.getElem?_eq_some_iff.mp (h.index hname)).1

/-- An action that uses known numbers keeps the edges between numbers given out. -/
theorem EdgesNumbered.run {names : List Name} {action : Action} (h : EdgesNumbered s)
    (hlists : Lists names s) (hknown : ∀ name ∈ action.touched, name ∈ names)
    (hrun : Action.run s action = .ok s') : EdgesNumbered s' := by
  have hgrows : s.currentIndex ≤ s'.currentIndex := by
    rw [hlists.length_eq, (hlists.run hrun).length_eq]
    exact (prefix_extend names action).length_le
  have hold : ∀ matrix i j, s.matrix matrix i j = true →
      i < s'.currentIndex ∧ j < s'.currentIndex := by
    intro matrix i j hedge
    obtain ⟨hi, hj⟩ := h matrix i j hedge
    exact ⟨hi.trans_le hgrows, hj.trans_le hgrows⟩
  rcases Action.run_matrix hrun with hsame | ⟨matrix, a, b, rfl⟩
  · intro matrix i j hedge
    exact hold matrix i j (hsame ▸ hedge)
  · intro matrix' i j hedge
    rcases ((Action.run_edge hrun).matrix_iff matrix' i j).mp hedge with hedge | ⟨-, rfl, rfl⟩
    · exact hold matrix' i j hedge
    · have ha := hlists.index_lt (hknown a (by simp [Action.touched]))
      have hb := hlists.index_lt (hknown b (by simp [Action.touched]))
      exact ⟨ha.trans_le hgrows, hb.trans_le hgrows⟩

theorem EdgesNumbered.runActions {actions : List Action} : ∀ {names : List Name} {s : Collector},
    EdgesNumbered s → Lists names s → Scoped names actions →
      runActions actions s = .ok s' → EdgesNumbered s' := by
  induction actions with
  | nil => exact fun h _ _ hrun => Except.ok.inj hrun ▸ h
  | cons action rest ih =>
      intro names s h hlists hscoped hrun
      obtain ⟨s₁, hstep, hrest⟩ := foldlM_cons_ok hrun
      exact ih (h.run hlists hscoped.1 hstep) (hlists.run hstep) hscoped.2 hrest

/-! ## Doing it again -/

/-- What an action does is there. -/
def Settled (s : Collector) : Action → Prop
  | .number name | .numberOrExit name => ∃ i, HasIndex name i s
  | .edge matrix a b => ∃ i j, HasIndex a i s ∧ HasIndex b j s ∧
      (i < MAX_NUM_CLASS ∧ j < MAX_NUM_CLASS) ∧ s.matrix matrix i j = true
  | .addRelations declName tempBaseVec => ∀ base ∈ tempBaseVec, Recorded s declName base
  | .visitField _ | .downCast .. => True

/-- Nothing is taken back. -/
structure Grows (s s' : Collector) : Prop where
  names : Extends s s'
  matrix : ∀ matrix i j, s.matrix matrix i j = true → s'.matrix matrix i j = true
  recorded : ∀ name base, Recorded s name base → Recorded s' name base

theorem Settled.grows {action : Action} (h : Settled s action) (hgrows : Grows s s') :
    Settled s' action := by
  have hnumber : ∀ name, (∃ i, HasIndex name i s) → ∃ i, HasIndex name i s' :=
    fun name ⟨i, hi⟩ => ⟨i, hgrows.names name i hi⟩
  cases action with
  | number name => exact hnumber name h
  | numberOrExit name => exact hnumber name h
  | edge matrix a b =>
      obtain ⟨i, j, ha, hb, hrange, hedge⟩ := h
      exact ⟨i, j, hgrows.names a i ha, hgrows.names b j hb, hrange, hgrows.matrix matrix i j hedge⟩
  | addRelations declName tempBaseVec =>
      exact fun base hbase => hgrows.recorded declName base (h base hbase)
  | visitField decl => trivial
  | downCast location derived based => trivial

theorem SameTables.grows (h : SameTables s s') : Grows s s' where
  names name i hi := by rw [h.names.1]; exact hi
  matrix matrix i j hedge := by rw [h.matrix]; exact hedge
  recorded name base hrecorded := by
    unfold Recorded
    rw [h.relations]
    exact hrecorded

/-- A step takes nothing back. -/
theorem Action.run_grows {action : Action} (h : Action.run s action = .ok s') : Grows s s' := by
  -- most actions touch neither a matrix nor the relations
  have hsame : s'.matrix = s.matrix → s'.relations = s.relations → Grows s s' := by
    refine fun hmatrix hrelations => ⟨Action.run_extends h, fun matrix i j hedge => ?_, ?_⟩
    · rw [hmatrix]
      exact hedge
    · unfold Recorded
      rw [hrelations]
      exact fun _ _ => id
  cases action with
  | visitField decl => exact hsame (Except.ok.inj h ▸ rfl) (Except.ok.inj h ▸ rfl)
  | number name =>
      obtain ⟨hmatrix, hrelations⟩ := indexOf_matrix s name
      exact hsame (Except.ok.inj h ▸ hmatrix) (Except.ok.inj h ▸ hrelations)
  | numberOrExit name =>
      obtain ⟨hmatrix, hrelations⟩ := indexOf_matrix s name
      have hnumbered : s' = (s.indexOf name).2 := by
        rw [Action.run] at h
        split at h
        · next p hp => rw [← Except.ok.inj h, indexOrExit_eq_some hp]
        · cases h
      exact hsame (hnumbered ▸ hmatrix) (hnumbered ▸ hrelations)
  | edge matrix a b =>
      have hwritten := Action.run_edge h
      refine ⟨Action.run_extends h, fun matrix' i j hedge => ?_, ?_⟩
      · exact (hwritten.matrix_iff matrix' i j).mpr (.inl hedge)
      · unfold Recorded
        rw [hwritten.relations]
        exact fun _ _ => id
  | addRelations declName tempBaseVec =>
      obtain rfl := Except.ok.inj h
      refine ⟨Action.run_extends h, fun matrix i j hedge => ?_, fun name base hrecorded => ?_⟩
      · rw [addRelations_matrix]
        exact hedge
      · exact ((addRelations_spec declName tempBaseVec s).1 name base).mpr (.inl hrecorded)
  | downCast location derived based => exact hsame (Except.ok.inj h ▸ rfl) (Except.ok.inj h ▸ rfl)

/-- What has been done is settled. -/
theorem settled_of_run {names : List Name} {action : Action} (hlists : Lists names s)
    (hknown : ∀ name ∈ action.touched, name ∈ names) (h : Action.run s action = .ok s') :
    Settled s' action := by
  have hnumber : ∀ name, action.numbered = some name → ∃ i, HasIndex name i s' := by
    intro name hname
    obtain ⟨i, hi⟩ := List.mem_iff_getElem?.mp (mem_extend_self hname names)
    exact ⟨i, ((hlists.run h).code_iff name i).mpr hi⟩
  cases action with
  | number name => exact hnumber name rfl
  | numberOrExit name => exact hnumber name rfl
  | edge matrix a b =>
      have hindex : ∀ name ∈ names, HasIndex name (s.index name) s' := by
        intro name hname
        exact Action.run_extends h name _ ((hlists.code_iff name _).mpr (hlists.index hname))
      have hwritten := Action.run_edge h
      exact ⟨_, _, hindex a (hknown a (by simp [Action.touched])),
        hindex b (hknown b (by simp [Action.touched])), hwritten.inRange,
        (hwritten.matrix_iff matrix _ _).mpr (.inr ⟨rfl, rfl, rfl⟩)⟩
  | addRelations declName tempBaseVec =>
      obtain rfl := Except.ok.inj h
      exact fun base hbase =>
        ((addRelations_spec declName tempBaseVec s).1 declName base).mpr (.inr ⟨rfl, hbase⟩)
  | visitField decl => trivial
  | downCast location derived based => trivial

/-- Bases that are all recorded are not recorded again. -/
theorem addRelations_settled {declName : Name} {tempBaseVec : List Name}
    (h : ∀ base ∈ tempBaseVec, Recorded s declName base) :
    SameTables s (s.addRelations declName tempBaseVec) := by
  refine ⟨addRelations_same s _ _, addRelations_matrix s _ _, fun name => ?_⟩
  -- merging bases that are known adds none
  have hmerge : ∀ known : List Name, (∀ base ∈ tempBaseVec, base ∈ known) → tempBaseVec.foldl
      (fun known name => if name ∈ known then known else known ++ [name]) known = known := by
    intro known hknown
    clear h
    induction tempBaseVec with
    | nil => rfl
    | cons base rest ih =>
        rw [List.foldl_cons, if_pos (hknown base List.mem_cons_self)]
        exact ih fun other hother => hknown other (List.mem_cons_of_mem _ hother)
  unfold Collector.addRelations
  split
  · next hpos =>
      obtain ⟨first, hfirst⟩ := List.exists_mem_of_length_pos hpos
      obtain ⟨known, hknown, -⟩ := h first hfirst
      rw [hknown]
      dsimp only
      rw [hmerge known fun base hbase => ?_, Std.TreeMap.getElem?_insert]
      · simp only [Std.LawfulEqCmp.compare_eq_iff_eq]
        split
        · next heq => rw [← heq, hknown]
        · rfl
      · obtain ⟨known', hknown', hmem⟩ := h base hbase
        rw [hknown] at hknown'
        exact Option.some.inj hknown' ▸ hmem
  · rfl

/-- **What is settled does nothing when it is done again.** -/
theorem Settled.run {action : Action} (h : Settled s action) :
    ∃ s', Action.run s action = .ok s' ∧ SameTables s s' := by
  have hnumber : ∀ name, (∃ i, HasIndex name i s) → (s.indexOf name).2 = s ∧
      ∃ i, s.indexOrExit name = some (i, s) := by
    intro name ⟨i, hi⟩
    have hcode : s.classCode[name]? = some i := hi
    exact ⟨by simp [Collector.indexOf, hcode], i, by simp [Collector.indexOrExit, hcode]⟩
  cases action with
  | number name =>
      refine ⟨s, ?_, .refl s⟩
      rw [Action.run, (hnumber name h).1]
  | numberOrExit name =>
      obtain ⟨i, hi⟩ := (hnumber name h).2
      refine ⟨s, ?_, .refl s⟩
      rw [Action.run, hi]
  | edge matrix a b =>
      obtain ⟨i, j, ha, hb, hrange, hedge⟩ := h
      obtain ⟨s', hset⟩ := Option.isSome_iff_exists.mp ((@setMatrix_isSome s matrix i j).mpr hrange)
      have hrun : Action.run s (.edge matrix a b) = .ok s' := by
        rw [Action.run, Collector.index, Collector.index, show s.classCode[a]? = some i from ha,
          show s.classCode[b]? = some j from hb, Option.getD_some, Option.getD_some, hset]
      have hwritten := setMatrix_written hset
      -- the edge was there, so setting it changes nothing
      refine ⟨s', hrun, setMatrix_same hset, ?_, fun name => by rw [hwritten.relations]⟩
      funext matrix' k l
      rw [Bool.eq_iff_iff, hwritten.matrix_iff, or_iff_left_iff_imp]
      rintro ⟨rfl, rfl, rfl⟩
      exact hedge
  | addRelations declName tempBaseVec => exact ⟨_, rfl, addRelations_settled h⟩
  | visitField decl => exact ⟨_, rfl, ⟨rfl, rfl, rfl⟩, rfl, fun _ => rfl⟩
  | downCast location derived based => exact ⟨_, rfl, ⟨rfl, rfl, rfl⟩, rfl, fun _ => rfl⟩

/-- What some actions have done is settled, and stays so. -/
theorem settled_of_runActions {actions : List Action} : ∀ {names : List Name} {s : Collector},
    Lists names s → Scoped names actions → runActions actions s = .ok s' →
      Grows s s' ∧ ∀ action ∈ actions, Settled s' action := by
  induction actions with
  | nil =>
      intro names s _ _ hrun
      obtain rfl := Except.ok.inj hrun
      exact ⟨(SameTables.refl s).grows, fun _ h => absurd h List.not_mem_nil⟩
  | cons action rest ih =>
      intro names s hlists hscoped hrun
      obtain ⟨s₁, hstep, hrest⟩ := foldlM_cons_ok hrun
      obtain ⟨hgrows, hsettled⟩ := ih (hlists.run hstep) hscoped.2 hrest
      have hfirst := Action.run_grows hstep
      refine ⟨⟨hfirst.names.trans hgrows.names, fun matrix i j hedge => ?_, fun name base h => ?_⟩, ?_⟩
      · exact hgrows.matrix matrix i j (hfirst.matrix matrix i j hedge)
      · exact hgrows.recorded name base (hfirst.recorded name base h)
      · intro other hother
        rcases List.mem_cons.mp hother with rfl | hother
        · exact (settled_of_run hlists hscoped.1 hstep).grows hgrows
        · exact hsettled other hother

/-- Settled actions do nothing. -/
theorem runActions_settled {actions : List Action} : ∀ {s : Collector},
    (∀ action ∈ actions, Settled s action) →
      ∃ s', runActions actions s = .ok s' ∧ SameTables s s' := by
  induction actions with
  | nil => exact fun {s} _ => ⟨s, rfl, .refl s⟩
  | cons action rest ih =>
      intro s h
      obtain ⟨s₁, hstep, hsame⟩ := (h action List.mem_cons_self).run
      obtain ⟨s', hrest, hsame'⟩ := @ih s₁ fun other hother =>
        (h other (List.mem_cons_of_mem _ hother)).grows hsame.grows
      refine ⟨s', ?_, hsame.trans hsame'⟩
      rw [runActions_cons, hstep]
      exact hrest

/-- A visit does no more when its fields have been visited. -/
theorem NameVisit.actions_again {fieldsVisited later : List Name} {v : NameVisit}
    (hlater : ∀ name ∈ fieldsVisited ++ v.fields, name ∈ later) :
    ∀ action ∈ v.actions later, action ∈ v.actions fieldsVisited := by
  cases v with
  | relationShip bases current => exact fun _ h => h
  | recordDecl decl =>
      intro action haction
      change action ∈ recordDeclActions _ decl at haction
      change action ∈ recordDeclActions _ decl
      unfold recordDeclActions at haction ⊢
      by_cases hvisited : isVisited decl = true
      · rw [if_pos hvisited] at haction ⊢
        refine List.mem_append.mpr ((List.mem_append.mp haction).imp_left fun hfields => ?_)
        -- fields are visited again only if they were not visited before
        split at hfields
        · next hfirst =>
            rw [Bool.and_eq_true, Bool.not_eq_true', decide_eq_false_iff_not] at hfirst
            obtain ⟨hnew, hcontext⟩ := hfirst
            refine absurd (hlater decl.name (List.mem_append_right _ ?_)) hnew
            simp [NameVisit.fields, hvisited, by simpa using hcontext]
        · cases hfields
      · rw [if_neg hvisited] at haction
        cases haction

/-! ## Runs -/

/-- What holds after the visits `done`, which have met `names` and visited the fields of
`fieldsVisited`. -/
structure Sound (names fieldsVisited : List Name) (done : List NameVisit) (s : Collector) :
    Prop where
  named : NamesNumbered s
  lists : ∃ list, Lists list s ∧ ∀ name, name ∈ list ↔ name ∈ names
  marks : Marks fieldsVisited s
  edges : EdgesNumbered s
  visited : ∀ v ∈ done, ∀ name ∈ v.fields, name ∈ fieldsVisited
  settled : ∀ v ∈ done, ∀ action ∈ v.actions fieldsVisited, Settled s action

theorem sound_empty : Sound [] [] [] Collector.empty := by
  refine ⟨namesNumbered_empty, ⟨[], lists_empty, fun _ => Iff.rfl⟩, ?_, ?_, ?_, ?_⟩
  · intro name
    simp [Collector.empty]
  · intro matrix i j hedge
    cases matrix <;> cases hedge
  · exact fun v hv => absurd hv List.not_mem_nil
  · exact fun v hv => absurd hv List.not_mem_nil

/-- **A visit.** -/
theorem Sound.step {names fieldsVisited : List Name} {done : List NameVisit} {v : NameVisit}
    (h : Sound names fieldsVisited done s) (hstep : nameVisits.step v s = some s') :
    Sound (names ++ v.met fieldsVisited) (fieldsVisited ++ v.fields) (done ++ [v]) s' ∧
      Extends s s' := by
  obtain ⟨list, hlists, hmem⟩ := h.lists
  have hrun : runActions (v.actions fieldsVisited) s = .ok s' :=
    toOption_eq_some.mp ((v.actions_does h.marks).trans hstep)
  have hscoped := v.scoped_actions list fieldsVisited
  obtain ⟨hgrows, hsettled⟩ := settled_of_runActions hlists hscoped hrun
  refine ⟨⟨runActions_named h.named hrun, ⟨_, hlists.runActions hrun, fun name => ?_⟩,
    NameVisit.marks_actions h.marks hrun, h.edges.runActions hlists hscoped hrun, ?_, ?_⟩,
    hgrows.names⟩
  · rw [mem_foldl_extend, hmem, ← v.mem_met, List.mem_append]
  · intro w hw name hname
    rcases List.mem_append.mp hw with hw | hw
    · exact List.mem_append_left _ (h.visited w hw name hname)
    · exact List.mem_append_right _ (List.mem_singleton.mp hw ▸ hname)
  · intro w hw action haction
    rcases List.mem_append.mp hw with hw | hw
    · refine (h.settled w hw action (NameVisit.actions_again ?_ action haction)).grows hgrows
      intro name hname
      rcases List.mem_append.mp hname with hname | hname
      · exact List.mem_append_left _ hname
      · exact List.mem_append_left _ (h.visited w hw name hname)
    · obtain rfl := List.mem_singleton.mp hw
      exact hsettled action (NameVisit.actions_again (fun _ hname => hname) action haction)

/-- **A sequence of visits.** -/
theorem Sound.run : ∀ (visits : List NameVisit) {names fieldsVisited : List Name}
    {done : List NameVisit} {s : Collector}, Sound names fieldsVisited done s →
    nameVisits.run visits s = some s' →
      Sound (names ++ namesMet fieldsVisited visits) (fieldsVisited ++ visits.flatMap NameVisit.fields)
        (done ++ visits) s' ∧ Extends s s' := by
  intro visits
  induction visits with
  | nil =>
      intro names fieldsVisited done s h hrun
      obtain rfl := Option.some.inj hrun
      simpa [namesMet] using ⟨h, Extends.refl s⟩
  | cons v rest ih =>
      intro names fieldsVisited done s h hrun
      obtain ⟨s₁, hstep, hrest⟩ := Option.bind_eq_some_iff.mp hrun
      obtain ⟨hfirst, hext⟩ := h.step hstep
      obtain ⟨hsound, hext'⟩ := ih hfirst hrest
      refine ⟨?_, hext.trans hext'⟩
      simpa [namesMet, List.append_assoc] using hsound

/-- **Numbering the classes is a bijection**, names keep their numbers, edges are between
numbers given out, and a visit made again changes nothing. -/
theorem numbering_bijective {visits : List NameVisit} {s : Collector}
    (hrun : nameVisits.run visits Collector.empty = some s) :
    Bijective (namesMet [] visits) s ∧
      (∀ later s', nameVisits.run later s = some s' → Extends s s') ∧
      EdgesNumbered s ∧
      ∀ v ∈ visits, ∃ s', nameVisits.step v s = some s' ∧ SameTables s s' := by
  obtain ⟨hsound, -⟩ := sound_empty.run visits hrun
  rw [List.nil_append, List.nil_append, List.nil_append] at hsound
  obtain ⟨list, hlists, hmem⟩ := hsound.lists
  refine ⟨⟨hsound.named.code_iff, fun name => ?_, fun i => (hsound.named.index_iff i).symm⟩,
    fun later s' hlater => (hsound.run later hlater).2, hsound.edges, fun v hv => ?_⟩
  · simp only [hlists.code_iff, ← hmem, List.mem_iff_getElem?]
  · obtain ⟨s', hagain, hsame⟩ := runActions_settled (hsound.settled v hv)
    refine ⟨s', ?_, hsame⟩
    rw [← v.actions_does hsound.marks, hagain]
    rfl

/-- A class with a base, and the same as an instance of a template. -/
theorem numbering_bijective_sample : ∃ s, nameVisits.run
      [.recordDecl sampleDerived, .relationShip (collectAllBases sampleDerived) sampleDerived]
      Collector.empty = some s ∧
    Bijective (namesMet [] [.recordDecl sampleDerived,
      .relationShip (collectAllBases sampleDerived) sampleDerived]) s :=
  ⟨_, rfl, (numbering_bijective rfl).1⟩

end Bitype.Tool
