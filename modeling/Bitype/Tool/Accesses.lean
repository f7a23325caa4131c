import Bitype.Tool.DepthFirst
import Bitype.Tool.Actions

/-!
# The reads and writes of the tool's matrices

The matrices and the bitmap of `DFS` have room for `MAX_NUM_CLASS` numbers, and only the field
branch of `VisitCXXRecordDecl` stops the program when there are more names.  `inRange_iff` is
the exact condition under which no access is past the end: there are fewer than
`MAX_NUM_CLASS` names, or the field branch meets a name too many before the number of such a
name is used.  It is not enough that there are no more than `MAX_NUM_CLASS`: `DFS` reads the
mark of number `currentIndex`.

The proof rests on three facts of `program`.  The number of a name is its position in
`numbering`, the list of the distinct names in the order they come up (`Lists.runActions`);
every name is numbered before its number is used (`scoped_program`); and a run stops at its
first step out of range or too many (`Action.run_outOfRange`, `Action.run_exited`).
-/

namespace Bitype.Tool

open CXXRecordDecl Bitype.Foundations

variable {s s' : Collector}

/-! ## Numbers are positions -/

/-- The names known after an action, in the order of their numbers. -/
def Action.extend (names : List Name) (action : Action) : List Name :=
  match action.numbered with
  | some name => if name ∈ names then names else names ++ [name]
  | none => names

/-- The distinct names some actions number, in the order they do. -/
def numbering (actions : List Action) : List Name := actions.foldl Action.extend []

/-- `names` are the names of `s`, in the order of their numbers. -/
structure Lists (names : List Name) (s : Collector) : Prop where
  length_eq : s.currentIndex = names.length
  code_iff : ∀ (name : Name) (i : ℕ), s.classCode[name]? = some i ↔ names[i]? = some name

theorem lists_empty : Lists [] Collector.empty := by
  constructor <;> simp [Collector.empty]

theorem Lists.indexOf {names : List Name} (h : Lists names s) (name : Name) :
    Lists (if name ∈ names then names else names ++ [name]) (s.indexOf name).2 := by
  by_cases hmem : name ∈ names
  · obtain ⟨i, hi⟩ := List.mem_iff_getElem?.mp hmem
    -- a listed name keeps its number
    have hsame : s.indexOf name = (i, s) := by
      simp [Collector.indexOf, (h.code_iff name i).mpr hi]
    rw [if_pos hmem, hsame]
    exact h
  · have hcode : s.classCode[name]? = none := by
      rw [Option.eq_none_iff_forall_not_mem]
      exact fun i hi => hmem (List.mem_of_getElem? ((h.code_iff name i).mp hi))
    have hindex : (s.indexOf name).1 = names.length ∧
        (s.indexOf name).2.currentIndex = names.length + 1 := by
      simp [Collector.indexOf, hcode, h.length_eq]
    rw [if_neg hmem]
    refine ⟨by rw [hindex.2, List.length_append, List.length_singleton], fun other i => ?_⟩
    rw [indexOf_classCode, hindex.1]
    -- in front of the new name, the new name, behind it
    rcases lt_trichotomy i names.length with hi | rfl | hi
    · rw [List.getElem?_append_left hi, ← h.code_iff]
      split
      · next hother =>
          subst hother
          rw [hcode, Option.some.injEq]
          exact ⟨fun h => absurd h.symm hi.ne, fun h => by cases h⟩
      · exact Iff.rfl
    · rw [List.getElem?_concat_length]
      split
      · next hother => simp [hother]
      · next hother =>
          rw [h.code_iff, List.getElem?_eq_none le_rfl, Option.some.injEq]
          exact ⟨fun h => (by cases h), fun h => absurd h hother⟩
    · have hnone : (names ++ [name])[i]? = none :=
        List.getElem?_eq_none (by rw [List.length_append, List.length_singleton]; omega)
      rw [hnone]
      split
      · rw [Option.some.injEq]
        exact ⟨fun h => absurd h hi.ne, fun h => by cases h⟩
      · rw [h.code_iff, List.getElem?_eq_none hi.le]

theorem Lists.run {names : List Name} {action : Action} (h : Lists names s)
    (hrun : Action.run s action = .ok s') : Lists (action.extend names) s' := by
  rcases Action.run_names hrun with ⟨hnone, hcode, -, hindex⟩ | ⟨name, hname, rfl⟩
  · rw [Action.extend, hnone]
    refine ⟨hindex.trans h.length_eq, fun other i => ?_⟩
    rw [hcode]
    exact h.code_iff other i
  · rw [Action.extend, hname]
    exact h.indexOf name

/-- **The numbers of a run are the positions of the names.** -/
theorem Lists.runActions {names : List Name} {actions : List Action} (h : Lists names s)
    (hrun : runActions actions s = .ok s') : Lists (actions.foldl Action.extend names) s' := by
  induction actions generalizing names s with
  | nil => exact Except.ok.inj hrun ▸ h
  | cons action rest ih =>
      obtain ⟨s₁, hstep, hrest⟩ := foldlM_cons_ok hrun
      exact ih (h.run hstep) hrest

theorem prefix_extend (names : List Name) (action : Action) : names <+: action.extend names := by
  unfold Action.extend
  split
  · split
    · exact List.prefix_refl names
    · exact List.prefix_append names _
  · exact List.prefix_refl names

theorem prefix_foldl_extend (actions : List Action) :
    ∀ names, names <+: actions.foldl Action.extend names := by
  induction actions with
  | nil => exact List.prefix_refl
  | cons action rest ih => exact fun names => (prefix_extend names action).trans (ih _)

theorem numbering_append (actions rest : List Action) :
    numbering actions <+: numbering (actions ++ rest) := by
  rw [numbering, numbering, List.foldl_append]
  exact prefix_foldl_extend rest _

/-- A name keeps its number. -/
theorem getElem?_numbering {actions : List Action} {name : Name} {i : ℕ}
    (hi : (numbering actions)[i]? = some name) (rest : List Action) :
    (numbering (actions ++ rest))[i]? = some name := by
  obtain ⟨more, hmore⟩ := numbering_append actions rest
  rw [← hmore, List.getElem?_append_left (List.getElem?_eq_some_iff.mp hi).1]
  exact hi

theorem nodup_extend {names : List Name} (h : names.Nodup) (action : Action) :
    (action.extend names).Nodup := by
  unfold Action.extend
  split
  · split
    · exact h
    · next hnew => exact List.nodup_append.mpr ⟨h, List.nodup_singleton _, fun a ha b hb hab =>
        hnew (List.mem_singleton.mp hb ▸ hab ▸ ha)⟩
  · exact h

/-- A name has one number. -/
theorem nodup_numbering (actions : List Action) : (numbering actions).Nodup := by
  have hfoldl : ∀ (actions : List Action) (names : List Name), names.Nodup →
      (actions.foldl Action.extend names).Nodup := by
    intro actions
    induction actions with
    | nil => exact fun _ h => h
    | cons action rest ih => exact fun names h => ih _ (nodup_extend h action)
  exact hfoldl actions [] List.nodup_nil

/-! ## Names are numbered before their numbers are used -/

/-- The names whose numbers an action uses. -/
def Action.touched : Action → List Name
  | .edge _ a b => [a, b]
  | _ => []

/-- From the known names on, every name is numbered before its number is used. -/
def Scoped : List Name → List Action → Prop
  | _, [] => True
  | names, action :: rest =>
      (∀ name ∈ action.touched, name ∈ names) ∧ Scoped (action.extend names) rest

theorem mem_extend_self {action : Action} {name : Name} (h : action.numbered = some name)
    (names : List Name) : name ∈ action.extend names := by
  rw [Action.extend, h]
  dsimp only
  split
  · assumption
  · exact List.mem_append_right _ (List.mem_singleton_self name)

theorem extend_subset {names names' : List Name} (h : names ⊆ names') (action : Action) :
    action.extend names ⊆ action.extend names' := by
  intro other hother
  cases hname : action.numbered with
  | none =>
      rw [Action.extend, hname] at hother ⊢
      exact h hother
  | some name =>
      by_cases heq : other = name
      · exact heq ▸ mem_extend_self hname names'
      · apply (prefix_extend names' action).subset
        rw [Action.extend, hname] at hother
        dsimp only at hother
        split at hother
        · exact h hother
        · exact h ((List.mem_append.mp hother).resolve_right fun hlast =>
            heq (List.mem_singleton.mp hlast))

theorem Scoped.mono {actions : List Action} : ∀ {names names' : List Name}, names ⊆ names' →
    Scoped names actions → Scoped names' actions := by
  induction actions with
  | nil => exact fun _ _ => trivial
  | cons action rest ih =>
      exact fun h hscoped => ⟨fun name hname => h (hscoped.1 name hname),
        ih (extend_subset h action) hscoped.2⟩

theorem scoped_append {actions rest : List Action} : ∀ {names : List Name},
    Scoped names (actions ++ rest) ↔
      Scoped names actions ∧ Scoped (actions.foldl Action.extend names) rest := by
  induction actions with
  | nil => exact fun {_} => (iff_of_eq (true_and _)).symm
  | cons action actions ih =>
      intro names
      rw [List.cons_append, Scoped, Scoped, ih, and_assoc, List.foldl_cons]

theorem Scoped.append {names : List Name} {actions rest : List Action}
    (h : Scoped names actions) (hrest : Scoped names rest) : Scoped names (actions ++ rest) :=
  scoped_append.mpr ⟨h, hrest.mono (prefix_foldl_extend actions names).subset⟩

theorem Scoped.flatMap {β : Type} {actionsOf : β → List Action} {names : List Name} :
    ∀ elements : List β, (∀ x ∈ elements, Scoped names (actionsOf x)) →
      Scoped names (elements.flatMap actionsOf) := by
  intro elements
  induction elements with
  | nil => exact fun _ => trivial
  | cons x rest ih =>
      intro h
      exact (h x List.mem_cons_self).append (ih fun y hy => h y (List.mem_cons_of_mem _ hy))

/-- Actions that use only known numbers. -/
theorem scoped_of_known {names : List Name} : ∀ {actions : List Action},
    (∀ action ∈ actions, ∀ name ∈ action.touched, name ∈ names) → Scoped names actions := by
  intro actions
  induction actions with
  | nil => exact fun _ => trivial
  | cons action rest ih =>
      intro h
      refine ⟨h action List.mem_cons_self, (ih ?_).mono (prefix_extend names action).subset⟩
      exact fun next hnext => h next (List.mem_cons_of_mem _ hnext)

theorem Scoped.number {names : List Name} {action : Action} {name : Name} {rest : List Action}
    (hnumber : action.numbered = some name) (htouched : action.touched = [])
    (h : ∀ names', names ⊆ names' → name ∈ names' → Scoped names' rest) :
    Scoped names (action :: rest) :=
  ⟨htouched ▸ List.forall_mem_nil _,
    h _ (prefix_extend names action).subset (mem_extend_self hnumber names)⟩

/-- The actions use the numbers of two names only. -/
def Between (a b : Name) (actions : List Action) : Prop :=
  ∀ action ∈ actions, ∀ name ∈ action.touched, name = a ∨ name = b

theorem Between.append {a b : Name} {actions rest : List Action} (h : Between a b actions)
    (hrest : Between a b rest) : Between a b (actions ++ rest) := by
  intro action haction
  rcases List.mem_append.mp haction with haction | haction
  · exact h action haction
  · exact hrest action haction

theorem between_phantomActions (sameSize : Bool) (a b : Name) :
    Between a b (phantomActions sameSize a b) ∧ Between a b (phantomActions sameSize b a) := by
  cases sameSize <;> simp [Between, phantomActions, Action.touched]

/-- Number a base and use its number and the number of its class. -/
theorem Scoped.base {names : List Name} {decl base : Name} {rest : List Action}
    (hdecl : decl ∈ names) (hrest : Between decl base rest) :
    Scoped names (.number base :: rest) := by
  apply Scoped.number rfl rfl
  intro names' hsub hbase
  apply scoped_of_known
  intro action haction name hname
  rcases hrest action haction name hname with rfl | rfl
  · exact hsub hdecl
  · exact hbase

theorem scoped_fieldActions (names : List Name) (declName : Name) (field : FieldDecl) :
    Scoped names (fieldActions declName field) := by
  unfold fieldActions
  split
  · apply Scoped.number rfl rfl
    intro names' _ hdecl
    apply Scoped.number rfl rfl
    intro names'' hsub hfield
    apply scoped_of_known
    simp [Action.touched, hsub hdecl, hfield]
  · trivial

theorem scoped_joinBaseActions {names : List Name} {decl : CXXRecordDecl}
    (hdecl : decl.name ∈ names) (base : CXXRecordDecl) :
    Scoped names (joinBaseActions decl base) := by
  unfold joinBaseActions
  split
  · trivial
  · have hedges : Between decl.name base.name
        [.edge .graph base.name decl.name, .edge .graph decl.name base.name,
          .edge .family base.name decl.name, .edge .family decl.name base.name] := by
      simp [Between, Action.touched]
    exact Scoped.base hdecl (hedges.append (between_phantomActions _ _ _).2)

theorem scoped_relateBaseActions {names : List Name} {current : CXXRecordDecl}
    (hcurrent : current.name ∈ names) (base : CXXRecordDecl) :
    Scoped names (relateBaseActions current base) := by
  have hedges : Between current.name base.name
      [.edge .graph current.name current.name, .edge .graph base.name current.name,
        .edge .family base.name current.name, .edge .family current.name base.name] := by
    simp [Between, Action.touched]
  exact Scoped.base hcurrent (hedges.append (between_phantomActions _ _ _).1)

theorem scoped_addRelationShipActions (names : List Name) (decl : CXXRecordDecl) :
    Scoped names (addRelationShipActions decl) := by
  have h : ∀ names' : List Name, names ⊆ names' → decl.name ∈ names' → Scoped names'
      ((collectAllBases decl).flatMap (relateBaseActions decl) ++
        [.addRelations decl.name ((collectAllBases decl).map name)]) := by
    intro names' _ hdecl
    refine (Scoped.flatMap _ fun base _ => scoped_relateBaseActions hdecl base).append ?_
    exact scoped_of_known (by simp [Action.touched])
  exact Scoped.number rfl rfl h

theorem scoped_recordDeclActions (names : List Name) (hasVisitedField : Bool)
    (decl : CXXRecordDecl) : Scoped names (recordDeclActions hasVisitedField decl) := by
  have hfields : Scoped names (visitFieldsActions decl) := by
    refine ⟨List.forall_mem_nil _, ?_⟩
    split
    · exact Scoped.flatMap _ fun field _ => scoped_fieldActions _ _ field
    · trivial
  have hbases : Scoped names (.number decl.name :: visitBasesActions decl) := by
    apply Scoped.number rfl rfl
    intro names' _ hdecl
    refine (Scoped.flatMap _ fun base _ => scoped_joinBaseActions hdecl base).append ?_
    exact scoped_of_known (by simp [Action.touched])
  unfold recordDeclActions
  split
  · split
    · exact hfields.append hbases
    · exact hbases
  · trivial

theorem scoped_actions (names fieldsVisited : List Name) (v : Visit) :
    Scoped names (v.actions fieldsVisited) := by
  cases v with
  | recordDecl decl => exact scoped_recordDeclActions names _ decl
  | castExpr expr =>
      refine Scoped.append ?_
        (Scoped.flatMap _ fun decl _ => scoped_addRelationShipActions names decl)
      split
      · exact scoped_of_known (by simp [Action.touched])
      · trivial

/-- **Every number is given out before it is used.** -/
theorem scoped_program (visits : List Visit) : ∀ names fieldsVisited : List Name,
    Scoped names (program fieldsVisited visits) := by
  induction visits with
  | nil => exact fun _ _ => trivial
  | cons v rest ih =>
      exact fun names fieldsVisited => (scoped_actions names fieldsVisited v).append (ih _ _)

/-! ## Accesses in range -/

/-- The visits and the three searches after them make no access past the end. -/
def InRange (visits : List Visit) : Prop :=
  runActions (program [] visits) Collector.empty ≠ .error .outOfRange ∧
    ∀ s, runActions (program [] visits) Collector.empty = .ok s →
      ∀ graphtemp ∈ [s.graph, s.graphPhantoms, s.graphFamily],
        boundedDFS graphtemp s.currentIndex ≠ .error .outOfRange

/-- The field branch meets a name too many when no number from `MAX_NUM_CLASS` on has been
used. -/
def Stopped (actions : List Action) : Prop :=
  ∃ before name after, actions = before ++ .numberOrExit name :: after ∧
    name ∉ numbering before ∧ MAX_NUM_CLASS ≤ (numbering before).length ∧
    ∀ action ∈ before, ∀ a ∈ action.touched, a ∈ (numbering before).take MAX_NUM_CLASS

/-- A name within the first `MAX_NUM_CLASS`. -/
theorem mem_take_numbering {actions : List Action} {name : Name} {i : ℕ}
    (hi : (numbering actions)[i]? = some name) :
    name ∈ (numbering actions).take MAX_NUM_CLASS ↔ i < MAX_NUM_CLASS := by
  rw [List.mem_iff_getElem?]
  constructor
  · rintro ⟨j, hj⟩
    rw [List.getElem?_take] at hj
    split at hj
    · next hlt =>
        have hlength : i < (numbering actions).length := (List.getElem?_eq_some_iff.mp hi).1
        have hij := (List.getElem?_inj hlength (nodup_numbering actions)).mp (hi.trans hj.symm)
        exact hij ▸ hlt
    · cases hj
  · exact fun hlt => ⟨i, by rw [List.getElem?_take_of_lt hlt, hi]⟩

theorem setMatrix_isSome {matrix : Matrix} {i j : ℕ} :
    (s.setMatrix matrix i j).isSome ↔ i < MAX_NUM_CLASS ∧ j < MAX_NUM_CLASS := by
  have hset : ∀ m : ℕ → ℕ → Bool, (setEdge m i j).isSome ↔ i < MAX_NUM_CLASS ∧ j < MAX_NUM_CLASS := by
    intro m
    unfold setEdge
    split <;> simp [*]
  cases matrix with
  | graph => rw [← hset s.graph]; exact iff_of_eq (congrArg (· = true) Option.isSome_map)
  | phantoms =>
      rw [← hset s.graphPhantoms]; exact iff_of_eq (congrArg (· = true) Option.isSome_map)
  | family => rw [← hset s.graphFamily]; exact iff_of_eq (congrArg (· = true) Option.isSome_map)

/-- A step is out of range iff it uses a number from `MAX_NUM_CLASS` on. -/
theorem Action.run_outOfRange {action : Action} :
    Action.run s action = .error .outOfRange ↔
      ∃ name ∈ action.touched, MAX_NUM_CLASS ≤ s.index name := by
  cases action with
  | edge matrix a b =>
      have hset : Action.run s (.edge matrix a b) = .error .outOfRange ↔
          ¬ (s.setMatrix matrix (s.index a) (s.index b)).isSome := by
        rw [Action.run]
        cases s.setMatrix matrix (s.index a) (s.index b) <;> simp
      rw [hset, setMatrix_isSome]
      simp only [touched, List.mem_cons, List.not_mem_nil, or_false, exists_eq_or_imp,
        exists_eq_left]
      omega
  | numberOrExit name =>
      rw [Action.run]
      cases s.indexOrExit name <;> simp [touched]
  | visitField decl => simp [Action.run, touched]
  | number name => simp [Action.run, touched]
  | addRelations declName tempBaseVec => simp [Action.run, touched]
  | downCast location derived based => simp [Action.run, touched]

/-- A number in use is a position. -/
theorem Lists.index {names : List Name} (h : Lists names s) {name : Name} (hname : name ∈ names) :
    names[s.index name]? = some name := by
  obtain ⟨i, hi⟩ := List.mem_iff_getElem?.mp hname
  rw [Collector.index, (h.code_iff name i).mpr hi]
  exact hi

/-- A number other than 0 is a position. -/
theorem Lists.index_of_pos {names : List Name} (h : Lists names s) {name : Name}
    (hpos : 0 < s.index name) : names[s.index name]? = some name := by
  apply h.index
  by_contra hname
  have hcode : s.classCode[name]? = none := by
    rw [Option.eq_none_iff_forall_not_mem]
    exact fun i hi => hname (List.mem_of_getElem? ((h.code_iff name i).mp hi))
  simp [Collector.index, hcode] at hpos

/-- A step exits iff it numbers a name too many. -/
theorem Action.run_exited {names : List Name} (h : Lists names s) {action : Action} :
    Action.run s action = .error .exited ↔
      ∃ name, action = .numberOrExit name ∧ name ∉ names ∧ MAX_NUM_CLASS ≤ names.length := by
  cases action with
  | numberOrExit name =>
      have hexit : Action.run s (.numberOrExit name) = .error .exited ↔
          s.indexOrExit name = none := by
        rw [Action.run]
        cases s.indexOrExit name <;> simp
      rw [hexit, Collector.indexOrExit]
      by_cases hname : name ∈ names
      · rw [(h.code_iff name _).mpr (h.index hname)]
        simp [hname]
      · have hcode : s.classCode[name]? = none := by
          rw [Option.eq_none_iff_forall_not_mem]
          exact fun i hi => hname (List.mem_of_getElem? ((h.code_iff name i).mp hi))
        have hfull : s.currentIndex + 1 > MAX_NUM_CLASS ↔ MAX_NUM_CLASS ≤ names.length := by
          rw [h.length_eq]
          exact Nat.lt_succ_iff
        simp only [hcode, hfull]
        simp [hname]
  | edge matrix a b =>
      rw [Action.run]
      cases s.setMatrix matrix (s.index a) (s.index b) <;> simp
  | visitField decl => simp [Action.run]
  | number name => simp [Action.run]
  | addRelations declName tempBaseVec => simp [Action.run]
  | downCast location derived based => simp [Action.run]

/-- The searches are in range iff there are fewer than `MAX_NUM_CLASS` numbers. -/
theorem boundedDFS_inRange (graphtemp : ℕ → ℕ → Bool) (currentIndex : ℕ) :
    boundedDFS graphtemp currentIndex ≠ .error .outOfRange ↔ currentIndex < MAX_NUM_CLASS := by
  obtain ⟨result, -, hbounded⟩ := boundedDFS_eq graphtemp currentIndex
  rw [hbounded]
  split <;> simp [*]

section Condition

variable {actions : List Action}

/-- A run out of range used the number of a name that is not among the first
`MAX_NUM_CLASS`. -/
theorem exists_touched (h : runActions actions Collector.empty = .error .outOfRange) :
    ∃ before action after name i, actions = before ++ action :: after ∧ name ∈ action.touched ∧
      (numbering before)[i]? = some name ∧ MAX_NUM_CLASS ≤ i := by
  obtain ⟨before, action, after, s₁, hsplit, hbefore, hlast⟩ := (foldlM_error_iff _ _).mp h
  obtain ⟨name, hname, hlarge⟩ := Action.run_outOfRange.mp hlast
  have hpos : 0 < s₁.index name := lt_of_lt_of_le (by decide) hlarge
  exact ⟨before, action, after, name, _, hsplit, hname,
    (lists_empty.runActions hbefore).index_of_pos hpos, hlarge⟩

/-- Fewer names than there is room for are enough. -/
theorem runActions_of_few (hfew : (numbering actions).length < MAX_NUM_CLASS) :
    runActions actions Collector.empty ≠ .error .outOfRange := by
  intro hstop
  obtain ⟨before, action, after, name, i, rfl, -, hi, hlarge⟩ := exists_touched hstop
  have hlt : i < (numbering before).length := (List.getElem?_eq_some_iff.mp hi).1
  have hle := (numbering_append before (action :: after)).length_le
  omega

/-- The numbers used before a step that is reached are in range. -/
theorem touched_of_ok {before after : List Action} (hscoped : Scoped [] (before ++ after))
    (hrun : runActions before Collector.empty = .ok s) :
    ∀ action ∈ before, ∀ a ∈ action.touched, a ∈ (numbering before).take MAX_NUM_CLASS := by
  intro action haction a ha
  obtain ⟨first, last, rfl⟩ := List.append_of_mem haction
  obtain ⟨s₁, hfirst, hrest⟩ := foldlM_append_ok hrun
  obtain ⟨s₂, hstep, -⟩ := foldlM_cons_ok hrest
  have hknown : a ∈ numbering first :=
    (scoped_append.mp (scoped_append.mp hscoped).1).2.1 a ha
  have hlt : s₁.index a < MAX_NUM_CLASS := by
    by_contra hlarge
    have hstop := Action.run_outOfRange.mpr ⟨a, ha, not_lt.mp hlarge⟩
    rw [hstep] at hstop
    cases hstop
  have hfound : (numbering first)[s₁.index a]? = some a :=
    (lists_empty.runActions hfirst).index hknown
  exact (mem_take_numbering (getElem?_numbering hfound (action :: last))).mpr hlt

/-- A run that is stopped in time exits. -/
theorem runActions_of_stopped (h : Stopped actions) :
    runActions actions Collector.empty = .error .exited := by
  obtain ⟨before, name, after, rfl, hnew, hfull, htouched⟩ := h
  rw [runActions_append]
  cases hbefore : runActions before Collector.empty with
  | ok s =>
      have hexit := (Action.run_exited (lists_empty.runActions hbefore)).mpr
        ⟨name, rfl, hnew, hfull⟩
      change Action.run s _ >>= _ = _
      rw [hexit]
      rfl
  | error stop =>
      cases stop with
      | exited => rfl
      | outOfRange =>
          obtain ⟨first, action, last, a, i, rfl, ha, hi, hlarge⟩ := exists_touched hbefore
          have hlt := (mem_take_numbering (getElem?_numbering hi (action :: last))).mp
            (htouched action (by simp) a ha)
          omega

end Condition

/-- A run in range has few names or is stopped in time. -/
theorem few_or_stopped {visits : List Visit} (h : InRange visits) :
    (numbering (program [] visits)).length < MAX_NUM_CLASS ∨ Stopped (program [] visits) := by
  obtain ⟨hrange, hsearch⟩ := h
  cases hrun : runActions (program [] visits) Collector.empty with
  | ok s =>
      left
      have hlt := (boundedDFS_inRange _ _).mp (hsearch s hrun s.graph List.mem_cons_self)
      rwa [(lists_empty.runActions hrun).length_eq] at hlt
  | error stop =>
      cases stop with
      | outOfRange => exact absurd hrun hrange
      | exited =>
          right
          -- the run is over at the first name that finds no room
          obtain ⟨before, action, after, s₁, hsplit, hbefore, hlast⟩ :=
            (foldlM_error_iff _ _).mp hrun
          obtain ⟨name, rfl, hnew, hfull⟩ :=
            (Action.run_exited (lists_empty.runActions hbefore)).mp hlast
          have hscoped := scoped_program visits [] []
          rw [hsplit] at hscoped
          exact ⟨before, name, after, hsplit, hnew, hfull, touched_of_ok hscoped hbefore⟩

/-- **When every access is in range.** -/
theorem inRange_iff (visits : List Visit) :
    InRange visits ↔ (numbering (program [] visits)).length < MAX_NUM_CLASS ∨
      Stopped (program [] visits) := by
  refine ⟨few_or_stopped, ?_⟩
  rintro (hfew | hstopped)
  · refine ⟨runActions_of_few hfew, fun s hrun graphtemp _ => ?_⟩
    rw [boundedDFS_inRange, (lists_empty.runActions hrun).length_eq]
    exact hfew
  · have hexit := runActions_of_stopped hstopped
    refine ⟨by rw [hexit]; simp, fun s hrun => ?_⟩
    rw [hexit] at hrun
    cases hrun

/-! ## As many classes as there is room for -/

/-- Definitions of classes without bases and fields. -/
def plainVisits (names : List Name) : List Visit :=
  names.map fun name => .recordDecl (sampleClass name [])

/-- The actions of such a definition. -/
theorem actions_plain {name : Name} (hname : name ≠ []) (fieldsVisited : List Name) :
    (Visit.recordDecl (sampleClass name [])).actions fieldsVisited =
      (if name ∈ fieldsVisited then [] else [.visitField (sampleClass name [])]) ++
        [.number name, .addRelations name []] := by
  have hvisited : isVisited (sampleClass name []) := by
    simp [isVisited, sampleClass, hname, CXXRecordDecl.name, info]
  have hbases : collectAllBases (sampleClass name []) = [] := rfl
  simp only [Visit.actions, recordDeclActions, hvisited, if_true, visitBasesActions, hbases]
  by_cases hdone : name ∈ fieldsVisited
  · simp [sampleClass, CXXRecordDecl.name, info, hdone]
  · simp [sampleClass, CXXRecordDecl.name, info, hdone, visitFieldsActions]

theorem numbering_plain (names : List Name) (hnamed : [] ∉ names) :
    ∀ known fieldsVisited : List Name, (known ++ names).Nodup →
      (program fieldsVisited (plainVisits names)).foldl Action.extend known = known ++ names := by
  induction names with
  | nil => exact fun known _ _ => (List.append_nil known).symm
  | cons name rest ih =>
      intro known fieldsVisited hnodup
      have hsplit : known ++ name :: rest = known ++ [name] ++ rest := by simp
      have hfresh : name ∉ known := fun hmem =>
        (List.nodup_append.mp hnodup).2.2 name hmem name List.mem_cons_self rfl
      have hname : name ≠ [] := fun h => hnamed (h ▸ List.mem_cons_self)
      have hfirst : ((Visit.recordDecl (sampleClass name [])).actions fieldsVisited).foldl
          Action.extend known = known ++ [name] := by
        rw [actions_plain hname]
        split <;> simp [Action.extend, Action.numbered, hfresh]
      rw [plainVisits, List.map_cons, program, List.foldl_append, hfirst, hsplit]
      rw [hsplit] at hnodup
      exact ih (fun h => hnamed (List.mem_cons_of_mem _ h)) _ _ hnodup

/-- No definition without fields stops the program. -/
theorem not_stopped_plain (names : List Name) (hnamed : [] ∉ names) :
    ∀ fieldsVisited : List Name, ∀ name : Name,
      .numberOrExit name ∉ program fieldsVisited (plainVisits names) := by
  induction names with
  | nil => exact fun _ _ => List.not_mem_nil
  | cons name rest ih =>
      intro fieldsVisited other hmem
      have hname : name ≠ [] := fun h => hnamed (h ▸ List.mem_cons_self)
      rw [plainVisits, List.map_cons, program, actions_plain hname, List.mem_append] at hmem
      rcases hmem with hmem | hmem
      · split at hmem <;> simp at hmem
      · exact ih (fun h => hnamed (List.mem_cons_of_mem _ h)) _ other hmem

/-- The names `a`, `aa`, .., as many as the matrices have rows. -/
def manyNames : List Name := (List.range MAX_NUM_CLASS).map fun i => List.replicate (i + 1) 'a'

/-- With `MAX_NUM_CLASS` classes the last test of the search is past the end. -/
theorem full_out_of_range : ¬ ∀ visits, InRange visits := by
  intro h
  have hnamed : [] ∉ manyNames := by simp [manyNames]
  have hnodup : ([] ++ manyNames).Nodup := by
    rw [List.nil_append]
    refine List.nodup_range.map fun i j hij => ?_
    simpa using congrArg List.length hij
  rcases few_or_stopped (h (plainVisits manyNames)) with hfew | ⟨before, name, after, hsplit, -⟩
  · rw [numbering, numbering_plain manyNames hnamed [] [] hnodup, List.nil_append, manyNames,
      List.length_map, List.length_range] at hfew
    exact lt_irrefl _ hfew
  · apply not_stopped_plain manyNames hnamed [] name
    rw [hsplit]
    exact List.mem_append_right _ List.mem_cons_self

end Bitype.Tool
