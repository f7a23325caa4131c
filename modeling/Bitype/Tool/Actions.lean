import Bitype.Tool.Families

/-!
# The visits, action by action

`program` lists what a sequence of visits does to the globals, one `Action` for each name that
is numbered and each entry of a matrix that is written.  An action says why it does not
return: the field branch exits, or an index is past the end.

`Does pre actions act` says that from a state with `pre` the actions end as `act` does.  There
is one rule for each way the visits are put together, and one such fact for each function of
the visitor; `run_program` puts them together.
-/

namespace Bitype.Tool

open CXXRecordDecl Bitype.Foundations

/-! ## Actions -/

inductive Matrix
  | graph
  | phantoms
  | family

def Collector.setMatrix : Matrix → ℕ → ℕ → Collector → Option Collector
  | .graph => setGraph
  | .phantoms => setPhantoms
  | .family => setFamily

/-- What a visit does to the globals. -/
inductive Action
  | visitField (decl : CXXRecordDecl)
  | numberOrExit (name : Name)
  | number (name : Name)
  | edge (matrix : Matrix) (a b : Name)
  | addRelations (declName : Name) (tempBaseVec : List Name)
  | downCast (location : Option Name) (derived based : Option CXXRecordDecl)

/-- Why a visit does not return. -/
inductive Stop
  | exited
  | outOfRange
deriving DecidableEq

/-- The number of a name, 0 before it has one. -/
def Collector.index (s : Collector) (name : Name) : ℕ := (s.classCode[name]?).getD 0

def Action.run (s : Collector) : Action → Except Stop Collector
  | .visitField decl =>
      .ok { s with
        hasVisitedField := s.hasVisitedField.insert decl.name
        classSize := s.classSize.insertIfNew decl.name decl.info.alignment }
  | .numberOrExit name =>
      match s.indexOrExit name with
      | some p => .ok p.2
      | none => .error .exited
  | .number name => .ok (s.indexOf name).2
  | .edge matrix a b =>
      match s.setMatrix matrix (s.index a) (s.index b) with
      | some s => .ok s
      | none => .error .outOfRange
  | .addRelations declName tempBaseVec => .ok (s.addRelations declName tempBaseVec)
  | .downCast location derived based => .ok (recordDownCast location derived based s)

def runActions (actions : List Action) (s : Collector) : Except Stop Collector :=
  actions.foldlM Action.run s

/-! ## The actions of the visits -/

/-- The loop body over the fields. -/
def fieldActions (declName : Name) (field : FieldDecl) : List Action :=
  if field.isOffsetZero then
    [.numberOrExit declName, .numberOrExit field.name, .edge .graph declName field.name,
      .edge .graph field.name declName]
  else []

/-- The first part of `VisitCXXRecordDecl`. -/
def visitFieldsActions (decl : CXXRecordDecl) : List Action :=
  .visitField decl ::
    if !decl.info.isAggregate && !decl.info.isPolymorphic then
      decl.info.fields.flatMap (fieldActions decl.name)
    else []

def phantomActions (sameSize : Bool) (a b : Name) : List Action :=
  if sameSize then [.edge .phantoms a b, .edge .phantoms b a] else []

/-- The loop body over the bases. -/
def joinBaseActions (decl base : CXXRecordDecl) : List Action :=
  if base.name = [] then []
  else
    [.number base.name, .edge .graph base.name decl.name, .edge .graph decl.name base.name,
      .edge .family base.name decl.name, .edge .family decl.name base.name] ++
    phantomActions (sameLayoutSize decl base) base.name decl.name

/-- The second part of `VisitCXXRecordDecl`, once the class has its number. -/
def visitBasesActions (decl : CXXRecordDecl) : List Action :=
  (collectAllBases decl).flatMap (joinBaseActions decl) ++
    [.addRelations decl.name (((collectAllBases decl).map name).filter (· ≠ []))]

/-- `VisitCXXRecordDecl`. -/
def recordDeclActions (hasVisitedField : Bool) (decl : CXXRecordDecl) : List Action :=
  if isVisited decl then
    (if !hasVisitedField && !decl.info.isDependentContext then visitFieldsActions decl else []) ++
      .number decl.name :: visitBasesActions decl
  else []

/-- The loop body of `addRelationShip`. -/
def relateBaseActions (current base : CXXRecordDecl) : List Action :=
  [.number base.name, .edge .graph current.name current.name, .edge .graph base.name current.name,
    .edge .family base.name current.name, .edge .family current.name base.name] ++
  phantomActions (sameLayoutSize current base) current.name base.name

/-- `addRelationShip`, for a class with all its bases. -/
def addRelationShipActions (current : CXXRecordDecl) : List Action :=
  .number current.name :: (collectAllBases current).flatMap (relateBaseActions current) ++
    [.addRelations current.name ((collectAllBases current).map name)]

/-- `VisitCastExpr`. -/
def castExprActions (expr : CastExpr) : List Action :=
  (match expr with
    | .baseToDerived location derived based => [.downCast location derived based]
    | _ => []) ++
  expr.related.flatMap addRelationShipActions

/-- What a visit does after the fields of some names have been visited. -/
def Visit.actions (fieldsVisited : List Name) : Visit → List Action
  | .recordDecl decl => recordDeclActions (decl.name ∈ fieldsVisited) decl
  | .castExpr expr => castExprActions expr

/-- The name whose fields a visit visits. -/
def Visit.fields : Visit → List Name
  | .recordDecl decl =>
      if isVisited decl && !decl.info.isDependentContext then [decl.name] else []
  | .castExpr _ => []

/-- What a sequence of visits does. -/
def program : List Name → List Visit → List Action
  | _, [] => []
  | fieldsVisited, v :: rest =>
      v.actions fieldsVisited ++ program (fieldsVisited ++ v.fields) rest

/-! ## Names keep their numbers -/

variable {s s' : Collector}

/-- `indexOf` gives its name a number and changes no other. -/
theorem indexOf_classCode (s : Collector) (name other : Name) :
    (s.indexOf name).2.classCode[other]? =
      if name = other then some (s.indexOf name).1 else s.classCode[other]? := by
  unfold Collector.indexOf
  cases hcode : s.classCode[name]? with
  | some i =>
      by_cases hother : name = other
      · subst hother
        rw [if_pos rfl]
        exact hcode
      · rw [if_neg hother]
  | none =>
      have hnew : name ∉ s.classCode := by
        rw [← Std.TreeMap.isSome_getElem?_iff_mem, hcode]
        simp
      simp only [Std.TreeMap.getElem?_insertIfNew, Std.LawfulEqCmp.compare_eq_iff_eq, hnew,
        not_false_eq_true, and_true]

theorem indexOf_extends (s : Collector) (name : Name) : Extends s (s.indexOf name).2 := by
  intro other i hi
  rw [indexOf_classCode]
  split
  · next hother =>
      subst hother
      simp [Collector.indexOf, hi]
  · exact hi

theorem hasIndex_indexOf (s : Collector) (name : Name) :
    HasIndex name (s.indexOf name).1 (s.indexOf name).2 := by
  rw [HasIndex, indexOf_classCode, if_pos rfl]

/-- What `indexOrExit` returns is what `indexOf` does. -/
theorem indexOrExit_eq_some {name : Name} {p : ℕ × Collector} (h : s.indexOrExit name = some p) :
    p = s.indexOf name := by
  unfold Collector.indexOrExit at h
  split at h
  · next i hcode =>
      rw [← Option.some.inj h]
      simp [Collector.indexOf, hcode]
  · split at h
    · cases h
    · exact (Option.some.inj h).symm

theorem setMatrix_same {matrix : Matrix} {i j : ℕ} (h : s.setMatrix matrix i j = some s') :
    SameNames s s' := by
  cases matrix with
  | graph => exact setGraph_same h
  | phantoms => exact setPhantoms_same h
  | family => exact setFamily_same h

/-- The name an action numbers. -/
def Action.numbered : Action → Option Name
  | .number name | .numberOrExit name => some name
  | _ => none

/-- A step that numbers nothing, or one name. -/
theorem Action.run_names {action : Action} (h : Action.run s action = .ok s') :
    action.numbered = none ∧ SameNames s s' ∨
      ∃ name, action.numbered = some name ∧ s' = (s.indexOf name).2 := by
  cases action with
  | visitField decl => exact .inl ⟨rfl, Except.ok.inj h ▸ ⟨rfl, rfl, rfl⟩⟩
  | numberOrExit name =>
      simp only [Action.run] at h
      split at h
      · next p hp => exact .inr ⟨name, rfl, by rw [← Except.ok.inj h, indexOrExit_eq_some hp]⟩
      · cases h
  | number name => exact .inr ⟨name, rfl, (Except.ok.inj h).symm⟩
  | edge matrix a b =>
      simp only [Action.run] at h
      split at h
      · next hset => exact .inl ⟨rfl, Except.ok.inj h ▸ setMatrix_same hset⟩
      · cases h
  | addRelations declName tempBaseVec =>
      exact .inl ⟨rfl, Except.ok.inj h ▸ addRelations_same s declName tempBaseVec⟩
  | downCast location derived based => exact .inl ⟨rfl, Except.ok.inj h ▸ ⟨rfl, rfl, rfl⟩⟩

theorem Action.run_extends {action : Action} (h : Action.run s action = .ok s') :
    Extends s s' := by
  rcases Action.run_names h with ⟨-, hsame⟩ | ⟨name, -, rfl⟩
  · exact fun other i hi => by rw [hsame.1]; exact hi
  · exact indexOf_extends s name

theorem runActions_cons (action : Action) (rest : List Action) (s : Collector) :
    runActions (action :: rest) s = Action.run s action >>= runActions rest := rfl

theorem runActions_append (actions rest : List Action) (s : Collector) :
    runActions (actions ++ rest) s = runActions actions s >>= runActions rest :=
  List.foldlM_append

theorem runActions_extends {actions : List Action} (h : runActions actions s = .ok s') :
    Extends s s' := by
  induction actions generalizing s with
  | nil => exact Except.ok.inj h ▸ .refl s
  | cons action rest ih =>
      obtain ⟨s₁, hstep, hrest⟩ := foldlM_cons_ok h
      exact (Action.run_extends hstep).trans (ih hrest)

/-! ## The actions are what the visits do -/

/-- From a state with `pre`, the actions end as `act` does. -/
def Does (pre : Collector → Prop) (actions : List Action)
    (act : Collector → Option Collector) : Prop :=
  ∀ s, pre s → (runActions actions s).toOption = act s

section Rules

variable {pre : Collector → Prop} {actions actions' : List Action}
  {act act' : Collector → Option Collector}

theorem Does.mono {pre' : Collector → Prop} (h : Does pre actions act)
    (hpre : ∀ s, pre' s → pre s) : Does pre' actions act := fun s hs => h s (hpre s hs)

theorem Does.nil : Does pre [] some := fun _ _ => rfl

/-- A single action that returns. -/
theorem Does.single {action : Action} {update : Collector → Collector}
    (h : ∀ s, Action.run s action = .ok (update s)) :
    Does pre [action] fun s => some (update s) := by
  intro s _
  rw [runActions_cons, h]
  rfl

theorem Does.append (hpre : Stable pre) (h : Does pre actions act)
    (h' : Does pre actions' act') : Does pre (actions ++ actions') fun s => act s >>= act' := by
  intro s hs
  change _ = (act s).bind act'
  rw [runActions_append, toOption_bind, h s hs]
  cases hact : act s with
  | none => rfl
  | some s₁ =>
      have hrun := toOption_eq_some.mp ((h s hs).trans hact)
      exact h' s₁ (hpre s s₁ (runActions_extends hrun) hs)

/-- A loop, from what its body does for each element. -/
theorem Does.flatMap {β : Type} {body : Collector → β → Option Collector}
    {actionsOf : β → List Action} (hpre : Stable pre) :
    ∀ elements : List β, (∀ x ∈ elements, Does pre (actionsOf x) fun s => body s x) →
      Does pre (elements.flatMap actionsOf) fun s => elements.foldlM body s := by
  intro elements
  induction elements with
  | nil => exact fun _ => .nil
  | cons x rest ih =>
      intro hbody
      exact (hbody x List.mem_cons_self).append hpre
        (ih fun y hy => hbody y (List.mem_cons_of_mem _ hy))

/-- Number a name, then go on with its number. -/
theorem Does.number {name : Name} {rest : ℕ → Collector → Option Collector} (hpre : Stable pre)
    (h : ∀ i, Does (fun s => pre s ∧ HasIndex name i s) actions (rest i)) :
    Does pre (.number name :: actions)
      fun s => rest (s.indexOf name).1 (s.indexOf name).2 :=
  fun s hs => h _ _ ⟨hpre s _ (indexOf_extends s name) hs, hasIndex_indexOf s name⟩

theorem Does.numberOrExit {name : Name} {rest : ℕ → Collector → Option Collector}
    (hpre : Stable pre) (h : ∀ i, Does (fun s => pre s ∧ HasIndex name i s) actions (rest i)) :
    Does pre (.numberOrExit name :: actions)
      fun s => s.indexOrExit name >>= fun p => rest p.1 p.2 := by
  intro s hs
  change _ = (s.indexOrExit name).bind fun p => rest p.1 p.2
  rw [runActions_cons, Action.run]
  cases hexit : s.indexOrExit name with
  | none => rfl
  | some p =>
      obtain rfl := indexOrExit_eq_some hexit
      exact h _ _ ⟨hpre s _ (indexOf_extends s name) hs, hasIndex_indexOf s name⟩

/-- One entry of a matrix. -/
theorem Does.write {matrix : Matrix} {a b : Name} {i j : ℕ} (ha : ∀ s, pre s → HasIndex a i s)
    (hb : ∀ s, pre s → HasIndex b j s) :
    Does pre [.edge matrix a b] fun s => s.setMatrix matrix i j := by
  intro s hs
  change _ = s.setMatrix matrix i j
  have hindex : s.index a = i ∧ s.index b = j := by
    simp only [Collector.index, show s.classCode[a]? = some i from ha s hs,
      show s.classCode[b]? = some j from hb s hs, Option.getD_some, and_self]
  rw [runActions_cons, Action.run, hindex.1, hindex.2]
  cases s.setMatrix matrix i j with
  | none => rfl
  | some s₁ => rfl

/-- One entry of a matrix, then go on. -/
theorem Does.edge {matrix : Matrix} {a b : Name} {i j : ℕ} (hpre : Stable pre)
    (ha : ∀ s, pre s → HasIndex a i s) (hb : ∀ s, pre s → HasIndex b j s)
    (h : Does pre actions act) :
    Does pre (.edge matrix a b :: actions) fun s => s.setMatrix matrix i j >>= act :=
  (Does.write ha hb).append hpre h

end Rules

section Pieces

variable {pre : Collector → Prop} {a b : Name} {i j : ℕ}

/-- The end of the loop bodies over the bases. -/
theorem phantomActions_does (hpre : Stable pre) (ha : ∀ s, pre s → HasIndex a i s)
    (hb : ∀ s, pre s → HasIndex b j s) (sameSize : Bool) :
    Does pre (phantomActions sameSize a b) fun s =>
      if sameSize then s.setPhantoms i j >>= fun s => s.setPhantoms j i else some s := by
  cases sameSize with
  | false => exact .nil
  | true => exact (Does.write hb ha).edge hpre ha hb

end Pieces

theorem fieldActions_does (declName : Name) (field : FieldDecl) :
    Does (fun _ => True) (fieldActions declName field) fun s => joinField declName s field := by
  unfold fieldActions joinField
  by_cases hzero : field.isOffsetZero
  · simp only [if_pos hzero]
    apply Does.numberOrExit stable_true
    intro declIndex
    have hdecl := stable_true.and (stable_hasIndex declName declIndex)
    change Does _ _ fun s => s.indexOrExit field.name >>= fun p => joinFieldPair declIndex p.1 p.2
    apply Does.numberOrExit hdecl
    intro fieldIndex
    have hpre := hdecl.and (stable_hasIndex field.name fieldIndex)
    exact (Does.write (fun _ h => h.2) fun _ h => h.1.2).edge hpre (fun _ h => h.1.2)
      fun _ h => h.2
  · simp only [if_neg hzero]
    exact .nil

theorem visitFieldsActions_does (decl : CXXRecordDecl) :
    Does (fun _ => True) (visitFieldsActions decl) (visitFields decl) := by
  intro s _
  rw [visitFieldsActions, runActions_cons, visitFields]
  change (runActions _ _).toOption = _
  split
  · exact (Does.flatMap stable_true _ fun field _ => fieldActions_does decl.name field) _ trivial
  · rfl

theorem joinBaseActions_does (decl base : CXXRecordDecl) (declIndex : ℕ) :
    Does (HasIndex decl.name declIndex) (joinBaseActions decl base)
      fun s => joinBase decl declIndex s base := by
  unfold joinBaseActions joinBase
  by_cases hnamed : base.name = []
  · simp only [if_pos hnamed]
    exact .nil
  · simp only [if_neg hnamed]
    have hdecl := stable_hasIndex decl.name declIndex
    apply Does.number hdecl
    intro baseIndex
    have hpre := hdecl.and (stable_hasIndex base.name baseIndex)
    have hto : ∀ s, HasIndex decl.name declIndex s ∧ HasIndex base.name baseIndex s → _ :=
      fun _ h => h.1
    have hfrom : ∀ s, HasIndex decl.name declIndex s ∧ HasIndex base.name baseIndex s → _ :=
      fun _ h => h.2
    exact ((((phantomActions_does hpre hfrom hto (sameLayoutSize decl base)).edge hpre hto
      hfrom).edge hpre hfrom hto).edge hpre hto hfrom).edge hpre hfrom hto

theorem visitBasesActions_does (decl : CXXRecordDecl) (declIndex : ℕ) :
    Does (HasIndex decl.name declIndex) (visitBasesActions decl) (visitBases decl declIndex) :=
  (Does.flatMap (stable_hasIndex _ _) _ fun base _ =>
    joinBaseActions_does decl base declIndex).append (stable_hasIndex _ _)
      (.single fun _ => rfl)

/-- **`VisitCXXRecordDecl`.** -/
theorem recordDeclActions_does (decl : CXXRecordDecl) (s : Collector) :
    (runActions (recordDeclActions (s.hasVisitedField.contains decl.name) decl) s).toOption =
      visitCXXRecordDecl decl s := by
  unfold recordDeclActions visitCXXRecordDecl
  have hbases : Does (fun _ => True) (.number decl.name :: visitBasesActions decl) fun s =>
      visitBases decl (s.indexOf decl.name).1 (s.indexOf decl.name).2 :=
    .number stable_true fun declIndex =>
      (visitBasesActions_does decl declIndex).mono fun _ h => h.2
  split
  · split
    · exact ((visitFieldsActions_does decl).append stable_true hbases) s trivial
    · exact hbases s trivial
  · rfl

theorem relateBaseActions_does (current base : CXXRecordDecl) (currentDeclIndex : ℕ) :
    Does (HasIndex current.name currentDeclIndex) (relateBaseActions current base)
      fun s => relateBase current currentDeclIndex s base := by
  have hcurrent := stable_hasIndex current.name currentDeclIndex
  unfold relateBaseActions relateBase
  apply Does.number hcurrent
  intro baseIndex
  have hpre := hcurrent.and (stable_hasIndex base.name baseIndex)
  have hto : ∀ s, HasIndex current.name currentDeclIndex s ∧ HasIndex base.name baseIndex s → _ :=
    fun _ h => h.1
  have hfrom : ∀ s, HasIndex current.name currentDeclIndex s ∧
    HasIndex base.name baseIndex s → _ := fun _ h => h.2
  exact ((((phantomActions_does hpre hto hfrom (sameLayoutSize current base)).edge hpre hto
    hfrom).edge hpre hfrom hto).edge hpre hfrom hto).edge hpre hto hto

/-- **`addRelationShip`.** -/
theorem addRelationShipActions_does (decl : CXXRecordDecl) :
    Does (fun _ => True) (addRelationShipActions decl) (relateClass decl) := by
  change Does _ (.number decl.name :: (_ ++ _)) fun s =>
    relateBases (collectAllBases decl) decl (s.indexOf decl.name).1 (s.indexOf decl.name).2
  apply Does.number stable_true
  intro declIndex
  have hpre := stable_true.and (stable_hasIndex decl.name declIndex)
  exact (Does.flatMap hpre _ fun base _ =>
    (relateBaseActions_does decl base declIndex).mono fun _ h => h.2).append hpre
      (.single fun _ => rfl)

/-- **`VisitCastExpr`.** -/
theorem castExprActions_does (expr : CastExpr) :
    Does (fun _ => True) (castExprActions expr) (visitCastExpr expr) := by
  have hrelated := Does.flatMap stable_true expr.related fun decl _ =>
    addRelationShipActions_does decl
  cases expr with
  | baseToDerived location derived based =>
      exact (Does.single fun _ => rfl).append stable_true hrelated
  | derivedToBase derived => exact hrelated
  | bitCast dest src => exact hrelated
  | other => exact hrelated

/-! ## Runs -/

/-- The name whose fields an action marks as visited. -/
def Action.fields : Action → List Name
  | .visitField decl => [decl.name]
  | _ => []

theorem indexOf_hasVisitedField (s : Collector) (name : Name) :
    (s.indexOf name).2.hasVisitedField = s.hasVisitedField := by
  unfold Collector.indexOf
  split <;> rfl

theorem setMatrix_hasVisitedField {matrix : Matrix} {i j : ℕ}
    (h : s.setMatrix matrix i j = some s') : s'.hasVisitedField = s.hasVisitedField := by
  cases matrix with
  | graph => obtain ⟨_, _, rfl⟩ := Option.map_eq_some_iff.mp h; rfl
  | phantoms => obtain ⟨_, _, rfl⟩ := Option.map_eq_some_iff.mp h; rfl
  | family => obtain ⟨_, _, rfl⟩ := Option.map_eq_some_iff.mp h; rfl

theorem addRelations_hasVisitedField (s : Collector) (declName : Name) (tempBaseVec : List Name) :
    (s.addRelations declName tempBaseVec).hasVisitedField = s.hasVisitedField := by
  unfold Collector.addRelations
  split
  · split <;> rfl
  · rfl

theorem Action.run_fields {action : Action} (h : Action.run s action = .ok s') (name : Name) :
    s'.hasVisitedField.contains name = true ↔
      s.hasVisitedField.contains name = true ∨ name ∈ action.fields := by
  have hsame : s'.hasVisitedField = s.hasVisitedField → action.fields = [] →
      (s'.hasVisitedField.contains name = true ↔
        s.hasVisitedField.contains name = true ∨ name ∈ action.fields) :=
    fun hsame hnone => by rw [hsame, hnone, List.mem_nil_iff, or_false]
  cases action with
  | visitField decl =>
      rw [← Except.ok.inj h, Action.fields, List.mem_singleton, Std.TreeSet.contains_insert,
        Bool.or_eq_true, beq_iff_eq, Std.LawfulEqCmp.compare_eq_iff_eq, or_comm,
        @eq_comm _ decl.name]
  | numberOrExit other =>
      simp only [Action.run] at h
      split at h
      · next p hp =>
          apply hsame _ rfl
          rw [← Except.ok.inj h, indexOrExit_eq_some hp, indexOf_hasVisitedField]
      · cases h
  | number other => exact hsame (Except.ok.inj h ▸ indexOf_hasVisitedField s other) rfl
  | edge matrix a b =>
      simp only [Action.run] at h
      split at h
      · next hset => exact hsame (Except.ok.inj h ▸ setMatrix_hasVisitedField hset) rfl
      · cases h
  | addRelations declName tempBaseVec =>
      exact hsame (Except.ok.inj h ▸ addRelations_hasVisitedField s declName tempBaseVec) rfl
  | downCast location derived based => exact hsame (Except.ok.inj h ▸ rfl) rfl

theorem runActions_fields {actions : List Action} (h : runActions actions s = .ok s')
    (name : Name) :
    s'.hasVisitedField.contains name = true ↔
      s.hasVisitedField.contains name = true ∨ name ∈ actions.flatMap Action.fields := by
  induction actions generalizing s with
  | nil => simp [← Except.ok.inj h]
  | cons action rest ih =>
      obtain ⟨s₁, hstep, hrest⟩ := foldlM_cons_ok h
      rw [ih hrest, Action.run_fields hstep, List.flatMap_cons, List.mem_append, or_assoc]

/-- The marks of `s` are those of the names `fieldsVisited`. -/
def Marks (fieldsVisited : List Name) (s : Collector) : Prop :=
  ∀ name, s.hasVisitedField.contains name = true ↔ name ∈ fieldsVisited

/-- **A visit.** -/
theorem actions_does {fieldsVisited : List Name} (hmarks : Marks fieldsVisited s) (v : Visit) :
    (runActions (v.actions fieldsVisited) s).toOption = traversal.step v s := by
  cases v with
  | recordDecl decl =>
      have hdone : decide (decl.name ∈ fieldsVisited) = s.hasVisitedField.contains decl.name := by
        rw [Bool.eq_iff_iff, decide_eq_true_eq, hmarks]
      rw [Visit.actions, hdone]
      exact recordDeclActions_does decl s
  | castExpr expr => exact castExprActions_does expr s trivial

theorem fields_phantomActions (sameSize : Bool) (a b : Name) :
    (phantomActions sameSize a b).flatMap Action.fields = [] := by
  cases sameSize <;> rfl

theorem fields_relateBaseActions (decl base : CXXRecordDecl) :
    (relateBaseActions decl base).flatMap Action.fields = [] := by
  simp [relateBaseActions, fields_phantomActions, Action.fields]

/-- Only the first part of `VisitCXXRecordDecl` marks a name. -/
theorem fields_actions (fieldsVisited : List Name) (v : Visit) (name : Name) :
    name ∈ (v.actions fieldsVisited).flatMap Action.fields ↔
      name ∈ v.fields ∧ name ∉ fieldsVisited := by
  have hfield : ∀ declName field, (fieldActions declName field).flatMap Action.fields = [] := by
    intro declName field
    unfold fieldActions
    split <;> rfl
  have hjoin : ∀ decl base, (joinBaseActions decl base).flatMap Action.fields = [] := by
    intro decl base
    unfold joinBaseActions
    split
    · rfl
    · simp [fields_phantomActions, Action.fields]
  have hrelate : ∀ decl, (addRelationShipActions decl).flatMap Action.fields = [] := by
    intro decl
    simp [addRelationShipActions, fields_relateBaseActions, Action.fields, List.flatMap_assoc]
  cases v with
  | recordDecl decl =>
      have hbases : (visitBasesActions decl).flatMap Action.fields = [] := by
        simp [visitBasesActions, hjoin, Action.fields, List.flatMap_assoc]
      have hfields : (visitFieldsActions decl).flatMap Action.fields = [decl.name] := by
        unfold visitFieldsActions
        split <;> simp [hfield, Action.fields, List.flatMap_assoc]
      simp only [Visit.actions, recordDeclActions, Visit.fields]
      by_cases hvisited : isVisited decl
      · by_cases hcontext : decl.info.isDependentContext
        · simp [hvisited, hcontext, Action.fields, hbases]
        -- a name that is marked is not visited for its fields again
        · by_cases hdone : decl.name ∈ fieldsVisited
          · have hold : name = decl.name → name ∈ fieldsVisited := fun h => h ▸ hdone
            simpa [hvisited, hcontext, hdone, Action.fields, hbases] using hold
          · have hnew : name = decl.name → name ∉ fieldsVisited := fun h => h ▸ hdone
            simpa [hvisited, hcontext, hdone, hfields, Action.fields, hbases] using hnew
      · simp [hvisited]
  | castExpr expr =>
      have hcast : (castExprActions expr).flatMap Action.fields = [] := by
        cases expr <;> simp [castExprActions, Action.fields, hrelate, List.flatMap_assoc]
      simp [Visit.actions, Visit.fields, hcast]

theorem Marks.runActions {fieldsVisited fields : List Name} (hmarks : Marks fieldsVisited s)
    {actions : List Action} (hfields : ∀ name, name ∈ actions.flatMap Action.fields ↔
      name ∈ fields ∧ name ∉ fieldsVisited) (h : runActions actions s = .ok s') :
    Marks (fieldsVisited ++ fields) s' := by
  intro name
  rw [runActions_fields h, hmarks, List.mem_append, hfields]
  tauto

theorem marks_actions {fieldsVisited : List Name} (hmarks : Marks fieldsVisited s) {v : Visit}
    (h : runActions (v.actions fieldsVisited) s = .ok s') :
    Marks (fieldsVisited ++ v.fields) s' :=
  hmarks.runActions (fields_actions fieldsVisited v) h

/-- **`program` is what the visits do.** -/
theorem run_program : ∀ (visits : List Visit) (fieldsVisited : List Name) (s : Collector),
    Marks fieldsVisited s →
    (runActions (program fieldsVisited visits) s).toOption = traversal.run visits s := by
  intro visits
  induction visits with
  | nil => exact fun _ _ _ => rfl
  | cons v rest ih =>
      intro fieldsVisited s hmarks
      rw [program, runActions_append, toOption_bind, actions_does hmarks, Machine.run_cons]
      cases hstep : traversal.step v s with
      | none => rfl
      | some s₁ =>
          have hrun := toOption_eq_some.mp ((actions_does hmarks v).trans hstep)
          exact ih _ s₁ (marks_actions hmarks hrun)

end Bitype.Tool
