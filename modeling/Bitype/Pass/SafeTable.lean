import Mathlib.Order.Bounds.Basic
import Bitype.Pass.Alignment
import Bitype.Pass.Mask
import Bitype.Pass.TypeRelations

/-!
# The tables

A table holds the numbers of the classes an object may be cast to.
`getAllClassSafeCast` emits one for every cast-related class type of a module,
`CreateGlobalVariable` one for every set of classes that start in one granule, when
it is first needed.  Both are recorded in `GlobalVariableMap` by name.

What goes into a table comes from several loops that each add numbers and may raise
the family size.  `Collects` says what has been added in terms of class names, and
`emits_spec` sums up: `Numbers` are the names whose numbers a table holds, `Sizes` the
names whose family sizes decide its length.
-/

namespace Bitype.Pass

open Bitype.Foundations Bitype.Runtime
open Bitype.Tool (Name)

/-! ## Collecting numbers -/

/-- `safeNum` and `currentClassFamilySize`. -/
structure SafeState where
  safeNum : Finset ℤ
  familySize : ℕ

namespace SafeState

/-- `if(familySize < size) familySize = size;` -/
def raise (size : ℕ) (st : SafeState) : SafeState :=
  if st.familySize < size then { st with familySize := size } else st

/-- Insert a number; the sources first search for it. -/
def add (code : ℕ) (st : SafeState) : SafeState :=
  { st with safeNum := insert (code : ℤ) st.safeNum }

@[simp] theorem safeNum_raise (size : ℕ) (st : SafeState) :
    (st.raise size).safeNum = st.safeNum := by
  unfold raise
  split <;> rfl

@[simp] theorem familySize_raise (size : ℕ) (st : SafeState) :
    (st.raise size).familySize = max st.familySize size := by
  unfold raise
  split
  · next hless => exact (max_eq_right hless.le).symm
  · next hless => exact (max_eq_left (not_lt.mp hless)).symm

@[simp] theorem safeNum_add (code : ℕ) (st : SafeState) :
    (st.add code).safeNum = insert (code : ℤ) st.safeNum := rfl

@[simp] theorem familySize_add (code : ℕ) (st : SafeState) :
    (st.add code).familySize = st.familySize := rfl

end SafeState

section Definitions

variable (files : ClassFiles)

/-- The number of a class, if it has one and is cast-related. -/
def ClassFiles.relatedCode (name : Name) : Option ℕ :=
  if files.bitypeCastRelatedClass.contains name then files.bitypeCodeMap[name]? else none

/-- The loop body over the bases of a class in `BitypeInheritanceSet`. -/
def addParent (st : SafeState) (parentName : Name) : SafeState :=
  match files.relatedCode parentName with
  | some parentClassCode => st.add parentClassCode
  | none => st

/-- The loop over the bases of a class in `BitypeInheritanceSet`. -/
def addInheritance (subName : Name) (st : SafeState) : SafeState :=
  match files.bitypeInheritanceSet[subName]? with
  | none => st
  | some parents => parents.toList.foldl (addParent files) st

/-- The loop body over the zero set in `getAllClassSafeCast`. -/
def addSubClass (st : SafeState) (subName : Name) : SafeState :=
  addInheritance files subName
    (match files.bitypeCodeMap[subName]?, files.bitypeCastRelatedClass[subName]? with
    | some subClassCode, some size => (st.raise size).add subClassCode
    | _, _ => st)

/-- The loop body over the closures in `extendSafeNum`. -/
def addRelated (st : SafeState) (tempStName : Name) : SafeState :=
  match files.bitypeCodeMap[tempStName]? with
  | none => st
  | some tempCode =>
      (match files.bitypeCastRelatedClass[tempStName]? with
      | some tempFamilySize => st.raise tempFamilySize
      | none => st).add tempCode

/-- `extendSafeNum`: only the first type of the name counts. -/
def extendSafeNum (allTypeInfo : List TypeInfo) (stName : Name) (st : SafeState) : SafeState :=
  match allTypeInfo.find? fun info => info.detailInfo.typeName = stName with
  | none => st
  | some info =>
      (info.allParents ++ info.allPhantomTypes).foldl
        (fun st tempDetailInfo => addRelated files st tempDetailInfo.typeName) st

/-- The loop body over the members of a set in `CreateGlobalVariable`.  Every member is
cast-related; the source reads the size without a check. -/
def addMember (st : SafeState) (tempStName : Name) : SafeState :=
  let st := st.raise ((files.bitypeCastRelatedClass[tempStName]?).getD 0)
  match files.bitypeCodeMap[tempStName]? with
  | some currentClassCode => st.add currentClassCode
  | none => st

/-- The loop body over the zero set in `CreateGlobalVariable`. -/
def addMemberSub (st : SafeState) (subName : Name) : SafeState :=
  addInheritance files subName
    (match files.bitypeCodeMap[subName]? with
    | some subClassCode => st.add subClassCode
    | none => st)

end Definitions

/-- The bytes of the mask for a family size. -/
def arraySize (familySize : ℕ) : ℕ := familySize / 8 + if familySize % 8 ≠ 0 then 1 else 0

/-- The array of a table. -/
def tableBytes (firstByte secondByte : Byte) (st : SafeState) : List Byte :=
  firstByte :: secondByte ::
    if 0 < st.safeNum.card then computeCode st.safeNum (arraySize st.familySize)
    else List.replicate (arraySize st.familySize) 0

/-- The names of the struct types of a set, in the order of their addresses. -/
def TypeTable.namesOf (T : TypeTable) (types : Finset ℕ) : List Name :=
  (types.sort (· ≤ ·)).map T.typeName

namespace Module

variable (M : Module) (files : ClassFiles)

/-- `AllTypeInfo`, as `getAllClassSafeCast` fills it first. -/
def allTypeInfo : List TypeInfo := M.extendTypeRelationInfo M.getDirectTypeInfo

/-- `safeNum` and the family size for class type `a`, whose own family has size
`familySize`. -/
def classSafe (a familySize : ℕ) : SafeState :=
  let stName := M.typeName a
  let st : SafeState := ⟨∅, familySize⟩
  let st :=
    match files.bitypeCodeMap[stName]? with
    | some currentClassCode => st.add currentClassCode
    | none => st
  let zeroSet := M.getOffetZeroStruct a ∅
  extendSafeNum files M.allTypeInfo stName
    ((M.namesOf zeroSet).foldl (addSubClass files) st)

/-- The table of class type `a`, if the loop body of `getAllClassSafeCast` gets so far. -/
def classTable (a : ℕ) : Option (List Byte) := do
  let familySize ← files.bitypeCastRelatedClass[M.typeName a]?
  let tempIndex ← files.bitypeClassIndexSet2[M.typeName a]?
  some (tableBytes (BitVec.ofNat 8 tempIndex) (BitVec.ofNat 8 (tempIndex / 2 ^ 8))
    (M.classSafe files a familySize))

/-- The loop body of `getAllClassSafeCast`. -/
def recordClass (globalVariableMap : Std.TreeMap Name (List Byte)) (a : ℕ) :
    Std.TreeMap Name (List Byte) :=
  match M.classTable files a with
  | some table => globalVariableMap.insertIfNew (M.typeName a) table
  | none => globalVariableMap

/-- `getAllClassSafeCast`: the tables by name. -/
def getAllClassSafeCast : Std.TreeMap Name (List Byte) := M.classTypes.foldl (M.recordClass files) ∅

/-- `safeNum` and the family size for the classes of one granule. -/
def mergedSafe (relatedCast : Finset ℕ) : SafeState :=
  let st := (M.namesOf relatedCast).foldl (addMember files) ⟨∅, 0⟩
  let zeroSet := (relatedCast.sort (· ≤ ·)).foldl
    (fun zeroSet tempStruct => M.getOffetZeroStruct tempStruct zeroSet) ∅
  (M.namesOf zeroSet).foldl (addMemberSub files) st

/-- The table `CreateGlobalVariable` emits. -/
def mergedTable (relatedCast : Finset ℕ) : List Byte :=
  tableBytes 0 0 (M.mergedSafe files relatedCast)

/-- The name a set of classes is recorded by. -/
def setName (types : Finset ℕ) : Name := (M.namesOf types).flatten

/-- The lookup in `emitInstForObjTrace`, with `CreateGlobalVariable` for a name not
recorded yet. -/
def provideTable (globalVariableMap : Std.TreeMap Name (List Byte)) (types : Finset ℕ) :
    Std.TreeMap Name (List Byte) :=
  if types.card = 0 then globalVariableMap
  else globalVariableMap.insertIfNew (M.setName types) (M.mergedTable files types)

/-- Emission as a machine: a label is the type of an object that is traced. -/
def emission : Machine (Std.TreeMap Name (List Byte)) IRType where
  step type globalVariableMap :=
    some ((M.elementsOf files type).toList.foldl
      (fun globalVariableMap entry => M.provideTable files globalVariableMap entry.2)
      globalVariableMap)

/-- The tables recorded after some objects have been instrumented. -/
def Recorded (globalVariableMap : Std.TreeMap Name (List Byte)) : Prop :=
  ∃ types, (M.emission files).run types (M.getAllClassSafeCast files) = some globalVariableMap

end Module

/-! ## What has been collected -/

/-- Families sizes of named classes. -/
def familySizes (files : ClassFiles) (names : Name → Prop) : Set ℕ :=
  {size | ∃ name, names name ∧ files.bitypeCastRelatedClass[name]? = some size}

/-- `st` holds the numbers of the classes `numbers`, and the greatest of `base` and the
family sizes of the classes `sizes`. -/
structure Collects (files : ClassFiles) (base : ℕ) (numbers sizes : Name → Prop)
    (st : SafeState) : Prop where
  safeNum : ∀ c, c ∈ st.safeNum ↔
    ∃ name code, numbers name ∧ files.bitypeCodeMap[name]? = some code ∧ (code : ℤ) = c
  familySize : IsGreatest (insert base (familySizes files sizes)) st.familySize

section Collect

variable {files : ClassFiles} {base : ℕ} {numbers sizes : Name → Prop} {st : SafeState}

theorem Collects.congr {numbers' sizes' : Name → Prop} (h : Collects files base numbers sizes st)
    (hnumbers : ∀ name code, files.bitypeCodeMap[name]? = some code →
      (numbers name ↔ numbers' name))
    (hsizes : ∀ name size, files.bitypeCastRelatedClass[name]? = some size →
      (sizes name ↔ sizes' name)) :
    Collects files base numbers' sizes' st := by
  have hset : familySizes files sizes = familySizes files sizes' := by
    ext size
    simp only [familySizes, Set.mem_ofPred_eq]
    exact exists_congr fun name => and_congr_left (hsizes name size)
  refine ⟨fun c => (h.safeNum c).trans ?_, hset ▸ h.familySize⟩
  refine exists_congr fun name => exists_congr fun code => and_congr_left ?_
  exact fun hcode => hnumbers name code hcode.1

/-- Insert the number of one class. -/
theorem Collects.add {name : Name} {code : ℕ} (h : Collects files base numbers sizes st)
    (hcode : files.bitypeCodeMap[name]? = some code) :
    Collects files base (fun other => numbers other ∨ other = name) sizes (st.add code) := by
  refine ⟨fun c => ?_, h.familySize⟩
  rw [SafeState.safeNum_add, Finset.mem_insert, h.safeNum]
  constructor
  · rintro (rfl | ⟨other, code', hother, hcode', rfl⟩)
    · exact ⟨name, code, .inr rfl, hcode, rfl⟩
    · exact ⟨other, code', .inl hother, hcode', rfl⟩
  · rintro ⟨other, code', hother | rfl, hcode', rfl⟩
    · exact .inr ⟨other, code', hother, hcode', rfl⟩
    · rw [hcode] at hcode'
      exact .inl (by rw [Option.some.inj hcode'])

/-- Raise the family size to that of one class. -/
theorem Collects.raise {name : Name} {size : ℕ} (h : Collects files base numbers sizes st)
    (hsize : files.bitypeCastRelatedClass[name]? = some size) :
    Collects files base numbers (fun other => sizes other ∨ other = name) (st.raise size) := by
  refine ⟨fun c => by rw [SafeState.safeNum_raise, h.safeNum], ?_⟩
  have hset : insert base (familySizes files fun other => sizes other ∨ other = name) =
      insert base (familySizes files sizes) ∪ {size} := by
    ext size'
    simp only [familySizes, Set.mem_insert_iff, Set.mem_ofPred_eq, Set.mem_union,
      Set.mem_singleton_iff, or_assoc]
    apply or_congr_right
    constructor
    · rintro ⟨other, hother | rfl, hlookup⟩
      · exact .inl ⟨other, hother, hlookup⟩
      · exact .inr (Option.some.inj (hlookup.symm.trans hsize))
    · rintro (⟨other, hother, hlookup⟩ | rfl)
      · exact ⟨other, .inl hother, hlookup⟩
      · exact ⟨name, .inr rfl, hsize⟩
  rw [hset, SafeState.familySize_raise]
  exact h.familySize.union isGreatest_singleton

/-- A name without a number adds nothing. -/
theorem Collects.skip {name : Name} (h : Collects files base numbers sizes st)
    (hcode : files.bitypeCodeMap[name]? = none) :
    Collects files base (fun other => numbers other ∨ other = name) sizes st := by
  refine h.congr (fun other code hother => ⟨.inl, fun hor => hor.resolve_right ?_⟩)
    (fun _ _ _ => Iff.rfl)
  rintro rfl
  rw [hcode] at hother
  cases hother

/-- A name that is not cast-related raises nothing. -/
theorem Collects.keep {name : Name} (h : Collects files base numbers sizes st)
    (hsize : files.bitypeCastRelatedClass[name]? = none) :
    Collects files base numbers (fun other => sizes other ∨ other = name) st := by
  refine h.congr (fun _ _ _ => Iff.rfl)
    (fun other size hother => ⟨.inl, fun hor => hor.resolve_right ?_⟩)
  rintro rfl
  rw [hsize] at hother
  cases hother

/-- **A loop collects what its rounds collect.** -/
theorem Collects.foldl {α : Type} {step : SafeState → α → SafeState}
    {newNumbers newSizes : α → Name → Prop} :
    ∀ (l : List α),
      (∀ x ∈ l, ∀ numbers sizes st, Collects files base numbers sizes st →
        Collects files base (fun name => numbers name ∨ newNumbers x name)
          (fun name => sizes name ∨ newSizes x name) (step st x)) →
      ∀ (numbers sizes : Name → Prop) (st : SafeState), Collects files base numbers sizes st →
        Collects files base (fun name => numbers name ∨ ∃ x ∈ l, newNumbers x name)
          (fun name => sizes name ∨ ∃ x ∈ l, newSizes x name) (l.foldl step st) := by
  intro l
  induction l with
  | nil =>
      intro _ numbers sizes st h
      exact h.congr (fun _ _ _ => by simp) (fun _ _ _ => by simp)
  | cons x rest ih =>
      intro hstep numbers sizes st h
      have hfirst := hstep x List.mem_cons_self numbers sizes st h
      refine (ih (fun y hy => hstep y (List.mem_cons_of_mem _ hy)) _ _ _ hfirst).congr ?_ ?_
      · intro name _ _
        simp only [List.mem_cons, or_and_right, exists_or, exists_eq_left, or_assoc]
      · intro name _ _
        simp only [List.mem_cons, or_and_right, exists_or, exists_eq_left, or_assoc]

/-- The cast-related classes in the `safecast.txt` row of a class. -/
def Inherits (files : ClassFiles) (subName parentName : Name) : Prop :=
  (∃ parents, files.bitypeInheritanceSet[subName]? = some parents ∧ parentName ∈ parents) ∧
    files.bitypeCastRelatedClass.contains parentName = true

/-- One of these classes. -/
theorem Collects.addParent (parentName : Name) (h : Collects files base numbers sizes st) :
    Collects files base
      (fun name => numbers name ∨ name = parentName ∧
        files.bitypeCastRelatedClass.contains parentName = true)
      (fun name => sizes name ∨ False) (addParent files st parentName) := by
  unfold Pass.addParent ClassFiles.relatedCode
  by_cases hrelated : files.bitypeCastRelatedClass.contains parentName = true
  · simp only [hrelated, if_true]
    cases hcode : files.bitypeCodeMap[parentName]? with
    | none => exact (h.skip hcode).congr (fun _ _ _ => by simp) (fun _ _ _ => by simp)
    | some code => exact (h.add hcode).congr (fun _ _ _ => by simp) (fun _ _ _ => by simp)
  · simp only [hrelated]
    exact h.congr (fun _ _ _ => by simp) (fun _ _ _ => by simp)

theorem Collects.addInheritance (subName : Name) (h : Collects files base numbers sizes st) :
    Collects files base (fun name => numbers name ∨ Inherits files subName name) sizes
      (addInheritance files subName st) := by
  unfold Pass.addInheritance
  cases hparents : files.bitypeInheritanceSet[subName]? with
  | none => exact h.congr (fun _ _ _ => by simp [Inherits, hparents]) (fun _ _ _ => Iff.rfl)
  | some parents =>
      have hloop := Collects.foldl parents.toList
        (fun parentName _ _ _ _ h => h.addParent parentName) _ _ _ h
      refine hloop.congr (fun name _ _ => ?_) (fun _ _ _ => by simp)
      apply or_congr_right
      simp only [Inherits, hparents, Option.some.injEq, exists_eq_left', Std.TreeSet.mem_toList]
      constructor
      · rintro ⟨_, hmem, rfl, hrelated⟩
        exact ⟨hmem, hrelated⟩
      · rintro ⟨hmem, hrelated⟩
        exact ⟨name, hmem, rfl, hrelated⟩

/-- The class has a number. -/
def ClassFiles.Coded (files : ClassFiles) (name : Name) : Prop :=
  files.bitypeCodeMap[name]? ≠ none

theorem contains_castRelated {name : Name} :
    files.bitypeCastRelatedClass.contains name = true ↔
      files.bitypeCastRelatedClass[name]? ≠ none := by
  rw [Std.TreeMap.contains_eq_isSome_getElem?, Option.isSome_iff_ne_none]

theorem isInCastRelatedSet_iff {T : TypeTable} {a : ℕ} :
    T.isInCastRelatedSet files a = true ↔
      files.bitypeCastRelatedClass[T.typeName a]? ≠ none := by
  rw [TypeTable.isInCastRelatedSet, contains_castRelated]

/-- One class at offset zero of a class type. -/
theorem Collects.addSubClass (subName : Name) (h : Collects files base numbers sizes st) :
    Collects files base
      (fun name => numbers name ∨ (name = subName ∧
        files.bitypeCastRelatedClass.contains subName = true ∨ Inherits files subName name))
      (fun name => sizes name ∨ name = subName ∧ files.Coded subName)
      (addSubClass files st subName) := by
  unfold Pass.addSubClass
  have hassoc : ∀ {sizes'} {st'}, Collects files base
      (fun name => numbers name ∨
        name = subName ∧ files.bitypeCastRelatedClass.contains subName = true) sizes' st' → _ :=
    fun h' => (h'.addInheritance subName).congr (fun name _ _ => or_assoc) (fun _ _ _ => Iff.rfl)
  apply hassoc
  cases hcode : files.bitypeCodeMap[subName]? with
  | none =>
      refine h.congr (fun name code hname => ?_) fun name _ _ => by simp [ClassFiles.Coded, hcode]
      refine ⟨.inl, fun hor => hor.resolve_right ?_⟩
      rintro ⟨rfl, -⟩
      rw [hcode] at hname
      cases hname
  | some code =>
      cases hsize : files.bitypeCastRelatedClass[subName]? with
      | none =>
          refine (h.keep hsize).congr (fun name _ _ => ?_) fun name _ _ => ?_
          · rw [contains_castRelated, hsize]
            simp
          · simp [ClassFiles.Coded, hcode]
      | some size =>
          refine ((h.raise hsize).add hcode).congr (fun name _ _ => ?_) fun name _ _ => ?_
          · rw [contains_castRelated, hsize]
            simp
          · simp [ClassFiles.Coded, hcode]

/-- One class of a closure. -/
theorem Collects.addRelated (name : Name) (h : Collects files base numbers sizes st) :
    Collects files base (fun other => numbers other ∨ other = name)
      (fun other => sizes other ∨ other = name ∧ files.Coded name) (addRelated files st name) := by
  unfold Pass.addRelated
  cases hcode : files.bitypeCodeMap[name]? with
  | none =>
      exact (h.skip hcode).congr (fun _ _ _ => Iff.rfl)
        fun other _ _ => by simp [ClassFiles.Coded, hcode]
  | some code =>
      have hcoded : ∀ other : Name, other = name ∧ files.Coded name ↔ other = name := by
        intro other
        simp [ClassFiles.Coded, hcode]
      simp only [hcoded]
      cases hsize : files.bitypeCastRelatedClass[name]? with
      | none => exact (h.keep hsize).add hcode
      | some size => exact (h.raise hsize).add hcode

/-- One member of a set of classes. -/
theorem Collects.addMember (name : Name) (h : Collects files base numbers sizes st)
    (hrelated : files.bitypeCastRelatedClass[name]? ≠ none) :
    Collects files base (fun other => numbers other ∨ other = name)
      (fun other => sizes other ∨ other = name) (addMember files st name) := by
  unfold Pass.addMember
  obtain ⟨size, hsize⟩ := Option.ne_none_iff_exists'.mp hrelated
  simp only [hsize, Option.getD_some]
  cases hcode : files.bitypeCodeMap[name]? with
  | none => exact (h.raise hsize).skip hcode
  | some code => exact (h.raise hsize).add hcode

/-- One class at offset zero of a member. -/
theorem Collects.addMemberSub (subName : Name) (h : Collects files base numbers sizes st) :
    Collects files base
      (fun name => numbers name ∨ (name = subName ∨ Inherits files subName name))
      (fun name => sizes name ∨ False) (addMemberSub files st subName) := by
  unfold Pass.addMemberSub
  have hassoc : ∀ {st'}, Collects files base (fun name => numbers name ∨ name = subName) sizes st' →
      _ :=
    fun h' => (h'.addInheritance subName).congr (fun name _ _ => or_assoc)
      (fun _ _ _ => (or_iff_left id).symm)
  apply hassoc
  cases hcode : files.bitypeCodeMap[subName]? with
  | none => exact h.skip hcode
  | some code => exact h.add hcode

end Collect

/-! ## What a table holds -/

/-- What a table was made for. -/
inductive Origin
  | single (a : ℕ)
  | merged (relatedCast : Finset ℕ)

section Origins

variable (M : Module) (files : ClassFiles)

/-- Index `i` is the first class type with a name. -/
def Module.FirstNamed (name : Name) (i : ℕ) : Prop :=
  (∃ b, M.classTypes[i]? = some b ∧ M.typeName b = name) ∧
    ∀ j < i, ∀ b, M.classTypes[j]? = some b → M.typeName b ≠ name

/-- The class types that the closures of `a` reach. -/
def Module.ClosureOf (a c : ℕ) : Prop :=
  ∃ i k, M.FirstNamed (M.typeName a) i ∧ Relation.ReflTransGen M.Related i k ∧
    M.classTypes[k]? = some c

/-- The classes whose numbers a table holds. -/
def Origin.Numbers : Origin → Name → Prop
  | single a, name =>
      (name = M.typeName a ∨ ∃ b, M.AtOffsetZero a b ∧
        (name = M.typeName b ∧ files.bitypeCastRelatedClass.contains (M.typeName b) = true ∨
          Inherits files (M.typeName b) name)) ∨
      ∃ c, M.ClosureOf a c ∧ name = M.typeName c
  | merged relatedCast, name =>
      (∃ a ∈ relatedCast, name = M.typeName a) ∨
      ∃ b, (∃ a ∈ relatedCast, M.AtOffsetZero a b) ∧
        (name = M.typeName b ∨ Inherits files (M.typeName b) name)

/-- The classes whose family sizes decide the length of a table. -/
def Origin.Sizes : Origin → Name → Prop
  | single a, name =>
      (name = M.typeName a ∨ ∃ b, M.AtOffsetZero a b ∧ name = M.typeName b ∧
        files.Coded (M.typeName b)) ∨
      ∃ c, M.ClosureOf a c ∧ name = M.typeName c ∧ files.Coded (M.typeName c)
  | merged relatedCast, name => ∃ a ∈ relatedCast, name = M.typeName a

/-- The table emitted for an origin. -/
def Origin.Emits : Origin → List Byte → Prop
  | single a, table => a ∈ M.classTypes ∧ M.classTable files a = some table
  | merged relatedCast, table =>
      relatedCast.Nonempty ∧ (∀ a ∈ relatedCast, M.isInCastRelatedSet files a = true) ∧
        M.mergedTable files relatedCast = table

/-- The name a table is recorded by. -/
def Origin.key : Origin → Name
  | single a => M.typeName a
  | merged relatedCast => M.setName relatedCast

end Origins

section Tables

variable {M : Module} {files : ClassFiles}

theorem TypeTable.mem_namesOf {T : TypeTable} {types : Finset ℕ} {name : Name} :
    name ∈ T.namesOf types ↔ ∃ b ∈ types, name = T.typeName b := by
  simp [TypeTable.namesOf, eq_comm]

theorem Module.FirstNamed.unique {name : Name} {i j : ℕ} (hi : M.FirstNamed name i)
    (hj : M.FirstNamed name j) : i = j := by
  obtain ⟨⟨b, hb, hname⟩, hfirst⟩ := hi
  obtain ⟨⟨b', hb', hname'⟩, hfirst'⟩ := hj
  rcases Nat.lt_trichotomy i j with hlt | rfl | hlt
  · exact absurd hname (hfirst' i hlt b hb)
  · rfl
  · exact absurd hname' (hfirst j hlt b' hb')

/-- The entry of a class type. -/
theorem allTypeInfo_of_classTypes {i b : ℕ} (hb : M.classTypes[i]? = some b) :
    ∃ info, M.allTypeInfo[i]? = some info ∧ info.detailInfo.typeName = M.typeName b := by
  have hlt : i < M.allTypeInfo.length := by
    rw [Module.allTypeInfo, length_extendTypeRelationInfo]
    exact (List.getElem?_eq_some_iff.mp hb).1
  have hinfo := List.getElem?_eq_getElem hlt
  obtain ⟨hstruct, hname, -⟩ := allParents_spec hinfo
  rw [hb] at hstruct
  exact ⟨_, hinfo, hname.trans (by rw [Option.some.inj hstruct])⟩

/-- The search of `extendSafeNum`. -/
theorem find_allTypeInfo (name : Name) :
    match M.allTypeInfo.find? fun info => info.detailInfo.typeName = name with
    | some info => ∃ i, M.FirstNamed name i ∧ M.allTypeInfo[i]? = some info
    | none => ∀ i, ¬ M.FirstNamed name i := by
  cases hfind : M.allTypeInfo.find? fun info => info.detailInfo.typeName = name with
  | none =>
      rintro i ⟨⟨b, hb, hname⟩, -⟩
      obtain ⟨info, hinfo, heq⟩ := allTypeInfo_of_classTypes hb
      have := List.find?_eq_none.mp hfind info (List.mem_of_getElem? hinfo)
      simp [heq, hname] at this
  | some info =>
      obtain ⟨hname, i, hi, rfl, hfirst⟩ := List.find?_eq_some_iff_getElem.mp hfind
      have hinfo := List.getElem?_eq_getElem hi
      obtain ⟨hstruct, heq, -⟩ := allParents_spec hinfo
      refine ⟨i, ⟨⟨_, hstruct, ?_⟩, fun j hj b hb hother => ?_⟩, hinfo⟩
      · rw [← heq]
        simpa using hname
      · obtain ⟨other, hlookup, heq'⟩ := allTypeInfo_of_classTypes hb
        obtain ⟨hj', rfl⟩ := List.getElem?_eq_some_iff.mp hlookup
        have := hfirst j hj
        simp [heq', hother] at this

/-- The closures of the first entry of a name, together. -/
theorem closure_names {a i : ℕ} {info : TypeInfo} (hfirst : M.FirstNamed (M.typeName a) i)
    (hinfo : M.allTypeInfo[i]? = some info) (name : Name) :
    (∃ c, M.ClosureOf a c ∧ name = M.typeName c) ↔
      ∃ detail ∈ info.allParents ++ info.allPhantomTypes, name = detail.typeName := by
  obtain ⟨-, -, hparents, hphantoms⟩ := allParents_spec hinfo
  calc (∃ c, M.ClosureOf a c ∧ name = M.typeName c)
      ↔ ∃ k c, Relation.ReflTransGen M.Related i k ∧ M.classTypes[k]? = some c ∧
          M.typeName c = name := by
        constructor
        · rintro ⟨c, ⟨i', k, hi', hpath, hc⟩, hname⟩
          obtain rfl := hi'.unique hfirst
          exact ⟨k, c, hpath, hc, hname.symm⟩
        · rintro ⟨k, c, hpath, hc, hname⟩
          exact ⟨c, ⟨i, k, hfirst, hpath, hc⟩, hname.symm⟩
    _ ↔ ∃ detail ∈ info.allParents, detail.typeName = name := (hparents name).symm
    _ ↔ ∃ detail ∈ info.allParents ++ info.allPhantomTypes, name = detail.typeName := by
        constructor
        · rintro ⟨detail, hmem, hname⟩
          exact ⟨detail, List.mem_append_left _ hmem, hname.symm⟩
        · rintro ⟨detail, hmem, hname⟩
          rcases List.mem_append.mp hmem with hmem | hmem
          · exact ⟨detail, hmem, hname.symm⟩
          · exact ⟨detail, hphantoms detail hmem, hname.symm⟩

/-- The closures add the classes that `ClosureOf` reaches. -/
theorem Collects.extendSafeNum {base : ℕ} {numbers sizes : Name → Prop} {st : SafeState} (a : ℕ)
    (h : Collects files base numbers sizes st) :
    Collects files base
      (fun name => numbers name ∨ ∃ c, M.ClosureOf a c ∧ name = M.typeName c)
      (fun name => sizes name ∨ ∃ c, M.ClosureOf a c ∧ name = M.typeName c ∧
        files.Coded (M.typeName c))
      (extendSafeNum files M.allTypeInfo (M.typeName a) st) := by
  have hfind := find_allTypeInfo (M := M) (M.typeName a)
  unfold Pass.extendSafeNum
  -- the closures are those of the first type with this name
  cases hfound : M.allTypeInfo.find? fun info => info.detailInfo.typeName = M.typeName a with
  | none =>
      rw [hfound] at hfind
      have hnone : ∀ c, ¬ M.ClosureOf a c := by
        rintro c ⟨i, _, hfirst, -⟩
        exact hfind i hfirst
      exact h.congr (fun _ _ _ => by simp [hnone]) (fun _ _ _ => by simp [hnone])
  | some info =>
      rw [hfound] at hfind
      obtain ⟨i, hfirst, hinfo⟩ := hfind
      have hnames := closure_names hfirst hinfo
      have hloop := Collects.foldl (info.allParents ++ info.allPhantomTypes)
        (fun detail _ _ _ _ h => h.addRelated detail.typeName) _ _ _ h
      refine hloop.congr (fun name _ _ => ?_) fun name _ _ => ?_
      · rw [hnames]
      · apply or_congr_right
        constructor
        · rintro ⟨detail, hmem, hname, hcoded⟩
          obtain ⟨c, hc, hclass⟩ := (hnames name).mpr ⟨detail, hmem, hname⟩
          exact ⟨c, hc, hclass, by rwa [← hclass, hname]⟩
        · rintro ⟨c, hc, hclass, hcoded⟩
          obtain ⟨detail, hmem, hname⟩ := (hnames name).mp ⟨c, hc, hclass⟩
          exact ⟨detail, hmem, hname, by rwa [← hname, hclass]⟩

/-- What the table of a class type is made from. -/
theorem collects_classSafe {a familySize : ℕ}
    (hsize : files.bitypeCastRelatedClass[M.typeName a]? = some familySize) :
    Collects files familySize (Origin.Numbers M files (.single a)) (Origin.Sizes M files (.single a))
      (M.classSafe files a familySize) := by
  have hstart : Collects files familySize (fun _ => False) (fun _ => False) ⟨∅, familySize⟩ :=
    ⟨by simp, by simp [familySizes]⟩
  -- the table starts with the size of the own family and the own number
  have hown : Collects files familySize (fun name => name = M.typeName a)
      (fun name => name = M.typeName a)
      (match files.bitypeCodeMap[M.typeName a]? with
        | some currentClassCode => SafeState.add currentClassCode ⟨∅, familySize⟩
        | none => ⟨∅, familySize⟩) := by
    have hraise := hstart.raise hsize
    have hsame : SafeState.raise familySize ⟨∅, familySize⟩ = ⟨∅, familySize⟩ := by
      simp [SafeState.raise]
    rw [hsame] at hraise
    cases hcode : files.bitypeCodeMap[M.typeName a]? with
    | none => exact (hraise.skip hcode).congr (fun _ _ _ => by simp) (fun _ _ _ => by simp)
    | some code => exact (hraise.add hcode).congr (fun _ _ _ => by simp) (fun _ _ _ => by simp)
  have hzero := Collects.foldl (M.namesOf (M.getOffetZeroStruct a ∅))
    (fun subName _ _ _ _ h => h.addSubClass subName) _ _ _ hown
  refine (hzero.extendSafeNum a).congr (fun name _ _ => ?_) fun name _ _ => ?_
  · apply or_congr_left
    apply or_congr_right
    simp only [TypeTable.mem_namesOf, TypeTable.mem_getOffetZeroStruct]
    simp
  · apply or_congr_left
    apply or_congr_right
    simp only [TypeTable.mem_namesOf, TypeTable.mem_getOffetZeroStruct]
    simp

/-- The zero set of several classes. -/
theorem mem_foldl_getOffetZeroStruct {c : ℕ} :
    ∀ (types : List ℕ) (zeroSet : Finset ℕ),
      c ∈ types.foldl (fun zeroSet tempStruct => M.getOffetZeroStruct tempStruct zeroSet) zeroSet ↔
        c ∈ zeroSet ∨ ∃ a ∈ types, M.AtOffsetZero a c := by
  intro types
  induction types with
  | nil => simp
  | cons a rest ih =>
      intro zeroSet
      rw [List.foldl_cons, ih, TypeTable.mem_getOffetZeroStruct]
      simp only [List.mem_cons, or_and_right, exists_or, exists_eq_left, or_assoc]

/-- What the table of a set of classes is made from. -/
theorem collects_mergedSafe {relatedCast : Finset ℕ}
    (hrelated : ∀ a ∈ relatedCast, M.isInCastRelatedSet files a = true) :
    Collects files 0 (Origin.Numbers M files (.merged relatedCast))
      (Origin.Sizes M files (.merged relatedCast)) (M.mergedSafe files relatedCast) := by
  have hstart : Collects files 0 (fun _ => False) (fun _ => False) ⟨∅, 0⟩ :=
    ⟨by simp, by simp [familySizes]⟩
  have hrow : ∀ name ∈ M.namesOf relatedCast, files.bitypeCastRelatedClass[name]? ≠ none := by
    intro name hname
    obtain ⟨a, ha, hname⟩ := TypeTable.mem_namesOf.mp hname
    have h := hrelated a ha
    rw [isInCastRelatedSet_iff] at h
    rw [hname]
    exact h
  have hmembers := Collects.foldl (M.namesOf relatedCast)
    (fun name hname _ _ _ h => h.addMember name (hrow name hname)) _ _ _ hstart
  have hzero := Collects.foldl (M.namesOf
    ((relatedCast.sort (· ≤ ·)).foldl
      (fun zeroSet tempStruct => M.getOffetZeroStruct tempStruct zeroSet) ∅))
    (fun subName _ _ _ _ h => h.addMemberSub subName) _ _ _ hmembers
  refine hzero.congr (fun name _ _ => ?_) fun name _ _ => ?_
  · apply or_congr
    · simp [TypeTable.mem_namesOf]
    · simp only [TypeTable.mem_namesOf, mem_foldl_getOffetZeroStruct, Finset.mem_sort]
      simp
  · simp [TypeTable.mem_namesOf, Origin.Sizes]

/-- The table holds the numbers of `st` in as many bytes as its family size needs. -/
theorem tableBytes_eq (firstByte secondByte : Byte) (st : SafeState) :
    tableBytes firstByte secondByte st =
      maskTable firstByte secondByte st.safeNum (arraySize st.familySize) := by
  unfold tableBytes maskTable
  split
  · rfl
  · next hempty =>
      obtain hnone : st.safeNum = ∅ := by simpa using hempty
      simp [hnone, computeCode]

/-- **What an emitted table holds.** -/
theorem emits_spec {origin : Origin} {table : List Byte} (h : origin.Emits M files table) :
    ∃ firstByte secondByte safeNum familySize,
      table = maskTable firstByte secondByte safeNum (arraySize familySize) ∧
      (∀ c, c ∈ safeNum ↔ ∃ name code, origin.Numbers M files name ∧
        files.bitypeCodeMap[name]? = some code ∧ (code : ℤ) = c) ∧
      IsGreatest (familySizes files (origin.Sizes M files)) familySize := by
  cases origin with
  | single a =>
      obtain ⟨-, htable⟩ := h
      simp only [Module.classTable, Option.bind_eq_bind, Option.bind_eq_some_iff,
        Option.some.injEq] at htable
      obtain ⟨familySize, hsize, tempIndex, -, rfl⟩ := htable
      have hcollects := collects_classSafe hsize
      refine ⟨_, _, _, _, tableBytes_eq _ _ _, hcollects.safeNum, ?_⟩
      have hown : familySize ∈ familySizes files (Origin.Sizes M files (.single a)) :=
        ⟨_, .inl (.inl rfl), hsize⟩
      have hgreatest := hcollects.familySize
      rwa [Set.insert_eq_of_mem hown] at hgreatest
  | merged relatedCast =>
      obtain ⟨⟨a, ha⟩, hrelated, rfl⟩ := h
      have hcollects := collects_mergedSafe hrelated
      refine ⟨_, _, _, _, tableBytes_eq _ _ _, hcollects.safeNum, ?_⟩
      obtain ⟨size, hsize⟩ := Option.ne_none_iff_exists'.mp (isInCastRelatedSet_iff.mp (hrelated a ha))
      have hmember : size ∈ familySizes files (Origin.Sizes M files (.merged relatedCast)) :=
        ⟨_, ⟨a, ha, rfl⟩, hsize⟩
      obtain ⟨hmem, hupper⟩ := hcollects.familySize
      refine ⟨?_, fun k hk => hupper (Set.mem_insert_of_mem _ hk)⟩
      rcases hmem with hzero | hmem
      · have hle := hupper (Set.mem_insert_of_mem _ hmember)
        rw [hzero] at hle ⊢
        rwa [Nat.le_zero.mp hle] at hmember
      · exact hmem

/-! ## What is recorded -/

/-- Every table is the table of an origin, under its name. -/
def AllEmitted (M : Module) (files : ClassFiles)
    (globalVariableMap : Std.TreeMap Name (List Byte)) : Prop :=
  ∀ key table, globalVariableMap[key]? = some table →
    ∃ origin : Origin, key = origin.key M ∧ origin.Emits M files table

theorem AllEmitted.insertIfNew {globalVariableMap : Std.TreeMap Name (List Byte)}
    (h : AllEmitted M files globalVariableMap) {origin : Origin} {table : List Byte}
    (hemits : origin.Emits M files table) :
    AllEmitted M files (globalVariableMap.insertIfNew (origin.key M) table) := by
  intro key table' hkey
  rw [Std.TreeMap.getElem?_insertIfNew] at hkey
  split at hkey
  · next hnew =>
      have hsame := Std.LawfulEqCmp.eq_of_compare hnew.1
      exact ⟨origin, hsame.symm, Option.some.inj hkey ▸ hemits⟩
  · exact h key table' hkey

/-- The tables of `getAllClassSafeCast`. -/
theorem allEmitted_getAllClassSafeCast : AllEmitted M files (M.getAllClassSafeCast files) := by
  have hempty : AllEmitted M files ∅ := fun key table hkey => by simp at hkey
  apply List.foldlRecOn _ _ hempty
  intro globalVariableMap h a ha
  unfold Module.recordClass
  cases htable : M.classTable files a with
  | none => exact h
  | some table =>
      have hemits : Origin.Emits M files (.single a) table := ⟨ha, htable⟩
      exact h.insertIfNew hemits

/-- Providing a table for a set of cast-related classes. -/
theorem AllEmitted.provideTable {globalVariableMap : Std.TreeMap Name (List Byte)}
    (h : AllEmitted M files globalVariableMap) {types : Finset ℕ}
    (hrelated : ∀ a ∈ types, M.isInCastRelatedSet files a = true) :
    AllEmitted M files (M.provideTable files globalVariableMap types) := by
  unfold Module.provideTable
  split
  · exact h
  · next hne =>
      have hnonempty : types.Nonempty := Finset.card_pos.mp (Nat.pos_of_ne_zero hne)
      have hemits : Origin.Emits M files (.merged types) (M.mergedTable files types) :=
        ⟨hnonempty, hrelated, rfl⟩
      exact h.insertIfNew hemits

/-- **Every recorded table was emitted for a class type or for a set of cast-related
classes**, whatever has been instrumented. -/
theorem recorded_emitted {globalVariableMap : Std.TreeMap Name (List Byte)}
    (h : M.Recorded files globalVariableMap) : AllEmitted M files globalVariableMap := by
  obtain ⟨types, hrun⟩ := h
  refine Machine.run_of_step (M.emission files) (fun type s s' hs hstep => ?_) types _ _
    allEmitted_getAllClassSafeCast hrun
  obtain rfl := Option.some.inj hstep
  refine List.foldlRecOn _ _ hs fun s hs entry hentry => hs.provideTable ?_
  exact (TypeTable.filed_elementsOf type (Std.TreeMap.mem_toList_iff_getElem?_eq_some.mp hentry)).2.2

end Tables

end Bitype.Pass
