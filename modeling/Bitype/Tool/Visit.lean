import Std.Data.TreeMap
import Std.Data.TreeMap.Lemmas
import Std.Data.TreeSet
import Mathlib.Logic.Relation
import Bitype.Foundations.Execution

/-!
# The class-collection tool: visiting declarations and casts

`FindClassDecls.cpp` walks the syntax trees of a program and numbers the class names
it meets, in the order it meets them.  For every class it records its transitive
bases, and it draws three graphs over the numbers: `graph` (families),
`graph_phantoms` (a class and a base of the same size) and `graph_family`.

There are two ways in.  `VisitCXXRecordDecl` is called for every class definition
that stands in the source, `VisitCastExpr` for every cast; the latter calls
`addRelationShip` for the classes of the cast, which may have no definition in the
source of their own (an instance of a template has none).

The matrices have `MAX_NUM_CLASS` rows and columns.  A write outside them has no
meaning, and the field branch of `VisitCXXRecordDecl` ends the program before it
makes one: a visit that does either is `none`.
-/

namespace Bitype.Tool

open Bitype.Foundations

/-- A name, as `getName` gives it: empty for what has none. -/
abbrev Name := List Char

instance : LawfulBEq Name := inferInstance

def MAX_NUM_CLASS : ℕ := 35000

/-! ## Declarations -/

/-- The types of a field that `getElemQualTypeOrNull` tells apart; `sugar` is a `typedef` of a type or
another way to write it. -/
inductive FieldType
  | structureOrClass
  | array (elem : FieldType)
  | sugar (type : FieldType)
  | other

/-- `isStructureOrClassType`, which looks through a `typedef`. -/
def FieldType.isStructureOrClassType : FieldType → Bool
  | .structureOrClass => true
  | .sugar type => type.isStructureOrClassType
  | .array _ | .other => false

/-- `getElemQualTypeOrNull`: a class, or an array of classes.  The `dyn_cast` to an array does not
look through a `typedef`. -/
def FieldType.isCompoundElem : FieldType → Bool
  | .array elem => elem.isCompoundElem
  | .structureOrClass => true
  | .sugar type => type.isStructureOrClassType
  | .other => false

structure FieldDecl where
  name : Name
  type : FieldType
  offsetBits : ℕ

/-- What a class declaration says about itself. -/
structure RecordInfo where
  name : Name
  hasDefinition : Bool
  isCompleteDefinition : Bool
  isAnonymousStructOrUnion : Bool
  isDependentContext : Bool
  isAggregate : Bool
  isPolymorphic : Bool
  fields : List FieldDecl
  size : ℕ
  alignment : ℕ

/-- A class declaration with the definitions of its direct bases; a base that is no
class or has no definition is not among them. -/
inductive CXXRecordDecl
  | mk (info : RecordInfo) (bases : List CXXRecordDecl)

namespace CXXRecordDecl

def info : CXXRecordDecl → RecordInfo
  | mk info _ => info

def bases : CXXRecordDecl → List CXXRecordDecl
  | mk _ bases => bases

def name (decl : CXXRecordDecl) : Name := decl.info.name

mutual

/-- The number of classes in an inheritance tree, repetitions counted. -/
def nodes : CXXRecordDecl → ℕ
  | mk _ bases => 1 + nodesList bases

def nodesList : List CXXRecordDecl → ℕ
  | [] => 0
  | base :: rest => base.nodes + nodesList rest

end

/-- The direct base relation. -/
def DirectBase (decl base : CXXRecordDecl) : Prop := base ∈ decl.bases

/-- The transitive base relation. -/
def TransitiveBase : CXXRecordDecl → CXXRecordDecl → Prop := Relation.TransGen DirectBase

end CXXRecordDecl

open CXXRecordDecl

/-! ## `CollectAllBases` -/

/-- The loop of `CollectAllBases`.  `Queue` is popped at the end it is pushed to;
its top is the head of the list here. -/
def collectLoop : ℕ → List CXXRecordDecl → CXXRecordDecl → List CXXRecordDecl →
    Option (List CXXRecordDecl)
  | 0, _, _, _ => none
  | fuel + 1, queue, record, bases =>
      match record.bases.reverse ++ queue with
      | [] => some (bases ++ record.bases)
      | next :: rest => collectLoop fuel rest next (bases ++ record.bases)

/-- `CollectAllBases`, with as many rounds as the inheritance tree has classes. -/
def collectAllBases (baseRD : CXXRecordDecl) : List CXXRecordDecl :=
  (collectLoop baseRD.nodes [] baseRD []).getD []

theorem nodesList_append (l l' : List CXXRecordDecl) :
    nodesList (l ++ l') = nodesList l + nodesList l' := by
  induction l with
  | nil => simp [nodesList]
  | cons base rest ih => simp [nodesList, ih, Nat.add_assoc]

theorem nodesList_reverse (l : List CXXRecordDecl) : nodesList l.reverse = nodesList l := by
  induction l with
  | nil => rfl
  | cons base rest ih =>
      rw [List.reverse_cons, nodesList_append, ih]
      simp only [nodesList]
      omega

theorem nodes_eq (decl : CXXRecordDecl) : decl.nodes = 1 + nodesList decl.bases := by
  cases decl
  rfl

/-- A transitive base is a direct one or a transitive base of a direct one. -/
theorem transitiveBase_iff {decl base : CXXRecordDecl} :
    TransitiveBase decl base ↔
      base ∈ decl.bases ∨ ∃ next ∈ decl.bases, TransitiveBase next base := by
  unfold TransitiveBase
  rw [Relation.TransGen.head'_iff]
  constructor
  · rintro ⟨next, hnext, hpath⟩
    rcases Relation.reflTransGen_iff_eq_or_transGen.mp hpath with rfl | hpath
    · exact .inl hnext
    · exact .inr ⟨next, hnext, hpath⟩
  · rintro (hbase | ⟨next, hnext, hpath⟩)
    · exact ⟨base, hbase, .refl⟩
    · exact ⟨next, hnext, hpath.to_reflTransGen⟩

/-- The loop ends, having collected the transitive bases of what was left. -/
theorem collectLoop_spec :
    ∀ (fuel : ℕ) (queue : List CXXRecordDecl) (record : CXXRecordDecl)
      (bases : List CXXRecordDecl), record.nodes + nodesList queue ≤ fuel →
      ∃ out, collectLoop fuel queue record bases = some out ∧
        ∀ base, base ∈ out ↔
          base ∈ bases ∨ ∃ r ∈ record :: queue, TransitiveBase r base := by
  intro fuel
  induction fuel with
  | zero =>
      intro queue record bases hfuel
      have := nodes_eq record
      omega
  | succ fuel ih =>
      intro queue record bases hfuel
      -- the bases of `record` go to the front of the queue, in reverse
      have hsplit : ∀ base, (∃ r ∈ record :: queue, TransitiveBase r base) ↔
          base ∈ record.bases ∨ ∃ r ∈ record.bases.reverse ++ queue, TransitiveBase r base := by
        intro base
        simp only [List.mem_cons, List.mem_append, List.mem_reverse, or_and_right, exists_or,
          exists_eq_left, @transitiveBase_iff record, or_assoc]
      -- `record` itself is not looked at again, so the fuel is enough for the rest
      have hnodes : nodesList (record.bases.reverse ++ queue) ≤ fuel := by
        rw [nodesList_append, nodesList_reverse]
        have := nodes_eq record
        omega
      simp only [collectLoop]
      cases hqueue : record.bases.reverse ++ queue with
      | nil =>
          refine ⟨_, rfl, fun base => ?_⟩
          rw [hsplit, hqueue]
          simp
      | cons next rest =>
          rw [hqueue] at hnodes
          obtain ⟨out, hout, hmem⟩ := ih rest next (bases ++ record.bases) hnodes
          refine ⟨out, hout, fun base => ?_⟩
          rw [hmem, hsplit, hqueue, List.mem_append, or_assoc]

/-- **`CollectAllBases` collects the transitive bases.** -/
theorem mem_collectAllBases {decl base : CXXRecordDecl} :
    base ∈ collectAllBases decl ↔ TransitiveBase decl base := by
  obtain ⟨out, hout, hmem⟩ := collectLoop_spec decl.nodes [] decl [] (by simp [nodesList])
  rw [collectAllBases, hout, Option.getD_some, hmem]
  simp

/-! ## What is collected -/

/-- The globals the visitor fills. -/
structure Collector where
  currentIndex : ℕ
  classCode : Std.TreeMap Name ℕ
  numberName : Std.TreeMap ℕ Name
  graph : ℕ → ℕ → Bool
  graphPhantoms : ℕ → ℕ → Bool
  graphFamily : ℕ → ℕ → Bool
  relations : Std.TreeMap Name (List Name)
  hasVisitedField : Std.TreeSet Name
  classSize : Std.TreeMap Name ℕ
  downCastVec : Std.TreeSet Name
  castClass : Std.TreeSet Name
  basedCastClass : Std.TreeSet Name
  downCastLoc : Std.TreeSet Name

/-- The globals before the first visit. -/
def Collector.empty : Collector where
  currentIndex := 0
  classCode := ∅
  numberName := ∅
  graph := fun _ _ => false
  graphPhantoms := fun _ _ => false
  graphFamily := fun _ _ => false
  relations := ∅
  hasVisitedField := ∅
  classSize := ∅
  downCastVec := ∅
  castClass := ∅
  basedCastClass := ∅
  downCastLoc := ∅

/-- `matrix[i][j] = true`. -/
def setEdge (matrix : ℕ → ℕ → Bool) (i j : ℕ) : Option (ℕ → ℕ → Bool) :=
  if i < MAX_NUM_CLASS ∧ j < MAX_NUM_CLASS then
    some fun a b => if a = i ∧ b = j then true else matrix a b
  else none

namespace Collector

/-- The number of a name, a new one if it has none. -/
def indexOf (name : Name) (s : Collector) : ℕ × Collector :=
  match s.classCode[name]? with
  | some index => (index, s)
  | none =>
      (s.currentIndex,
        { s with
          numberName := s.numberName.insertIfNew s.currentIndex name
          classCode := s.classCode.insertIfNew name s.currentIndex
          currentIndex := s.currentIndex + 1 })

/-- The same with the check of the field branch, which exits on a number too many. -/
def indexOrExit (name : Name) (s : Collector) : Option (ℕ × Collector) :=
  match s.classCode[name]? with
  | some index => some (index, s)
  | none => if s.currentIndex + 1 > MAX_NUM_CLASS then none else some (s.indexOf name)

def setGraph (i j : ℕ) (s : Collector) : Option Collector :=
  (setEdge s.graph i j).map fun graph => { s with graph := graph }

def setFamily (i j : ℕ) (s : Collector) : Option Collector :=
  (setEdge s.graphFamily i j).map fun graph => { s with graphFamily := graph }

def setPhantoms (i j : ℕ) (s : Collector) : Option Collector :=
  (setEdge s.graphPhantoms i j).map fun graph => { s with graphPhantoms := graph }

/-- The end of both visits: merge the bases of a class into `relations`. -/
def addRelations (declName : Name) (tempBaseVec : List Name) (s : Collector) : Collector :=
  if 0 < tempBaseVec.length then
    match s.relations[declName]? with
    | none => { s with relations := s.relations.insertIfNew declName tempBaseVec }
    | some known =>
        { s with
          relations := s.relations.insert declName (tempBaseVec.foldl
            (fun known name => if name ∈ known then known else known ++ [name]) known) }
  else s

end Collector

/-! ## `VisitCXXRecordDecl` -/

/-- A field that shares the address of its class and is a class or an array of
classes. -/
def FieldDecl.isOffsetZero (field : FieldDecl) : Bool :=
  field.name ≠ [] && field.type.isCompoundElem && field.offsetBits == 0

/-- The edges between a class and a field. -/
def joinFieldPair (declIndex fieldIndex : ℕ) (s : Collector) : Option Collector := do
  let s ← s.setGraph declIndex fieldIndex
  s.setGraph fieldIndex declIndex

/-- What follows the numbering of the class in the loop body over the fields. -/
def joinFieldName (fieldName : Name) (declIndex : ℕ) (s : Collector) : Option Collector := do
  let (fieldIndex, s) ← s.indexOrExit fieldName
  joinFieldPair declIndex fieldIndex s

/-- The loop body over the fields. -/
def joinField (declName : Name) (s : Collector) (field : FieldDecl) : Option Collector :=
  if field.isOffsetZero then do
    let (declIndex, s) ← s.indexOrExit declName
    joinFieldName field.name declIndex s
  else some s

/-- The first part of the visit, made once for each name. -/
def visitFields (decl : CXXRecordDecl) (s : Collector) : Option Collector :=
  let s := { s with
    hasVisitedField := s.hasVisitedField.insert decl.name
    classSize := s.classSize.insertIfNew decl.name decl.info.alignment }
  if !decl.info.isAggregate && !decl.info.isPolymorphic then
    decl.info.fields.foldlM (joinField decl.name) s
  else some s

/-- The layouts of two classes are known and have one size. -/
def sameLayoutSize (decl base : CXXRecordDecl) : Bool :=
  !decl.info.isDependentContext && !base.info.isDependentContext &&
    decl.info.size == base.info.size

/-- The edges between a class and a base. -/
def joinPair (sameSize : Bool) (declIndex baseIndex : ℕ) (s : Collector) : Option Collector := do
  let s ← s.setGraph baseIndex declIndex
  let s ← s.setGraph declIndex baseIndex
  let s ← s.setFamily baseIndex declIndex
  let s ← s.setFamily declIndex baseIndex
  if sameSize then do
    let s ← s.setPhantoms baseIndex declIndex
    s.setPhantoms declIndex baseIndex
  else some s

/-- The loop body over the bases. -/
def joinBase (decl : CXXRecordDecl) (declIndex : ℕ) (s : Collector) (base : CXXRecordDecl) :
    Option Collector :=
  if base.name = [] then some s
  else
    let (baseIndex, s) := s.indexOf base.name
    joinPair (sameLayoutSize decl base) declIndex baseIndex s

/-- The declarations `VisitCXXRecordDecl` does not skip. -/
def isVisited (decl : CXXRecordDecl) : Bool :=
  decl.info.hasDefinition && !decl.info.isAnonymousStructOrUnion && decl.name ≠ []

/-- The second part of the visit, once the class has its number. -/
def visitBases (decl : CXXRecordDecl) (declIndex : ℕ) (s : Collector) : Option Collector := do
  let bases := collectAllBases decl
  let s ← bases.foldlM (joinBase decl declIndex) s
  some (s.addRelations decl.name ((bases.map name).filter (· ≠ [])))

/-- `VisitCXXRecordDecl`. -/
def visitCXXRecordDecl (decl : CXXRecordDecl) (s : Collector) : Option Collector :=
  if isVisited decl then do
    let s ←
      if !s.hasVisitedField.contains decl.name && !decl.info.isDependentContext then
        visitFields decl s
      else some s
    let (declIndex, s) := s.indexOf decl.name
    visitBases decl declIndex s
  else some s

/-! ## `VisitCastExpr` -/

/-- The edges `addRelationShip` writes for a class and a base.  The first write to
`graph` has the class's number twice. -/
def relatePair (sameSize : Bool) (currentDeclIndex currentBaseIndex : ℕ) (s : Collector) :
    Option Collector := do
  let s ← s.setGraph currentDeclIndex currentDeclIndex
  let s ← s.setGraph currentBaseIndex currentDeclIndex
  let s ← s.setFamily currentBaseIndex currentDeclIndex
  let s ← s.setFamily currentDeclIndex currentBaseIndex
  if sameSize then do
    let s ← s.setPhantoms currentDeclIndex currentBaseIndex
    s.setPhantoms currentBaseIndex currentDeclIndex
  else some s

/-- The loop body of `addRelationShip`. -/
def relateBase (current : CXXRecordDecl) (currentDeclIndex : ℕ) (s : Collector)
    (base : CXXRecordDecl) : Option Collector :=
  let (currentBaseIndex, s) := s.indexOf base.name
  relatePair (sameLayoutSize current base) currentDeclIndex currentBaseIndex s

/-- What follows the numbering of the class in `addRelationShip`. -/
def relateBases (bases : List CXXRecordDecl) (current : CXXRecordDecl) (currentDeclIndex : ℕ)
    (s : Collector) : Option Collector := do
  let s ← bases.foldlM (relateBase current currentDeclIndex) s
  some (s.addRelations current.name (bases.map name))

/-- `addRelationShip`. -/
def addRelationShip (bases : List CXXRecordDecl) (current : CXXRecordDecl) (s : Collector) :
    Option Collector :=
  let (currentDeclIndex, s) := s.indexOf current.name
  relateBases bases current currentDeclIndex s

/-- `addRelationShip` for a class with all its bases, as every caller calls it. -/
def relateClass (decl : CXXRecordDecl) (s : Collector) : Option Collector :=
  addRelationShip (collectAllBases decl) decl s

/-- A cast expression: its kind and the classes its types point to. -/
inductive CastExpr
  | baseToDerived (location : Option Name) (derived based : Option CXXRecordDecl)
  | derivedToBase (derived : Option CXXRecordDecl)
  | bitCast (dest src : Option CXXRecordDecl)
  | other

/-- The pointee classes a bit cast is recorded for. -/
def isBitCastClass (decl : CXXRecordDecl) : Bool :=
  decl.info.isCompleteDefinition && decl.info.hasDefinition && !decl.info.isAnonymousStructOrUnion

/-- The classes a cast calls `addRelationShip` for, in order. -/
def CastExpr.related : CastExpr → List CXXRecordDecl
  | .baseToDerived _ derived _ | .derivedToBase derived =>
      derived.toList.flatMap fun decl => decl :: collectAllBases decl
  | .bitCast dest src => dest.toList.filter isBitCastClass ++ src.toList.filter isBitCastClass
  | .other => []

/-- The names a downcast records besides. -/
def recordDownCast (location : Option Name) (derived based : Option CXXRecordDecl)
    (s : Collector) : Collector :=
  let s := { s with downCastLoc := s.downCastLoc.insertMany location.toList }
  let s := { s with
    downCastVec := s.downCastVec.insertMany (derived.toList.map name)
    castClass := s.castClass.insertMany (derived.toList.map name) }
  { s with
    castClass := s.castClass.insertMany (based.toList.map name)
    basedCastClass := s.basedCastClass.insertMany (based.toList.map name) }

/-- `VisitCastExpr`. -/
def visitCastExpr (expr : CastExpr) (s : Collector) : Option Collector :=
  let s :=
    match expr with
    | .baseToDerived location derived based => recordDownCast location derived based s
    | _ => s
  expr.related.foldlM (fun s decl => relateClass decl s) s

/-! ## Runs -/

/-- A visit of the traversal. -/
inductive Visit
  | recordDecl (decl : CXXRecordDecl)
  | castExpr (expr : CastExpr)

def Visit.step : Visit → Collector → Option Collector
  | .recordDecl decl, s => visitCXXRecordDecl decl s
  | .castExpr expr, s => visitCastExpr expr s

/-- The traversal as a machine driven by visits. -/
def traversal : Machine Collector Visit where
  step := Visit.step

end Bitype.Tool
