import Bitype.Pass.CompileTime
import Bitype.Pass.DebugIndex
import Bitype.Pass.DynamicCast
import Bitype.Pass.ProcessChecks
import Bitype.Tool.CastTargets

/-!
# Cast expressions

A static downcast is compiled in two places, one for pointers and one for references.  Both
compute the derived address and then emit a check, if the class has a code; the one for
pointers asserts that it has.

A pointer cast that the tool has visited always has its check.  The type of a reference cast
is no pointer, so the tool does not record its target: it is checked if the class has a code for
another reason (`static_cast_checked_iff`).

In a tidy run of a program a static cast leads to the derived object whatever its check says, and
a legal one is reported just if it is checked and out of reach (`static_cast_reports_iff`).  The
call that replaces a dynamic cast is a check of one address, so it does what the cast does just
if that keeps its pointer (`process_dynamicCast_iff`).
-/

namespace Bitype.Pass

open Bitype.Foundations Bitype.Runtime Bitype.Tool

/-! ## `CK_BaseToDerived` -/

/-- A cast of this kind: the class it leads to and what the front end knows of it. -/
structure StaticCast where
  derived : CXXRecordDecl
  nonVirtualOffset : ℕ
  isReference : Bool
  shouldNullCheck : Bool
  loc : Option PresumedLoc

/-- The operands of a call of `__bitype_cast_verification` but the addresses. -/
structure CheckArgs where
  index : U32
  code : Byte
  debug : U32

/-- `GetAddressOfDerivedClass`. -/
def getAddressOfDerivedClass (nonVirtualOffset : ℕ) (nullCheckValue : Bool) (baseAddr : Word) :
    Word :=
  if nonVirtualOffset = 0 then baseAddr
  else if nullCheckValue = true ∧ baseAddr = 0 then 0
  else baseAddr - BitVec.ofNat 64 nonVirtualOffset

/-- What a cast leaves behind. -/
structure CastResult where
  value : Word
  shadow : Shadow
  reported : Bool

namespace StaticCast

/-- What the tool sees of the cast. -/
def visit (c : StaticCast) (based : Option CXXRecordDecl) : Visit :=
  .castExpr (.baseToDerived (c.loc.map PresumedLoc.tempLoc)
    (if c.isReference = true then none else some c.derived) based)

/-- The check that is emitted, if any, in a function that the sanitizer is on in.  There is no
code if the assertion fails. -/
def emitCheck (relationSet tempDebug : Std.TreeMap Name ℕ) (c : StaticCast) :
    Option (Option CheckArgs) :=
  if isBitCastClass c.derived = true then
    match relationSet[c.derived.name]? with
    | some codeN =>
        let debug := debugValue ((c.loc.map (debugIndex tempDebug)).getD (-1))
        some (some ⟨byteIndex (BitVec.ofNat 32 codeN), safeCode (BitVec.ofNat 32 codeN), debug⟩)
    | none => if c.isReference = true then some none else none
  else some none

/-- What the emitted code does. -/
def execute (rodata : Word → Byte) (check : Option CheckArgs) (c : StaticCast) (base : Word)
    (s : Shadow) : CastResult :=
  let derived :=
    getAddressOfDerivedClass c.nonVirtualOffset (!c.isReference && c.shouldNullCheck) base
  match check with
  | none => ⟨derived, s, false⟩
  | some args =>
      let address := if c.nonVirtualOffset = 0 then base else derived
      let result := bitypeCastVerification rodata base address args.index args.code args.debug s
      ⟨derived, result.1, result.2⟩

variable {rodata : Word → Byte} {relationSet tempDebug : Std.TreeMap Name ℕ} {c : StaticCast}
  {check : Option CheckArgs} {base : Word} {s : Shadow}

/-- The check does not change where the cast leads. -/
theorem execute_value : (c.execute rodata check base s).value =
    getAddressOfDerivedClass c.nonVirtualOffset (!c.isReference && c.shouldNullCheck) base := by
  cases check <;> rfl

/-- A cast has a check just if its class has a code. -/
theorem emitCheck_ne_none (hclass : isBitCastClass c.derived = true)
    (hemit : c.emitCheck relationSet tempDebug = some check) :
    check ≠ none ↔ relationSet[c.derived.name]? ≠ none := by
  rw [emitCheck, if_pos hclass] at hemit
  cases hcode : relationSet[c.derived.name]? with
  | none =>
      rw [hcode] at hemit
      dsimp only at hemit
      split at hemit
      · simp [← Option.some.inj hemit]
      · cases hemit
  | some codeN =>
      rw [hcode] at hemit
      simp [← Option.some.inj hemit]

/-- Where a check is emitted, the cast reports what the runtime does with the code. -/
theorem execute_reported {args : CheckArgs}
    (hemit : c.emitCheck relationSet tempDebug = some (some args)) :
    ∃ codeN, relationSet[c.derived.name]? = some codeN ∧
      ∀ base s, (c.execute rodata (some args) base s).reported = true ↔
        Reports rodata s base (c.execute rodata (some args) base s).value codeN args.debug := by
  unfold emitCheck at hemit
  split at hemit
  · cases hcode : relationSet[c.derived.name]? with
    | none =>
        rw [hcode] at hemit
        dsimp only at hemit
        split at hemit <;> cases hemit
    | some codeN =>
        rw [hcode] at hemit
        obtain rfl := Option.some.inj (Option.some.inj hemit)
        refine ⟨codeN, rfl, fun base s => ?_⟩
        -- without an offset both addresses are the base
        by_cases hzero : c.nonVirtualOffset = 0
        · simp only [execute, Reports, getAddressOfDerivedClass, if_pos hzero]
        · simp only [execute, Reports, if_neg hzero]
  · cases hemit

end StaticCast

/-! ## Which casts are checked -/

theorem codeMap_ne_none (R : ToolRun) (name : Name) :
    (filesOf R).bitypeCodeMap[name]? ≠ none ↔ ∃ code, (name, code) ∈ R.output.codingNum := by
  have hkeys : ((filesOf R).bitypeCodeMap[name]?).isSome = true ↔
      name ∈ R.output.codingNum.map Prod.fst := isSome_firstWins
  rw [← Option.isSome_iff_ne_none, hkeys]
  simp

/-- **Which static downcasts are checked.**  With the files of the tool all casts are compiled
that the tool has visited, those of pointers with a check; and one of either kind has a check just
if a chain of pairs of one size joins its class to the target of a pointer cast. -/
theorem static_cast_checked_iff (R : ToolRun) (hnamed : ∀ v ∈ R.visits, v.Named) (c : StaticCast)
    {based : Option CXXRecordDecl} (hvisit : c.visit based ∈ R.visits)
    (hclass : isBitCastClass c.derived = true) (tempDebug : Std.TreeMap Name ℕ) :
    ∃ check, c.emitCheck (filesOf R).bitypeCodeMap tempDebug = some check ∧
      (c.isReference = false → check ≠ none) ∧
      (check ≠ none ↔ ∃ target, DownCastTarget R.visits target ∧
        Relation.ReflTransGen (SizeLink R.visits) c.derived.name target) := by
  have hcoded : (filesOf R).bitypeCodeMap[c.derived.name]? ≠ none ↔
      ∃ target, DownCastTarget R.visits target ∧
        Relation.ReflTransGen (SizeLink R.visits) c.derived.name target :=
    (codeMap_ne_none R c.derived.name).trans (R.coded_iff_linked hnamed c.derived.name)
  -- the target of a pointer cast is a target itself
  have hpointer : c.isReference = false →
      (filesOf R).bitypeCodeMap[c.derived.name]? ≠ none := by
    intro hreference
    refine hcoded.mpr ⟨c.derived.name, ⟨_, hvisit, ?_⟩, .refl⟩
    simp [StaticCast.visit, Visit.targets, hreference]
  obtain ⟨check, hemit⟩ : ∃ check, c.emitCheck (filesOf R).bitypeCodeMap tempDebug = some check := by
    rw [StaticCast.emitCheck, if_pos hclass]
    cases hcode : (filesOf R).bitypeCodeMap[c.derived.name]? with
    | some codeN => exact ⟨_, rfl⟩
    | none =>
        have hreference : c.isReference = true := by
          by_contra hno
          exact hpointer (Bool.not_eq_true _ ▸ hno) hcode
        exact ⟨none, if_pos hreference⟩
  have hchecked := StaticCast.emitCheck_ne_none hclass hemit
  exact ⟨check, hemit, fun hreference => hchecked.mpr (hpointer hreference),
    hchecked.trans hcoded⟩

/-- The cast of a pointer to `D`. -/
def sampleCast : StaticCast := ⟨sampleDerived, 0, false, true, none⟩

theorem static_cast_checked_iff_sample : ∃ (R : ToolRun) (check : Option CheckArgs),
    sampleCast.emitCheck (filesOf R).bitypeCodeMap ∅ = some check ∧ check ≠ none := by
  obtain ⟨R, hvisits⟩ := exists_downCastRun
  have hvisit : sampleCast.visit none ∈ R.visits := by
    rw [hvisits]
    exact List.mem_cons_self
  obtain ⟨check, hemit, hpointer, -⟩ := static_cast_checked_iff R (hvisits ▸ downCastVisits_named)
    sampleCast hvisit (by decide) ∅
  exact ⟨R, check, hemit, hpointer rfl⟩

/-! ## Casts in a running program -/

section Running

variable {mmap : ℕ → ℕ} {rodata : Word → Byte} {X : Executable} {p : Process} {site : Site}
  {x j oD oB d : ℕ}

/-- The table of a granule of a live object. -/
theorem ProcessInvariant.table_element (inv : ProcessInvariant mmap X p)
    (hplace : ∀ name, X.place name ≠ 0) (h : X.ElementAt p site x j) {o : ℕ} {types : Finset ℕ}
    (htypes : GranuleClasses X.M X.files site.allocType x o types) :
    Entry.table? (p.shadow.lookup
        (site.element (X.M.struct x).allocSize j + BitVec.ofNat 64 o)) =
      some (X.place (X.M.setName types)) := by
  have hseen := (inv.seen_element hplace h (o / 8)).trans (seenAfter_of_classes htypes)
  rw [lookup_offset p.shadow h.object.aligned]
  exact congrArg Prod.fst hseen

/-- From the address of the base back to that of the derived object. -/
theorem getAddressOfDerivedClass_eq {objAddr : Word} (hle : oD ≤ oB)
    (hnonnull : objAddr + BitVec.ofNat 64 oB ≠ 0) (nullCheckValue : Bool) :
    getAddressOfDerivedClass (oB - oD) nullCheckValue (objAddr + BitVec.ofNat 64 oB) =
      objAddr + BitVec.ofNat 64 oD := by
  unfold getAddressOfDerivedClass
  split
  · next hzero => rw [Nat.le_antisymm (Nat.sub_eq_zero_iff_le.mp hzero) hle]
  · have hsum : BitVec.ofNat 64 oB = BitVec.ofNat 64 oD + BitVec.ofNat 64 (oB - oD) := by
      rw [← BitVec.ofNat_add, Nat.add_sub_cancel' hle]
    rw [if_neg fun h => hnonnull h.2]
    calc objAddr + BitVec.ofNat 64 oB - BitVec.ofNat 64 (oB - oD)
      _ = objAddr + BitVec.ofNat 64 oD + BitVec.ofNat 64 (oB - oD)
            - BitVec.ofNat 64 (oB - oD) := by rw [hsum, ← BitVec.add_assoc]
      _ = objAddr + BitVec.ofNat 64 oD := BitVec.add_sub_cancel _ _

/-- **What a legal static downcast does in a running program.**  In every state of every tidy run
its value is the address of the derived object, and it is reported just if it has a check and is
out of reach. -/
theorem static_cast_reports_iff {R : ToolRun} (fresh : FreshMmap mmap)
    (hplace : ∀ name, X.place name ≠ 0) (hreach : TidyReachable mmap rodata X p)
    (hfiles : X.files = filesOf R) (hrefine : R.Refining) (hfamily : OneFamily R X.M x)
    (h : X.ElementAt p site x j) (hlegal : LegalDowncast X.M X.files x oD oB d)
    (hbase : ∃ b, X.M.Contains (.struct x) oB b)
    (htables : GranuleTabled X.M X.files rodata X.place site.allocType x oD) (c : StaticCast)
    (hname : c.derived.name = X.M.typeName d) (hoffset : c.nonVirtualOffset = oB - oD)
    {tempDebug : Std.TreeMap Name ℕ} {check : Option CheckArgs}
    (hemit : c.emitCheck X.files.bitypeCodeMap tempDebug = some check) :
    (c.execute rodata check (site.element (X.M.struct x).allocSize j + BitVec.ofNat 64 oB)
        p.shadow).value = site.element (X.M.struct x).allocSize j + BitVec.ofNat 64 oD ∧
      ((c.execute rodata check (site.element (X.M.struct x).allocSize j + BitVec.ofNat 64 oB)
        p.shadow).reported = true ↔ check ≠ none ∧ ¬ WithinReach oD oB) := by
  have hsource : site.element (X.M.struct x).allocSize j + BitVec.ofNat 64 oB ≠ 0 :=
    address_ne_zero h.object.fits hlegal.lt_size.le h.object.nonnull
  have hvalue : (c.execute rodata check
      (site.element (X.M.struct x).allocSize j + BitVec.ofNat 64 oB) p.shadow).value =
        site.element (X.M.struct x).allocSize j + BitVec.ofNat 64 oD := by
    rw [StaticCast.execute_value, hoffset, getAddressOfDerivedClass_eq hlegal.le hsource]
  refine ⟨hvalue, ?_⟩
  cases check with
  | none => simp [StaticCast.execute]
  | some args =>
      obtain ⟨codeN, hcode, hreported⟩ := @StaticCast.execute_reported rodata _ _ _ _ hemit
      obtain ⟨b, hb⟩ := hbase
      obtain ⟨types, htypes⟩ := h.classes hlegal.regular hb
      have htable := (hreach.invariant fresh).table_element hplace h htypes
      rw [hname] at hcode
      rw [hreported, hvalue, ← not_iff_not, not_reports_iff_passes hsource htable,
        hreach.legal_passes_iff fresh hplace hfiles hrefine hfamily h hlegal ⟨b, hb⟩ hcode htables]
      simp

variable {H : Hierarchy Name} {source : Name × ℕ} {target : Name} {code : ℕ}

/-- **What replaces a dynamic cast in a running program.**  In every state of every tidy run, and
for every source subobject of a live object, it does what the cast does exactly as `CastKept` says;
where the tables were made for the granule, exactly if the target starts where the source does. -/
theorem process_dynamicCast_iff {R : ToolRun} (fresh : FreshMmap mmap)
    (hplace : ∀ name, X.place name ≠ 0) (hreach : TidyReachable mmap rodata X p)
    (hfiles : X.files = filesOf R) (h : X.ElementAt p site x j)
    (hregular : X.M.Regular X.files (.struct x)) (hsource : SourceIn H X.M x source)
    (hbase : ∃ b, X.M.Contains (.struct x) source.2 b)
    (hcode : X.files.bitypeCodeMap[target]? = some code) (isReferenceType : Bool) :
    ((∀ types, GranuleClasses X.M X.files site.allocType x source.2 types →
        ∃ origin, Tabled X.M X.files rodata X.place types origin code) →
      (EndsAsCast rodata X.files.bitypeCodeMap (site.element (X.M.struct x).allocSize j) source
          target isReferenceType (H.dynamicCast (X.M.typeName x) source target) p.shadow ↔
        CastKept X.M X.files rodata X.place site.allocType x source.2 code
          (H.dynamicCast (X.M.typeName x) source target))) ∧
    (R.Refining → OneFamily R X.M x →
      GranuleTabled X.M X.files rodata X.place site.allocType x source.2 →
      ∀ offset d, H.dynamicCast (X.M.typeName x) source target = some offset →
        X.M.Contains (.struct x) offset d → X.M.typeName d = target →
        (EndsAsCast rodata X.files.bitypeCodeMap (site.element (X.M.struct x).allocSize j) source
          target isReferenceType (some offset) p.shadow ↔ offset = source.2)) := by
  obtain ⟨b, hb⟩ := hbase
  have hclasses : ∀ o, o = source.2 ∨ o = source.2 →
      ∃ types, GranuleClasses X.M X.files site.allocType x o types := by
    intro o ho
    rw [or_self] at ho
    exact ho ▸ h.classes hregular hb
  have hends := endsAsCast_iff rodata p.shadow hcode h.object hsource isReferenceType
  refine ⟨fun htables => ?_, fun hrefine hfamily htables offset d hcast hd hname => ?_⟩
  · have hpasses : Passes rodata p.shadow
        (site.element (X.M.struct x).allocSize j + BitVec.ofNat 64 source.2)
        (site.element (X.M.struct x).allocSize j + BitVec.ofNat 64 source.2) code (-1) ↔
        DowncastPasses X.M X.files rodata X.place site.allocType x source.2 source.2 code :=
      (hreach.invariant fresh).passes_iff hplace h le_rfl hsource.takesSpace hclasses code (-1)
    have hself := hpasses.trans (downcastPasses_self (hfiles ▸ fromTool_filesOf R) hcode htables)
    rw [hends]
    cases H.dynamicCast (X.M.typeName x) source target with
    | some offset => exact and_congr_right' hself
    | none => exact not_congr hself
  · rw [hcast] at hends
    rw [hends]
    refine ⟨fun hkept => hkept.1, fun hoffset => ⟨hoffset, ?_⟩⟩
    rw [hoffset] at hd
    -- a cast that keeps its pointer is the downcast of a `D` to itself
    have hlegal : LegalDowncast X.M X.files x source.2 source.2 d := by
      have hpositive := (hregular _ _ hd).1.positive
      exact ⟨hregular, hd, le_rfl, by omega⟩
    rw [← hname] at hcode
    exact (hreach.legal_passes_iff fresh hplace hfiles hrefine hfamily h hlegal ⟨b, hb⟩ hcode htables
      (-1)).mpr (.inl rfl)

end Running

/-- The cast of a `D` from its base `B` is reported, as it is out of reach. -/
theorem static_cast_reports_iff_sample : ∃ (R : ToolRun) (p : Process) (check : Option CheckArgs),
    TidyReachable spacedMmap (placeTable 4096 pairTable) (pairProgram R) p ∧
      (StaticCast.execute (placeTable 4096 pairTable) check ⟨pairClass, 4, false, true, none⟩
        ((heapSite pairModule false false lowBlock).element 8 0 + BitVec.ofNat 64 4)
        p.shadow).reported = true := by
  obtain ⟨R, hR⟩ := exists_pairRun
  obtain ⟨s, hreach⟩ := exists_lowBlock (placeTable 4096 pairTable) R spacedMmap_fresh
  have hname : pairClass.name = pairModule.typeName 1 := pairModule_typeName.1.symm
  have hclass : isBitCastClass pairClass = true := by decide
  have hemit : StaticCast.emitCheck (filesOf R).bitypeCodeMap ∅ ⟨pairClass, 4, false, true, none⟩ =
      some (some ⟨byteIndex 1, safeCode 1, debugValue (-1)⟩) := by
    rw [StaticCast.emitCheck, if_pos hclass, hname, hR.code_D]
    rfl
  refine ⟨R, _, _, hreach, (static_cast_reports_iff spacedMmap_fresh
    (fun _ => show (4096 : Word) ≠ 0 by decide) hreach rfl hR.refining hR.oneFamily
    (lowBlock_element R s) hR.legal pairModule_base (lowBlock_tabled hR) _ hname rfl hemit).2.mpr ⟨by simp, ?_⟩⟩
  simp [WithinReach]

/-- The bases of `D`, in four bytes each. -/
def pairHierarchy : Hierarchy Name where
  bases name := if name = ['D'] then [⟨['A'], some 0, true⟩, ⟨['B'], some 4, true⟩] else []
  virtualOffset _ _ := 0

theorem pairHierarchy_subobject {t : Name × ℕ} (h : pairHierarchy.Subobject ['D'] t) :
    t = (['D'], 0) ∨ t = (['A'], 0) ∨ t = (['B'], 4) := by
  induction h with
  | refl => exact .inl rfl
  | @tail s t _ hstep ih =>
      obtain ⟨spec, hspec, hclass, hoffset⟩ := hstep
      rcases ih with rfl | rfl | rfl
      · have hmem : spec ∈ [(⟨['A'], some 0, true⟩ : BaseSpecifier Name), ⟨['B'], some 4, true⟩] :=
          hspec
        simp only [List.mem_cons, List.not_mem_nil, or_false] at hmem
        rcases hmem with rfl | rfl
        · exact .inr (.inl (Prod.ext hclass hoffset))
        · exact .inr (.inr (Prod.ext hclass hoffset))
      · cases hspec
      · cases hspec

theorem pairHierarchy_base : pairHierarchy.DirectBase ['D'] (['D'], 0) (['A'], 0) :=
  ⟨⟨['A'], some 0, true⟩, List.mem_cons_self, rfl, rfl⟩

/-- The cast from the first base to `D` keeps the pointer. -/
theorem pairHierarchy_cast : pairHierarchy.dynamicCast ['D'] (['A'], 0) ['D'] = some 0 := by
  refine Hierarchy.dynamicCast_down ⟨fun o => ⟨fun h => ?_, ?_⟩,
    .single ⟨⟨['A'], some 0, true⟩, List.mem_cons_self, rfl, rfl, rfl⟩⟩
  · rcases pairHierarchy_subobject h.1 with h | h | h
    · exact congrArg Prod.snd h
    · cases h
    · cases h
  · intro ho
    subst ho
    exact ⟨.refl, .single pairHierarchy_base⟩

theorem pairModule_source : SourceIn pairHierarchy pairModule 1 (['A'], 0) := by
  refine ⟨?_, by decide, fun t ht => ?_⟩
  · rw [pairModule_typeName.1]
    exact .single pairHierarchy_base
  · rw [pairModule_typeName.1] at ht
    rcases pairHierarchy_subobject ht with rfl | rfl | rfl
    · decide
    · decide
    · decide

/-- A cast of the block from its base `A`. -/
theorem process_dynamicCast_iff_sample : ∃ (R : ToolRun) (p : Process),
    TidyReachable spacedMmap (placeTable 4096 pairTable) (pairProgram R) p ∧
      EndsAsCast (placeTable 4096 pairTable) (filesOf R).bitypeCodeMap
        ((heapSite pairModule false false lowBlock).element 8 0) (['A'], 0) ['D'] false (some 0)
        p.shadow := by
  obtain ⟨R, hR⟩ := exists_pairRun
  obtain ⟨s, hreach⟩ := exists_lowBlock (placeTable 4096 pairTable) R spacedMmap_fresh
  have hcast : pairHierarchy.dynamicCast (pairModule.typeName 1) (['A'], 0) ['D'] = some 0 := by
    rw [pairModule_typeName.1]
    exact pairHierarchy_cast
  exact ⟨R, _, hreach, ((process_dynamicCast_iff spacedMmap_fresh
    (fun _ => show (4096 : Word) ≠ 0 by decide) hreach rfl (lowBlock_element R s) hR.legal.regular
    pairModule_source ⟨1, .self 1⟩ hR.twin_code false).2 hR.refining hR.oneFamily
    (lowBlock_tabled hR) 0 1 hcast (.self 1) pairModule_typeName.1).mpr rfl⟩

end Bitype.Pass
