import Bitype.Runtime.Refinement

/-!
# The cast check, called and inlined

`bitype_verify_cast` looks the source address up, compares the two addresses,
looks the derived address up and tests one byte of the table found there.  With
the inlining optimisation on, `typecastinginlineoptimization` replaces a call of
`__bitype_cast_verification` by a shorter sequence that looks only the derived
address up.

The first half states each sequence as the source has it and reduces both to the
lookups of the table (`verifyCast_eq`, `inlineVerification_eq`).  The second half
compares them: `inlineVerification_agrees_iff` says on exactly which states and
arguments the replacement reports what the call reports.
-/

namespace Bitype.Runtime

open Foundations

/-- `unsigned char`. -/
abbrev Byte := BitVec 8

/-! ## The two sequences -/

/-- `print_confusion_inline`: what it does to the state besides printing.  A
negative location is always printed and never remembered. -/
def printConfusionInline (debug : U32) (s : Shadow) : Shadow :=
  if debug.slt 0 then s
  else if s.debugArray debug.toNat then s
  else { s with debugArray := Function.update s.debugArray debug.toNat true }

/-- `__bitype_print_type_confusion`, the same body behind an exported name. -/
def bitypePrintTypeConfusion (debug : U32) (s : Shadow) : Shadow := printConfusionInline debug s

/-- What a check leaves: the state, the pointer returned and whether a type
confusion was reported. -/
structure CheckResult where
  state : Shadow
  returned : Word
  confusion : Bool

/-- `(tempChar ^ code) > tempChar` for the byte at `referenceAddr + i`. -/
def maskRejects (rodata : Word → Byte) (referenceAddr i : Word) (code : Byte) : Bool :=
  let tempChar := rodata (referenceAddr + i)
  tempChar < (tempChar ^^^ code)

/-- `(char *)thisPtr - ((char *)sourcePtr - OffsetTmp)`, with an offset of `-1`
read as zero. -/
def derivedOffset (sourcePtr thisPtr : Word) (offset : U32) : Word :=
  let offsetTmp : U32 := if offset = -1 then 0 else offset
  thisPtr - (sourcePtr - offsetTmp.signExtend 64)

variable (rodata : Word → Byte)

/-- The end of `bitype_verify_cast`, once `referenceAddr` is known. -/
def verifyCode (referenceAddr thisPtr : Word) (index : U32) (code : Byte) (debugIndex : U32)
    (s : Shadow) : CheckResult :=
  if maskRejects rodata referenceAddr (index.setWidth 64) code then
    ⟨printConfusionInline debugIndex s, 0, true⟩
  else ⟨s, thisPtr, false⟩

/-- `bitype_verify_cast`.  `rodata` is the memory the tables are emitted to. -/
def bitypeVerifyCast (sourcePtr thisPtr : Word) (index : U32) (code : Byte) (debugIndex : U32)
    (s : Shadow) : CheckResult :=
  if sourcePtr = 0 then ⟨s, 0, false⟩
  else
    let index := index + 2
    let level2 := s.firstLevel (idx1 sourcePtr)
    if level2 = 0 then ⟨s, sourcePtr, false⟩
    else
      let referenceAddr := s.word level2 (idx2Unsigned sourcePtr)
      if referenceAddr = 0 then ⟨s, sourcePtr, false⟩
      else if sourcePtr ≠ thisPtr then
        let offset := offsetField (s.word level2 (idx2Unsigned sourcePtr + 1))
        if (derivedOffset sourcePtr thisPtr offset).slt 0 then
          ⟨printConfusionInline debugIndex s, 0, true⟩
        else
          let level2 := s.firstLevel (idx1 thisPtr)
          if level2 = 0 then ⟨printConfusionInline debugIndex s, 0, true⟩
          else
            let referenceAddr := s.word level2 (idx2Unsigned thisPtr)
            if referenceAddr = 0 then ⟨printConfusionInline debugIndex s, 0, true⟩
            else verifyCode rodata referenceAddr thisPtr index code debugIndex s
      else verifyCode rodata referenceAddr thisPtr index code debugIndex s

/-- `__bitype_cast_verification` returns nothing: the state, and whether it
reported. -/
def bitypeCastVerification (sourcePtr thisPtr : Word) (index : U32) (code : Byte)
    (debugIndex : U32) (s : Shadow) : Shadow × Bool :=
  let result := bitypeVerifyCast rodata sourcePtr thisPtr index code debugIndex s
  (result.state, result.confusion)

/-- `__bitype_dynamic_cast_verification`. -/
def bitypeDynamicCastVerification (thisPtr : Word) (index : U32) (code : Byte) (s : Shadow) :
    CheckResult :=
  bitypeVerifyCast rodata thisPtr thisPtr index code (-1) s

/-- The instructions `typecastinginlineoptimization` puts in place of the call.
Indexing with the 32-bit sum extends its sign. -/
def inlineVerification (sourcePtr thisPtr : Word) (index : U32) (code : Byte) (debugIndex : U32)
    (s : Shadow) : Shadow × Bool :=
  if sourcePtr ≠ 0 then
    let firstLeAddr := s.firstLevel (idx1 thisPtr)
    if firstLeAddr ≠ 0 then
      let targetAddr := s.word firstLeAddr (idx2 thisPtr)
      if targetAddr ≠ 0 then
        if maskRejects rodata targetAddr ((index + 2).signExtend 64) code then
          (bitypePrintTypeConfusion debugIndex s, true)
        else (s, false)
      else (s, false)
    else (s, false)
  else (s, false)

/-! ## The checks as functions of the lookups -/

/-- How a check ends. -/
inductive Verdict
  | null
  | untraced
  | confusion
  | safe
deriving DecidableEq

/-- The table recorded in an entry, if it records one. -/
def Entry.table? (e : Option Entry) : Option Word :=
  e.bind fun e => if e.reference = 0 then none else some e.reference

/-- The offset recorded in an entry. -/
def Entry.offsetOf (e : Option Entry) : U32 := (e.getD Entry.zero).offset

/-- The verdict of the byte test. -/
def maskVerdict (referenceAddr : Word) (index : U32) (code : Byte) : Verdict :=
  if maskRejects rodata referenceAddr ((index + 2).setWidth 64) code then .confusion else .safe

/-- The verdict of `bitype_verify_cast`, from what the table holds. -/
def verdict (lookup : Word → Option Entry) (sourcePtr thisPtr : Word) (index : U32)
    (code : Byte) : Verdict :=
  if sourcePtr = 0 then .null
  else
    match Entry.table? (lookup sourcePtr) with
    | none => .untraced
    | some referenceAddr =>
        if sourcePtr = thisPtr then maskVerdict rodata referenceAddr index code
        else if (derivedOffset sourcePtr thisPtr
            (Entry.offsetOf (lookup sourcePtr))).slt 0 then .confusion
        else
          match Entry.table? (lookup thisPtr) with
          | none => .confusion
          | some referenceAddr => maskVerdict rodata referenceAddr index code

/-- What a verdict does and returns. -/
def Verdict.result (v : Verdict) (sourcePtr thisPtr : Word) (debugIndex : U32) (s : Shadow) :
    CheckResult where
  state := if v = .confusion then printConfusionInline debugIndex s else s
  returned :=
    match v with
    | .null | .confusion => 0
    | .untraced => sourcePtr
    | .safe => thisPtr
  confusion := decide (v = .confusion)

variable {rodata} {s : Shadow}

theorem table?_lookup (addr : Word) :
    Entry.table? (s.lookup addr) =
      if s.firstLevel (idx1 addr) = 0 then none
      else if s.word (s.firstLevel (idx1 addr)) (idx2 addr) = 0 then none
      else some (s.word (s.firstLevel (idx1 addr)) (idx2 addr)) := by
  unfold Shadow.lookup Entry.table?
  by_cases h : s.firstLevel (idx1 addr) = 0 <;> simp [h]

theorem offsetOf_lookup {addr : Word} (h : s.firstLevel (idx1 addr) ≠ 0) :
    Entry.offsetOf (s.lookup addr) =
      offsetField (s.word (s.firstLevel (idx1 addr)) (idx2 addr + 1)) := by
  unfold Shadow.lookup Entry.offsetOf
  simp [h]

theorem verifyCode_eq (referenceAddr sourcePtr thisPtr : Word) (index : U32) (code : Byte)
    (debugIndex : U32) :
    verifyCode rodata referenceAddr thisPtr (index + 2) code debugIndex s =
      (maskVerdict rodata referenceAddr index code).result sourcePtr thisPtr debugIndex s := by
  unfold verifyCode maskVerdict
  split <;> rfl

/-- **The called check depends on the table through its lookups only.** -/
theorem verifyCast_eq (sourcePtr thisPtr : Word) (index : U32) (code : Byte) (debugIndex : U32) :
    bitypeVerifyCast rodata sourcePtr thisPtr index code debugIndex s =
      (verdict rodata s.lookup sourcePtr thisPtr index code).result sourcePtr thisPtr debugIndex
        s := by
  unfold bitypeVerifyCast verdict
  simp only [idx2Unsigned_eq, verifyCode_eq _ sourcePtr]
  split
  · rfl
  rw [table?_lookup sourcePtr, table?_lookup thisPtr]
  -- a granule without a table has no second level to read
  by_cases hsource : s.firstLevel (idx1 sourcePtr) = 0
  · rw [if_pos hsource, if_pos hsource]
    rfl
  rw [if_neg hsource, if_neg hsource, offsetOf_lookup hsource]
  split
  · rfl
  by_cases hsame : sourcePtr = thisPtr
  · simp only [hsame, ne_eq, not_true_eq_false, if_false, if_true]
  simp only [hsame, ne_eq, not_false_eq_true, if_true, if_false]
  split
  · rfl
  split
  · rfl
  split <;> rfl

/-- The condition under which the replacement reports: it looks only the derived
address up. -/
def InlineReports (rodata : Word → Byte) (lookup : Word → Option Entry)
    (sourcePtr thisPtr : Word) (index : U32) (code : Byte) : Prop :=
  sourcePtr ≠ 0 ∧ ∃ table, Entry.table? (lookup thisPtr) = some table ∧
    maskRejects rodata table ((index + 2).signExtend 64) code

open Classical in
/-- **The inlined check depends on the table through one lookup.** -/
theorem inlineVerification_eq (sourcePtr thisPtr : Word) (index : U32) (code : Byte)
    (debugIndex : U32) :
    inlineVerification rodata sourcePtr thisPtr index code debugIndex s =
      if InlineReports rodata s.lookup sourcePtr thisPtr index code then
        (printConfusionInline debugIndex s, true)
      else (s, false) := by
  unfold inlineVerification bitypePrintTypeConfusion InlineReports
  rw [table?_lookup]
  by_cases hnull : sourcePtr = 0
  · simp [hnull]
  rw [if_pos hnull]
  by_cases hfirst : s.firstLevel (idx1 thisPtr) = 0
  · simp [hfirst]
  by_cases hword : s.word (s.firstLevel (idx1 thisPtr)) (idx2 thisPtr) = 0
  · simp [hfirst, hword]
  · simp only [hfirst, hword, hnull, ne_eq, not_false_eq_true, if_true, if_false, true_and,
      Option.some.injEq, exists_eq_left']

/-! ## Comparison -/

section Comparison

variable (rodata) (sourcePtr thisPtr : Word) (index : U32) (code : Byte) (s : Shadow)

/-- The byte test of the call, whose index is extended with zeros. -/
def callRejects (table : Word) : Prop := maskRejects rodata table ((index + 2).setWidth 64) code

/-- The byte test of the replacement, whose index is extended by its sign. -/
def inlineRejects (table : Word) : Prop := maskRejects rodata table ((index + 2).signExtend 64) code

/-- The states and arguments on which the replacement agrees with the call, by
what the table holds for the two addresses. -/
inductive ChecksAgree : Prop
  /-- Nothing is checked. -/
  | null (hnull : sourcePtr = 0)
  /-- The call is silent, and so is the replacement. -/
  | untraced (hsource : Entry.table? (s.lookup sourcePtr) = none)
      (hthis : ∀ table, Entry.table? (s.lookup thisPtr) = some table →
        ¬ inlineRejects rodata index code table)
  /-- Both look the same address up. -/
  | same (hsame : sourcePtr = thisPtr)
      (hindex : ∀ table, Entry.table? (s.lookup thisPtr) = some table →
        (inlineRejects rodata index code table ↔ callRejects rodata index code table))
  /-- The derived object starts below the source object: the call reports. -/
  | below (hne : sourcePtr ≠ thisPtr) {source table : Word}
      (hsource : Entry.table? (s.lookup sourcePtr) = some source)
      (hoffset : (derivedOffset sourcePtr thisPtr (Entry.offsetOf (s.lookup sourcePtr))).slt 0)
      (hthis : Entry.table? (s.lookup thisPtr) = some table)
      (hrejects : inlineRejects rodata index code table)
  /-- Both test the table of the derived address. -/
  | derived (hne : sourcePtr ≠ thisPtr) {source table : Word}
      (hsource : Entry.table? (s.lookup sourcePtr) = some source)
      (hoffset : ¬ (derivedOffset sourcePtr thisPtr (Entry.offsetOf (s.lookup sourcePtr))).slt 0)
      (hthis : Entry.table? (s.lookup thisPtr) = some table)
      (hindex : inlineRejects rodata index code table ↔ callRejects rodata index code table)

end Comparison

theorem maskVerdict_eq_confusion (table : Word) (index : U32) (code : Byte) :
    maskVerdict rodata table index code = .confusion ↔ callRejects rodata index code table := by
  unfold maskVerdict callRejects
  split <;> simp_all

/-! What agreement asks, by the way the call takes. -/

section Ways

variable {sourcePtr thisPtr : Word} {index : U32} {code : Byte}

theorem ChecksAgree.untraced_iff (hnull : sourcePtr ≠ 0)
    (hsource : Entry.table? (s.lookup sourcePtr) = none) :
    ChecksAgree rodata sourcePtr thisPtr index code s ↔
      ∀ table, Entry.table? (s.lookup thisPtr) = some table →
        ¬ inlineRejects rodata index code table := by
  constructor
  · intro h table htable
    cases h with
    | null h => exact absurd h hnull
    | untraced _ h => exact h table htable
    | same h _ =>
        rw [← h, hsource] at htable
        cases htable
    | below _ h _ _ _ => rw [hsource] at h; cases h
    | derived _ h _ _ _ => rw [hsource] at h; cases h
  · exact .untraced hsource

theorem ChecksAgree.same_iff (hnull : sourcePtr ≠ 0) {source : Word}
    (hsource : Entry.table? (s.lookup sourcePtr) = some source) (hsame : sourcePtr = thisPtr) :
    ChecksAgree rodata sourcePtr thisPtr index code s ↔
      (inlineRejects rodata index code source ↔ callRejects rodata index code source) := by
  have hthis := hsame ▸ hsource
  constructor
  · intro h
    cases h with
    | null h => exact absurd h hnull
    | untraced h _ => rw [hsource] at h; cases h
    | same _ h => exact h source hthis
    | below h _ _ _ _ => exact absurd hsame h
    | derived h _ _ _ _ => exact absurd hsame h
  · intro h
    refine .same hsame fun table htable => ?_
    obtain rfl := Option.some.inj (hthis.symm.trans htable)
    exact h

theorem ChecksAgree.below_iff (hnull : sourcePtr ≠ 0) {source : Word}
    (hsource : Entry.table? (s.lookup sourcePtr) = some source) (hne : sourcePtr ≠ thisPtr)
    (hoffset : (derivedOffset sourcePtr thisPtr (Entry.offsetOf (s.lookup sourcePtr))).slt 0) :
    ChecksAgree rodata sourcePtr thisPtr index code s ↔
      ∃ table, Entry.table? (s.lookup thisPtr) = some table ∧
        inlineRejects rodata index code table := by
  constructor
  · intro h
    cases h with
    | null h => exact absurd h hnull
    | untraced h _ => rw [hsource] at h; cases h
    | same h _ => exact absurd h hne
    | below _ _ _ hthis hrejects => exact ⟨_, hthis, hrejects⟩
    | derived _ _ h _ _ => exact absurd hoffset h
  · rintro ⟨table, hthis, hrejects⟩
    exact .below hne hsource hoffset hthis hrejects

theorem ChecksAgree.derived_iff (hnull : sourcePtr ≠ 0) {source : Word}
    (hsource : Entry.table? (s.lookup sourcePtr) = some source) (hne : sourcePtr ≠ thisPtr)
    (hoffset : ¬ (derivedOffset sourcePtr thisPtr (Entry.offsetOf (s.lookup sourcePtr))).slt 0) :
    ChecksAgree rodata sourcePtr thisPtr index code s ↔
      ∃ table, Entry.table? (s.lookup thisPtr) = some table ∧
        (inlineRejects rodata index code table ↔ callRejects rodata index code table) := by
  constructor
  · intro h
    cases h with
    | null h => exact absurd h hnull
    | untraced h _ => rw [hsource] at h; cases h
    | same h _ => exact absurd h hne
    | below _ _ h _ _ => exact absurd h hoffset
    | derived _ _ _ hthis hindex => exact ⟨_, hthis, hindex⟩
  · rintro ⟨table, hthis, hindex⟩
    exact .derived hne hsource hoffset hthis hindex

end Ways

/-- Reports agree exactly on the states and arguments of `ChecksAgree`. -/
theorem reports_agree_iff (sourcePtr thisPtr : Word) (index : U32) (code : Byte) :
    (InlineReports rodata s.lookup sourcePtr thisPtr index code ↔
      verdict rodata s.lookup sourcePtr thisPtr index code = .confusion) ↔
    ChecksAgree rodata sourcePtr thisPtr index code s := by
  change ((_ ∧ ∃ table, _ ∧ inlineRejects rodata index code table) ↔ _) ↔ _
  unfold verdict
  by_cases hnull : sourcePtr = 0
  · simp only [hnull, ne_eq, not_true_eq_false, false_and, if_true, reduceCtorEq, true_iff]
    exact .null rfl
  rw [if_neg hnull]
  cases hsource : Entry.table? (s.lookup sourcePtr) with
  | none =>
      rw [ChecksAgree.untraced_iff hnull hsource]
      simp only [ne_eq, hnull, not_false_eq_true, true_and, reduceCtorEq, iff_false, not_exists,
        not_and]
  | some source =>
      simp only [ne_eq, hnull, not_false_eq_true, true_and]
      -- the inlined check never compares the two addresses
      by_cases hsame : sourcePtr = thisPtr
      · rw [if_pos hsame, maskVerdict_eq_confusion, ChecksAgree.same_iff hnull hsource hsame]
        simp only [← hsame, hsource, Option.some.injEq, exists_eq_left']
      rw [if_neg hsame]
      by_cases hoffset : (derivedOffset sourcePtr thisPtr
          (Entry.offsetOf (s.lookup sourcePtr))).slt 0
      · rw [ChecksAgree.below_iff hnull hsource hsame hoffset]
        simp only [if_pos hoffset, iff_true]
      rw [if_neg hoffset, ChecksAgree.derived_iff hnull hsource hsame hoffset]
      cases hthis : Entry.table? (s.lookup thisPtr) with
      | none => simp only [reduceCtorEq, false_and, exists_false, false_iff, not_true_eq_false]
      | some table => simp only [Option.some.injEq, exists_eq_left', maskVerdict_eq_confusion]

/-- The replacement reports what the call reports and leaves the same `debugArray`. -/
def SameReport (sourcePtr thisPtr : Word) (index : U32) (code : Byte) (debugIndex : U32)
    (rodata : Word → Byte) (s : Shadow) : Prop :=
  let inline := inlineVerification rodata sourcePtr thisPtr index code debugIndex s
  let call := bitypeCastVerification rodata sourcePtr thisPtr index code debugIndex s
  inline.2 = call.2 ∧ inline.1.debugArray = call.1.debugArray

/-- **When the inlined check agrees with the call**: in every state and for all
arguments, exactly if `ChecksAgree` holds. -/
theorem inlineVerification_agrees_iff (sourcePtr thisPtr : Word) (index : U32) (code : Byte)
    (debugIndex : U32) (rodata : Word → Byte) (s : Shadow) :
    SameReport sourcePtr thisPtr index code debugIndex rodata s ↔
      ChecksAgree rodata sourcePtr thisPtr index code s := by
  rw [← reports_agree_iff, SameReport, inlineVerification_eq, bitypeCastVerification, verifyCast_eq]
  simp only [Verdict.result]
  by_cases hinline : InlineReports rodata s.lookup sourcePtr thisPtr index code <;>
    by_cases hcall : verdict rodata s.lookup sourcePtr thisPtr index code = .confusion <;>
    simp [hinline, hcall]

/-- One object traced at 16, nothing at 24. -/
def onlySource : Shadow :=
  bitypeDirectUpdateObjTrace spacedMmap 16 64 0 (bitypeInitialization spacedMmap fun _ => 0)

theorem onlySource_reachable : Reachable spacedMmap onlySource :=
  ⟨fun _ => 0, [.directUpdateObjTrace 16 64 0], rfl⟩

theorem lookup_onlySource (addr : Word) :
    onlySource.lookup addr = emptyMap.record (granule 16) (traced 64 0) (granule addr) := by
  have hspec := directUpdateObjTrace_spec (layout_init fun _ => 0) spacedMmap_fresh 16 64 0
  rw [lookup_eq_view, onlySource, hspec.2, view_init]

/-- A cast from the traced address to the untraced one: the call reports, the
replacement does not. -/
theorem inlineVerification_misses :
    ¬ ∀ (mmap : ℕ → ℕ) (rodata : Word → Byte) (s : Shadow), FreshMmap mmap → Reachable mmap s →
      ∀ sourcePtr thisPtr index code debugIndex,
        SameReport sourcePtr thisPtr index code debugIndex rodata s := by
  intro h
  have hreport := (h spacedMmap (fun _ => 0) onlySource spacedMmap_fresh onlySource_reachable
    16 24 0 1 0).1
  have hsource : onlySource.lookup 16 = some ⟨64, 0, 0⟩ := (lookup_onlySource 16).trans (by decide)
  have hthis : onlySource.lookup 24 = some ⟨0, 0, 0⟩ := (lookup_onlySource 24).trans (by decide)
  have hsilent : ¬ InlineReports (fun _ => 0) onlySource.lookup 16 24 0 1 := by
    rintro ⟨_, table, htable, _⟩
    rw [hthis] at htable
    cases htable
  have hcall : verdict (fun _ => 0) onlySource.lookup 16 24 0 1 = .confusion := by
    unfold verdict
    rw [hsource, hthis]
    decide
  rw [inlineVerification_eq, bitypeCastVerification, verifyCast_eq, if_neg hsilent] at hreport
  simp only [Verdict.result, hcall, decide_true] at hreport
  cases hreport

end Bitype.Runtime
