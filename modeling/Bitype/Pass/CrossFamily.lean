import Bitype.Pass.Bounds

/-!
# Checks for a target of another family

Numbers start from one in every family, so the number of a cast's target says nothing
of its family.  `check_reports_iff` says what a check against the table of an object
then detects: it reports iff no class the table was made from has the target's number.
-/

namespace Bitype.Pass

open Bitype.Foundations Bitype.Runtime Bitype.Tool

section Check

variable {M : Module} {files : ClassFiles} {rodata : Word → Byte} {s : Shadow}
  {sourcePtr thisPtr address : Word}

/-- A class the table was made from has the number. -/
def Origin.Accepts (M : Module) (files : ClassFiles) (origin : Origin) (code : ℕ) : Prop :=
  ∃ name, origin.Numbers M files name ∧ files.bitypeCodeMap[name]? = some code

/-- The byte test, for the table of an origin and any number within the table. -/
theorem maskRejects_iff_not_accepts (hfiles : files.Numbered) {origin : Origin} {table : List Byte}
    (hemits : origin.Emits M files table) (hemitted : Emitted rodata address table) {code : ℕ}
    (hpos : 1 ≤ code) (hlt : code < 2 ^ 32) (hread : readOffset code < table.length) :
    maskRejects rodata address ((byteIndex (BitVec.ofNat 32 code) + 2).setWidth 64)
        (safeCode (BitVec.ofNat 32 code)) = true ↔
      ¬ origin.Accepts M files code := by
  obtain ⟨firstByte, secondByte, safeNum, familySize, rfl, hsafe, -⟩ := emits_spec hemits
  have hval : (BitVec.ofNat 32 code).toNat = code := by
    rw [BitVec.toNat_ofNat]
    exact Nat.mod_eq_of_lt hlt
  -- numbers start from one, and the table has a bit for each number up to its size
  have hcodes : ∀ c ∈ safeNum, 1 ≤ c := by
    intro c hc
    obtain ⟨other, code', -, hother, rfl⟩ := (hsafe c).mp hc
    exact_mod_cast hfiles.code_pos other code' hother
  have hfits : code ≤ 8 * arraySize familySize := by
    rw [readOffset_eq hpos hlt, length_maskTable] at hread
    omega
  have hpos' : 1 ≤ (BitVec.ofNat 32 code).toNat := by rwa [hval]
  have hfits' : (BitVec.ofNat 32 code).toNat ≤ 8 * arraySize familySize := by rwa [hval]
  rw [maskRejects_maskTable hcodes hemitted hpos' hfits', hval, hsafe]
  unfold Origin.Accepts
  simp only [Nat.cast_inj, exists_eq_right_right]

theorem maskRejects_iff (hfiles : FromTool files) {origin : Origin} {table : List Byte}
    (hemits : origin.Emits M files table) (hemitted : Emitted rodata address table) {name : Name}
    {code : ℕ} (hcode : files.bitypeCodeMap[name]? = some code)
    (hread : readOffset code < table.length) :
    maskRejects rodata address ((byteIndex (BitVec.ofNat 32 code) + 2).setWidth 64)
        (safeCode (BitVec.ofNat 32 code)) = true ↔
      ¬ origin.Accepts M files code :=
  maskRejects_iff_not_accepts hfiles.numbered hemits hemitted (hfiles.code_range hcode).1
    (code_lt hfiles hcode) hread

theorem confusion_iff (hsource : sourcePtr ≠ 0)
    (htraced : Entry.table? (s.lookup sourcePtr) ≠ none)
    (hthis : Entry.table? (s.lookup thisPtr) = some address) (index : U32) (code : Byte)
    (debugIndex : U32) :
    (bitypeVerifyCast rodata sourcePtr thisPtr index code debugIndex s).confusion = true ↔
      (sourcePtr ≠ thisPtr ∧
        (derivedOffset sourcePtr thisPtr (Entry.offsetOf (s.lookup sourcePtr))).slt 0 = true) ∨
      maskRejects rodata address ((index + 2).setWidth 64) code = true := by
  obtain ⟨source, hsourceTable⟩ := Option.ne_none_iff_exists'.mp htraced
  have hmask : maskVerdict rodata address index code = .confusion ↔
      maskRejects rodata address ((index + 2).setWidth 64) code = true :=
    maskVerdict_eq_confusion address index code
  rw [verifyCast_eq]
  simp only [Verdict.result, decide_eq_true_eq]
  unfold verdict
  simp only [if_neg hsource, hsourceTable, hthis]
  -- an address is not below itself, so only the byte test is left
  by_cases hsame : sourcePtr = thisPtr
  · subst hsame
    obtain rfl := Option.some.inj (hsourceTable.symm.trans hthis)
    simp only [if_true, ne_eq, not_true_eq_false, false_and, false_or, hmask]
  · simp only [hsame, if_false, ne_eq, not_false_eq_true, true_and]
    split
    · next hbelow => exact iff_of_true rfl (.inl hbelow)
    · next hbelow => exact hmask.trans (or_iff_right hbelow).symm

/-- **What a check detects**, whatever the family of its target.  For a traced source, a
derived address that holds the table of `origin`, and a target whose number is within
that table: the check reports iff the derived object would start below the traced one,
or no class the table was made from has the target's number. -/
theorem check_reports_iff (hfiles : FromTool files) {origin : Origin} {table : List Byte}
    (hemits : origin.Emits M files table) (hemitted : Emitted rodata address table)
    (hsource : sourcePtr ≠ 0) (htraced : Entry.table? (s.lookup sourcePtr) ≠ none)
    (hthis : Entry.table? (s.lookup thisPtr) = some address) {name : Name} {code : ℕ}
    (hcode : files.bitypeCodeMap[name]? = some code)
    (hread : readOffset code < table.length) (debugIndex : U32) :
    (bitypeVerifyCast rodata sourcePtr thisPtr (byteIndex (BitVec.ofNat 32 code))
        (safeCode (BitVec.ofNat 32 code)) debugIndex s).confusion = true ↔
      (sourcePtr ≠ thisPtr ∧
        (derivedOffset sourcePtr thisPtr (Entry.offsetOf (s.lookup sourcePtr))).slt 0 = true) ∨
      ¬ origin.Accepts M files code := by
  rw [confusion_iff hsource htraced hthis, maskRejects_iff hfiles hemits hemitted hcode hread]

end Check

/-! ## Two families again -/

theorem twoFamilies_collected : ∃ s families, traversal.run twoFamilies Collector.empty = some s ∧
    s.currentIndex ≤ MAX_NUM_CLASS ∧ DFS s.graph s.currentIndex = some families ∧
    writeFiles s = some twoFamiliesOutput ∧ ¬ SameFamily s families ['Y'] ['a'] ∧
    ¬ SameFamily s families ['X'] ['a'] := by
  obtain ⟨s, hrun, hroom, hfamilies, ⟨hY, hX, ha⟩, hout⟩ := exists_twoFamiliesRun
  refine ⟨s, _, hrun, hroom, hfamilies, hout, ?_, ?_⟩
  · rintro ⟨i, j, hi, hj, S, hS, hiS, hjS⟩
    obtain rfl := Option.some.inj (hi.symm.trans hY)
    obtain rfl := Option.some.inj (hj.symm.trans ha)
    revert hiS hjS
    revert S
    decide
  · rintro ⟨i, j, hi, hj, S, hS, hiS, hjS⟩
    obtain rfl := Option.some.inj (hi.symm.trans hX)
    obtain rfl := Option.some.inj (hj.symm.trans ha)
    revert hiS hjS
    revert S
    decide

/-- The table of `Y` at the address that the traced granule refers to. -/
theorem onlySource_table {table : List Byte}
    (h : Origin.Emits derivedModule twoFamiliesFiles (.single 1) table) :
    Emitted (placeTable 64 table) 64 table ∧
      Entry.table? (onlySource.lookup 16) = some 64 := by
  refine ⟨emitted_placeTable 64 ?_, ?_⟩
  · rw [derivedModule_length h]
    decide
  · rw [(lookup_onlySource 16).trans (by decide : _ = some (⟨64, 0, 0⟩ : Entry))]
    rfl

theorem derivedModule_accepts : Origin.Accepts derivedModule twoFamiliesFiles (.single 1) 1 :=
  ⟨['Y'], .inl (.inl derivedModule_names.2.1.symm), twoFamiliesFiles_codes.1⟩

theorem check_reports_iff_sample : ∃ table,
    (bitypeVerifyCast (placeTable 64 table) 16 16 (byteIndex (BitVec.ofNat 32 1))
        (safeCode (BitVec.ofNat 32 1)) 0 onlySource).confusion = true ↔
      ((16 : Word) ≠ 16 ∧
        (derivedOffset 16 16 (Entry.offsetOf (onlySource.lookup 16))).slt 0 = true) ∨
      ¬ Origin.Accepts derivedModule twoFamiliesFiles (.single 1) 1 := by
  obtain ⟨table, -, hemits⟩ := derivedModule_table
  obtain ⟨hemitted, htraced⟩ := onlySource_table hemits
  have hcode : twoFamiliesFiles.bitypeCodeMap[(['a'] : Name)]? = some 1 :=
    twoFamiliesFiles_codes.2.1
  have hread : readOffset 1 < table.length := by
    rw [derivedModule_length hemits]
    decide
  exact ⟨table, check_reports_iff fromTool_twoFamiliesFiles hemits hemitted (by decide)
    (by rw [htraced]; exact Option.some_ne_none _) htraced hcode hread 0⟩

/-- A check for a class of another family can pass. -/
theorem check_misses_family :
    ¬ ∀ visits s families out, traversal.run visits Collector.empty = some s →
      s.currentIndex ≤ MAX_NUM_CLASS → DFS s.graph s.currentIndex = some families →
      writeFiles s = some out → ∀ (M : Module) (a : ℕ) (table : List Byte),
      Origin.Emits M (initReadFiles out) (.single a) table →
      (∃ name, Origin.Numbers M (initReadFiles out) (.single a) name ∧
        (initReadFiles out).Coded name) →
      ∀ (target : Name) (code : ℕ), (initReadFiles out).bitypeCodeMap[target]? = some code →
      ¬ SameFamily s families (M.typeName a) target →
      (∀ b, M.AtOffsetZero a b → ¬ SameFamily s families (M.typeName b) target) →
      ∀ rodata address mmap state ptr debugIndex, Emitted rodata address table → FreshMmap mmap →
      Reachable mmap state → ptr ≠ 0 → Entry.table? (state.lookup ptr) = some address →
        (bitypeVerifyCast rodata ptr ptr (byteIndex (BitVec.ofNat 32 code))
          (safeCode (BitVec.ofNat 32 code)) debugIndex state).confusion = true := by
  intro h
  obtain ⟨s, families, hrun, hroom, hfamilies, hout, hY, hX⟩ := twoFamilies_collected
  obtain ⟨table, -, hemits⟩ := derivedModule_table
  obtain ⟨hemitted, htraced⟩ := onlySource_table hemits
  have hfamily : ∀ b, ¬ SameFamily s families (derivedModule.typeName b) ['a'] := by
    intro b
    rcases derivedModule_typeName b with hb | hb
    · rwa [hb]
    · rwa [hb]
  -- `Y` and `a` both have number one
  obtain ⟨name, hname, haccepted⟩ := derivedModule_accepts
  have hcode : twoFamiliesFiles.bitypeCodeMap[(['a'] : Name)]? = some 1 :=
    twoFamiliesFiles_codes.2.1
  have hcoded : (initReadFiles twoFamiliesOutput).Coded name := by
    rw [ClassFiles.Coded]
    exact fun hnone => Option.some_ne_none _ (haccepted.symm.trans hnone)
  -- the check of the `Y` for an `a` ought to be reported
  have hreport := h twoFamilies s families _ hrun hroom hfamilies hout derivedModule 1 table hemits
    ⟨name, hname, hcoded⟩ ['a'] 1 hcode (hfamily 1) (fun b _ => hfamily b) (placeTable 64 table) 64
    spacedMmap onlySource 16 0 hemitted spacedMmap_fresh onlySource_reachable (by decide) htraced
  have hread : readOffset 1 < table.length := by
    rw [derivedModule_length hemits]
    decide
  have htraced' : Entry.table? (onlySource.lookup 16) ≠ none := by
    rw [htraced]
    exact Option.some_ne_none _
  rw [confusion_iff (by decide) htraced' htraced,
    maskRejects_iff fromTool_twoFamiliesFiles hemits hemitted hcode hread] at hreport
  -- the target is the source, so it is not below
  rcases hreport with ⟨hne, -⟩ | hrejected
  · exact hne rfl
  · exact hrejected ⟨name, hname, haccepted⟩

end Bitype.Pass
