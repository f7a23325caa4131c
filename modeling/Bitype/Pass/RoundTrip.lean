import Bitype.Pass.Files
import Bitype.Pass.Readers

/-!
# What the tool writes is read back

The files of the tool have one row for each class, and no name repeats.  So every reader
sees every row, and the row-level readers of `initReadFiles` read what the text holds.
-/

namespace Bitype.Pass

open Bitype.Foundations Bitype.Tool

/-! ## Files of rows -/

/-- Rows that can be written to a file and read back. -/
structure Printable (rows : List (Name × ℕ)) : Prop where
  nodup : (rows.map Prod.fst).Nodup
  plain : ∀ row ∈ rows, Plain row.1
  small : ∀ row ∈ rows, row.2 < 2 ^ 31

/-- The text of a file of rows. -/
def rowsText (rows : List (Name × ℕ)) : Name := fileText (rows.map rowLine)

section Rows

variable {rows : List (Name × ℕ)}

theorem pieces_rowsText (h : Printable rows) : pieces '\n' (rowsText rows) = rows.map rowLine := by
  apply pieces_fileText
  intro line hline
  obtain ⟨row, hrow, rfl⟩ := List.mem_map.mp hline
  exact newline_notMem_rowLine (h.plain row hrow)

theorem rowsOf_rowsText (h : Printable rows) : rowsOf (rowsText rows) = rows.map rowLine := by
  rw [rowsOf, pieces_rowsText h]
  apply List.filter_eq_self.mpr
  intro line hline
  obtain ⟨row, -, rfl⟩ := List.mem_map.mp hline
  simpa using rowLine_ne_nil row

theorem passNumber_rowLine (h : Printable rows) {row : Name × ℕ} (hrow : row ∈ rows) :
    passNumber (rowLine row) = some (row.2 : ℤ) := by
  rw [passNumber, splitFirst_rowLine (h.plain row hrow)]
  exact getAsInteger_decimal (h.small row hrow)

theorem rowNames_rowsText (h : Printable rows) :
    rowNames (rows.map rowLine) = rows.map Prod.fst := by
  rw [rowNames, List.map_map]
  apply List.map_congr_left
  intro row hrow
  rw [Function.comp_apply, nameOf, splitFirst_rowLine (h.plain row hrow)]

theorem wellFormed_rowLine (h : Printable rows) :
    ∀ line ∈ rows.map rowLine, wellFormed line = true := by
  intro line hline
  obtain ⟨row, hrow, rfl⟩ := List.mem_map.mp hline
  rw [wellFormed, passNumber_rowLine h hrow]
  rfl

theorem keptRows_rowsText (h : Printable rows) :
    keptRows (rowsOf (rowsText rows)) = rows.map rowLine := by
  rw [rowsOf_rowsText h]
  exact keptRows_of_wellFormed (wellFormed_rowLine h)

/-- **The pass reads the rows.** -/
theorem readCodeMap_rowsText (h : Printable rows) {name : Name} {value : ℤ} :
    (BitypeUtil.readCodeMap (rowsText rows))[name]? = some value ↔
      ∃ code : ℕ, value = code ∧ (name, code) ∈ rows := by
  rw [readCodeMap_eq_some, keptRows_rowsText h, rowNames_rowsText h]
  simp only [firstAt_of_nodup h.nodup, List.getElem?_map, Option.map_eq_some_iff]
  constructor
  · rintro ⟨q, line, ⟨row, hrow, rfl⟩, ⟨row', hrow', rfl⟩, hvalue⟩
    obtain rfl := Option.some.inj (hrow.symm.trans hrow')
    rw [passNumber_rowLine h (List.mem_of_getElem? hrow)] at hvalue
    exact ⟨row.2, (Option.some.inj hvalue).symm, List.mem_of_getElem? hrow⟩
  · rintro ⟨code, rfl, hmem⟩
    obtain ⟨q, hq⟩ := List.mem_iff_getElem?.mp hmem
    exact ⟨q, rowLine (name, code), ⟨_, hq, rfl⟩, ⟨_, hq, rfl⟩, passNumber_rowLine h hmem⟩

/-- **The front end reads the rows.** -/
theorem createCodeMap_rowsText (h : Printable rows) :
    ∃ result, SanitizerRelation.createCodeMap (rowsText rows) = some result ∧
      ∀ (name : Name) (code : ℕ), result[name]? = some code ↔ (name, code) ∈ rows := by
  have halike : CodesAlike (rowsText rows) := by
    rw [codesAlike_iff, rowsOf_rowsText h, codesAligned_of_nodup]
    · exact wellFormed_rowLine h
    · rw [rowNames_rowsText h]
      exact h.nodup
  obtain ⟨result, hresult, hsame⟩ := halike
  refine ⟨result, hresult, fun name code => ?_⟩
  rw [hsame, Option.map_eq_some_iff]
  simp only [readCodeMap_rowsText h]
  constructor
  · rintro ⟨value, ⟨code', rfl, hmem⟩, rfl⟩
    have hsmall := h.small _ hmem
    have hsame' : unsigned (code' : ℤ) = code' := by
      unfold unsigned
      dsimp only at hsmall
      omega
    rwa [hsame']
  · intro hmem
    refine ⟨(code : ℤ), ⟨code, rfl, hmem⟩, ?_⟩
    have hsmall := h.small _ hmem
    unfold unsigned
    dsimp only at hsmall
    omega

theorem readRelatedClass_rowsText (h : Printable rows) {name : Name} {value : ℤ} :
    (BitypeUtil.readRelatedClass (rowsText rows)).bitypeCastRelatedClass[name]? = some value ↔
      ∃ size : ℕ, value = size ∧ (name, size) ∈ rows := by
  rw [(readRelatedClass_eq _).1, ← readCodeMap_eq, readCodeMap_rowsText h]

/-- **Both number the rows**, if an `unsigned` can count them. -/
theorem index_rowsText (h : Printable rows) (hcount : rows.length ≤ 2 ^ 32) (name : Name) (i : ℕ) :
    ((SanitizerRelation.getClassIndex (rowsText rows))[name]? = some i ↔
        (rows.map Prod.fst)[i]? = some name) ∧
      ((BitypeUtil.readRelatedClass (rowsText rows)).bitypeClassIndexSet[i]? = some name ↔
        (rows.map Prod.fst)[i]? = some name) := by
  have hlt : ∀ {p : ℕ}, (rows.map Prod.fst)[p]? = some name → p < 2 ^ 32 := by
    intro p hp
    have := (List.getElem?_eq_some_iff.mp hp).1
    rw [List.length_map] at this
    omega
  rw [getClassIndex_eq_some, bitypeClassIndexSet_eq_some, keptRows_rowsText h, rowsOf_rowsText h,
    rowNames_rowsText h]
  simp only [firstAt_of_nodup h.nodup]
  constructor
  · constructor
    · rintro ⟨p, hp, rfl⟩
      rwa [Nat.mod_eq_of_lt (hlt hp)]
    · exact fun hi => ⟨i, hi, (Nat.mod_eq_of_lt (hlt hi)).symm⟩
  · exact ⟨fun hi => hi.2, fun hi => ⟨hlt hi, hi⟩⟩

end Rows

/-! ## The code map and the family sizes -/

/-- A map over class numbers that can be written: its keys and values are `int`s, and its
classes have distinct names of one column. -/
structure Nameable (s : Collector) (result : Std.TreeMap ℕ ℕ) : Prop where
  named : ∀ c code : ℕ, result[c]? = some code → ∃ name, s.numberName[c]? = some name ∧ Plain name
  injective : ∀ (c c' : ℕ) (name : Name), s.numberName[c]? = some name →
    s.numberName[c']? = some name → c = c'
  int : ∀ c code : ℕ, result[c]? = some code → c < 2 ^ 31 ∧ code < 2 ^ 31

/-- A map over class numbers gives the class of a name a value. -/
def ValueOf (s : Collector) (result : Std.TreeMap ℕ ℕ) (name : Name) (value : ℕ) : Prop :=
  ∃ c : ℕ, s.numberName[c]? = some name ∧ result[c]? = some value

section Writers

variable {s : Collector} {result : Std.TreeMap ℕ ℕ}

theorem mapM_eq_map {α β : Type} {f : α → Option β} {g : α → β} :
    ∀ l : List α, (∀ a ∈ l, f a = some (g a)) → l.mapM f = some (l.map g) := by
  intro l
  induction l with
  | nil => exact fun _ => rfl
  | cons a rest ih =>
      intro h
      rw [List.mapM_cons, h a List.mem_cons_self, ih fun b hb => h b (List.mem_cons_of_mem _ hb)]
      rfl

/-- The row for an entry of the map. -/
def namedRow (s : Collector) (rowResult : ℕ × ℕ) : Name × ℕ :=
  ((s.numberName[rowResult.1]?).getD [], rowResult.2)

/-- **`outputCodeResult` writes one printable row for each class.** -/
theorem outputCodeResult_spec (h : Nameable s result) :
    ∃ rows, outputCodeResult s result = some rows ∧ Printable rows ∧ rows.length ≤ 2 ^ 31 ∧
      ∀ name value, (name, value) ∈ rows ↔ ValueOf s result name value := by
  have hentry : ∀ e : ℕ × ℕ, e ∈ result.toList ↔ result[e.1]? = some e.2 :=
    fun e => Std.TreeMap.mem_toList_iff_getElem?_eq_some
  have hname : ∀ e ∈ result.toList, s.numberName[e.1]? = some (namedRow s e).1 ∧ Plain (namedRow s e).1 := by
    intro e he
    obtain ⟨name, hname, hplain⟩ := h.named e.1 e.2 ((hentry e).mp he)
    have hrow : (namedRow s e).1 = name := by rw [namedRow, hname, Option.getD_some]
    rw [hrow]
    exact ⟨hname, hplain⟩
  have hkeys : (result.toList.map Prod.fst).Nodup := by
    rw [Std.TreeMap.map_fst_toList_eq_keys]
    exact Std.TreeMap.nodup_keys
  have hrows : outputCodeResult s result = some (result.toList.map (namedRow s)) := by
    apply mapM_eq_map
    intro e he
    rw [(hname e he).1]
    rfl
  refine ⟨_, hrows, ⟨?_, ?_, ?_⟩, ?_, fun name value => ?_⟩
  · -- two classes with one name would have one number
    have hinj : ∀ e ∈ result.toList, ∀ e' ∈ result.toList, (namedRow s e).1 = (namedRow s e').1 → e.1 = e'.1 :=
      fun e he e' he' heq => h.injective _ _ _ (hname e he).1 (heq ▸ (hname e' he').1)
    rw [List.map_map, List.Nodup, List.pairwise_map]
    rw [List.Nodup, List.pairwise_map] at hkeys
    exact hkeys.imp_of_mem fun he he' hne heq => hne (hinj _ he _ he' heq)
  · intro r hr
    obtain ⟨e, he, rfl⟩ := List.mem_map.mp hr
    exact (hname e he).2
  · intro r hr
    obtain ⟨e, he, rfl⟩ := List.mem_map.mp hr
    exact (h.int _ _ ((hentry e).mp he)).2
  · have hlt : ∀ c ∈ result.toList.map Prod.fst, c < 2 ^ 31 := by
      intro c hc
      obtain ⟨e, he, rfl⟩ := List.mem_map.mp hc
      exact (h.int _ _ ((hentry e).mp he)).1
    have hle := length_le_of_nodup hkeys hlt
    rwa [List.length_map] at hle ⊢
  · rw [List.mem_map]
    constructor
    · rintro ⟨e, he, hrow⟩
      obtain ⟨rfl, rfl⟩ := Prod.mk.inj hrow
      exact ⟨e.1, (hname e he).1, (hentry e).mp he⟩
    · rintro ⟨c, hc, hvalue⟩
      have he : (c, value) ∈ result.toList := (hentry (c, value)).mpr hvalue
      exact ⟨(c, value), he, Prod.ext (Option.some.inj ((hname _ he).1.symm.trans hc)) rfl⟩

theorem Printable.filter {rows : List (Name × ℕ)} (h : Printable rows) (keep : Name × ℕ → Bool) :
    Printable (rows.filter keep) where
  nodup := h.nodup.sublist (List.filter_sublist.map Prod.fst)
  plain row hrow := h.plain row (List.mem_of_mem_filter hrow)
  small row hrow := h.small row (List.mem_of_mem_filter hrow)

/-- What `outputCastedRelatedSet` writes. -/
theorem outputCastedRelatedSet_spec (h : Nameable s result) (castrelatedClass : Std.TreeSet Name) :
    ∃ rows, outputCastedRelatedSet s castrelatedClass result = some rows ∧ Printable rows ∧
      rows.length ≤ 2 ^ 31 ∧ ∀ name size, (name, size) ∈ rows ↔
        castrelatedClass.contains name = true ∧ 0 < size ∧ ValueOf s result name size := by
  obtain ⟨rows, hrows, hprintable, hlength, hmem⟩ := outputCodeResult_spec h
  refine ⟨_, by rw [outputCastedRelatedSet, hrows]; rfl, hprintable.filter _,
    (List.length_filter_le _ _).trans hlength, fun name size => ?_⟩
  rw [List.mem_filter, hmem, Bool.and_eq_true, decide_eq_true_eq]
  constructor
  · rintro ⟨hvalue, hrelated, hpos⟩
    exact ⟨hrelated, hpos, hvalue⟩
  · rintro ⟨hrelated, hpos, hvalue⟩
    exact ⟨hvalue, hrelated, hpos⟩

/-- The front end and the pass number the classes that satisfy `classes` from zero on,
each in the same way. -/
structure NumberedAlike (text : Name) (classes : Name → Prop) : Prop where
  same : ∀ (name : Name) (i : ℕ), (SanitizerRelation.getClassIndex text)[name]? = some i ↔
    (BitypeUtil.readRelatedClass text).bitypeClassIndexSet[i]? = some name
  all : ∀ name : Name, (∃ i : ℕ, (SanitizerRelation.getClassIndex text)[name]? = some i) ↔
    classes name
  onto : ∃ m, ∀ i : ℕ,
    (∃ name : Name, (SanitizerRelation.getClassIndex text)[name]? = some i) ↔ i < m

/-- **The round trip.**  Whatever the maps, every reader gets exactly what was written. -/
theorem relation_files_roundTrip (s : Collector) (castrelatedClass : Std.TreeSet Name)
    {codes sizes : Std.TreeMap ℕ ℕ} (hcodes : Nameable s codes) (hsizes : Nameable s sizes) :
    ∃ codeRows sizeRows, outputCodeResult s codes = some codeRows ∧
      outputCastedRelatedSet s castrelatedClass sizes = some sizeRows ∧
      (∃ result, SanitizerRelation.createCodeMap (rowsText codeRows) = some result ∧
        ∀ (name : Name) (code : ℕ), result[name]? = some code ↔ ValueOf s codes name code) ∧
      (∀ (name : Name) (value : ℤ),
        (BitypeUtil.readCodeMap (rowsText codeRows))[name]? = some value ↔
          ∃ code : ℕ, value = code ∧ ValueOf s codes name code) ∧
      (∀ (name : Name) (value : ℤ),
        (BitypeUtil.readRelatedClass (rowsText sizeRows)).bitypeCastRelatedClass[name]? =
            some value ↔
          ∃ size : ℕ, value = size ∧ castrelatedClass.contains name = true ∧ 0 < size ∧
            ValueOf s sizes name size) ∧
      NumberedAlike (rowsText sizeRows) fun name =>
        ∃ size : ℕ, castrelatedClass.contains name = true ∧ 0 < size ∧ ValueOf s sizes name size := by
  obtain ⟨codeRows, hcodeRows, hcodePrint, -, hcodeMem⟩ := outputCodeResult_spec hcodes
  obtain ⟨sizeRows, hsizeRows, hsizePrint, hlength, hsizeMem⟩ :=
    outputCastedRelatedSet_spec hsizes castrelatedClass
  obtain ⟨result, hresult, hfront⟩ := createCodeMap_rowsText hcodePrint
  have hindex := index_rowsText hsizePrint (hlength.trans (by decide))
  refine ⟨codeRows, sizeRows, hcodeRows, hsizeRows, ⟨result, hresult, fun name code => ?_⟩,
    fun name value => ?_, fun name value => ?_, ?_, fun name => ?_, sizeRows.length, fun i => ?_⟩
  · rw [hfront, hcodeMem]
  · rw [readCodeMap_rowsText hcodePrint]
    simp only [hcodeMem]
  · rw [readRelatedClass_rowsText hsizePrint]
    simp only [hsizeMem]
  · exact fun name i => (hindex name i).1.trans (hindex name i).2.symm
  · simp only [fun i => (hindex name i).1, ← hsizeMem, ← List.mem_iff_getElem?, List.mem_map,
      Prod.exists, exists_and_right, exists_eq_right]
  · simp only [fun name => (hindex name i).1]
    rw [show sizeRows.length = (sizeRows.map Prod.fst).length from (List.length_map _).symm]
    constructor
    · rintro ⟨name, hname⟩
      exact (List.getElem?_eq_some_iff.mp hname).1
    · exact fun hi => ⟨_, List.getElem?_eq_getElem hi⟩

end Writers

/-- Two classes, one of them with a number. -/
def namedCollector : Collector :=
  { Collector.empty with
    numberName := ((∅ : Std.TreeMap ℕ Name).insert 0 ['D']).insert 1 ['B'] }

theorem getElem?_insert {β : Type} (map : Std.TreeMap ℕ β) (a c : ℕ) (value : β) :
    (map.insert a value)[c]? = if a = c then some value else map[c]? := by
  rw [Std.TreeMap.getElem?_insert]
  simp only [Std.LawfulEqCmp.compare_eq_iff_eq]

theorem nameable_namedCollector {result : Std.TreeMap ℕ ℕ}
    (h : ∀ c code : ℕ, result[c]? = some code → c ≤ 1 ∧ code = 1) :
    Nameable namedCollector result := by
  have hname : ∀ (c : ℕ) (name : Name), namedCollector.numberName[c]? = some name ↔
      c = 1 ∧ name = ['B'] ∨ c = 0 ∧ name = ['D'] := by
    intro c name
    rw [namedCollector, getElem?_insert, getElem?_insert, Std.TreeMap.getElem?_emptyc]
    split
    · next h₁ => simp [← h₁, eq_comm]
    split
    · next h₀ => simp [← h₀, eq_comm]
    · simp_all [eq_comm]
  refine ⟨fun c code hc => ?_, fun c c' name hc hc' => ?_, fun c code hc => ?_⟩
  · obtain ⟨hle, -⟩ := h c code hc
    obtain rfl | rfl : c = 0 ∨ c = 1 := by omega
    · exact ⟨['D'], (hname 0 _).mpr (.inr ⟨rfl, rfl⟩), by decide, by decide, by decide⟩
    · exact ⟨['B'], (hname 1 _).mpr (.inl ⟨rfl, rfl⟩), by decide, by decide, by decide⟩
  · rcases (hname c name).mp hc with ⟨rfl, rfl⟩ | ⟨rfl, rfl⟩
    · rcases (hname c' _).mp hc' with ⟨rfl, -⟩ | ⟨-, heq⟩
      · rfl
      · exact absurd heq (by decide)
    · rcases (hname c' _).mp hc' with ⟨-, heq⟩ | ⟨rfl, -⟩
      · exact absurd heq (by decide)
      · rfl
  · obtain ⟨hle, rfl⟩ := h c code hc
    omega

/-- Codes and sizes of two classes. -/
theorem relation_files_roundTrip_sample : ∃ codeRows sizeRows,
    outputCodeResult namedCollector ((∅ : Std.TreeMap ℕ ℕ).insert 0 1) = some codeRows ∧
      outputCastedRelatedSet namedCollector ((∅ : Std.TreeSet Name).insert ['D'])
        (((∅ : Std.TreeMap ℕ ℕ).insert 0 1).insert 1 1) = some sizeRows ∧
      NumberedAlike (rowsText sizeRows) fun name => ∃ size : ℕ,
        ((∅ : Std.TreeSet Name).insert ['D']).contains name = true ∧ 0 < size ∧
          ValueOf namedCollector (((∅ : Std.TreeMap ℕ ℕ).insert 0 1).insert 1 1) name size := by
  have hone : ∀ c code : ℕ, ((∅ : Std.TreeMap ℕ ℕ).insert 0 1)[c]? = some code →
      c = 0 ∧ code = 1 := by
    intro c code hc
    rw [getElem?_insert, Std.TreeMap.getElem?_emptyc, Option.ite_none_right_eq_some] at hc
    exact ⟨hc.1.symm, (Option.some.inj hc.2).symm⟩
  have hcodes : Nameable namedCollector ((∅ : Std.TreeMap ℕ ℕ).insert 0 1) := by
    apply nameable_namedCollector
    intro c code hc
    obtain ⟨rfl, rfl⟩ := hone c code hc
    exact ⟨Nat.zero_le 1, rfl⟩
  have hsizes : Nameable namedCollector (((∅ : Std.TreeMap ℕ ℕ).insert 0 1).insert 1 1) := by
    apply nameable_namedCollector
    intro c code hc
    rw [getElem?_insert] at hc
    split at hc
    · next h₁ => exact ⟨h₁ ▸ le_refl 1, (Option.some.inj hc).symm⟩
    · obtain ⟨rfl, rfl⟩ := hone c code hc
      exact ⟨Nat.zero_le 1, rfl⟩
  obtain ⟨codeRows, sizeRows, hcodeRows, hsizeRows, -, -, -, halike⟩ :=
    relation_files_roundTrip namedCollector ((∅ : Std.TreeSet Name).insert ['D']) hcodes hsizes
  exact ⟨codeRows, sizeRows, hcodeRows, hsizeRows, halike⟩

end Bitype.Pass
