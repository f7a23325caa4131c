import Bitype.Pass.Numbers

/-!
# Reading the relation files

The front end and the pass each read the code file and the file of the cast-related
classes.  The pass skips a line whose second column is no number, the front end does
not: `getClassIndex` never looks at it, and `createCodeMap` throws.  `readers_alike_iff`
says for which files they still agree.
-/

namespace Bitype.Pass

open Bitype.Foundations Bitype.Tool

/-- `unsigned` arithmetic. -/
def unsigned (value : ℤ) : ℕ := (value % 2 ^ 32).toNat

/-! ## The readers -/

namespace BitypeUtil

/-- The loop body of `readCodeMap`. -/
def readCodeLine (bitypeCodeMap : Std.TreeMap Name ℤ) (line : Name) : Std.TreeMap Name ℤ :=
  if line = [] then bitypeCodeMap
  else
    let splitLine := splitFirst ',' line
    match getAsInteger splitLine.2 with
    | none => bitypeCodeMap
    | some code => bitypeCodeMap.insertIfNew splitLine.1 code

/-- `readCodeMap`. -/
def readCodeMap (text : Name) : Std.TreeMap Name ℤ := (pieces '\n' text).foldl readCodeLine ∅

/-- What `readRelatedClass` fills. -/
structure RelatedClasses where
  bitypeCastRelatedClass : Std.TreeMap Name ℤ
  bitypeClassIndexSet : Std.TreeMap ℕ Name
  bitypeClassIndexSet2 : Std.TreeMap Name ℕ
  currentIndex : ℕ

/-- The loop body of `readRelatedClass`. -/
def readRelatedLine (st : RelatedClasses) (line : Name) : RelatedClasses :=
  if line = [] then st
  else
    let splitLine := splitFirst ',' line
    match getAsInteger splitLine.2 with
    | none => st
    | some code =>
        { bitypeCastRelatedClass := st.bitypeCastRelatedClass.insertIfNew splitLine.1 code
          bitypeClassIndexSet := st.bitypeClassIndexSet.insertIfNew st.currentIndex splitLine.1
          bitypeClassIndexSet2 := st.bitypeClassIndexSet2.insertIfNew splitLine.1 st.currentIndex
          currentIndex := (st.currentIndex + 1) % 2 ^ 32 }

/-- `readRelatedClass`. -/
def readRelatedClass (text : Name) : RelatedClasses :=
  (pieces '\n' text).foldl readRelatedLine ⟨∅, ∅, ∅, 0⟩

end BitypeUtil

namespace SanitizerRelation

/-- The loop body of `createCodeMap`; it throws what `stoi` throws. -/
def createCodeLine (result : Std.TreeMap Name ℕ) (line : Name) : Option (Std.TreeMap Name ℕ) :=
  if line = [] then some result
  else
    let splitLine := splitFirst ',' line
    let codeNum := splitFirst ',' splitLine.2
    (stoi codeNum.1).map fun codeNum1 => result.insertIfNew splitLine.1 (unsigned codeNum1)

/-- `createCodeMap`. -/
def createCodeMap (text : Name) : Option (Std.TreeMap Name ℕ) :=
  (pieces '\n' text).foldlM createCodeLine ∅

/-- The loop body of `getClassIndex`, with `currentIndex`. -/
def classIndexLine (st : Std.TreeMap Name ℕ × ℕ) (line : Name) : Std.TreeMap Name ℕ × ℕ :=
  if line = [] then st
  else (st.1.insertIfNew (splitFirst ',' line).1 st.2, (st.2 + 1) % 2 ^ 32)

/-- `getClassIndex`. -/
def getClassIndex (text : Name) : Std.TreeMap Name ℕ :=
  ((pieces '\n' text).foldl classIndexLine (∅, 0)).1

end SanitizerRelation

open BitypeUtil SanitizerRelation

/-! ## What they do, in terms of the lines -/

/-- The lines that are not empty. -/
def rowsOf (text : Name) : List Name := (pieces '\n' text).filter (· ≠ [])

/-- The first column. -/
def nameOf (line : Name) : Name := (splitFirst ',' line).1

/-- The number the pass reads from a line. -/
def passNumber (line : Name) : Option ℤ := getAsInteger (splitFirst ',' line).2

/-- The number the front end reads from a line. -/
def frontNumber (line : Name) : Option ℤ := stoi (splitFirst ',' (splitFirst ',' line).2).1

/-- A line whose second and last column is a number. -/
def wellFormed (line : Name) : Bool := (passNumber line).isSome

/-- The rows the pass keeps. -/
def keptRows (rows : List Name) : List Name := rows.filter wellFormed

/-- A row with its number, if the pass reads one. -/
def codeRow (line : Name) : Name × ℤ := (nameOf line, (passNumber line).getD 0)

/-- A row with its number, if the front end reads one. -/
def frontRow (line : Name) : Name × ℕ := (nameOf line, unsigned ((frontNumber line).getD 0))

theorem readCodeLine_eq (bitypeCodeMap : Std.TreeMap Name ℤ) (line : Name) :
    readCodeLine bitypeCodeMap line =
      if line ≠ [] then
        if wellFormed line then bitypeCodeMap.insertIfNew (codeRow line).1 (codeRow line).2
        else bitypeCodeMap
      else bitypeCodeMap := by
  unfold readCodeLine wellFormed codeRow passNumber
  by_cases hempty : line = []
  · rw [if_pos hempty, if_neg (not_not.mpr hempty)]
  · rw [if_neg hempty, if_pos hempty]
    dsimp only
    split
    · next hnone => rw [hnone]; rfl
    · next code hsome => rw [hsome]; rfl

/-- **`readCodeMap`**: each name with the number of its first well-formed line. -/
theorem readCodeMap_eq (text : Name) :
    BitypeUtil.readCodeMap text = firstWins ((keptRows (rowsOf text)).map codeRow) := by
  unfold BitypeUtil.readCodeMap firstWins keptRows rowsOf
  rw [List.foldl_map, List.foldl_filter, List.foldl_filter]
  simp only [decide_eq_true_eq, ← readCodeLine_eq]

/-- A loop that counts what it sees. -/
theorem foldl_counter {κ β : Type*} [Ord κ] (key : Name → ℕ → κ) (value : Name → ℕ → β)
    (rows : List Name) (map : Std.TreeMap κ β) (n : ℕ) :
    rows.foldl
        (fun st line => (st.1.insertIfNew (key line st.2) (value line st.2), (st.2 + 1) % 2 ^ 32))
        (map, n % 2 ^ 32) =
      (((rows.zipIdx n).map fun row =>
          (key row.1 (row.2 % 2 ^ 32), value row.1 (row.2 % 2 ^ 32))).foldl
        (fun map pair => map.insertIfNew pair.1 pair.2) map, (n + rows.length) % 2 ^ 32) := by
  induction rows generalizing map n with
  | nil => rfl
  | cons line rest ih =>
      have hnext : (n % 2 ^ 32 + 1) % 2 ^ 32 = (n + 1) % 2 ^ 32 := Nat.mod_add_mod n (2 ^ 32) 1
      rw [List.foldl_cons, List.zipIdx_cons, List.map_cons, List.foldl_cons, List.length_cons, hnext,
        ih, Nat.add_right_comm, Nat.add_assoc]

/-- The rows with their positions, as an `unsigned`. -/
def numbered (rows : List Name) : List (Name × ℕ) :=
  rows.zipIdx.map fun row => (nameOf row.1, row.2 % 2 ^ 32)

/-- **`getClassIndex`**: each name with the position of its first line. -/
theorem getClassIndex_eq (text : Name) :
    getClassIndex text = firstWins (numbered (rowsOf text)) := by
  have hcount := foldl_counter (fun line _ => nameOf line) (fun _ index => index) (rowsOf text) ∅ 0
  have hloop : (pieces '\n' text).foldl classIndexLine (∅, 0) =
      (rowsOf text).foldl
        (fun st line => (st.1.insertIfNew (nameOf line) st.2, (st.2 + 1) % 2 ^ 32)) (∅, 0) := by
    unfold rowsOf
    rw [List.foldl_filter]
    apply List.foldl_ext
    intro st line _
    unfold classIndexLine
    by_cases hempty : line = []
    · rw [if_pos hempty, if_neg (by simpa using hempty)]
    · rw [if_neg hempty, if_pos (by simpa using hempty)]
      rfl
  unfold getClassIndex
  rw [hloop]
  exact congrArg Prod.fst hcount

/-- One line of `readRelatedClass`: a malformed one changes nothing. -/
theorem readRelatedLine_eq (st : RelatedClasses) (line : Name) :
    readRelatedLine st line =
      if line ≠ [] ∧ wellFormed line = true then
        { bitypeCastRelatedClass := readCodeLine st.bitypeCastRelatedClass line
          bitypeClassIndexSet := st.bitypeClassIndexSet.insertIfNew st.currentIndex (nameOf line)
          bitypeClassIndexSet2 := st.bitypeClassIndexSet2.insertIfNew (nameOf line) st.currentIndex
          currentIndex := (st.currentIndex + 1) % 2 ^ 32 }
      else st := by
  unfold readRelatedLine readCodeLine wellFormed passNumber nameOf
  by_cases hempty : line = []
  · rw [if_pos hempty, if_neg fun h => h.1 hempty]
  · rw [if_neg hempty]
    cases hnumber : getAsInteger (splitFirst ',' line).2 with
    | none => simp [hnumber]
    | some code =>
        rw [if_pos ⟨hempty, rfl⟩]
        simp only [if_neg hempty, hnumber]

/-- A line that is not kept changes no code. -/
theorem readCodeLine_of_not {line : Name} (h : ¬ (line ≠ [] ∧ wellFormed line = true))
    (bitypeCodeMap : Std.TreeMap Name ℤ) : readCodeLine bitypeCodeMap line = bitypeCodeMap := by
  rw [readCodeLine_eq]
  by_cases hempty : line = []
  · rw [if_neg (not_not.mpr hempty)]
  · rw [if_pos hempty, if_neg fun hformed => h ⟨hempty, hformed⟩]

/-- **`readRelatedClass`**: sizes like codes, and the positions of the well-formed lines
both ways. -/
theorem readRelatedClass_eq (text : Name) :
    (readRelatedClass text).bitypeCastRelatedClass =
        firstWins ((keptRows (rowsOf text)).map codeRow) ∧
      (readRelatedClass text).bitypeClassIndexSet =
        firstWins ((numbered (keptRows (rowsOf text))).map Prod.swap) ∧
      (readRelatedClass text).bitypeClassIndexSet2 =
        firstWins (numbered (keptRows (rowsOf text))) := by
  have hkept : ∀ (line : Name) (rest : List Name),
      keptRows ((line :: rest).filter (· ≠ [])) =
        if line ≠ [] ∧ wellFormed line = true then line :: keptRows (rest.filter (· ≠ []))
        else keptRows (rest.filter (· ≠ [])) := by
    intro line rest
    unfold keptRows
    by_cases hempty : line = []
    · rw [List.filter_cons_of_neg (by simpa using hempty), if_neg fun h => h.1 hempty]
    · rw [List.filter_cons_of_pos (by simpa using hempty), List.filter_cons]
      simp only [ne_eq, hempty, not_false_eq_true, true_and]
  -- the three maps and the counter, each on its own
  have hloop : ∀ (lines : List Name) (st : RelatedClasses),
      (lines.foldl readRelatedLine st).bitypeCastRelatedClass =
          lines.foldl readCodeLine st.bitypeCastRelatedClass ∧
        ((lines.foldl readRelatedLine st).bitypeClassIndexSet,
            (lines.foldl readRelatedLine st).currentIndex) =
          (keptRows (lines.filter (· ≠ []))).foldl
            (fun st line => (st.1.insertIfNew st.2 (nameOf line), (st.2 + 1) % 2 ^ 32))
            (st.bitypeClassIndexSet, st.currentIndex) ∧
        ((lines.foldl readRelatedLine st).bitypeClassIndexSet2,
            (lines.foldl readRelatedLine st).currentIndex) =
          (keptRows (lines.filter (· ≠ []))).foldl
            (fun st line => (st.1.insertIfNew (nameOf line) st.2, (st.2 + 1) % 2 ^ 32))
            (st.bitypeClassIndexSet2, st.currentIndex) := by
    intro lines
    induction lines with
    | nil => exact fun st => ⟨rfl, rfl, rfl⟩
    | cons line rest ih =>
        intro st
        obtain ⟨hcodes, hset, hset2⟩ := ih (readRelatedLine st line)
        simp only [List.foldl_cons]
        rw [hcodes, hset, hset2, hkept, readRelatedLine_eq]
        by_cases hline : line ≠ [] ∧ wellFormed line = true
        · rw [if_pos hline, if_pos hline]
          exact ⟨rfl, rfl, rfl⟩
        · rw [if_neg hline, if_neg hline, readCodeLine_of_not hline]
          exact ⟨rfl, rfl, rfl⟩
  obtain ⟨hcodes, hset, hset2⟩ := hloop (pieces '\n' text) ⟨∅, ∅, ∅, 0⟩
  have hcount := foldl_counter (fun _ index => index) (fun line _ => nameOf line)
    (keptRows (rowsOf text)) ∅ 0
  have hcount2 := foldl_counter (fun line _ => nameOf line) (fun _ index => index)
    (keptRows (rowsOf text)) ∅ 0
  refine ⟨hcodes.trans (readCodeMap_eq text), ?_, congrArg Prod.fst (hset2.trans hcount2)⟩
  rw [numbered, List.map_map]
  exact congrArg Prod.fst (hset.trans hcount)

/-- **A reader that throws**: every line that is not empty must have a number, and each
name is mapped to the number of its first line. -/
theorem foldlM_rows {readLine : Std.TreeMap Name ℕ → Name → Option (Std.TreeMap Name ℕ)}
    (number : Name → Option ℤ) (hskip : ∀ result, readLine result [] = some result)
    (hline : ∀ result line, line ≠ [] → readLine result line =
      (number line).map fun codeNum1 => result.insertIfNew (nameOf line) (unsigned codeNum1))
    (text : Name) :
    (pieces '\n' text).foldlM readLine ∅ =
      if ∀ row ∈ rowsOf text, (number row).isSome = true then
        some (firstWins ((rowsOf text).map fun row =>
          (nameOf row, unsigned ((number row).getD 0))))
      else none := by
  have hloop : ∀ (lines : List Name) (result : Std.TreeMap Name ℕ),
      lines.foldlM readLine result =
        if ∀ row ∈ lines.filter (· ≠ []), (number row).isSome = true then
          some (((lines.filter (· ≠ [])).map fun row =>
            (nameOf row, unsigned ((number row).getD 0))).foldl
              (fun map pair => map.insertIfNew pair.1 pair.2) result)
        else none := by
    intro lines
    induction lines with
    | nil => intro result; simp
    | cons line rest ih =>
        intro result
        rw [List.foldlM_cons]
        by_cases hempty : line = []
        · rw [hempty, hskip, List.filter_cons_of_neg (by simp)]
          exact ih result
        · rw [List.filter_cons_of_pos (by simpa using hempty), List.map_cons, List.foldl_cons,
            hline result line hempty]
          simp only [List.forall_mem_cons]
          cases hnumber : number line with
          | none => simp
          | some code =>
              rw [Option.map_some]
              simp only [Option.isSome_some, true_and, Option.getD_some]
              exact ih _
  exact hloop (pieces '\n' text) ∅

/-- **`createCodeMap`**: it throws unless every line has a number, and then maps each name
to the number of its first line. -/
theorem createCodeMap_eq (text : Name) :
    createCodeMap text =
      if ∀ row ∈ rowsOf text, (frontNumber row).isSome = true then
        some (firstWins ((rowsOf text).map frontRow))
      else none :=
  foldlM_rows frontNumber (fun _ => if_pos rfl) (fun _ _ hempty => if_neg hempty) text

/-! ## When they agree -/

/-- The names in the first column. -/
def rowNames (rows : List Name) : List Name := rows.map nameOf

/-- The front end and the pass number the classes of a file alike. -/
def IndexAlike (text : Name) : Prop :=
  ∀ (name : Name) (i : ℕ), (getClassIndex text)[name]? = some i ↔
    (readRelatedClass text).bitypeClassIndexSet[i]? = some name ∧
      ∀ j < i, (readRelatedClass text).bitypeClassIndexSet[j]? ≠ some name

/-- The front end reads a file of codes, and reads the same codes as the pass. -/
def CodesAlike (text : Name) : Prop :=
  ∃ result, createCodeMap text = some result ∧
    ∀ name : Name, result[name]? = (BitypeUtil.readCodeMap text)[name]?.map unsigned

/-- Leaving the malformed lines out moves the first line of no name. -/
def IndexAligned (rows : List Name) : Prop :=
  ∀ name p, FirstAt (rowNames rows) name p → FirstAt (rowNames (keptRows rows)) name (p % 2 ^ 32)

/-- `stoi` reads a number from every line, and from the first line of each name the one
that the pass reads from the first well-formed line of the name. -/
def CodesAligned (rows : List Name) : Prop :=
  (∀ row ∈ rows, (frontNumber row).isSome = true) ∧
    ∀ name p row, FirstAt (rowNames rows) name p → rows[p]? = some row →
      ∃ q row', FirstAt (rowNames (keptRows rows)) name q ∧ (keptRows rows)[q]? = some row' ∧
        frontNumber row = passNumber row'

theorem map_fst_numbered (rows : List Name) : (numbered rows).map Prod.fst = rowNames rows := by
  rw [numbered, List.map_map, rowNames]
  conv_rhs => rw [← List.zipIdx_map_fst 0 rows, List.map_map]
  rfl

theorem getElem?_snd_numbered {rows : List Name} {p value : ℕ} :
    ((numbered rows).map Prod.snd)[p]? = some value ↔ p < rows.length ∧ value = p % 2 ^ 32 := by
  rw [numbered, List.map_map, List.getElem?_map, List.getElem?_zipIdx, Option.map_map,
    Option.map_eq_some_iff]
  constructor
  · rintro ⟨row, hrow, rfl⟩
    refine ⟨(List.getElem?_eq_some_iff.mp hrow).1, ?_⟩
    simp
  · rintro ⟨hp, rfl⟩
    exact ⟨rows[p], List.getElem?_eq_getElem hp, by simp⟩

/-- The index of a name in the front end. -/
theorem getClassIndex_eq_some {text name : Name} {i : ℕ} :
    (getClassIndex text)[name]? = some i ↔
      ∃ p, FirstAt (rowNames (rowsOf text)) name p ∧ i = p % 2 ^ 32 := by
  rw [getClassIndex_eq, getElem?_firstWins, map_fst_numbered]
  simp only [getElem?_snd_numbered]
  constructor
  · rintro ⟨p, hfirst, -, hi⟩
    exact ⟨p, hfirst, hi⟩
  · rintro ⟨p, hfirst, hi⟩
    have hlt := hfirst.lt
    rw [rowNames, List.length_map] at hlt
    exact ⟨p, hfirst, hlt, hi⟩

/-- The name of an index in the pass. -/
theorem bitypeClassIndexSet_eq_some {text name : Name} {i : ℕ} :
    (readRelatedClass text).bitypeClassIndexSet[i]? = some name ↔
      i < 2 ^ 32 ∧ (rowNames (keptRows (rowsOf text)))[i]? = some name := by
  rw [(readRelatedClass_eq text).2.1, getElem?_firstWins]
  generalize keptRows (rowsOf text) = rows
  have hkeys : ((numbered rows).map Prod.swap).map Prod.fst = (numbered rows).map Prod.snd := by
    rw [List.map_map]
    rfl
  have hnames : ((numbered rows).map Prod.swap).map Prod.snd = rowNames rows := by
    rw [List.map_map, ← map_fst_numbered]
    rfl
  rw [hkeys, hnames]
  constructor
  · rintro ⟨p, ⟨hkey, hbefore⟩, hname⟩
    obtain ⟨hp, rfl⟩ := getElem?_snd_numbered.mp hkey
    have hlt : p % 2 ^ 32 < 2 ^ 32 := Nat.mod_lt _ (by decide)
    rcases Nat.lt_or_ge p (2 ^ 32) with hsmall | hlarge
    · rw [Nat.mod_eq_of_lt hsmall]
      exact ⟨hsmall, hname⟩
    · -- an earlier row has the same position as an `unsigned`
      have hless : p % 2 ^ 32 < p := hlt.trans_le hlarge
      refine absurd (getElem?_snd_numbered.mpr ⟨hless.trans hp, ?_⟩) (hbefore _ hless)
      exact (Nat.mod_eq_of_lt hlt).symm
  · rintro ⟨hsmall, hname⟩
    have hlt := (List.getElem?_eq_some_iff.mp hname).1
    rw [rowNames, List.length_map] at hlt
    refine ⟨i, ⟨getElem?_snd_numbered.mpr ⟨hlt, (Nat.mod_eq_of_lt hsmall).symm⟩, ?_⟩, hname⟩
    intro j hj hkey
    obtain ⟨-, heq⟩ := getElem?_snd_numbered.mp hkey
    rw [Nat.mod_eq_of_lt (hj.trans hsmall)] at heq
    omega

theorem bitypeClassIndexSet_first {text name : Name} {i : ℕ} :
    ((readRelatedClass text).bitypeClassIndexSet[i]? = some name ∧
        ∀ j < i, (readRelatedClass text).bitypeClassIndexSet[j]? ≠ some name) ↔
      i < 2 ^ 32 ∧ FirstAt (rowNames (keptRows (rowsOf text))) name i := by
  simp only [ne_eq, bitypeClassIndexSet_eq_some]
  constructor
  · rintro ⟨⟨hsmall, hname⟩, hbefore⟩
    exact ⟨hsmall, hname, fun j hj h => hbefore j hj ⟨hj.trans hsmall, h⟩⟩
  · rintro ⟨hsmall, hname, hbefore⟩
    exact ⟨⟨hsmall, hname⟩, fun j hj h => hbefore j hj h.2⟩

theorem mem_rowNames_of_kept {rows : List Name} {name : Name} (h : name ∈ rowNames (keptRows rows)) :
    name ∈ rowNames rows := by
  obtain ⟨row, hrow, rfl⟩ := List.mem_map.mp h
  exact List.mem_map_of_mem (List.mem_of_mem_filter hrow)

/-- When the numbers are alike. -/
theorem indexAlike_iff (text : Name) : IndexAlike text ↔ IndexAligned (rowsOf text) := by
  unfold IndexAlike
  simp only [bitypeClassIndexSet_first, getClassIndex_eq_some]
  constructor
  · exact fun h name p hfirst => ((h name (p % 2 ^ 32)).mp ⟨p, hfirst, rfl⟩).2
  · intro h name i
    constructor
    · rintro ⟨p, hfirst, rfl⟩
      exact ⟨Nat.mod_lt _ (by decide), h name p hfirst⟩
    · rintro ⟨-, hkept⟩
      obtain ⟨p, hfirst⟩ := exists_firstAt (mem_rowNames_of_kept (List.mem_of_getElem? hkept.1))
      exact ⟨p, hfirst, hkept.unique (h name p hfirst)⟩

theorem unsigned_injective {v w : ℤ} (hv : IsInt v) (hw : IsInt w) (h : unsigned v = unsigned w) :
    v = w := by
  unfold unsigned at h
  unfold IsInt at hv hw
  omega

/-- The front end reads the number the pass reads. -/
theorem frontNumber_of_passNumber {row : Name} {value : ℤ} (h : passNumber row = some value) :
    frontNumber row = some value := by
  unfold frontNumber
  rw [splitFirst_of_notMem (comma_notMem_of_getAsInteger h)]
  exact stoi_of_getAsInteger h

theorem passNumber_of_kept {rows : List Name} {q : ℕ} {row : Name}
    (h : (keptRows rows)[q]? = some row) : ∃ value, passNumber row = some value := by
  have hformed : wellFormed row = true := List.of_mem_filter (List.mem_of_getElem? h)
  exact Option.isSome_iff_exists.mp hformed

theorem rowNames_getElem? {rows : List Name} {name : Name} {p : ℕ}
    (h : FirstAt (rowNames rows) name p) : ∃ row, rows[p]? = some row ∧ nameOf row = name := by
  have hkey := h.1
  rw [rowNames, List.getElem?_map] at hkey
  exact Option.map_eq_some_iff.mp hkey

/-- The code of a name in the pass. -/
theorem readCodeMap_eq_some {text name : Name} {value : ℤ} :
    (BitypeUtil.readCodeMap text)[name]? = some value ↔
      ∃ q row, FirstAt (rowNames (keptRows (rowsOf text))) name q ∧
        (keptRows (rowsOf text))[q]? = some row ∧ passNumber row = some value := by
  have hnames : ((keptRows (rowsOf text)).map codeRow).map Prod.fst =
      rowNames (keptRows (rowsOf text)) := by
    rw [List.map_map]
    rfl
  rw [readCodeMap_eq, getElem?_firstWins, hnames]
  simp only [List.getElem?_map, Option.map_eq_some_iff]
  constructor
  · rintro ⟨q, hfirst, pair, ⟨row, hrow, rfl⟩, rfl⟩
    obtain ⟨value, hvalue⟩ := passNumber_of_kept hrow
    exact ⟨q, row, hfirst, hrow, by rw [hvalue, codeRow, hvalue]; rfl⟩
  · rintro ⟨q, row, hfirst, hrow, hvalue⟩
    exact ⟨q, hfirst, codeRow row, ⟨row, hrow, rfl⟩, by rw [codeRow, hvalue]; rfl⟩

/-- The code of a name in the front end. -/
theorem firstWins_frontRow {rows : List Name} {name : Name} {code : ℕ} :
    (firstWins (rows.map frontRow))[name]? = some code ↔
      ∃ p row, FirstAt (rowNames rows) name p ∧ rows[p]? = some row ∧
        code = unsigned ((frontNumber row).getD 0) := by
  have hnames : (rows.map frontRow).map Prod.fst = rowNames rows := by
    rw [List.map_map]
    rfl
  rw [getElem?_firstWins, hnames]
  simp only [List.getElem?_map, Option.map_eq_some_iff]
  constructor
  · rintro ⟨p, hfirst, pair, ⟨row, hrow, rfl⟩, rfl⟩
    exact ⟨p, row, hfirst, hrow, rfl⟩
  · rintro ⟨p, row, hfirst, hrow, rfl⟩
    exact ⟨p, hfirst, frontRow row, ⟨row, hrow, rfl⟩, rfl⟩

/-- When the codes are alike. -/
theorem codesAlike_iff (text : Name) : CodesAlike text ↔ CodesAligned (rowsOf text) := by
  unfold CodesAlike
  rw [createCodeMap_eq]
  constructor
  · rintro ⟨result, hresult, hsame⟩
    obtain ⟨hall, hmap⟩ := Option.ite_none_right_eq_some.mp hresult
    obtain rfl := Option.some.inj hmap
    refine ⟨hall, fun name p row hfirst hrow => ?_⟩
    obtain ⟨front, hfront⟩ := Option.isSome_iff_exists.mp (hall row (List.mem_of_getElem? hrow))
    -- both readers give the name a number, from the rows that come first for each
    have hcode := hsame name
    rw [firstWins_frontRow.mpr ⟨p, row, hfirst, hrow, rfl⟩] at hcode
    obtain ⟨value, hvalue, heq⟩ := Option.map_eq_some_iff.mp hcode.symm
    obtain ⟨q, row', hkept, hrow', hpass⟩ := readCodeMap_eq_some.mp hvalue
    refine ⟨q, row', hkept, hrow', ?_⟩
    rw [hfront, Option.getD_some] at heq
    rw [hfront, hpass,
      unsigned_injective (isInt_of_getAsInteger hpass) (isInt_of_stoi hfront) heq]
  · rintro ⟨hall, haligned⟩
    refine ⟨_, if_pos hall, fun name => ?_⟩
    by_cases hmem : name ∈ rowNames (rowsOf text)
    · obtain ⟨p, hfirst⟩ := exists_firstAt hmem
      obtain ⟨row, hrow, -⟩ := rowNames_getElem? hfirst
      obtain ⟨q, row', hkept, hrow', heq⟩ := haligned name p row hfirst hrow
      obtain ⟨value, hvalue⟩ := passNumber_of_kept hrow'
      rw [firstWins_frontRow.mpr ⟨p, row, hfirst, hrow, rfl⟩,
        readCodeMap_eq_some.mpr ⟨q, row', hkept, hrow', hvalue⟩, heq, hvalue]
      rfl
    · -- a name of no line
      have hfront : (firstWins ((rowsOf text).map frontRow))[name]? = none := by
        apply Option.eq_none_iff_forall_ne_some.mpr
        intro code hcode
        obtain ⟨p, row, hfirst, -⟩ := firstWins_frontRow.mp hcode
        exact hmem (List.mem_of_getElem? hfirst.1)
      have hpass : (BitypeUtil.readCodeMap text)[name]? = none := by
        apply Option.eq_none_iff_forall_ne_some.mpr
        intro value hvalue
        obtain ⟨q, row, hkept, -⟩ := readCodeMap_eq_some.mp hvalue
        exact hmem (mem_rowNames_of_kept (List.mem_of_getElem? hkept.1))
      rw [hfront, hpass]
      rfl

/-! ## Names that do not repeat -/

section Nodup

variable {rows : List Name}

/-- A line whose name is also the name of a well-formed line is that line. -/
theorem wellFormed_of_kept (hnodup : (rowNames rows).Nodup) {row : Name} (hrow : row ∈ rows)
    (hkept : nameOf row ∈ rowNames (keptRows rows)) : wellFormed row = true := by
  obtain ⟨row', hrow', hname⟩ := List.mem_map.mp hkept
  obtain rfl := List.inj_on_of_nodup_map hnodup (List.mem_of_mem_filter hrow') hrow hname
  exact List.of_mem_filter hrow'

theorem keptRows_of_wellFormed (h : ∀ row ∈ rows, wellFormed row = true) : keptRows rows = rows :=
  List.filter_eq_self.mpr h

theorem indexAligned_of_nodup (hnodup : (rowNames rows).Nodup) :
    IndexAligned rows ↔ (∀ row ∈ rows, wellFormed row = true) ∧ rows.length ≤ 2 ^ 32 := by
  have hfirst : ∀ (p : ℕ) (hp : p < rows.length), FirstAt (rowNames rows) (nameOf rows[p]) p := by
    intro p hp
    rw [firstAt_of_nodup hnodup, rowNames, List.getElem?_map, List.getElem?_eq_getElem hp,
      Option.map_some]
  constructor
  · intro haligned
    have hformed : ∀ row ∈ rows, wellFormed row = true := by
      intro row hrow
      obtain ⟨p, hp, rfl⟩ := List.getElem_of_mem hrow
      exact wellFormed_of_kept hnodup hrow (List.mem_of_getElem? (haligned _ p (hfirst p hp)).1)
    refine ⟨hformed, ?_⟩
    by_contra hmany
    have hp : 2 ^ 32 < rows.length := not_le.mp hmany
    have hmoved := haligned _ (2 ^ 32) (hfirst _ hp)
    rw [keptRows_of_wellFormed hformed] at hmoved
    exact absurd (hmoved.unique (hfirst _ hp)) (by decide)
  · rintro ⟨hformed, hlength⟩ name p hname
    have hlt := hname.lt
    rw [rowNames, List.length_map] at hlt
    rw [keptRows_of_wellFormed hformed, Nat.mod_eq_of_lt (by omega)]
    exact hname

theorem codesAligned_of_nodup (hnodup : (rowNames rows).Nodup) :
    CodesAligned rows ↔ ∀ row ∈ rows, wellFormed row = true := by
  constructor
  · rintro ⟨-, haligned⟩ row hrow
    obtain ⟨p, hfirst⟩ := exists_firstAt (show nameOf row ∈ rowNames rows from List.mem_map_of_mem hrow)
    obtain ⟨row', hrow', -⟩ := rowNames_getElem? hfirst
    obtain ⟨q, -, hkept, -⟩ := haligned _ p row' hfirst hrow'
    exact wellFormed_of_kept hnodup hrow (List.mem_of_getElem? hkept.1)
  · intro hformed
    have hnumber : ∀ row ∈ rows, ∃ value, passNumber row = some value :=
      fun row hrow => Option.isSome_iff_exists.mp (hformed row hrow)
    refine ⟨fun row hrow => ?_, fun name p row hfirst hrow => ?_⟩
    · obtain ⟨value, hvalue⟩ := hnumber row hrow
      rw [frontNumber_of_passNumber hvalue]
      rfl
    · obtain ⟨value, hvalue⟩ := hnumber row (List.mem_of_getElem? hrow)
      rw [keptRows_of_wellFormed hformed]
      exact ⟨p, row, hfirst, hrow, by rw [hvalue, frontNumber_of_passNumber hvalue]⟩

end Nodup

/-- **When the readers agree**, for every file: on the indices iff leaving the malformed
lines out moves the first line of no name; on the codes iff `stoi` reads every line and
the malformed lines hide no number.  Where no name repeats, a malformed line is always in
the way. -/
theorem readers_alike_iff (text : Name) :
    (IndexAlike text ↔ IndexAligned (rowsOf text)) ∧
      (CodesAlike text ↔ CodesAligned (rowsOf text)) ∧
      ((rowNames (rowsOf text)).Nodup →
        (IndexAlike text ↔
          (∀ row ∈ rowsOf text, wellFormed row = true) ∧ (rowsOf text).length ≤ 2 ^ 32) ∧
        (CodesAlike text ↔ ∀ row ∈ rowsOf text, wellFormed row = true)) :=
  ⟨indexAlike_iff text, codesAlike_iff text, fun hnodup =>
    ⟨(indexAlike_iff text).trans (indexAligned_of_nodup hnodup),
      (codesAlike_iff text).trans (codesAligned_of_nodup hnodup)⟩⟩

/-- A line that the pass skips and the front end counts. -/
theorem malformed_line_shifts : ¬ ∀ text, IndexAlike text ∧ CodesAlike text := by
  intro hclaim
  have hrows : rowsOf (fileText ["A,x".toList, "D,1".toList]) = ["A,x".toList, "D,1".toList] := by
    rw [rowsOf, pieces_fileText (by decide)]
    decide
  obtain ⟨haligned, -⟩ := hclaim (fileText ["A,x".toList, "D,1".toList])
  rw [indexAlike_iff, hrows] at haligned
  have hmoved := haligned ['D'] 1 ⟨by decide, by decide⟩
  exact absurd hmoved.1 (by decide)

end Bitype.Pass
