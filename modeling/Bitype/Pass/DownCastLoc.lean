import Bitype.Pass.RoundTrip

/-!
# The file of downcast locations

The tool collects the locations of downcasts as strings `path:line` and writes each with its
number, separated by a comma.  The front end cuts every line at its first comma and looks up
the string of a check it emits.  A path is free text, so it may hold a comma, or a newline.

`downCastLoc_roundTrip_iff`: the numbers come back exactly if no path does.
-/

namespace Bitype.Pass

open Bitype.Foundations Bitype.Tool

/-! ## The tool -/

/-- A valid `PresumedLoc`. -/
structure PresumedLoc where
  filename : Name
  line : ℕ

/-- `tempLoc` in `VisitCastExpr` and in the front end. -/
def PresumedLoc.tempLoc (loc : PresumedLoc) : Name := loc.filename ++ ':' :: decimal loc.line

/-- `downCastLoc` after casts at these locations have been visited. -/
def downCastLoc (locs : List PresumedLoc) : Std.TreeSet Name :=
  locs.foldl
    (fun downCastLoc loc =>
      if downCastLoc.contains loc.tempLoc then downCastLoc else downCastLoc.insert loc.tempLoc) ∅

/-- The loop body of `outputDownCastLoc`; the counter is an `int`, which must not
overflow. -/
def outputLoc (st : Name × ℕ) (tempLoc : Name) : Option (Name × ℕ) :=
  let (outfile, tempCurrentIndex) := st
  if tempCurrentIndex + 1 < 2 ^ 31 then
    some (outfile ++ (rowLine (tempLoc, tempCurrentIndex) ++ ['\n']), tempCurrentIndex + 1)
  else none

/-- `outputDownCastLoc`: the text of the file. -/
def outputDownCastLoc (downCastLoc : Std.TreeSet Name) : Option Name :=
  (downCastLoc.toList.foldlM outputLoc ([], 0)).map Prod.fst

/-! ## The front end -/

namespace SanitizerRelation

/-- The loop body of `getDebugInfo`; it throws what `stoi` throws. -/
def getDebugLine (result : Std.TreeMap Name ℕ) (line : Name) : Option (Std.TreeMap Name ℕ) :=
  if line = [] then some result
  else
    let splitLine := splitFirst ',' line
    (stoi splitLine.2).map fun codeNum1 => result.insertIfNew splitLine.1 (unsigned codeNum1)

/-- `getDebugInfo`. -/
def getDebugInfo (text : Name) : Option (Std.TreeMap Name ℕ) :=
  (pieces '\n' text).foldlM getDebugLine ∅

end SanitizerRelation

open SanitizerRelation

/-- `debugIndex` of the check for a downcast: an `unsigned` as an `int`. -/
def debugIndex (tempDebug : Std.TreeMap Name ℕ) (loc : PresumedLoc) : ℤ :=
  match tempDebug[loc.tempLoc]? with
  | some index => (BitVec.ofNat 32 index).toInt
  | none => -1

/-! ## The rank of a location -/

/-- The number of strings in the set that are less. -/
def rank (strings : Std.TreeSet Name) (tempLoc : Name) : ℕ :=
  (strings.toList.filter fun other => compare other tempLoc = .lt).length

/-- **The file carries the locations over**: it is written and read, every location has its
rank, no two have the same, and every check gets the number of its own location. -/
def RoundTrips (locs : List PresumedLoc) : Prop :=
  ∃ text tempDebug, outputDownCastLoc (downCastLoc locs) = some text ∧
    getDebugInfo text = some tempDebug ∧
    (∀ loc ∈ locs, tempDebug[loc.tempLoc]? = some (rank (downCastLoc locs) loc.tempLoc)) ∧
    (∀ loc ∈ locs, ∀ loc' ∈ locs, tempDebug[loc.tempLoc]? = tempDebug[loc'.tempLoc]? → loc = loc') ∧
    ∀ loc ∈ locs, debugIndex tempDebug loc = rank (downCastLoc locs) loc.tempLoc

/-! ## The strings -/

section Locations

variable {locs : List PresumedLoc}

theorem mem_downCastLoc {tempLoc : Name} :
    tempLoc ∈ downCastLoc locs ↔ ∃ loc ∈ locs, loc.tempLoc = tempLoc := by
  have hloop : ∀ (locs : List PresumedLoc) (start : Std.TreeSet Name),
      tempLoc ∈ locs.foldl (fun downCastLoc loc =>
        if downCastLoc.contains loc.tempLoc then downCastLoc
        else downCastLoc.insert loc.tempLoc) start ↔
        tempLoc ∈ start ∨ ∃ loc ∈ locs, loc.tempLoc = tempLoc := by
    intro locs
    induction locs with
    | nil => intro start; simp
    | cons loc rest ih =>
        intro start
        rw [List.foldl_cons, ih]
        simp only [List.mem_cons, exists_eq_or_imp]
        rw [← or_assoc]
        apply or_congr_left
        split
        · next hknown =>
            refine ⟨.inl, ?_⟩
            rintro (hstart | rfl)
            · exact hstart
            · exact Std.TreeSet.mem_iff_contains.mpr hknown
        · rw [Std.TreeSet.mem_insert, Std.LawfulEqCmp.compare_eq_iff_eq, or_comm]
  rw [downCastLoc, hloop, or_iff_right Std.TreeSet.not_mem_emptyc]

/-- A number has no colon, so the string has the location. -/
theorem tempLoc_injective {loc loc' : PresumedLoc} (h : loc.tempLoc = loc'.tempLoc) : loc = loc' := by
  have hcolon : ∀ line, ':' ∉ (decimal line).reverse := by
    intro line hmem
    exact absurd (isDigit_of_mem_decimal (List.mem_reverse.mp hmem)) (by decide)
  have hparts : ∀ loc : PresumedLoc, splitFirst ':' loc.tempLoc.reverse =
      ((decimal loc.line).reverse, loc.filename.reverse) := by
    intro loc
    rw [PresumedLoc.tempLoc, List.reverse_append, List.reverse_cons, List.append_assoc,
      List.singleton_append, splitFirst_append (hcolon loc.line)]
  have hsame : ((decimal loc.line).reverse, loc.filename.reverse) =
      ((decimal loc'.line).reverse, loc'.filename.reverse) :=
    calc ((decimal loc.line).reverse, loc.filename.reverse)
        = splitFirst ':' loc.tempLoc.reverse := (hparts loc).symm
      _ = splitFirst ':' loc'.tempLoc.reverse := by rw [h]
      _ = ((decimal loc'.line).reverse, loc'.filename.reverse) := hparts loc'
  obtain ⟨hline, hfilename⟩ := Prod.mk.inj hsame
  have hvalue := congrArg (Nat.ofDigitChars 10 · 0) (List.reverse_injective hline)
  simp only [decimal, Nat.ofDigitChars_ten_toDigits] at hvalue
  cases loc
  cases loc'
  exact PresumedLoc.mk.injEq _ _ _ _ ▸ ⟨List.reverse_injective hfilename, hvalue⟩

/-- In a sorted list the number of smaller strings is the position. -/
theorem length_filter_lt : ∀ {sorted : List Name} {i : ℕ} {tempLoc : Name},
    sorted.Pairwise (fun a b => compare a b = .lt) → sorted[i]? = some tempLoc →
      (sorted.filter fun other => compare other tempLoc = .lt).length = i := by
  intro sorted
  induction sorted with
  | nil => intro i tempLoc _ h; cases h
  | cons first rest ih =>
      intro i tempLoc hsorted h
      obtain ⟨hfirst, hrest⟩ := List.pairwise_cons.mp hsorted
      cases i with
      | zero =>
          obtain rfl := Option.some.inj h
          have hnone : (first :: rest).filter (fun other => compare other first = .lt) = [] := by
            rw [List.filter_eq_nil_iff]
            intro other hother hlt
            have hlt : compare other first = .lt := of_decide_eq_true hlt
            rcases List.mem_cons.mp hother with rfl | hother
            · exact absurd (Std.ReflCmp.compare_self.symm.trans hlt) (by decide)
            · have hgt := Std.OrientedCmp.gt_of_lt (hfirst other hother)
              exact absurd (hgt.symm.trans hlt) (by decide)
          rw [hnone, List.length_nil]
      | succ i =>
          rw [List.getElem?_cons_succ] at h
          have hlt := hfirst tempLoc (List.mem_of_getElem? h)
          rw [List.filter_cons_of_pos (by simpa using hlt), List.length_cons, ih hrest h]

theorem rank_of_getElem? {strings : Std.TreeSet Name} {i : ℕ} {tempLoc : Name}
    (h : strings.toList[i]? = some tempLoc) : rank strings tempLoc = i :=
  length_filter_lt Std.TreeSet.ordered_toList h

/-- The strings with their numbers. -/
def locRows (strings : Std.TreeSet Name) : List (Name × ℕ) := strings.toList.zipIdx

theorem mem_locRows {strings : Std.TreeSet Name} {row : Name × ℕ} :
    row ∈ locRows strings ↔ row.1 ∈ strings ∧ row.2 = rank strings row.1 := by
  rw [locRows, List.mem_zipIdx_iff_getElem?, ← Std.TreeSet.mem_toList]
  constructor
  · intro h
    exact ⟨List.mem_of_getElem? h, (rank_of_getElem? h).symm⟩
  · rintro ⟨hmem, hrank⟩
    obtain ⟨i, hi⟩ := List.mem_iff_getElem?.mp hmem
    rwa [hrank, rank_of_getElem? hi]

theorem rank_lt_size {strings : Std.TreeSet Name} {tempLoc : Name} (h : tempLoc ∈ strings) :
    rank strings tempLoc < strings.size := by
  obtain ⟨i, hi⟩ := List.mem_iff_getElem?.mp (Std.TreeSet.mem_toList.mpr h)
  rw [rank_of_getElem? hi, ← Std.TreeSet.length_toList]
  exact (List.getElem?_eq_some_iff.mp hi).1

/-- **What is written.** -/
theorem outputDownCastLoc_eq (strings : Std.TreeSet Name) :
    outputDownCastLoc strings =
      if strings.size < 2 ^ 31 then some (rowsText (locRows strings)) else none := by
  -- the counter is an `int`, which has to stay in range
  have hloop : ∀ (l : List Name) (outfile : Name) (k : ℕ), k < 2 ^ 31 →
      l.foldlM outputLoc (outfile, k) =
        if k + l.length < 2 ^ 31 then
          some (outfile ++ fileText ((l.zipIdx k).map rowLine), k + l.length)
        else none := by
    intro l
    induction l with
    | nil =>
        intro outfile k hk
        rw [List.length_nil, Nat.add_zero, if_pos hk, List.zipIdx_nil, List.map_nil, fileText,
          List.flatMap_nil, List.append_nil]
        rfl
    | cons tempLoc rest ih =>
        intro outfile k hk
        rw [List.foldlM_cons, outputLoc]
        by_cases hroom : k + 1 < 2 ^ 31
        · rw [if_pos hroom]
          apply (ih _ (k + 1) hroom).trans
          have hcount : k + 1 + rest.length = k + (rest.length + 1) := by omega
          rw [List.length_cons, hcount, List.zipIdx_cons, List.map_cons]
          simp only [fileText, List.flatMap_cons, List.append_assoc]
        · rw [if_neg hroom, List.length_cons, if_neg (by omega)]
          rfl
  rw [outputDownCastLoc, hloop _ _ 0 (by decide), Nat.zero_add, Std.TreeSet.length_toList]
  split
  · rfl
  · rfl

/-! ## The rows -/

/-- The number in a line. -/
def debugNumber (line : Name) : Option ℤ := stoi (splitFirst ',' line).2

/-- **`getDebugInfo`**: it throws unless every line has a number, and then maps each name to
the number of its first line. -/
theorem getDebugInfo_eq (text : Name) :
    getDebugInfo text =
      if ∀ row ∈ rowsOf text, (debugNumber row).isSome = true then
        some (firstWins ((rowsOf text).map fun row =>
          (nameOf row, unsigned ((debugNumber row).getD 0))))
      else none :=
  foldlM_rows debugNumber (fun _ => if_pos rfl) (fun _ _ hempty => if_neg hempty) text

/-- A row without a separator in its name is read. -/
theorem debugNumber_rowLine {rows : List (Name × ℕ)} (h : Printable rows) {row : Name × ℕ}
    (hrow : row ∈ rows) : debugNumber (rowLine row) = some (row.2 : ℤ) := by
  rw [debugNumber, splitFirst_rowLine (h.plain row hrow)]
  exact stoi_of_getAsInteger (getAsInteger_decimal (h.small row hrow))

/-- **What is read**, of rows without separators in their names. -/
theorem getDebugInfo_rowsText {rows : List (Name × ℕ)} (h : Printable rows) :
    ∃ tempDebug, getDebugInfo (rowsText rows) = some tempDebug ∧
      ∀ (name : Name) (index : ℕ), tempDebug[name]? = some index ↔ (name, index) ∈ rows := by
  refine ⟨firstWins rows, ?_, fun name index => getElem?_firstWins_of_nodup h.nodup⟩
  have hnumbers : ∀ line ∈ rowsOf (rowsText rows), (debugNumber line).isSome = true := by
    intro line hline
    rw [rowsOf_rowsText h] at hline
    obtain ⟨row, hrow, rfl⟩ := List.mem_map.mp hline
    rw [debugNumber_rowLine h hrow]
    rfl
  rw [getDebugInfo_eq, if_pos hnumbers, rowsOf_rowsText h, List.map_map]
  congr 2
  apply (List.map_congr_left _).trans (List.map_id rows)
  intro row hrow
  have hsmall := h.small row hrow
  have hvalue : unsigned (row.2 : ℤ) = row.2 := by
    unfold unsigned
    omega
  rw [Function.comp_apply, nameOf, splitFirst_rowLine (h.plain row hrow),
    debugNumber_rowLine h hrow, Option.getD_some, hvalue]
  rfl

/-- No separator is ever part of a name that is read. -/
theorem notMem_of_getDebugInfo {text name : Name} {tempDebug : Std.TreeMap Name ℕ}
    (h : getDebugInfo text = some tempDebug) (hname : tempDebug[name]? ≠ none) :
    ',' ∉ name ∧ '\n' ∉ name := by
  rw [getDebugInfo_eq, Option.ite_none_right_eq_some] at h
  obtain ⟨-, heq⟩ := h
  rw [← Option.some.inj heq, Option.ne_none_iff_isSome, isSome_firstWins, List.map_map,
    List.mem_map] at hname
  obtain ⟨line, hline, rfl⟩ := hname
  exact ⟨notMem_splitFirst ',' line, fun hmem =>
    notMem_of_mem_pieces (List.mem_filter.mp hline).1 (splitFirst_subset ',' line hmem)⟩

/-! ## The round trip -/

/-- A string has a separator if its path has one. -/
theorem plain_tempLoc (loc : PresumedLoc) :
    Plain loc.tempLoc ↔ ',' ∉ loc.filename ∧ '\n' ∉ loc.filename := by
  have hnumber : ∀ sep : Char, sep.isDigit = false → sep ≠ ':' →
      (sep ∉ loc.tempLoc ↔ sep ∉ loc.filename) := by
    intro sep hsep hcolon
    have hdigits : sep ∉ decimal loc.line := fun hmem =>
      absurd (isDigit_of_mem_decimal hmem) (by rw [hsep]; exact Bool.false_ne_true)
    rw [PresumedLoc.tempLoc, List.mem_append, List.mem_cons, not_or, not_or]
    exact ⟨fun h => h.1, fun h => ⟨h, hcolon, hdigits⟩⟩
  constructor
  · intro h
    exact ⟨(hnumber ',' rfl (by decide)).mp h.comma, (hnumber '\n' rfl (by decide)).mp h.newline⟩
  · rintro ⟨hcomma, hnewline⟩
    refine ⟨?_, (hnumber ',' rfl (by decide)).mpr hcomma,
      (hnumber '\n' rfl (by decide)).mpr hnewline⟩
    rw [PresumedLoc.tempLoc]
    exact List.append_ne_nil_of_right_ne_nil _ (List.cons_ne_nil _ _)

/-- The rows can be written and read if no path has a separator. -/
theorem printable_locRows (hplain : ∀ loc ∈ locs, ',' ∉ loc.filename ∧ '\n' ∉ loc.filename)
    (hsize : (downCastLoc locs).size < 2 ^ 31) : Printable (locRows (downCastLoc locs)) where
  nodup := by
    rw [locRows, List.zipIdx_map_fst]
    refine Std.TreeSet.ordered_toList.imp fun hlt => ?_
    rintro rfl
    exact absurd (Std.ReflCmp.compare_self.symm.trans hlt) (by decide)
  plain row hrow := by
    obtain ⟨loc, hloc, heq⟩ := mem_downCastLoc.mp (mem_locRows.mp hrow).1
    rw [← heq, plain_tempLoc]
    exact hplain loc hloc
  small row hrow := by
    obtain ⟨hmem, hrank⟩ := mem_locRows.mp hrow
    rw [hrank]
    exact (rank_lt_size hmem).trans hsize

/-- **What is read** if no path has a separator: every location has its rank, and so has the
check. -/
theorem getDebugInfo_locRows (hplain : ∀ loc ∈ locs, ',' ∉ loc.filename ∧ '\n' ∉ loc.filename)
    (hsize : (downCastLoc locs).size < 2 ^ 31) :
    ∃ tempDebug, getDebugInfo (rowsText (locRows (downCastLoc locs))) = some tempDebug ∧
      (∀ loc ∈ locs, tempDebug[loc.tempLoc]? = some (rank (downCastLoc locs) loc.tempLoc)) ∧
      ∀ loc ∈ locs, debugIndex tempDebug loc = rank (downCastLoc locs) loc.tempLoc := by
  have hprintable := printable_locRows hplain hsize
  obtain ⟨tempDebug, hread, hrows⟩ := getDebugInfo_rowsText hprintable
  -- every location is in a row, with its rank
  have hrow : ∀ loc ∈ locs,
      (loc.tempLoc, rank (downCastLoc locs) loc.tempLoc) ∈ locRows (downCastLoc locs) :=
    fun loc hloc => mem_locRows.mpr ⟨mem_downCastLoc.mpr ⟨loc, hloc, rfl⟩, rfl⟩
  have hranks : ∀ loc ∈ locs,
      tempDebug[loc.tempLoc]? = some (rank (downCastLoc locs) loc.tempLoc) :=
    fun loc hloc => (hrows _ _).mpr (hrow loc hloc)
  refine ⟨tempDebug, hread, hranks, fun loc hloc => ?_⟩
  have hsmall := hprintable.small _ (hrow loc hloc)
  dsimp only at hsmall
  rw [debugIndex, hranks loc hloc]
  dsimp only
  rw [BitVec.toInt_eq_toNat_of_lt (by rw [BitVec.toNat_ofNat]; omega), BitVec.toNat_ofNat,
    Nat.mod_eq_of_lt (by omega)]

/-- If a path has a separator its location is not found. -/
theorem filename_of_roundTrips (h : RoundTrips locs) {loc : PresumedLoc} (hloc : loc ∈ locs) :
    ',' ∉ loc.filename ∧ '\n' ∉ loc.filename := by
  obtain ⟨text, tempDebug, -, hread, hranks, -⟩ := h
  have hfound : tempDebug[loc.tempLoc]? ≠ none := by
    rw [hranks loc hloc]
    exact Option.some_ne_none _
  obtain ⟨hcomma, hnewline⟩ := notMem_of_getDebugInfo hread hfound
  rw [PresumedLoc.tempLoc, List.mem_append, not_or] at hcomma hnewline
  exact ⟨hcomma.1, hnewline.1⟩

/-- **When the file carries the locations over**: no path has a comma or a newline, and the
numbers are those of an `int`. -/
theorem downCastLoc_roundTrip_iff (locs : List PresumedLoc) :
    RoundTrips locs ↔
      (∀ loc ∈ locs, ',' ∉ loc.filename ∧ '\n' ∉ loc.filename) ∧
        (downCastLoc locs).size < 2 ^ 31 := by
  constructor
  · intro h
    refine ⟨fun loc hloc => filename_of_roundTrips h hloc, ?_⟩
    obtain ⟨text, -, hwrite, -⟩ := h
    rw [outputDownCastLoc_eq] at hwrite
    by_contra hlarge
    rw [if_neg hlarge] at hwrite
    cases hwrite
  · rintro ⟨hplain, hsize⟩
    have hrow : ∀ loc ∈ locs,
        (loc.tempLoc, rank (downCastLoc locs) loc.tempLoc) ∈ locRows (downCastLoc locs) :=
      fun loc hloc => mem_locRows.mpr ⟨mem_downCastLoc.mpr ⟨loc, hloc, rfl⟩, rfl⟩
    have hwrite : outputDownCastLoc (downCastLoc locs) =
        some (rowsText (locRows (downCastLoc locs))) := by
      rw [outputDownCastLoc_eq, if_pos hsize]
    obtain ⟨tempDebug, hread, hranks, hindex⟩ := getDebugInfo_locRows hplain hsize
    refine ⟨_, tempDebug, hwrite, hread, hranks, fun loc hloc loc' hloc' hsame => ?_, hindex⟩
    -- the position in the list has one string
    rw [hranks loc hloc, hranks loc' hloc', Option.some.injEq] at hsame
    have hposition := hrow loc hloc
    have hposition' := hrow loc' hloc'
    rw [locRows, List.mem_zipIdx_iff_getElem?] at hposition hposition'
    dsimp only at hposition hposition'
    rw [hsame, hposition', Option.some.injEq] at hposition
    exact tempLoc_injective hposition.symm

/-- A path with a comma. -/
theorem comma_in_path : ¬ ∀ locs, RoundTrips locs := by
  intro h
  have hplain := filename_of_roundTrips (h [⟨"a,b.cpp".toList, 3⟩]) List.mem_cons_self
  exact absurd hplain.1 (by decide)

end Locations

end Bitype.Pass
