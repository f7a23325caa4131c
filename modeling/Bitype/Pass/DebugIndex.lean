import Bitype.Pass.DownCastLoc
import Bitype.Runtime.Check

/-!
# The numbers of downcast locations at run time

A check carries the number of its location, and the run time remembers in
`bool debugArray[10000]` which locations it has reported.  The number comes from the tool,
through its file and two conversions of the front end, and nothing on the way limits it.

`debugIndices_valid_iff`: every access is inside the array exactly if the file says no number
from 10000 on for a check.  Where no path has a comma or a newline, that is when there are at
most 10000 locations, or 2^31 and more: these overflow the `int` that the tool counts them in,
which the source leaves undefined, and here there is no file then.
-/

namespace Bitype.Pass

open Bitype.Foundations Bitype.Runtime Bitype.Tool SanitizerRelation

/-! ## The array -/

/-- `debugArray`. -/
abbrev DebugArray := Vector Bool 10000

/-- `print_confusion_inline`, and `__bitype_print_type_confusion`, on the array as it is
declared: there is no result if the access is outside. -/
def printConfusionChecked (debug : U32) (debugArray : DebugArray) : Option DebugArray :=
  if debug.slt 0 then some debugArray
  else if h : debug.toNat < 10000 then
    if debugArray[debug.toNat] then some debugArray
    else some (debugArray.set debug.toNat true h)
  else none

/-- The array is the beginning of the one of the state. -/
def HoldsArray (s : Shadow) (debugArray : DebugArray) : Prop :=
  ∀ (i : ℕ) (hi : i < 10000), s.debugArray i = debugArray[i]

/-- **Inside the array it is the function on states.** -/
theorem printConfusionChecked_refines {debug : U32} {s : Shadow} {debugArray after : DebugArray}
    (hs : HoldsArray s debugArray) (h : printConfusionChecked debug debugArray = some after) :
    HoldsArray (printConfusionInline debug s) after := by
  intro i hi
  unfold printConfusionChecked at h
  unfold printConfusionInline
  -- a negative number is not a location
  by_cases hnegative : debug.slt 0 = true
  · rw [if_pos hnegative] at h ⊢
    obtain rfl := Option.some.inj h
    exact hs i hi
  · rw [if_neg hnegative] at h ⊢
    by_cases hinside : debug.toNat < 10000
    · rw [dif_pos hinside, ← hs debug.toNat hinside] at h
      by_cases hreported : s.debugArray debug.toNat = true
      · rw [if_pos hreported] at h ⊢
        obtain rfl := Option.some.inj h
        exact hs i hi
      · rw [if_neg hreported] at h ⊢
        obtain rfl := Option.some.inj h
        rw [Vector.getElem_set]
        dsimp only
        by_cases hsame : debug.toNat = i
        · rw [if_pos hsame, hsame, Function.update_self]
        · rw [if_neg hsame, Function.update_of_ne (Ne.symm hsame)]
          exact hs i hi
    -- behind the end the checked version stops
    · rw [dif_neg hinside] at h
      cases h

/-- The access is inside exactly if the number is negative or an index. -/
theorem isSome_printConfusionChecked (debug : U32) (debugArray : DebugArray) :
    (printConfusionChecked debug debugArray).isSome = true ↔
      debug.toInt < 0 ∨ debug.toNat < 10000 := by
  have hslt : debug.slt 0 = true ↔ debug.toInt < 0 := BitVec.slt_iff_toInt_lt
  unfold printConfusionChecked
  by_cases hnegative : debug.toInt < 0
  · rw [if_pos (hslt.mpr hnegative)]
    exact ⟨fun _ => .inl hnegative, fun _ => rfl⟩
  · rw [if_neg (mt hslt.mp hnegative), or_iff_right hnegative]
    by_cases hinside : debug.toNat < 10000
    · rw [dif_pos hinside]
      refine ⟨fun _ => hinside, fun _ => ?_⟩
      split
      · rfl
      · rfl
    · rw [dif_neg hinside]
      exact ⟨fun h => absurd h Bool.false_ne_true, fun h => absurd h hinside⟩

/-- As an `int` it is then less than 10000. -/
theorem isSome_iff_toInt_lt (debug : U32) (debugArray : DebugArray) :
    (printConfusionChecked debug debugArray).isSome = true ↔ debug.toInt < 10000 := by
  have hcases := BitVec.toInt_eq_toNat_cond debug
  have hlt := debug.isLt
  rw [isSome_printConfusionChecked]
  constructor
  · rintro (hnegative | hinside)
    · omega
    · split at hcases <;> omega
  · intro h
    split at hcases
    · right
      omega
    · left
      omega

/-! ## From the file to the check -/

/-- `debugValue` in `BitypeEmitCheck`: `ConstantInt::get` takes the `int` as a `uint64_t`. -/
def debugValue (debugIndex : ℤ) : U32 := (BitVec.ofInt 64 debugIndex).setWidth 32

theorem toInt_debugValue {debugIndex : ℤ} (h : IsInt debugIndex) :
    (debugValue debugIndex).toInt = debugIndex := by
  obtain ⟨hlow, hhigh⟩ := h
  rw [debugValue, BitVec.toInt_setWidth, BitVec.toNat_ofInt, Int.bmod_def]
  omega

/-- An `int` that has been an `unsigned`. -/
theorem toInt_ofNat_unsigned {value : ℤ} (h : IsInt value) :
    (BitVec.ofNat 32 (unsigned value)).toInt = value := by
  obtain ⟨hlow, hhigh⟩ := h
  rw [BitVec.toInt_ofNat', unsigned, Int.bmod_def]
  omega

theorem isInt_debugIndex (tempDebug : Std.TreeMap Name ℕ) (loc : PresumedLoc) :
    IsInt (debugIndex tempDebug loc) := by
  unfold debugIndex
  split
  · exact ⟨BitVec.le_toInt _, BitVec.toInt_lt⟩
  · decide

/-- **The number a check gets**: that of the first line with its location. -/
theorem debugIndex_of_getDebugInfo {text : Name} {tempDebug : Std.TreeMap Name ℕ}
    (h : getDebugInfo text = some tempDebug) (loc : PresumedLoc) :
    debugIndex tempDebug loc =
      (((rowsOf text).find? fun line => nameOf line = loc.tempLoc).bind debugNumber).getD (-1) := by
  rw [getDebugInfo_eq, Option.ite_none_right_eq_some] at h
  obtain ⟨hnumbers, heq⟩ := h
  rw [debugIndex, ← Option.some.inj heq, firstWins, foldl_insertIfNew,
    Std.TreeMap.getElem?_emptyc, Option.none_or, List.find?_map]
  dsimp only [Function.comp_def]
  cases hfind : (rowsOf text).find? fun line => decide (nameOf line = loc.tempLoc) with
  | none => rfl
  | some line =>
      obtain ⟨number, hnumber⟩ :=
        Option.isSome_iff_exists.mp (hnumbers line (List.mem_of_find?_eq_some hfind))
      simp only [Option.map_some, Option.bind_some, hnumber, Option.getD_some]
      exact toInt_ofNat_unsigned (isInt_of_stoi hnumber)

/-! ## When the numbers fit -/

/-- **No access is outside the array**: whatever has been reported before, if the tool has
been run over casts at `locs` and its file is read, then a check at any of `checks` can
report. -/
def DebugIndicesValid (locs checks : List PresumedLoc) : Prop :=
  ∀ text tempDebug, outputDownCastLoc (downCastLoc locs) = some text →
    getDebugInfo text = some tempDebug →
      ∀ loc ∈ checks, ∀ debugArray : DebugArray,
        (printConfusionChecked (debugValue (debugIndex tempDebug loc)) debugArray).isSome = true

/-- The lines that the numbered locations make. -/
def debugLines (locs : List PresumedLoc) : List Name :=
  rowsOf (rowsText (locRows (downCastLoc locs)))

/-- If the locations can be numbered and every line has a number, then the first line of the
location of a check has none from 10000 on. -/
def NumbersFit (locs checks : List PresumedLoc) : Prop :=
  (downCastLoc locs).size < 2 ^ 31 →
    (∀ line ∈ debugLines locs, (debugNumber line).isSome = true) →
      ∀ loc ∈ checks, ∀ line number,
        (debugLines locs).find? (fun line => nameOf line = loc.tempLoc) = some line →
          debugNumber line = some number → number < 10000

section Valid

variable {locs checks : List PresumedLoc}

theorem valid_iff : DebugIndicesValid locs checks ↔
    ∀ tempDebug, (downCastLoc locs).size < 2 ^ 31 →
      getDebugInfo (rowsText (locRows (downCastLoc locs))) = some tempDebug →
        ∀ loc ∈ checks, debugIndex tempDebug loc < 10000 := by
  have hchecked : ∀ tempDebug loc (debugArray : DebugArray),
      (printConfusionChecked (debugValue (debugIndex tempDebug loc)) debugArray).isSome = true ↔
        debugIndex tempDebug loc < 10000 := by
    intro tempDebug loc debugArray
    rw [isSome_iff_toInt_lt, toInt_debugValue (isInt_debugIndex tempDebug loc)]
  unfold DebugIndicesValid
  simp only [hchecked, outputDownCastLoc_eq, Option.ite_none_right_eq_some, Option.some.injEq]
  constructor
  · intro h tempDebug hsize hread loc hloc
    exact h _ tempDebug ⟨hsize, rfl⟩ hread loc hloc (Vector.replicate 10000 false)
  · intro h text tempDebug hwrite hread loc hloc _
    obtain ⟨hsize, rfl⟩ := hwrite
    exact h tempDebug hsize hread loc hloc

/-- **The general case.** -/
theorem valid_iff_numbersFit : DebugIndicesValid locs checks ↔ NumbersFit locs checks := by
  rw [valid_iff]
  constructor
  · intro h hsize hnumbers loc hloc line number hfind hnumber
    have hread := (getDebugInfo_eq _).trans (if_pos hnumbers)
    have hindex := debugIndex_of_getDebugInfo hread loc
    rw [← debugLines, hfind, Option.bind_some, hnumber, Option.getD_some] at hindex
    exact hindex ▸ h _ hsize hread loc hloc
  · intro h tempDebug hsize hread loc hloc
    rw [debugIndex_of_getDebugInfo hread loc, ← debugLines]
    have hnumbers : ∀ line ∈ debugLines locs, (debugNumber line).isSome = true := by
      rw [getDebugInfo_eq, Option.ite_none_right_eq_some] at hread
      exact hread.1
    -- a check without a line, or without a number, keeps the index it starts with
    cases hfind : (debugLines locs).find? fun line => decide (nameOf line = loc.tempLoc) with
    | none => decide
    | some line =>
        rw [Option.bind_some]
        cases hnumber : debugNumber line with
        | none => decide
        | some number => exact h hsize hnumbers loc hloc line number hfind hnumber

/-- **Paths without separators**: the numbers are the ranks. -/
theorem valid_iff_size (hplain : ∀ loc ∈ locs, ',' ∉ loc.filename ∧ '\n' ∉ loc.filename) :
    DebugIndicesValid locs locs ↔
      (downCastLoc locs).size ≤ 10000 ∨ 2 ^ 31 ≤ (downCastLoc locs).size := by
  rw [valid_iff]
  constructor
  · intro h
    by_contra hcount
    rw [not_or, Nat.not_le, Nat.not_le] at hcount
    obtain ⟨hmany, hsize⟩ := hcount
    obtain ⟨tempDebug, hread, -, hindex⟩ := getDebugInfo_locRows hplain hsize
    -- the location with 10000 smaller ones
    rw [← Std.TreeSet.length_toList] at hmany
    have hposition := List.getElem?_eq_getElem hmany
    obtain ⟨loc, hloc, htempLoc⟩ :=
      mem_downCastLoc.mp (Std.TreeSet.mem_toList.mp (List.getElem_mem hmany))
    have hbound := h tempDebug hsize hread loc hloc
    rw [hindex loc hloc, htempLoc, rank_of_getElem? hposition] at hbound
    exact absurd hbound (by decide)
  · intro hcount tempDebug hsize hread loc hloc
    obtain ⟨tempDebug', hread', -, hindex⟩ := getDebugInfo_locRows hplain hsize
    obtain rfl := Option.some.inj (hread.symm.trans hread')
    have hrank := rank_lt_size (mem_downCastLoc.mpr ⟨loc, hloc, rfl⟩)
    rw [hindex loc hloc]
    omega

end Valid

/-- **When every debug index is negative or an index of the array**: no check gets a number
from 10000 on; where no path has a separator, there are at most 10000 locations, or so many that
counting them overflows an `int` and no file is written. -/
theorem debugIndices_valid_iff (locs checks : List PresumedLoc) :
    (DebugIndicesValid locs checks ↔ NumbersFit locs checks) ∧
      ((∀ loc ∈ locs, ',' ∉ loc.filename ∧ '\n' ∉ loc.filename) →
        (DebugIndicesValid locs locs ↔
          (downCastLoc locs).size ≤ 10000 ∨ 2 ^ 31 ≤ (downCastLoc locs).size)) :=
  ⟨valid_iff_numbersFit, valid_iff_size⟩

/-! ## One location too many -/

/-- Locations that differ have different strings. -/
theorem size_downCastLoc {locs : List PresumedLoc} (h : locs.Nodup) :
    (downCastLoc locs).size = locs.length := by
  have hstrings : (locs.map PresumedLoc.tempLoc).Nodup :=
    h.map fun _ _ => tempLoc_injective
  have hsorted : (downCastLoc locs).toList.Nodup := by
    refine Std.TreeSet.ordered_toList.imp fun hlt => ?_
    rintro rfl
    exact absurd (Std.ReflCmp.compare_self.symm.trans hlt) (by decide)
  have hsame : (downCastLoc locs).toList.Perm (locs.map PresumedLoc.tempLoc) := by
    rw [List.perm_ext_iff_of_nodup hsorted hstrings]
    intro tempLoc
    rw [Std.TreeSet.mem_toList, mem_downCastLoc, List.mem_map]
  rw [← Std.TreeSet.length_toList, hsame.length_eq, List.length_map]

/-- Downcasts on the first lines of one file. -/
def longFile (lines : ℕ) : List PresumedLoc :=
  (List.range lines).map fun line => ⟨"a.cpp".toList, line + 1⟩

/-- A file with 10001 downcasts. -/
theorem one_location_too_many : ¬ DebugIndicesValid (longFile 10001) (longFile 10001) := by
  intro h
  have hplain : ∀ loc ∈ longFile 10001, ',' ∉ loc.filename ∧ '\n' ∉ loc.filename := by
    intro loc hloc
    obtain ⟨line, -, rfl⟩ := List.mem_map.mp hloc
    change ',' ∉ "a.cpp".toList ∧ '\n' ∉ "a.cpp".toList
    decide
  have hnodup : (longFile 10001).Nodup := by
    apply List.nodup_range.map
    intro line line' hsame
    exact Nat.succ.inj (PresumedLoc.mk.inj hsame).2
  have hsize : (downCastLoc (longFile 10001)).size = 10001 := by
    rw [size_downCastLoc hnodup, longFile, List.length_map, List.length_range]
  have hcount := (valid_iff_size hplain).mp h
  rw [hsize] at hcount
  omega

end Bitype.Pass
