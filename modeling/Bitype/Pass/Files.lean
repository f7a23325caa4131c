import Bitype.Tool.Output

/-!
# The files the pass reads

`InitReadFiles` reads what the tool wrote.  A row whose class has been read before
changes nothing, and a row of `safecast.txt` stands for its own class as well.
-/

namespace Bitype.Pass

open Bitype.Tool

/-- The maps of the pass. -/
structure ClassFiles where
  bitypeCodeMap : Std.TreeMap Name ℕ
  bitypeCastRelatedClass : Std.TreeMap Name ℕ
  bitypeInheritanceSet : Std.TreeMap Name (Std.TreeSet Name)
  bitypeClassIndexSet2 : Std.TreeMap Name ℕ

/-- `readCodeMap`, and `createCodeMap` of the front end. -/
def readCodeMap (rows : List (Name × ℕ)) : Std.TreeMap Name ℕ :=
  rows.foldl (fun codeMap row => codeMap.insertIfNew row.1 row.2) ∅

/-- The class numbers `readRelatedClass` gives besides: the number of the row. -/
def readClassIndex (rows : List (Name × ℕ)) : Std.TreeMap Name ℕ :=
  rows.zipIdx.foldl (fun indexSet row => indexSet.insertIfNew row.1.1 row.2) ∅

/-- The parts of a line, taken as `split` gives them: the loop ends when what is left of
the line is empty, and an empty last part is no name. -/
def lineNames : Name → List Name → List Name
  | first, [] => if first = [] then [] else [first]
  | first, next :: rest =>
      if next :: rest = [[]] then (if first = [] then [] else [first])
      else first :: lineNames next rest

/-- `readInheritanceSet`; a class without further names is skipped. -/
def readInheritanceSet (rows : List (Name × List Name)) :
    Std.TreeMap Name (Std.TreeSet Name) :=
  rows.foldl
    (fun inheritanceSet row =>
      if row.2 = [] ∨ row.2 = [[]] then inheritanceSet
      else inheritanceSet.insertIfNew row.1 (Std.TreeSet.ofList (lineNames row.1 row.2)))
    ∅

/-- `InitReadFiles`. -/
def initReadFiles (out : ToolOutput) : ClassFiles where
  bitypeCodeMap := readCodeMap out.codingNum
  bitypeCastRelatedClass := readCodeMap out.castrelatedSet
  bitypeInheritanceSet := readInheritanceSet out.safecast
  bitypeClassIndexSet2 := readClassIndex out.castrelatedSet

/-- The maps come from an output of the tool. -/
def FromTool (files : ClassFiles) : Prop := ∃ out, Writes out ∧ files = initReadFiles out

theorem exists_of_readCodeMap {name : Name} {code : ℕ} :
    ∀ (rows : List (Name × ℕ)) (codeMap : Std.TreeMap Name ℕ),
      (rows.foldl (fun codeMap row => codeMap.insertIfNew row.1 row.2) codeMap)[name]? =
        some code → codeMap[name]? = some code ∨ (name, code) ∈ rows := by
  intro rows
  induction rows with
  | nil => exact fun _ h => .inl h
  | cons row rest ih =>
      intro codeMap h
      rcases ih _ h with hfound | hrest
      · rw [Std.TreeMap.getElem?_insertIfNew] at hfound
        split at hfound
        · next hnew =>
            obtain rfl := Std.LawfulEqCmp.eq_of_compare hnew.1
            exact .inr (Option.some.inj hfound ▸ List.mem_cons_self)
        · exact .inl hfound
      · exact .inr (List.mem_cons_of_mem _ hrest)

/-- **Codes read from the tool are positive and small.** -/
theorem FromTool.code_range {files : ClassFiles} (h : FromTool files) {name : Name} {code : ℕ}
    (hcode : files.bitypeCodeMap[name]? = some code) : 1 ≤ code ∧ code ≤ MAX_NUM_CLASS := by
  obtain ⟨out, hout, rfl⟩ := h
  rcases exists_of_readCodeMap out.codingNum ∅ hcode with hempty | hrow
  · simp at hempty
  · exact (rows_range hout).1 _ hrow

theorem FromTool.size_le {files : ClassFiles} (h : FromTool files) {name : Name} {size : ℕ}
    (hsize : files.bitypeCastRelatedClass[name]? = some size) : size ≤ MAX_NUM_CLASS := by
  obtain ⟨out, hout, rfl⟩ := h
  rcases exists_of_readCodeMap out.castrelatedSet ∅ hsize with hempty | hrow
  · simp at hempty
  · exact (rows_range hout).2 _ hrow

/-- Numbers are positive, and numbers and family sizes are values of an `int`. -/
structure ClassFiles.Numbered (files : ClassFiles) : Prop where
  code_pos : ∀ (name : Name) (code : ℕ), files.bitypeCodeMap[name]? = some code → 1 ≤ code
  code_lt : ∀ (name : Name) (code : ℕ), files.bitypeCodeMap[name]? = some code → code < 2 ^ 31
  size_lt : ∀ (name : Name) (size : ℕ), files.bitypeCastRelatedClass[name]? = some size → size < 2 ^ 31

theorem FromTool.numbered {files : ClassFiles} (h : FromTool files) : files.Numbered where
  code_pos _ _ hcode := (h.code_range hcode).1
  code_lt _ _ hcode := (h.code_range hcode).2.trans_lt (by decide)
  size_lt _ _ hsize := (h.size_le hsize).trans_lt (by decide)

end Bitype.Pass
