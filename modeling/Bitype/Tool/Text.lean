import Bitype.Foundations.Text
import Bitype.Tool.Output

/-!
# The text of the files

`ToolOutput` has the lines of the files as rows; this is what the rows look like.
-/

namespace Bitype.Tool

open Bitype.Foundations

/-- `outfile << value`. -/
def decimal (value : ℕ) : Name := Nat.toDigits 10 value

/-- `outfile << className << "," << rowResult.second`. -/
def rowLine (row : Name × ℕ) : Name := row.1 ++ ',' :: decimal row.2

/-- A line of `outputSafeCast`. -/
def safeCastLine (row : Name × List Name) : Name :=
  row.1 ++ row.2.flatMap fun tempclass => ',' :: tempclass

/-- Lines, each ended. -/
def fileText (lines : List Name) : Name := lines.flatMap fun line => line ++ ['\n']

/-- A name that takes one column of one line. -/
structure Plain (name : Name) : Prop where
  nonempty : name ≠ []
  comma : ',' ∉ name
  newline : '\n' ∉ name

theorem isDigit_of_mem_decimal {value : ℕ} {c : Char} (h : c ∈ decimal value) :
    c.isDigit = true :=
  Nat.isDigit_of_mem_toDigits (by decide) (by decide) h

theorem newline_notMem_rowLine {row : Name × ℕ} (h : Plain row.1) : '\n' ∉ rowLine row := by
  rw [rowLine, List.mem_append, List.mem_cons, not_or, not_or]
  refine ⟨h.newline, by decide, fun hmem => ?_⟩
  exact absurd (isDigit_of_mem_decimal hmem) (by decide)

theorem splitFirst_rowLine {row : Name × ℕ} (h : Plain row.1) :
    splitFirst ',' (rowLine row) = (row.1, decimal row.2) :=
  splitFirst_append h.comma (decimal row.2)

theorem rowLine_ne_nil (row : Name × ℕ) : rowLine row ≠ [] := by simp [rowLine]

/-- **The lines of a file are read back.** -/
theorem pieces_fileText {lines : List Name} (h : ∀ line ∈ lines, '\n' ∉ line) :
    pieces '\n' (fileText lines) = lines :=
  pieces_flatMap lines h

end Bitype.Tool
