import Mathlib.Data.List.Basic
import Mathlib.Tactic.Basic

/-!
# Logs of writes

A program that only writes to a store leaves, at each key, the last value it wrote there.
A log is the list of its writes, oldest first; `written` is the store it leaves.

Two orders of the same writes leave the same store if the writes to each key agree
(`lastWrite_of_agree`).  If they do not, what decides at a key is the last group of writes
that reaches it (`lastWrite_flatMap`).
-/

namespace Bitype.Foundations

variable {ι α β : Type*} [DecidableEq ι]

/-- The last value a log writes at a key. -/
def lastWrite : List (ι × α) → ι → Option α
  | [], _ => none
  | write :: rest, i => (lastWrite rest i).or (if write.1 = i then some write.2 else none)

/-- The store that a log of writes leaves. -/
def written (log : List (ι × α)) (store : ι → α) : ι → α :=
  fun i => (lastWrite log i).getD (store i)

@[simp] theorem lastWrite_nil (i : ι) : lastWrite ([] : List (ι × α)) i = none := rfl

theorem lastWrite_cons (write : ι × α) (rest : List (ι × α)) (i : ι) :
    lastWrite (write :: rest) i =
      (lastWrite rest i).or (if write.1 = i then some write.2 else none) := rfl

theorem lastWrite_append (log log' : List (ι × α)) (i : ι) :
    lastWrite (log ++ log') i = (lastWrite log' i).or (lastWrite log i) := by
  induction log with
  | nil => rw [List.nil_append, lastWrite_nil, Option.or_none]
  | cons write rest ih => rw [List.cons_append, lastWrite_cons, ih, lastWrite_cons, Option.or_assoc]

/-- What a log leaves was written. -/
theorem mem_of_lastWrite {log : List (ι × α)} {i : ι} {a : α} (h : lastWrite log i = some a) :
    (i, a) ∈ log := by
  induction log with
  | nil => cases h
  | cons write rest ih =>
      rw [lastWrite_cons, Option.or_eq_some_iff] at h
      rcases h with hlater | ⟨-, hfirst⟩
      · exact List.mem_cons_of_mem _ (ih hlater)
      · split at hfirst
        · next hkey =>
            obtain rfl := Option.some.inj hfirst
            exact hkey ▸ List.mem_cons_self
        · cases hfirst

/-- A key is left alone if nothing is written there. -/
theorem lastWrite_eq_none_iff {log : List (ι × α)} {i : ι} :
    lastWrite log i = none ↔ ∀ write ∈ log, write.1 ≠ i := by
  induction log with
  | nil => simp
  | cons write rest ih =>
      rw [lastWrite_cons, Option.or_eq_none_iff, ih, List.forall_mem_cons, and_comm]
      simp

/-- A key that is written holds something. -/
theorem exists_lastWrite {log : List (ι × α)} {write : ι × α} (h : write ∈ log) :
    ∃ a, lastWrite log write.1 = some a := by
  apply Option.ne_none_iff_exists'.mp
  intro hnone
  exact lastWrite_eq_none_iff.mp hnone write h rfl

/-- Writes to a key that agree leave the value they agree on. -/
theorem lastWrite_of_agree {log : List (ι × α)} {i : ι} {a : α} (hmem : (i, a) ∈ log)
    (hagree : ∀ write ∈ log, write.1 = i → write.2 = a) : lastWrite log i = some a := by
  cases hlast : lastWrite log i with
  | none => exact absurd rfl (lastWrite_eq_none_iff.mp hlast _ hmem)
  | some b => exact congrArg some (hagree _ (mem_of_lastWrite hlast) rfl)

/-- **The last group of writes to reach a key decides.**  The groups come in the order of
`r`. -/
theorem lastWrite_flatMap {r : β → β → Prop} {f : β → List (ι × α)} {i : ι} {a : α} :
    ∀ xs : List β, xs.Pairwise r → lastWrite (xs.flatMap f) i = some a →
      ∃ x ∈ xs, lastWrite (f x) i = some a ∧
        ∀ y ∈ xs, ∀ write ∈ f y, write.1 = i → y = x ∨ r y x := by
  intro xs
  induction xs with
  | nil => exact fun _ h => by cases h
  | cons x rest ih =>
      intro hsorted h
      obtain ⟨hfirst, hrest⟩ := List.pairwise_cons.mp hsorted
      rw [List.flatMap_cons, lastWrite_append, Option.or_eq_some_iff] at h
      rcases h with hlater | ⟨hnone, hhere⟩
      · obtain ⟨y, hy, hwrite, hlast⟩ := ih hrest hlater
        refine ⟨y, List.mem_cons_of_mem _ hy, hwrite, fun z hz write hmem hkey => ?_⟩
        rcases List.mem_cons.mp hz with rfl | hz
        · exact .inr (hfirst y hy)
        · exact hlast z hz write hmem hkey
      · refine ⟨x, List.mem_cons_self, hhere, fun z hz write hmem hkey => ?_⟩
        rcases List.mem_cons.mp hz with rfl | hz
        · exact .inl rfl
        · -- nothing behind `x` reaches the key
          have hlater := List.mem_flatMap.mpr ⟨z, hz, hmem⟩
          exact absurd hkey (lastWrite_eq_none_iff.mp hnone write hlater)

/-- **Groups that write to a key no more than once** leave there what the one does. -/
theorem lastWrite_flatMap_eq {f : β → List (ι × α)} {i : ι} {a : Option α} {xs : List β} {x : β}
    (hx : x ∈ xs) (hwrite : lastWrite (f x) i = a)
    (hothers : ∀ y ∈ xs, lastWrite (f y) i = a ∨ lastWrite (f y) i = none) :
    lastWrite (xs.flatMap f) i = a := by
  cases hlast : lastWrite (xs.flatMap f) i with
  | none =>
      rw [← hwrite, eq_comm, lastWrite_eq_none_iff]
      intro write hmem
      exact lastWrite_eq_none_iff.mp hlast write (List.mem_flatMap.mpr ⟨x, hx, hmem⟩)
  | some b =>
      have htrivial : xs.Pairwise fun _ _ => True := List.pairwise_of_forall fun _ _ => trivial
      obtain ⟨y, hy, hlater, -⟩ := lastWrite_flatMap xs htrivial hlast
      rcases hothers y hy with hsame | hnone
      · exact hlater.symm.trans hsame
      · rw [hlater] at hnone
        cases hnone

/-- Groups none of which writes to a key. -/
theorem lastWrite_flatMap_none {f : β → List (ι × α)} {i : ι} {xs : List β}
    (h : ∀ x ∈ xs, lastWrite (f x) i = none) : lastWrite (xs.flatMap f) i = none := by
  rw [lastWrite_eq_none_iff]
  intro write hmem
  obtain ⟨x, hx, hmem⟩ := List.mem_flatMap.mp hmem
  exact lastWrite_eq_none_iff.mp (h x hx) write hmem

/-! ## Stores -/

variable (store : ι → α)

@[simp] theorem written_nil : written [] store = store := rfl

theorem written_append (log log' : List (ι × α)) :
    written (log ++ log') store = written log' (written log store) := by
  funext i
  unfold written
  rw [lastWrite_append]
  cases lastWrite log' i with
  | none => rfl
  | some a => rfl

theorem written_singleton (i : ι) (a : α) : written [(i, a)] store = Function.update store i a := by
  funext j
  simp only [written, lastWrite, Option.none_or]
  by_cases hsame : i = j
  · subst hsame
    rw [if_pos rfl, Function.update_self]
    rfl
  · rw [if_neg hsame, Function.update_of_ne (Ne.symm hsame)]
    rfl

theorem written_of_lastWrite {log : List (ι × α)} {i : ι} {a : α} (h : lastWrite log i = some a) :
    written log store i = a := by
  rw [written, h]
  rfl

theorem written_of_untouched {log : List (ι × α)} {i : ι} (h : ∀ write ∈ log, write.1 ≠ i) :
    written log store i = store i := by
  rw [written, lastWrite_eq_none_iff.mpr h]
  rfl

end Bitype.Foundations
