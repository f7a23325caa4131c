import Bitype.Foundations.Unmarked
import Bitype.Pass.Downcast
import Bitype.Pass.SafeSource

/-!
# When the search for a safe source ends

`isSafeSrcValue` goes from a load to what the function stores into the loaded variable, and
from there to further loads.  Unlike the search of `isSafeStackAlloca` it keeps no set of what
it has visited.

`sourceTask` lists what it looks at for a value, in order; that makes it a search without
marks (`isSafeSrcValue_eq_search`).  It ends exactly if it cannot enter a cycle.  A cycle
behind a value that is not safe is never entered, so that order counts: the first store
decides whether the second is looked at.
-/

namespace Bitype.Pass

open Bitype.Foundations

namespace Function

section Task

variable (T : TypeTable) (F : Function)

/-- The values stored into a variable, in the order of the stores. -/
def storedValues (target : Value) : List Inst → List Value
  | [] => []
  | .store value pointer :: rest =>
      if target = pointer then value :: storedValues target rest else storedValues target rest
  | _ :: rest => storedValues target rest

/-- A variable is safe if everything stored into it is. -/
def pointerTask (target : Value) : Task Value Unit :=
  if F.isLocalPointer target = true then .ask (some ()) (storedValues target F.insts)
  else .answer none

/-- What the search does for a value.  The only answer is that it is safe. -/
def sourceTask : Value → Task Value Unit
  | .global _ => .answer (some ())
  | .other _ => .answer none
  | .inst i =>
      match F.insts[i]? with
      | some (.alloca type isPointerTy _) =>
          if T.isInterestingType type = true ∧ isStructType type = true then .answer (some ())
          else if isPointerTy = true then F.pointerTask (.inst i)
          else .answer none
      | some (.call allocatedType) => .answer (if T.isHeapObj allocatedType then some () else none)
      | some (.getElementPtr _ resultElementType) =>
          .answer (if isStructType resultElementType then some () else none)
      | some (.load pointer) => F.pointerTask pointer
      | some (.store value _) => .ask (some ()) [value]
      | some (.bitCast value) => .ask (some ()) [value]
      | _ => .answer none

/-- The instructions. -/
def instValues : Finset Value := (Finset.range F.insts.length).image .inst

end Task

variable {T : TypeTable} {F : Function}

/-! ## The source analysis as a search -/

theorem storesSafe_eq_collect (find : Value → Option (Option Unit)) (target : Value)
    (insts : List Inst) :
    storesSafe (fun v => (find v).map Option.isSome) target insts =
      (collect find (storedValues target insts) (some ())).map Option.isSome := by
  induction insts with
  | nil => rfl
  | cons inst rest ih =>
      cases inst with
      | store value pointer =>
          rw [storesSafe, storedValues]
          split
          · rw [collect]
            cases find value with
            | none => rfl
            | some safe =>
                cases safe with
                | none => rfl
                | some _ => exact ih
          · exact ih
      | _ => exact ih

theorem isSafePointer_eq_search {fuel : ℕ} {target : Value}
    (ih : F.isSafeSrcValue T fuel = fun v => (search (F.sourceTask T) fuel v).map Option.isSome) :
    F.isSafePointer (F.isSafeSrcValue T fuel) target =
      ((F.pointerTask target).result (search (F.sourceTask T) fuel)).map Option.isSome := by
  unfold isSafePointer pointerTask
  split
  · rw [ih]
    exact storesSafe_eq_collect _ target F.insts
  · rfl

/-- The source analysis is a search without marks. -/
theorem isSafeSrcValue_eq_search : ∀ fuel,
    F.isSafeSrcValue T fuel = fun v => (search (F.sourceTask T) fuel v).map Option.isSome := by
  intro fuel
  induction fuel with
  | zero => rfl
  | succ fuel ih =>
      funext v
      cases v with
      | global g => rfl
      | other o => rfl
      | inst i =>
          rw [isSafeSrcValue, search, sourceTask]
          cases hinst : F.insts[i]? with
          | none => rfl
          | some inst =>
              cases inst with
              | alloca type isPointerTy arraySize =>
                  dsimp only
                  split
                  · rfl
                  · split
                    · exact isSafePointer_eq_search ih
                    · rfl
              | load pointer => exact isSafePointer_eq_search ih
              | store value pointer =>
                  dsimp only
                  rw [result_ask_single fun _ => .inr rfl, ih]
              | bitCast value =>
                  dsimp only
                  rw [result_ask_single fun _ => .inr rfl, ih]
              | call allocatedType =>
                  dsimp only
                  cases T.isHeapObj allocatedType <;> rfl
              | getElementPtr pointer resultElementType =>
                  dsimp only
                  cases isStructType resultElementType <;> rfl
              | _ => rfl

/-! ## Termination -/

/-- Only instructions make the search go on. -/
theorem asks_instValues {v : Value} {start : Option Unit} {values : List Value}
    (h : F.sourceTask T v = .ask start values) : v ∈ F.instValues := by
  cases v with
  | global g => cases h
  | other o => cases h
  | inst i =>
      cases hinst : F.insts[i]? with
      | none =>
          rw [sourceTask, hinst] at h
          cases h
      | some inst =>
          have hi := (List.getElem?_eq_some_iff.mp hinst).1
          exact Finset.mem_image_of_mem _ (Finset.mem_range.mpr hi)

/-- **When the source analysis ends**: if it cannot enter a cycle of loads, stores and
casts. -/
theorem isSafeSrcValue_ends_iff (T : TypeTable) (F : Function) (v : Value) :
    (∃ fuel safe, F.isSafeSrcValue T fuel v = some safe) ↔ ¬ Circular (F.sourceTask T) v := by
  rw [← search_ends_iff (fun v _ _ => asks_instValues) v]
  constructor
  · rintro ⟨fuel, safe, hsafe⟩
    rw [isSafeSrcValue_eq_search] at hsafe
    obtain ⟨r, hr, -⟩ := Option.map_eq_some_iff.mp hsafe
    exact ⟨fuel, r, hr⟩
  · rintro ⟨fuel, r, hr⟩
    refine ⟨fuel, r.isSome, ?_⟩
    rw [isSafeSrcValue_eq_search]
    exact congrArg (Option.map Option.isSome) hr

/-- `T *p = &g; p = p;` and a cast of `p`. -/
def selfAssignment : Function where
  insts := [.alloca (.other 8) true (some 1), .store (.global 0) (.inst 0), .load (.inst 0),
    .store (.inst 2) (.inst 0), .load (.inst 0), .ptrToInt (.inst 4), .ret none]
  successors i := if i < 6 then [i + 1] else []
  nonempty := by decide
  closed := by decide

/-- The variable is safe if it is. -/
theorem selfAssignment_loops : ∀ fuel,
    selfAssignment.isSafeSrcValue pairModule.toTypeTable fuel (.inst 2) = none := by
  intro fuel
  induction fuel with
  | zero => rfl
  | succ fuel ih =>
      rw [isSafeSrcValue]
      cases fuel with
      | zero => rfl
      | succ fuel =>
          have hstep : storesSafe (selfAssignment.isSafeSrcValue pairModule.toTypeTable (fuel + 1))
              (.inst 0) selfAssignment.insts =
                (selfAssignment.isSafeSrcValue pairModule.toTypeTable (fuel + 1) (.inst 2)).bind
                  fun safe => if safe = true then some true else some false := rfl
          exact hstep.trans (by rw [ih]; rfl)

/-- No fuel is enough for the source of the cast. -/
theorem selfAssignment_not_ends : ¬ ∃ fuel safe,
    selfAssignment.isSafeSrcValue pairModule.toTypeTable fuel (.inst 4) = some safe := by
  rintro ⟨fuel, safe, hsafe⟩
  -- the two loads are of the same variable
  have hsame : selfAssignment.isSafeSrcValue pairModule.toTypeTable fuel (.inst 4) =
      selfAssignment.isSafeSrcValue pairModule.toTypeTable fuel (.inst 2) := by
    cases fuel <;> rfl
  rw [hsame, selfAssignment_loops] at hsafe
  cases hsafe

end Function

end Bitype.Pass
