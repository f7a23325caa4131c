import Bitype.Foundations.Unmarked
import Bitype.Pass.StackPlan

/-!
# When the alloca behind a value is found

`findAllocaForValue` goes back through casts and phis.  It skips an incoming value that is the
phi itself, but marks nothing, so it goes round between two phis that refer to each other.

Where it comes to an end its result is right: an alloca is found only if everything the value
may come from is that alloca (`findAllocaForValue_right`).  So `FindsAlloca` holds exactly if
no cycle can be entered; one behind an incoming value that another one already differs from,
or that is no alloca, is not.
-/

namespace Bitype.Pass

open Bitype.Foundations

namespace Function

section Task

variable (F : Function)

/-- What `findAllocaForValue` does for a value. -/
def allocaTask : Value → Task Value ℕ
  | .inst i =>
      match F.insts[i]? with
      | some (.alloca ..) => .answer (some i)
      | some (.bitCast value) | some (.ptrToInt value) | some (.cast value) => .ask none [value]
      | some (.phi incoming) => .ask none (incoming.filter fun v => v ≠ .inst i)
      | _ => .answer none
  | _ => .answer none

/-- A value reaches another in one step: it is the operand of a cast, or comes in at a phi. -/
inductive Passes : Value → Value → Prop
  | bitCast {i : ℕ} {value : Value} (hinst : F.insts[i]? = some (.bitCast value)) :
      Passes (.inst i) value
  | ptrToInt {i : ℕ} {value : Value} (hinst : F.insts[i]? = some (.ptrToInt value)) :
      Passes (.inst i) value
  | cast {i : ℕ} {value : Value} (hinst : F.insts[i]? = some (.cast value)) :
      Passes (.inst i) value
  | phi {i : ℕ} {incoming : List Value} {value : Value}
      (hinst : F.insts[i]? = some (.phi incoming)) (hvalue : value ∈ incoming) :
      Passes (.inst i) value

/-- Neither a cast nor a phi. -/
def IsSource (v : Value) : Prop :=
  ∀ i, v = .inst i → ∀ value incoming, F.insts[i]? ≠ some (.bitCast value) ∧
    F.insts[i]? ≠ some (.ptrToInt value) ∧ F.insts[i]? ≠ some (.cast value) ∧
    F.insts[i]? ≠ some (.phi incoming)

/-- The search ends, and if it finds an alloca, then everything that reaches the value through
casts and phis is that alloca. -/
def FindsAlloca (v : Value) : Prop :=
  (∃ fuel found, F.findAllocaForValue fuel v = some found) ∧
    ∀ fuel a, F.findAllocaForValue fuel v = some (some a) →
      ∀ w, Relation.ReflTransGen F.Passes v w → F.IsSource w →
        w = .inst a ∧ ∃ type isPointerTy arraySize,
          F.insts[a]? = some (.alloca type isPointerTy arraySize)

end Task

variable {F : Function}

/-! ## The recursion as a search -/

theorem findIncoming_eq_collect (find : Value → Option (Option ℕ)) (phi : ℕ) :
    ∀ (incoming : List Value) (res : Option ℕ), findIncoming find phi incoming res =
      collect find (incoming.filter fun v => v ≠ .inst phi) res := by
  intro incoming
  induction incoming with
  | nil => exact fun _ => rfl
  | cons incValue rest ih =>
      intro res
      rw [findIncoming, List.filter_cons]
      by_cases hself : incValue = .inst phi
      · rw [if_pos hself, if_neg (by simpa using hself)]
        exact ih res
      · rw [if_neg hself, if_pos (by simpa using hself), collect]
        cases find incValue with
        | none => rfl
        | some found =>
            cases found with
            | none => rfl
            | some incValueAI =>
                simp only [Option.bind_eq_bind, Option.bind_some]
                rw [ih]

/-- `findAllocaForValue` is a search without marks. -/
theorem findAllocaForValue_eq_search : ∀ fuel,
    F.findAllocaForValue fuel = search F.allocaTask fuel := by
  intro fuel
  induction fuel with
  | zero => rfl
  | succ fuel ih =>
      funext v
      cases v with
      | global g => rfl
      | other o => rfl
      | inst i =>
          rw [findAllocaForValue, search, allocaTask]
          cases hinst : F.insts[i]? with
          | none => rfl
          | some inst =>
              cases inst with
              | phi incoming =>
                  dsimp only
                  rw [ih]
                  exact findIncoming_eq_collect _ i incoming none
              | bitCast value =>
                  dsimp only
                  rw [result_ask_single fun _ => .inl rfl, ih]
              | ptrToInt value =>
                  dsimp only
                  rw [result_ask_single fun _ => .inl rfl, ih]
              | cast value =>
                  dsimp only
                  rw [result_ask_single fun _ => .inl rfl, ih]
              | _ => rfl

/-! ## What is found -/

/-- What is asked for a value reaches it, and nothing else does but the value itself. -/
theorem Passes.asks {v w : Value} (h : F.Passes v w) : w = v ∨ Asks F.allocaTask v w := by
  cases h with
  | bitCast hinst => exact .inr ⟨none, _, by rw [allocaTask, hinst], List.mem_singleton_self _⟩
  | ptrToInt hinst => exact .inr ⟨none, _, by rw [allocaTask, hinst], List.mem_singleton_self _⟩
  | cast hinst => exact .inr ⟨none, _, by rw [allocaTask, hinst], List.mem_singleton_self _⟩
  | @phi i incoming _ hinst hvalue =>
      by_cases hself : w = .inst i
      · exact .inl hself
      · refine .inr ⟨none, incoming.filter fun v => v ≠ .inst i, by rw [allocaTask, hinst], ?_⟩
        exact List.mem_filter.mpr ⟨hvalue, by simpa using hself⟩

theorem reachable_asks {v w : Value} (h : Relation.ReflTransGen F.Passes v w) :
    Relation.ReflTransGen (Asks F.allocaTask) v w := by
  induction h with
  | refl => exact .refl
  | tail _ hlast ih =>
      rcases hlast.asks with rfl | hasks
      · exact ih
      · exact ih.tail hasks

/-- A source has an answer only if it is an alloca. -/
theorem IsSource.gives {w : Value} {a : ℕ} (hsource : F.IsSource w)
    (h : (F.allocaTask w).Gives a) : w = .inst a ∧ ∃ type isPointerTy arraySize,
      F.insts[a]? = some (.alloca type isPointerTy arraySize) := by
  cases w with
  | global g => cases h
  | other o => cases h
  | inst i =>
      cases hinst : F.insts[i]? with
      | none =>
          rw [allocaTask, hinst] at h
          cases h
      | some inst =>
          rw [allocaTask, hinst] at h
          cases inst with
          | alloca type isPointerTy arraySize =>
              obtain rfl : i = a := Option.some.inj h
              exact ⟨rfl, type, isPointerTy, arraySize, hinst⟩
          -- casts are looked through, so none of them is a source
          | bitCast value => exact absurd hinst (hsource i rfl value []).1
          | ptrToInt value => exact absurd hinst (hsource i rfl value []).2.1
          | cast value => exact absurd hinst (hsource i rfl value []).2.2.1
          | phi incoming => exact absurd hinst (hsource i rfl (.other 0) incoming).2.2.2
          | _ => cases h

/-- **A found alloca is the only source** of the value. -/
theorem findAllocaForValue_right {fuel : ℕ} {v w : Value} {a : ℕ}
    (h : F.findAllocaForValue fuel v = some (some a)) (hw : Relation.ReflTransGen F.Passes v w)
    (hsource : F.IsSource w) : w = .inst a ∧ ∃ type isPointerTy arraySize,
      F.insts[a]? = some (.alloca type isPointerTy arraySize) := by
  rw [findAllocaForValue_eq_search] at h
  exact hsource.gives (agrees_of_search h w (reachable_asks hw))

/-! ## Termination -/

/-- Only casts and phis make the recursion go on. -/
theorem allocaTask_ground {v : Value} {start : Option ℕ} {values : List Value}
    (h : F.allocaTask v = .ask start values) :
    v ∈ (Finset.range F.insts.length).image Value.inst := by
  cases v with
  | global g => cases h
  | other o => cases h
  | inst i =>
      cases hinst : F.insts[i]? with
      | none =>
          rw [allocaTask, hinst] at h
          cases h
      | some inst =>
          have hi := (List.getElem?_eq_some_iff.mp hinst).1
          exact Finset.mem_image_of_mem _ (Finset.mem_range.mpr hi)

/-- **When the alloca search ends and is right**: if it cannot enter a cycle of casts and
phis. -/
theorem findsAlloca_iff (F : Function) (v : Value) :
    F.FindsAlloca v ↔ ¬ Circular F.allocaTask v := by
  have hends : (∃ fuel found, F.findAllocaForValue fuel v = some found) ↔
      ¬ Circular F.allocaTask v := by
    rw [← search_ends_iff (fun v _ _ => allocaTask_ground) v]
    simp only [findAllocaForValue_eq_search, Ends]
  constructor
  · exact fun h => hends.mp h.1
  · exact fun h => ⟨hends.mpr h, fun _ _ hfound _ hw hsource =>
      findAllocaForValue_right hfound hw hsource⟩

/-- Two nested loops; a phi in the head of each carries the address of the variable, and the
outer one takes over what the inner one leaves. -/
def nestedLoops : Function where
  insts := [.alloca (.other 1) false (some 8), .other, .phi [.inst 0, .inst 5],
    .lifetimeStart false (.inst 2), .other, .phi [.inst 2, .inst 5], .other, .other, .ret none]
  successors i :=
    match i with
    | 6 => [5, 7]
    | 7 => [2, 8]
    | 8 => []
    | _ => if i < 6 then [i + 1] else []
  nonempty := by decide
  closed := by decide

/-- The two phis ask each other. -/
theorem nestedLoops_loops : ∀ fuel, nestedLoops.findAllocaForValue fuel (.inst 2) = none ∧
    nestedLoops.findAllocaForValue fuel (.inst 5) = none := by
  intro fuel
  induction fuel with
  | zero => exact ⟨rfl, rfl⟩
  | succ fuel ih =>
      constructor
      · have hstep : nestedLoops.findAllocaForValue (fuel + 1) (.inst 2) =
            findIncoming (nestedLoops.findAllocaForValue fuel) 2 [.inst 0, .inst 5] none := rfl
        cases fuel with
        | zero => rfl
        | succ fuel =>
            have hfirst : nestedLoops.findAllocaForValue (fuel + 1) (.inst 0) = some (some 0) := rfl
            simp [hstep, findIncoming, hfirst, ih.2]
      · have hstep : nestedLoops.findAllocaForValue (fuel + 1) (.inst 5) =
            findIncoming (nestedLoops.findAllocaForValue fuel) 5 [.inst 2, .inst 5] none := rfl
        simp [hstep, findIncoming, ih.1]

/-- No fuel is enough for the marker of the variable. -/
theorem nestedLoops_not_finds : ¬ nestedLoops.FindsAlloca (.inst 2) := by
  rintro ⟨⟨fuel, found, hfound⟩, -⟩
  rw [(nestedLoops_loops fuel).1] at hfound
  cases hfound

end Function

end Bitype.Pass
