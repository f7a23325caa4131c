import Bitype.Tool.Families

/-!
# The search and its arrays

`DFS` reads `visited_bitmap` and a matrix, both with room for `MAX_NUM_CLASS` nodes.
`boundedDFS` is the search with its reads: one past the end of an array stops it.

`boundedDFS_eq` says when that happens.  The loop that looks for the next node tests the mark
of a node before it tests the node's number, so the search reads the mark of number
`currentIndex` when it is done; with `MAX_NUM_CLASS` nodes or more that is past the end.
-/

namespace Bitype.Tool

open Bitype.Foundations

/-! ## The search -/

/-- Why a search has no result. -/
inductive Fault
  | outOfRange
  | outOfFuel
deriving DecidableEq

section Search

variable (limit : ℕ)

/-- `visited_bitmap[i]`. -/
def readVisited (visited : ℕ → Bool) (i : ℕ) : Except Fault Bool :=
  if i < limit then .ok (visited i) else .error .outOfRange

/-- `graphtemp[v][i]`. -/
def readGraph (graphtemp : ℕ → ℕ → Bool) (v i : ℕ) : Except Fault Bool :=
  if v < limit ∧ i < limit then .ok (graphtemp v i) else .error .outOfRange

/-- The loop body over the successors of `v`. -/
def pushSuccessor (graphtemp : ℕ → ℕ → Bool) (v : ℕ) (st : SearchState) (i : ℕ) :
    Except Fault SearchState := do
  let adjacent ← readGraph limit graphtemp v i
  if adjacent then
    let marked ← readVisited limit st.visited i
    if marked then .ok st
    else .ok { visited := Function.update st.visited i true, stack := i :: st.stack }
  else .ok st

/-- `while(!s.empty())`. -/
def visitStack (graphtemp : ℕ → ℕ → Bool) (currentIndex : ℕ) :
    ℕ → SearchState → List ℕ → Except Fault (List ℕ × (ℕ → Bool))
  | 0, _, _ => .error .outOfFuel
  | fuel + 1, st, currentSet =>
      match st.stack with
      | [] => .ok (currentSet, st.visited)
      | v :: rest => do
          let st ← (List.range currentIndex).foldlM (pushSuccessor limit graphtemp v)
            { st with stack := rest }
          visitStack graphtemp currentIndex fuel st (currentSet ++ [v])

/-- `while(visited_bitmap[startNode] && startNode < currentIndex)`. -/
def advance (visited : ℕ → Bool) (currentIndex : ℕ) : ℕ → ℕ → Except Fault ℕ
  | 0, _ => .error .outOfFuel
  | fuel + 1, startNode => do
      let marked ← readVisited limit visited startNode
      if marked && startNode < currentIndex then advance visited currentIndex fuel (startNode + 1)
      else .ok startNode

/-- `while(true)`. -/
def searchFrom (graphtemp : ℕ → ℕ → Bool) (currentIndex : ℕ) :
    ℕ → ℕ → (ℕ → Bool) → List (List ℕ) → Except Fault (List (List ℕ))
  | 0, _, _, _ => .error .outOfFuel
  | fuel + 1, startNode, visited, result => do
      let startNode ← advance limit visited currentIndex (currentIndex + 2) startNode
      if startNode = currentIndex then .ok result
      else do
        let (currentSet, visited) ← visitStack limit graphtemp currentIndex (currentIndex + 1)
          { visited := Function.update visited startNode true, stack := [startNode] } []
        searchFrom graphtemp currentIndex fuel startNode visited
          (if 1 ≤ currentSet.length then result ++ [currentSet] else result)

end Search

/-- `DFS`, with its reads. -/
def boundedDFS (graphtemp : ℕ → ℕ → Bool) (currentIndex : ℕ) : Except Fault (List (List ℕ)) :=
  searchFrom MAX_NUM_CLASS graphtemp currentIndex (currentIndex + 1) 0 (fun _ => false) []

/-! ## Within the arrays -/

section Bounded

variable {limit n : ℕ} {graphtemp : ℕ → ℕ → Bool}

/-- Successors below the limit are pushed as they are without it. -/
theorem pushSuccessor_eq {v i : ℕ} (hv : v < limit) (hi : i < limit) (st : SearchState) :
    pushSuccessor limit graphtemp v st i = .ok (pushUnvisited graphtemp v st i) := by
  unfold pushSuccessor pushUnvisited readGraph readVisited
  rw [if_pos ⟨hv, hi⟩, if_pos hi]
  cases graphtemp v i with
  | false => rfl
  | true => cases hmarked : st.visited i <;> rfl

theorem foldlM_pushSuccessor {v : ℕ} (hv : v < limit) :
    ∀ (vertices : List ℕ) (st : SearchState), (∀ i ∈ vertices, i < limit) →
      vertices.foldlM (pushSuccessor limit graphtemp v) st =
        .ok (vertices.foldl (pushUnvisited graphtemp v) st) := by
  intro vertices
  induction vertices with
  | nil => exact fun _ _ => rfl
  | cons i rest ih =>
      intro st hlt
      rw [List.foldlM_cons, pushSuccessor_eq hv (hlt i List.mem_cons_self)]
      exact ih _ fun j hj => hlt j (List.mem_cons_of_mem _ hj)

/-- An exploration of nodes below the limit. -/
theorem visitStack_eq (hn : n ≤ limit) :
    ∀ (fuel : ℕ) (st : SearchState) (found : List ℕ) (r : List ℕ × (ℕ → Bool)),
      (∀ v ∈ st.stack, v < n) → explore graphtemp n fuel st found = some r →
      visitStack limit graphtemp n fuel st found = .ok r := by
  intro fuel
  induction fuel with
  | zero => intro _ _ _ _ h; cases h
  | succ fuel ih =>
      intro st found r hstack h
      cases hcons : st.stack with
      | nil =>
          simp only [explore, hcons] at h
          simp only [visitStack, hcons]
          rw [Option.some.inj h]
      | cons v rest =>
          simp only [explore, hcons] at h
          simp only [visitStack, hcons]
          have hv : v < n := hstack v (by simp [hcons])
          rw [foldlM_pushSuccessor (hv.trans_le hn) _ _
            fun i hi => (List.mem_range.mp hi).trans_le hn]
          apply ih _ _ _ _ h
          intro w hw
          obtain ⟨pushed, hpop, -, hpushed, -⟩ :=
            foldl_push_spec graphtemp v (List.range n) { st with stack := rest }
          rw [hpop] at hw
          rcases List.mem_append.mp hw with hw | hw
          · exact List.mem_range.mp ((hpushed w).mp hw).1
          · exact hstack w (by rw [hcons]; exact List.mem_cons_of_mem _ hw)

theorem le_nextUnvisited (visited : ℕ → Bool) :
    ∀ fuel i : ℕ, i ≤ nextUnvisited visited n fuel i := by
  intro fuel
  induction fuel with
  | zero => exact fun _ => le_rfl
  | succ fuel ih =>
      intro i
      unfold nextUnvisited
      split
      · exact (Nat.le_succ i).trans (ih (i + 1))
      · exact le_rfl

theorem nextUnvisited_le (visited : ℕ → Bool) :
    ∀ fuel i : ℕ, i ≤ n → nextUnvisited visited n fuel i ≤ n := by
  intro fuel
  induction fuel with
  | zero => exact fun _ hi => hi
  | succ fuel ih =>
      intro i hi
      unfold nextUnvisited
      split
      · next hmarked =>
          rw [Bool.and_eq_true, decide_eq_true_eq] at hmarked
          exact ih (i + 1) hmarked.2
      · exact hi

/-- The next node, unless its mark is past the end. -/
theorem advance_eq (visited : ℕ → Bool) :
    ∀ fuel i : ℕ, n < fuel + i → i ≤ n →
      advance limit visited n (fuel + 1) i =
        if nextUnvisited visited n fuel i < limit then .ok (nextUnvisited visited n fuel i)
        else .error .outOfRange := by
  intro fuel
  induction fuel with
  | zero => intro i hfuel hi; omega
  | succ fuel ih =>
      intro i hfuel hi
      have hle : i ≤ nextUnvisited visited n (fuel + 1) i := le_nextUnvisited visited _ _
      rw [advance, readVisited]
      by_cases hlimit : i < limit
      · rw [if_pos hlimit]
        change (if visited i && decide (i < n) then advance limit visited n (fuel + 1) (i + 1)
          else .ok i) = _
        rw [nextUnvisited]
        by_cases hmarked : (visited i && decide (i < n)) = true
        · rw [if_pos hmarked, if_pos hmarked]
          rw [Bool.and_eq_true, decide_eq_true_eq] at hmarked
          exact ih (i + 1) (by omega) hmarked.2
        · rw [if_neg hmarked, if_neg hmarked, if_pos hlimit]
      · rw [if_neg hlimit, if_neg fun hlt => hlimit (hle.trans_lt hlt)]
        rfl

/-- A search of at most as many nodes as the arrays have room for. -/
theorem searchFrom_eq (hn : n ≤ limit) :
    ∀ (fuel startNode : ℕ) (visited : ℕ → Bool) (result r : List (List ℕ)), startNode ≤ n →
      searchAll graphtemp n fuel startNode visited result = some r →
      searchFrom limit graphtemp n fuel startNode visited result =
        if n < limit then .ok r else .error .outOfRange := by
  intro fuel
  induction fuel with
  | zero => intro _ _ _ _ _ h; cases h
  | succ fuel ih =>
      intro startNode visited result r hstart h
      have hle := nextUnvisited_le visited (n + 1) startNode hstart
      rw [searchFrom, advance_eq visited (n + 1) startNode (by omega) hstart]
      simp only [searchAll] at h
      generalize nextUnvisited visited n (n + 1) startNode = node at h hle ⊢
      by_cases hdone : node = n
      · -- the mark of number `n` is read before the number is compared with `n`
        subst hdone
        rw [if_pos rfl, Option.some.injEq] at h
        subst h
        by_cases hlt : node < limit
        · rw [if_pos hlt, if_pos hlt]
          exact if_pos rfl
        · rw [if_neg hlt, if_neg hlt]
          rfl
      · rw [if_neg hdone] at h
        have hlt : node < n := lt_of_le_of_ne hle hdone
        rw [if_pos (hlt.trans_le hn)]
        change (if node = n then _ else _) = _
        rw [if_neg hdone]
        cases hexplore : explore graphtemp n (n + 1)
            { visited := Function.update visited node true, stack := [node] } [] with
        | none => rw [hexplore] at h; cases h
        | some found =>
            rw [hexplore] at h
            rw [visitStack_eq hn _ _ _ _ (by simpa using hlt) hexplore]
            exact ih _ _ _ _ hle h

/-- The loop over the successors runs past the end of the matrix. -/
theorem foldlM_pushSuccessor_error {v : ℕ} (hv : v < limit) (hn : limit < n) (st : SearchState) :
    (List.range n).foldlM (pushSuccessor limit graphtemp v) st = .error .outOfRange := by
  obtain ⟨k, rfl⟩ : ∃ k, n = limit + (k + 1) := ⟨n - limit - 1, by omega⟩
  rw [List.range_add, List.foldlM_append,
    foldlM_pushSuccessor hv _ _ fun i hi => List.mem_range.mp hi, List.range_succ_eq_map]
  change ((List.map (limit + ·) (0 :: _)).foldlM _ _ : Except Fault SearchState) = _
  rw [List.map_cons, List.foldlM_cons, pushSuccessor, readGraph, if_neg fun h => by omega]
  rfl

end Bounded

/-- **The search stays in its arrays iff there are fewer nodes than they have room for**, and
then its result is that of `DFS`. -/
theorem boundedDFS_eq (graphtemp : ℕ → ℕ → Bool) (n : ℕ) :
    ∃ result, DFS graphtemp n = some result ∧
      boundedDFS graphtemp n =
        if n < MAX_NUM_CLASS then .ok result else .error .outOfRange := by
  obtain ⟨result, hresult, -⟩ := components_spec graphtemp n
  refine ⟨result, hresult, ?_⟩
  rcases Nat.lt_or_ge MAX_NUM_CLASS n with hlarge | hn
  · have hpos : 0 < MAX_NUM_CLASS := by decide
    have hn : ¬ n < MAX_NUM_CLASS := by omega
    rw [if_neg hn, boundedDFS, searchFrom, advance_eq _ (n + 1) 0 (by omega) (Nat.zero_le n),
      nextUnvisited, Bool.false_and, if_neg Bool.false_ne_true, if_pos hpos]
    change (if 0 = n then _ else _) = _
    rw [if_neg (by omega), visitStack]
    change ((List.foldlM _ _ _ >>= _) >>= _ : Except Fault _) = _
    rw [foldlM_pushSuccessor_error hpos hlarge]
    rfl
  · exact searchFrom_eq hn _ _ _ _ _ (Nat.zero_le n) hresult

/-! ## Connected components -/

/-- In a symmetric graph paths can be walked back. -/
theorem reach_symm {graphtemp : ℕ → ℕ → Bool} {n : ℕ}
    (hsymm : ∀ i < n, ∀ j < n, graphtemp i j = graphtemp j i) {i j : ℕ} (hi : i < n)
    (h : Reach graphtemp n i j) : Reach graphtemp n j i := by
  induction h with
  | refl => exact .refl
  | tail hpath hedge ih =>
      have hlt := Reach.lt hpath hi
      exact .head ⟨hlt, (hsymm _ hlt _ hedge.1).symm ▸ hedge.2⟩ ih

/-- **`DFS` computes the connected components** of a symmetric graph, within its arrays. -/
theorem boundedDFS_components {graphtemp : ℕ → ℕ → Bool} {currentIndex : ℕ}
    (hroom : currentIndex < MAX_NUM_CLASS)
    (hsymm : ∀ i < currentIndex, ∀ j < currentIndex, graphtemp i j = graphtemp j i) :
    ∃ result, boundedDFS graphtemp currentIndex = .ok result ∧
      IsPartition result (· < currentIndex) ∧
      ∀ i < currentIndex, ∀ j < currentIndex,
        SameSet result i j ↔ Reach graphtemp currentIndex i j := by
  obtain ⟨result, hresult, hpartition, hclasses⟩ := components_spec graphtemp currentIndex
  obtain ⟨_, hresult', hbounded⟩ := boundedDFS_eq graphtemp currentIndex
  obtain rfl := Option.some.inj (hresult.symm.trans hresult')
  rw [if_pos hroom] at hbounded
  refine ⟨result, hbounded, hpartition, fun i hi j _ => ?_⟩
  rw [hclasses (fun i hi j => reach_symm hsymm hi) i j]
  exact and_iff_right hi

/-- Three nodes, the first and the last of them joined. -/
theorem boundedDFS_components_sample :
    ∃ result, boundedDFS (fun i j => i + j == 2 && i != j) 3 = .ok result ∧
      IsPartition result (· < 3) ∧
      ∀ i < 3, ∀ j < 3, SameSet result i j ↔ Reach (fun i j => i + j == 2 && i != j) 3 i j :=
  boundedDFS_components (by decide) (by decide)

end Bitype.Tool
