import Mathlib.Logic.Relation
import Mathlib.Data.List.Nodup
import Mathlib.Data.List.Range
import Mathlib.Data.Finset.Card
import Mathlib.Logic.Function.Basic

/-!
# Depth-first search with a stack

`components adjacent n` searches the vertices `0, .., n - 1` of a directed graph:
from the least vertex not yet marked it collects everything a stack search marks,
and so on until every vertex is marked.

`components_spec` says that it always ends, that what it returns is a partition of
the vertices, and, **if reachability is symmetric**, that its sets are the classes
of mutually reachable vertices.  Nothing is assumed of the edges themselves: a graph
may have one-way edges as long as each can be undone by some path.

Loops run on fuel; `explore_spec` and `searchAll_spec` show that what `components`
gives them is enough.
-/

namespace Bitype.Foundations

/-! ## The search -/

/-- The marks and the stack, top first. -/
structure SearchState where
  visited : ℕ → Bool
  stack : List ℕ

/-- Mark and push vertex `i` if it is an unmarked successor of `v`. -/
def pushUnvisited (adjacent : ℕ → ℕ → Bool) (v : ℕ) (st : SearchState) (i : ℕ) : SearchState :=
  if adjacent v i && !st.visited i then
    { visited := Function.update st.visited i true, stack := i :: st.stack }
  else st

/-- Pop vertices until the stack is empty, pushing the successors of each. -/
def explore (adjacent : ℕ → ℕ → Bool) (n : ℕ) :
    ℕ → SearchState → List ℕ → Option (List ℕ × (ℕ → Bool))
  | 0, _, _ => none
  | fuel + 1, st, found =>
      match st.stack with
      | [] => some (found, st.visited)
      | v :: rest =>
          explore adjacent n fuel
            ((List.range n).foldl (pushUnvisited adjacent v) { st with stack := rest })
            (found ++ [v])

/-- The least vertex from `i` on that is not marked. -/
def nextUnvisited (visited : ℕ → Bool) (n : ℕ) : ℕ → ℕ → ℕ
  | 0, i => i
  | fuel + 1, i => if visited i && i < n then nextUnvisited visited n fuel (i + 1) else i

/-- Explore from one unmarked vertex after the other. -/
def searchAll (adjacent : ℕ → ℕ → Bool) (n : ℕ) :
    ℕ → ℕ → (ℕ → Bool) → List (List ℕ) → Option (List (List ℕ))
  | 0, _, _, _ => none
  | fuel + 1, startNode, visited, result =>
      let startNode := nextUnvisited visited n (n + 1) startNode
      if startNode = n then some result
      else
        match explore adjacent n (n + 1)
            { visited := Function.update visited startNode true, stack := [startNode] } [] with
        | none => none
        | some (currentSet, visited) =>
            searchAll adjacent n fuel startNode visited
              (if 1 ≤ currentSet.length then result ++ [currentSet] else result)

/-- The sets the search finds, in the order it finds them. -/
def components (adjacent : ℕ → ℕ → Bool) (n : ℕ) : Option (List (List ℕ)) :=
  searchAll adjacent n (n + 1) 0 (fun _ => false) []

/-! ## Reachability -/

/-- A path whose vertices, the first apart, are below `n`. -/
def Reach (adjacent : ℕ → ℕ → Bool) (n : ℕ) : ℕ → ℕ → Prop :=
  Relation.ReflTransGen fun i j => j < n ∧ adjacent i j = true

variable {adjacent : ℕ → ℕ → Bool} {n : ℕ}

theorem Reach.lt {i j : ℕ} (h : Reach adjacent n i j) (hi : i < n) : j < n := by
  rcases Relation.ReflTransGen.cases_tail h with rfl | ⟨_, _, hj, _⟩
  · exact hi
  · exact hj

/-- A set closed under successors contains what is reachable from its members. -/
theorem Reach.closed {P : ℕ → Prop} (hclosed : ∀ i, P i → ∀ j < n, adjacent i j = true → P j)
    {i j : ℕ} (hi : P i) (h : Reach adjacent n i j) : P j := by
  induction h with
  | refl => exact hi
  | tail _ hedge ih => exact hclosed _ ih _ hedge.1 hedge.2

/-! ## Pushing successors -/

/-- What a pass over some vertices makes of a state: it marks the successors of `v` among them
and pushes those that were not marked. -/
structure Pushed (adjacent : ℕ → ℕ → Bool) (v : ℕ) (vertices : List ℕ) (st next : SearchState)
    (pushed : List ℕ) : Prop where
  stack : next.stack = pushed ++ st.stack
  nodup : pushed.Nodup
  mem : ∀ i, i ∈ pushed ↔ i ∈ vertices ∧ adjacent v i = true ∧ st.visited i = false
  visited : ∀ i, next.visited i = true ↔
    st.visited i = true ∨ i ∈ vertices ∧ adjacent v i = true

variable (adjacent) in
theorem pushUnvisited_pushed (v : ℕ) (st : SearchState) (a : ℕ) :
    ∃ pushed, Pushed adjacent v [a] st (pushUnvisited adjacent v st a) pushed := by
  by_cases hnew : adjacent v a = true ∧ st.visited a = false
  · have hpush : pushUnvisited adjacent v st a =
        ⟨Function.update st.visited a true, a :: st.stack⟩ := by
      simp [pushUnvisited, hnew]
    rw [hpush]
    refine ⟨[a], rfl, List.nodup_singleton a, fun i => ?_, fun i => ?_⟩
    · rw [List.mem_singleton]
      exact ⟨fun heq => ⟨heq, heq ▸ hnew⟩, fun h => h.1⟩
    · rw [List.mem_singleton]
      by_cases hia : i = a
      · subst hia
        simp [hnew.1]
      · simp only [Function.update_of_ne hia, hia, false_and, or_false]
  · have hskip : pushUnvisited adjacent v st a = st := by
      simp only [pushUnvisited, Bool.and_eq_true, Bool.not_eq_true']
      exact if_neg hnew
    rw [hskip]
    refine ⟨[], rfl, List.nodup_nil, fun i => ?_, fun i => ?_⟩
    · rw [List.mem_singleton]
      refine ⟨fun h => absurd h List.not_mem_nil, ?_⟩
      rintro ⟨rfl, h⟩
      exact absurd h hnew
    · rw [List.mem_singleton]
      refine ⟨.inl, ?_⟩
      rintro (hold | ⟨rfl, hadj⟩)
      · exact hold
      · by_contra hno
        exact hnew ⟨hadj, by simpa using hno⟩

/-- One vertex, then the others. -/
theorem Pushed.cons {v a : ℕ} {rest first later : List ℕ} {st middle next : SearchState}
    (hfirst : Pushed adjacent v [a] st middle first)
    (hrest : Pushed adjacent v rest middle next later) :
    Pushed adjacent v (a :: rest) st next (later ++ first) := by
  have hmiddle : ∀ i, middle.visited i = false ↔
      st.visited i = false ∧ ¬ (i = a ∧ adjacent v i = true) := by
    intro i
    rw [← Bool.not_eq_true, hfirst.visited i, not_or, Bool.not_eq_true, List.mem_singleton]
  refine ⟨?_, ?_, fun i => ?_, fun i => ?_⟩
  · rw [hrest.stack, hfirst.stack, List.append_assoc]
  · refine List.nodup_append.mpr ⟨hrest.nodup, hfirst.nodup, ?_⟩
    rintro i hi _ hi' rfl
    obtain ⟨hia, hadj, -⟩ := (hfirst.mem i).mp hi'
    have hunmarked := ((hmiddle i).mp ((hrest.mem i).mp hi).2.2).2
    exact hunmarked ⟨List.mem_singleton.mp hia, hadj⟩
  · rw [List.mem_append, hrest.mem, hfirst.mem, hmiddle, List.mem_singleton, List.mem_cons]
    tauto
  · rw [hrest.visited, hfirst.visited, List.mem_singleton, List.mem_cons]
    tauto

variable (adjacent) in
/-- A pass over some vertices marks the successors among them and pushes those that
were not marked. -/
theorem foldl_push_spec (v : ℕ) :
    ∀ (vertices : List ℕ) (st : SearchState),
      ∃ pushed, Pushed adjacent v vertices st
        (vertices.foldl (pushUnvisited adjacent v) st) pushed := by
  intro vertices
  induction vertices with
  | nil => intro st; exact ⟨[], rfl, List.nodup_nil, by simp, by simp⟩
  | cons a rest ih =>
      intro st
      obtain ⟨first, hfirst⟩ := pushUnvisited_pushed adjacent v st a
      obtain ⟨later, hrest⟩ := ih (pushUnvisited adjacent v st a)
      exact ⟨later ++ first, hfirst.cons hrest⟩

/-! ## One set -/

/-- The invariant of one exploration, from the marks `old` and a start vertex. -/
structure Exploring (adjacent : ℕ → ℕ → Bool) (n : ℕ) (old : ℕ → Bool) (start : ℕ)
    (st : SearchState) (found : List ℕ) : Prop where
  nodup : (found ++ st.stack).Nodup
  visited : ∀ i, st.visited i = true ↔ old i = true ∨ i ∈ found ++ st.stack
  fresh : ∀ i ∈ found ++ st.stack, old i = false ∧ i < n ∧ Reach adjacent n start i
  closed : ∀ i ∈ found, ∀ j < n, adjacent i j = true → st.visited j = true
  start_mem : start ∈ found ++ st.stack

variable {old : ℕ → Bool} {start : ℕ} {st : SearchState} {found : List ℕ}

/-- Popping a vertex and pushing its successors keeps the invariant. -/
theorem Exploring.pop {v : ℕ} {rest : List ℕ} (h : Exploring adjacent n old start st found)
    (hstack : st.stack = v :: rest) :
    Exploring adjacent n old start
      ((List.range n).foldl (pushUnvisited adjacent v) { st with stack := rest })
      (found ++ [v]) := by
  obtain ⟨pushed, hpop, hnodup, hpushed, hvisited⟩ :=
    foldl_push_spec adjacent v (List.range n) { st with stack := rest }
  generalize (List.range n).foldl (pushUnvisited adjacent v) { st with stack := rest } = st' at *
  dsimp only at hpop hpushed hvisited
  have hmem : ∀ i, i ∈ found ++ st.stack ↔ i ∈ found ++ [v] ∨ i ∈ rest := by
    intro i
    simp [hstack, or_assoc]
  have hnew : ∀ i ∈ pushed, i ∉ found ++ st.stack := by
    intro i hi hold
    have hunmarked := ((hpushed i).mp hi).2.2
    exact absurd ((h.visited i).mpr (.inr hold)) (by simp [hunmarked])
  have hpushMem : ∀ i, i ∈ (found ++ [v]) ++ st'.stack ↔ i ∈ found ++ st.stack ∨ i ∈ pushed := by
    intro i
    rw [hpop, hmem]
    simp only [List.mem_append]
    tauto
  refine ⟨?_, ?_, ?_, ?_, (hpushMem start).mpr (.inl h.start_mem)⟩
  -- what is pushed was unmarked, so it is neither found nor on the stack
  · have hbase : (found ++ [v] ++ rest).Nodup := by
      have := h.nodup
      rw [hstack] at this
      simpa using this
    rw [hpop]
    obtain ⟨hleft, hright, hdisjoint⟩ := List.nodup_append.mp hbase
    refine List.nodup_append.mpr ⟨hleft, List.nodup_append.mpr ⟨hnodup, hright, ?_⟩, ?_⟩
    · rintro a ha _ hb rfl
      exact hnew a ha ((hmem a).mpr (.inr hb))
    · rintro a ha b hb rfl
      rcases List.mem_append.mp hb with hb | hb
      · exact hnew a hb ((hmem a).mpr (.inl ha))
      · exact hdisjoint a ha a hb rfl
  -- marked are the old vertices, those found and those on the stack
  · intro i
    rw [hvisited i, hpushMem i, h.visited i, hpushed i]
    by_cases hi : old i = true ∨ i ∈ found ++ st.stack
    · tauto
    · have hunmarked : st.visited i = false := by
        rw [← Bool.not_eq_true, h.visited i]
        exact hi
      simp only [hunmarked]
      tauto
  -- what is pushed is a successor of `v`
  · intro i hi
    rcases (hpushMem i).mp hi with hi | hi
    · exact h.fresh i hi
    · obtain ⟨hrange, hadj, hunmarked⟩ := (hpushed i).mp hi
      have hv := h.fresh v ((hmem v).mpr (.inl (by simp)))
      rw [List.mem_range] at hrange
      refine ⟨?_, hrange, hv.2.2.tail ⟨hrange, hadj⟩⟩
      by_contra hold
      exact absurd ((h.visited i).mpr (.inl (by simpa using hold))) (by simp [hunmarked])
  -- the successors of `v` are all marked now
  · intro i hi j hj hadj
    rw [hvisited j]
    rcases List.mem_append.mp hi with hi | hi
    · exact .inl (h.closed i hi j hj hadj)
    · rw [List.mem_singleton] at hi
      exact .inr ⟨List.mem_range.mpr hj, hi ▸ hadj⟩

/-- Distinct vertices below `n` are at most `n`. -/
theorem length_le_of_nodup {l : List ℕ} (hnodup : l.Nodup) (hlt : ∀ i ∈ l, i < n) :
    l.length ≤ n := by
  have hsub : l ⊆ List.range n := fun i hi => List.mem_range.mpr (hlt i hi)
  have := (hnodup.subperm hsub).length_le
  rwa [List.length_range] at this

/-- **An exploration ends**, with an empty stack and its invariant. -/
theorem explore_spec :
    ∀ (fuel : ℕ) (st : SearchState) (found : List ℕ), Exploring adjacent n old start st found →
      n < fuel + found.length →
      ∃ found' visited', explore adjacent n fuel st found = some (found', visited') ∧
        Exploring adjacent n old start ⟨visited', []⟩ found' := by
  intro fuel
  induction fuel with
  | zero =>
      intro st found h hfuel
      have := length_le_of_nodup (h.nodup.of_append_left) fun i hi =>
        (h.fresh i (List.mem_append_left _ hi)).2.1
      omega
  | succ fuel ih =>
      intro st found h hfuel
      cases hstack : st.stack with
      | nil =>
          refine ⟨found, st.visited, by simp [explore, hstack], ?_⟩
          obtain ⟨visited, stack⟩ := st
          exact hstack ▸ h
      | cons v rest =>
          simp only [explore, hstack]
          exact ih _ _ (h.pop hstack) (by rw [List.length_append, List.length_singleton]; omega)

/-! ## All sets -/

/-- The least unmarked vertex, found with enough fuel. -/
theorem nextUnvisited_spec (visited : ℕ → Bool) :
    ∀ (fuel i : ℕ), n < fuel + i → i ≤ n → (∀ j < i, visited j = true) →
      nextUnvisited visited n fuel i ≤ n ∧
        (∀ j < nextUnvisited visited n fuel i, visited j = true) ∧
        (nextUnvisited visited n fuel i < n →
          visited (nextUnvisited visited n fuel i) = false) := by
  intro fuel
  induction fuel with
  | zero => intro i hfuel hi _; omega
  | succ fuel ih =>
      intro i hfuel hi hbefore
      simp only [nextUnvisited]
      split
      · next hmarked =>
          simp only [Bool.and_eq_true, decide_eq_true_eq] at hmarked
          apply ih (i + 1) (by omega) hmarked.2
          intro j hj
          rcases Nat.lt_succ_iff_lt_or_eq.mp hj with hj | rfl
          · exact hbefore j hj
          · exact hmarked.1
      · next hstop =>
          refine ⟨hi, hbefore, fun hlt => ?_⟩
          simpa [hlt] using hstop

/-- The invariant of the whole search. -/
structure Searching (adjacent : ℕ → ℕ → Bool) (n : ℕ) (visited : ℕ → Bool)
    (result : List (List ℕ)) : Prop where
  nodup : result.flatten.Nodup
  marked : ∀ i, visited i = true ↔ i ∈ result.flatten
  lt : ∀ i ∈ result.flatten, i < n
  nonempty : ∀ S ∈ result, S ≠ []
  closed : ∀ i, visited i = true → ∀ j < n, adjacent i j = true → visited j = true
  classes : (∀ i < n, ∀ j, Reach adjacent n i j → Reach adjacent n j i) →
    ∀ S ∈ result, ∀ i ∈ S, ∀ j, j ∈ S ↔ Reach adjacent n i j

/-- An exploration from an unmarked vertex adds one set. -/
theorem Searching.extend {visited visited' : ℕ → Bool} {result : List (List ℕ)}
    {currentSet : List ℕ} (h : Searching adjacent n visited result)
    (hset : Exploring adjacent n visited start ⟨visited', []⟩ currentSet) :
    Searching adjacent n visited' (result ++ [currentSet]) := by
  obtain ⟨hnodup, hvisited, hfresh, hclosed, hstart⟩ := hset
  simp only [List.append_nil] at hnodup hvisited hfresh hstart
  have hflatten : (result ++ [currentSet]).flatten = result.flatten ++ currentSet := by simp
  have hclosed' : ∀ i, visited' i = true → ∀ j < n, adjacent i j = true → visited' j = true := by
    intro i hi j hj hadj
    rcases (hvisited i).mp hi with hi | hi
    · exact (hvisited j).mpr (.inl (h.closed i hi j hj hadj))
    · exact hclosed i hi j hj hadj
  refine ⟨?_, ?_, ?_, ?_, hclosed', ?_⟩
  · rw [hflatten]
    refine List.nodup_append.mpr ⟨h.nodup, hnodup, ?_⟩
    rintro a ha _ hb rfl
    exact absurd ((h.marked a).mpr ha) (by simp [(hfresh a hb).1])
  · intro i
    rw [hflatten, List.mem_append, hvisited i, h.marked i]
  · intro i hi
    rw [hflatten] at hi
    rcases List.mem_append.mp hi with hi | hi
    · exact h.lt i hi
    · exact (hfresh i hi).2.1
  · intro S hS
    rcases List.mem_append.mp hS with hS | hS
    · exact h.nonempty S hS
    · rw [List.mem_singleton.mp hS]
      exact List.ne_nil_of_mem hstart
  · intro hsymm S hS i hi j
    rcases List.mem_append.mp hS with hS | hS
    · exact h.classes hsymm S hS i hi j
    · rw [List.mem_singleton] at hS
      subst hS
      have hback := hsymm start (hfresh start hstart).2.1 i (hfresh i hi).2.2
      refine ⟨fun hj => hback.trans (hfresh j hj).2.2, fun hreach => ?_⟩
      -- what `i` reaches is marked now, and was not marked before
      have hi' : visited' i = true := (hvisited i).mpr (.inr hi)
      rcases (hvisited j).mp (Reach.closed hclosed' hi' hreach) with hj | hj
      · have hlt := (hfresh i hi).2.1
        have := Reach.closed h.closed hj (hsymm i hlt j hreach)
        rw [(hfresh i hi).1] at this
        cases this
      · exact hj

/-- **The whole search ends**, with every vertex marked. -/
theorem searchAll_spec :
    ∀ (fuel startNode : ℕ) (visited : ℕ → Bool) (result : List (List ℕ)),
      Searching adjacent n visited result → startNode ≤ n →
      (∀ j < startNode, visited j = true) → n < fuel + result.flatten.length →
      ∃ result' visited', searchAll adjacent n fuel startNode visited result = some result' ∧
        Searching adjacent n visited' result' ∧ ∀ j < n, visited' j = true := by
  intro fuel
  induction fuel with
  | zero =>
      intro startNode visited result h _ _ hfuel
      have := length_le_of_nodup h.nodup h.lt
      omega
  | succ fuel ih =>
      intro startNode visited result h hstart hbefore hfuel
      obtain ⟨hle, hmarked, hunmarked⟩ :=
        nextUnvisited_spec visited (n + 1) startNode (by omega) hstart hbefore
      simp only [searchAll]
      generalize nextUnvisited visited n (n + 1) startNode = node at hle hmarked hunmarked ⊢
      by_cases hdone : node = n
      · rw [if_pos hdone]
        exact ⟨result, visited, rfl, h, hdone ▸ hmarked⟩
      rw [if_neg hdone]
      have hlt : node < n := lt_of_le_of_ne hle hdone
      -- the start is the only vertex marked so far
      have hinit : Exploring adjacent n visited node
          ⟨Function.update visited node true, [node]⟩ [] := by
        refine ⟨List.nodup_singleton node, ?_, ?_, by simp, by simp⟩
        · intro i
          by_cases hi : i = node
          · simp [hi]
          · simp [hi]
        · intro i hi
          rw [List.nil_append, List.mem_singleton] at hi
          subst hi
          exact ⟨hunmarked hlt, hlt, .refl⟩
      obtain ⟨found, visited', hexplore, hset⟩ := explore_spec (n + 1) _ _ hinit (by simp)
      rw [hexplore]
      -- each search finds its start, so the fuel goes down
      have hnonempty : 1 ≤ found.length := by
        have := hset.start_mem
        rw [List.append_nil] at this
        exact List.length_pos_of_mem this
      simp only [if_pos hnonempty]
      refine ih node visited' _ (h.extend hset) hle ?_ ?_
      · intro j hj
        exact (hset.visited j).mpr (.inl (hmarked j hj))
      · rw [List.flatten_append, List.length_append, List.flatten_singleton]
        omega

/-- Two vertices are in one set. -/
def SameSet (sets : List (List ℕ)) (i j : ℕ) : Prop := ∃ S ∈ sets, i ∈ S ∧ j ∈ S

/-- Disjoint non-repeating lists that cover a set of numbers. -/
structure IsPartition (sets : List (List ℕ)) (ground : ℕ → Prop) : Prop where
  nodup : sets.flatten.Nodup
  cover : ∀ i, i ∈ sets.flatten ↔ ground i

/-- **What the search computes.** -/
theorem components_spec (adjacent : ℕ → ℕ → Bool) (n : ℕ) :
    ∃ result, components adjacent n = some result ∧ IsPartition result (· < n) ∧
      ((∀ i < n, ∀ j, Reach adjacent n i j → Reach adjacent n j i) →
        ∀ i j, SameSet result i j ↔ i < n ∧ Reach adjacent n i j) := by
  have hinit : Searching adjacent n (fun _ => false) [] :=
    ⟨by simp, by simp, by simp, by simp, by simp, by simp⟩
  obtain ⟨result, visited, hresult, h, hall⟩ :=
    searchAll_spec (n + 1) 0 _ _ hinit (Nat.zero_le n) (by simp) (by simp)
  have hcover : ∀ i, i ∈ result.flatten ↔ i < n :=
    fun i => ⟨h.lt i, fun hi => (h.marked i).mp (hall i hi)⟩
  refine ⟨result, hresult, ⟨h.nodup, hcover⟩, fun hsymm i j => ⟨?_, ?_⟩⟩
  · rintro ⟨S, hS, hi, hj⟩
    exact ⟨(hcover i).mp (List.mem_flatten.mpr ⟨S, hS, hi⟩), (h.classes hsymm S hS i hi j).mp hj⟩
  · rintro ⟨hi, hreach⟩
    obtain ⟨S, hS, hi⟩ := List.mem_flatten.mp ((hcover i).mpr hi)
    exact ⟨S, hS, hi, (h.classes hsymm S hS i hi j).mpr hreach⟩

end Bitype.Foundations
