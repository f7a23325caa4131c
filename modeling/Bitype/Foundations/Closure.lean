import Mathlib.Logic.Relation
import Mathlib.Data.Finset.Card

/-!
# Recursive search

`descend successors fuel visited v` visits `v` and everything below it that has not
been visited, and returns the visited vertices in order.  `mem_descend_iff` says
that, from an empty list and with fuel for one more than the number of vertices, it
collects exactly what is reachable from `v`.

The recursion is not on the graph but on what is left to visit: a call marks its
vertex before it goes on, so the calls on the stack are for different vertices.
-/

namespace Bitype.Foundations

variable {α : Type*} [DecidableEq α]

/-- Visit `v`, then its successors in order, unless `v` has been visited. -/
def descend (successors : α → List α) : ℕ → List α → α → Option (List α)
  | 0, _, _ => none
  | fuel + 1, visited, v =>
      if v ∈ visited then some visited
      else (successors v).foldlM (descend successors fuel) (visited ++ [v])

/-- The reachability of a successor function. -/
def Below (successors : α → List α) : α → α → Prop :=
  Relation.ReflTransGen fun a b => b ∈ successors a

/-- What the visits of some roots make of a list of visited vertices. -/
structure Descended (successors : α → List α) (roots visited found : List α) : Prop where
  keeps : ∀ a ∈ visited, a ∈ found
  roots_mem : ∀ a ∈ roots, a ∈ found
  reached : ∀ a ∈ found, a ∈ visited ∨ ∃ root ∈ roots, Below successors root a
  closed : ∀ a ∈ found, a ∉ visited → ∀ b ∈ successors a, b ∈ found

variable {successors : α → List α} {ground : Finset α}

/-- The vertices left to visit. -/
def unvisited (ground : Finset α) (visited : List α) : Finset α := ground.filter (· ∉ visited)

theorem unvisited_card_le {visited found : List α} (h : ∀ a ∈ visited, a ∈ found) :
    (unvisited ground found).card ≤ (unvisited ground visited).card := by
  apply Finset.card_le_card
  intro a ha
  simp only [unvisited, Finset.mem_filter] at ha ⊢
  exact ⟨ha.1, fun hvisited => ha.2 (h a hvisited)⟩

theorem unvisited_card_lt {visited : List α} {v : α} (hv : v ∈ ground) (hnew : v ∉ visited) :
    (unvisited ground (visited ++ [v])).card < (unvisited ground visited).card := by
  apply Finset.card_lt_card
  refine ⟨fun a ha => ?_, fun hsub => ?_⟩
  · simp only [unvisited, Finset.mem_filter, List.mem_append, not_or] at ha ⊢
    exact ⟨ha.1, ha.2.1⟩
  · have hmem : v ∈ unvisited ground visited := by simp [unvisited, hv, hnew]
    have := hsub hmem
    simp [unvisited] at this

namespace Descended

variable {root : α} {roots visited middle found : List α}

omit [DecidableEq α] in
theorem refl (visited : List α) : Descended successors [] visited visited :=
  ⟨fun _ ha => ha, by simp, fun _ ha => .inl ha, fun _ ha hnew => absurd ha hnew⟩

/-- One root after the other. -/
theorem cons (hfirst : Descended successors [root] visited middle)
    (hrest : Descended successors roots middle found) :
    Descended successors (root :: roots) visited found := by
  refine ⟨fun a ha => hrest.keeps a (hfirst.keeps a ha), ?_, ?_, ?_⟩
  · intro a ha
    rcases List.mem_cons.mp ha with rfl | ha
    · exact hrest.keeps _ (hfirst.roots_mem _ List.mem_cons_self)
    · exact hrest.roots_mem a ha
  · intro a ha
    rcases hrest.reached a ha with ha | ⟨b, hb, hpath⟩
    · rcases hfirst.reached a ha with ha | ⟨b, hb, hpath⟩
      · exact .inl ha
      · rw [List.mem_singleton] at hb
        exact .inr ⟨b, hb ▸ List.mem_cons_self, hpath⟩
    · exact .inr ⟨b, List.mem_cons_of_mem _ hb, hpath⟩
  · intro a ha hnew b hb
    by_cases hmiddle : a ∈ middle
    · exact hrest.keeps b (hfirst.closed a hmiddle hnew b hb)
    · exact hrest.closed a ha hmiddle b hb

/-- A root not visited before, once its successors have been visited. -/
theorem of_successors
    (h : Descended successors (successors root) (visited ++ [root]) found) :
    Descended successors [root] visited found := by
  have hroot : root ∈ found := h.keeps root (by simp)
  refine ⟨fun a ha => h.keeps a (List.mem_append_left _ ha), by simpa using hroot, ?_, ?_⟩
  · intro a ha
    rcases h.reached a ha with ha | ⟨b, hb, hpath⟩
    · rcases List.mem_append.mp ha with ha | ha
      · exact .inl ha
      · rw [List.mem_singleton] at ha
        exact .inr ⟨root, List.mem_cons_self, ha ▸ .refl⟩
    · exact .inr ⟨root, List.mem_cons_self, .head hb hpath⟩
  · intro a ha hvisited b hb
    by_cases hroot : a = root
    · exact h.roots_mem b (hroot ▸ hb)
    · exact h.closed a ha (by simp [hvisited, hroot]) b hb

end Descended

/-- Several roots, given what a visit of one does. -/
theorem foldlM_descended {visit : List α → α → Option (List α)} {bound : ℕ}
    (hvisit : ∀ visited, (unvisited ground visited).card < bound → ∀ v ∈ ground,
      ∃ found, visit visited v = some found ∧ Descended successors [v] visited found) :
    ∀ (roots visited : List α), (∀ a ∈ roots, a ∈ ground) →
      (unvisited ground visited).card < bound →
      ∃ found, roots.foldlM visit visited = some found ∧
        Descended successors roots visited found := by
  intro roots
  induction roots with
  | nil => exact fun visited _ _ => ⟨visited, rfl, .refl visited⟩
  | cons a rest ih =>
      intro visited hroots hbound
      obtain ⟨middle, hmiddle, hfirst⟩ := hvisit visited hbound a (hroots a List.mem_cons_self)
      obtain ⟨found, hfound, hrest⟩ := ih middle
        (fun b hb => hroots b (List.mem_cons_of_mem _ hb))
        ((unvisited_card_le hfirst.keeps).trans_lt hbound)
      exact ⟨found, by rw [List.foldlM_cons, hmiddle]; exact hfound, hfirst.cons hrest⟩

/-- **A visit ends**, having visited what is below its vertex. -/
theorem descend_spec (hground : ∀ a ∈ ground, ∀ b ∈ successors a, b ∈ ground) :
    ∀ (fuel : ℕ) (visited : List α), (unvisited ground visited).card < fuel → ∀ v ∈ ground,
      ∃ found, descend successors fuel visited v = some found ∧
        Descended successors [v] visited found := by
  intro fuel
  induction fuel with
  | zero => exact fun _ hfuel => absurd hfuel (Nat.not_lt_zero _)
  | succ fuel ih =>
      intro visited hfuel v hv
      simp only [descend]
      by_cases hvisited : v ∈ visited
      · rw [if_pos hvisited]
        exact ⟨visited, rfl, fun _ ha => ha, by simpa using hvisited, fun _ ha => .inl ha,
          fun _ ha hnew => absurd ha hnew⟩
      · rw [if_neg hvisited]
        have hless : (unvisited ground (visited ++ [v])).card < (unvisited ground visited).card :=
          unvisited_card_lt hv hvisited
        obtain ⟨found, hfound, h⟩ := foldlM_descended ih (successors v) (visited ++ [v])
          (hground v hv) (by omega)
        exact ⟨found, hfound, .of_successors h⟩

/-- **From an empty list**: what is reachable. -/
theorem mem_descend_iff (hground : ∀ a ∈ ground, ∀ b ∈ successors a, b ∈ ground) {fuel : ℕ}
    (hfuel : ground.card < fuel) {v : α} (hv : v ∈ ground) :
    ∃ found, descend successors fuel [] v = some found ∧
      ∀ a, a ∈ found ↔ Below successors v a := by
  have hcard : (unvisited ground []).card < fuel := by simpa [unvisited] using hfuel
  obtain ⟨found, hfound, h⟩ := descend_spec hground fuel [] hcard v hv
  refine ⟨found, hfound, fun a => ⟨fun ha => ?_, fun hpath => ?_⟩⟩
  · rcases h.reached a ha with ha | ⟨b, hb, hpath⟩
    · exact absurd ha List.not_mem_nil
    · rw [List.mem_singleton] at hb
      exact hb ▸ hpath
  · induction hpath with
    | refl => exact h.roots_mem v List.mem_cons_self
    | tail _ hstep ih => exact h.closed _ ih List.not_mem_nil _ hstep

/-- Nothing is visited twice. -/
theorem nodup_of_descend :
    ∀ {fuel : ℕ} {visited found : List α} {v : α}, visited.Nodup →
      descend successors fuel visited v = some found → found.Nodup := by
  intro fuel
  induction fuel with
  | zero => intro _ _ _ _ h; cases h
  | succ fuel ih =>
      intro visited found v hnodup h
      simp only [descend] at h
      split at h
      · exact Option.some.inj h ▸ hnodup
      · next hnew =>
          have hstart : (visited ++ [v]).Nodup := by
            rw [List.nodup_append_comm]
            exact List.nodup_cons.mpr ⟨hnew, hnodup⟩
          clear hnodup hnew
          -- the successors, one after the other
          revert h hstart
          generalize visited ++ [v] = middle
          generalize successors v = roots
          induction roots generalizing middle with
          | nil => exact fun h hmiddle => Option.some.inj h ▸ hmiddle
          | cons root rest ihrest =>
              intro h hmiddle
              rw [List.foldlM_cons] at h
              obtain ⟨next, hnext, h⟩ := Option.bind_eq_some_iff.mp h
              exact ihrest next h (ih hmiddle hnext)

end Bitype.Foundations
