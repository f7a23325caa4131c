import Bitype.Foundations.Closure

/-!
# Dominance

A vertex dominates another if every path from the entry has been at it before.
`dominates` decides that by a search that does not go on from the vertex: what it still
reaches is not dominated (`dominates_iff`).
-/

namespace Bitype.Foundations

variable {α : Type*}

/-- The vertices of a path from the entry, the newest first. -/
inductive PathFrom (successors : α → List α) (entry : α) : List α → Prop
  | entry : PathFrom successors entry [entry]
  | step {v w : α} {rest : List α} : PathFrom successors entry (v :: rest) →
      w ∈ successors v → PathFrom successors entry (w :: v :: rest)

/-- Every path to `b` has been at `a` before. -/
def Dominates (successors : α → List α) (entry a b : α) : Prop :=
  ∀ rest, PathFrom successors entry (b :: rest) → a ∈ rest

variable [DecidableEq α]

/-- The graph without the edges from a vertex. -/
def avoiding (successors : α → List α) (a v : α) : List α := if v = a then [] else successors v

/-- Whether `a` dominates `b`. -/
def dominates (successors : α → List α) (fuel : ℕ) (entry a b : α) : Bool :=
  match descend (avoiding successors a) fuel [] entry with
  | none => false
  | some reached => decide (b ∉ reached)

variable {successors : α → List α} {entry a b : α}

theorem mem_avoiding {v w : α} : w ∈ avoiding successors a v ↔ v ≠ a ∧ w ∈ successors v := by
  unfold avoiding
  by_cases hv : v = a
  · rw [if_pos hv]
    exact iff_of_false List.not_mem_nil fun h => h.1 hv
  · rw [if_neg hv]
    exact (and_iff_right hv).symm

/-- What is reached without going on from `a`. -/
theorem below_avoiding_iff :
    Below (avoiding successors a) entry b ↔
      ∃ rest, PathFrom successors entry (b :: rest) ∧ a ∉ rest := by
  constructor
  · intro h
    induction h with
    | refl => exact ⟨[], .entry, List.not_mem_nil⟩
    | @tail v w _ hstep ih =>
        obtain ⟨rest, hpath, ha⟩ := ih
        obtain ⟨hv, hw⟩ := mem_avoiding.mp hstep
        -- going on from `v` means that `v` is not `a`
        refine ⟨v :: rest, hpath.step hw, fun hmem => ?_⟩
        rcases List.mem_cons.mp hmem with heq | hmem
        · exact hv heq.symm
        · exact ha hmem
  · rintro ⟨rest, hpath, ha⟩
    generalize hvertices : b :: rest = vertices at hpath
    induction hpath generalizing b rest with
    | entry =>
        obtain ⟨rfl, rfl⟩ := List.cons.inj hvertices
        exact .refl
    | @step v w rest' hpath hw ih =>
        obtain ⟨rfl, rfl⟩ := List.cons.inj hvertices
        obtain ⟨hv, hrest⟩ := List.ne_and_not_mem_of_not_mem_cons ha
        exact .tail (ih _ hrest rfl) (mem_avoiding.mpr ⟨hv.symm, hw⟩)

/-- **The search decides dominance.** -/
theorem dominates_iff {ground : Finset α} (hground : ∀ v ∈ ground, ∀ w ∈ successors v, w ∈ ground)
    {fuel : ℕ} (hfuel : ground.card < fuel) (hentry : entry ∈ ground) :
    dominates successors fuel entry a b = true ↔ Dominates successors entry a b := by
  have hclosed : ∀ v ∈ ground, ∀ w ∈ avoiding successors a v, w ∈ ground :=
    fun v hv w hw => hground v hv w (mem_avoiding.mp hw).2
  obtain ⟨reached, hreached, hmem⟩ := mem_descend_iff hclosed hfuel hentry
  rw [dominates, hreached]
  simp only [decide_eq_true_eq, hmem, below_avoiding_iff]
  exact ⟨fun h rest hpath => by_contra fun ha => h ⟨rest, hpath, ha⟩,
    fun h ⟨rest, hpath, ha⟩ => ha (h rest hpath)⟩

end Bitype.Foundations
