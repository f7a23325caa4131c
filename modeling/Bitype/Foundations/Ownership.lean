import Mathlib.Data.Set.Lattice
import Mathlib.Data.List.Pairwise
import Mathlib.Data.List.Perm.Basic
import Mathlib.Order.CompletePartialOrder

/-!
# Owners of the cells of a store

A store is made of cells, and some of the cells belong to owners: the parties of a system,
the objects that are alive, the calls that have not returned.  An `Ownership` says which
cells belong to an owner, what must be true of them, what a cell looks like that belongs to
nobody, and when a change leaves a cell alone.

A store is `Owned` if no two owners share a cell, what must be true of the cells of each
owner is true, and all other cells are blank.  A change that puts some owners in the place
of others may touch only their cells (`Changes`).  Then the store stays owned, whoever the
other owners are (`Owned.step`).  So whatever is proved of the changes one by one holds in
any order in which they come.
-/

namespace Bitype.Foundations

variable {σ κ ω : Type*}

/-- Owners `ω` of cells `κ` of a store `σ`.  What must be true of the cells of an owner, and
being blank, depend on no other cells. -/
structure Ownership (σ κ ω : Type*) where
  footprint : ω → Set κ
  Good : ω → σ → Prop
  Blank : κ → σ → Prop
  Kept : κ → σ → σ → Prop
  good_of_kept : ∀ {w s s'}, (∀ k ∈ footprint w, Kept k s s') → Good w s → Good w s'
  blank_of_kept : ∀ {k s s'}, Kept k s s' → Blank k s → Blank k s'

namespace Ownership

variable (O : Ownership σ κ ω)

/-- Two owners share no cell. -/
def Apart (w w' : ω) : Prop := Disjoint (O.footprint w) (O.footprint w')

instance : Std.Symm O.Apart := ⟨fun _ _ h => Disjoint.symm h⟩

/-- The cells of the owners are as they must be, and all other cells are blank. -/
structure Owned (ws : List ω) (s : σ) : Prop where
  apart : ws.Pairwise O.Apart
  good : ∀ w ∈ ws, O.Good w s
  blank : ∀ k, (∀ w ∈ ws, k ∉ O.footprint w) → O.Blank k s

/-- From `s` to `s'` the owners `gone` give way to `came`. -/
structure Changes (gone came : List ω) (s s' : σ) : Prop where
  good : ∀ w ∈ came, O.Good w s'
  blank : ∀ k, (∃ w ∈ gone, k ∈ O.footprint w) → (∀ w ∈ came, k ∉ O.footprint w) → O.Blank k s'
  kept : ∀ k, (∀ w ∈ gone, k ∉ O.footprint w) → (∀ w ∈ came, k ∉ O.footprint w) → O.Kept k s s'

end Ownership

namespace Ownership.Owned

variable {O : Ownership σ κ ω} {ws ws' gone came rest : List ω} {s s' : σ} {w w' : ω} {k : κ}

theorem nil (h : ∀ k, O.Blank k s) : O.Owned [] s :=
  ⟨.nil, fun _ hw => absurd hw List.not_mem_nil, fun k _ => h k⟩

/-- The order of the owners does not matter. -/
theorem perm (h : O.Owned ws s) (hperm : ws.Perm ws') : O.Owned ws' s where
  apart := (hperm.pairwise_iff fun {_ _} h => Disjoint.symm h).mp h.apart
  good w hw := h.good w (hperm.mem_iff.mpr hw)
  blank k hk := h.blank k fun w hw => hk w (hperm.mem_iff.mp hw)

/-- A cell has no more than one owner. -/
theorem owner_unique (h : O.Owned ws s) (hw : w ∈ ws) (hw' : w' ∈ ws) (hk : k ∈ O.footprint w)
    (hk' : k ∈ O.footprint w') : w = w' := by
  by_contra hne
  have hapart : O.Apart w w' := h.apart.forall hw hw' hne
  exact Set.disjoint_left.mp hapart hk hk'

/-- **Owners that give way to others** leave all further owners alone. -/
theorem step (h : O.Owned (gone ++ rest) s) (hchanges : O.Changes gone came s s')
    (hcame : came.Pairwise O.Apart) (hapart : ∀ w ∈ came, ∀ w' ∈ rest, O.Apart w w') :
    O.Owned (came ++ rest) s' := by
  obtain ⟨-, hrest, hgone⟩ := List.pairwise_append.mp h.apart
  -- the cells of a further owner are cells of nobody who takes part
  have hkept : ∀ w ∈ rest, ∀ k ∈ O.footprint w, O.Kept k s s' := by
    intro w hw k hk
    apply hchanges.kept
    · exact fun w' hw' hk' => Set.disjoint_left.mp (hgone w' hw' w hw) hk' hk
    · exact fun w' hw' hk' => Set.disjoint_left.mp (hapart w' hw' w hw) hk' hk
  refine ⟨List.pairwise_append.mpr ⟨hcame, hrest, hapart⟩, fun w hw => ?_, fun k hk => ?_⟩
  · rcases List.mem_append.mp hw with hw | hw
    · exact hchanges.good w hw
    · exact O.good_of_kept (hkept w hw) (h.good w (List.mem_append_right _ hw))
  · have hfree : ∀ w ∈ came, k ∉ O.footprint w := fun w hw => hk w (List.mem_append_left _ hw)
    by_cases howned : ∃ w ∈ gone, k ∈ O.footprint w
    · exact hchanges.blank k howned hfree
    · have hnone : ∀ w ∈ gone, k ∉ O.footprint w := fun w hw hmem => howned ⟨w, hw, hmem⟩
      apply O.blank_of_kept (hchanges.kept k hnone hfree)
      apply h.blank
      intro w hw
      rcases List.mem_append.mp hw with hw | hw
      · exact hnone w hw
      · exact hk w (List.mem_append_right _ hw)

/-- A change that leaves all cells alone. -/
theorem of_kept (h : O.Owned ws s) (hkept : ∀ k, O.Kept k s s') : O.Owned ws s' where
  apart := h.apart
  good w hw := O.good_of_kept (fun k _ => hkept k) (h.good w hw)
  blank k hk := O.blank_of_kept (hkept k) (h.blank k hk)

/-- A new owner takes cells that were blank. -/
theorem acquire (h : O.Owned ws s) (hgood : O.Good w s')
    (hkept : ∀ k ∉ O.footprint w, O.Kept k s s') (hapart : ∀ w' ∈ ws, O.Apart w w') :
    O.Owned (w :: ws) s' := by
  have hnobody : O.Owned ([] ++ ws) s := h
  have hstep : O.Owned ([w] ++ ws) s' := by
    apply hnobody.step
    · exact ⟨List.forall_mem_singleton.mpr hgood, fun k ⟨w, hw, _⟩ => absurd hw List.not_mem_nil,
        fun k _ hk => hkept k (hk w List.mem_cons_self)⟩
    · exact List.pairwise_singleton _ _
    · exact List.forall_mem_singleton.mpr hapart
  exact hstep

/-- An owner gives its cells back. -/
theorem release (h : O.Owned (w :: ws) s) (hblank : ∀ k ∈ O.footprint w, O.Blank k s')
    (hkept : ∀ k ∉ O.footprint w, O.Kept k s s') : O.Owned ws s' := by
  have howner : O.Owned ([w] ++ ws) s := h
  have hstep : O.Owned ([] ++ ws) s' := by
    apply howner.step
    · refine ⟨fun _ hw => absurd hw List.not_mem_nil, fun k hk _ => hblank k ?_,
        fun k hk _ => hkept k (hk w List.mem_cons_self)⟩
      obtain ⟨w', hw', hmem⟩ := hk
      exact List.mem_singleton.mp hw' ▸ hmem
    · exact .nil
    · exact fun _ hw => absurd hw List.not_mem_nil
  exact hstep

/-- An owner changes its cells, and may take more. -/
theorem act (h : O.Owned (w :: ws) s) (hsub : O.footprint w ⊆ O.footprint w')
    (hgood : O.Good w' s') (hkept : ∀ k ∉ O.footprint w', O.Kept k s s')
    (hapart : ∀ v ∈ ws, O.Apart w' v) : O.Owned (w' :: ws) s' := by
  have howner : O.Owned ([w] ++ ws) s := h
  have hstep : O.Owned ([w'] ++ ws) s' := by
    apply howner.step
    · refine ⟨List.forall_mem_singleton.mpr hgood, fun k hk hnone => ?_,
        fun k _ hk => hkept k (hk w' List.mem_cons_self)⟩
      obtain ⟨v, hv, hmem⟩ := hk
      obtain rfl := List.mem_singleton.mp hv
      exact absurd (hsub hmem) (hnone w' List.mem_cons_self)
    · exact List.pairwise_singleton _ _
    · exact List.forall_mem_singleton.mpr hapart
  exact hstep

end Ownership.Owned

end Bitype.Foundations
