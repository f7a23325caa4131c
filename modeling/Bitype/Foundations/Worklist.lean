import Mathlib.Logic.Relation
import Bitype.Foundations.Closure

/-!
# A worklist over uses

`traverse uses verdict fuel st` pops a value and judges its uses in order: a harmless use is
passed over, a use to follow puts its user on the list unless that has been done before, and
one use to reject ends the search.

`traverse_spec`: with fuel for one more than the values there are, the search ends, and it
accepts exactly if no use of a value that is reached is to be rejected.
-/

namespace Bitype.Foundations

/-- What a use means for the search. -/
inductive UseVerdict
  | harmless
  | follow
  | reject
deriving DecidableEq

/-- The users put on the list so far, and the list, last first. -/
structure Worklist (α : Type*) where
  visited : List α
  workList : List α

section Search

variable {α : Type*} [DecidableEq α] (uses : α → List α) (verdict : α → α → UseVerdict)

/-- One use of `v`; `none` is a rejection. -/
def visitUse (v : α) (st : Worklist α) (user : α) : Option (Worklist α) :=
  match verdict v user with
  | .harmless => some st
  | .follow =>
      if user ∈ st.visited then some st
      else some ⟨st.visited ++ [user], user :: st.workList⟩
  | .reject => none

/-- Pop until the list is empty or a use is rejected. -/
def traverse : ℕ → Worklist α → Option Bool
  | 0, _ => none
  | fuel + 1, st =>
      match st.workList with
      | [] => some true
      | v :: rest =>
          match (uses v).foldlM (visitUse verdict v) { st with workList := rest } with
          | none => some false
          | some next => traverse fuel next

/-- One use to follow. -/
def Follows (v user : α) : Prop := user ∈ uses v ∧ verdict v user = .follow

/-- No use of a reached value is to be rejected. -/
def NothingRejected (root : α) : Prop :=
  ∀ v, Relation.ReflTransGen (Follows uses verdict) root v →
    ∀ user ∈ uses v, verdict v user ≠ .reject

end Search

variable {α : Type*} [DecidableEq α] {uses : α → List α} {verdict : α → α → UseVerdict}

/-! ## The uses of one value -/

theorem visitUse_eq_none {v user : α} {st : Worklist α} :
    visitUse verdict v st user = none ↔ verdict v user = .reject := by
  unfold visitUse
  cases verdict v user with
  | harmless => simp
  | follow =>
      dsimp only
      split
      · simp
      · simp
  | reject => simp

/-- What the uses of a value make of the state. -/
structure UsesVisited (verdict : α → α → UseVerdict) (v : α) (users : List α)
    (st next : Worklist α) : Prop where
  accepts : ∀ user ∈ users, verdict v user ≠ .reject
  visited : ∀ user, user ∈ next.visited ↔
    user ∈ st.visited ∨ user ∈ users ∧ verdict v user = .follow
  workList : ∀ user, user ∈ next.workList ↔
    user ∈ st.workList ∨ user ∈ users ∧ verdict v user = .follow ∧ user ∉ st.visited

/-- The values not yet put on the list, and the list. -/
def remaining (ground : Finset α) (st : Worklist α) : ℕ :=
  (unvisited ground st.visited).card + st.workList.length

theorem remaining_visitUse_le {ground : Finset α} {v user : α} {st next : Worklist α}
    (huser : user ∈ ground) (h : visitUse verdict v st user = some next) :
    remaining ground next ≤ remaining ground st := by
  unfold visitUse at h
  cases hverdict : verdict v user with
  | harmless =>
      rw [hverdict] at h
      exact Option.some.inj h ▸ le_refl _
  | follow =>
      rw [hverdict] at h
      dsimp only at h
      split at h
      · exact Option.some.inj h ▸ le_refl _
      · next hnew =>
          obtain rfl := Option.some.inj h
          have hless := unvisited_card_lt huser hnew
          unfold remaining
          dsimp only
          rw [List.length_cons]
          omega
  | reject =>
      rw [hverdict] at h
      cases h

theorem usesVisited_visitUse {v user : α} {st next : Worklist α}
    (h : visitUse verdict v st user = some next) : UsesVisited verdict v [user] st next := by
  unfold visitUse at h
  cases hverdict : verdict v user with
  | harmless =>
      rw [hverdict] at h
      obtain rfl := Option.some.inj h
      exact ⟨by simp [hverdict], by simp +contextual [hverdict], by simp +contextual [hverdict]⟩
  | follow =>
      rw [hverdict] at h
      dsimp only at h
      split at h
      -- a user that has been pushed is not pushed again
      · next hold =>
          obtain rfl := Option.some.inj h
          refine ⟨by simp [hverdict], fun other => ?_, fun other => ?_⟩
          · simp only [List.mem_singleton]
            exact ⟨.inl, fun hother => hother.elim id fun heq => heq.1 ▸ hold⟩
          · simp only [List.mem_singleton]
            exact ⟨.inl, fun hother => hother.elim id fun heq => absurd (heq.1 ▸ hold) heq.2.2⟩
      · next hnew =>
          obtain rfl := Option.some.inj h
          refine ⟨by simp [hverdict], fun other => ?_, fun other => ?_⟩
          · simp only [List.mem_append, List.mem_singleton]
            exact or_congr_right ⟨fun heq => ⟨heq, heq ▸ hverdict⟩, fun heq => heq.1⟩
          · simp only [List.mem_cons, List.not_mem_nil, or_false]
            rw [or_comm]
            exact or_congr_right ⟨fun heq => ⟨heq, heq ▸ hverdict, heq ▸ hnew⟩, fun heq => heq.1⟩
  | reject =>
      rw [hverdict] at h
      cases h

/-- One use, then the others. -/
theorem UsesVisited.cons {v user : α} {users : List α} {st middle next : Worklist α}
    (hfirst : UsesVisited verdict v [user] st middle)
    (hrest : UsesVisited verdict v users middle next) :
    UsesVisited verdict v (user :: users) st next := by
  refine ⟨?_, fun other => ?_, fun other => ?_⟩
  · intro other hother
    rcases List.mem_cons.mp hother with rfl | hother
    · exact hfirst.accepts _ List.mem_cons_self
    · exact hrest.accepts other hother
  · rw [hrest.visited, hfirst.visited, List.mem_singleton, List.mem_cons]
    tauto
  · rw [hrest.workList, hfirst.workList, hfirst.visited, List.mem_singleton, List.mem_cons]
    tauto

/-- **The uses of one value**: one is rejected, or the state has them all. -/
theorem foldlM_visitUse (ground : Finset α) (v : α) : ∀ (users : List α) (st : Worklist α),
    (∀ user ∈ users, user ∈ ground) →
      (users.foldlM (visitUse verdict v) st = none ∧ ∃ user ∈ users, verdict v user = .reject) ∨
      ∃ next, users.foldlM (visitUse verdict v) st = some next ∧
        UsesVisited verdict v users st next ∧ remaining ground next ≤ remaining ground st := by
  intro users
  induction users with
  | nil =>
      intro st _
      exact .inr ⟨st, rfl, ⟨by simp, by simp, by simp⟩, le_refl _⟩
  | cons user rest ih =>
      intro st hground
      rw [List.foldlM_cons]
      cases hvisit : visitUse verdict v st user with
      | none => exact .inl ⟨rfl, user, List.mem_cons_self, visitUse_eq_none.mp hvisit⟩
      | some middle =>
          rcases ih middle fun other hother => hground other (List.mem_cons_of_mem _ hother) with
            ⟨hnone, other, hother, hreject⟩ | ⟨next, hnext, hvisited, hle⟩
          · exact .inl ⟨hnone, other, List.mem_cons_of_mem _ hother, hreject⟩
          · have hfirst := remaining_visitUse_le (hground user List.mem_cons_self) hvisit
            exact .inr ⟨next, hnext, (usesVisited_visitUse hvisit).cons hvisited, hle.trans hfirst⟩

/-! ## The search -/

/-- The uses of `v` have been judged, and none rejected. -/
def Judged (uses : α → List α) (verdict : α → α → UseVerdict) (visited : List α) (v : α) : Prop :=
  ∀ user ∈ uses v, verdict v user ≠ .reject ∧ (verdict v user = .follow → user ∈ visited)

/-- The invariant: what is on the list is reached, and what is known is on the list or judged. -/
structure Traversing (uses : α → List α) (verdict : α → α → UseVerdict) (ground : Finset α)
    (root : α) (st : Worklist α) : Prop where
  ground : ∀ v ∈ st.workList, v ∈ ground
  reached : ∀ v ∈ st.workList, Relation.ReflTransGen (Follows uses verdict) root v
  known : ∀ v, v = root ∨ v ∈ st.visited → v ∈ st.workList ∨ Judged uses verdict st.visited v

/-- **A round keeps the invariant.** -/
theorem Traversing.pop {ground : Finset α} {root v : α} {rest : List α} {st next : Worklist α}
    (hclosed : ∀ a ∈ ground, ∀ b ∈ uses a, b ∈ ground)
    (h : Traversing uses verdict ground root st) (hlist : st.workList = v :: rest)
    (hvisit : UsesVisited verdict v (uses v) { st with workList := rest } next) :
    Traversing uses verdict ground root next := by
  have hmem : ∀ other, other ∈ st.workList ↔ other = v ∨ other ∈ rest := by
    intro other
    rw [hlist, List.mem_cons]
  have hv : v ∈ st.workList := (hmem v).mpr (.inl rfl)
  have hjudged : Judged uses verdict next.visited v := fun user huser =>
    ⟨hvisit.accepts user huser, fun hfollow => (hvisit.visited user).mpr (.inr ⟨huser, hfollow⟩)⟩
  have hold : ∀ {other}, Judged uses verdict st.visited other → Judged uses verdict next.visited other :=
    fun hother user huser => ⟨(hother user huser).1,
      fun hfollow => (hvisit.visited user).mpr (.inl ((hother user huser).2 hfollow))⟩
  refine ⟨fun other hother => ?_, fun other hother => ?_, fun other hother => ?_⟩
  · rcases (hvisit.workList other).mp hother with hrest | ⟨huser, -⟩
    · exact h.ground other ((hmem other).mpr (.inr hrest))
    · exact hclosed v (h.ground v hv) other huser
  · rcases (hvisit.workList other).mp hother with hrest | ⟨huser, hfollow, -⟩
    · exact h.reached other ((hmem other).mpr (.inr hrest))
    · exact (h.reached v hv).tail ⟨huser, hfollow⟩
  · by_cases hknown : other = root ∨ other ∈ st.visited
    · rcases h.known other hknown with hlisted | hdone
      · rcases (hmem other).mp hlisted with rfl | hrest
        · exact .inr hjudged
        · exact .inl ((hvisit.workList other).mpr (.inl hrest))
      · exact .inr (hold hdone)
    · -- it has been put on the list in this round
      rw [not_or] at hknown
      have hnew := (hvisit.visited other).mp (hother.resolve_left hknown.1)
      obtain ⟨huser, hfollow⟩ := hnew.resolve_left hknown.2
      exact .inl ((hvisit.workList other).mpr (.inr ⟨huser, hfollow, hknown.2⟩))

omit [DecidableEq α] in
/-- When nothing is left, everything reached has been judged. -/
theorem Traversing.accepted {ground : Finset α} {root : α} {st : Worklist α}
    (h : Traversing uses verdict ground root st) (hempty : st.workList = []) :
    NothingRejected uses verdict root := by
  have hjudged : ∀ v, v = root ∨ v ∈ st.visited → Judged uses verdict st.visited v := by
    intro v hv
    apply (h.known v hv).resolve_left
    rw [hempty]
    exact List.not_mem_nil
  have hknown : ∀ v, Relation.ReflTransGen (Follows uses verdict) root v →
      v = root ∨ v ∈ st.visited := by
    intro v hv
    induction hv with
    | refl => exact .inl rfl
    | tail _ hstep ih => exact .inr ((hjudged _ ih _ hstep.1).2 hstep.2)
  exact fun v hv user huser => (hjudged v (hknown v hv) user huser).1

/-- **The search ends and finds out.** -/
theorem traverse_of_traversing {ground : Finset α} {root : α}
    (hclosed : ∀ a ∈ ground, ∀ b ∈ uses a, b ∈ ground) :
    ∀ (fuel : ℕ) (st : Worklist α), Traversing uses verdict ground root st →
      remaining ground st < fuel →
        ∃ answer, traverse uses verdict fuel st = some answer ∧
          (answer = true ↔ NothingRejected uses verdict root) := by
  intro fuel
  induction fuel with
  | zero => exact fun _ _ hfuel => absurd hfuel (Nat.not_lt_zero _)
  | succ fuel ih =>
      intro st h hfuel
      rw [traverse]
      cases hlist : st.workList with
      | nil => exact ⟨true, rfl, iff_of_true rfl (h.accepted hlist)⟩
      | cons v rest =>
          have hv : v ∈ st.workList := by
            rw [hlist]
            exact List.mem_cons_self
          rcases foldlM_visitUse ground v (uses v) { st with workList := rest }
              (hclosed v (h.ground v hv)) with ⟨hnone, user, huser, hreject⟩ | ⟨next, hnext, hvisit, hle⟩
          · refine ⟨false, ?_, iff_of_false Bool.false_ne_true fun haccepted => ?_⟩
            · dsimp only
              rw [hnone]
            · exact haccepted v (h.reached v hv) user huser hreject
          · have hless : remaining ground { st with workList := rest } < remaining ground st := by
              unfold remaining
              rw [hlist, List.length_cons]
              exact Nat.lt_succ_self _
            dsimp only
            rw [hnext]
            exact ih next (h.pop hclosed hlist hvisit) (by omega)

/-- **From one value.** -/
theorem traverse_spec {ground : Finset α} {root : α}
    (hclosed : ∀ a ∈ ground, ∀ b ∈ uses a, b ∈ ground) (hroot : root ∈ ground) {fuel : ℕ}
    (hfuel : ground.card + 1 < fuel) :
    ∃ answer, traverse uses verdict fuel ⟨[], [root]⟩ = some answer ∧
      (answer = true ↔ NothingRejected uses verdict root) := by
  refine traverse_of_traversing hclosed fuel ⟨[], [root]⟩ ⟨?_, ?_, ?_⟩ ?_
  · intro v hv
    exact List.mem_singleton.mp hv ▸ hroot
  · intro v hv
    exact List.mem_singleton.mp hv ▸ .refl
  · intro v hv
    exact .inl (List.mem_singleton.mpr (hv.resolve_right List.not_mem_nil))
  · have hcard : (unvisited ground []).card ≤ ground.card :=
      Finset.card_le_card (Finset.filter_subset _ _)
    unfold remaining
    dsimp only
    rw [List.length_singleton]
    omega

end Bitype.Foundations
