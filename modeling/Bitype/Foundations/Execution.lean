import Mathlib.Data.List.Basic
import Mathlib.Data.BitVec
import Mathlib.Tactic.Basic

/-!
# Counted loops and labelled machines

Small pieces of program semantics that know nothing of a particular
program.

* `forLoop` is the C loop `for (uintW i = 0; i < bound; i++) body`, whose counter
  has `w` bits and wraps.  It runs on a budget of condition tests, and is `none`
  while the budget is too small.  `forLoop_eq_foldl` says what it computes when
  the counter can reach the bound, and `forLoop_eq_none` that it never ends when
  the counter cannot.
* `foldlM_error_iff` finds the step at which a run with errors stops.
* `Machine` is a deterministic labelled machine whose step is `none` when it does
  not return.  `Machine.run_of_step` turns a step invariant into a run invariant,
  `Machine.run_refines` a step-by-step abstraction into one of runs, and
  `Machine.Congruence` a relation preserved by every step into one preserved by
  every run.
* `Machine.Meets` is a condition on every step of a run, and `Machine.Along` what
  holds of its states and steps.  `Machine.along_of_meets` turns one into the other,
  and `Machine.sequences` is the same machine read a sequence of labels at a time.
-/

namespace Bitype.Foundations

/-! ## Counted loops -/

section Loop

variable {σ : Type*} {w : ℕ}

/-- `for (uintW i = ..; i < bound; i++) body`, stopped after `fuel` tests of its
condition. -/
def forLoop (bound : ℕ) (body : BitVec w → σ → σ) : ℕ → BitVec w → σ → Option σ
  | 0, _, _ => none
  | fuel + 1, i, s =>
      if i.toNat < bound then forLoop bound body fuel (i + 1) (body i s) else some s

/-- The loop from counter value `i`: it runs the body once for every value left. -/
theorem forLoop_from (body : BitVec w → σ → σ) {bound : ℕ} (hbound : bound < 2 ^ w) :
    ∀ (left i fuel : ℕ) (s : σ), i + left = bound → left < fuel →
      forLoop bound body fuel (BitVec.ofNat w i) s =
        some ((List.range' i left).foldl (fun s j => body (BitVec.ofNat w j) s) s) := by
  intro left
  induction left with
  | zero =>
      intro i fuel s hi hfuel
      obtain ⟨fuel, rfl⟩ := Nat.exists_eq_succ_of_ne_zero (by omega : fuel ≠ 0)
      have hval : (BitVec.ofNat w i).toNat = i := by
        rw [BitVec.toNat_ofNat]
        exact Nat.mod_eq_of_lt (by omega)
      simp only [forLoop, hval, List.range'_zero, List.foldl_nil]
      rw [if_neg (by omega)]
  | succ left ih =>
      intro i fuel s hi hfuel
      obtain ⟨fuel, rfl⟩ := Nat.exists_eq_succ_of_ne_zero (by omega : fuel ≠ 0)
      have hval : (BitVec.ofNat w i).toNat = i := by
        rw [BitVec.toNat_ofNat]
        exact Nat.mod_eq_of_lt (by omega)
      have hnext : BitVec.ofNat w i + 1 = BitVec.ofNat w (i + 1) := by
        rw [BitVec.ofNat_add]
        rfl
      simp only [forLoop, hval, List.range'_succ, List.foldl_cons]
      rw [if_pos (by omega), hnext]
      exact ih (i + 1) fuel _ (by omega) (by omega)

/-- A loop whose counter can hold the bound runs its body for `0, .., bound - 1`. -/
theorem forLoop_eq_foldl (body : BitVec w → σ → σ) {bound fuel : ℕ} (hbound : bound < 2 ^ w)
    (hfuel : bound < fuel) (s : σ) :
    forLoop bound body fuel 0 s =
      some ((List.range bound).foldl (fun s j => body (BitVec.ofNat w j) s) s) := by
  rw [List.range_eq_range']
  exact forLoop_from body hbound bound 0 fuel s (by omega) hfuel

/-- A loop whose counter cannot reach the bound never ends. -/
theorem forLoop_eq_none (body : BitVec w → σ → σ) {bound : ℕ} (hbound : 2 ^ w ≤ bound) :
    ∀ (fuel : ℕ) (i : BitVec w) (s : σ), forLoop bound body fuel i s = none := by
  intro fuel
  induction fuel with
  | zero => intro _ _; rfl
  | succ fuel ih =>
      intro i s
      simp only [forLoop, if_pos (i.isLt.trans_le hbound)]
      exact ih _ _

/-- A property the body keeps holds when the loop ends. -/
theorem forLoop_invariant {body : BitVec w → σ → σ} {P : σ → Prop}
    (hbody : ∀ i s, P s → P (body i s)) {bound : ℕ} :
    ∀ (fuel : ℕ) (i : BitVec w) (s s' : σ), P s → forLoop bound body fuel i s = some s' → P s' := by
  intro fuel
  induction fuel with
  | zero => intro i s s' _ h; cases h
  | succ fuel ih =>
      intro i s s' hs h
      simp only [forLoop] at h
      split at h
      · exact ih _ _ s' (hbody i s hs) h
      · exact Option.some.inj h ▸ hs

end Loop

/-! ## Runs that stop -/

section Stopping

universe u

variable {ε α : Type*} {σ β : Type u} {step : σ → α → Except ε σ}

theorem toOption_bind (x : Except ε σ) (f : σ → Except ε β) :
    (x >>= f).toOption = x.toOption.bind fun s => (f s).toOption := by
  cases x <;> rfl

theorem toOption_eq_some {x : Except ε σ} {s : σ} : x.toOption = some s ↔ x = .ok s := by
  cases x with
  | error e => exact ⟨fun h => (Option.some_ne_none s h.symm).elim, fun h => by cases h⟩
  | ok s' => exact ⟨fun h => by rw [Option.some.inj h], fun h => by rw [Except.ok.inj h]; rfl⟩

theorem foldlM_cons_ok {a : α} {l : List α} {s s' : σ} (h : (a :: l).foldlM step s = .ok s') :
    ∃ next, step s a = .ok next ∧ l.foldlM step next = .ok s' := by
  rw [List.foldlM_cons] at h
  cases hstep : step s a with
  | error e => rw [hstep] at h; cases h
  | ok next => rw [hstep] at h; exact ⟨next, rfl, h⟩

/-- A run stops at the first element on which its step does. -/
theorem foldlM_error_iff {e : ε} : ∀ (l : List α) (s : σ), l.foldlM step s = .error e ↔
    ∃ before a after s', l = before ++ a :: after ∧ before.foldlM step s = .ok s' ∧
      step s' a = .error e := by
  intro l
  induction l with
  | nil =>
      intro s
      constructor
      · intro h
        cases h
      · rintro ⟨before, a, after, _, h, _⟩
        exact absurd h.symm (by simp)
  | cons b rest ih =>
      intro s
      rw [List.foldlM_cons]
      constructor
      · intro h
        -- the run stops at the first element or goes on behind it
        cases hstep : step s b with
        | error e' =>
            rw [hstep] at h
            exact ⟨[], b, rest, s, rfl, rfl, hstep.trans (by cases h; rfl)⟩
        | ok next =>
            rw [hstep] at h
            obtain ⟨before, a, after, s', rfl, hbefore, hstop⟩ := (ih next).mp h
            refine ⟨b :: before, a, after, s', rfl, ?_, hstop⟩
            rw [List.foldlM_cons, hstep]
            exact hbefore
      · rintro ⟨before, a, after, s', hsplit, hbefore, hstop⟩
        cases before with
        | nil =>
            cases hsplit
            cases hbefore
            rw [hstop]
            rfl
        | cons c before =>
            cases hsplit
            obtain ⟨next, hstep, hbefore⟩ := foldlM_cons_ok hbefore
            rw [hstep]
            exact (ih next).mpr ⟨before, a, after, s', rfl, hbefore, hstop⟩

/-- A run that goes through went through its first part. -/
theorem foldlM_append_ok {l l' : List α} {s s' : σ} (h : (l ++ l').foldlM step s = .ok s') :
    ∃ next, l.foldlM step s = .ok next ∧ l'.foldlM step next = .ok s' := by
  rw [List.foldlM_append] at h
  cases hfirst : l.foldlM step s with
  | error e => rw [hfirst] at h; cases h
  | ok next => rw [hfirst] at h; exact ⟨next, rfl, h⟩

end Stopping

/-! ## Machines -/

/-- A deterministic machine over states `σ` driven by labels `α`.  A step is
`none` when it does not return. -/
structure Machine (σ α : Type*) where
  step : α → σ → Option σ

namespace Machine

variable {σ τ α : Type*}

/-- A whole run: the state after the labels, if every step returns. -/
def run (M : Machine σ α) : List α → σ → Option σ
  | [], s => some s
  | a :: rest, s => (M.step a s).bind (M.run rest)

@[simp] theorem run_nil (M : Machine σ α) (s : σ) : M.run [] s = some s := rfl

@[simp] theorem run_cons (M : Machine σ α) (a : α) (rest : List α) (s : σ) :
    M.run (a :: rest) s = (M.step a s).bind (M.run rest) := rfl

/-- A run of a sequence is a run of its parts. -/
theorem run_append (M : Machine σ α) :
    ∀ (labels rest : List α) (s : σ),
      M.run (labels ++ rest) s = (M.run labels s).bind (M.run rest) := by
  intro labels
  induction labels with
  | nil => exact fun _ _ => rfl
  | cons a labels ih =>
      intro rest s
      rw [List.cons_append, run_cons, run_cons, Option.bind_assoc]
      exact Option.bind_congr fun next _ => ih rest next

/-- A property that every step keeps holds after every run. -/
theorem run_of_step (M : Machine σ α) {P : σ → Prop}
    (hstep : ∀ a s s', P s → M.step a s = some s' → P s') :
    ∀ (labels : List α) (s s' : σ), P s → M.run labels s = some s' → P s' := by
  intro labels
  induction labels with
  | nil =>
      intro s s' hs hrun
      cases hrun
      exact hs
  | cons a rest ih =>
      intro s s' hs hrun
      obtain ⟨next, hnext, hrest⟩ := Option.bind_eq_some_iff.mp hrun
      exact ih next s' (hstep a s next hs hnext) hrest

/-- A run of labels that return in every such state returns. -/
theorem run_isSome (M : Machine σ α) {P : σ → Prop}
    (hkeep : ∀ a s s', P s → M.step a s = some s' → P s') :
    ∀ labels : List α, (∀ a ∈ labels, ∀ s, P s → (M.step a s).isSome) →
      ∀ s, P s → (M.run labels s).isSome := by
  intro labels
  induction labels with
  | nil => exact fun _ _ _ => rfl
  | cons a rest ih =>
      intro hstep s hs
      obtain ⟨next, hnext⟩ := Option.isSome_iff_exists.mp (hstep a List.mem_cons_self s hs)
      rw [run_cons, hnext]
      exact ih (fun b hb => hstep b (List.mem_cons_of_mem _ hb)) next (hkeep a s next hs hnext)

/-- **Refinement of runs.**  If the steps of `M` do on `view s` what the steps of
`N` do, so do the runs; `P` is the invariant under which the steps agree. -/
theorem run_refines (M : Machine σ α) (N : Machine τ α) (view : σ → τ) {P : σ → Prop}
    (hkeep : ∀ a s s', P s → M.step a s = some s' → P s')
    (hview : ∀ a s, P s → (M.step a s).map view = N.step a (view s)) :
    ∀ (labels : List α) (s : σ), P s →
      (M.run labels s).map view = N.run labels (view s) := by
  intro labels
  induction labels with
  | nil => intro s _; rfl
  | cons a rest ih =>
      intro s hs
      rw [run_cons, run_cons, ← hview a s hs]
      cases hstep : M.step a s with
      | none => rfl
      | some next => exact ih next (hkeep a s next hs hstep)

/-- A relation between states that every step preserves: the steps return
together, in related states. -/
def Congruence (M : Machine σ α) (R : σ → σ → Prop) : Prop :=
  ∀ a s t, R s t → Option.Rel R (M.step a s) (M.step a t)

/-- Related states stay related along every run. -/
theorem Congruence.run {M : Machine σ α} {R : σ → σ → Prop} (h : M.Congruence R) :
    ∀ (labels : List α) (s t : σ), R s t → Option.Rel R (M.run labels s) (M.run labels t) := by
  intro labels
  induction labels with
  | nil => intro s t hR; exact Option.Rel.some hR
  | cons a rest ih =>
      intro s t hR
      have hstep := h a s t hR
      rw [run_cons, run_cons]
      generalize M.step a s = x at hstep ⊢
      generalize M.step a t = y at hstep ⊢
      cases hstep with
      | none => exact Option.Rel.none
      | some hnext => exact ih _ _ hnext

/-! ### What holds along a run -/

variable {β : Type*}

/-- Every state on the run satisfies `P`, and every step `R`. -/
def Along (M : Machine σ α) (P : σ → Prop) (R : α → σ → σ → Prop) : List α → σ → Prop
  | [], s => P s
  | a :: rest, s => P s ∧ ∀ s', M.step a s = some s' → R a s s' ∧ M.Along P R rest s'

/-- Every label meets `C` in the state in which it is taken. -/
def Meets (M : Machine σ α) (C : α → σ → Prop) : List α → σ → Prop
  | [], _ => True
  | a :: rest, s => C a s ∧ ∀ s', M.step a s = some s' → M.Meets C rest s'

/-- The machine whose labels stand for sequences of labels of `M`. -/
def sequences (M : Machine σ α) (f : β → List α) : Machine σ β where
  step b s := M.run (f b) s

section Along

variable {M : Machine σ α} {P I : σ → Prop} {R : α → σ → σ → Prop} {C C' : α → σ → Prop}
  {f : β → List α}

theorem Along.start : ∀ {labels : List α} {s : σ}, M.Along P R labels s → P s
  | [], _, h => h
  | _ :: _, _, h => h.1

theorem along_append (labels rest : List α) : ∀ s, M.Along P R (labels ++ rest) s ↔
    M.Along P R labels s ∧ ∀ s', M.run labels s = some s' → M.Along P R rest s' := by
  induction labels with
  | nil =>
      intro s
      refine ⟨fun h => ⟨h.start, fun s' hs' => Option.some.inj hs' ▸ h⟩, fun h => h.2 s rfl⟩
  | cons a labels ih =>
      intro s
      rw [List.cons_append]
      constructor
      · intro ⟨hs, hnext⟩
        refine ⟨⟨hs, fun s₁ hs₁ => ⟨(hnext s₁ hs₁).1, ((ih s₁).mp (hnext s₁ hs₁).2).1⟩⟩, ?_⟩
        intro s' hrun
        obtain ⟨s₁, hs₁, hrest⟩ := Option.bind_eq_some_iff.mp hrun
        exact ((ih s₁).mp (hnext s₁ hs₁).2).2 s' hrest
      · intro ⟨⟨hs, hnext⟩, hrest⟩
        refine ⟨hs, fun s₁ hs₁ => ⟨(hnext s₁ hs₁).1, (ih s₁).mpr ⟨(hnext s₁ hs₁).2, ?_⟩⟩⟩
        intro s' hrun
        exact hrest s' (by rw [run_cons, hs₁]; exact hrun)

theorem meets_append (labels rest : List α) : ∀ s, M.Meets C (labels ++ rest) s ↔
    M.Meets C labels s ∧ ∀ s', M.run labels s = some s' → M.Meets C rest s' := by
  induction labels with
  | nil => exact fun s => ⟨fun h => ⟨trivial, fun s' hs' => Option.some.inj hs' ▸ h⟩,
      fun h => h.2 s rfl⟩
  | cons a labels ih =>
      intro s
      rw [List.cons_append]
      constructor
      · intro ⟨hs, hnext⟩
        refine ⟨⟨hs, fun s₁ hs₁ => ((ih s₁).mp (hnext s₁ hs₁)).1⟩, fun s' hrun => ?_⟩
        obtain ⟨s₁, hs₁, hrest⟩ := Option.bind_eq_some_iff.mp hrun
        exact ((ih s₁).mp (hnext s₁ hs₁)).2 s' hrest
      · intro ⟨⟨hs, hnext⟩, hrest⟩
        refine ⟨hs, fun s₁ hs₁ => (ih s₁).mpr ⟨hnext s₁ hs₁, fun s' hrun => ?_⟩⟩
        exact hrest s' (by rw [run_cons, hs₁]; exact hrun)

theorem meets_of_forall {labels : List α} (h : ∀ a ∈ labels, ∀ s, C a s) :
    ∀ s, M.Meets C labels s := by
  induction labels with
  | nil => exact fun _ => trivial
  | cons a rest ih =>
      exact fun s => ⟨h a List.mem_cons_self s,
        fun s' _ => ih (fun b hb => h b (List.mem_cons_of_mem _ hb)) s'⟩

/-- An invariant of the steps that meet `C` turns one condition into another. -/
theorem Meets.mono (hmono : ∀ a s, I s → C a s → C' a s)
    (hkeep : ∀ a s s', I s → C a s → M.step a s = some s' → I s') {labels : List α} :
    ∀ {s}, I s → M.Meets C labels s → M.Meets C' labels s := by
  induction labels with
  | nil => exact fun _ _ => trivial
  | cons a rest ih =>
      intro s hs ⟨hmeets, hrest⟩
      exact ⟨hmono a s hs hmeets,
        fun s' hs' => ih (hkeep a s s' hs hmeets hs') (hrest s' hs')⟩

/-- **Step by step.**  Where the steps that meet `C` keep the invariant, a run of such steps
keeps it, and what the invariant and each step imply holds along the run. -/
theorem along_of_meets (hstate : ∀ s, I s → P s)
    (hstep : ∀ a s s', I s → C a s → M.step a s = some s' → I s' ∧ R a s s') :
    ∀ (labels : List α) (s : σ), I s → M.Meets C labels s →
      M.Along P R labels s ∧ ∀ s', M.run labels s = some s' → I s' := by
  intro labels
  induction labels with
  | nil => exact fun s hs _ => ⟨hstate s hs, fun s' hs' => Option.some.inj hs' ▸ hs⟩
  | cons a rest ih =>
      intro s hs ⟨hmeets, hrest⟩
      have hnext : ∀ s₁, M.step a s = some s₁ → I s₁ ∧ R a s s₁ :=
        fun s₁ hs₁ => hstep a s s₁ hs hmeets hs₁
      refine ⟨⟨hstate s hs, fun s₁ hs₁ => ?_⟩, fun s' hrun => ?_⟩
      · exact ⟨(hnext s₁ hs₁).2, (ih s₁ (hnext s₁ hs₁).1 (hrest s₁ hs₁)).1⟩
      · obtain ⟨s₁, hs₁, hrun⟩ := Option.bind_eq_some_iff.mp hrun
        exact (ih s₁ (hnext s₁ hs₁).1 (hrest s₁ hs₁)).2 s' hrun

theorem meets_flatMap (bs : List β) : ∀ s, M.Meets C (bs.flatMap f) s ↔
    (M.sequences f).Meets (fun b s => M.Meets C (f b) s) bs s := by
  induction bs with
  | nil => exact fun _ => Iff.rfl
  | cons b rest ih =>
      intro s
      rw [List.flatMap_cons, meets_append]
      exact and_congr_right fun _ => forall₂_congr fun s' _ => ih s'

theorem meets_of_along_flatMap (bs : List β) : ∀ s, M.Along P R (bs.flatMap f) s →
    (M.sequences f).Meets (fun b s => M.Along P R (f b) s) bs s := by
  induction bs with
  | nil => exact fun _ _ => trivial
  | cons b rest ih =>
      intro s h
      rw [List.flatMap_cons, along_append] at h
      exact ⟨h.1, fun s' hs' => ih s' (h.2 s' hs')⟩

end Along

end Machine

end Bitype.Foundations
