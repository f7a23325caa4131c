import Mathlib.Data.Finset.Card
import Mathlib.Logic.Relation

/-!
# A search without marks

`search task fuel v` answers for `v`, or asks the values that `v` depends on, one after the
other, until one fails or two answer differently.  It marks nothing, so on a cycle it may go
round for ever.

Whether it does depends on the order of the values: the search `Enters` one of them only if
those before it have passed, that is, if everything they depend on gives one answer
(`Agrees`).  `search_ends_iff`: the search ends exactly if it is not `Circular`, that is, if
no cycle can be entered.  A result it gives is the answer of everything `v` depends on
(`agrees_of_search`).
-/

namespace Bitype.Foundations

/-- What there is to do for a value: answer, or ask values, with an answer to start from. -/
inductive Task (α β : Type*)
  | answer (found : Option β)
  | ask (start : Option β) (values : List α)

section Search

variable {α β : Type*} [DecidableEq β]

/-- Ask values in order.  The outer option is for a search that does not end. -/
def collect (find : α → Option (Option β)) : List α → Option β → Option (Option β)
  | [], res => some res
  | v :: rest, res => do
      match ← find v with
      | none => some none
      | some b => if res ≠ none ∧ res ≠ some b then some none else collect find rest (some b)

/-- What a task comes to. -/
def Task.result (find : α → Option (Option β)) : Task α β → Option (Option β)
  | .answer found => some found
  | .ask start values => collect find values start

def search (task : α → Task α β) : ℕ → α → Option (Option β)
  | 0, _ => none
  | fuel + 1, v => (task v).result (search task fuel)

end Search

section Relations

variable {α β : Type*} (task : α → Task α β)

/-- A value that is asked for another. -/
def Asks (v w : α) : Prop := ∃ start values, task v = .ask start values ∧ w ∈ values

/-- The task gives an answer if the values it asks do. -/
def Task.Gives (b : β) : Task α β → Prop
  | .answer found => found = some b
  | .ask start values => start = some b ∨ start = none ∧ values ≠ []

/-- Everything the value depends on gives this answer. -/
def Agrees (b : β) (v : α) : Prop := ∀ w, Relation.ReflTransGen (Asks task) v w → (task w).Gives b

/-- The values asked so far agree with each other and with the start. -/
def Passed (start : Option β) (before : List α) : Prop :=
  before = [] ∨ ∃ b, (start = none ∨ start = some b) ∧ ∀ u ∈ before, Agrees task b u

/-- A value that is asked once those before it have passed. -/
def Enters (v w : α) : Prop :=
  ∃ start before after, task v = .ask start (before ++ w :: after) ∧ Passed task start before

/-- A cycle can be entered. -/
def Circular (v : α) : Prop :=
  ∃ w, Relation.ReflTransGen (Enters task) v w ∧ Relation.TransGen (Enters task) w w

end Relations

variable {α β : Type*} [DecidableEq β] {task : α → Task α β}

/-- To ask one value is to look for it. -/
theorem result_ask_single {find : α → Option (Option β)} {start : Option β} {v : α}
    (h : ∀ b, start = none ∨ start = some b) : (Task.ask start [v]).result find = find v := by
  rw [Task.result, collect]
  cases hfound : find v with
  | none => rfl
  | some found =>
      cases found with
      | none => rfl
      | some b =>
          have hsame : ¬ (start ≠ none ∧ start ≠ some b) := by
            rcases h b with rfl | rfl
            · simp
            · simp
          simp only [Option.bind_eq_bind, Option.bind_some, if_neg hsame, collect]

/-! ## Fuel -/

theorem collect_mono {find find' : α → Option (Option β)}
    (hfind : ∀ v r, find v = some r → find' v = some r) :
    ∀ (values : List α) (res r : Option β),
      collect find values res = some r → collect find' values res = some r := by
  intro values
  induction values with
  | nil => exact fun _ _ h => h
  | cons v rest ih =>
      intro res r h
      unfold collect at h ⊢
      obtain ⟨found, hfound, hnext⟩ := Option.bind_eq_some_iff.mp h
      rw [hfind v found hfound]
      cases found with
      | none => exact hnext
      | some b =>
          simp only [Option.bind_eq_bind, Option.bind_some] at hnext ⊢
          split at hnext
          · next hother => rw [if_pos hother, hnext]
          · next hsame =>
              rw [if_neg hsame]
              exact ih _ r hnext

theorem search_succ : ∀ (fuel : ℕ) (v : α) (r : Option β), search task fuel v = some r →
    search task (fuel + 1) v = some r := by
  intro fuel
  induction fuel with
  | zero => exact fun _ _ h => nomatch h
  | succ fuel ih =>
      intro v r h
      unfold search at h ⊢
      cases htask : task v with
      | answer found =>
          rw [htask] at h
          exact h
      | ask start values =>
          rw [htask] at h
          exact collect_mono ih values start r h

/-- More fuel does not change a result. -/
theorem search_mono {fuel fuel' : ℕ} (hle : fuel ≤ fuel') {v : α} {r : Option β}
    (h : search task fuel v = some r) : search task fuel' v = some r := by
  induction hle with
  | refl => exact h
  | step _ ih => exact search_succ _ v r ih

/-! ## What a result says -/

theorem collect_eq_some {find : α → Option (Option β)} {b : β} : ∀ {values : List α}
    {res : Option β}, collect find values res = some (some b) →
      (res = some b ∨ res = none ∧ values ≠ []) ∧ ∀ v ∈ values, find v = some (some b) := by
  intro values
  induction values with
  | nil =>
      intro res h
      exact ⟨.inl (Option.some.inj h), fun v hv => absurd hv List.not_mem_nil⟩
  | cons v rest ih =>
      intro res h
      unfold collect at h
      obtain ⟨found, hfound, hnext⟩ := Option.bind_eq_some_iff.mp h
      cases found with
      | none => cases hnext
      | some c =>
          dsimp only at hnext
          split at hnext
          · cases hnext
          · next hsame =>
              obtain ⟨hstart, hrest⟩ := ih hnext
              obtain rfl : c = b := by simpa using hstart
              rw [not_and_or, not_not, not_not] at hsame
              refine ⟨?_, fun u hu => ?_⟩
              · rcases hsame with hnone | hsame
                · exact .inr ⟨hnone, List.cons_ne_nil _ _⟩
                · exact .inl hsame
              · rcases List.mem_cons.mp hu with rfl | hu
                · exact hfound
                · exact hrest u hu

/-- **A result** is the answer of everything that the value depends on. -/
theorem agrees_of_search {b : β} : ∀ {fuel : ℕ} {v : α}, search task fuel v = some (some b) →
    Agrees task b v := by
  intro fuel
  induction fuel with
  | zero => exact fun h => nomatch h
  | succ fuel ih =>
      intro v h w hw
      unfold search at h
      rcases Relation.ReflTransGen.cases_head hw with rfl | ⟨u, ⟨start, values, htask, hu⟩, hrest⟩
      · cases htask : task v with
        | answer found =>
            rw [htask] at h
            exact Option.some.inj h
        | ask start values =>
            rw [htask] at h
            exact (collect_eq_some h).1
      · rw [htask] at h
        exact ih ((collect_eq_some h).2 u hu) w hrest

theorem collect_of_agree {find : α → Option (Option β)} {b : β} : ∀ {values : List α}
    {res : Option β}, (∀ v ∈ values, find v = none ∨ find v = some (some b)) →
      (res = some b ∨ res = none ∧ values ≠ []) →
      collect find values res = none ∨ collect find values res = some (some b) := by
  intro values
  induction values with
  | nil =>
      rintro res - (rfl | ⟨-, hne⟩)
      · exact .inr rfl
      · exact absurd rfl hne
  | cons v rest ih =>
      intro res hfind hres
      unfold collect
      rcases hfind v List.mem_cons_self with hnone | hsome
      · rw [hnone]
        exact .inl rfl
      · rw [hsome]
        have hsame : ¬ (res ≠ none ∧ res ≠ some b) := by
          rcases hres with rfl | ⟨rfl, -⟩
          · simp
          · simp
        simp only [Option.bind_eq_bind, Option.bind_some, if_neg hsame]
        exact ih (fun u hu => hfind u (List.mem_cons_of_mem _ hu)) (.inl rfl)

/-- Where everything gives one answer, there is no other result. -/
theorem Agrees.search {b : β} : ∀ (fuel : ℕ) {v : α}, Agrees task b v →
    search task fuel v = none ∨ search task fuel v = some (some b) := by
  intro fuel
  induction fuel with
  | zero => exact fun _ => .inl rfl
  | succ fuel ih =>
      intro v h
      have hself := h v .refl
      unfold Foundations.search
      cases htask : task v with
      | answer found =>
          rw [htask] at hself
          exact .inr (congrArg some hself)
      | ask start values =>
          rw [htask] at hself
          exact collect_of_agree (fun u hu => ih fun w hw => h w (.head ⟨start, values, htask, hu⟩ hw))
            hself

/-! ## Going round -/

/-- Once those before it have passed, a value that has no result leaves none. -/
theorem collect_eq_none {find : α → Option (Option β)} {w : α} (hw : find w = none) (after : List α) :
    ∀ {before : List α} {res : Option β},
      (before = [] ∨ ∃ b, (res = none ∨ res = some b) ∧
        ∀ u ∈ before, find u = none ∨ find u = some (some b)) →
      collect find (before ++ w :: after) res = none := by
  intro before
  induction before with
  | nil =>
      intro res _
      rw [List.nil_append, collect, hw]
      rfl
  | cons v rest ih =>
      intro res h
      obtain ⟨b, hres, hbefore⟩ := h.resolve_left (List.cons_ne_nil v rest)
      rw [List.cons_append, collect]
      rcases hbefore v List.mem_cons_self with hnone | hsome
      · rw [hnone]
        rfl
      · rw [hsome]
        have hsame : ¬ (res ≠ none ∧ res ≠ some b) := by
          rcases hres with rfl | rfl
          · simp
          · simp
        simp only [Option.bind_eq_bind, Option.bind_some, if_neg hsame]
        exact ih (.inr ⟨b, .inr rfl, fun u hu => hbefore u (List.mem_cons_of_mem _ hu)⟩)

/-- **On a cycle there is no result**, with any fuel. -/
theorem Circular.search : ∀ (fuel : ℕ) {v : α}, Circular task v → search task fuel v = none := by
  intro fuel
  induction fuel with
  | zero => exact fun _ => rfl
  | succ fuel ih =>
      rintro v ⟨w, hpath, hcycle⟩
      -- the path goes on, at the latest along the cycle
      obtain ⟨u, hstep, hrest⟩ : ∃ u, Enters task v u ∧ Relation.ReflTransGen (Enters task) u w := by
        rcases Relation.ReflTransGen.cases_head hpath with rfl | hpath
        · exact Relation.TransGen.head'_iff.mp hcycle
        · exact hpath
      obtain ⟨start, before, after, htask, hpassed⟩ := hstep
      rw [Foundations.search, htask]
      apply collect_eq_none (ih ⟨w, hrest, hcycle⟩)
      exact hpassed.imp_right fun ⟨b, hstart, hbefore⟩ =>
        ⟨b, hstart, fun u hu => (hbefore u hu).search fuel⟩

/-! ## Coming to an end -/

/-- The search for the value ends. -/
def Ends (task : α → Task α β) (v : α) : Prop := ∃ fuel r, search task fuel v = some r

/-- The rest of the values has a result if every value that is entered has one. -/
theorem collect_ends {start : Option β} {after : List α} : ∀ {before : List α} {res : Option β},
    (∀ before' w after', before ++ after = before' ++ w :: after' → Passed task start before' →
      Ends task w) →
    (before = [] ∧ res = start ∨
      ∃ b, res = some b ∧ (start = none ∨ start = some b) ∧ ∀ u ∈ before, Agrees task b u) →
    ∃ fuel r, collect (search task fuel) after res = some r := by
  induction after with
  | nil => exact fun {_ res} _ _ => ⟨0, res, rfl⟩
  | cons w rest ih =>
      intro before res hends hbefore
      have hpassed : Passed task start before :=
        hbefore.imp And.left fun ⟨b, _, hstart, hall⟩ => ⟨b, hstart, hall⟩
      obtain ⟨fuel, r, hfound⟩ := hends before w rest rfl hpassed
      cases r with
      | none => exact ⟨fuel, none, by rw [collect, hfound]; rfl⟩
      | some b =>
          -- a second result that differs ends the loop at once
          by_cases hother : res ≠ none ∧ res ≠ some b
          · exact ⟨fuel, none, by simp [collect, hfound, hother]⟩
          · have hres : res = none ∨ res = some b := by
              rwa [not_and_or, not_not, not_not] at hother
            obtain ⟨fuel', r', hrest⟩ := @ih (before ++ [w]) (some b)
              (fun before' u after' heq => hends before' u after' (by rw [← heq]; simp)) <| by
              -- all values so far agree on `b`
              refine .inr ⟨b, rfl, ?_, fun u hu => ?_⟩
              · rcases hbefore with ⟨-, rfl⟩ | ⟨c, rfl, hstart, -⟩
                · exact hres
                · rcases hres with hnone | hsame
                  · cases hnone
                  · exact Option.some.inj hsame ▸ hstart
              · rcases List.mem_append.mp hu with hu | hu
                · rcases hbefore with ⟨rfl, -⟩ | ⟨c, rfl, -, hall⟩
                  · cases hu
                  · rcases hres with hnone | hsame
                    · cases hnone
                    · exact Option.some.inj hsame ▸ hall u hu
                · exact List.mem_singleton.mp hu ▸ agrees_of_search hfound
            -- fuel for the first value and fuel for the rest
            refine ⟨max fuel fuel', r', ?_⟩
            have hfirst := search_mono (le_max_left fuel fuel') hfound
            have hlater := collect_mono (fun v r => search_mono (le_max_right fuel fuel'))
              rest (some b) r' hrest
            simp only [collect, hfirst, Option.bind_eq_bind, Option.bind_some, if_neg hother, hlater]

theorem ends_of_entered {v : α} (h : ∀ w, Enters task v w → Ends task w) : Ends task v := by
  cases htask : task v with
  | answer found => exact ⟨1, found, by rw [search, htask, Task.result]⟩
  | ask start values =>
      obtain ⟨fuel, r, hfound⟩ := @collect_ends α β _ task start values [] start
        (fun before w after heq hpassed => h w ⟨start, before, after, by rw [htask, ← heq]; rfl,
          hpassed⟩) (.inl ⟨rfl, rfl⟩)
      exact ⟨fuel + 1, r, by rw [search, htask]; exact hfound⟩

open Classical in
/-- What can be entered from a value. -/
noncomputable def enterable (task : α → Task α β) (ground : Finset α) (v : α) : Finset α :=
  ground.filter fun w => Relation.TransGen (Enters task) v w

omit [DecidableEq β] in
theorem mem_enterable {ground : Finset α} {v w : α} :
    w ∈ enterable task ground v ↔ w ∈ ground ∧ Relation.TransGen (Enters task) v w := by
  classical
  simp only [enterable, Finset.mem_filter]

omit [DecidableEq β] in
theorem Circular.of_enters {v w : α} (hstep : Enters task v w) (h : Circular task w) :
    Circular task v :=
  h.imp fun _ ⟨hpath, hcycle⟩ => ⟨hpath.head hstep, hcycle⟩

omit [DecidableEq β] in
/-- Off the cycles there is less and less to enter. -/
theorem enterable_card_lt {ground : Finset α} {v w : α} (hnone : ¬ Circular task v)
    (hstep : Enters task v w) (hw : w ∈ ground) :
    (enterable task ground w).card < (enterable task ground v).card := by
  apply Finset.card_lt_card
  refine ⟨fun u hu => ?_, fun hsub => ?_⟩
  · rw [mem_enterable] at hu ⊢
    exact ⟨hu.1, hu.2.head hstep⟩
  · have hagain := mem_enterable.mp (hsub (mem_enterable.mpr ⟨hw, .single hstep⟩))
    exact hnone ⟨w, .single hstep, hagain.2⟩

theorem ends_of_not_circular {ground : Finset α}
    (hground : ∀ v start values, task v = .ask start values → v ∈ ground) (v : α)
    (hnone : ¬ Circular task v) : Ends task v := by
  induction hcard : (enterable task ground v).card using Nat.strong_induction_on generalizing v with
  | _ n ih =>
      apply ends_of_entered
      intro w hstep
      cases htask : task w with
      | answer found => exact ⟨1, found, by rw [search, htask, Task.result]⟩
      | ask start values =>
          have hless := enterable_card_lt hnone hstep (hground w start values htask)
          exact ih _ (hcard ▸ hless) w (fun h => hnone (h.of_enters hstep)) rfl

/-- **When the search ends.**  Finitely many values ask others. -/
theorem search_ends_iff {ground : Finset α}
    (hground : ∀ v start values, task v = .ask start values → v ∈ ground) (v : α) :
    Ends task v ↔ ¬ Circular task v := by
  constructor
  · rintro ⟨fuel, r, hfound⟩ hcircular
    rw [hcircular.search fuel] at hfound
    cases hfound
  · exact ends_of_not_circular hground v

end Bitype.Foundations
