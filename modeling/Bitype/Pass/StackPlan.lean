import Bitype.Pass.Function
import Bitype.Pass.StackObject

/-!
# Where the sequences of an alloca go

The update of an alloca goes in front of the first `lifetime.start` that names it, or
behind it if there is none.  The removal goes in front of the first `lifetime.end`, or in
front of every return that the alloca dominates; if one of these returns gives the alloca
back there is none.

`UpdatePoint` and `RemovalPoint` say so of the function alone.  The maps of the pass hold
the first markers (`lifeTimeMaps_spec`), so what it inserts is at these points
(`insertedMarks_eq`).
-/

namespace Bitype.Pass

open Bitype.Foundations Bitype.Runtime
open Bitype.Tool (Name)

/-! ## What the pass collects -/

/-- The first instruction of each alloca. -/
abbrev AllocaMap := Std.TreeMap ℕ ℕ

/-- The maps `collectLifeTimeInfo` fills. -/
structure LifeTimeMaps where
  lifeTimeStartMap : AllocaMap
  lifeTimeEndMap : AllocaMap

namespace Function

variable (F : Function)

/-- The loop of `findAllocaForValue` over the incoming values of a phi.  The outer option
is for a recursion that does not end. -/
def findIncoming (find : Value → Option (Option ℕ)) (phi : ℕ) :
    List Value → Option ℕ → Option (Option ℕ)
  | [], res => some res
  | incValue :: rest, res =>
      if incValue = .inst phi then findIncoming find phi rest res
      else do
        match ← find incValue with
        | none => some none
        | some incValueAI =>
            if res ≠ none ∧ res ≠ some incValueAI then some none
            else findIncoming find phi rest (some incValueAI)

/-- `findAllocaForValue`. -/
def findAllocaForValue : ℕ → Value → Option (Option ℕ)
  | 0, _ => none
  | fuel + 1, .inst i =>
      match F.insts[i]? with
      | some (.alloca ..) => some (some i)
      | some (.bitCast value) | some (.ptrToInt value) | some (.cast value) =>
          findAllocaForValue fuel value
      | some (.phi incoming) => findIncoming (findAllocaForValue fuel) i incoming none
      | _ => some none
  | _ + 1, _ => some none

/-- `collectLifeTimeInfo`. -/
def collectLifeTimeInfo (fuel : ℕ) (maps : LifeTimeMaps) (i : ℕ) : Option LifeTimeMaps :=
  match F.insts[i]? with
  | some (.lifetimeStart isMinusOne pointer) =>
      if isMinusOne = true then some maps
      else do
        match ← F.findAllocaForValue fuel pointer with
        | none => some maps
        | some AI => some { maps with lifeTimeStartMap := maps.lifeTimeStartMap.insertIfNew AI i }
  | some (.lifetimeEnd isMinusOne pointer) =>
      if isMinusOne = true then some maps
      else do
        match ← F.findAllocaForValue fuel pointer with
        | none => some maps
        | some AI => some { maps with lifeTimeEndMap := maps.lifeTimeEndMap.insertIfNew AI i }
  | _ => some maps

/-- The maps for a function. -/
def lifeTimeMaps (fuel : ℕ) : Option LifeTimeMaps :=
  F.positions.foldlM (F.collectLifeTimeInfo fuel) ⟨∅, ∅⟩

/-- The allocas `collectAllocaInstInfo` collects; `isSafe` stands for `isSafeStackAlloca`
with its option on. -/
def allAllocaSet (T : TypeTable) (isSafe : ℕ → Bool) : List ℕ :=
  F.positions.filter fun i =>
    match F.insts[i]? with
    | some (.alloca type ..) => T.isInterestingType type && !isSafe i
    | _ => false

/-- `returnAI`: a return that the alloca dominates gives it back. -/
def returnAI (a : ℕ) : Bool :=
  F.findReturnInst.any fun i =>
    F.dominates a i &&
      match F.insts[i]? with
      | some (.ret (some value)) => value = .inst a
      | _ => false

end Function

/-! ## What the pass inserts -/

/-- An inserted sequence: an update or a removal of the newest object of an alloca. -/
inductive Insert
  | update (a : ℕ)
  | remove (a : ℕ)
deriving DecidableEq

/-- A function and how the pass has gone over it.  The sets of allocas are sorted by
address, so their order is arbitrary. -/
structure Instrumented where
  M : Module
  files : ClassFiles
  inlineOpt : Bool
  place : Name → Word
  F : Function
  isSafe : ℕ → Bool
  order : List ℕ
  perm : order.Perm (F.allAllocaSet M.toTypeTable isSafe)
  fuel : ℕ
  maps : LifeTimeMaps
  collected : F.lifeTimeMaps fuel = some maps

namespace Instrumented

variable (I : Instrumented)

/-- The instructions `handleAllocaDelete` inserts a removal in front of. -/
def removeSites (a : ℕ) : List ℕ :=
  if I.F.returnAI a = true then []
  else
    match I.maps.lifeTimeEndMap[a]? with
    | some i => [i]
    | none => I.F.findReturnInst.filter fun i => I.F.dominates a i

/-- What stands in front of an instruction in the end.  An update behind an alloca is
inserted in front of the next instruction, and ahead of what has been inserted there. -/
def inserted (i : ℕ) : List Insert :=
  (I.order.filter fun a => I.maps.lifeTimeStartMap[a]? = none ∧ a + 1 = i).map .update ++
    (I.order.filter fun a => I.maps.lifeTimeStartMap[a]? = some i).map .update ++
    (I.order.filter fun a => i ∈ I.removeSites a).map .remove

end Instrumented

/-! ## The points of an alloca -/

/-- The first position at which `P` holds. -/
def Earliest (P : ℕ → Prop) (i : ℕ) : Prop := P i ∧ ∀ j < i, ¬ P j

section Points

variable (F : Function) (a : ℕ)

/-- A pointer that `findAllocaForValue` takes back to the alloca. -/
def Names (pointer : Value) : Prop := ∃ fuel, F.findAllocaForValue fuel pointer = some (some a)

/-- A `lifetime.start` that names the alloca and says a size. -/
def SizedStart (i : ℕ) : Prop :=
  ∃ pointer, F.insts[i]? = some (.lifetimeStart false pointer) ∧ Names F a pointer

/-- A `lifetime.end` that names the alloca and says a size. -/
def SizedEnd (i : ℕ) : Prop :=
  ∃ pointer, F.insts[i]? = some (.lifetimeEnd false pointer) ∧ Names F a pointer

/-- A return that the alloca dominates gives it back. -/
def GivenBack : Prop :=
  ∃ i, Dominates F.successors 0 a i ∧ F.insts[i]? = some (.ret (some (.inst a)))

/-- The update of the alloca is in front of this instruction. -/
def UpdatePoint (i : ℕ) : Prop :=
  Earliest (SizedStart F a) i ∨ (∀ j, ¬ SizedStart F a j) ∧ i = a + 1

/-- A removal of the alloca is in front of this instruction. -/
def RemovalPoint (i : ℕ) : Prop :=
  ¬ GivenBack F a ∧ (Earliest (SizedEnd F a) i ∨
    (∀ j, ¬ SizedEnd F a j) ∧ (∃ value, F.insts[i]? = some (.ret value)) ∧
      Dominates F.successors 0 a i)

end Points

/-- Change what is marked of the newest object. -/
def setNewest (mark : Bool) : List Bool → List Bool
  | [] => []
  | _ :: rest => mark :: rest

open Classical in
/-- For each object of an alloca, the newest first, whether the last of the alloca's points
that the path has passed since is that of its update. -/
noncomputable def marks (F : Function) (a : ℕ) : List ℕ → List Bool
  | [] => []
  | i :: rest =>
      let older := if rest.head? = some a then false :: marks F a rest else marks F a rest
      let updated := if UpdatePoint F a i then setNewest true older else older
      if RemovalPoint F a i then setNewest false updated else updated

/-- What an inserted sequence does to the marks of an alloca. -/
def Insert.mark (a : ℕ) (marks : List Bool) : Insert → List Bool
  | .update b => if b = a then setNewest true marks else marks
  | .remove b => if b = a then setNewest false marks else marks

/-- The marks by what has been inserted. -/
def insertedMarks (inserted : ℕ → List Insert) (a : ℕ) : List ℕ → List Bool
  | [] => []
  | i :: rest =>
      (inserted i).foldl (Insert.mark a)
        (if rest.head? = some a then false :: insertedMarks inserted a rest
        else insertedMarks inserted a rest)

/-! ## What the maps hold -/

section Maps

variable {F : Function} {a : ℕ}

theorem findIncoming_mono {find find' : Value → Option (Option ℕ)} {phi : ℕ}
    (hfind : ∀ v r, find v = some r → find' v = some r) :
    ∀ (incoming : List Value) (res r : Option ℕ),
      Function.findIncoming find phi incoming res = some r →
        Function.findIncoming find' phi incoming res = some r := by
  intro incoming
  induction incoming with
  | nil => exact fun _ _ h => h
  | cons incValue rest ih =>
      intro res r h
      unfold Function.findIncoming at h ⊢
      split at h
      · next hself =>
          rw [if_pos hself]
          exact ih res r h
      · next hself =>
          rw [if_neg hself]
          obtain ⟨found, hfound, hnext⟩ := Option.bind_eq_some_iff.mp h
          rw [hfind incValue found hfound]
          cases found with
          | none => exact hnext
          | some incValueAI =>
              simp only [Option.bind_eq_bind, Option.bind_some] at hnext ⊢
              split at hnext
              · next hother => rw [if_pos hother, hnext]
              · next hsame =>
                  rw [if_neg hsame]
                  exact ih _ r hnext

theorem findAllocaForValue_succ :
    ∀ (fuel : ℕ) (v : Value) (r : Option ℕ), F.findAllocaForValue fuel v = some r →
      F.findAllocaForValue (fuel + 1) v = some r := by
  intro fuel
  induction fuel with
  | zero => exact fun _ _ h => nomatch h
  | succ fuel ih =>
      intro v r h
      cases v with
      | inst i =>
          unfold Function.findAllocaForValue at h ⊢
          split
          · next hinst =>
              rw [hinst] at h
              exact h
          · next value hinst =>
              rw [hinst] at h
              exact ih value r h
          · next value hinst =>
              rw [hinst] at h
              exact ih value r h
          · next value hinst =>
              rw [hinst] at h
              exact ih value r h
          · next incoming hinst =>
              rw [hinst] at h
              exact findIncoming_mono ih incoming none r h
          -- no other instruction is looked through, with any fuel
          · next halloca hbitcast hint hcast hphi =>
              split at h
              · next hinst => exact absurd hinst (halloca _ _ _)
              · next hinst => exact absurd hinst (hbitcast _)
              · next hinst => exact absurd hinst (hint _)
              · next hinst => exact absurd hinst (hcast _)
              · next hinst => exact absurd hinst (hphi _)
              · exact h
      | global i => exact h
      | other i => exact h

/-- A result does not depend on the fuel. -/
theorem names_iff {fuel : ℕ} {pointer : Value} {r : Option ℕ}
    (h : F.findAllocaForValue fuel pointer = some r) : Names F a pointer ↔ r = some a := by
  have hmono : ∀ k fuel r, F.findAllocaForValue fuel pointer = some r →
      F.findAllocaForValue (fuel + k) pointer = some r := by
    intro k
    induction k with
    | zero => exact fun _ _ h => h
    | succ k ih => exact fun fuel r h => findAllocaForValue_succ _ _ _ (ih fuel r h)
  constructor
  · rintro ⟨fuel', h'⟩
    have hsame := hmono fuel' fuel r h
    rw [Nat.add_comm, hmono fuel fuel' (some a) h'] at hsame
    exact (Option.some.inj hsame).symm
  · rintro rfl
    exact ⟨fuel, h⟩

theorem exists_earliest {P : ℕ → Prop} {j : ℕ} (hj : P j) : ∃ i ≤ j, Earliest P i := by
  classical
  exact ⟨Nat.find ⟨j, hj⟩, Nat.find_min' _ hj, Nat.find_spec ⟨j, hj⟩, fun m hm => Nat.find_min _ hm⟩

/-- A map that keeps the first position, up to the next one. -/
theorem earliest_step {P : ℕ → Prop} {o o' : Option ℕ} {k : ℕ}
    (h : ∀ i, o = some i ↔ Earliest P i ∧ i < k)
    (hstep : ∀ i, o' = some i ↔ o = some i ∨ o = none ∧ P k ∧ i = k) (i : ℕ) :
    o' = some i ↔ Earliest P i ∧ i < k + 1 := by
  have hnone : o = none ↔ ∀ j < k, ¬ P j := by
    constructor
    · intro ho j hj hPj
      obtain ⟨m, hm, hfirst⟩ := exists_earliest hPj
      have hfound := (h m).mpr ⟨hfirst, hm.trans_lt hj⟩
      rw [ho] at hfound
      cases hfound
    · intro hnever
      cases hfound : o with
      | none => rfl
      | some m =>
          obtain ⟨⟨hm, -⟩, hlt⟩ := (h m).mp hfound
          exact absurd hm (hnever m hlt)
  rw [hstep, h, hnone]
  constructor
  · rintro (⟨hfirst, hlt⟩ | ⟨hnever, hP, rfl⟩)
    · exact ⟨hfirst, Nat.lt_succ_of_lt hlt⟩
    · exact ⟨⟨hP, hnever⟩, Nat.lt_succ_self i⟩
  · rintro ⟨hfirst, hlt⟩
    rcases Nat.lt_succ_iff_lt_or_eq.mp hlt with hlt | rfl
    · exact .inl ⟨hfirst, hlt⟩
    · exact .inr ⟨hfirst.2, hfirst.1, rfl⟩

/-- A map that has an entry for no more than one key keeps what it had. -/
theorem getElem?_insertIfNew_iff {map : AllocaMap} {b k i : ℕ} :
    (map.insertIfNew b k)[a]? = some i ↔ map[a]? = some i ∨ map[a]? = none ∧ b = a ∧ i = k := by
  simp only [Std.TreeMap.getElem?_insertIfNew, compare_eq_iff_eq]
  split
  · next hnew =>
      obtain ⟨rfl, hnone⟩ := hnew
      rw [Std.TreeMap.getElem?_eq_none hnone, Option.some.injEq]
      simp [eq_comm]
  · next hold =>
      constructor
      · exact .inl
      · rintro (h | ⟨hnone, rfl, -⟩)
        · exact h
        · exact absurd ⟨rfl, fun hmem => by simp [Std.TreeMap.mem_iff_isSome_getElem?, hnone] at hmem⟩ hold

/-- A marker of a size enters the alloca its pointer names; any other leaves the maps. -/
theorem marker_cases {fuel : ℕ} {maps maps' : LifeTimeMaps} {isMinusOne : Bool} {pointer : Value}
    {next : Option ℕ → Option LifeTimeMaps} {update : ℕ → LifeTimeMaps}
    (hnone : next none = some maps) (hsome : ∀ AI, next (some AI) = some (update AI))
    (h : (if isMinusOne = true then some maps
      else (F.findAllocaForValue fuel pointer).bind next) = some maps') :
    (maps' = maps ∧ ¬ (isMinusOne = false ∧ Names F a pointer)) ∨
      ∃ AI, isMinusOne = false ∧ (Names F a pointer ↔ AI = a) ∧ maps' = update AI := by
  split at h
  · next hminus =>
      obtain rfl := Option.some.inj h
      exact .inl ⟨rfl, fun hsized => by simp [hminus] at hsized⟩
  · next hsize =>
      obtain ⟨found, hfound, hnext⟩ := Option.bind_eq_some_iff.mp h
      have hnames := names_iff (a := a) hfound
      cases found with
      | none =>
          obtain rfl := Option.some.inj (hnone.symm.trans hnext)
          exact .inl ⟨rfl, fun hsized => by simpa using hnames.mp hsized.2⟩
      | some AI =>
          obtain rfl := Option.some.inj ((hsome AI).symm.trans hnext)
          refine .inr ⟨AI, Bool.eq_false_of_not_eq_true hsize, ?_, rfl⟩
          rw [hnames, Option.some.injEq]

/-- **One instruction** may be the first marker of one alloca. -/
theorem collectLifeTimeInfo_spec {fuel k : ℕ} {maps maps' : LifeTimeMaps}
    (h : F.collectLifeTimeInfo fuel maps k = some maps') (i : ℕ) :
    (maps'.lifeTimeStartMap[a]? = some i ↔ maps.lifeTimeStartMap[a]? = some i ∨
      maps.lifeTimeStartMap[a]? = none ∧ SizedStart F a k ∧ i = k) ∧
    (maps'.lifeTimeEndMap[a]? = some i ↔ maps.lifeTimeEndMap[a]? = some i ∨
      maps.lifeTimeEndMap[a]? = none ∧ SizedEnd F a k ∧ i = k) := by
  unfold Function.collectLifeTimeInfo at h
  split at h
  -- a start marker touches its own map only
  · next isMinusOne pointer hinst =>
      have hend : ¬ SizedEnd F a k := by
        rintro ⟨pointer', hinst', -⟩
        cases hinst.symm.trans hinst'
      have hstart : SizedStart F a k ↔ isMinusOne = false ∧ Names F a pointer := by
        unfold SizedStart
        rw [hinst]
        simp
      simp only [hend, false_and, and_false, or_false]
      rw [hstart]
      obtain ⟨rfl, hnot⟩ | ⟨AI, hsize, hnames, rfl⟩ :=
        marker_cases (a := a) rfl (fun _ => rfl) h
      · simp [hnot]
      · simp [getElem?_insertIfNew_iff, hsize, hnames]
  -- an end marker touches its own map only
  · next isMinusOne pointer hinst =>
      have hstart : ¬ SizedStart F a k := by
        rintro ⟨pointer', hinst', -⟩
        cases hinst.symm.trans hinst'
      have hend : SizedEnd F a k ↔ isMinusOne = false ∧ Names F a pointer := by
        unfold SizedEnd
        rw [hinst]
        simp
      simp only [hstart, false_and, and_false, or_false]
      rw [hend]
      obtain ⟨rfl, hnot⟩ | ⟨AI, hsize, hnames, rfl⟩ :=
        marker_cases (a := a) rfl (fun _ => rfl) h
      · simp [hnot]
      · simp [getElem?_insertIfNew_iff, hsize, hnames]
  · next hnostart hnoend =>
      obtain rfl := Option.some.inj h
      have hstart : ¬ SizedStart F a k := fun ⟨pointer, hinst, _⟩ => hnostart _ _ hinst
      have hend : ¬ SizedEnd F a k := fun ⟨pointer, hinst, _⟩ => hnoend _ _ hinst
      simp [hstart, hend]

/-- **The maps** hold the first markers. -/
theorem lifeTimeMaps_spec {fuel : ℕ} {maps : LifeTimeMaps} (h : F.lifeTimeMaps fuel = some maps)
    (i : ℕ) :
    (maps.lifeTimeStartMap[a]? = some i ↔ Earliest (SizedStart F a) i) ∧
      (maps.lifeTimeEndMap[a]? = some i ↔ Earliest (SizedEnd F a) i) := by
  -- after the first `k` instructions the maps hold the first markers among these
  have hprefix : ∀ (k : ℕ) (maps : LifeTimeMaps),
      (List.range k).foldlM (F.collectLifeTimeInfo fuel) ⟨∅, ∅⟩ = some maps → ∀ i,
      (maps.lifeTimeStartMap[a]? = some i ↔ Earliest (SizedStart F a) i ∧ i < k) ∧
        (maps.lifeTimeEndMap[a]? = some i ↔ Earliest (SizedEnd F a) i ∧ i < k) := by
    intro k
    induction k with
    | zero =>
        intro maps h i
        obtain rfl := Option.some.inj h
        simp
    | succ k ih =>
        intro maps h
        rw [List.range_succ, List.foldlM_append] at h
        obtain ⟨maps₁, hmaps₁, hlast⟩ := Option.bind_eq_some_iff.mp h
        have hstep : F.collectLifeTimeInfo fuel maps₁ k = some maps := by
          rw [List.foldlM_cons] at hlast
          simpa using hlast
        have hspec := fun i => collectLifeTimeInfo_spec (a := a) hstep i
        have hfirst := ih maps₁ hmaps₁
        exact fun i => ⟨earliest_step (fun i => (hfirst i).1) (fun i => (hspec i).1) i,
          earliest_step (fun i => (hfirst i).2) (fun i => (hspec i).2) i⟩
  obtain ⟨hstart, hend⟩ := hprefix _ maps h i
  have hlt : ∀ {inst : Inst}, F.insts[i]? = some inst → i < F.insts.length :=
    fun hinst => (List.getElem?_eq_some_iff.mp hinst).1
  rw [hstart, hend]
  refine ⟨and_iff_left_of_imp ?_, and_iff_left_of_imp ?_⟩
  · rintro ⟨⟨_, hinst, _⟩, -⟩
    exact hlt hinst
  · rintro ⟨⟨_, hinst, _⟩, -⟩
    exact hlt hinst

theorem returnAI_iff : F.returnAI a = true ↔ GivenBack F a := by
  unfold Function.returnAI
  rw [List.any_eq_true]
  constructor
  · rintro ⟨i, -, h⟩
    rw [Bool.and_eq_true, F.dominates_iff] at h
    obtain ⟨hdominates, hgiven⟩ := h
    split at hgiven
    · next value hinst =>
        obtain rfl := of_decide_eq_true hgiven
        exact ⟨i, hdominates, hinst⟩
    · cases hgiven
  · rintro ⟨i, hdominates, hinst⟩
    refine ⟨i, F.mem_findReturnInst.mpr ⟨_, hinst⟩, ?_⟩
    rw [Bool.and_eq_true, F.dominates_iff, hinst]
    exact ⟨hdominates, decide_eq_true rfl⟩

end Maps

/-! ## Where the pass inserts -/

section Inserted

variable {I : Instrumented} {a : ℕ}

theorem getElem?_eq_none_iff {map : AllocaMap} {P : ℕ → Prop}
    (h : ∀ i, map[a]? = some i ↔ Earliest P i) : map[a]? = none ↔ ∀ j, ¬ P j := by
  constructor
  · intro hnone j hj
    obtain ⟨i, -, hfirst⟩ := exists_earliest hj
    rw [← h, hnone] at hfirst
    cases hfirst
  · intro hnever
    cases hfound : map[a]? with
    | none => rfl
    | some i => exact absurd ((h i).mp hfound).1 (hnever i)

theorem updatePoint_iff {i : ℕ} :
    I.maps.lifeTimeStartMap[a]? = none ∧ a + 1 = i ∨ I.maps.lifeTimeStartMap[a]? = some i ↔
      UpdatePoint I.F a i := by
  have hspec := fun i => (lifeTimeMaps_spec (a := a) I.collected i).1
  unfold UpdatePoint
  rw [hspec, getElem?_eq_none_iff hspec, or_comm, @eq_comm _ (a + 1)]

theorem removalPoint_iff {i : ℕ} : i ∈ I.removeSites a ↔ RemovalPoint I.F a i := by
  have hspec := fun i => (lifeTimeMaps_spec (a := a) I.collected i).2
  unfold Instrumented.removeSites RemovalPoint
  rw [← returnAI_iff]
  split
  · next hgiven => simp [hgiven]
  · next hgiven =>
      rw [and_iff_right hgiven, ← hspec, ← getElem?_eq_none_iff hspec]
      cases hend : I.maps.lifeTimeEndMap[a]? with
      | some first => simp [eq_comm]
      | none =>
          simp only [reduceCtorEq, false_or, true_and]
          rw [List.mem_filter, I.F.mem_findReturnInst, I.F.dominates_iff]

theorem setNewest_setNewest (mark mark' : Bool) (marks : List Bool) :
    setNewest mark (setNewest mark' marks) = setNewest mark marks := by
  cases marks with
  | nil => rfl
  | cons _ rest => rfl

/-- Two chances of one change. -/
theorem ite_setNewest {P Q : Prop} [Decidable P] [Decidable Q] [Decidable (P ∨ Q)] (mark : Bool)
    (marks : List Bool) :
    (if Q then setNewest mark (if P then setNewest mark marks else marks)
      else if P then setNewest mark marks else marks) =
      if P ∨ Q then setNewest mark marks else marks := by
  by_cases hP : P
  · simp only [if_pos hP, setNewest_setNewest, ite_self, if_pos (Or.inl hP : P ∨ Q)]
  · simp only [hP, if_false, false_or]

/-- Sequences of one kind, for several allocas. -/
theorem foldl_map_mark {insert : ℕ → Insert} {mark : Bool}
    (hmark : ∀ b marks, (insert b).mark a marks = if b = a then setNewest mark marks else marks)
    (as : List ℕ) (marks : List Bool) :
    (as.map insert).foldl (Insert.mark a) marks =
      if a ∈ as then setNewest mark marks else marks := by
  induction as generalizing marks with
  | nil => rfl
  | cons b rest ih =>
      rw [List.map_cons, List.foldl_cons, ih, hmark]
      simp only [List.mem_cons]
      by_cases hb : b = a
      · subst hb
        simp only [if_true, true_or, setNewest_setNewest, ite_self]
      · simp only [if_neg hb, Ne.symm hb, false_or]

/-- **The sequences stand at the points of their alloca.** -/
theorem insertedMarks_eq (ha : a ∈ I.order) (path : List ℕ) :
    insertedMarks I.inserted a path = marks I.F a path := by
  classical
  induction path with
  | nil => rfl
  | cons i rest ih =>
      rw [insertedMarks, marks, ih]
      generalize (if rest.head? = some a then false :: marks I.F a rest else marks I.F a rest) = older
      have hupdates := @foldl_map_mark a .update true fun _ _ => rfl
      have hremovals := @foldl_map_mark a .remove false fun _ _ => rfl
      rw [Instrumented.inserted, List.foldl_append, List.foldl_append, hupdates, hupdates, hremovals]
      simp only [List.mem_filter, decide_eq_true_eq, ha, true_and, removalPoint_iff]
      simp only [← updatePoint_iff, ite_setNewest]

end Inserted

end Bitype.Pass
