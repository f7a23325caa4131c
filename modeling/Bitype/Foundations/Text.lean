import Std.Data.TreeMap
import Std.Data.TreeMap.Lemmas
import Mathlib.Data.List.Basic
import Mathlib.Order.Basic
import Mathlib.Data.Nat.Find

/-!
# Separated text

Reading text by cutting it at a separator: `splitFirst` cuts once, `pieces` until
nothing is left, the way a loop over `getline` does.  What was written with a separator
after every piece is read back (`pieces_flatMap`).

A map filled from a list of pairs with `insertIfNew` keeps for every key the first pair
(`getElem?_firstWins`); `FirstAt` says which position that is.
-/

namespace Bitype.Foundations

/-! ## Cutting -/

section Split

variable {α : Type*} [DecidableEq α]

/-- What stands before and after the first separator. -/
def splitFirst (sep : α) : List α → List α × List α
  | [] => ([], [])
  | c :: rest =>
      if c = sep then ([], rest)
      else (c :: (splitFirst sep rest).1, (splitFirst sep rest).2)

theorem splitFirst_append {sep : α} {first : List α} (h : sep ∉ first) (rest : List α) :
    splitFirst sep (first ++ sep :: rest) = (first, rest) := by
  induction first with
  | nil => simp [splitFirst]
  | cons c first ih =>
      rw [List.mem_cons, not_or] at h
      have hne : ¬ c = sep := fun heq => h.1 heq.symm
      rw [List.cons_append, splitFirst, if_neg hne, ih h.2]

theorem splitFirst_of_notMem {sep : α} {text : List α} (h : sep ∉ text) :
    splitFirst sep text = (text, []) := by
  induction text with
  | nil => rfl
  | cons c text ih =>
      rw [List.mem_cons, not_or] at h
      have hne : ¬ c = sep := fun heq => h.1 heq.symm
      rw [splitFirst, if_neg hne, ih h.2]

theorem notMem_splitFirst (sep : α) (text : List α) : sep ∉ (splitFirst sep text).1 := by
  induction text with
  | nil => exact List.not_mem_nil
  | cons c text ih =>
      rw [splitFirst]
      split
      · exact List.not_mem_nil
      · next hne =>
          rw [List.mem_cons, not_or]
          exact ⟨fun heq => hne heq.symm, ih⟩

/-- What stands before the separator is part of the text. -/
theorem splitFirst_subset (sep : α) (text : List α) : (splitFirst sep text).1 ⊆ text := by
  induction text with
  | nil => exact List.Subset.refl []
  | cons c text ih =>
      rw [splitFirst]
      split
      · exact List.nil_subset _
      · exact List.cons_subset_cons c ih

theorem length_splitFirst_le (sep : α) (text : List α) :
    (splitFirst sep text).2.length ≤ text.length := by
  induction text with
  | nil => exact le_refl _
  | cons c text ih =>
      rw [splitFirst]
      split
      · exact Nat.le_succ _
      · exact ih.trans (Nat.le_succ _)

theorem length_splitFirst_lt (sep : α) {text : List α} (h : text ≠ []) :
    (splitFirst sep text).2.length < text.length := by
  cases text with
  | nil => exact absurd rfl h
  | cons c text =>
      rw [splitFirst]
      split
      · exact Nat.lt_succ_self _
      · exact Nat.lt_succ_of_le (length_splitFirst_le sep text)

/-- Cut until nothing is left: a last piece without a separator counts, an empty one does
not. -/
def pieces (sep : α) (text : List α) : List (List α) :=
  if _ : text = [] then []
  else (splitFirst sep text).1 :: pieces sep (splitFirst sep text).2
termination_by text.length
decreasing_by exact length_splitFirst_lt sep ‹_›

theorem pieces_append {sep : α} {first : List α} (h : sep ∉ first) (rest : List α) :
    pieces sep (first ++ sep :: rest) = first :: pieces sep rest := by
  have hne : first ++ sep :: rest ≠ [] := by simp
  rw [pieces, dif_neg hne, splitFirst_append h]

/-- No piece has a separator. -/
theorem notMem_of_mem_pieces {sep : α} {text piece : List α} (h : piece ∈ pieces sep text) :
    sep ∉ piece := by
  induction text using pieces.induct sep with
  | case1 =>
      rw [pieces, dif_pos rfl] at h
      cases h
  | case2 text hne ih =>
      rw [pieces, dif_neg hne, List.mem_cons] at h
      rcases h with rfl | hrest
      · exact notMem_splitFirst sep text
      · exact ih hrest

/-- **Pieces written one after the other are read back.** -/
theorem pieces_flatMap {sep : α} (l : List (List α)) (h : ∀ piece ∈ l, sep ∉ piece) :
    pieces sep (l.flatMap fun piece => piece ++ [sep]) = l := by
  induction l with
  | nil =>
      rw [pieces]
      exact dif_pos rfl
  | cons piece rest ih =>
      have hrest := ih fun p hp => h p (List.mem_cons_of_mem _ hp)
      rw [List.flatMap_cons, List.append_assoc, List.singleton_append,
        pieces_append (h piece List.mem_cons_self), hrest]

end Split

/-! ## The first pair of a key -/

section FirstAt

variable {κ : Type*}

/-- A list of keys has the key at position `p` and nowhere before. -/
def FirstAt (keys : List κ) (key : κ) (p : ℕ) : Prop :=
  keys[p]? = some key ∧ ∀ j < p, keys[j]? ≠ some key

theorem FirstAt.unique {keys : List κ} {key : κ} {p q : ℕ} (hp : FirstAt keys key p)
    (hq : FirstAt keys key q) : p = q := by
  rcases lt_trichotomy p q with hlt | heq | hlt
  · exact absurd hp.1 (hq.2 p hlt)
  · exact heq
  · exact absurd hq.1 (hp.2 q hlt)

theorem FirstAt.lt {keys : List κ} {key : κ} {p : ℕ} (h : FirstAt keys key p) :
    p < keys.length :=
  (List.getElem?_eq_some_iff.mp h.1).1

theorem exists_firstAt [DecidableEq κ] {keys : List κ} {key : κ} (h : key ∈ keys) : ∃ p, FirstAt keys key p := by
  have hex : ∃ p, keys[p]? = some key := List.mem_iff_getElem?.mp h
  exact ⟨Nat.find hex, Nat.find_spec hex, fun j hj => Nat.find_min hex hj⟩

/-- Where no key repeats, every position is the first of its key. -/
theorem firstAt_of_nodup {keys : List κ} (hnodup : keys.Nodup) {key : κ} {p : ℕ} :
    FirstAt keys key p ↔ keys[p]? = some key := by
  refine ⟨fun h => h.1, fun hkey => ⟨hkey, fun j hj hsame => ?_⟩⟩
  have hlt := (List.getElem?_eq_some_iff.mp hsame).1
  exact absurd ((List.getElem?_inj hlt hnodup).mp (hsame.trans hkey.symm)) hj.ne

end FirstAt

section FirstWins

variable {κ β : Type*} [Ord κ] [Std.TransOrd κ] [Std.LawfulEqOrd κ] [DecidableEq κ]

/-- Every key with the value of its first pair. -/
def firstWins (pairs : List (κ × β)) : Std.TreeMap κ β :=
  pairs.foldl (fun map pair => map.insertIfNew pair.1 pair.2) ∅

theorem foldl_insertIfNew (pairs : List (κ × β)) (map : Std.TreeMap κ β) (key : κ) :
    (pairs.foldl (fun map pair => map.insertIfNew pair.1 pair.2) map)[key]? =
      (map[key]?).or ((pairs.find? fun pair => pair.1 = key).map Prod.snd) := by
  induction pairs generalizing map with
  | nil => simp
  | cons pair rest ih =>
      rw [List.foldl_cons, ih, Std.TreeMap.getElem?_insertIfNew]
      by_cases hkey : pair.1 = key
      · rw [List.find?_cons_of_pos (by simpa using hkey)]
        cases hmap : map[key]? with
        | none =>
            have hnew : pair.1 ∉ map := by
              rw [hkey, ← Std.TreeMap.isSome_getElem?_iff_mem, hmap]
              exact Bool.false_ne_true
            rw [if_pos ⟨Std.LawfulEqCmp.compare_eq_iff_eq.mpr hkey, hnew⟩]
            rfl
        | some value =>
            have hold : pair.1 ∈ map := by
              rw [hkey, ← Std.TreeMap.isSome_getElem?_iff_mem, hmap]
              rfl
            rw [if_neg fun h => h.2 hold]
            rfl
      · rw [List.find?_cons_of_neg (by simpa using hkey), if_neg]
        exact fun h => hkey (Std.LawfulEqCmp.compare_eq_iff_eq.mp h.1)

/-- **What a key is mapped to.** -/
theorem getElem?_firstWins {pairs : List (κ × β)} {key : κ} {value : β} :
    (firstWins pairs)[key]? = some value ↔
      ∃ p, FirstAt (pairs.map Prod.fst) key p ∧ (pairs.map Prod.snd)[p]? = some value := by
  have hempty : (∅ : Std.TreeMap κ β)[key]? = none := Std.TreeMap.getElem?_emptyc
  rw [firstWins, foldl_insertIfNew, hempty, Option.none_or, Option.map_eq_some_iff]
  constructor
  · rintro ⟨pair, hfind, rfl⟩
    obtain ⟨hkey, p, hp, rfl, hbefore⟩ := List.find?_eq_some_iff_getElem.mp hfind
    have hkey : pairs[p].1 = key := by simpa using hkey
    refine ⟨p, ⟨?_, fun j hj => ?_⟩, ?_⟩
    · rw [List.getElem?_map, List.getElem?_eq_getElem hp, Option.map_some, hkey]
    · have hother : pairs[j].1 ≠ key := by simpa using hbefore j hj
      rw [List.getElem?_map, List.getElem?_eq_getElem (hj.trans hp), Option.map_some]
      exact fun h => hother (Option.some.inj h)
    · rw [List.getElem?_map, List.getElem?_eq_getElem hp, Option.map_some]
  · rintro ⟨p, ⟨hkey, hbefore⟩, hvalue⟩
    rw [List.getElem?_map] at hkey hvalue
    obtain ⟨pair, hpair, rfl⟩ := Option.map_eq_some_iff.mp hvalue
    obtain ⟨hp, rfl⟩ := List.getElem?_eq_some_iff.mp hpair
    rw [hpair, Option.map_some, Option.some.injEq] at hkey
    refine ⟨_, List.find?_eq_some_iff_getElem.mpr ⟨by simpa using hkey, p, hp, rfl, ?_⟩, rfl⟩
    intro j hj
    have hother := hbefore j hj
    rw [List.getElem?_map, List.getElem?_eq_getElem (hj.trans hp), Option.map_some] at hother
    simpa using fun h => hother (congrArg some h)

/-- The keys are those of the pairs. -/
theorem isSome_firstWins {pairs : List (κ × β)} {key : κ} :
    (firstWins pairs)[key]?.isSome = true ↔ key ∈ pairs.map Prod.fst := by
  have hempty : (∅ : Std.TreeMap κ β)[key]? = none := Std.TreeMap.getElem?_emptyc
  rw [firstWins, foldl_insertIfNew, hempty, Option.none_or, Option.isSome_map, List.find?_isSome]
  simp

theorem getElem?_firstWins_of_nodup {pairs : List (κ × β)} (hnodup : (pairs.map Prod.fst).Nodup)
    {key : κ} {value : β} : (firstWins pairs)[key]? = some value ↔ (key, value) ∈ pairs := by
  rw [getElem?_firstWins]
  simp only [firstAt_of_nodup hnodup, List.getElem?_map, Option.map_eq_some_iff]
  constructor
  · rintro ⟨p, ⟨pair, hpair, rfl⟩, ⟨pair', hpair', rfl⟩⟩
    obtain rfl := Option.some.inj (hpair.symm.trans hpair')
    exact List.mem_of_getElem? hpair
  · intro hmem
    obtain ⟨p, hp⟩ := List.mem_iff_getElem?.mp hmem
    exact ⟨p, ⟨_, hp, rfl⟩, ⟨_, hp, rfl⟩⟩

end FirstWins

end Bitype.Foundations
