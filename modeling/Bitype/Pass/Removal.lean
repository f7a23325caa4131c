import Bitype.Foundations.Text
import Bitype.Pass.Types

/-!
# Removing strings from a text

`removeTargetStr` erases every occurrence of a string, the first one first, until there is
none.  A round can join characters to a new occurrence, so what is left depends on what stands
around the occurrences.

For a string with one dot, which stands at its end or at its start, only the places of the dots
of the text matter: `join` puts a text together from the segments between them.  A string that
ends in its dot joins a segment that ends in the rest of the string to the next one
(`removeTargetStr_join`).  One that starts with its dot is found before the first segment that
starts with the rest (`splitAtFirst_dot`).
-/

namespace Bitype.Pass

open Bitype.Foundations Bitype.Tool

/-! ## Occurrences -/

section Occurrences

variable {pattern text before after : Name}

theorem splitAtFirst_of_starts (h : pattern <+: text) :
    splitAtFirst pattern text = some ([], text.drop pattern.length) := by
  cases text with
  | nil =>
      rw [splitAtFirst, if_pos (List.isPrefixOf_iff_prefix.mpr h), List.drop_nil]
  | cons c rest =>
      rw [splitAtFirst, if_pos (List.isPrefixOf_iff_prefix.mpr h)]

theorem splitAtFirst_cons {c : Char} (h : ¬ pattern <+: c :: text) :
    splitAtFirst pattern (c :: text) =
      (splitAtFirst pattern text).map fun parts => (c :: parts.1, parts.2) := by
  rw [splitAtFirst, if_neg fun hstarts => h (List.isPrefixOf_iff_prefix.mp hstarts)]

theorem splitAtFirst_eq_none (h : ¬ pattern <:+: text) : splitAtFirst pattern text = none := by
  induction text with
  | nil =>
      rw [splitAtFirst, if_neg]
      exact fun hstarts => h (List.isPrefixOf_iff_prefix.mp hstarts).isInfix
  | cons c text ih =>
      rw [List.infix_cons_iff, not_or] at h
      rw [splitAtFirst_cons h.1, ih h.2, Option.map_none]

/-- Where no occurrence starts, nothing is found. -/
theorem splitAtFirst_append (h : ∀ rest, rest ≠ [] → rest <:+ before → ¬ pattern <+: rest ++ text) :
    splitAtFirst pattern (before ++ text) =
      (splitAtFirst pattern text).map fun parts => (before ++ parts.1, parts.2) := by
  induction before with
  | nil => simp
  | cons c before ih =>
      have hrest := ih fun rest hne hsuffix => h rest hne (hsuffix.trans (List.suffix_cons c before))
      have hhere : ¬ pattern <+: c :: (before ++ text) :=
        h (c :: before) (List.cons_ne_nil c before) (List.suffix_refl _)
      rw [List.cons_append, splitAtFirst_cons hhere, hrest, Option.map_map]
      rfl

theorem eq_of_splitAtFirst (h : splitAtFirst pattern text = some (before, after)) :
    text = before ++ pattern ++ after := by
  induction text generalizing before with
  | nil =>
      rw [splitAtFirst, Option.ite_none_right_eq_some] at h
      obtain ⟨hstarts, heq⟩ := h
      obtain ⟨rfl, rfl⟩ := Prod.mk.inj (Option.some.inj heq)
      rw [List.isPrefixOf_iff_prefix, List.prefix_nil] at hstarts
      rw [hstarts]
      rfl
  | cons c text ih =>
      by_cases hstarts : pattern <+: c :: text
      · rw [splitAtFirst_of_starts hstarts] at h
        obtain ⟨rfl, rfl⟩ := Prod.mk.inj (Option.some.inj h)
        exact (List.prefix_append_drop hstarts)
      · rw [splitAtFirst_cons hstarts] at h
        obtain ⟨parts, hparts, heq⟩ := Option.map_eq_some_iff.mp h
        obtain ⟨rfl, rfl⟩ := Prod.mk.inj heq
        rw [ih hparts]
        rfl

end Occurrences

/-! ## Removing -/

section Removing

variable {pattern text before after : Name}

/-- What the loop goes on with. -/
theorem length_next_lt (hne : pattern ≠ [])
    (h : splitAtFirst pattern text = some (before, after)) :
    (if pattern = "::".toList then after else before ++ after).length < text.length := by
  have hpattern := List.length_pos_of_ne_nil hne
  have htext := congrArg List.length (eq_of_splitAtFirst h)
  rw [List.length_append, List.length_append] at htext
  split
  · omega
  · rw [List.length_append]
    omega

/-- Fuel beyond the length is inert. -/
theorem removeLoop_eq_of_le (hne : pattern ≠ []) {fuel : ℕ} (hfuel : text.length ≤ fuel) :
    removeLoop pattern fuel text = removeTargetStr text pattern := by
  have hsucc : ∀ (fuel : ℕ) (text : Name), text.length ≤ fuel →
      removeLoop pattern (fuel + 1) text = removeLoop pattern fuel text := by
    intro fuel
    induction fuel with
    | zero =>
        intro text htext
        obtain rfl := List.length_eq_zero_iff.mp (Nat.le_zero.mp htext)
        have hnone := splitAtFirst_eq_none fun h => hne (List.infix_nil.mp h)
        simp only [removeLoop, hnone]
    | succ fuel ih =>
        intro text htext
        rw [removeLoop, removeLoop]
        cases hsplit : splitAtFirst pattern text with
        | none => rfl
        | some parts =>
            have hlt := length_next_lt hne hsplit
            exact ih _ (by omega)
  induction fuel, hfuel using Nat.le_induction with
  | base => rfl
  | succ fuel hle ih => rw [hsucc fuel text hle, ih]

theorem removeTargetStr_of_none (h : splitAtFirst pattern text = none) :
    removeTargetStr text pattern = text := by
  rw [removeTargetStr]
  cases text with
  | nil => rfl
  | cons c text => rw [List.length_cons, removeLoop, h]

/-- **One round of the loop.** -/
theorem removeTargetStr_of_some (hne : pattern ≠ [])
    (h : splitAtFirst pattern text = some (before, after)) :
    removeTargetStr text pattern =
      removeTargetStr (if pattern = "::".toList then after else before ++ after) pattern := by
  have hlt := length_next_lt hne h
  obtain ⟨fuel, hfuel⟩ := Nat.exists_eq_succ_of_ne_zero (Nat.ne_zero_of_lt hlt)
  rw [removeTargetStr, hfuel, removeLoop, h]
  exact removeLoop_eq_of_le hne (by omega)

/-- A string with a character that the text does not have. -/
theorem removeTargetStr_of_notMem {c : Char} (hpattern : c ∈ pattern) (htext : c ∉ text) :
    removeTargetStr text pattern = text :=
  removeTargetStr_of_none (splitAtFirst_eq_none fun h => htext (h.subset hpattern))

end Removing

/-! ## Segments -/

/-- Segments with dots between them. -/
def join : List Name → Name
  | [] => []
  | [segment] => segment
  | segment :: next :: rest => segment ++ '.' :: join (next :: rest)

/-- A segment without the word it ends in. -/
def cutWord (word segment : Name) : Name := segment.take (segment.length - word.length)

/-- What removing `word.` does to the segments. -/
def dropWord (word : Name) : List Name → List Name
  | [] => []
  | [segment] => [segment]
  | segment :: next :: rest =>
      if word <:+ segment then dropWord word ((cutWord word segment ++ next) :: rest)
      else segment :: dropWord word (next :: rest)
termination_by segments => segments.length

section Segments

variable {word segment text : Name}

@[simp] theorem cutWord_append (before : Name) : cutWord word (before ++ word) = before := by
  rw [cutWord, List.length_append, Nat.add_sub_cancel, List.take_left]

theorem dropWord_ne_nil {segments : List Name} (h : segments ≠ []) : dropWord word segments ≠ [] := by
  induction segments using dropWord.induct word with
  | case1 => exact absurd rfl h
  | case2 segment => rwa [dropWord]
  | case3 segment next rest hsuffix ih =>
      rw [dropWord, if_pos hsuffix]
      exact ih (List.cons_ne_nil _ _)
  | case4 segment next rest hsuffix ih =>
      rw [dropWord, if_neg hsuffix]
      exact List.cons_ne_nil _ _

theorem join_cons {rest : List Name} (h : rest ≠ []) :
    join (segment :: rest) = segment ++ '.' :: join rest := by
  cases rest with
  | nil => exact absurd rfl h
  | cons next rest => rw [join]

theorem join_append (before segment : Name) (rest : List Name) :
    join ((before ++ segment) :: rest) = before ++ join (segment :: rest) := by
  cases rest with
  | nil => rfl
  | cons next rest => rw [join, join, List.append_assoc]

/-- The first dot ends the word. -/
theorem eq_of_word_starts (hword : '.' ∉ word) (hsegment : '.' ∉ segment)
    (h : word ++ ['.'] <+: segment ++ '.' :: text) : word = segment := by
  obtain ⟨rest, hrest⟩ := h
  rw [List.append_assoc, List.singleton_append] at hrest
  have hsplit := congrArg (splitFirst '.') hrest
  rw [splitFirst_append hword, splitFirst_append hsegment] at hsplit
  exact (Prod.mk.inj hsplit).1

theorem splitAtFirst_word (hword : '.' ∉ word) {before : Name} (hbefore : '.' ∉ before) :
    splitAtFirst (word ++ ['.']) (before ++ (word ++ '.' :: text)) = some (before, text) := by
  rw [splitAtFirst_append]
  · have hstarts : word ++ ['.'] <+: word ++ '.' :: text :=
      ⟨text, by rw [List.append_assoc, List.singleton_append]⟩
    have hrest : (word ++ '.' :: text).drop (word ++ ['.']).length = text := by
      rw [List.append_cons word '.' text, List.drop_left]
    rw [splitAtFirst_of_starts hstarts, hrest, Option.map_some, List.append_nil]
  · intro rest hne hsuffix hstarts
    rw [← List.append_assoc] at hstarts
    have hrest : '.' ∉ rest ++ word := by
      rw [List.mem_append, not_or]
      exact ⟨fun hmem => hbefore (hsuffix.subset hmem), hword⟩
    have heq := eq_of_word_starts hword hrest hstarts
    exact hne (List.append_left_eq_self.mp heq.symm)

theorem splitAtFirst_segment (hword : '.' ∉ word) (hsegment : '.' ∉ segment)
    (h : ¬ word <:+ segment) (text : Name) :
    splitAtFirst (word ++ ['.']) (segment ++ ['.'] ++ text) =
      (splitAtFirst (word ++ ['.']) text).map fun parts => (segment ++ ['.'] ++ parts.1, parts.2) := by
  apply splitAtFirst_append
  intro rest hrest hsuffix hstarts
  rcases List.suffix_concat_iff.mp hsuffix with rfl | ⟨rest', rfl, hsuffix'⟩
  · exact hrest rfl
  · rw [List.append_assoc, List.singleton_append] at hstarts
    have hrest' : '.' ∉ rest' := fun hmem => hsegment (hsuffix'.subset hmem)
    obtain rfl := eq_of_word_starts hword hrest' hstarts
    exact h hsuffix'

/-- What stands before every occurrence stays. -/
theorem removeTargetStr_append {pattern before : Name} (hne : pattern ≠ [])
    (hcolon : pattern ≠ "::".toList)
    (hbefore : ∀ text, splitAtFirst pattern (before ++ text) =
      (splitAtFirst pattern text).map fun parts => (before ++ parts.1, parts.2)) (text : Name) :
    removeTargetStr (before ++ text) pattern = before ++ removeTargetStr text pattern := by
  induction hlength : text.length using Nat.strong_induction_on generalizing text with
  | _ length ih =>
      cases hsplit : splitAtFirst pattern text with
      | none =>
          rw [removeTargetStr_of_none hsplit, removeTargetStr_of_none]
          rw [hbefore, hsplit, Option.map_none]
      | some parts =>
          have hlt := length_next_lt hne hsplit
          have hwhole : splitAtFirst pattern (before ++ text) =
              some (before ++ parts.1, parts.2) := by
            rw [hbefore, hsplit, Option.map_some]
          rw [removeTargetStr_of_some hne hwhole, removeTargetStr_of_some hne hsplit]
          rw [if_neg hcolon] at hlt ⊢
          rw [if_neg hcolon, List.append_assoc]
          exact ih _ (hlength ▸ hlt) _ rfl

/-- **Removing a word that ends in its dot.** -/
theorem removeTargetStr_join (hword : '.' ∉ word) {segments : List Name}
    (hsegments : ∀ segment ∈ segments, '.' ∉ segment) :
    removeTargetStr (join segments) (word ++ ['.']) = join (dropWord word segments) := by
  have hpattern : word ++ ['.'] ≠ [] := List.concat_ne_nil '.' word
  have hcolon : word ++ ['.'] ≠ "::".toList := by
    intro heq
    have hmem : '.' ∈ "::".toList := heq ▸ List.mem_append_right word List.mem_cons_self
    exact absurd hmem (by decide)
  have hdot : '.' ∈ word ++ ['.'] := List.mem_append_right word List.mem_cons_self
  induction segments using dropWord.induct word with
  | case1 =>
      rw [dropWord]
      exact removeTargetStr_of_notMem hdot List.not_mem_nil
  | case2 segment =>
      rw [dropWord]
      exact removeTargetStr_of_notMem hdot (hsegments segment List.mem_cons_self)
  | case3 segment next rest hsuffix ih =>
      -- the segment ends with the word: the word goes and its dot with it
      obtain ⟨before, rfl⟩ := hsuffix
      have hsegment := hsegments _ List.mem_cons_self
      have hbefore : '.' ∉ before := fun hmem => hsegment (List.mem_append_left word hmem)
      have hnext := hsegments next (List.mem_cons_of_mem _ List.mem_cons_self)
      have hfirst : splitAtFirst (word ++ ['.']) (join ((before ++ word) :: next :: rest)) =
          some (before, join (next :: rest)) := by
        rw [join, List.append_assoc, splitAtFirst_word hword hbefore]
      rw [dropWord, if_pos (List.suffix_append before word), removeTargetStr_of_some hpattern hfirst,
        if_neg hcolon, ← join_append]
      rw [cutWord_append] at ih ⊢
      apply ih
      rintro segment (_ | ⟨_, hmem⟩)
      · rw [List.mem_append, not_or]
        exact ⟨hbefore, hnext⟩
      · exact hsegments segment (List.mem_cons_of_mem _ (List.mem_cons_of_mem _ hmem))
  | case4 segment next rest hsuffix ih =>
      -- the segment stays, and the search goes on behind its dot
      have hsegment := hsegments segment List.mem_cons_self
      have hrest : ∀ other ∈ next :: rest, '.' ∉ other :=
        fun other hother => hsegments other (List.mem_cons_of_mem _ hother)
      have hstays := removeTargetStr_append hpattern hcolon
        (splitAtFirst_segment hword hsegment hsuffix) (join (next :: rest))
      have hdropped : dropWord word (next :: rest) ≠ [] := dropWord_ne_nil (List.cons_ne_nil _ _)
      rw [dropWord, if_neg hsuffix, join_cons (List.cons_ne_nil _ _), join_cons hdropped,
        List.append_cons, hstays, ih hrest, List.append_assoc, List.singleton_append]

theorem mem_dropLast_cons {other first : Name} {rest : List Name} (hne : rest ≠ []) :
    other ∈ (first :: rest).dropLast ↔ other = first ∨ other ∈ rest.dropLast := by
  rw [List.dropLast_cons_of_ne_nil hne, List.mem_cons]

theorem dropWord_eq_self {segments : List Name}
    (h : ∀ segment ∈ segments.dropLast, ¬ word <:+ segment) : dropWord word segments = segments := by
  induction segments using dropWord.induct word with
  | case1 => rw [dropWord]
  | case2 segment => rw [dropWord]
  | case3 segment next rest hsuffix ih =>
      exact absurd hsuffix (h segment ((mem_dropLast_cons (List.cons_ne_nil _ _)).mpr (.inl rfl)))
  | case4 segment next rest hsuffix ih =>
      have hrest := ih fun other hother =>
        h other ((mem_dropLast_cons (List.cons_ne_nil _ _)).mpr (.inr hother))
      rw [dropWord, if_neg hsuffix, hrest]

/-- A word without a dot at the start of a text is at the start of the first segment. -/
theorem prefix_segment (hword : '.' ∉ word) (h : word <+: segment ++ '.' :: text) :
    word <+: segment := by
  rcases List.prefix_or_prefix_of_prefix h (List.prefix_append segment _) with hstarts | ⟨rest, rfl⟩
  · exact hstarts
  · rw [List.prefix_append_right_inj] at h
    cases rest with
    | nil => rw [List.append_nil]
    | cons c rest =>
        obtain ⟨rfl, -⟩ := List.cons_prefix_cons.mp h
        exact absurd (List.mem_append_right segment List.mem_cons_self) hword

/-- `.word` is found at the first dot if what follows starts with the word. -/
theorem splitAtFirst_dot (hsegment : '.' ∉ segment) (h : word <+: text) :
    splitAtFirst ('.' :: word) (segment ++ '.' :: text) = some (segment, text.drop word.length) := by
  rw [splitAtFirst_append]
  · have hstarts : '.' :: word <+: '.' :: text := List.cons_prefix_cons.mpr ⟨rfl, h⟩
    rw [splitAtFirst_of_starts hstarts, Option.map_some, List.append_nil, List.length_cons,
      List.drop_succ_cons]
  · intro rest hne hsuffix hstarts
    obtain ⟨c, rest, rfl⟩ := List.exists_cons_of_ne_nil hne
    obtain ⟨rfl, -⟩ := List.cons_prefix_cons.mp hstarts
    exact hsegment (hsuffix.subset List.mem_cons_self)

/-- Otherwise it is looked for behind the dot. -/
theorem splitAtFirst_dot_of_not (hsegment : '.' ∉ segment) (h : ¬ word <+: text) :
    splitAtFirst ('.' :: word) (segment ++ '.' :: text) =
      (splitAtFirst ('.' :: word) text).map fun parts => (segment ++ '.' :: parts.1, parts.2) := by
  have hdot : ¬ '.' :: word <+: '.' :: text := fun hstarts => h (List.cons_prefix_cons.mp hstarts).2
  rw [splitAtFirst_append, splitAtFirst_cons hdot, Option.map_map]
  · rfl
  · intro rest hne hsuffix hstarts
    obtain ⟨c, rest, rfl⟩ := List.exists_cons_of_ne_nil hne
    obtain ⟨rfl, -⟩ := List.cons_prefix_cons.mp hstarts
    exact hsegment (hsuffix.subset List.mem_cons_self)

end Segments

end Bitype.Pass
