import Bitype.Pass.Removal
import Bitype.Pass.Numbers

/-!
# Decorated type names

`addRecordTypeName` puts a prefix before the qualified name of a class and may put `.base`
behind it, and a struct type whose name is taken gets a number.  `syncTypeName` is to give the
identifier back; it removes ten strings wherever they stand.

Once the scopes are gone, `segments` lists what stands between the dots of a name: a prefix,
the identifier, `base` and the number.  The removals up to `.base` can only join the
identifier to what follows, which changes its last character (`endsApart_of_joined`); `.base`
can join it to the prefix, and the last ones can join it to the number (`syncTail_join`).

`syncTypeName_decorated_iff`: the identifier comes back exactly if none of this happens.
-/

namespace Bitype.Pass

open Bitype.Foundations Bitype.Tool

/-! ## Decorated names -/

/-- A character of an identifier. -/
def isIdentifierChar (c : Char) : Bool :=
  c.isAlphanum || c = '_' || c = '$' || 128 ≤ c.toNat

/-- A C++ identifier. -/
structure Identifier where
  name : Name
  nonempty : name ≠ []
  start : ∀ c ∈ name.head?, c.isDigit = false
  chars : ∀ c ∈ name, isIdentifierChar c = true

/-- `printQualifiedName` of a class in named scopes. -/
def printQualifiedName (contexts : List Identifier) (id : Identifier) : Name :=
  contexts.flatMap (fun context => context.name ++ "::".toList) ++ id.name

/-- What `addRecordTypeName` writes before the dot. -/
def recordPrefix (isBlacklistedType : Bool) : Name :=
  if isBlacklistedType then "blacklistedtype".toList else "trackedtype".toList

/-- `addRecordTypeName` for a C++ class with an identifier. -/
def addRecordTypeName (isBlacklistedType : Bool) (qualifiedName suffix : Name) : Name :=
  recordPrefix isBlacklistedType ++ '.' :: qualifiedName ++ suffix

/-- `StructType::setName`: a name that is taken gets `NamedStructTypesUniqueID`. -/
def setName (name : Name) (uniqueID : Option ℕ) : Name :=
  match uniqueID with
  | none => name
  | some uniqueID => name ++ '.' :: decimal uniqueID

/-- The name of a struct type: that of a class, or of its base subobject part. -/
def structName (isBlacklistedType : Bool) (contexts : List Identifier) (id : Identifier)
    (isBase : Bool) (uniqueID : Option ℕ) : Name :=
  setName (addRecordTypeName isBlacklistedType (printQualifiedName contexts id)
    (if isBase then ".base".toList else [])) uniqueID

/-- The segments of such a name, once the scopes are gone. -/
def segments (front : Option Bool) (body : Name) (isBase : Bool) (uniqueID : Option ℕ) :
    List Name :=
  front.toList.map recordPrefix ++
    body :: ((if isBase then ["base".toList] else []) ++ uniqueID.toList.map decimal)

/-! ## Words -/

/-- What an identifier is made of. -/
def IsWord (segment : Name) : Prop := ∀ c ∈ segment, isIdentifierChar c = true

section Words

variable {segment : Name} {front : Option Bool} {body : Name} {isBase : Bool}
  {uniqueID : Option ℕ}

theorem IsWord.notMem (h : IsWord segment) {c : Char} (hc : isIdentifierChar c = false) :
    c ∉ segment := by
  intro hmem
  rw [h c hmem] at hc
  cases hc

theorem IsWord.append {other : Name} (h : IsWord segment) (hother : IsWord other) :
    IsWord (segment ++ other) := by
  intro c hc
  rcases List.mem_append.mp hc with hc | hc
  · exact h c hc
  · exact hother c hc

theorem IsWord.of_subset {other : Name} (h : IsWord segment) (hsub : other ⊆ segment) :
    IsWord other := fun c hc => h c (hsub hc)

/-- The words that stand in the strings. -/
theorem all_fixedWords : ∀ word ∈ [recordPrefix false, recordPrefix true, "base".toList,
    "class".toList, "struct".toList, "union".toList], word.all isIdentifierChar = true := by
  decide +kernel

theorem isWord_of_fixed {word : Name} (h : word ∈ [recordPrefix false, recordPrefix true,
    "base".toList, "class".toList, "struct".toList, "union".toList]) : IsWord word :=
  List.all_eq_true.mp (all_fixedWords word h)

theorem isWord_recordPrefix (isBlacklistedType : Bool) : IsWord (recordPrefix isBlacklistedType) := by
  cases isBlacklistedType
  · exact isWord_of_fixed (by simp)
  · exact isWord_of_fixed (by simp)

theorem isWord_base : IsWord "base".toList := isWord_of_fixed (by simp)

theorem isWord_decimal (n : ℕ) : IsWord (decimal n) := by
  intro c hc
  rw [isIdentifierChar, Char.isAlphanum, isDigit_of_mem_decimal hc, Bool.or_true]
  rfl

theorem isWord_of_mem_segments (hbody : IsWord body) (hmem : segment ∈ segments front body isBase uniqueID) :
    IsWord segment := by
  rw [segments, List.mem_append, List.mem_cons, List.mem_append] at hmem
  rcases hmem with hfront | rfl | hbase | hnumber
  · obtain ⟨isBlacklistedType, -, rfl⟩ := List.mem_map.mp hfront
    exact isWord_recordPrefix isBlacklistedType
  · exact hbody
  · cases isBase
    · cases hbase
    · obtain rfl := List.mem_singleton.mp hbase
      exact isWord_base
  · obtain ⟨n, -, rfl⟩ := List.mem_map.mp hnumber
    exact isWord_decimal n

theorem mem_join {c : Char} {segments : List Name} (h : c ∈ join segments) :
    c = '.' ∨ ∃ segment ∈ segments, c ∈ segment := by
  induction segments with
  | nil => cases h
  | cons segment rest ih =>
      cases rest with
      | nil => exact .inr ⟨segment, List.mem_cons_self, h⟩
      | cons next rest =>
          rw [join_cons (List.cons_ne_nil _ _), List.mem_append, List.mem_cons] at h
          rcases h with hfirst | hdot | hrest
          · exact .inr ⟨segment, List.mem_cons_self, hfirst⟩
          · exact .inl hdot
          · rcases ih hrest with hdot | ⟨other, hother, hc⟩
            · exact .inl hdot
            · exact .inr ⟨other, List.mem_cons_of_mem _ hother, hc⟩

/-- A string with a character that stands in no name is not found. -/
theorem removeTargetStr_foreign {pattern : Name} {c : Char} {segments : List Name}
    (hsegments : ∀ segment ∈ segments, IsWord segment) (hpattern : c ∈ pattern)
    (hc : isIdentifierChar c = false) (hdot : c ≠ '.') :
    removeTargetStr (join segments) pattern = join segments := by
  apply removeTargetStr_of_notMem hpattern
  intro hmem
  rcases mem_join hmem with heq | ⟨segment, hsegment, hmem⟩
  · exact hdot heq
  · exact (hsegments segment hsegment).notMem hc hmem

theorem removeTargetStr_words {word : Name} (hword : IsWord word) {segments : List Name}
    (hsegments : ∀ segment ∈ segments, IsWord segment) :
    removeTargetStr (join segments) (word ++ ['.']) = join (dropWord word segments) :=
  removeTargetStr_join (hword.notMem rfl) fun segment hsegment =>
    (hsegments segment hsegment).notMem rfl

end Words

/-! ## The scopes -/

/-- **`::` goes with all that is in front.** -/
theorem removeTargetStr_scopes (contexts : List Identifier) {front rest : Name}
    (hfront : ':' ∉ front) (hrest : ':' ∉ rest) :
    removeTargetStr (front ++ (contexts.flatMap (fun context => context.name ++ "::".toList) ++ rest))
      "::".toList = if contexts = [] then front ++ rest else rest := by
  have hcolon : ':' ∈ "::".toList := List.mem_cons_self
  have hpattern : "::".toList ≠ [] := List.ne_nil_of_mem hcolon
  induction contexts generalizing front with
  | nil =>
      rw [if_pos rfl]
      apply removeTargetStr_of_notMem hcolon
      rw [List.flatMap_nil, List.nil_append, List.mem_append, not_or]
      exact ⟨hfront, hrest⟩
  | cons context contexts ih =>
      have hname : ':' ∉ context.name := IsWord.notMem context.chars rfl
      have hbefore : ':' ∉ front ++ context.name := by
        rw [List.mem_append, not_or]
        exact ⟨hfront, hname⟩
      -- the first `::` is the one behind the first context
      have hfirst : splitAtFirst "::".toList (front ++ context.name ++ ("::".toList ++
          (contexts.flatMap (fun context => context.name ++ "::".toList) ++ rest))) =
          some (front ++ context.name,
            contexts.flatMap (fun context => context.name ++ "::".toList) ++ rest) := by
        rw [splitAtFirst_append, splitAtFirst_of_starts (List.prefix_append _ _), List.drop_left,
          Option.map_some, List.append_nil]
        intro start hne hsuffix hstarts
        obtain ⟨c, start, rfl⟩ := List.exists_cons_of_ne_nil hne
        obtain ⟨rfl, -⟩ := List.cons_prefix_cons.mp hstarts
        exact hbefore (hsuffix.subset List.mem_cons_self)
      have hnext := ih (List.not_mem_nil : ':' ∉ [])
      rw [List.nil_append, List.nil_append, ite_self] at hnext
      rw [if_neg (List.cons_ne_nil _ _), List.flatMap_cons, List.append_assoc, List.append_assoc,
        ← List.append_assoc front, removeTargetStr_of_some hpattern hfirst, if_pos rfl,
        hnext]

/-! ## `.base` -/

section Base

variable {body : Name} {isBase : Bool} {uniqueID : Option ℕ}

/-- `.` and the number, if there is one. -/
def numberText (uniqueID : Option ℕ) : Name :=
  match uniqueID with
  | none => []
  | some n => '.' :: decimal n

theorem join_front (isBlacklistedType : Bool) :
    join (segments (some isBlacklistedType) body isBase uniqueID) =
      recordPrefix isBlacklistedType ++ '.' :: join (segments none body isBase uniqueID) :=
  join_cons (List.cons_ne_nil _ _)

theorem join_isBase :
    join (segments none body true uniqueID) =
      body ++ '.' :: ("base".toList ++ numberText uniqueID) := by
  cases uniqueID with
  | none => exact (congrArg (fun text => body ++ '.' :: text) (List.append_nil _).symm)
  | some n => rfl

theorem join_not_isBase : join (segments none body false uniqueID) = body ++ numberText uniqueID := by
  cases uniqueID with
  | none => exact (List.append_nil body).symm
  | some n => rfl

theorem not_base_prefix_decimal (n : ℕ) : ¬ "base".toList <+: decimal n := by
  intro hstarts
  have hdigit := isDigit_of_mem_decimal (hstarts.subset List.mem_cons_self)
  exact absurd hdigit (by decide)

/-- `base` at the start of the text is at the start of the body. -/
theorem base_prefix_iff : "base".toList <+: join (segments none body isBase uniqueID) ↔
    "base".toList <+: body := by
  have hdot : '.' ∉ "base".toList := isWord_base.notMem rfl
  cases isBase with
  | true =>
      rw [join_isBase]
      exact ⟨prefix_segment hdot, fun h => h.trans (List.prefix_append _ _)⟩
  | false =>
      rw [join_not_isBase]
      cases uniqueID with
      | none => rw [numberText, List.append_nil]
      | some n => exact ⟨prefix_segment hdot, fun h => h.trans (List.prefix_append _ _)⟩

/-- Without a prefix only the suffix is found. -/
theorem splitAtFirst_base (hbody : '.' ∉ body) :
    splitAtFirst ".base".toList (join (segments none body isBase uniqueID)) =
      if isBase then some (body, numberText uniqueID) else none := by
  cases isBase with
  | true =>
      rw [join_isBase, if_pos rfl]
      apply (splitAtFirst_dot hbody (List.prefix_append _ _)).trans
      rw [List.drop_left]
  | false =>
      rw [join_not_isBase, if_neg Bool.false_ne_true]
      cases uniqueID with
      | none =>
          rw [numberText, List.append_nil]
          apply splitAtFirst_eq_none
          exact fun h => hbody (h.subset List.mem_cons_self)
      | some n =>
          apply (splitAtFirst_dot_of_not hbody (not_base_prefix_decimal n)).trans
          have hdot : '.' ∉ decimal n := (isWord_decimal n).notMem rfl
          rw [splitAtFirst_eq_none fun h => hdot (h.subset List.mem_cons_self), Option.map_none]

theorem removeTargetStr_base_none (hbody : '.' ∉ body) :
    removeTargetStr (join (segments none body isBase uniqueID)) ".base".toList =
      join (segments none body false uniqueID) := by
  have hpattern : ".base".toList ≠ [] := by decide
  have hcolon : ".base".toList ≠ "::".toList := by decide
  have hdone : removeTargetStr (join (segments none body false uniqueID)) ".base".toList =
      join (segments none body false uniqueID) := by
    apply removeTargetStr_of_none
    rw [splitAtFirst_base hbody, if_neg Bool.false_ne_true]
  cases isBase with
  | false => exact hdone
  | true =>
      have hfirst : splitAtFirst ".base".toList (join (segments none body true uniqueID)) =
          some (body, numberText uniqueID) := by
        rw [splitAtFirst_base hbody, if_pos rfl]
      rw [removeTargetStr_of_some hpattern hfirst, if_neg hcolon, ← join_not_isBase]
      exact hdone

/-- A body that does not start with `base` keeps its prefix. -/
theorem removeTargetStr_base_some (isBlacklistedType : Bool) (hbody : '.' ∉ body)
    (hstart : ¬ "base".toList <+: body) :
    removeTargetStr (join (segments (some isBlacklistedType) body isBase uniqueID)) ".base".toList =
      join (segments (some isBlacklistedType) body false uniqueID) := by
  have hpattern : ".base".toList ≠ [] := by decide
  have hcolon : ".base".toList ≠ "::".toList := by decide
  have hfront : '.' ∉ recordPrefix isBlacklistedType :=
    (isWord_recordPrefix isBlacklistedType).notMem rfl
  have hsplit : ∀ isBase, splitAtFirst ".base".toList
      (join (segments (some isBlacklistedType) body isBase uniqueID)) =
        if isBase then some (recordPrefix isBlacklistedType ++ '.' :: body, numberText uniqueID)
        else none := by
    intro isBase
    rw [join_front]
    apply (splitAtFirst_dot_of_not hfront (mt base_prefix_iff.mp hstart)).trans
    have hrest : splitAtFirst ('.' :: "base".toList) (join (segments none body isBase uniqueID)) =
        if isBase then some (body, numberText uniqueID) else none := splitAtFirst_base hbody
    rw [hrest]
    split
    · rfl
    · rfl
  have hdone : removeTargetStr (join (segments (some isBlacklistedType) body false uniqueID))
      ".base".toList = join (segments (some isBlacklistedType) body false uniqueID) := by
    apply removeTargetStr_of_none
    rw [hsplit, if_neg Bool.false_ne_true]
  cases isBase with
  | false => exact hdone
  | true =>
      rw [removeTargetStr_of_some hpattern (hsplit true), if_neg hcolon, List.append_assoc,
        List.cons_append, ← join_not_isBase, ← join_front]
      exact hdone

/-- **A body that starts with `base` is joined to its prefix.** -/
theorem removeTargetStr_base_joined (isBlacklistedType : Bool) {rest : Name}
    (hbody : '.' ∉ "base".toList ++ rest) :
    removeTargetStr (join (segments (some isBlacklistedType) ("base".toList ++ rest) isBase uniqueID))
      ".base".toList =
        join (segments none (recordPrefix isBlacklistedType ++ rest) false uniqueID) := by
  have hpattern : ".base".toList ≠ [] := by decide
  have hcolon : ".base".toList ≠ "::".toList := by decide
  have hfront : '.' ∉ recordPrefix isBlacklistedType :=
    (isWord_recordPrefix isBlacklistedType).notMem rfl
  have hjoined : '.' ∉ recordPrefix isBlacklistedType ++ rest := by
    rw [List.mem_append, not_or] at hbody ⊢
    exact ⟨hfront, hbody.2⟩
  have hfirst : splitAtFirst ".base".toList
      (join (segments (some isBlacklistedType) ("base".toList ++ rest) isBase uniqueID)) =
        some (recordPrefix isBlacklistedType, join (segments none rest isBase uniqueID)) := by
    have hrest : join (segments none ("base".toList ++ rest) isBase uniqueID) =
        "base".toList ++ join (segments none rest isBase uniqueID) := join_append _ _ _
    rw [join_front, hrest]
    apply (splitAtFirst_dot hfront (List.prefix_append _ _)).trans
    rw [List.drop_left]
  rw [removeTargetStr_of_some hpattern hfirst, if_neg hcolon, ← removeTargetStr_base_none hjoined]
  congr 1
  exact (join_append _ _ _).symm

end Base

/-! ## The prefixes and the number -/

section Prefixes

variable {front : Option Bool} {body : Name} {isBase : Bool} {uniqueID : Option ℕ}

/-- What is left of the last two segments: a body that ends in a prefix is joined to the
number, otherwise the number goes. -/
def settle (body : Name) (uniqueID : Option ℕ) : Name :=
  match uniqueID with
  | none => body
  | some n =>
      if recordPrefix false <:+ body then cutWord (recordPrefix false) body ++ decimal n
      else if recordPrefix true <:+ body then cutWord (recordPrefix true) body ++ decimal n
      else body

theorem dropWord_pair (word body number : Name) :
    dropWord word [body, number] =
      if word <:+ body then [cutWord word body ++ number] else [body, number] := by
  rw [dropWord]
  split
  · rw [dropWord]
  · rw [dropWord]

/-- The prefix of the name goes. -/
theorem dropWord_front (word : Name) {rest : List Name} (h : rest ≠ []) :
    dropWord word (word :: rest) = dropWord word rest := by
  obtain ⟨next, rest, rfl⟩ := List.exists_cons_of_ne_nil h
  rw [dropWord, if_pos (List.suffix_refl word)]
  have hcut : cutWord word word = [] := cutWord_append []
  rw [hcut, List.nil_append]

theorem dropWord_prefixes :
    dropWord (recordPrefix true) (dropWord (recordPrefix false) (segments front body false uniqueID)) =
      dropWord (recordPrefix true)
        (dropWord (recordPrefix false) (segments none body false uniqueID)) := by
  have hne : segments none body false uniqueID ≠ [] := List.cons_ne_nil _ _
  match front with
  | none => rfl
  | some false => exact congrArg _ (dropWord_front (recordPrefix false) hne)
  | some true =>
      have hother : ¬ recordPrefix false <:+ recordPrefix true := by decide
      have hkept : dropWord (recordPrefix false) (segments (some true) body false uniqueID) =
          recordPrefix true :: dropWord (recordPrefix false) (segments none body false uniqueID) := by
        change dropWord _ (recordPrefix true :: body :: _) = _
        rw [dropWord, if_neg hother]
        rfl
      rw [hkept]
      exact dropWord_front (recordPrefix true) (dropWord_ne_nil hne)

theorem removeTargetNum_word (hbody : '.' ∉ body) : removeTargetNum body = body := by
  have hnone : splitAtFirst ".".toList body = none :=
    splitAtFirst_eq_none fun h => hbody (h.subset List.mem_cons_self)
  rw [removeTargetNum, hnone]

/-- A number behind the first dot goes. -/
theorem removeTargetNum_number (hbody : '.' ∉ body) (n : ℕ) :
    removeTargetNum (body ++ '.' :: decimal n) = body := by
  have hsplit : splitAtFirst ".".toList (body ++ '.' :: decimal n) = some (body, decimal n) :=
    splitAtFirst_dot hbody  List.nil_prefix
  obtain ⟨c, rest, hnumber⟩ := List.exists_cons_of_ne_nil (digits_decimal n).1
  have hdigit := (digits_decimal n).2 c (hnumber ▸ List.mem_cons_self)
  rw [removeTargetNum, hsplit, hnumber]
  have hrange : 48 ≤ c.val ∧ c.val ≤ 57 := by simpa [Char.isDigit] using hdigit
  exact if_pos hrange

/-- **The prefixes and the number.** -/
theorem removeTargetNum_prefixes (hbody : IsWord body) :
    removeTargetNum (join (dropWord (recordPrefix true)
      (dropWord (recordPrefix false) (segments none body false uniqueID)))) =
        settle body uniqueID := by
  have hcut : ∀ word, IsWord (cutWord word body) := fun word =>
    hbody.of_subset (List.take_subset _ _)
  have hdot : ∀ {segment}, IsWord segment → '.' ∉ segment := fun h => h.notMem rfl
  cases uniqueID with
  | none =>
      have hone : segments none body false none = [body] := rfl
      rw [hone, dropWord, dropWord]
      exact removeTargetNum_word (hdot hbody)
  | some n =>
      have htwo : segments none body false (some n) = [body, decimal n] := rfl
      rw [htwo, settle, dropWord_pair]
      by_cases htracked : recordPrefix false <:+ body
      · rw [if_pos htracked, if_pos htracked, dropWord]
        exact removeTargetNum_word (hdot ((hcut _).append (isWord_decimal n)))
      · rw [if_neg htracked, if_neg htracked, dropWord_pair]
        by_cases hblacklisted : recordPrefix true <:+ body
        · rw [if_pos hblacklisted, if_pos hblacklisted]
          exact removeTargetNum_word (hdot ((hcut _).append (isWord_decimal n)))
        · rw [if_neg hblacklisted, if_neg hblacklisted]
          exact removeTargetNum_number (hdot hbody) n

end Prefixes

/-! ## From `.base` on -/

/-- The body, joined to its prefix if it starts with `base`. -/
def joinedBody (front : Option Bool) (body : Name) : Name :=
  match front with
  | none => body
  | some isBlacklistedType =>
      if "base".toList <+: body then recordPrefix isBlacklistedType ++ body.drop 4 else body

/-- The second half of `syncTypeName`. -/
def syncTail (text : Name) : Name :=
  removeTargetNum ([".base".toList, "trackedtype.".toList, "blacklistedtype.".toList, "*".toList,
    "'".toList].foldl removeTargetStr text)

section Tail

variable {front : Option Bool} {body : Name} {isBase : Bool} {uniqueID : Option ℕ}

theorem isWord_dropWord {word : Name} {segments : List Name}
    (h : ∀ segment ∈ segments, IsWord segment) :
    ∀ segment ∈ dropWord word segments, IsWord segment := by
  induction segments using dropWord.induct word with
  | case1 => rwa [dropWord]
  | case2 segment => rwa [dropWord]
  | case3 segment next rest hsuffix ih =>
      rw [dropWord, if_pos hsuffix]
      apply ih
      intro other hother
      rcases List.mem_cons.mp hother with rfl | hother
      · have hsegment := h segment List.mem_cons_self
        have hnext := h next (List.mem_cons_of_mem _ List.mem_cons_self)
        exact (hsegment.of_subset (List.take_subset _ _)).append hnext
      · exact h other (List.mem_cons_of_mem _ (List.mem_cons_of_mem _ hother))
  | case4 segment next rest hsuffix ih =>
      rw [dropWord, if_neg hsuffix]
      intro other hother
      rcases List.mem_cons.mp hother with rfl | hother
      · exact h other List.mem_cons_self
      · exact ih (fun other hother => h other (List.mem_cons_of_mem _ hother)) other hother

theorem isWord_joinedBody (hbody : IsWord body) : IsWord (joinedBody front body) := by
  unfold joinedBody
  split
  · exact hbody
  · split
    · exact (isWord_recordPrefix _).append (hbody.of_subset (List.drop_subset _ _))
    · exact hbody

/-- What `.base` leaves. -/
theorem removeTargetStr_base (hbody : IsWord body) :
    ∃ front', removeTargetStr (join (segments front body isBase uniqueID)) ".base".toList =
      join (segments front' (joinedBody front body) false uniqueID) := by
  have hdot : '.' ∉ body := hbody.notMem rfl
  cases front with
  | none => exact ⟨none, removeTargetStr_base_none hdot⟩
  | some isBlacklistedType =>
      by_cases hstart : "base".toList <+: body
      · refine ⟨none, ?_⟩
        rw [joinedBody, if_pos hstart]
        obtain ⟨rest, rfl⟩ := hstart
        exact removeTargetStr_base_joined isBlacklistedType hdot
      · refine ⟨some isBlacklistedType, ?_⟩
        rw [joinedBody, if_neg hstart]
        exact removeTargetStr_base_some isBlacklistedType hdot hstart

theorem removeTargetStr_quotes {segments : List Name}
    (h : ∀ segment ∈ segments, IsWord segment) :
    removeTargetStr (removeTargetStr (join segments) "*".toList) "'".toList = join segments := by
  have hstar : removeTargetStr (join segments) "*".toList = join segments :=
    removeTargetStr_foreign h (List.mem_cons_self : '*' ∈ ['*']) rfl (by decide)
  rw [hstar]
  exact removeTargetStr_foreign h (List.mem_cons_self : '\'' ∈ ['\'']) rfl (by decide)

/-- **What the second half makes of a name.** -/
theorem syncTail_join (hbody : IsWord body) :
    syncTail (join (segments front body isBase uniqueID)) =
      settle (joinedBody front body) uniqueID := by
  obtain ⟨front', hbase⟩ : ∃ front',
      removeTargetStr (join (segments front body isBase uniqueID)) ".base".toList =
        join (segments front' (joinedBody front body) false uniqueID) := removeTargetStr_base hbody
  have hjoined : IsWord (joinedBody front body) := isWord_joinedBody hbody
  have hwords : ∀ segment ∈ segments front' (joinedBody front body) false uniqueID, IsWord segment :=
    fun segment hsegment => isWord_of_mem_segments hjoined hsegment
  have htracked : removeTargetStr (join (segments front' (joinedBody front body) false uniqueID))
      "trackedtype.".toList = _ := removeTargetStr_words (isWord_recordPrefix false) hwords
  have hblacklisted : removeTargetStr (join (dropWord (recordPrefix false)
      (segments front' (joinedBody front body) false uniqueID))) "blacklistedtype.".toList = _ :=
    removeTargetStr_words (isWord_recordPrefix true) (isWord_dropWord hwords)
  simp only [syncTail, List.foldl_cons, List.foldl_nil]
  rw [hbase, htracked, hblacklisted,
    removeTargetStr_quotes (isWord_dropWord (isWord_dropWord hwords)), dropWord_prefixes]
  exact removeTargetNum_prefixes hjoined

end Tail

/-! ## Up to `.base` -/

/-- The kinds of class whose dotted name is removed. -/
def classWords : List Name := ["class".toList, "struct".toList, "union".toList]

/-- The removals between `::` and `.base`. -/
def syncHead (text : Name) : Name :=
  ["class.".toList, "./".toList, "struct.".toList, "union.".toList].foldl removeTargetStr text

theorem syncTypeName_eq (targetStr : Name) :
    syncTypeName targetStr = syncTail (syncHead (removeTargetStr targetStr "::".toList)) := by
  unfold syncTypeName
  simp only [syncTail, syncHead, List.foldl_cons, List.foldl_nil]

/-- A segment that ends in an `e` or a digit, and so in no kind of class. -/
def EndsApart (segment : Name) : Prop :=
  ∃ c, segment.getLast? = some c ∧ (c = 'e' ∨ c.isDigit = true)

section Head

variable {front : Option Bool} {segment body word : Name} {isBase : Bool} {uniqueID : Option ℕ}

theorem EndsApart.append (h : EndsApart segment) (before : Name) : EndsApart (before ++ segment) := by
  obtain ⟨c, hlast, hc⟩ := h
  refine ⟨c, ?_, hc⟩
  rw [List.getLast?_append, hlast, Option.some_or]

theorem endsApart_decimal (n : ℕ) : EndsApart (decimal n) := by
  obtain ⟨hne, hdigits⟩ := digits_decimal n
  exact ⟨_, List.getLast?_eq_some_getLast hne, .inr (hdigits _ (List.getLast_mem hne))⟩

theorem endsApart_base : EndsApart "base".toList := ⟨'e', rfl, .inl rfl⟩

theorem endsApart_recordPrefix (isBlacklistedType : Bool) :
    EndsApart (recordPrefix isBlacklistedType) := by
  cases isBlacklistedType
  · exact ⟨'e', rfl, .inl rfl⟩
  · exact ⟨'e', rfl, .inl rfl⟩

/-- The last character of each kind. -/
theorem getLast?_classWord (h : word ∈ classWords) :
    word.getLast? = some 's' ∧ word = "class".toList ∨
      word.getLast? = some 't' ∧ word = "struct".toList ∨
      word.getLast? = some 'n' ∧ word = "union".toList := by
  simp only [classWords, List.mem_cons, List.not_mem_nil, or_false] at h
  rcases h with rfl | rfl | rfl
  · exact .inl ⟨rfl, rfl⟩
  · exact .inr (.inl ⟨rfl, rfl⟩)
  · exact .inr (.inr ⟨rfl, rfl⟩)

theorem getLast?_of_suffix (h : word <:+ segment) {c : Char} (hlast : word.getLast? = some c) :
    segment.getLast? = some c := by
  obtain ⟨before, rfl⟩ := h
  rw [List.getLast?_append, hlast, Option.some_or]

theorem EndsApart.not_suffix (h : EndsApart segment) (hword : word ∈ classWords) :
    ¬ word <:+ segment := by
  intro hsuffix
  obtain ⟨c, hlast, hc⟩ := h
  rcases getLast?_classWord hword with ⟨hkind, -⟩ | ⟨hkind, -⟩ | ⟨hkind, -⟩
  all_goals
    obtain rfl := Option.some.inj (hlast.symm.trans (getLast?_of_suffix hsuffix hkind))
    exact absurd hc (by decide)

/-- A segment ends in one kind at most. -/
theorem classWord_unique {word' : Name} (hword : word ∈ classWords) (hword' : word' ∈ classWords)
    (h : word <:+ segment) (h' : word' <:+ segment) : word = word' := by
  have hsame : ∀ {c c' : Char}, word.getLast? = some c → word'.getLast? = some c' → c = c' :=
    fun hc hc' => Option.some.inj
      ((getLast?_of_suffix h hc).symm.trans (getLast?_of_suffix h' hc'))
  rcases getLast?_classWord hword with ⟨hc, rfl⟩ | ⟨hc, rfl⟩ | ⟨hc, rfl⟩
  all_goals
    rcases getLast?_classWord hword' with ⟨hc', rfl⟩ | ⟨hc', rfl⟩ | ⟨hc', rfl⟩
    all_goals first | rfl | exact absurd (hsame hc hc') (by decide)

/-- Something stands behind the body. -/
def HasTail (isBase : Bool) (uniqueID : Option ℕ) : Prop :=
  isBase = true ∨ uniqueID.isSome = true

theorem mem_dropLast_segments
    (h : segment ∈ (segments front body isBase uniqueID).dropLast) :
    EndsApart segment ∨ segment = body ∧ HasTail isBase uniqueID := by
  have hrest : ∀ other ∈ (segments none body isBase uniqueID).dropLast,
      EndsApart other ∨ other = body ∧ HasTail isBase uniqueID := by
    intro other hother
    cases isBase with
    | false =>
        cases uniqueID with
        | none => cases hother
        | some n =>
            obtain rfl := List.mem_singleton.mp hother
            exact .inr ⟨rfl, .inr rfl⟩
    | true =>
        cases uniqueID with
        | none =>
            obtain rfl := List.mem_singleton.mp hother
            exact .inr ⟨rfl, .inl rfl⟩
        | some n =>
            rcases List.mem_pair.mp hother with rfl | rfl
            · exact .inr ⟨rfl, .inl rfl⟩
            · exact .inl endsApart_base
  cases front with
  | none => exact hrest segment h
  | some isBlacklistedType =>
      rcases (mem_dropLast_cons (List.cons_ne_nil _ _)).mp h with rfl | h
      · exact .inl (endsApart_recordPrefix isBlacklistedType)
      · exact hrest segment h

/-- A kind the body does not end in, or nothing behind the body. -/
theorem dropWord_class_kept (hword : word ∈ classWords)
    (h : HasTail isBase uniqueID → ¬ word <:+ body) :
    dropWord word (segments front body isBase uniqueID) = segments front body isBase uniqueID := by
  apply dropWord_eq_self
  intro segment hsegment
  rcases mem_dropLast_segments hsegment with hapart | ⟨rfl, htail⟩
  · exact hapart.not_suffix hword
  · exact h htail

/-- **A kind the body ends in**: what follows takes its place. -/
theorem dropWord_class_joined (hword : word ∈ classWords) (hbody : IsWord body)
    (htail : HasTail isBase uniqueID) (hsuffix : word <:+ body) :
    ∃ body' uniqueID', dropWord word (segments front body isBase uniqueID) =
      segments front body' false uniqueID' ∧ IsWord body' ∧ EndsApart body' := by
  have hcut : IsWord (cutWord word body) := hbody.of_subset (List.take_subset _ _)
  -- the body and what follows
  have hnone : ∃ body' uniqueID', dropWord word (segments none body isBase uniqueID) =
      segments none body' false uniqueID' ∧ IsWord body' ∧ EndsApart body' := by
    have hjoin : ∀ (next : Name) (uniqueID' : Option ℕ), IsWord next → EndsApart next →
        segments none body isBase uniqueID =
          body :: next :: uniqueID'.toList.map decimal →
        ∃ body' uniqueID', dropWord word (segments none body isBase uniqueID) =
          segments none body' false uniqueID' ∧ IsWord body' ∧ EndsApart body' := by
      intro next uniqueID' hnext hapart heq
      have hjoined := hapart.append (cutWord word body)
      have hkept : dropWord word (segments none (cutWord word body ++ next) false uniqueID') =
          segments none (cutWord word body ++ next) false uniqueID' :=
        dropWord_class_kept hword fun _ => hjoined.not_suffix hword
      refine ⟨cutWord word body ++ next, uniqueID', ?_, hcut.append hnext, hjoined⟩
      rw [heq, dropWord, if_pos hsuffix]
      exact hkept
    cases isBase with
    | true => exact hjoin _ uniqueID isWord_base endsApart_base rfl
    | false =>
        cases uniqueID with
        | none => exact absurd htail (by simp [HasTail])
        | some n => exact hjoin _ none (isWord_decimal n) (endsApart_decimal n) rfl
  obtain ⟨body', uniqueID', hdrop, hword', hapart⟩ := hnone
  cases front with
  | none => exact ⟨body', uniqueID', hdrop, hword', hapart⟩
  | some isBlacklistedType =>
      refine ⟨body', uniqueID', ?_, hword', hapart⟩
      have hfront := (endsApart_recordPrefix isBlacklistedType).not_suffix hword
      change dropWord word (recordPrefix isBlacklistedType :: body :: _) = _
      rw [dropWord, if_neg hfront]
      exact congrArg (recordPrefix isBlacklistedType :: ·) hdrop

/-- The first half, in segments. -/
theorem syncHead_join {segments : List Name} (h : ∀ segment ∈ segments, IsWord segment) :
    syncHead (join segments) =
      join (dropWord "union".toList (dropWord "struct".toList (dropWord "class".toList segments))) := by
  have hclass : removeTargetStr (join segments) "class.".toList = _ :=
    removeTargetStr_words (isWord_of_fixed (by simp) : IsWord "class".toList) h
  have hslash : removeTargetStr (join (dropWord "class".toList segments)) "./".toList = _ :=
    removeTargetStr_foreign (isWord_dropWord h) (by decide : '/' ∈ "./".toList) rfl (by decide)
  have hstruct : removeTargetStr (join (dropWord "class".toList segments)) "struct.".toList = _ :=
    removeTargetStr_words (isWord_of_fixed (by simp) : IsWord "struct".toList) (isWord_dropWord h)
  have hunion : removeTargetStr (join (dropWord "struct".toList (dropWord "class".toList segments)))
      "union.".toList = _ :=
    removeTargetStr_words (isWord_of_fixed (by simp) : IsWord "union".toList)
      (isWord_dropWord (isWord_dropWord h))
  simp only [syncHead, List.foldl_cons, List.foldl_nil]
  rw [hclass, hslash, hstruct, hunion]

end Head

/-! ## The identifier -/

/-- A removal touches the identifier: it starts with `base` right behind the prefix, or it ends
in a string that is removed with its dot and a dot follows. -/
def Touched (contexts : List Identifier) (id : Identifier) (isBase : Bool)
    (uniqueID : Option ℕ) : Prop :=
  (contexts = [] ∧ "base".toList <+: id.name) ∨
    (isBase = true ∧ ∃ word ∈ classWords, word <:+ id.name) ∨
    (uniqueID.isSome = true ∧
      ∃ word ∈ classWords ++ [recordPrefix false, recordPrefix true], word <:+ id.name)

section Decorated

variable (isBlacklistedType : Bool) (contexts : List Identifier) (id : Identifier)
  (isBase : Bool) (uniqueID : Option ℕ)

/-- The prefix goes with the scopes, if there are any. -/
def frontOf : Option Bool := if contexts = [] then some isBlacklistedType else none

theorem removeTargetStr_structName :
    removeTargetStr (structName isBlacklistedType contexts id isBase uniqueID) "::".toList =
      join (segments (frontOf isBlacklistedType contexts) id.name isBase uniqueID) := by
  -- only the scopes have colons
  have hfront : ':' ∉ recordPrefix isBlacklistedType ++ ['.'] := by
    rw [List.mem_append, not_or]
    exact ⟨(isWord_recordPrefix isBlacklistedType).notMem rfl, by decide⟩
  have hrest : ':' ∉ join (segments none id.name isBase uniqueID) := by
    intro hmem
    rcases mem_join hmem with hdot | ⟨segment, hsegment, hmem⟩
    · exact absurd hdot (by decide)
    · exact (isWord_of_mem_segments id.chars hsegment).notMem rfl hmem
  have htail : join (segments none id.name isBase uniqueID) =
      id.name ++ ((if isBase then ".base".toList else []) ++ numberText uniqueID) := by
    cases isBase with
    | true => exact join_isBase
    | false => exact join_not_isBase
  have hname : structName isBlacklistedType contexts id isBase uniqueID =
      recordPrefix isBlacklistedType ++ ['.'] ++
        (contexts.flatMap (fun context => context.name ++ "::".toList) ++
          join (segments none id.name isBase uniqueID)) := by
    rw [htail]
    cases uniqueID with
    | none =>
        simp only [structName, setName, addRecordTypeName, printQualifiedName, numberText,
          List.append_assoc, List.cons_append, List.nil_append, List.append_nil]
    | some n =>
        simp only [structName, setName, addRecordTypeName, printQualifiedName, numberText,
          List.append_assoc, List.cons_append, List.nil_append]
  rw [hname, removeTargetStr_scopes contexts hfront hrest, frontOf]
  split
  · rw [List.append_assoc, join_front, List.singleton_append]
  · rfl

variable {isBlacklistedType contexts id isBase uniqueID}

/-- Nothing of the first half touches it. -/
theorem syncTypeName_of_kept
    (h : HasTail isBase uniqueID → ∀ word ∈ classWords, ¬ word <:+ id.name) :
    syncTypeName (structName isBlacklistedType contexts id isBase uniqueID) =
      settle (joinedBody (frontOf isBlacklistedType contexts) id.name) uniqueID := by
  have hkept : ∀ word ∈ classWords,
      dropWord word (segments (frontOf isBlacklistedType contexts) id.name isBase uniqueID) =
        segments (frontOf isBlacklistedType contexts) id.name isBase uniqueID :=
    fun word hword => dropWord_class_kept hword fun htail => h htail word hword
  rw [syncTypeName_eq, removeTargetStr_structName,
    syncHead_join fun _ hsegment => isWord_of_mem_segments id.chars hsegment,
    hkept _ (by decide), hkept _ (by decide), hkept _ (by decide)]
  exact syncTail_join id.chars

theorem EndsApart.settle {body : Name} (h : EndsApart body) (uniqueID : Option ℕ) :
    EndsApart (settle body uniqueID) := by
  unfold Pass.settle
  split
  · exact h
  · next n =>
      split
      · exact (endsApart_decimal n).append _
      · split
        · exact (endsApart_decimal n).append _
        · exact h

theorem EndsApart.joinedBody {body : Name} (h : EndsApart body) (front : Option Bool) :
    EndsApart (joinedBody front body) := by
  unfold Pass.joinedBody
  split
  · exact h
  · next isBlacklistedType =>
      split
      · next hstart =>
          obtain ⟨rest, rfl⟩ := hstart
          have hdrop : ("base".toList ++ rest).drop "base".toList.length = rest := List.drop_left
          change EndsApart (recordPrefix isBlacklistedType ++
            ("base".toList ++ rest).drop "base".toList.length)
          rw [hdrop]
          by_cases hrest : rest = []
          · rw [hrest, List.append_nil]
            exact endsApart_recordPrefix isBlacklistedType
          · obtain ⟨c, hlast, hc⟩ := h
            refine ⟨c, ?_, hc⟩
            rwa [List.getLast?_append_of_ne_nil _ hrest] at hlast ⊢
      · exact h

/-- **A kind at the end of the identifier**: the result ends otherwise. -/
theorem endsApart_of_joined {word : Name} (hword : word ∈ classWords)
    (htail : HasTail isBase uniqueID) (hsuffix : word <:+ id.name) :
    EndsApart (syncTypeName (structName isBlacklistedType contexts id isBase uniqueID)) := by
  obtain ⟨body', uniqueID', hjoin, hbody', hapart⟩ : ∃ body' uniqueID',
      dropWord word (segments (frontOf isBlacklistedType contexts) id.name isBase uniqueID) =
        segments (frontOf isBlacklistedType contexts) body' false uniqueID' ∧
          IsWord body' ∧ EndsApart body' :=
    dropWord_class_joined hword id.chars htail hsuffix
  have hother : ∀ other ∈ classWords, other ≠ word →
      dropWord other (segments (frontOf isBlacklistedType contexts) id.name isBase uniqueID) =
        segments (frontOf isBlacklistedType contexts) id.name isBase uniqueID := by
    intro other hmem hne
    exact dropWord_class_kept hmem fun _ hsuffix' =>
      hne (classWord_unique hmem hword hsuffix' hsuffix)
  have hdone : ∀ other ∈ classWords,
      dropWord other (segments (frontOf isBlacklistedType contexts) body' false uniqueID') =
        segments (frontOf isBlacklistedType contexts) body' false uniqueID' :=
    fun other hmem => dropWord_class_kept hmem fun _ => hapart.not_suffix hmem
  have hhead : syncHead (join (segments (frontOf isBlacklistedType contexts) id.name isBase uniqueID)) =
      join (segments (frontOf isBlacklistedType contexts) body' false uniqueID') := by
    rw [syncHead_join fun _ hsegment => isWord_of_mem_segments id.chars hsegment]
    rcases getLast?_classWord hword with ⟨-, rfl⟩ | ⟨-, rfl⟩ | ⟨-, rfl⟩
    · rw [hjoin, hdone _ (by decide), hdone _ (by decide)]
    · rw [hother _ (by decide) (by decide), hjoin, hdone _ (by decide)]
    · rw [hother _ (by decide) (by decide), hother _ (by decide) (by decide), hjoin]
  rw [syncTypeName_eq, removeTargetStr_structName, hhead, syncTail_join hbody']
  exact (hapart.joinedBody _).settle _

/-- A prefix of a name at its end, with a number behind it. -/
theorem settle_ne {body : Name} {n : ℕ} {word : Name}
    (hword : word ∈ [recordPrefix false, recordPrefix true]) (hsuffix : word <:+ body)
    {name : Name} (hname : name.getLast? = some 'e') : settle body (some n) ≠ name := by
  have hdigit : ∀ before, before ++ decimal n ≠ name := by
    rintro before rfl
    obtain ⟨hne, hdigits⟩ := digits_decimal n
    rw [List.getLast?_append_of_ne_nil _ hne, List.getLast?_eq_some_getLast hne,
      Option.some.injEq] at hname
    have hlast := hdigits _ (List.getLast_mem hne)
    rw [hname] at hlast
    exact absurd hlast (by decide)
  have hsome : recordPrefix false <:+ body ∨ recordPrefix true <:+ body := by
    rcases List.mem_pair.mp hword with rfl | rfl
    · exact .inl hsuffix
    · exact .inr hsuffix
  rw [settle]
  by_cases htracked : recordPrefix false <:+ body
  · rw [if_pos htracked]
    exact hdigit _
  · rw [if_neg htracked, if_pos (hsome.resolve_left htracked)]
    exact hdigit _

theorem getLast?_of_prefix_word {word body : Name}
    (hword : word ∈ [recordPrefix false, recordPrefix true]) (hsuffix : word <:+ body) :
    body.getLast? = some 'e' := by
  apply getLast?_of_suffix hsuffix
  rcases List.mem_pair.mp hword with rfl | rfl
  · rfl
  · rfl

theorem joinedBody_eq_self (h : ¬ (contexts = [] ∧ "base".toList <+: id.name)) :
    joinedBody (frontOf isBlacklistedType contexts) id.name = id.name := by
  unfold frontOf
  split
  · next hcontexts => exact if_neg fun hstart => h ⟨hcontexts, hstart⟩
  · rfl

/-- A name that starts with `base` loses it. -/
theorem settle_joined_ne {rest : Name} :
    settle (recordPrefix isBlacklistedType ++ rest) uniqueID ≠ "base".toList ++ rest := by
  have hlonger : recordPrefix isBlacklistedType ++ rest ≠ "base".toList ++ rest := by
    intro heq
    have hsame := List.append_cancel_right heq
    revert hsame
    cases isBlacklistedType
    · decide
    · decide
  cases uniqueID with
  | none => exact hlonger
  | some n =>
      by_cases hends : ∃ word ∈ [recordPrefix false, recordPrefix true],
          word <:+ recordPrefix isBlacklistedType ++ rest
      · obtain ⟨word, hword, hsuffix⟩ := hends
        apply settle_ne hword hsuffix
        have hlast := getLast?_of_prefix_word hword hsuffix
        by_cases hrest : rest = []
        · rw [hrest]
          rfl
        · rwa [List.getLast?_append_of_ne_nil _ hrest] at hlast ⊢
      · push Not at hends
        have hkept : settle (recordPrefix isBlacklistedType ++ rest) (some n) =
            recordPrefix isBlacklistedType ++ rest := by
          rw [settle, if_neg (hends _ (List.mem_pair.mpr (.inl rfl))),
            if_neg (hends _ (List.mem_pair.mpr (.inr rfl)))]
        rw [hkept]
        exact hlonger

/-- **Touched identifiers are lost.** -/
theorem syncTypeName_ne (h : Touched contexts id isBase uniqueID) :
    syncTypeName (structName isBlacklistedType contexts id isBase uniqueID) ≠ id.name := by
  by_cases hkind : HasTail isBase uniqueID ∧ ∃ word ∈ classWords, word <:+ id.name
  · obtain ⟨htail, word, hword, hsuffix⟩ := hkind
    intro heq
    exact (heq ▸ endsApart_of_joined hword htail hsuffix).not_suffix hword hsuffix
  · rw [syncTypeName_of_kept fun htail word hword hsuffix => hkind ⟨htail, word, hword, hsuffix⟩]
    by_cases hstart : contexts = [] ∧ "base".toList <+: id.name
    · obtain ⟨hcontexts, rest, hrest⟩ := hstart
      have hdrop : ("base".toList ++ rest).drop "base".toList.length = rest := List.drop_left
      have hjoined : joinedBody (frontOf isBlacklistedType contexts) id.name =
          recordPrefix isBlacklistedType ++ rest := by
        rw [frontOf, if_pos hcontexts, ← hrest, joinedBody, if_pos (List.prefix_append _ _)]
        exact congrArg _ hdrop
      rw [hjoined, ← hrest]
      exact settle_joined_ne
    · rw [joinedBody_eq_self hstart]
      rcases h with h | ⟨hbase, hword⟩ | ⟨hnumber, word, hword, hsuffix⟩
      · exact absurd h hstart
      · exact absurd ⟨.inl hbase, hword⟩ hkind
      · rcases List.mem_append.mp hword with hclass | hrecord
        · exact absurd ⟨.inr hnumber, word, hclass, hsuffix⟩ hkind
        · obtain ⟨n, rfl⟩ := Option.isSome_iff_exists.mp hnumber
          exact settle_ne hrecord hsuffix (getLast?_of_prefix_word hrecord hsuffix)

/-- **Untouched identifiers come back.** -/
theorem syncTypeName_of_not_touched (h : ¬ Touched contexts id isBase uniqueID) :
    syncTypeName (structName isBlacklistedType contexts id isBase uniqueID) = id.name := by
  have hkind : HasTail isBase uniqueID → ∀ word ∈ classWords, ¬ word <:+ id.name := by
    rintro (hbase | hnumber) word hword hsuffix
    · exact h (.inr (.inl ⟨hbase, word, hword, hsuffix⟩))
    · exact h (.inr (.inr ⟨hnumber, word, List.mem_append_left _ hword, hsuffix⟩))
  rw [syncTypeName_of_kept hkind, joinedBody_eq_self fun hstart => h (.inl hstart)]
  cases uniqueID with
  | none => rfl
  | some n =>
      have hrecord : ∀ word ∈ [recordPrefix false, recordPrefix true], ¬ word <:+ id.name :=
        fun word hword hsuffix =>
          h (.inr (.inr ⟨rfl, word, List.mem_append_right _ hword, hsuffix⟩))
      rw [settle, if_neg (hrecord _ (List.mem_pair.mpr (.inl rfl))),
        if_neg (hrecord _ (List.mem_pair.mpr (.inr rfl)))]

end Decorated

/-- **When the identifier comes back.** -/
theorem syncTypeName_decorated_iff (isBlacklistedType : Bool) (contexts : List Identifier)
    (id : Identifier) (isBase : Bool) (uniqueID : Option ℕ) :
    syncTypeName (structName isBlacklistedType contexts id isBase uniqueID) = id.name ↔
      ¬ Touched contexts id isBase uniqueID :=
  ⟨fun heq htouched => syncTypeName_ne htouched heq, syncTypeName_of_not_touched⟩

/-- The class `Subclass` in no scope. -/
def subclass : Identifier where
  name := ['S', 'u', 'b', 'c', 'l', 'a', 's', 's']
  nonempty := List.cons_ne_nil _ _
  start := by simp
  chars := List.all_eq_true.mp rfl

/-- Its base subobject part is named `Subbase`. -/
theorem class_suffix_lost :
    ¬ ∀ isBlacklistedType contexts id isBase uniqueID,
      syncTypeName (structName isBlacklistedType contexts id isBase uniqueID) = id.name := by
  intro h
  have htouched : Touched [] subclass true none :=
    .inr (.inl ⟨rfl, "class".toList, List.mem_cons_self, ['S', 'u', 'b'], rfl⟩)
  exact syncTypeName_ne htouched (h false [] subclass true none)

end Bitype.Pass
