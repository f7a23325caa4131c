import Bitype.Foundations.Flowchart
import Mathlib.Data.List.Basic
import Mathlib.Order.Nat

/-!
# Expanding calls in place

A loop goes over the blocks of a function and looks in each for the first instruction that is to
be expanded.  If there is one, it emits the code behind it, erases it, and scans the same block
again; otherwise it goes on to the next block.  So it walks over a list that it changes.

The block that is scanned again has nothing left to expand, as little as the blocks of the
branches have.  What stood behind the instruction is in the last of the new blocks, so the loop
gets there too.  In the end each block has been replaced by what one emission of the whole of its
expanded code gives (`expandLoop_ends`).  `Expanded` says what follows for the function.
-/

namespace Bitype.Foundations.Flowchart

variable {ι : Type*}

/-- A function.  No label is used twice, and all of them are below the next one. -/
structure Chart (ι : Type*) where
  blocks : List (Block ι)
  nextLabel : ℕ
  nodup : (blocks.map (·.label)).Nodup
  below : ∀ block ∈ blocks, block.label < nextLabel
  closed : ∀ block ∈ blocks, ∀ target ∈ block.exit.targets, target < nextLabel

section Loop

-- the code of an instruction that is to be expanded
variable (expand : ι → Option (Code ι))

/-- The first instruction to be expanded: its position and its code. -/
def findFirst : List ι → Option (ℕ × Code ι)
  | [] => none
  | i :: rest =>
      match expand i with
      | some code => some (0, code)
      | none => (findFirst rest).map fun found => (found.1 + 1, found.2)

/-- Erase an instruction of the first block. -/
def eraseFromFirst (k : ℕ) : List (Block ι) → List (Block ι)
  | [] => []
  | first :: rest => { first with insts := first.insts.eraseIdx k } :: rest

/-- The loop, with the blocks it has passed and those it has not; the code is emitted behind the
instruction before that is erased. -/
def expandLoop : ℕ → List (Block ι) → List (Block ι) → ℕ → Option (List (Block ι) × ℕ)
  | 0, _, _, _ => none
  | _ + 1, passed, [], n => some (passed, n)
  | fuel + 1, passed, block :: rest, n =>
      match findFirst expand block.insts with
      | none => expandLoop fuel (passed ++ [block]) rest n
      | some (k, code) =>
          let emitted := emit code block.label (block.insts.take (k + 1)) (block.insts.drop (k + 1))
            block.exit n
          expandLoop fuel passed (eraseFromFirst k emitted.1 ++ rest) emitted.2

/-- Instructions with the code of those that are expanded in their place. -/
def codeOf : List ι → Code ι
  | [] => .done
  | i :: rest =>
      match expand i with
      | none => .inst i (codeOf rest)
      | some code => code.append (codeOf rest)

/-- All blocks, each emitted anew with its expanded code. -/
def emitAll : List (Block ι) → ℕ → List (Block ι) × ℕ
  | [], n => ([], n)
  | block :: rest, n =>
      let emitted := emit (codeOf expand block.insts) block.label [] [] block.exit n
      let others := emitAll rest emitted.2
      (emitted.1 ++ others.1, others.2)

/-- What stands for an instruction. -/
def expandInst (i : ι) : List ι :=
  match expand i with
  | none => [i]
  | some code => code.listing

/-- The instructions of a path, with a way through the code of each that is expanded in its
place. -/
inductive Expands : List ι → List ι → Prop
  | nil : Expands [] []
  | keep {i : ι} {insts t : List ι} (hkeep : expand i = none) (h : Expands insts t) :
      Expands (i :: insts) (i :: t)
  | replace {i : ι} {code : Code ι} {insts t t' : List ι} (hreplace : expand i = some code)
      (hcode : code.Trace t) (h : Expands insts t') : Expands (i :: insts) (t ++ t')

/-- Every instruction to be expanded has been, in its place, and only those. -/
structure Expanded (F F' : Chart ι) : Prop where
  noneLeft : ∀ block ∈ F'.blocks, ∀ i ∈ block.insts, expand i = none
  listing : listing F'.blocks = (listing F.blocks).flatMap (expandInst expand)
  entry : F'.blocks.head?.map (·.label) = F.blocks.head?.map (·.label)
  paths : ∀ l < F.nextLabel, ∀ (t : List ι) (last : Exit),
    (∀ target ∈ last.targets, target < F.nextLabel) →
      ((∃ m, PathFrom F'.blocks m l t last) ↔
        ∃ m t₀, PathFrom F.blocks m l t₀ last ∧ Expands expand t₀ t)

end Loop

/-! ## The code of a block -/

variable {expand : ι → Option (Code ι)}

theorem listing_codeOf (insts : List ι) :
    (codeOf expand insts).listing = insts.flatMap (expandInst expand) := by
  induction insts with
  | nil => rfl
  | cons i rest ih =>
      rw [codeOf, List.flatMap_cons]
      cases hexpand : expand i with
      | none => simp [expandInst, hexpand, Code.listing, ih]
      | some code => simp [expandInst, hexpand, ih]

theorem trace_codeOf {insts : List ι} : ∀ {t : List ι},
    (codeOf expand insts).Trace t ↔ Expands expand insts t := by
  induction insts with
  | nil =>
      intro t
      constructor
      · intro h
        cases h
        exact .nil
      · intro h
        cases h
        exact .done
  | cons i rest ih =>
      intro t
      cases hexpand : expand i with
      | none =>
          have hcode : codeOf expand (i :: rest) = .inst i (codeOf expand rest) := by
            simp [codeOf, hexpand]
          rw [hcode]
          constructor
          · intro h
            cases h with
            | inst h => exact .keep hexpand (ih.mp h)
          · intro h
            cases h with
            | keep _ h => exact .inst (ih.mpr h)
            | replace hreplace _ _ => exact absurd (hexpand.symm.trans hreplace) (by simp)
      | some code =>
          have hcode : codeOf expand (i :: rest) = code.append (codeOf expand rest) := by
            simp [codeOf, hexpand]
          rw [hcode, Code.trace_append]
          constructor
          · rintro ⟨t₁, t₂, rfl, h₁, h₂⟩
            exact .replace hexpand h₁ (ih.mp h₂)
          · intro h
            cases h with
            | keep hkeep _ => exact absurd (hexpand.symm.trans hkeep) (by simp)
            | replace hreplace hcode h =>
                obtain rfl := Option.some.inj (hexpand.symm.trans hreplace)
                exact ⟨_, _, rfl, hcode, ih.mpr h⟩

theorem expands_append {insts insts' : List ι} : ∀ {t : List ι},
    Expands expand (insts ++ insts') t ↔
      ∃ t₁ t₂, t = t₁ ++ t₂ ∧ Expands expand insts t₁ ∧ Expands expand insts' t₂ := by
  induction insts with
  | nil =>
      intro t
      constructor
      · exact fun h => ⟨[], t, rfl, .nil, h⟩
      · rintro ⟨t₁, t₂, rfl, h₁, h₂⟩
        cases h₁
        exact h₂
  | cons i rest ih =>
      intro t
      constructor
      · intro h
        cases h with
        | keep hkeep h =>
            obtain ⟨t₁, t₂, rfl, h₁, h₂⟩ := ih.mp h
            exact ⟨i :: t₁, t₂, rfl, .keep hkeep h₁, h₂⟩
        | replace hreplace hcode h =>
            obtain ⟨t₁, t₂, rfl, h₁, h₂⟩ := ih.mp h
            exact ⟨_, t₂, (List.append_assoc _ _ _).symm, .replace hreplace hcode h₁, h₂⟩
      · rintro ⟨t₁, t₂, rfl, h₁, h₂⟩
        cases h₁ with
        | keep hkeep h₁ => exact .keep hkeep (ih.mpr ⟨_, t₂, rfl, h₁, h₂⟩)
        | replace hreplace hcode h₁ =>
            rw [List.append_assoc]
            exact .replace hreplace hcode (ih.mpr ⟨_, t₂, rfl, h₁, h₂⟩)

/-! ## The loop -/

/-- Code emitted up to some point, and other code behind it. -/
theorem emit_open (code : Code ι) : ∀ (label : ℕ) (before : List ι) (n : ℕ),
    ∃ closed label' before' n', ∀ (code' : Code ι) (behind : List ι) (exit : Exit),
      emit (code.append code') label before behind exit n =
        (closed ++ (emit code' label' before' behind exit n').1,
          (emit code' label' before' behind exit n').2) := by
  induction code with
  | done => exact fun label before n => ⟨[], label, before, n, fun _ _ _ => rfl⟩
  | inst i rest ih => exact fun label before n => ih label (before ++ [i]) n
  | ifThen body rest _ ih =>
      intro label before n
      obtain ⟨closed, label', before', n', h⟩ :=
        ih n [] (emit body (n + 1) [] [] (.goto n) (n + 2)).2
      refine ⟨⟨label, before, .fork (n + 1) n⟩ ::
        ((emit body (n + 1) [] [] (.goto n) (n + 2)).1 ++ closed), label', before', n', ?_⟩
      intro code' behind exit
      simp [Code.append, emit, h]
  | ifThenElse thenBody elseBody rest _ _ ih =>
      intro label before n
      obtain ⟨closed, label', before', n', h⟩ := ih n [] (emit elseBody (n + 2) [] [] (.goto n)
        (emit thenBody (n + 1) [] [] (.goto n) (n + 3)).2).2
      refine ⟨⟨label, before, .fork (n + 1) (n + 2)⟩ ::
        ((emit thenBody (n + 1) [] [] (.goto n) (n + 3)).1 ++ ((emit elseBody (n + 2) [] []
          (.goto n) (emit thenBody (n + 1) [] [] (.goto n) (n + 3)).2).1 ++ closed)),
        label', before', n', ?_⟩
      intro code' behind exit
      simp [Code.append, emit, h]

/-- To erase the instruction afterwards is to emit the code without it. -/
theorem eraseFromFirst_emit (code : Code ι) : ∀ (label : ℕ) (before between behind : List ι) (i : ι)
    (exit : Exit) (n : ℕ),
    eraseFromFirst before.length (emit code label (before ++ i :: between) behind exit n).1 =
      (emit code label (before ++ between) behind exit n).1 := by
  have herase : ∀ (before between : List ι) (i : ι),
      (before ++ i :: between).eraseIdx before.length = before ++ between := by
    intro before between i
    simp [List.eraseIdx_append_of_length_le]
  induction code with
  | done =>
      intro label before between behind i exit n
      have := herase before (between ++ behind) i
      simpa [emit, eraseFromFirst] using this
  | inst j rest ih =>
      intro label before between behind i exit n
      simpa [emit] using ih label before (between ++ [j]) behind i exit n
  | ifThen body rest _ ih =>
      intro label before between behind i exit n
      simp [emit, eraseFromFirst, herase]
  | ifThenElse thenBody elseBody rest _ _ ih =>
      intro label before between behind i exit n
      simp [emit, eraseFromFirst, herase]

theorem findFirst_none {insts : List ι} (h : ∀ i ∈ insts, expand i = none) :
    findFirst expand insts = none := by
  induction insts with
  | nil => rfl
  | cons i rest ih =>
      have hi := h i List.mem_cons_self
      simp [findFirst, hi, ih fun j hj => h j (List.mem_cons_of_mem i hj)]

theorem findFirst_append {before behind : List ι} {i : ι} {code : Code ι}
    (h : ∀ i ∈ before, expand i = none) (hi : expand i = some code) :
    findFirst expand (before ++ i :: behind) = some (before.length, code) := by
  induction before with
  | nil => simp [findFirst, hi]
  | cons j rest ih =>
      have hj := h j List.mem_cons_self
      simp [findFirst, hj, ih fun k hk => h k (List.mem_cons_of_mem j hk)]

/-- The loop comes to an end with a result. -/
def LoopEnds (expand : ι → Option (Code ι)) (passed rest : List (Block ι)) (n : ℕ)
    (result : List (Block ι) × ℕ) : Prop :=
  ∃ fuel, expandLoop expand fuel passed rest n = some result

/-- The loop passes blocks in which there is nothing to expand. -/
theorem LoopEnds.pass {result : List (Block ι) × ℕ} {n : ℕ} : ∀ (blocks : List (Block ι))
    {passed rest : List (Block ι)}, (∀ i ∈ Flowchart.listing blocks, expand i = none) →
      LoopEnds expand (passed ++ blocks) rest n result →
      LoopEnds expand passed (blocks ++ rest) n result := by
  intro blocks
  induction blocks with
  | nil =>
      intro passed rest _ h
      rwa [List.append_nil] at h
  | cons block blocks ih =>
      intro passed rest hnone h
      have hfirst : ∀ i ∈ block.insts, expand i = none := fun i hi =>
        hnone i (List.mem_flatMap.mpr ⟨block, List.mem_cons_self, hi⟩)
      obtain ⟨fuel, hfuel⟩ := @ih (passed ++ [block]) rest (fun i hi => by
        obtain ⟨b, hb, hib⟩ := List.mem_flatMap.mp hi
        exact hnone i (List.mem_flatMap.mpr ⟨b, List.mem_cons_of_mem _ hb, hib⟩))
        (by simpa using h)
      exact ⟨fuel + 1, by rw [List.cons_append, expandLoop, findFirst_none hfirst]; exact hfuel⟩

/-- The loop expands the first instruction of a block that is to be, and scans again. -/
theorem LoopEnds.rescan {label n : ℕ} {before behind : List ι} {i : ι} {code : Code ι} {exit : Exit}
    {passed rest : List (Block ι)} {result : List (Block ι) × ℕ}
    (hbefore : ∀ j ∈ before, expand j = none) (hexpand : expand i = some code)
    (h : LoopEnds expand passed ((emit code label before behind exit n).1 ++ rest)
      (emit code label before behind exit n).2 result) :
    LoopEnds expand passed (⟨label, before ++ i :: behind, exit⟩ :: rest) n result := by
  obtain ⟨fuel, hfuel⟩ := h
  refine ⟨fuel + 1, ?_⟩
  have hfirst := @findFirst_append ι expand before behind i code hbefore hexpand
  have htake : (before ++ i :: behind).take (before.length + 1) = before ++ [i] := by
    rw [List.append_cons, List.take_left' (by simp)]
  have hdrop : (before ++ i :: behind).drop (before.length + 1) = behind := by
    rw [List.append_cons, List.drop_left' (by simp)]
  have herase := eraseFromFirst_emit code label before [] behind i exit n
  have hcounter := emit_counter code label label (before ++ [i]) before behind behind exit exit n
  rw [expandLoop]
  simp only [hfirst, htake, hdrop, herase, hcounter, List.append_nil]
  exact hfuel

/-- **One block.** The loop leaves what one emission of the whole expanded code gives. -/
theorem LoopEnds.block (hfree : ∀ i code, expand i = some code → ∀ j ∈ code.listing, expand j = none)
    {exit : Exit} {rest : List (Block ι)} {result : List (Block ι) × ℕ} :
    ∀ (behind : List ι) {label n : ℕ} {before : List ι} {passed : List (Block ι)},
      (∀ i ∈ before, expand i = none) →
      LoopEnds expand (passed ++ (emit (codeOf expand behind) label before [] exit n).1) rest
        (emit (codeOf expand behind) label before [] exit n).2 result →
      LoopEnds expand passed (⟨label, before ++ behind, exit⟩ :: rest) n result := by
  intro behind
  induction behind with
  | nil =>
      intro label n before passed hbefore h
      rw [codeOf, emit, List.append_nil] at h
      rw [List.append_nil]
      exact LoopEnds.pass [⟨label, before, exit⟩] (by simpa [Flowchart.listing] using hbefore) h
  | cons i behind ih =>
      intro label n before passed hbefore h
      cases hexpand : expand i with
      | none =>
          rw [List.append_cons]
          apply ih (fun j hj => ?_)
          · simpa [codeOf, hexpand, emit] using h
          · rcases List.mem_append.mp hj with hj | hj
            · exact hbefore j hj
            · rwa [List.mem_singleton.mp hj]
      | some code =>
          obtain ⟨closed, label', before', n', hopen⟩ := emit_open code label before n
          have hemitted : emit code label before behind exit n =
              (closed ++ [⟨label', before' ++ behind, exit⟩], n') := by
            simpa [emit] using hopen .done behind exit
          -- what stands in front of the rest of the block came from before or from the code
          have hnone : ∀ j ∈ Flowchart.listing closed ++ before', expand j = none := by
            have hinsts := emit_insts code label before [] exit n
            have hdone : emit code label before [] exit n = (closed ++ [⟨label', before', exit⟩], n') := by
              simpa [emit] using hopen .done [] exit
            intro j hj
            have hmem : j ∈ before ++ (code.listing ++ []) := by
              rw [← hinsts, hdone]
              simpa [Flowchart.listing] using hj
            rcases List.mem_append.mp hmem with hj | hj
            · exact hbefore j hj
            · exact hfree i code hexpand j (by simpa using hj)
          have hlater : LoopEnds expand (passed ++ closed)
              (⟨label', before' ++ behind, exit⟩ :: rest) n' result := by
            apply ih (fun j hj => hnone j (List.mem_append_right _ hj))
            simpa [codeOf, hexpand, hopen] using h
          have hrescan : LoopEnds expand passed
              (closed ++ ⟨label', before' ++ behind, exit⟩ :: rest) n' result :=
            LoopEnds.pass closed (fun j hj => hnone j (List.mem_append_left _ hj)) hlater
          apply LoopEnds.rescan hbefore hexpand
          simpa [hemitted] using hrescan

/-- **The loop ends.** Every block has been emitted anew with its expanded code. -/
theorem expandLoop_ends
    (hfree : ∀ i code, expand i = some code → ∀ j ∈ code.listing, expand j = none) :
    ∀ (blocks passed : List (Block ι)) (n : ℕ), LoopEnds expand passed blocks n
      (passed ++ (emitAll expand blocks n).1, (emitAll expand blocks n).2) := by
  intro blocks
  induction blocks with
  | nil => exact fun passed n => ⟨1, by simp [expandLoop, emitAll]⟩
  | cons block rest ih =>
      intro passed n
      have hrest := ih (passed ++ (emit (codeOf expand block.insts) block.label [] [] block.exit n).1)
        (emit (codeOf expand block.insts) block.label [] [] block.exit n).2
      have hblock : LoopEnds expand passed
          (⟨block.label, [] ++ block.insts, block.exit⟩ :: rest) n
          (passed ++ (emitAll expand (block :: rest) n).1, (emitAll expand (block :: rest) n).2) :=
        LoopEnds.block hfree block.insts (fun i hi => nomatch hi) (by simpa [emitAll] using hrest)
      exact hblock

theorem expandLoop_succ : ∀ (fuel : ℕ) {passed rest : List (Block ι)} {n : ℕ}
    {result : List (Block ι) × ℕ}, expandLoop expand fuel passed rest n = some result →
      expandLoop expand (fuel + 1) passed rest n = some result := by
  intro fuel
  induction fuel with
  | zero => exact fun h => nomatch h
  | succ fuel ih =>
      intro passed rest n result h
      cases rest with
      | nil => exact h
      | cons block rest =>
          rw [expandLoop] at h ⊢
          split at h
          · next hnone => simpa [hnone] using ih h
          · next k code hfound => simpa [hfound] using ih h

theorem expandLoop_mono {passed rest : List (Block ι)} {n fuel fuel' : ℕ}
    {result : List (Block ι) × ℕ} (hle : fuel ≤ fuel')
    (h : expandLoop expand fuel passed rest n = some result) :
    expandLoop expand fuel' passed rest n = some result := by
  induction hle with
  | refl => exact h
  | step _ ih => exact expandLoop_succ _ ih

/-! ## The result -/

theorem emitAll_counter_le (expand : ι → Option (Code ι)) : ∀ (blocks : List (Block ι)) (n : ℕ),
    n ≤ (emitAll expand blocks n).2 := by
  intro blocks
  induction blocks with
  | nil => exact fun n => le_rfl
  | cons block rest ih =>
      intro n
      exact (emit_counter_le _ block.label [] [] block.exit n).trans (ih _)

/-- The labels that were there, and new ones. -/
theorem emitAll_labels : ∀ (blocks : List (Block ι)) (n : ℕ), (blocks.map (·.label)).Nodup →
    (∀ block ∈ blocks, block.label < n) →
      ((emitAll expand blocks n).1.map (·.label)).Nodup ∧
        ∀ block ∈ (emitAll expand blocks n).1, (∃ b ∈ blocks, b.label = block.label) ∨
          n ≤ block.label ∧ block.label < (emitAll expand blocks n).2 := by
  intro blocks
  induction blocks with
  | nil => exact fun n _ _ => ⟨List.nodup_nil, fun block hblock => nomatch hblock⟩
  | cons b rest ih =>
      intro n hnodup hbelow
      obtain ⟨hb, hrest⟩ := List.nodup_cons.mp hnodup
      have hlabel := hbelow b List.mem_cons_self
      have hfirst := emit_labels (codeOf expand b.insts) b.label [] [] b.exit n hlabel
      have hle := emit_counter_le (codeOf expand b.insts) b.label [] [] b.exit n
      obtain ⟨hnodup', hlabels'⟩ := ih (emit (codeOf expand b.insts) b.label [] [] b.exit n).2 hrest
        fun block hblock => (hbelow block (List.mem_cons_of_mem b hblock)).trans_le hle
      have hle' := emitAll_counter_le expand rest
        (emit (codeOf expand b.insts) b.label [] [] b.exit n).2
      simp only [emitAll, List.map_append]
      constructor
      · refine List.nodup_append.mpr ⟨hfirst.nodup, hnodup', fun l hl l' hl' => ?_⟩
        obtain ⟨block, hblock, rfl⟩ := List.mem_map.mp hl'
        rintro rfl
        -- a label of the rest was there before, or is newer than those of the first block
        rcases hlabels' block hblock with ⟨b', hb', hsame⟩ | hnew
        · have hless := hbelow b' (List.mem_cons_of_mem b hb')
          rcases hfirst.new _ hl with hl | hl
          · exact hb (List.mem_map.mpr ⟨b', hb', hsame.trans hl⟩)
          · omega
        · rcases hfirst.new _ hl with hl | hl <;> omega
      · intro block hblock
        rcases List.mem_append.mp hblock with hblock | hblock
        · rcases hfirst.new _ (List.mem_map_of_mem hblock) with hl | hl
          · exact .inl ⟨b, List.mem_cons_self, hl.symm⟩
          · exact .inr ⟨hl.1, hl.2.trans_le hle'⟩
        · rcases hlabels' block hblock with ⟨b', hb', hsame⟩ | hnew
          · exact .inl ⟨b', List.mem_cons_of_mem b hb', hsame⟩
          · exact .inr ⟨hle.trans hnew.1, hnew.2⟩

theorem emitAll_closed : ∀ (blocks : List (Block ι)) (n : ℕ),
    (∀ block ∈ blocks, ∀ target ∈ block.exit.targets, target < n) →
      ∀ block ∈ (emitAll expand blocks n).1, ∀ target ∈ block.exit.targets,
        target < (emitAll expand blocks n).2 := by
  intro blocks
  induction blocks with
  | nil => exact fun n _ block hblock => nomatch hblock
  | cons b rest ih =>
      intro n hclosed block hblock target htarget
      have hle := emit_counter_le (codeOf expand b.insts) b.label [] [] b.exit n
      have hle' := emitAll_counter_le expand rest
        (emit (codeOf expand b.insts) b.label [] [] b.exit n).2
      rcases List.mem_append.mp hblock with hblock | hblock
      · rcases emit_exits _ b.label [] [] b.exit n block hblock with hexit | hnew
        · rw [hexit] at htarget
          exact (hclosed b List.mem_cons_self target htarget).trans_le (hle.trans hle')
        · exact (hnew target htarget).trans_le hle'
      · exact ih _ (fun b' hb' target htarget =>
          (hclosed b' (List.mem_cons_of_mem b hb') target htarget).trans_le hle) block hblock target
            htarget

/-- What a block has been replaced by. -/
theorem emitAll_mem : ∀ (blocks : List (Block ι)) (n : ℕ), ∀ b ∈ blocks, ∃ n' ≥ n,
    ∀ block ∈ (emit (codeOf expand b.insts) b.label [] [] b.exit n').1,
      block ∈ (emitAll expand blocks n).1 := by
  intro blocks
  induction blocks with
  | nil => exact fun n b hb => nomatch hb
  | cons first rest ih =>
      intro n b hb
      rcases List.mem_cons.mp hb with rfl | hb
      · exact ⟨n, le_rfl, fun block hblock => List.mem_append_left _ hblock⟩
      · obtain ⟨n', hn', hmem⟩ := ih _ b hb
        have hle := emit_counter_le (codeOf expand first.insts) first.label [] [] first.exit n
        exact ⟨n', hle.trans hn', fun block hblock => List.mem_append_right _ (hmem block hblock)⟩

theorem listing_emitAll : ∀ (blocks : List (Block ι)) (n : ℕ),
    listing (emitAll expand blocks n).1 = (listing blocks).flatMap (expandInst expand) := by
  intro blocks
  induction blocks with
  | nil => exact fun n => rfl
  | cons b rest ih =>
      intro n
      have hfirst := emit_insts (codeOf expand b.insts) b.label [] [] b.exit n
      have hothers := ih (emit (codeOf expand b.insts) b.label [] [] b.exit n).2
      simp only [listing, List.nil_append, List.append_nil] at hfirst hothers ⊢
      simp [emitAll, hfirst, hothers, listing_codeOf]

/-- The function that the loop leaves. -/
def Chart.expanded (expand : ι → Option (Code ι)) (F : Chart ι) : Chart ι where
  blocks := (emitAll expand F.blocks F.nextLabel).1
  nextLabel := (emitAll expand F.blocks F.nextLabel).2
  nodup := (emitAll_labels F.blocks F.nextLabel F.nodup F.below).1
  below := by
    intro block hblock
    have hle := emitAll_counter_le expand F.blocks F.nextLabel
    rcases (emitAll_labels F.blocks F.nextLabel F.nodup F.below).2 block hblock with
      ⟨b, hb, hlabel⟩ | hnew
    · rw [← hlabel]
      exact (F.below b hb).trans_le hle
    · exact hnew.2
  closed := emitAll_closed F.blocks F.nextLabel F.closed

variable {F : Chart ι}

/-- An old label is that of an old block. -/
theorem Chart.expanded_old {block : Block ι} (hblock : block ∈ (F.expanded expand).blocks)
    (hold : block.label < F.nextLabel) : ∃ b ∈ F.blocks, b.label = block.label := by
  rcases (emitAll_labels F.blocks F.nextLabel F.nodup F.below).2 block hblock with h | hnew
  · exact h
  · omega

/-- A path of the result is a path of the function, expanded. -/
theorem Chart.expanded_path {last : Exit} (hlast : ∀ target ∈ last.targets, target < F.nextLabel)
    {m : ℕ} : ∀ {l : ℕ} {t : List ι}, l < F.nextLabel →
      PathFrom (F.expanded expand).blocks m l t last →
        ∃ m t₀, PathFrom F.blocks m l t₀ last ∧ Expands expand t₀ t := by
  induction m using Nat.strong_induction_on with
  | _ m ih =>
      intro l t hl h
      obtain ⟨b, hb, rfl⟩ : ∃ b ∈ F.blocks, b.label = l := by
        obtain ⟨block, hblock, rfl, -⟩ := h
        exact F.expanded_old hblock hl
      obtain ⟨n, hn, hmem⟩ := emitAll_mem F.blocks F.nextLabel b hb
      obtain ⟨t₁, t₂, k, hk, ht₁, hpath, rfl⟩ := emit_enters (codeOf expand b.insts)
        (F.expanded expand).nodup hlast b.label [] [] b.exit n hn hmem h
      have hblock := trace_codeOf.mp ht₁
      rcases path_exit.mp hpath with ⟨-, rfl, rfl⟩ | ⟨k, l, rfl, hl, hnext⟩
      · exact ⟨0, b.insts, ⟨b, hb, rfl, .stop⟩, by simpa using hblock⟩
      · obtain ⟨m', t₀, ⟨b', hb', rfl, hpath₀⟩, hexpands⟩ :=
          ih k (by omega) (F.closed b hb l hl) hnext
        refine ⟨m' + 1, b.insts ++ t₀, ⟨b, hb, rfl, .step hb' hl hpath₀⟩, ?_⟩
        exact expands_append.mpr ⟨t₁, t₂, rfl, hblock, hexpands⟩

/-- And every path of the function can be expanded. -/
theorem Chart.path_expanded {last : Exit} {m : ℕ} : ∀ {l : ℕ} {t₀ t : List ι},
    PathFrom F.blocks m l t₀ last → Expands expand t₀ t →
      ∃ m, PathFrom (F.expanded expand).blocks m l t last := by
  induction m with
  | zero =>
      rintro l t₀ t ⟨b, hb, rfl, h⟩ hexpands
      obtain ⟨n, -, hmem⟩ := emitAll_mem F.blocks F.nextLabel b hb
      cases h with
      | stop =>
          obtain ⟨m, hm⟩ := emit_leaves (codeOf expand b.insts) b.label [] [] b.exit n hmem
            (trace_codeOf.mpr hexpands) .stop
          rw [List.append_nil, List.nil_append] at hm
          exact ⟨m, hm⟩
  | succ m ih =>
      rintro l t₀ t ⟨b, hb, rfl, h⟩ hexpands
      obtain ⟨n, -, hmem⟩ := emitAll_mem F.blocks F.nextLabel b hb
      cases h with
      | @step _ _ trace _ _ block hblock htarget hpath =>
          obtain ⟨t₁, t₂, rfl, h₁, h₂⟩ := expands_append.mp hexpands
          obtain ⟨k, hk⟩ := ih ⟨block, hblock, rfl, hpath⟩ h₂
          obtain ⟨m', hm'⟩ := emit_leaves (codeOf expand b.insts) b.label [] [] b.exit n hmem
            (trace_codeOf.mpr h₁) (path_exit.mpr (.inr ⟨k, block.label, rfl, htarget, hk⟩))
          exact ⟨m', hm'⟩

/-- **The loop expands** what is to be expanded, where the code itself holds nothing of it. -/
theorem Chart.expanded_spec (F : Chart ι)
    (hfree : ∀ i code, expand i = some code → ∀ j ∈ code.listing, expand j = none) :
    Expanded expand F (F.expanded expand) where
  noneLeft := by
    intro block hblock i hi
    have hmem : i ∈ listing (F.expanded expand).blocks := List.mem_flatMap.mpr ⟨block, hblock, hi⟩
    rw [Chart.expanded, listing_emitAll] at hmem
    obtain ⟨j, -, hj⟩ := List.mem_flatMap.mp hmem
    unfold expandInst at hj
    split at hj
    · next hnone => rwa [List.mem_singleton.mp hj]
    · next code hcode => exact hfree j code hcode i hj
  listing := listing_emitAll F.blocks F.nextLabel
  entry := by
    -- the first block keeps its label, whatever is spliced into it
    have hhead : ∀ (blocks : List (Block ι)) (n : ℕ), (∀ block ∈ blocks, block.label < n) →
        (emitAll expand blocks n).1.head?.map (·.label) = blocks.head?.map (·.label) := by
      intro blocks n hbelow
      cases blocks with
      | nil => rfl
      | cons b rest =>
          have hfirst := (emit_labels (codeOf expand b.insts) b.label [] [] b.exit n
            (hbelow b List.mem_cons_self)).head
          cases hemitted : (emit (codeOf expand b.insts) b.label [] [] b.exit n).1 with
          | nil =>
              rw [hemitted] at hfirst
              cases hfirst
          | cons first others =>
              rw [hemitted] at hfirst
              simpa [emitAll, hemitted] using hfirst
    exact hhead F.blocks F.nextLabel F.below
  paths := fun l hl t last hlast =>
    ⟨fun ⟨_, hm⟩ => F.expanded_path hlast hl hm, fun ⟨_, _, hpath, hexpands⟩ =>
      F.path_expanded hpath hexpands⟩

/-! ## All functions -/

/-- The loop over the functions of a module. -/
def expandFunctions (expand : ι → Option (Code ι)) (fuel : ℕ) :
    List (Chart ι) → Option (List (List (Block ι) × ℕ))
  | [] => some []
  | F :: rest => do
      let first ← expandLoop expand fuel [] F.blocks F.nextLabel
      let others ← expandFunctions expand fuel rest
      some (first :: others)

/-- The loop over the functions ends, with functions in which everything has been expanded. -/
structure ExpandsAll (expand : ι → Option (Code ι)) (functions functions' : List (Chart ι)) : Prop
    where
  ends : ∃ fuel, expandFunctions expand fuel functions =
    some (functions'.map fun F => (F.blocks, F.nextLabel))
  only : ∀ fuel result, expandFunctions expand fuel functions = some result →
    result = functions'.map fun F => (F.blocks, F.nextLabel)
  expanded : List.Forall₂ (Expanded expand) functions functions'

theorem expandFunctions_mono {fuel fuel' : ℕ} (hle : fuel ≤ fuel') : ∀ {functions : List (Chart ι)}
    {result : List (List (Block ι) × ℕ)}, expandFunctions expand fuel functions = some result →
      expandFunctions expand fuel' functions = some result := by
  intro functions
  induction functions with
  | nil => exact fun h => h
  | cons F rest ih =>
      intro result h
      obtain ⟨first, hfirst, h⟩ := Option.bind_eq_some_iff.mp h
      obtain ⟨others, hothers, h⟩ := Option.bind_eq_some_iff.mp h
      rw [expandFunctions, expandLoop_mono hle hfirst, ih hothers]
      exact h

/-- **All functions are expanded**, if the code of what is expanded holds nothing to expand. -/
theorem expandsAll
    (hfree : ∀ i code, expand i = some code → ∀ j ∈ code.listing, expand j = none) :
    ∀ functions : List (Chart ι), ExpandsAll expand functions (functions.map (·.expanded expand)) := by
  have hends : ∀ functions : List (Chart ι), ∃ fuel, expandFunctions expand fuel functions =
      some ((functions.map (·.expanded expand)).map fun F => (F.blocks, F.nextLabel)) := by
    intro functions
    induction functions with
    | nil => exact ⟨0, rfl⟩
    | cons F rest ih =>
        obtain ⟨fuel, hfuel⟩ := expandLoop_ends hfree F.blocks [] F.nextLabel
        obtain ⟨fuel', hfuel'⟩ := ih
        refine ⟨max fuel fuel', ?_⟩
        rw [expandFunctions, expandLoop_mono (le_max_left fuel fuel') hfuel,
          expandFunctions_mono (le_max_right fuel fuel') hfuel']
        rfl
  intro functions
  refine ⟨hends functions, fun fuel result h => ?_, ?_⟩
  · obtain ⟨fuel', hfuel'⟩ := hends functions
    have hsame := expandFunctions_mono (le_max_left fuel fuel') h
    rw [expandFunctions_mono (le_max_right fuel fuel') hfuel'] at hsame
    exact (Option.some.inj hsame).symm
  · induction functions with
    | nil => exact .nil
    | cons F rest ih => exact .cons (F.expanded_spec hfree) ih

end Bitype.Foundations.Flowchart
