import Mathlib.Data.List.Nodup

/-!
# Code that is spliced into blocks

A function is a list of blocks; control goes from a block to the blocks that its exit names by
their labels.  `emit` puts code with branches into the middle of a block.  The block is split at
the first branch, so that what stood behind the code, and the exit of the block, come to stand in
a block that was not there before.

The blocks keep the order in which their code was written (`emit_insts`), and a path through them
is a path through the code (`emit_enters`, `emit_leaves`).  The label of a block says whether it
is new, so a path cannot stop in the middle of the code if it ends at an exit that leads to blocks
that were there before.
-/

namespace Bitype.Foundations.Flowchart

/-! ## Blocks -/

/-- Where control goes behind a block. -/
inductive Exit
  | goto (target : ℕ)
  | fork (ifTrue ifFalse : ℕ)
  | other (id : ℕ) (successors : List ℕ)

def Exit.targets : Exit → List ℕ
  | goto target => [target]
  | fork ifTrue ifFalse => [ifTrue, ifFalse]
  | other _ successors => successors

structure Block (ι : Type*) where
  label : ℕ
  insts : List ι
  exit : Exit

/-- The instructions of blocks, in the order they are written down. -/
def listing {ι : Type*} (blocks : List (Block ι)) : List ι := blocks.flatMap (·.insts)

/-- Instructions with an exit behind them, continued through `m` further blocks up to some other
exit; `trace` has the instructions on the way. -/
inductive Path {ι : Type*} (blocks : List (Block ι)) : ℕ → List ι → Exit → List ι → Exit → Prop
  | stop {insts : List ι} {exit : Exit} : Path blocks 0 insts exit insts exit
  | step {m : ℕ} {insts trace : List ι} {exit last : Exit} {block : Block ι}
      (hmem : block ∈ blocks) (htarget : block.label ∈ exit.targets)
      (h : Path blocks m block.insts block.exit trace last) :
      Path blocks (m + 1) insts exit (insts ++ trace) last

/-- A path from the start of the block with a label. -/
def PathFrom {ι : Type*} (blocks : List (Block ι)) (m l : ℕ) (trace : List ι) (last : Exit) : Prop :=
  ∃ block ∈ blocks, block.label = l ∧ Path blocks m block.insts block.exit trace last

section Paths

variable {ι : Type*} {blocks : List (Block ι)} {m l : ℕ} {insts trace : List ι} {exit last : Exit}

/-- What comes first on a path. -/
theorem path_append {before : List ι} : Path blocks m (before ++ insts) exit trace last ↔
    ∃ rest, trace = before ++ rest ∧ Path blocks m insts exit rest last := by
  constructor
  · intro h
    cases h with
    | stop => exact ⟨insts, rfl, .stop⟩
    | @step m _ trace _ _ block hmem htarget h =>
        exact ⟨insts ++ trace, List.append_assoc _ _ _, .step hmem htarget h⟩
  · rintro ⟨rest, rfl, h⟩
    cases h with
    | stop => exact .stop
    | @step m _ trace _ _ block hmem htarget h =>
        rw [← List.append_assoc]
        exact .step hmem htarget h

theorem path_nil {before : List ι} : Path blocks m before exit trace last ↔
    ∃ rest, trace = before ++ rest ∧ Path blocks m [] exit rest last := by
  rw [← path_append, List.append_nil]

/-- A path behind an exit ends there or goes on at one of its targets. -/
theorem path_exit : Path blocks m [] exit trace last ↔
    (m = 0 ∧ trace = [] ∧ last = exit) ∨
      ∃ k l, m = k + 1 ∧ l ∈ exit.targets ∧ PathFrom blocks k l trace last := by
  constructor
  · intro h
    cases h with
    | stop => exact .inl ⟨rfl, rfl, rfl⟩
    | step hmem htarget h => exact .inr ⟨_, _, rfl, htarget, _, hmem, rfl, h⟩
  · rintro (⟨rfl, rfl, rfl⟩ | ⟨k, l, rfl, htarget, block, hmem, rfl, h⟩)
    · exact .stop
    · exact .step hmem htarget h

/-- A label stands for one block. -/
theorem eq_of_label (hnodup : (blocks.map (·.label)).Nodup) {b b' : Block ι} (hb : b ∈ blocks)
    (hb' : b' ∈ blocks) (hlabel : b.label = b'.label) : b = b' :=
  List.inj_on_of_nodup_map hnodup hb hb' hlabel

end Paths

/-! ## Code -/

/-- Code that is emitted in front of an instruction, branch after branch. -/
inductive Code (ι : Type*)
  | done
  | inst (i : ι) (rest : Code ι)
  | ifThen (body rest : Code ι)
  | ifThenElse (thenBody elseBody rest : Code ι)

namespace Code

variable {ι : Type*}

def append : Code ι → Code ι → Code ι
  | done, code => code
  | inst i rest, code => inst i (rest.append code)
  | ifThen body rest, code => ifThen body (rest.append code)
  | ifThenElse thenBody elseBody rest, code => ifThenElse thenBody elseBody (rest.append code)

/-- All instructions, in the order they are written down. -/
def listing : Code ι → List ι
  | done => []
  | inst i rest => i :: rest.listing
  | ifThen body rest => body.listing ++ rest.listing
  | ifThenElse thenBody elseBody rest => thenBody.listing ++ (elseBody.listing ++ rest.listing)

/-- The instructions on a way through the code. -/
inductive Trace : Code ι → List ι → Prop
  | done : Trace .done []
  | inst {i : ι} {rest : Code ι} {t : List ι} (h : Trace rest t) : Trace (.inst i rest) (i :: t)
  | taken {body rest : Code ι} {t t' : List ι} (hbody : Trace body t) (h : Trace rest t') :
      Trace (.ifThen body rest) (t ++ t')
  | skipped {body rest : Code ι} {t : List ι} (h : Trace rest t) : Trace (.ifThen body rest) t
  | thenTaken {thenBody elseBody rest : Code ι} {t t' : List ι} (hbody : Trace thenBody t)
      (h : Trace rest t') : Trace (.ifThenElse thenBody elseBody rest) (t ++ t')
  | elseTaken {thenBody elseBody rest : Code ι} {t t' : List ι} (hbody : Trace elseBody t)
      (h : Trace rest t') : Trace (.ifThenElse thenBody elseBody rest) (t ++ t')

@[simp] theorem append_done (code : Code ι) : code.append .done = code := by
  induction code with
  | done => rfl
  | inst i rest ih => rw [append, ih]
  | ifThen body rest _ ih => rw [append, ih]
  | ifThenElse thenBody elseBody rest _ _ ih => rw [append, ih]

@[simp] theorem listing_append (code code' : Code ι) :
    (code.append code').listing = code.listing ++ code'.listing := by
  induction code with
  | done => rfl
  | inst i rest ih => simp [append, listing, ih]
  | ifThen body rest _ ih => simp [append, listing, ih]
  | ifThenElse thenBody elseBody rest _ _ ih => simp [append, listing, ih]

/-- A way through code and then through other code. -/
theorem trace_append {code code' : Code ι} {t : List ι} :
    (code.append code').Trace t ↔ ∃ t₁ t₂, t = t₁ ++ t₂ ∧ code.Trace t₁ ∧ code'.Trace t₂ := by
  induction code generalizing t with
  | done =>
      constructor
      · exact fun h => ⟨[], t, rfl, .done, h⟩
      · rintro ⟨t₁, t₂, rfl, h₁, h₂⟩
        cases h₁
        exact h₂
  | inst i rest ih =>
      constructor
      · intro h
        cases h with
        | inst h =>
            obtain ⟨t₁, t₂, rfl, h₁, h₂⟩ := ih.mp h
            exact ⟨i :: t₁, t₂, rfl, .inst h₁, h₂⟩
      · rintro ⟨t₁, t₂, rfl, h₁, h₂⟩
        cases h₁ with
        | inst h₁ => exact .inst (ih.mpr ⟨_, t₂, rfl, h₁, h₂⟩)
  | ifThen body rest _ ih =>
      constructor
      · intro h
        cases h with
        | taken hbody h =>
            obtain ⟨t₁, t₂, rfl, h₁, h₂⟩ := ih.mp h
            exact ⟨_, t₂, (List.append_assoc _ _ _).symm, .taken hbody h₁, h₂⟩
        | skipped h =>
            obtain ⟨t₁, t₂, rfl, h₁, h₂⟩ := ih.mp h
            exact ⟨t₁, t₂, rfl, .skipped h₁, h₂⟩
      · rintro ⟨t₁, t₂, rfl, h₁, h₂⟩
        cases h₁ with
        | taken hbody h₁ =>
            rw [List.append_assoc]
            exact .taken hbody (ih.mpr ⟨_, t₂, rfl, h₁, h₂⟩)
        | skipped h₁ => exact .skipped (ih.mpr ⟨t₁, t₂, rfl, h₁, h₂⟩)
  | ifThenElse thenBody elseBody rest _ _ ih =>
      constructor
      · intro h
        cases h with
        | thenTaken hbody h =>
            obtain ⟨t₁, t₂, rfl, h₁, h₂⟩ := ih.mp h
            exact ⟨_, t₂, (List.append_assoc _ _ _).symm, .thenTaken hbody h₁, h₂⟩
        | elseTaken hbody h =>
            obtain ⟨t₁, t₂, rfl, h₁, h₂⟩ := ih.mp h
            exact ⟨_, t₂, (List.append_assoc _ _ _).symm, .elseTaken hbody h₁, h₂⟩
      · rintro ⟨t₁, t₂, rfl, h₁, h₂⟩
        cases h₁ with
        | thenTaken hbody h₁ =>
            rw [List.append_assoc]
            exact .thenTaken hbody (ih.mpr ⟨_, t₂, rfl, h₁, h₂⟩)
        | elseTaken hbody h₁ =>
            rw [List.append_assoc]
            exact .elseTaken hbody (ih.mpr ⟨_, t₂, rfl, h₁, h₂⟩)

end Code

/-! ## Emission -/

section Emission

variable {ι : Type*}

/-- Emit code into the block `label`, between what is `before` and what is `behind`; new labels
are taken from `n` on.  A branch splits the block: what is behind goes to the new block `n`, in
front of which the blocks of the branch are put. -/
def emit : Code ι → ℕ → List ι → List ι → Exit → ℕ → List (Block ι) × ℕ
  | .done, label, before, behind, exit, n => ([⟨label, before ++ behind, exit⟩], n)
  | .inst i rest, label, before, behind, exit, n => emit rest label (before ++ [i]) behind exit n
  | .ifThen body rest, label, before, behind, exit, n =>
      let thenBlocks := emit body (n + 1) [] [] (.goto n) (n + 2)
      let tail := emit rest n [] behind exit thenBlocks.2
      (⟨label, before, .fork (n + 1) n⟩ :: (thenBlocks.1 ++ tail.1), tail.2)
  | .ifThenElse thenBody elseBody rest, label, before, behind, exit, n =>
      let thenBlocks := emit thenBody (n + 1) [] [] (.goto n) (n + 3)
      let elseBlocks := emit elseBody (n + 2) [] [] (.goto n) thenBlocks.2
      let tail := emit rest n [] behind exit elseBlocks.2
      (⟨label, before, .fork (n + 1) (n + 2)⟩ :: (thenBlocks.1 ++ (elseBlocks.1 ++ tail.1)), tail.2)

/-- The code has been spliced in where it was to be. -/
theorem emit_insts (code : Code ι) : ∀ (label : ℕ) (before behind : List ι) (exit : Exit) (n : ℕ),
    listing (emit code label before behind exit n).1 = before ++ (code.listing ++ behind) := by
  induction code with
  | done => simp [emit, listing, Code.listing]
  | inst i rest ih =>
      intro label before behind exit n
      rw [emit, ih, Code.listing]
      simp
  | ifThen body rest ihBody ih =>
      intro label before behind exit n
      have hbody := ihBody (n + 1) [] [] (.goto n) (n + 2)
      have hrest := ih n [] behind exit (emit body (n + 1) [] [] (.goto n) (n + 2)).2
      simp only [listing] at hbody hrest ⊢
      simp [emit, Code.listing, hbody, hrest]
  | ifThenElse thenBody elseBody rest ihThen ihElse ih =>
      intro label before behind exit n
      have hthen := ihThen (n + 1) [] [] (.goto n) (n + 3)
      have helse := ihElse (n + 2) [] [] (.goto n) (emit thenBody (n + 1) [] [] (.goto n) (n + 3)).2
      have hrest := ih n [] behind exit (emit elseBody (n + 2) [] [] (.goto n)
        (emit thenBody (n + 1) [] [] (.goto n) (n + 3)).2).2
      simp only [listing] at hthen helse hrest ⊢
      simp [emit, Code.listing, hthen, helse, hrest]

/-- The counter for labels does not depend on where the code is put. -/
theorem emit_counter (code : Code ι) : ∀ (label label' : ℕ) (before before' behind behind' : List ι)
    (exit exit' : Exit) (n : ℕ),
    (emit code label before behind exit n).2 = (emit code label' before' behind' exit' n).2 := by
  induction code with
  | done => exact fun _ _ _ _ _ _ _ _ _ => rfl
  | inst i rest ih =>
      intro label label' before before' behind behind' exit exit' n
      exact ih label label' (before ++ [i]) (before' ++ [i]) behind behind' exit exit' n
  | ifThen body rest _ ih =>
      intro label label' before before' behind behind' exit exit' n
      exact ih n n [] [] behind behind' exit exit' _
  | ifThenElse thenBody elseBody rest _ _ ih =>
      intro label label' before before' behind behind' exit exit' n
      exact ih n n [] [] behind behind' exit exit' _

theorem emit_counter_le (code : Code ι) : ∀ (label : ℕ) (before behind : List ι) (exit : Exit)
    (n : ℕ), n ≤ (emit code label before behind exit n).2 := by
  induction code with
  | done => exact fun _ _ _ _ n => Nat.le_refl n
  | inst i rest ih => exact fun label before behind exit n => ih label (before ++ [i]) behind exit n
  | ifThen body rest ihBody ih =>
      intro label before behind exit n
      have hbody := ihBody (n + 1) [] [] (.goto n) (n + 2)
      have hrest := ih n [] behind exit (emit body (n + 1) [] [] (.goto n) (n + 2)).2
      rw [emit]
      omega
  | ifThenElse thenBody elseBody rest ihThen ihElse ih =>
      intro label before behind exit n
      have hthen := ihThen (n + 1) [] [] (.goto n) (n + 3)
      have helse := ihElse (n + 2) [] [] (.goto n) (emit thenBody (n + 1) [] [] (.goto n) (n + 3)).2
      have hrest := ih n [] behind exit (emit elseBody (n + 2) [] [] (.goto n)
        (emit thenBody (n + 1) [] [] (.goto n) (n + 3)).2).2
      rw [emit]
      omega

/-- Different labels, the first of them known and the others new. -/
structure Labelled (label n n' : ℕ) (labels : List ℕ) : Prop where
  head : labels.head? = some label
  nodup : labels.Nodup
  new : ∀ l ∈ labels, l = label ∨ n ≤ l ∧ l < n'

/-- Different labels, each of them listed or new. -/
structure Fresh (listed : List ℕ) (n n' : ℕ) (labels : List ℕ) : Prop where
  nodup : labels.Nodup
  new : ∀ l ∈ labels, l ∈ listed ∨ n ≤ l ∧ l < n'

theorem Labelled.fresh {label n n' : ℕ} {labels : List ℕ} (h : Labelled label n n' labels) :
    Fresh [label] n n' labels :=
  ⟨h.nodup, fun l hl => (h.new l hl).imp_left List.mem_singleton.mpr⟩

/-- The labels of one branch and those of the next, which takes its new ones behind. -/
theorem Fresh.append {listed listed' labels labels' : List ℕ} {n m n' : ℕ}
    (h : Fresh listed n m labels) (h' : Fresh listed' m n' labels') (hn : n ≤ m) (hm : m ≤ n')
    (hlisted : (listed ++ listed').Nodup) (hbelow : ∀ l ∈ listed ++ listed', l < n) :
    Fresh (listed ++ listed') n n' (labels ++ labels') where
  nodup := by
    refine List.nodup_append.mpr ⟨h.nodup, h'.nodup, ?_⟩
    rintro l hl l' hl' rfl
    rcases h.new l hl with hl | hl
    · have hless := hbelow l (List.mem_append_left _ hl)
      rcases h'.new l hl' with hl' | hl'
      · exact (List.nodup_append.mp hlisted).2.2 l hl l hl' rfl
      · omega
    · rcases h'.new l hl' with hl' | hl'
      · have hless := hbelow l (List.mem_append_right _ hl')
        omega
      · omega
  new := by
    intro l hl
    rcases List.mem_append.mp hl with hl | hl
    · rcases h.new l hl with hl | hl
      · exact .inl (List.mem_append_left _ hl)
      · exact .inr ⟨hl.1, by omega⟩
    · rcases h'.new l hl with hl | hl
      · exact .inl (List.mem_append_right _ hl)
      · exact .inr ⟨by omega, hl.2⟩

/-- The block that branches has its label in front of those of the branches. -/
theorem Fresh.branch {listed labels : List ℕ} {label n m n' : ℕ} (h : Fresh listed m n' labels)
    (hlabel : label < n) (hm : n ≤ m) (hlisted : ∀ l ∈ listed, n ≤ l ∧ l < n') :
    Labelled label n n' (label :: labels) where
  head := rfl
  nodup := by
    refine List.nodup_cons.mpr ⟨fun hmem => ?_, h.nodup⟩
    rcases h.new label hmem with hl | hl
    · have := hlisted label hl
      omega
    · omega
  new := by
    intro l hl
    rcases List.mem_cons.mp hl with rfl | hl
    · exact .inl rfl
    · rcases h.new l hl with hl | hl
      · exact .inr (hlisted l hl)
      · exact .inr ⟨by omega, hl.2⟩

/-- The first block keeps its label, and the others have new ones. -/
theorem emit_labels (code : Code ι) : ∀ (label : ℕ) (before behind : List ι) (exit : Exit) (n : ℕ),
    label < n → Labelled label n (emit code label before behind exit n).2
      ((emit code label before behind exit n).1.map (·.label)) := by
  induction code with
  | done =>
      exact fun label _ _ _ _ _ => ⟨rfl, List.nodup_singleton label, fun l hl =>
        .inl (List.mem_singleton.mp hl)⟩
  | inst i rest ih => exact fun label before behind exit n => ih label (before ++ [i]) behind exit n
  | ifThen body rest ihBody ih =>
      intro label before behind exit n hlabel
      have hbody := ihBody (n + 1) [] [] (.goto n) (n + 2) (Nat.lt_succ_self _)
      have hbodyLe := emit_counter_le body (n + 1) [] [] (.goto n) (n + 2)
      have htail := ih n [] behind exit (emit body (n + 1) [] [] (.goto n) (n + 2)).2 (by omega)
      have htailLe := emit_counter_le rest n [] behind exit
        (emit body (n + 1) [] [] (.goto n) (n + 2)).2
      have hbranches := hbody.fresh.append htail.fresh hbodyLe htailLe (by simp) (by simp)
      simp only [emit, List.map_cons, List.map_append]
      exact hbranches.branch hlabel (by omega) (by simp; omega)
  | ifThenElse thenBody elseBody rest ihThen ihElse ih =>
      intro label before behind exit n hlabel
      have hthen := ihThen (n + 1) [] [] (.goto n) (n + 3) (by omega)
      have hthenLe := emit_counter_le thenBody (n + 1) [] [] (.goto n) (n + 3)
      have helse := ihElse (n + 2) [] [] (.goto n)
        (emit thenBody (n + 1) [] [] (.goto n) (n + 3)).2 (by omega)
      have helseLe := emit_counter_le elseBody (n + 2) [] [] (.goto n)
        (emit thenBody (n + 1) [] [] (.goto n) (n + 3)).2
      have htail := ih n [] behind exit (emit elseBody (n + 2) [] [] (.goto n)
        (emit thenBody (n + 1) [] [] (.goto n) (n + 3)).2).2 (by omega)
      have htailLe := emit_counter_le rest n [] behind exit (emit elseBody (n + 2) [] [] (.goto n)
        (emit thenBody (n + 1) [] [] (.goto n) (n + 3)).2).2
      have hlater := helse.fresh.append htail.fresh helseLe htailLe (by simp) (by simp; omega)
      have hbranches := hthen.fresh.append hlater hthenLe (by omega) (by simp) (by simp)
      simp only [emit, List.map_cons, List.map_append]
      exact hbranches.branch hlabel (by omega) (by simp; omega)

/-- A branch leads to its own new blocks and to where it joins. -/
theorem targets_lt_of_goto {exit : Exit} {n m n' : ℕ}
    (h : exit = .goto n ∨ ∀ target ∈ exit.targets, target < m) (hn : n < n') (hm : m ≤ n') :
    ∀ target ∈ exit.targets, target < n' := by
  intro target htarget
  rcases h with rfl | hnew
  · rwa [List.mem_singleton.mp htarget]
  · exact Nat.lt_of_lt_of_le (hnew target htarget) hm

/-- Every new exit leads to new blocks. -/
theorem emit_exits (code : Code ι) : ∀ (label : ℕ) (before behind : List ι) (exit : Exit) (n : ℕ),
    ∀ block ∈ (emit code label before behind exit n).1, block.exit = exit ∨
      ∀ target ∈ block.exit.targets, target < (emit code label before behind exit n).2 := by
  induction code with
  | done =>
      intro label before behind exit n block hblock
      exact .inl (by rw [List.mem_singleton.mp hblock])
  | inst i rest ih => exact fun label before behind exit n => ih label (before ++ [i]) behind exit n
  | ifThen body rest ihBody ih =>
      intro label before behind exit n block hblock
      have hbodyLe := emit_counter_le body (n + 1) [] [] (.goto n) (n + 2)
      have htailLe := emit_counter_le rest n [] behind exit
        (emit body (n + 1) [] [] (.goto n) (n + 2)).2
      simp only [emit] at hblock ⊢
      -- the block that is split leads to new blocks only
      rcases List.mem_cons.mp hblock with rfl | hblock
      · refine .inr fun target htarget => ?_
        simp only [Exit.targets, List.mem_cons, List.not_mem_nil, or_false] at htarget
        omega
      · rcases List.mem_append.mp hblock with hblock | hblock
        · have hexit := ihBody (n + 1) [] [] (.goto n) (n + 2) block hblock
          exact .inr (targets_lt_of_goto hexit (by omega) htailLe)
        · exact ih n [] behind exit _ block hblock
  | ifThenElse thenBody elseBody rest ihThen ihElse ih =>
      intro label before behind exit n block hblock
      have hthenLe := emit_counter_le thenBody (n + 1) [] [] (.goto n) (n + 3)
      have helseLe := emit_counter_le elseBody (n + 2) [] [] (.goto n)
        (emit thenBody (n + 1) [] [] (.goto n) (n + 3)).2
      have htailLe := emit_counter_le rest n [] behind exit (emit elseBody (n + 2) [] [] (.goto n)
        (emit thenBody (n + 1) [] [] (.goto n) (n + 3)).2).2
      simp only [emit] at hblock ⊢
      rcases List.mem_cons.mp hblock with rfl | hblock
      · refine .inr fun target htarget => ?_
        simp only [Exit.targets, List.mem_cons, List.not_mem_nil, or_false] at htarget
        omega
      · rcases List.mem_append.mp hblock with hblock | hblock
        · have hexit := ihThen (n + 1) [] [] (.goto n) (n + 3) block hblock
          exact .inr (targets_lt_of_goto hexit (by omega) (Nat.le_trans helseLe htailLe))
        · rcases List.mem_append.mp hblock with hblock | hblock
          · have hexit := ihElse (n + 2) [] [] (.goto n) _ block hblock
            exact .inr (targets_lt_of_goto hexit (by omega) htailLe)
          · exact ih n [] behind exit _ block hblock

/-! ## Paths through emitted code -/

/-- A path that does not end at an exit goes on behind it. -/
theorem path_goes_on {blocks : List (Block ι)} {m n₀ : ℕ} {exit last : Exit} {trace : List ι}
    (h : Path blocks m [] exit trace last) (hlast : ∀ target ∈ last.targets, target < n₀)
    (hnew : ∃ target ∈ exit.targets, n₀ ≤ target) :
    ∃ k < m, ∃ l ∈ exit.targets, PathFrom blocks k l trace last := by
  rcases path_exit.mp h with ⟨-, -, rfl⟩ | ⟨k, l, rfl, hl, h⟩
  · obtain ⟨target, htarget, hle⟩ := hnew
    exact absurd (hlast target htarget) (Nat.not_lt.mpr hle)
  · exact ⟨k, Nat.lt_succ_self k, l, hl, h⟩

/-- A path from a block that branches goes on in one of the branches. -/
theorem PathFrom.of_fork {blocks : List (Block ι)} {m n₀ label a b : ℕ} {last : Exit}
    {before trace : List ι} (hnodup : (blocks.map (·.label)).Nodup)
    (hlast : ∀ target ∈ last.targets, target < n₀) (ha : n₀ ≤ a)
    (hin : ⟨label, before, .fork a b⟩ ∈ blocks) (h : PathFrom blocks m label trace last) :
    ∃ rest, ∃ k < m, ∃ l, (l = a ∨ l = b) ∧ PathFrom blocks k l rest last ∧
      trace = before ++ rest := by
  obtain ⟨block, hmem, hlabel, h⟩ := h
  obtain rfl : block = ⟨label, before, .fork a b⟩ := eq_of_label hnodup hmem hin hlabel
  obtain ⟨rest, rfl, hbranch⟩ := path_nil.mp h
  obtain ⟨k, hk, l, hl, hnext⟩ := path_goes_on hbranch hlast ⟨a, by simp [Exit.targets], ha⟩
  exact ⟨rest, k, hk, l, by simpa [Exit.targets] using hl, hnext, rfl⟩

/-- In front of a path from a branch there is the block that branches. -/
theorem PathFrom.fork {blocks : List (Block ι)} {m label a b l : ℕ} {last : Exit}
    {before trace : List ι} (hin : ⟨label, before, .fork a b⟩ ∈ blocks) (hl : l = a ∨ l = b)
    (h : PathFrom blocks m l trace last) :
    PathFrom blocks (m + 1) label (before ++ trace) last := by
  refine ⟨_, hin, rfl, path_nil.mpr ⟨trace, rfl, path_exit.mpr (.inr ?_)⟩⟩
  exact ⟨m, l, rfl, by simpa [Exit.targets] using hl, h⟩

/-- A path from the block that code was emitted into goes through the code. -/
def Enters (blocks : List (Block ι)) (last : Exit) (code : Code ι) (label : ℕ)
    (before behind : List ι) (exit : Exit) : Prop :=
  ∀ ⦃m : ℕ⦄ ⦃trace : List ι⦄, PathFrom blocks m label trace last →
    ∃ t rest, ∃ k ≤ m, code.Trace t ∧ Path blocks k behind exit rest last ∧
      trace = before ++ (t ++ rest)

/-- Behind a branch the path goes through what both branches join at. -/
theorem Enters.join {blocks : List (Block ι)} {last exit : Exit} {body rest : Code ι}
    {n₀ n l m : ℕ} {behind trace : List ι} (hlast : ∀ target ∈ last.targets, target < n₀)
    (hn : n₀ ≤ n) (hbody : Enters blocks last body l [] [] (.goto n))
    (htail : Enters blocks last rest n [] behind exit) (h : PathFrom blocks m l trace last) :
    ∃ t t' u, ∃ k ≤ m, body.Trace t ∧ rest.Trace t' ∧ Path blocks k behind exit u last ∧
      trace = (t ++ t') ++ u := by
  obtain ⟨t, trace, k, hk, ht, hgoto, rfl⟩ := hbody h
  obtain ⟨k', hk', l', hl', hjoin⟩ := path_goes_on hgoto hlast ⟨n, List.mem_singleton_self n, hn⟩
  obtain rfl := List.mem_singleton.mp hl'
  obtain ⟨t', u, k'', hk'', ht', hrest, rfl⟩ := htail hjoin
  exact ⟨t, t', u, k'', by omega, ht, ht', hrest, by simp⟩

/-- A path that starts at emitted code goes through it. -/
theorem emit_enters (code : Code ι) {blocks : List (Block ι)} {last : Exit} {n₀ : ℕ}
    (hnodup : (blocks.map (·.label)).Nodup) (hlast : ∀ target ∈ last.targets, target < n₀) :
    ∀ (label : ℕ) (before behind : List ι) (exit : Exit) (n : ℕ), n₀ ≤ n →
      (∀ block ∈ (emit code label before behind exit n).1, block ∈ blocks) →
      Enters blocks last code label before behind exit := by
  induction code with
  | done =>
      rintro label before behind exit n - hin m trace ⟨block, hmem, hlabel, h⟩
      obtain rfl : block = ⟨label, before ++ behind, exit⟩ :=
        eq_of_label hnodup hmem (hin _ List.mem_cons_self) hlabel
      obtain ⟨rest, rfl, hrest⟩ := path_append.mp h
      exact ⟨[], rest, m, Nat.le_refl m, .done, hrest, rfl⟩
  | inst i rest ih =>
      intro label before behind exit n hn hin m trace h
      obtain ⟨t, rest, k, hk, ht, hrest, rfl⟩ := ih label (before ++ [i]) behind exit n hn hin h
      exact ⟨i :: t, rest, k, hk, .inst ht, hrest, by simp⟩
  | ifThen body rest ihBody ih =>
      intro label before behind exit n hn hin m trace h
      simp only [emit, List.mem_cons, List.mem_append] at hin
      have hbodyLe := emit_counter_le body (n + 1) [] [] (.goto n) (n + 2)
      have hbody := ihBody (n + 1) [] [] (.goto n) (n + 2) (by omega)
        fun block hblock => hin block (.inr (.inl hblock))
      have htail := ih n [] behind exit (emit body (n + 1) [] [] (.goto n) (n + 2)).2 (by omega)
        fun block hblock => hin block (.inr (.inr hblock))
      obtain ⟨trace, k, hk, l, hl, hnext, rfl⟩ :=
        h.of_fork hnodup hlast (by omega) (hin _ (.inl rfl))
      -- the fork leads to the branch or past it
      rcases hl with rfl | rfl
      · obtain ⟨t, t', u, k', hk', ht, ht', hrest, rfl⟩ := Enters.join hlast hn hbody htail hnext
        exact ⟨t ++ t', u, k', by omega, .taken ht ht', hrest, rfl⟩
      · obtain ⟨t, u, k', hk', ht, hrest, rfl⟩ := htail hnext
        exact ⟨t, u, k', by omega, .skipped ht, hrest, rfl⟩
  | ifThenElse thenBody elseBody rest ihThen ihElse ih =>
      intro label before behind exit n hn hin m trace h
      simp only [emit, List.mem_cons, List.mem_append] at hin
      have hthenLe := emit_counter_le thenBody (n + 1) [] [] (.goto n) (n + 3)
      have helseLe := emit_counter_le elseBody (n + 2) [] [] (.goto n)
        (emit thenBody (n + 1) [] [] (.goto n) (n + 3)).2
      have hthen := ihThen (n + 1) [] [] (.goto n) (n + 3) (by omega)
        fun block hblock => hin block (.inr (.inl hblock))
      have helse := ihElse (n + 2) [] [] (.goto n) _ (by omega)
        fun block hblock => hin block (.inr (.inr (.inl hblock)))
      have htail := ih n [] behind exit (emit elseBody (n + 2) [] [] (.goto n)
        (emit thenBody (n + 1) [] [] (.goto n) (n + 3)).2).2 (by omega)
        fun block hblock => hin block (.inr (.inr (.inr hblock)))
      obtain ⟨trace, k, hk, l, hl, hnext, rfl⟩ :=
        h.of_fork hnodup hlast (by omega) (hin _ (.inl rfl))
      rcases hl with rfl | rfl
      · obtain ⟨t, t', u, k', hk', ht, ht', hrest, rfl⟩ := Enters.join hlast hn hthen htail hnext
        exact ⟨t ++ t', u, k', by omega, .thenTaken ht ht', hrest, rfl⟩
      · obtain ⟨t, t', u, k', hk', ht, ht', hrest, rfl⟩ := Enters.join hlast hn helse htail hnext
        exact ⟨t ++ t', u, k', by omega, .elseTaken ht ht', hrest, rfl⟩

/-- There is a path for every way through code that was emitted into a block. -/
def Leaves (blocks : List (Block ι)) (last : Exit) (code : Code ι) (label : ℕ)
    (before behind : List ι) (exit : Exit) : Prop :=
  ∀ ⦃k : ℕ⦄ ⦃t rest : List ι⦄, code.Trace t → Path blocks k behind exit rest last →
    ∃ m, PathFrom blocks m label (before ++ (t ++ rest)) last

theorem Leaves.join {blocks : List (Block ι)} {last exit : Exit} {body rest : Code ι}
    {n l k : ℕ} {behind t t' u : List ι} (hbody : Leaves blocks last body l [] [] (.goto n))
    (htail : Leaves blocks last rest n [] behind exit) (ht : body.Trace t) (ht' : rest.Trace t')
    (h : Path blocks k behind exit u last) : ∃ m, PathFrom blocks m l ((t ++ t') ++ u) last := by
  obtain ⟨m, hm⟩ := htail ht' h
  obtain ⟨m', hm'⟩ := hbody ht (path_exit.mpr (.inr ⟨m, n, rfl, List.mem_singleton_self n, hm⟩))
  exact ⟨m', by simpa using hm'⟩

/-- There is a path for every way through the code. -/
theorem emit_leaves (code : Code ι) {blocks : List (Block ι)} {last : Exit} :
    ∀ (label : ℕ) (before behind : List ι) (exit : Exit) (n : ℕ),
      (∀ block ∈ (emit code label before behind exit n).1, block ∈ blocks) →
      Leaves blocks last code label before behind exit := by
  induction code with
  | done =>
      intro label before behind exit n hin k t rest ht h
      cases ht
      exact ⟨k, _, hin _ List.mem_cons_self, rfl, path_append.mpr ⟨rest, rfl, h⟩⟩
  | inst i code ih =>
      intro label before behind exit n hin k t rest ht h
      cases ht with
      | @inst _ _ t ht =>
          obtain ⟨m, hm⟩ := ih label (before ++ [i]) behind exit n hin ht h
          exact ⟨m, by simpa using hm⟩
  | ifThen body code ihBody ih =>
      intro label before behind exit n hin k t rest ht h
      simp only [emit, List.mem_cons, List.mem_append] at hin
      have hbody := ihBody (n + 1) [] [] (.goto n) (n + 2)
        fun block hblock => hin block (.inr (.inl hblock))
      have htail := ih n [] behind exit _ fun block hblock => hin block (.inr (.inr hblock))
      cases ht with
      | taken ht ht' =>
          obtain ⟨m, hm⟩ := Leaves.join hbody htail ht ht' h
          exact ⟨m + 1, hm.fork (hin _ (.inl rfl)) (.inl rfl)⟩
      | skipped ht =>
          obtain ⟨m, hm⟩ := htail ht h
          exact ⟨m + 1, hm.fork (hin _ (.inl rfl)) (.inr rfl)⟩
  | ifThenElse thenBody elseBody code ihThen ihElse ih =>
      intro label before behind exit n hin k t rest ht h
      simp only [emit, List.mem_cons, List.mem_append] at hin
      have hthen := ihThen (n + 1) [] [] (.goto n) (n + 3)
        fun block hblock => hin block (.inr (.inl hblock))
      have helse := ihElse (n + 2) [] [] (.goto n) _
        fun block hblock => hin block (.inr (.inr (.inl hblock)))
      have htail := ih n [] behind exit _ fun block hblock => hin block (.inr (.inr (.inr hblock)))
      cases ht with
      | thenTaken ht ht' =>
          obtain ⟨m, hm⟩ := Leaves.join hthen htail ht ht' h
          exact ⟨m + 1, hm.fork (hin _ (.inl rfl)) (.inl rfl)⟩
      | elseTaken ht ht' =>
          obtain ⟨m, hm⟩ := Leaves.join helse htail ht ht' h
          exact ⟨m + 1, hm.fork (hin _ (.inl rfl)) (.inr rfl)⟩

end Emission

end Bitype.Foundations.Flowchart
