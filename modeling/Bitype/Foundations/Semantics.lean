import Bitype.Foundations.Execution
import Bitype.Foundations.Expansion

/-!
# Executing spliced code

`Flowchart` says which ways control can go through blocks; here a state says which way it does go.
A `Semantics` gives an instruction its effect on a state, a fork the way it takes, and any other
exit its successor.  An execution that leaves the function `Halts` there.

Blocks that were emitted for code are executed like the code itself, in one go
(`emit_halts_enters`, `emit_halts_leaves`).  So a function whose instructions have been expanded is
executed like the function in which such an instruction does what its code does
(`Chart.ends_expanded`).  Two semantics that agree up to a relation of states, on the instructions
and exits of a function, agree on its executions (`Simulates.ends`).
-/

namespace Bitype.Foundations.Flowchart

/-! ## Executions -/

/-- What instructions do to a state, whether a fork is taken, and which of its successors another
exit leads to; `none` says that it leaves the function. -/
structure Semantics (σ ι : Type*) extends Machine σ ι where
  takes : σ → Bool
  select : ℕ → σ → Option ℕ

namespace Semantics

variable {σ ι : Type*}

/-- Where control goes from an exit. -/
def next (S : Semantics σ ι) : Exit → σ → Option ℕ
  | .goto target, _ => some target
  | .fork ifTrue ifFalse, s => some (if S.takes s = true then ifTrue else ifFalse)
  | .other id successors, s => (S.select id s).bind fun k => successors[k]?

/-- What code does. -/
def runCode (S : Semantics σ ι) : Code ι → σ → Option σ
  | .done, s => some s
  | .inst i rest, s => (S.step i s).bind (S.runCode rest)
  | .ifThen body rest, s =>
      (if S.takes s = true then S.runCode body s else some s).bind (S.runCode rest)
  | .ifThenElse thenBody elseBody rest, s =>
      (if S.takes s = true then S.runCode thenBody s else S.runCode elseBody s).bind
        (S.runCode rest)

/-- An execution of instructions with an exit behind them that goes through `m` further blocks and
then leaves the function. -/
inductive Halts (S : Semantics σ ι) (blocks : List (Block ι)) :
    ℕ → List ι → Exit → σ → σ → Exit → Prop
  | stop {insts : List ι} {exit : Exit} {s s' : σ} (hrun : S.run insts s = some s')
      (hnext : S.next exit s' = none) : Halts S blocks 0 insts exit s s' exit
  | step {m : ℕ} {insts : List ι} {exit last : Exit} {s s₁ s' : σ} {block : Block ι}
      (hmem : block ∈ blocks) (hrun : S.run insts s = some s₁)
      (hnext : S.next exit s₁ = some block.label)
      (h : Halts S blocks m block.insts block.exit s₁ s' last) :
      Halts S blocks (m + 1) insts exit s s' last

/-- An execution from the start of the block with a label. -/
def HaltsFrom (S : Semantics σ ι) (blocks : List (Block ι)) (m l : ℕ) (s s' : σ) (last : Exit) :
    Prop :=
  ∃ block ∈ blocks, block.label = l ∧ Halts S blocks m block.insts block.exit s s' last

/-- A function, entered at a label, leaves with this state at this exit. -/
def Ends (S : Semantics σ ι) (blocks : List (Block ι)) (l : ℕ) (s s' : σ) (last : Exit) : Prop :=
  ∃ m, S.HaltsFrom blocks m l s s' last

variable {S : Semantics σ ι} {blocks : List (Block ι)} {m l : ℕ} {insts : List ι}
  {exit last : Exit} {s s' : σ}

theorem next_mem {l : ℕ} (h : S.next exit s = some l) : l ∈ exit.targets := by
  cases exit with
  | goto target =>
      obtain rfl := Option.some.inj h
      exact List.mem_singleton_self _
  | fork ifTrue ifFalse =>
      obtain rfl := Option.some.inj h
      show (if S.takes s = true then ifTrue else ifFalse) ∈ [ifTrue, ifFalse]
      split <;> simp
  | other id successors =>
      obtain ⟨k, -, hk⟩ := Option.bind_eq_some_iff.mp h
      exact List.mem_of_getElem? hk

/-- What comes first in an execution. -/
theorem halts_append {before : List ι} : S.Halts blocks m (before ++ insts) exit s s' last ↔
    ∃ s₁, S.run before s = some s₁ ∧ S.Halts blocks m insts exit s₁ s' last := by
  constructor
  · intro h
    cases h with
    | stop hrun hnext =>
        rw [Machine.run_append, Option.bind_eq_some_iff] at hrun
        obtain ⟨s₁, hbefore, hrun⟩ := hrun
        exact ⟨s₁, hbefore, .stop hrun hnext⟩
    | step hmem hrun hnext h =>
        rw [Machine.run_append, Option.bind_eq_some_iff] at hrun
        obtain ⟨s₁, hbefore, hrun⟩ := hrun
        exact ⟨s₁, hbefore, .step hmem hrun hnext h⟩
  · intro ⟨s₁, hbefore, h⟩
    have hjoin : ∀ s₂, S.run insts s₁ = some s₂ → S.run (before ++ insts) s = some s₂ := by
      intro s₂ hrun
      rw [Machine.run_append, hbefore]
      exact hrun
    cases h with
    | stop hrun hnext => exact .stop (hjoin _ hrun) hnext
    | step hmem hrun hnext h => exact .step hmem (hjoin _ hrun) hnext h

theorem halts_nil {before : List ι} : S.Halts blocks m before exit s s' last ↔
    ∃ s₁, S.run before s = some s₁ ∧ S.Halts blocks m [] exit s₁ s' last := by
  rw [← halts_append, List.append_nil]

/-- Behind an exit an execution is over or goes on where the state says. -/
theorem halts_exit : S.Halts blocks m [] exit s s' last ↔
    (m = 0 ∧ s' = s ∧ last = exit ∧ S.next exit s = none) ∨
      ∃ k l, m = k + 1 ∧ S.next exit s = some l ∧ S.HaltsFrom blocks k l s s' last := by
  constructor
  · intro h
    cases h with
    | stop hrun hnext =>
        obtain rfl := Option.some.inj hrun
        exact .inl ⟨rfl, rfl, rfl, hnext⟩
    | step hmem hrun hnext h =>
        obtain rfl := Option.some.inj hrun
        exact .inr ⟨_, _, rfl, hnext, _, hmem, rfl, h⟩
  · rintro (⟨rfl, rfl, rfl, hnext⟩ | ⟨k, l, rfl, hnext, block, hmem, rfl, h⟩)
    · exact .stop rfl hnext
    · exact .step hmem rfl hnext h

theorem halts_goto {n : ℕ} : S.Halts blocks m [] (.goto n) s s' last ↔
    ∃ k, m = k + 1 ∧ S.HaltsFrom blocks k n s s' last := by
  rw [halts_exit]
  simp [next]

/-- What the code appended to other code does. -/
theorem runCode_append (code code' : Code ι) (s : σ) :
    S.runCode (code.append code') s = (S.runCode code s).bind (S.runCode code') := by
  induction code generalizing s with
  | done => rfl
  | inst i rest ih =>
      rw [Code.append, runCode, runCode, Option.bind_assoc]
      exact Option.bind_congr fun s₁ _ => ih s₁
  | ifThen body rest _ ih =>
      rw [Code.append, runCode, runCode, Option.bind_assoc]
      exact Option.bind_congr fun s₁ _ => ih s₁
  | ifThenElse thenBody elseBody rest _ _ ih =>
      rw [Code.append, runCode, runCode, Option.bind_assoc]
      exact Option.bind_congr fun s₁ _ => ih s₁

/-! ## Emitted code -/

/-- An execution that starts at emitted code executes the code and goes on behind it. -/
def Enters (S : Semantics σ ι) (blocks : List (Block ι)) (code : Code ι) (label : ℕ)
    (before behind : List ι) (exit : Exit) : Prop :=
  ∀ ⦃m : ℕ⦄ ⦃s s' : σ⦄ ⦃last : Exit⦄, S.HaltsFrom blocks m label s s' last →
    ∃ k s₁ s₂, k ≤ m ∧ S.run before s = some s₁ ∧ S.runCode code s₁ = some s₂ ∧
      S.Halts blocks k behind exit s₂ s' last

/-- What is executed behind emitted code is executed from its start. -/
def Leaves (S : Semantics σ ι) (blocks : List (Block ι)) (code : Code ι) (label : ℕ)
    (before behind : List ι) (exit : Exit) : Prop :=
  ∀ ⦃k : ℕ⦄ ⦃s s₁ s₂ s' : σ⦄ ⦃last : Exit⦄, S.run before s = some s₁ →
    S.runCode code s₁ = some s₂ → S.Halts blocks k behind exit s₂ s' last →
      S.Ends blocks label s s' last

section Emission

variable {code body rest thenBody elseBody : Code ι} {before behind : List ι} {label n : ℕ}

/-- A body that goes on to what is behind the branch. -/
theorem Enters.join (hbody : S.Enters blocks body l [] [] (.goto n))
    (hrest : S.Enters blocks rest n [] behind exit) (h : S.HaltsFrom blocks m l s s' last) :
    ∃ k s₁ s₂, k ≤ m ∧ S.runCode body s = some s₁ ∧ S.runCode rest s₁ = some s₂ ∧
      S.Halts blocks k behind exit s₂ s' last := by
  obtain ⟨k, s₀, s₁, hk, hnone, hrun, hgoto⟩ := hbody h
  obtain rfl := Option.some.inj hnone
  obtain ⟨k', rfl, hnext⟩ := halts_goto.mp hgoto
  obtain ⟨k'', s₁', s₂, hk', hnone', hrun', hbehind⟩ := hrest hnext
  obtain rfl := Option.some.inj hnone'
  exact ⟨k'', _, s₂, by omega, hrun, hrun', hbehind⟩

theorem Leaves.join {k : ℕ} {s₁ s₂ : σ} (hbody : S.Leaves blocks body l [] [] (.goto n))
    (hrest : S.Leaves blocks rest n [] behind exit) (hrun : S.runCode body s = some s₁)
    (hrun' : S.runCode rest s₁ = some s₂) (h : S.Halts blocks k behind exit s₂ s' last) :
    S.Ends blocks l s s' last := by
  obtain ⟨m, hm⟩ := hrest rfl hrun' h
  exact hbody rfl hrun (halts_goto.mpr ⟨m, rfl, hm⟩)

/-- An execution from a block with a fork. -/
theorem HaltsFrom.of_fork {t f : ℕ} (hnodup : (blocks.map (·.label)).Nodup)
    (hmem : ⟨label, before, .fork t f⟩ ∈ blocks) (h : S.HaltsFrom blocks m label s s' last) :
    ∃ k s₁, k + 1 = m ∧ S.run before s = some s₁ ∧
      S.HaltsFrom blocks k (if S.takes s₁ = true then t else f) s₁ s' last := by
  obtain ⟨block, hblock, hlabel, h⟩ := h
  obtain rfl : block = ⟨label, before, .fork t f⟩ := eq_of_label hnodup hblock hmem hlabel
  obtain ⟨s₁, hrun, h⟩ := halts_nil.mp h
  rcases halts_exit.mp h with ⟨-, -, -, hnone⟩ | ⟨k, l, rfl, hl, hnext⟩
  · cases hnone
  · obtain rfl := Option.some.inj hl
    exact ⟨k, s₁, rfl, hrun, hnext⟩

theorem Ends.fork {t f : ℕ} {s₁ : σ} (hmem : ⟨label, before, .fork t f⟩ ∈ blocks)
    (hrun : S.run before s = some s₁)
    (h : S.Ends blocks (if S.takes s₁ = true then t else f) s₁ s' last) :
    S.Ends blocks label s s' last := by
  obtain ⟨m, hm⟩ := h
  exact ⟨m + 1, _, hmem, rfl, halts_nil.mpr ⟨s₁, hrun, halts_exit.mpr (.inr ⟨m, _, rfl, rfl, hm⟩)⟩⟩

end Emission

/-- **Emitted code is executed** by whatever starts at it. -/
theorem emit_halts_enters (hnodup : (blocks.map (·.label)).Nodup) (code : Code ι) :
    ∀ (label : ℕ) (before behind : List ι) (exit : Exit) (n : ℕ),
      (∀ block ∈ (emit code label before behind exit n).1, block ∈ blocks) →
        S.Enters blocks code label before behind exit := by
  induction code with
  | done =>
      rintro label before behind exit n hin m s s' last ⟨block, hmem, hlabel, h⟩
      obtain rfl : block = ⟨label, before ++ behind, exit⟩ :=
        eq_of_label hnodup hmem (hin _ List.mem_cons_self) hlabel
      obtain ⟨s₁, hrun, hrest⟩ := halts_append.mp h
      exact ⟨m, s₁, s₁, le_rfl, hrun, rfl, hrest⟩
  | inst i rest ih =>
      intro label before behind exit n hin m s s' last h
      obtain ⟨k, s₂, s₃, hk, hrun, hcode, hrest⟩ := ih label (before ++ [i]) behind exit n hin h
      -- `i` is the last instruction in front: it has been run behind `before`
      rw [Machine.run_append, Option.bind_eq_some_iff] at hrun
      obtain ⟨s₁, hbefore, hi⟩ := hrun
      rw [Machine.run_cons, Option.bind_eq_some_iff] at hi
      obtain ⟨s₂', hstep, hnil⟩ := hi
      obtain rfl := Option.some.inj hnil
      exact ⟨k, s₁, s₃, hk, hbefore, by rw [runCode, hstep]; exact hcode, hrest⟩
  | ifThen body rest ihBody ih =>
      intro label before behind exit n hin m s s' last h
      simp only [emit, List.mem_cons, List.mem_append] at hin
      have hbody := ihBody (n + 1) [] [] (.goto n) (n + 2)
        fun block hblock => hin block (.inr (.inl hblock))
      have htail := ih n [] behind exit _ fun block hblock => hin block (.inr (.inr hblock))
      obtain ⟨k, s₁, rfl, hbefore, hnext⟩ := h.of_fork hnodup (hin _ (.inl rfl))
      -- a branch that is taken comes back by the `goto` of its last block
      by_cases htakes : S.takes s₁ = true
      · rw [if_pos htakes] at hnext
        obtain ⟨k', s₂, s₃, hk, hrun, hrun', hrest⟩ := Enters.join hbody htail hnext
        refine ⟨k', s₁, s₃, by omega, hbefore, ?_, hrest⟩
        rw [runCode, if_pos htakes, hrun]
        exact hrun'
      · rw [if_neg htakes] at hnext
        obtain ⟨k', s₁', s₂, hk, hnone, hrun, hrest⟩ := htail hnext
        obtain rfl := Option.some.inj hnone
        refine ⟨k', _, s₂, by omega, hbefore, ?_, hrest⟩
        rw [runCode, if_neg htakes]
        exact hrun
  | ifThenElse thenBody elseBody rest ihThen ihElse ih =>
      intro label before behind exit n hin m s s' last h
      simp only [emit, List.mem_cons, List.mem_append] at hin
      have hthen := ihThen (n + 1) [] [] (.goto n) (n + 3)
        fun block hblock => hin block (.inr (.inl hblock))
      have helse := ihElse (n + 2) [] [] (.goto n) _
        fun block hblock => hin block (.inr (.inr (.inl hblock)))
      have htail := ih n [] behind exit _ fun block hblock => hin block (.inr (.inr (.inr hblock)))
      obtain ⟨k, s₁, rfl, hbefore, hnext⟩ := h.of_fork hnodup (hin _ (.inl rfl))
      by_cases htakes : S.takes s₁ = true
      · rw [if_pos htakes] at hnext
        obtain ⟨k', s₂, s₃, hk, hrun, hrun', hrest⟩ := Enters.join hthen htail hnext
        refine ⟨k', s₁, s₃, by omega, hbefore, ?_, hrest⟩
        rw [runCode, if_pos htakes, hrun]
        exact hrun'
      · rw [if_neg htakes] at hnext
        obtain ⟨k', s₂, s₃, hk, hrun, hrun', hrest⟩ := Enters.join helse htail hnext
        refine ⟨k', s₁, s₃, by omega, hbefore, ?_, hrest⟩
        rw [runCode, if_neg htakes, hrun]
        exact hrun'

/-- And it is executed from where it was emitted. -/
theorem emit_halts_leaves (code : Code ι) : ∀ (label : ℕ) (before behind : List ι) (exit : Exit)
    (n : ℕ), (∀ block ∈ (emit code label before behind exit n).1, block ∈ blocks) →
      S.Leaves blocks code label before behind exit := by
  induction code with
  | done =>
      intro label before behind exit n hin k s s₁ s₂ s' last hbefore hcode h
      obtain rfl := Option.some.inj hcode
      exact ⟨k, _, hin _ List.mem_cons_self, rfl, halts_append.mpr ⟨_, hbefore, h⟩⟩
  | inst i rest ih =>
      intro label before behind exit n hin k s s₁ s₂ s' last hbefore hcode h
      rw [runCode, Option.bind_eq_some_iff] at hcode
      obtain ⟨s₃, hstep, hcode⟩ := hcode
      refine ih label (before ++ [i]) behind exit n hin ?_ hcode h
      rw [Machine.run_append, hbefore]
      show (S.step i s₁).bind some = some s₃
      rw [hstep]
      rfl
  | ifThen body rest ihBody ih =>
      intro label before behind exit n hin k s s₁ s₂ s' last hbefore hcode h
      simp only [emit, List.mem_cons, List.mem_append] at hin
      have hbody := ihBody (n + 1) [] [] (.goto n) (n + 2)
        fun block hblock => hin block (.inr (.inl hblock))
      have htail := ih n [] behind exit _ fun block hblock => hin block (.inr (.inr hblock))
      apply Ends.fork (hin _ (.inl rfl)) hbefore
      rw [runCode, Option.bind_eq_some_iff] at hcode
      obtain ⟨s₃, hbranch, hrest⟩ := hcode
      -- the fork picks the branch that the code picks
      by_cases htakes : S.takes s₁ = true
      · rw [if_pos htakes] at hbranch ⊢
        exact Leaves.join hbody htail hbranch hrest h
      · rw [if_neg htakes] at hbranch ⊢
        obtain rfl := Option.some.inj hbranch
        exact htail rfl hrest h
  | ifThenElse thenBody elseBody rest ihThen ihElse ih =>
      intro label before behind exit n hin k s s₁ s₂ s' last hbefore hcode h
      simp only [emit, List.mem_cons, List.mem_append] at hin
      have hthen := ihThen (n + 1) [] [] (.goto n) (n + 3)
        fun block hblock => hin block (.inr (.inl hblock))
      have helse := ihElse (n + 2) [] [] (.goto n) _
        fun block hblock => hin block (.inr (.inr (.inl hblock)))
      have htail := ih n [] behind exit _ fun block hblock => hin block (.inr (.inr (.inr hblock)))
      apply Ends.fork (hin _ (.inl rfl)) hbefore
      rw [runCode, Option.bind_eq_some_iff] at hcode
      obtain ⟨s₃, hbranch, hrest⟩ := hcode
      by_cases htakes : S.takes s₁ = true
      · rw [if_pos htakes] at hbranch ⊢
        exact Leaves.join hthen htail hbranch hrest h
      · rw [if_neg htakes] at hbranch ⊢
        exact Leaves.join helse htail hbranch hrest h

/-! ## Expanded functions -/

/-- An expanded instruction does what its code does. -/
def expanding (S : Semantics σ ι) (expand : ι → Option (Code ι)) : Semantics σ ι :=
  { S with
    step := fun i s =>
      match expand i with
      | none => S.step i s
      | some code => S.runCode code s }

theorem step_expanding_none {expand : ι → Option (Code ι)} {i : ι} (h : expand i = none) (s : σ) :
    (S.expanding expand).step i s = S.step i s := by
  simp only [expanding, h]

theorem step_expanding_some {expand : ι → Option (Code ι)} {i : ι} {code : Code ι}
    (h : expand i = some code) (s : σ) : (S.expanding expand).step i s = S.runCode code s := by
  simp only [expanding, h]

theorem next_expanding (expand : ι → Option (Code ι)) (exit : Exit) (s : σ) :
    (S.expanding expand).next exit s = S.next exit s := by
  cases exit <;> rfl

theorem runCode_codeOf (expand : ι → Option (Code ι)) (insts : List ι) :
    ∀ s, S.runCode (codeOf expand insts) s = (S.expanding expand).run insts s := by
  induction insts with
  | nil => exact fun s => rfl
  | cons i rest ih =>
      intro s
      rw [Machine.run_cons, codeOf]
      cases hexpand : expand i with
      | none =>
          rw [step_expanding_none hexpand]
          exact Option.bind_congr fun s₁ _ => ih s₁
      | some code =>
          rw [step_expanding_some hexpand, runCode_append]
          exact Option.bind_congr fun s₁ _ => ih s₁

end Semantics

section Expanded

variable {σ ι : Type*} {S : Semantics σ ι} {F : Chart ι} {expand : ι → Option (Code ι)} {l : ℕ}
  {s s' : σ} {last : Exit}

theorem Chart.ends_of_expanded {m : ℕ} : ∀ {l : ℕ} {s : σ}, l < F.nextLabel →
    S.HaltsFrom (F.expanded expand).blocks m l s s' last →
      (S.expanding expand).Ends F.blocks l s s' last := by
  induction m using Nat.strong_induction_on with
  | _ m ih =>
      intro l s hl h
      obtain ⟨b, hb, rfl⟩ : ∃ b ∈ F.blocks, b.label = l := by
        obtain ⟨block, hblock, rfl, -⟩ := h
        exact F.expanded_old hblock hl
      obtain ⟨n, -, hmem⟩ := emitAll_mem F.blocks F.nextLabel b hb
      obtain ⟨k, s₀, s₁, hk, hnone, hcode, hexit⟩ := Semantics.emit_halts_enters
        (F.expanded expand).nodup (codeOf expand b.insts) b.label [] [] b.exit n hmem h
      obtain rfl := Option.some.inj hnone
      rw [Semantics.runCode_codeOf] at hcode
      rcases Semantics.halts_exit.mp hexit with ⟨-, rfl, rfl, hnext⟩ | ⟨k, l, rfl, hnext, hrest⟩
      · exact ⟨0, b, hb, rfl, .stop hcode (by rwa [Semantics.next_expanding])⟩
      · obtain ⟨m', b', hb', rfl, hrest'⟩ :=
          ih k (by omega) (F.closed b hb l (Semantics.next_mem hnext)) hrest
        exact ⟨m' + 1, b, hb, rfl, .step hb' hcode (by rwa [Semantics.next_expanding]) hrest'⟩

theorem Chart.expanded_ends {m : ℕ} : ∀ {l : ℕ} {s : σ},
    (S.expanding expand).HaltsFrom F.blocks m l s s' last →
      S.Ends (F.expanded expand).blocks l s s' last := by
  induction m with
  | zero =>
      rintro l s ⟨b, hb, rfl, h⟩
      obtain ⟨n, -, hmem⟩ := emitAll_mem F.blocks F.nextLabel b hb
      obtain ⟨s₁, hrun, hexit⟩ := Semantics.halts_nil.mp h
      rw [← Semantics.runCode_codeOf] at hrun
      rcases Semantics.halts_exit.mp hexit with ⟨-, hs, hlast, hnext⟩ | ⟨k, _, hk, -⟩
      · rw [Semantics.next_expanding] at hnext
        rw [hs, hlast]
        exact Semantics.emit_halts_leaves (codeOf expand b.insts) b.label [] [] b.exit n hmem rfl
          hrun (.stop rfl hnext)
      · cases hk
  | succ m ih =>
      rintro l s ⟨b, hb, rfl, h⟩
      obtain ⟨n, -, hmem⟩ := emitAll_mem F.blocks F.nextLabel b hb
      obtain ⟨s₁, hrun, hexit⟩ := Semantics.halts_nil.mp h
      rw [← Semantics.runCode_codeOf] at hrun
      rcases Semantics.halts_exit.mp hexit with ⟨hzero, -⟩ | ⟨k, l, hk, hnext, hrest⟩
      · cases hzero
      · obtain rfl := Nat.succ.inj hk
        obtain ⟨k, hrest'⟩ := ih hrest
        rw [Semantics.next_expanding] at hnext
        exact Semantics.emit_halts_leaves (codeOf expand b.insts) b.label [] [] b.exit n hmem rfl
          hrun (Semantics.halts_exit.mpr (.inr ⟨k, l, rfl, hnext, hrest'⟩))

/-- **An expanded function** is executed like the function in which an instruction does what its
code does. -/
theorem Chart.ends_expanded (hl : l < F.nextLabel) :
    S.Ends (F.expanded expand).blocks l s s' last ↔
      (S.expanding expand).Ends F.blocks l s s' last :=
  ⟨fun ⟨_, h⟩ => Chart.ends_of_expanded hl h, fun ⟨_, h⟩ => Chart.expanded_ends h⟩

end Expanded

/-! ## Simulation -/

namespace Semantics

variable {σ τ ι κ : Type*} {S : Semantics σ ι} {T : Semantics τ κ} {R : σ → τ → Prop}

/-- What runs of steps have in common that agree up to a relation, with an instruction of the one
for each of the other. -/
theorem run_related {f : ι → κ} {insts : List ι}
    (hstep : ∀ i ∈ insts, ∀ s t s₁, R s t → S.step i s = some s₁ →
      ∃ t₁, T.step (f i) t = some t₁ ∧ R s₁ t₁) :
    ∀ {s t s'}, R s t → S.run insts s = some s' →
      ∃ t', T.run (insts.map f) t = some t' ∧ R s' t' := by
  induction insts with
  | nil =>
      intro s t s' hR hrun
      obtain rfl := Option.some.inj hrun
      exact ⟨t, rfl, hR⟩
  | cons i rest ih =>
      intro s t s' hR hrun
      obtain ⟨s₁, hs₁, hrun⟩ := Option.bind_eq_some_iff.mp hrun
      obtain ⟨t₁, ht₁, hR₁⟩ := hstep i List.mem_cons_self s t s₁ hR hs₁
      obtain ⟨t', ht', hR'⟩ := ih (fun j hj => hstep j (List.mem_cons_of_mem _ hj)) hR₁ hrun
      refine ⟨t', ?_, hR'⟩
      rw [List.map_cons, Machine.run_cons, ht₁]
      exact ht'

/-- Each block has a counterpart that does the same, up to a relation, and goes on alike. -/
def Simulates (S : Semantics σ ι) (T : Semantics τ κ) (blocks : List (Block ι))
    (blocks' : List (Block κ)) (R : σ → τ → Prop) : Prop :=
  ∀ b ∈ blocks, ∃ b' ∈ blocks', b'.label = b.label ∧ b'.exit = b.exit ∧
    ∀ s t s', R s t → S.run b.insts s = some s' →
      ∃ t', T.run b'.insts t = some t' ∧ R s' t' ∧ T.next b.exit t' = S.next b.exit s'

/-- **What is simulated ends alike.** -/
theorem Simulates.ends {blocks : List (Block ι)} {blocks' : List (Block κ)} {last : Exit} {s' : σ}
    (hsim : S.Simulates T blocks blocks' R) {l : ℕ} {s : σ} {t : τ} (hR : R s t)
    (h : S.Ends blocks l s s' last) : ∃ t', R s' t' ∧ T.Ends blocks' l t t' last := by
  obtain ⟨m, hm⟩ := h
  induction m generalizing l s t with
  | zero =>
      obtain ⟨b, hb, rfl, h⟩ := hm
      obtain ⟨b', hb', hlabel, hexit, hrun⟩ := hsim b hb
      obtain ⟨s₁, hs₁, hend⟩ := halts_nil.mp h
      rcases halts_exit.mp hend with ⟨-, hs, hlast, hnext⟩ | ⟨k, _, hk, -⟩
      · obtain ⟨t₁, ht₁, hR₁, hnext'⟩ := hrun s t s₁ hR hs₁
        rw [hs, hlast, ← hexit]
        exact ⟨t₁, hR₁, 0, b', hb', hlabel, .stop ht₁ (by rw [hexit, hnext', hnext])⟩
      · cases hk
  | succ m ih =>
      obtain ⟨b, hb, rfl, h⟩ := hm
      obtain ⟨b', hb', hlabel, hexit, hrun⟩ := hsim b hb
      obtain ⟨s₁, hs₁, hend⟩ := halts_nil.mp h
      rcases halts_exit.mp hend with ⟨hzero, -⟩ | ⟨k, l, hk, hnext, hrest⟩
      · cases hzero
      · obtain rfl := Nat.succ.inj hk
        obtain ⟨t₁, ht₁, hR₁, hnext'⟩ := hrun s t s₁ hR hs₁
        obtain ⟨t', hR', k, hk⟩ := ih hR₁ hrest
        refine ⟨t', hR', k + 1, b', hb', hlabel, halts_nil.mpr ⟨t₁, ht₁, ?_⟩⟩
        exact halts_exit.mpr (.inr ⟨k, l, rfl, by rw [hexit, hnext', hnext], hk⟩)

/-- What every step keeps holds at the end. -/
theorem Ends.keeps {blocks : List (Block ι)} {P : σ → Prop}
    (hkeep : ∀ i s s', P s → S.step i s = some s' → P s') {l : ℕ} {s s' : σ} {last : Exit} (hs : P s)
    (h : S.Ends blocks l s s' last) : P s' := by
  obtain ⟨m, ⟨label, insts, exit⟩, -, -, h⟩ := h
  dsimp only at h
  induction h with
  | stop hrun _ => exact S.toMachine.run_of_step hkeep _ _ _ hs hrun
  | step _ hrun _ _ ih => exact ih (S.toMachine.run_of_step hkeep _ _ _ hs hrun)

/-- Two semantics of one function whose steps agree up to a relation. -/
theorem Ends.related {T : Semantics τ ι} {blocks : List (Block ι)}
    (hstep : ∀ i s t s₁, R s t → S.step i s = some s₁ → ∃ t₁, T.step i t = some t₁ ∧ R s₁ t₁)
    (hnext : ∀ exit s t, R s t → T.next exit t = S.next exit s) {l : ℕ} {s s' : σ} {t : τ}
    {last : Exit} (hR : R s t) (h : S.Ends blocks l s s' last) :
    ∃ t', R s' t' ∧ T.Ends blocks l t t' last := by
  have hsim : S.Simulates T blocks blocks R := by
    refine fun b hb => ⟨b, hb, rfl, rfl, fun s t s' hR hrun => ?_⟩
    obtain ⟨t', ht', hR'⟩ := run_related (f := id) (fun i _ => hstep i) hR hrun
    rw [List.map_id] at ht'
    exact ⟨t', ht', hR', hnext _ _ _ hR'⟩
  exact hsim.ends hR h

/-- A semantics with which another one agrees wherever an invariant of the steps holds. -/
theorem Ends.congr {S' : Semantics σ ι} {blocks : List (Block ι)} {P : σ → Prop}
    (hkeep : ∀ i s s', P s → S.step i s = some s' → P s')
    (hstep : ∀ i s, P s → S'.step i s = S.step i s)
    (hnext : ∀ exit s, S'.next exit s = S.next exit s) {l : ℕ} {s s' : σ} {last : Exit} (hs : P s)
    (h : S.Ends blocks l s s' last) : S'.Ends blocks l s s' last := by
  obtain ⟨t', ⟨rfl, -⟩, hends⟩ := h.related (T := S') (R := fun s t => s = t ∧ P s)
    (fun i s t s₁ hst hs₁ => by
      obtain ⟨rfl, hs⟩ := hst
      exact ⟨s₁, (hstep i s hs).trans hs₁, rfl, hkeep i s s₁ hs hs₁⟩)
    (fun exit s t hst => by rw [← hst.1, hnext]) ⟨rfl, hs⟩
  exact hends

/-! ### Up to a condition -/

open Classical in
/-- Execution up to the first instruction that does not meet `C`. -/
noncomputable def restricted (S : Semantics σ ι) (C : ι → σ → Prop) : Semantics σ ι :=
  { S with step := fun i s => if C i s then S.step i s else none }

section Restricted

variable {C : ι → σ → Prop}

theorem step_restricted {i : ι} {s s' : σ} (h : (S.restricted C).step i s = some s') :
    C i s ∧ S.step i s = some s' := by
  simp only [restricted] at h
  split at h
  · exact ⟨‹_›, h⟩
  · cases h

theorem next_restricted (exit : Exit) (s : σ) : (S.restricted C).next exit s = S.next exit s := by
  cases exit <;> rfl

/-- Where each instruction meets the condition, nothing is cut off. -/
theorem run_restricted {insts : List ι} : ∀ {s : σ}, S.toMachine.Meets C insts s →
    (S.restricted C).run insts s = S.run insts s := by
  induction insts with
  | nil => exact fun _ => rfl
  | cons i rest ih =>
      intro s ⟨hmeets, hrest⟩
      have hstep : (S.restricted C).step i s = S.step i s := if_pos hmeets
      rw [Machine.run_cons, Machine.run_cons, hstep]
      cases hs₁ : S.step i s with
      | none => rfl
      | some s₁ => exact ih (hrest s₁ hs₁)

/-- An execution up to a condition is an execution. -/
theorem Ends.of_restricted {blocks : List (Block ι)} {l : ℕ} {s s' : σ} {last : Exit}
    (h : (S.restricted C).Ends blocks l s s' last) : S.Ends blocks l s s' last := by
  obtain ⟨t', rfl, hends⟩ := h.related (T := S) (R := Eq)
    (fun i s t s₁ hst hs₁ => ⟨s₁, hst ▸ (step_restricted hs₁).2, rfl⟩)
    (fun exit s t hst => by rw [hst, next_restricted]) rfl
  exact hends

end Restricted

/-- **A function ends in one way only.** -/
theorem Halts.unique {blocks : List (Block ι)} (hnodup : (blocks.map (·.label)).Nodup) {m m' : ℕ}
    {insts : List ι} {exit last last' : Exit} {s s' s'' : σ}
    (h : S.Halts blocks m insts exit s s' last) (h' : S.Halts blocks m' insts exit s s'' last') :
    s'' = s' ∧ last' = last := by
  induction h generalizing m' with
  | stop hrun hnext =>
      cases h' with
      | stop hrun' _ => exact ⟨Option.some.inj (hrun'.symm.trans hrun), rfl⟩
      | step _ hrun' hnext' _ =>
          rw [Option.some.inj (hrun'.symm.trans hrun), hnext] at hnext'
          cases hnext'
  | step hmem hrun hnext _ ih =>
      cases h' with
      | stop hrun' hnext' =>
          rw [Option.some.inj (hrun'.symm.trans hrun), hnext] at hnext'
          cases hnext'
      | step hmem' hrun' hnext' hrest' =>
          obtain rfl := Option.some.inj (hrun'.symm.trans hrun)
          obtain rfl := eq_of_label hnodup hmem' hmem (Option.some.inj (hnext'.symm.trans hnext))
          exact ih hrest'

theorem Ends.unique {F : Chart ι} {l : ℕ} {s s' s'' : σ} {last last' : Exit}
    (h : S.Ends F.blocks l s s' last) (h' : S.Ends F.blocks l s s'' last') :
    s'' = s' ∧ last' = last := by
  obtain ⟨m, b, hb, hlabel, hm⟩ := h
  obtain ⟨m', b', hb', hlabel', hm'⟩ := h'
  obtain rfl := eq_of_label F.nodup hb' hb (hlabel'.trans hlabel.symm)
  exact hm.unique F.nodup hm'

end Semantics

end Bitype.Foundations.Flowchart
