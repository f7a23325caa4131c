import Bitype.Pass.Downcast
import Bitype.Pass.Function
import Bitype.Pass.HeapLifeCycle
import Bitype.Pass.MemoryBuiltins

/-!
# The type of a free

`collectFree` takes the type of what is freed from the instruction in front of the call: if
that is a cast of a pointer to an interesting type, the type is recorded.  It looks neither at
the operand of the call nor at where the instruction belongs, since `InstPrev` is one variable
for the whole module, and not set at all at its first instruction.

`freesPaired_iff` says when this is right.  The cast in front of the call must be of a pointer,
and if it is of a pointer to an interesting type, then the freed pointer must come from a
pointer to that type too, from this cast or another one.
-/

namespace Bitype.Pass

open Bitype.Foundations Bitype.Runtime
open Bitype.Tool (Name)

/-! ## The calls that free -/

/-- The library functions `isFreeCall` knows, and how many parameters each has. -/
def freeFunctions : List (String × ℕ) :=
  [("free", 1), ("_ZdlPv", 1), ("_ZdaPv", 1), ("??3@YAXPAX@Z", 1), ("??3@YAXPEAX@Z", 1),
    ("??_V@YAXPAX@Z", 1), ("??_V@YAXPEAX@Z", 1), ("_ZdlPvj", 2), ("_ZdlPvm", 2),
    ("_ZdlPvRKSt9nothrow_t", 2), ("_ZdaPvj", 2), ("_ZdaPvm", 2), ("_ZdaPvRKSt9nothrow_t", 2),
    ("??3@YAXPAXI@Z", 2), ("??3@YAXPEAX_K@Z", 2), ("??3@YAXPAXABUnothrow_t@std@@@Z", 2),
    ("??3@YAXPEAXAEBUnothrow_t@std@@@Z", 2), ("??_V@YAXPAXI@Z", 2), ("??_V@YAXPEAX_K@Z", 2),
    ("??_V@YAXPAXABUnothrow_t@std@@@Z", 2), ("??_V@YAXPEAXAEBUnothrow_t@std@@@Z", 2)]

/-- What is looked at in a call: the function, if it is known, and the operands.  Whether the
call is marked `nobuiltin` is not: `getCalledFunction` says of every call that it is not. -/
structure FreeCandidate where
  calledFunction : Option Name
  isIntrinsic : Bool
  returnsVoid : Bool
  numParams : ℕ
  takesInt8Ptr : Bool
  args : List Value

def FreeCandidate.getArgOperand (call : FreeCandidate) (i : ℕ) : Value := call.args.getD i (.other 0)

/-- What `heapObjTracing` looks at in an instruction.  `srcTy` is the type that the source of
a `bitcast` points to, if it is a pointer. -/
inductive HeapInst
  | bitCast (value : Value) (srcTy : Option IRType)
  | call (call : FreeCandidate)
  | other

/-- The functions of a module, as lists of blocks.  A value is known by the position of its
instruction in the module. -/
abbrev HeapModule := List (List (List HeapInst))

/-- All instructions in order. -/
def HeapModule.insts (P : HeapModule) : List HeapInst := P.flatten.flatten

/-- A free that the pass has recorded: the position of the call, the pointer it frees and the
type. -/
structure Removal where
  call : ℕ
  operand : Value
  type : IRType

/-- The state of `heapObjTracing`. -/
structure Scan where
  position : ℕ
  instPrev : Option HeapInst
  heapObjsFree : List Removal
  handled : List Removal

section Scan

-- `TargetLibraryInfo::has`, by the name of the function
variable (has : Name → Bool) (M : Module) (files : ClassFiles) (inlineOpt : Bool)

/-- `isFreeCall`. -/
def isFreeCall (call : FreeCandidate) : Bool :=
  match call.calledFunction with
  | none => false
  | some funcName =>
      if call.isIntrinsic then false
      else
        match freeFunctions.find? fun entry =>
            entry.1.toList = MemoryBuiltins.sanitizeFunctionName funcName with
        | none => false
        | some entry =>
            has entry.1.toList && call.returnsVoid && call.numParams = entry.2 && call.takesInt8Ptr

/-- `collectFree`: the type that is recorded.  It fails if there is no instruction in front of
the call, or a cast of something that is no pointer. -/
def collectFree (call : FreeCandidate) (instPrev : Option HeapInst) : Option (Option IRType) :=
  if isFreeCall has call = true then
    match instPrev with
    | none => none
    | some (.bitCast _ none) => none
    | some (.bitCast _ (some VTy)) => some (if M.isInterestingType VTy then some VTy else none)
    | some _ => some none
  else some none

/-- The body of the loop over the instructions.  The calls that allocate are collected too;
that changes nothing for those that free. -/
def scanInst (s : Scan) : HeapInst → Option Scan
  | .call call => do
      let found ← collectFree has M call s.instPrev
      some { s with
        position := s.position + 1
        instPrev := some (.call call)
        heapObjsFree := s.heapObjsFree ++
          (found.map fun VTy => ⟨s.position, call.getArgOperand 0, VTy⟩).toList }
  | inst => some { s with position := s.position + 1, instPrev := some inst }

/-- The body of the loop over the blocks.  What has been recorded is handled behind the block,
where the sequences do not get in the way of the scan. -/
def scanBlock (s : Scan) (block : List HeapInst) : Option Scan := do
  let s ← block.foldlM (scanInst has M) s
  some { s with heapObjsFree := [], handled := s.handled ++ s.heapObjsFree }

def scanFunction (s : Scan) (blocks : List (List HeapInst)) : Option Scan :=
  blocks.foldlM (scanBlock has M) s

/-- `heapObjTracing`: the frees that `handleFree` goes over. -/
def heapObjTracing (P : HeapModule) : Option (List Removal) :=
  (P.foldlM (scanFunction has M) ⟨0, none, [], []⟩).map (·.handled)

/-- The sequence `handleFree` inserts for a free, where `value` gives the operands. -/
def Removal.events (r : Removal) (value : Value → Word) : List Event :=
  handleFree M files inlineOpt ⟨value r.operand, 0, r.type⟩

end Scan

/-! ## What is to be shown -/

/-- The value is the result of a cast of a pointer to the type. -/
def CastFrom (insts : List HeapInst) (v : Value) (type : IRType) : Prop :=
  ∃ i value, v = .inst i ∧ insts[i]? = some (.bitCast value (some type))

/-- A recorded free has the type of what is freed, and its sequence is that of the type. -/
structure Removal.Right (M : Module) (files : ClassFiles) (inlineOpt : Bool)
    (insts : List HeapInst) (r : Removal) : Prop where
  recorded : CastFrom insts r.operand r.type
  sequence : ∀ type, CastFrom insts r.operand type → ∀ value : Value → Word,
    r.events M files inlineOpt value = handleFree M files inlineOpt ⟨value r.operand, 0, type⟩

/-- The pass gets through the module, and every free it records has the right type. -/
def FreesPaired (has : Name → Bool) (M : Module) (files : ClassFiles) (inlineOpt : Bool)
    (P : HeapModule) : Prop :=
  ∃ removals, heapObjTracing has M P = some removals ∧
    ∀ r ∈ removals, r.Right M files inlineOpt P.insts

/-- The instruction in front, in the order of the module. -/
def previous (insts : List HeapInst) : ℕ → Option HeapInst
  | 0 => none
  | i + 1 => insts[i]?

/-- In front of every call that frees there is an instruction.  If it is a cast, it is of a
pointer, and if of a pointer to an interesting type, so is the freed pointer. -/
def FollowsItsCast (has : Name → Bool) (M : Module) (insts : List HeapInst) : Prop :=
  ∀ i call, insts[i]? = some (.call call) → isFreeCall has call = true →
    ∃ prev, previous insts i = some prev ∧ ∀ value srcTy, prev = .bitCast value srcTy →
      ∃ VTy, srcTy = some VTy ∧
        (M.isInterestingType VTy = true → CastFrom insts (call.getArgOperand 0) VTy)

/-! ## The scan -/

section Proofs

variable {has : Name → Bool} {M : Module} {insts : List HeapInst}

/-- A value is the result of one instruction. -/
theorem CastFrom.unique {v : Value} {type type' : IRType} (h : CastFrom insts v type)
    (h' : CastFrom insts v type') : type = type' := by
  obtain ⟨i, value, rfl, hinst⟩ := h
  obtain ⟨i', value', hsame, hinst'⟩ := h'
  rw [← Value.inst.inj hsame, hinst] at hinst'
  cases hinst'
  rfl

/-- What is recorded for the instruction at a position. -/
def removalAt (has : Name → Bool) (M : Module) (insts : List HeapInst) (i : ℕ) :
    Option (Option Removal) :=
  match insts[i]? with
  | some (.call call) =>
      (collectFree has M call (previous insts i)).map fun found =>
        found.map fun VTy => ⟨i, call.getArgOperand 0, VTy⟩
  | _ => some none

/-- The state once the first instructions have been scanned. -/
structure Scanned (has : Name → Bool) (M : Module) (insts : List HeapInst) (k : ℕ) (s : Scan) :
    Prop where
  position : s.position = k
  instPrev : s.instPrev = previous insts k
  passed : ∀ i < k, removalAt has M insts i ≠ none
  recorded : ∀ r, r ∈ s.handled ++ s.heapObjsFree ↔ ∃ i < k, removalAt has M insts i = some (some r)

/-- The state in front of a block. -/
structure AtBlock (has : Name → Bool) (M : Module) (insts : List HeapInst) (k : ℕ) (s : Scan) :
    Prop extends Scanned has M insts k s where
  handledAll : s.heapObjsFree = []

/-- The scan either fails where an instruction does, or gets to a state. -/
def Outcome (has : Name → Bool) (M : Module) (insts : List HeapInst) (At : Scan → Prop)
    (result : Option Scan) : Prop :=
  (result = none ∧ ∃ i < insts.length, removalAt has M insts i = none) ∨
    ∃ s, result = some s ∧ At s

theorem Scanned.step {k : ℕ} {s : Scan} {inst : HeapInst} (h : Scanned has M insts k s)
    (hinst : insts[k]? = some inst) :
    Outcome has M insts (Scanned has M insts (k + 1)) (scanInst has M s inst) := by
  have hlt : k < insts.length := (List.getElem?_eq_some_iff.mp hinst).1
  have hprev : previous insts (k + 1) = some inst := hinst
  -- the instruction at the position adds what is recorded for it
  have hnext : ∀ (found : Option Removal) (free : List Removal),
      removalAt has M insts k = some found → free = s.heapObjsFree ++ found.toList →
      Scanned has M insts (k + 1) ⟨k + 1, some inst, free, s.handled⟩ := by
    intro found free hfound hfree
    refine ⟨rfl, hprev.symm, fun i hi => ?_, fun r => ?_⟩
    · rcases Nat.lt_succ_iff_lt_or_eq.mp hi with hlater | rfl
      · exact h.passed i hlater
      · rw [hfound]
        exact Option.some_ne_none _
    · rw [hfree, ← List.append_assoc, List.mem_append, h.recorded r, Option.mem_toList]
      constructor
      · rintro (⟨i, hi, hr⟩ | hr)
        · exact ⟨i, hi.trans (Nat.lt_succ_self k), hr⟩
        · exact ⟨k, Nat.lt_succ_self k, by rw [hfound, hr]⟩
      · rintro ⟨i, hi, hr⟩
        rcases Nat.lt_succ_iff_lt_or_eq.mp hi with hlater | rfl
        · exact .inl ⟨i, hlater, hr⟩
        · exact .inr (Option.some.inj (hfound.symm.trans hr))
  have hpos := h.position
  cases inst with
  | call call =>
      have hat : removalAt has M insts k = (collectFree has M call s.instPrev).map fun found =>
          found.map fun VTy => ⟨k, call.getArgOperand 0, VTy⟩ := by
        rw [removalAt, hinst, h.instPrev]
      cases hfound : collectFree has M call s.instPrev with
      | none =>
          refine .inl ⟨by rw [scanInst, hfound]; rfl, k, hlt, ?_⟩
          rw [hat, hfound]
          rfl
      | some found =>
          refine .inr ⟨_, by rw [scanInst, hfound]; rfl, ?_⟩
          rw [hpos]
          apply hnext (found.map fun VTy => ⟨k, call.getArgOperand 0, VTy⟩) _ _ rfl
          rw [hat, hfound]
          rfl
  | bitCast value srcTy =>
      refine .inr ⟨_, rfl, ?_⟩
      rw [hpos]
      exact hnext none _ (by rw [removalAt, hinst]) (List.append_nil _).symm
  | other =>
      refine .inr ⟨_, rfl, ?_⟩
      rw [hpos]
      exact hnext none _ (by rw [removalAt, hinst]) (List.append_nil _).symm

/-- A loop over pieces of the module gets to the end of them. -/
theorem foldlM_outcome {α : Type} {At : ℕ → Scan → Prop} {body : Scan → α → Option Scan}
    (flat : α → List HeapInst)
    (hbody : ∀ before a after s, insts = before ++ flat a ++ after → At before.length s →
      Outcome has M insts (At (before ++ flat a).length) (body s a)) :
    ∀ (pieces : List α) (before after : List HeapInst) (s : Scan),
      insts = before ++ pieces.flatMap flat ++ after → At before.length s →
      Outcome has M insts (At (before ++ pieces.flatMap flat).length) (pieces.foldlM body s) := by
  intro pieces
  induction pieces with
  | nil =>
      intro before after s _ h
      rw [List.flatMap_nil, List.append_nil]
      exact .inr ⟨s, rfl, h⟩
  | cons a rest ih =>
      intro before after s heq h
      rw [List.flatMap_cons] at heq
      rw [List.foldlM_cons]
      rcases hbody before a (rest.flatMap flat ++ after) s (by simpa using heq) h with
        ⟨hnone, hfails⟩ | ⟨s', hsome, h'⟩
      · rw [hnone]
        exact .inl ⟨rfl, hfails⟩
      · rw [hsome, List.flatMap_cons, ← List.append_assoc]
        exact ih (before ++ flat a) after s' (by simpa using heq) h'

theorem scanBlock_outcome {before block after : List HeapInst} {s : Scan}
    (heq : insts = before ++ block ++ after) (h : AtBlock has M insts before.length s) :
    Outcome has M insts (AtBlock has M insts (before ++ block).length) (scanBlock has M s block) := by
  have hloop : Outcome has M insts (Scanned has M insts (before ++ block).length)
      (block.foldlM (scanInst has M) s) := by
    have hinsts := @foldlM_outcome has M insts HeapInst (Scanned has M insts) (scanInst has M)
      (fun inst => [inst]) (fun before inst after s heq h => by
        rw [List.length_append]
        exact h.step (by simp [heq])) block before after s (by simpa using heq) h.toScanned
    rwa [List.flatMap_singleton'] at hinsts
  rw [scanBlock]
  rcases hloop with ⟨hnone, hfails⟩ | ⟨s', hsome, h'⟩
  · rw [hnone]
    exact .inl ⟨rfl, hfails⟩
  · rw [hsome]
    refine .inr ⟨_, rfl, ⟨h'.position, h'.instPrev, h'.passed, fun r => ?_⟩, rfl⟩
    rw [List.append_nil]
    exact h'.recorded r

theorem scanFunction_outcome {before after : List HeapInst} {blocks : List (List HeapInst)}
    {s : Scan} (heq : insts = before ++ blocks.flatten ++ after)
    (h : AtBlock has M insts before.length s) :
    Outcome has M insts (AtBlock has M insts (before ++ blocks.flatten).length)
      (scanFunction has M s blocks) := by
  have hblocks := foldlM_outcome id (fun before block after s heq h => scanBlock_outcome heq h)
    blocks before after s (by simpa [List.flatMap_id] using heq) h
  rwa [List.flatMap_id] at hblocks

/-- **The scan of the module** fails where an instruction does, and otherwise gets to its end. -/
theorem heapObjTracing_outcome (P : HeapModule) :
    Outcome has M P.insts (AtBlock has M P.insts P.insts.length)
      (P.foldlM (scanFunction has M) ⟨0, none, [], []⟩) := by
  have hstart : AtBlock has M P.insts 0 ⟨0, none, [], []⟩ :=
    ⟨⟨rfl, rfl, fun i hi => absurd hi (Nat.not_lt_zero i), fun r => by simp⟩, rfl⟩
  have hflat : P.insts = P.flatMap List.flatten := by
    rw [HeapModule.insts, List.flatMap_def, List.flatten_flatten]
  have hloop := foldlM_outcome List.flatten
    (fun before blocks after s heq h => scanFunction_outcome heq h) P [] [] _
    (by simpa using hflat) hstart
  rwa [List.nil_append, ← hflat] at hloop

/-- The scan gets through if no instruction makes it fail. -/
theorem heapObjTracing_isSome {P : HeapModule} (h : ∀ i, removalAt has M P.insts i ≠ none) :
    ∃ removals, heapObjTracing has M P = some removals := by
  rcases @heapObjTracing_outcome has M P with ⟨-, i, -, hfails⟩ | ⟨s, hsome, -⟩
  · exact absurd hfails (h i)
  · exact ⟨s.handled, by rw [heapObjTracing, hsome]; rfl⟩

/-- What is recorded, if the scan gets through. -/
theorem heapObjTracing_spec {P : HeapModule} {removals : List Removal}
    (h : heapObjTracing has M P = some removals) :
    (∀ i < P.insts.length, removalAt has M P.insts i ≠ none) ∧
      ∀ r, r ∈ removals ↔ ∃ i < P.insts.length, removalAt has M P.insts i = some (some r) := by
  obtain ⟨s, hsome, rfl⟩ := Option.map_eq_some_iff.mp h
  rcases @heapObjTracing_outcome has M P with ⟨hnone, -⟩ | ⟨s', hsome', hend⟩
  · rw [hnone] at hsome
    cases hsome
  · obtain rfl := Option.some.inj (hsome.symm.trans hsome')
    refine ⟨hend.passed, fun r => ?_⟩
    rw [← hend.recorded r, hend.handledAll, List.append_nil]

/-! ## When the types are right -/

/-- What `collectFree` records, and when it fails. -/
theorem collectFree_spec {call : FreeCandidate} {instPrev : Option HeapInst}
    (hfree : isFreeCall has call = true) :
    (collectFree has M call instPrev ≠ none ↔
      ∃ prev, instPrev = some prev ∧ ∀ value srcTy, prev = .bitCast value srcTy →
        ∃ VTy, srcTy = some VTy) ∧
      ∀ VTy, collectFree has M call instPrev = some (some VTy) ↔
        M.isInterestingType VTy = true ∧ ∃ value, instPrev = some (.bitCast value (some VTy)) := by
  unfold collectFree
  rw [if_pos hfree]
  cases instPrev with
  | none => simp
  | some prev =>
      cases prev with
      | bitCast value srcTy =>
          cases srcTy with
          | none => simp
          | some type =>
              refine ⟨by simp, fun VTy => ?_⟩
              by_cases hinteresting : M.isInterestingType type = true
              · simp only [hinteresting, if_true, Option.some.injEq, HeapInst.bitCast.injEq]
                constructor
                · rintro rfl
                  exact ⟨hinteresting, value, rfl, rfl⟩
                · rintro ⟨-, -, -, rfl⟩
                  rfl
              · simp only [hinteresting, Option.some.injEq, HeapInst.bitCast.injEq]
                constructor
                · exact fun h => nomatch h
                · rintro ⟨htrue, -, -, rfl⟩
                  exact absurd htrue hinteresting
      | call call => simp
      | other => simp

theorem removalAt_call {i : ℕ} {call : FreeCandidate} (hcall : insts[i]? = some (.call call)) :
    removalAt has M insts i = (collectFree has M call (previous insts i)).map fun found =>
      found.map fun VTy => ⟨i, call.getArgOperand 0, VTy⟩ := by
  rw [removalAt, hcall]

/-- Only a call that frees makes the scan fail, or is recorded. -/
theorem removalAt_cases (insts : List HeapInst) (i : ℕ) : removalAt has M insts i = some none ∨
    ∃ call, insts[i]? = some (.call call) ∧ isFreeCall has call = true := by
  unfold removalAt
  split
  · next call hcall =>
      by_cases hfree : isFreeCall has call = true
      · exact .inr ⟨call, hcall, hfree⟩
      · exact .inl (by unfold collectFree; rw [if_neg hfree]; rfl)
  · exact .inl rfl

/-- A free with the right type gets the sequence of that type. -/
theorem Removal.right_of_castFrom {files : ClassFiles} {inlineOpt : Bool} {r : Removal}
    (h : CastFrom insts r.operand r.type) : r.Right M files inlineOpt insts where
  recorded := h
  sequence := fun type htype value => by rw [Removal.events, h.unique htype]

/-- What the condition says of the free at a position. -/
theorem FollowsItsCast.right {files : ClassFiles} {inlineOpt : Bool}
    (h : FollowsItsCast has M insts) (i : ℕ) : removalAt has M insts i ≠ none ∧
      ∀ r, removalAt has M insts i = some (some r) → r.Right M files inlineOpt insts := by
  rcases @removalAt_cases has M insts i with hnothing | ⟨call, hcall, hfree⟩
  · rw [hnothing]
    exact ⟨Option.some_ne_none _, fun r hr => nomatch hr⟩
  · obtain ⟨prev, hprev, hcast⟩ := h i call hcall hfree
    rw [removalAt_call hcall]
    constructor
    · rw [ne_eq, Option.map_eq_none_iff]
      refine (collectFree_spec hfree).1.mpr ⟨prev, hprev, fun value srcTy heq => ?_⟩
      obtain ⟨VTy, hVTy, -⟩ := hcast value srcTy heq
      exact ⟨VTy, hVTy⟩
    · intro r hr
      obtain ⟨found, hfound, hr⟩ := Option.map_eq_some_iff.mp hr
      obtain ⟨VTy, rfl, rfl⟩ := Option.map_eq_some_iff.mp hr
      obtain ⟨hinteresting, value, hbitCast⟩ := ((collectFree_spec hfree).2 VTy).mp hfound
      obtain ⟨type, hsame, hfrom⟩ := hcast value (some VTy) (Option.some.inj (hprev.symm.trans hbitCast))
      obtain rfl := Option.some.inj hsame
      exact Removal.right_of_castFrom (hfrom hinteresting)

/-- **When every free gets the right type.** -/
theorem freesPaired_iff (has : Name → Bool) (M : Module) (files : ClassFiles) (inlineOpt : Bool)
    (P : HeapModule) :
    FreesPaired has M files inlineOpt P ↔ FollowsItsCast has M P.insts := by
  constructor
  · rintro ⟨removals, hremovals, hright⟩ i call hcall hfree
    obtain ⟨hpassed, hrecorded⟩ := heapObjTracing_spec hremovals
    have hi : i < P.insts.length := (List.getElem?_eq_some_iff.mp hcall).1
    have hat := @removalAt_call has M _ _ _ hcall
    have hne : collectFree has M call (previous P.insts i) ≠ none := by
      intro hnone
      apply hpassed i hi
      rw [hat, hnone]
      rfl
    obtain ⟨prev, hprev, hcast⟩ := (collectFree_spec hfree).1.mp hne
    refine ⟨prev, hprev, fun value srcTy heq => ?_⟩
    obtain ⟨VTy, rfl⟩ := hcast value srcTy heq
    refine ⟨VTy, rfl, fun hinteresting => ?_⟩
    have hfound := ((collectFree_spec hfree).2 VTy).mpr ⟨hinteresting, value, heq ▸ hprev⟩
    exact (hright _ ((hrecorded _).mpr ⟨i, hi, by rw [hat, hfound]; rfl⟩)).recorded
  · intro hfollows
    obtain ⟨removals, hremovals⟩ := heapObjTracing_isSome fun i =>
      (@FollowsItsCast.right has M P.insts files inlineOpt hfollows i).1
    refine ⟨removals, hremovals, fun r hr => ?_⟩
    obtain ⟨i, -, hi⟩ := ((heapObjTracing_spec hremovals).2 r).mp hr
    exact (hfollows.right i).2 r hi

/-- The address of an object is cast, and then a block freed that has nothing to do with it. -/
def freesAnother : HeapModule :=
  [[[.bitCast (.other 1) (some (.struct 2)),
    .call ⟨some "free".toList, false, true, 1, true, [.other 0]⟩, .other]]]

/-- The free is recorded with the type of the object. -/
theorem freesAnother_wrong :
    ¬ FreesPaired (fun _ => true) pairModule (initReadFiles pairOutput) true freesAnother := by
  rintro ⟨removals, hremovals, hright⟩
  have hfree : isFreeCall (fun _ => true)
      ⟨some "free".toList, false, true, 1, true, [.other 0]⟩ = true := by decide +kernel
  have hinteresting : pairModule.isInterestingType (.struct 2) = true := by decide +kernel
  have hfound := ((collectFree_spec hfree).2 (.struct 2)).mpr ⟨hinteresting, .other 1, rfl⟩
  have hrecorded : (⟨1, .other 0, .struct 2⟩ : Removal) ∈ removals := by
    refine ((heapObjTracing_spec hremovals).2 _).mpr ⟨1, by decide, ?_⟩
    rw [removalAt_call rfl]
    exact congrArg _ hfound
  -- what is freed is no instruction at all
  obtain ⟨i, value, hsame, -⟩ := (hright _ hrecorded).recorded
  cases hsame

end Proofs

end Bitype.Pass
