import Bitype.Pass.Downcast

/-!
# Parameters by value

`handleFnParameter` copies a class parameter that comes by value into a variable of its own and
lets that variable stand for it, so that the scan for variables finds it.  It goes through the
parameters in order, and at the first one that does not come by value it returns, instead of
going on to the next.

Each copy is put in front of what the entry block has so far, so those of later parameters come
first (`handleParams_blocks`).  `parametersTraced_iff` says that the parameters behind the first
one that is not by value are the only ones that are missed.
-/

namespace Bitype.Pass.Parameters

open Bitype.Tool (Name)

/-! ## Functions -/

/-- A parameter: `hasByValAttr`, with the type it points to, or not. -/
inductive Param
  | byVal (pointee : IRType)
  | plain

/-- An operand: a parameter, the result of an instruction, or something else. -/
inductive Value
  | arg (k : ℕ)
  | inst (id : ℕ)
  | other (n : ℕ)
deriving DecidableEq

/-- What an instruction does, as far as it matters here. -/
inductive Op
  | alloca (type : IRType)
  | bitCast
  | memcpy (size align : ℕ) (isVolatile : Bool)
  | other (n : ℕ)

structure Inst where
  id : ℕ
  op : Op
  operands : List Value

/-- A function; the first block is the entry.  New instructions get numbers from `nextId` on. -/
structure Function where
  name : Name
  params : List Param
  blocks : List (List Inst)
  nextId : ℕ
  fresh : ∀ block ∈ blocks, ∀ inst ∈ block, inst.id < nextId

/-! ## The pass -/

/-- The instructions that copy a parameter into the variable `n`: the casts of the parameter and
of the variable come after the variable, in this order.  The source gives the `memcpy` five
operands, the size, 1 and 0 behind the addresses, where it has four parameters: a build with
assertions stops there, and one without takes the 1 for `isVolatile`. -/
def copyOf (size k n : ℕ) (type : IRType) : List Inst :=
  [⟨n, .alloca type, []⟩, ⟨n + 1, .bitCast, [.arg k]⟩, ⟨n + 2, .bitCast, [.inst n]⟩,
    ⟨n + 3, .memcpy size 1 false, [.inst (n + 2), .inst (n + 1)]⟩]

/-- Give an instruction other operands. -/
def Inst.replaceUses (inst : Inst) (uses : Value → Value) : Inst :=
  { inst with operands := inst.operands.map uses }

/-- `replaceAllUsesWith`, on an operand. -/
def replaceArg (k n : ℕ) (v : Value) : Value := if v = .arg k then .inst n else v

/-- Insert at `getFirstInsertionPt`; an entry block has no phis. -/
def insertInEntry (code : List Inst) : List (List Inst) → List (List Inst)
  | [] => []
  | entry :: rest => (code ++ entry) :: rest

def replaceInBlocks (uses : Value → Value) (blocks : List (List Inst)) : List (List Inst) :=
  blocks.map fun block => block.map fun inst => inst.replaceUses uses

theorem mem_insertInEntry {code : List Inst} {blocks : List (List Inst)} {block : List Inst}
    {inst : Inst} (hblock : block ∈ insertInEntry code blocks) (hinst : inst ∈ block) :
    inst ∈ code ∨ ∃ block' ∈ blocks, inst ∈ block' := by
  cases blocks with
  | nil => cases hblock
  | cons entry rest =>
      rcases List.mem_cons.mp hblock with rfl | hrest
      · rcases List.mem_append.mp hinst with hcode | hentry
        · exact .inl hcode
        · exact .inr ⟨entry, List.mem_cons_self, hentry⟩
      · exact .inr ⟨block, List.mem_cons_of_mem _ hrest, hinst⟩

theorem mem_replaceInBlocks {uses : Value → Value} {blocks : List (List Inst)} {inst : Inst}
    (h : ∃ block ∈ replaceInBlocks uses blocks, inst ∈ block) :
    ∃ block ∈ blocks, ∃ inst' ∈ block, inst'.id = inst.id := by
  obtain ⟨block, hblock, hinst⟩ := h
  obtain ⟨block', hblock', rfl⟩ := List.mem_map.mp hblock
  obtain ⟨inst', hinst', rfl⟩ := List.mem_map.mp hinst
  exact ⟨block', hblock', inst', hinst', rfl⟩

theorem copyOf_id {size k n : ℕ} {type : IRType} {inst : Inst}
    (h : inst ∈ copyOf size k n type) : n ≤ inst.id ∧ inst.id < n + 4 := by
  simp only [copyOf, List.mem_cons, List.not_mem_nil, or_false] at h
  rcases h with rfl | rfl | rfl | rfl <;> exact ⟨by simp, by simp⟩

section Pass

variable (T : TypeTable)

/-- `getTypeStoreSize`, of an aggregate: its size is a multiple of its alignment. -/
def getTypeStoreSize (type : IRType) : ℕ := T.getTypeAllocSize type

/-- What `handleFnParameter` does for a parameter.  Its uses are replaced before it is cast. -/
def copyParam (k : ℕ) (type : IRType) (F : Function) : Function where
  name := F.name
  params := F.params
  blocks := insertInEntry (copyOf (getTypeStoreSize T type) k F.nextId type)
    (replaceInBlocks (replaceArg k F.nextId) F.blocks)
  nextId := F.nextId + 4
  fresh := by
    intro block hblock inst hinst
    rcases mem_insertInEntry hblock hinst with hcode | hold
    · exact (copyOf_id hcode).2
    · obtain ⟨block', hblock', inst', hinst', hid⟩ := mem_replaceInBlocks hold
      have hless := F.fresh block' hblock' inst' hinst'
      omega

/-- The loop over the parameters. -/
def handleParams : List Param → ℕ → Function → Function
  | [], _, F => F
  | .plain :: _, _, F => F
  | .byVal type :: rest, k, F =>
      handleParams rest (k + 1) (if T.isInterestingType type = true then copyParam T k type F else F)

/-- `isInterestingFn`, which `handleFnParameter` asks again. -/
def isInterestingFn (F : Function) : Bool :=
  match F.blocks with
  | [] => false
  | entry :: _ => !entry.isEmpty && !"__init_global_object".toList.isPrefixOf F.name

def handleFnParameter (F : Function) : Function :=
  if isInterestingFn F = true then handleParams T F.params 0 F else F

/-- `collectAllocaInstInfo` over the function, without the search for safe variables. -/
def allAllocaSet (F : Function) : List ℕ :=
  F.blocks.flatten.filterMap fun inst =>
    match inst.op with
    | .alloca type => if T.isInterestingType type = true then some inst.id else none
    | _ => none

/-- The loop body of `stackObjTracing`: the function in the end, and the variables found. -/
def stackObjTracing (F : Function) : Function × List ℕ :=
  if isInterestingFn F = true then (handleFnParameter T F, allAllocaSet T (handleFnParameter T F))
  else (F, [])

end Pass

/-! ## What is to be shown -/

/-- The variable of a parameter. -/
structure Local where
  param : ℕ
  type : IRType
  alloca : ℕ

/-- What stands for a value. -/
def uses (locals : List Local) : Value → Value
  | .arg k =>
      match locals.find? fun l => l.param = k with
      | some l => .inst l.alloca
      | none => .arg k
  | v => v

/-- The code that copies parameters; that of a later one comes first. -/
def copies (T : TypeTable) (locals : List Local) : List Inst :=
  locals.reverse.flatMap fun l => copyOf (getTypeStoreSize T l.type) l.param l.alloca l.type

/-- The parameters by value that have an interesting type are copied into variables of their
own, which are found, and nothing else is changed. -/
structure Handled (T : TypeTable) (F F' : Function) (found : List ℕ) (locals : List Local) :
    Prop where
  params : ∀ k type, (∃ n, ⟨k, type, n⟩ ∈ locals) ↔
    F.params[k]? = some (Param.byVal type) ∧ T.isInterestingType type = true
  onePerParam : (locals.map (·.param)).Nodup
  distinct : (locals.map (·.alloca)).Nodup
  fresh : ∀ l ∈ locals, ∀ block ∈ F.blocks, ∀ inst ∈ block, inst.id ≠ l.alloca
  found : ∀ l ∈ locals, l.alloca ∈ found
  blocks : F'.blocks = insertInEntry (copies T locals) (replaceInBlocks (uses locals) F.blocks)
  header : F'.name = F.name ∧ F'.params = F.params

/-- All class parameters by value are traced. -/
def ParametersTraced (T : TypeTable) (F : Function) : Prop :=
  ∃ locals, Handled T F (stackObjTracing T F).1 (stackObjTracing T F).2 locals

/-- The pass looks into the function, and an interesting parameter by value is only behind others
that come by value. -/
def ByValFirst (T : TypeTable) (F : Function) : Prop :=
  ∀ (k : ℕ) type, F.params[k]? = some (Param.byVal type) → T.isInterestingType type = true →
    isInterestingFn F = true ∧ ∀ j < k, F.params[j]? ≠ some Param.plain

/-! ## The loop -/

variable {T : TypeTable} {F : Function}

/-- The variables made for the parameters from `k` on, up to the first that is not by value. -/
def localsOf (T : TypeTable) : List Param → ℕ → ℕ → List Local
  | .byVal type :: rest, k, n =>
      if T.isInterestingType type = true then ⟨k, type, n⟩ :: localsOf T rest (k + 1) (n + 4)
      else localsOf T rest (k + 1) n
  | _, _, _ => []

theorem uses_nil (v : Value) : uses [] v = v := by
  cases v <;> rfl

theorem replaceInBlocks_uses_nil (blocks : List (List Inst)) :
    replaceInBlocks (uses []) blocks = blocks := by
  have hinst : ∀ inst : Inst, inst.replaceUses (uses []) = inst := by
    intro inst
    rw [Inst.replaceUses, funext uses_nil, List.map_id']
  rw [replaceInBlocks]
  simp only [hinst, List.map_id']

/-- To replace the first parameter and then the others is to replace all. -/
theorem uses_cons (l : Local) (locals : List Local) (v : Value) :
    uses (l :: locals) v = uses locals (replaceArg l.param l.alloca v) := by
  cases v with
  | arg k =>
      by_cases hk : k = l.param
      · simp [uses, replaceArg, hk]
      · have hk' : l.param ≠ k := fun h => hk h.symm
        simp [uses, replaceArg, hk, hk']
  | inst id => rfl
  | other n => rfl

theorem insertInEntry_append (code code' : List Inst) (blocks : List (List Inst)) :
    insertInEntry code (insertInEntry code' blocks) = insertInEntry (code ++ code') blocks := by
  cases blocks with
  | nil => rfl
  | cons entry rest => simp [insertInEntry]

theorem replaceInBlocks_insertInEntry (f : Value → Value) (code : List Inst)
    (blocks : List (List Inst)) : replaceInBlocks f (insertInEntry code blocks) =
      insertInEntry (code.map fun inst => inst.replaceUses f) (replaceInBlocks f blocks) := by
  cases blocks with
  | nil => rfl
  | cons entry rest => simp [insertInEntry, replaceInBlocks]

theorem replaceInBlocks_comp (f g : Value → Value) (blocks : List (List Inst)) :
    replaceInBlocks f (replaceInBlocks g blocks) = replaceInBlocks (fun v => f (g v)) blocks := by
  simp [replaceInBlocks, Inst.replaceUses, Function.comp_def]

/-- The copy of a parameter is not touched when other parameters are replaced. -/
theorem copyOf_replaceUses {size k n : ℕ} {type : IRType} {locals : List Local}
    (h : ∀ l ∈ locals, l.param ≠ k) :
    (copyOf size k n type).map (fun inst => inst.replaceUses (uses locals)) =
      copyOf size k n type := by
  have hnone : locals.find? (fun l => l.param = k) = none := by
    rw [List.find?_eq_none]
    intro l hl
    simpa using h l hl
  have harg : uses locals (.arg k) = .arg k := by simp [uses, hnone]
  have hinst : ∀ id, uses locals (.inst id) = .inst id := fun _ => rfl
  simp [copyOf, Inst.replaceUses, harg, hinst]

theorem localsOf_param_ge : ∀ (params : List Param) (k n : ℕ), ∀ l ∈ localsOf T params k n,
    k ≤ l.param := by
  intro params
  induction params with
  | nil => exact fun _ _ l hl => nomatch hl
  | cons param rest ih =>
      intro k n l hl
      cases param with
      | plain => cases hl
      | byVal type =>
          rw [localsOf] at hl
          split at hl
          · rcases List.mem_cons.mp hl with rfl | hlater
            · exact le_rfl
            · exact (Nat.le_succ k).trans (ih (k + 1) (n + 4) l hlater)
          · exact (Nat.le_succ k).trans (ih (k + 1) n l hl)

/-- **What the loop makes of the blocks.** -/
theorem handleParams_blocks : ∀ (params : List Param) (k : ℕ) (F : Function),
    (handleParams T params k F).blocks =
      insertInEntry (copies T (localsOf T params k F.nextId))
        (replaceInBlocks (uses (localsOf T params k F.nextId)) F.blocks) := by
  intro params
  induction params with
  | nil =>
      intro k F
      rw [handleParams, localsOf, replaceInBlocks_uses_nil]
      · cases F.blocks <;> rfl
      · exact fun _ _ h => nomatch h
  | cons param rest ih =>
      intro k F
      cases param with
      | plain =>
          rw [handleParams, localsOf, replaceInBlocks_uses_nil]
          · cases F.blocks <;> rfl
          · exact fun _ _ h => nomatch h
      | byVal type =>
          rw [handleParams, ih, localsOf]
          split
          -- the later variables belong to later parameters
          · have hothers : ∀ l ∈ localsOf T rest (k + 1) (F.nextId + 4), l.param ≠ k := by
              intro l hl
              have hge := localsOf_param_ge rest (k + 1) (F.nextId + 4) l hl
              omega
            have huses : uses (⟨k, type, F.nextId⟩ :: localsOf T rest (k + 1) (F.nextId + 4)) =
                fun v => uses (localsOf T rest (k + 1) (F.nextId + 4)) (replaceArg k F.nextId v) :=
              funext fun v => uses_cons ⟨k, type, F.nextId⟩ _ v
            rw [copyParam, huses, replaceInBlocks_insertInEntry, copyOf_replaceUses hothers,
              insertInEntry_append, replaceInBlocks_comp]
            simp [copies]
          · rfl

/-! ## The variables -/

/-- The parameters from some on, the first of which comes by value: it, or one behind it. -/
theorem reached_cons {first type : IRType} {rest : List Param} {k j : ℕ} {P : Prop} :
    (∃ i, j = k + i ∧ (Param.byVal first :: rest)[i]? = some (.byVal type) ∧ P ∧
        ∀ i' < i, (Param.byVal first :: rest)[i']? ≠ some .plain) ↔
      (j = k ∧ first = type ∧ P) ∨
        ∃ i, j = k + 1 + i ∧ rest[i]? = some (.byVal type) ∧ P ∧
          ∀ i' < i, rest[i']? ≠ some .plain := by
  constructor
  · rintro ⟨i, rfl, hparam, h, hbefore⟩
    cases i with
    | zero =>
        cases hparam
        exact .inl ⟨rfl, rfl, h⟩
    | succ i =>
        refine .inr ⟨i, by omega, hparam, h, fun i' hi' => ?_⟩
        exact hbefore (i' + 1) (Nat.succ_lt_succ hi')
  · rintro (⟨rfl, rfl, h⟩ | ⟨i, rfl, hparam, h, hbefore⟩)
    · exact ⟨0, rfl, rfl, h, fun i' hi' => absurd hi' (Nat.not_lt_zero i')⟩
    · refine ⟨i + 1, by omega, hparam, h, fun i' hi' => ?_⟩
      cases i' with
      | zero => exact fun h => nomatch h
      | succ i' => exact hbefore i' (Nat.lt_of_succ_lt_succ hi')

/-- Which parameters get a variable. -/
theorem mem_localsOf : ∀ (params : List Param) (k n j : ℕ) (type : IRType),
    (∃ m, ⟨j, type, m⟩ ∈ localsOf T params k n) ↔
      ∃ i, j = k + i ∧ params[i]? = some (.byVal type) ∧ T.isInterestingType type = true ∧
        ∀ i' < i, params[i']? ≠ some .plain := by
  intro params
  induction params with
  | nil => simp [localsOf]
  | cons param rest ih =>
      intro k n j type
      cases param with
      | plain =>
          -- the loop ends at the first parameter that is not passed by value
          constructor
          · rintro ⟨m, hm⟩
            cases hm
          · rintro ⟨i, -, hparam, -, hbefore⟩
            cases i with
            | zero => cases hparam
            | succ i => exact absurd rfl (hbefore 0 (Nat.succ_pos i))
      | byVal first =>
          rw [reached_cons, localsOf]
          split
          · next hinteresting =>
              rw [← ih (k + 1) (n + 4) j type]
              constructor
              · rintro ⟨m, hm⟩
                rcases List.mem_cons.mp hm with hself | hlater
                · cases hself
                  exact .inl ⟨rfl, rfl, hinteresting⟩
                · exact .inr ⟨m, hlater⟩
              · rintro (⟨rfl, rfl, -⟩ | ⟨m, hm⟩)
                · exact ⟨n, List.mem_cons_self⟩
                · exact ⟨m, List.mem_cons_of_mem _ hm⟩
          · next hplain =>
              rw [ih (k + 1) n j type]
              constructor
              · exact .inr
              · rintro (⟨-, rfl, hinteresting⟩ | h)
                · exact absurd hinteresting hplain
                · exact h

theorem localsOf_alloca_ge : ∀ (params : List Param) (k n : ℕ), ∀ l ∈ localsOf T params k n,
    n ≤ l.alloca := by
  intro params
  induction params with
  | nil => exact fun _ _ l hl => nomatch hl
  | cons param rest ih =>
      intro k n l hl
      cases param with
      | plain => cases hl
      | byVal type =>
          rw [localsOf] at hl
          split at hl
          · rcases List.mem_cons.mp hl with rfl | hlater
            · exact le_rfl
            · exact (Nat.le_add_right n 4).trans (ih (k + 1) (n + 4) l hlater)
          · exact ih (k + 1) n l hl

/-- No two of the variables have a parameter or a number in common. -/
theorem localsOf_nodup : ∀ (params : List Param) (k n : ℕ),
    ((localsOf T params k n).map (·.param)).Nodup ∧
      ((localsOf T params k n).map (·.alloca)).Nodup := by
  intro params
  induction params with
  | nil => exact fun _ _ => ⟨List.nodup_nil, List.nodup_nil⟩
  | cons param rest ih =>
      intro k n
      cases param with
      | plain => exact ⟨List.nodup_nil, List.nodup_nil⟩
      | byVal type =>
          rw [localsOf]
          split
          · obtain ⟨hparams, hallocas⟩ := ih (k + 1) (n + 4)
            constructor
            · refine List.nodup_cons.mpr ⟨fun hmem => ?_, hparams⟩
              obtain ⟨l, hl, hsame⟩ := List.mem_map.mp hmem
              have hge := localsOf_param_ge rest (k + 1) (n + 4) l hl
              dsimp only at hsame
              omega
            · refine List.nodup_cons.mpr ⟨fun hmem => ?_, hallocas⟩
              obtain ⟨l, hl, hsame⟩ := List.mem_map.mp hmem
              have hge := localsOf_alloca_ge rest (k + 1) (n + 4) l hl
              dsimp only at hsame
              omega
          · exact ih (k + 1) n

theorem localsOf_interesting {params : List Param} {k n : ℕ} {l : Local}
    (h : l ∈ localsOf T params k n) : T.isInterestingType l.type = true := by
  obtain ⟨i, -, -, hinteresting, -⟩ := (mem_localsOf params k n l.param l.type).mp ⟨l.alloca, h⟩
  exact hinteresting

theorem handleParams_header : ∀ (params : List Param) (k : ℕ) (F : Function),
    (handleParams T params k F).name = F.name ∧ (handleParams T params k F).params = F.params := by
  intro params
  induction params with
  | nil => exact fun _ _ => ⟨rfl, rfl⟩
  | cons param rest ih =>
      intro k F
      cases param with
      | plain => exact ⟨rfl, rfl⟩
      | byVal type =>
          rw [handleParams]
          split
          · exact ih (k + 1) (copyParam T k type F)
          · exact ih (k + 1) F

/-- The entry block of a function that is looked into. -/
theorem isInterestingFn_blocks (h : isInterestingFn F = true) :
    ∃ entry rest, F.blocks = entry :: rest := by
  unfold isInterestingFn at h
  split at h
  · cases h
  · next entry rest hblocks => exact ⟨entry, rest, hblocks⟩

theorem mem_insertInEntry_code {code : List Inst} {entry : List Inst} {rest : List (List Inst)}
    {inst : Inst} (h : inst ∈ code) : inst ∈ (insertInEntry code (entry :: rest)).flatten :=
  List.mem_append_left _ (List.mem_append_left _ h)

/-- The variables are found. -/
theorem localsOf_found (h : isInterestingFn F = true) {l : Local}
    (hl : l ∈ localsOf T F.params 0 F.nextId) :
    l.alloca ∈ allAllocaSet T (handleParams T F.params 0 F) := by
  obtain ⟨entry, rest, hblocks⟩ := isInterestingFn_blocks h
  refine List.mem_filterMap.mpr ⟨⟨l.alloca, .alloca l.type, []⟩, ?_, ?_⟩
  · rw [handleParams_blocks, hblocks]
    apply mem_insertInEntry_code
    exact List.mem_flatMap.mpr ⟨l, List.mem_reverse.mpr hl, List.mem_cons_self⟩
  · exact if_pos (localsOf_interesting hl)

/-! ## When all are traced -/

/-- The cast of a parameter is there only if it has a variable. -/
theorem cast_mem_copies {locals : List Local} {m k : ℕ}
    (h : ⟨m, .bitCast, [.arg k]⟩ ∈ copies T locals) : ∃ l ∈ locals, l.param = k := by
  obtain ⟨l, hl, hmem⟩ := List.mem_flatMap.mp h
  refine ⟨l, List.mem_reverse.mp hl, ?_⟩
  simp only [copyOf, List.mem_cons, Inst.mk.injEq, List.not_mem_nil, reduceCtorEq,
    and_false, true_and, List.cons.injEq, Value.arg.injEq, and_true, or_false, false_or] at hmem
  exact hmem.2.symm

/-- The copies that stand in front of the entry block are those of the loop. -/
theorem Handled.copies_eq {F' : Function} {found : List ℕ} {locals locals' : List Local}
    {entry : List Inst} {rest : List (List Inst)} (hblocks : F.blocks = entry :: rest)
    (h : Handled T F F' found locals)
    (h' : F'.blocks = insertInEntry (copies T locals') (replaceInBlocks (uses locals') F.blocks)) :
    copies T locals = copies T locals' := by
  have hsame := h.blocks.symm.trans h'
  rw [hblocks] at hsame
  have hentry := (List.cons.inj hsame).1
  exact (List.append_inj' hentry (by simp)).1

/-- What becomes of a function that is looked into. -/
theorem stackObjTracing_interesting (h : isInterestingFn F = true) : stackObjTracing T F =
    (handleParams T F.params 0 F, allAllocaSet T (handleParams T F.params 0 F)) := by
  rw [stackObjTracing, if_pos h, handleFnParameter, if_pos h]

theorem stackObjTracing_other (h : ¬ isInterestingFn F = true) : stackObjTracing T F = (F, []) := by
  rw [stackObjTracing, if_neg h]

/-- A parameter that has been copied was reached by the loop. -/
theorem Handled.reached {found : List ℕ} {locals : List Local} {k : ℕ}
    {type : IRType} (hfn : isInterestingFn F = true)
    (h : Handled T F (handleParams T F.params 0 F) found locals)
    (hparam : F.params[k]? = some (.byVal type)) (hinteresting : T.isInterestingType type = true) :
    ∀ j < k, F.params[j]? ≠ some .plain := by
  obtain ⟨n, hn⟩ := (h.params k type).mpr ⟨hparam, hinteresting⟩
  obtain ⟨entry, rest, hblocks⟩ := isInterestingFn_blocks hfn
  have hcast : ⟨n + 1, .bitCast, [.arg k]⟩ ∈ copies T locals :=
    List.mem_flatMap.mpr ⟨_, List.mem_reverse.mpr hn, by simp [copyOf]⟩
  rw [h.copies_eq hblocks (handleParams_blocks F.params 0 F)] at hcast
  obtain ⟨l, hl, rfl⟩ := cast_mem_copies hcast
  obtain ⟨i, hi, -, -, hbefore⟩ :=
    (mem_localsOf F.params 0 F.nextId l.param l.type).mp ⟨l.alloca, hl⟩
  obtain rfl : l.param = i := by omega
  exact hbefore

/-- If all parameters of interest are reached, the loop does what it should. -/
theorem handled_localsOf (hfn : isInterestingFn F = true)
    (h : ∀ (k : ℕ) type, F.params[k]? = some (Param.byVal type) → T.isInterestingType type = true →
      ∀ j < k, F.params[j]? ≠ some Param.plain) :
    Handled T F (handleParams T F.params 0 F) (allAllocaSet T (handleParams T F.params 0 F))
      (localsOf T F.params 0 F.nextId) where
  params k type := by
    rw [mem_localsOf]
    constructor
    · rintro ⟨i, hi, hparam, hinteresting, -⟩
      obtain rfl : k = i := by omega
      exact ⟨hparam, hinteresting⟩
    · rintro ⟨hparam, hinteresting⟩
      exact ⟨k, by omega, hparam, hinteresting, h k type hparam hinteresting⟩
  onePerParam := (localsOf_nodup F.params 0 F.nextId).1
  distinct := (localsOf_nodup F.params 0 F.nextId).2
  fresh l hl block hblock inst hinst :=
    (Nat.lt_of_lt_of_le (F.fresh block hblock inst hinst)
      (localsOf_alloca_ge F.params 0 F.nextId l hl)).ne
  found _ hl := localsOf_found hfn hl
  blocks := handleParams_blocks F.params 0 F
  header := handleParams_header F.params 0 F

/-- **When all class parameters by value are traced.** -/
theorem parametersTraced_iff (T : TypeTable) (F : Function) :
    ParametersTraced T F ↔ ByValFirst T F := by
  unfold ParametersTraced
  by_cases hfn : isInterestingFn F = true
  · rw [stackObjTracing_interesting hfn]
    constructor
    · rintro ⟨locals, h⟩ k type hparam hinteresting
      exact ⟨hfn, h.reached hfn hparam hinteresting⟩
    · intro h
      exact ⟨_, handled_localsOf hfn fun k type hparam hinteresting =>
        (h k type hparam hinteresting).2⟩
  · rw [stackObjTracing_other hfn]
    constructor
    · rintro ⟨locals, h⟩ k type hparam hinteresting
      obtain ⟨n, hn⟩ := (h.params k type).mpr ⟨hparam, hinteresting⟩
      cases h.found _ hn
    · intro h
      refine ⟨[], fun k type => ⟨fun hmem => ?_, fun hparam => ?_⟩, List.nodup_nil, List.nodup_nil,
        (fun l hl => nomatch hl), (fun l hl => nomatch hl), ?_, rfl, rfl⟩
      · obtain ⟨n, hn⟩ := hmem
        cases hn
      · exact absurd (h k type hparam.1 hparam.2).1 hfn
      · rw [replaceInBlocks_uses_nil]
        cases F.blocks <;> rfl

/-- A member function that takes an object by value, after `this`. -/
def memberFunction : Function where
  name := "_ZN1A1fE1B".toList
  params := [.plain, .byVal (.struct 2)]
  blocks := [[⟨0, .other 0, [.arg 1]⟩]]
  nextId := 1
  fresh := by simp

/-- The object gets no variable. -/
theorem memberFunction_missed : ¬ ParametersTraced pairModule.toTypeTable memberFunction := by
  rintro ⟨locals, h⟩
  have hinteresting : pairModule.isInterestingType (.struct 2) = true := by decide +kernel
  obtain ⟨n, hn⟩ := (h.params 1 (.struct 2)).mpr ⟨rfl, hinteresting⟩
  have hnone : (stackObjTracing pairModule.toTypeTable memberFunction).2 = [] := by decide +kernel
  have hfound := h.found _ hn
  rw [hnone] at hfound
  cases hfound

end Bitype.Pass.Parameters
