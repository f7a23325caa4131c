import Bitype.Foundations.Semantics

/-!
# Code from a builder

A builder is called once for each instruction and hands out a value for later calls.  It folds an
operation on constants instead of emitting it, and numbers what it emits.  A `Recipe` is the
sequence of calls, for values of any type: for operands it is code to emit (`lower`), for the
values themselves it says what the code is for (`meaning`).

The two belong together if every call gets related arguments (`Related`), for any relation of the
values handed out; then the emitted code does what it is for (`lower_meaning`), and so does a
function in which it has been spliced in (`ends_built`, `built_ends`).
-/

namespace Bitype.Foundations.Flowchart

/-! ## Recipes -/

/-- Calls of a builder: operations `ω` that yield a value, effects `ε` and branches. -/
inductive Recipe (ω ε V : Type*)
  | done
  | create (op : ω) (args : List V) (rest : V → Recipe ω ε V)
  | effect (e : ε) (args : List V) (rest : Recipe ω ε V)
  | ifThen (condition : V) (body rest : Recipe ω ε V)
  | ifThenElse (condition : V) (thenBody elseBody rest : Recipe ω ε V)

/-- What operations and effects do.  The host's own values are numbered; no effect changes one.
An operation may be folded where that does not depend on the state. -/
structure Target (σ ω ε Val : Type*) where
  value : σ → ℕ → Val
  eval : ω → List Val → σ → Val
  perform : ε → List Val → σ → Option σ
  truth : Val → Bool
  fold : ω → List Val → Option Val
  fold_eq : ∀ {op args v}, fold op args = some v → ∀ s, eval op args s = v
  perform_value : ∀ {e args s s'}, perform e args s = some s' → value s' = value s

/-- The calls of two builders correspond. -/
inductive Recipe.Related {ω ε V W : Type*} (R : V → W → Prop) : Recipe ω ε V → Recipe ω ε W → Prop
  | done : Related R .done .done
  | create {op : ω} {args : List V} {args' : List W} {rest : V → Recipe ω ε V}
      {rest' : W → Recipe ω ε W} (hargs : List.Forall₂ R args args')
      (h : ∀ v w, R v w → Related R (rest v) (rest' w)) :
      Related R (.create op args rest) (.create op args' rest')
  | effect {e : ε} {args : List V} {args' : List W} {rest : Recipe ω ε V} {rest' : Recipe ω ε W}
      (hargs : List.Forall₂ R args args') (h : Related R rest rest') :
      Related R (.effect e args rest) (.effect e args' rest')
  | ifThen {c : V} {c' : W} {body rest : Recipe ω ε V} {body' rest' : Recipe ω ε W} (hc : R c c')
      (hbody : Related R body body') (h : Related R rest rest') :
      Related R (.ifThen c body rest) (.ifThen c' body' rest')
  | ifThenElse {c : V} {c' : W} {thenBody elseBody rest : Recipe ω ε V}
      {thenBody' elseBody' rest' : Recipe ω ε W} (hc : R c c') (hthen : Related R thenBody thenBody')
      (helse : Related R elseBody elseBody') (h : Related R rest rest') :
      Related R (.ifThenElse c thenBody elseBody rest) (.ifThenElse c' thenBody' elseBody' rest')

section Meaning

variable {σ ω ε Val : Type*} (T : Target σ ω ε Val)

/-- What a recipe does to a state. -/
def Recipe.meaning : Recipe ω ε Val → σ → Option σ
  | .done, s => some s
  | .create op args rest, s => (rest (T.eval op args s)).meaning s
  | .effect e args rest, s => (T.perform e args s).bind rest.meaning
  | .ifThen condition body rest, s =>
      (if T.truth condition = true then body.meaning s else some s).bind rest.meaning
  | .ifThenElse condition thenBody elseBody rest, s =>
      (if T.truth condition = true then thenBody.meaning s else elseBody.meaning s).bind rest.meaning

end Meaning

/-! ## Emitted instructions -/

/-- What an instruction names: a constant, a value of the host, or the `n`-th value built at a
site. -/
inductive Operand (Val : Type*)
  | const (v : Val)
  | host (r : ℕ)
  | built (site n : ℕ)

def Operand.const? {Val : Type*} : Operand Val → Option Val
  | const v => some v
  | _ => none

/-- An instruction of the host, or one that was built; `branch` and `test` read the condition of
the fork behind them. -/
inductive Instr (κ ω ε Val : Type*)
  | host (i : κ)
  | branch
  | assign (site n : ℕ) (op : ω) (args : List (Operand Val))
  | perform (e : ε) (args : List (Operand Val))
  | test (condition : Operand Val)

/-- The state of the host, the values built and the condition of the next fork. -/
structure Built (σ Val : Type*) where
  host : σ
  values : ℕ → ℕ → Val
  condition : Bool

section Lowering

variable {σ κ ω ε Val : Type*} (T : Target σ ω ε Val)

/-- The value of an operand. -/
def Operand.eval (st : Built σ Val) : Operand Val → Val
  | const v => v
  | host r => T.value st.host r
  | built site n => st.values site n

/-- What the builder emits at a site, with values numbered from `n` on. -/
def lower (site : ℕ) : Recipe ω ε (Operand Val) → ℕ → Code (Instr κ ω ε Val) × ℕ
  | .done, n => (.done, n)
  | .create op args rest, n =>
      match (args.mapM Operand.const?).bind (T.fold op) with
      | some v => lower site (rest (.const v)) n
      | none =>
          let emitted := lower site (rest (.built site n)) (n + 1)
          (.inst (.assign site n op args) emitted.1, emitted.2)
  | .effect e args rest, n =>
      let emitted := lower site rest n
      (.inst (.perform e args) emitted.1, emitted.2)
  | .ifThen condition body rest, n =>
      let emitted := lower site body n
      let others := lower site rest emitted.2
      (.inst (.test condition) (.ifThen emitted.1 others.1), others.2)
  | .ifThenElse condition thenBody elseBody rest, n =>
      let thenEmitted := lower site thenBody n
      let elseEmitted := lower site elseBody thenEmitted.2
      let others := lower site rest elseEmitted.2
      (.inst (.test condition) (.ifThenElse thenEmitted.1 elseEmitted.1 others.1), others.2)

/-- Executing the host with what has been built into it. -/
def building (H : Semantics σ κ) : Semantics (Built σ Val) (Instr κ ω ε Val) where
  step
    | .host i, st => (H.step i st.host).map fun s => { st with host := s }
    | .branch, st => some { st with condition := H.takes st.host }
    | .assign site n op args, st =>
        some { st with
          values := Function.update st.values site
            (Function.update (st.values site) n (T.eval op (args.map (·.eval T st)) st.host)) }
    | .perform e args, st =>
        (T.perform e (args.map (·.eval T st)) st.host).map fun s => { st with host := s }
    | .test condition, st => some { st with condition := T.truth (condition.eval T st) }
  takes st := st.condition
  select id st := H.select id st.host

end Lowering

section Correctness

variable {σ κ ω ε Val : Type*} {T : Target σ ω ε Val} {H : Semantics σ κ} {site : ℕ}

/-- At a site an operand is known to have a value: a constant, one of the host's, or one of the
first `n` built there. -/
inductive Operand.Known (T : Target σ ω ε Val) (site n : ℕ) (st : Built σ Val) :
    Operand Val → Val → Prop
  | const (v : Val) : Known T site n st (.const v) v
  | host (r : ℕ) : Known T site n st (.host r) (T.value st.host r)
  | built {k : ℕ} (hk : k < n) : Known T site n st (.built site k) (st.values site k)

/-- Later at the site: what was built before has not changed, nor have the host's values. -/
structure Later (T : Target σ ω ε Val) (site n : ℕ) (st st' : Built σ Val) : Prop where
  value : T.value st'.host = T.value st.host
  values : ∀ k < n, st'.values site k = st.values site k

variable {n n' : ℕ} {st st' : Built σ Val}

theorem Later.refl (st : Built σ Val) : Later T site n st st := ⟨rfl, fun _ _ => rfl⟩

theorem Later.trans {st₁ : Built σ Val} (h : Later T site n st st₁) (h' : Later T site n' st₁ st')
    (hle : n ≤ n') : Later T site n st st' where
  value := h'.value.trans h.value
  values k hk := (h'.values k (hk.trans_le hle)).trans (h.values k hk)

theorem Operand.Known.eval_eq {v : Operand Val} {w : Val} (h : v.Known T site n st w) :
    v.eval T st = w := by
  cases h <;> rfl

theorem Operand.Known.later {v : Operand Val} {w : Val} (h : v.Known T site n st w)
    (hlater : Later T site n st st') (hle : n ≤ n') : v.Known T site n' st' w := by
  cases h with
  | const => exact .const _
  | host r =>
      rw [← hlater.value]
      exact .host r
  | built hk =>
      rw [← hlater.values _ hk]
      exact .built (hk.trans_le hle)

theorem eval_args {args : List (Operand Val)} {values : List Val}
    (h : List.Forall₂ (Operand.Known T site n st) args values) :
    args.map (·.eval T st) = values := by
  induction h with
  | nil => rfl
  | cons hfirst _ ih => rw [List.map_cons, hfirst.eval_eq, ih]

theorem const_args {args : List (Operand Val)} {values constants : List Val}
    (h : List.Forall₂ (Operand.Known T site n st) args values)
    (hconst : args.mapM Operand.const? = some constants) : values = constants := by
  induction h generalizing constants with
  | nil =>
      rw [List.mapM_nil] at hconst
      exact Option.some.inj hconst
  | @cons v w args values hfirst _ ih =>
      rw [List.mapM_cons] at hconst
      obtain ⟨c, hc, hconst⟩ := Option.bind_eq_some_iff.mp hconst
      obtain ⟨rest, hrest, hconst⟩ := Option.bind_eq_some_iff.mp hconst
      obtain rfl := Option.some.inj hconst
      cases hfirst with
      | const => rw [Option.some.inj hc, ih hrest]
      | host => cases hc
      | built => cases hc

/-- A recipe for operands and one for values whose calls correspond, whatever is handed out. -/
def Corresponds (T : Target σ ω ε Val) (site n : ℕ) (st : Built σ Val)
    (p : Recipe ω ε (Operand Val)) (q : Recipe ω ε Val) : Prop :=
  ∀ R : Operand Val → Val → Prop, (∀ v w, v.Known T site n st w → R v w) → Recipe.Related R p q

namespace Corresponds

variable {e : ε} {op : ω} {args : List (Operand Val)} {c : Operand Val}
  {body p rest thenBody elseBody : Recipe ω ε (Operand Val)} {q : Recipe ω ε Val}
  {k : Operand Val → Recipe ω ε (Operand Val)}

theorem known (h : Corresponds T site n st p q) :
    Recipe.Related (Operand.Known T site n st) p q := h _ fun _ _ hknown => hknown

theorem later (h : Corresponds T site n st p q) (hlater : Later T site n st st') (hle : n ≤ n') :
    Corresponds T site n' st' p q :=
  fun R hR => h R fun v w hknown => hR v w (hknown.later hlater hle)

theorem create (h : Corresponds T site n st (.create op args k) q) :
    ∃ args' k', q = .create op args' k' ∧ List.Forall₂ (Operand.Known T site n st) args args' ∧
      ∀ n' st' v w, Later T site n st st' → n ≤ n' → v.Known T site n' st' w →
        Corresponds T site n' st' (k v) (k' w) := by
  cases h.known with
  | @create _ _ args' _ k' hargs _ =>
      refine ⟨args', k', rfl, hargs, fun n' st' v w hlater hle hknown R hR => ?_⟩
      cases h.later hlater hle R hR with
      | create _ hrest => exact hrest v w (hR v w hknown)

theorem effect (h : Corresponds T site n st (.effect e args rest) q) :
    ∃ args' rest', q = .effect e args' rest' ∧
      List.Forall₂ (Operand.Known T site n st) args args' ∧ Corresponds T site n st rest rest' := by
  cases h.known with
  | @effect _ _ args' _ rest' hargs _ =>
      refine ⟨args', rest', rfl, hargs, fun R hR => ?_⟩
      cases h R hR with
      | effect _ hrest => exact hrest

theorem ifThen (h : Corresponds T site n st (.ifThen c body rest) q) :
    ∃ c' body' rest', q = .ifThen c' body' rest' ∧ c.Known T site n st c' ∧
      Corresponds T site n st body body' ∧ Corresponds T site n st rest rest' := by
  cases h.known with
  | @ifThen _ c' _ _ body' rest' hc _ _ =>
      refine ⟨c', body', rest', rfl, hc, fun R hR => ?_, fun R hR => ?_⟩
      · cases h R hR with
        | ifThen _ hbody _ => exact hbody
      · cases h R hR with
        | ifThen _ _ hrest => exact hrest

theorem ifThenElse (h : Corresponds T site n st (.ifThenElse c thenBody elseBody rest) q) :
    ∃ c' thenBody' elseBody' rest', q = .ifThenElse c' thenBody' elseBody' rest' ∧
      c.Known T site n st c' ∧ Corresponds T site n st thenBody thenBody' ∧
      Corresponds T site n st elseBody elseBody' ∧ Corresponds T site n st rest rest' := by
  cases h.known with
  | @ifThenElse _ c' _ _ _ thenBody' elseBody' rest' hc _ _ _ =>
      refine ⟨c', thenBody', elseBody', rest', rfl, hc, fun R hR => ?_, fun R hR => ?_,
        fun R hR => ?_⟩
      · cases h R hR with
        | ifThenElse _ hthen _ _ => exact hthen
      · cases h R hR with
        | ifThenElse _ _ helse _ => exact helse
      · cases h R hR with
        | ifThenElse _ _ _ hrest => exact hrest

end Corresponds

variable (κ T site) in
theorem lower_le : ∀ (p : Recipe ω ε (Operand Val)) (n : ℕ),
    n ≤ (lower T site p n : Code (Instr κ ω ε Val) × ℕ).2 := by
  intro p
  induction p with
  | done => exact fun n => le_rfl
  | create op args rest ih =>
      intro n
      rw [lower]
      split
      · exact ih _ n
      · exact (Nat.le_succ n).trans (ih _ (n + 1))
  | effect e args rest ih => exact fun n => ih n
  | ifThen condition body rest ihBody ih => exact fun n => (ihBody n).trans (ih _)
  | ifThenElse condition thenBody elseBody rest ihThen ihElse ih =>
      exact fun n => (ihThen n).trans ((ihElse _).trans (ih _))

/-- What emitted code leaves: the state of the host that its recipe means. -/
def Leads (T : Target σ ω ε Val) (site n : ℕ) (st st' : Built σ Val) (s' : σ) : Prop :=
  st'.host = s' ∧ Later T site n st st'

theorem Leads.bind {x : Option (Built σ Val)} {y : Option σ} {f : Built σ Val → Option (Built σ Val)}
    {g : σ → Option σ} (h : Option.Rel (Leads T site n st) x y) (hle : n ≤ n')
    (hnext : ∀ st₁, x = some st₁ → Later T site n st st₁ →
      Option.Rel (Leads T site n' st₁) (f st₁) (g st₁.host)) :
    Option.Rel (Leads T site n st) (x.bind f) (y.bind g) := by
  cases h with
  | none => exact .none
  | @some st₁ s₁ hleads =>
      obtain ⟨rfl, hlater⟩ := hleads
      have hrest := hnext st₁ rfl hlater
      rw [Option.bind_some, Option.bind_some]
      generalize f st₁ = x at hrest ⊢
      generalize g st₁.host = y at hrest ⊢
      cases hrest with
      | none => exact .none
      | some hleads' => exact .some ⟨hleads'.1, hlater.trans hleads'.2 hle⟩

theorem Leads.from {st₁ : Built σ Val} {x : Option (Built σ Val)} {y : Option σ}
    (hlater : Later T site n st st₁) (h : Option.Rel (Leads T site n st₁) x y) :
    Option.Rel (Leads T site n st) x y := by
  cases h with
  | none => exact .none
  | some hleads => exact .some ⟨hleads.1, hlater.trans hleads.2 le_rfl⟩

theorem Leads.below {x : Option (Built σ Val)} {y : Option σ} (hle : n ≤ n')
    (h : Option.Rel (Leads T site n' st) x y) : Option.Rel (Leads T site n st) x y := by
  cases h with
  | none => exact .none
  | some hleads => exact .some ⟨hleads.1, hleads.2.value, fun k hk => hleads.2.values k (hk.trans_le hle)⟩

variable (T H site) in
/-- The instruction for an operation: afterwards the operand handed out has its value. -/
theorem assign_step (op : ω) (args : List (Operand Val)) (n : ℕ) (st : Built σ Val) :
    ∃ st₁, (building T H).step (.assign site n op args) st = some st₁ ∧ st₁.host = st.host ∧
      Later T site n st st₁ ∧ Operand.Known T site (n + 1) st₁ (.built site n)
        (T.eval op (args.map (·.eval T st)) st.host) := by
  generalize hw : T.eval op (args.map (·.eval T st)) st.host = w
  have hself : Function.update st.values site (Function.update (st.values site) n w) site =
      Function.update (st.values site) n w := Function.update_self ..
  refine ⟨{ st with values := Function.update st.values site (Function.update (st.values site) n w) },
    by rw [← hw]; rfl, rfl, ⟨rfl, fun k hk => ?_⟩, ?_⟩
  · show Function.update st.values site (Function.update (st.values site) n w) site k = _
    rw [hself]
    exact Function.update_of_ne hk.ne _ _
  · have hbuilt : Operand.Known T site (n + 1) { st with
        values := Function.update st.values site (Function.update (st.values site) n w) }
        (.built site n)
        (Function.update st.values site (Function.update (st.values site) n w) site n) :=
      .built (Nat.lt_succ_self n)
    rwa [hself, Function.update_self] at hbuilt

/-- The instruction in front of a fork that has been emitted: the fork goes by its operand. -/
theorem test_step {c : Operand Val} {c' : Val} (hc : c.Known T site n st c') :
    ∃ st₁, (building T H).step (.test c) st = some st₁ ∧ st₁.host = st.host ∧
      Later T site n st st₁ ∧ (building T H).takes st₁ = T.truth c' :=
  ⟨{ st with condition := T.truth c' }, by rw [← hc.eval_eq]; rfl, rfl, ⟨rfl, fun _ _ => rfl⟩, rfl⟩

/-- **Emitted code does what its recipe means.** -/
theorem lower_meaning (p : Recipe ω ε (Operand Val)) : ∀ (n : ℕ) (st : Built σ Val)
    (q : Recipe ω ε Val), Corresponds T site n st p q →
      Option.Rel (Leads T site n st) ((building T H).runCode (lower T site p n).1 st)
        (q.meaning T st.host) := by
  induction p with
  | done =>
      intro n st q h
      cases h.known
      exact .some ⟨rfl, .refl st⟩
  | create op args rest ih =>
      intro n st q h
      obtain ⟨args', k', rfl, hargs, hrest⟩ := h.create
      rw [lower, Recipe.meaning]
      split
      · next v hfold =>
          -- a folded operation has the same value in every state
          obtain ⟨constants, hconst, hfold⟩ := Option.bind_eq_some_iff.mp hfold
          obtain rfl := const_args hargs hconst
          rw [T.fold_eq hfold]
          exact ih _ n st _ (hrest n st _ _ (.refl st) le_rfl (.const v))
      · obtain ⟨st₁, hstep, hhost, hlater, hknown⟩ :=
          assign_step T H site op args n st
        rw [eval_args hargs] at hknown
        have hfirst : Option.Rel (Leads T site n st)
            ((building T H).step (.assign site n op args) st) (some st.host) := by
          rw [hstep]
          exact .some ⟨hhost, hlater⟩
        rw [Semantics.runCode]
        refine Leads.bind (g := (k' _).meaning T) hfirst (Nat.le_succ n) fun st₂ hst₂ hlater₂ => ?_
        obtain rfl := Option.some.inj (hstep.symm.trans hst₂)
        exact ih _ (n + 1) _ _ (hrest (n + 1) _ _ _ hlater (Nat.le_succ n) hknown)
  | effect e args rest ih =>
      intro n st q h
      obtain ⟨args', rest', rfl, hargs, hrest⟩ := h.effect
      have hfirst : Option.Rel (Leads T site n st) ((building T H).step (.perform e args) st)
          (T.perform e args' st.host) := by
        have hstep : (building T H).step (.perform e args) st =
            (T.perform e args' st.host).map fun s => { st with host := s } := by
          rw [← eval_args hargs]
          rfl
        rw [hstep]
        cases hperform : T.perform e args' st.host with
        | none => exact .none
        | some s₁ => exact .some ⟨rfl, T.perform_value hperform, fun _ _ => rfl⟩
      rw [lower, Recipe.meaning, Semantics.runCode]
      exact Leads.bind hfirst le_rfl fun st₁ _ hlater =>
        ih n st₁ rest' (hrest.later hlater le_rfl)
  | ifThen condition body rest ihBody ih =>
      intro n st q h
      obtain ⟨c', body', rest', rfl, hc, hbody, hrest⟩ := h.ifThen
      obtain ⟨st₁, hstep, hhost, hlater, htakes⟩ := test_step (H := H) hc
      have hbranch : Option.Rel (Leads T site n st₁)
          (if (building T H).takes st₁ = true then
            (building T H).runCode (lower T site body n).1 st₁ else some st₁)
          (if T.truth c' = true then body'.meaning T st.host else some st.host) := by
        rw [htakes, ← hhost]
        split
        · exact ihBody n st₁ body' (hbody.later hlater le_rfl)
        · exact .some ⟨rfl, .refl st₁⟩
      rw [lower, Recipe.meaning, Semantics.runCode, hstep, Option.bind_some, Semantics.runCode]
      refine Leads.from hlater (Leads.bind hbranch (lower_le κ T site body n) fun st₂ _ hlater₂ => ?_)
      exact ih _ st₂ rest' ((hrest.later hlater le_rfl).later hlater₂ (lower_le κ T site body n))
  | ifThenElse condition thenBody elseBody rest ihThen ihElse ih =>
      intro n st q h
      obtain ⟨c', thenBody', elseBody', rest', rfl, hc, hthen, helse, hrest⟩ := h.ifThenElse
      obtain ⟨st₁, hstep, hhost, hlater, htakes⟩ := test_step (H := H) hc
      have hle := lower_le κ T site thenBody n
      have hle' := hle.trans (lower_le κ T site elseBody _)
      have hbranch : Option.Rel (Leads T site n st₁)
          (if (building T H).takes st₁ = true then
            (building T H).runCode (lower T site thenBody n).1 st₁ else
            (building T H).runCode (lower T site elseBody
              (lower T site thenBody n : Code (Instr κ ω ε Val) × ℕ).2).1 st₁)
          (if T.truth c' = true then thenBody'.meaning T st.host else
            elseBody'.meaning T st.host) := by
        rw [htakes, ← hhost]
        split
        · exact ihThen n st₁ thenBody' (hthen.later hlater le_rfl)
        · exact Leads.below hle (ihElse _ st₁ elseBody' (helse.later hlater hle))
      rw [lower, Recipe.meaning, Semantics.runCode, hstep, Option.bind_some, Semantics.runCode]
      refine Leads.from hlater (Leads.bind hbranch hle' fun st₂ _ hlater₂ => ?_)
      exact ih _ st₂ rest' ((hrest.later hlater le_rfl).later hlater₂ hle')

end Correctness

/-! ## Functions -/

section Functions

variable {σ κ ω ε Val : Type*}

/-- What a builder emits in place of an instruction of the host, and what it is for. -/
structure Emission (T : Target σ ω ε Val) where
  site : ℕ
  recipe : Recipe ω ε (Operand Val)
  meant : σ → Recipe ω ε Val
  corresponds : ∀ st : Built σ Val, Corresponds T site 0 st recipe (meant st.host)

/-- The host's function, before anything has been built. -/
def Chart.hosted (ω ε Val : Type*) (F : Chart κ) : Chart (Instr κ ω ε Val) where
  blocks := F.blocks.map fun b => ⟨b.label, b.insts.map .host ++ [.branch], b.exit⟩
  nextLabel := F.nextLabel
  nodup := by
    rw [List.map_map]
    exact F.nodup
  below := by
    intro block hblock
    obtain ⟨b, hb, rfl⟩ := List.mem_map.mp hblock
    exact F.below b hb
  closed := by
    intro block hblock
    obtain ⟨b, hb, rfl⟩ := List.mem_map.mp hblock
    exact F.closed b hb

variable {T : Target σ ω ε Val} (emits : κ → Option (Emission T))

/-- The code that stands for an instruction. -/
def expandBuilt : Instr κ ω ε Val → Option (Code (Instr κ ω ε Val))
  | .host i => (emits i).map fun e => (lower T e.site e.recipe 0).1
  | _ => none

/-- An instruction for which code is emitted does what the code is for. -/
def Semantics.replacing (H : Semantics σ κ) : Semantics σ κ :=
  { H with
    step := fun i s =>
      match emits i with
      | none => H.step i s
      | some e => (e.meant s).meaning T s }

variable {emits} {H : Semantics σ κ}

theorem Semantics.step_replacing_none {i : κ} (h : emits i = none) (s : σ) :
    (H.replacing emits).step i s = H.step i s := by
  simp only [replacing, h]

theorem Semantics.step_replacing_some {i : κ} {e : Emission T} (h : emits i = some e) (s : σ) :
    (H.replacing emits).step i s = (e.meant s).meaning T s := by
  simp only [replacing, h]

/-- What a builder emits holds no instruction of the host. -/
theorem lower_built {T : Target σ ω ε Val} {site : ℕ} (p : Recipe ω ε (Operand Val)) :
    ∀ (n : ℕ), ∀ j ∈ (lower T site p n : Code (Instr κ ω ε Val) × ℕ).1.listing,
      ∀ i : κ, j ≠ .host i := by
  induction p with
  | done => exact fun n j hj => absurd hj List.not_mem_nil
  | create op args rest ih =>
      intro n j hj
      rw [lower] at hj
      split at hj
      -- a constant that is folded leaves no instruction
      · exact ih _ n j hj
      · rcases List.mem_cons.mp hj with rfl | hj
        · exact fun i h => nomatch h
        · exact ih _ (n + 1) j hj
  | effect e args rest ih =>
      intro n j hj
      rcases List.mem_cons.mp hj with rfl | hj
      · exact fun i h => nomatch h
      · exact ih n j hj
  | ifThen condition body rest ihBody ih =>
      intro n j hj
      rcases List.mem_cons.mp hj with rfl | hj
      · exact fun i h => nomatch h
      · rcases List.mem_append.mp hj with hj | hj
        · exact ihBody n j hj
        · exact ih _ j hj
  | ifThenElse condition thenBody elseBody rest ihThen ihElse ih =>
      intro n j hj
      rcases List.mem_cons.mp hj with rfl | hj
      · exact fun i h => nomatch h
      · rcases List.mem_append.mp hj with hj | hj
        · exact ihThen n j hj
        · rcases List.mem_append.mp hj with hj | hj
          · exact ihElse _ j hj
          · exact ih _ j hj

variable (emits) in
/-- So it is not expanded again. -/
theorem expandBuilt_free (i : Instr κ ω ε Val) (code : Code (Instr κ ω ε Val))
    (h : expandBuilt emits i = some code) : ∀ j ∈ code.listing, expandBuilt emits j = none := by
  intro j hj
  cases i with
  | host i =>
      obtain ⟨e, -, rfl⟩ := Option.map_eq_some_iff.mp h
      have hbuilt := lower_built e.recipe 0 j hj
      cases j with
      | host i' => exact absurd rfl (hbuilt i')
      | _ => rfl
  | _ => cases h

theorem step_expandBuilt (i : κ) (st : Built σ Val) :
    Option.Rel (fun st' s' => st'.host = s')
      (((building T H).expanding (expandBuilt emits)).step (.host i) st)
      ((H.replacing emits).step i st.host) := by
  cases hemits : emits i with
  | none =>
      have hnone : expandBuilt emits (.host i) = none := by rw [expandBuilt, hemits, Option.map_none]
      rw [Semantics.step_expanding_none hnone, Semantics.step_replacing_none hemits]
      show Option.Rel _ ((H.step i st.host).map fun s => { st with host := s }) _
      cases H.step i st.host with
      | none => exact .none
      | some s => exact .some rfl
  | some e =>
      have hsome : expandBuilt emits (.host i) = some (lower T e.site e.recipe 0).1 := by
        rw [expandBuilt, hemits, Option.map_some]
      rw [Semantics.step_expanding_some hsome, Semantics.step_replacing_some hemits]
      have hrel := lower_meaning (H := H) e.recipe 0 st _ (e.corresponds st)
      generalize (building T H).runCode _ st = x at hrel ⊢
      generalize (e.meant st.host).meaning T st.host = y at hrel ⊢
      cases hrel with
      | none => exact .none
      | some hleads => exact .some hleads.1

variable (emits) in
theorem run_expanding (insts : List κ) : ∀ st : Built σ Val,
    Option.Rel (fun st' s' => st'.host = s')
      (((building T H).expanding (expandBuilt emits)).run (insts.map .host) st)
      ((H.replacing emits).run insts st.host) := by
  induction insts with
  | nil => exact fun st => .some rfl
  | cons i rest ih =>
      intro st
      have hstep : Option.Rel (fun st' s' => st'.host = s')
          (((building T H).expanding (expandBuilt emits)).step (.host i) st)
          ((H.replacing emits).step i st.host) := step_expandBuilt i st
      rw [List.map_cons, Machine.run_cons, Machine.run_cons]
      generalize ((building T H).expanding (expandBuilt emits)).step (.host i) st = x at hstep ⊢
      generalize (H.replacing emits).step i st.host = y at hstep ⊢
      cases hstep with
      | none => exact .none
      | @some st₁ s₁ hhost =>
          subst hhost
          exact ih st₁

variable (emits) in
/-- A block of the host behind which the condition of its fork is read. -/
theorem run_block (insts : List κ) (st : Built σ Val) (exit : Exit) :
    Option.Rel (fun st' s' => st'.host = s' ∧
        ((building T H).expanding (expandBuilt emits)).next exit st' =
          (H.replacing emits).next exit s')
      (((building T H).expanding (expandBuilt emits)).run (insts.map .host ++ [.branch]) st)
      ((H.replacing emits).run insts st.host) := by
  have hrel := run_expanding (H := H) emits insts st
  rw [Machine.run_append]
  generalize ((building T H).expanding (expandBuilt emits)).run (insts.map .host) st = x at hrel ⊢
  generalize (H.replacing emits).run insts st.host = y at hrel ⊢
  cases hrel with
  | none => exact .none
  | @some st₁ s₁ hhost =>
      subst hhost
      refine .some ⟨rfl, ?_⟩
      cases exit <;> rfl

variable {F : Chart κ} {l : ℕ} {last : Exit}

/-- **A function with code from a builder** ends like the host's function in which an instruction
that was replaced does what its code is for. -/
theorem ends_built {st st' : Built σ Val} (hl : l < F.nextLabel)
    (h : (building T H).Ends ((F.hosted ω ε Val).expanded (expandBuilt emits)).blocks l st st' last) :
    (H.replacing emits).Ends F.blocks l st.host st'.host last := by
  rw [Chart.ends_expanded (F := F.hosted ω ε Val) hl] at h
  have hsim : Semantics.Simulates ((building T H).expanding (expandBuilt emits)) (H.replacing emits)
      (F.hosted ω ε Val).blocks F.blocks fun st s => st.host = s := by
    intro block hblock
    obtain ⟨b, hb, rfl⟩ := List.mem_map.mp hblock
    refine ⟨b, hb, rfl, rfl, fun st s st' hhost hrun => ?_⟩
    subst hhost
    have hrel := run_block (H := H) emits b.insts st b.exit
    rw [show ((building T H).expanding (expandBuilt emits)).run (b.insts.map .host ++ [.branch]) st =
      some st' from hrun] at hrel
    generalize (H.replacing emits).run b.insts st.host = y at hrel ⊢
    cases hrel with
    | some h => exact ⟨_, rfl, h.1, h.2.symm⟩
  obtain ⟨s', hs', hends⟩ := hsim.ends rfl h
  exact hs' ▸ hends

/-- And the other way round. -/
theorem built_ends (st : Built σ Val) {s' : σ} (hl : l < F.nextLabel)
    (h : (H.replacing emits).Ends F.blocks l st.host s' last) :
    ∃ st', st'.host = s' ∧
      (building T H).Ends ((F.hosted ω ε Val).expanded (expandBuilt emits)).blocks l st st' last := by
  have hsim : Semantics.Simulates (H.replacing emits) ((building T H).expanding (expandBuilt emits))
      F.blocks (F.hosted ω ε Val).blocks fun s st => st.host = s := by
    intro b hb
    refine ⟨_, List.mem_map_of_mem hb, rfl, rfl, fun s st s' hhost hrun => ?_⟩
    subst hhost
    have hrel := run_block (H := H) emits b.insts st b.exit
    rw [hrun] at hrel
    generalize ((building T H).expanding (expandBuilt emits)).run
      (b.insts.map .host ++ [.branch]) st = x at hrel ⊢
    cases hrel with
    | some h => exact ⟨_, rfl, h.1, h.2⟩
  obtain ⟨st', hst', hends⟩ := hsim.ends rfl h
  exact ⟨st', hst', (Chart.ends_expanded (F := F.hosted ω ε Val) hl).mpr hends⟩

end Functions

/-! ## Building again -/

section Again

variable {σ κ ω ε Val : Type*} {T : Target σ ω ε Val}

/-- The state of the host is inside what has been built into it. -/
def Target.lifted (T : Target σ ω ε Val) : Target (Built σ Val) ω ε Val where
  value st := T.value st.host
  eval op args st := T.eval op args st.host
  perform e args st := (T.perform e args st.host).map fun s => { st with host := s }
  truth := T.truth
  fold := T.fold
  fold_eq h st := T.fold_eq h st.host
  perform_value h := by
    obtain ⟨s, hs, rfl⟩ := Option.map_eq_some_iff.mp h
    exact T.perform_value hs

theorem Recipe.meaning_lifted (p : Recipe ω ε Val) : ∀ st : Built σ Val,
    p.meaning T.lifted st = (p.meaning T st.host).map fun s => { st with host := s } := by
  -- what comes behind code that has done its part
  have hbehind : ∀ {rest : Recipe ω ε Val} (st : Built σ Val) (x : Option σ),
      (∀ st : Built σ Val, rest.meaning T.lifted st =
        (rest.meaning T st.host).map fun s => { st with host := s }) →
      (x.map fun s => { st with host := s }).bind (rest.meaning T.lifted) =
        (x.bind (rest.meaning T)).map fun s => { st with host := s } := by
    intro rest st x ih
    cases x with
    | none => rfl
    | some s => exact ih { st with host := s }
  induction p with
  | done => exact fun st => rfl
  | create op args rest ih => exact fun st => ih _ st
  | effect e args rest ih => exact fun st => hbehind st _ ih
  | ifThen condition body rest ihBody ih =>
      intro st
      have hbranch : (if T.truth condition = true then body.meaning T.lifted st else some st) =
          (if T.truth condition = true then body.meaning T st.host else some st.host).map
            fun s => { st with host := s } := by
        split
        · exact ihBody st
        · rfl
      exact (congrArg (·.bind (rest.meaning T.lifted)) hbranch).trans (hbehind st _ ih)
  | ifThenElse condition thenBody elseBody rest ihThen ihElse ih =>
      intro st
      have hbranch : (if T.truth condition = true then thenBody.meaning T.lifted st else
            elseBody.meaning T.lifted st) =
          (if T.truth condition = true then thenBody.meaning T st.host else
            elseBody.meaning T st.host).map fun s => { st with host := s } := by
        split
        · exact ihThen st
        · exact ihElse st
      exact (congrArg (·.bind (rest.meaning T.lifted)) hbranch).trans (hbehind st _ ih)

/-- An operand that is known by what is inside is known. -/
theorem Operand.Known.lift {site n : ℕ} {st : Built (Built σ Val) Val} {v : Operand Val} {w : Val}
    (h : v.Known T site n ⟨st.host.host, st.values, st.condition⟩ w) : v.Known T.lifted site n st w := by
  cases h with
  | const => exact .const _
  | host r => exact .host (T := T.lifted) r
  | built hk => exact .built (T := T.lifted) hk

/-- Code for the host's instructions, emitted once other code is there. -/
def Emission.lifted (e : Emission T) : Emission T.lifted where
  site := e.site
  recipe := e.recipe
  meant st := e.meant st.host
  corresponds st R hR :=
    e.corresponds ⟨st.host.host, st.values, st.condition⟩ R fun v w hknown => hR v w hknown.lift

variable (emits : κ → Option (Emission T))

def liftedEmits : Instr κ ω ε Val → Option (Emission T.lifted)
  | .host i => (emits i).map Emission.lifted
  | _ => none

/-- What is built into code that was built replaces the host's instructions. -/
theorem replacing_building (H : Semantics σ κ) :
    (building T H).replacing (liftedEmits emits) = building T (H.replacing emits) := by
  have hstep : ((building T H).replacing (liftedEmits emits)).step =
      (building T (H.replacing emits)).step := by
    funext i st
    cases i with
    | host i =>
        cases hemits : emits i with
        | none =>
            have hnone : liftedEmits emits (.host i : Instr κ ω ε Val) = none := by
              rw [liftedEmits, hemits, Option.map_none]
            rw [Semantics.step_replacing_none hnone]
            show (H.step i st.host).map _ = ((H.replacing emits).step i st.host).map _
            rw [Semantics.step_replacing_none hemits]
        | some e =>
            have hsome : liftedEmits emits (.host i : Instr κ ω ε Val) = some e.lifted := by
              rw [liftedEmits, hemits, Option.map_some]
            rw [Semantics.step_replacing_some hsome]
            show (e.meant st.host).meaning T.lifted st = ((H.replacing emits).step i st.host).map _
            rw [Semantics.step_replacing_some hemits, Recipe.meaning_lifted]
    | branch => rfl
    | assign site n op args => rfl
    | perform e args => rfl
    | test condition => rfl
  exact congrArg (fun step => Semantics.mk ⟨step⟩ _ _) hstep

end Again

end Bitype.Foundations.Flowchart
