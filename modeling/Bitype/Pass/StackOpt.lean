import Bitype.Pass.ProcessChecks
import Bitype.Pass.StackInverse

/-!
# Functions that call nothing

With `-stack-opt` the pass does not trace the objects of functions for which `isSafeStackFn`
returns false.  `mayCast` is to search the call graph for a check, but its loop returns at the
first edge, so what is left out are the functions without a call (`stackObjTracing_eq`).
`handleFnParameter` is left out of both programs: a function here is one whose parameters have
been copied already, or that has none by value.

No check misses them.  A check is a call or holds one, so while one runs no call of such a
function is open, and the table is as if all functions had been traced (`stack_opt_checks`).
The two programs go through the same run step by step; they differ in the granules of the
newest call at most.
-/

namespace Bitype.Pass

open Bitype.Foundations Bitype.Runtime
open Bitype.Tool (Name)

/-! ## The choice of functions -/

/-- The instruction is an edge of the call graph.  What takes the place of a check calls
`__bitype_print_type_confusion`; the intrinsics of the model are leaves. -/
def Inst.isCall : Inst → Bool
  | .call _ | .castVerification .. => true
  | _ => false

/-- `(*CG)[F]`. -/
def Function.callGraph (F : Function) : List ℕ :=
  F.positions.filter fun i => F.insts[i]?.any Inst.isCall

/-- `mayCast`; the loop is left at its first edge. -/
def mayCast (isDeclaration : Bool) (edges : List ℕ) (mayCastMap : Std.TreeMap ℕ Bool) (f : ℕ) :
    Bool :=
  if isDeclaration = true then true
  else
    match mayCastMap[f]? with
    | some result => result
    | none =>
        match edges with
        | _ :: _ => true
        | [] => false

/-- `isSafeStackFn`, for a function with a body.  `std::map::insert` keeps what is there. -/
def isSafeStackFn (F : Function) (mayCastMap : Std.TreeMap ℕ Bool) (f : ℕ) :
    Bool × Std.TreeMap ℕ Bool :=
  let mayCurrentCast := mayCast false F.callGraph mayCastMap f
  (mayCurrentCast, mayCastMap.insertIfNew f mayCurrentCast)

/-- A function whose variables are not looked at. -/
def Instrumented.skipped (I : Instrumented) : Instrumented :=
  { I with
    isSafe := fun _ => true
    order := []
    perm := by
      have hnone : I.F.allAllocaSet I.M.toTypeTable (fun _ => true) = [] := by
        refine List.filter_eq_nil_iff.mpr fun i _ => ?_
        split
        · rw [Bool.not_true, Bool.and_false]
          exact Bool.false_ne_true
        · exact Bool.false_ne_true
      rw [hnone] }

/-- The loop of `stackObjTracing` over the functions from number `f` on, without the copies of
parameters that `handleFnParameter` makes in those it does not leave out. -/
def stackObjTracing (stackOpt : Bool) :
    List Instrumented → ℕ → Std.TreeMap ℕ Bool → List Instrumented
  | [], _, _ => []
  | I :: rest, f, mayCastMap =>
      if stackOpt = true then
        let (isSafe, mayCastMap) := isSafeStackFn I.F mayCastMap f
        (if isSafe = true then I else I.skipped) :: stackObjTracing stackOpt rest (f + 1) mayCastMap
      else I :: stackObjTracing stackOpt rest (f + 1) mayCastMap

/-- A function is left out if it calls nothing. -/
def Instrumented.opt (I : Instrumented) : Instrumented :=
  if I.F.callGraph = [] then I.skipped else I

section Choice

variable {I : Instrumented}

theorem opt_of_call (h : I.F.callGraph ≠ []) : I.opt = I := if_neg h

@[simp] theorem opt_F (I : Instrumented) : I.opt.F = I.F := by
  unfold Instrumented.opt
  split <;> rfl

/-- What a function shares with the others of its module. -/
theorem opt_shared (I : Instrumented) : I.opt.M = I.M ∧ I.opt.files = I.files ∧
    I.opt.inlineOpt = I.inlineOpt ∧ I.opt.place = I.place := by
  unfold Instrumented.opt
  split
  · exact ⟨rfl, rfl, rfl, rfl⟩
  · exact ⟨rfl, rfl, rfl, rfl⟩

/-- **Which functions are left out**, whatever the map holds of other functions. -/
theorem stackObjTracing_eq : ∀ (functions : List Instrumented) (f : ℕ)
    (mayCastMap : Std.TreeMap ℕ Bool), (∀ k ≥ f, mayCastMap[k]? = none) →
    stackObjTracing true functions f mayCastMap = functions.map Instrumented.opt := by
  intro functions
  induction functions with
  | nil => exact fun _ _ _ => rfl
  | cons I rest ih =>
      intro f mayCastMap hnew
      have hsafe : (isSafeStackFn I.F mayCastMap f).1 = !I.F.callGraph.isEmpty := by
        simp only [isSafeStackFn, mayCast, Bool.false_eq_true, if_false, hnew f le_rfl]
        cases I.F.callGraph <;> rfl
      have hkeys : ∀ k ≥ f + 1, (isSafeStackFn I.F mayCastMap f).2[k]? = none := by
        intro k hk
        simp only [isSafeStackFn, Std.TreeMap.getElem?_insertIfNew]
        rw [if_neg (by simp; omega), hnew k (by omega)]
      simp only [stackObjTracing, if_true, List.map_cons]
      rw [ih (f + 1) _ hkeys, hsafe, Instrumented.opt]
      cases I.F.callGraph <;> rfl

end Choice

/-! ## Whether a sequence returns -/

section Steady

variable {mmap : ℕ → ℕ} {rodata : Word → Byte} {I : Instrumented} {s s' s₁ : Shadow}

/-- If an event returns, it does so from any other table. -/
def Steady (mmap : ℕ → ℕ) (rodata : Word → Byte) (event : Event) : Prop :=
  ∀ s s', Layout mmap s → Layout mmap s' → ((program mmap rodata).step event s).isSome →
    ((program mmap rodata).step event s').isSome

theorem run_steady (fresh : FreshMmap mmap) (events : List Event)
    (h : ∀ event ∈ events, Steady mmap rodata event) : ∀ s s' s₁, Layout mmap s → Layout mmap s' →
      (program mmap rodata).run events s = some s₁ →
      ∃ s₂, (program mmap rodata).run events s' = some s₂ := by
  induction events with
  | nil => exact fun s s' s₁ _ _ _ => ⟨s', rfl⟩
  | cons event rest ih =>
      intro s s' s₁ layout layout' hrun
      rw [Machine.run_cons, Option.bind_eq_some_iff] at hrun
      obtain ⟨t, hstep, hrest⟩ := hrun
      have hsome := h event List.mem_cons_self s s' layout layout' (hstep ▸ rfl)
      obtain ⟨t', hstep'⟩ := Option.isSome_iff_exists.mp hsome
      obtain ⟨s₂, hrun'⟩ := ih (fun event hevent => h event (List.mem_cons_of_mem _ hevent)) t t' s₁
        (event_layout rodata fresh event s t layout hstep)
        (event_layout rodata fresh event s' t' layout' hstep') hrest
      exact ⟨s₂, by rw [Machine.run_cons, hstep']; exact hrun'⟩

/-- A call, by the abstract table. -/
theorem steady_call (fresh : FreshMmap mmap) {op : Op}
    (h : ∀ m m' : GranuleMap, (op.abstractStep machineAddressing m).isSome →
      (op.abstractStep machineAddressing m').isSome) : Steady mmap rodata (.call op) := by
  intro s s' layout layout' hsome
  have hview : ∀ t, Layout mmap t → ((program mmap rodata).step (.call op) t).isSome =
      (op.abstractStep machineAddressing t.view).isSome := by
    intro t layout
    rw [← (step_spec layout fresh op).2, Option.isSome_map]
    rfl
  rw [hview s layout] at hsome
  rw [hview s' layout']
  exact h _ _ hsome

theorem removeEvents_steady (fresh : FreshMmap mmap) {M : Module} {files : ClassFiles}
    {inlineOpt : Bool} {o : StackObject} {event : Event}
    (h : event ∈ removeEvents M files inlineOpt o) : Steady mmap rodata event := by
  have hkind : ¬(AllocType.stackAlloc = .heapAlloc ∨ AllocType.stackAlloc = .realloc) := by decide
  rcases mem_removeEvents h with ⟨thisPtr, rfl | rfl⟩ | ⟨thisPtr, typeSize, rfl⟩ | rfl
  · exact fun s s' _ _ _ => rfl
  · exact steady_call fresh fun m m' _ => rfl
  · refine steady_call fresh fun m m' hsome => ?_
    rw [Op.abstractStep, if_neg hkind] at hsome ⊢
    split at hsome
    · next hcount => rw [if_pos hcount]; rfl
    · cases hsome
  · exact steady_call fresh fun m m' _ => rfl

/-- An inserted sequence. -/
theorem events_steady (fresh : FreshMmap mmap) {objects : List StackObject} {insert : Insert}
    {events : List Event} (hevents : I.events objects insert = some events) (layout : Layout mmap s)
    (layout' : Layout mmap s') (hrun : (program mmap rodata).run events s = some s₁) :
    ∃ s₂, (program mmap rodata).run events s' = some s₂ ∧ Layout mmap s₂ := by
  have hreturns : ∃ s₂, (program mmap rodata).run events s' = some s₂ := by
    cases insert with
    | update b =>
        obtain ⟨o, ho, rfl⟩ := Option.map_eq_some_iff.mp hevents
        have hlogs : Logs mmap rodata (updateEvents I.M I.files I.inlineOpt I.place o)
            (o.log I.M I.files I.place) := updateEvents_logs rodata I.inlineOpt I.place fresh o
        obtain ⟨s₂, hrun', -⟩ := hlogs s' layout'
        exact ⟨s₂, hrun'⟩
    | remove b =>
        obtain ⟨o, ho, rfl⟩ := Option.map_eq_some_iff.mp hevents
        exact run_steady fresh _ (fun event => removeEvents_steady fresh) s s' s₁ layout layout' hrun
  obtain ⟨s₂, hrun'⟩ := hreturns
  exact ⟨s₂, hrun', (program mmap rodata).run_of_step (event_layout rodata fresh) events s' s₂
    layout' hrun'⟩

/-- **What has been inserted before an instruction** returns from one table if it does from
another. -/
theorem runInserted_steady (fresh : FreshMmap mmap) {objects : List StackObject} :
    ∀ (inserts : List Insert) (s s' s₁ : Shadow), Layout mmap s → Layout mmap s' →
      I.runInserted mmap rodata objects inserts s = some s₁ →
      ∃ s₂, I.runInserted mmap rodata objects inserts s' = some s₂ := by
  intro inserts
  induction inserts with
  | nil => exact fun s s' s₁ _ _ _ => ⟨s', rfl⟩
  | cons insert rest ih =>
      intro s s' s₁ layout layout' hrun
      rw [Instrumented.runInserted, List.foldlM_cons, Option.bind_eq_bind,
        Option.bind_eq_some_iff] at hrun
      obtain ⟨t, hfirst, hrest⟩ := hrun
      obtain ⟨events, hevents, hrun⟩ := Option.bind_eq_some_iff.mp hfirst
      obtain ⟨t', hrun', hlayout'⟩ := events_steady fresh hevents layout layout' hrun
      have hlayout : Layout mmap t :=
        (program mmap rodata).run_of_step (event_layout rodata fresh) events s t layout hrun
      obtain ⟨s₂, hrest'⟩ := ih t t' s₁ hlayout hlayout' hrest
      refine ⟨s₂, ?_⟩
      rw [Instrumented.runInserted, List.foldlM_cons, hevents]
      show ((program mmap rodata).run events s').bind _ = some s₂
      rw [hrun']
      exact hrest'

/-- What the pass leaves in a function returns if all that it would have inserted does. -/
theorem runInserted_opt (fresh : FreshMmap mmap) {objects : List StackObject} {j : ℕ}
    (layout : Layout mmap s) (layout' : Layout mmap s')
    (hrun : I.runInserted mmap rodata objects (I.inserted j) s = some s₁) :
    ∃ s₂, I.opt.runInserted mmap rodata objects (I.opt.inserted j) s' = some s₂ := by
  unfold Instrumented.opt
  split
  · exact ⟨s', rfl⟩
  · exact runInserted_steady fresh _ s s' s₁ layout layout' hrun

end Steady

/-! ## The optimised program -/

/-- A call of what the pass leaves of a function. -/
def OpenCall.opt (c : OpenCall) : OpenCall := { c with fn := c.fn.opt }

/-- The program that `-stack-opt` makes. -/
def Executable.stackOpt (X : Executable) : Executable :=
  { X with
    functions := stackObjTracing true X.functions 0 ∅
    shared := by
      intro I hI
      rw [stackObjTracing_eq _ _ _ fun _ _ => Std.TreeMap.getElem?_emptyc] at hI
      obtain ⟨I₀, hI₀, rfl⟩ := List.mem_map.mp hI
      obtain ⟨hM, hfiles, hinline, hplace⟩ := opt_shared I₀
      rw [hM, hfiles, hinline, hplace]
      exact X.shared I₀ hI₀ }

/-- The newest call, if there is one, is at a call. -/
def AtCall (calls : List OpenCall) : Prop :=
  ∀ c rest, calls = c :: rest →
    ∃ i older inst, c.path = i :: older ∧ c.fn.F.insts[i]? = some inst ∧ inst.isCall = true

/-- The states of the tidy runs in which calls are made by calls. -/
def OrderlyReachable (mmap : ℕ → ℕ) (rodata : Word → Byte) (X : Executable) (p : Process) : Prop :=
  ∃ p₀, ProcessStart mmap rodata X p₀ ∧ Relation.ReflTransGen (fun p p' =>
    (ProcessStep mmap rodata X p p' ∧ GivesBack p p') ∧
      (p.calls.length < p'.calls.length → AtCall p.calls)) p₀ p

section Simulation

variable {mmap : ℕ → ℕ} {rodata : Word → Byte} {X : Executable} {p p' : Process} {c : OpenCall}
  {s : Shadow}

/-! ### Calls -/

theorem callGraph_ne_nil {F : Function} {i : ℕ} {inst : Inst} (hinst : F.insts[i]? = some inst)
    (hcall : inst.isCall = true) : F.callGraph ≠ [] := by
  have hmem : i ∈ F.callGraph := by
    refine List.mem_filter.mpr ⟨?_, ?_⟩
    · exact List.mem_range.mpr (List.getElem?_eq_some_iff.mp hinst).1
    · rw [hinst]
      exact hcall
  exact List.ne_nil_of_mem hmem

theorem opt_footprint (c : OpenCall) (g : ℕ) : c.opt.Granule g ↔ c.Granule g := by
  obtain ⟨hM, hfiles, -⟩ := opt_shared c.fn
  unfold OpenCall.Granule OpenCall.opt
  dsimp only
  rw [hM, hfiles]

/-- Where nothing has been inserted no object is marked. -/
theorem insertedMarks_nil (a : ℕ) (path : List ℕ) :
    ∀ mark ∈ insertedMarks (fun _ => []) a path, mark = false := by
  induction path with
  | nil => exact fun _ hmark => absurd hmark List.not_mem_nil
  | cons i rest ih =>
      rw [insertedMarks, List.foldl_nil]
      split
      · exact List.forall_mem_cons.mpr ⟨rfl, ih⟩
      · exact ih

/-- A call that leaves no traced object behind leaves none in the optimised program. -/
theorem opt_log (h : c.log = []) : c.opt.log = [] := by
  by_cases hcall : c.fn.F.callGraph = []
  · have hopt : c.opt = ⟨c.fn.skipped, c.objects, c.path⟩ := by
      rw [OpenCall.opt, Instrumented.opt, if_pos hcall]
    rw [hopt]
    refine List.flatMap_eq_nil_iff.mpr fun a _ => List.flatMap_eq_nil_iff.mpr fun object hobject => ?_
    have hmark : object.2 = false := insertedMarks_nil a c.path _ (List.of_mem_zip hobject).2
    rw [hmark]
    rfl
  · have hopt : c.opt = c := by rw [OpenCall.opt, opt_of_call hcall]
    rwa [hopt]

theorem Executable.Unused.opt {L : ℕ → Prop} (h : X.Unused p L) :
    X.stackOpt.Unused ⟨s, p.calls.map OpenCall.opt, p.live⟩ L := by
  intro w hw g hg
  simp only [Executable.owners, List.map_map, List.mem_append, List.mem_map,
    Function.comp_apply] at hw
  rcases hw with ⟨c, hc, rfl⟩ | ⟨b, hb, rfl⟩ | ⟨gv, hgv, rfl⟩
  · exact fun hmem => h (.call c) (call_mem_owners.mpr hc) g hg ((opt_footprint c g).mp hmem)
  · exact h (.block b) (block_mem_owners.mpr hb) g hg
  · exact h (.global gv) (global_mem_owners.mpr hgv) g hg

/-! ### One step -/

/-- What an instruction does to the objects does not depend on the table. -/
theorem executes_of_layout {i : ℕ} {inst : Inst} {objects objects' : List StackObject} {t : Shadow}
    (h : Executes mmap i inst s objects s objects') (layout : Layout mmap t) :
    Executes mmap i inst t objects t objects' := by
  cases h with
  | alloca o halloca htype hconstant hsize => exact .alloca o halloca htype hconstant hsize
  | other halloca hret _ => exact .other halloca hret layout

theorem calls_opt {calls rest : List OpenCall} {c : OpenCall} (h : calls = c :: rest) :
    calls.map OpenCall.opt = c.opt :: rest.map OpenCall.opt := by
  rw [h, List.map_cons]

theorem inst_opt {c : OpenCall} {i : ℕ} {inst : Inst} (h : c.fn.F.insts[i]? = some inst) :
    c.opt.fn.F.insts[i]? = some inst := (opt_F c.fn).symm ▸ h

/-- **A step of the program is one of the optimised program**, and leaves no more behind. -/
theorem ProcessStep.opt (fresh : FreshMmap mmap) (hstep : ProcessStep mmap rodata X p p')
    (hback : GivesBack p p') (layout : Layout mmap p.shadow)
    (hreach : TidyReachable mmap rodata X.stackOpt ⟨s, p.calls.map OpenCall.opt, p.live⟩) :
    ∃ s', TidyReachable mmap rodata X.stackOpt ⟨s', p'.calls.map OpenCall.opt, p'.live⟩ := by
  have hlayout : Layout mmap s := (hreach.invariant fresh).layout
  cases hstep with
  | alloc isConstant b husable hroom hunused hrun =>
      exact hreach.alloc fresh husable hroom hunused.opt
  | free b hlive hrun =>
      obtain ⟨s', -, hfree, -⟩ := hreach.free fresh hlive
      exact ⟨s', hfree⟩
  | call I hfn hrun =>
      obtain ⟨s', hrun'⟩ := runInserted_opt fresh layout hlayout hrun
      -- what is left of the function belongs to the optimised program
      have hmem : I.opt ∈ X.stackOpt.functions := by
        show I.opt ∈ stackObjTracing true X.functions 0 ∅
        rw [stackObjTracing_eq _ _ _ fun _ _ => Std.TreeMap.getElem?_emptyc]
        exact List.mem_map_of_mem hfn
      exact ⟨s', hreach.step (.call I.opt hmem hrun') (Nat.le_succ _)⟩
  | @next _ c rest i j older inst objects hcalls hpath hinst hexecutes hunused hnext hrun =>
      obtain ⟨s', hrun'⟩ := runInserted_opt fresh layout hlayout hrun
      obtain ⟨hM, hfiles, -⟩ := opt_shared c.fn
      have hcalls' := calls_opt hcalls
      have hinst' := inst_opt hinst
      have hnext' : j ∈ c.opt.fn.F.successors i := (opt_F c.fn).symm ▸ hnext
      -- the optimised calls use no further granule
      have hunused' : ∀ o, objects = o :: c.opt.objects →
          X.stackOpt.Unused ⟨s, p.calls.map OpenCall.opt, p.live⟩
            (o.Granule c.fn.opt.M c.fn.opt.files) := by
        intro o ho
        rw [hM, hfiles]
        exact (hunused o ho).opt
      have hstep' : ProcessStep mmap rodata X.stackOpt
          ⟨s, p.calls.map OpenCall.opt, p.live⟩
          ⟨s', ⟨c.fn.opt, objects, j :: c.path⟩ :: rest.map OpenCall.opt, p.live⟩ :=
        .next (c := c.opt) hcalls' hpath hinst' (executes_of_layout hexecutes hlayout) hunused'
          hnext' hrun'
      refine ⟨s', hreach.step hstep' ?_⟩
      rw [hcalls']
      exact le_rfl
  | check event hcheck hrun =>
      -- a check returns from every state
      have hreturns : ∃ s', (program mmap rodata).step event s = some s' := by
        cases event with
        | call | inlineUpdate | inlineErase => cases hcheck
        | check | dynamicCheck | inlineCheck => exact ⟨_, rfl⟩
      obtain ⟨s', hrun'⟩ := hreturns
      exact ⟨s', hreach.step (.check event hcheck hrun') le_rfl⟩
  | @ret c rest i older value hcalls hpath hinst =>
      have hcalls' := calls_opt hcalls
      have hinst' := inst_opt hinst
      -- a call that is left out has traced nothing, any other is the same call
      have hback' : GivesBack ⟨s, p.calls.map OpenCall.opt, p.live⟩
          ⟨s, rest.map OpenCall.opt, p.live⟩ := by
        intro c' hc'
        obtain rfl := (List.cons.inj (hcalls'.symm.trans hc')).1
        exact opt_log (hback c hcalls)
      obtain ⟨p₀, hstart, hsteps⟩ := hreach
      exact ⟨s, p₀, hstart, hsteps.tail ⟨.ret hcalls' hpath hinst', hback'⟩⟩

/-! ### Whole runs -/

/-- While a call is made no open call is one of a function that calls nothing. -/
theorem calls_of_atCall {calls : List OpenCall} (hat : AtCall calls)
    (hcallers : ∀ c ∈ calls.tail, c.fn.F.callGraph ≠ []) : ∀ c ∈ calls, c.fn.F.callGraph ≠ [] := by
  cases calls with
  | nil => exact fun _ hc => absurd hc List.not_mem_nil
  | cons c rest =>
      obtain ⟨i, older, inst, -, hinst, hcall⟩ := hat c rest rfl
      exact List.forall_mem_cons.mpr ⟨callGraph_ne_nil hinst hcall, hcallers⟩

/-- **A run of the program is one of the optimised program.** -/
theorem OrderlyReachable.opt (fresh : FreshMmap mmap) (hreach : OrderlyReachable mmap rodata X p) :
    TidyReachable mmap rodata X p ∧
      (∃ s', TidyReachable mmap rodata X.stackOpt ⟨s', p.calls.map OpenCall.opt, p.live⟩) ∧
      ∀ c ∈ p.calls.tail, c.fn.F.callGraph ≠ [] := by
  obtain ⟨p₀, hstart, hsteps⟩ := hreach
  induction hsteps with
  | refl =>
      refine ⟨⟨p₀, hstart, .refl⟩, ?_⟩
      obtain ⟨mem, s₀, hrun, rfl⟩ := hstart
      exact ⟨⟨s₀, ⟨_, ⟨mem, s₀, hrun, rfl⟩, .refl⟩⟩, fun _ hc => absurd hc List.not_mem_nil⟩
  | @tail p p' _ hstep ih =>
      obtain ⟨htidy, ⟨s', hreach'⟩, hcallers⟩ := ih
      obtain ⟨⟨hstep, hback⟩, horderly⟩ := hstep
      obtain ⟨p₁, hstart₁, hsteps₁⟩ := htidy
      have htidy : TidyReachable mmap rodata X p := ⟨p₁, hstart₁, hsteps₁⟩
      refine ⟨⟨p₁, hstart₁, hsteps₁.tail ⟨hstep, hback⟩⟩,
        hstep.opt fresh hback (htidy.invariant fresh).layout hreach', ?_⟩
      cases hstep with
      | alloc | free | check => exact hcallers
      | call I hfn hrun => exact calls_of_atCall (horderly (Nat.lt_succ_self _)) hcallers
      | next hcalls hpath hinst hexecutes hunused hnext hrun =>
          rw [hcalls] at hcallers
          exact hcallers
      | ret hcalls hpath hinst =>
          rw [hcalls] at hcallers
          exact fun c hc => hcallers c (List.mem_of_mem_tail hc)

/-- **The optimisation spoils no check.**  Take any tidy run of a program in which calls are
made by calls, with all functions traced.  The optimised program has a run with the same
calls, objects and blocks, and while the newest call is at a call, so at every check, be it
inlined or not, both have the same verdict on any cast. -/
theorem stack_opt_checks (fresh : FreshMmap mmap) (hreach : OrderlyReachable mmap rodata X p)
    (hat : AtCall p.calls) : ∃ s', TidyReachable mmap rodata X.stackOpt ⟨s', p.calls, p.live⟩ ∧
      ∀ sourcePtr thisPtr index code,
        verdict rodata s'.lookup sourcePtr thisPtr index code =
            verdict rodata p.shadow.lookup sourcePtr thisPtr index code ∧
          (InlineReports rodata s'.lookup sourcePtr thisPtr index code ↔
            InlineReports rodata p.shadow.lookup sourcePtr thisPtr index code) := by
  obtain ⟨htidy, ⟨s', hopt⟩, hcallers⟩ := hreach.opt fresh
  have hcalls : p.calls.map OpenCall.opt = p.calls := by
    calc p.calls.map OpenCall.opt = p.calls.map id := List.map_congr_left fun c hc => by
          rw [OpenCall.opt, opt_of_call (calls_of_atCall hat hcallers c hc), id]
      _ = p.calls := List.map_id _
  rw [hcalls] at hopt
  refine ⟨s', hopt, fun sourcePtr thisPtr index code => ?_⟩
  have hsame := (htidy.invariant fresh).sameTables
  have hsame' := (hopt.invariant fresh).sameTables
  have hlookup : X.stackOpt.lookup ⟨s', p.calls, p.live⟩ = X.lookup p := rfl
  rw [hlookup] at hsame'
  constructor
  · calc verdict rodata s'.lookup sourcePtr thisPtr index code
        = verdict rodata (X.lookup p) sourcePtr thisPtr index code := hsame'.verdict_eq ..
      _ = verdict rodata p.shadow.lookup sourcePtr thisPtr index code :=
          (hsame.verdict_eq ..).symm
  · calc InlineReports rodata s'.lookup sourcePtr thisPtr index code
        ↔ InlineReports rodata (X.lookup p) sourcePtr thisPtr index code :=
          hsame'.inlineReports ..
      _ ↔ InlineReports rodata p.shadow.lookup sourcePtr thisPtr index code :=
          (hsame.inlineReports ..).symm

/-! ### A check behind a call -/

/-- A function with a call and a check. -/
def checkingFunction : Function where
  insts := [.call none, .castVerification (.other 0) (.other 0) 0 1 0, .ret none]
  successors i := if i = 0 then [1] else if i = 1 then [2] else []
  nonempty := by decide
  closed := by decide

def checking : Instrumented where
  M := wideModule
  files := wideFiles
  inlineOpt := true
  place _ := 4096
  F := checkingFunction
  isSafe _ := false
  order := []
  perm := by decide +kernel
  fuel := 3
  maps := ⟨∅, ∅⟩
  collected := rfl

/-- A program with this function and one that calls nothing. -/
def checkingProgram : Executable :=
  { earlyProgram with
    functions := [checking, tidyReturn]
    shared := by
      intro I hI
      rcases List.mem_cons.mp hI with rfl | hI
      · exact ⟨rfl, rfl, rfl, rfl⟩
      · obtain rfl := List.mem_singleton.mp hI
        exact ⟨rfl, rfl, rfl, rfl⟩ }

theorem OrderlyReachable.step (hreach : OrderlyReachable mmap rodata X p)
    (hstep : ProcessStep mmap rodata X p p') (hlength : p.calls.length ≤ p'.calls.length)
    (hat : p.calls.length < p'.calls.length → AtCall p.calls) :
    OrderlyReachable mmap rodata X p' := by
  obtain ⟨p₀, hstart, hsteps⟩ := hreach
  exact ⟨p₀, hstart, hsteps.tail ⟨⟨hstep, givesBack_of_length hlength⟩, hat⟩⟩

/-- The check behind the call, with a block. -/
theorem stack_opt_checks_sample : ∃ p s', p.calls ≠ [] ∧ p.live ≠ [] ∧
    OrderlyReachable spacedMmap (fun _ => 0) checkingProgram p ∧
    TidyReachable spacedMmap (fun _ => 0) checkingProgram.stackOpt ⟨s', p.calls, p.live⟩ ∧
    verdict (fun _ => 0) s'.lookup 8192 8192 0 1 =
      verdict (fun _ => 0) p.shadow.lookup 8192 8192 0 1 := by
  have hstart : OrderlyReachable spacedMmap (fun _ => 0) checkingProgram
      ⟨bitypeInitialization spacedMmap fun _ => 0, [], []⟩ := ⟨_, ⟨fun _ => 0, _, rfl, rfl⟩, .refl⟩
  have hroom : arraySizeF wideModule farBlock ≠ 0 := by decide
  obtain ⟨s₁, hrun₁, hlayout₁, -⟩ := handleHeapAlloc_logs (fun _ => 0) true (fun _ => 4096)
    spacedMmap_fresh false farBlock _ (layout_init fun _ => 0)
  have hblock : OrderlyReachable spacedMmap (fun _ => 0) checkingProgram ⟨s₁, [], [farBlock]⟩ :=
    hstart.step (.alloc false farBlock farBlock_usable hroom
      (fun w hw => absurd hw List.not_mem_nil) hrun₁) le_rfl fun hlt => absurd hlt (lt_irrefl _)
  have hcall : OrderlyReachable spacedMmap (fun _ => 0) checkingProgram
      ⟨s₁, [⟨checking, [], [0]⟩], [farBlock]⟩ :=
    hblock.step (.call checking List.mem_cons_self rfl) (Nat.zero_le _) fun _ => nofun
  have hinst : checking.F.insts[0]? = some (.call none) := rfl
  have hsuccessor : 1 ∈ checking.F.successors 0 := List.mem_cons_self
  have hexecutes : Executes spacedMmap 0 (.call none) s₁ [] s₁ [] :=
    .other (by simp) (by simp) hlayout₁
  have hnext : OrderlyReachable spacedMmap (fun _ => 0) checkingProgram
      ⟨s₁, [⟨checking, [], [1, 0]⟩], [farBlock]⟩ :=
    hcall.step (.next (c := ⟨checking, [], [0]⟩) rfl rfl hinst hexecutes
      (fun _ ho => absurd ho List.ne_cons_self) hsuccessor rfl) le_rfl
      fun hlt => absurd hlt (lt_irrefl _)
  have hat : AtCall [⟨checking, [], [1, 0]⟩] := by
    intro c rest hcalls
    obtain ⟨rfl, -⟩ := List.cons.inj hcalls
    exact ⟨1, [0], _, rfl, rfl, rfl⟩
  obtain ⟨s', hopt, hsame⟩ := stack_opt_checks spacedMmap_fresh hnext hat
  exact ⟨_, s', List.cons_ne_nil _ _, List.cons_ne_nil _ _, hnext, hopt, (hsame ..).1⟩

end Simulation

end Bitype.Pass
