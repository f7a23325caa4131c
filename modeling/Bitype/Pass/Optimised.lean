import Bitype.Pass.Bounds
import Bitype.Pass.EmittedCode

/-!
# Functions with and without inlining

A function holds calls of the check and, once the passes have gone over it, the code that traces and
erases its objects.  With `inline-opt` on, that code writes the runtime's functions out, and
`typecastinginlineoptimization` then replaces each call of the check as well.

`executing` says what such a function is meant to do.  It does just that: `traced_ends` before the
checks are replaced, `inlined_ends` after.  With `inline-opt` on, what is meant are the inlined
update and erase, and these do what the calls do as long as every entry that is updated counts one
object.  So whether tracing is inlined makes no difference up to the first update of another entry:
not to the values of a function, to the memory, to what is reported, or to what is seen of the table
(`traced_alike`).  Neither does it where the checks are replaced, as long as each check on the way is
one on which the replacement agrees with the call (`optimised_alike`).
-/

namespace Bitype.Pass.IR

open Bitype.Foundations Bitype.Foundations.Flowchart Bitype.Runtime
open Bitype.Tool (Name)

/-! ## What a function is meant to do -/

/-- The arguments of a call of `__bitype_cast_verification`. -/
structure CheckCall where
  source : Arg
  derived : Arg
  index : Arg
  code : Arg
  debug : Arg

/-- An instruction of a function: a check, a place where an object is traced or erased, or another
one.  Each place has its number. -/
inductive Inst (α : Type)
  | check (site : ℕ) (c : CheckCall)
  | update (site : ℕ) (q : Request)
  | remove (site : ℕ) (q : Request)
  | other (i : α)

section Executing

variable (mmap : ℕ → ℕ) (rodata : Word → Byte) (M : Module) (place : Name → Word) {P α : Type}

/-- A check that leaves a table and says whether it has found a type confusion. -/
def Running.checked (r : Running P) (debug : U32) (result : Shadow × Bool) : Running P :=
  { r with
    shadow := result.1
    reports := if result.2 = true then newReports debug r.shadow ++ r.reports else r.reports }

namespace CheckCall

variable (c : CheckCall) (r : Running P)

/-- The location it reports. -/
def debugIndex (locals : ℕ → Word) : U32 := (c.debug.value locals).setWidth 32

/-- What the called check does, and whether it reports. -/
def called : Shadow × Bool :=
  bitypeCastVerification rodata (c.source.value r.locals) (c.derived.value r.locals)
    ((c.index.value r.locals).setWidth 32) ((c.code.value r.locals).setWidth 8)
    (c.debugIndex r.locals) r.shadow

/-- What the check that replaces it does. -/
def inlined : Shadow × Bool :=
  inlineVerification rodata (c.source.value r.locals) (c.derived.value r.locals)
    ((c.index.value r.locals).setWidth 32) ((c.code.value r.locals).setWidth 8)
    (c.debugIndex r.locals) r.shadow

/-- The replacement agrees with the call. -/
def Agrees : Prop :=
  ChecksAgree rodata (c.source.value r.locals) (c.derived.value r.locals)
    ((c.index.value r.locals).setWidth 32) ((c.code.value r.locals).setWidth 8) r.shadow

end CheckCall

/-- A function, executed as it is meant: `inlineChecks` says which check there is, `inlineOpt` how
objects are traced.  Other instructions do not touch the table. -/
def executing (inlineChecks inlineOpt : Bool) (base : Semantics ((ℕ → Word) × P) α) :
    Semantics (Running P) (Inst α) where
  step
    | .check _ c, r => some (r.checked (c.debugIndex r.locals)
        (if inlineChecks = true then c.inlined rodata r else c.called rodata r))
    | .update _ q, r =>
        ((program mmap rodata).run (insertUpdate M inlineOpt place (q.site r.locals) q.elements)
          r.shadow).map fun s => r.withShadow s
    | .remove _ q, r =>
        ((program mmap rodata).run (insertRemove inlineOpt (q.site r.locals) q.elements)
          r.shadow).map fun s => r.withShadow s
    | .other i, r =>
        (base.step i (r.locals, r.memory)).map fun p => { r with locals := p.1, memory := p.2 }
  takes r := base.takes (r.locals, r.memory)
  select id r := base.select id (r.locals, r.memory)

end Executing

/-! ## What is emitted -/

section Emitted

variable (mmap : ℕ → ℕ) (rodata : Word → Byte) (M : Module) (place : Name → Word) (P : Type) {α : Type}

/-- Code whose recipe is the same for operands and values. -/
def emission (site : ℕ) (recipe : Recipe Op Effect (Operand Value))
    (meant : (ℕ → Word) → Recipe Op Effect Value)
    (h : ∀ locals, ∀ R : Operand Value → Value → Prop, (∀ word, R (.const (ofWord word)) (ofWord word)) →
      (∀ a, R (Arg.operand a) (argValue locals a)) → Recipe.Related R recipe (meant locals)) :
    Emission (target mmap rodata P) where
  site := site
  recipe := recipe
  meant r := meant r.locals
  corresponds st R hR := by
    apply h
    · exact fun word => hR _ _ (.const _)
    · intro a
      cases a with
      | constant word => exact hR _ _ (.const _)
      | register r => exact hR _ _ (.host (T := target mmap rodata P) r)

/-- The code that the passes emit where an object is traced or erased. -/
def traceEmission (inlineOpt : Bool) : Inst α → Option (Emission (target mmap rodata P))
  | .update site q => some (emission mmap rodata P site
      (insertUpdateCode (fun word => .const (ofWord word)) Arg.operand M inlineOpt place q .done)
      (fun locals => insertUpdateCode ofWord (argValue locals) M inlineOpt place q .done)
      fun _ _ hconst harg => insertUpdateCode_fronts hconst harg _ _ .done)
  | .remove site q => some (emission mmap rodata P site
      (insertRemoveCode (fun word => .const (ofWord word)) Arg.operand inlineOpt q .done)
      (fun locals => insertRemoveCode ofWord (argValue locals) inlineOpt q .done)
      fun _ _ hconst harg => insertRemoveCode_fronts hconst harg _ _ .done)
  | _ => none

/-- The code that `typecastinginlineoptimization` emits for a check. -/
def checkEmission : Inst α → Option (Emission (target mmap rodata P))
  | .check site c => some (emission mmap rodata P site
      (checkSequence (fun word => .const (ofWord word)) c.source.operand c.derived.operand
        c.index.operand c.code.operand c.debug.operand)
      (fun locals => checkSequence ofWord (argValue locals c.source) (argValue locals c.derived)
        (argValue locals c.index) (argValue locals c.code) (argValue locals c.debug))
      fun _ _ hconst harg => checkSequence_related hconst (harg _) (harg _) (harg _) (harg _) (harg _))
  | _ => none

/-- A function to which the code that traces objects has been added. -/
def traced (inlineOpt : Bool) (F : Chart (Inst α)) : Chart (Instr (Inst α) Op Effect Value) :=
  (F.hosted Op Effect Value).expanded (expandBuilt (traceEmission mmap rodata M place P inlineOpt))

/-- The loop over the functions; `hosted` marks where the condition of a branch is read. -/
def typecastinginlineoptimization (fuel : ℕ)
    (functions : List (Chart (Instr (Inst α) Op Effect Value))) :
    Option (List (List (Flowchart.Block (Instr (Instr (Inst α) Op Effect Value) Op Effect Value)) × ℕ)) :=
  expandFunctions (expandBuilt (liftedEmits (checkEmission mmap rodata P))) fuel
    (functions.map (·.hosted Op Effect Value))

/-- What it leaves of a function. -/
def checksInlined (F : Chart (Instr (Inst α) Op Effect Value)) :
    Chart (Instr (Instr (Inst α) Op Effect Value) Op Effect Value) :=
  (F.hosted Op Effect Value).expanded (expandBuilt (liftedEmits (checkEmission mmap rodata P)))

theorem typecastinginlineoptimization_spec
    (functions : List (Chart (Instr (Inst α) Op Effect Value))) :
    ∃ fuel, typecastinginlineoptimization mmap rodata P fuel functions =
      some (functions.map fun F => ((checksInlined mmap rodata P F).blocks,
        (checksInlined mmap rodata P F).nextLabel)) := by
  obtain ⟨fuel, hfuel⟩ := (expandsAll (expandBuilt_free (liftedEmits (checkEmission mmap rodata P)))
    (functions.map (·.hosted Op Effect Value))).ends
  rw [List.map_map, List.map_map] at hfuel
  exact ⟨fuel, hfuel⟩

end Emitted

/-! ### A function -/

def sampleRequest : Request where
  allocType := .stackAlloc
  addrType := .otherPtr
  objAddr := .register 0
  typeSize := 8
  arraySize := .constant 1
  elements := (∅ : Std.TreeMap ℕ (Finset ℕ)).insert 0 {1, 2}

def sampleCheck : CheckCall where
  source := .register 0
  derived := .register 0
  index := .constant 0
  code := .constant 1
  debug := .constant 5

/-- It traces the object, checks a cast of the object, and erases it. -/
def sampleFunction : Chart (Inst Unit) where
  blocks := [⟨0, [.update 0 sampleRequest, .check 1 sampleCheck, .other ()], .goto 1⟩,
    ⟨1, [.remove 2 sampleRequest], .other 0 []⟩]
  nextLabel := 2
  nodup := by decide
  below := by decide
  closed := by decide

/-- The other instructions do nothing. -/
def sampleBase : Semantics ((ℕ → Word) × Unit) Unit where
  step _ p := some p
  takes _ := false
  select _ _ := none

def sampleStart : Running Unit where
  locals _ := 4096
  memory := ()
  shadow := bitypeInitialization spacedMmap fun _ => 0
  reports := []

/-- What is meant with the function comes to an end. -/
theorem exists_sampleEnd (inlineChecks inlineOpt : Bool) :
    ∃ r', (executing spacedMmap (fun _ => 0) derivedModule (fun _ => 8) inlineChecks inlineOpt
      sampleBase).Ends sampleFunction.blocks 0 sampleStart r' (.other 0 []) := by
  cases inlineChecks <;> cases inlineOpt <;>
    exact ⟨_, 1, _, List.mem_cons_self, rfl, .step (List.mem_cons_of_mem _ List.mem_cons_self) rfl rfl
      (.stop rfl rfl)⟩

/-- Before anything has been built into it. -/
def unbuilt {σ : Type} (s : σ) : Built σ Value := ⟨s, fun _ _ => ofWord 0, false⟩

/-! ## The code does what is meant -/

section Correctness

variable {mmap : ℕ → ℕ} {rodata : Word → Byte} {M : Module} {place : Name → Word} {P α : Type}
  {base : Semantics ((ℕ → Word) × P) α} {inlineChecks inlineOpt : Bool}

theorem layout_called (rodata : Word → Byte) (c : CheckCall) (r : Running P)
    (layout : Layout mmap r.shadow) :
    Layout mmap (c.called rodata r).1 ∧ Layout mmap (c.inlined rodata r).1 :=
  ⟨(verifyCast_alike rodata (.refl layout) _ _ _ _ _).2.2.left,
    (inlineVerification_alike rodata (.refl layout) _ _ _ _ _).2.left⟩

/-- Every instruction keeps the layout of the table. -/
theorem executing_layout (fresh : FreshMmap mmap) (i : Inst α) (r r' : Running P)
    (layout : Layout mmap r.shadow)
    (h : (executing mmap rodata M place inlineChecks inlineOpt base).step i r = some r') :
    Layout mmap r'.shadow := by
  -- operations on the table keep its layout one by one
  have hrun : ∀ events : List Event, ((program mmap rodata).run events r.shadow).map
      (fun s => r.withShadow s) = some r' → Layout mmap r'.shadow := by
    intro events hevents
    obtain ⟨s, hs, rfl⟩ := Option.map_eq_some_iff.mp hevents
    exact (program mmap rodata).run_of_step (event_layout rodata fresh) events _ s layout hs
  cases i with
  | check site c =>
      obtain rfl := Option.some.inj h
      show Layout mmap (if inlineChecks = true then _ else _ : Shadow × Bool).1
      split
      · exact (layout_called rodata c r layout).2
      · exact (layout_called rodata c r layout).1
  | update site q => exact hrun _ h
  | remove site q => exact hrun _ h
  | other i =>
      obtain ⟨p, -, rfl⟩ := Option.map_eq_some_iff.mp h
      exact layout

variable (rodata M place base inlineChecks inlineOpt) in
/-- The code that traces and erases does what is meant. -/
theorem step_traceEmission (low : LowMmap mmap) (i : Inst α) (r : Running P)
    (layout : Layout mmap r.shadow) :
    ((executing mmap rodata M place inlineChecks false base).replacing
        (traceEmission mmap rodata M place P inlineOpt)).step i r =
      (executing mmap rodata M place inlineChecks inlineOpt base).step i r := by
  -- from a sound table the code runs the operations, and then nothing else
  have hdone : ∀ {events : List Event} {code : Recipe Op Effect Value → Recipe Op Effect Value},
      Does mmap rodata P events code → (code .done).meaning (target mmap rodata P) r =
        ((program mmap rodata).run events r.shadow).map fun s => r.withShadow s := by
    intro events code hdoes
    rw [hdoes r .done layout, Option.map_eq_bind]
    rfl
  cases i with
  | check site c => rfl
  | update site q => exact hdone (insertUpdateCode_does r.locals low)
  | remove site q => exact hdone (insertRemoveCode_does r.locals low)
  | other i => rfl

variable (rodata M place base inlineOpt) in
/-- The code for a check does what is meant. -/
theorem step_checkEmission (low : LowMmap mmap) (i : Inst α) (r : Running P)
    (layout : Layout mmap r.shadow) :
    ((executing mmap rodata M place false inlineOpt base).replacing
        (checkEmission mmap rodata P)).step i r =
      (executing mmap rodata M place true inlineOpt base).step i r := by
  cases i with
  | check site c =>
      refine (checkSequence_meaning low r layout _ _ _ _ _).trans (congrArg some ?_)
      show (if (c.inlined rodata r).2 = true then r.report (c.debugIndex r.locals) else r) =
        r.checked (c.debugIndex r.locals) (c.inlined rodata r)
      unfold Running.checked
      rw [CheckCall.inlined, inlineVerification_eq]
      split <;> rfl
  | update site q => rfl
  | remove site q => rfl
  | other i => rfl

variable {F : Chart (Inst α)} {l : ℕ} {last : Exit}

/-- Replaced by code that does what is meant wherever the table is laid out soundly, instructions
make a function end as it is meant to. -/
theorem ends_replacing {S S' : Semantics (Running P) (Inst α)} {blocks : List (Flowchart.Block (Inst α))}
    (hkeep : ∀ i r r', Layout mmap r.shadow → S.step i r = some r' → Layout mmap r'.shadow)
    (hstep : ∀ i r, Layout mmap r.shadow → S'.step i r = S.step i r)
    (hnext : ∀ exit r, S'.next exit r = S.next exit r) {r r' : Running P}
    (layout : Layout mmap r.shadow) :
    S'.Ends blocks l r r' last ↔ S.Ends blocks l r r' last := by
  constructor
  · refine fun h => h.congr (P := fun r => Layout mmap r.shadow) (fun i r r' hr h => ?_)
      (fun i r hr => (hstep i r hr).symm) (fun exit r => (hnext exit r).symm) layout
    rw [hstep i r hr] at h
    exact hkeep i r r' hr h
  · exact fun h => h.congr (P := fun r => Layout mmap r.shadow) hkeep hstep hnext layout

variable (rodata M place base inlineChecks inlineOpt F) in
/-- **A traced function does what it is meant to do.** -/
theorem traced_ends (low : LowMmap mmap) (hl : l < F.nextLabel) (st : Built (Running P) Value)
    (layout : Layout mmap st.host.shadow) {r' : Running P} :
    (∃ st', st'.host = r' ∧ (building (target mmap rodata P)
        (executing mmap rodata M place inlineChecks false base)).Ends
          (traced mmap rodata M place P inlineOpt F).blocks l st st' last) ↔
      (executing mmap rodata M place inlineChecks inlineOpt base).Ends F.blocks l st.host r' last := by
  -- replaced or emitted, an instruction does the same from a sound table
  rw [← ends_replacing (executing_layout low.toFreshMmap) (step_traceEmission rodata M place base inlineChecks inlineOpt low)
    (fun exit r => by cases exit <;> rfl) layout]
  constructor
  · rintro ⟨st', rfl, h⟩
    exact ends_built hl h
  · exact fun h => built_ends st hl h

/-- The code of both rounds does what is meant. -/
theorem step_bothEmissions (low : LowMmap mmap) (i : Inst α) (r : Running P)
    (layout : Layout mmap r.shadow) :
    (((executing mmap rodata M place false false base).replacing
        (checkEmission mmap rodata P)).replacing
          (traceEmission mmap rodata M place P inlineOpt)).step i r =
      (executing mmap rodata M place true inlineOpt base).step i r := by
  have hcheck := step_checkEmission rodata M place base false low i r layout
  have htrace := step_traceEmission rodata M place base true inlineOpt low i r layout
  cases i with
  | check site c => exact hcheck
  | update site q => exact htrace
  | remove site q => exact htrace
  | other i => exact hcheck

variable (rodata M place base inlineOpt F) in
/-- **A function in which the checks have been replaced does what it is meant to do.** -/
theorem inlined_ends (low : LowMmap mmap) (hl : l < F.nextLabel)
    (st : Built (Built (Running P) Value) Value) (layout : Layout mmap st.host.host.shadow)
    {r' : Running P} :
    (∃ st', st'.host.host = r' ∧ (building (target mmap rodata P).lifted
        (building (target mmap rodata P) (executing mmap rodata M place false false base))).Ends
          (checksInlined mmap rodata P (traced mmap rodata M place P inlineOpt F)).blocks l st st'
            last) ↔
      (executing mmap rodata M place true inlineOpt base).Ends F.blocks l st.host.host r' last := by
  have hl' : l < (traced mmap rodata M place P inlineOpt F).nextLabel :=
    hl.trans_le (emitAll_counter_le _ _ F.nextLabel)
  rw [← ends_replacing (executing_layout low.toFreshMmap) (step_bothEmissions low)
    (fun exit r => by cases exit <;> rfl) layout]
  constructor
  · rintro ⟨st', rfl, h⟩
    -- the second round is undone first
    have hfirst := ends_built hl' h
    rw [replacing_building] at hfirst
    exact ends_built hl hfirst
  · intro h
    obtain ⟨st₁, rfl, hfirst⟩ := built_ends st.host hl h
    rw [← replacing_building] at hfirst
    obtain ⟨st', rfl, hsecond⟩ := built_ends st hl' hfirst
    exact ⟨st', rfl, hsecond⟩

variable (rodata M place base inlineChecks inlineOpt F) in
/-- **What is emitted for the objects of a function does what is meant**: the function ends as it is
meant to, in no other way, and leaves the table laid out soundly. -/
theorem tracing_meaning (low : LowMmap mmap) (hl : l < F.nextLabel) (st : Built (Running P) Value)
    (layout : Layout mmap st.host.shadow) :
    (∀ r' last, (∃ st', st'.host = r' ∧ (building (target mmap rodata P)
        (executing mmap rodata M place inlineChecks false base)).Ends
          (traced mmap rodata M place P inlineOpt F).blocks l st st' last) ↔
      (executing mmap rodata M place inlineChecks inlineOpt base).Ends F.blocks l st.host r' last) ∧
    ∀ st' last, (building (target mmap rodata P)
        (executing mmap rodata M place inlineChecks false base)).Ends
          (traced mmap rodata M place P inlineOpt F).blocks l st st' last →
      Layout mmap st'.host.shadow ∧ ∀ st'' last', (building (target mmap rodata P)
        (executing mmap rodata M place inlineChecks false base)).Ends
          (traced mmap rodata M place P inlineOpt F).blocks l st st'' last' →
        st'' = st' ∧ last' = last := by
  refine ⟨fun r' last => traced_ends rodata M place base inlineChecks inlineOpt F low hl st layout,
    fun st' last h => ⟨?_, fun st'' last' h' => ?_⟩⟩
  · have hmeant := (traced_ends rodata M place base inlineChecks inlineOpt F low hl st layout).mp
      ⟨st', rfl, h⟩
    exact hmeant.keeps (P := fun r => Layout mmap r.shadow) (executing_layout low.toFreshMmap) layout
  -- emitted code has one way to go
  · exact h.unique h'

theorem tracing_meaning_sample : ∃ st' : Built (Running Unit) Value,
    (building (target spacedMmap (fun _ => 0) Unit)
      (executing spacedMmap (fun _ => 0) derivedModule (fun _ => 8) false false sampleBase)).Ends
        (traced spacedMmap (fun _ => 0) derivedModule (fun _ => 8) Unit true sampleFunction).blocks 0
          (unbuilt sampleStart) st' (.other 0 []) := by
  obtain ⟨r', h⟩ := exists_sampleEnd false true
  obtain ⟨st', -, hends⟩ := ((tracing_meaning (fun _ => 0) derivedModule (fun _ => 8) sampleBase false
    true sampleFunction spacedMmap_low (show 0 < 2 by decide) (unbuilt sampleStart)
    (layout_init fun _ => 0)).1 r' _).mpr h
  exact ⟨st', hends⟩

variable (rodata M place base inlineOpt) in
/-- **`typecastinginlineoptimization` keeps what is meant.** The loop over the functions ends, and
each function it leaves ends just as the function it was given is meant to, with every check
replaced. -/
theorem typecastinginlineoptimization_meaning (low : LowMmap mmap) (functions : List (Chart (Inst α))) :
    ∃ result, (∃ fuel, typecastinginlineoptimization mmap rodata P fuel
        (functions.map (traced mmap rodata M place P inlineOpt)) = some result) ∧
      List.Forall₂ (fun F out => ∀ l < F.nextLabel,
        ∀ st : Built (Built (Running P) Value) Value, Layout mmap st.host.host.shadow →
        ∀ r' last, (∃ st', st'.host.host = r' ∧ (building (target mmap rodata P).lifted
          (building (target mmap rodata P) (executing mmap rodata M place false false base))).Ends
            out.1 l st st' last) ↔
          (executing mmap rodata M place true inlineOpt base).Ends F.blocks l st.host.host r' last)
        functions result := by
  refine ⟨_, typecastinginlineoptimization_spec mmap rodata P _, ?_⟩
  rw [List.map_map, List.forall₂_map_right_iff, List.forall₂_same]
  exact fun F _ l hl st layout r' last => inlined_ends rodata M place base inlineOpt F low hl st layout

theorem typecastinginlineoptimization_meaning_sample :
    ∃ blocks nextLabel fuel, typecastinginlineoptimization spacedMmap (fun _ => 0) Unit fuel
        [traced spacedMmap (fun _ => 0) derivedModule (fun _ => 8) Unit true sampleFunction] =
          some [(blocks, nextLabel)] ∧
      ∃ st', (building (target spacedMmap (fun _ => 0) Unit).lifted
        (building (target spacedMmap (fun _ => 0) Unit)
          (executing spacedMmap (fun _ => 0) derivedModule (fun _ => 8) false false sampleBase))).Ends
            blocks 0 (unbuilt (unbuilt sampleStart)) st' (.other 0 []) := by
  obtain ⟨result, ⟨fuel, hfuel⟩, hall⟩ := typecastinginlineoptimization_meaning (fun _ => 0)
    derivedModule (fun _ => 8) sampleBase true spacedMmap_low [sampleFunction]
  obtain ⟨r', h⟩ := exists_sampleEnd true true
  cases hall with
  | cons hfirst hrest =>
      cases hrest
      obtain ⟨st', -, hends⟩ := (hfirst 0 (by decide) (unbuilt (unbuilt sampleStart))
        (layout_init fun _ => 0) r' (.other 0 [])).mpr h
      exact ⟨_, _, fuel, hfuel, st', hends⟩

end Correctness

/-! ## Inlining makes no difference -/

/-- Running programs that differ at most in the sizes that the table holds. -/
structure Running.Alike {P : Type} (mmap : ℕ → ℕ) (r r' : Running P) : Prop where
  locals : r.locals = r'.locals
  memory : r.memory = r'.memory
  reports : r.reports = r'.reports
  shadow : Runtime.Alike mmap r.shadow r'.shadow

/-- If an operation updates one entry, that entry counts one object. -/
def UpdatesOne (event : Event) (s : Shadow) : Prop :=
  match event with
  | .inlineUpdate addr _ _ | .call (.directUpdateObjTrace addr _ _) => CountsOne s addr
  | _ => True

/-- Operations that leave alike tables when they start from alike tables, as long as the entries that
the first ones update count one object. -/
def EventsAlike (mmap : ℕ → ℕ) (rodata : Word → Byte) (events events' : List Event) : Prop :=
  ∀ s t, Alike mmap s t → (program mmap rodata).Meets UpdatesOne events s →
    Option.Rel (Alike mmap) ((program mmap rodata).run events s) ((program mmap rodata).run events' t)

section Difference

variable {mmap : ℕ → ℕ} {rodata : Word → Byte} {M : Module} {place : Name → Word} {P α : Type}
  {base : Semantics ((ℕ → Word) × P) α} {inlineChecks b b' : Bool} {site : Site}

theorem EventsAlike.refl (fresh : FreshMmap mmap) (events : List Event) :
    EventsAlike mmap rodata events events :=
  fun s t h _ => (congruence rodata fresh).run events s t h

theorem EventsAlike.flatMap {ι : Type} {f g : ι → List Event} {xs : List ι}
    (h : ∀ x ∈ xs, EventsAlike mmap rodata (f x) (g x)) :
    EventsAlike mmap rodata (xs.flatMap f) (xs.flatMap g) := by
  induction xs with
  | nil => exact fun s t hst _ => .some hst
  | cons x xs ih =>
      intro s t hst hone
      rw [List.flatMap_cons, Machine.meets_append] at hone
      obtain ⟨hone, hrest⟩ := hone
      have hfirst := h x List.mem_cons_self s t hst hone
      rw [List.flatMap_cons, List.flatMap_cons, Machine.run_append, Machine.run_append]
      generalize (program mmap rodata).run (f x) s = y at hfirst hrest ⊢
      generalize (program mmap rodata).run (g x) t = z at hfirst ⊢
      cases hfirst with
      | none => exact .none
      | some h₁ => exact ih (fun y hy => h y (List.mem_cons_of_mem _ hy)) _ _ h₁ (hrest _ rfl)

/-- An inlined update and a call. -/
theorem eventsAlike_update (fresh : FreshMmap mmap) (inline inline' : Bool) (addr reference : Word)
    (offset : U32) :
    EventsAlike mmap rodata
      (if inline = true then [.inlineUpdate addr reference offset]
        else [.call (.directUpdateObjTrace addr reference offset)])
      (if inline' = true then [.inlineUpdate addr reference offset]
        else [.call (.directUpdateObjTrace addr reference offset)]) := by
  intro s t h hmeets
  have hone : CountsOne s addr := by cases inline <;> exact hmeets.1
  have hcall : Alike mmap (bitypeDirectUpdateObjTrace mmap addr reference offset s)
      (bitypeDirectUpdateObjTrace mmap addr reference offset t) := by
    have hrel := call_alike fresh (.directUpdateObjTrace addr reference offset) h
    cases hrel with
    | some h => exact h
  -- where the entry counts one object, the inlined update does what the call does
  have hinline := inlineUpdate_alike fresh addr reference offset h
  have hsame := alike_inlineUpdate h.left fresh hone reference offset
  cases inline with
  | false =>
      cases inline' with
      | false => exact .some hcall
      | true => exact .some (hsame.symm.trans hinline)
  | true =>
      cases inline' with
      | false => exact .some (hsame.trans hcall)
      | true => exact .some hinline

theorem eventsAlike_emitEntry (fresh : FreshMmap mmap) (b b' : Bool) (emitType : EmitType)
    (site : Site) (i : ℕ) (entry : ℕ × Finset ℕ) :
    EventsAlike mmap rodata (emitEntry M b place emitType site i entry)
      (emitEntry M b' place emitType site i entry) := by
  unfold emitEntry
  split
  · exact .refl fresh _
  cases emitType with
  | conObjAdd =>
      by_cases hkind : site.allocType ≠ .reinterpret ∧ site.allocType ≠ .globalAlloc
      · simp only [ne_eq, hkind.1, hkind.2, not_false_eq_true, and_true, if_false]
        exact eventsAlike_update fresh b b' _ _ _
      · simp only [hkind, and_false, if_false]
        exact .refl fresh _
  | vlaObjAdd => exact .refl fresh _

theorem eventsAlike_insertUpdate (fresh : FreshMmap mmap) (b b' : Bool) (site : Site)
    (elements : Std.TreeMap ℕ (Finset ℕ)) :
    EventsAlike mmap rodata (insertUpdate M b place site elements)
      (insertUpdate M b' place site elements) := by
  have hobject : ∀ emitType i, EventsAlike mmap rodata
      (emitInstForObjTrace M b place emitType site i elements)
      (emitInstForObjTrace M b' place emitType site i elements) :=
    fun emitType i => .flatMap fun entry _ => eventsAlike_emitEntry fresh b b' emitType site i entry
  unfold insertUpdate
  split
  · exact hobject _ _
  split
  · exact hobject _ _
  split
  · exact .flatMap fun i _ => hobject _ i
  · exact hobject _ _

theorem eventsAlike_insertRemove (fresh : FreshMmap mmap) (b b' : Bool) (site : Site)
    (elements : Std.TreeMap ℕ (Finset ℕ)) :
    EventsAlike mmap rodata (insertRemove b site elements) (insertRemove b' site elements) := by
  have hobject : ∀ removeType i, EventsAlike mmap rodata
      (emitInstForObjRemove b removeType site i elements)
      (emitInstForObjRemove b' removeType site i elements) := by
    refine fun removeType i => .flatMap fun entry _ => ?_
    unfold emitRemoveEntry
    split
    · exact .refl fresh _
    cases removeType with
    | conObjDel => cases b <;> cases b' <;> exact EventsAlike.refl fresh [.inlineErase _]
    | vlaObjDel => exact .refl fresh _
  unfold insertRemove
  split
  · exact .refl fresh _
  split
  · exact .flatMap fun i _ => hobject _ i
  · exact hobject _ _

/-- A result of a check on alike tables. -/
theorem Running.Alike.checked {r r' : Running P} (h : r.Alike mmap r') (debug : U32)
    {result result' : Shadow × Bool} (hreport : result.2 = result'.2)
    (hstate : Runtime.Alike mmap result.1 result'.1) :
    (r.checked debug result).Alike mmap (r'.checked debug result') where
  locals := h.locals
  memory := h.memory
  reports := by
    have hnew : newReports debug r.shadow = newReports debug r'.shadow := by
      unfold newReports
      rw [h.shadow.debugArray]
    show (if result.2 = true then _ else _) = if result'.2 = true then _ else _
    rw [hreport, hnew, h.reports]
  shadow := hstate

variable (rodata) in
/-- A check does alike on alike tables. -/
theorem CheckCall.alike {r r' : Running P} (h : r.Alike mmap r') (c : CheckCall) :
    ((c.called rodata r).2 = (c.called rodata r').2 ∧
      Runtime.Alike mmap (c.called rodata r).1 (c.called rodata r').1) ∧
    (c.inlined rodata r).2 = (c.inlined rodata r').2 ∧
      Runtime.Alike mmap (c.inlined rodata r).1 (c.inlined rodata r').1 := by
  unfold called inlined
  rw [← h.locals]
  exact ⟨(verifyCast_alike rodata h.shadow _ _ _ _ _).2,
    inlineVerification_alike rodata h.shadow _ _ _ _ _⟩

/-- Operations on the table do alike on alike tables. -/
theorem EventsAlike.withShadow {events events' : List Event}
    (h : EventsAlike mmap rodata events events') {r r' : Running P} (halike : r.Alike mmap r')
    (hone : (program mmap rodata).Meets UpdatesOne events r.shadow) :
    Option.Rel (Running.Alike mmap)
      (((program mmap rodata).run events r.shadow).map fun s => r.withShadow s)
      (((program mmap rodata).run events' r'.shadow).map fun s => r'.withShadow s) := by
  have hrel := h _ _ halike.shadow hone
  generalize (program mmap rodata).run events r.shadow = x at hrel ⊢
  generalize (program mmap rodata).run events' r'.shadow = y at hrel ⊢
  cases hrel with
  | none => exact .none
  | some hs => exact .some ⟨halike.locals, halike.memory, halike.reports, hs⟩

variable (mmap rodata M place) in
/-- If an instruction traces an object, each entry that it updates counts one object. -/
def Inst.CountsOne (inlineOpt : Bool) (i : Inst α) (r : Running P) : Prop :=
  match i with
  | .update _ q => (program mmap rodata).Meets UpdatesOne
      (insertUpdate M inlineOpt place (q.site r.locals) q.elements) r.shadow
  | _ => True

theorem meets_insertRemove (inlineOpt : Bool) (site : Site) (elements : Std.TreeMap ℕ (Finset ℕ)) :
    ∀ s, (program mmap rodata).Meets UpdatesOne (insertRemove inlineOpt site elements) s := by
  -- a removal updates no entry
  have hentry : ∀ removeType i entry last,
      ∀ event ∈ emitRemoveEntry inlineOpt removeType site i entry last, ∀ s, UpdatesOne event s := by
    intro removeType i entry last event hevent s
    unfold emitRemoveEntry at hevent
    split at hevent
    · cases hevent
    cases removeType with
    | conObjDel =>
        dsimp only at hevent
        split at hevent
        · obtain rfl := List.mem_singleton.mp hevent
          trivial
        · obtain rfl := List.mem_singleton.mp hevent
          trivial
    | vlaObjDel =>
        rcases List.mem_cons.mp hevent with rfl | hevent
        · trivial
        · split at hevent
          · obtain rfl := List.mem_singleton.mp hevent
            trivial
          · cases hevent
  have hobject : ∀ removeType i,
      ∀ event ∈ emitInstForObjRemove inlineOpt removeType site i elements, ∀ s, UpdatesOne event s := by
    intro removeType i event hevent
    obtain ⟨entry, -, hevent⟩ := List.mem_flatMap.mp hevent
    exact hentry _ _ _ _ event hevent
  refine Machine.meets_of_forall fun event hevent => ?_
  unfold insertRemove at hevent
  split at hevent
  · cases hevent
  split at hevent
  · obtain ⟨i, -, hevent⟩ := List.mem_flatMap.mp hevent
    exact hobject _ i event hevent
  · exact hobject _ _ event hevent

/-- **Alike states stay alike**, whether objects are traced inline or by calls, as long as what is
updated counts one object. -/
theorem executing_alike (fresh : FreshMmap mmap) (inlineChecks b b' : Bool) (i : Inst α)
    {r r' : Running P} (h : r.Alike mmap r') (hone : i.CountsOne mmap rodata M place b r) :
    Option.Rel (Running.Alike mmap)
      ((executing mmap rodata M place inlineChecks b base).step i r)
      ((executing mmap rodata M place inlineChecks b' base).step i r') := by
  -- both read the same registers
  have hsite : ∀ q : Request, q.site r.locals = q.site r'.locals := fun q => by rw [h.locals]
  cases i with
  | check site c =>
      obtain ⟨hcalled, hinlined⟩ := c.alike rodata h
      refine .some ?_
      rw [← h.locals]
      cases inlineChecks with
      | false => exact h.checked _ hcalled.1 hcalled.2
      | true => exact h.checked _ hinlined.1 hinlined.2
  | update site q =>
      simp only [Inst.CountsOne, hsite] at hone
      simp only [executing, hsite]
      exact (eventsAlike_insertUpdate fresh b b' _ _).withShadow h hone
  | remove site q =>
      simp only [executing, hsite]
      exact (eventsAlike_insertRemove fresh b b' _ _).withShadow h (meets_insertRemove b _ _ _)
  | other i =>
      simp only [executing, h.locals, h.memory]
      -- an instruction of the program sees registers and memory only
      cases base.step i (r'.locals, r'.memory) with
      | none => exact .none
      | some p => exact .some ⟨rfl, rfl, h.reports, h.shadow⟩

/-- The same, for an instruction that has been executed. -/
theorem step_alike (fresh : FreshMmap mmap) {inlineChecks b : Bool} (b' : Bool) {i : Inst α}
    {r r' r₁ : Running P} (h : r.Alike mmap r') (hone : i.CountsOne mmap rodata M place b r)
    (hstep : (executing mmap rodata M place inlineChecks b base).step i r = some r₁) :
    ∃ r₂, (executing mmap rodata M place inlineChecks b' base).step i r' = some r₂ ∧
      r₁.Alike mmap r₂ := by
  have hrel : Option.Rel (Running.Alike mmap)
      ((executing mmap rodata M place inlineChecks b base).step i r)
      ((executing mmap rodata M place inlineChecks b' base).step i r') :=
    executing_alike fresh inlineChecks b b' i h hone
  rw [hstep] at hrel
  -- the step returns here, so it returns there
  generalize (executing mmap rodata M place inlineChecks b' base).step i r' = y at hrel ⊢
  cases hrel with
  | some hR => exact ⟨_, rfl, hR⟩

/-- Alike states go the same way. -/
theorem Running.Alike.next {r r' : Running P} (h : r.Alike mmap r') (exit : Exit)
    (inlineChecks inlineChecks' : Bool) :
    (executing mmap rodata M place inlineChecks' b' base).next exit r' =
      (executing mmap rodata M place inlineChecks b base).next exit r := by
  have hsame : (r'.locals, r'.memory) = (r.locals, r.memory) := by rw [h.locals, h.memory]
  cases exit with
  | goto target => rfl
  | fork ifTrue ifFalse =>
      show some (if base.takes (r'.locals, r'.memory) = true then ifTrue else ifFalse) = _
      rw [hsame]
      rfl
  | other id successors =>
      show (base.select id (r'.locals, r'.memory)).bind _ = _
      rw [hsame]
      rfl

variable {F : Chart (Inst α)} {l : ℕ} {last : Exit}

/-- **Whether tracing is inlined makes no difference**, as long as no update on the way is of an entry
that counts several objects.  An execution that is meant with one setting is one of the function that
is emitted with it, and from every alike state the function with the other setting ends at the same
exit, with the same values, memory and reports and an alike table. -/
theorem traced_alike (low : LowMmap mmap) (hl : l < F.nextLabel) (b b' : Bool)
    {st st' : Built (Running P) Value} (h : st.host.Alike mmap st'.host) {r₁ : Running P}
    (hends : ((executing mmap rodata M place inlineChecks b base).restricted
      (Inst.CountsOne mmap rodata M place b)).Ends F.blocks l st.host r₁ last) :
    ∃ t t', t.host = r₁ ∧ r₁.Alike mmap t'.host ∧
      (building (target mmap rodata P) (executing mmap rodata M place inlineChecks false base)).Ends
        (traced mmap rodata M place P b F).blocks l st t last ∧
      (building (target mmap rodata P) (executing mmap rodata M place inlineChecks false base)).Ends
        (traced mmap rodata M place P b' F).blocks l st' t' last := by
  -- the emitted function is read as it is meant, related, and emitted again
  obtain ⟨t, ht, hfirst⟩ := (traced_ends rodata M place base inlineChecks b F low hl st
    h.shadow.left).mpr hends.of_restricted
  obtain ⟨r₂, hr₂, hmeant⟩ := hends.related
    (T := executing mmap rodata M place inlineChecks b' base) (R := Running.Alike mmap)
    (fun i r r' r₁ hR hr₁ =>
      step_alike low.toFreshMmap b' hR (Semantics.step_restricted hr₁).1
        (Semantics.step_restricted hr₁).2)
    (fun exit r r' hR => (hR.next exit _ _).trans (Semantics.next_restricted exit r).symm) h
  obtain ⟨t', rfl, hsecond⟩ := (traced_ends rodata M place base inlineChecks b' F low hl st'
    h.shadow.right).mpr hmeant
  exact ⟨t, t', ht, hr₂, hfirst, hsecond⟩

/-- The object of the function is new to the table, so that its update counts one object. -/
theorem sampleUpdate_countsOne (inlineOpt : Bool) :
    (Inst.update 0 sampleRequest : Inst Unit).CountsOne spacedMmap (fun _ => 0) derivedModule
      (fun _ => 8) inlineOpt sampleStart := by
  have hnone : CountsOne sampleStart.shadow 4096 := by
    intro e he
    rw [lookup_eq_view] at he
    have hempty : sampleStart.shadow.view = emptyMap := view_init fun _ => 0
    rw [hempty] at he
    cases he
  cases inlineOpt <;> exact ⟨hnone, fun _ _ => trivial⟩

/-- Up to a condition that its instructions meet, the function comes to an end. -/
theorem exists_restrictedEnd (inlineChecks inlineOpt : Bool) {C : Inst Unit → Running Unit → Prop}
    (hupdate : C (.update 0 sampleRequest) sampleStart) (hcheck : ∀ r, C (.check 1 sampleCheck) r)
    (hother : ∀ r, C (.other ()) r) (hremove : ∀ r, C (.remove 2 sampleRequest) r) :
    ∃ r', ((executing spacedMmap (fun _ => 0) derivedModule (fun _ => 8) inlineChecks inlineOpt
      sampleBase).restricted C).Ends sampleFunction.blocks 0 sampleStart r' (.other 0 []) := by
  have hfirst : (executing spacedMmap (fun _ => 0) derivedModule (fun _ => 8) inlineChecks inlineOpt
      sampleBase).toMachine.Meets C [.update 0 sampleRequest, .check 1 sampleCheck, .other ()]
        sampleStart :=
    ⟨hupdate, fun _ _ => ⟨hcheck _, fun _ _ => ⟨hother _, fun _ _ => trivial⟩⟩⟩
  have hsecond : ∀ r, (executing spacedMmap (fun _ => 0) derivedModule (fun _ => 8) inlineChecks
      inlineOpt sampleBase).toMachine.Meets C [.remove 2 sampleRequest] r :=
    fun r => ⟨hremove r, fun _ _ => trivial⟩
  cases inlineChecks <;> cases inlineOpt <;>
    exact ⟨_, 1, _, List.mem_cons_self, rfl, .step (List.mem_cons_of_mem _ List.mem_cons_self)
      ((Semantics.run_restricted hfirst).trans rfl) rfl
      (.stop ((Semantics.run_restricted (hsecond _)).trans rfl) rfl)⟩

theorem traced_alike_sample : ∃ t t' : Built (Running Unit) Value,
    t.host.Alike spacedMmap t'.host ∧ (building (target spacedMmap (fun _ => 0) Unit)
      (executing spacedMmap (fun _ => 0) derivedModule (fun _ => 8) false false sampleBase)).Ends
        (traced spacedMmap (fun _ => 0) derivedModule (fun _ => 8) Unit false sampleFunction).blocks 0
          (unbuilt sampleStart) t' (.other 0 []) := by
  obtain ⟨r', hends⟩ := exists_restrictedEnd false true (sampleUpdate_countsOne true)
    (fun _ => trivial) (fun _ => trivial) fun _ => trivial
  have halike : (unbuilt sampleStart).host.Alike spacedMmap (unbuilt sampleStart).host :=
    ⟨rfl, rfl, rfl, .refl (layout_init fun _ => 0)⟩
  obtain ⟨t, t', rfl, ht', -, hends'⟩ :=
    traced_alike spacedMmap_low (show 0 < 2 by decide) true false halike hends
  exact ⟨t, t', ht', hends'⟩

/-! ### The checks -/

/-- If an instruction is a check, the replacement agrees with the call. -/
def Inst.Agrees (rodata : Word → Byte) (i : Inst α) (r : Running P) : Prop :=
  match i with
  | .check _ c => c.Agrees rodata r
  | _ => True

/-- Where they agree, the call and the replacement do the same. -/
theorem CheckCall.called_eq {c : CheckCall} {r : Running P} (h : c.Agrees rodata r) :
    c.called rodata r = c.inlined rodata r := by
  have hreports := (reports_agree_iff _ _ _ _).mpr h
  unfold called inlined
  rw [inlineVerification_eq, bitypeCastVerification, verifyCast_eq]
  simp only [Verdict.result]
  by_cases hconfusion : InlineReports rodata r.shadow.lookup (c.source.value r.locals)
      (c.derived.value r.locals) ((c.index.value r.locals).setWidth 32)
      ((c.code.value r.locals).setWidth 8)
  · rw [if_pos hconfusion, if_pos (hreports.mp hconfusion), decide_eq_true (hreports.mp hconfusion)]
  · rw [if_neg hconfusion, if_neg (mt hreports.mpr hconfusion),
      decide_eq_false (mt hreports.mpr hconfusion)]

variable (mmap rodata M place) in
/-- Inlining an instruction makes no difference to it. -/
def Inst.Inlines (i : Inst α) (r : Running P) : Prop :=
  i.CountsOne mmap rodata M place false r ∧ i.Agrees rodata r

theorem inlines_alike (fresh : FreshMmap mmap) {i : Inst α} {r r' r₁ : Running P}
    (h : r.Alike mmap r') (hinlines : i.Inlines mmap rodata M place r)
    (hstep : (executing mmap rodata M place false false base).step i r = some r₁) :
    ∃ r₂, (executing mmap rodata M place true true base).step i r' = some r₂ ∧ r₁.Alike mmap r₂ := by
  have hsame : (executing mmap rodata M place true false base).step i r = some r₁ := by
    rw [← hstep]
    cases i with
    | check site c =>
        show some (r.checked _ (c.inlined rodata r)) = some (r.checked _ (c.called rodata r))
        rw [c.called_eq hinlines.2]
    | _ => rfl
  exact step_alike fresh true h hinlines.1 hsame

/-- **The optimisation keeps what a function does.** As long as each check on the way is one on
which the replacement agrees with the call, and no update is of an entry that counts several objects,
the function with everything inlined ends like the one with calls: at the same exit, with the same
values, memory and reports and an alike table. -/
theorem optimised_alike (low : LowMmap mmap) (hl : l < F.nextLabel) {st : Built (Running P) Value}
    {st₂ : Built (Built (Running P) Value) Value} (h : st.host.Alike mmap st₂.host.host)
    {r' : Running P} (hends : ((executing mmap rodata M place false false base).restricted
      (Inst.Inlines mmap rodata M place)).Ends F.blocks l st.host r' last) :
    ∃ t t₂, t.host = r' ∧ r'.Alike mmap t₂.host.host ∧
      (building (target mmap rodata P) (executing mmap rodata M place false false base)).Ends
        (traced mmap rodata M place P false F).blocks l st t last ∧
      (building (target mmap rodata P).lifted
        (building (target mmap rodata P) (executing mmap rodata M place false false base))).Ends
          (checksInlined mmap rodata P (traced mmap rodata M place P true F)).blocks l st₂ t₂ last := by
  obtain ⟨t, ht, hcalled⟩ := (traced_ends rodata M place base false false F low hl st
    h.shadow.left).mpr hends.of_restricted
  obtain ⟨r₂, hr₂, hinlined⟩ := hends.related (T := executing mmap rodata M place true true base)
    (R := Running.Alike mmap)
    (fun i r r' r₁ hR hr₁ =>
      inlines_alike low.toFreshMmap hR (Semantics.step_restricted hr₁).1
        (Semantics.step_restricted hr₁).2)
    (fun exit r r' hR => (hR.next (b := false) exit false true).trans
      (Semantics.next_restricted exit r).symm) h
  obtain ⟨t₂, rfl, hoptimised⟩ := (inlined_ends rodata M place base true F low hl st₂
    h.shadow.right).mpr hinlined
  exact ⟨t, t₂, ht, hr₂, hcalled, hoptimised⟩

theorem sampleCheck_agrees (r : Running P) : sampleCheck.Agrees rodata r :=
  .same rfl fun _ _ => Iff.rfl

theorem optimised_alike_sample : ∃ (t : Built (Running Unit) Value)
    (t₂ : Built (Built (Running Unit) Value) Value), t.host.Alike spacedMmap t₂.host.host ∧
    (building (target spacedMmap (fun _ => 0) Unit).lifted
      (building (target spacedMmap (fun _ => 0) Unit)
        (executing spacedMmap (fun _ => 0) derivedModule (fun _ => 8) false false sampleBase))).Ends
          (checksInlined spacedMmap (fun _ => 0) Unit
            (traced spacedMmap (fun _ => 0) derivedModule (fun _ => 8) Unit true sampleFunction)).blocks 0
              (unbuilt (unbuilt sampleStart)) t₂ (.other 0 []) := by
  obtain ⟨r₁, hends⟩ := exists_restrictedEnd false false
    (C := Inst.Inlines spacedMmap (fun _ => 0) derivedModule fun _ => 8)
    ⟨sampleUpdate_countsOne false, trivial⟩ (fun r => ⟨trivial, sampleCheck_agrees r⟩)
    (fun _ => ⟨trivial, trivial⟩) fun _ => ⟨trivial, trivial⟩
  have halike : (unbuilt sampleStart).host.Alike spacedMmap
      (unbuilt (unbuilt sampleStart)).host.host := ⟨rfl, rfl, rfl, .refl (layout_init fun _ => 0)⟩
  obtain ⟨t, t₂, rfl, ht, -, hoptimised⟩ :=
    optimised_alike spacedMmap_low (show 0 < 2 by decide) halike hends
  exact ⟨t, t₂, ht, hoptimised⟩

end Difference

end Bitype.Pass.IR
