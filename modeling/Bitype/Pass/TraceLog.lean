import Bitype.Foundations.WriteLog
import Bitype.Pass.Heap

/-!
# The log of a sequence of updates

A sequence of updates writes references and offsets to granules and reads none, so what it
leaves is said by the log of its writes (`Logs`): one write for each granule of each object
(`placed`).  The sequence with a call for each granule of each object and the one with a call
for each granule of all objects make the same writes in two orders (`conLog`, `vlaLog`).
-/

namespace Bitype.Pass

open Bitype.Foundations Bitype.Runtime
open Bitype.Tool (Name)

/-! ## Logs -/

/-- References and offsets, written to granules. -/
abbrev TraceLog := List (ℕ × (Word × U32))

/-- From every state the sequence returns, and leaves what the log writes. -/
def Logs (mmap : ℕ → ℕ) (rodata : Word → Byte) (events : List Event) (log : TraceLog) : Prop :=
  ∀ s, Layout mmap s → ∃ s', (program mmap rodata).run events s = some s' ∧ Layout mmap s' ∧
    tableAt s'.view = written log (tableAt s.view)

theorem tableAt_record (m : GranuleMap) (g : ℕ) (e : Entry) :
    tableAt (m.record g fun _ => e) =
      Function.update (tableAt m) g (e.reference, e.offset) := by
  funext h
  unfold tableAt
  rw [content_record]
  by_cases hsame : h = g
  · subst hsame
    rw [if_pos rfl, Function.update_self]
  · rw [if_neg hsame, Function.update_of_ne hsame]

/-- A note of the size is no part of what is traced. -/
theorem tableAt_size (m : GranuleMap) (g : ℕ) (size : U32) :
    tableAt (m.record g fun e => { e with size := size }) = tableAt m := by
  funext h
  unfold tableAt
  rw [content_record]
  split
  · next hsame => rw [hsame]
  · rfl

/-- What a check sees of a reference. -/
theorem seen_of_tableAt {m : GranuleMap} {g : ℕ} {reference : Word} {offset : U32}
    (h : tableAt m g = (reference, offset)) (hne : reference ≠ 0) :
    seen (m g) = (some reference, offset) := by
  obtain ⟨hreference, hoffset⟩ := Prod.mk.inj h
  unfold GranuleMap.content at hreference hoffset
  cases he : m g with
  | none =>
      rw [he] at hreference
      exact absurd hreference.symm hne
  | some e =>
      rw [he] at hreference hoffset
      refine Prod.ext ?_ hoffset
      show (if e.reference = 0 then none else some e.reference) = some reference
      rw [show e.reference = reference from hreference, if_neg hne]

section Sequences

variable {mmap : ℕ → ℕ} {rodata : Word → Byte} {events events' : List Event}
  {log log' : TraceLog}

theorem Logs.nil : Logs mmap rodata [] [] := fun s layout => ⟨s, rfl, layout, rfl⟩

theorem Logs.append (h : Logs mmap rodata events log) (h' : Logs mmap rodata events' log') :
    Logs mmap rodata (events ++ events') (log ++ log') := by
  intro s layout
  obtain ⟨s₁, hrun₁, hlayout₁, htable₁⟩ := h s layout
  obtain ⟨s₂, hrun₂, hlayout₂, htable₂⟩ := h' s₁ hlayout₁
  refine ⟨s₂, ?_, hlayout₂, ?_⟩
  · rw [Machine.run_append, hrun₁]
    exact hrun₂
  · rw [htable₂, htable₁, written_append]

theorem Logs.flatMap {α : Type} {f : α → List Event} {L : α → TraceLog} (xs : List α)
    (h : ∀ x ∈ xs, Logs mmap rodata (f x) (L x)) :
    Logs mmap rodata (xs.flatMap f) (xs.flatMap L) := by
  induction xs with
  | nil => exact Logs.nil
  | cons x rest ih =>
      rw [List.flatMap_cons, List.flatMap_cons]
      exact (h x List.mem_cons_self).append (ih fun y hy => h y (List.mem_cons_of_mem _ hy))

/-- A call, by what it does to the abstract table. -/
theorem Logs.call (fresh : FreshMmap mmap) {op : Op}
    (h : ∀ m, ∃ m', op.abstractStep machineAddressing m = some m' ∧
      tableAt m' = written log (tableAt m)) : Logs mmap rodata [.call op] log := by
  intro s layout
  obtain ⟨m, hm, htable⟩ := h s.view
  obtain ⟨s', hs', hlayout, hview⟩ := call_spec fresh layout hm
  have hstep : (program mmap rodata).step (.call op) s = some s' := hs'
  refine ⟨s', ?_, hlayout, hview ▸ htable⟩
  rw [Machine.run_cons, hstep]
  rfl

/-- The size of an array is no part of the log. -/
theorem logs_updateArraySize (fresh : FreshMmap mmap) (thisPtr : Word) (arraySize : U32) :
    Logs mmap rodata [.call (.updateArraySize thisPtr arraySize)] [] := by
  refine Logs.call fresh fun m => ⟨_, rfl, ?_⟩
  split
  · rfl
  · exact tableAt_size m _ _

theorem logs_directUpdateObjTrace (fresh : FreshMmap mmap) (thisPtr referenceAddr : Word)
    (offset : U32) :
    Logs mmap rodata [.call (.directUpdateObjTrace thisPtr referenceAddr offset)]
      [(granule thisPtr, referenceAddr, offset)] := by
  refine Logs.call fresh fun m => ⟨_, rfl, ?_⟩
  rw [written_singleton]
  exact tableAt_record m _ ⟨referenceAddr, 0, offset⟩

theorem logs_inlineUpdate (fresh : FreshMmap mmap) (newAddr referenceAddr : Word) (offset : U32) :
    Logs mmap rodata [.inlineUpdate newAddr referenceAddr offset]
      [(granule newAddr, referenceAddr, offset)] := by
  intro s layout
  obtain ⟨hlayout, hview⟩ := inlineUpdate_spec layout fresh newAddr referenceAddr offset
  refine ⟨_, rfl, hlayout, ?_⟩
  rw [hview, written_singleton]
  exact tableAt_record s.view _ ⟨referenceAddr, _, offset⟩

variable (rodata) in
/-- The loop of `__bitype_updateObjTrace` writes to the granules of its elements in order. -/
theorem logs_updateObjTrace (fresh : FreshMmap mmap) (thisPtr referenceAddr : Word)
    (typeSize arraySize offset : U32) :
    Logs mmap rodata [.call (.updateObjTrace thisPtr referenceAddr typeSize arraySize offset)]
      ((List.range arraySize.toNat).map fun j =>
        (machineAddressing.element thisPtr typeSize j, referenceAddr, offset)) := by
  refine Logs.call fresh fun m => ⟨_, rfl, ?_⟩
  induction List.range arraySize.toNat generalizing m with
  | nil => rfl
  | cons j rest ih =>
      rw [List.foldl_cons, ih, List.map_cons, ← List.singleton_append, written_append,
        written_singleton]
      exact congrArg _ (tableAt_record m _ ⟨referenceAddr, 0, offset⟩)

end Sequences

/-! ## Objects -/

section Objects

/-- Granule `k` of the object number `j` at an address. -/
def objectGranule (objAddr : Word) (typeSize k j : ℕ) : ℕ :=
  granule (objAddr + BitVec.ofNat 64 (8 * k + typeSize * j))

/-- What an entry leaves in its granule. -/
def entryTable (M : Module) (place : Name → Word) (entry : ℕ × Finset ℕ) : Word × U32 :=
  (place (M.setName entry.2), BitVec.ofNat 32 (8 * entry.1))

variable (M : Module) (place : Name → Word) (objAddr : Word) (typeSize : ℕ)

/-- The write for an entry of an object. -/
def placed (j : ℕ) (entry : ℕ × Finset ℕ) : ℕ × (Word × U32) :=
  (objectGranule objAddr typeSize entry.1 j, entryTable M place entry)

/-- The writes, object after object. -/
def conLog (n : ℕ) (entries : List (ℕ × Finset ℕ)) : TraceLog :=
  (List.range n).flatMap fun j => entries.map (placed M place objAddr typeSize j)

/-- The writes, entry after entry. -/
def vlaLog (n : ℕ) (entries : List (ℕ × Finset ℕ)) : TraceLog :=
  entries.flatMap fun entry => (List.range n).map fun j => placed M place objAddr typeSize j entry

variable {M place objAddr typeSize}

theorem mem_conLog {n : ℕ} {entries : List (ℕ × Finset ℕ)} {write : ℕ × (Word × U32)} :
    write ∈ conLog M place objAddr typeSize n entries ↔
      ∃ entry ∈ entries, ∃ j < n, placed M place objAddr typeSize j entry = write := by
  unfold conLog
  simp only [List.mem_flatMap, List.mem_range, List.mem_map]
  constructor
  · rintro ⟨j, hj, entry, hentry, hwrite⟩
    exact ⟨entry, hentry, j, hj, hwrite⟩
  · rintro ⟨entry, hentry, j, hj, hwrite⟩
    exact ⟨j, hj, entry, hentry, hwrite⟩

theorem mem_vlaLog {n : ℕ} {entries : List (ℕ × Finset ℕ)} {write : ℕ × (Word × U32)} :
    write ∈ vlaLog M place objAddr typeSize n entries ↔
      ∃ entry ∈ entries, ∃ j < n, placed M place objAddr typeSize j entry = write := by
  unfold vlaLog
  simp only [List.mem_flatMap, List.mem_map, List.mem_range]

end Objects

/-! ## The emitted sequences -/

section Emitted

variable {mmap : ℕ → ℕ} {rodata : Word → Byte} {M : Module} {inlineOpt : Bool}
  {place : Name → Word} {site : Site}

/-- An entry of an object whose granule is within reach of 32-bit arithmetic. -/
def InReach (site : Site) (n : ℕ) (entry : ℕ × Finset ℕ) : Prop :=
  entry.2.card ≠ 0 ∧ 8 * entry.1 < 2 ^ 32 ∧ ∀ j < n, 8 * entry.1 + site.typeSize * j < 2 ^ 32

variable (rodata M inlineOpt place) in
/-- One entry of one object. -/
theorem logs_conObjAdd (fresh : FreshMmap mmap) (hkind : site.allocType ≠ .reinterpret) {n j : ℕ}
    (hj : j < n) {entry : ℕ × Finset ℕ} (hreach : InReach site n entry) :
    Logs mmap rodata (emitEntry M inlineOpt place .conObjAdd site j entry)
      [placed M place site.objAddr site.typeSize j entry] := by
  obtain ⟨hne, hsmall, hrange⟩ := hreach
  rw [emitEntry_con hne hsmall (hrange j hj), if_neg hkind]
  split
  · exact logs_inlineUpdate fresh _ _ _
  · exact logs_directUpdateObjTrace fresh _ _ _

/-- The address of an element, without the 32-bit product. -/
theorem element_objectGranule (objAddr : Word) {typeSize k j : ℕ}
    (h : 8 * k + typeSize * j < 2 ^ 32) :
    machineAddressing.element (objAddr + BitVec.ofNat 64 (8 * k)) (BitVec.ofNat 32 typeSize) j =
      objectGranule objAddr typeSize k j := by
  have hproduct : (BitVec.ofNat 32 typeSize * BitVec.ofNat 32 j).setWidth 64 =
      BitVec.ofNat 64 (typeSize * j) := by
    rw [← BitVec.ofNat_mul]
    apply BitVec.eq_of_toNat_eq
    rw [BitVec.toNat_setWidth, BitVec.toNat_ofNat, BitVec.toNat_ofNat]
    omega
  show granule (elementAddr _ _ _) = granule _
  rw [elementAddr, hproduct, BitVec.add_assoc, ← BitVec.ofNat_add]

variable (rodata M inlineOpt place) in
/-- One entry of all objects. -/
theorem logs_vlaObjAdd (fresh : FreshMmap mmap) {entry : ℕ × Finset ℕ}
    (hreach : InReach site (site.arraySize.setWidth 32).toNat entry) :
    Logs mmap rodata (emitEntry M inlineOpt place .vlaObjAdd site 0 entry)
      ((List.range (site.arraySize.setWidth 32).toNat).map fun j =>
        placed M place site.objAddr site.typeSize j entry) := by
  obtain ⟨hne, hsmall, hrange⟩ := hreach
  rw [emitEntry_vla hne hsmall]
  have hloop := logs_updateObjTrace rodata fresh
    (site.objAddr + BitVec.ofNat 64 (8 * entry.1)) (place (M.setName entry.2))
    (BitVec.ofNat 32 site.typeSize) (site.arraySize.setWidth 32) (BitVec.ofNat 32 (8 * entry.1))
  have hlog : (List.range (site.arraySize.setWidth 32).toNat).map (fun j =>
      (machineAddressing.element (site.objAddr + BitVec.ofNat 64 (8 * entry.1))
        (BitVec.ofNat 32 site.typeSize) j, place (M.setName entry.2),
        BitVec.ofNat 32 (8 * entry.1))) =
      (List.range (site.arraySize.setWidth 32).toNat).map fun j =>
        placed M place site.objAddr site.typeSize j entry := by
    apply List.map_congr_left
    intro j hj
    rw [element_objectGranule _ (hrange j (List.mem_range.mp hj))]
    rfl
  rw [hlog] at hloop
  have happend := hloop.append (logs_updateArraySize fresh site.objAddr (site.arraySize.setWidth 32))
  rwa [List.append_nil] at happend

variable (rodata M inlineOpt place) in
/-- **The call for each granule of each object.** -/
theorem logs_conLog (fresh : FreshMmap mmap) (hkind : site.allocType ≠ .reinterpret) (n : ℕ)
    {elements : Std.TreeMap ℕ (Finset ℕ)} (hreach : ∀ e ∈ elements.toList, InReach site n e) :
    Logs mmap rodata
      ((List.range n).flatMap fun j =>
        emitInstForObjTrace M inlineOpt place .conObjAdd site j elements)
      (conLog M place site.objAddr site.typeSize n elements.toList) := by
  apply Logs.flatMap
  intro j hj
  rw [List.map_eq_flatMap]
  exact Logs.flatMap _ fun entry hentry => logs_conObjAdd rodata M inlineOpt place fresh hkind
    (List.mem_range.mp hj) (hreach entry hentry)

variable (rodata M inlineOpt place) in
/-- **The call for each granule of all objects.** -/
theorem logs_vlaLog (fresh : FreshMmap mmap) {elements : Std.TreeMap ℕ (Finset ℕ)}
    (hreach : ∀ e ∈ elements.toList, InReach site (site.arraySize.setWidth 32).toNat e) :
    Logs mmap rodata (emitInstForObjTrace M inlineOpt place .vlaObjAdd site 0 elements)
      (vlaLog M place site.objAddr site.typeSize (site.arraySize.setWidth 32).toNat
        elements.toList) :=
  Logs.flatMap _ fun entry hentry =>
    logs_vlaObjAdd rodata M inlineOpt place fresh (hreach entry hentry)

end Emitted

end Bitype.Pass
