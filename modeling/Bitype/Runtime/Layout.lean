import Bitype.Runtime.GranuleMap
import Mathlib.Data.Finset.Card
import Mathlib.Tactic.Linarith

/-!
# The layout invariant of the shadow table

`Placement mmap s` is what keeps the bump allocator and the lazily filled first
level sound: the current pool holds a whole number of zeroed tables, every
non-null first-level entry starts a whole table inside some mapped pool, and no
two tables, nor a table and the rest of the current pool, overlap.  `Layout`
adds that every call of `mmap` but the first served a first-level slot, so that
only `L1_BITS + 1` calls can ever be made.  It is about those calls alone that
`FreshMmap mmap` assumes that the regions the system returns are disjoint.

The two facts the operations need are `modifyWord_layout` for a write into a table
and `secondLevel_spec` for the allocation block all updates start with.
-/

namespace Bitype.Runtime

/-- The bytes of the region the `k`-th call maps. -/
def regionBytes (k : ℕ) : ℕ := if k = 0 then initialSize else mmapSize

/-- **The system's promise.**  Each region lies inside the address space, not at
zero, and is disjoint from all earlier ones. -/
structure FreshMmap (mmap : ℕ → ℕ) : Prop where
  pos : ∀ k ≤ L1_BITS, 0 < mmap k
  bounded : ∀ k ≤ L1_BITS, mmap k + regionBytes k ≤ 2 ^ 64
  disjoint : ∀ k ≤ L1_BITS, ∀ j < k,
    mmap j + regionBytes j ≤ mmap k ∨ mmap k + regionBytes k ≤ mmap j

/-- The pool of region `k`: all of it, except that region `0` starts with the
first level. -/
def poolStart (mmap : ℕ → ℕ) (k : ℕ) : ℕ := if k = 0 then mmap 0 + 8 * L1_BITS else mmap k

def poolEnd (mmap : ℕ → ℕ) (k : ℕ) : ℕ := mmap k + regionBytes k

/-- The first-level slots in use. -/
def usedSlots (s : Shadow) : Finset ℕ := (Finset.range L1_BITS).filter fun i => s.firstLevel i ≠ 0

/-- Where the tables lie. -/
structure Placement (mmap : ℕ → ℕ) (s : Shadow) : Prop where
  lookup_eq : s.bitypeLookupStart = mmap 0
  calls_pos : 0 < s.mmapCalls
  calls_bound : s.mmapCalls ≤ 1 + L1_BITS
  rest_in_pool : ∃ k < s.mmapCalls,
    poolStart mmap k ≤ s.bitypeSecondLevelStart ∧ s.bitypeSecondLevelEnd = poolEnd mmap k
  rest_whole : ∃ r, s.bitypeSecondLevelEnd = s.bitypeSecondLevelStart + r * tableBytes
  rest_zero : ∀ a, s.bitypeSecondLevelStart ≤ a → a < s.bitypeSecondLevelEnd → s.mem a = 0
  table_in_pool : ∀ i < L1_BITS, s.firstLevel i ≠ 0 → ∃ k < s.mmapCalls,
    poolStart mmap k ≤ s.firstLevel i ∧ s.firstLevel i + tableBytes ≤ poolEnd mmap k
  table_off_rest : ∀ i < L1_BITS, s.firstLevel i ≠ 0 →
    s.firstLevel i + tableBytes ≤ s.bitypeSecondLevelStart ∨
      s.bitypeSecondLevelEnd ≤ s.firstLevel i
  tables_disjoint : ∀ i < L1_BITS, ∀ j < L1_BITS, i ≠ j →
    s.firstLevel i ≠ 0 → s.firstLevel j ≠ 0 →
      s.firstLevel i + tableBytes ≤ s.firstLevel j ∨ s.firstLevel j + tableBytes ≤ s.firstLevel i

/-- The layout invariant: the placement, and a slot for each call but the first. -/
structure Layout (mmap : ℕ → ℕ) (s : Shadow) : Prop extends Placement mmap s where
  calls_le : s.mmapCalls ≤ 1 + (usedSlots s).card

variable {mmap : ℕ → ℕ} {s : Shadow}

/-! ## Pools -/

/-- A pool starts after the first level ends, or lies before it. -/
theorem pool_off_firstLevel (fresh : FreshMmap mmap) {k : ℕ} (hk : k ≤ L1_BITS) :
    mmap 0 + 8 * L1_BITS ≤ poolStart mmap k ∨ poolEnd mmap k ≤ mmap 0 := by
  rcases Nat.eq_zero_or_pos k with rfl | hpos
  · exact Or.inl (if_pos rfl).ge
  · have hdisjoint := fresh.disjoint k hk 0 hpos
    have hfirst : 8 * L1_BITS ≤ regionBytes 0 := by decide
    have hstart : poolStart mmap k = mmap k := if_neg hpos.ne'
    rw [hstart, poolEnd]
    omega

theorem mmap_le_poolStart (mmap : ℕ → ℕ) (k : ℕ) : mmap k ≤ poolStart mmap k := by
  unfold poolStart
  split
  · next h => subst h; omega
  · exact le_rfl

/-- A null slot leaves room for one more call. -/
theorem Layout.calls_of_null (layout : Layout mmap s) {i : ℕ} (hi : i < L1_BITS)
    (hnull : s.firstLevel i = 0) : s.mmapCalls ≤ L1_BITS := by
  have hsubset : usedSlots s ⊆ (Finset.range L1_BITS).erase i := by
    intro j hj
    rw [usedSlots, Finset.mem_filter] at hj
    refine Finset.mem_erase.mpr ⟨?_, hj.1⟩
    rintro rfl
    exact hj.2 hnull
  have hcard := Finset.card_le_card hsubset
  rw [Finset.card_erase_of_mem (Finset.mem_range.mpr hi), Finset.card_range] at hcard
  have := layout.calls_le
  omega

namespace Placement

variable (placement : Placement mmap s)

include placement

/-- A table does not touch the first level. -/
theorem table_off_firstLevel (fresh : FreshMmap mmap) {i : ℕ} (hi : i < L1_BITS)
    (hne : s.firstLevel i ≠ 0) :
    s.bitypeLookupStart + 8 * L1_BITS ≤ s.firstLevel i ∨
      s.firstLevel i + tableBytes ≤ s.bitypeLookupStart := by
  obtain ⟨k, hk, hlow, hhigh⟩ := placement.table_in_pool i hi hne
  have := placement.calls_bound
  have := pool_off_firstLevel fresh (show k ≤ L1_BITS by omega)
  rw [placement.lookup_eq]
  omega

/-- Nor does the rest of the current pool. -/
theorem rest_off_firstLevel (fresh : FreshMmap mmap) :
    s.bitypeLookupStart + 8 * L1_BITS ≤ s.bitypeSecondLevelStart ∨
      s.bitypeSecondLevelEnd ≤ s.bitypeLookupStart := by
  obtain ⟨k, hk, hlow, hend⟩ := placement.rest_in_pool
  have := placement.calls_bound
  have := pool_off_firstLevel fresh (show k ≤ L1_BITS by omega)
  rw [placement.lookup_eq, hend]
  omega

/-- A word of a table is not a first-level slot. -/
theorem table_word_ne_slot (fresh : FreshMmap mmap) {i j n : ℕ} (hi : i < L1_BITS)
    (hne : s.firstLevel i ≠ 0) (hj : j < 2 * L2_BITS) (hn : n < L1_BITS) :
    s.firstLevel i + 8 * j ≠ s.bitypeLookupStart + 8 * n := by
  have := placement.table_off_firstLevel fresh hi hne
  have hbytes : tableBytes = 8 * (L2_BITS * 2) := rfl
  omega

/-- Words of different tables, or different words of one table, do not alias. -/
theorem table_words_injective {i i' j j' : ℕ} (hi : i < L1_BITS) (hi' : i' < L1_BITS)
    (hne : s.firstLevel i ≠ 0) (hne' : s.firstLevel i' ≠ 0) (hj : j < 2 * L2_BITS)
    (hj' : j' < 2 * L2_BITS) (h : s.firstLevel i + 8 * j = s.firstLevel i' + 8 * j') :
    i = i' ∧ j = j' := by
  have hbytes : tableBytes = 8 * (L2_BITS * 2) := rfl
  by_cases heq : i = i'
  · subst heq
    exact ⟨rfl, by omega⟩
  · have := placement.tables_disjoint i hi i' hi' heq hne hne'
    omega

end Placement

/-! ## Initialization -/

theorem firstLevel_init (mem : ℕ → Word) {i : ℕ} (hi : i < L1_BITS) :
    (bitypeInitialization mmap mem).firstLevel i = 0 := by
  have hmem : mapRegion (mmap 0) initialSize mem (mmap 0 + 8 * i) = 0 := by
    refine if_pos ⟨by omega, ?_⟩
    have : 8 * L1_BITS ≤ initialSize := by decide
    omega
  show (mapRegion (mmap 0) initialSize mem (mmap 0 + 8 * i)).toNat = 0
  rw [hmem]
  rfl

/-- The state `bitypeInitialization` leaves is well laid out. -/
theorem layout_init (mem : ℕ → Word) : Layout mmap (bitypeInitialization mmap mem) where
  lookup_eq := rfl
  calls_pos := Nat.one_pos
  calls_bound := Nat.le_add_right 1 _
  rest_in_pool := ⟨0, Nat.one_pos, le_rfl, rfl⟩
  rest_whole := ⟨10, by simp [bitypeInitialization, tableBytes, initialSize, L1_BITS, L2_BITS,
    bitypePageNum, Nat.add_assoc]⟩
  rest_zero a hlow hhigh := by
    refine if_pos ⟨le_trans (Nat.le_add_right _ _) hlow, hhigh.trans_le ?_⟩
    exact le_of_eq rfl
  table_in_pool i hi hne := absurd (firstLevel_init mem hi) hne
  table_off_rest i hi hne := absurd (firstLevel_init mem hi) hne
  tables_disjoint i hi _ _ _ hne := absurd (firstLevel_init mem hi) hne
  calls_le := Nat.le_add_right 1 _

/-! ## Writing into a table -/

/-- A write into a table changes no first-level entry. -/
theorem firstLevel_modifyWord (placement : Placement mmap s) (fresh : FreshMmap mmap) {i j n : ℕ}
    (hi : i < L1_BITS) (hne : s.firstLevel i ≠ 0) (hj : j < 2 * L2_BITS) (hn : n < L1_BITS)
    (f : Word → Word) :
    (s.modifyWord (s.firstLevel i) j f).firstLevel n = s.firstLevel n := by
  refine congrArg BitVec.toNat (Function.update_of_ne ?_ _ _)
  exact (placement.table_word_ne_slot fresh hi hne hj hn).symm

/-- It changes that word of the table and no word of any table else. -/
theorem word_modifyWord (placement : Placement mmap s) {i j i' j' : ℕ} (hi : i < L1_BITS)
    (hne : s.firstLevel i ≠ 0) (hj : j < 2 * L2_BITS) (hi' : i' < L1_BITS)
    (hne' : s.firstLevel i' ≠ 0) (hj' : j' < 2 * L2_BITS) (f : Word → Word) :
    (s.modifyWord (s.firstLevel i) j f).word (s.firstLevel i') j' =
      if i' = i ∧ j' = j then f (s.word (s.firstLevel i) j) else s.word (s.firstLevel i') j' := by
  split
  · next h =>
      obtain ⟨rfl, rfl⟩ := h
      exact Function.update_self ..
  · next h =>
      refine Function.update_of_ne (fun heq => h ?_) _ _
      exact placement.table_words_injective hi' hi hne' hne hj' hj heq

/-- **Writing into a table keeps the layout.** -/
theorem modifyWord_layout (layout : Layout mmap s) (fresh : FreshMmap mmap) {i j : ℕ}
    (hi : i < L1_BITS) (hne : s.firstLevel i ≠ 0) (hj : j < 2 * L2_BITS) (f : Word → Word) :
    Layout mmap (s.modifyWord (s.firstLevel i) j f) := by
  have hfirst : ∀ n < L1_BITS,
      (s.modifyWord (s.firstLevel i) j f).firstLevel n = s.firstLevel n :=
    fun n hn => firstLevel_modifyWord layout.toPlacement fresh hi hne hj hn f
  have hused : usedSlots (s.modifyWord (s.firstLevel i) j f) = usedSlots s :=
    Finset.filter_congr fun n hn => by rw [hfirst n (Finset.mem_range.mp hn)]
  refine ⟨⟨layout.lookup_eq, layout.calls_pos, layout.calls_bound, layout.rest_in_pool,
    layout.rest_whole, ?_, ?_, ?_, ?_⟩, ?_⟩
  · -- the rest of the pool is not written
    intro a hlow hhigh
    have hbytes : tableBytes = 8 * (L2_BITS * 2) := rfl
    have hoff := layout.table_off_rest i hi hne
    have ha : a ≠ s.firstLevel i + 8 * j := by
      change s.bitypeSecondLevelStart ≤ a at hlow
      change a < s.bitypeSecondLevelEnd at hhigh
      omega
    exact (Function.update_of_ne ha _ _).trans (layout.rest_zero a hlow hhigh)
  · intro n hn
    rw [hfirst n hn]
    exact layout.table_in_pool n hn
  · intro n hn
    rw [hfirst n hn]
    exact layout.table_off_rest n hn
  · intro n hn m hm
    rw [hfirst n hn, hfirst m hm]
    exact layout.tables_disjoint n hn m hm
  · rw [hused]
    exact layout.calls_le

/-! ## The allocation block -/

/-- Its first half: map a new pool if the current one is used up. -/
def refill (mmap : ℕ → ℕ) (s : Shadow) : Shadow :=
  if s.bitypeSecondLevelEnd ≤ s.bitypeSecondLevelStart then bitypeMallocNewSpace mmap s else s

/-- Its second half: give slot `i` the next table of the pool. -/
def claimTable (s : Shadow) (i : ℕ) : Shadow :=
  { s with
    mem := Function.update s.mem (s.bitypeLookupStart + 8 * i)
      (BitVec.ofNat 64 s.bitypeSecondLevelStart)
    bitypeSecondLevelStart := s.bitypeSecondLevelStart + 8 * (L2_BITS * 2) }

theorem secondLevel_of_null {i : ℕ} (hnull : s.firstLevel i = 0) :
    secondLevel mmap s i = (claimTable (refill mmap s) i, (refill mmap s).bitypeSecondLevelStart) := by
  rw [secondLevel, if_pos hnull]
  rfl

theorem secondLevel_of_ne {i : ℕ} (hne : s.firstLevel i ≠ 0) :
    secondLevel mmap s i = (s, s.firstLevel i) := if_neg hne

/-- What `refill` and `claimTable` leave alone: the entries of other slots and the
words of the tables in use. -/
structure SameTables (keep : ℕ → Prop) (s s' : Shadow) : Prop where
  firstLevel_eq : ∀ n < L1_BITS, keep n → s'.firstLevel n = s.firstLevel n
  word_eq : ∀ n < L1_BITS, s.firstLevel n ≠ 0 → ∀ j < 2 * L2_BITS,
    s'.word (s.firstLevel n) j = s.word (s.firstLevel n) j

/-- Mapping a new pool changes no word of an earlier region. -/
theorem mem_malloc (placement : Placement mmap s) (fresh : FreshMmap mmap)
    (hcalls : s.mmapCalls ≤ L1_BITS) {k a : ℕ} (hk : k < s.mmapCalls) (hlow : mmap k ≤ a)
    (hhigh : a < mmap k + regionBytes k) : (bitypeMallocNewSpace mmap s).mem a = s.mem a := by
  have hregion : regionBytes s.mmapCalls = mmapSize := if_neg placement.calls_pos.ne'
  have hdisjoint := fresh.disjoint s.mmapCalls hcalls k hk
  rw [hregion] at hdisjoint
  exact if_neg (by omega)

/-- The first level is in the first region. -/
theorem firstLevel_malloc (placement : Placement mmap s) (fresh : FreshMmap mmap)
    (hcalls : s.mmapCalls ≤ L1_BITS) {n : ℕ} (hn : n < L1_BITS) :
    (bitypeMallocNewSpace mmap s).firstLevel n = s.firstLevel n := by
  refine congrArg BitVec.toNat (mem_malloc placement fresh hcalls placement.calls_pos ?_ ?_)
  · change mmap 0 ≤ s.bitypeLookupStart + 8 * n
    rw [placement.lookup_eq]
    omega
  · change s.bitypeLookupStart + 8 * n < _
    have : 8 * L1_BITS ≤ regionBytes 0 := by decide
    rw [placement.lookup_eq]
    omega

/-- A new pool is zeroed, whole and disjoint from everything in use. -/
theorem malloc_placement (placement : Placement mmap s) (fresh : FreshMmap mmap)
    (hcalls : s.mmapCalls ≤ L1_BITS) :
    Placement mmap (bitypeMallocNewSpace mmap s) ∧
      SameTables (fun _ => True) s (bitypeMallocNewSpace mmap s) := by
  have hpos := placement.calls_pos
  have hregion : regionBytes s.mmapCalls = mmapSize := if_neg hpos.ne'
  have hpool : poolStart mmap s.mmapCalls = mmap s.mmapCalls := if_neg hpos.ne'
  have hbytes : tableBytes = 8 * (L2_BITS * 2) := rfl
  have hsize : mmapSize = 10 * tableBytes := by decide
  have hadded : 8 * addedMemorySize = mmapSize := by decide
  have hfirst : ∀ n < L1_BITS, (bitypeMallocNewSpace mmap s).firstLevel n = s.firstLevel n :=
    fun n hn => firstLevel_malloc placement fresh hcalls hn
  refine ⟨⟨placement.lookup_eq, Nat.succ_pos _, ?_, ?_, ?_, ?_, ?_, ?_, ?_⟩,
    ⟨fun n hn _ => hfirst n hn, ?_⟩⟩
  · show s.mmapCalls + 1 ≤ 1 + L1_BITS
    omega
  · refine ⟨s.mmapCalls, Nat.lt_succ_self _, hpool.le, ?_⟩
    show mmap s.mmapCalls + 8 * addedMemorySize = mmap s.mmapCalls + regionBytes s.mmapCalls
    rw [hregion, hadded]
  · exact ⟨10, by show mmap s.mmapCalls + 8 * addedMemorySize = _; rw [hadded, hsize]; rfl⟩
  -- `mmap` gives zeroed memory
  · intro a hlow hhigh
    change mmap s.mmapCalls ≤ a at hlow
    change a < mmap s.mmapCalls + 8 * addedMemorySize at hhigh
    exact if_pos ⟨hlow, by omega⟩
  · intro n hn hne
    rw [hfirst n hn] at hne ⊢
    obtain ⟨k, hk, h⟩ := placement.table_in_pool n hn hne
    exact ⟨k, hk.trans (Nat.lt_succ_self _), h⟩
  -- an older table lies in an older pool, and `fresh` keeps the pools apart
  · intro n hn hne
    rw [hfirst n hn] at hne ⊢
    obtain ⟨k, hk, hlow, hhigh⟩ := placement.table_in_pool n hn hne
    have hdisjoint := fresh.disjoint s.mmapCalls hcalls k hk
    have := mmap_le_poolStart mmap k
    rw [poolEnd] at hhigh
    rw [hregion] at hdisjoint
    change s.firstLevel n + tableBytes ≤ mmap s.mmapCalls ∨
      mmap s.mmapCalls + 8 * addedMemorySize ≤ s.firstLevel n
    omega
  · intro n hn m hm
    rw [hfirst n hn, hfirst m hm]
    exact placement.tables_disjoint n hn m hm
  · intro n hn hne j hj
    obtain ⟨k, hk, hlow, hhigh⟩ := placement.table_in_pool n hn hne
    have := mmap_le_poolStart mmap k
    rw [poolEnd] at hhigh
    exact mem_malloc placement fresh hcalls hk (by omega) (by omega)

/-- After `refill` the pool has room for a table. -/
theorem refill_placement (placement : Placement mmap s) (fresh : FreshMmap mmap)
    (hcalls : s.mmapCalls ≤ L1_BITS) :
    Placement mmap (refill mmap s) ∧ SameTables (fun _ => True) s (refill mmap s) ∧
      (refill mmap s).bitypeSecondLevelStart + tableBytes ≤
        (refill mmap s).bitypeSecondLevelEnd ∧
      (refill mmap s).mmapCalls ≤ s.mmapCalls + 1 := by
  unfold refill
  split
  · next hused =>
      obtain ⟨hplacement, hsame⟩ := malloc_placement placement fresh hcalls
      refine ⟨hplacement, hsame, ?_, le_rfl⟩
      change mmap s.mmapCalls + tableBytes ≤ mmap s.mmapCalls + 8 * addedMemorySize
      have : tableBytes ≤ 8 * addedMemorySize := by decide
      omega
  · next hroom =>
      refine ⟨placement, ⟨fun _ _ _ => rfl, fun _ _ _ _ _ => rfl⟩, ?_, Nat.le_succ _⟩
      obtain ⟨r, hr⟩ := placement.rest_whole
      have hpos : 1 ≤ r := by
        rcases Nat.eq_zero_or_pos r with rfl | hpos
        · omega
        · exact hpos
      have : tableBytes ≤ r * tableBytes := Nat.le_mul_of_pos_left _ hpos
      omega

/-- The pool ends inside the address space and does not start at zero. -/
theorem Placement.rest_bounds (placement : Placement mmap s) (fresh : FreshMmap mmap) :
    0 < s.bitypeSecondLevelStart ∧ s.bitypeSecondLevelEnd ≤ 2 ^ 64 := by
  obtain ⟨k, hk, hlow, hend⟩ := placement.rest_in_pool
  have := placement.calls_bound
  have hpos := fresh.pos k (by omega)
  have hbounded := fresh.bounded k (by omega)
  have := mmap_le_poolStart mmap k
  rw [hend, poolEnd]
  omega

/-- Claiming a table writes one word, the slot. -/
theorem mem_claimTable {i a : ℕ} (ha : a ≠ s.bitypeLookupStart + 8 * i) :
    (claimTable s i).mem a = s.mem a := Function.update_of_ne ha _ _

/-- The slot then holds the table; the others hold what they held. -/
theorem firstLevel_claimTable (hbound : s.bitypeSecondLevelStart < 2 ^ 64) (i n : ℕ) :
    (claimTable s i).firstLevel n =
      if n = i then s.bitypeSecondLevelStart else s.firstLevel n := by
  split
  · next heq =>
      subst heq
      have hmem : (claimTable s n).mem (s.bitypeLookupStart + 8 * n) =
          BitVec.ofNat 64 s.bitypeSecondLevelStart := Function.update_self ..
      show ((claimTable s n).mem (s.bitypeLookupStart + 8 * n)).toNat = _
      rw [hmem, BitVec.toNat_ofNat]
      exact Nat.mod_eq_of_lt hbound
  · next hne =>
      have hslot : s.bitypeLookupStart + 8 * n ≠ s.bitypeLookupStart + 8 * i := by omega
      exact congrArg BitVec.toNat (mem_claimTable hslot)

/-- Claiming a table adds the slot to those in use. -/
theorem usedSlots_claimTable (hbound : s.bitypeSecondLevelStart < 2 ^ 64) {i : ℕ}
    (hi : i < L1_BITS) (hpos : s.bitypeSecondLevelStart ≠ 0) :
    usedSlots (claimTable s i) = insert i (usedSlots s) := by
  ext n
  simp only [usedSlots, Finset.mem_filter, Finset.mem_insert, Finset.mem_range,
    firstLevel_claimTable hbound]
  by_cases heq : n = i
  · simp only [heq, hi, hpos, if_true, ne_eq, not_false_eq_true, and_self, true_or]
  · simp only [heq, if_false, false_or]

/-- A pool with room for a table still holds a whole number of them without it. -/
theorem Placement.rest_whole_claimTable (placement : Placement mmap s)
    (hroom : s.bitypeSecondLevelStart + tableBytes ≤ s.bitypeSecondLevelEnd) :
    ∃ r, s.bitypeSecondLevelEnd = s.bitypeSecondLevelStart + tableBytes + r * tableBytes := by
  have hTpos : 0 < tableBytes := by decide
  obtain ⟨r, hr⟩ := placement.rest_whole
  obtain ⟨r, rfl⟩ : ∃ r', r = r' + 1 := by
    apply Nat.exists_eq_succ_of_ne_zero
    rintro rfl
    omega
  refine ⟨r, ?_⟩
  rw [hr, Nat.succ_mul]
  omega

/-- The claimed table overlaps none in use. -/
theorem Placement.tables_disjoint_claimTable (placement : Placement mmap s)
    (fresh : FreshMmap mmap) {i : ℕ}
    (hroom : s.bitypeSecondLevelStart + tableBytes ≤ s.bitypeSecondLevelEnd) :
    ∀ n < L1_BITS, ∀ m < L1_BITS, n ≠ m →
      (claimTable s i).firstLevel n ≠ 0 → (claimTable s i).firstLevel m ≠ 0 →
        (claimTable s i).firstLevel n + tableBytes ≤ (claimTable s i).firstLevel m ∨
          (claimTable s i).firstLevel m + tableBytes ≤ (claimTable s i).firstLevel n := by
  have hTpos : 0 < tableBytes := by decide
  obtain ⟨-, hend⟩ := placement.rest_bounds fresh
  have hfirst := firstLevel_claimTable (s := s) (by omega) i
  have hsep : ∀ l < L1_BITS, s.firstLevel l ≠ 0 →
      s.firstLevel l + tableBytes ≤ s.bitypeSecondLevelStart ∨
        s.bitypeSecondLevelStart + tableBytes ≤ s.firstLevel l := by
    intro l hl hlne
    have := placement.table_off_rest l hl hlne
    omega
  intro n hn m hm hnm hne hme
  rw [hfirst] at hne hme ⊢
  rw [hfirst]
  by_cases hni : n = i
  · have hmi : m ≠ i := fun hmi => hnm (hni.trans hmi.symm)
    rw [if_neg hmi] at hme
    rw [if_pos hni, if_neg hmi]
    exact (hsep m hm hme).symm
  · rw [if_neg hni] at hne ⊢
    by_cases hmi : m = i
    · rw [if_pos hmi]
      exact hsep n hn hne
    · rw [if_neg hmi] at hme ⊢
      exact placement.tables_disjoint n hn m hm hnm hne hme

/-- **Claiming a table keeps the placement**: the slot gets a zeroed table that
overlaps nothing in use, and every other slot keeps its table. -/
theorem claimTable_placement (placement : Placement mmap s) (fresh : FreshMmap mmap) {i : ℕ}
    (hi : i < L1_BITS)
    (hroom : s.bitypeSecondLevelStart + tableBytes ≤ s.bitypeSecondLevelEnd) :
    Placement mmap (claimTable s i) ∧ SameTables (· ≠ i) s (claimTable s i) ∧
      (claimTable s i).firstLevel i = s.bitypeSecondLevelStart ∧
      (∀ j < 2 * L2_BITS, (claimTable s i).word s.bitypeSecondLevelStart j = 0) := by
  have hbytes : tableBytes = 8 * (L2_BITS * 2) := rfl
  have hTpos : 0 < tableBytes := by decide
  obtain ⟨hpos, hend⟩ := placement.rest_bounds fresh
  have hfirst := firstLevel_claimTable (s := s) (by omega) i
  have hrest := placement.rest_off_firstLevel fresh
  refine ⟨⟨placement.lookup_eq, placement.calls_pos, placement.calls_bound, ?_,
    placement.rest_whole_claimTable hroom, ?_, ?_, ?_,
    placement.tables_disjoint_claimTable fresh hroom⟩, ⟨?_, ?_⟩, ?_, ?_⟩
  · obtain ⟨k, hk, hlow, hpool⟩ := placement.rest_in_pool
    exact ⟨k, hk, hlow.trans (Nat.le_add_right _ _), hpool⟩
  · intro a hlow hhigh
    change s.bitypeSecondLevelStart + 8 * (L2_BITS * 2) ≤ a at hlow
    change a < s.bitypeSecondLevelEnd at hhigh
    rw [mem_claimTable (by omega)]
    exact placement.rest_zero a (by omega) hhigh
  -- the new table is the start of the rest, the others are where they were
  · intro n hn hne
    rw [hfirst] at hne ⊢
    by_cases heq : n = i
    · obtain ⟨k, hk, hlow, hpool⟩ := placement.rest_in_pool
      rw [if_pos heq]
      exact ⟨k, hk, hlow, by omega⟩
    · rw [if_neg heq] at hne ⊢
      exact placement.table_in_pool n hn hne
  -- the rest starts where the new table ends
  · intro n hn hne
    change (claimTable s i).firstLevel n + tableBytes ≤
      s.bitypeSecondLevelStart + 8 * (L2_BITS * 2) ∨
        s.bitypeSecondLevelEnd ≤ (claimTable s i).firstLevel n
    rw [hfirst] at hne ⊢
    by_cases heq : n = i
    · rw [if_pos heq]
      omega
    · rw [if_neg heq] at hne ⊢
      have := placement.table_off_rest n hn hne
      omega
  · intro n _ hni
    rw [hfirst, if_neg hni]
  · intro n hn hne j hj
    exact mem_claimTable (placement.table_word_ne_slot fresh hn hne hj hi)
  · rw [hfirst, if_pos rfl]
  · intro j hj
    show (claimTable s i).mem (s.bitypeSecondLevelStart + 8 * j) = 0
    rw [mem_claimTable (by omega)]
    exact placement.rest_zero _ (by omega) (by omega)

/-- **The allocation block.**  It keeps the layout, returns the table of slot `i`,
leaves every table in use as it is, and gives a null slot a zeroed one. -/
theorem secondLevel_spec (layout : Layout mmap s) (fresh : FreshMmap mmap) {i : ℕ}
    (hi : i < L1_BITS) :
    Layout mmap (secondLevel mmap s i).1 ∧
      (secondLevel mmap s i).2 = (secondLevel mmap s i).1.firstLevel i ∧
      (secondLevel mmap s i).1.firstLevel i ≠ 0 ∧
      SameTables (fun n => n ≠ i ∨ s.firstLevel i ≠ 0) s (secondLevel mmap s i).1 ∧
      (s.firstLevel i = 0 → ∀ j < 2 * L2_BITS,
        (secondLevel mmap s i).1.word ((secondLevel mmap s i).1.firstLevel i) j = 0) := by
  by_cases hnull : s.firstLevel i = 0
  · obtain ⟨hplacement, hsame, hroom, hcalls⟩ :=
      refill_placement layout.toPlacement fresh (layout.calls_of_null hi hnull)
    obtain ⟨hclaimed, hsame', hself, hzero⟩ := claimTable_placement hplacement fresh hi hroom
    have hTpos : 0 < tableBytes := by decide
    obtain ⟨hpos, hend⟩ := hplacement.rest_bounds fresh
    rw [secondLevel_of_null hnull]
    refine ⟨⟨hclaimed, ?_⟩, hself.symm, ?_, ⟨?_, ?_⟩, fun _ j hj => ?_⟩
    · -- the slot that the new call served was null before
      have hused : usedSlots (claimTable (refill mmap s) i) = insert i (usedSlots s) := by
        rw [usedSlots_claimTable (by omega) hi hpos.ne']
        exact congrArg (insert i) (Finset.filter_congr fun n hn => by
          rw [hsame.firstLevel_eq n (Finset.mem_range.mp hn) trivial])
      have hnot : i ∉ usedSlots s := by simp [usedSlots, hnull]
      rw [hused, Finset.card_insert_of_notMem hnot]
      have := layout.calls_le
      change (refill mmap s).mmapCalls ≤ _
      omega
    · show (claimTable (refill mmap s) i).firstLevel i ≠ 0
      rw [hself]
      omega
    · intro n hn hkeep
      have hne : n ≠ i := hkeep.resolve_right (fun h => h hnull)
      exact (hsame'.firstLevel_eq n hn hne).trans (hsame.firstLevel_eq n hn trivial)
    · intro n hn hne j hj
      have hfirst := hsame.firstLevel_eq n hn trivial
      have hword := hsame'.word_eq n hn (by rw [hfirst]; exact hne) j hj
      rw [hfirst] at hword
      exact hword.trans (hsame.word_eq n hn hne j hj)
    · show (claimTable (refill mmap s) i).word _ j = 0
      rw [hself]
      exact hzero j hj
  · rw [secondLevel_of_ne hnull]
    exact ⟨layout, rfl, hnull, ⟨fun _ _ _ => rfl, fun _ _ _ _ _ => rfl⟩,
      fun h => absurd h hnull⟩

end Bitype.Runtime
