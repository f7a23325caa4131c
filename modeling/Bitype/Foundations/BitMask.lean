import Mathlib.Data.Nat.Bitwise
import Mathlib.Data.BitVec
import Mathlib.Data.List.Nodup

/-!
# Sets of numbers as bits of words

A set of numbers is written into a table of `w`-bit words by giving every number a
slot and a bit and toggling them one after the other.  `getLsbD_foldl_toggle` reads
the table back: with distinct numbers in distinct places, a bit is set iff some
number has it.

`lt_xor_twoPow` is the test of one bit by comparison: toggling bit `k` makes a word
larger iff the bit was clear.
-/

namespace Bitype.Foundations

/-! ## The comparison test -/

theorem nat_lt_xor_two_pow (n k : ℕ) : n < n ^^^ 2 ^ k ↔ n.testBit k = false := by
  have hsame : ∀ j, j ≠ k → (n ^^^ 2 ^ k).testBit j = n.testBit j := by
    intro j hj
    rw [Nat.testBit_xor, Nat.testBit_two_pow_of_ne hj.symm, Bool.xor_false]
  have hbit : (n ^^^ 2 ^ k).testBit k = !n.testBit k := by
    rw [Nat.testBit_xor, Nat.testBit_two_pow_self, Bool.xor_true]
  cases h : n.testBit k with
  | false =>
      refine iff_of_true ?_ rfl
      exact Nat.lt_of_testBit k h (by rw [hbit, h]; rfl) fun j hj => (hsame j hj.ne').symm
  | true =>
      refine iff_of_false (not_lt.mpr (le_of_lt ?_)) (by decide)
      exact Nat.lt_of_testBit k (by rw [hbit, h]; rfl) h fun j hj => hsame j hj.ne'

/-- **Toggling bit `k` makes a word larger iff the bit was clear.** -/
theorem lt_xor_twoPow {w : ℕ} (x : BitVec w) {k : ℕ} (hk : k < w) :
    x < x ^^^ BitVec.twoPow w k ↔ x.getLsbD k = false := by
  rw [BitVec.lt_def, BitVec.toNat_xor, BitVec.toNat_twoPow,
    Nat.mod_eq_of_lt (Nat.pow_lt_pow_right (by decide) hk), nat_lt_xor_two_pow]
  rfl

/-! ## Toggling into a sparse table -/

section Toggle

variable {ι α : Type*} [DecidableEq ι] {w : ℕ}

/-- XOR a word into a slot; an absent slot reads as zero. -/
def toggle (i : ι) (v : BitVec w) (table : ι → Option (BitVec w)) : ι → Option (BitVec w) :=
  Function.update table i
    (some (match table i with
      | some old => old ^^^ v
      | none => v))

/-- Bit `k` of slot `j`. -/
def bitAt (table : ι → Option (BitVec w)) (j : ι) (k : ℕ) : Bool :=
  ((table j).getD 0).getLsbD k

theorem bitAt_toggle (table : ι → Option (BitVec w)) (i j : ι) {b k : ℕ} (hk : k < w) :
    bitAt (toggle i (BitVec.twoPow w b) table) j k =
      (bitAt table j k ^^ decide (i = j ∧ b = k)) := by
  unfold bitAt toggle
  by_cases hij : j = i
  · subst hij
    rw [Function.update_self, Option.getD_some]
    cases htable : table j with
    | none => simp [hk, eq_comm]
    | some old => simp [hk, eq_comm]
  · rw [Function.update_of_ne hij]
    simp [Ne.symm hij]

/-- Toggling the places of distinct elements flips each place once. -/
theorem bitAt_foldl_toggle (slot : α → ι) (bit : α → ℕ) {j : ι} {k : ℕ} (hk : k < w) :
    ∀ (elements : List α) (table : ι → Option (BitVec w)), elements.Nodup →
      (∀ a ∈ elements, ∀ b ∈ elements, slot a = slot b → bit a = bit b → a = b) →
      bitAt (elements.foldl (fun table a => toggle (slot a) (BitVec.twoPow w (bit a)) table) table)
          j k =
        (bitAt table j k ^^ decide (∃ a ∈ elements, slot a = j ∧ bit a = k)) := by
  intro elements
  induction elements with
  | nil => intro table _ _; simp
  | cons a rest ih =>
      intro table hnodup hinj
      obtain ⟨hnotMem, hnodup⟩ := List.nodup_cons.mp hnodup
      rw [List.foldl_cons, ih _ hnodup fun a ha b hb =>
          hinj a (List.mem_cons_of_mem _ ha) b (List.mem_cons_of_mem _ hb),
        bitAt_toggle table _ _ hk, Bool.xor_assoc]
      congr 1
      -- the place of `a` is not toggled again
      by_cases hplace : slot a = j ∧ bit a = k
      · have hrest : ¬ ∃ b ∈ rest, slot b = j ∧ bit b = k := by
          rintro ⟨b, hb, hslot, hbit⟩
          have hab := hinj a List.mem_cons_self b (List.mem_cons_of_mem _ hb)
            (hplace.1.trans hslot.symm) (hplace.2.trans hbit.symm)
          exact hnotMem (hab ▸ hb)
        simp [hplace, hrest]
      · simp [hplace]

/-- **Reading the table back.** -/
theorem bitAt_encode (slot : α → ι) (bit : α → ℕ) {j : ι} {k : ℕ} (hk : k < w)
    {elements : List α} (hnodup : elements.Nodup)
    (hinj : ∀ a ∈ elements, ∀ b ∈ elements, slot a = slot b → bit a = bit b → a = b) :
    bitAt (elements.foldl (fun table a => toggle (slot a) (BitVec.twoPow w (bit a)) table)
        fun _ => none) j k = true ↔ ∃ a ∈ elements, slot a = j ∧ bit a = k := by
  rw [bitAt_foldl_toggle slot bit hk elements _ hnodup hinj]
  simp [bitAt]

end Toggle

end Bitype.Foundations
