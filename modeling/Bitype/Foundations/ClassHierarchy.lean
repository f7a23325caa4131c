import Mathlib.Data.Nat.Notation
import Mathlib.Logic.Relation

/-!
# Objects with base class subobjects

A class has direct bases, each either at a fixed offset or virtual; a virtual base lies
where the complete object has it.  Two subobjects of one class in one object have
different offsets, so a subobject is a class with an offset.

`dynamicCast` is what the language says of `dynamic_cast<D *>`: from a subobject to the
one `D` object derived from it if the subobject is a public base of that object, and
otherwise to the one public `D` base of the complete object if the subobject is a public
base of it.
-/

namespace Bitype.Foundations

/-- A direct base; a virtual one has no offset of its own. -/
structure BaseSpecifier (Class : Type*) where
  base : Class
  offset : Option ℕ
  isPublic : Bool

/-- The classes of a program with their bases, and where a complete object has a virtual
base. -/
structure Hierarchy (Class : Type*) where
  bases : Class → List (BaseSpecifier Class)
  virtualOffset : Class → Class → ℕ

namespace Hierarchy

variable {Class : Type*} (H : Hierarchy Class) (complete : Class)

/-- The second subobject is a direct base of the first. -/
def DirectBase (s t : Class × ℕ) : Prop :=
  ∃ spec ∈ H.bases s.1, t.1 = spec.base ∧
    t.2 = (spec.offset.map (s.2 + ·)).getD (H.virtualOffset complete spec.base)

/-- A direct base that is public. -/
def PublicBase (s t : Class × ℕ) : Prop :=
  ∃ spec ∈ H.bases s.1, spec.isPublic = true ∧ t.1 = spec.base ∧
    t.2 = (spec.offset.map (s.2 + ·)).getD (H.virtualOffset complete spec.base)

/-- The second subobject is the first or a base of it. -/
def Derives : Class × ℕ → Class × ℕ → Prop := Relation.ReflTransGen (H.DirectBase complete)

/-- The same through public bases only. -/
def PubliclyDerives : Class × ℕ → Class × ℕ → Prop :=
  Relation.ReflTransGen (H.PublicBase complete)

/-- A subobject of the complete object. -/
def Subobject (s : Class × ℕ) : Prop := H.Derives complete (complete, 0) s

/-- There is a `target` object derived from the source, at this offset. -/
def Encloses (source : Class × ℕ) (target : Class) (offset : ℕ) : Prop :=
  H.Subobject complete (target, offset) ∧ H.Derives complete (target, offset) source

/-- The cast goes to the one target object derived from the source. -/
def CastsDown (source : Class × ℕ) (target : Class) (offset : ℕ) : Prop :=
  (∀ o, H.Encloses complete source target o ↔ o = offset) ∧
    H.PubliclyDerives complete (target, offset) source

/-- The cast goes to the one target object of the complete object. -/
def CastsAcross (source : Class × ℕ) (target : Class) (offset : ℕ) : Prop :=
  (∀ o, H.Subobject complete (target, o) ↔ o = offset) ∧
    H.PubliclyDerives complete (complete, 0) (target, offset) ∧
    H.PubliclyDerives complete (complete, 0) source

open Classical in
/-- The offset a `dynamic_cast` from a subobject to a class leads to, if it succeeds. -/
noncomputable def dynamicCast (source : Class × ℕ) (target : Class) : Option ℕ :=
  if h : ∃ offset, H.CastsDown complete source target offset then some h.choose
  else if h : ∃ offset, H.CastsAcross complete source target offset then some h.choose
  else none

variable {H complete} {source : Class × ℕ} {target : Class} {offset : ℕ}

theorem CastsDown.unique {offset' : ℕ} (h : H.CastsDown complete source target offset)
    (h' : H.CastsDown complete source target offset') : offset = offset' :=
  (h'.1 offset).mp ((h.1 offset).mpr rfl)

/-- A cast to the object derived from the source. -/
theorem dynamicCast_down (h : H.CastsDown complete source target offset) :
    H.dynamicCast complete source target = some offset := by
  have hexists : ∃ offset, H.CastsDown complete source target offset := ⟨offset, h⟩
  rw [dynamicCast, dif_pos hexists, hexists.choose_spec.unique h]

/-- **A cast leads to a subobject of the target class.** -/
theorem subobject_of_dynamicCast (h : H.dynamicCast complete source target = some offset) :
    H.Subobject complete (target, offset) := by
  unfold dynamicCast at h
  split at h
  · next hdown =>
      obtain rfl := Option.some.inj h
      exact ((hdown.choose_spec.1 _).mpr rfl).1
  · split at h
    · next hacross =>
        obtain rfl := Option.some.inj h
        exact (hacross.choose_spec.1 _).mpr rfl
    · cases h

end Hierarchy

end Bitype.Foundations
