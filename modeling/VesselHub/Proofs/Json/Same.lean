/-
Module: VesselHub.Proofs.Json.Same
Purpose: The equality of values that ignores the order of members is transitive, and an equivalence
  on values without repeated keys.
Main exports: Json.same_trans, Json.same_symm, Json.same_refl
-/
import Mathlib.Data.List.Perm.Subperm
import VesselHub.Leaf

namespace VesselHub

theorem Double.same_trans {one two three : Double} (first : one.same two)
    (second : two.same three) : one.same three := by
  simp only [Double.same, Bool.or_eq_true, beq_iff_eq, Bool.and_eq_true] at *
  rcases first with first | first
  · rcases second with second | second
    · exact Or.inl (first.trans second)
    · refine Or.inr ⟨?_, second.2⟩
      rw [isZero, magnitude, first]
      exact second.1
  · rcases second with second | second
    · refine Or.inr ⟨first.1, ?_⟩
      rw [isZero, magnitude, ← second]
      exact first.2
    · exact Or.inr ⟨first.1, second.2⟩

theorem Double.same_symm {one two : Double} (same : one.same two) : two.same one := by
  simp only [Double.same, Bool.or_eq_true, beq_iff_eq, Bool.and_eq_true] at *
  exact same.imp Eq.symm And.symm

theorem Number.same_trans : ∀ {one two three : Number}, one.same two → two.same three →
    one.same three
  | .int _, .int _, .int _, first, second => by
      rw [Number.same, beq_iff_eq] at *
      exact first.trans second
  | .double _, .double _, .double _, first, second => Double.same_trans first second

theorem Number.same_symm : ∀ {one two : Number}, one.same two → two.same one
  | .int _, .int _, same => by
      rw [Number.same, beq_iff_eq] at *
      exact same.symm
  | .double _, .double _, same => Double.same_symm same

namespace Json

theorem same_of_sameMembers {lefts rights : List (String × Json)}
    (same : sameMembers lefts rights) {key : String} {left : Json}
    (member : (key, left) ∈ lefts) :
    ∃ right, Entries.get? rights key = some right ∧ left.same right := by
  induction lefts with
  | nil => cases member
  | cons entry lefts induction_step =>
      obtain ⟨present, value⟩ := entry
      rw [sameMembers, Bool.and_eq_true] at same
      rcases List.mem_cons.1 member with here | later
      · cases here
        cases found : Entries.get? rights key with
        | none => simp [found] at same
        | some right => exact ⟨right, rfl, by simpa [found] using same.1⟩
      · exact induction_step same.2 later

theorem sameMembers_of_forall {lefts rights : List (String × Json)}
    (all : ∀ key left, (key, left) ∈ lefts →
      ∃ right, Entries.get? rights key = some right ∧ left.same right) :
    sameMembers lefts rights := by
  induction lefts with
  | nil => rfl
  | cons entry lefts induction_step =>
      obtain ⟨key, left⟩ := entry
      obtain ⟨right, found, same⟩ := all key left List.mem_cons_self
      rw [sameMembers, Bool.and_eq_true, found]
      exact ⟨same, induction_step fun other value member =>
        all other value (List.mem_cons_of_mem _ member)⟩

mutual

theorem same_trans : ∀ {one two three : Json}, one.same two → two.same three → one.same three
  | .null, .null, .null, _, _ => rfl
  | .bool _, .bool _, .bool _, first, second => by
      rw [same, beq_iff_eq] at *
      exact first.trans second
  | .number _, .number _, .number _, first, second => Number.same_trans first second
  | .string _, .string _, .string _, first, second => by
      rw [same, beq_iff_eq] at *
      exact first.trans second
  | .array _, .array _, .array _, first, second => sameItems_trans first second
  | .object ones, .object twos, .object threes, first, second => by
      rw [same, Bool.and_eq_true, beq_iff_eq] at *
      exact ⟨first.1.trans second.1, sameMembers_trans first.2 second.2⟩

theorem sameItems_trans : ∀ {ones twos threes : List Json}, sameItems ones twos →
    sameItems twos threes → sameItems ones threes
  | [], [], [], _, _ => rfl
  | one :: ones, two :: twos, three :: threes, first, second => by
      rw [sameItems, Bool.and_eq_true] at *
      exact ⟨same_trans first.1 second.1, sameItems_trans first.2 second.2⟩

theorem sameMembers_trans : ∀ {ones twos threes : List (String × Json)}, sameMembers ones twos →
    sameMembers twos threes → sameMembers ones threes
  | [], _, _, _, _ => rfl
  | (key, one) :: ones, twos, threes, first, second => by
      rw [sameMembers, Bool.and_eq_true] at *
      refine ⟨?_, sameMembers_trans first.2 second⟩
      cases found : Entries.get? twos key with
      | none => simp [found] at first
      | some two =>
          obtain ⟨three, at_key, two_three⟩ :=
            same_of_sameMembers second (Entries.mem_of_get? found)
          rw [found] at first
          rw [at_key]
          exact same_trans first.1 two_three

end

/-! ### Values without repeated keys -/

theorem distinctKeys_of_mem {members : List (String × Json)} {key : String} {value : Json}
    (distinct : MembersHaveDistinctKeys members) (member : (key, value) ∈ members) :
    value.HasDistinctKeys := by
  induction members with
  | nil => cases member
  | cons entry members induction_step =>
      obtain ⟨first, others⟩ := distinct
      cases member with
      | head => exact first
      | tail _ later => exact induction_step others later

mutual

theorem same_refl : ∀ {value : Json}, value.HasDistinctKeys → value.same value
  | .null, _ => rfl
  | .bool _, _ => beq_self_eq_true _
  | .number held, _ => Number.same_refl held
  | .string _, _ => beq_self_eq_true _
  | .array _, distinct => sameItems_refl distinct
  | .object members, ⟨distinct, below⟩ => by
      rw [same, Bool.and_eq_true, beq_iff_eq]
      exact ⟨rfl, sameMembers_of_forall fun key value member =>
        ⟨value, Entries.get?_of_mem distinct member, sameMember_refl below member⟩⟩

theorem sameItems_refl : ∀ {items : List Json}, ItemsHaveDistinctKeys items →
    sameItems items items
  | [], _ => rfl
  | _ :: _, ⟨first, others⟩ => by
      rw [sameItems, Bool.and_eq_true]
      exact ⟨same_refl first, sameItems_refl others⟩

theorem sameMember_refl : ∀ {members : List (String × Json)} {key : String} {value : Json},
    MembersHaveDistinctKeys members → (key, value) ∈ members → value.same value
  | (_, _) :: _, _, _, ⟨first, others⟩, member => by
      cases member with
      | head => exact same_refl first
      | tail _ later => exact sameMember_refl others later

end

mutual

theorem same_symm : ∀ {one two : Json}, one.HasDistinctKeys → two.HasDistinctKeys →
    one.same two → two.same one
  | .null, .null, _, _, _ => rfl
  | .bool _, .bool _, _, _, same => by
      rw [Json.same, beq_iff_eq] at *
      exact same.symm
  | .number _, .number _, _, _, same => Number.same_symm same
  | .string _, .string _, _, _, same => by
      rw [Json.same, beq_iff_eq] at *
      exact same.symm
  | .array _, .array _, first, second, same => sameItems_symm first second same
  | .object lefts, .object rights, ⟨distinct, first⟩, ⟨distinct', second⟩, same => by
      rw [Json.same, Bool.and_eq_true, beq_iff_eq] at *
      obtain ⟨same_length, same_members⟩ := same
      -- As many keys on both sides, and those on the left are on the right: they are the same.
      have within : Entries.keys lefts ⊆ Entries.keys rights := by
        intro key member
        obtain ⟨⟨_, left⟩, left_mem, rfl⟩ := List.mem_map.1 member
        obtain ⟨right, found, _⟩ := same_of_sameMembers same_members left_mem
        exact List.mem_map.2 ⟨_, Entries.mem_of_get? found, rfl⟩
      have same_keys := (List.subperm_of_subset distinct within).perm_of_length_le
        (by simp [Entries.keys, same_length])
      refine ⟨same_length.symm, sameMembers_of_forall ?_⟩
      intro key right member
      have key_mem : key ∈ Entries.keys lefts :=
        same_keys.mem_iff.2 (List.mem_map_of_mem member)
      cases found : Entries.get? lefts key with
      | none => exact absurd key_mem ((Entries.get?_eq_none_iff lefts key).1 found)
      | some left => exact ⟨left, rfl, sameMember_symm first second same_members
          (Entries.mem_of_get? found) (Entries.get?_of_mem distinct' member)⟩

theorem sameItems_symm : ∀ {lefts rights : List Json}, ItemsHaveDistinctKeys lefts →
    ItemsHaveDistinctKeys rights → sameItems lefts rights → sameItems rights lefts
  | [], [], _, _, _ => rfl
  | _ :: _, _ :: _, ⟨first, firsts⟩, ⟨second, seconds⟩, same => by
      rw [sameItems, Bool.and_eq_true] at *
      exact ⟨same_symm first second same.1, sameItems_symm firsts seconds same.2⟩

theorem sameMember_symm : ∀ {lefts rights : List (String × Json)} {key : String}
    {left right : Json}, MembersHaveDistinctKeys lefts → MembersHaveDistinctKeys rights →
      sameMembers lefts rights → (key, left) ∈ lefts → Entries.get? rights key = some right →
        right.same left
  | (key, left) :: lefts, rights, _, _, right, ⟨first, firsts⟩, seconds, same, member, found => by
      rw [sameMembers, Bool.and_eq_true] at same
      cases member with
      | head =>
          have proper : right.HasDistinctKeys :=
            distinctKeys_of_mem seconds (Entries.mem_of_get? found)
          rw [found] at same
          exact same_symm first proper same.1
      | tail _ later => exact sameMember_symm firsts seconds same.2 later found

end

end Json

end VesselHub
