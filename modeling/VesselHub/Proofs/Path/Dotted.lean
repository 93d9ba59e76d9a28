/-
Module: VesselHub.Proofs.Path.Dotted
Purpose: Writing keys with dots between them and cutting them apart again.
Main exports: Path.IsPlain, Path.segmentsOf_dotted, Path.dotted_injective,
  Path.positionKey_injective, Path.position?_positionKey
-/
import VesselHub.Path.Basic

namespace VesselHub

namespace Text

theorem splitChars_append (mark : Char) (before after : List Char) :
    splitChars mark (before ++ mark :: after) =
      splitChars mark before ++ splitChars mark after := by
  induction before with
  | nil => simp [splitChars]
  | cons character before induction_step =>
      rw [List.cons_append, splitChars, splitChars]
      split
      · rw [induction_step, List.cons_append]
      · rw [induction_step]
        cases shape : splitChars mark before with
        | nil => exact absurd shape (splitChars_ne_nil mark before)
        | cons piece pieces => rfl

theorem splitChars_of_not_mem {mark : Char} {characters : List Char}
    (absent : mark ∉ characters) : splitChars mark characters = [characters] := by
  induction characters with
  | nil => rfl
  | cons character characters induction_step =>
      rw [List.mem_cons, not_or] at absent
      rw [splitChars, if_neg (Ne.symm absent.1), induction_step absent.2]

end Text

namespace Path

/-- A key that a dotted path can hold as it is. -/
def IsPlain (key : String) : Prop :=
  key ≠ "" ∧ '.' ∉ key.toList

instance (key : String) : Decidable (IsPlain key) :=
  inferInstanceAs (Decidable (_ ∧ _))

theorem segmentsOf_of_plain {key : String} (plain : IsPlain key) : segmentsOf key = [key] := by
  rw [segmentsOf, Text.split, Text.splitChars_of_not_mem plain.2]
  simp [plain.1]

/-- Cutting a text yields plain keys only. -/
theorem plain_of_mem_segmentsOf {text key : String} (member : key ∈ segmentsOf text) :
    IsPlain key := by
  rw [segmentsOf, List.mem_filter, decide_eq_true_eq] at member
  obtain ⟨in_split, nonempty⟩ := member
  obtain ⟨piece, is_piece, rfl⟩ := List.mem_map.1 in_split
  refine ⟨nonempty, ?_⟩
  rw [String.toList_ofList]
  exact Text.not_mem_of_mem_splitChars is_piece

theorem plain_ofParts (parts : List String) :
    ∀ key ∈ (ofParts parts).segments, IsPlain key := by
  intro key member
  obtain ⟨part, -, in_part⟩ := List.mem_flatMap.1 member
  exact plain_of_mem_segmentsOf in_part

/-- Cutting keys joined by dots cuts each of them. -/
theorem segmentsOf_dotted (keys : List String) :
    segmentsOf (dotted keys) = keys.flatMap segmentsOf := by
  induction keys with
  | nil => rfl
  | cons key keys induction_step =>
      cases keys with
      | nil => simp [dotted, Text.join, Text.joinChars]
      | cons next keys =>
          have cut : Text.split '.' (dotted (key :: next :: keys)) =
              Text.split '.' key ++ Text.split '.' (dotted (next :: keys)) := by
            simp only [Text.split, dotted, Text.join, List.map_cons, Text.joinChars,
              String.toList_ofList, Text.splitChars_append, List.map_append]
          rw [segmentsOf, cut, List.filter_append, List.flatMap_cons, ← induction_step]
          rfl

theorem flatMap_segmentsOf {keys : List String} (plain : ∀ key ∈ keys, IsPlain key) :
    keys.flatMap segmentsOf = keys := by
  induction keys with
  | nil => rfl
  | cons key keys induction_step =>
      rw [List.flatMap_cons, segmentsOf_of_plain (plain key List.mem_cons_self),
        induction_step fun other member => plain other (List.mem_cons_of_mem _ member)]
      rfl

theorem segmentsOf_dotted_of_plain {keys : List String} (plain : ∀ key ∈ keys, IsPlain key) :
    segmentsOf (dotted keys) = keys := by
  rw [segmentsOf_dotted, flatMap_segmentsOf plain]

/-- The keys of a path are those of its parent and the last one. -/
theorem segments_parent {text key : String} (last : (ofText text).last? = some key) :
    (ofText (ofText text).parent.raw).segments ++ [key] = (ofText text).segments := by
  obtain ⟨front, split⟩ := List.getLast?_eq_some_iff.1 last
  have plain : ∀ other ∈ front, IsPlain other := fun other member =>
    plain_of_mem_segmentsOf (split ▸ List.mem_append_left [key] member)
  rw [parent, ofParts, split, List.dropLast_concat, flatMap_segmentsOf plain, ofText,
    segmentsOf_dotted_of_plain plain]

theorem dotted_injective {keys others : List String} (plain : ∀ key ∈ keys, IsPlain key)
    (others_plain : ∀ key ∈ others, IsPlain key) (same : dotted keys = dotted others) :
    keys = others := by
  rw [← segmentsOf_dotted_of_plain plain, same, segmentsOf_dotted_of_plain others_plain]

/-! ### Positions as keys -/

theorem plain_positionKey (position : Nat) : IsPlain (positionKey position) := by
  constructor
  · intro empty
    have no_digits := congrArg String.toList empty
    rw [positionKey, String.toList_ofList] at no_digits
    exact Nat.toDigits_ne_nil no_digits
  · rw [positionKey, String.toList_ofList]
    intro is_digit
    have digit := Nat.isDigit_of_mem_toDigits (by decide) (by decide) is_digit
    exact absurd digit (by decide)

theorem positionKey_injective {one other : Nat} (same : positionKey one = positionKey other) :
    one = other := by
  have digits := congrArg String.toList same
  rw [positionKey, positionKey, String.toList_ofList, String.toList_ofList] at digits
  rw [← Nat.ofDigitChars_ten_toDigits (n := one), digits, Nat.ofDigitChars_ten_toDigits]

/-- The key of a position names it, as long as the position fits into 64 bits. -/
theorem position?_positionKey {position : Nat} (fits : position < Nat.pow 2 64) :
    position? (positionKey position) = some position := by
  have all_digits : ∀ character ∈ Nat.toDigits 10 position, character.isDigit = true :=
    fun _ => Nat.isDigit_of_mem_toDigits (by decide) (by decide)
  have no_sign : ∀ rest, Nat.toDigits 10 position ≠ '+' :: rest := by
    intro rest signed
    exact absurd (all_digits '+' (signed ▸ List.mem_cons_self)) (by decide)
  have number_eq : (Nat.toDigits 10 position).foldl
      (fun total digit => total * 10 + (digit.toNat - '0'.toNat)) 0 = position := by
    simp only [Nat.mul_comm _ 10]
    exact Nat.ofDigitChars_ten_toDigits
  rw [position?, positionKey, String.toList_ofList]
  split
  · rename_i rest signed
    exact absurd signed (no_sign rest)
  · dsimp only
    rw [number_eq, if_pos fits, if_neg]
    rw [not_or, Classical.not_not, List.all_eq_true, List.isEmpty_iff]
    exact ⟨Nat.toDigits_ne_nil, all_digits⟩
end Path

end VesselHub
