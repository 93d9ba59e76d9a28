/-
Module: VesselHub.Proofs.Json.Printer
Purpose: The compact text of a value is never empty and holds no control characters, so no line ends
  either: those of strings and keys are escaped, and nothing else brings any in.
Main exports: Text.ControlFree, Json.controlFree_write, Json.write_ne_nil
-/
import Mathlib.Tactic.SplitIfs
import VesselHub.Json.Printer

namespace VesselHub

/-- No character stands before the space, where the controls are. -/
def Text.ControlFree (characters : List Char) : Prop :=
  ∀ character ∈ characters, 0x20 ≤ character.toNat

namespace Text

variable {characters others : List Char}

@[simp] theorem controlFree_nil : ControlFree [] :=
  fun _ member => absurd member List.not_mem_nil

@[simp] theorem controlFree_cons {character : Char} :
    ControlFree (character :: characters) ↔ 0x20 ≤ character.toNat ∧ ControlFree characters :=
  List.forall_mem_cons

@[simp] theorem controlFree_append :
    ControlFree (characters ++ others) ↔ ControlFree characters ∧ ControlFree others :=
  List.forall_mem_append

theorem ControlFree.of_sublist (free : ControlFree others) (sublist : characters.Sublist others) :
    ControlFree characters :=
  fun character member => free character (sublist.subset member)

theorem controlFree_replicate (count : Nat) {character : Char} (shown : 0x20 ≤ character.toNat) :
    ControlFree (List.replicate count character) :=
  fun _ member => List.eq_of_mem_replicate member ▸ shown

/-- Line feeds and carriage returns are controls. -/
theorem ControlFree.not_mem (free : ControlFree characters) :
    '\n' ∉ characters ∧ '\r' ∉ characters :=
  ⟨fun line_feed => absurd (free _ line_feed) (by decide),
    fun carriage_return => absurd (free _ carriage_return) (by decide)⟩

end Text

open Text

/-! ### Numbers -/

theorem controlFree_decimalText (number : Nat) : ControlFree (decimalText number) := by
  intro character member
  have digit : character.isDigit = true :=
    Nat.isDigit_of_mem_toDigits (by decide) (by decide) member
  rw [Char.isDigit, Bool.and_eq_true, decide_eq_true_eq] at digit
  have large : (48 : UInt32).toNat ≤ character.toNat := UInt32.le_iff_toNat_le.1 digit.1
  exact Nat.le_trans (by decide) large

theorem controlFree_integerText (number : Int) : ControlFree (integerText number) := by
  cases number with
  | ofNat magnitude => exact controlFree_decimalText magnitude
  | negSucc below => exact controlFree_cons.2 ⟨by decide, controlFree_decimalText (below + 1)⟩

/-- Apart from digits there are points, zeros and exponents only. -/
theorem Decimal.controlFree_text (range : PlainRange) (decimal : Decimal) :
    ControlFree (decimal.text range) := by
  have digits := controlFree_decimalText decimal.digits
  have zeros : ∀ count, ControlFree (List.replicate count '0') :=
    fun count => controlFree_replicate count (by decide)
  rw [Decimal.text]
  split
  · simp [digits, zeros]
  split
  · simp [digits.of_sublist (List.take_sublist ..), digits.of_sublist (List.drop_sublist ..)]
  split
  · simp [digits, zeros]
  · rw [controlFree_append, controlFree_cons]
    refine ⟨?_, by decide, controlFree_integerText _⟩
    split
    · rename_i single shape
      exact shape ▸ digits
    · rename_i first rest _ shape
      rw [shape, controlFree_cons] at digits
      simp [digits]
    · exact controlFree_nil

theorem Double.controlFree_text (value : Double) : ControlFree value.text := by
  have magnitude : ControlFree
      (if value.isZero then ['0', '.', '0'] else value.shortest.text .standard) := by
    split
    · simp
    · exact Decimal.controlFree_text .standard value.shortest
  rw [Double.text]
  split
  · exact controlFree_cons.2 ⟨by decide, magnitude⟩
  · exact magnitude

theorem Number.controlFree_text (number : Number) : ControlFree number.text := by
  cases number with
  | int value => exact controlFree_integerText value
  | double value => exact value.controlFree_text

private theorem decimalText_ne_nil (number : Nat) : decimalText number ≠ [] :=
  Nat.toDigits_ne_nil

private theorem Decimal.text_ne_nil (range : PlainRange) (decimal : Decimal) :
    decimal.text range ≠ [] := by
  rw [Decimal.text]
  split_ifs <;> simp

private theorem Number.text_ne_nil (number : Number) : number.text ≠ [] := by
  cases number with
  | int value =>
      cases value with
      | ofNat magnitude => exact decimalText_ne_nil magnitude
      | negSucc below => exact List.cons_ne_nil '-' (decimalText (below + 1))
  | double value =>
      rw [Number.text, Double.text]
      split_ifs <;> simp [Decimal.text_ne_nil]

/-! ### Strings -/

namespace Json

/-- The two digits that stand for a control character. -/
private theorem shown_digitChars : ∀ code < 0x20, 0x20 ≤ (Nat.digitChar (code / 16)).toNat ∧
    0x20 ≤ (Nat.digitChar (code % 16)).toNat := by
  decide

/-- A control character is escaped, and so none is left. -/
theorem controlFree_escape (character : Char) : ControlFree (escape character) := by
  unfold escape
  split
  case h_8 =>
    split
    · rename_i is_control
      have digits := shown_digitChars character.toNat is_control
      simp [digits.1, digits.2]
    · rename_i shown
      exact controlFree_cons.2 ⟨Nat.le_of_not_lt shown, controlFree_nil⟩
  all_goals simp

theorem controlFree_quoted (text : String) : ControlFree (quoted text) := by
  have escaped : ControlFree (text.toList.flatMap escape) := by
    intro character member
    obtain ⟨origin, -, inside⟩ := List.mem_flatMap.1 member
    exact controlFree_escape origin character inside
  simp [quoted, escaped]

/-! ### Values -/

mutual

theorem controlFree_write : ∀ value : Json, ControlFree value.write
  | .null => by simp [write]
  | .bool true => by simp [write]
  | .bool false => by simp [write]
  | .number value => value.controlFree_text
  | .string text => controlFree_quoted text
  | .array [] => by simp [write]
  | .array (item :: items) => by
      simp [write, controlFree_write item, controlFree_writeItems items]
  | .object [] => by simp [write]
  | .object ((key, value) :: members) => by
      simp [write, controlFree_quoted key, controlFree_write value,
        controlFree_writeMembers members]

theorem controlFree_writeItems : ∀ items : List Json, ControlFree (writeItems items)
  | [] => by simp [writeItems]
  | item :: items => by
      simp [writeItems, controlFree_write item, controlFree_writeItems items]

theorem controlFree_writeMembers :
    ∀ members : List (String × Json), ControlFree (writeMembers members)
  | [] => by simp [writeMembers]
  | (key, value) :: members => by
      simp [writeMembers, controlFree_quoted key, controlFree_write value,
        controlFree_writeMembers members]

end

theorem write_ne_nil (value : Json) : value.write ≠ [] := by
  cases value with
  | null => simp [write]
  | bool value => cases value <;> simp [write]
  | number value => exact value.text_ne_nil
  | string text => simp [write, quoted]
  | array items => cases items <;> simp [write]
  | object members => cases members <;> simp [write]

end Json

end VesselHub
