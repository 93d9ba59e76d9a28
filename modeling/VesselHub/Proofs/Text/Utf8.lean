/-
Module: VesselHub.Proofs.Text.Utf8
Purpose: The UTF-8 form of a text is that of its characters one after the other, it can be read
  back, and a line feed among its bytes is a line feed in the text.
Main exports: Text.bytes_append, Text.ofBytes?_bytes, Text.lineFeed_not_mem_bytes
-/
import Mathlib.Tactic.SplitIfs
import VesselHub.Text.Utf8

namespace VesselHub.Text

private theorem toList_loop (bytes : ByteArray) (position : Nat) (found : List UInt8) :
    ByteArray.toList.loop bytes position found =
      found.reverse ++ bytes.data.toList.drop position := by
  induction position, found using ByteArray.toList.loop.induct bytes with
  | case1 position found inside induction_step =>
      have bound : position < bytes.data.toList.length := inside
      rw [ByteArray.toList.loop, if_pos inside, induction_step, List.drop_eq_getElem_cons bound]
      simp [ByteArray.get!, inside]
  | case2 position found beyond =>
      have nothing : bytes.data.toList.drop position = [] :=
        List.drop_of_length_le (Nat.le_of_not_lt beyond)
      rw [ByteArray.toList.loop, if_neg beyond, nothing, List.append_nil]

theorem toList_eq_data (bytes : ByteArray) : bytes.toList = bytes.data.toList :=
  toList_loop bytes 0 []

theorem bytes_eq_flatMap (text : String) :
    bytes text = text.toList.flatMap String.utf8EncodeChar := by
  rw [bytes, toList_eq_data, String.toUTF8, ← String.utf8Encode_toList, List.utf8Encode,
    List.toList_data_toByteArray]

theorem bytes_append (text other : String) : bytes (text ++ other) = bytes text ++ bytes other := by
  rw [bytes_eq_flatMap, bytes_eq_flatMap, bytes_eq_flatMap, String.toList_append,
    List.flatMap_append]

theorem ofBytes?_bytes (text : String) : ofBytes? (bytes text) = some text := by
  have same : (⟨(bytes text).toArray⟩ : ByteArray) = text.toByteArray := by
    rw [bytes, toList_eq_data, Array.toArray_toList]
    rfl
  rw [ofBytes?, same, String.fromUTF8?, dif_pos text.isValidUTF8]
  rfl

/-- Beyond ASCII every byte is above 127. -/
private theorem eq_lineFeed_of_mem_utf8EncodeChar {character : Char}
    (member : 10 ∈ String.utf8EncodeChar character) : character = '\n' := by
  have code : character.val.toNat = 10 := by
    rw [String.utf8EncodeChar.eq_1] at member
    split_ifs at member
    all_goals
      simp only [List.mem_cons, List.not_mem_nil, or_false, ← UInt8.toNat_inj,
        UInt8.toNat_ofNat', UInt8.reduceToNat] at member
      omega
  exact Char.toNat_inj.1 code

theorem lineFeed_not_mem_bytes {text : String} (absent : '\n' ∉ text.toList) :
    10 ∉ bytes text := by
  intro member
  rw [bytes_eq_flatMap, List.mem_flatMap] at member
  obtain ⟨character, present, is_lineFeed⟩ := member
  exact absent (eq_lineFeed_of_mem_utf8EncodeChar is_lineFeed ▸ present)

end VesselHub.Text
