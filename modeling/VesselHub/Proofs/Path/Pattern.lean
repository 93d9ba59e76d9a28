/-
Module: VesselHub.Proofs.Path.Pattern
Purpose: What the parts of a pattern select among the keys of a path: all of them, or the first.
Main exports: Path.split_dotted, Pattern.parts_of_ofText, Pattern.partsCover_of_partsFit,
  Pattern.partsFit_eq_partsCover, Pattern.covers_dotted_iff
-/
import VesselHub.Path.Pattern
import VesselHub.Proofs.Path.Dotted

namespace VesselHub

/-! ### Cutting texts -/

private theorem Text.mem_of_mem_splitChars {mark character : Char} {characters piece : List Char}
    (is_piece : piece ∈ splitChars mark characters) (member : character ∈ piece) :
    character ∈ characters := by
  induction characters generalizing piece with
  | nil =>
      rw [splitChars, List.mem_singleton] at is_piece
      rw [is_piece] at member
      cases member
  | cons first characters induction_step =>
      rw [splitChars] at is_piece
      split at is_piece
      · rcases List.mem_cons.1 is_piece with rfl | later
        · cases member
        · exact List.mem_cons_of_mem _ (induction_step later member)
      · cases shape : splitChars mark characters with
        | nil => exact absurd shape (splitChars_ne_nil mark characters)
        | cons head tail =>
            rw [shape] at is_piece induction_step
            rcases List.mem_cons.1 is_piece with rfl | later
            · rcases List.mem_cons.1 member with rfl | below
              · exact List.mem_cons_self
              · exact List.mem_cons_of_mem _ (induction_step List.mem_cons_self below)
            · exact List.mem_cons_of_mem _
                (induction_step (List.mem_cons_of_mem _ later) member)

namespace Path

private theorem split_of_dotFree {key : String} (dot_free : '.' ∉ key.toList) :
    Text.split '.' key = [key] := by
  rw [Text.split, Text.splitChars_of_not_mem dot_free]
  simp

/-- Keys without dots are cut apart again where they were joined, also if some are empty. -/
theorem split_dotted_of_dotFree {keys : List String} (nonempty : keys ≠ [])
    (dot_free : ∀ key ∈ keys, '.' ∉ key.toList) : Text.split '.' (dotted keys) = keys := by
  induction keys with
  | nil => exact absurd rfl nonempty
  | cons key keys induction_step =>
      rw [List.forall_mem_cons] at dot_free
      cases keys with
      | nil =>
          have alone : dotted [key] = key := by simp [dotted, Text.join, Text.joinChars]
          rw [alone, split_of_dotFree dot_free.1]
      | cons next keys =>
          have cut : Text.split '.' (dotted (key :: next :: keys)) =
              Text.split '.' key ++ Text.split '.' (dotted (next :: keys)) := by
            simp only [Text.split, dotted, Text.join, List.map_cons, Text.joinChars,
              String.toList_ofList, Text.splitChars_append, List.map_append]
          rw [cut, split_of_dotFree dot_free.1, induction_step (List.cons_ne_nil _ _) dot_free.2]
          rfl

/-- Plain keys joined by dots are cut into these keys. -/
theorem split_dotted {keys : List String} (nonempty : keys ≠ [])
    (plain : ∀ key ∈ keys, IsPlain key) : Text.split '.' (dotted keys) = keys :=
  split_dotted_of_dotFree nonempty fun key member => (plain key member).2

end Path

/-! ### Patterns -/

namespace Pattern

variable {parts : List PatternPart} {keys : List String} {text : String} {pattern : Pattern}

/-- A pattern has the parts of its text, none of which is empty. -/
theorem parts_of_ofText (parsed : ofText text = .ok pattern) :
    pattern.parts = (Text.split '.' text).map partOf ∧
      Path.segmentsOf text = Text.split '.' text := by
  rw [ofText] at parsed
  split at parsed
  · cases parsed
  · split at parsed
    · cases parsed
    · rename_i no_empty
      cases parsed
      refine ⟨rfl, List.filter_eq_self.2 fun piece member => ?_⟩
      simpa using List.findIdx?_eq_none_iff.1 no_empty piece member

/-- What parts select exactly they cover. -/
theorem partsCover_of_partsFit (fits : partsFit parts keys = true) :
    partsCover parts keys = true := by
  fun_induction partsFit parts keys with
  | case1 keys => rfl
  | case2 keys => rfl
  | case3 part parts => cases fits
  | case4 wanted parts key keys induction_step =>
      rw [Bool.and_eq_true] at fits
      rw [partsCover, Bool.and_eq_true]
      exact ⟨fits.1, induction_step fits.2⟩
  | case5 parts key keys not_last induction_step =>
      rw [Bool.and_eq_true] at fits
      rw [partsCover, Bool.and_eq_true]
      · exact ⟨fits.1, induction_step fits.2⟩
      · exact not_last

/-- Parts that end in a wildcard select exactly what they cover. -/
theorem partsFit_eq_partsCover (open_end : parts.getLast? = some .wildcard) (keys : List String) :
    partsFit parts keys = partsCover parts keys := by
  fun_induction partsFit parts keys with
  | case1 keys => rfl
  | case2 keys => cases open_end
  | case3 part parts not_wildcard =>
      rw [partsCover]
      exact not_wildcard
  | case4 wanted parts key keys induction_step =>
      cases parts with
      | nil => cases open_end
      | cons next parts =>
          rw [List.getLast?_cons_cons] at open_end
          rw [partsCover, induction_step open_end]
  | case5 parts key keys not_last induction_step =>
      cases parts with
      | nil => exact absurd rfl not_last
      | cons next parts =>
          rw [List.getLast?_cons_cons] at open_end
          rw [partsCover, induction_step open_end]
          exact not_last

/-- Keys cover the paths that begin with them. -/
theorem partsCover_literals {wanted : List String} :
    partsCover (wanted.map .literal) keys = true ↔ wanted <+: keys := by
  induction wanted generalizing keys with
  | nil => simp [partsCover]
  | cons first wanted induction_step =>
      cases keys with
      | nil => simp [partsCover]
      | cons key keys =>
          rw [List.map_cons, partsCover, Bool.and_eq_true, induction_step, beq_iff_eq,
            List.cons_prefix_cons]

/-- A text without wildcards covers the paths that begin with its keys. -/
theorem covers_dotted_iff (parsed : ofText text = .ok pattern)
    (no_wildcard : '*' ∉ text.toList) (plain : ∀ key ∈ keys, Path.IsPlain key) :
    pattern.covers (Path.dotted keys) = true ↔ Path.segmentsOf text <+: keys := by
  obtain ⟨parts_eq, segments_eq⟩ := parts_of_ofText parsed
  have literals : (Text.split '.' text).map partOf = (Text.split '.' text).map .literal := by
    refine List.map_congr_left fun piece member => if_neg ?_
    rintro rfl
    obtain ⟨characters, is_piece, spelled⟩ := List.mem_map.1 member
    have star : '*' ∈ characters := by
      rw [← String.toList_ofList (l := characters), spelled]
      decide
    exact no_wildcard (Text.mem_of_mem_splitChars is_piece star)
  rw [covers, parts_eq, literals, partsCover_literals, ← segments_eq]
  cases keys with
  | cons key keys => rw [Path.split_dotted (List.cons_ne_nil _ _) plain]
  | nil =>
      -- The empty path has one piece, which is empty: it begins with no key of the text.
      have some_key : Path.segmentsOf text ≠ [] := by
        rw [segments_eq, Text.split]
        exact fun nothing => Text.splitChars_ne_nil '.' text.toList (List.map_eq_nil_iff.1 nothing)
      obtain ⟨key, others, segments⟩ := List.exists_cons_of_ne_nil some_key
      have is_key : key ∈ Path.segmentsOf text := segments ▸ List.mem_cons_self
      have key_plain := Path.plain_of_mem_segmentsOf is_key
      rw [show Text.split '.' (Path.dotted []) = [""] by decide, segments, List.cons_prefix_cons,
        List.prefix_nil]
      simp [key_plain.1]

end Pattern

end VesselHub
