/-
Module: VesselHub.Proofs.Path.Matching
Purpose: Which paths a pattern selects, told by the parts of the two texts. A pattern covers a path
  if it selects a beginning of it, and testing the parts one position after the other gives the same
  answers.
Main exports: Pattern.Selects, Pattern.partsFit_iff, Pattern.partsCover_iff, ByPosition.fits,
  ByPosition.covers, Pattern.selection_iff
-/
import Mathlib.Data.List.Forall2
import Mathlib.Tactic.Tauto
import VesselHub.Proofs.Path.Pattern

namespace VesselHub

/-! ### Pieces of texts -/

namespace Text

private theorem split_ne_nil (mark : Char) (text : String) : split mark text ≠ [] :=
  fun nothing => splitChars_ne_nil mark text.toList (List.map_eq_nil_iff.1 nothing)

private theorem dotFree_of_mem_split {text piece : String} (member : piece ∈ split '.' text) :
    '.' ∉ piece.toList := by
  obtain ⟨characters, is_piece, rfl⟩ := List.mem_map.1 member
  rw [String.toList_ofList]
  exact not_mem_of_mem_splitChars is_piece

end Text

namespace Pattern

variable {parts others : List PatternPart} {part : PatternPart} {keys : List String}

/-- A text is a pattern if it is not empty and has no empty part. -/
theorem exists_ofText_iff {text : String} :
    (∃ pattern, ofText text = .ok pattern) ↔ text ≠ "" ∧ "" ∉ Text.split '.' text := by
  constructor
  · rintro ⟨pattern, parsed⟩
    obtain ⟨-, all_kept⟩ := parts_of_ofText parsed
    have no_empty : "" ∉ Text.split '.' text := fun member =>
      (Path.plain_of_mem_segmentsOf (all_kept ▸ member)).1 rfl
    refine ⟨?_, no_empty⟩
    rintro rfl
    exact no_empty (by decide)
  · rintro ⟨-, no_empty⟩
    have some_part : Text.split '.' text ≠ [""] := fun alone =>
      no_empty (alone ▸ List.mem_singleton_self "")
    have not_found : (Text.split '.' text).findIdx? (· = "") = none := by
      rw [List.findIdx?_eq_none_iff]
      intro piece member
      exact decide_eq_false fun is_empty => no_empty (is_empty ▸ member)
    exact ⟨_, by rw [ofText, if_neg some_part, not_found]⟩

/-! ### Parts and keys -/

/-- Whether a part of a pattern allows a key. -/
def admits : PatternPart → String → Bool
  | .literal wanted, key => wanted == key
  | .wildcard, key => key != ""

/-- Only a lone wildcard selects the path without keys. -/
theorem partsFit_nil (takes_one : part :: others ≠ [.wildcard]) :
    partsFit (part :: others) [] = false := by
  match part, others, takes_one with
  | .literal _, _, _ => rfl
  | .wildcard, [], lone => exact absurd rfl lone
  | .wildcard, _ :: _, _ => rfl

/-- A part takes one key, unless it is a wildcard at the end. -/
theorem partsFit_cons (takes_one : part :: others ≠ [.wildcard]) (key : String)
    (rest : List String) :
    partsFit (part :: others) (key :: rest) = (admits part key && partsFit others rest) := by
  cases part with
  | literal wanted => rfl
  | wildcard =>
      rw [partsFit, admits]
      exact fun nothing => takes_one (nothing ▸ rfl)

/-! ### Selected paths -/

/-- What a part of a pattern's text allows a key to be: anything but empty for `*`, and itself for
any other text. -/
def KeyFits (part key : String) : Prop :=
  if part = "*" then key ≠ "" else key = part

instance : DecidableRel KeyFits := fun part key =>
  inferInstanceAs (Decidable (if part = "*" then key ≠ "" else key = part))

/-- The keys that the parts of a pattern's text select. A wildcard at the end leaves open what
follows, if anything does; a lone one selects every path. -/
def Selects (parts keys : List String) : Prop :=
  parts = ["*"] ∨
    (parts.getLast? = some "*" ∧ parts.length - 1 ≤ keys.length ∧
      List.Forall₂ KeyFits parts.dropLast (keys.take (parts.length - 1))) ∨
    (parts.getLast? ≠ some "*" ∧ keys.length = parts.length ∧ List.Forall₂ KeyFits parts keys)

instance (parts keys : List String) : Decidable (Selects parts keys) :=
  inferInstanceAs (Decidable (_ ∨ _ ∨ _))

section Selects

variable {text key : String} {texts rest : List String}

private theorem admits_partOf : admits (partOf text) key = true ↔ KeyFits text key := by
  rw [partOf, KeyFits]
  split
  · exact bne_iff_ne
  · exact beq_iff_eq.trans eq_comm

theorem selects_nil : Selects [] keys ↔ keys = [] := by
  simp [Selects]

theorem not_selects_nil (takes_one : text :: texts ≠ ["*"]) : ¬ Selects (text :: texts) [] := by
  cases texts with
  | nil =>
      have literal : text ≠ "*" := fun same => takes_one (same ▸ rfl)
      simp [Selects, literal]
  | cons next texts => simp [Selects]

theorem selects_cons (takes_one : text :: texts ≠ ["*"]) :
    Selects (text :: texts) (key :: rest) ↔ KeyFits text key ∧ Selects texts rest := by
  cases texts with
  | nil =>
      have literal : text ≠ "*" := fun same => takes_one (same ▸ rfl)
      rw [selects_nil]
      simp only [Selects, List.cons.injEq, literal, List.getLast?_singleton, Option.some.injEq,
        List.forall₂_cons, List.forall₂_nil_left_iff, List.length_cons, List.length_nil]
      constructor
      · rintro (⟨nothing, -⟩ | ⟨nothing, -⟩ | ⟨-, -, key_fits, nothing⟩)
        · cases nothing
        · cases nothing
        · exact ⟨key_fits, nothing⟩
      · rintro ⟨key_fits, rfl⟩
        exact Or.inr (Or.inr ⟨fun same => literal (Option.some.inj same), rfl, key_fits, rfl⟩)
  | cons next texts =>
      -- Once the first part is taken off, a lone wildcard may be left: it is one at the end, too.
      have lone : next = "*" ∧ texts = [] → (next :: texts).getLast? = some "*" ∧
          texts.length ≤ rest.length ∧
          List.Forall₂ KeyFits (next :: texts).dropLast (rest.take texts.length) := by
        rintro ⟨rfl, rfl⟩
        exact ⟨rfl, Nat.zero_le _, .nil⟩
      simp only [Selects, List.getLast?_cons_cons, List.length_cons, Nat.add_sub_cancel,
        List.dropLast_cons_cons, List.take_succ_cons, List.forall₂_cons, Nat.add_le_add_iff_right,
        Nat.add_right_cancel_iff, List.cons.injEq, reduceCtorEq, and_false, false_or]
      tauto

/-- The parts of a pattern fit the keys that the parts of its text select. -/
theorem partsFit_iff : partsFit (texts.map partOf) keys = true ↔ Selects texts keys := by
  induction texts generalizing keys with
  | nil => rw [selects_nil, List.map_nil, partsFit, List.isEmpty_iff]
  | cons text texts induction_step =>
      by_cases lone : text :: texts = ["*"]
      · cases lone
        exact iff_of_true rfl (Or.inl rfl)
      · have takes_one : partOf text :: texts.map partOf ≠ [.wildcard] := by
          intro same
          obtain ⟨wildcard, nothing⟩ := List.cons.inj same
          rw [List.map_eq_nil_iff] at nothing
          by_cases star : text = "*"
          · exact lone (star ▸ nothing ▸ rfl)
          · rw [partOf, if_neg star] at wildcard
            cases wildcard
        rw [List.map_cons]
        cases keys with
        | nil =>
            rw [partsFit_nil takes_one]
            exact iff_of_false (by decide) (not_selects_nil lone)
        | cons key rest =>
            rw [partsFit_cons takes_one, Bool.and_eq_true, admits_partOf, induction_step,
              selects_cons lone]

end Selects

/-! ### Covered paths -/

theorem partsCover_nil (takes_one : part :: others ≠ [.wildcard]) :
    partsCover (part :: others) [] = false := by
  match part, others, takes_one with
  | .literal _, _, _ => rfl
  | .wildcard, [], lone => exact absurd rfl lone
  | .wildcard, _ :: _, _ => rfl

theorem partsCover_cons (takes_one : part :: others ≠ [.wildcard]) (key : String)
    (rest : List String) :
    partsCover (part :: others) (key :: rest) = (admits part key && partsCover others rest) := by
  cases part with
  | literal wanted => rfl
  | wildcard =>
      rw [partsCover, admits]
      exact fun nothing => takes_one (nothing ▸ rfl)

/-- Parts cover what begins with keys that they select. -/
theorem partsCover_iff_exists_start :
    partsCover parts keys = true ↔ ∃ first, first <+: keys ∧ partsFit parts first = true := by
  induction parts generalizing keys with
  | nil => exact iff_of_true (by rw [partsCover]) ⟨[], List.nil_prefix, rfl⟩
  | cons part others induction_step =>
      by_cases lone : part :: others = [.wildcard]
      · cases lone
        exact iff_of_true rfl ⟨[], List.nil_prefix, rfl⟩
      · cases keys with
        | nil =>
            rw [partsCover_nil lone]
            refine iff_of_false (by decide) ?_
            rintro ⟨first, starts, fits⟩
            rw [List.prefix_nil.1 starts, partsFit_nil lone] at fits
            cases fits
        | cons key rest =>
            rw [partsCover_cons lone, Bool.and_eq_true, induction_step]
            constructor
            · rintro ⟨admitted, first, starts, fits⟩
              refine ⟨key :: first, (List.prefix_cons_inj key).2 starts, ?_⟩
              rw [partsFit_cons lone, admitted, fits]
              rfl
            · rintro ⟨first, starts, fits⟩
              rcases List.prefix_cons_iff.1 starts with rfl | ⟨later, rfl, starts_rest⟩
              · rw [partsFit_nil lone] at fits
                cases fits
              · rw [partsFit_cons lone, Bool.and_eq_true] at fits
                exact ⟨fits.1, later, starts_rest, fits.2⟩

/-- Parts cover keys if they select some of them from the first on. They need not select none, as
only a lone wildcard does, and it selects everything. -/
theorem partsCover_iff (some_part : parts ≠ []) (some_key : keys ≠ []) :
    partsCover parts keys = true ↔
      ∃ first, first ≠ [] ∧ first <+: keys ∧ partsFit parts first = true := by
  rw [partsCover_iff_exists_start]
  constructor
  · rintro ⟨first, starts, fits⟩
    by_cases nothing : first = []
    · obtain ⟨part, others, rfl⟩ := List.exists_cons_of_ne_nil some_part
      by_cases lone : part :: others = [.wildcard]
      · exact ⟨keys, some_key, List.prefix_refl keys, by rw [lone]; rfl⟩
      · rw [nothing, partsFit_nil lone] at fits
        cases fits
    · exact ⟨first, nothing, starts, fits⟩
  · rintro ⟨first, -, starts, fits⟩
    exact ⟨first, starts, fits⟩

end Pattern

/-! ### One position after the other -/

namespace ByPosition

open Pattern

/-- Whether the last part of a pattern is a wildcard. -/
def isOpen (parts : List PatternPart) : Bool :=
  parts.getLast? = some .wildcard

/-- Tests the parts of a pattern from a position on, each against the key at its position. At a
wildcard that is the last of all `count` parts, what is left of the path need not be tested. -/
def fitsFrom (count : Nat) (endless : Bool) (keys : List String) : Nat → List PatternPart → Bool
  | _, [] => true
  | position, part :: parts =>
      if part = .wildcard ∧ endless ∧ position = count - 1 then true
      else
        match keys[position]? with
        | none => false
        | some key =>
            if admits part key then fitsFrom count endless keys (position + 1) parts else false

/-- Whether a pattern selects a path: a lone wildcard selects all; otherwise the numbers of parts
and keys are compared before the parts are tested. -/
def fits (pattern : Pattern) (path : String) : Bool :=
  let keys := Text.split '.' path
  if pattern.parts = [.wildcard] then true
  else if isOpen pattern.parts then
    if keys.length < pattern.parts.length - 1 then false
    else fitsFrom pattern.parts.length true keys 0 pattern.parts
  else if keys.length ≠ pattern.parts.length then false
  else fitsFrom pattern.parts.length false keys 0 pattern.parts

/-- Whether a pattern selects a path or, if no wildcard ends it, a branch above it. -/
def covers (pattern : Pattern) (path : String) : Bool :=
  let keys := Text.split '.' path
  if fits pattern path then true
  else if isOpen pattern.parts then false
  else if keys.length ≤ pattern.parts.length then false
  else (pattern.parts.zip keys).all fun pair => admits pair.1 pair.2

variable {parts others : List PatternPart} {part : PatternPart} {keys : List String}

private theorem ne_of_closed (closed : isOpen parts = false) : parts ≠ [.wildcard] := by
  rintro rfl
  cases closed

theorem isOpen_cons (takes_one : part :: others ≠ [.wildcard]) :
    isOpen (part :: others) = isOpen others := by
  cases others with
  | nil =>
      cases part with
      | literal wanted => rfl
      | wildcard => exact absurd rfl takes_one
  | cons next others => rw [isOpen, List.getLast?_cons_cons, isOpen]

/-- Without a wildcard at the end there is one key for each part. -/
theorem partsFit_closed (closed : isOpen parts = false) : partsFit parts keys =
    (decide (keys.length = parts.length) && (parts.zip keys).all fun pair =>
      admits pair.1 pair.2) := by
  induction parts generalizing keys with
  | nil => cases keys <;> rfl
  | cons part others induction_step =>
      have takes_one := ne_of_closed closed
      rw [isOpen_cons takes_one] at closed
      cases keys with
      | nil => rw [partsFit_nil takes_one]; rfl
      | cons key keys =>
          rw [partsFit_cons takes_one, induction_step closed, List.zip_cons_cons, List.all_cons,
            List.length_cons, List.length_cons, Bool.and_left_comm]
          simp

/-- Keys behind those that the parts take do not matter. -/
theorem partsCover_closed (closed : isOpen parts = false) (keys : List String) :
    partsCover parts keys = true ↔
      parts.length ≤ keys.length ∧ ((parts.zip keys).all fun pair =>
        admits pair.1 pair.2) = true := by
  have zip_eq (first rest : List String) (same_length : first.length = parts.length) :
      parts.zip (first ++ rest) = parts.zip first := by
    have appended : (parts ++ []).zip (first ++ rest) = parts.zip first ++ [].zip rest :=
      List.zip_append same_length.symm
    simpa using appended
  rw [partsCover_iff_exists_start]
  simp only [partsFit_closed closed, Bool.and_eq_true, decide_eq_true_eq]
  constructor
  · rintro ⟨first, ⟨rest, rfl⟩, same_length, all_admit⟩
    rw [zip_eq first rest same_length, List.length_append, same_length]
    exact ⟨Nat.le_add_right _ _, all_admit⟩
  · rintro ⟨enough, all_admit⟩
    have same_length : (keys.take parts.length).length = parts.length :=
      List.length_take_of_le enough
    refine ⟨keys.take parts.length, List.take_prefix _ _, same_length, ?_⟩
    rw [← zip_eq _ (keys.drop parts.length) same_length, List.take_append_drop]
    exact all_admit

/-- A wildcard at the end needs no key. -/
private theorem length_le_of_partsFit (selected : partsFit parts keys = true) :
    parts.length - 1 ≤ keys.length := by
  induction parts generalizing keys with
  | nil => exact Nat.zero_le _
  | cons part others induction_step =>
      by_cases lone : part :: others = [.wildcard]
      · rw [lone]
        exact Nat.zero_le _
      · cases keys with
        | nil =>
            rw [partsFit_nil lone] at selected
            cases selected
        | cons key keys =>
            rw [partsFit_cons lone, Bool.and_eq_true] at selected
            have rest := induction_step selected.2
            rw [List.length_cons, List.length_cons]
            omega

/-- The parts from a position on are tested against the keys from there on. -/
theorem fitsFrom_eq (keys : List String) {count position : Nat}
    (count_eq : count = position + parts.length)
    (enough : isOpen parts = false → keys.length = count) :
    fitsFrom count (isOpen parts) keys position parts = partsFit parts (keys.drop position) := by
  induction parts generalizing position with
  | nil =>
      rw [fitsFrom, List.drop_of_length_le, partsFit, List.isEmpty_nil]
      rw [enough rfl, count_eq]
      exact Nat.le_refl _
  | cons part others induction_step =>
      rw [List.length_cons] at count_eq
      by_cases lone : part :: others = [.wildcard]
      · cases lone
        rw [fitsFrom, if_pos ⟨rfl, rfl, by rw [count_eq]; rfl⟩, partsFit]
      · have not_last : ¬ (part = .wildcard ∧ isOpen (part :: others) = true ∧
            position = count - 1) := by
          rintro ⟨rfl, -, last⟩
          have no_others : others.length = 0 := by omega
          exact lone (List.length_eq_zero_iff.1 no_others ▸ rfl)
        rw [fitsFrom, if_neg not_last]
        cases key_eq : keys[position]? with
        | none =>
            rw [List.drop_of_length_le (List.getElem?_eq_none_iff.1 key_eq), partsFit_nil lone]
        | some key =>
            obtain ⟨within, rfl⟩ := List.getElem?_eq_some_iff.1 key_eq
            rw [isOpen_cons lone] at enough ⊢
            rw [List.drop_eq_getElem_cons within, partsFit_cons lone,
              ← induction_step (by omega) enough]
            dsimp only
            cases admits part keys[position] <;> rfl

theorem fits_eq (pattern : Pattern) (path : String) : fits pattern path = pattern.fits path := by
  rw [fits, Pattern.fits]
  generalize Text.split '.' path = keys
  generalize pattern.parts = parts
  split
  · rename_i lone
    rw [lone, partsFit]
  · cases shape : isOpen parts with
    | true =>
        have whole := fitsFrom_eq keys (Nat.zero_add _).symm
          (fun closed => absurd (shape.symm.trans closed) (by decide))
        rw [shape, List.drop_zero] at whole
        rw [if_pos rfl, whole]
        split
        · rename_i too_short
          refine (Bool.eq_false_iff.2 fun selected => ?_).symm
          exact absurd (length_le_of_partsFit selected) (Nat.not_le.2 too_short)
        · rfl
    | false =>
        rw [if_neg (by decide)]
        split
        · rename_i other_length
          rw [partsFit_closed shape, decide_eq_false other_length, Bool.false_and]
        · rename_i same_length
          have whole := fitsFrom_eq keys (Nat.zero_add parts.length).symm
            (fun _ => Classical.not_not.1 same_length)
          rwa [shape, List.drop_zero] at whole

theorem covers_eq (pattern : Pattern) (path : String) :
    covers pattern path = pattern.covers path := by
  rw [covers, fits_eq, Pattern.fits, Pattern.covers]
  generalize Text.split '.' path = keys
  generalize pattern.parts = parts
  split
  · rename_i selected
    exact (partsCover_of_partsFit selected).symm
  · rename_i not_selected
    split
    · rename_i endless
      rw [← partsFit_eq_partsCover (of_decide_eq_true endless)]
      exact (Bool.eq_false_iff.2 not_selected).symm
    · rename_i closed
      have closed := Bool.eq_false_iff.2 closed
      have covered_iff := partsCover_closed closed keys
      rw [partsFit_closed closed, Bool.and_eq_true, decide_eq_true_eq] at not_selected
      split
      · rename_i few
        refine (Bool.eq_false_iff.2 fun covered => not_selected ?_).symm
        obtain ⟨enough, all_admit⟩ := covered_iff.1 covered
        exact ⟨Nat.le_antisymm few enough, all_admit⟩
      · rename_i more
        rw [Bool.eq_iff_iff, covered_iff]
        exact (and_iff_right (Nat.le_of_not_le more)).symm

end ByPosition

/-! ### Selection -/

namespace Pattern

/-- A text is a pattern if it is not empty and has no empty part. A pattern selects the paths whose
keys its parts allow, the last part any number of them if it is a wildcard. It covers the paths of
which it selects a beginning, and so what extends them. -/
theorem selection_iff (text path : String) :
    ((∃ pattern, ofText text = .ok pattern) ↔ text ≠ "" ∧ "" ∉ Text.split '.' text) ∧
      ∀ pattern, ofText text = .ok pattern →
        (pattern.fits path = true ↔ Selects (Text.split '.' text) (Text.split '.' path)) ∧
        (pattern.covers path = true ↔ ∃ first, first ≠ [] ∧ first <+: Text.split '.' path ∧
          pattern.fits (Path.dotted first) = true) ∧
        (∀ longer, Text.split '.' path <+: Text.split '.' longer →
          pattern.covers path = true → pattern.covers longer = true) ∧
        ByPosition.fits pattern path = pattern.fits path ∧
        ByPosition.covers pattern path = pattern.covers path := by
  refine ⟨exists_ofText_iff, fun pattern parsed => ?_⟩
  have parts_eq := (parts_of_ofText parsed).1
  have some_part : pattern.parts ≠ [] := fun nothing =>
    Text.split_ne_nil '.' text (List.map_eq_nil_iff.1 (parts_eq ▸ nothing))
  have covers_iff (path : String) : pattern.covers path = true ↔
      ∃ first, first ≠ [] ∧ first <+: Text.split '.' path ∧
        pattern.fits (Path.dotted first) = true := by
    rw [covers, partsCover_iff some_part (Text.split_ne_nil '.' path)]
    refine exists_congr fun first => and_congr_right fun some_key =>
      and_congr_right fun starts => ?_
    have dot_free : ∀ key ∈ first, '.' ∉ key.toList := fun key member =>
      Text.dotFree_of_mem_split (starts.subset member)
    rw [fits, Path.split_dotted_of_dotFree some_key dot_free]
  refine ⟨?_, covers_iff path, ?_, ByPosition.fits_eq pattern path,
    ByPosition.covers_eq pattern path⟩
  · rw [fits, parts_eq, partsFit_iff]
  · intro longer extends_path covered
    obtain ⟨first, some_key, starts, selected⟩ := (covers_iff path).1 covered
    exact (covers_iff longer).2 ⟨first, some_key, starts.trans extends_path, selected⟩

/-- The speed of any engine is selected, and what is known about it is covered only. -/
theorem revolutions_covered :
    let pattern : Pattern := {
      raw := "propulsion.*.revolutions"
      parts := [.literal "propulsion", .wildcard, .literal "revolutions"] }
    ofText "propulsion.*.revolutions" = .ok pattern ∧
      pattern.fits "propulsion.port.revolutions" = true ∧
      pattern.fits "propulsion.port.revolutions.peak" = false ∧
      pattern.covers "propulsion.port.revolutions.peak" = true ∧
      pattern.fits "propulsion..revolutions" = false := by
  intro pattern
  have parsed : ofText "propulsion.*.revolutions" = .ok pattern := by decide +kernel
  have fits_iff := fun path => ((selection_iff _ path).2 pattern parsed).1
  have inherits := ((selection_iff _ "propulsion.port.revolutions").2 pattern parsed).2.2.1
  have branch : pattern.covers "propulsion.port.revolutions" = true :=
    ((selection_iff _ _).2 pattern parsed).2.1.2
      ⟨["propulsion", "port", "revolutions"], by decide, by decide +kernel,
        (fits_iff _).2 (by decide +kernel)⟩
  refine ⟨parsed, (fits_iff _).2 (by decide +kernel), Bool.eq_false_iff.2 fun peak => ?_,
    inherits _ (by decide +kernel) branch, Bool.eq_false_iff.2 fun nameless => ?_⟩
  · exact absurd ((fits_iff _).1 peak) (by decide +kernel)
  · exact absurd ((fits_iff _).1 nameless) (by decide +kernel)

end Pattern

end VesselHub
