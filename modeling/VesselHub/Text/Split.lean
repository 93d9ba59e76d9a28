/-
Module: VesselHub.Text.Split
Purpose: Cut texts at a mark, join pieces with a mark, and take a fixed beginning off a text.
Main exports: Text.split, Text.join, Text.splitOnce, Text.dropStart?
-/

namespace VesselHub.Text

/-- Cuts characters at every occurrence of `mark`. The pieces hold no mark, and there is always
at least one piece. -/
def splitChars (mark : Char) : List Char → List (List Char)
  | [] => [[]]
  | character :: rest =>
      if character = mark then
        [] :: splitChars mark rest
      else
        match splitChars mark rest with
        | [] => [[character]]
        | piece :: pieces => (character :: piece) :: pieces

/-- Joins pieces with one `mark` between each two neighbours. -/
def joinChars (mark : Char) : List (List Char) → List Char
  | [] => []
  | [piece] => piece
  | piece :: next :: pieces => piece ++ mark :: joinChars mark (next :: pieces)

/-- The pieces of a text between the occurrences of `mark`, the empty ones included. -/
def split (mark : Char) (text : String) : List String :=
  (splitChars mark text.toList).map String.ofList

/-- The pieces written one after the other with `mark` between them. -/
def join (mark : Char) (pieces : List String) : String :=
  String.ofList (joinChars mark (pieces.map String.toList))

/-- The text before and the text after the first `mark`, if there is one. -/
def splitOnceChars (mark : Char) : List Char → Option (List Char × List Char)
  | [] => none
  | character :: rest =>
      if character = mark then some ([], rest)
      else (splitOnceChars mark rest).map fun parts => (character :: parts.1, parts.2)

/-- The text before and the text after the first `mark`, if there is one. -/
def splitOnce (mark : Char) (text : String) : Option (String × String) :=
  (splitOnceChars mark text.toList).map fun parts =>
    (String.ofList parts.1, String.ofList parts.2)

/-- The text before the last `mark`, or the whole text if there is none. -/
def beforeLast (mark : Char) (text : String) : String :=
  match text.toList.reverse.dropWhile (· != mark) with
  | [] => text
  | _ :: before => String.ofList before.reverse

/-- What follows `start` in a list of characters that begins with it. -/
def dropStartChars? : List Char → List Char → Option (List Char)
  | [], rest => some rest
  | _ :: _, [] => none
  | expected :: start, character :: rest =>
      if expected = character then dropStartChars? start rest else none

/-- What follows `start` in a text that begins with it. -/
def dropStart? (start text : String) : Option String :=
  (dropStartChars? start.toList text.toList).map String.ofList

theorem splitChars_ne_nil (mark : Char) (characters : List Char) :
    splitChars mark characters ≠ [] := by
  cases characters with
  | nil => simp [splitChars]
  | cons character rest =>
      simp only [splitChars]
      split
      · simp
      · split <;> simp

/-- No piece holds the mark. -/
theorem not_mem_of_mem_splitChars {mark : Char} {characters piece : List Char}
    (member : piece ∈ splitChars mark characters) : mark ∉ piece := by
  induction characters generalizing piece with
  | nil => simp [splitChars] at member; simp [member]
  | cons character rest induction_step =>
      simp only [splitChars] at member
      split at member
      · rcases List.mem_cons.1 member with rfl | tail_member
        · simp
        · exact induction_step tail_member
      · rename_i differs
        split at member
        · rename_i empty
          exact absurd empty (splitChars_ne_nil mark rest)
        · rename_i head tail shape
          rcases List.mem_cons.1 member with rfl | tail_member
          · have head_free := induction_step (shape ▸ List.mem_cons_self)
            simp only [List.mem_cons, not_or]
            exact ⟨fun same => differs same.symm, head_free⟩
          · exact induction_step (shape ▸ List.mem_cons_of_mem _ tail_member)

end VesselHub.Text
