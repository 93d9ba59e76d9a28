/-
Module: VesselHub.Proofs.Transport.Lines
Purpose: Texts that are written as lines, one after the other, are told apart again by cutting at
  the ends of lines, and by the reader of lines from the bytes.
Main exports: Text.lines, framed, Framing, framing_of_one_line, framing_compact
-/
import VesselHub.Message.Server
import VesselHub.Proofs.Json.Printer
import VesselHub.Proofs.Path.Dotted
import VesselHub.Proofs.Text.Utf8
import VesselHub.Transport.Lines

namespace VesselHub

/-! ### Lines of a text -/

namespace Text

/-- A line without the carriage return that may stand before its line feed. -/
def withoutReturn (line : List Char) : List Char :=
  if line.getLast? = some '\r' then line.dropLast else line

/-- The lines of a text. Each ends with a line feed, with or without a carriage return before it;
what follows the last one is a line too, unless it is empty. -/
def lines (text : String) : List String :=
  let pieces := splitChars '\n' text.toList
  let ended := pieces.dropLast.map withoutReturn
  let left := pieces.getLast?.toList.filter (· ≠ [])
  (ended ++ left).map String.ofList

/-- A text that is one line: it is not empty, and no line ends in it. -/
def IsOneLine (text : String) : Prop :=
  text ≠ "" ∧ '\n' ∉ text.toList ∧ '\r' ∉ text.toList

private theorem withoutReturn_concat (line : List Char) :
    withoutReturn (line ++ ['\r']) = line := by
  rw [withoutReturn, List.getLast?_concat, if_pos rfl, List.dropLast_concat]

end Text

/-- Texts written as lines, one after the other. -/
def framed (texts : List String) : String :=
  String.join (texts.map frameLine)

/-- Texts that were written as lines can be told apart again. -/
structure Framing (texts : List String) : Prop where
  /-- No line is empty, and none is split by a line end of its own. -/
  one_line : ∀ text ∈ texts, Text.IsOneLine text
  /-- Each line feed ends a line, and no line is joined to another. -/
  split_eq : Text.split '\n' (framed texts) = texts.map (· ++ "\r") ++ [""]
  lines_eq : Text.lines (framed texts) = texts
  /-- From the bytes the reader of lines gets them, too, unless one is too long for it. -/
  read_eq : (∀ text ∈ texts, (Text.bytes text).length < LineBuffer.maxLength) →
    LineBuffer.empty.read (Text.bytes (framed texts)) = (texts, .ok .empty)

theorem framed_cons (text : String) (texts : List String) :
    framed (text :: texts) = frameLine text ++ framed texts := by
  apply String.toList_injective
  simp [framed, String.toList_join]

private theorem splitChars_framed {texts : List String}
    (free : ∀ text ∈ texts, '\n' ∉ text.toList) : Text.splitChars '\n' (framed texts).toList =
      texts.map (fun text => text.toList ++ ['\r']) ++ [[]] := by
  induction texts with
  | nil => rfl
  | cons text texts induction_step =>
      rw [List.forall_mem_cons] at free
      have line_free : '\n' ∉ text.toList ++ ['\r'] := by simpa using free.1
      have cut : (framed (text :: texts)).toList =
          (text.toList ++ ['\r']) ++ '\n' :: (framed texts).toList := by
        simp [framed_cons, frameLine]
      rw [cut, Text.splitChars_append, Text.splitChars_of_not_mem line_free,
        induction_step free.2]
      rfl

/-! ### Lines read from bytes -/

namespace LineBuffer

private theorem bytes_lineEnd : Text.bytes "\r\n" = [carriageReturn, lineFeed] := by
  rw [Text.bytes_eq_flatMap]
  rfl

/-- Up to the next line feed the bytes are kept, as long as there are not too many. -/
theorem readFrom_append (pending body rest : List UInt8) (count : Nat) (free : lineFeed ∉ body)
    (short : count + body.length ≤ maxLength) :
    readFrom pending count (body ++ rest) =
      readFrom (body.reverse ++ pending) (count + body.length) rest := by
  induction body generalizing pending count with
  | nil => rfl
  | cons byte body induction_step =>
      rw [List.mem_cons, not_or] at free
      rw [List.length_cons] at short ⊢
      have room : count ≠ maxLength := by omega
      have kept := induction_step (byte :: pending) (count + 1) free.2 (by omega)
      rw [List.cons_append, readFrom, if_neg (Ne.symm free.1), if_neg room, kept,
        List.reverse_cons, List.append_assoc, Nat.add_assoc, Nat.add_comm 1]
      rfl

private theorem line?_bytes_return (text : String) :
    line? ⟨carriageReturn :: (Text.bytes text).reverse⟩ = some text := by
  simp only [line?, if_true, List.reverse_reverse, Text.ofBytes?_bytes]

/-- A line is read, and then what follows it. -/
theorem readFrom_frameLine {text : String} (free : '\n' ∉ text.toList)
    (short : (Text.bytes text).length < maxLength) (rest : List UInt8) :
    readFrom [] 0 (Text.bytes (frameLine text) ++ rest) =
      (text :: (readFrom [] 0 rest).1, (readFrom [] 0 rest).2) := by
  have bytes_eq : Text.bytes (frameLine text) ++ rest =
      (Text.bytes text ++ [carriageReturn]) ++ lineFeed :: rest := by
    rw [frameLine, Text.bytes_append, bytes_lineEnd]
    simp
  have body_free : lineFeed ∉ Text.bytes text ++ [carriageReturn] := by
    rw [List.mem_append, not_or]
    exact ⟨Text.lineFeed_not_mem_bytes free, by decide⟩
  have body_short : 0 + (Text.bytes text ++ [carriageReturn]).length ≤ maxLength := by
    rw [Nat.zero_add, List.length_append]
    exact short
  rw [bytes_eq, readFrom_append [] _ _ 0 body_free body_short, List.append_nil,
    List.reverse_concat, readFrom, if_pos rfl, line?_bytes_return]

theorem read_framed {texts : List String} (free : ∀ text ∈ texts, '\n' ∉ text.toList)
    (short : ∀ text ∈ texts, (Text.bytes text).length < maxLength) :
    empty.read (Text.bytes (framed texts)) = (texts, .ok empty) := by
  change readFrom [] 0 _ = _
  induction texts with
  | nil =>
      rw [Text.bytes_eq_flatMap]
      rfl
  | cons text texts induction_step =>
      rw [List.forall_mem_cons] at free short
      rw [framed_cons, Text.bytes_append, readFrom_frameLine free.1 short.1,
        induction_step free.2 short.2]

end LineBuffer

/-! ### Texts that are lines -/

theorem framing_of_one_line {texts : List String} (one_line : ∀ text ∈ texts, Text.IsOneLine text) :
    Framing texts := by
  have free : ∀ text ∈ texts, '\n' ∉ text.toList := fun text member => (one_line text member).2.1
  have cut := splitChars_framed free
  refine ⟨one_line, ?_, ?_, LineBuffer.read_framed free⟩
  · rw [Text.split, cut]
    simp [String.ofList_append]
  · simp only [Text.lines, cut, List.dropLast_concat, List.getLast?_concat]
    simp [Function.comp_def, Text.withoutReturn_concat]

namespace Json

/-- Whatever a value holds, its text is one line. -/
theorem isOneLine_compact (value : Json) : Text.IsOneLine value.compact := by
  have no_ends := (controlFree_write value).not_mem
  rw [Text.IsOneLine, compact, String.toList_ofList]
  refine ⟨fun empty => write_ne_nil value ?_, no_ends⟩
  simpa using congrArg String.toList empty

theorem framing_compact (payloads : List Json) : Framing (payloads.map compact) := by
  apply framing_of_one_line
  intro text member
  obtain ⟨payload, -, rfl⟩ := List.mem_map.1 member
  exact isOneLine_compact payload

end Json

end VesselHub
