/-
Module: VesselHub.Transport.Lines
Purpose: Cut the bytes of a line-oriented connection into lines.
Main exports: LineBuffer, LineBuffer.read, LineBuffer.rest?, LineFlaw
-/
import VesselHub.Text.Utf8

namespace VesselHub

/-- Why a connection is not read any further. -/
inductive LineFlaw where
  | tooLong
  | notText
deriving DecidableEq, Repr

/-- The bytes of a line that has not ended yet, the latest first. -/
structure LineBuffer where
  pending : List UInt8
deriving DecidableEq, Repr

namespace LineBuffer

def empty : LineBuffer := ⟨[]⟩

/-- How many bytes a line may have before its line feed. -/
def maxLength : Nat := 65536

def lineFeed : UInt8 := 10

def carriageReturn : UInt8 := 13

def isEmpty (buffer : LineBuffer) : Bool :=
  buffer.pending.isEmpty

/-- The line that ends here. A carriage return at its end does not belong to it. -/
def line? (buffer : LineBuffer) : Option String :=
  match buffer.pending with
  | [] => some ""
  | last :: before =>
      Text.ofBytes? (if last = carriageReturn then before else last :: before).reverse

/-- Reads bytes behind `count` pending ones: the lines that end in them, and then what is pending
or why the connection is not read any further. -/
def readFrom (pending : List UInt8) (count : Nat) :
    List UInt8 → List String × Except LineFlaw LineBuffer
  | [] => ([], .ok ⟨pending⟩)
  | byte :: bytes =>
      if byte = lineFeed then
        match line? ⟨pending⟩ with
        | none => ([], .error .notText)
        | some line =>
            let (lines, rest) := readFrom [] 0 bytes
            (line :: lines, rest)
      else if count = maxLength then ([], .error .tooLong)
      else readFrom (byte :: pending) (count + 1) bytes

/-- Reads bytes. The lines before a flaw count. -/
def read (buffer : LineBuffer) (bytes : List UInt8) :
    List String × Except LineFlaw LineBuffer :=
  readFrom buffer.pending buffer.pending.length bytes

/-- The last line of a connection that ends without a line feed. -/
def rest? (buffer : LineBuffer) : Option String :=
  if buffer.pending = [] ∨ buffer.pending = [carriageReturn] then none else buffer.line?

end LineBuffer

end VesselHub
