-- SUMMARY: Why and where a text is not a path.

/-! # Faults of path texts

A fault is a cause and a position. The position counts characters from the start of the text and is
that of the first character that cannot be accepted, or the text's length when the text ends too
early. -/

namespace DataBound

/-- What is wrong at the position of a fault. -/
inductive Fault.Cause where
  /-- No part of a path starts with this character. -/
  | unexpected (found : Char)
  /-- One certain character was needed, and another one or the end of the text was found. -/
  | expected (wanted : Char) (found : Option Char)
  /-- A single opening brace. -/
  | loneBrace
  /-- Two backticks with nothing between them. -/
  | emptyExpression
  /-- Nothing between brackets. -/
  | noOperand
  deriving DecidableEq

/-- A place in a path text where reading it has to stop. -/
structure Fault where
  position : Nat
  cause : Fault.Cause
  deriving DecidableEq

def Fault.Cause.text : Fault.Cause → String
  | .unexpected found => "Unexpected character: " ++ found.toString
  | .expected wanted (some found) =>
    "Expected char: " ++ wanted.toString ++ " but got: " ++ found.toString
  | .expected wanted none => "Expected char: " ++ wanted.toString ++ " but got end of input"
  | .loneBrace =>
    "Expected char: \x7b (nested references open with '\x7b\x7b')"
  | .emptyExpression => "Empty expression"
  | .noOperand => "Expected identifier"

end DataBound
