/-!
# Colours of a terminal

A style is set by escape sequences that begin with a reset. Where colours are off
nothing is written for it.
-/
namespace CTree.Report

inductive Colour
  | red
  | green
  | yellow
  deriving Repr, DecidableEq

def Colour.code : Colour → String
  | red => "31"
  | green => "32"
  | yellow => "33"

def escape (code : String) : String := "\x1b[" ++ code ++ "m"

/-- Back to plain text. -/
def reset (coloured : Bool) : String := if coloured then escape "0" else ""

def setColour (coloured bold : Bool) (colour : Colour) : String :=
  if coloured then escape "0" ++ (if bold then escape "1" else "") ++ escape colour.code else ""

end CTree.Report
