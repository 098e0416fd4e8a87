import Variability.Text.Printable

set_option autoImplicit false

namespace Variability.Text

def hexDigits (width n : Nat) : List Char :=
  let ds := Nat.toDigits 16 n
  List.replicate (width - ds.length) '0' ++ ds

/-- A character inside quotation marks of the given kind. What is not printable is written by its
number, with two, four or eight digits. -/
def escape (mark c : Char) : List Char :=
  if c = mark ∨ c = '\\' then ['\\', c]
  else if c = '\n' then ['\\', 'n']
  else if c = '\r' then ['\\', 'r']
  else if c = '\t' then ['\\', 't']
  else if isPrintable c then [c]
  else if c.toNat < 0x100 then '\\' :: 'x' :: hexDigits 2 c.toNat
  else if c.toNat < 0x10000 then '\\' :: 'u' :: hexDigits 4 c.toNat
  else '\\' :: 'U' :: hexDigits 8 c.toNat

def markFor (cs : List Char) : Char :=
  if cs.contains '\'' ∧ !cs.contains '"' then '"' else '\''

def quote (cs : List Char) : List Char :=
  let mark := markFor cs
  mark :: cs.flatMap (escape mark) ++ [mark]

def quoteList (texts : List String) : String :=
  "[" ++ ", ".intercalate (texts.map fun t => String.ofList (quote t.toList)) ++ "]"

example : quoteList ["a'b", "\n\"'"] = "[\"a'b\", '\\n\"\\'']" := by decide +kernel

end Variability.Text
