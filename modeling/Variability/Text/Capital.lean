set_option autoImplicit false

namespace Variability.Text

/-- The letters outside ASCII whose capitals are in it. -/
def foreignCapitals : List (Char × String) := [('ß', "SS"), ('ı', "I"), ('ſ', "S"),
  ('\ufb00', "FF"), ('\ufb01', "FI"), ('\ufb02', "FL"), ('\ufb03', "FFI"), ('\ufb04', "FFL"),
  ('\ufb05', "ST"), ('\ufb06', "ST")]

/-- The capital of a letter if it is in ASCII; any other character is kept. -/
def capital (c : Char) : List Char :=
  match foreignCapitals.find? (·.1 = c) with
  | some (_, s) => s.toList
  | none => [c.toUpper]

def capitals (s : String) : String := String.ofList (s.toList.flatMap capital)

example : capitals "All" = "ALL" ∧ capitals "fi\ufb01\u0131" = "FIFII" := by decide

end Variability.Text
