set_option autoImplicit false

namespace Variability.Text

/-- The characters with the Unicode property of white space, and the four information
separators. -/
def isBlank (c : Char) : Bool :=
  let n := c.toNat
  (9 ≤ n && n ≤ 13) || (28 ≤ n && n ≤ 32) || n == 0x85 || n == 0xA0 || n == 0x1680 ||
    (0x2000 ≤ n && n ≤ 0x200A) || n == 0x2028 || n == 0x2029 || n == 0x202F || n == 0x205F ||
    n == 0x3000

example : ['\t', '\n', '\r', ' '].all isBlank = true := by decide
example : ['a', '_', '0'].any isBlank = false := by decide

def trimLeft (cs : List Char) : List Char := cs.dropWhile isBlank

def trimRight (cs : List Char) : List Char := (cs.reverse.dropWhile isBlank).reverse

def strip (cs : List Char) : List Char := trimRight (trimLeft cs)

theorem trimLeft_eq_self {cs : List Char} (h : ∀ c, cs.head? = some c → isBlank c = false) :
    trimLeft cs = cs := by
  cases cs with
  | nil => rfl
  | cons c cs => simp [trimLeft, h c rfl]

theorem trimRight_eq_self {cs : List Char} (h : ∀ c, cs.getLast? = some c → isBlank c = false) :
    trimRight cs = cs := by
  have : trimLeft cs.reverse = cs.reverse := trimLeft_eq_self (by simpa using h)
  simpa [trimRight, trimLeft] using congrArg List.reverse this

theorem strip_eq_self {cs : List Char} (hl : ∀ c, cs.head? = some c → isBlank c = false)
    (hr : ∀ c, cs.getLast? = some c → isBlank c = false) : strip cs = cs := by
  rw [strip, trimLeft_eq_self hl, trimRight_eq_self hr]

theorem trimLeft_append {before rest : List Char} (h : ∀ c ∈ before, isBlank c) :
    trimLeft (before ++ rest) = trimLeft rest :=
  List.dropWhile_append_of_pos h

theorem trimRight_append {rest after : List Char} (h : ∀ c ∈ after, isBlank c) :
    trimRight (rest ++ after) = trimRight rest := by
  have hreverse : ∀ c ∈ after.reverse, isBlank c := fun c hc => h c (List.mem_reverse.1 hc)
  rw [trimRight, List.reverse_append, List.dropWhile_append_of_pos hreverse, trimRight]

theorem strip_around {before cs after : List Char} (hbefore : ∀ c ∈ before, isBlank c)
    (hafter : ∀ c ∈ after, isBlank c) (hhead : ∃ c, cs.head? = some c ∧ isBlank c = false)
    (hlast : ∃ c, cs.getLast? = some c ∧ isBlank c = false) :
    strip (before ++ (cs ++ after)) = cs := by
  obtain ⟨first, hfirst, hopens⟩ := hhead
  obtain ⟨last, hend, hcloses⟩ := hlast
  have hleft : trimLeft (cs ++ after) = cs ++ after := by
    refine trimLeft_eq_self fun c hc => ?_
    rw [List.head?_append, hfirst] at hc
    rwa [← Option.some.inj hc]
  have hright : trimRight cs = cs := by
    refine trimRight_eq_self fun c hc => ?_
    rwa [← Option.some.inj (hend.symm.trans hc)]
  rw [strip, trimLeft_append hbefore, hleft, trimRight_append hafter, hright]

theorem mem_trimLeft {cs : List Char} {c : Char} (h : c ∈ cs) (hc : isBlank c = false) :
    c ∈ trimLeft cs := by
  rw [← List.takeWhile_append_dropWhile (p := isBlank) (l := cs)] at h
  refine (List.mem_append.1 h).resolve_left fun hmem => ?_
  rw [List.all_eq_true.1 List.all_takeWhile c hmem] at hc
  cases hc

theorem mem_strip {cs : List Char} {c : Char} (h : c ∈ cs) (hc : isBlank c = false) :
    c ∈ strip cs := by
  have hreverse : c ∈ (trimLeft cs).reverse := List.mem_reverse.2 (mem_trimLeft h hc)
  exact List.mem_reverse.2 (mem_trimLeft hreverse hc)

theorem strip_eq_nil_iff {cs : List Char} : strip cs = [] ↔ ∀ c ∈ cs, isBlank c := by
  constructor
  · intro h c hc
    cases hblank : isBlank c with
    | true => rfl
    | false =>
      have hmem := mem_strip hc hblank
      rw [h] at hmem
      cases hmem
  · intro h
    have hleft : trimLeft (cs ++ []) = trimLeft [] := trimLeft_append h
    rw [strip, ← List.append_nil cs, hleft]
    rfl

def stripText (s : String) : String := String.ofList (strip s.toList)

end Variability.Text
