import Variability.Delimited.Plain

set_option autoImplicit false

namespace Variability.Path

def parts (path : String) : List String :=
  (Delimited.cellsOf '/' path.toList).map String.ofList

def isAbsolute (path : String) : Bool := path.toList.head? = some '/'

def join (folder path : String) : String :=
  if isAbsolute path then path
  else if folder = "" ∨ folder.toList.getLast? = some '/' then folder ++ path
  else folder ++ "/" ++ path

/-- Two leading slashes are kept, more than two count as one. -/
def root (path : String) : String :=
  match path.toList with
  | '/' :: '/' :: '/' :: _ => "/"
  | '/' :: '/' :: _ => "//"
  | '/' :: _ => "/"
  | _ => ""

/-- Takes the next part, given those before it, the last one first. Two dots take back the part
before them if there is one; at the root they lead nowhere. -/
def addPart (absolute : Bool) (before : List String) (part : String) : List String :=
  if part = "" ∨ part = "." then before
  else if part ≠ ".." then part :: before
  else
    match before with
    | [] => if absolute then [] else [".."]
    | last :: others => if last = ".." then ".." :: before else others

def normalParts (path : String) : List String :=
  ((parts path).foldl (addPart (isAbsolute path)) []).reverse

def normalize (path : String) : String :=
  let text := root path ++ "/".intercalate (normalParts path)
  if text = "" then "." else text

def absolute (working path : String) : String := normalize (join working path)

def baseName (path : String) : String := (parts path).getLastD ""

def beside (folder name : String) : String := normalize (join (join folder "..") name)

def commonParts : List String → List String → Nat
  | p :: ps, q :: qs => if p = q then commonParts ps qs + 1 else 0
  | _, _ => 0

def relative? (working path start : String) : Option String :=
  if path = "" then none
  else
    let ps := (parts (absolute working path)).filter (· ≠ "")
    let ss := (parts (absolute working start)).filter (· ≠ "")
    let n := commonParts ss ps
    match List.replicate (ss.length - n) ".." ++ ps.drop n with
    | [] => some "."
    | way => some ("/".intercalate way)

/-- The ending of a name from its last dot on; leading dots begin no ending. -/
def ending (name : String) : String :=
  let cs := name.toList.dropWhile (· = '.')
  if '.' ∈ cs then String.ofList ('.' :: (cs.reverse.takeWhile (· ≠ '.')).reverse) else ""

theorem addPart_clean {absolute : Bool} {before : List String} {part : String}
    (h : ∀ p ∈ before, p ≠ "" ∧ p ≠ ".") : ∀ p ∈ addPart absolute before part, p ≠ "" ∧ p ≠ "." := by
  unfold addPart
  split
  · exact h
  · next hp =>
    split
    · intro p hm
      rcases List.mem_cons.1 hm with rfl | hm
      · exact ⟨fun e => hp (Or.inl e), fun e => hp (Or.inr e)⟩
      · exact h p hm
    · cases before with
      | nil => cases absolute <;> simp
      | cons last others =>
        simp only
        split
        · intro p hm
          rcases List.mem_cons.1 hm with rfl | hm
          · decide
          · exact h p hm
        · exact fun p hm => h p (List.mem_cons_of_mem _ hm)

theorem normalParts_clean (path : String) : ∀ p ∈ normalParts path, p ≠ "" ∧ p ≠ "." := by
  suffices h : ∀ (ps before : List String), (∀ p ∈ before, p ≠ "" ∧ p ≠ ".") →
      ∀ p ∈ ps.foldl (addPart (isAbsolute path)) before, p ≠ "" ∧ p ≠ "." by
    intro p hp
    exact h (parts path) [] (by simp) p (List.mem_reverse.1 hp)
  intro ps
  induction ps with
  | nil => exact fun _ h => h
  | cons part ps ih => exact fun before h => ih _ (addPart_clean h)

end Variability.Path
