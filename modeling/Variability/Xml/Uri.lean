import Variability.Xml.Reference

/-!
The texts that name namespaces: URI references, absolute ones with a scheme in front and relative
ones without. Readers take what they can from the front of a text and give the rest.
-/

set_option autoImplicit false

namespace Variability.Xml.Uri

def isPlain (c : Char) : Bool := c.isAlphanum || "-._~!$&'()*+,;=".toList.contains c

def skipPart (p : Char → Bool) : List Char → List Char
  | '%' :: a :: b :: cs =>
    if (digit? 16 a).isSome ∧ (digit? 16 b).isSome then skipPart p cs else '%' :: a :: b :: cs
  | c :: cs => if p c then skipPart p cs else c :: cs
  | [] => []

def isPathChar (c : Char) : Bool := isPlain c || c = ':' || c = '@'

def skipSegments : Nat → List Char → List Char
  | fuel + 1, '/' :: cs => skipSegments fuel (skipPart isPathChar cs)
  | _, cs => cs

def skipPath (cs : List Char) : List Char := skipSegments cs.length (skipPart isPathChar cs)

/-- A number up to 259 at the front of a text, as it stands between the points of an address. -/
def skipOctet : List Char → Option (List Char)
  | a :: cs =>
    if !a.isDigit then none
    else
      match cs.takeWhile Char.isDigit with
      | [] => some cs
      | [_] => if a = '0' then none else some (cs.drop 1)
      | b :: _ => if a = '1' ∨ a = '2' ∧ b ≤ '5' then some (cs.drop 2) else none
  | [] => none

def skipAddress (cs : List Char) : Option (List Char) := do
  let cs ← skipOctet cs
  let cs ← point cs
  let cs ← skipOctet cs
  let cs ← point cs
  let cs ← skipOctet cs
  let cs ← point cs
  skipOctet cs
where
  point : List Char → Option (List Char)
    | '.' :: cs => some cs
    | _ => none

def skipHost : List Char → Option (List Char)
  | '[' :: cs =>
    match cs.dropWhile (· ≠ ']') with
    | _ :: rest => some rest
    | [] => none
  | cs => some ((skipAddress cs).getD (skipPart isPlain cs))

def portLimit : Nat := 2147483647

def skipPort : List Char → Option (List Char)
  | ':' :: cs =>
    let digits := cs.takeWhile Char.isDigit
    let port := (codePoint? 10 digits).getD (portLimit + 1)
    if port ≤ portLimit then some (cs.dropWhile Char.isDigit) else none
  | cs => some cs

def skipAuthority (cs : List Char) : Option (List Char) := do
  let host := match skipPart (fun c => isPlain c || c = ':') cs with
    | '@' :: rest => rest
    | _ => cs
  skipPort (← skipHost host)

def skipHierarchy : List Char → Option (List Char)
  | '/' :: '/' :: cs => do
    let rest ← skipAuthority cs
    return skipSegments rest.length rest
  | cs => some (skipPath cs)

def isQueryChar (c : Char) : Bool := isPathChar c || c = '/' || c = '?'

def isFragmentChar (c : Char) : Bool := isQueryChar c || c = '[' || c = ']'

def isEnd (cs : List Char) : Bool :=
  let cs := match cs with
    | '?' :: rest => skipPart isQueryChar rest
    | cs => cs
  match cs with
  | [] => true
  | '#' :: rest => skipPart isFragmentChar rest = []
  | _ => false

def afterScheme? : List Char → Option (List Char)
  | c :: cs =>
    if c.isAlpha then
      match cs.dropWhile fun x => x.isAlphanum || x = '+' || x = '-' || x = '.' with
      | ':' :: rest => some rest
      | _ => none
    else none
  | [] => none

def isAbsolute (cs : List Char) : Bool :=
  match (afterScheme? cs).bind skipHierarchy with
  | some rest => isEnd rest
  | none => false

/-- The first segment of a relative reference may not hold a colon. -/
def isRelative (cs : List Char) : Bool :=
  match cs with
  | '/' :: _ =>
    match skipHierarchy cs with
    | some rest => isEnd rest
    | none => false
  | _ =>
    let rest := skipPart (fun c => isPlain c || c = '@') cs
    isEnd (skipSegments rest.length rest)

def isReference (cs : List Char) : Bool := isAbsolute cs || isRelative cs

example : isAbsolute "http://u@h:80/a%20b?q#[f]".toList := by decide +kernel
example : isReference "http://h:/".toList = false := by decide +kernel
example : isReference "a_b:c".toList = false := by decide +kernel

end Variability.Xml.Uri
