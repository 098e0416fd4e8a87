/-!
Texts in which a plus sign begins a run of digits of base 64. The bits of a run make units of
sixteen bits; two units of the surrogate range make one character.
-/

set_option autoImplicit false

namespace Variability.Xml.Charset.Shifted

def isDirect (c : Char) : Bool :=
  (' ' ≤ c ∧ c ≤ '}' ∧ c ≠ '+' ∧ c ≠ '\\') ∨ c = '\t' ∨ c = '\n' ∨ c = '\r'

def digit? (c : Char) : Option Nat :=
  if c.isUpper then some (c.toNat - 65)
  else if c.isLower then some (c.toNat - 71)
  else if c.isDigit then some (c.toNat + 4)
  else if c = '+' then some 62
  else if c = '/' then some 63
  else none

/-- The units of a run of digits, after `count` bits with the value `pending`. What is left over in
the end has to be zero and a part of the last digit. -/
def units (pending count : Nat) : List Nat → Option (List Nat)
  | [] => if count < 6 ∧ pending = 0 then some [] else none
  | d :: ds =>
    let value := pending * 64 + d
    let left := count + 6 - 16
    if 16 ≤ count + 6 then (units (value % Nat.pow 2 left) left ds).map (value / Nat.pow 2 left :: ·)
    else units value (count + 6) ds

def chars : List Nat → Option (List Char)
  | [] => some []
  | u :: us =>
    if u.isValidChar then (chars us).map (Char.ofNat u :: ·)
    else
      match us with
      | v :: us =>
        if u < 0xDC00 ∧ 0xDC00 ≤ v ∧ v < 0xE000 then
          (chars us).map (Char.ofNat (0x10000 + (u - 0xD800) * 0x400 + (v - 0xDC00)) :: ·)
        else none
      | [] => none

/-- The text that a text stands for. `fuel` is as large as its length. A plus sign is written with a
hyphen behind it; a hyphen behind a run belongs to the run. -/
def decodeWithin : Nat → List Char → Option (List Char)
  | _, [] => some []
  | 0, _ => none
  | fuel + 1, c :: cs =>
    if isDirect c then (decodeWithin fuel cs).map (c :: ·)
    else if c = '+' then
      match cs with
      | '-' :: cs => (decodeWithin fuel cs).map ('+' :: ·)
      | _ => do
        let run ← (units 0 0 ((cs.takeWhile fun c => (digit? c).isSome).filterMap digit?)).bind chars
        let rest := cs.dropWhile fun c => (digit? c).isSome
        let rest := if rest.head? = some '-' then rest.drop 1 else rest
        return run ++ (← decodeWithin fuel rest)
    else none

def decode (cs : List Char) : Option (List Char) := decodeWithin cs.length cs

example : decode "a+AOk-b+2D3eAA-+-".toList = some "aéb😀+".toList := by decide +kernel
example : decode "+AO".toList = none := by decide +kernel

end Variability.Xml.Charset.Shifted
