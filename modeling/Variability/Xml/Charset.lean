import Variability.Xml.Charset.Shifted
import Variability.Xml.Charset.UpperHalf

/-!
Character sets that a document may declare, and what its bytes stand for in them. Of the sets with
characters of several bytes only the ASCII characters are read.
-/

set_option autoImplicit false

namespace Variability.Xml

inductive Charset where
  | unicode
  | latin
  | ascii
  /-- ASCII, and a text with the characters of the bytes from 128 on -/
  | halves (upper : String)
  /-- several bytes may make a character; some ASCII characters are replaced, others refused -/
  | wide (replaced : List (Char × Char)) (refused : List Char)
  /-- runs of digits of base 64 stand for the characters beyond ASCII -/
  | shifted
  | quads
  deriving DecidableEq, Repr

namespace Charset

def unicodeNames : List String := ["UTF-8", "UTF8"]

def asciiNames : List String := [
  "US-ASCII", "ASCII", "ISO646-US", "ISO-IR-6", "ANSI_X3.4-1968", "ANSI_X3.4-1986", "CP367",
  "IBM367", "US", "CSASCII"]

def latinNames : List String := [
  "ISO-8859-1", "ISO_8859-1", "ISO8859-1", "ISO-LATIN-1", "ISO-IR-100", "CP819", "IBM819", "LATIN1",
  "L1", "CSISOLATIN1"]

def wideNames : List String := [
  "EUC-JP", "EUCJP", "CSEUCPKDFMTJAPANESE", "CP932", "GB2312", "EUC-CN", "EUCCN", "CN-GB",
  "CSGB2312", "GBK", "CP936", "MS936", "WINDOWS-936", "GB18030", "BIG5", "BIG-5", "BIG-FIVE",
  "BIGFIVE", "CN-BIG5", "CSBIG5", "CP950", "BIG5-HKSCS", "BIG5HKSCS", "EUC-TW", "EUCTW", "CSEUCTW",
  "EUC-KR", "EUCKR", "CSEUCKR", "CP949", "UHC"]

def japaneseNames : List String := [
  "SHIFT_JIS", "SHIFT-JIS", "SJIS", "MS_KANJI", "CSSHIFTJIS"]

def shiftedNames : List String := ["UTF-7", "UNICODE-1-1-UTF-7", "CSUNICODE11UTF7"]

def quadNames : List String := [
  "UCS-4", "UCS4", "ISO-10646-UCS-4", "CSUCS4", "UCS-4BE", "UCS-4LE", "UTF-32", "UTF-32BE",
  "UTF-32LE"]

def switching : List (List String × List Char) := [
  (["ISO-2022-JP", "CSISO2022JP", "ISO-2022-JP-1", "ISO-2022-JP-2", "CSISO2022JP2", "ISO-2022-KR",
    "CSISO2022KR", "ISO-2022-CN", "CSISO2022CN", "ISO-2022-CN-EXT"], ['\x0e', '\x0f', '\x1b']),
  (["HZ", "HZ-GB-2312"], ['~'])]

def ofName? (name : String) : Option Charset :=
  let name := name.toUpper
  if unicodeNames.contains name then some .unicode
  else if asciiNames.contains name then some .ascii
  else if latinNames.contains name then some .latin
  else if shiftedNames.contains name then some .shifted
  else if quadNames.contains name then some .quads
  else if wideNames.contains name then some (.wide [] [])
  else if japaneseNames.contains name then some (.wide [('\\', '¥'), ('~', '‾')] [])
  else if name = "JOHAB" ∨ name = "CP1361" then some (.wide [('\\', '₩')] [])
  else
    match switching.find? (·.1.contains name) with
    | some (_, refused) => some (.wide [] refused)
    | none => (upperHalves.find? (·.1.contains name)).map fun (_, half) => .halves (String.join half)

def charOfByte (upper : Array Char) (byte : UInt8) : Option Char :=
  if byte < 128 then some (Char.ofNat byte.toNat)
  else
    match upper[byte.toNat - 128]? with
    | some '\ufffd' | none => none
    | some c => some c

def wideChar (replaced : List (Char × Char)) (refused : List Char) (c : Char) : Option Char :=
  if 128 ≤ c.toNat ∨ c ∈ refused then none else some ((replaced.lookup c).getD c)

def decode (s : Charset) (text : List Char) : Option (List Char) :=
  match s with
  | .unicode => some text
  | .ascii => if text.all (·.toNat < 128) then some text else none
  | .latin => some ((text.flatMap String.utf8EncodeChar).map fun b => Char.ofNat b.toNat)
  | .halves upper => (text.flatMap String.utf8EncodeChar).mapM (charOfByte upper.toList.toArray)
  | .wide replaced refused => text.mapM (wideChar replaced refused)
  | .shifted => Shifted.decode text
  | .quads => if text = [] then some [] else none

example : decode .latin "é".toList = some "Ã©".toList := by decide +kernel
example : decode .ascii "é".toList = none := by decide +kernel

end Charset
end Variability.Xml
