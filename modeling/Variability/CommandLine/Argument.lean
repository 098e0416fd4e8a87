import Variability.Text.Digit

set_option autoImplicit false

namespace Variability.CommandLine

inductive Switch where
  | help
  | version
  | kind
  | all
  | list
  | single
  | model
  | threads
  | naming
  | relative
  | cache
  | scope
  | unit
  | dependence
  deriving DecidableEq, Repr

def spellings : List (String × Switch) := [("-h", .help), ("--help", .help),
  ("--version", .version), ("--kind", .kind), ("-a", .all), ("--all", .all), ("--list", .list),
  ("--file", .single), ("--varmodel", .model), ("--threads", .threads), ("--filenames", .naming),
  ("--filenamesRelative", .relative), ("--sdcache", .cache), ("--vartype", .scope),
  ("--blocktype", .unit), ("--tdtype", .dependence)]

def spelled? (word : List Char) : Option Switch :=
  (spellings.find? fun (s, _) => s.toList = word).map (·.2)

def Switch.arity : Switch → Nat × Nat
  | .help | .version | .all | .relative => (0, 0)
  | .list => (0, 1)
  | .single => (2, 2)
  | _ => (1, 1)

inductive Word where
  | value (text : String)
  | separator
  | unknown
  /-- an option of one dash or two, perhaps with something attached: what stands behind an equals
  sign, or all that follows the letter of a short option -/
  | option (switch : Switch) (short : Bool) (attached : Option (List Char))
  deriving DecidableEq, Repr

def splitEquals (word : List Char) : List Char × Option (List Char) :=
  match word.dropWhile (· ≠ '=') with
  | [] => (word, none)
  | _ :: rest => (word.takeWhile (· ≠ '='), some rest)

def abbreviated (word : List Char) : List Word :=
  match word with
  | '-' :: '-' :: _ =>
    let (start, attached) := splitEquals word
    spellings.filterMap fun (s, switch) =>
      if start.isPrefixOf s.toList then some (.option switch false attached) else none
  | '-' :: c :: rest =>
    spellings.filterMap fun (s, switch) =>
      if s.toList = ['-', c] then some (.option switch true (some rest))
      else if word.isPrefixOf s.toList then some (.option switch false none)
      else none
  | _ => []

def withoutLastFeed (cs : List Char) : List Char :=
  if cs.getLast? = some '\n' then cs.dropLast else cs

def isDigits (cs : List Char) : Bool := cs.all fun c => (Text.digit? c).isSome

/-- A dash and digits, perhaps with a point before some of them. -/
def isNegativeNumber (word : List Char) : Bool :=
  match word with
  | '-' :: rest =>
    let cs := withoutLastFeed rest
    match cs.dropWhile (· ≠ '.') with
    | [] => cs ≠ [] && isDigits cs
    | _ :: places => isDigits (cs.takeWhile (· ≠ '.')) && places ≠ [] && isDigits places
  | _ => false

def isShort (word : List Char) : Bool :=
  match word with
  | '-' :: '-' :: _ => false
  | _ => true

/-- What a word is; missing if it may mean several options. -/
def classify (text : String) : Option Word :=
  match text.toList with
  | '-' :: c :: rest =>
    let word := '-' :: c :: rest
    match spelled? word with
    | some switch => some (.option switch (isShort word) none)
    | none =>
      match splitEquals word with
      | (start, some attached) =>
        match spelled? start with
        | some switch => some (.option switch (isShort start) (some attached))
        | none => unspelled word
      | (_, none) => unspelled word
  | _ => some (.value text)
where
  unspelled (word : List Char) : Option Word :=
    match abbreviated word with
    | [] => some (if isNegativeNumber word ∨ ' ' ∈ word then .value text else .unknown)
    | [w] => some w
    | _ => none

/-- All words after two dashes are values; missing if some word before is ambiguous. -/
def classifyAll : List String → Option (List Word)
  | [] => some []
  | text :: texts =>
    if text = "--" then some (.separator :: texts.map .value)
    else do
      let w ← classify text
      return w :: (← classifyAll texts)

end Variability.CommandLine
