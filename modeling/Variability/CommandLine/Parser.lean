import Variability.CommandLine.Argument
import Variability.CommandLine.Options
import Variability.Number.Integer

set_option autoImplicit false

namespace Variability.CommandLine

structure Use where
  switch : Switch
  short : Bool
  attached : Option (List Char)
  values : List String
  deriving DecidableEq, Repr

structure Line where
  uses : List Use
  leading : List String
  hasStrays : Bool
  deriving DecidableEq, Repr

def Line.ofWords : List Word → Line
  | [] => ⟨[], [], false⟩
  | .value text :: words =>
    let l := ofWords words
    { l with leading := text :: l.leading }
  | .separator :: words | .unknown :: words =>
    let l := ofWords words
    ⟨l.uses, [], true⟩
  | .option switch short attached :: words =>
    let l := ofWords words
    ⟨⟨switch, short, attached, l.leading⟩ :: l.uses, [], l.hasStrays⟩

structure Choice where
  options : Options := {}
  /-- the options that have been given a value of their own -/
  given : List Switch := []
  hasStrays : Bool := false
  deriving DecidableEq, Repr

def rivals : Switch → List Switch
  | .kind => [.all]
  | .all => [.kind]
  | .list => [.single]
  | .single => [.list]
  | _ => []

def Choice.give (c : Choice) (switch : Switch) : Except Refusal Choice :=
  if c.given.any (· ∈ rivals switch) then .error .usage
  else .ok { c with given := switch :: c.given }

def required {α : Type} : Option α → Except Refusal α
  | some a => .ok a
  | none => .error .usage

def memberOf (α : Type) [Setting α] (text : String) : Except Refusal α :=
  required (Setting.find? α text)

def integer (text : String) : Except Refusal Int := required (Number.readInteger text)

def oneOrZero (n : Int) : Except Refusal Bool :=
  if n = 0 ∨ n = 1 then .ok (n = 1) else .error .usage

def single {α : Type} (read : String → Except Refusal α) : List String → Except Refusal (Given α)
  | [] => .ok .nothing
  | [text] => (read text).map .value
  | _ => .error .usage

def assign (o : Options) : Switch → List String → Except Refusal Options
  | .help, _ => .error .help
  | .version, _ => .error .version
  | .all, _ => .ok { o with allKinds := true }
  | .relative, _ => .ok { o with relative := true }
  | .list, [] => .ok { o with list := defaultList }
  | .list, [path] => .ok { o with list := path }
  | .single, [input, output] => .ok { o with single := some (input, output) }
  | .kind, texts => do return { o with kind := ← single (memberOf Kind) texts }
  | .scope, texts => do return { o with scope := ← single (memberOf Scope) texts }
  | .unit, texts => do return { o with unit := ← single (memberOf BlockUnit) texts }
  | .dependence, texts => do return { o with dependence := ← single (memberOf Dependence) texts }
  | .model, texts => do return { o with model := ← single (.ok ∘ some) texts }
  | .cache, texts => do return { o with cache := ← single (.ok ∘ some) texts }
  | .threads, texts => do return { o with threads := ← single integer texts }
  | .naming, texts => do
    return { o with bySource := ← single (fun text => do oneOrZero (← integer text)) texts }
  | _, _ => .error .usage

/-- Chooses one value; the list without a value stays as if it were not given. -/
def Choice.take (c : Choice) (switch : Switch) (values : List String) : Except Refusal Choice := do
  let options ← match switch with
    | .help | .version => pure c.options
    | _ => assign c.options switch values
  let c ← if switch = .list ∧ values = [] then pure c else c.give switch
  match switch with
  | .help => .error .help
  | .version => .error .version
  | _ => return { c with options }

def cluster (switch : Switch) : List Char → Option (List Switch)
  | [] => some [switch]
  | c :: cs => do
    let next ← spelled? ['-', c]
    return switch :: (← cluster next cs)

/-- The values of an option with an attached text: two dashes stand for none. -/
def attachedValues (text : List Char) : List String :=
  if text = ['-', '-'] then [] else [String.ofList text]

/-- A use whose value is attached must take exactly one; otherwise it takes as many of the values
behind it as it can, and the others are strays. -/
def Choice.use (c : Choice) (u : Use) : Except Refusal Choice :=
  let (least, most) := u.switch.arity
  match u.attached with
  | some cs =>
    if most = 0 then
      match if u.short ∧ cs ≠ [] then cluster u.switch cs else none with
      | none => .error .usage
      | some switches => do
        let c ← switches.foldlM (fun c s => c.take s []) c
        return { c with hasStrays := c.hasStrays || u.values ≠ [] }
    else if 1 < least then .error .usage
    else do
      let c ← c.take u.switch (attachedValues cs)
      return { c with hasStrays := c.hasStrays || u.values ≠ [] }
  | none =>
    if u.values.length < least then .error .usage
    else do
      let c ← c.take u.switch (u.values.take most)
      return { c with hasStrays := c.hasStrays || most < u.values.length }

/-- The options that a command line chooses. Words that belong to no option are only refused in the
end. -/
def parse (texts : List String) : Except Refusal Options :=
  match classifyAll texts with
  | none => .error .usage
  | some words => do
    let l := Line.ofWords words
    let c ← l.uses.foldlM Choice.use { hasStrays := l.hasStrays || l.leading ≠ [] }
    if c.hasStrays then .error .usage
    else c.options.check

end Variability.CommandLine
