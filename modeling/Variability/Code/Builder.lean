import Variability.Condition
import Variability.Code.SourceFile
import Variability.Message

/-!
The block structure of a file from its landmarks in document order. A branch stays open until the
next directive of its chain.
-/

set_option autoImplicit false

namespace Variability.Code

inductive Fault where
  | illFormed
  | undecodable
  | unloadable
  /-- an element outside all namespaces -/
  | unqualified
  | badLine
  /-- another node than an element where the text of a directive is expected -/
  | textless
  | overlong
  | unbalanced (line : Int)
  deriving DecidableEq, Repr

def unbalancedText (line : Int) : String :=
  "Ifdef and endif do not match! (line " ++ toString line ++ ")"

/-- What matters of a document, in the order in which it is met. A directive is met at its end. -/
inductive Landmark where
  | functionStart (name : String) (line : Int)
  | functionEnd (lineFeeds : Nat)
  | directive (directive : Directive) (line : Int) (text : Except Fault String)
  | broken (fault : Fault)

structure OpenBranch where
  block : Block
  /-- the own conditions of its chain up to this branch -/
  conditions : List (Option Formula)
  siblings : Forest
  deriving Repr

structure OpenFunction where
  name : String
  lineStart : Int
  lineEnd : Int
  presence : Option Formula
  deriving Repr

/-- The state between two landmarks: the finished blocks of the innermost level, the open branches
and functions, innermost first, all functions and what was told so far. -/
structure Builder where
  finished : Forest := .nil
  branches : List OpenBranch := []
  functions : List OpenFunction := []
  openFunctions : List Nat := []
  messages : List Message := []
  deriving Repr

namespace Builder

def presence (b : Builder) : Option Formula :=
  match b.branches with
  | [] => some .tru
  | o :: _ => o.block.presence

/-- The condition under which a branch is compiled: that of the enclosing block, the earlier
branches denied, and its own. -/
def branchPresence (around : Option Formula) (earlier : List (Option Formula))
    (own : Option Formula) : Formula :=
  Formula.conjunction
    (around :: ((earlier.filterMap id).map fun f => some f.negate) ++ [own])

def openBranch (b : Builder) (branch : Branch) (line : Int) (c : Condition)
    (earlier : List (Option Formula)) : Builder :=
  let owner := b.openFunctions.head?
  let around := b.branches.head?.bind fun o => o.block.owner
  let block : Block := {
    branch
    condition := c.formula?
    presence := some (branchPresence b.presence earlier c.formula?)
    lineStart := line
    lineEnd := line
    owner
    leads := owner.isSome && around ≠ owner }
  { b with
    finished := .nil
    branches := ⟨block, earlier ++ [c.formula?], b.finished⟩ :: b.branches
    messages := match c with
      | .unreadable signature column => b.messages ++ [.unreadableCondition signature column]
      | .exhausted signature => b.messages ++ [.exhaustedCondition signature]
      | _ => b.messages }

/-- Ends the innermost open branch; gives the own conditions of its chain. -/
def closeBranch (b : Builder) (line : Int) : Except Fault (List (Option Formula) × Builder) :=
  match b.branches with
  | [] => .error (.unbalanced line)
  | o :: rest =>
    .ok (o.conditions, { b with
      finished := o.siblings.snoc { o.block with lineEnd := line } b.finished
      branches := rest })

variable [ParserStack]

def conditionOf (d : Directive) (text : String) : Except Fault Condition :=
  match Condition.ofDirective d text with
  | .overlong => .error .overlong
  | c => .ok c

def continueChain (b : Builder) (d : Directive) (branch : Branch) (line : Int)
    (text : Except Fault String) : Except Fault Builder := do
  let (earlier, b) ← b.closeBranch line
  let c ← conditionOf d (← text)
  return b.openBranch branch line c earlier

def step (b : Builder) : Landmark → Except Fault Builder
  | .broken fault => .error fault
  | .functionStart name line =>
    .ok { b with
      functions := b.functions ++ [⟨name, line, line, b.presence⟩]
      openFunctions := b.functions.length :: b.openFunctions }
  | .functionEnd lineFeeds =>
    match b.openFunctions with
    | [] => .ok b
    | i :: rest =>
      .ok { b with
        functions := b.functions.modify i fun f => { f with lineEnd := f.lineStart + lineFeeds }
        openFunctions := rest }
  | .directive .elif line text => b.continueChain .elif .further line text
  | .directive .otherwise line text => b.continueChain .otherwise .last line text
  | .directive .endif line _ => (b.closeBranch line).map (·.2)
  | .directive d line text => do
    let c ← conditionOf d (← text)
    return b.openBranch .first line c []

def run : Builder → List Landmark → Builder × Option Fault
  | b, [] => (b, none)
  | b, m :: ms =>
    match b.step m with
    | .ok b => run b ms
    | .error fault => (b, some fault)

theorem run_append (b : Builder) (ms ns : List Landmark) :
    b.run (ms ++ ns) =
      match b.run ms with
      | (b, none) => b.run ns
      | (b, some fault) => (b, some fault) := by
  induction ms generalizing b with
  | nil => rfl
  | cons m ms ih =>
    simp only [List.cons_append, run]
    cases b.step m with
    | ok b => exact ih b
    | error fault => rfl

/-- The functions with the blocks they own. -/
def ownedFunctions (functions : List OpenFunction) (blocks : Forest) : List Function :=
  functions.mapIdx fun i f => {
    name := f.name
    lineStart := f.lineStart
    lineEnd := f.lineEnd
    presence := f.presence
    children := blocks.pick fun b => b.owner = some i && b.leads
    blocks := blocks.walk.filter fun b => b.owner = some i }

end Builder

structure Reading (α : Type) where
  messages : List Message
  result : Except Fault α

variable [ParserStack]

def assemble (path sourcePath : String) (landmarks : List Landmark) : Reading SourceFile :=
  match Builder.run {} landmarks with
  | (b, some fault) => ⟨b.messages, .error fault⟩
  | (b, none) =>
    match b.branches with
    | o :: _ => ⟨b.messages, .error (.unbalanced o.block.lineStart)⟩
    | [] =>
      ⟨b.messages, .ok ⟨path, sourcePath, b.finished, Builder.ownedFunctions b.functions b.finished⟩⟩

end Variability.Code
