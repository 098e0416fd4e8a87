import Variability.Analysis.Task
import Variability.CommandLine.Parser

set_option autoImplicit false

namespace Variability

variable {m : Type → Type} [Monad m] [Host m] [ParserStack]

inductive Ending where
  | exit (code : Nat)
  | failure (cause : Failure)
  deriving DecidableEq, Repr

/-- A setting that cannot be used is told; other failures are left to the caller. -/
def Ending.ofResult : Except Failure Unit → m Ending
  | .ok () => return .exit 0
  | .error (.setUp cause) => do
    Host.tell (.setUp cause.message)
    return .exit 1
  | .error cause => return .failure cause

def Ending.refuse (message : Message) : m Ending := do
  Host.tell message
  return .exit 1

def Ending.ofRefusal : Refusal → Ending
  | .usage => .exit 2
  | .help | .version => .exit 0
  | .allKindsOfOneFile | .tooFewThreads => .exit 1
  | .valueless => .failure .valueless

def Options.run (o : Options) : m Ending := do
  let working ← Host.working
  match o.single with
  | some (input, output) =>
    let input := Path.absolute working input
    let output := Path.absolute working output
    if ← Host.isFile input then Ending.ofResult (← runOne o o.kind (.single input output))
    else Ending.refuse (.missingInput input)
  | none =>
    if o.list = "" then Ending.refuse .noInputGiven
    else
      let list := Path.absolute working o.list
      if ← Host.isFile list then
        Ending.ofResult (← runKinds o list (if o.allKinds then Setting.members.map .value else [o.kind]))
      else Ending.refuse (.missingInput list)

def runCommand (args : List String) : m Ending := do
  match CommandLine.parse args with
  | .error refusal =>
    tellAll refusal.messages
    return .ofRefusal refusal
  | .ok o => o.run

end Variability
