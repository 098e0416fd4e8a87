import Variability.Disk.Basic

/-!
What a command needs of its surroundings, and surroundings that consist of a disk and the messages
told. The operations of a session are those of its disk.
-/

set_option autoImplicit false

namespace Variability

class Host (m : Type → Type) where
  tell : Message → m Unit
  working : m String
  isFile : String → m Bool
  isFolder : String → m Bool
  read : String → m (Except FileError String)
  write : String → String → m (Except FileError Unit)
  /-- the files below a folder, each by the names that lead to it, in the order of a walk -/
  filesBelow : String → m (List (List String))
  makeTemporary : String → m String
  makeFolder : String → m Unit
  remove : String → m Unit

structure Session where
  disk : Disk
  working : String
  temporary : String
  told : List Message := []
  deriving DecidableEq, Repr

namespace Session

def log (s : Session) : List Message := s.told.reverse

def temporaryName (n : Nat) (ending : String) : String := "tmp" ++ toString n ++ ending

def freshFolder (s : Session) (ending : String) : String :=
  let path (n : Nat) := Path.join s.temporary (temporaryName n ending)
  let isFree (n : Nat) : Bool :=
    match (s.disk.locate s.working (path n)).map s.disk.node? with
    | .ok none => true
    | _ => false
  path (((List.range (s.disk.entries.length + 1)).find? isFree).getD 0)

end Session

instance : Host (StateM Session) where
  tell message := modify fun s => { s with told := message :: s.told }
  working := return (← get).working
  isFile path := return (← get).disk.isFile (← get).working path
  isFolder path := return (← get).disk.isFolder (← get).working path
  read path := return (← get).disk.read (← get).working path
  write path text := do
    match (← get).disk.write (← get).working path text with
    | .ok d =>
      modify fun s => { s with disk := d }
      return .ok ()
    | .error e => return .error e
  filesBelow path := return (← get).disk.filesBelow (← get).working path
  makeTemporary ending := do
    let path := (← get).freshFolder ending
    modify fun s => { s with disk := s.disk.makeFolder s.working path }
    return path
  makeFolder path := modify fun s => { s with disk := s.disk.makeFolder s.working path }
  remove path := modify fun s => { s with disk := s.disk.remove s.working path }

end Variability
