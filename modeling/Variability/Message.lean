/-!
The lines that a run prints. The wording of every message is here.
-/

set_option autoImplicit false

namespace Variability

inductive Message where
  | unreadableCondition (signature : String) (column : Nat)
  | exhaustedCondition (signature : String)
  | unknownType (type name : String)
  | unknownWeight (name : String)
  | addedTwice (metric source line element : String)
  | malformedDegree (line : Nat) (path cells : String)
  | unreadableFile (path : String)
  | unbalancedFile (path reason : String)
  | readFile (number total : Nat) (path : String)
  | readingCache (path : String)
  | writingCache (path : String)
  | degreeStatistics (count : Nat) (ifdefMean ifdefDeviation fileMean fileDeviation : String)
  | measured (count : Nat) (things : String)
  | starting (kind project : String)
  | finished (kind project : String)
  | skippedFolder (path : String)
  | noInput
  | noInputGiven
  | missingInput (path : String)
  | allKindsOfOneFile
  | tooFewThreads
  | setUp (reason : String)
  | version
  deriving DecidableEq, Repr

def padFive (n : Nat) : String :=
  let ds := Nat.toDigits 10 n
  String.ofList (List.replicate (5 - ds.length) ' ' ++ ds)

def versionText : String := "cppmetrics v0.1.0"

namespace Message

def unreadableConditionText (signature column : String) : String :=
  "ERROR (parse): cannot parse sig (" ++ signature ++ ") -- (" ++ column ++ ")"

def render : Message → String
  | .unreadableCondition signature column => unreadableConditionText signature (toString column)
  | .exhaustedCondition signature => "ERROR (time): cannot parse sig (" ++ signature ++ ")"
  | .unknownType type name =>
    "WARNING: unknown type '" ++ type ++ "' of variable '" ++ name ++ "', using weight 1."
  | .unknownWeight name =>
    "WARNING: returning weight 0 for unknown variable '" ++ name ++ "'."
  | .addedTwice metric source line element =>
    "WARNING: value of metric '" ++ metric ++ "' at " ++ source ++ ":" ++ line ++ " (" ++ element ++
      ") added twice, keeping the last one."
  | .malformedDegree line path cells =>
    "ERROR: malformed scattering degree in line " ++ toString line ++ " of '" ++ path ++ "': " ++ cells
  | .unreadableFile path => "ERROR: cannot parse (" ++ path ++ "). Skipping this file."
  | .unbalancedFile path reason =>
    "ERROR: ifdef-endif mismatch in file (" ++ path ++ "): " ++ reason
  | .readFile number total path =>
    "INFO: parsing file (" ++ padFive number ++ ") of (" ++ padFive total ++ ") -- (" ++ path ++ ")."
  | .readingCache path => "INFO: reading scattering degrees from cache (" ++ path ++ ")."
  | .writingCache path => "INFO: writing scattering degrees to cache (" ++ path ++ ")."
  | .degreeStatistics count ifdefMean ifdefDeviation fileMean fileDeviation =>
    "INFO: " ++ toString count ++ " variables, #ifdef scattering degree: mean " ++ ifdefMean ++
      ", std " ++ ifdefDeviation ++ "; file scattering degree: mean " ++ fileMean ++ ", std " ++
      fileDeviation ++ "."
  | .measured count things => "INFO: measured " ++ toString count ++ " " ++ things ++ "."
  | .starting kind project => "# starting '" ++ kind ++ "' analysis: " ++ project
  | .finished kind project => "# finished '" ++ kind ++ "' analysis: " ++ project
  | .skippedFolder path => "WARNING: skipping '" ++ path ++ "', it is not a folder!"
  | .noInput => "ERROR: No single file or input list of projects given!"
  | .noInputGiven => "This should not happen! No input file or list of projects given!"
  | .missingInput path => "ERROR: input file '" ++ path ++ "' cannot be found!"
  | .allKindsOfOneFile =>
    "Using all kinds of analysis for a single input and output file is weird!"
  | .tooFewThreads => "ERROR: the number of threads must be positive!"
  | .setUp reason => "ERROR: " ++ reason
  | .version => versionText

end Message
end Variability
