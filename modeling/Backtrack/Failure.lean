/-!
# Hard failures

A hard failure says that the input was already committed to and turned out malformed. It is a cause, not a text: the
wording stands in `Failure.message` alone.
-/

namespace Backtrack

/-- An error of the grammar author's own, carried by a failure. -/
inductive Payload where
  /-- A numbered error with the chain of numbered errors that caused it, nearest first. -/
  | tagged (tag : Int64) (causes : List Int64)
  | other (text : String)
deriving DecidableEq, Inhabited

/-- The text of the numbered error `tag`. -/
def Payload.taggedMessage (tag : Int64) : String :=
  "tagged failure " ++ toString tag.toInt

/-- The text shown for a payload. -/
def Payload.message : Payload → String
  | .tagged tag _ => taggedMessage tag
  | .other text => "other failure: " ++ text

/-- The texts of the errors behind a payload, nearest first. -/
def Payload.sources : Payload → List String
  | .tagged _ causes => causes.map taggedMessage
  | .other _ => []

/-- Why a parse stopped for good. -/
inductive Failure where
  /-- The input went on in an unexpected way after a committed part. -/
  | unexpected
  /-- A rule was invoked that has no definition, or no longer exists. -/
  | unboundRecursion
  | note (text : String)
  | custom (payload : Payload)
deriving DecidableEq, Inhabited

namespace Failure

/-- The text shown for a failure; a payload speaks for itself. -/
def message : Failure → String
  | .unexpected => "unexpected input after a committed prefix"
  | .unboundRecursion => "recursive rule invoked without a definition"
  | .note text => text
  | .custom payload => payload.message

/-- The texts of the causes of a failure, nearest first; a payload stands for the failure that carries it, so only the
causes of the payload count. -/
def sources : Failure → List String
  | .custom payload => payload.sources
  | _ => []

/-- The number of a tagged payload. -/
def tag? : Failure → Option Int64
  | .custom (.tagged tag _) => some tag
  | _ => none

/-- The text of a payload of the other kind. -/
def other? : Failure → Option String
  | .custom (.other text) => some text
  | _ => none

end Failure

/-- Why a rule could not be given a definition. -/
inductive BindError where
  | alreadyDefined
  | dropped
deriving DecidableEq, Inhabited

/-- The text shown for a refused definition. -/
def BindError.message : BindError → String
  | .alreadyDefined => "recursive rule is already defined"
  | .dropped => "recursive rule no longer exists"

end Backtrack
