/-!
# Failures

Every operation that can fail answers a `Failure`: its cause with what is known about it.
`Failure.message` is the only place where a cause is put into words.
-/

namespace ClientBuild

/-- The cause of a failure. -/
inductive Failure where
  | schemaUnavailable (url reason : String)
  | io (path reason : String)
  | serialization (reason : String)
  | unbalancedBraces (position : Nat)
  | missingServiceBlock
  | template (reason : String)
  | format (reason : String)
  | config (reason : String)
  | invalidArgument (reason : String)
  /-- A number was to be written with more decimal places than there can be. -/
  | tooManyPlaces (places : Nat)
deriving DecidableEq, Repr, Inhabited

namespace Failure

/-- The wording of a failure. -/
def message : Failure → String
  | schemaUnavailable url reason => s!"schema endpoint unavailable ({url}): {reason}"
  | io path reason => s!"I/O error on {path}: {reason}"
  | serialization reason => s!"Serialization error: {reason}"
  | unbalancedBraces position =>
    s!"Unmatched braces in the template (scan started at byte {position})"
  | missingServiceBlock => "Service type declaration not found in generated text"
  | template reason => s!"Template error: {reason}"
  | format reason => s!"Format error: {reason}"
  | config reason => s!"Configuration error: {reason}"
  | invalidArgument reason => s!"Invalid argument: {reason}"
  | tooManyPlaces places => s!"Cannot write a number with {places} decimal places"

/-- A generated text without a closing brace or without its service block: no input should lead
there. -/
def isInvariantViolation : Failure → Bool
  | unbalancedBraces _ | missingServiceBlock => true
  | _ => false

end Failure

end ClientBuild
