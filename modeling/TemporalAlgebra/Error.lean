/-!
# Errors

The causes for which an operation is refused, their codes and texts, and the outcome of an
operation that may be refused. A refusal remembers how often it was reported on its way out;
`reportsOf` lists these reports.
-/
namespace TemporalAlgebra

/-- Why an operation is refused. All causes but the division carry their own text. -/
inductive Error where
  | internal (text : String)
  | outOfRange (text : String)
  | divisionByZero
  | memoryAlloc (text : String)
  | aggregation (text : String)
  | invalidArg (text : String)
  | invalidArgType (text : String)
  | invalidArgValue (text : String)
  | featureNotSupported (text : String)
  | textInput (text : String)
  | binaryInput (text : String)
  | binaryOutput (text : String)
deriving DecidableEq, Repr

/-- The whole text of an error: its family, then its own text. -/
def Error.message : Error → String
  | internal text => "Internal error: " ++ text
  | outOfRange text => "Value out of range: " ++ text
  | divisionByZero => "Division by zero"
  | memoryAlloc text => "Memory allocation failed: " ++ text
  | aggregation text => "Aggregation error: " ++ text
  | invalidArg text => "Invalid argument: " ++ text
  | invalidArgType text => "Invalid argument type: " ++ text
  | invalidArgValue text => "Invalid argument value: " ++ text
  | featureNotSupported text => "Feature not supported: " ++ text
  | textInput text => "Invalid text input: " ++ text
  | binaryInput text => "Invalid WKB input: " ++ text
  | binaryOutput text => "WKB output error: " ++ text

/-- The families of errors, in the numbering that is kept stable. -/
inductive ErrorCode where
  | success
  | internalError
  | internalTypeError
  | valueOutOfRange
  | divisionByZero
  | memoryAllocError
  | aggregationError
  | invalidArg
  | invalidArgType
  | invalidArgValue
  | featureNotSupported
  | textInput
  | textOutput
  | binaryInput
  | binaryOutput
deriving DecidableEq, Repr

def ErrorCode.number : ErrorCode → Nat
  | success => 0
  | internalError => 1
  | internalTypeError => 2
  | valueOutOfRange => 3
  | divisionByZero => 4
  | memoryAllocError => 5
  | aggregationError => 6
  | invalidArg => 10
  | invalidArgType => 11
  | invalidArgValue => 12
  | featureNotSupported => 13
  | textInput => 22
  | textOutput => 23
  | binaryInput => 24
  | binaryOutput => 25

/-- Name of a code. The binary forms are named after well-known binary. -/
def ErrorCode.name : ErrorCode → String
  | success => "Success"
  | internalError => "InternalError"
  | internalTypeError => "InternalTypeError"
  | valueOutOfRange => "ValueOutOfRange"
  | divisionByZero => "DivisionByZero"
  | memoryAllocError => "MemoryAllocError"
  | aggregationError => "AggregationError"
  | invalidArg => "InvalidArg"
  | invalidArgType => "InvalidArgType"
  | invalidArgValue => "InvalidArgValue"
  | featureNotSupported => "FeatureNotSupported"
  | textInput => "TextInput"
  | textOutput => "TextOutput"
  | binaryInput => "WkbInput"
  | binaryOutput => "WkbOutput"

def Error.name : Error → String
  | internal _ => "Internal"
  | outOfRange _ => "OutOfRange"
  | divisionByZero => "DivisionByZero"
  | memoryAlloc _ => "MemoryAlloc"
  | aggregation _ => "Aggregation"
  | invalidArg _ => "InvalidArg"
  | invalidArgType _ => "InvalidArgType"
  | invalidArgValue _ => "InvalidArgValue"
  | featureNotSupported _ => "FeatureNotSupported"
  | textInput _ => "TextInput"
  | binaryInput _ => "WkbInput"
  | binaryOutput _ => "WkbOutput"

/-- The error of a named cause with its own text, which a division has not. -/
def Error.ofName? (text name : String) : Option Error :=
  [internal text, outOfRange text, divisionByZero, memoryAlloc text, aggregation text,
    invalidArg text, invalidArgType text, invalidArgValue text, featureNotSupported text,
    textInput text, binaryInput text, binaryOutput text].find? fun e => e.name == name

/-- The family of an error. -/
def Error.code : Error → ErrorCode
  | internal _ => .internalError
  | outOfRange _ => .valueOutOfRange
  | divisionByZero => .divisionByZero
  | memoryAlloc _ => .memoryAllocError
  | aggregation _ => .aggregationError
  | invalidArg _ => .invalidArg
  | invalidArgType _ => .invalidArgType
  | invalidArgValue _ => .invalidArgValue
  | featureNotSupported _ => .featureNotSupported
  | textInput _ => .textInput
  | binaryInput _ => .binaryInput
  | binaryOutput _ => .binaryOutput

/-- How an operation ends without a value. -/
inductive Failure where
  /-- Refused for `cause`, which was reported `reports` times on the way out. -/
  | refused (cause : Error) (reports : Nat)
  /-- Given up with neither value nor error: a text was to be cut inside a character, a
  timestamp left the calendar while its offset was applied, microseconds left 64 bits, or a loop
  stood still. -/
  | aborted
deriving DecidableEq, Repr

/-- The outcome of an operation that may be refused. -/
abbrev Result (α : Type) := Except Failure α

def refuse {α : Type} (cause : Error) : Result α :=
  .error (.refused cause 0)

/-- A failure whose error is reported once more. -/
def Failure.again : Failure → Failure
  | refused cause reports => refused cause (reports + 1)
  | aborted => aborted

/-- Report the error of an outcome once more on its way out. -/
def reported {α : Type} : Result α → Result α
  | .error f => .error f.again
  | outcome => outcome

/-- Refuse with `cause` unless `condition` holds. -/
def require (condition : Bool) (cause : Error) : Result Unit :=
  if condition then .ok () else refuse cause

/-- The value of an optional outcome, or a refusal. -/
def orRefuse {α : Type} (found : Option α) (cause : Error) : Result α :=
  match found with
  | some a => .ok a
  | none => refuse cause

/-- The value of an optional outcome; without one the operation gives up. -/
def orAbort {α : Type} (found : Option α) : Result α :=
  match found with
  | some a => .ok a
  | none => .error .aborted

def withCause {α : Type} (change : Error → Error) : Result α → Result α
  | .error (.refused cause reports) => .error (.refused (change cause) reports)
  | outcome => outcome

/-- The errors that an outcome has reported, first one first. -/
def reportsOf {α : Type} : Result α → List Error
  | .error (.refused cause reports) => List.replicate reports cause
  | _ => []

@[simp] theorem reported_ok {α : Type} (a : α) : reported (.ok a : Result α) = .ok a := rfl

@[simp] theorem reported_eq_ok {α : Type} {r : Result α} {a : α} :
    reported r = .ok a ↔ r = .ok a := by
  cases r <;> simp [reported]

end TemporalAlgebra
