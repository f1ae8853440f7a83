import TemporalAlgebra.Temporal.Basic

/-!
# Text of temporal values

An instant is written `value@timestamp`; instants stand between braces when they are discrete and
between the brackets of their bounds otherwise; sequences of a set stand between braces. In front
stand the reference system and the interpolation, where they are not the usual ones.
-/
namespace TemporalAlgebra

/-- Interpolation of values for which none is chosen. -/
def usualInterp (V : Type) [TemporalValue V] : Interpolation :=
  if TemporalValue.continuous V then .linear else .step

section

variable {V : Type} [TemporalValue V]

/-- Text of an instant, with at most `places` decimals. -/
def Instant.text (i : Instant V) (places : Nat) : String :=
  BaseValue.text i.value places ++ "@" ++ i.time.text

/-- Text of a sequence without what stands in front of a value. -/
def Sequence.bareText (s : Sequence V) (places : Nat) : String :=
  let body := String.intercalate ", " (s.instants.map fun i => i.text places)
  if s.isDiscrete then "\x7b" ++ body ++ "\x7d"
  else
    (if s.lowerInc then "[" else "(") ++ body ++ if s.upperInc then "]" else ")"

/-- Text of a value, with at most `places` decimals. -/
def Temporal.text (v : Temporal V) (places : Nat) : String :=
  let srid := Point.sridText (TemporalValue.context v.firstInstant.value).srid
  let interp :=
    if TemporalValue.continuous V && v.interp == .step then "Interp=Step;" else ""
  let body :=
    match v with
    | .instant i => i.text places
    | .sequence s => s.bareText places
    | .sequenceSet s =>
      "\x7b" ++ String.intercalate ", " (s.sequences.map fun x => x.bareText places) ++ "\x7d"
  srid ++ interp ++ body

/-- What may be written in front of a value. -/
structure TextOptions where
  srid : Option Integer := none
  interp : Option Interpolation := none

def readInterp (cs : List Char) : Result Interpolation :=
  let name := String.ofList (Decimal.lowerAscii (Text.trim cs))
  match name with
  | "step" => .ok .step
  | "linear" => .ok .linear
  | _ => refuse (.textInput ("Invalid interpolation '" ++ name ++ "'"))

/-- Split one option off the start of `cs`, if there is one; `input` is the whole text. -/
def TextOptions.splitOne (input : List Char) (options : TextOptions) (cs : List Char) :
    Result (Option (TextOptions × List Char)) := do
  if (← Text.dropWord "SRID=" cs).isSome then
    let (srid, rest) ← splitSrid cs
    return some ({ options with srid := srid }, rest)
  else
    match ← Text.dropWord "Interp=" cs with
    | none => return none
    | some tail =>
      let (name, rest) ← orRefuse (Text.splitOnce ';' tail)
        (.textInput ("Missing ';' after interpolation in '" ++ String.ofList input ++ "'"))
      let interp ← readInterp name
      return some ({ options with interp := some interp }, Text.trimStart rest)

/-- Split options in any order off the start of `cs`; `input` is the whole text. Every option takes
some of the text away. -/
def TextOptions.split (input : List Char) (options : TextOptions) (cs : List Char) :
    Result (TextOptions × List Char) :=
  match options.splitOne input cs with
  | .error f => .error f
  | .ok none => .ok (options, cs)
  | .ok (some (found, rest)) =>
    if rest.length < cs.length then split input found rest else .ok (found, rest)
termination_by cs.length

/-- Read an instant: a value and a timestamp, with the last `@` of the text between them. -/
def Instant.read (context : ValueContext) (cs : List Char) : Result (Instant V) := do
  let (value, time) ← orRefuse (Text.splitLast '@' cs)
    (.textInput ("Missing '@' in temporal instant '" ++ String.ofList cs ++ "'"))
  let value ← BaseValue.read context value
  let time ← Timestamp.read time
  return ⟨value, time⟩

def Instant.readAll (context : ValueContext) (cs : List Char) : Result (List (Instant V)) := do
  (← Text.splitTopLevel cs).mapM (Instant.read context)

/-- Read a continuous sequence: instants between brackets. -/
def Sequence.read (interp : Interpolation) (context : ValueContext) (cs : List Char) :
    Result (Sequence V) := do
  let cs := Text.trim cs
  let quoted := "'" ++ String.ofList cs ++ "'"
  let lowerInc ← orRefuse (cs.head?.bind Span.openingInc?)
    (.textInput ("Could not parse temporal sequence " ++ quoted))
  let upperInc ← orRefuse (cs.getLast?.bind Span.closingInc?)
    (.textInput ("Missing closing bracket in temporal sequence " ++ quoted))
  let instants ← Instant.readAll context (cs.drop 1).dropLast
  Sequence.make instants lowerInc upperInc interp true

namespace Temporal

/-- Read what stands between braces: sequences when a bracket comes first, else instants. -/
def readBraced (interp : Interpolation) (context : ValueContext) (inner : List Char) :
    Result (Temporal V) := do
  if ((Text.trimStart inner).head?.bind Span.openingInc?).isSome then
    let sequences ← (← Text.splitTopLevel inner).mapM (Sequence.read interp context)
    return sequenceSet (← SequenceSet.make sequences true)
  else
    let instants ← Instant.readAll context inner
    return sequence (← Sequence.make instants true true .discrete true)

/-- Read a value of any form. -/
def read (input : List Char) : Result (Temporal V) := do
  let (options, body) ← TextOptions.split input {} (Text.trimStart input)
  let context : ValueContext := ⟨options.srid.getD unknownSrid, false⟩
  let interp := options.interp.getD (usualInterp V)
  let body := Text.trim body
  match body with
  | [] => refuse (.textInput "Empty temporal value")
  | '\x7b' :: _ => readBraced interp context (← Text.stripBraces "temporal value" body)
  | c :: _ =>
    if (Span.openingInc? c).isSome then return sequence (← Sequence.read interp context body)
    else return instant (← Instant.read context body)

/-- Read a value from a string and report a refusal. -/
def parse (input : String) : Result (Temporal V) := reported (read input.toList)

end Temporal

end

end TemporalAlgebra
