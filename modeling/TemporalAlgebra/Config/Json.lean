import TemporalAlgebra.Binary.Hex
import TemporalAlgebra.Config.Basic

/-!
# Configurations in JSON

A configuration is an object with an optional member for every choice, or an array of the choices in
order. All choices are natural numbers of 64 bits, and the seed may be null. Members with other
names, repeated members and other values are refused.
-/
namespace TemporalAlgebra

/-- A JSON value, as far as a configuration can hold it. -/
inductive Document where
  | null
  | natural (n : Nat)
  | array (items : List Document)
  | object (members : List (String × Document))

namespace Document

def skipSpace (cs : List Char) : List Char :=
  cs.dropWhile fun c => c == ' ' || c == '\t' || c == '\n' || c == '\r'

/-- The character that one letter after a backslash stands for. -/
def escape? : Char → Option Char
  | '"' => some '"'
  | '\\' => some '\\'
  | '/' => some '/'
  | 'b' => some '\x08'
  | 'f' => some '\x0c'
  | 'n' => some '\n'
  | 'r' => some '\r'
  | 't' => some '\t'
  | _ => none

/-- The character of a code in hexadecimal; halves of characters are refused. -/
def character? (digits : List Char) : Option Char := do
  let values ← digits.mapM fun c => Binary.hexValue? c.toNat
  let code := values.foldl (fun n d => n * 16 + d) 0
  if code.isValidChar then some (Char.ofNat code) else none

/-- Read the characters up to a quotation mark. -/
def readName : List Char → Option (List Char × List Char)
  | '"' :: rest => some ([], rest)
  | '\\' :: 'u' :: a :: b :: c :: d :: rest => do
    let x ← character? [a, b, c, d]
    let (name, rest) ← readName rest
    return (x :: name, rest)
  | '\\' :: c :: rest => do
    let x ← escape? c
    let (name, rest) ← readName rest
    return (x :: name, rest)
  | c :: rest => do
    if c < ' ' then none
    let (name, rest) ← readName rest
    return (c :: name, rest)
  | [] => none

/-- Read a natural number without leading zeros. -/
def readNatural (cs : List Char) : Option (Nat × List Char) :=
  match cs.takeWhile Char.isDigit with
  | [] => none
  | '0' :: _ :: _ => none
  | digits =>
    some (digits.foldl (fun n d => n * 10 + (d.toNat - 48)) 0, cs.dropWhile Char.isDigit)

mutual

/-- Read a value; `fuel` bounds the length of the text. -/
def readValue (fuel : Nat) (cs : List Char) : Option (Document × List Char) :=
  match fuel, skipSpace cs with
  | 0, _ => none
  | fuel + 1, '[' :: rest =>
    match skipSpace rest with
    | ']' :: rest => some (.array [], rest)
    | _ => (readItems fuel rest).map fun (items, rest) => (.array items, rest)
  | fuel + 1, '\x7b' :: rest =>
    match skipSpace rest with
    | '\x7d' :: rest => some (.object [], rest)
    | _ => (readMembers fuel rest).map fun (members, rest) => (.object members, rest)
  | _ + 1, 'n' :: 'u' :: 'l' :: 'l' :: rest => some (.null, rest)
  | _ + 1, cs => (readNatural cs).map fun (n, rest) => (.natural n, rest)

/-- Read the items of an array, at least one, up to the closing bracket. -/
def readItems (fuel : Nat) (cs : List Char) : Option (List Document × List Char) :=
  match fuel with
  | 0 => none
  | fuel + 1 => do
    let (item, rest) ← readValue fuel cs
    match skipSpace rest with
    | ',' :: rest =>
      let (items, rest) ← readItems fuel rest
      return (item :: items, rest)
    | ']' :: rest => return ([item], rest)
    | _ => none

/-- Read the members of an object, at least one, up to the closing brace. -/
def readMembers (fuel : Nat) (cs : List Char) : Option (List (String × Document) × List Char) :=
  match fuel, skipSpace cs with
  | fuel + 1, '"' :: rest => do
    let (name, rest) ← readName rest
    let (':' :: rest) := skipSpace rest | none
    let (value, rest) ← readValue fuel rest
    let member := (String.ofList name, value)
    match skipSpace rest with
    | ',' :: rest =>
      let (members, rest) ← readMembers fuel rest
      return (member :: members, rest)
    | '\x7d' :: rest => return ([member], rest)
    | _ => none
  | _, _ => none

end

/-- Read a value that takes up the whole text. -/
def parse? (text : String) : Option Document := do
  let cs := text.toList
  let (value, rest) ← readValue (cs.length + 1) cs
  if (skipSpace rest).isEmpty then return value else none

def natural? : Document → Option Nat
  | natural n => if n < 2 ^ 64 then some n else none
  | _ => none

/-- The natural number of a value, or null. -/
def seed? : Document → Option (Option Nat)
  | null => some none
  | value => value.natural?.map some

/-- The members of an object by name, or the items of an array in the order of the names; each one
may be absent. Other names, repeated names and more items are refused. -/
def members? (names : List String) : Document → Option (List (Option Document))
  | object members =>
    let found := members.map Prod.fst
    if found.all names.contains && found.eraseDups.length == found.length then
      some (names.map fun name => members.lookup name)
    else none
  | array items =>
    if items.length ≤ names.length then
      some (items.map some ++ List.replicate (names.length - items.length) none)
    else none
  | _ => none

/-- What an optional value stands for; an absent one stands for the default. -/
def orDefault {α : Type} (read : Document → Option α) (usual : α) : Option Document → Option α
  | some value => read value
  | none => some usual

def skipListNames : List String := ["max_level", "initial_capacity", "seed"]

/-- Names of the choices for growing sequences, in order. -/
def appendNames : List String := ["initial_maxcount", "growth_factor"]

def configNames : List String := ["float_digits", "skiplist", "append"]

/-- The choices for skip lists that a value holds. -/
def skipList? (value : Document) : Option SkipListConfig := do
  let usual : SkipListConfig := {}
  let [level, capacity, seed] ← value.members? skipListNames | none
  return {
    maxLevel := ← orDefault natural? usual.maxLevel level
    initialCapacity := ← orDefault natural? usual.initialCapacity capacity
    seed := ← orDefault seed? usual.seed seed }

/-- The choices for growing sequences that a value holds. -/
def append? (value : Document) : Option AppendConfig := do
  let usual : AppendConfig := {}
  let [maxcount, factor] ← value.members? appendNames | none
  return {
    initialMaxcount := ← orDefault natural? usual.initialMaxcount maxcount
    growthFactor := ← orDefault natural? usual.growthFactor factor }

/-- The configuration that a value holds, not yet validated. -/
def config? (value : Document) : Option Config := do
  let usual : Config := {}
  let [places, list, append] ← value.members? configNames | none
  return {
    floatDigits := ← orDefault natural? usual.floatDigits places
    skipList := ← orDefault skipList? usual.skipList list
    append := ← orDefault append? usual.append append }

end Document

namespace Config

/-- Why a text is refused as a configuration. -/
inductive TextFault where
  /-- The text is no JSON, or not that of a configuration. -/
  | malformed
  | invalid (fault : Fault)
deriving DecidableEq, Repr

/-- Read a configuration and validate it. -/
def ofJson (text : String) : Except TextFault Config :=
  match (Document.parse? text).bind Document.config? with
  | none => .error .malformed
  | some c => c.validate.mapError .invalid

/-- Text of an object that stands behind an indentation: its members on lines of their own. -/
def objectText (indent : String) (members : List (String × String)) : String :=
  let line (member : String × String) : String :=
    indent ++ "  \"" ++ member.1 ++ "\": " ++ member.2
  "\x7b\n" ++ ",\n".intercalate (members.map line) ++ "\n" ++ indent ++ "\x7d"

def toJson (c : Config) : String :=
  let seed := (c.skipList.seed.map Decimal.ofNat).getD "null"
  let list := objectText "  " (Document.skipListNames.zip
    [Decimal.ofNat c.skipList.maxLevel, Decimal.ofNat c.skipList.initialCapacity, seed])
  let append := objectText "  " (Document.appendNames.zip
    [Decimal.ofNat c.append.initialMaxcount, Decimal.ofNat c.append.growthFactor])
  objectText "" (Document.configNames.zip [Decimal.ofNat c.floatDigits, list, append])

end Config

end TemporalAlgebra
