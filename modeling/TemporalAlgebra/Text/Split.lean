import TemporalAlgebra.Text.Blank

/-!
# Cutting texts

Texts are cut at a separator, at a count of bytes, and at the commas outside brackets and quotes.
A count of bytes that falls inside a character gives up.
-/
namespace TemporalAlgebra.Text

/-- The parts of a text before and after the first `separator`. -/
def splitOnce (separator : Char) : List Char → Option (List Char × List Char)
  | [] => none
  | c :: rest =>
    if c == separator then some ([], rest)
    else (splitOnce separator rest).map fun (before, after) => (c :: before, after)

/-- The parts of a text before and after the last `separator`. -/
def splitLast (separator : Char) (cs : List Char) : Option (List Char × List Char) :=
  (splitOnce separator cs.reverse).map fun (after, before) => (before.reverse, after.reverse)

/-- The parts of a text between separators. -/
def splitAll (separator : Char) : List Char → List (List Char)
  | [] => [[]]
  | c :: rest =>
    match splitAll separator rest with
    | [] => [[c]]
    | part :: parts => if c == separator then [] :: part :: parts else (c :: part) :: parts

/-- The text between an opening and a closing character. -/
def unwrap (opening closing : Char) (cs : List Char) : Option (List Char) :=
  match cs with
  | c :: rest =>
    if c == opening then
      match rest.reverse with
      | d :: inner => if d == closing then some inner.reverse else none
      | [] => none
    else none
  | [] => none

def dropStart : List Char → List Char → Option (List Char)
  | [], cs => some cs
  | s :: start, c :: cs => if s == c then dropStart start cs else none
  | _ :: _, [] => none

def byteLength (cs : List Char) : Nat := cs.foldr (fun c n => c.utf8Size + n) 0

/-- What a cut after a count of bytes meets. -/
inductive Cut where
  /-- The text has fewer bytes. -/
  | short
  /-- The cut falls inside a character. -/
  | inside
  | between (head tail : List Char)
deriving DecidableEq, Repr

/-- Cut a text after `n` bytes. -/
def cutAt : Nat → List Char → Cut
  | 0, cs => .between [] cs
  | _ + 1, [] => .short
  | n + 1, c :: rest =>
    if c.utf8Size ≤ n + 1 then
      match cutAt (n + 1 - c.utf8Size) rest with
      | .between head tail => .between (c :: head) tail
      | other => other
    else .inside

/-- The text after `word`, which is compared over its bytes and without regard to the case of
ASCII letters; nothing if the text starts otherwise. -/
def dropWord (word : String) (cs : List Char) : Result (Option (List Char)) :=
  match cutAt word.utf8ByteSize cs with
  | .short => .ok none
  | .inside => .error .aborted
  | .between head tail =>
    .ok (if head.map Char.toLower == word.toList.map Char.toLower then some tail else none)

/-- The text inside one pair of braces; `what` names the whole in the refusal. -/
def stripBraces (what : String) (cs : List Char) : Result (List Char) :=
  orRefuse (unwrap '\x7b' '\x7d' (trim cs))
    (.textInput ("Could not parse " ++ what ++ " '" ++ String.ofList cs ++ "'"))

/-- Where a reader stands between the brackets and quotes of a text. -/
structure Nesting where
  depth : Nat := 0
  quoted : Bool := false
  escaped : Bool := false
deriving DecidableEq, Repr

def isOpening (c : Char) : Bool := c == '[' || c == '(' || c == '\x7b'

def isClosing (c : Char) : Bool := c == ']' || c == ')' || c == '\x7d'

/-- The nesting after one more character; none when a bracket closes that was not open. -/
def Nesting.step (place : Nesting) (c : Char) : Option Nesting :=
  if place.quoted then
    if place.escaped then some { place with escaped := false }
    else if c == '\\' then some { place with escaped := true }
    else if c == '"' then some { place with quoted := false }
    else some place
  else if c == '"' then some { place with quoted := true }
  else if isOpening c then some { place with depth := place.depth + 1 }
  else if isClosing c then
    if place.depth = 0 then none else some { place with depth := place.depth - 1 }
  else some place

/-- Whether a comma would end a part here. -/
def Nesting.atTop (place : Nesting) : Bool := !place.quoted && place.depth == 0

/-- How the parts of a text come apart. -/
inductive Parting where
  /-- A bracket closes that was not open. -/
  | unopened
  /-- A bracket or a quote is left open at the end. -/
  | unclosed
  | parts (found : List (List Char))
deriving DecidableEq, Repr

/-- Put one character in front of the first part. -/
def Parting.push (c : Char) : Parting → Parting
  | .parts [] => .parts [[c]]
  | .parts (part :: found) => .parts ((c :: part) :: found)
  | other => other

def Parting.cut : Parting → Parting
  | .parts found => .parts ([] :: found)
  | other => other

/-- Part a text at its top level commas. -/
def partFrom (place : Nesting) : List Char → Parting
  | [] => if place.atTop then .parts [[]] else .unclosed
  | c :: rest =>
    if c == ',' && place.atTop then (partFrom place rest).cut
    else
      match place.step c with
      | none => .unopened
      | some next => (partFrom next rest).push c

/-- The parts of a text between the commas outside brackets and double quotes, without white space
at their ends. -/
def splitTopLevel (cs : List Char) : Result (List (List Char)) :=
  let text := String.ofList cs
  match partFrom {} cs with
  | .unopened => refuse (.textInput ("Unbalanced brackets in '" ++ text ++ "'"))
  | .unclosed => refuse (.textInput ("Unbalanced brackets or quotes in '" ++ text ++ "'"))
  | .parts found =>
    let trimmed := found.map trim
    if trimmed.any List.isEmpty then refuse (.textInput ("Empty element in '" ++ text ++ "'"))
    else .ok trimmed

end TemporalAlgebra.Text
