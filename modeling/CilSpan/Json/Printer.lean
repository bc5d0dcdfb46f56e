import CilSpan.Json.Value
import CilSpan.Text

namespace CilSpan.Json

/-- One character of a string. Only quote, backslash and the controls below U+0020 are escaped. -/
def escapedChar (c : Char) : List Char :=
  if c = '"' then ['\\', '"']
  else if c = '\\' then ['\\', '\\']
  else if c = '\x08' then ['\\', 'b']
  else if c = '\x0c' then ['\\', 'f']
  else if c = '\n' then ['\\', 'n']
  else if c = '\r' then ['\\', 'r']
  else if c = '\t' then ['\\', 't']
  else if c.toNat < 0x20 then ['\\', 'u'] ++ (Text.hex4 c.toNat).toList
  else [c]

def stringText (s : String) : List Char := '"' :: s.toList.flatMap escapedChar ++ ['"']

def atomText : Json → List Char
  | .bool true => ['t', 'r', 'u', 'e']
  | .bool false => ['f', 'a', 'l', 's', 'e']
  | .int n => (Text.ofInt n).toList
  | .decimal text => text.toList
  | .str s => stringText s
  | _ => ['n', 'u', 'l', 'l']

mutual

def compactText : Json → List Char
  | .arr [] => ['[', ']']
  | .arr (j :: js) => '[' :: j.compactText ++ compactItems js
  | .obj [] => ['\x7b', '\x7d']
  | .obj (m :: ms) => '\x7b' :: compactMember m ++ compactMembers ms
  | j => j.atomText
termination_by structural j => j

def compactItems : List Json → List Char
  | [] => [']']
  | j :: js => ',' :: j.compactText ++ compactItems js
termination_by structural js => js

def compactMembers : List (String × Json) → List Char
  | [] => ['\x7d']
  | m :: ms => ',' :: compactMember m ++ compactMembers ms
termination_by structural ms => ms

def compactMember : String × Json → List Char
  | (key, j) => stringText key ++ ':' :: j.compactText
termination_by structural m => m

end

def compact (j : Json) : String := String.ofList j.compactText

def newLine (level : Nat) : List Char := '\n' :: List.replicate (2 * level) ' '

mutual

def prettyText (level : Nat) : Json → List Char
  | .arr [] => ['[', ']']
  | .arr (j :: js) =>
    '[' :: newLine (level + 1) ++ prettyText (level + 1) j ++ prettyItems level js
  | .obj [] => ['\x7b', '\x7d']
  | .obj (m :: ms) =>
    '\x7b' :: newLine (level + 1) ++ prettyMember (level + 1) m ++ prettyMembers level ms
  | j => j.atomText
termination_by structural j => j

def prettyItems (level : Nat) : List Json → List Char
  | [] => newLine level ++ [']']
  | j :: js => ',' :: newLine (level + 1) ++ prettyText (level + 1) j ++ prettyItems level js
termination_by structural js => js

def prettyMembers (level : Nat) : List (String × Json) → List Char
  | [] => newLine level ++ ['\x7d']
  | m :: ms => ',' :: newLine (level + 1) ++ prettyMember (level + 1) m ++ prettyMembers level ms
termination_by structural ms => ms

def prettyMember (level : Nat) : String × Json → List Char
  | (key, j) => stringText key ++ ':' :: ' ' :: prettyText level j
termination_by structural m => m

end

def pretty (j : Json) : String := String.ofList (prettyText 0 j)

end CilSpan.Json
