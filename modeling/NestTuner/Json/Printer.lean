import NestTuner.Json.Basic

/-!
JSON text, on one line or spread over lines. Quotes, backslashes and control characters are
escaped, everything else stands for itself.
-/

namespace NestTuner.Json

def hexDigit (n : Nat) : Char :=
  if n < 10 then Char.ofNat ('0'.toNat + n) else Char.ofNat ('a'.toNat + n - 10)

/-- A character inside a string literal. -/
def escape (c : Char) : List Char :=
  if c == '"' then ['\\', '"']
  else if c == '\\' then ['\\', '\\']
  else if c == '\x08' then ['\\', 'b']
  else if c == '\x0c' then ['\\', 'f']
  else if c == '\n' then ['\\', 'n']
  else if c == '\r' then ['\\', 'r']
  else if c == '\t' then ['\\', 't']
  else if c.toNat < 32 then
    ['\\', 'u', '0', '0', hexDigit (c.toNat / 16), hexDigit (c.toNat % 16)]
  else [c]

def quote (s : String) : String :=
  "\"" ++ String.ofList (s.toList.flatMap escape) ++ "\""

mutual

/-- Text without blanks. -/
def compact : Json → String
  | .null => "null"
  | .bool b => if b then "true" else "false"
  | .number n => n.text
  | .string s => quote s
  | .array items => "[" ++ ",".intercalate (compactItems items) ++ "]"
  | .object members => "\x7b" ++ ",".intercalate (compactMembers members) ++ "\x7d"

def compactItems : List Json → List String
  | [] => []
  | v :: rest => compact v :: compactItems rest

def compactMembers : List (String × Json) → List String
  | [] => []
  | (name, v) :: rest => (quote name ++ ":" ++ compact v) :: compactMembers rest

end

/-- Two blanks for each level. -/
def margin (level : Nat) : String :=
  String.ofList (List.replicate (2 * level) ' ')

/-- Entries on lines of their own, one level in from the brackets; nothing between brackets that
hold no entry. -/
def spread (level : Nat) (opening closing : String) : List String → String
  | [] => opening ++ closing
  | entries =>
    opening ++ "\n" ++ ",\n".intercalate (entries.map (margin (level + 1) ++ ·)) ++ "\n"
      ++ margin level ++ closing

mutual

/-- Text over several lines, at a level of nesting. -/
def prettyAt : Nat → Json → String
  | _, .null => "null"
  | _, .bool b => if b then "true" else "false"
  | _, .number n => n.text
  | _, .string s => quote s
  | level, .array items => spread level "[" "]" (prettyItems (level + 1) items)
  | level, .object members => spread level "\x7b" "\x7d" (prettyMembers (level + 1) members)

def prettyItems : Nat → List Json → List String
  | _, [] => []
  | level, v :: rest => prettyAt level v :: prettyItems level rest

def prettyMembers : Nat → List (String × Json) → List String
  | _, [] => []
  | level, (name, v) :: rest =>
    (quote name ++ ": " ++ prettyAt level v) :: prettyMembers level rest

end

/-- Text over several lines. -/
def pretty (v : Json) : String :=
  prettyAt 0 v

end NestTuner.Json
