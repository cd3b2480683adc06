import Mathlib.Data.List.DropRight

/-!
# Media types

`mime.ParseMediaType`, without the parameters it returns: these are read for the errors in them.
-/
namespace Skit.Lib.MediaType

/-- `unicode.IsSpace`. -/
def isSpace (c : Char) : Bool :=
  (9 ≤ c.toNat && c.toNat ≤ 13) || (0x2000 ≤ c.toNat && c.toNat ≤ 0x200A) ||
    [0x20, 0x85, 0xA0, 0x1680, 0x2028, 0x2029, 0x202F, 0x205F, 0x3000].contains c.toNat

def trimLeft (cs : List Char) : List Char := cs.dropWhile isSpace

def trimSpace (cs : List Char) : List Char := (trimLeft cs).rdropWhile isSpace

/-- `unicode.ToLower` up to letters that no token has: two letters that are not ASCII go to one
that is, the capital i with a dot and the Kelvin sign. -/
def toLower (c : Char) : Char :=
  if 'A' ≤ c ∧ c ≤ 'Z' then Char.ofNat (c.toNat + 32)
  else if c.toNat = 0x130 then 'i'
  else if c.toNat = 0x212A then 'k'
  else c

def isTSpecial (c : Char) : Bool :=
  ['(', ')', '<', '>', '@', ',', ';', ':', '\\', '"', '/', '[', ']', '?', '='].contains c

def isTokenChar (c : Char) : Bool := 0x20 < c.toNat && c.toNat < 0x7F && !isTSpecial c

def consumeToken (cs : List Char) : List Char × List Char :=
  (cs.takeWhile isTokenChar, cs.dropWhile isTokenChar)

/-- A quoted string after its opening quote. A backslash escapes special characters only. -/
def consumeQuoted : List Char → Option (List Char × List Char)
  | [] => none
  | [c] => if c = '"' then some ([], []) else none
  | c :: d :: cs =>
    if c = '"' then some ([], d :: cs)
    else if c = '\\' ∧ isTSpecial d then (consumeQuoted cs).map fun r => (d :: r.1, r.2)
    else if c = '\r' ∨ c = '\n' then none
    else (consumeQuoted (d :: cs)).map fun r => (c :: r.1, r.2)

def consumeValue (cs : List Char) : List Char × List Char :=
  if cs.head? = some '"' then (consumeQuoted cs.tail).getD ([], cs) else consumeToken cs

/-- A semicolon, a name, an equals sign and a value, with what follows them. -/
def consumeMediaParam (cs : List Char) : Option (List Char × List Char × List Char) :=
  if (trimLeft cs).head? ≠ some ';' then none
  else
    let (param, rest) := consumeToken (trimLeft (trimLeft cs).tail)
    if param = [] ∨ (trimLeft rest).head? ≠ some '=' then none
    else
      let rest := trimLeft (trimLeft rest).tail
      let (value, rest') := consumeValue rest
      if value = [] ∧ rest' = rest then none else some (param.map toLower, value, rest')

/-- `checkMediaTypeDisposition`: one token, or two with a slash between them. -/
def checkMediaType (cs : List Char) : Bool :=
  let (typ, rest) := consumeToken cs
  if typ = [] then false
  else if rest = [] then true
  else if rest.head? ≠ some '/' then false
  else
    let (subtype, rest) := consumeToken rest.tail
    subtype ≠ [] && rest = []

/-- The loop over the parameters: whether they are read without an error. A name may be there
again with the same value. The number bounds the rounds. -/
def checkParams : Nat → List (List Char × List Char) → List Char → Bool
  | 0, _, cs => trimLeft cs = []
  | n + 1, params, cs =>
    if trimLeft cs = [] then true
    else
      match consumeMediaParam (trimLeft cs) with
      | none => trimSpace (trimLeft cs) = [';']
      | some (key, value, rest) =>
        if (params.lookup key).any (· ≠ value) then false
        else checkParams n ((key, value) :: params) rest

/-- The media type in lower case. -/
def parseMediaType (cs : List Char) : Option (List Char) :=
  let base := cs.takeWhile (· ≠ ';')
  let mediatype := trimSpace (base.map toLower)
  if checkMediaType mediatype ∧ checkParams cs.length [] (cs.drop base.length) then some mediatype
  else none

end Skit.Lib.MediaType
