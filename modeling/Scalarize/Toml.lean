/-!
# Switches in TOML

A TOML document whose entries are all booleans under undotted keys outside of any table. Each line
holds at most one entry and may end in a comment.

* `Toml.isCommentChar`, `Toml.isBareChar`, `Toml.isBlank` : the character classes;
* `Toml.key?` : a bare or quoted key; `Toml.bool?` : a boolean; `Toml.rest?` : blanks and a comment;
* `Toml.line?` : one line; `Toml.switches?` : a document, or `none` if it holds anything else.
-/

namespace Scalarize.Toml

/-! ## Characters -/

/-- Blanks within a line. -/
def isBlank (c : Char) : Bool := c == ' ' || c == '\t'

/-- Characters of a bare key. -/
def isBareChar (c : Char) : Bool := c.isAlphanum || c == '_' || c == '-'

/-- Characters of a comment: all but the control characters, tabs allowed. -/
def isCommentChar (c : Char) : Bool := c == '\t' || (' ' ≤ c && c != '\x7f')

/-- Drops leading blanks. -/
def skip (cs : List Char) : List Char := cs.dropWhile isBlank

/-- Value of a hexadecimal digit. -/
def hexDigit? (c : Char) : Option Nat :=
  if c.isDigit then some (c.toNat - '0'.toNat)
  else if 'a' ≤ c && c ≤ 'f' then some (c.toNat - 'a'.toNat + 10)
  else if 'A' ≤ c && c ≤ 'F' then some (c.toNat - 'A'.toNat + 10)
  else none

/-- Value of hexadecimal digits, high digit first. -/
def hex? (cs : List Char) : Option Nat :=
  cs.foldlM (fun n c => (hexDigit? c).map (16 * n + ·)) 0

/-- The character that exactly `n` hexadecimal digits name, and what follows them. -/
def codePoint? (n : Nat) (cs : List Char) : Option (Char × List Char) := do
  if cs.length < n then none
  let code ← hex? (cs.take n)
  if code.isValidChar then return (Char.ofNat code, cs.drop n) else none

/-- The character that an escape stands for, given what follows the backslash. -/
def escape? : List Char → Option (Char × List Char)
  | 'b' :: cs => some ('\x08', cs)
  | 't' :: cs => some ('\t', cs)
  | 'n' :: cs => some ('\n', cs)
  | 'f' :: cs => some ('\x0c', cs)
  | 'r' :: cs => some ('\r', cs)
  | '"' :: cs => some ('"', cs)
  | '\\' :: cs => some ('\\', cs)
  | 'u' :: cs => codePoint? 4 cs
  | 'U' :: cs => codePoint? 8 cs
  | _ => none

/-! ## Keys and values -/

/-- Text up to the closing double quote, escapes resolved; every character spends fuel. -/
def quoted? : Nat → List Char → Option (List Char × List Char)
  | 0, _ => none
  | _ + 1, [] => none
  | fuel + 1, c :: cs =>
    if c = '"' then some ([], cs)
    else do
      let (c, cs) ← if c = '\\' then escape? cs else if isCommentChar c then some (c, cs) else none
      let (key, cs) ← quoted? fuel cs
      return (c :: key, cs)

/-- Text up to the closing single quote. -/
def literal? : List Char → Option (List Char × List Char)
  | [] => none
  | c :: cs =>
    if c = '\'' then some ([], cs)
    else if isCommentChar c then (literal? cs).map fun (key, cs) => (c :: key, cs)
    else none

/-- A key: bare, in double quotes or in single quotes. -/
def key? : List Char → Option (String × List Char)
  | '"' :: cs => (quoted? (cs.length + 1) cs).map fun (key, cs) => (String.ofList key, cs)
  | '\'' :: cs => (literal? cs).map fun (key, cs) => (String.ofList key, cs)
  | cs =>
    match cs.takeWhile isBareChar with
    | [] => none
    | key => some (String.ofList key, cs.dropWhile isBareChar)

/-- A boolean. -/
def bool? : List Char → Option (Bool × List Char)
  | 't' :: 'r' :: 'u' :: 'e' :: cs => some (true, cs)
  | 'f' :: 'a' :: 'l' :: 's' :: 'e' :: cs => some (false, cs)
  | _ => none

/-- What may follow an entry: blanks and a comment. -/
def rest? (cs : List Char) : Option Unit :=
  match skip cs with
  | [] => some ()
  | '#' :: cs => if cs.all isCommentChar then some () else none
  | _ => none

/-! ## Lines and documents -/

/-- One line without its line break: an entry, or nothing but a comment. -/
def line? (cs : List Char) : Option (Option (String × Bool)) :=
  match skip cs with
  | [] => some none
  | '#' :: cs => (rest? ('#' :: cs)).map fun _ => none
  | cs => do
    let (key, cs) ← key? cs
    let '=' :: cs := skip cs | none
    let (value, cs) ← bool? (skip cs)
    rest? cs
    return some (key, value)

/-- The lines of a text. A line break is a line feed, with or without a carriage return in front. -/
def lines : List Char → List (List Char)
  | [] => [[]]
  | '\r' :: '\n' :: cs => [] :: lines cs
  | '\n' :: cs => [] :: lines cs
  | c :: cs =>
    match lines cs with
    | l :: ls => (c :: l) :: ls
    | [] => [[c]]

/-- The entries of a document, in order; a mark of the byte order in front of it is skipped. -/
def switches? (text : String) : Option (List (String × Bool)) := do
  let cs := match text.toList with
    | '\ufeff' :: cs => cs
    | cs => cs
  return (← (lines cs).mapM line?).filterMap id

end Scalarize.Toml
