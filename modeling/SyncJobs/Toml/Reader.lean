import SyncJobs.Toml
import SyncJobs.Json.Reader

/-!
# Reading TOML

`Toml.parse?` reads a document: lines of `key = value`, headers `[table]` and `[[tables]]`,
comments and blank lines. Every key and every table may be defined once. A table that only came
into being because a longer name was defined below it may still get a header of its own; a table
that was written with dotted keys or between braces may not. Arrays and tables between braces may
be nested 80 deep and may run over several lines.
-/

namespace SyncJobs.Toml.Reader

/-! ## Blanks and comments -/

/-- The text behind leading spaces and tabs. -/
def skipSpaces (cs : List Char) : List Char := cs.dropWhile fun c => c = ' ' || c = '\t'

/-- Whether a character may stand in a comment or in a string of one line. -/
def isPrintable (c : Char) : Bool := c = '\t' || (32 ≤ c.toNat && c.toNat ≠ 127)

/-- The text behind a comment, if there is one; the line end stays. -/
def skipComment : List Char → List Char
  | '#' :: cs => cs.dropWhile isPrintable
  | cs => cs

/-- The text behind a line end. -/
def lineEnd? : List Char → Option (List Char)
  | '\n' :: cs => some cs
  | '\r' :: '\n' :: cs => some cs
  | _ => none

/-- The text behind blanks, comments and line ends. -/
def skipLines (fuel : Nat) (cs : List Char) : List Char :=
  match fuel with
  | 0 => cs
  | fuel + 1 =>
    let cs := skipComment (skipSpaces cs)
    match lineEnd? cs with
    | some cs => skipLines fuel cs
    | none => cs

/-! ## Strings -/

/-- Reads so many hexadecimal digits as the code of a character. -/
def code? (n : Nat) (cs : List Char) : Option (Char × List Char) := do
  let ds := cs.take n
  guard (ds.length = n && ds.all (isDigitOf 16))
  let v := naturalOf 16 ds
  guard (v < 0xD800 || (0xE000 ≤ v && v < 0x110000))
  return (Char.ofNat v, cs.drop n)

/-- Reads what stands behind a backslash. -/
def escape? : List Char → Option (Char × List Char)
  | 'b' :: cs => some ('\x08', cs)
  | 't' :: cs => some ('\t', cs)
  | 'n' :: cs => some ('\n', cs)
  | 'f' :: cs => some ('\x0c', cs)
  | 'r' :: cs => some ('\r', cs)
  | 'e' :: cs => some ('\x1b', cs)
  | '"' :: cs => some ('"', cs)
  | '\\' :: cs => some ('\\', cs)
  | 'x' :: cs => code? 2 cs
  | 'u' :: cs => code? 4 cs
  | 'U' :: cs => code? 8 cs
  | _ => none

/-- Reads a string of one line up to its closing quote. -/
def basic? (fuel : Nat) (cs : List Char) : Option (List Char × List Char) :=
  match fuel, cs with
  | 0, _ => none
  | _, [] => none
  | _, '"' :: rest => some ([], rest)
  | fuel + 1, '\\' :: rest =>
    match escape? rest with
    | some (c, rest) => (basic? fuel rest).map fun (s, r) => (c :: s, r)
    | none => none
  | fuel + 1, c :: rest =>
    if isPrintable c then (basic? fuel rest).map fun (s, r) => (c :: s, r) else none

/-- Reads a literal string of one line. -/
def literal? : List Char → Option (List Char × List Char)
  | [] => none
  | '\'' :: rest => some ([], rest)
  | c :: rest =>
    if isPrintable c then (literal? rest).map fun (s, r) => (c :: s, r) else none

/-- The closing quotes of a string of several lines. Up to two quotes more belong to the string. -/
def closing? (q : Char) (cs : List Char) : Option (List Char × List Char) :=
  let n := (cs.takeWhile (· = q)).length
  if n < 3 then none
  else
    let kept := min (n - 3) 2
    some (List.replicate kept q, cs.drop (kept + 3))

/-- The text behind a backslash at the end of a line and the blanks that follow it. -/
def continuation? (cs : List Char) : Option (List Char) :=
  (lineEnd? (skipSpaces cs)).map fun rest =>
    rest.dropWhile fun c => c = ' ' || c = '\t' || c = '\n' || c = '\r'

/-- Reads a string of several lines, with escapes or literally. -/
def multiline? (escapes : Bool) (fuel : Nat) (cs : List Char) :
    Option (List Char × List Char) :=
  match fuel with
  | 0 => none
  | fuel + 1 =>
    match closing? (if escapes then '"' else '\'') cs with
    | some (s, rest) => some (s, rest)
    | none =>
      match cs with
      | [] => none
      | '\r' :: '\n' :: rest =>
        (multiline? escapes fuel rest).map fun (s, r) => ('\r' :: '\n' :: s, r)
      | '\n' :: rest => (multiline? escapes fuel rest).map fun (s, r) => ('\n' :: s, r)
      | c :: rest =>
        if c = '\\' ∧ escapes then
          match continuation? rest with
          | some rest => multiline? escapes fuel rest
          | none =>
            match escape? rest with
            | some (c, rest) => (multiline? escapes fuel rest).map fun (s, r) => (c :: s, r)
            | none => none
        else if isPrintable c then
          (multiline? escapes fuel rest).map fun (s, r) => (c :: s, r)
        else none

/-- A line end right behind the opening quotes is not part of the string. -/
def dropFirstLineEnd (cs : List Char) : List Char := (lineEnd? cs).getD cs

/-! ## Keys -/

/-- Whether a character may stand in a key without quotes. -/
def isBare (c : Char) : Bool := c.isAlphanum || c = '_' || c = '-'

/-- Reads one part of a key. -/
def keyPart? : List Char → Option (String × List Char)
  | '"' :: cs => (basic? (cs.length + 1) cs).map fun (s, r) => (String.ofList s, r)
  | '\'' :: cs => (literal? cs).map fun (s, r) => (String.ofList s, r)
  | cs =>
    let name := cs.takeWhile isBare
    if name.isEmpty then none else some (String.ofList name, cs.dropWhile isBare)

/-- Reads a key: parts with dots between them. Blanks around it are skipped. -/
def key? (fuel : Nat) (cs : List Char) : Option (List String × List Char) :=
  match fuel with
  | 0 => none
  | fuel + 1 => do
    let (part, rest) ← keyPart? (skipSpaces cs)
    match skipSpaces rest with
    | '.' :: rest =>
      let (parts, rest) ← key? fuel rest
      return (part :: parts, rest)
    | rest => return ([part], rest)

/-! ## The tables of a document -/

/-- How a table came into being. -/
inductive Origin where
  /-- by a longer name in a header -/
  | implied
  /-- by a dotted key -/
  | dotted
  /-- by its own header -/
  | header
  deriving DecidableEq

/-- What a name stands for while a document is being read. -/
inductive Node where
  | value (v : Value)
  | table (origin : Origin) (members : List (String × Node))
  /-- the tables of an array, the latest first -/
  | tables (latest : List (String × Node)) (earlier : List (List (String × Node)))

/-- Members by name. -/
abbrev Members := List (String × Node)

/-- Puts a node under a name, in place of what was there. -/
def put (name : String) (n : Node) : Members → Members
  | [] => [(name, n)]
  | (k, m) :: rest => if k = name then (name, n) :: rest else (k, m) :: put name n rest

/-- Enters a value under a dotted key. -/
def enter (v : Value) : List String → Members → Option Members
  | [], _ => none
  | [name], ms => if (ms.lookup name).isSome then none else some (ms ++ [(name, .value v)])
  | name :: path, ms =>
    match ms.lookup name with
    | none => (enter v path []).map fun sub => ms ++ [(name, .table .dotted sub)]
    | some (.table origin sub) =>
      if origin = .header then none
      else (enter v path sub).map fun sub => put name (.table origin sub) ms
    | some (.tables latest earlier) =>
      (enter v path latest).map fun sub => put name (.tables sub earlier) ms
    | some (.value _) => none

/-- Changes the members of the table that a name stands for in a header, creating it if it is
missing. -/
def within (change : Members → Option Members) : List String → Members → Option Members
  | [], ms => change ms
  | name :: path, ms =>
    match ms.lookup name with
    | none => (within change path []).map fun sub => ms ++ [(name, .table .implied sub)]
    | some (.table origin sub) =>
      (within change path sub).map fun sub => put name (.table origin sub) ms
    | some (.tables latest earlier) =>
      (within change path latest).map fun sub => put name (.tables sub earlier) ms
    | some (.value _) => none

/-- Opens a table by its own header. -/
def openTable (name : String) (ms : Members) : Option Members :=
  match ms.lookup name with
  | none => some (ms ++ [(name, .table .header [])])
  | some (.table .implied sub) => some (put name (.table .header sub) ms)
  | some _ => none

/-- Opens one more table of an array. -/
def openElement (name : String) (ms : Members) : Option Members :=
  match ms.lookup name with
  | none => some (ms ++ [(name, .tables [] [])])
  | some (.tables latest earlier) => some (put name (.tables [] (latest :: earlier)) ms)
  | some _ => none

mutual

/-- The value that a node stands for when the document is complete. -/
def Node.toValue : Node → Value
  | .value v => v
  | .table _ ms => .table (membersToValues ms)
  | .tables latest earlier =>
    .array ((tablesToValues earlier).reverse ++ [.table (membersToValues latest)])

/-- The values of the members. -/
def membersToValues : List (String × Node) → List (String × Value)
  | [] => []
  | (k, n) :: ms => (k, n.toValue) :: membersToValues ms

/-- The values of the tables of an array. -/
def tablesToValues : List (List (String × Node)) → List Value
  | [] => []
  | ms :: rest => .table (membersToValues ms) :: tablesToValues rest

end

/-! ## Values -/

/-- Whether a character may stand in a scalar without quotes. -/
def isWord (c : Char) : Bool :=
  c.isAlphanum || c = '_' || c = '-' || c = '+' || c = '.' || c = ':'

/-- Splits off a scalar. A date may be followed by a time of day behind a blank. -/
def word (cs : List Char) : List Char × List Char :=
  let first := cs.takeWhile isWord
  let rest := cs.dropWhile isWord
  match rest with
  | ' ' :: d :: more =>
    if d.isDigit && date? first = some [] then
      let second := (d :: more).takeWhile isWord
      (first ++ ' ' :: second, (d :: more).dropWhile isWord)
    else (first, rest)
  | _ => (first, rest)

mutual

/-- Reads a value. -/
def value? (fuel depth : Nat) (cs : List Char) : Option (Value × List Char) :=
  match fuel with
  | 0 => none
  | fuel + 1 =>
    match cs with
    | '"' :: '"' :: '"' :: rest =>
      (multiline? true (rest.length + 1) (dropFirstLineEnd rest)).map fun (s, r) =>
        (.string (String.ofList s), r)
    | '\'' :: '\'' :: '\'' :: rest =>
      (multiline? false (rest.length + 1) (dropFirstLineEnd rest)).map fun (s, r) =>
        (.string (String.ofList s), r)
    | '"' :: rest =>
      (basic? (rest.length + 1) rest).map fun (s, r) => (.string (String.ofList s), r)
    | '\'' :: rest => (literal? rest).map fun (s, r) => (.string (String.ofList s), r)
    | '[' :: rest =>
      if depth = 0 then none
      else (items? fuel (depth - 1) rest).map fun (vs, r) => (.array vs, r)
    | '\x7b' :: rest =>
      if depth = 0 then none
      else (members? fuel (depth - 1) [] rest).map fun (ms, r) => (.table (membersToValues ms), r)
    | cs =>
      let (w, rest) := word cs
      (scalar? w).map fun v => (v, rest)

/-- Reads the items of an array up to its closing bracket. -/
def items? (fuel depth : Nat) (cs : List Char) : Option (List Value × List Char) :=
  match fuel with
  | 0 => none
  | fuel + 1 =>
    match skipLines (cs.length + 1) cs with
    | ']' :: rest => some ([], rest)
    | cs =>
      match value? fuel depth cs with
      | none => none
      | some (v, rest) =>
        match skipLines (rest.length + 1) rest with
        | ',' :: rest => (items? fuel depth rest).map fun (vs, r) => (v :: vs, r)
        | ']' :: rest => some ([v], rest)
        | _ => none

/-- Reads the members of a table between braces. -/
def members? (fuel depth : Nat) (ms : Members) (cs : List Char) :
    Option (Members × List Char) :=
  match fuel with
  | 0 => none
  | fuel + 1 =>
    match skipLines (cs.length + 1) cs with
    | '\x7d' :: rest => some (ms, rest)
    | cs =>
      match key? (cs.length + 1) cs with
      | some (path, '=' :: rest) =>
        match value? fuel depth (skipSpaces rest) with
        | none => none
        | some (v, rest) =>
          match enter v path ms with
          | none => none
          | some ms =>
            match skipLines (rest.length + 1) rest with
            | ',' :: rest => members? fuel depth ms rest
            | '\x7d' :: rest => some (ms, rest)
            | _ => none
      | _ => none

end

/-! ## Documents -/

/-- The greatest depth of arrays and tables between braces. -/
def maxDepth : Nat := 80

/-- A document while it is being read: its members and the path of the open table. -/
structure Draft where
  root : Members
  current : List String

/-- Reads the header of a table behind its first bracket. -/
def header? (d : Draft) : List Char → Option (Draft × List Char)
  | '[' :: cs => do
    let (path, cs) ← key? (cs.length + 1) cs
    match cs with
    | ']' :: ']' :: rest =>
      let root ← within (openElement (path.getLast?.getD "")) path.dropLast d.root
      return (⟨root, path⟩, rest)
    | _ => none
  | cs => do
    let (path, cs) ← key? (cs.length + 1) cs
    match cs with
    | ']' :: rest =>
      let root ← within (openTable (path.getLast?.getD "")) path.dropLast d.root
      return (⟨root, path⟩, rest)
    | _ => none

/-- Reads a line that is not blank: a header or a key with its value. -/
def line? (d : Draft) : List Char → Option (Draft × List Char)
  | '[' :: cs => header? d cs
  | cs => do
    let (path, cs) ← key? (cs.length + 1) cs
    match cs with
    | '=' :: rest =>
      let (v, rest) ← value? (2 * rest.length + 2) maxDepth (skipSpaces rest)
      let root ← within (enter v path) d.current d.root
      return (⟨root, d.current⟩, rest)
    | _ => none

/-- Reads lines up to the end of the text. -/
def lines? (fuel : Nat) (d : Draft) (cs : List Char) : Option Draft :=
  match fuel with
  | 0 => none
  | fuel + 1 =>
    match skipLines (cs.length + 1) cs with
    | [] => some d
    | cs => do
      let (d, rest) ← line? d cs
      match skipComment (skipSpaces rest) with
      | [] => return d
      | rest =>
        let rest ← lineEnd? rest
        lines? fuel d rest

end SyncJobs.Toml.Reader

namespace SyncJobs.Toml

/-- **Reads a document.** A byte-order mark at its start is skipped. -/
def parse? (text : String) : Option Value :=
  let cs := match text.toList with
    | '\uFEFF' :: rest => rest
    | cs => cs
  (Reader.lines? (cs.length + 1) ⟨[], []⟩ cs).map fun d => .table (Reader.membersToValues d.root)

end SyncJobs.Toml
