import TensorCalculus.Session.Document
import TensorCalculus.Text.Visible

/-! JSON values: reading configurations and writing reports. -/
namespace TensorCalculus

inductive Json where
  | null
  | bool (value : Bool)
  /-- A number as it is written. -/
  | number (text : String)
  /-- A string, unless its escapes leave half of a surrogate pair. -/
  | string (value : Option String)
  | array (items : List Json)
  | object (members : List (Option String × Json))
deriving Inhabited

namespace Json

/-- The texts that remain after reading at least one character. -/
abbrev After (cs : List Char) := { rest : List Char // rest.length < cs.length }

def isBlank (c : Char) : Bool :=
  c == ' ' || c == '\n' || c == '\t' || c == '\r'

def skipBlanks : (cs : List Char) → { rest : List Char // rest.length ≤ cs.length }
  | [] => ⟨[], Nat.le_refl _⟩
  | c :: cs =>
    if isBlank c then
      let ⟨rest, h⟩ := skipBlanks cs
      ⟨rest, Nat.le_succ_of_le h⟩
    else ⟨c :: cs, Nat.le_refl _⟩

def nextChar? (cs : List Char) : Option (Char × After cs) :=
  match skipBlanks cs with
  | ⟨[], _⟩ => none
  | ⟨c :: rest, h⟩ => some (c, ⟨rest, Nat.lt_of_succ_le h⟩)

def hexValue? (c : Char) : Option Nat :=
  if c.isDigit then some (c.toNat - '0'.toNat)
  else if 'a' ≤ c ∧ c ≤ 'f' then some (c.toNat - 'a'.toNat + 10)
  else if 'A' ≤ c ∧ c ≤ 'F' then some (c.toNat - 'A'.toNat + 10)
  else none

def escaped? : Char → Option Nat
  | '"' => some 0x22
  | '\\' => some 0x5C
  | '/' => some 0x2F
  | 'b' => some 0x08
  | 'f' => some 0x0C
  | 'n' => some 0x0A
  | 'r' => some 0x0D
  | 't' => some 0x09
  | _ => none

/-- The code points of a string up to its closing quote, surrogates included. -/
def codePoints? (cs : List Char) : Option (List Nat × After cs) :=
  match cs with
  | '"' :: rest => some ([], ⟨rest, by simp⟩)
  | '\\' :: 'u' :: a :: b :: c :: d :: rest => do
    let n := 4096 * (← hexValue? a) + 256 * (← hexValue? b) + 16 * (← hexValue? c) + (← hexValue? d)
    let (points, ⟨rest', _⟩) ← codePoints? rest
    return (n :: points, ⟨rest', by simp only [List.length_cons]; omega⟩)
  | '\\' :: c :: rest => do
    let n ← escaped? c
    let (points, ⟨rest', _⟩) ← codePoints? rest
    return (n :: points, ⟨rest', by simp only [List.length_cons]; omega⟩)
  | c :: rest => do
    if c.toNat < 0x20 || c == '\\' then none
    let (points, ⟨rest', _⟩) ← codePoints? rest
    return (c.toNat :: points, ⟨rest', by simp only [List.length_cons]; omega⟩)
  | [] => none

/-- Join surrogate pairs. -/
def decode? : List Nat → Option (List Char)
  | [] => some []
  | n :: rest =>
    if 0xD800 ≤ n ∧ n ≤ 0xDBFF then
      match rest with
      | m :: rest =>
        if 0xDC00 ≤ m ∧ m ≤ 0xDFFF then
          (decode? rest).map (Char.ofNat (0x10000 + 1024 * (n - 0xD800) + (m - 0xDC00)) :: ·)
        else none
      | [] => none
    else if 0xDC00 ≤ n ∧ n ≤ 0xDFFF then none
    else (decode? rest).map (Char.ofNat n :: ·)

def text? (cs : List Char) : Option (Option String × After cs) := do
  let (points, rest) ← codePoints? cs
  return ((decode? points).map String.ofList, rest)

/-- A number: no leading zeros, and digits on both sides of a point and after an `e`. -/
def isNumber (cs : List Char) : Bool :=
  let digits := cs.drop (if cs.head? == some '-' then 1 else 0)
  let whole := digits.takeWhile Char.isDigit
  let rest := digits.drop whole.length
  let (fractionOk, rest) :=
    match rest with
    | '.' :: rest =>
      let fraction := rest.takeWhile Char.isDigit
      (!fraction.isEmpty, rest.drop fraction.length)
    | _ => (true, rest)
  let exponentOk :=
    match rest with
    | [] => true
    | e :: rest =>
      let power := rest.drop (if rest.head? == some '-' || rest.head? == some '+' then 1 else 0)
      (e == 'e' || e == 'E') && !power.isEmpty && power.all Char.isDigit
  !whole.isEmpty && (whole.length == 1 || whole.head? != some '0') && fractionOk && exponentOk

def isNumberChar (c : Char) : Bool :=
  c.isDigit || c == '-' || c == '+' || c == '.' || c == 'e' || c == 'E'

/-- A keyword or number, from its first character. -/
def word? (c : Char) (cs : List Char) :
    Option (Json × { rest : List Char // rest.length ≤ cs.length }) :=
  let isPart (c : Char) := isNumberChar c || c.isAlpha
  let rest : { rest : List Char // rest.length ≤ cs.length } :=
    ⟨cs.dropWhile isPart, (List.dropWhile_suffix isPart).length_le⟩
  let word := c :: cs.takeWhile isPart
  match String.ofList word with
  | "null" => some (null, rest)
  | "true" => some (bool true, rest)
  | "false" => some (bool false, rest)
  | text => if isNumber word then some (number text, rest) else none

mutual

def value? (cs : List Char) : Option (Json × After cs) := do
  let (c, ⟨rest, _⟩) ← nextChar? cs
  match c with
  | '"' =>
    let (s, ⟨rest', _⟩) ← text? rest
    return (string s, ⟨rest', by omega⟩)
  | '[' =>
    let (close, ⟨rest', _⟩) ← nextChar? rest
    if close == ']' then return (array [], ⟨rest', by omega⟩)
    let (items, ⟨rest', _⟩) ← items? rest
    return (array items, ⟨rest', by omega⟩)
  | '\x7b' =>
    let (close, ⟨rest', _⟩) ← nextChar? rest
    if close == '\x7d' then return (object [], ⟨rest', by omega⟩)
    let (members, ⟨rest', _⟩) ← members? rest
    return (object members, ⟨rest', by omega⟩)
  | c =>
    let (v, ⟨rest', _⟩) ← word? c rest
    return (v, ⟨rest', by omega⟩)
termination_by 2 * cs.length

def items? (cs : List Char) : Option (List Json × After cs) := do
  let (item, ⟨rest, _⟩) ← value? cs
  let (c, ⟨rest, _⟩) ← nextChar? rest
  if c == ']' then return ([item], ⟨rest, by omega⟩)
  if c != ',' then none
  let (items, ⟨rest, _⟩) ← items? rest
  return (item :: items, ⟨rest, by omega⟩)
termination_by 2 * cs.length + 1

def members? (cs : List Char) : Option (List (Option String × Json) × After cs) := do
  let (quote, ⟨rest, _⟩) ← nextChar? cs
  if quote != '"' then none
  let (key, ⟨rest, _⟩) ← text? rest
  let (colon, ⟨rest, _⟩) ← nextChar? rest
  if colon != ':' then none
  let (value, ⟨rest, _⟩) ← value? rest
  let (c, ⟨rest, _⟩) ← nextChar? rest
  if c == '\x7d' then return ([(key, value)], ⟨rest, by omega⟩)
  if c != ',' then none
  let (members, ⟨rest, _⟩) ← members? rest
  return ((key, value) :: members, ⟨rest, by omega⟩)
termination_by 2 * cs.length + 1

end

def parse? (text : String) : Option Json := do
  let (v, rest) ← value? text.toList
  if (nextChar? rest.val).isSome then none else some v

def hexDigit (n : Nat) : Char :=
  Char.ofNat (if n < 10 then '0'.toNat + n else 'a'.toNat + n - 10)

def quotedChar (c : Char) : List Char :=
  if c == '"' then ['\\', '"']
  else if c == '\\' then ['\\', '\\']
  else if c == '\n' then ['\\', 'n']
  else if c == '\r' then ['\\', 'r']
  else if c == '\t' then ['\\', 't']
  else if c.toNat == 0x08 then ['\\', 'b']
  else if c.toNat == 0x0C then ['\\', 'f']
  else if c.toNat < 0x20 then
    ['\\', 'u', '0', '0', hexDigit (c.toNat / 16), hexDigit (c.toNat % 16)]
  else [c]

def quoted (s : String) : String :=
  "\"" ++ String.ofList (s.toList.flatMap quotedChar) ++ "\""

/-- Items on lines of their own, one step further in than the brackets around them. -/
def block (opening closing : String) (indent : Nat) (items : List String) : String :=
  let line (n : Nat) := "\n" ++ "".pushn ' ' (2 * n)
  if items.isEmpty then opening ++ closing
  else
    opening ++ ",".intercalate (items.map (line (indent + 1) ++ ·)) ++ line indent ++ closing

mutual

/-- A value over several lines, at some depth of indentation. -/
def pretty (indent : Nat) : Json → String
  | null => "null"
  | bool b => if b then "true" else "false"
  | number text => text
  | string s => quoted (s.getD "")
  | array items => block "[" "]" indent (prettyItems (indent + 1) items)
  | object members => block "\x7b" "\x7d" indent (prettyMembers (indent + 1) members)

def prettyItems (indent : Nat) : List Json → List String
  | [] => []
  | v :: vs => v.pretty indent :: prettyItems indent vs

def prettyMembers (indent : Nat) : List (Option String × Json) → List String
  | [] => []
  | (key, v) :: ms => (quoted (key.getD "") ++ ": " ++ v.pretty indent) :: prettyMembers indent ms

end

end Json

/-! Configuration files: an object with the fields by name, or a list of them in order. -/

namespace Config

def dimension? : Json → Option Nat
  | .number text => if text.toList.all Char.isDigit then natural? text.toList else none
  | _ => none

def bool? : Json → Option Bool
  | .bool b => some b
  | _ => none

def namingOfName? : String → Option ComponentNaming
  | "Auto" => some .auto
  | "Separated" => some .separated
  | _ => none

/-- The name of a naming rule, by itself or as the only key of an object. -/
def naming? : Json → Option ComponentNaming
  | .string name => name.bind namingOfName?
  | .object [(name, .null)] => name.bind namingOfName?
  | _ => none

def setDimension? (v : Json) (c : Config) : Option Config :=
  (dimension? v).map fun n => { c with defaultDimension := n }

def setWarn? (v : Json) (c : Config) : Option Config :=
  (bool? v).map fun b => { c with warnOnOverride := b }

def setNaming? (v : Json) (c : Config) : Option Config :=
  (naming? v).map fun n => { c with naming := n }

def fields : List (String × (Json → Config → Option Config)) :=
  [("default_dimension", setDimension?), ("warn_on_override", setWarn?),
   ("component_naming", setNaming?)]

/-- Set the fields of an object. A field that is not known is passed over; a known one may
be given once. -/
def ofMembers? (seen : List String) (c : Config) : List (Option String × Json) → Option Config
  | [] => some c
  | (key, v) :: rest => do
    let key ← key
    match fields.lookup key with
    | none => ofMembers? seen c rest
    | some set =>
      if seen.contains key then none
      ofMembers? (key :: seen) (← set v c) rest

/-- Set the leading fields from a list. -/
def ofItems? (c : Config) : List (Json → Config → Option Config) → List Json → Option Config
  | _, [] => some c
  | [], _ :: _ => none
  | set :: sets, v :: vs => do ofItems? (← set v c) sets vs

def ofJson? : Json → Option Config
  | .object members => ofMembers? [] {} members
  | .array items => ofItems? {} (fields.map (·.2)) items
  | _ => none

def parse? (text : String) : Option Config := do
  ofJson? (← Json.parse? text)

end Config

/-! Command-line arguments: one path, and options in any order. -/

inductive Format where
  | text
  | json
deriving DecidableEq, Repr, Inhabited

def Format.ofName? : String → Option Format
  | "text" => some text
  | "json" => some json
  | _ => none

inductive OptionName where
  | dimension
  | config
  | format
deriving DecidableEq, Repr

structure Arguments where
  path : Option String := none
  dimension : Option Nat := none
  config : Option String := none
  format : Option Format := none
  silent : Bool := false
deriving DecidableEq, Repr

namespace Arguments

def ofLong? : String → Option OptionName
  | "dim" => some .dimension
  | "config" => some .config
  | "format" => some .format
  | _ => none

def ofShort? : Char → Option OptionName
  | 'd' => some .dimension
  | 'c' => some .config
  | 'f' => some .format
  | _ => none

def setPath? (a : Arguments) (path : String) : Option Arguments :=
  if a.path.isSome || path.isEmpty then none else some { a with path := some path }

def setOption? (a : Arguments) (name : OptionName) (value : String) : Option Arguments :=
  match name with
  | .dimension =>
    if a.dimension.isSome then none
    else (natural? value.toList).map fun n => { a with dimension := some n }
  | .config =>
    if a.config.isSome || value.isEmpty then none else some { a with config := some value }
  | .format =>
    if a.format.isSome then none
    else (Format.ofName? value).map fun f => { a with format := some f }

def setSilent? (a : Arguments) : Option Arguments :=
  if a.silent then none else some { a with silent := true }

inductive Reading where
  | path (text : String)
  | option (name : OptionName) (value : Option String)
  | silent
  /-- The mark after which all arguments are paths. -/
  | pathsOnly
  | unknown

def readLong (cs : List Char) : Reading :=
  let name := String.ofList (cs.takeWhile (· != '='))
  let value := match cs.dropWhile (· != '=') with
    | _ :: value => some (String.ofList value)
    | [] => none
  match ofLong? name, value with
  | some option, value => .option option value
  | none, none => if name == "no-override-warnings" then .silent else .unknown
  | none, some _ => .unknown

def readShort (c : Char) (cs : List Char) : Reading :=
  match ofShort? c, cs with
  | none, _ => .unknown
  | some option, [] => .option option none
  | some option, '=' :: value => .option option (some (String.ofList value))
  | some option, value => .option option (some (String.ofList value))

def read (arg : String) : Reading :=
  match arg.toList with
  | ['-', '-'] => .pathsOnly
  | '-' :: '-' :: cs => readLong cs
  | '-' :: c :: cs => readShort c cs
  | _ => .path arg

/-- Read the arguments from the left; `pathsOnly` says whether all are paths. -/
def parseFrom (pathsOnly : Bool) (a : Arguments) : List String → Option Arguments
  | [] => some a
  | arg :: rest =>
    if pathsOnly then do parseFrom true (← a.setPath? arg) rest
    else
      match read arg, rest with
      | .path path, rest => do parseFrom false (← a.setPath? path) rest
      | .option name (some value), rest => do parseFrom false (← a.setOption? name value) rest
      | .option name none, next :: rest =>
        match read next with
        | .path value => do parseFrom false (← a.setOption? name value) rest
        | _ => none
      | .option _ none, [] => none
      | .silent, rest => do parseFrom false (← a.setSilent?) rest
      | .pathsOnly, rest => parseFrom true a rest
      | .unknown, _ => none

def parse? (args : List String) : Option Arguments :=
  parseFrom false {} args

end Arguments

/-! The program: arguments and files in, a report and an exit status out. -/

def Tensor.toJson (t : Tensor) : Json :=
  t.fold (fun e => .string (some e.text)) .array

def Value.toJson : Value → Json
  | scalar e => .string (some e.text)
  | tensor t => t.toJson

namespace Report

def text (s : Session) : String :=
  String.join (s.values.map fun (name, value) => name ++ " = " ++ value.text ++ "\n")

/-- The list of names, and their values by name. -/
def json (s : Session) : Json :=
  let values := s.values.mergeSort fun a b => (compare a.1 b.1).isLE
  .object
    [(some "symbols", .array (s.table.order.map fun name => .string (some name))),
     (some "values", .object (values.map fun (name, value) => (some name, value.toJson)))]

def render (format : Format) (s : Session) : String :=
  match format with
  | .text => text s
  | .json => (json s).pretty 0 ++ "\n"

end Report

structure Outcome where
  status : Nat
  output : String := ""
  /-- Why the document was not compiled, where the document is not to blame. -/
  message : Option String := none
  /-- What is said about the document itself. -/
  remarks : List String := []
deriving DecidableEq, Repr

namespace Outcome

def misuse : Outcome where
  status := 2

def failure (message : String) : Outcome where
  status := 1
  message := some message

def ofDocument (config : Config) (format : Format) (source : String) : Outcome :=
  let (result, s) := (Session.new config).parse source
  let warnings := s.warnings.map Warning.message
  match result with
  | .ok _ => { status := 0, output := Report.render format s, remarks := warnings }
  | .error e => { status := 1, remarks := warnings ++ e.display :: e.notes }

end Outcome

/-- A file name in quotes. Characters that do not show on their own are written by number. -/
def quotedPath (path : String) : String :=
  let escaped (c : Char) : List Char :=
    if c == '"' || c == '\\' then ['\\', c]
    else if c == '\n' then ['\\', 'n']
    else if c == '\r' then ['\\', 'r']
    else if c == '\t' then ['\\', 't']
    else if c == '\x00' then ['\\', '0']
    else if isVisible c then [c]
    else ['\\', 'u', '\x7b'] ++ Nat.toDigits 16 c.toNat ++ ['\x7d']
  "\"" ++ String.ofList (path.toList.flatMap escaped) ++ "\""

namespace Program

variable [Monad m] (readFile : String → m (Except String String))

def readOrFail (path : String) : ExceptT Outcome m String := do
  match ← readFile path with
  | .ok text => return text
  | .error reason => throw (.failure ("Failed to read " ++ quotedPath path ++ ": " ++ reason))

def readConfig : Option String → ExceptT Outcome m Config
  | none => return {}
  | some path => do
    match Config.parse? (← readOrFail readFile path) with
    | some config => return config
    | none => throw (.failure ("Failed to parse configuration " ++ quotedPath path))

def configure (a : Arguments) : ExceptT Outcome m Config := do
  let config ← readConfig readFile a.config
  if a.dimension = some 0 then throw (.failure "the dimension must be at least 1")
  return { config with
    defaultDimension := a.dimension.getD config.defaultDimension
    warnOnOverride := config.warnOnOverride && !a.silent }

def execute (a : Arguments) : ExceptT Outcome m Outcome := do
  let some path := a.path | throw .misuse
  let config ← configure readFile a
  let source ← readOrFail readFile path
  return .ofDocument config (a.format.getD .text) source

def run (args : List String) : m Outcome := do
  match Arguments.parse? args with
  | none => return .misuse
  | some a =>
    match ← (execute readFile a).run with
    | .ok outcome | .error outcome => return outcome

end Program

end TensorCalculus
