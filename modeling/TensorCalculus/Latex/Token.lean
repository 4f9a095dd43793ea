import TensorCalculus.Error
import TensorCalculus.Text.EditDistance

/-! The commands of the notation. -/
namespace TensorCalculus

namespace Command

def greekLetters : List String :=
  ["alpha", "beta", "gamma", "delta", "epsilon", "varepsilon", "zeta", "eta", "theta",
   "vartheta", "iota", "kappa", "lambda", "mu", "nu", "xi", "rho", "varrho", "sigma", "tau",
   "upsilon", "phi", "varphi", "chi", "psi", "omega", "Gamma", "Delta", "Theta", "Lambda",
   "Xi", "Pi", "Sigma", "Upsilon", "Phi", "Psi", "Omega"]

def isGreek (name : String) : Bool :=
  greekLetters.contains name

def functions : List (String × Func) :=
  [("sin", .sin), ("cos", .cos), ("tan", .tan),
   ("sinh", .sinh), ("cosh", .cosh), ("tanh", .tanh),
   ("arcsin", .asin), ("arccos", .acos), ("arctan", .atan),
   ("arcsinh", .asinh), ("arccosh", .acosh), ("arctanh", .atanh),
   ("ln", .log), ("log", .log), ("exp", .exp)]

def function? (name : String) : Option Func :=
  functions.lookup name

def ofFunction : Func → String
  | .asin => "arcsin" | .acos => "arccos" | .atan => "arctan"
  | .asinh => "arcsinh" | .acosh => "arccosh" | .atanh => "arctanh"
  | .log => "ln"
  | f => f.name

def others : List String :=
  ["frac", "sqrt", "cdot", "times", "partial", "nabla", "hat", "bar", "tilde", "left", "right",
   "mathop", "mathrm", "operatorname", "pi"]

def known : List String :=
  greekLetters ++ functions.map (·.1) ++ others

def isKnown (name : String) : Bool :=
  known.contains name

def spacing : List String :=
  ["quad", "qquad"]

def suggestions (name : String) : List String :=
  (closeNames known name).map ("\\" ++ ·)

theorem function?_ofFunction (f : Func) : function? (ofFunction f) = some f := by
  cases f <;> decide

end Command

/-! Tokens of an equation. White space, alignment and math delimiters, spacing commands and
the ends of environments carry no meaning and are skipped. -/

inductive TokenKind where
  /-- A known command, without its backslash. -/
  | command (name : String)
  | letter (c : Char)
  /-- Digits with at most one point. -/
  | number (text : String)
  | superscript
  | subscript
  | openBrace
  | closeBrace
  | openParen
  | closeParen
  | openBracket
  | closeBracket
  | plus
  | minus
  | star
  | slash
  | equals
  | comma
  | semicolon
  | lineBreak
deriving DecidableEq, Repr, Inhabited

/-- Whether a token is a letter is seen from its kind, not by a search through the characters. -/
instance TokenKind.decidableNotLetter (k : TokenKind) : Decidable (∀ c, k = letter c → False) := by
  cases k with
  | letter c => exact .isFalse fun h => h c rfl
  | _ => exact .isTrue fun _ h => by cases h

def TokenKind.text : TokenKind → String
  | command name => "\\" ++ name
  | letter c => c.toString
  | number text => text
  | superscript => "^"
  | subscript => "_"
  | openBrace => "\x7b"
  | closeBrace => "\x7d"
  | openParen => "("
  | closeParen => ")"
  | openBracket => "["
  | closeBracket => "]"
  | plus => "+"
  | minus => "-"
  | star => "*"
  | slash => "/"
  | equals => "="
  | comma => ","
  | semicolon => ";"
  | lineBreak => "\\\\"

structure Token where
  kind : TokenKind
  span : Span
deriving DecidableEq, Repr, Inhabited

namespace Token

/-- What a few characters at the head of a text stand for. -/
inductive Reading where
  | token (kind : TokenKind)
  | skip
  | unknown (text : String) (suggestions : List String)

def mark? : Char → Option TokenKind
  | '^' => some .superscript
  | '_' => some .subscript
  | '\x7b' => some .openBrace
  | '\x7d' => some .closeBrace
  | '(' => some .openParen
  | ')' => some .closeParen
  | '[' => some .openBracket
  | ']' => some .closeBracket
  | '+' => some .plus
  | '-' => some .minus
  | '*' => some .star
  | '/' => some .slash
  | '=' => some .equals
  | ',' => some .comma
  | ';' => some .semicolon
  | _ => none

/-- The length of the digits at the head of a text, with one point if `point` allows it. -/
def numberLength (point : Bool) : List Char → Nat
  | [] => 0
  | c :: cs =>
    if c.isDigit then 1 + numberLength point cs
    else if c == '.' && point then 1 + numberLength false cs
    else 0

/-- The length of a braced name at the head of a text, with the blanks before it. -/
def environmentLength (cs : List Char) : Nat :=
  let blanks := (cs.takeWhile isBlank).length
  match cs.drop blanks with
  | '\x7b' :: inner =>
    if inner.contains '\x7d' then blanks + 2 + (inner.takeWhile (· != '\x7d')).length else 0
  | _ => 0

/-- A command, from the text after its backslash: its reading, and how many characters of
that text belong to it. -/
def readCommand : List Char → Reading × Nat
  | [] => (.unknown "\\" [], 0)
  | c :: cs =>
    if c.isAlpha then
      let letters := c :: cs.takeWhile Char.isAlpha
      let name := String.ofList letters
      let n := letters.length
      if name == "begin" || name == "end" then (.skip, n + environmentLength ((c :: cs).drop n))
      else if Command.spacing.contains name then (.skip, n)
      else if Command.isKnown name then (.token (.command name), n)
      else (.unknown ("\\" ++ name) (Command.suggestions name), n)
    else if c == '\\' then (.token .lineBreak, 1)
    else if c == ',' || c == ';' || c == ':' || c == '!' || isBlank c then (.skip, 1)
    else (.unknown (String.ofList ['\\', c]) [], 1)

/-- The reading at the head of a nonempty text, and how many characters belong to it after
the first. -/
def read (c : Char) (cs : List Char) : Reading × Nat :=
  if c == '&' || c == '$' || isBlank c then (.skip, 0)
  else if c == '\\' then readCommand cs
  else
    match mark? c with
    | some kind => (.token kind, 0)
    | none =>
      if c.isDigit || c == '.' then
        let n := numberLength (c != '.') cs
        (.token (.number (String.ofList (c :: cs.take n))), n)
      else if c.isAlpha then (.token (.letter c), 0)
      else (.unknown c.toString [], 0)

def scanFrom (offset : Nat) : List Char → Except Error (List Token)
  | [] => .ok []
  | c :: cs =>
    let (reading, n) := read c cs
    let stop := offset + byteLength (c :: cs.take n)
    match reading with
    | .skip => scanFrom stop (cs.drop n)
    | .token kind => do
      let tokens ← scanFrom stop (cs.drop n)
      return ⟨kind, ⟨offset, stop⟩⟩ :: tokens
    | .unknown text suggestions =>
      throw { cause := .unrecognized text suggestions, span := ⟨offset, stop⟩ }
termination_by cs => cs.length
decreasing_by all_goals simp only [List.length_drop, List.length_cons]; omega

def scan (s : Segment) : Except Error (List Token) :=
  scanFrom s.offset s.chars

end Token

/-! A place in a list of tokens. Every reader returns a later place, together with the
proof that it is later, so that reading ends. -/

structure Cursor where
  rest : List Token
  /-- Where the last token that was read ends. -/
  last : Nat
deriving Inhabited

namespace Cursor

/-- The places that are reached by reading at least one token. -/
abbrev After (c : Cursor) := { d : Cursor // d.rest.length < c.rest.length }

/-- The places that are reached by reading any number of tokens. -/
abbrev From (c : Cursor) := { d : Cursor // d.rest.length ≤ c.rest.length }

/-- What comes after a later place comes after the first one. The three functions below say
the same of places that may be equal. -/
def After.after {c d : Cursor} (h : d.rest.length < c.rest.length) (e : d.After) : c.After :=
  ⟨e.val, Nat.lt_trans e.property h⟩

def After.onward {c d : Cursor} (h : d.rest.length < c.rest.length) (e : d.From) : c.After :=
  ⟨e.val, Nat.lt_of_le_of_lt e.property h⟩

def From.after {c d : Cursor} (h : d.rest.length ≤ c.rest.length) (e : d.After) : c.After :=
  ⟨e.val, Nat.lt_of_lt_of_le e.property h⟩

def From.onward {c d : Cursor} (h : d.rest.length ≤ c.rest.length) (e : d.From) : c.From :=
  ⟨e.val, Nat.le_trans e.property h⟩

def After.toFrom {c : Cursor} (e : c.After) : c.From :=
  ⟨e.val, Nat.le_of_lt e.property⟩

def stay (c : Cursor) : c.From :=
  ⟨c, Nat.le_refl _⟩

def start (tokens : List Token) (stop : Nat) : Cursor :=
  ⟨tokens, (tokens.head?.map (·.span.start)).getD stop⟩

def peek? (c : Cursor) : Option TokenKind :=
  c.rest.head?.map (·.kind)

def next? : (c : Cursor) → Option (Token × c.After)
  | ⟨[], _⟩ => none
  | ⟨t :: rest, _⟩ => some (t, ⟨⟨rest, t.span.stop⟩, Nat.lt_succ_self _⟩)

def accept? (c : Cursor) (kind : TokenKind) : Option (Span × c.After) :=
  match c.next? with
  | some (t, d) => if t.kind = kind then some (t.span, d) else none
  | none => none

/-- Pass an empty group between two scripts. -/
def skipSeparator (c : Cursor) : c.From :=
  match c with
  | ⟨⟨.openBrace, s⟩ :: ⟨.closeBrace, s'⟩ :: t :: rest, last⟩ =>
    if t.kind = .superscript ∨ t.kind = .subscript then
      ⟨⟨t :: rest, s'.stop⟩, by simp only [List.length_cons]; omega⟩
    else stay _
  | c => c.stay

/-- Read up to the next closing brace; the result also has the place of the brace. -/
def closeGroup? (c : Cursor) : Option (Span × c.After) :=
  match c.next? with
  | none => none
  | some (t, ⟨d, h⟩) =>
    if t.kind = .closeBrace then some (t.span, ⟨d, h⟩)
    else
      match d.closeGroup? with
      | some (s, e) => some (s, .after h e)
      | none => none
termination_by c.rest.length

end Cursor

/-- A closing brace without an opening one that stands at the end of a script, if there is
one. `depth` counts the open braces, and `script` tells whether a script mark was the last
token other than indices and their separators. -/
def strayBrace? (depth : Nat) (script : Bool) : List Token → Option Span
  | [] => none
  | t :: rest =>
    match t.kind with
    | .openBrace => strayBrace? (depth + 1) script rest
    | .closeBrace =>
      if depth = 0 ∧ script then some t.span else strayBrace? (depth - 1) script rest
    | .superscript | .subscript => strayBrace? depth true rest
    | .letter _ | .number _ | .comma | .semicolon => strayBrace? depth script rest
    | .command name => strayBrace? depth (script && Command.isGreek name) rest
    | _ => strayBrace? depth false rest

end TensorCalculus
