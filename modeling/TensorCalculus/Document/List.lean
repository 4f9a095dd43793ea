import TensorCalculus.Formula.Basic

/-! A document is a sequence of statements. A directive starts with `%` and ends with its
line or at a semicolon; an equation also ends at `\\` or at the next `%`. No statement ends
inside brackets. -/
namespace TensorCalculus

inductive Statement where
  /-- The text after the `%`. -/
  | directive (text : Segment)
  | equation (text : Segment)
deriving DecidableEq, Repr, Inhabited

namespace Statement

def isSpace (c : Char) : Bool :=
  c == ' ' || c == '\t' || c == '\n' || c == '\x0c' || c == '\r'

def isOpening (c : Char) : Bool :=
  c == '\x7b' || c == '(' || c == '['

def isClosing (c : Char) : Bool :=
  c == '\x7d' || c == ')' || c == ']'

/-- How many characters belong to a statement, at some depth of brackets. A backslash
protects the character after it. -/
def bodyLength (directive : Bool) (depth : Nat) : List Char → Nat
  | [] => 0
  | '\\' :: '\\' :: rest =>
    if depth = 0 ∧ !directive then 0 else 2 + bodyLength directive depth rest
  | '\\' :: _ :: rest => 2 + bodyLength directive depth rest
  | c :: rest =>
    if isOpening c then 1 + bodyLength directive (depth + 1) rest
    else if isClosing c then 1 + bodyLength directive (depth - 1) rest
    else if depth = 0 ∧ (c == ';' || c == '\n' || (c == '%' && !directive)) then 0
    else 1 + bodyLength directive depth rest

/-- The statements of a text that starts at a byte offset. -/
def splitFrom (offset : Nat) : List Char → List Statement
  | [] => []
  | '\\' :: '\\' :: rest => splitFrom (offset + 2) rest
  | c :: rest =>
    if c == ';' || isSpace c then splitFrom (offset + 1) rest
    else if c == '%' then
      let text : Segment := ⟨offset + 1, rest.take (bodyLength true 0 rest)⟩
      directive text :: splitFrom text.stop (rest.drop (bodyLength true 0 rest))
    else
      let n := bodyLength false 0 (c :: rest) - 1
      let text : Segment := ⟨offset, c :: rest.take n⟩
      equation text :: splitFrom text.stop (rest.drop n)
termination_by cs => cs.length
decreasing_by all_goals simp only [List.length_drop, List.length_cons]; omega

def split (document : List Char) : List Statement :=
  splitFrom 0 document

end Statement

/-! The lists and names in directives. -/

namespace Segment

/-- The parts between commas outside brackets, where `taken` characters and then `rest`
are left to divide. -/
def splitCommas (offset : Nat) (depth : Nat) (taken : List Char) : List Char → List Segment
  | [] => [⟨offset, taken.reverse⟩]
  | c :: rest =>
    if Statement.isOpening c then splitCommas offset (depth + 1) (c :: taken) rest
    else if Statement.isClosing c then splitCommas offset (depth - 1) (c :: taken) rest
    else if c == ',' && depth == 0 then
      let part : Segment := ⟨offset, taken.reverse⟩
      part :: splitCommas (part.stop + 1) 0 [] rest
    else splitCommas offset depth (c :: taken) rest

def items (s : Segment) : List Segment :=
  ((splitCommas s.offset 0 [] s.chars).map trim).filter (!·.isEmpty)

/-- The parts between blanks, where `taken` is the word that is being read. -/
def wordsFrom (offset : Nat) (taken : List Char) : List Char → List Segment
  | [] => if taken.isEmpty then [] else [⟨offset, taken.reverse⟩]
  | c :: rest =>
    if isBlank c then
      let next := wordsFrom (offset + byteLength taken + c.utf8Size) [] rest
      if taken.isEmpty then next else ⟨offset, taken.reverse⟩ :: next
    else wordsFrom offset (c :: taken) rest

def words (s : Segment) : List Segment :=
  wordsFrom s.offset [] s.chars

end Segment

/-- A letter, then letters, digits and underscores. -/
def isName (name : List Char) : Bool :=
  match name with
  | [] => false
  | c :: cs => c.isAlpha && cs.all fun c => c.isAlphanum || c == '_'

/-- The symbol of a name and the heights at its end; the symbol has at least one letter. -/
def splitHeights (name : String) : String × List Height :=
  let isHeight (c : Char) := c == 'U' || c == 'D'
  let trailing := (name.toList.reverse.takeWhile isHeight).length
  let n := max 1 (name.toList.length - trailing)
  (String.ofList (name.toList.take n), (name.toList.drop n).filterMap Height.ofLetter?)

end TensorCalculus
