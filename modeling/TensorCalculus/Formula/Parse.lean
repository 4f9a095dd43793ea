import TensorCalculus.Formula.Basic

/-! Reading scripts and names. -/
namespace TensorCalculus

open Cursor

/-- What the reading of an equation depends on beside its tokens. -/
structure Grammar where
  document : List Char
  /-- The end of the text being read. -/
  stop : Nat
  /-- Which names belong to declared tensors. -/
  isTensor : String → Bool

namespace Grammar

def here (g : Grammar) (c : Cursor) : Span :=
  match c.rest with
  | t :: _ => t.span
  | [] => ⟨g.stop, g.stop⟩

def failAt (span : Span) (expected : Expected) : Except Error α :=
  throw { cause := .grammar expected, span }

def misindexed (span : Span) (fault : IndexFault) : Except Error α :=
  throw { cause := .indexing fault, span }

def expect (g : Grammar) (c : Cursor) (kind : TokenKind) (expected : Expected) :
    Except Error (Span × c.After) :=
  match c.accept? kind with
  | some result => return result
  | none => failAt (g.here c) expected

end Grammar

/-- A derivative that is written as an index after a comma or semicolon. -/
structure IndexDerivative where
  kind : DerivativeKind
  index : Index
  span : Span

/-- The indices of one or more scripts. -/
structure Script where
  indices : List Index := []
  derivatives : List IndexDerivative := []

namespace Script

def append (a b : Script) : Script :=
  ⟨a.indices ++ b.indices, a.derivatives ++ b.derivatives⟩

def ofIndices (kind : Option DerivativeKind) (indices : List Index) (span : Span) : Script :=
  match kind with
  | none => ⟨indices, []⟩
  | some kind => ⟨[], indices.map (⟨kind, ·, span⟩)⟩

/-- The indices that a token stands for; a number stands for one index per digit. -/
def indices? (height : Height) : TokenKind → Option (List Index)
  | .letter c => some [.named c.toString height]
  | .command name => if Command.isGreek name then some [.named name height] else none
  | .number text =>
    if text.toList.all Char.isDigit then
      some (text.toList.map fun c => .fixed (c.toNat - '0'.toNat) height)
    else none
  | _ => none

def ofToken (height : Height) (kind : Option DerivativeKind) (t : Token) : Except Error Script :=
  match indices? height t.kind with
  | some indices => return ofIndices kind indices t.span
  | none => Grammar.misindexed t.span (.notAnIndex t.kind.text)

/-- The rest of a braced script that was opened at an offset. -/
def group (g : Grammar) (height : Height) (opened : Nat) (kind : Option DerivativeKind)
    (c : Cursor) : Except Error (Script × c.After) :=
  match c.next? with
  | none => Grammar.misindexed ⟨opened, g.stop⟩ .openScript
  | some (t, ⟨c₁, h₁⟩) =>
    let continueWith (kind : Option DerivativeKind) (first : Script) := do
      let (script, e) ← group g height opened kind c₁
      return (first.append script, .after h₁ e)
    match t.kind with
    | .closeBrace => return ({}, ⟨c₁, h₁⟩)
    | .comma => continueWith (some .partialDerivative) {}
    | .semicolon => continueWith (some (.covariant .none)) {}
    | _ => do continueWith kind (← ofToken height kind t)
termination_by c.rest.length

def read (g : Grammar) (height : Height) (c : Cursor) : Except Error (Script × c.After) :=
  match c.next? with
  | none => Grammar.misindexed (g.here c) .emptyScript
  | some (t, ⟨c₁, h₁⟩) =>
    if t.kind = .openBrace then do
      let (script, e) ← group g height t.span.start none c₁
      return (script, .after h₁ e)
    else do return (← ofToken height none t, ⟨c₁, h₁⟩)

/-- Whether tokens up to a closing brace can be an index list, and whether they name one. -/
def classifyGroup (named : Bool) : List Token → Bool × Bool
  | [] => (true, named)
  | t :: rest =>
    match t.kind with
    | .closeBrace => (true, named)
    | .letter _ => classifyGroup true rest
    | .command name => if Command.isGreek name then classifyGroup true rest else (false, false)
    | .number text =>
      if text.toList.all Char.isDigit then classifyGroup named rest else (false, false)
    | .comma | .semicolon => classifyGroup named rest
    | _ => (false, false)

def classify : List Token → Bool × Bool
  | [] => (false, false)
  | t :: rest =>
    match t.kind with
    | .letter _ => (true, true)
    | .command name => (Command.isGreek name, Command.isGreek name)
    | .number text => (text.toList.all Char.isDigit, false)
    | .openBrace => classifyGroup false rest
    | _ => (false, false)

/-- The scripts after a name. A superscript is one of them only if it reads as an index
list, and then only on a tensor or with a named index. -/
def readAll (g : Grammar) (isTensor : Bool) (c : Cursor) : Except Error (Script × c.From) :=
  let ⟨c₁, h₁⟩ := c.skipSeparator
  match c₁.next? with
  | none => return ({}, ⟨c₁, h₁⟩)
  | some (t, ⟨c₂, h₂⟩) =>
    let continueAt (height : Height) := do
      let (script, ⟨c₃, h₃⟩) ← read g height c₂
      let (scripts, e) ← readAll g isTensor c₃
      return (script.append scripts, (From.after h₁ (.after h₂ (.onward h₃ e))).toFrom)
    match t.kind with
    | .subscript => continueAt .lower
    | .superscript =>
      let (indexLike, named) := classify c₂.rest
      if indexLike && (isTensor || named) then continueAt .upper else return ({}, ⟨c₁, h₁⟩)
    | _ => return ({}, ⟨c₁, h₁⟩)
termination_by c.rest.length
decreasing_by omega

/-- The indices of the left-hand side of an equation, where every script is an index list
and none may differentiate. -/
def readTarget (g : Grammar) (c : Cursor) : Except Error (List Index × c.From) :=
  let ⟨c₁, h₁⟩ := c.skipSeparator
  match c₁.next? with
  | none => return ([], ⟨c₁, h₁⟩)
  | some (t, ⟨c₂, h₂⟩) =>
    let continueAt (height : Height) := do
      let (script, ⟨c₃, h₃⟩) ← read g height c₂
      match script.derivatives with
      | derivative :: _ => Grammar.misindexed derivative.span .derivativeTarget
      | [] =>
        let (indices, e) ← readTarget g c₃
        return (script.indices ++ indices, (From.after h₁ (.after h₂ (.onward h₃ e))).toFrom)
    match t.kind with
    | .subscript => continueAt .lower
    | .superscript => continueAt .upper
    | _ => return ([], ⟨c₁, h₁⟩)
termination_by c.rest.length
decreasing_by omega

end Script

namespace Grammar

def accentedNabla? (c : Cursor) : Option (Diacritic × c.After) := do
  let (t, ⟨c₁, h₁⟩) ← c.next?
  let mark ← match t.kind with
    | .command name => Diacritic.ofCommand? name
    | _ => none
  match c₁.accept? .openBrace with
  | some (_, ⟨c₂, h₂⟩) =>
    let (_, ⟨c₃, h₃⟩) ← c₂.accept? (.command "nabla")
    let (_, e) ← c₃.accept? .closeBrace
    return (mark, .after h₁ (.after h₂ (.after h₃ e)))
  | none =>
    let (_, e) ← c₁.accept? (.command "nabla")
    return (mark, .after h₁ e)

/-- The characters between two places, without blanks and backslashes. -/
def spelledName (g : Grammar) (span : Span) : String :=
  match Segment.slice? g.document span with
  | some s => String.ofList (s.chars.filter fun c => !isBlank c && c != '\\')
  | none => ""

def bracedName (g : Grammar) (c : Cursor) : Except Error (String × c.After) := do
  let (opened, ⟨c₁, h₁⟩) ← g.expect c .openBrace .openBrace
  match c₁.closeGroup? with
  | none => failAt ⟨g.stop, g.stop⟩ .closeBrace
  | some (closed, e) =>
    let name := g.spelledName ⟨opened.stop, closed.start⟩
    if name.isEmpty then failAt ⟨opened.start, closed.stop⟩ .name
    else return (name, .after h₁ e)

/-- A letter, a Greek letter, a spelled name, or an accent on a name; nothing if the next
token does not begin a name. -/
def name? (g : Grammar) (c : Cursor) : Except Error (Option (String × c.After)) :=
  match c.next? with
  | none => return none
  | some (t, ⟨c₁, h₁⟩) =>
    match t.kind with
    | .letter l => return some (l.toString, ⟨c₁, h₁⟩)
    | .command name =>
      if Command.isGreek name then return some (name, ⟨c₁, h₁⟩)
      else if name = "mathop" ∨ name = "mathrm" ∨ name = "operatorname" then do
        let (name, e) ← g.bracedName c₁
        return some (name, .after h₁ e)
      else
        match Diacritic.ofCommand? name, accentedNabla? c with
        | some mark, none =>
          match c₁.accept? .openBrace with
          | some (_, ⟨c₂, h₂⟩) => do
            match ← g.name? c₂ with
            | some (stem, ⟨c₃, h₃⟩) =>
              let (_, e) ← g.expect c₃ .closeBrace .closeBrace
              return some (stem ++ mark.suffix, .after h₁ (.after h₂ (.after h₃ e)))
            | none => failAt (g.here c₂) (.nameAfter name)
          | none => do
            match ← g.name? c₁ with
            | some (stem, e) => return some (stem ++ mark.suffix, .after h₁ e)
            | none => failAt (g.here c₁) (.nameAfter name)
        | _, _ => return none
    | _ => return none
termination_by c.rest.length
decreasing_by all_goals omega

end Grammar

/-! Reading formulas and equations. The grammar is

    equation    = name script* '=' expression
    expression  = ['+' | '-'] term (('+' | '-') term)*
    term        = factor (['*' | '\cdot' | '\times' | '/'] factor)*
    factor      = '-' factor | primary
    primary     = atom ('^' exponent | '_' derivative indices)*

Scripts on a tensor are index lists, and so are those on another name that mention a named
index; any other superscript is an exponent. -/

namespace Formula

/-- The value of a decimal literal, if its digits and its denominator fit 64 bits. -/
def number? (text : String) : Option Number :=
  let whole := text.toList.takeWhile (· != '.')
  let fraction := (text.toList.dropWhile (· != '.')).drop 1
  let digits := (whole ++ fraction).foldl (fun n c => 10 * n + (c.toNat - '0'.toNat)) 0
  let denominator := Nat.pow 10 fraction.length
  if (whole ++ fraction).all Char.isDigit && Number.fits digits && Number.fits denominator then
    some ((digits : Rat) / (denominator : Rat))
  else none

def numeral (text : String) (span : Span) : Except Error Formula :=
  match number? text with
  | some q => return num q
  | none => Grammar.failAt span .shortNumber

def inverse (f : Formula) : Formula :=
  power f (integer (-1))

/-- Derivatives written as indices, of something that starts at an offset. -/
def differentiated (start : Nat) (f : Formula) (derivatives : List IndexDerivative) : Formula :=
  derivatives.foldl (fun f d => derivative d.kind d.index f none ⟨start, d.span.stop⟩) f

/-- An operator with several indices, the last of which acts first. -/
def operated (kind : DerivativeKind) (indices : List Index) (span : Span) (f : Formula) : Formula :=
  indices.foldr (fun i f => derivative kind i f none span) f

def rootExponent : Formula → Formula
  | num q => if q == 0 then inverse (num q) else num q⁻¹
  | f => inverse f

def sign? : TokenKind → Option Bool
  | .plus => some false
  | .minus => some true
  | _ => none

def signed (negative : Bool) (f : Formula) : Formula :=
  if negative then f.negate else f

def isTimes : TokenKind → Bool
  | .star | .command "cdot" | .command "times" => true
  | _ => false

/-- Whether a token begins a factor that follows without a sign. -/
def startsFactor : TokenKind → Bool
  | .letter _ | .number _ | .openParen | .openBracket | .openBrace => true
  | .command name => !(name == "right" || name == "cdot" || name == "times")
  | _ => false

def isOpening : TokenKind → Bool
  | .openParen | .openBracket | .openBrace => true
  | _ => false

def isClosing : TokenKind → Bool
  | .closeParen | .closeBracket | .closeBrace => true
  | _ => false

/-- The arguments of a function that take no postfix of their own. -/
def isBracketed : Option TokenKind → Bool
  | some .openParen | some .openBrace | some (.command "left") => true
  | _ => false

def leadingSign (c : Cursor) : Bool × c.From :=
  match c.next? with
  | none => (false, c.stay)
  | some (t, e) =>
    match sign? t.kind with
    | some negative => (negative, e.toFrom)
    | none => (false, c.stay)

/-- The scripts of a name that starts at an offset. -/
def withScripts (g : Grammar) (base : String) (start : Nat) (c : Cursor) :
    Except Error (Formula × c.From) := do
  let (script, e) ← Script.readAll g (g.isTensor base) c
  let f :=
    if script.indices.isEmpty then sym base
    else tensor (.ofBase base script.indices ⟨start, e.val.last⟩)
  return (differentiated start f script.derivatives, e)

mutual

def expression (g : Grammar) (c : Cursor) : Except Error (Formula × c.After) := do
  let (negative, ⟨c₁, h₁⟩) := leadingSign c
  let (t, ⟨c₂, h₂⟩) ← term g c₁
  let (ts, e) ← moreTerms g c₂
  return (ofTerms (signed negative t :: ts), From.after h₁ (.onward h₂ e))
termination_by 10 * c.rest.length + 9

def moreTerms (g : Grammar) (c : Cursor) : Except Error (List Formula × c.From) :=
  match c.next? with
  | none => return ([], c.stay)
  | some (t, ⟨c₁, h₁⟩) =>
    match sign? t.kind with
    | none => return ([], c.stay)
    | some negative => do
      let (u, ⟨c₂, h₂⟩) ← term g c₁
      let (us, e) ← moreTerms g c₂
      return (signed negative u :: us, (After.after h₁ (.onward h₂ e)).toFrom)
termination_by 10 * c.rest.length

def term (g : Grammar) (c : Cursor) : Except Error (Formula × c.After) := do
  let (f, ⟨c₁, h₁⟩) ← factor g c
  let (fs, e) ← moreFactors g c₁
  return (ofFactors (f :: fs), .onward h₁ e)
termination_by 10 * c.rest.length + 8

def moreFactors (g : Grammar) (c : Cursor) : Except Error (List Formula × c.From) :=
  match c.next? with
  | none => return ([], c.stay)
  | some (t, ⟨c₁, h₁⟩) =>
    if isTimes t.kind then do
      let (f, ⟨c₂, h₂⟩) ← factor g c₁
      let (fs, e) ← moreFactors g c₂
      return (f :: fs, (After.after h₁ (.onward h₂ e)).toFrom)
    else if t.kind = .slash then do
      let (f, ⟨c₂, h₂⟩) ← factor g c₁
      let (fs, e) ← moreFactors g c₂
      return (inverse f :: fs, (After.after h₁ (.onward h₂ e)).toFrom)
    else if startsFactor t.kind then do
      let (f, ⟨c₂, h₂⟩) ← factor g c
      let (fs, e) ← moreFactors g c₂
      return (f :: fs, (After.onward h₂ e).toFrom)
    else return ([], c.stay)
termination_by 10 * c.rest.length + 7

def factor (g : Grammar) (c : Cursor) : Except Error (Formula × c.After) :=
  match c.accept? .minus with
  | some (_, ⟨c₁, h₁⟩) => do
    let (f, e) ← factor g c₁
    return (f.negate, .after h₁ e)
  | none => primary g c
termination_by 10 * c.rest.length + 6

def primary (g : Grammar) (c : Cursor) : Except Error (Formula × c.After) := do
  let (f, ⟨c₁, h₁⟩) ← atom g c
  let (f, e) ← postfixes g c₁.last f c₁
  return (f, .onward h₁ e)
termination_by 10 * c.rest.length + 5

/-- Exponents and derivative indices after something that ends at an offset. -/
def postfixes (g : Grammar) (stop : Nat) (f : Formula) (c : Cursor) :
    Except Error (Formula × c.From) :=
  match c.next? with
  | none => return (f, c.stay)
  | some (t, ⟨c₁, h₁⟩) =>
    if t.kind = .superscript then do
      let (e, ⟨c₂, h₂⟩) ← exponent g c₁
      let (f, e) ← postfixes g stop (power f e) c₂
      return (f, (After.after h₁ (.onward h₂ e)).toFrom)
    else if t.kind = .subscript then do
      let (script, ⟨c₂, h₂⟩) ← Script.read g .lower c₁
      if !script.indices.isEmpty then
        Grammar.misindexed ⟨t.span.start, c₂.last⟩ .indexedExpression
      else
        let (f, e) ← postfixes g stop (differentiated stop f script.derivatives) c₂
        return (f, (After.after h₁ (.onward h₂ e)).toFrom)
    else return (f, c.stay)
termination_by 10 * c.rest.length

def atom (g : Grammar) (c : Cursor) : Except Error (Formula × c.After) :=
  match c.next? with
  | none => Grammar.failAt (g.here c) .expression
  | some (t, ⟨c₁, h₁⟩) =>
    match t.kind with
    | .number text => do return (← numeral text t.span, ⟨c₁, h₁⟩)
    | .openParen => do
      let (f, ⟨c₂, h₂⟩) ← expression g c₁
      let (_, e) ← g.expect c₂ .closeParen .closeParen
      return (f, .after h₁ (.after h₂ e))
    | .openBracket => do
      let (f, ⟨c₂, h₂⟩) ← expression g c₁
      let (_, e) ← g.expect c₂ .closeBracket .closeBracket
      return (f, .after h₁ (.after h₂ e))
    | .openBrace => group g c
    | .letter _ => named g t c
    | .command "left" => do
      let (f, e) ← delimited g t.span c₁
      return (f, .after h₁ e)
    | .command "frac" => do
      let (numerator, ⟨c₂, h₂⟩) ← group g c₁
      let (denominator, e) ← group g c₂
      return (product [numerator, inverse denominator], .after h₁ (.after h₂ e))
    | .command "sqrt" => do
      let (f, e) ← root g c₁
      return (f, .after h₁ e)
    | .command "partial" => do
      let (f, e) ← operator g .partialDerivative t.span.start c₁
      return (f, .after h₁ e)
    | .command "nabla" => do
      let (f, e) ← operator g (.covariant .none) t.span.start c₁
      return (f, .after h₁ e)
    | .command "pi" => return (sym "pi", ⟨c₁, h₁⟩)
    | .command name =>
      match Grammar.accentedNabla? c, Command.function? name with
      | some (mark, ⟨c₂, h₂⟩), _ => do
        let (f, e) ← operator g (.covariant mark) t.span.start c₂
        return (f, .after h₂ e)
      | none, some f => do
        let (f, e) ← function g f c₁
        return (f, .after h₁ e)
      | none, none => named g t c
    | _ => Grammar.failAt t.span .expression
termination_by 10 * c.rest.length + 4

def delimited (g : Grammar) (left : Span) (c : Cursor) : Except Error (Formula × c.After) :=
  match c.next? with
  | none => Grammar.failAt left .leftDelimiter
  | some (t, ⟨c₁, h₁⟩) =>
    if isOpening t.kind then do
      let (f, ⟨c₂, h₂⟩) ← expression g c₁
      let (_, ⟨c₃, h₃⟩) ← g.expect c₂ (.command "right") .right
      match c₃.next? with
      | none => Grammar.failAt (g.here c₃) .rightDelimiter
      | some (t, e) =>
        if isClosing t.kind then return (f, .after h₁ (.after h₂ (.after h₃ e)))
        else Grammar.failAt (g.here e.val) .rightDelimiter
    else Grammar.failAt left .leftDelimiter
termination_by 10 * c.rest.length

def root (g : Grammar) (c : Cursor) : Except Error (Formula × c.After) :=
  match c.accept? .openBracket with
  | some (_, ⟨c₁, h₁⟩) => do
    let (degree, ⟨c₂, h₂⟩) ← expression g c₁
    let (_, ⟨c₃, h₃⟩) ← g.expect c₂ .closeBracket .closeBracket
    let (radicand, e) ← group g c₃
    return (power radicand (rootExponent degree), .after h₁ (.after h₂ (.after h₃ e)))
  | none => do
    let (radicand, e) ← group g c
    return (power radicand (num (1 / 2)), e)
termination_by 10 * c.rest.length + 4

def group (g : Grammar) (c : Cursor) : Except Error (Formula × c.After) := do
  let (opened, ⟨c₁, h₁⟩) ← g.expect c .openBrace .openBrace
  match c₁.accept? .closeBrace with
  | some (closed, _) => Grammar.failAt ⟨opened.start, closed.stop⟩ .expression
  | none =>
    let (f, ⟨c₂, h₂⟩) ← expression g c₁
    let (_, e) ← g.expect c₂ .closeBrace .closeBrace
    return (f, .after h₁ (.after h₂ e))
termination_by 10 * c.rest.length + 3

def exponent (g : Grammar) (c : Cursor) : Except Error (Formula × c.After) :=
  match c.next? with
  | none => Grammar.failAt (g.here c) .exponent
  | some (t, e) =>
    match t.kind with
    | .openBrace => group g c
    | .number text => do return (← numeral text t.span, e)
    | .letter l => return (sym l.toString, e)
    | .command name =>
      if name = "pi" ∨ Command.isGreek name then return (sym name, e)
      else Grammar.failAt t.span .exponent
    | _ => Grammar.failAt t.span .exponent
termination_by 10 * c.rest.length + 4

/-- The argument of a function, after a power of the function if there is one. The power
-1 stands for the inverse function. -/
def function (g : Grammar) (f : Func) (c : Cursor) : Except Error (Formula × c.After) :=
  match c.accept? .superscript with
  | some (_, ⟨c₁, h₁⟩) => do
    let (n, ⟨c₂, h₂⟩) ← exponent g c₁
    let (a, e) ← argument g c₂
    let value := if n.isMinusOne then fn f.inverse a else power (fn f a) n
    return (value, .after h₁ (.after h₂ e))
  | none => do
    let (a, e) ← argument g c
    return (fn f a, e)
termination_by 10 * c.rest.length + 7

def argument (g : Grammar) (c : Cursor) : Except Error (Formula × c.After) :=
  if isBracketed c.peek? then atom g c else primary g c
termination_by 10 * c.rest.length + 6

def operator (g : Grammar) (kind : DerivativeKind) (start : Nat) (c : Cursor) :
    Except Error (Formula × c.After) :=
  match c.next? with
  | none => Grammar.misindexed ⟨start, c.last⟩ .operatorWithoutIndex
  | some (t, ⟨c₁, h₁⟩) =>
    let continueAt (height : Height) := do
      let (script, ⟨c₂, h₂⟩) ← Script.read g height c₁
      if script.indices.isEmpty || !script.derivatives.isEmpty then
        Grammar.misindexed ⟨start, c₂.last⟩ .operatorIndexList
      else
        let (f, e) ← primary g c₂
        return (operated kind script.indices ⟨start, e.val.last⟩ f, .after h₁ (.after h₂ e))
    match t.kind with
    | .subscript => continueAt .lower
    | .superscript => continueAt .upper
    | _ => Grammar.misindexed ⟨start, c.last⟩ .operatorWithoutIndex
termination_by 10 * c.rest.length

/-- A name with its scripts, at its first token. The name `e` with an exponent is the
exponential function, unless it is a tensor. -/
def named (g : Grammar) (t : Token) (c : Cursor) : Except Error (Formula × c.After) := do
  match ← g.name? c with
  | none => Grammar.failAt t.span .expression
  | some (base, ⟨c₁, h₁⟩) =>
    match c₁.accept? .superscript with
    | some (_, ⟨c₂, h₂⟩) =>
      if base = "e" ∧ !g.isTensor base then
        let (f, e) ← exponent g c₂
        return (fn .exp f, .after h₁ (.after h₂ e))
      else
        let (f, e) ← withScripts g base t.span.start c₁
        return (f, .onward h₁ e)
    | none =>
      let (f, e) ← withScripts g base t.span.start c₁
      return (f, .onward h₁ e)
termination_by 10 * c.rest.length + 2

end

end Formula

namespace Grammar

def tokens (segment : Segment) : Except Error (List Token) := do
  let tokens ← Token.scan segment
  match strayBrace? 0 false tokens with
  | some span => misindexed span .strayBrace
  | none => return tokens

def expectEnd (g : Grammar) (c : Cursor) : Except Error Unit :=
  if c.rest.isEmpty then return else failAt (g.here c) .endOfEquation

def target (g : Grammar) (c : Cursor) : Except Error (TensorRef × c.After) := do
  match ← g.name? c with
  | none => failAt (g.here c) .target
  | some (base, ⟨c₁, h₁⟩) =>
    let (indices, e) ← Script.readTarget g c₁
    return (.ofBase base indices ⟨(g.here c).start, e.val.last⟩, .onward h₁ e)

def equation (g : Grammar) (c : Cursor) : Except Error (Equation × c.After) := do
  let (target, ⟨c₁, h₁⟩) ← g.target c
  let (_, ⟨c₂, h₂⟩) ← g.expect c₁ .equals .equals
  let (value, e) ← Formula.expression g c₂
  return (⟨target, value, ⟨(g.here c).start, e.val.last⟩⟩, .after h₁ (.after h₂ e))

end Grammar

def Formula.parse (document : List Char) (segment : Segment) (isTensor : String → Bool) :
    Except Error Formula := do
  let g : Grammar := ⟨document, segment.stop, isTensor⟩
  let tokens ← Grammar.tokens segment
  let (f, e) ← Formula.expression g (Cursor.start tokens segment.stop)
  g.expectEnd e.val
  return f

def Equation.parse (document : List Char) (segment : Segment) (isTensor : String → Bool) :
    Except Error Equation := do
  let g : Grammar := ⟨document, segment.stop, isTensor⟩
  let tokens ← Grammar.tokens segment
  let (equation, e) ← g.equation (Cursor.start tokens segment.stop)
  g.expectEnd e.val
  return equation

end TensorCalculus
