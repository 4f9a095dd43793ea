
/-! Natural numbers in decimal. -/
namespace TensorCalculus

/-- The number that some digits denote, after a plus sign if there is one. Numbers beyond
64 bits are refused. -/
def natural? (cs : List Char) : Option Nat :=
  let digits :=
    match cs with
    | '+' :: rest => rest
    | _ => cs
  if digits.isEmpty || !digits.all Char.isDigit then none
  else
    let n := digits.foldl (fun n c => 10 * n + (c.toNat - '0'.toNat)) 0
    if n < 18446744073709551616 then some n else none

/-! The characters that count as white space: the Unicode property `White_Space`. -/

def isBlank (c : Char) : Bool :=
  let n := c.toNat
  (0x09 ≤ n && n ≤ 0x0D) || n == 0x20 || n == 0x85 || n == 0xA0 || n == 0x1680
    || (0x2000 ≤ n && n ≤ 0x200A) || n == 0x2028 || n == 0x2029 || n == 0x202F
    || n == 0x205F || n == 0x3000

/-! Places in a document. Offsets count the bytes of the UTF-8 encoding; a segment is a run
of characters together with the offset at which it starts. -/

/-- A range of byte offsets, the end excluded. -/
structure Span where
  start : Nat
  stop : Nat
deriving DecidableEq, Repr, Inhabited

/-- The place of what is not written in the document. -/
def Span.none : Span := ⟨0, 0⟩

def byteLength (cs : List Char) : Nat :=
  cs.foldr (fun c n => c.utf8Size + n) 0

@[simp] theorem byteLength_nil : byteLength [] = 0 := rfl

@[simp] theorem byteLength_cons (c : Char) (cs : List Char) :
    byteLength (c :: cs) = c.utf8Size + byteLength cs := rfl

@[simp] theorem byteLength_append (as bs : List Char) :
    byteLength (as ++ bs) = byteLength as + byteLength bs := by
  induction as with
  | nil => simp
  | cons c cs ih => simp [ih, Nat.add_assoc]

/-- What follows the first `n` bytes, unless they end inside a character or there are fewer. -/
def dropBytes? : Nat → List Char → Option (List Char)
  | 0, cs => some cs
  | _ + 1, [] => none
  | n + 1, c :: cs => if c.utf8Size ≤ n + 1 then dropBytes? (n + 1 - c.utf8Size) cs else none

/-- The first `n` bytes, under the same conditions. -/
def takeBytes? : Nat → List Char → Option (List Char)
  | 0, _ => some []
  | _ + 1, [] => none
  | n + 1, c :: cs =>
    if c.utf8Size ≤ n + 1 then (takeBytes? (n + 1 - c.utf8Size) cs).map (c :: ·) else none

structure Segment where
  offset : Nat
  chars : List Char
deriving DecidableEq, Repr, Inhabited

namespace Segment

def ofString (s : String) : Segment :=
  ⟨0, s.toList⟩

def stop (s : Segment) : Nat :=
  s.offset + byteLength s.chars

def span (s : Segment) : Span :=
  ⟨s.offset, s.stop⟩

def text (s : Segment) : String :=
  String.ofList s.chars

def isEmpty (s : Segment) : Bool :=
  s.chars.isEmpty

/-- The part of a document at a span, unless the span is reversed, leaves the document or
splits a character. -/
def slice? (document : List Char) (span : Span) : Option Segment := do
  if span.stop < span.start then none
  let rest ← dropBytes? span.start document
  let cs ← takeBytes? (span.stop - span.start) rest
  return ⟨span.start, cs⟩

def take (s : Segment) (n : Nat) : Segment :=
  ⟨s.offset, s.chars.take n⟩

def drop (s : Segment) (n : Nat) : Segment :=
  ⟨s.offset + byteLength (s.chars.take n), s.chars.drop n⟩

def takeWhile (s : Segment) (p : Char → Bool) : Segment :=
  ⟨s.offset, s.chars.takeWhile p⟩

def dropWhile (s : Segment) (p : Char → Bool) : Segment :=
  ⟨s.offset + byteLength (s.chars.takeWhile p), s.chars.dropWhile p⟩

def dropWhileEnd (s : Segment) (p : Char → Bool) : Segment :=
  ⟨s.offset, (s.chars.reverse.dropWhile p).reverse⟩

def trim (s : Segment) : Segment :=
  (s.dropWhile isBlank).dropWhileEnd isBlank

end Segment

end TensorCalculus
