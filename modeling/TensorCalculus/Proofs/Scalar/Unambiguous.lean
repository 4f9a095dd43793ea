import Mathlib
import TensorCalculus.Proofs.Scalar.Hereditary
import TensorCalculus.Proofs.Text.Slice
import TensorCalculus.Scalar.Text

/-! A reader for infix text. It works from the left, one lexeme at a time, and keeps a value for each
open bracket. `Reads I level s v` says that the text `s` stands for `v` wherever an operand that
binds at least as strongly as `level` may stand. -/
namespace TensorCalculus

open List String

/-- What symbols, functions and powers stand for in a field. The symbol `E` is the text of
`exp(1)`. -/
structure Interpretation (K : Type*) [Field K] where
  sym : String → K
  fn : Func → K → K
  pow : K → K → K
  pow_one : ∀ b, pow b 1 = b
  pow_neg : ∀ b r, pow b (-r) = (pow b r)⁻¹
  sym_E : sym "E" = fn .exp 1

/-- A call is a word together with the opening bracket after it. -/
inductive Lexeme where
  | word (letters : List Char)
  | call (letters : List Char)
  | opening | closing | times | power | slash | plus | minus
deriving DecidableEq

namespace Lexeme

def isWordChar (c : Char) : Bool :=
  c.isAlphanum || c == '_'

def pushLetter (c : Char) : List Lexeme → List Lexeme
  | word w :: ts => word (c :: w) :: ts
  | call w :: ts => call (c :: w) :: ts
  | opening :: ts => call [c] :: ts
  | ts => word [c] :: ts

def pushStar : List Lexeme → List Lexeme
  | times :: ts => power :: ts
  | ts => times :: ts

/-- One more character in front. Blanks are left out. -/
def push (c : Char) (ts : List Lexeme) : List Lexeme :=
  if isWordChar c then pushLetter c ts
  else match c with
    | '*' => pushStar ts
    | '(' => opening :: ts
    | ')' => closing :: ts
    | '/' => slash :: ts
    | '+' => plus :: ts
    | '-' => minus :: ts
    | _ => ts

def lex (cs : List Char) : List Lexeme :=
  cs.foldr push []

def follows : Lexeme → Bool
  | word _ | call _ | opening => false
  | _ => true

/-- The characters are read as `ts` if an operand may end there. -/
def Spells (cs : List Char) (ts : List Lexeme) : Prop :=
  ∀ us : List Lexeme, (∀ u ∈ us.head?, u.follows) → cs.foldr push us = ts ++ us

variable {cs ds : List Char} {ts us : List Lexeme} {t u : Lexeme}

theorem Spells.lex_eq (h : Spells cs ts) : lex cs = ts := by
  have := h [] (by simp)
  simpa [lex] using this

theorem push_letter {c : Char} (hc : isWordChar c) : push c ts = pushLetter c ts :=
  if_pos hc

theorem spells_nil : Spells [] [] := fun _ _ => rfl

theorem Spells.append (h : Spells cs ts) (hd : Spells ds (u :: us)) (hu : u.follows) :
    Spells (cs ++ ds) (ts ++ u :: us) := by
  intro vs hvs
  rw [foldr_append, hd vs hvs, h _ (by simpa using hu), List.append_assoc]

theorem spells_word {w : List Char} (hw : w ≠ []) (hall : ∀ c ∈ w, isWordChar c) :
    Spells w [word w] := by
  intro us hus
  induction w with
  | nil => contradiction
  | cons c w ih =>
    have hc := hall c (by simp)
    rw [foldr_cons]
    by_cases hnil : w = []
    · subst hnil
      rw [foldr_nil, push_letter hc]
      rcases us with - | ⟨u, us⟩
      · rfl
      · cases u <;> first | rfl | exact absurd (hus _ rfl) (by simp [follows])
    · rw [ih hnil fun d hd => hall d (mem_cons_of_mem c hd), push_letter hc]
      rfl

theorem Spells.call {w : List Char} (hw : w ≠ []) (hall : ∀ c ∈ w, isWordChar c)
    (h : Spells cs ts) : Spells (w ++ '(' :: cs) (call w :: ts) := by
  intro us hus
  rw [foldr_append, foldr_cons, h us hus]
  induction w with
  | nil => contradiction
  | cons c w ih =>
    have hc := hall c (by simp)
    rw [foldr_cons]
    by_cases hnil : w = []
    · subst hnil
      rw [foldr_nil, push_letter hc]
      rfl
    · rw [ih hnil fun d hd => hall d (mem_cons_of_mem c hd), push_letter hc]
      rfl

theorem Spells.opening (h : Spells cs ts) : Spells ('(' :: cs) (opening :: ts) := by
  intro us hus
  rw [foldr_cons, h us hus]
  rfl

theorem Spells.slash (h : Spells cs ts) : Spells ('/' :: cs) (slash :: ts) := by
  intro us hus
  rw [foldr_cons, h us hus]
  rfl

theorem Spells.minus (h : Spells cs ts) : Spells ('-' :: cs) (minus :: ts) := by
  intro us hus
  rw [foldr_cons, h us hus]
  rfl

theorem Spells.plus (h : Spells cs ts) : Spells ('+' :: cs) (plus :: ts) := by
  intro us hus
  rw [foldr_cons, h us hus]
  rfl

theorem Spells.blank (h : Spells cs ts) : Spells (' ' :: cs) ts := by
  intro us hus
  rw [foldr_cons, h us hus]
  rfl

theorem spells_closing : Spells [')'] [closing] := by
  intro us _
  rfl

theorem push_star (h : t ≠ times) : push '*' (t :: ts) = times :: t :: ts := by
  cases t <;> first | rfl | contradiction

theorem Spells.times (h : Spells cs (t :: ts)) (ht : t ≠ times) :
    Spells ('*' :: cs) (Lexeme.times :: t :: ts) := by
  intro us hus
  rw [foldr_cons, h us hus]
  exact push_star ht

theorem Spells.power (h : Spells cs (t :: ts)) (ht : t ≠ Lexeme.times) :
    Spells ('*' :: '*' :: cs) (power :: t :: ts) := by
  intro us hus
  rw [foldr_cons, Spells.times h ht us hus]
  rfl

end Lexeme

namespace Interpretation

variable {K : Type*} [Field K] (I : Interpretation K)

def number (w : List Char) : Nat :=
  w.foldl (fun n c => 10 * n + (c.toNat - '0'.toNat)) 0

def word (w : List Char) : K :=
  if w.all Char.isDigit then (number w : K) else I.sym (String.ofList w)

def call (w : List Char) : K → K :=
  if w = "sqrt".toList then fun v => I.pow v ((1 / 2 : Rat) : K)
  else match Func.ofName? (String.ofList w) with
    | some f => I.fn f
    | none => id

end Interpretation

/-- How far a sum has been read. The next operand is raised to from `base`, divided by if
`inverse`, multiplied by the coefficient and added to the total. -/
structure Frame (K : Type*) where
  total : K
  coefficient : K
  inverse : Bool
  base : Option K

namespace Frame

variable {K : Type*} [Field K] (I : Interpretation K)

def raise (f : Frame K) (v : K) : K :=
  match f.base with
  | none => v
  | some b => I.pow b v

def term (f : Frame K) (v : K) : K :=
  if f.inverse then f.coefficient * (f.raise I v)⁻¹ else f.coefficient * f.raise I v

def start (total coefficient : K) : Frame K := ⟨total, coefficient, false, none⟩

end Frame

/-- A frame for each open bracket, with what is done to the value in the bracket. -/
abbrev Brackets (K : Type*) := List (Frame K × (K → K))

inductive ReaderState (K : Type*) where
  | expecting (f : Frame K) (outer : Brackets K)
  | holding (f : Frame K) (v : K) (outer : Brackets K)

namespace ReaderState

open Lexeme TensorCalculus.Frame

variable {K : Type*} [Field K] (I : Interpretation K)

def close (v : K) : Brackets K → ReaderState K
  | [] => holding (start 0 1) v []
  | (f, g) :: outer => holding f (g v) outer

/-- Lexemes that cannot stand at a place are passed over there. -/
def step : ReaderState K → Lexeme → ReaderState K
  | expecting f outer, word w => holding f (I.word w) outer
  | expecting f outer, call w => expecting (start 0 1) ((f, I.call w) :: outer)
  | expecting f outer, opening => expecting (start 0 1) ((f, id) :: outer)
  | expecting f outer, closing => close f.total outer
  | expecting f outer, minus => expecting { f with coefficient := -f.coefficient } outer
  | expecting f outer, _ => expecting f outer
  | holding f v outer, times => expecting (start f.total (f.term I v)) outer
  | holding f v outer, slash => expecting ⟨f.total, f.term I v, true, none⟩ outer
  | holding f v outer, power => expecting { f with base := some (f.raise I v) } outer
  | holding f v outer, plus => expecting (start (f.total + f.term I v) 1) outer
  | holding f v outer, minus => expecting (start (f.total + f.term I v) (-1)) outer
  | holding f v outer, closing => close (f.total + f.term I v) outer
  | holding f v outer, _ => holding f v outer

def run (r : ReaderState K) (ts : List Lexeme) : ReaderState K :=
  ts.foldl (step I) r

def amount : ReaderState K → K
  | expecting f _ => f.total
  | holding f v _ => f.total + f.term I v

variable {ts us : List Lexeme} {v w : K} {outer : Brackets K} {r : ReaderState K}

@[simp] theorem run_nil : run I r [] = r := rfl

@[simp] theorem run_cons (t : Lexeme) : run I r (t :: ts) = run I (step I r t) ts := rfl

theorem run_append : run I r (ts ++ us) = run I (run I r ts) us :=
  foldl_append

/-- `v` has been read as a sum in the innermost open bracket. -/
def Sums (r : ReaderState K) (v : K) (outer : Brackets K) : Prop :=
  r = expecting (start v 1) outer ∨
    ∃ f w, r = holding f w outer ∧ f.total + f.term I w = v

theorem Sums.amount_eq (h : r.Sums I v outer) : r.amount I = v := by
  obtain rfl | ⟨f, w, rfl, rfl⟩ := h <;> rfl

theorem Sums.step_plus (h : r.Sums I v outer) : step I r plus = expecting (start v 1) outer := by
  obtain rfl | ⟨f, w, rfl, rfl⟩ := h <;> rfl

theorem Sums.step_minus (h : r.Sums I v outer) :
    step I r minus = expecting (start v (-1)) outer := by
  obtain rfl | ⟨f, w, rfl, rfl⟩ := h <;> rfl

theorem Sums.step_closing (h : r.Sums I v outer) : step I r closing = close v outer := by
  obtain rfl | ⟨f, w, rfl, rfl⟩ := h <;> rfl

/-- The lexemes are an operand of the value `v`, after which the place is the same but for the
operand. -/
def Atom (ts : List Lexeme) (v : K) : Prop :=
  ∀ f outer, run I (expecting f outer) ts = holding f v outer

/-- An operand that a product or a quotient can contain. -/
def Power (ts : List Lexeme) (v : K) : Prop :=
  ∀ total coefficient inverse outer, ∃ b w,
    raise I ⟨total, coefficient, inverse, b⟩ w = v ∧
      run I (expecting ⟨total, coefficient, inverse, none⟩ outer) ts =
        holding ⟨total, coefficient, inverse, b⟩ w outer

/-- An operand that the left side of a product or a quotient can be. -/
def Product (ts : List Lexeme) (v : K) : Prop :=
  ∀ total coefficient outer, ∃ f w, f.total = total ∧ f.term I w = coefficient * v ∧
    run I (expecting (start total coefficient) outer) ts = holding f w outer

def Sum (ts : List Lexeme) (v : K) : Prop :=
  ∀ total outer, (run I (expecting (start total 1) outer) ts).Sums I (total + v) outer

variable {I}

theorem Atom.power (h : Atom I ts v) : Power I ts v :=
  fun _ _ _ _ => ⟨none, v, rfl, h _ _⟩

theorem Power.product (h : Power I ts v) : Product I ts v := by
  intro total coefficient outer
  obtain ⟨b, w, rfl, hrun⟩ := h total coefficient false outer
  exact ⟨_, w, rfl, rfl, hrun⟩

theorem Product.sum (h : Product I ts v) : Sum I ts v := by
  intro total outer
  obtain ⟨f, w, rfl, hw, hrun⟩ := h total 1 outer
  exact .inr ⟨f, w, hrun, by rw [hw, one_mul]⟩

theorem atom_word (w : List Char) : Atom I [word w] (I.word w) :=
  fun _ _ => rfl

theorem Sum.close (h : Sum I ts v) (f : Frame K) (g : K → K) (outer : Brackets K) :
    run I (expecting (start 0 1) ((f, g) :: outer)) (ts ++ [closing]) = holding f (g v) outer := by
  rw [run_append, run_cons, (h 0 _).step_closing, zero_add]
  rfl

theorem Sum.call (h : Sum I ts v) (w : List Char) :
    Atom I (.call w :: (ts ++ [closing])) (I.call w v) :=
  fun _ _ => h.close _ _ _

theorem Sum.brackets (h : Sum I ts v) : Atom I (opening :: (ts ++ [closing])) v :=
  fun _ _ => h.close _ _ _

theorem Atom.raise (h : Atom I ts v) (h' : Atom I us w) :
    Power I (ts ++ .power :: us) (I.pow v w) := by
  intro total coefficient inverse outer
  refine ⟨some v, w, rfl, ?_⟩
  rw [run_append, h, run_cons, step, h']
  rfl

theorem Product.neg (h : Product I ts v) : Product I (minus :: ts) (-v) := by
  intro total coefficient outer
  obtain ⟨f, w, rfl, hw, hrun⟩ := h total (-coefficient) outer
  exact ⟨f, w, rfl, by rw [hw]; ring, hrun⟩

theorem Product.mul (h : Product I ts v) (h' : Product I us w) :
    Product I (ts ++ times :: us) (v * w) := by
  intro total coefficient outer
  obtain ⟨f, x, rfl, hx, hrun⟩ := h total coefficient outer
  obtain ⟨g, y, hg, hy, hrun'⟩ := h' f.total (f.term I x) outer
  refine ⟨g, y, hg, by rw [hy, hx]; ring, ?_⟩
  rw [run_append, hrun, run_cons, step, hrun']

theorem Product.div (h : Product I ts v) (h' : Power I us w) :
    Product I (ts ++ slash :: us) (v / w) := by
  intro total coefficient outer
  obtain ⟨f, x, rfl, hx, hrun⟩ := h total coefficient outer
  obtain ⟨b, y, rfl, hrun'⟩ := h' f.total (f.term I x) true outer
  refine ⟨⟨f.total, f.term I x, true, b⟩, y, rfl, ?_, ?_⟩
  · rw [term, if_pos rfl, hx, mul_assoc, div_eq_mul_inv]
  · rw [run_append, hrun, run_cons, step, hrun']

theorem Sum.add (h : Sum I ts v) (h' : Sum I us w) : Sum I (ts ++ plus :: us) (v + w) := by
  intro total outer
  rw [run_append, run_cons, (h total outer).step_plus, ← add_assoc]
  exact h' _ outer

theorem Sum.sub (h : Sum I ts v) (h' : Product I us w) : Sum I (ts ++ minus :: us) (v - w) := by
  intro total outer
  obtain ⟨f, x, hf, hx, hrun⟩ := h' (total + v) (-1) outer
  rw [run_append, run_cons, (h total outer).step_minus, hrun]
  exact .inr ⟨f, x, rfl, by rw [hf, hx]; ring⟩

theorem sum_nil : Sum I [] (0 : K) :=
  fun total outer => .inl (by rw [add_zero]; rfl)

end ReaderState

open Lexeme ReaderState

variable {K : Type*} [Field K] {I : Interpretation K}

/-- Operands by what may stand around them: sums 1, products 2, powers 3, atoms 4. -/
def ReaderState.Binds (I : Interpretation K) : Nat → List Lexeme → K → Prop
  | 0 => ReaderState.Sum I
  | 1 => ReaderState.Sum I
  | 2 => ReaderState.Product I
  | 3 => ReaderState.Power I
  | _ => ReaderState.Atom I

theorem ReaderState.Binds.of_succ {n : Nat} {ts : List Lexeme} {v : K} (h : Binds I (n + 1) ts v) :
    Binds I n ts v := by
  rcases n with - | - | - | - | n
  · exact h
  · exact Product.sum h
  · exact Power.product h
  · exact Atom.power h
  · exact h

theorem ReaderState.Binds.mono {m n : Nat} {ts : List Lexeme} {v : K} (h : Binds I n ts v)
    (hmn : m ≤ n) : Binds I m ts v := by
  induction hmn with
  | refl => exact h
  | step _ ih => exact ih h.of_succ

/-- The text stands for `v` as an operand of the level. Only a sum can be empty. -/
def Reads (I : Interpretation K) (level : Nat) (s : String) (v : K) : Prop :=
  ∃ ts, Spells s.toList ts ∧ (2 ≤ level → ∃ t us, ts = t :: us ∧ t ≠ times) ∧ Binds I level ts v

namespace Reads

variable {a b : String} {m n : Nat} {v w : K}

theorem unique (hv : Reads I n a v) (hw : Reads I m a w) : v = w := by
  obtain ⟨ts, hts, -, hv⟩ := hv
  obtain ⟨us, hus, -, hw⟩ := hw
  have heq : ts = us := hts.lex_eq.symm.trans hus.lex_eq
  subst heq
  have hv := (hv.mono (Nat.zero_le n) 0 []).amount_eq
  have hw := (hw.mono (Nat.zero_le m) 0 []).amount_eq
  rw [zero_add] at hv hw
  rw [← hv, hw]

theorem mono (h : Reads I n a v) (hmn : m ≤ n) : Reads I m a v := by
  obtain ⟨ts, hts, hhead, hbinds⟩ := h
  exact ⟨ts, hts, fun hm => hhead (hm.trans hmn), hbinds.mono hmn⟩

theorem of_word {s : String} (hne : s.toList ≠ []) (hall : ∀ c ∈ s.toList, isWordChar c) :
    Reads I 4 s (I.word s.toList) :=
  ⟨[word s.toList], spells_word hne hall, fun _ => ⟨_, _, rfl, by simp⟩, atom_word _⟩

theorem call (h : Reads I 1 a v) {s : String} (hne : s.toList ≠ [])
    (hall : ∀ c ∈ s.toList, isWordChar c) :
    Reads I 4 (s ++ "(" ++ a ++ ")") (I.call s.toList v) := by
  obtain ⟨ts, hts, -, hsum⟩ := h
  refine ⟨.call s.toList :: (ts ++ [closing]), ?_, fun _ => ⟨_, _, rfl, by simp⟩, Sum.call hsum _⟩
  have := Spells.call hne hall (hts.append spells_closing rfl)
  simpa [toList_append] using this

theorem brackets (h : Reads I 1 a v) : Reads I 4 ("(" ++ a ++ ")") v := by
  obtain ⟨ts, hts, -, hsum⟩ := h
  refine ⟨opening :: (ts ++ [closing]), ?_, fun _ => ⟨_, _, rfl, by simp⟩, Sum.brackets hsum⟩
  have := (hts.append spells_closing rfl).opening
  simpa [toList_append] using this

theorem power (h : Reads I 4 a v) (h' : Reads I 4 b w) : Reads I 3 (a ++ "**" ++ b) (I.pow v w) := by
  obtain ⟨_, hts, hhead, hv⟩ := h
  obtain ⟨t, ts, rfl, ht⟩ := hhead (by decide)
  obtain ⟨_, hus, hhead', hw⟩ := h'
  obtain ⟨u, us, rfl, hu⟩ := hhead' (by decide)
  refine ⟨_, ?_, fun _ => ⟨_, _, rfl, ht⟩, Atom.raise hv hw⟩
  have := hts.append (hus.power hu) rfl
  simpa [toList_append] using this

theorem neg (h : Reads I 2 a v) : Reads I 2 ("-" ++ a) (-v) := by
  obtain ⟨ts, hts, -, hv⟩ := h
  refine ⟨minus :: ts, ?_, fun _ => ⟨_, _, rfl, by simp⟩, Product.neg hv⟩
  simpa [toList_append] using hts.minus

theorem mul (h : Reads I 2 a v) (h' : Reads I 2 b w) : Reads I 2 (a ++ "*" ++ b) (v * w) := by
  obtain ⟨_, hts, hhead, hv⟩ := h
  obtain ⟨t, ts, rfl, ht⟩ := hhead (by decide)
  obtain ⟨_, hus, hhead', hw⟩ := h'
  obtain ⟨u, us, rfl, hu⟩ := hhead' (by decide)
  refine ⟨_, ?_, fun _ => ⟨_, _, rfl, ht⟩, Product.mul hv hw⟩
  have := hts.append (hus.times hu) rfl
  simpa [toList_append] using this

theorem div (h : Reads I 2 a v) (h' : Reads I 3 b w) : Reads I 2 (a ++ "/" ++ b) (v / w) := by
  obtain ⟨_, hts, hhead, hv⟩ := h
  obtain ⟨t, ts, rfl, ht⟩ := hhead (by decide)
  obtain ⟨us, hus, -, hw⟩ := h'
  refine ⟨_, ?_, fun _ => ⟨_, _, rfl, ht⟩, Product.div hv hw⟩
  have := hts.append hus.slash rfl
  simpa [toList_append] using this

theorem add (h : Reads I 1 a v) (h' : Reads I 1 b w) : Reads I 1 (a ++ " + " ++ b) (v + w) := by
  obtain ⟨ts, hts, -, hv⟩ := h
  obtain ⟨us, hus, -, hw⟩ := h'
  refine ⟨_, ?_, fun h => absurd h (by decide), Sum.add hv hw⟩
  have := hts.append hus.blank.plus.blank rfl
  simpa [toList_append] using this

theorem sub (h : Reads I 1 a v) (h' : Reads I 2 b w) : Reads I 1 (a ++ " - " ++ b) (v - w) := by
  obtain ⟨ts, hts, -, hv⟩ := h
  obtain ⟨us, hus, -, hw⟩ := h'
  refine ⟨_, ?_, fun h => absurd h (by decide), Sum.sub hv hw⟩
  have := hts.append hus.blank.minus.blank rfl
  simpa [toList_append] using this

theorem empty : Reads I 1 "" 0 :=
  ⟨[], spells_nil, fun h => absurd h (by decide), sum_nil⟩

end Reads

variable {s a : String} {e : Expr} {K : Type*} [Field K] {I : Interpretation K} {v : K} {vs : List K}
  {terms : List (Bool × String)} {parts : List FractionPart}

namespace Expr

mutual

def interpret (I : Interpretation K) : Expr → K
  | num q => (q : K)
  | sym s => I.sym s
  | fn f a => I.fn f (a.interpret I)
  | pow b e => I.pow (b.interpret I) (e.interpret I)
  | mul fs => (interprets I fs).prod
  | add ts => (interprets I ts).sum

def interprets (I : Interpretation K) : List Expr → List K
  | [] => []
  | e :: es => e.interpret I :: interprets I es

end

end Expr

/-- Powers to other exponents than 1 and -1 are 1, and those of zero are `z`. -/
def Interpretation.sample (z : Rat) (hz : z⁻¹ = z) : Interpretation Rat where
  sym s := s.length
  fn _ v := v
  pow b r := if r = 1 then b else if r = -1 then b⁻¹ else if b = 0 then z else 1
  pow_one _ := if_pos rfl
  pow_neg b r := by
    have hne : (1 : Rat) ≠ -1 := by decide
    simp only [neg_eq_iff_eq_neg, neg_neg]
    by_cases h1 : r = 1
    · rw [if_neg (h1 ▸ hne), if_pos h1, if_pos h1]
    · by_cases h2 : r = -1
      · rw [if_pos h2, if_neg h1, if_pos h2, inv_inv]
      · rw [if_neg h2, if_neg h1, if_neg h1, if_neg h2]
        split <;> simp [hz]
  sym_E := rfl

/-- A letter or an underscore, then letters, digits and underscores. -/
def isIdentifier (s : String) : Bool :=
  match s.toList with
  | [] => false
  | c :: cs => (c.isAlpha || c == '_') && cs.all isWordChar

section Atoms

theorem reads_nat (n : Nat) : Reads I 4 (toString n) (n : K) := by
  have hdigit : ∀ c ∈ (toString n).toList, c.isDigit := fun c hc => isDigit_of_mem_toString hc
  have hword : I.word (toString n).toList = (n : K) := by
    rw [Interpretation.word, if_pos (all_eq_true.mpr hdigit), Interpretation.number, foldl_toString]
  rw [← hword]
  refine Reads.of_word (toList_toString_ne_nil n) fun c hc => ?_
  simp [isWordChar, Char.isAlphanum, hdigit c hc]

theorem reads_int {n : Int} (hn : 0 ≤ n) : Reads I 4 (toString n) (n : K) := by
  obtain ⟨m, rfl⟩ := Int.eq_ofNat_of_zero_le hn
  have h := reads_nat (I := I) m
  rwa [← Int.cast_natCast] at h

theorem reads_sym (hs : isIdentifier s) : Reads I 4 s (I.sym s) := by
  rw [isIdentifier] at hs
  split at hs
  · contradiction
  · next c cs heq =>
    rw [Bool.and_eq_true, all_eq_true] at hs
    have hc : isWordChar c ∧ c.isDigit = false := by
      rw [Bool.or_eq_true, beq_iff_eq] at hs
      obtain ⟨h | rfl, -⟩ := hs
      · exact ⟨by simp [isWordChar, Char.isAlphanum, h], isDigit_of_isAlpha h⟩
      · decide
    have hword : I.word s.toList = I.sym s := by
      rw [Interpretation.word, if_neg, String.ofList_toList]
      simp [heq, hc.2]
    rw [← hword]
    refine Reads.of_word (by simp [heq]) ?_
    rw [heq, forall_mem_cons]
    exact ⟨hc.1, hs.2⟩

theorem Func.ofName?_name (f : Func) : Func.ofName? f.name = some f := by
  cases f <;> rfl

theorem Reads.apply (h : Reads I 1 a v) (f : Func) :
    Reads I 4 (f.name ++ "(" ++ a ++ ")") (I.fn f v) := by
  have hcall : I.call f.name.toList = I.fn f := by
    rw [Interpretation.call, if_neg (by cases f <;> decide), String.ofList_toList,
      Func.ofName?_name]
  rw [← hcall]
  exact h.call (by cases f <;> decide) (all_eq_true.mp (by cases f <;> decide))

theorem Reads.sqrt (h : Reads I 1 a v) :
    Reads I 4 ("sqrt(" ++ a ++ ")") (I.pow v ((1 / 2 : Rat) : K)) :=
  h.call (s := "sqrt") (by decide) (all_eq_true.mp (by decide))

end Atoms

namespace Expr

theorem interprets_eq_map (es : List Expr) : interprets I es = es.map (interpret I) := by
  induction es with
  | nil => rfl
  | cons e es ih => rw [interprets, ih, map_cons]

def PartReads (I : Interpretation K) : FractionPart → K → Prop
  | .above s, v => Reads I 2 s v
  | .below s alone, v => ∃ d, v = d⁻¹ ∧ Reads I (if alone then 3 else 2) s d

/-- A term of the value `v`, or without its sign one of the value `-v`. -/
def TermReads (I : Interpretation K) : Bool × String → K → Prop
  | (false, s), v => Reads I 1 s v
  | (true, s), v => ∃ w, v = -w ∧ Reads I 2 s w

theorem one_le_precedence (e : Expr) : 1 ≤ e.precedence := by
  fun_cases precedence e <;> simp

theorem reads_bracket (h : Reads I e.precedence s v) {level : Nat} (hlevel : level ≤ 4) :
    Reads I level (bracket level e s) v := by
  rw [bracket]
  split
  · exact (h.mono (one_le_precedence e)).brackets.mono hlevel
  · next hle => exact h.mono (Nat.le_of_not_lt hle)

theorem reads_toString (n : Int) : Reads I 2 (toString n) (n : K) := by
  cases n with
  | ofNat n => exact (reads_int (Int.natCast_nonneg n)).mono (by decide)
  | negSucc n =>
    rw [Int.cast_negSucc]
    exact ((reads_nat (n + 1)).mono (by decide)).neg

theorem reads_number (q : Number) : Reads I (num q).precedence (Number.text q) (q : K) := by
  rw [Rat.cast_def, precedence, Number.text]
  by_cases hint : Number.isInteger q
  · have hden : q.den = 1 := by simpa [Number.isInteger] using hint
    rw [if_pos hint, hden, Nat.cast_one, div_one]
    split
    · next h =>
      simp only [Bool.and_eq_true, decide_eq_true_eq] at h
      exact reads_int (Rat.num_nonneg.mpr h.2)
    · exact reads_toString q.num
  · rw [if_neg hint, if_neg (by simp [hint])]
    exact (reads_toString q.num).div ((reads_nat q.den).mono (by decide))

theorem reads_rootOrPower (h : Reads I e.precedence s v) (q : Number) :
    Reads I 3 (rootOrPower e s q) (I.pow v (q : K)) := by
  rw [rootOrPower]
  split
  · next hq =>
    rw [beq_iff_eq] at hq
    subst hq
    exact (h.mono (one_le_precedence e)).sqrt.mono (by decide)
  · have hnumber := reads_number (I := I) q
    refine (reads_bracket h (by decide)).power ?_
    rw [precedence] at hnumber
    split at hnumber <;> rename_i hint
    · rw [if_pos hint]
      exact hnumber
    · rw [if_neg hint]
      exact (hnumber.mono (by decide)).brackets

theorem reads_intercalate {l : List String} (h : Forall₂ (Reads I 2) l vs) (hl : l ≠ []) :
    Reads I 2 ("*".intercalate l) vs.prod := by
  induction h with
  | nil => contradiction
  | @cons a v l vs ha h ih =>
    by_cases hnil : l = []
    · subst hnil
      cases h
      simpa using ha
    · rw [String.intercalate_cons_of_ne_nil hnil, prod_cons]
      exact ha.mul (ih hnil)

def numerator (above : List String) : String :=
  if above.isEmpty then "1" else "*".intercalate above

def denominator (below : List (String × Bool)) : String :=
  match below with
  | [] => ""
  | [(text, true)] => "/" ++ text
  | _ => "/(" ++ "*".intercalate (below.map (·.1)) ++ ")"

theorem productText_eq (q : Number) (parts : List FractionPart) :
    productText Neg.neg q parts = (if q < 0 then "-" else "") ++
      numerator ((if |q|.num == 1 then [] else [toString |q|.num]) ++ parts.filterMap (·.above?)) ++
        denominator ((if |q|.den == 1 then [] else [(toString |q|.den, true)]) ++
          parts.filterMap (·.below?)) := by
  have habs : (if q < 0 then -q else q) = |q| := by
    split
    · next h => rw [abs_of_neg h]
    · next h => rw [abs_of_nonneg (not_lt.mp h)]
  rw [← habs]
  rfl

/-- A text below the line, and whether it can stand there alone. -/
def BelowReads (I : Interpretation K) (part : String × Bool) (d : K) : Prop :=
  Reads I (if part.2 then 3 else 2) part.1 d

theorem reads_numerator {above : List String} {us : List K}
    (h : Forall₂ (Reads I 2) above us) : Reads I 2 (numerator above) us.prod := by
  rw [numerator]
  split
  · next hnil =>
    rw [List.isEmpty_iff] at hnil
    subst hnil
    cases h
    have := reads_nat (I := I) 1
    rw [Nat.cast_one] at this
    exact this.mono (by decide)
  · next hnil => exact reads_intercalate h (by simpa using hnil)

theorem Reads.denominator (ha : Reads I 2 a v) {below : List (String × Bool)} {ds : List K}
    (h : Forall₂ (BelowReads I) below ds) : Reads I 2 (a ++ denominator below) (v / ds.prod) := by
  unfold Expr.denominator
  split
  · cases h
    simpa using ha
  · obtain - | ⟨h, ⟨⟩⟩ := h
    rw [← String.append_assoc, prod_singleton]
    exact ha.div h
  · next hne _ =>
    have hlower : Forall₂ (Reads I 2) (below.map (·.1)) ds := by
      rw [forall₂_map_left_iff]
      exact h.imp fun p d h => h.mono (by split <;> decide)
    have hproduct := reads_intercalate hlower (by simpa using hne)
    have := ha.div ((hproduct.mono (show 1 ≤ 2 by decide)).brackets.mono (show 3 ≤ 4 by decide))
    rw [show "/(" = "/" ++ "(" from rfl]
    simpa only [String.append_assoc] using this

theorem exists_above_below (h : Forall₂ (PartReads I) parts vs) :
    ∃ us ds,
      Forall₂ (Reads I 2) (parts.filterMap (·.above?)) us ∧
      Forall₂ (BelowReads I) (parts.filterMap (·.below?)) ds ∧
      vs.prod = us.prod / ds.prod := by
  induction h with
  | nil => exact ⟨[], [], .nil, .nil, by simp⟩
  | @cons part v parts vs hv h ih =>
    obtain ⟨us, ds, hu, hd, hprod⟩ := ih
    cases part with
    | above s => exact ⟨v :: us, ds, .cons hv hu, hd, by simp [hprod, mul_div_assoc]⟩
    | below s alone =>
      obtain ⟨d, rfl, hs⟩ := hv
      refine ⟨us, d :: ds, hu, .cons hs hd, ?_⟩
      rw [prod_cons, prod_cons, hprod]
      ring

theorem reads_productText (q : Number) (h : Forall₂ (PartReads I) parts vs) :
    Reads I 2 (productText Neg.neg q parts) ((q : K) * vs.prod) := by
  obtain ⟨us, ds, hu, hd, hprod⟩ := exists_above_below h
  have habove : ∃ ws : List K, ws.prod = (|q|.num : K) ∧
      Forall₂ (Reads I 2) (if |q|.num == 1 then [] else [toString |q|.num]) ws := by
    split
    · next h => exact ⟨[], by simp_all, .nil⟩
    · exact ⟨[_], by simp, .cons (reads_toString _) .nil⟩
  have hbelow : ∃ ws : List K, ws.prod = (|q|.den : K) ∧
      Forall₂ (BelowReads I) (if |q|.den == 1 then [] else [(toString |q|.den, true)]) ws := by
    split
    · next h => exact ⟨[], by simp_all, .nil⟩
    · exact ⟨[_], by simp, .cons ((reads_nat _).mono (show 3 ≤ 4 by decide)) .nil⟩
  obtain ⟨us', hus', hu'⟩ := habove
  obtain ⟨ds', hds', hd'⟩ := hbelow
  have hsigned : Reads I 2 ((if q < 0 then "-" else "") ++
      numerator ((if |q|.num == 1 then [] else [toString |q|.num]) ++
        parts.filterMap (·.above?))) ((if q < 0 then -1 else 1) * (us' ++ us).prod) := by
    have := reads_numerator (rel_append hu' hu)
    split
    · rw [neg_one_mul]
      exact this.neg
    · rwa [one_mul, String.empty_append]
  have hvalue : (q : K) * vs.prod =
      (if q < 0 then -1 else 1) * (us' ++ us).prod / (ds' ++ ds).prod := by
    have hq : (q : K) = (if q < 0 then -1 else 1) * ((|q| : Rat) : K) := by
      split
      · next hneg => rw [abs_of_neg hneg, Rat.cast_neg]; ring
      · next hneg => rw [abs_of_nonneg (not_lt.mp hneg), one_mul]
    rw [hq, prod_append, prod_append, hus', hds', hprod, Rat.cast_def |q|]
    ring
  rw [productText_eq, hvalue]
  exact Reads.denominator hsigned (rel_append hd' hd)

theorem Reads.join (ha : Reads I 1 a v) (h : Forall₂ (TermReads I) terms vs) :
    Reads I 1 (a ++ String.join (terms.map fun (negative, text) =>
      (if negative then " - " else " + ") ++ text)) (v + vs.sum) := by
  induction h generalizing a v with
  | nil => simpa using ha
  | @cons term w terms ws hw h ih =>
    obtain ⟨negative, s⟩ := term
    rw [map_cons, String.join_cons, ← String.append_assoc, ← String.append_assoc,
      sum_cons, ← add_assoc]
    cases negative with
    | false => exact ih (ha.add hw)
    | true =>
      obtain ⟨x, rfl, hx⟩ := hw
      rw [← sub_eq_add_neg]
      exact ih (ha.sub hx)

theorem reads_sumText (h : Forall₂ (TermReads I) terms vs) : Reads I 1 (sumText terms) vs.sum := by
  cases h with
  | nil => exact Reads.empty
  | @cons term w terms ws hw h =>
    obtain ⟨negative, s⟩ := term
    rw [sumText, sum_cons]
    refine Reads.join ?_ h
    cases negative with
    | false =>
      rw [if_neg (by decide), String.empty_append]
      exact hw
    | true =>
      obtain ⟨x, rfl, hx⟩ := hw
      exact hx.neg.mono (by decide)

theorem partReads_divisor (h0 : ∀ q : Rat, 0 < q → I.pow 0 q = 0) (h : Reads I e.precedence s v)
    (hv : e.isZero → v = 0) {q : Number} (hq : q < 0) :
    PartReads I (divisor Neg.neg e s q) (I.pow v (q : K)) := by
  have hpow : I.pow v (q : K) = (I.pow v ((-q : Rat) : K))⁻¹ := by
    rw [← I.pow_neg, Rat.cast_neg, neg_neg]
  rw [hpow, divisor]
  split
  · next hzero =>
    refine ⟨0, ?_, ?_⟩
    · rw [hv hzero, h0 (-q) (neg_pos.mpr hq)]
    · have := reads_nat (I := I) 0
      rw [Nat.cast_zero] at this
      exact this.mono (by decide)
  split
  · next hone =>
    rw [beq_iff_eq] at hone
    subst hone
    refine ⟨v, by simp [I.pow_one], ?_⟩
    split
    · next halone =>
      rw [Bool.or_eq_true, decide_eq_true_eq, beq_iff_eq] at halone
      rw [bracket]
      obtain hp | hp := halone
      · rw [if_neg (by omega)]
        exact h.mono hp
      · rw [if_pos (by omega)]
        exact (h.mono (one_le_precedence e)).brackets.mono (by decide)
    · exact reads_bracket h (by decide)
  · exact ⟨_, rfl, reads_rootOrPower h (-q)⟩

/-- The texts of an expression of the value `v`. -/
structure LayoutReads (I : Interpretation K) (level : Nat) (l : Layout) (v : K) : Prop where
  text : Reads I level l.text v
  factor : PartReads I l.factor v
  term : TermReads I l.term v

theorem layoutReads_plain (h : Reads I e.precedence s v) :
    LayoutReads I e.precedence (plainLayout e s) v :=
  ⟨h, reads_bracket h (by decide), h.mono (one_le_precedence e)⟩

theorem layouts_eq_map (negate : Number → Number) (es : List Expr) :
    layouts negate es = es.map (layout negate) := by
  induction es with
  | nil => rfl
  | cons e es ih => rw [layouts, ih, map_cons]

theorem forall₂_layouts {R : Layout → K → Prop} {es : List Expr}
    (h : ∀ e ∈ es, R (e.layout Neg.neg) (e.interpret I)) :
    Forall₂ R (layouts Neg.neg es) (interprets I es) := by
  rw [layouts_eq_map, interprets_eq_map, forall₂_map_left_iff, forall₂_map_right_iff, forall₂_same]
  exact h

theorem layoutReads_num (q : Number) :
    LayoutReads I (num q).precedence ((num q).layout Neg.neg) ((num q).interpret I) := by
  have h : LayoutReads I _ _ (q : K) := layoutReads_plain (reads_number q)
  refine ⟨h.text, h.factor, ?_⟩
  rw [layout]
  dsimp only
  split
  · refine ⟨((-q : Rat) : K), by rw [interpret, Rat.cast_neg, neg_neg], ?_⟩
    refine (reads_number (-q)).mono ?_
    rw [precedence]
    split <;> decide
  · exact h.term

theorem layoutReads_fn (f : Func) {a : Expr}
    (h : LayoutReads I a.precedence (a.layout Neg.neg) (a.interpret I)) :
    LayoutReads I (fn f a).precedence ((fn f a).layout Neg.neg) ((fn f a).interpret I) := by
  rw [layout]
  refine layoutReads_plain (e := fn f a) ?_
  have hcall := (h.text.mono (one_le_precedence a)).apply f
  split
  · next hE =>
    rw [Bool.and_eq_true, beq_iff_eq] at hE
    have hone : a.interpret I = 1 := by
      cases a <;> simp_all [isOne, interpret]
    rw [interpret, hE.1, hone, ← I.sym_E]
    exact reads_sym (by decide)
  · exact hcall

theorem layoutReads_pow (h0 : ∀ q : Rat, 0 < q → I.pow 0 q = 0) {b : Expr}
    (hb : LayoutReads I b.precedence (b.layout Neg.neg) (b.interpret I))
    (he : LayoutReads I e.precedence (e.layout Neg.neg) (e.interpret I)) :
    LayoutReads I (pow b e).precedence ((pow b e).layout Neg.neg) ((pow b e).interpret I) := by
  have hpower {s : String} (hs : Reads I 4 s (e.interpret I)) :
      Reads I 3 (bracket 4 b (b.layout Neg.neg).text ++ "**" ++ s) ((pow b e).interpret I) :=
    (reads_bracket hb.text (by decide)).power hs
  have hbrackets :
      Reads I 3 (bracket 4 b (b.layout Neg.neg).text ++ "**(" ++ (e.layout Neg.neg).text ++ ")")
        ((pow b e).interpret I) := by
    have := hpower (he.text.mono (one_le_precedence e)).brackets
    rw [show "**(" = "**" ++ "(" from rfl]
    simpa only [String.append_assoc] using this
  cases e with
  | num q =>
    rw [layout]
    dsimp only
    split
    · next hq =>
      have hzero (hb : b.isZero) : b.interpret I = 0 := by
        cases b <;> simp_all [isZero, interpret]
      have hpart := partReads_divisor h0 hb.text hzero hq
      have htext : Reads I 2 (productText Neg.neg 1 [divisor Neg.neg b (b.layout Neg.neg).text q])
          (I.pow (b.interpret I) q) := by
        simpa using reads_productText 1 (.cons hpart .nil)
      rw [precedence, if_pos hq]
      exact ⟨htext, hpart, htext.mono (by decide)⟩
    · next hq =>
      refine layoutReads_plain (e := pow b (num q)) ?_
      rw [precedence, if_neg hq]
      exact reads_rootOrPower hb.text q
  | sym s => exact layoutReads_plain (e := pow b (sym s)) (hpower he.text)
  | fn f a => exact layoutReads_plain (e := pow b (fn f a)) (hpower he.text)
  | pow c d => exact layoutReads_plain (e := pow b (pow c d)) hbrackets
  | mul fs => exact layoutReads_plain (e := pow b (mul fs)) hbrackets
  | add ts => exact layoutReads_plain (e := pow b (add ts)) hbrackets

theorem layoutReads_mul {fs : List Expr}
    (h : ∀ f ∈ fs, LayoutReads I f.precedence (f.layout Neg.neg) (f.interpret I)) :
    LayoutReads I (mul fs).precedence ((mul fs).layout Neg.neg) ((mul fs).interpret I) := by
  have hparts : Forall₂ (PartReads I) ((layouts Neg.neg fs).map (·.factor)) (interprets I fs) := by
    rw [forall₂_map_left_iff]
    exact forall₂_layouts fun f hf => (h f hf).factor
  unfold layout
  dsimp only
  split
  · next q rest =>
    obtain - | ⟨-, hrest⟩ := hparts
    have htext (q : Number) := reads_productText q hrest
    have hplain := layoutReads_plain (e := mul (num q :: rest)) (htext q)
    refine ⟨hplain.text, hplain.factor, ?_⟩
    dsimp only
    split
    · refine ⟨_, ?_, htext (-q)⟩
      rw [Rat.cast_neg, neg_mul, neg_neg]
      rfl
    · exact hplain.term
  · refine layoutReads_plain (e := mul fs) ?_
    have := reads_productText 1 hparts
    rwa [Rat.cast_one, one_mul] at this

theorem layoutReads (h0 : ∀ q : Rat, 0 < q → I.pow 0 q = 0) (e : Expr)
    (hs : ∀ s ∈ e.symbolList, isIdentifier s) :
    LayoutReads I e.precedence (e.layout Neg.neg) (e.interpret I) := by
  induction e using Expr.induction with
  | num q => exact layoutReads_num q
  | sym s => exact layoutReads_plain (reads_sym (hs s (by simp [symbolList])))
  | fn f a ih => exact layoutReads_fn f (ih hs)
  | pow b e ihb ihe =>
    rw [symbolList, forall_mem_append] at hs
    exact layoutReads_pow h0 (ihb hs.1) (ihe hs.2)
  | mul fs ih =>
    simp only [symbolList, mem_symbolLists] at hs
    exact layoutReads_mul fun f hf => ih f hf fun s h => hs s ⟨f, hf, h⟩
  | add ts ih =>
    simp only [symbolList, mem_symbolLists] at hs
    rw [layout, interpret]
    refine layoutReads_plain (e := add ts) (reads_sumText ?_)
    rw [forall₂_map_left_iff]
    exact forall₂_layouts fun t ht => (ih t ht fun s h => hs s ⟨t, ht, h⟩).term

/-- Built by the simplifying operations from numbers and from symbols with the given names, whether
or not numbers leave the range on the way. Negation, difference, quotient and square root are
products, sums and powers. -/
inductive Formed (names : String → Prop) : Expr → Prop
  | num (q : Number) : Formed names (num q)
  | sym {s : String} : names s → Formed names (sym s)
  | sum {es : List Expr} : (∀ e ∈ es, Formed names e) → Formed names (sum es)
  | product {es : List Expr} : (∀ e ∈ es, Formed names e) → Formed names (product es)
  | power {b e : Expr} : Formed names b → Formed names e → Formed names (power b e)
  | apply (f : Func) {a : Expr} : Formed names a → Formed names (apply f a)
  | substitute {f : String → Option Expr} {e : Expr} : Formed names e →
      (∀ s r, f s = some r → Formed names r) → Formed names (e.substitute f)

theorem Formed.names {names : String → Prop} (h : Formed names e) :
    ∀ s ∈ e.symbolList, names s := by
  have hP := structural_symbols names
  induction h with
  | num q => exact hP.num q
  | sym h => simpa [symbolList] using h
  | sum _ ih => exact hP.sum ih
  | product _ ih => exact hP.product ih
  | power _ _ ihb ihe => exact hP.power ihb ihe
  | apply f _ ih => exact hP.apply f ih
  | @substitute f e _ _ ih ihf =>
    refine hP.substitute fun s hs => ?_
    cases hr : f s with
    | none => simpa [symbolList] using ih s hs
    | some r => exact ihf s r hr

/-- Expressions with the same text have the same value. Zero to a negative power is written `1/0`
whatever the power, so the positive powers of zero have to be alike. -/
theorem interpret_eq_of_text_eq (I : Interpretation K) (h0 : ∀ q : Rat, 0 < q → I.pow 0 q = 0)
    {a b : Expr} (ha : Formed (isIdentifier ·) a) (hb : Formed (isIdentifier ·) b)
    (h : a.text = b.text) : a.interpret I = b.interpret I := by
  have hreads := (layoutReads h0 a ha.names).text
  have hreads' := (layoutReads h0 b hb.names).text
  rw [text, text] at h
  rw [h] at hreads
  exact hreads.unique hreads'

theorem interpret_eq_of_text_eq_exp_one :
    let I := Interpretation.sample 0 inv_zero
    let f (e : Expr) := product [num (-3 / 2), power (sum [e, apply .log (sym "x_1")]) (num (-2))]
    let a := f (sym "E")
    let b := f (apply .exp one)
    (∀ q : Rat, 0 < q → I.pow 0 q = 0) ∧ Formed (isIdentifier ·) a ∧ Formed (isIdentifier ·) b ∧
      a.text = b.text ∧ a.interpret I = b.interpret I := by
  intro I f a b
  have h0 (q : Rat) (hq : 0 < q) : I.pow 0 q = 0 := by
    simp [I, Interpretation.sample]
  have hf {e : Expr} (he : Formed (isIdentifier ·) e) : Formed (isIdentifier ·) (f e) := by
    have hlog : Formed (isIdentifier ·) (apply .log (sym "x_1")) := .apply _ (.sym (by decide))
    have hsum : Formed (isIdentifier ·) (sum [e, apply .log (sym "x_1")]) :=
      .sum (by simpa using ⟨he, hlog⟩)
    exact .product (by simpa using ⟨.num _, .power hsum (.num _)⟩)
  have ha : Formed (isIdentifier ·) a := hf (.sym (by decide))
  have hb : Formed (isIdentifier ·) b := hf (.apply _ (.num 1))
  have htext : a.text = b.text := by
    simp only [a, b, f]
    decide_cbv
  exact ⟨h0, ha, hb, htext, interpret_eq_of_text_eq I h0 ha hb htext⟩

/-- If the positive powers of zero are not alike, neither are its reciprocals. -/
theorem zero_reciprocals_share_text :
    let I := Interpretation.sample 1 inv_one
    let a := power zero (integer (-1))
    let b := power zero (integer (-2))
    Formed (isIdentifier ·) a ∧ Formed (isIdentifier ·) b ∧ a.text = b.text ∧
      a.interpret I ≠ b.interpret I := by
  intro I a b
  have ha : power zero (integer (-1)) = pow (num 0) (num (-1)) := by cbv
  have hb : power zero (integer (-2)) = pow (num 0) (num (-2)) := by cbv
  refine ⟨.power (.num _) (.num _), .power (.num _) (.num _), ?_⟩
  simp only [a, b, ha, hb]
  exact ⟨by decide_cbv, by simp only [interpret, I, Interpretation.sample]; decide +kernel⟩

end Expr

end TensorCalculus
