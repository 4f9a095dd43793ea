import TensorCalculus.Number

/-! Elementary functions of one argument. -/
namespace TensorCalculus

inductive Func where
  | sin | cos | tan | sinh | cosh | tanh
  | asin | acos | atan | asinh | acosh | atanh
  | exp | log
deriving DecidableEq, Repr, Inhabited

namespace Func

def all : List Func :=
  [sin, cos, tan, sinh, cosh, tanh, asin, acos, atan, asinh, acosh, atanh, exp, log]

def name : Func → String
  | sin => "sin" | cos => "cos" | tan => "tan"
  | sinh => "sinh" | cosh => "cosh" | tanh => "tanh"
  | asin => "asin" | acos => "acos" | atan => "atan"
  | asinh => "asinh" | acosh => "acosh" | atanh => "atanh"
  | exp => "exp" | log => "log"

def ofName? (s : String) : Option Func :=
  all.find? fun f => f.name == s

def inverse : Func → Func
  | sin => asin | cos => acos | tan => atan
  | sinh => asinh | cosh => acosh | tanh => atanh
  | asin => sin | acos => cos | atan => tan
  | asinh => sinh | acosh => cosh | atanh => tanh
  | exp => log | log => exp

/-- `f.inverse (f x)` is `x` wherever `f x` is defined. -/
def cancels : Func → Bool
  | asin | acos | atan | asinh | acosh | atanh | log => true
  | _ => false

/-- The value at zero, where it is rational. -/
def atZero? : Func → Option Int
  | sin | tan | sinh | tanh | asin | atan | asinh | atanh => some 0
  | cos | cosh | exp => some 1
  | acos | acosh | log => none

def rank : Func → Nat
  | sin => 0 | cos => 1 | tan => 2
  | sinh => 3 | cosh => 4 | tanh => 5
  | asin => 6 | acos => 7 | atan => 8
  | asinh => 9 | acosh => 10 | atanh => 11
  | exp => 12 | log => 13

theorem rank_injective {f g : Func} (h : f.rank = g.rank) : f = g := by
  cases f <;> cases g <;> first | rfl | cases h

@[simp] theorem inverse_inverse (f : Func) : f.inverse.inverse = f := by
  cases f <;> rfl

end Func

/-! Scalar expressions as trees. The constructors of the type build a node as it is;
`Expr.sum`, `Expr.product`, `Expr.power` and `Expr.apply` simplify. -/

inductive Expr where
  | num (value : Number)
  | sym (name : String)
  | fn (f : Func) (arg : Expr)
  | pow (base exponent : Expr)
  | mul (factors : List Expr)
  | add (terms : List Expr)
deriving Inhabited

namespace Expr

def zero : Expr := num 0

def one : Expr := num 1

def integer (n : Int) : Expr := num n

def isZero : Expr → Bool
  | num q => q == 0
  | _ => false

def isOne : Expr → Bool
  | num q => q == 1
  | _ => false

def isNumber : Expr → Bool
  | num _ => true
  | _ => false

def number? : Expr → Option Number
  | num q => some q
  | _ => none

@[simp] theorem isNumber_num (q : Number) : (num q).isNumber = true := rfl

@[simp] theorem number?_num (q : Number) : (num q).number? = some q := rfl

theorem exists_eq_num {e : Expr} (h : e.isNumber = true) : ∃ q, e = num q := by
  cases e <;> simp_all [isNumber]

theorem number?_eq_none {e : Expr} (h : e.isNumber = false) : e.number? = none := by
  cases e <;> simp_all [isNumber, number?]

def symbol? : Expr → Option String
  | sym s => some s
  | _ => none

def termCount : Expr → Nat
  | add ts => ts.length
  | e => if e.isZero then 0 else 1

mutual

def symbolList : Expr → List String
  | num _ => []
  | sym s => [s]
  | fn _ a => a.symbolList
  | pow b e => b.symbolList ++ e.symbolList
  | mul fs => symbolLists fs
  | add ts => symbolLists ts

def symbolLists : List Expr → List String
  | [] => []
  | e :: es => e.symbolList ++ symbolLists es

end

mutual

def mentions (p : String → Bool) : Expr → Bool
  | num _ => false
  | sym s => p s
  | fn _ a => a.mentions p
  | pow b e => b.mentions p || e.mentions p
  | mul fs => anyMentions p fs
  | add ts => anyMentions p ts

def anyMentions (p : String → Bool) : List Expr → Bool
  | [] => false
  | e :: es => e.mentions p || anyMentions p es

end

/-! Three orders on expressions. `compare` is the structural one, by kind of node and then
by parts; `termCompare` and `factorCompare` look at the symbols of the bases first, so
that sums and products read roughly alphabetically, and settle ties structurally. -/

def kind : Expr → Nat
  | num _ => 0
  | sym _ => 1
  | fn _ _ => 2
  | pow _ _ => 3
  | mul _ => 4
  | add _ => 5

mutual

def compare : Expr → Expr → Ordering
  | num a, num b => Number.compare a b
  | sym a, sym b => Ord.compare a b
  | fn f a, fn g b => (Ord.compare f.rank g.rank).then (compare a b)
  | pow a e, pow b f => (compare a b).then (compare e f)
  | mul as, mul bs => compareLists as bs
  | add as, add bs => compareLists as bs
  | a, b => Ord.compare a.kind b.kind

/-- Lexicographic, a list before its extensions. -/
def compareLists : List Expr → List Expr → Ordering
  | [], [] => .eq
  | [], _ :: _ => .lt
  | _ :: _, [] => .gt
  | a :: as, b :: bs => (compare a b).then (compareLists as bs)

end

mutual

theorem compare_self : ∀ a : Expr, compare a a = .eq
  | num q => by simp [compare, Number.compare]
  | sym s => by simp [compare]
  | fn f a => by simp [compare, compare_self a]
  | pow b e => by simp [compare, compare_self b, compare_self e]
  | mul fs => by simp [compare, compareLists_self fs]
  | add ts => by simp [compare, compareLists_self ts]

theorem compareLists_self : ∀ as : List Expr, compareLists as as = .eq
  | [] => rfl
  | a :: as => by simp [compareLists, compare_self a, compareLists_self as]

end

theorem eq_of_compare {a b : Expr} : compare a b = .eq → a = b := by
  apply compare.induct (fun a b => compare a b = .eq → a = b)
    (fun as bs => compareLists as bs = .eq → as = bs)
  case case1 =>
    intro a b h
    simp only [compare, Number.compare, Int.compare_eq_eq] at h
    rw [Rat.eq_iff_mul_eq_mul.mpr h]
  case case2 =>
    intro a b h
    simp only [compare, Std.compare_eq_iff_eq] at h
    rw [h]
  case case3 =>
    intro f a g b ih h
    simp only [compare, Ordering.then_eq_eq, Nat.compare_eq_eq] at h
    rw [Func.rank_injective h.1, ih h.2]
  case case4 =>
    intro a e b f ihb ihe h
    simp only [compare, Ordering.then_eq_eq] at h
    rw [ihb h.1, ihe h.2]
  case case5 =>
    intro as bs ih h
    rw [ih (by simpa [compare] using h)]
  case case6 =>
    intro as bs ih h
    rw [ih (by simpa [compare] using h)]
  case case7 =>
    intro a b hnum hsym hfn hpow hmul hadd h
    rw [compare.eq_7 a b hnum hsym hfn hpow hmul hadd, Nat.compare_eq_eq] at h
    cases a <;> cases b
    case num.num => exact (hnum _ _ rfl rfl).elim
    case sym.sym => exact (hsym _ _ rfl rfl).elim
    case fn.fn => exact (hfn _ _ _ _ rfl rfl).elim
    case pow.pow => exact (hpow _ _ _ _ rfl rfl).elim
    case mul.mul => exact (hmul _ _ rfl rfl).elim
    case add.add => exact (hadd _ _ rfl rfl).elim
    all_goals simp [kind] at h
  case case8 => intro _; rfl
  case case9 => intro _ _ h; simp [compareLists] at h
  case case10 => intro _ _ h; simp [compareLists] at h
  case case11 =>
    intro a as b bs iha ihas h
    simp only [compareLists, Ordering.then_eq_eq] at h
    rw [iha h.1, ihas h.2]

theorem compare_eq_iff {a b : Expr} : compare a b = .eq ↔ a = b :=
  ⟨eq_of_compare, fun h => h ▸ compare_self a⟩

instance : DecidableEq Expr := fun a b =>
  decidable_of_iff (compare a b = .eq) compare_eq_iff

def base : Expr → Expr
  | pow b _ => b
  | e => e

/-- The bases of the factors of a term, numbers left out. -/
def bases : Expr → List Expr
  | mul fs => (fs.filter (!·.isNumber)).map base
  | e => [e.base]

/-- Symbols by name and before everything else. -/
def atomCompare : Expr → Expr → Ordering
  | sym a, sym b => Ord.compare a b
  | sym _, _ => .lt
  | _, sym _ => .gt
  | a, b => compare a b

def atomCompareLists : List Expr → List Expr → Ordering
  | [], [] => .eq
  | [], _ :: _ => .lt
  | _ :: _, [] => .gt
  | a :: as, b :: bs => (atomCompare a b).then (atomCompareLists as bs)

/-- Order of the terms of a sum: numbers come last. -/
def termCompare : Expr → Expr → Ordering
  | num a, num b => Number.compare a b
  | num _, _ => .gt
  | _, num _ => .lt
  | a, b => (atomCompareLists a.bases b.bases).then (compare a b)

def factorCompare (a b : Expr) : Ordering :=
  (atomCompare a.base b.base).then (compare a b)

end Expr

end TensorCalculus
