import Mathlib.Algebra.BigOperators.Ring.List
import Mathlib.Algebra.Order.BigOperators.Group.List
import Mathlib.Algebra.Order.Field.Basic
import Mathlib.Data.List.Forall2
import Mathlib.Data.Set.Basic
import Mathlib.Tactic.NormNum
import Mathlib.Tactic.Ring
import TensorCalculus.Proofs.Scalar.Hereditary
import TensorCalculus.Tensor.Matrix

/-! The rational value of an expression. Sums have the value of their terms added up whatever
the terms are; for products the powers have to be defined. -/
namespace TensorCalculus

open List

abbrev Valuation := String → Rat

variable {operands : List Expr} {D : Set Valuation} {σ : Valuation}

namespace Expr

variable {e b r e' : Expr} {es rs : List Expr} {q : Number}

mutual

/-- The value with integer exponents. A function has no rational value; it counts as 0 here
and is never `Defined`. -/
def value (σ : Valuation) : Expr → Rat
  | num q => q
  | sym s => σ s
  | fn _ _ => 0
  | pow b e => b.value σ ^ (e.value σ).num
  | mul fs => (values σ fs).prod
  | add ts => (values σ ts).sum

def values (σ : Valuation) : List Expr → List Rat
  | [] => []
  | e :: es => e.value σ :: values σ es

end

mutual

def Defined (σ : Valuation) : Expr → Prop
  | num _ => True
  | sym _ => True
  | fn _ _ => False
  | pow b e => b.Defined σ ∧ e.Defined σ ∧ (b.value σ = 0 → 0 ≤ e.value σ)
  | mul fs => AllDefined σ fs
  | add ts => AllDefined σ ts

def AllDefined (σ : Valuation) : List Expr → Prop
  | [] => True
  | e :: es => e.Defined σ ∧ AllDefined σ es

end

theorem values_eq_map (σ : Valuation) (es : List Expr) : values σ es = es.map (value σ) := by
  induction es with
  | nil => rfl
  | cons e es ih => rw [values, ih, map_cons]

theorem allDefined_iff (σ : Valuation) (es : List Expr) :
    AllDefined σ es ↔ ∀ e ∈ es, e.Defined σ := by
  induction es with
  | nil => simp [AllDefined]
  | cons e es ih => rw [AllDefined, ih, forall_mem_cons]

section Value

variable (σ : Valuation)

@[simp] theorem value_num (q : Number) : (num q).value σ = q := rfl

@[simp] theorem value_sym (s : String) : (sym s).value σ = σ s := rfl

@[simp] theorem value_zero : zero.value σ = 0 := rfl

@[simp] theorem value_one : one.value σ = 1 := rfl

@[simp] theorem value_integer (n : Int) : (integer n).value σ = n := rfl

@[simp] theorem value_pow (b e : Expr) : (pow b e).value σ = b.value σ ^ (e.value σ).num := rfl

@[simp] theorem value_mul (fs : List Expr) : (mul fs).value σ = (fs.map (value σ)).prod := by
  rw [value, values_eq_map]

@[simp] theorem value_add (ts : List Expr) : (add ts).value σ = (ts.map (value σ)).sum := by
  rw [value, values_eq_map]

mutual

theorem sum_value_terms (e : Expr) : (e.terms.map (value σ)).sum = e.value σ := by
  cases e with
  | add ts => rw [terms, sum_value_termLists ts, value_add]
  | _ => simp [terms]

theorem sum_value_termLists (es : List Expr) :
    ((termLists es).map (value σ)).sum = (es.map (value σ)).sum := by
  cases es with
  | nil => rfl
  | cons e es =>
    rw [termLists, map_append, sum_append, sum_value_terms e, sum_value_termLists es,
      map_cons, sum_cons]

end

mutual

theorem prod_value_factors (e : Expr) : (e.factors.map (value σ)).prod = e.value σ := by
  cases e with
  | mul fs => rw [factors, prod_value_factorLists fs, value_mul]
  | _ => simp [factors]

theorem prod_value_factorLists (es : List Expr) :
    ((factorLists es).map (value σ)).prod = (es.map (value σ)).prod := by
  cases es with
  | nil => rfl
  | cons e es =>
    rw [factorLists, map_append, prod_append, prod_value_factors e,
      prod_value_factorLists es, map_cons, prod_cons]

end

theorem value_splitCoefficient (e : Expr) :
    e.splitCoefficient.2 * e.splitCoefficient.1.value σ = e.value σ := by
  fun_cases splitCoefficient e <;> simp

@[simp] theorem value_scale (q : Number) (e : Expr) : (scale q e).value σ = q * e.value σ := by
  unfold scale
  split
  · next h => rw [eq_of_beq h, one_mul]
  · split <;> simp

theorem sum_value_likeTerms (rest : Expr) (qs : List Number) :
    ((likeTerms rest qs).map (value σ)).sum = qs.sum * rest.value σ := by
  cases qs with
  | nil => simp [likeTerms]
  | cons q qs =>
    have hgather := Number.gather_add?_eq q qs
    have hleft (ps : List Number) :
        ((ps.map (scale · rest)).map (value σ)).sum = ps.sum * rest.value σ := by
      simp [Function.comp_def, sum_map_mul_right]
    rw [likeTerms, map_append, sum_append, hleft, sum_cons, ← hgather, add_mul]
    congr 1
    split
    · next h => simp [eq_of_beq h]
    · simp

theorem sum_value_constantTerms (qs : List Number) :
    ((constantTerms qs).map (value σ)).sum = qs.sum := by
  have hgather := Number.gather_add?_eq 0 qs
  have hleft (ps : List Number) : ((ps.map num).map (value σ)).sum = ps.sum := by
    simp [Function.comp_def]
  rw [constantTerms, map_append, sum_append, hleft, ← zero_add qs.sum, ← hgather]
  congr 1
  split
  · next h => simp [eq_of_beq h]
  · simp

theorem value_addNode (ts : List Expr) : (addNode ts).value σ = (ts.map (value σ)).sum := by
  fun_cases addNode ts with
  | case1 => rfl
  | case2 t => simp
  | case3 =>
    rw [value_add]
    exact ((mergeSort_perm ..).map _).sum_eq

theorem sum_value_sumTerms (es : List Expr) :
    ((sumTerms es).map (value σ)).sum = (es.map (value σ)).sum := by
  let visited := (termLists es).reverse
  let pairs := (visited.filter (!·.isNumber)).map splitCoefficient
  have hgroups : (((collect pairs).map fun g => likeTerms g.1 g.2).flatten.map (value σ)).sum =
      (pairs.map fun p => p.2 * p.1.value σ).sum := by
    rw [← ((flatMap_collect_perm pairs).map _).sum_eq]
    simp [List.flatMap, map_flatten, sum_flatten, sum_value_likeTerms,
      Function.comp_def, sum_map_mul_right]
  have hpairs : pairs.map (fun p => p.2 * p.1.value σ) =
      (visited.filter (!·.isNumber)).map (value σ) := by
    rw [map_map]
    exact map_congr_left fun e _ => value_splitCoefficient σ e
  calc ((sumTerms es).map (value σ)).sum
      = ((visited.filter (!·.isNumber)).map (value σ)).sum + (visited.filterMap number?).sum := by
        rw [sumTerms, map_append, sum_append, hgroups, hpairs, sum_value_constantTerms]
    _ = (visited.map (value σ)).sum := by
        rw [← ((numbers_append_others_perm visited).map (value σ)).sum_eq]
        simp [Function.comp_def, add_comm]
    _ = (es.map (value σ)).sum := by
        rw [((reverse_perm _).map _).sum_eq, sum_value_termLists]

@[simp] theorem value_sum (es : List Expr) : (sum es).value σ = (es.map (value σ)).sum := by
  rw [sum, value_addNode, sum_value_sumTerms]

theorem value_mulNode (q : Number) (fs : List Expr) :
    (mulNode q fs).value σ = q * (fs.map (value σ)).prod := by
  have hsorted := ((mergeSort_perm fs fun a b => (factorCompare a b).isLE).map
    (value σ)).prod_eq
  unfold mulNode
  split
  · simp
  · split
    · next h => simp [eq_of_beq h]
    · simp
  · split
    · next h => rw [value_mul, hsorted, eq_of_beq h, one_mul]
    · rw [value_mul, map_cons, prod_cons, hsorted, value_num]

theorem prod_value_outerFactors (e : Expr) : (e.outerFactors.map (value σ)).prod = e.value σ := by
  fun_cases outerFactors e <;> simp

theorem value_join (operands powers : List Expr) :
    (join operands powers).coefficient * ((join operands powers).factors.map (value σ)).prod =
      ((factorLists operands).filterMap number?).prod * (powers.map (value σ)).prod := by
  let numbers := (factorLists operands).reverse.filterMap number?
  let given := Number.gather Number.mul? 1 numbers
  let whole := Number.gather Number.mul? given.1 (powers.filterMap number?)
  let rest := powers.filter (!·.isNumber)
  have hgiven : given.1 * given.2.prod = numbers.prod := by
    rw [Number.gather_mul?_eq, one_mul]
  have hwhole : whole.1 * whole.2.prod = given.1 * (powers.filterMap number?).prod :=
    Number.gather_mul?_eq ..
  have hnumbers : numbers.prod = ((factorLists operands).filterMap number?).prod :=
    ((reverse_perm _).filterMap number?).prod_eq
  have hrest : ((rest.map outerFactors).flatten.map (value σ)).prod =
      (rest.map (value σ)).prod := by
    simp [map_flatten, prod_flatten, prod_value_outerFactors, Function.comp_def]
  have hpowers : (powers.map (value σ)).prod =
      (powers.filterMap number?).prod * (rest.map (value σ)).prod := by
    rw [← ((numbers_append_others_perm powers).map (value σ)).prod_eq]
    simp [Function.comp_def, rest]
  have hleft (ps : List Number) : ((ps.map num).map (value σ)).prod = ps.prod := by
    simp [Function.comp_def]
  calc whole.1 * (((rest.map outerFactors).flatten ++ (given.2 ++ whole.2).map num).map
        (value σ)).prod
      = (whole.1 * whole.2.prod) * given.2.prod * (rest.map (value σ)).prod := by
        rw [map_append, prod_append, hrest, hleft, prod_append]
        ring
    _ = ((factorLists operands).filterMap number?).prod * (powers.map (value σ)).prod := by
        rw [hwhole, hpowers, ← hnumbers, ← hgiven]
        ring

end Value

mutual

/-- Without functions, defined at the valuations of `D`, and with exponents that have no
symbols and are integers. -/
def Regular : Set Valuation → Expr → Prop
  | _, num _ => True
  | _, sym _ => True
  | _, fn _ _ => False
  | D, pow b e => Regular D b ∧
      (Regular Set.univ e ∧ e.symbolList = [] ∧ ∀ σ, ∃ n : Int, e.value σ = n) ∧
      ∀ σ ∈ D, b.value σ = 0 → 0 ≤ e.value σ
  | D, mul fs => AllRegular D fs
  | D, add ts => AllRegular D ts

def AllRegular : Set Valuation → List Expr → Prop
  | _, [] => True
  | D, e :: es => Regular D e ∧ AllRegular D es

end

structure IsExponent (e : Expr) : Prop where
  regular : Regular Set.univ e
  symbolList : e.symbolList = []
  integer : ∀ σ, ∃ n : Int, e.value σ = n

theorem allRegular_iff (D : Set Valuation) (es : List Expr) :
    AllRegular D es ↔ ∀ e ∈ es, Regular D e := by
  induction es with
  | nil => simp [AllRegular]
  | cons e es ih => rw [AllRegular, ih, forall_mem_cons]

theorem hereditary_regular (D : Set Valuation) : Hereditary (Regular D) where
  num _ := trivial
  mul fs := by rw [Regular, allRegular_iff]
  add ts := by rw [Regular, allRegular_iff]

theorem regular_pow_iff : Regular D (pow b e) ↔
    Regular D b ∧ IsExponent e ∧ ∀ σ ∈ D, b.value σ = 0 → 0 ≤ e.value σ := by
  rw [Regular]
  exact ⟨fun ⟨hb, ⟨h₁, h₂, h₃⟩, h⟩ => ⟨hb, ⟨h₁, h₂, h₃⟩, h⟩,
    fun ⟨hb, ⟨h₁, h₂, h₃⟩, h⟩ => ⟨hb, ⟨h₁, h₂, h₃⟩, h⟩⟩

theorem symbolLists_eq_nil_iff (es : List Expr) :
    symbolLists es = [] ↔ ∀ e ∈ es, e.symbolList = [] := by
  induction es with
  | nil => simp [symbolLists]
  | cons e es ih => rw [symbolLists, append_eq_nil_iff, ih, forall_mem_cons]

theorem structural_symbolFree : Structural fun e => e.symbolList = [] where
  num _ := rfl
  mul fs := by rw [symbolList, symbolLists_eq_nil_iff]
  add ts := by rw [symbolList, symbolLists_eq_nil_iff]
  fn _ _ := by rw [symbolList]
  pow _ _ := by rw [symbolList, append_eq_nil_iff]

mutual

theorem regular_iff (D : Set Valuation) (e : Expr) :
    Regular D e ↔ Regular ∅ e ∧ ∀ σ ∈ D, e.Defined σ := by
  cases e with
  | num _ | sym _ => simp [Regular, Defined]
  | fn f a => simp [Regular]
  | pow b e =>
    rw [regular_pow_iff, regular_pow_iff, regular_iff D b]
    constructor
    · rintro ⟨⟨hb, hbD⟩, he, h⟩
      have heD := ((regular_iff Set.univ e).mp he.regular).2
      exact ⟨⟨hb, he, nofun⟩, fun σ hσ => ⟨hbD σ hσ, heD σ trivial, h σ hσ⟩⟩
    · rintro ⟨⟨hb, he, _⟩, h⟩
      exact ⟨⟨hb, fun σ hσ => (h σ hσ).1⟩, he, fun σ hσ => (h σ hσ).2.2⟩
  | mul fs | add fs => exact allRegular_iff_defined D fs

theorem allRegular_iff_defined (D : Set Valuation) (es : List Expr) :
    AllRegular D es ↔ AllRegular ∅ es ∧ ∀ σ ∈ D, AllDefined σ es := by
  cases es with
  | nil => simp [AllRegular, AllDefined]
  | cons e es =>
    simp only [AllRegular, AllDefined]
    rw [regular_iff D e, allRegular_iff_defined D es]
    constructor
    · rintro ⟨⟨h₁, h₂⟩, h₃, h₄⟩
      exact ⟨⟨h₁, h₃⟩, fun σ hσ => ⟨h₂ σ hσ, h₄ σ hσ⟩⟩
    · rintro ⟨⟨h₁, h₃⟩, h⟩
      exact ⟨⟨h₁, fun σ hσ => (h σ hσ).1⟩, h₃, fun σ hσ => (h σ hσ).2⟩

end

theorem Regular.mono {D' : Set Valuation} (hD : D' ⊆ D) (h : Regular D e) : Regular D' e := by
  rw [regular_iff] at h ⊢
  exact ⟨h.1, fun σ hσ => h.2 σ (hD hσ)⟩

/-- Integer powers of one base: exponents add up, as long as 0 has no negative exponent. -/
theorem zpow_num_sum (x : Rat) (ns : List Rat) (hint : ∀ n ∈ ns, ∃ m : Int, n = m)
    (hzero : x = 0 → ∀ n ∈ ns, 0 ≤ n) :
    (∃ m : Int, ns.sum = m) ∧ x ^ ns.sum.num = (ns.map fun n => x ^ n.num).prod := by
  induction ns with
  | nil => exact ⟨⟨0, rfl⟩, by simp⟩
  | cons n ns ih =>
    rw [forall_mem_cons] at hint
    have hzero' (hx : x = 0) := forall_mem_cons.mp (hzero hx)
    obtain ⟨⟨m, hm⟩, hprod⟩ := ih hint.2 fun hx => (hzero' hx).2
    obtain ⟨k, rfl⟩ := hint.1
    rw [map_cons, prod_cons, ← hprod, sum_cons, hm]
    refine ⟨⟨k + m, by push_cast; rfl⟩, ?_⟩
    rw [← Int.cast_add, Rat.num_intCast, Rat.num_intCast, Rat.num_intCast]
    by_cases hx : x = 0
    · have hk : 0 ≤ k := by exact_mod_cast (hzero' hx).1
      have hm' : 0 ≤ m := by
        have := sum_nonneg (hzero' hx).2
        rw [hm] at this
        exact_mod_cast this
      apply zpow_add'
      omega
    · exact zpow_add₀ hx k m

namespace IsExponent

theorem num (h : q.isInteger) : IsExponent (num q) where
  regular := trivial
  symbolList := rfl
  integer _ := ⟨q.num, ((Rat.den_eq_one_iff q).mp (eq_of_beq h)).symm⟩

theorem sum (h : ∀ e ∈ es, IsExponent e) : IsExponent (sum es) where
  regular := (hereditary_regular _).sum fun e he => (h e he).regular
  symbolList := structural_symbolFree.sum fun e he => (h e he).symbolList
  integer σ := by
    rw [value_sum]
    apply (zpow_num_sum 1 _ _ _).1
    · simpa using fun e he => (h e he).integer σ
    · simp

end IsExponent

/-- Where `e` is defined, `r` is defined and has the value of `e`. -/
def Simplifies (e r : Expr) : Prop :=
  ∀ D, Regular D e → Regular D r ∧ ∀ σ ∈ D, r.value σ = e.value σ

namespace Simplifies

theorem trans (h : Simplifies e e') (h' : Simplifies e' r) : Simplifies e r := by
  intro D he
  refine ⟨(h' D (h D he).1).1, fun σ hσ => ?_⟩
  rw [(h' D (h D he).1).2 σ hσ, (h D he).2 σ hσ]

theorem pow (he : Simplifies e e') (hs : e.symbolList = [] → e'.symbolList = []) :
    Simplifies (pow b e) (pow b e') := by
  intro D h
  obtain ⟨h₁, h₂, h₃⟩ := regular_pow_iff.mp h
  obtain ⟨hregular, hvalue⟩ := he Set.univ h₂.regular
  have hvalue (σ : Valuation) : e'.value σ = e.value σ := hvalue σ trivial
  constructor
  · refine regular_pow_iff.mpr ⟨h₁, ⟨hregular, hs h₂.symbolList, fun σ => ?_⟩, fun σ => ?_⟩
    · rw [hvalue]; exact h₂.integer σ
    · rw [hvalue]; exact h₃ σ
  · intro σ _
    rw [value_pow, value_pow, hvalue]

theorem map_value (h : Pointwise Simplifies es rs) (hD : ∀ e ∈ es, Regular D e) :
    (∀ r ∈ rs, Regular D r) ∧ ∀ σ ∈ D, rs.map (value σ) = es.map (value σ) := by
  induction es generalizing rs with
  | nil => cases rs <;> simp_all [Pointwise]
  | cons e es ih =>
    cases rs with
    | nil => exact h.elim
    | cons r rs =>
      rw [forall_mem_cons] at hD ⊢
      have hr := h.1 D hD.1
      have hrs := ih h.2 hD.2
      refine ⟨⟨hr.1, hrs.1⟩, fun σ hσ => ?_⟩
      rw [map_cons, map_cons, hr.2 σ hσ, hrs.2 σ hσ]

theorem mul_append (fs : List Expr) (h : Pointwise Simplifies es rs) :
    Simplifies (mul (fs ++ es)) (mul (fs ++ rs)) := by
  intro D hD
  rw [(hereditary_regular D).mul, forall_mem_append] at hD ⊢
  refine ⟨⟨hD.1, (map_value h hD.2).1⟩, fun σ hσ => ?_⟩
  simp only [value_mul, map_append, (map_value h hD.2).2 σ hσ]

theorem mul_perm (h : es.Perm rs) : Simplifies (mul es) (mul rs) := by
  intro D hD
  rw [(hereditary_regular D).mul] at hD ⊢
  refine ⟨fun r hr => hD r (h.mem_iff.mpr hr), fun σ _ => ?_⟩
  rw [value_mul, value_mul, (h.map (value σ)).prod_eq]

theorem add (h : Pointwise Simplifies es rs) : Simplifies (add es) (add rs) := by
  intro D hD
  rw [(hereditary_regular D).add] at hD ⊢
  refine ⟨(map_value h hD).1, fun σ hσ => ?_⟩
  rw [value_add, value_add, (map_value h hD).2 σ hσ]

theorem sum (es : List Expr) : Simplifies (.add es) (.sum es) := by
  intro D hD
  refine ⟨(hereditary_regular D).sum (((hereditary_regular D).add es).mp hD), fun σ _ => ?_⟩
  rw [value_sum, value_add]

end Simplifies

/-! Simplification keeps rational values: of sums, products and integer powers, and of an
expression whose symbols are replaced. Numbers kept apart for want of range change nothing. -/

theorem simplifies_pow_mul (fs : List Expr) (e : Expr) :
    Simplifies (pow (mul fs) e) (mul (fs.map fun f => pow f e)) := by
  intro D h
  obtain ⟨hfs, he, h⟩ := regular_pow_iff.mp h
  rw [(hereditary_regular D).mul] at hfs ⊢
  constructor
  · rw [forall_mem_map]
    intro f hf
    refine regular_pow_iff.mpr ⟨hfs f hf, he, fun σ hσ hzero => h σ hσ ?_⟩
    rw [value_mul, prod_eq_zero_iff, ← hzero]
    exact mem_map_of_mem hf
  · intro σ _
    simp [prod_zpow, Function.comp_def]

theorem simplifies_pow_pow (b e : Expr) (hq : q.isInteger) :
    Simplifies (pow (pow b e) (num q)) (pow b (mul [e, num q])) := by
  intro D h
  obtain ⟨hb, _, hneg⟩ := regular_pow_iff.mp h
  obtain ⟨hb, he, hzero⟩ := regular_pow_iff.mp hb
  have hvalue (σ : Valuation) : (mul [e, num q]).value σ = e.value σ * q := by simp
  obtain ⟨m, rfl⟩ : ∃ m : Int, q = m := (IsExponent.num hq).integer fun _ => 0
  have hexponent : IsExponent (mul [e, num m]) := by
    refine ⟨?_, ?_, fun σ => ?_⟩
    · rw [(hereditary_regular _).mul]
      simpa using ⟨he.regular, (IsExponent.num hq).regular⟩
    · rw [structural_symbolFree.mul]
      simpa using ⟨he.symbolList, (IsExponent.num hq).symbolList⟩
    · obtain ⟨n, hn⟩ := he.integer σ
      exact ⟨n * m, by rw [hvalue, hn, Int.cast_mul]⟩
  constructor
  · refine regular_pow_iff.mpr ⟨hb, hexponent, fun σ hσ hb₀ => ?_⟩
    rw [hvalue]
    have he₀ := hzero σ hσ hb₀
    obtain ⟨n, hn⟩ := he.integer σ
    -- A positive exponent makes the inner power 0, so the outer exponent is not negative.
    by_cases hn₀ : n = 0
    · simp [hn, hn₀]
    · apply mul_nonneg he₀
      apply hneg σ hσ
      rw [value_pow, hn, hb₀, Rat.num_intCast, zero_zpow n hn₀]
  · intro σ _
    obtain ⟨n, hn⟩ := he.integer σ
    rw [value_pow, value_pow, value_pow, hvalue, hn, value_num, ← Int.cast_mul, Rat.num_intCast,
      Rat.num_intCast, Rat.num_intCast, zpow_mul]

theorem pow?_eq_some {b e : Number} (h : Number.pow? b e = some q) : q = b ^ e.num := by
  unfold Number.pow? at h
  dsimp only at h
  split at h
  · cases h
  · split at h
    · rw [← Option.some.inj h]
      split
      · next hn => rw [← zpow_natCast, Int.natCast_natAbs, abs_of_neg hn, zpow_neg, inv_inv]
      · next hn => rw [← zpow_natCast, Int.natCast_natAbs, abs_of_nonneg (not_lt.mp hn)]
    · cases h

theorem simplifies_numberPower (b : Number) (e : Expr) :
    Simplifies (pow (num b) e) (numberPower b e) := by
  intro D h
  unfold numberPower
  split
  · next q =>
    obtain ⟨n, rfl⟩ : ∃ n : Int, q = n := (regular_pow_iff.mp h).2.1.integer fun _ => 0
    split
    · next hb => exact ⟨trivial, fun σ _ => by simp [eq_of_beq hb]⟩
    · split
      · next p hp => exact ⟨trivial, fun σ _ => by simp [pow?_eq_some hp]⟩
      · split
        · next hb =>
          have hn : n ≠ 0 := by rintro rfl; simp at hb
          have hb : b = 0 := by simp_all
          exact ⟨trivial, fun σ _ => by simp [hb, zero_zpow n hn]⟩
        · exact ⟨h, fun _ _ => rfl⟩
  · split
    · next hb => exact ⟨trivial, fun σ _ => by simp [eq_of_beq hb]⟩
    · exact ⟨h, fun _ _ => rfl⟩

theorem simplifies_splitPower (f : Expr) : Simplifies f (pow f.splitPower.1 f.splitPower.2) := by
  intro D h
  fun_cases splitPower f with
  | case1 b e => exact ⟨h, fun _ _ => rfl⟩
  | case2 =>
    refine ⟨regular_pow_iff.mpr ⟨h, IsExponent.num rfl, fun σ _ _ => ?_⟩, fun σ _ => ?_⟩
    · exact zero_le_one
    · rw [value_pow, value_one, Rat.num_one, zpow_one]

theorem simplifies_group (b : Expr) (hes : es ≠ []) :
    Simplifies (mul (es.map (pow b))) (pow b (sum es)) := by
  intro D h
  rw [(hereditary_regular D).mul, forall_mem_map] at h
  have h (e : Expr) (he : e ∈ es) := regular_pow_iff.mp (h e he)
  have hpowers {σ : Valuation} (hσ : σ ∈ D) := zpow_num_sum (b.value σ)
    (es.map (value σ)) (by simpa using fun e he => (h e he).2.1.integer σ)
    (fun hzero => by simpa using fun e he => (h e he).2.2 σ hσ hzero)
  constructor
  · obtain ⟨e, he⟩ := exists_mem_of_ne_nil es hes
    refine regular_pow_iff.mpr
      ⟨(h e he).1, .sum fun e he => (h e he).2.1, fun σ hσ hzero => ?_⟩
    rw [value_sum]
    apply sum_nonneg
    simpa using fun e he => (h e he).2.2 σ hσ hzero
  · intro σ hσ
    rw [value_pow, value_sum, (hpowers hσ).2, value_mul]
    simp [Function.comp_def]

theorem prod_value_baseGroups (σ : Valuation) (operands : List Expr) :
    ((baseGroups operands).map fun g => (mul (g.2.map (pow g.1))).value σ).prod =
      (((factorLists operands).filter (!·.isNumber)).map (value σ)).prod := by
  let others := (factorLists operands).reverse.filter (!·.isNumber)
  let power (p : Expr × Expr) := p.1.value σ ^ (p.2.value σ).num
  calc ((baseGroups operands).map fun g => (mul (g.2.map (pow g.1))).value σ).prod
      = (((baseGroups operands).flatMap fun g => g.2.map (Prod.mk g.1)).map power).prod := by
        simp [List.flatMap, map_flatten, prod_flatten, Function.comp_def, power]
    _ = ((others.map splitPower).map power).prod :=
        ((flatMap_collect_perm _).map power).prod_eq
    _ = (others.map (value σ)).prod := by
        rw [map_map]
        congr 1
        apply map_congr_left
        intro f _
        fun_cases splitPower f <;> simp [power, splitPower]
    _ = (((factorLists operands).filter (!·.isNumber)).map (value σ)).prod :=
        (((reverse_perm _).filter _).map _).prod_eq

theorem simplifies_baseGroups (operands : List Expr) :
    Simplifies (mul operands) (mul (((factorLists operands).filterMap number?).map num ++
      (baseGroups operands).map fun g => mul (g.2.map (pow g.1)))) := by
  intro D h
  rw [(hereditary_regular D).mul] at h ⊢
  constructor
  · have hfactors := (hereditary_regular D).of_mem_factorLists h
    rw [forall_mem_append, forall_mem_map, forall_mem_map]
    refine ⟨fun q _ => trivial, fun g hg => ?_⟩
    rw [(hereditary_regular D).mul, forall_mem_map]
    intro e he
    obtain ⟨f, hf, hsplit⟩ := mem_map.mp (mem_of_mem_collect hg he)
    have hf : Regular D f := hfactors f (mem_reverse.mp (mem_of_mem_filter hf))
    have hpow := (simplifies_splitPower f D hf).1
    rwa [hsplit] at hpow
  · intro σ _
    rw [value_mul, value_mul, ← prod_value_factorLists σ operands,
      ← ((numbers_append_others_perm (factorLists operands)).map (value σ)).prod_eq,
      map_append, map_append, prod_append, prod_append,
      ← prod_value_baseGroups, map_map (l := baseGroups operands)]
    rfl

theorem simplifies_join (operands powers : List Expr) :
    Simplifies (mul (((factorLists operands).filterMap number?).map num ++ powers))
      (mul (num (join operands powers).coefficient :: (join operands powers).factors)) := by
  intro D h
  rw [(hereditary_regular D).mul] at h ⊢
  constructor
  · rw [forall_mem_cons]
    rw [forall_mem_append] at h
    exact ⟨trivial, (hereditary_regular D).of_mem_join h.2⟩
  · intro σ _
    rw [value_mul, value_mul, map_cons, prod_cons, value_num, value_join]
    simp [Function.comp_def]

theorem simplifies_mulNode (q : Number) (fs : List Expr) :
    Simplifies (mul (num q :: fs)) (mulNode q fs) := by
  intro D h
  rw [(hereditary_regular D).mul, forall_mem_cons] at h
  refine ⟨(hereditary_regular D).mulNode q h.2, fun σ _ => ?_⟩
  rw [value_mulNode, value_mul, map_cons, prod_cons, value_num]

theorem simplifies_distribute (q : Number) (ts : List Expr) :
    Simplifies (mul [num q, add ts]) (add (ts.map fun t => mul [num q, t])) := by
  intro D h
  rw [(hereditary_regular D).mul, forall_mem_cons, forall_mem_singleton,
    (hereditary_regular D).add] at h
  constructor
  · rw [(hereditary_regular D).add, forall_mem_map]
    intro t ht
    rw [(hereditary_regular D).mul, forall_mem_cons, forall_mem_singleton]
    exact ⟨h.1, h.2 t ht⟩
  · intro σ _
    simp [Function.comp_def, sum_map_mul_left]

theorem simplifies_zero (h : ∀ σ, (mul operands).value σ = 0) : Simplifies (mul operands) zero :=
  fun _ _ => ⟨trivial, fun σ _ => (h σ).symm⟩

theorem value_eq_zero_of_isZero (h : e.isZero) (σ : Valuation) : e.value σ = 0 := by
  cases e <;> simp_all [isZero]

section

variable {power : Expr → Expr → Option Expr} {product : List Expr → Option Expr}
  (hpower : ∀ b e r, power b e = some r → Simplifies (pow b e) r)
  (hproduct : ∀ es r, product es = some r → Simplifies (mul es) r)
include hpower hproduct

theorem productStep_simplifies (hr : productStep power product operands = some r) :
    Simplifies (mul operands) r := by
  rcases productStep_cases hr with ⟨hzero, rfl⟩ | ⟨powers, hpowers, hr⟩
  · apply simplifies_zero
    intro σ
    obtain ⟨f, hf, hf₀⟩ := any_eq_true.mp hzero
    rw [value_mul, ← prod_value_factorLists, prod_eq_zero_iff, ← value_eq_zero_of_isZero hf₀ σ]
    exact mem_map_of_mem hf
  let joined := join operands powers
  have hjoined : Simplifies (mul operands) (mul (num joined.coefficient :: joined.factors)) := by
    refine (simplifies_baseGroups operands).trans (.trans ?_ (simplifies_join operands powers))
    apply Simplifies.mul_append
    rw [pointwise_map_left]
    apply hpowers.imp
    intro g hg p hp
    exact (simplifies_group g.1 (runs_ne_nil hg)).trans (hpower _ _ _ hp)
  refine hjoined.trans ?_
  rcases hr with ⟨hzero, rfl⟩ | hr | ⟨ts, rs, hs, hrs, rfl⟩ | rfl
  · apply simplifies_zero
    intro σ
    simp [joined, hzero]
  · refine .trans ?_ (hproduct _ _ hr)
    exact .mul_perm (perm_append_singleton _ _).symm
  · rw [(Joined.soleSum?_eq_some hs).1]
    refine (simplifies_distribute _ ts).trans (.trans (.add ?_) (.sum rs))
    rw [pointwise_map_left]
    exact hrs.imp fun t _ r => hproduct _ r
  · exact simplifies_mulNode _ _

theorem powerStep_simplifies
    (hsymbols : ∀ es r, product es = some r → (∀ e ∈ es, e.symbolList = []) → r.symbolList = [])
    {base exponent : Expr} (h : powerStep power product base exponent = some r) :
    Simplifies (pow base exponent) r := by
  rcases powerStep_cases h with ⟨hzero, rfl⟩ | ⟨hone, rfl⟩ | ⟨b, rfl, rfl⟩ |
    ⟨a, p, rfl, hp, rfl⟩ | ⟨b, e, p, rfl, hq, hp, hr⟩ | ⟨fs, rs, rfl, _, hrs, hr⟩ | rfl
  · intro D _
    refine ⟨trivial, fun σ _ => ?_⟩
    rw [value_pow, value_eq_zero_of_isZero hzero, Rat.num_zero, zpow_zero, value_one]
  · intro D h
    refine ⟨(regular_pow_iff.mp h).1, fun σ _ => ?_⟩
    rw [value_pow, eq_one_of_isOne hone, value_one, Rat.num_one, zpow_one]
  · exact simplifies_numberPower b exponent
  · -- A function is not regular.
    intro D h
    exact (regular_pow_iff.mp h).1.elim
  · obtain ⟨q, rfl⟩ : ∃ q, exponent = num q := by cases exponent <;> simp_all [isInteger]
    refine (simplifies_pow_pow b e hq).trans (.trans (.pow (hproduct _ _ hp) ?_) (hpower _ _ _ hr))
    intro he
    exact hsymbols _ _ hp ((structural_symbolFree.mul _).mp he)
  · refine (simplifies_pow_mul fs exponent).trans (.trans (.mul_append [] ?_) (hproduct _ _ hr))
    rw [pointwise_map_left]
    exact hrs.imp fun f _ r => hpower _ _ r
  · exact fun D h => ⟨h, fun _ _ => rfl⟩

end

theorem productIn_powerIn_simplifies (n : Nat) :
    (∀ es r, productIn n es = some r → Simplifies (mul es) r) ∧
      ∀ b e r, powerIn n b e = some r → Simplifies (pow b e) r := by
  induction n with
  | zero => exact ⟨fun _ _ h => (nomatch h), fun _ _ _ h => (nomatch h)⟩
  | succ n ih =>
    exact ⟨fun _ _ => productStep_simplifies ih.2 ih.1, fun _ _ _ =>
      powerStep_simplifies ih.2 ih.1 (structural_symbolFree.productIn_powerIn n).1⟩

theorem simplifies_product (es : List Expr) : Simplifies (mul es) (product es) := by
  obtain ⟨n, hn⟩ := exists_productIn es
  exact (productIn_powerIn_simplifies n).1 es _ hn

theorem simplifies_power (b e : Expr) : Simplifies (pow b e) (power b e) := by
  obtain ⟨n, hn⟩ := exists_powerIn b e
  exact (productIn_powerIn_simplifies n).2 b e _ hn

inductive RationalFragment : Expr → Prop
  | num (q : Number) : RationalFragment (num q)
  | sym (s : String) : RationalFragment (sym s)
  | sum {ts : List Expr} : (∀ t ∈ ts, RationalFragment t) → RationalFragment (sum ts)
  | product {fs : List Expr} : (∀ f ∈ fs, RationalFragment f) → RationalFragment (product fs)
  | power {b : Expr} (n : Int) : RationalFragment b → RationalFragment (power b (integer n))
  | neg {e : Expr} : RationalFragment e → RationalFragment e.neg
  | sub {a b : Expr} : RationalFragment a → RationalFragment b → RationalFragment (a.sub b)
  | div {a b : Expr} : RationalFragment a → RationalFragment b → RationalFragment (a.div b)

section Build

theorem regular_sum {ts : List Expr} (h : ∀ t ∈ ts, Regular D t) : Regular D (sum ts) :=
  (hereditary_regular D).sum h

theorem regular_product {fs : List Expr} (h : ∀ f ∈ fs, Regular D f) : Regular D (product fs) :=
  (simplifies_product fs D (((hereditary_regular D).mul fs).mpr h)).1

theorem isExponent_integer (n : Int) : IsExponent (integer n) :=
  IsExponent.num (by simp [Number.isInteger])

theorem regular_pow_integer {n : Int} (hb : Regular D b) (h : ∀ σ ∈ D, b.value σ = 0 → 0 ≤ n) :
    Regular D (pow b (integer n)) := by
  refine regular_pow_iff.mpr ⟨hb, isExponent_integer n, fun σ hσ hzero => ?_⟩
  rw [value_integer]
  exact_mod_cast h σ hσ hzero

end Build

theorem RationalFragment.regular (h : RationalFragment e) : Regular ∅ e := by
  have hpower {b : Expr} (n : Int) (hb : Regular ∅ b) : Regular ∅ (Expr.power b (integer n)) :=
    (simplifies_power _ _ _ (regular_pow_integer hb fun _ h => h.elim)).1
  have hneg {e : Expr} (he : Regular ∅ e) : Regular ∅ e.neg :=
    regular_product (by simpa using ⟨trivial, he⟩)
  induction h with
  | num q => trivial
  | sym s => trivial
  | sum _ ih => exact regular_sum ih
  | product _ ih => exact regular_product ih
  | power n _ ih => exact hpower n ih
  | neg _ ih => exact hneg ih
  | sub _ _ ha hb => exact regular_sum (by simpa using ⟨ha, hneg hb⟩)
  | div _ _ ha hb => exact regular_product (by simpa using ⟨ha, hpower (-1) hb⟩)

def replaced (f : String → Option Expr) (σ : Valuation) : Valuation :=
  fun s => ((f s).getD (sym s)).value σ

section Substitute

variable (f : String → Option Expr)

mutual

theorem substitute_regular (D : Set Valuation) (e : Expr)
    (hf : ∀ s ∈ e.symbolList, Regular D ((f s).getD (sym s)))
    (he : Regular (Set.image (replaced f) D) e) :
    Regular D (e.substitute f) ∧ ∀ σ ∈ D, (e.substitute f).value σ = e.value (replaced f σ) := by
  cases e with
  | num q => exact ⟨trivial, fun _ _ => rfl⟩
  | sym s => exact ⟨hf s (by simp [symbolList]), fun _ _ => rfl⟩
  | fn g a => exact he.elim
  | pow b e =>
    obtain ⟨hb, he, hzero⟩ := regular_pow_iff.mp he
    rw [symbolList, forall_mem_append] at hf
    have hb := substitute_regular D b hf.1 hb
    -- The exponent has no symbols, so nothing is asked of the replacements there.
    have hfree : ∀ s ∈ e.symbolList, s ∈ ([] : List String) := by simp [he.symbolList]
    have hexponent := substitute_regular Set.univ e (fun s hs => nomatch hfree s hs)
      (he.regular.mono (Set.subset_univ _))
    have hexponent_value (σ : Valuation) : (e.substitute f).value σ = e.value (replaced f σ) :=
      hexponent.2 σ trivial
    have hpow : Regular D (pow (b.substitute f) (e.substitute f)) := by
      refine regular_pow_iff.mpr ⟨hb.1, ⟨hexponent.1, ?_, fun σ => ?_⟩, fun σ hσ => ?_⟩
      · exact structural_symbolFree.substitute fun s hs => nomatch hfree s hs
      · rw [hexponent_value]
        exact he.integer _
      · rw [hb.2 σ hσ, hexponent_value]
        exact hzero _ (Set.mem_image_of_mem _ hσ)
    have hpower := simplifies_power _ _ D hpow
    refine ⟨hpower.1, fun σ hσ => ?_⟩
    rw [substitute, hpower.2 σ hσ, value_pow, value_pow, hb.2 σ hσ, hexponent_value]
  | mul fs =>
    have hfs := substituteAll_regular D fs hf (((hereditary_regular _).mul fs).mp he)
    have hproduct := simplifies_product _ D (((hereditary_regular _).mul _).mpr hfs.1)
    refine ⟨hproduct.1, fun σ hσ => ?_⟩
    rw [substitute, hproduct.2 σ hσ, value_mul, value_mul, hfs.2 σ hσ]
  | add ts =>
    have hts := substituteAll_regular D ts hf (((hereditary_regular _).add ts).mp he)
    refine ⟨regular_sum hts.1, fun σ hσ => ?_⟩
    rw [substitute, value_sum, value_add, hts.2 σ hσ]

theorem substituteAll_regular (D : Set Valuation) (es : List Expr)
    (hf : ∀ s ∈ symbolLists es, Regular D ((f s).getD (sym s)))
    (hes : ∀ e ∈ es, Regular (Set.image (replaced f) D) e) :
    (∀ e ∈ substituteAll f es, Regular D e) ∧
      ∀ σ ∈ D, (substituteAll f es).map (value σ) = es.map (value (replaced f σ)) := by
  cases es with
  | nil => exact ⟨nofun, fun _ _ => rfl⟩
  | cons e es =>
    rw [symbolLists, forall_mem_append] at hf
    rw [forall_mem_cons] at hes
    have he := substitute_regular D e hf.1 hes.1
    have hes := substituteAll_regular D es hf.2 hes.2
    rw [substituteAll, forall_mem_cons]
    refine ⟨⟨he.1, hes.1⟩, fun σ hσ => ?_⟩
    rw [map_cons, map_cons, he.2 σ hσ, hes.2 σ hσ]

end

end Substitute

theorem RationalFragment.regular_of_defined (h : RationalFragment e) (hσ : e.Defined σ) :
    Regular {σ} e := by
  rw [regular_iff]
  exact ⟨h.regular, by simpa using hσ⟩

/-- Sums, products, integer powers and substitution of defined operands are defined and have
the value they should, whether or not numbers go out of range on the way. -/
theorem rational_value_preserved (σ : Valuation) :
    (∀ ts : List Expr, (∀ t ∈ ts, RationalFragment t ∧ t.Defined σ) →
      (sum ts).Defined σ ∧ (sum ts).value σ = (ts.map (value σ)).sum) ∧
    (∀ fs : List Expr, (∀ f ∈ fs, RationalFragment f ∧ f.Defined σ) →
      (product fs).Defined σ ∧ (product fs).value σ = (fs.map (value σ)).prod) ∧
    (∀ (b : Expr) (n : Int), RationalFragment b → b.Defined σ → (b.value σ = 0 → 0 ≤ n) →
      (power b (integer n)).Defined σ ∧ (power b (integer n)).value σ = b.value σ ^ n) ∧
    (∀ (e : Expr) (f : String → Option Expr), RationalFragment e → e.Defined (replaced f σ) →
      (∀ s ∈ e.symbolList, ∀ r, f s = some r → RationalFragment r ∧ r.Defined σ) →
      (e.substitute f).Defined σ ∧ (e.substitute f).value σ = e.value (replaced f σ)) := by
  have hdefined {e : Expr} (h : Regular {σ} e) : e.Defined σ := ((regular_iff _ e).mp h).2 σ rfl
  refine ⟨fun ts h => ?_, fun fs h => ?_, fun b n hb hbσ hzero => ?_, fun e f he heσ hf => ?_⟩
  · have hts (t : Expr) (ht : t ∈ ts) := (h t ht).1.regular_of_defined (h t ht).2
    exact ⟨hdefined (regular_sum hts), value_sum σ ts⟩
  · have hfs (f : Expr) (hf : f ∈ fs) := (h f hf).1.regular_of_defined (h f hf).2
    have hproduct := simplifies_product fs {σ} (((hereditary_regular _).mul fs).mpr hfs)
    refine ⟨hdefined hproduct.1, ?_⟩
    rw [hproduct.2 σ rfl, value_mul]
  · have hpow : Regular {σ} (pow b (integer n)) :=
      regular_pow_integer (hb.regular_of_defined hbσ) (by simpa using hzero)
    have hpower := simplifies_power b (integer n) {σ} hpow
    refine ⟨hdefined hpower.1, ?_⟩
    rw [hpower.2 σ rfl, value_pow, value_integer, Rat.num_intCast]
  · have hreplaced : ∀ s ∈ e.symbolList, Regular {σ} ((f s).getD (sym s)) := by
      intro s hs
      cases hfs : f s with
      | none => trivial
      | some r => exact (hf s hs r hfs).1.regular_of_defined (hf s hs r hfs).2
    have hsubstitute := substitute_regular f {σ} e hreplaced
      (by simpa using he.regular_of_defined heσ)
    exact ⟨hdefined hsubstitute.1, hsubstitute.2 σ rfl⟩

theorem rational_value_preserved_at_two :
    let σ : Valuation := fun _ => 2
    let inverse := power (sym "x") (integer (-1))
    (sum [num 9223372036854775807, num 1, sym "x"]).value σ = 9223372036854775810 ∧
      (product [inverse, num (1 / 2), sym "x"]).value σ = 1 / 2 ∧
      (power (sum [sym "x", num (-2)]) (integer 3)).value σ = 0 ∧
      (inverse.substitute fun _ => some (sum [sym "x", sym "y"])).value σ = 1 / 4 := by
  intro σ inverse
  obtain ⟨hsum, hproduct, hpower, hsubstitute⟩ := rational_value_preserved σ
  have hx : RationalFragment (sym "x") ∧ (sym "x").Defined σ := ⟨.sym "x", trivial⟩
  have hplus (e : Expr) (he : RationalFragment e ∧ e.Defined σ) :
      (RationalFragment (sum [sym "x", e]) ∧ (sum [sym "x", e]).Defined σ) ∧
        (sum [sym "x", e]).value σ = 2 + e.value σ := by
    have hes : ∀ t ∈ [sym "x", e], RationalFragment t ∧ t.Defined σ := by simpa using ⟨hx, he⟩
    exact ⟨⟨.sum fun t ht => (hes t ht).1, (hsum _ hes).1⟩, by simp [(hsum _ hes).2, σ]⟩
  have hinverse (τ : Valuation) (hτ : τ "x" ≠ 0) :
      inverse.Defined τ ∧ inverse.value τ = (τ "x")⁻¹ := by
    have h := (rational_value_preserved τ).2.2.1 (sym "x") (-1) hx.1 trivial
      (fun h => absurd h hτ)
    exact ⟨h.1, by rw [h.2, value_sym, zpow_neg_one]⟩
  have hnum (q : Number) : RationalFragment (num q) ∧ (num q).Defined σ := ⟨.num q, trivial⟩
  have hσ := hinverse σ (by simp [σ])
  have hfragment : RationalFragment inverse := .power (-1) hx.1
  refine ⟨?_, ?_, ?_, ?_⟩
  · rw [(hsum _ (by simpa using ⟨hnum _, hnum _, hx⟩)).2]
    norm_num [σ]
  · rw [(hproduct _ (by simpa using ⟨⟨hfragment, hσ.1⟩, hnum _, hx⟩)).2]
    norm_num [hσ.2, σ]
  · have hbase := hplus _ (hnum (-2))
    rw [(hpower _ 3 hbase.1.1 hbase.1.2 (by simp)).2, hbase.2]
    norm_num
  · have hy := hplus (sym "y") ⟨.sym "y", trivial⟩
    have hτ := hinverse (replaced (fun _ => some (sum [sym "x", sym "y"])) σ)
      (by norm_num [replaced, σ])
    rw [(hsubstitute inverse _ hfragment hτ.1 (by rintro s _ r ⟨⟩; exact hy.1)).2, hτ.2]
    norm_num [replaced, σ]

end Expr

variable {e : Expr} {q : Rat} {es : List Expr} {qs : List Rat}

namespace Expr

/-- The expression is defined at a valuation, with constant integer exponents, and has a value
there. -/
structure HasValue (σ : Valuation) (e : Expr) (q : Rat) : Prop where
  regular : Regular {σ} e
  value_eq : e.value σ = q

theorem Regular.hasValue (h : Regular {σ} e) : HasValue σ e (e.value σ) :=
  ⟨h, rfl⟩

namespace HasValue

theorem defined (h : HasValue σ e q) : e.Defined σ :=
  ((regular_iff _ e).mp h.regular).2 σ rfl

theorem num (q : Number) : HasValue σ (num q) q :=
  ⟨trivial, rfl⟩

theorem sym (s : String) : HasValue σ (sym s) (σ s) :=
  ⟨trivial, rfl⟩

theorem map {α : Type} {xs : List α} {f : α → Expr} {g : α → Rat}
    (h : ∀ x ∈ xs, HasValue σ (f x) (g x)) : Forall₂ (HasValue σ) (xs.map f) (xs.map g) := by
  rw [forall₂_map_left_iff, forall₂_map_right_iff, forall₂_same]
  exact h

theorem forall_regular (h : Forall₂ (HasValue σ) es qs) :
    (∀ e ∈ es, Regular {σ} e) ∧ es.map (value σ) = qs := by
  induction h with
  | nil => exact ⟨nofun, rfl⟩
  | cons h _ ih =>
    rw [forall_mem_cons, map_cons, h.value_eq, ih.2]
    exact ⟨⟨h.regular, ih.1⟩, rfl⟩

theorem sum (h : Forall₂ (HasValue σ) es qs) : HasValue σ (sum es) qs.sum :=
  ⟨regular_sum (forall_regular h).1, by rw [value_sum, (forall_regular h).2]⟩

theorem product (h : Forall₂ (HasValue σ) es qs) : HasValue σ (product es) qs.prod := by
  obtain ⟨hregular, hvalues⟩ := forall_regular h
  obtain ⟨hproduct, hvalue⟩ :=
    simplifies_product es {σ} (((hereditary_regular _).mul es).mpr hregular)
  exact ⟨hproduct, by rw [hvalue σ rfl, value_mul, hvalues]⟩

theorem neg (h : HasValue σ e q) : HasValue σ e.neg (-q) := by
  have hproduct := product (.cons (num (-1)) (.cons h .nil))
  rwa [prod_cons, prod_singleton, neg_one_mul] at hproduct

theorem inverse (h : HasValue σ e q) (hq : q ≠ 0) : HasValue σ (power e (integer (-1))) q⁻¹ := by
  have hpow : Regular {σ} (pow e (integer (-1))) := by
    apply regular_pow_integer h.regular
    rintro τ rfl hzero
    exact absurd (h.value_eq.symm.trans hzero) hq
  obtain ⟨hpower, hvalue⟩ := simplifies_power e (integer (-1)) {σ} hpow
  refine ⟨hpower, ?_⟩
  rw [hvalue σ rfl, value_pow, value_integer, Rat.num_intCast, zpow_neg_one, h.value_eq]

end HasValue

end Expr

def Sign.factor : Sign → Rat
  | plus => 1
  | minus => -1
  | zero => 0

theorem Expr.HasValue.sign (h : e.HasValue σ q) (sign : Sign) :
    (sign.apply e).HasValue σ (sign.factor * q) := by
  cases sign with
  | plus => rwa [Sign.factor, one_mul]
  | minus =>
    rw [Sign.factor, neg_one_mul]
    exact h.neg
  | zero =>
    rw [Sign.factor, zero_mul]
    exact .num 0

end TensorCalculus
