import TensorCalculus.Scalar.Weight

/-! The sizes of the calls that simplification makes, and of the powers that a product calls
for: together they are no larger than the factors. -/
namespace TensorCalculus

variable {es rs powers : List Expr} {f : Expr}

namespace Expr

open List Number

def Smaller (w z W Z : Nat) : Prop :=
  w ≤ W ∧ (w = W → z < Z)

theorem Smaller.lex {w z W Z : Nat} (h : Smaller w z W Z) (a b : Nat) :
    Prod.Lex (· < ·) (Prod.Lex (· < ·) (· < ·)) (w, z, a) (W, Z, b) := by
  rcases Nat.lt_or_eq_of_le h.1 with hw | hw
  · exact .left _ _ hw
  · subst hw
    exact .right _ (.left _ _ (h.2 rfl))

def powerWeight (base exponent : Expr) : Nat :=
  Nat.pow base.weight exponent.weight

/-- The bulk of a call for a power: the exponent 1 leaves the base alone. -/
def powerBulk (base exponent : Expr) : Nat :=
  if exponent.isOne then base.bulk else base.bulk * (1 + exponent.bulkAbove)

def productBulk (operands : List Expr) : Nat :=
  1 + total bulk (factorLists operands)

def FitsPower (base exponent result : Expr) : Prop :=
  Within result.weight result.bulk (powerWeight base exponent) (powerBulk base exponent)

def FitsProduct (operands : List Expr) (result : Expr) : Prop :=
  Within result.weight result.bulkAbove (totalProduct weight operands) (productBulk operands)

theorem powerWeight_pos (b e : Expr) : 1 ≤ powerWeight b e :=
  Nat.pow_pos b.weight_pos

theorem powerWeight_splitPower_le : powerWeight f.splitPower.1 f.splitPower.2 ≤ f.weight := by
  fun_cases splitPower f
  · exact Nat.pow_le_pow_left (Nat.le_max_right ..) _
  · simp [powerWeight, weight_one]

theorem powerBulk_le (b e : Expr) : powerBulk b e ≤ b.bulk * (1 + e.bulkAbove) := by
  simp only [powerBulk]
  split
  · exact Nat.le_mul_of_pos_right _ (by omega)
  · exact Nat.le_refl _

theorem powerBulk_splitPower_le : powerBulk f.splitPower.1 f.splitPower.2 ≤ f.bulk := by
  fun_cases splitPower f
  · rw [bulk_pow]; exact powerBulk_le ..
  · simp [powerBulk, isOne, one]

theorem eq_one_of_isOne {e : Expr} (h : e.isOne = true) : e = one := by
  cases e <;> simp_all [isOne, one]

theorem totalProduct_powerWeight (b : Expr) (es : List Expr) :
    totalProduct (powerWeight b) es = Nat.pow b.weight (total weight es) := by
  induction es with
  | nil => rfl
  | cons e es ih =>
    rw [totalProduct, ih, total]
    exact (Nat.pow_add ..).symm

theorem powerWeight_sum_le (b : Expr) (h : es ≠ []) :
    powerWeight b (sum es) ≤ totalProduct (powerWeight b) es := by
  rw [totalProduct_powerWeight]
  exact Nat.pow_le_pow_right b.weight_pos (weight_sum_le h)

/-- How often the bulk of a base is counted for an exponent. -/
def copies (e : Expr) : Nat :=
  if e.isOne then 1 else 1 + e.bulkAbove

theorem powerBulk_eq (b e : Expr) : powerBulk b e = b.bulk * e.copies := by
  simp only [powerBulk, copies]; split <;> simp

theorem copies_one : one.copies = 1 := by
  simp [copies, isOne, one]

theorem total_powerBulk (b : Expr) (es : List Expr) :
    total (powerBulk b) es = b.bulk * total copies es := by
  induction es with
  | nil => rfl
  | cons e es ih => rw [total, ih, powerBulk_eq, total, Nat.mul_add]

theorem total_bulkAbove_le_copies (es : List Expr) : total bulkAbove es ≤ total copies es := by
  refine total_le fun e _ => ?_
  simp only [copies]
  split
  · next h => exact Nat.le_of_eq (by rw [eq_one_of_isOne h, one, bulkAbove_num])
  · omega

theorem total_bulkAbove_lt_copies {e : Expr} (he : e ∈ es) (h : e ≠ one) :
    1 + total bulkAbove es ≤ total copies es := by
  induction he with
  | head es =>
    have : e.copies = 1 + e.bulkAbove := by
      simp only [copies]
      split
      · next h' => exact absurd (eq_one_of_isOne h') h
      · rfl
    have := total_bulkAbove_le_copies es
    simp only [total]
    omega
  | @tail d es _ ih =>
    have := total_bulkAbove_le_copies [d]
    simp only [total] at *
    omega

theorem termLists_replicate_one (n : Nat) :
    termLists (List.replicate n one) = List.replicate n one := by
  induction n with
  | zero => rfl
  | succ n ih => rw [replicate_succ, termLists, ih]; rfl

theorem sumTerms_replicate_one (n : Nat) :
    sumTerms (List.replicate n one) = constantTerms (List.replicate n 1) := by
  rw [sumTerms, termLists_replicate_one, reverse_replicate, filter_replicate, filterMap_replicate]
  have : collect ([] : List (Expr × Number)) = [] := by simp [collect, runs]
  simp [one, this]

theorem bulkAbove_sum_ones (n : Nat) : (sum (List.replicate (n + 2) one)).bulkAbove ≤ n + 1 := by
  have h₁ := bulkAbove_addNode_le (sumTerms (List.replicate (n + 2) one))
  rw [sum]
  refine Nat.le_trans h₁ ?_
  have h₂ : gather add? 0 (List.replicate (n + 2) 1) =
      gather add? 2 (List.replicate n 1) := by
    have h₀ : add? 0 1 = some 1 := by decide +kernel
    have h₁ : add? 1 1 = some 2 := by decide +kernel
    simp only [replicate_succ, gather, h₀, h₁]
  have h₃ := length_gather_le add? 2 (List.replicate n 1)
  have h₄ (qs : List Number) : total (fun q => (num q).bulkInSum) qs = qs.length := by
    induction qs with
    | nil => rfl
    | cons q qs ih => rw [total, ih, bulkInSum_num, length_cons, Nat.add_comm]
  have h₅ : ∀ b : Bool, ∀ q : Number, total bulkInSum (if b then [] else [num q]) ≤ 1 := by
    intro b q
    cases b <;> simp [total, bulkInSum_num]
  have := h₅ ((gather add? 2 (List.replicate n 1)).1 == 0)
    (gather add? 2 (List.replicate n 1)).1
  rw [sumTerms_replicate_one]
  simp only [constantTerms, h₂, total_append, total_map, h₄, length_replicate] at *
  omega

theorem copies_sum_le (h : es ≠ []) : (sum es).copies ≤ total copies es := by
  have hpos (e : Expr) : 1 ≤ e.copies := by simp only [copies]; split <;> omega
  by_cases hall : ∀ e ∈ es, e = one
  · have hes := eq_replicate_of_mem hall
    match hn : es.length with
    | 0 => exact absurd (eq_nil_of_length_eq_zero hn) h
    | 1 => rw [hes, hn]; simp [List.replicate, sum_one, total]
    | n + 2 =>
      have htotal (n : Nat) : total copies (List.replicate n one) = n := by
        induction n with
        | zero => rfl
        | succ n ih => rw [replicate_succ, total, ih, copies_one, Nat.add_comm]
      have := bulkAbove_sum_ones n
      rw [hes, hn, htotal]
      change (sum (List.replicate (n + 2) one)).copies ≤ n + 2
      simp only [copies]
      split <;> omega
  · simp only [Classical.not_forall] at hall
    obtain ⟨e, he, hne⟩ := hall
    have := total_bulkAbove_lt_copies he hne
    have := bulkAbove_sum_le h
    simp only [copies] at *
    split <;> omega

theorem powerBulk_sum_le (b : Expr) (h : es ≠ []) :
    powerBulk b (sum es) ≤ total (powerBulk b) es := by
  rw [powerBulk_eq, total_powerBulk]
  exact Nat.mul_le_mul_left _ (copies_sum_le h)

/-- The calls for the powers of the bases weigh no more than the factors. -/
theorem totalProduct_baseGroups_le (operands : List Expr) :
    totalProduct (fun g => powerWeight g.1 (sum g.2)) (baseGroups operands) ≤
      totalProduct weight ((factorLists operands).reverse.filter (!·.isNumber)) := by
  refine Nat.le_trans (totalProduct_le fun g hg => powerWeight_sum_le g.1 (runs_ne_nil hg)) ?_
  rw [baseGroups, totalProduct_collect, totalProduct_map]
  exact totalProduct_le fun f _ => powerWeight_splitPower_le

theorem total_baseGroups_le (operands : List Expr) :
    total (fun g => powerBulk g.1 (sum g.2)) (baseGroups operands) ≤
      total bulk ((factorLists operands).reverse.filter (!·.isNumber)) := by
  refine Nat.le_trans (total_le fun g hg => powerBulk_sum_le g.1 (runs_ne_nil hg)) ?_
  rw [baseGroups, total_collect, total_map]
  exact total_le fun f _ => powerBulk_splitPower_le

end Expr

/-! The calls a power makes are smaller than the power, and its result is within its size. -/

variable {e b n e' r : Expr} {fs : List Expr}

namespace Expr

theorem one_fitsPower (b e : Expr) : FitsPower b e one where
  weight_le := by rw [weight_one]; exact powerWeight_pos b e
  bulk_le _ := by rw [one, bulk_num]; exact Nat.zero_le _

theorem base_fitsPower (b : Expr) (h : e.isOne = true) : FitsPower b e b where
  weight_le := by
    rw [eq_one_of_isOne h, powerWeight, weight_one]
    exact Nat.le_of_eq (Nat.pow_one _).symm
  bulk_le _ := by simp [powerBulk, h]

/-- A power node is within its call, unless it could be simplified. -/
theorem pow_fitsPower (hb : b ≠ one) (he : e.isOne = false) :
    FitsPower b e (pow b e) where
  weight_le := by rw [weight, Nat.max_eq_right (two_le_weight hb)]; exact Nat.le_refl _
  bulk_le _ := by rw [bulk_pow, powerBulk, he]; exact Nat.le_refl _

theorem numberPower_fitsPower (q : Number) (he : e.isOne = false) :
    FitsPower (num q) e (numberPower q e) := by
  have hnumber (hq : ¬q == 1) (r : Number) : FitsPower (num q) e (num r) := by
    have hq : num q ≠ one := fun h => hq (by simpa using num.inj h)
    refine ⟨Nat.le_trans (weight_num_le r) ?_, fun _ => by rw [bulk_num]; exact Nat.zero_le _⟩
    exact Nat.le_trans (two_le_weight hq)
      (Nat.le_self_pow (Nat.ne_of_gt e.weight_pos) _)
  have hnode (hq : ¬q == 1) : FitsPower (num q) e (pow (num q) e) :=
    pow_fitsPower (fun h => hq (by simpa using num.inj h)) he
  fun_cases numberPower q e
  · exact one_fitsPower ..
  · next hq r _ => exact hnumber hq r
  · next hq _ _ => exact hnumber hq 0
  · next hq _ _ => exact hnode hq
  · exact one_fitsPower ..
  · next hq _ => exact hnode hq

/-- An integer other than 1, as it stands in the exponent of a power of a product or power. -/
structure IsOuterExponent (n : Expr) : Prop where
  isInteger : n.isInteger = true
  not_isOne : n.isOne = false

section

variable (h : IsOuterExponent n)
include h

theorem IsOuterExponent.exists_eq : ∃ q, n = num q ∧ q ≠ 1 := by
  obtain ⟨h₁, h₂⟩ := h
  cases n <;> simp_all [Expr.isInteger, isOne]

theorem IsOuterExponent.weight_eq : n.weight = 2 := by
  obtain ⟨q, rfl, hq⟩ := h.exists_eq
  simp [weight, hq]

theorem IsOuterExponent.bulk_eq : n.bulk = 0 := by
  obtain ⟨q, rfl, _⟩ := h.exists_eq
  exact bulk_num q

theorem IsOuterExponent.powerBulk_eq (b : Expr) : powerBulk b n = b.bulk * 2 := by
  obtain ⟨q, rfl, hq⟩ := h.exists_eq
  simp [powerBulk, isOne, hq, bulkAbove_num]

end

/-- The exponents of a power of a power weigh less than the call. -/
theorem smaller_exponents (b e : Expr) (h : IsOuterExponent n) :
    totalProduct weight [e, n] < powerWeight (pow b e) n := by
  have h₁ : e.weight < Nat.pow 2 e.weight := Nat.lt_two_pow_self
  have h₂ : Nat.pow 2 e.weight ≤ (pow b e).weight := Nat.pow_le_pow_left (Nat.le_max_left ..) _
  have h₃ : (pow b e).weight * (pow b e).weight = powerWeight (pow b e) n := by
    rw [powerWeight, h.weight_eq]
    exact (Nat.pow_two _).symm
  have h₄ := Nat.mul_le_mul (Nat.succ_le_of_lt (Nat.lt_of_lt_of_le h₁ h₂))
    (Nat.succ_le_of_lt (Nat.lt_of_lt_of_le h₁ h₂))
  simp only [totalProduct, h.weight_eq, ← h₃]
  simp only [Nat.succ_eq_add_one, Nat.add_mul, Nat.mul_add] at h₄
  have := e.weight_pos
  omega

theorem powerWeight_exponents_le (b : Expr) (h : IsOuterExponent n) (he : FitsProduct [e, n] e') :
    powerWeight b e' ≤ powerWeight (pow b e) n := by
  have h₁ := he.weight_le
  simp only [totalProduct, h.weight_eq] at h₁
  calc powerWeight b e' ≤ Nat.pow (max 2 b.weight) e'.weight :=
        Nat.pow_le_pow_left (Nat.le_max_right ..) _
    _ ≤ Nat.pow (max 2 b.weight) (e.weight * 2) :=
        Nat.pow_le_pow_right (by omega) (by omega)
    _ = powerWeight (pow b e) n := by
        rw [powerWeight, h.weight_eq, weight]
        exact Nat.pow_mul ..

section

variable (h : IsOuterExponent n) (he : FitsProduct [e, n] e')
include h he

section

variable (hw : powerWeight b e' = powerWeight (pow b e) n)
include hw

theorem weight_exponent_eq : e'.weight = totalProduct weight [e, n] := by
  have h₁ := he.weight_le
  refine Nat.le_antisymm h₁ (Nat.le_of_not_lt fun hlt => ?_)
  have h₂ : powerWeight b e' ≤ Nat.pow (max 2 b.weight) e'.weight :=
    Nat.pow_le_pow_left (Nat.le_max_right ..) _
  have h₃ : Nat.pow (max 2 b.weight) e'.weight < Nat.pow (max 2 b.weight) (e.weight * 2) := by
    simp only [totalProduct, h.weight_eq] at hlt
    exact Nat.pow_lt_pow_right (by omega) (by omega)
  have h₄ : Nat.pow (max 2 b.weight) (e.weight * 2) = powerWeight (pow b e) n := by
    rw [powerWeight, h.weight_eq, weight]
    exact Nat.pow_mul ..
  omega

theorem powerBulk_exponents_le : powerBulk b e' ≤ powerBulk (pow b e) n := by
  have h₁ := he.bulk_le (weight_exponent_eq h he hw)
  have h₂ := total_bulk_factorLists_le [e, n]
  have h₃ := bulk_le_bulkAbove e
  simp only [total, h.bulk_eq] at h₂
  rw [h.powerBulk_eq, bulk_pow, Nat.mul_assoc]
  refine Nat.le_trans (powerBulk_le b e') (Nat.mul_le_mul_left _ ?_)
  rw [productBulk] at h₁
  omega

end

theorem smaller_base :
    Prod.Lex (· < ·) (Prod.Lex (· < ·) (· < ·)) (powerWeight b e', powerBulk b e', 1 + sizeOf b)
      (powerWeight (pow b e) n, powerBulk (pow b e) n, 1 + sizeOf (pow b e)) := by
  rcases Nat.lt_or_eq_of_le (powerWeight_exponents_le b h he) with hw | hw
  · exact .left _ _ hw
  · rcases Nat.lt_or_eq_of_le (powerBulk_exponents_le h he hw) with hz | hz
    · rw [hw]; exact .right _ (.left _ _ hz)
    · rw [hw, hz]
      refine .right _ (.right _ ?_)
      simp only [pow.sizeOf_spec]
      omega

theorem exponents_fitsPower (hr : FitsPower b e' r) : FitsPower (pow b e) n r :=
  Within.mono hr (powerWeight_exponents_le b h he) (powerBulk_exponents_le h he)

end

theorem smaller_power_of_factor (hf : f ∈ fs) (h : IsOuterExponent n) :
    Smaller (powerWeight f n) (powerBulk f n) (powerWeight (mul fs) n) (powerBulk (mul fs) n) := by
  refine ⟨Nat.pow_le_pow_left ?_ _, fun _ => ?_⟩
  · rw [weight_mul]
    exact Nat.le_trans (le_totalProduct (fun f _ => f.weight_pos) hf) (Nat.le_max_right ..)
  · have := le_total bulk hf
    rw [h.powerBulk_eq, h.powerBulk_eq, bulk_mul]
    omega

theorem totalProduct_powerWeight_num (fs : List Expr) (e : Expr) :
    totalProduct (fun f => powerWeight f e) fs = Nat.pow (totalProduct weight fs) e.weight := by
  induction fs with
  | nil => exact (Nat.one_pow _).symm
  | cons f fs ih =>
    rw [totalProduct, ih, totalProduct]
    exact (Nat.mul_pow ..).symm

/-- The product of the powers of the factors is within the power of the product. -/
theorem powers_within (h : IsOuterExponent n) (hr : Pointwise (fun f r => FitsPower f n r) fs rs) :
    Smaller (totalProduct weight rs) (productBulk rs)
      (powerWeight (mul fs) n) (powerBulk (mul fs) n) := by
  have hwithin := Pointwise.within weight_pos hr
  have hle : totalProduct (fun f => powerWeight f n) fs ≤ powerWeight (mul fs) n := by
    rw [totalProduct_powerWeight_num, powerWeight, weight_mul]
    exact Nat.pow_le_pow_left (Nat.le_max_right ..) _
  refine ⟨Nat.le_trans hwithin.weight_le hle, fun e => ?_⟩
  have h₁ := hwithin.bulk_le (Nat.le_antisymm hwithin.weight_le (e ▸ hle))
  have h₂ := total_bulk_factorLists_le rs
  have h₃ (fs : List Expr) : total (fun f => powerBulk f n) fs = total bulk fs * 2 := by
    induction fs with
    | nil => rfl
    | cons f fs ih => rw [total, ih, h.powerBulk_eq, total, Nat.add_mul]
  rw [h₃] at h₁
  rw [h.powerBulk_eq, bulk_mul, productBulk]
  omega

theorem powers_fitsPower (h : IsOuterExponent n)
    (hrs : Pointwise (fun f r => FitsPower f n r) fs rs) (hr : FitsProduct rs r) :
    FitsPower (mul fs) n r := by
  obtain ⟨hw, hz⟩ := powers_within h hrs
  refine ⟨Nat.le_trans hr.weight_le hw, fun e => ?_⟩
  have h₁ := hr.weight_le
  have h₂ := hr.bulk_le (by omega)
  have h₃ := hz (by omega)
  have h₄ := bulk_le_bulkAbove r
  omega

/-- The argument of an exponential weighs less than a power of it. -/
theorem smaller_argument (a e : Expr) : totalProduct weight [a, e] < powerWeight (fn .exp a) e := by
  have h : powerWeight (fn .exp a) e = Nat.pow 2 (a.weight * e.weight) := by
    rw [powerWeight, weight]
    exact (Nat.pow_mul ..).symm
  rw [h, totalProduct, totalProduct, totalProduct, Nat.mul_one]
  exact Nat.lt_two_pow_self

theorem weight_apply_exp (r : Expr) : (apply .exp r).weight ≤ Nat.pow 2 r.weight ∧
    ((apply .exp r).weight = Nat.pow 2 r.weight → (apply .exp r).bulk ≤ 1) := by
  have hnode (a : Expr) : (fn .exp a).weight ≤ Nat.pow 2 a.weight ∧
      ((fn .exp a).weight = Nat.pow 2 a.weight → (fn .exp a).bulk ≤ 1) :=
    ⟨Nat.le_refl _, fun _ => by simp [bulk]⟩
  have hnum (q : Number) : (num q).weight ≤ Nat.pow 2 r.weight ∧
      ((num q).weight = Nat.pow 2 r.weight → (num q).bulk ≤ 1) :=
    ⟨Nat.le_trans (weight_num_le q) (Nat.le_self_pow (Nat.ne_of_gt r.weight_pos) 2),
      fun _ => by rw [bulk_num]; exact Nat.zero_le _⟩
  fun_cases apply .exp r
  · next g inner _ =>
    have h₁ : inner.weight < Nat.pow 2 inner.weight := Nat.lt_two_pow_self
    have h₂ : (fn g inner).weight < Nat.pow 2 (fn g inner).weight := Nat.lt_two_pow_self
    have h₃ : (fn g inner).weight = Nat.pow 2 inner.weight := by rw [weight]
    omega
  · exact hnode _
  · exact hnum _
  · exact hnode _
  · exact hnum _
  · exact hnode _
  · exact hnode _

theorem exp_fitsPower {a : Expr} (hr : FitsProduct [a, e] r) :
    FitsPower (fn .exp a) e (apply .exp r) := by
  have hcall : powerWeight (fn .exp a) e = Nat.pow 2 (totalProduct weight [a, e]) := by
    rw [powerWeight, weight, totalProduct, totalProduct, totalProduct, Nat.mul_one]
    exact (Nat.pow_mul ..).symm
  have hle : Nat.pow 2 r.weight ≤ powerWeight (fn .exp a) e := by
    rw [hcall]
    exact Nat.pow_le_pow_right (by omega) hr.weight_le
  obtain ⟨hw, hz⟩ := weight_apply_exp r
  refine ⟨Nat.le_trans hw hle, fun h => Nat.le_trans (hz (by omega)) ?_⟩
  rw [powerBulk_eq]
  simp only [bulk, copies]
  split <;> omega

end Expr

/-! The calls a product makes are smaller than the product, and its result is within its size. -/

variable {operands ts : List Expr}

open List

namespace Expr

theorem totalProduct_outerFactors_le (es : List Expr) :
    totalProduct weight (es.map outerFactors).flatten ≤ totalProduct weight es := by
  rw [totalProduct_flatten, totalProduct_map]
  refine totalProduct_le fun e _ => ?_
  fun_cases outerFactors e
  · rw [weight_mul]; exact Nat.le_max_right ..
  · simp [totalProduct]

theorem total_outerFactors_le (es : List Expr) :
    total bulk (es.map outerFactors).flatten + (if es.any isProduct then 1 else 0) ≤
      total bulk es := by
  induction es with
  | nil => simp [total]
  | cons e es ih =>
    simp only [map_cons, flatten_cons, total_append, total, any_cons]
    fun_cases outerFactors e
    · simp only [isProduct, Bool.true_or, if_true, bulk_mul]
      split at ih <;> omega
    · next h =>
      have : e.isProduct = false := by
        cases e <;> simp_all [isProduct]
      simp only [this, Bool.false_or, total]
      omega

theorem totalProduct_nums (qs : List Number) :
    totalProduct weight (qs.map num) = totalProduct (fun q => (num q).weight) qs :=
  totalProduct_map ..

theorem total_bulk_nums (qs : List Number) : total bulk (qs.map num) = 0 := by
  induction qs with
  | nil => rfl
  | cons q qs ih => rw [map_cons, total, ih, bulk_num]

/-- What is left to multiply after the powers are taken is within the operands, and below
them in bulk if a power came out as a product. -/
theorem join_within
    (h : Pointwise (fun g p => FitsPower g.1 (sum g.2) p) (baseGroups operands) powers) :
    Within ((num (join operands powers).coefficient).weight *
        totalProduct weight (join operands powers).factors)
      (total bulk (join operands powers).factors +
        if (join operands powers).reopened then 1 else 0)
      (totalProduct weight operands) (total bulk (factorLists operands)) := by
  let v (q : Number) := (num q).weight
  let visited := (factorLists operands).reverse
  let numbers := visited.filterMap number?
  let others := visited.filter (!·.isNumber)
  let given := Number.gather Number.mul? 1 numbers
  let whole := Number.gather Number.mul? given.1 (powers.filterMap number?)
  let rest := powers.filter (!·.isNumber)
  let opened := (rest.map outerFactors).flatten
  have hvisited : totalProduct v numbers * totalProduct weight others ≤
      totalProduct weight operands := by
    rw [totalProduct_numbers_others weight visited, totalProduct_perm _ (reverse_perm _)]
    exact totalProduct_factorLists_le operands
  have hgiven : v given.1 * totalProduct v given.2 ≤ totalProduct v numbers := by
    have := Number.totalProduct_gather_mul? (v := v) weight_num_mul_le 1 numbers
    rwa [show v 1 = 1 from weight_one, Nat.one_mul] at this
  have hwhole : v whole.1 * totalProduct v whole.2 ≤
      v given.1 * totalProduct v (powers.filterMap number?) :=
    Number.totalProduct_gather_mul? (v := v) weight_num_mul_le ..
  have hpowers : totalProduct v (powers.filterMap number?) * totalProduct weight rest =
      totalProduct weight powers :=
    totalProduct_numbers_others weight powers
  have hopened : totalProduct weight opened ≤ totalProduct weight rest :=
    totalProduct_outerFactors_le rest
  have hcalls := Pointwise.within weight_pos h
  have hgroups := totalProduct_baseGroups_le operands
  have hjoined : v whole.1 * totalProduct weight (join operands powers).factors ≤
      totalProduct v numbers * totalProduct weight powers := by
    change v whole.1 * totalProduct weight (opened ++ (given.2 ++ whole.2).map num) ≤ _
    rw [totalProduct_append, totalProduct_nums, totalProduct_append, ← hpowers]
    calc v whole.1 *
          (totalProduct weight opened * (totalProduct v given.2 * totalProduct v whole.2))
        = v whole.1 * totalProduct v whole.2 *
            (totalProduct v given.2 * totalProduct weight opened) := by
          simp only [Nat.mul_assoc, Nat.mul_left_comm, Nat.mul_comm]
      _ ≤ v given.1 * totalProduct v (powers.filterMap number?) *
            (totalProduct v given.2 * totalProduct weight rest) :=
          Nat.mul_le_mul hwhole (Nat.mul_le_mul_left _ hopened)
      _ = v given.1 * totalProduct v given.2 *
            (totalProduct v (powers.filterMap number?) * totalProduct weight rest) := by
          simp only [Nat.mul_assoc, Nat.mul_left_comm]
      _ ≤ _ := Nat.mul_le_mul_right _ hgiven
  have hmid := Nat.mul_le_mul_left (totalProduct v numbers) hcalls.weight_le
  have hlast := Nat.mul_le_mul_left (totalProduct v numbers) hgroups
  refine ⟨Nat.le_trans hjoined (Nat.le_trans hmid (Nat.le_trans hlast hvisited)), fun e => ?_⟩
  have hpos : 1 ≤ totalProduct v numbers := totalProduct_pos fun q _ => (num q).weight_pos
  have heq : totalProduct weight powers =
      totalProduct (fun g => powerWeight g.1 (sum g.2)) (baseGroups operands) := by
    refine Nat.eq_of_mul_eq_mul_left hpos (Nat.le_antisymm hmid ?_)
    exact Nat.le_trans hlast (Nat.le_trans hvisited (Nat.le_trans (Nat.le_of_eq e.symm) hjoined))
  have h₁ := hcalls.bulk_le heq
  have h₂ := total_baseGroups_le operands
  have h₃ : total bulk others ≤ total bulk (factorLists operands) := by
    have := total_numbers_others bulk visited
    have := total_perm bulk (reverse_perm (factorLists operands))
    simp only [visited, others] at *
    omega
  have h₄ : total bulk rest ≤ total bulk powers := by
    have := total_numbers_others bulk powers
    simp only [rest]
    omega
  have h₅ := total_outerFactors_le rest
  change total bulk (opened ++ (given.2 ++ whole.2).map num) +
    (if rest.any isProduct then 1 else 0) ≤ _
  rw [total_append, total_bulk_nums]
  simp only [opened, others, visited] at *
  omega

theorem smaller_power_of_product {g : Expr × List Expr} (h : g ∈ baseGroups operands) :
    Smaller (powerWeight g.1 (sum g.2)) (powerBulk g.1 (sum g.2))
      (totalProduct weight operands) (productBulk operands) := by
  have h₁ := total_numbers_others bulk (factorLists operands).reverse
  have h₂ := total_perm bulk (reverse_perm (factorLists operands))
  have h₃ := total_baseGroups_le operands
  have h₄ := le_total (fun g => powerBulk g.1 (sum g.2)) h
  refine ⟨?_, fun _ => by simp only [productBulk]; omega⟩
  refine Nat.le_trans (le_totalProduct (f := fun g => powerWeight g.1 (sum g.2))
    (fun g _ => powerWeight_pos ..) h) (Nat.le_trans (totalProduct_baseGroups_le operands) ?_)
  refine Nat.le_trans ?_ (totalProduct_factorLists_le operands)
  rw [← totalProduct_perm weight (reverse_perm (factorLists operands)),
    ← totalProduct_numbers_others weight (factorLists operands).reverse]
  exact Nat.le_mul_of_pos_left _ (totalProduct_pos fun q _ => (num q).weight_pos)

theorem weight_zero : zero.weight = 2 := by
  simp [zero, weight]

theorem zero_fitsProduct (h : 2 ≤ totalProduct weight operands) :
    FitsProduct operands zero where
  weight_le := by rw [weight_zero]; exact h
  bulk_le _ := by rw [zero, bulkAbove_num, productBulk]; omega

theorem two_le_of_any_isZero (h : (factorLists operands).any isZero) :
    2 ≤ totalProduct weight operands := by
  obtain ⟨e, he, hz⟩ := any_eq_true.mp h
  have : e ≠ one := by
    rintro rfl
    simp [isZero, one] at hz
  exact Nat.le_trans (two_le_weight this) (Nat.le_trans
    (le_totalProduct (fun e _ => e.weight_pos) he) (totalProduct_factorLists_le operands))

namespace Joined

/-- The product is within the operands it was joined from. -/
def FitsIn (j : Joined) (operands : List Expr) : Prop :=
  Within ((num j.coefficient).weight * totalProduct weight j.factors)
    (total bulk j.factors + if j.reopened then 1 else 0)
    (totalProduct weight operands) (total bulk (factorLists operands))

variable {j : Joined}

theorem FitsIn.zero_within (h : j.FitsIn operands) (hq : j.coefficient = 0) :
    FitsProduct operands zero := by
  refine zero_fitsProduct (Nat.le_trans ?_ h.weight_le)
  rw [hq, ← weight_zero]
  exact Nat.le_mul_of_pos_right _ (totalProduct_pos fun f _ => f.weight_pos)

theorem reopened_weight (j : Joined) :
    totalProduct weight (j.factors ++ [num j.coefficient]) =
      (num j.coefficient).weight * totalProduct weight j.factors := by
  rw [totalProduct_append, totalProduct, totalProduct, Nat.mul_one, Nat.mul_comm]

theorem reopened_bulk (j : Joined) :
    productBulk (j.factors ++ [num j.coefficient]) ≤ 1 + total bulk j.factors := by
  have := total_bulk_factorLists_le (j.factors ++ [num j.coefficient])
  simp only [total_append, total, bulk_num] at this
  rw [productBulk]
  omega

theorem FitsIn.smaller_reopened (h : j.FitsIn operands) (hr : j.reopened = true) :
    Smaller (totalProduct weight (j.factors ++ [num j.coefficient]))
      (productBulk (j.factors ++ [num j.coefficient]))
      (totalProduct weight operands) (productBulk operands) := by
  have h₁ := j.reopened_bulk
  have h₂ := h.bulk_le
  rw [reopened_weight]
  refine ⟨h.weight_le, fun e => ?_⟩
  have := h₂ e
  simp only [hr, if_true] at this
  change _ < 1 + total bulk (factorLists operands)
  omega

theorem FitsIn.reopened_within (h : j.FitsIn operands) {r : Expr}
    (hr : FitsProduct (j.factors ++ [num j.coefficient]) r) : FitsProduct operands r := by
  refine Within.mono hr (by rw [reopened_weight]; exact h.weight_le) fun e => ?_
  have := h.bulk_le (by rw [← e, reopened_weight])
  have := j.reopened_bulk
  change _ ≤ 1 + total bulk (factorLists operands)
  omega

theorem soleSum?_eq_some (h : j.soleSum? = some ts) : j.factors = [add ts] ∧ j.coefficient ≠ 1 := by
  simp only [soleSum?] at h
  split at h
  · next us hf =>
    split at h
    · contradiction
    · next hq =>
      cases Option.some.inj h
      exact ⟨hf, by simpa using hq⟩
  · contradiction

theorem weight_coefficient_term (h : j.coefficient ≠ 1) (t : Expr) :
    totalProduct weight [num j.coefficient, t] = 2 * t.weight := by
  have h₁ : 2 ≤ (num j.coefficient).weight := two_le_weight fun e => h (num.inj e)
  have h₂ := weight_num_le j.coefficient
  have : (num j.coefficient).weight = 2 := by omega
  simp [totalProduct, this]

theorem bulk_coefficient_term (q : Number) (t : Expr) : productBulk [num q, t] ≤ t.bulkInSum := by
  have := total_bulk_factors_lt t
  simp only [productBulk, factorLists, Expr.factors, total_append, total, bulk_num]
  omega

section

variable (h : j.FitsIn operands) (hs : j.soleSum? = some ts)
include h hs

theorem FitsIn.weight_soleSum : 2 * max 2 (total weight ts) ≤ totalProduct weight operands := by
  obtain ⟨hf, hq⟩ := soleSum?_eq_some hs
  have h₁ : 2 ≤ (num j.coefficient).weight := two_le_weight fun e => hq (num.inj e)
  refine Nat.le_trans ?_ h.weight_le
  rw [hf, totalProduct, totalProduct, Nat.mul_one, weight_add]
  exact Nat.mul_le_mul_right _ h₁

theorem FitsIn.bulk_soleSum (hw : 2 * max 2 (total weight ts) = totalProduct weight operands) :
    max 1 (total bulkInSum ts) < productBulk operands := by
  obtain ⟨hf, hq⟩ := soleSum?_eq_some hs
  have h₁ : 2 ≤ (num j.coefficient).weight := two_le_weight fun e => hq (num.inj e)
  have h₂ := weight_num_le j.coefficient
  have h₃ : (num j.coefficient).weight = 2 := by omega
  have := h.bulk_le (by rw [hf, totalProduct, totalProduct, Nat.mul_one, weight_add, h₃, hw])
  rw [hf, total, total, bulk_add] at this
  rw [productBulk]
  omega

theorem FitsIn.smaller_soleSum {t : Expr} (ht : t ∈ ts) :
    Smaller (totalProduct weight [num j.coefficient, t]) (productBulk [num j.coefficient, t])
      (totalProduct weight operands) (productBulk operands) := by
  have hq := (soleSum?_eq_some hs).2
  have h₁ := h.weight_soleSum hs
  have h₂ := le_total weight ht
  have h₃ := le_total bulkInSum ht
  have h₄ := bulk_coefficient_term j.coefficient t
  rw [weight_coefficient_term hq]
  refine ⟨by omega, fun e => ?_⟩
  have := h.bulk_soleSum hs (by omega)
  omega

theorem FitsIn.soleSum_within
    (hr : Pointwise (fun t r => FitsProduct [num j.coefficient, t] r) ts rs) :
    FitsProduct operands (sum rs) := by
  have hq := (soleSum?_eq_some hs).2
  have hts : ∀ us : List Expr,
      total (fun t => totalProduct weight [num j.coefficient, t]) us = 2 * total weight us := by
    intro us
    induction us with
    | nil => rfl
    | cons u us ih => rw [total, ih, weight_coefficient_term hq, total, Nat.mul_add]
  have h₁ := Pointwise.total_within hr
  have h₂ := weight_sum_le_max rs
  have h₃ := h.weight_soleSum hs
  have h₄ := h₁.weight_le
  rw [hts] at h₄
  refine ⟨by omega, fun e => ?_⟩
  have h₅ := h.bulk_soleSum hs (by omega)
  have h₆ := h₁.bulk_le (by rw [hts]; omega)
  have h₇ : total (fun t => productBulk [num j.coefficient, t]) ts ≤ total bulkInSum ts :=
    total_le fun t _ => bulk_coefficient_term j.coefficient t
  cases rs with
  | nil =>
    have : (sum []).bulkAbove = 1 := by
      rw [show sum [] = zero by decide +kernel, zero, bulkAbove_num]
    omega
  | cons r rs =>
    have := bulkAbove_sum_le (cons_ne_nil r rs)
    omega

end

end Joined

theorem join_ne_one (h : (join operands powers).reopened = false) :
    ∀ f ∈ (join operands powers).factors, f ≠ one := by
  intro f hf
  have hrange : Number.inRange 1 = true := by decide
  have hgiven := Number.inRange_gather_mul? hrange
    ((factorLists operands).reverse.filterMap number?)
  have hwhole := Number.inRange_gather_mul? hgiven.1 (powers.filterMap number?)
  simp only [join, any_eq_false] at h
  simp only [join, mem_append, mem_flatten, mem_map] at hf
  rcases hf with ⟨l, ⟨e, he, rfl⟩, hf⟩ | ⟨q, hq, rfl⟩
  · have hp := h e he
    have hn := (mem_filter.mp he).2
    fun_cases outerFactors e
    · simp [isProduct] at hp
    · next ho =>
      rw [outerFactors.eq_2 e ho] at hf
      rw [mem_singleton.mp hf]
      rintro rfl
      simp [one] at hn
  · rcases hq with hq | hq
    · exact fun e => hgiven.2 q hq (num.inj e)
    · exact fun e => hwhole.2 q hq (num.inj e)

theorem Joined.FitsIn.mulNode_within {j : Joined} (h : j.FitsIn operands)
    (hne : ∀ f ∈ j.factors, f ≠ one) : FitsProduct operands (mulNode j.coefficient j.factors) := by
  obtain ⟨hw, hz⟩ := h
  have hbulk : productBulk operands = 1 + total bulk (factorLists operands) := rfl
  have htwo (f : Expr) (fs : List Expr) (hf : f ≠ one) : 2 ≤ totalProduct weight (f :: fs) :=
    Nat.le_trans (two_le_weight hf)
      (Nat.le_mul_of_pos_right _ (totalProduct_pos fun f _ => f.weight_pos))
  generalize hfs : j.factors = fs at *
  fun_cases mulNode j.coefficient fs
  · simp only [totalProduct, Nat.mul_one] at hw
    exact ⟨hw, fun _ => by rw [bulkAbove_num]; omega⟩
  · next f hq =>
    have hq : j.coefficient = 1 := by simpa using hq
    have hone : (num j.coefficient).weight = 1 := by rw [hq]; exact weight_one
    simp only [hone, totalProduct, Nat.mul_one, Nat.one_mul, total] at hw hz
    refine ⟨hw, fun e => ?_⟩
    have := hz e
    have := bulkAbove_le_bulkInSum f
    have := bulkInSum_le f
    omega
  · next f hq =>
    have hq : num j.coefficient ≠ one := fun e => hq (by simpa using num.inj e)
    have hweight : (mul [num j.coefficient, f]).weight =
        (num j.coefficient).weight * totalProduct weight [f] := by
      rw [weight_mul, Nat.max_eq_right (htwo _ _ hq), totalProduct]
    refine ⟨by omega, fun e => ?_⟩
    have := hz (by omega)
    simp only [bulkAbove, isProduct, Bool.true_or, if_true, bulk_mul, total, bulk_num] at *
    omega
  · next hnil _ sorted =>
    have hsort : sorted.Perm fs := mergeSort_perm ..
    have hfactor : 2 ≤ totalProduct weight fs := by
      cases fs with
      | nil => exact (hnil rfl).elim
      | cons f fs => exact htwo f fs (hne f (by simp))
    have hshape : totalProduct weight
        (if j.coefficient == 1 then sorted else num j.coefficient :: sorted) =
          (num j.coefficient).weight * totalProduct weight fs := by
      split
      · next hq =>
        have hone : (num j.coefficient).weight = 1 := by
          rw [show j.coefficient = 1 by simpa using hq]; exact weight_one
        rw [totalProduct_perm _ hsort, hone, Nat.one_mul]
      · rw [totalProduct, totalProduct_perm _ hsort]
    have hspread : total bulk (if j.coefficient == 1 then sorted
          else num j.coefficient :: sorted) = total bulk fs := by
      split
      · rw [total_perm _ hsort]
      · rw [total, total_perm _ hsort, bulk_num, Nat.zero_add]
    have hlarge := Nat.le_trans hfactor
      (Nat.le_mul_of_pos_left (totalProduct weight fs) (num j.coefficient).weight_pos)
    refine ⟨?_, fun e => ?_⟩
    · rw [weight_mul, hshape]; omega
    · rw [weight_mul, hshape] at e
      have := hz (by omega)
      simp only [bulkAbove, isProduct, Bool.true_or, if_true, bulk_mul, hspread]
      omega

end Expr

end TensorCalculus
