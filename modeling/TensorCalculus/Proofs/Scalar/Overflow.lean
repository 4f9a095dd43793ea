import Mathlib
import TensorCalculus.Proofs.Scalar.Soundness
import TensorCalculus.Proofs.Scalar.Unambiguous

/-! Arithmetic that is not checked: the inversion of negative powers, and the sign changes of the
printer. Both leave the range only at the least numerator, which has no negative. -/
namespace TensorCalculus

namespace Number

theorem fits_iff {n : Int} : fits n ↔ -2 ^ 63 ≤ n ∧ n < 2 ^ 63 := by
  simp only [fits, Bool.and_eq_true, decide_eq_true_eq]
  omega

/-- The only numbers in range whose reciprocal is not are those with the least numerator. -/
theorem inRange_inv_iff {p : Number} (hp : inRange p) (h₀ : p ≠ 0) :
    inRange p⁻¹ ↔ p.num ≠ -2 ^ 63 := by
  have hnum : p.num ≠ 0 := Rat.num_ne_zero.mpr h₀
  have hden : 0 < p.den := p.den_pos
  simp only [inRange, Bool.and_eq_true, fits_iff] at *
  rw [Rat.num_inv, Rat.den_inv, if_neg hnum]
  rcases Int.lt_or_gt_of_ne hnum with hneg | hpos
  · rw [Int.sign_eq_neg_one_of_neg hneg]
    omega
  · rw [Int.sign_eq_one_of_pos hpos]
    omega

/-- The least numerator is a power of another one in six ways. -/
theorem pow_eq_least_iff {a : Int} {k : Nat} (hk : 0 < k) :
    a ^ k = -2 ^ 63 ↔ k ∈ [1, 3, 7, 9, 21, 63] ∧ a = -2 ^ (63 / k) := by
  constructor
  · intro h
    have habs : a.natAbs ^ k = 2 ^ 63 := by rw [← Int.natAbs_pow, h]; rfl
    obtain ⟨j, _, hj⟩ := (Nat.dvd_prime_pow Nat.prime_two).mp
      (habs ▸ dvd_pow_self a.natAbs hk.ne')
    have hjk : j * k = 63 := by
      rw [hj, ← pow_mul] at habs
      exact Nat.pow_right_injective le_rfl habs
    have hneg : a < 0 := by
      by_contra hnot
      have := pow_nonneg (not_lt.mp hnot) k
      omega
    have hdiv : k ∈ Nat.divisors 63 := Nat.mem_divisors.mpr ⟨Dvd.intro_left j hjk, by decide⟩
    have hdivisors : Nat.divisors 63 = {1, 3, 7, 9, 21, 63} := by decide +kernel
    refine ⟨by simpa [hdivisors] using hdiv, ?_⟩
    rw [← hjk, Nat.mul_div_cancel _ hk]
    have : (a.natAbs : Int) = 2 ^ j := by rw [hj]; norm_cast
    omega
  · rintro ⟨hk, rfl⟩
    fin_cases hk <;> norm_num

theorem isSome_pow?_iff {b e : Number} : (pow? b e).isSome ↔
    e.den = 1 ∧ e.num.natAbs ≤ 64 ∧ ¬ (b = 0 ∧ e.num < 0) ∧ inRange (b ^ e.num.natAbs) := by
  simp only [pow?, isInteger]
  grind

theorem pow?_neg {b : Number} {k : Nat} (hk : 0 < k) : pow? b (-(k : Nat)) =
    if k ≤ 64 ∧ b ≠ 0 ∧ inRange (b ^ k) then some (b ^ k)⁻¹ else none := by
  have hnum : (-(k : Nat) : Number).num = -(k : Int) := by simp
  have hneg : -(k : Int) < 0 := by omega
  simp only [pow?, isInteger, hnum, Int.natAbs_neg, Int.natAbs_natCast, hneg]
  grind [Rat.neg_den, Rat.den_natCast]

theorem powOverflows_neg_iff {b : Number} {k : Nat} (hk : 0 < k) :
    powOverflows b (-(k : Nat)) ↔ k ≤ 64 ∧ inRange (b ^ k) ∧ (b ^ k).num = -2 ^ 63 := by
  rw [powOverflows, pow?_neg hk]
  split
  · next h =>
    have hinv := inRange_inv_iff h.2.2 (pow_ne_zero k h.2.1)
    simp only [Option.any_some, Bool.not_eq_true', ← Bool.not_eq_true, hinv, h.1, h.2.2, true_and]
    exact not_not
  · next h =>
    refine iff_of_false (by simp) ?_
    rintro ⟨hle, hrange, hleast⟩
    refine h ⟨hle, ?_, hrange⟩
    rintro rfl
    rw [zero_pow hk.ne'] at hleast
    exact absurd hleast (by decide)

/-- Only the inversion of a negative power can leave the range. -/
theorem exists_neg_of_powOverflows {b e : Number} (h : powOverflows b e) :
    ∃ k : Nat, 0 < k ∧ e = -(k : Nat) := by
  cases hp : pow? b e with
  | none => simp [powOverflows, hp] at h
  | some q =>
    obtain ⟨hden, _, _, hrange⟩ := isSome_pow?_iff.mp (Option.isSome_of_eq_some hp)
    by_cases hneg : e.num < 0
    · refine ⟨e.num.natAbs, by omega, ?_⟩
      have hnum : -(e.num.natAbs : Int) = e.num := by omega
      rw [← (Rat.den_eq_one_iff e).mp hden, ← hnum]
      simp
    · have hq : q = b ^ e.num.natAbs := by
        rw [Expr.pow?_eq_some hp, ← zpow_natCast, Int.natAbs_of_nonneg (not_lt.mp hneg)]
      simp [powOverflows, hp, hq, hrange] at h

theorem powOverflows_iff {b e : Number} : powOverflows b e ↔
    ∃ k ∈ [1, 3, 7, 9, 21, 63], e = -(k : Nat) ∧ b.num = -2 ^ (63 / k) ∧ b.den ^ k < 2 ^ 63 := by
  constructor
  · intro h
    obtain ⟨k, hk, rfl⟩ := exists_neg_of_powOverflows h
    obtain ⟨_, hrange, hleast⟩ := (powOverflows_neg_iff hk).mp h
    rw [Rat.num_pow, pow_eq_least_iff hk] at hleast
    simp only [inRange, Bool.and_eq_true, fits_iff, Rat.den_pow] at hrange
    exact ⟨k, hleast.1, rfl, hleast.2, by exact_mod_cast hrange.2.2⟩
  · rintro ⟨k, hk, rfl, hnum, hden⟩
    have hbound : 0 < k ∧ k ≤ 64 := by
      simp only [List.mem_cons, List.not_mem_nil, or_false] at hk
      omega
    have hleast : (b ^ k).num = -2 ^ 63 := by
      rw [Rat.num_pow]
      exact (pow_eq_least_iff hbound.1).mpr ⟨hk, hnum⟩
    refine (powOverflows_neg_iff hbound.1).mpr ⟨hbound.2, ?_, hleast⟩
    simp only [inRange, Bool.and_eq_true, fits_iff, hleast, Rat.den_pow]
    refine ⟨by decide, ?_, by exact_mod_cast hden⟩
    have : (0 : Int) ≤ ((b.den ^ k : Nat) : Int) := Int.natCast_nonneg _
    omega

/-- A power of numbers is the exact number, in range, or stays a power. -/
theorem power_num {b e : Number} (hb : inRange b) (h : ¬ powOverflows b e) :
    Expr.power (.num b) (.num e) = .pow (.num b) (.num e) ∨
      ∃ q, inRange q ∧ q ^ e.den = b ^ e.num ∧ Expr.power (.num b) (.num e) = .num q := by
  rw [Expr.power_eq]
  split
  · next h₀ =>
    have he : e = 0 := by simpa [Expr.isZero] using h₀
    exact .inr ⟨1, by decide, by simp [he], rfl⟩
  split
  · next h₁ =>
    have he : e = 1 := by simpa [Expr.isOne] using h₁
    exact .inr ⟨b, hb, by simp [he], rfl⟩
  dsimp only [Expr.numberPower]
  split
  · next h₁ =>
    have hb : b = 1 := by simpa using h₁
    exact .inr ⟨1, by decide, by simp [hb], rfl⟩
  split
  · next q hq =>
    have hden : e.den = 1 := (isSome_pow?_iff.mp (Option.isSome_of_eq_some hq)).1
    refine .inr ⟨q, by simpa [powOverflows, hq] using h, ?_, rfl⟩
    rw [hden, pow_one, Expr.pow?_eq_some hq]
  · split
    · next h₀ =>
      simp only [Bool.and_eq_true, beq_iff_eq, decide_eq_true_eq] at h₀
      refine .inr ⟨0, by decide, ?_, rfl⟩
      rw [h₀.1, zero_pow e.den_nz, zero_zpow e.num (Rat.num_pos.mpr h₀.2).ne']
    · exact .inl rfl

end Number

namespace Expr

open List

section Negation

variable {negate : Number → Number} {e : Expr} {es : List Expr} {P : Number → Prop}

theorem productText_congr {q : Number} {parts : List FractionPart} (h : q < 0 → negate q = -q) :
    productText negate q parts = productText Neg.neg q parts := by
  by_cases hq : q < 0
  · simp only [productText, if_pos hq, h hq]
  · simp only [productText, if_neg hq]

theorem forall_mem_negationLists :
    (∀ q ∈ negationLists es, P q) ↔ ∀ e ∈ es, ∀ q ∈ e.negations, P q := by
  induction es with
  | nil => simp [negationLists]
  | cons e es ih => rw [negationLists, forall_mem_append, forall_mem_cons, ih]

theorem negate_num {q : Number} (h : ∀ r ∈ (num q).negative?, negate r = -r) (hq : q < 0) :
    negate q = -q :=
  h q (if_pos hq)

/-- A number alone is written with its sign, so that only its text as a term has a change of it. -/
theorem layout_text_factor
    (h : (∀ q ∈ e.negative?, negate q = -q) → e.layout negate = e.layout Neg.neg) :
    (e.layout negate).text = (e.layout Neg.neg).text ∧
      (e.layout negate).factor = (e.layout Neg.neg).factor := by
  cases e with
  | num q => simp only [layout, and_self]
  | _ =>
    rw [h fun q hq => by simp [negative?] at hq]
    exact ⟨rfl, rfl⟩

theorem layout_congr (e : Expr) (hown : ∀ q ∈ e.negative?, negate q = -q)
    (h : ∀ q ∈ e.negations, negate q = -q) : e.layout negate = e.layout Neg.neg := by
  induction e using Expr.induction with
  | num q =>
    simp only [layout]
    split
    · next hq => rw [negate_num hown hq]
    · rfl
  | sym s => simp only [layout]
  | fn f a ih => rw [layout, layout, (layout_text_factor (ih · h)).1]
  | pow b e hb he =>
    rw [negations, forall_mem_append, forall_mem_append] at h
    rw [layout.eq_def, layout.eq_def Neg.neg]
    dsimp only
    rw [(layout_text_factor (hb · h.2.1)).1, (layout_text_factor (he · h.2.2)).1]
    cases e with
    | num q =>
      dsimp only
      split
      · next hq =>
        rw [divisor, divisor, negate_num (fun r hr => h.1 r (Option.mem_toList.mpr hr)) hq]
        rfl
      · rfl
    | _ => rfl
  | mul fs ih =>
    rw [negations, forall_mem_append, forall_mem_negationLists] at h
    have hparts : (layouts negate fs).map (·.factor) = (layouts Neg.neg fs).map (·.factor) := by
      rw [layouts_eq_map, layouts_eq_map, map_map, map_map]
      exact map_congr_left fun f hf => (layout_text_factor (ih f hf · (h.2 f hf))).2
    rw [layout.eq_def, layout.eq_def Neg.neg]
    dsimp only
    rw [hparts]
    split
    · next q _ =>
      have hq := negate_num fun r hr => h.1 r (Option.mem_toList.mpr hr)
      rw [productText_congr hq]
      split
      · next hlt =>
        have hpos : ¬ -q < 0 := by linarith
        rw [hq hlt, @productText_congr negate (-q) _ fun hneg => absurd hneg hpos]
      · rfl
    · rw [productText_congr fun h => absurd h (by decide)]
  | add ts ih =>
    rw [negations, forall_mem_append, forall_mem_negationLists] at h
    rw [layout, layout, layouts_eq_map, layouts_eq_map, map_map, map_map]
    congr 2
    refine map_congr_left fun t ht => congrArg Layout.term (ih t ht (fun q hq => ?_) (h.2 t ht))
    exact h.1 q (mem_filterMap.mpr ⟨t, ht, hq⟩)

end Negation

/-- A power of numbers in range is exact and in range or is left as a power, and the text of an
expression is the one with machine arithmetic, except at the least numerator. A power meets it at
six exponents, the text wherever it is a number that changes sign. -/
theorem overflow_iff_least_numerator (b q : Number) (hb : Number.inRange b) (e : Expr)
    (he : ∀ n ∈ e.negations, Number.inRange n) :
    (Number.powOverflows b q ↔ ∃ k ∈ [1, 3, 7, 9, 21, 63],
      q = -(k : Nat) ∧ b.num = -2 ^ (63 / k) ∧ b.den ^ k < 2 ^ 63) ∧
    (Number.powOverflows b q ∨ power (num b) (num q) = pow (num b) (num q) ∨
      ∃ r, Number.inRange r ∧ r ^ q.den = b ^ q.num ∧ power (num b) (num q) = num r) ∧
    (e.textOverflows ↔ ∃ n ∈ e.negations, n.num = -2 ^ 63) ∧
    (e.textOverflows ∨ ∀ negate : Number → Number,
      (∀ n, Number.fits (-n.num) → negate n = -n) → (e.layout negate).text = e.text) := by
  refine ⟨Number.powOverflows_iff, ?_, ?_, ?_⟩
  · by_cases h : Number.powOverflows b q
    · exact .inl h
    · exact .inr (Number.power_num hb h)
  · simp only [textOverflows, List.any_eq_true, Bool.not_eq_true', ← Bool.not_eq_true]
    refine exists_congr fun n => and_congr_right fun hn => ?_
    have hrange := he n hn
    simp only [Number.inRange, Bool.and_eq_true, Number.fits_iff] at hrange
    rw [Number.fits_iff]
    omega
  · by_cases h : e.textOverflows
    · exact .inl h
    · refine .inr fun negate hnegate => ?_
      refine (layout_text_factor (layout_congr e · fun n hn => hnegate n ?_)).1
      by_contra hfits
      exact h (List.any_eq_true.mpr ⟨n, hn, by simpa using hfits⟩)

theorem overflow_iff_least_numerator_beside_it :
    let e := add [sym "x", num (-9223372036854775807)]
    Number.inRange (-2) ∧ (∀ n ∈ e.negations, Number.inRange n) ∧
      (power (num (-2)) (num (-62)) = pow (num (-2)) (num (-62)) ∨
        ∃ r, Number.inRange r ∧ r ^ 1 = (-2 : Number) ^ (-62 : Int) ∧
          power (num (-2)) (num (-62)) = num r) ∧
      ∀ negate : Number → Number, (∀ n, Number.fits (-n.num) → negate n = -n) →
        (e.layout negate).text = e.text := by
  intro e
  have hrange : Number.inRange (-2) := by decide
  have hnegations : ∀ n ∈ e.negations, Number.inRange n := by decide +kernel
  obtain ⟨hiff, hpower, -, htext⟩ := overflow_iff_least_numerator (-2) (-62) hrange e hnegations
  refine ⟨hrange, hnegations, hpower.resolve_left ?_, htext.resolve_left (by decide +kernel)⟩
  rw [hiff]
  norm_num

theorem number_power_and_text_overflow :
    Number.inRange (-2) ∧ Number.inRange (-63) ∧ Number.powOverflows (-2) (-63) ∧
      (sum [sym "x", num (-9223372036854775808)]).textOverflows :=
  ⟨by decide, by decide,
    Number.powOverflows_iff.mpr ⟨63, by simp, by norm_num, by decide, by decide⟩,
    by cbv⟩

end Expr

end TensorCalculus
