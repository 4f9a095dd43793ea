import TensorCalculus.Scalar.Descent

/-! Simplification of products and powers in a limited number of nested steps. More steps do
not change a result, and some number of steps is always enough. -/
namespace TensorCalculus

variable {n m : Nat}

namespace Expr

variable {operands : List Expr} {r : Expr}

open Option

/-- One step of a product. Powers of one base are joined by adding exponents, products among
them are joined again, and a coefficient in front of a single sum is distributed over it. -/
def productStep (power : Expr → Expr → Option Expr) (product : List Expr → Option Expr)
    (operands : List Expr) : Option Expr :=
  if (factorLists operands).any isZero then some zero
  else do
    let joined := join operands (← (baseGroups operands).mapM fun g => power g.1 (sum g.2))
    if joined.coefficient == 0 then some zero
    else if joined.reopened then product (joined.factors ++ [num joined.coefficient])
    else
      match joined.soleSum? with
      | some ts => return sum (← ts.mapM fun t => product [num joined.coefficient, t])
      | none => some (mulNode joined.coefficient joined.factors)

/-- One step of a power. Integer powers are moved inside products and powers, and any power
inside an exponential. -/
def powerStep (power : Expr → Expr → Option Expr) (product : List Expr → Option Expr)
    (base exponent : Expr) : Option Expr :=
  if exponent.isZero then some one
  else if exponent.isOne then some base
  else
    match base with
    | num b => some (numberPower b exponent)
    | fn .exp a => do return apply .exp (← product [a, exponent])
    | pow b e =>
      if exponent.isInteger then do power b (← product [e, exponent])
      else some (pow (pow b e) exponent)
    | mul fs =>
      if exponent.isInteger then do product (← fs.mapM fun f => power f exponent)
      else some (pow (mul fs) exponent)
    | b => some (pow b exponent)

mutual

def productIn : Nat → List Expr → Option Expr
  | 0, _ => none
  | n + 1, operands => productStep (powerIn n) (productIn n) operands

def powerIn : Nat → Expr → Expr → Option Expr
  | 0, _, _ => none
  | n + 1, base, exponent => powerStep (powerIn n) (productIn n) base exponent

end

theorem mapM_mono {f g : α → Option β} (h : ∀ x y, f x = some y → g x = some y) {xs : List α}
    {ys : List β} (hf : xs.mapM f = some ys) : xs.mapM g = some ys :=
  pointwise_iff_mapM.mp (.imp (fun x _ y => h x y) (pointwise_iff_mapM.mpr hf))

section Mono

variable {power power' : Expr → Expr → Option Expr} {product product' : List Expr → Option Expr}
  (hpower : ∀ b e r, power b e = some r → power' b e = some r)
  (hproduct : ∀ fs r, product fs = some r → product' fs = some r)
include hpower hproduct

theorem productStep_mono (h : productStep power product operands = some r) :
    productStep power' product' operands = some r := by
  simp only [productStep, bind] at *
  split at h
  · next hz => rwa [if_pos hz]
  · next hz =>
    rw [if_neg hz]
    obtain ⟨powers, hm, h⟩ := bind_eq_some_iff.mp h
    refine bind_eq_some_iff.mpr ⟨powers, mapM_mono (fun g => hpower _ _) hm, ?_⟩
    split at h
    · next hq => rwa [if_pos hq]
    · next hq =>
      rw [if_neg hq]
      split at h
      · next hr => rw [if_pos hr]; exact hproduct _ _ h
      · next hr =>
        rw [if_neg hr]
        split at h
        · next ts hs =>
          obtain ⟨rs, hm, h⟩ := bind_eq_some_iff.mp h
          exact bind_eq_some_iff.mpr ⟨rs, mapM_mono (fun t => hproduct _) hm, h⟩
        · exact h

theorem powerStep_mono {b e : Expr} (h : powerStep power product b e = some r) :
    powerStep power' product' b e = some r := by
  simp only [powerStep, bind] at *
  split at h
  · next h₀ => rwa [if_pos h₀]
  · next h₀ =>
    rw [if_neg h₀]
    split at h
    · next h₁ => rwa [if_pos h₁]
    · next h₁ =>
      rw [if_neg h₁]
      split at h
      · exact h
      · obtain ⟨a, ha, h⟩ := bind_eq_some_iff.mp h
        exact bind_eq_some_iff.mpr ⟨a, hproduct _ _ ha, h⟩
      · split at h
        · next hn =>
          rw [if_pos hn]
          obtain ⟨e', he, h⟩ := bind_eq_some_iff.mp h
          exact bind_eq_some_iff.mpr ⟨e', hproduct _ _ he, hpower _ _ _ h⟩
        · next hn => rwa [if_neg hn]
      · split at h
        · next hn =>
          rw [if_pos hn]
          obtain ⟨rs, hm, h⟩ := bind_eq_some_iff.mp h
          exact bind_eq_some_iff.mpr
            ⟨rs, mapM_mono (fun f => hpower _ _) hm, hproduct _ _ h⟩
        · next hn => rwa [if_neg hn]
      · exact h

end Mono

theorem productIn_powerIn_succ (n : Nat) :
    (∀ operands r, productIn n operands = some r → productIn (n + 1) operands = some r) ∧
      ∀ b e r, powerIn n b e = some r → powerIn (n + 1) b e = some r := by
  induction n with
  | zero => exact ⟨fun _ _ h => (nomatch h), fun _ _ _ h => (nomatch h)⟩
  | succ n ih =>
    exact ⟨fun _ _ => productStep_mono ih.2 ih.1, fun _ _ _ => powerStep_mono ih.2 ih.1⟩

theorem productIn_mono (h : n ≤ m) (hr : productIn n operands = some r) :
    productIn m operands = some r := by
  induction h with
  | refl => exact hr
  | step _ ih => exact (productIn_powerIn_succ _).1 _ _ ih

theorem powerIn_mono (h : n ≤ m) {b e : Expr} (hr : powerIn n b e = some r) :
    powerIn m b e = some r := by
  induction h with
  | refl => exact hr
  | step _ ih => exact (productIn_powerIn_succ _).2 _ _ _ ih

/-- If each call of a list ends, they all end in one number of steps. -/
theorem mapM_halts {f : Nat → α → Option β}
    (mono : ∀ n m, n ≤ m → ∀ x y, f n x = some y → f m x = some y)
    {P : α → β → Prop} (xs : List α) (h : ∀ x ∈ xs, ∃ n y, f n x = some y ∧ P x y) :
    ∃ n ys, xs.mapM (f n) = some ys ∧ Pointwise P xs ys := by
  induction xs with
  | nil => exact ⟨0, [], by simp, trivial⟩
  | cons x xs ih =>
    obtain ⟨n, y, hy, hP⟩ := h x (by simp)
    obtain ⟨m, ys, hys, hPs⟩ := ih fun z hz => h z (List.mem_cons_of_mem x hz)
    refine ⟨max n m, y :: ys, ?_, hP, hPs⟩
    rw [← pointwise_iff_mapM] at *
    exact ⟨mono _ _ (Nat.le_max_left ..) _ _ hy,
      hys.imp fun z _ w => mono _ _ (Nat.le_max_right ..) z w⟩

mutual

theorem product_halts (operands : List Expr) :
    ∃ n r, productIn n operands = some r ∧ FitsProduct operands r := by
  by_cases hz : (factorLists operands).any isZero
  · exact ⟨1, zero, by simp [productIn, productStep, hz],
      zero_fitsProduct (two_le_of_any_isZero hz)⟩
  obtain ⟨n, powers, hm, hpowers⟩ := mapM_halts (f := fun n g => powerIn n g.1 (sum g.2))
    (fun _ _ h _ _ => powerIn_mono h) (baseGroups operands) fun g hg => power_halts g.1 (sum g.2)
  have hj : (join operands powers).FitsIn operands := join_within hpowers
  have hstep (m : Nat) (h : n ≤ m) : (baseGroups operands).mapM
      (fun g => powerIn m g.1 (sum g.2)) = some powers :=
    mapM_mono (fun _ _ => powerIn_mono h) hm
  by_cases hq : (join operands powers).coefficient = 0
  · refine ⟨n + 1, zero, ?_, hj.zero_within hq⟩
    simp [productIn, productStep, hz, hm, hq]
  by_cases hr : (join operands powers).reopened
  · obtain ⟨m, r, h, hw⟩ := product_halts
      ((join operands powers).factors ++ [num (join operands powers).coefficient])
    refine ⟨max n m + 1, r, ?_, hj.reopened_within hw⟩
    simp [productIn, productStep, hz, hstep _ (Nat.le_max_left ..), hq, hr,
      productIn_mono (Nat.le_max_right n m) h]
  cases hs : (join operands powers).soleSum? with
  | some ts =>
    obtain ⟨m, rs, hrs, hw⟩ := mapM_halts
      (f := fun n t => productIn n [num (join operands powers).coefficient, t])
      (fun _ _ h _ _ => productIn_mono h) ts
      fun t ht => product_halts [num (join operands powers).coefficient, t]
    refine ⟨max n m + 1, sum rs, ?_, hj.soleSum_within hs hw⟩
    simp [productIn, productStep, hz, hstep _ (Nat.le_max_left ..), hq, hr, hs,
      mapM_mono (fun _ _ => productIn_mono (Nat.le_max_right n m)) hrs]
  | none =>
    refine ⟨n + 1, mulNode (join operands powers).coefficient (join operands powers).factors, ?_,
      hj.mulNode_within (join_ne_one (by simpa using hr))⟩
    simp [productIn, productStep, hz, hm, hq, hr, hs]
termination_by (totalProduct weight operands, productBulk operands, 0)
decreasing_by
  · exact (smaller_power_of_product hg).lex _ _
  · exact (hj.smaller_reopened hr).lex _ _
  · exact (hj.smaller_soleSum hs ht).lex _ _

theorem power_halts (base exponent : Expr) :
    ∃ n r, powerIn n base exponent = some r ∧ FitsPower base exponent r := by
  by_cases h₀ : exponent.isZero
  · exact ⟨1, one, by simp [powerIn, powerStep, h₀], one_fitsPower base exponent⟩
  by_cases h₁ : exponent.isOne
  · exact ⟨1, base, by simp [powerIn, powerStep, h₀, h₁], base_fitsPower base h₁⟩
  have h₁ : exponent.isOne = false := by simpa using h₁
  cases base with
  | num b =>
    exact ⟨1, numberPower b exponent, by simp [powerIn, powerStep, h₀, h₁],
      numberPower_fitsPower b h₁⟩
  | sym s =>
    exact ⟨1, pow (sym s) exponent, by simp [powerIn, powerStep, h₀, h₁], pow_fitsPower nofun h₁⟩
  | add ts =>
    exact ⟨1, pow (add ts) exponent, by simp [powerIn, powerStep, h₀, h₁], pow_fitsPower nofun h₁⟩
  | fn f a =>
    by_cases hf : f = .exp
    · subst hf
      obtain ⟨n, r, h, hw⟩ := product_halts [a, exponent]
      exact ⟨n + 1, apply .exp r, by simp [powerIn, powerStep, h₀, h₁, h], exp_fitsPower hw⟩
    · refine ⟨1, pow (fn f a) exponent, ?_, pow_fitsPower nofun h₁⟩
      simp only [powerIn, powerStep, h₀, h₁]
      cases f <;> first | rfl | contradiction
  | pow b e =>
    by_cases hn : exponent.isInteger
    · obtain ⟨n, e', h, hw⟩ := product_halts [e, exponent]
      obtain ⟨m, r, h', hw'⟩ := power_halts b e'
      refine ⟨max n m + 1, r, ?_, exponents_fitsPower ⟨hn, h₁⟩ hw hw'⟩
      simp [powerIn, powerStep, h₀, h₁, hn, productIn_mono (Nat.le_max_left n m) h,
        powerIn_mono (Nat.le_max_right n m) h']
    · exact ⟨1, pow (pow b e) exponent, by simp [powerIn, powerStep, h₀, h₁, hn],
        pow_fitsPower nofun h₁⟩
  | mul fs =>
    by_cases hn : exponent.isInteger
    · obtain ⟨n, rs, hm, hrs⟩ := mapM_halts (f := fun n f => powerIn n f exponent)
        (fun _ _ h _ _ => powerIn_mono h) fs fun f hf => power_halts f exponent
      obtain ⟨m, r, h, hw⟩ := product_halts rs
      refine ⟨max n m + 1, r, ?_, powers_fitsPower ⟨hn, h₁⟩ hrs hw⟩
      simp [powerIn, powerStep, h₀, h₁, hn, productIn_mono (Nat.le_max_right n m) h,
        mapM_mono (fun _ _ => powerIn_mono (Nat.le_max_left n m)) hm]
    · exact ⟨1, pow (mul fs) exponent, by simp [powerIn, powerStep, h₀, h₁, hn],
        pow_fitsPower nofun h₁⟩
termination_by (powerWeight base exponent, powerBulk base exponent, 1 + sizeOf base)
decreasing_by
  · exact .left _ _ (smaller_argument a exponent)
  · exact .left _ _ (smaller_exponents b e ⟨hn, h₁⟩)
  · exact smaller_base ⟨hn, h₁⟩ hw
  · exact (smaller_power_of_factor hf ⟨hn, h₁⟩).lex _ _
  · exact (powers_within ⟨hn, h₁⟩ hrs).lex _ _

end

end Expr

/-! Products and powers, run for as many steps as they need, and what is built from them. -/

open Option

/-- The result of a computation that needs an unknown number of steps, tried with more and
more of them. -/
def runLonger (f : Nat → Option α) (mono : ∀ n m, n ≤ m → (f n).isSome → (f m).isSome)
    (halts : ∃ n, (f n).isSome) (n : Nat) : α :=
  let result := f n
  if h : result.isSome then result.get h else runLonger f mono halts (2 * n + 1)
termination_by halts.choose - n
decreasing_by
  have hlt : n < halts.choose := Nat.lt_of_not_le fun hle => by
    exact h (mono _ _ hle halts.choose_spec)
  omega

theorem exists_eq_some_runLonger (f : Nat → Option α)
    (mono : ∀ n m, n ≤ m → (f n).isSome → (f m).isSome) (halts : ∃ n, (f n).isSome) (n : Nat) :
    ∃ m, f m = some (runLonger f mono halts n) := by
  fun_induction runLonger f mono halts n with
  | case1 n result h => exact ⟨n, (some_get h).symm⟩
  | case2 n result h ih => exact ih

namespace Expr

theorem isSome_productIn_mono (operands : List Expr) (n m : Nat) (h : n ≤ m)
    (hs : (productIn n operands).isSome) : (productIn m operands).isSome := by
  obtain ⟨r, hr⟩ := isSome_iff_exists.mp hs
  exact isSome_iff_exists.mpr ⟨r, productIn_mono h hr⟩

theorem exists_isSome_productIn (operands : List Expr) : ∃ n, (productIn n operands).isSome := by
  obtain ⟨n, r, hr, _⟩ := product_halts operands
  exact ⟨n, isSome_iff_exists.mpr ⟨r, hr⟩⟩

theorem isSome_powerIn_mono (base exponent : Expr) (n m : Nat) (h : n ≤ m)
    (hs : (powerIn n base exponent).isSome) : (powerIn m base exponent).isSome := by
  obtain ⟨r, hr⟩ := isSome_iff_exists.mp hs
  exact isSome_iff_exists.mpr ⟨r, powerIn_mono h hr⟩

theorem exists_isSome_powerIn (base exponent : Expr) : ∃ n, (powerIn n base exponent).isSome := by
  obtain ⟨n, r, hr, _⟩ := power_halts base exponent
  exact ⟨n, isSome_iff_exists.mpr ⟨r, hr⟩⟩

/-- The simplified product. Its equation is `product_eq`. -/
def product (operands : List Expr) : Expr :=
  runLonger (productIn · operands) (isSome_productIn_mono operands)
    (exists_isSome_productIn operands) 1024

/-- The simplified power. Its equation is `power_eq`. -/
def power (base exponent : Expr) : Expr :=
  runLonger (powerIn · base exponent) (isSome_powerIn_mono base exponent)
    (exists_isSome_powerIn base exponent) 1024

theorem exists_productIn (operands : List Expr) :
    ∃ n, productIn n operands = some (product operands) :=
  exists_eq_some_runLonger ..

theorem exists_powerIn (base exponent : Expr) :
    ∃ n, powerIn n base exponent = some (power base exponent) :=
  exists_eq_some_runLonger ..

theorem product_of_productIn {operands : List Expr} {r : Expr} (h : productIn n operands = some r) :
    product operands = r := by
  obtain ⟨m, hm⟩ := exists_productIn operands
  have h₁ := productIn_mono (Nat.le_max_left n m) h
  have h₂ := productIn_mono (Nat.le_max_right n m) hm
  exact Option.some.inj (h₂.symm.trans h₁)

theorem power_of_powerIn {base exponent r : Expr} (h : powerIn n base exponent = some r) :
    power base exponent = r := by
  obtain ⟨m, hm⟩ := exists_powerIn base exponent
  have h₁ := powerIn_mono (Nat.le_max_left n m) h
  have h₂ := powerIn_mono (Nat.le_max_right n m) hm
  exact Option.some.inj (h₂.symm.trans h₁)

theorem mapM_some (f : α → β) (xs : List α) : xs.mapM (fun x => some (f x)) = some (xs.map f) :=
  pointwise_iff_mapM.mp (Pointwise.map xs fun _ _ => rfl)

theorem product_eq (operands : List Expr) : product operands =
    if (factorLists operands).any isZero then zero
    else
      let joined := join operands ((baseGroups operands).map fun g => power g.1 (sum g.2))
      if joined.coefficient == 0 then zero
      else if joined.reopened then product (joined.factors ++ [num joined.coefficient])
      else
        match joined.soleSum? with
        | some ts => sum (ts.map fun t => product [num joined.coefficient, t])
        | none => mulNode joined.coefficient joined.factors := by
  have h : productStep (fun b e => some (power b e)) (fun fs => some (product fs)) operands =
      some (product operands) := by
    obtain ⟨n, hn⟩ := exists_productIn operands
    exact productStep_mono (fun _ _ _ hr => congrArg some (power_of_powerIn hr))
      (fun _ _ hr => congrArg some (product_of_productIn hr))
      ((productIn_powerIn_succ n).1 operands _ hn)
  refine Option.some.inj (h.symm.trans ?_)
  simp only [productStep, mapM_some, bind, bind_some, pure]
  split
  · rfl
  · split
    · rfl
    · split
      · rfl
      · split <;> simp only [*]

theorem power_eq (base exponent : Expr) : power base exponent =
    if exponent.isZero then one
    else if exponent.isOne then base
    else
      match base with
      | num b => numberPower b exponent
      | fn .exp a => apply .exp (product [a, exponent])
      | pow b e =>
        if exponent.isInteger then power b (product [e, exponent]) else pow (pow b e) exponent
      | mul fs =>
        if exponent.isInteger then product (fs.map fun f => power f exponent)
        else pow (mul fs) exponent
      | b => pow b exponent := by
  have h : powerStep (fun b e => some (power b e)) (fun fs => some (product fs)) base exponent =
      some (power base exponent) := by
    obtain ⟨n, hn⟩ := exists_powerIn base exponent
    exact powerStep_mono (fun _ _ _ hr => congrArg some (power_of_powerIn hr))
      (fun _ _ hr => congrArg some (product_of_productIn hr))
      ((productIn_powerIn_succ n).2 base exponent _ hn)
  refine Option.some.inj (h.symm.trans ?_)
  simp only [powerStep, mapM_some, bind, bind_some, pure]
  split
  · rfl
  · split
    · rfl
    · cases base with
      | fn f a => cases f <;> rfl
      | pow b e => dsimp only; split <;> rfl
      | mul fs => dsimp only; split <;> rfl
      | _ => rfl

def neg (e : Expr) : Expr := product [integer (-1), e]

def sub (a b : Expr) : Expr := sum [a, b.neg]

def div (a b : Expr) : Expr := product [a, power b (integer (-1))]

def sqrt (e : Expr) : Expr := power e (num (1 / 2))

mutual

/-- Replace symbols and rebuild, so that the result is simplified again. -/
def substitute (f : String → Option Expr) : Expr → Expr
  | num q => num q
  | sym s => (f s).getD (sym s)
  | fn g a => apply g (a.substitute f)
  | pow b e => power (b.substitute f) (e.substitute f)
  | mul fs => product (substituteAll f fs)
  | add ts => sum (substituteAll f ts)

def substituteAll (f : String → Option Expr) : List Expr → List Expr
  | [] => []
  | e :: es => e.substitute f :: substituteAll f es

end

end Expr

end TensorCalculus
