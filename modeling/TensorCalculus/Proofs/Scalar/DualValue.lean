import TensorCalculus.Proofs.Scalar.Canonical
import TensorCalculus.Proofs.Scalar.Soundness

/-! Where rational expressions can be differentiated. A power of a base that is 0 needs an exponent
of at least 1 for its derivative to be defined; what simplification builds from such expressions
is such an expression. -/
namespace TensorCalculus

variable {e b : Expr} {es : List Expr}

open List

namespace Expr

mutual

/-- Without functions, and with no exponent below `k` on a base that is 0. With `k = 0` this is to
be defined; `k = 1` leaves out 0 to the power 0, too. -/
def DefinedFrom (k : Nat) (σ : Valuation) : Expr → Prop
  | num _ => True
  | sym _ => True
  | fn _ _ => False
  | pow b e => b.DefinedFrom k σ ∧ e.DefinedFrom k σ ∧ (b.value σ = 0 → k ≤ e.value σ)
  | mul fs => AllDefinedFrom k σ fs
  | add ts => AllDefinedFrom k σ ts

def AllDefinedFrom (k : Nat) (σ : Valuation) : List Expr → Prop
  | [] => True
  | e :: es => e.DefinedFrom k σ ∧ AllDefinedFrom k σ es

end

section Bounds

variable {k k' : Nat} {σ : Valuation}

theorem allDefinedFrom_iff (k : Nat) (σ : Valuation) (es : List Expr) :
    AllDefinedFrom k σ es ↔ ∀ e ∈ es, e.DefinedFrom k σ := by
  induction es with
  | nil => simp [AllDefinedFrom]
  | cons e es ih => rw [AllDefinedFrom, ih, forall_mem_cons]

theorem hereditary_definedFrom (k : Nat) (σ : Valuation) : Hereditary (DefinedFrom k σ) where
  num _ := trivial
  mul fs := by rw [DefinedFrom, allDefinedFrom_iff]
  add ts := by rw [DefinedFrom, allDefinedFrom_iff]

theorem DefinedFrom.mono (h : k ≤ k') (e : Expr) : e.DefinedFrom k' σ → e.DefinedFrom k σ := by
  induction e using Expr.induction with
  | num q => exact id
  | sym s => exact id
  | fn f a ih => exact id
  | pow b e hb he =>
    intro hσ
    have hcast : (k : Rat) ≤ k' := by exact_mod_cast h
    exact ⟨hb hσ.1, he hσ.2.1, fun hzero => hcast.trans (hσ.2.2 hzero)⟩
  | mul fs ih =>
    rw [(hereditary_definedFrom k' σ).mul, (hereditary_definedFrom k σ).mul]
    exact fun hσ f hf => ih f hf (hσ f hf)
  | add ts ih =>
    rw [(hereditary_definedFrom k' σ).add, (hereditary_definedFrom k σ).add]
    exact fun hσ t ht => ih t ht (hσ t ht)

theorem definedFrom_zero_iff (e : Expr) : e.DefinedFrom 0 σ ↔ e.Defined σ := by
  induction e using Expr.induction with
  | num q => rfl
  | sym s => rfl
  | fn f a ih => rfl
  | pow b e hb he => rw [DefinedFrom, Defined, hb, he, Nat.cast_zero]
  | mul fs ih =>
    rw [(hereditary_definedFrom 0 σ).mul, Defined, allDefined_iff]
    exact forall₂_congr ih
  | add ts ih =>
    rw [(hereditary_definedFrom 0 σ).add, Defined, allDefined_iff]
    exact forall₂_congr ih

end Bounds

/-- Constant integer exponents, of at least 1 on a base that is 0. -/
structure Smooth (σ : Valuation) (e : Expr) : Prop where
  regular : Regular ∅ e
  definedFrom : e.DefinedFrom 1 σ

section Simplification

variable {σ : Valuation}

theorem hereditary_smooth (σ : Valuation) : Hereditary (Smooth σ) where
  num _ := ⟨trivial, trivial⟩
  mul fs := by
    have hregular := (hereditary_regular ∅).mul fs
    have hdefined := (hereditary_definedFrom 1 σ).mul fs
    exact ⟨fun h f hf => ⟨hregular.mp h.regular f hf, hdefined.mp h.definedFrom f hf⟩,
      fun h => ⟨hregular.mpr fun f hf => (h f hf).regular,
        hdefined.mpr fun f hf => (h f hf).definedFrom⟩⟩
  add ts := by
    have hregular := (hereditary_regular ∅).add ts
    have hdefined := (hereditary_definedFrom 1 σ).add ts
    exact ⟨fun h t ht => ⟨hregular.mp h.regular t ht, hdefined.mp h.definedFrom t ht⟩,
      fun h => ⟨hregular.mpr fun t ht => (h t ht).regular,
        hdefined.mpr fun t ht => (h t ht).definedFrom⟩⟩

theorem Smooth.regular_at (h : Smooth σ e) : Regular {σ} e := by
  rw [regular_iff]
  refine ⟨h.regular, ?_⟩
  rintro _ rfl
  exact (definedFrom_zero_iff e).mp (h.definedFrom.mono (Nat.zero_le 1) e)

theorem smooth_splitPower {f : Expr} (h : Smooth σ f) :
    Smooth σ (pow f.splitPower.1 f.splitPower.2) := by
  refine ⟨(simplifies_splitPower f ∅ h.regular).1, ?_⟩
  fun_cases splitPower f with
  | case1 b e => exact h.definedFrom
  | case2 => exact ⟨h.definedFrom, trivial, fun _ => by simp⟩

theorem smooth_group (hes : es ≠ []) (h : ∀ e ∈ es, Smooth σ (pow b e)) :
    Smooth σ (pow b (sum es)) := by
  have hregular : Regular ∅ (mul (es.map (pow b))) := by
    rw [(hereditary_regular ∅).mul, forall_mem_map]
    exact fun e he => (h e he).regular
  refine ⟨(simplifies_group b hes ∅ hregular).1, ?_⟩
  obtain ⟨e, he⟩ := exists_mem_of_ne_nil es hes
  refine ⟨(h e he).definedFrom.1, (hereditary_definedFrom 1 σ).sum fun e he =>
    (h e he).definedFrom.2.1, fun hzero => ?_⟩
  have hone : ∀ q ∈ es.map (value σ), 1 ≤ q := by
    simpa using fun e he => (h e he).definedFrom.2.2 hzero
  rw [value_sum, Nat.cast_one]
  exact (hone _ (mem_map_of_mem he)).trans
    (single_le_sum (fun q hq => zero_le_one.trans (hone q hq)) _ (mem_map_of_mem he))

theorem smooth_pow_mul {fs : List Expr} (h : Smooth σ (pow (mul fs) e)) :
    ∀ f ∈ fs, Smooth σ (pow f e) := by
  intro f hf
  have hregular := (simplifies_pow_mul fs e ∅ h.regular).1
  rw [(hereditary_regular ∅).mul, forall_mem_map] at hregular
  refine ⟨hregular f hf, ((hereditary_definedFrom 1 σ).mul fs).mp h.definedFrom.1 f hf,
    h.definedFrom.2.1, fun hzero => h.definedFrom.2.2 ?_⟩
  rw [value_mul, prod_eq_zero_iff, ← hzero]
  exact mem_map_of_mem hf

theorem smooth_pow_pow {p : Expr} {q : Number} (hq : q.isInteger)
    (hp : Simplifies (mul [e, num q]) p) (hsymbols : e.symbolList = [] → p.symbolList = [])
    (hsmooth : Smooth σ e → Smooth σ p) (h : Smooth σ (pow (pow b e) (num q))) :
    Smooth σ (pow b p) := by
  obtain ⟨⟨hb, he, hinner⟩, -, houter⟩ := h.definedFrom
  have hexponent := (regular_pow_iff.mp (regular_pow_iff.mp h.regular).1).2.1
  have hregular : Regular Set.univ (mul [e, num q]) := by
    rw [(hereditary_regular _).mul]
    simpa using ⟨hexponent.regular, trivial⟩
  have hvalue : p.value σ = e.value σ * q := by
    rw [(hp Set.univ hregular).2 σ trivial]
    simp
  have hpow := (simplifies_pow_pow b e hq).trans
    (Simplifies.pow hp fun h => hsymbols ((structural_symbolFree.mul _).mp h e mem_cons_self))
  refine ⟨(hpow ∅ h.regular).1, hb,
    (hsmooth ⟨hexponent.regular.mono (Set.empty_subset _), he⟩).definedFrom, fun hzero => ?_⟩
  -- the inner power is 0, so the outer exponent is bounded, too
  obtain ⟨n, hn⟩ := hexponent.integer σ
  have hone : (1 : Rat) ≤ n := by
    rw [← hn, ← Nat.cast_one]
    exact hinner hzero
  have hn₀ : n ≠ 0 := by
    rintro rfl
    norm_num at hone
  have hpower : (pow b e).value σ = 0 := by
    rw [value_pow, hn, hzero, Rat.num_intCast, zero_zpow n hn₀]
  have hq₁ : 1 ≤ q := by simpa using houter hpower
  rw [hvalue, hn, Nat.cast_one]
  exact one_le_mul_of_one_le_of_one_le hone hq₁

section

variable {power : Expr → Expr → Option Expr} {product : List Expr → Option Expr}
  (hpower : ∀ b e r, power b e = some r → Smooth σ (pow b e) → Smooth σ r)
  (hproduct : ∀ es r, product es = some r → (∀ e ∈ es, Smooth σ e) → Smooth σ r)
include hpower hproduct

theorem productStep_smooth {operands : List Expr} {r : Expr}
    (hr : productStep power product operands = some r) (h : ∀ e ∈ operands, Smooth σ e) :
    Smooth σ r := by
  have hP := hereditary_smooth σ
  refine hP.productStep hpower hproduct (fun g hg => ?_) hr
  refine smooth_group (runs_ne_nil hg) fun e he => ?_
  obtain ⟨f, hf, hsplit⟩ := mem_map.mp (mem_of_mem_collect hg he)
  have hf := smooth_splitPower
    (hP.of_mem_factorLists h f (mem_reverse.mp (mem_of_mem_filter hf)))
  rwa [hsplit] at hf

theorem powerStep_smooth (hsimplifies : ∀ es r, product es = some r → Simplifies (mul es) r)
    (hsymbols : ∀ es r, product es = some r → (∀ e ∈ es, e.symbolList = []) → r.symbolList = [])
    {base exponent r : Expr} (hstep : powerStep power product base exponent = some r)
    (h : Smooth σ (pow base exponent)) : Smooth σ r := by
  have hP := hereditary_smooth σ
  rcases powerStep_cases hstep with ⟨_, rfl⟩ | ⟨_, rfl⟩ | ⟨b, rfl, rfl⟩ | ⟨a, p, rfl, hp, rfl⟩ |
    ⟨b, e, p, rfl, hq, hp, hr⟩ | ⟨fs, rs, rfl, _, hrs, hr⟩ | rfl
  · exact hP.num 1
  · exact ⟨(regular_pow_iff.mp h.regular).1, h.definedFrom.1⟩
  · exact hP.numberPower h
  · exact h.definedFrom.1.elim
  · obtain ⟨q, rfl⟩ : ∃ q, exponent = num q := by cases exponent <;> simp_all [isInteger]
    refine hpower _ _ _ hr (smooth_pow_pow hq (hsimplifies _ _ hp) (fun he => ?_) (fun he => ?_) h)
    · exact hsymbols _ _ hp (by simpa using ⟨he, structural_symbolFree.num q⟩)
    · exact hproduct _ _ hp (by simpa using ⟨he, hP.num q⟩)
  · apply hproduct _ _ hr
    intro r hr
    obtain ⟨f, hf, hfr⟩ := hrs.exists_of_mem hr
    exact hpower _ _ _ hfr (smooth_pow_mul h f hf)
  · exact h

end

theorem productIn_powerIn_smooth (n : Nat) :
    (∀ es r, productIn n es = some r → (∀ e ∈ es, Smooth σ e) → Smooth σ r) ∧
      ∀ b e r, powerIn n b e = some r → Smooth σ (pow b e) → Smooth σ r := by
  induction n with
  | zero => exact ⟨fun _ _ h => (nomatch h), fun _ _ _ h => (nomatch h)⟩
  | succ n ih =>
    exact ⟨fun _ _ => productStep_smooth ih.2 ih.1, fun _ _ _ =>
      powerStep_smooth ih.2 ih.1 (productIn_powerIn_simplifies n).1
        (structural_symbolFree.productIn_powerIn n).1⟩

theorem smooth_product (h : ∀ e ∈ es, Smooth σ e) : Smooth σ (product es) := by
  obtain ⟨n, hn⟩ := exists_productIn es
  exact (productIn_powerIn_smooth n).1 es _ hn h

theorem smooth_power (h : Smooth σ (pow b e)) : Smooth σ (power b e) := by
  obtain ⟨n, hn⟩ := exists_powerIn b e
  exact (productIn_powerIn_smooth n).2 b e _ hn h

end Simplification

end Expr

/-! Derivatives of rational expressions. At dual numbers an expression takes its value together with
its derivative, whatever the derivatives of the symbols are. -/

open DualNumber TrivSqZeroExt

def dualPower (x : Rat[ε]) : Int → Rat[ε]
  | .ofNat n => x ^ n
  | .negSucc n => x⁻¹ ^ (n + 1)

theorem fst_dualPower (x : Rat[ε]) (n : Int) : (dualPower x n).fst = x.fst ^ n := by
  cases n with
  | ofNat n => simp [dualPower]
  | negSucc n => simp [dualPower, zpow_negSucc]

theorem snd_dualPower (x : Rat[ε]) (n : Int) :
    (dualPower x n).snd = n * x.fst ^ (n - 1) * x.snd := by
  cases n with
  | ofNat n =>
    cases n with
    | zero => simp [dualPower]
    | succ n => simp [dualPower, snd_pow, mul_assoc]
  | negSucc n =>
    have hexponent : Int.negSucc n - 1 = -((n + 2 : Nat) : Int) := by omega
    rw [hexponent, zpow_neg, zpow_natCast, dualPower, snd_pow, fst_inv, snd_inv]
    simp only [Int.cast_negSucc, MulOpposite.smul_eq_mul_unop, MulOpposite.unop_op, smul_eq_mul,
      nsmul_eq_mul, Nat.pred_eq_sub_one, Nat.add_sub_cancel, ← inv_pow]
    ring

namespace Expr

mutual

/-- The value over the dual numbers. An exponent counts as the integer it evaluates to. -/
def dualValue (δ : String → Rat[ε]) : Expr → Rat[ε]
  | num q => inl q
  | sym s => δ s
  | fn _ _ => 0
  | pow b e => dualPower (b.dualValue δ) (e.dualValue δ).fst.num
  | mul fs => (dualValues δ fs).prod
  | add ts => (dualValues δ ts).sum

def dualValues (δ : String → Rat[ε]) : List Expr → List Rat[ε]
  | [] => []
  | e :: es => e.dualValue δ :: dualValues δ es

end

mutual

theorem fst_dualValue (δ : String → Rat[ε]) (e : Expr) :
    (e.dualValue δ).fst = e.value fun s => (δ s).fst := by
  cases e with
  | num q => rfl
  | sym s => rfl
  | fn f a => rfl
  | pow b e => rw [dualValue, fst_dualPower, fst_dualValue δ b, fst_dualValue δ e, value]
  | mul fs => rw [dualValue, fst_list_prod, map_fst_dualValues δ fs, value]
  | add ts =>
    rw [dualValue, value, ← map_fst_dualValues δ ts]
    exact map_list_sum (fstHom Rat Rat Rat) _

theorem map_fst_dualValues (δ : String → Rat[ε]) (es : List Expr) :
    (dualValues δ es).map fst = values (fun s => (δ s).fst) es := by
  cases es with
  | nil => rfl
  | cons e es => rw [dualValues, map_cons, fst_dualValue δ e, map_fst_dualValues δ es, values]

end

section Assembly

variable {m : Type → Type} [Monad m] [LawfulMonad m] {e : Expr} {g : List Expr → Expr}

/-- Differentiation asks the rule for the symbols in the order in which they stand, and makes the
derivative of the answers. -/
def Assembles (e : Expr) (g : List Expr → Expr) : Prop :=
  ∀ {m : Type → Type} [Monad m] [LawfulMonad m] (rule : String → m Expr),
    e.derivativeM rule = g <$> e.symbolList.mapM rule

theorem map_mapM_append (rule : String → m Expr) (xs ys : List String) {α β γ : Type}
    (g : List Expr → α) (h : List Expr → β) (c : α → β → γ) :
    (do
      let a ← g <$> xs.mapM rule
      let b ← h <$> ys.mapM rule
      return c a b) =
      (fun ds => c (g (ds.take xs.length)) (h (ds.drop xs.length))) <$> (xs ++ ys).mapM rule := by
  induction xs generalizing g with
  | nil => simp
  | cons x xs ih =>
    rw [cons_append, mapM_cons, mapM_cons, map_bind, map_bind, bind_assoc]
    refine bind_congr fun d => ?_
    simpa using ih fun ds => g (d :: ds)

theorem exists_assembly_of_forall {es : List Expr} (h : ∀ e ∈ es, ∃ g, e.Assembles g) :
    ∃ g : List Expr → List Expr, ∀ {m : Type → Type} [Monad m] [LawfulMonad m]
      (rule : String → m Expr), derivativesM rule es = g <$> (symbolLists es).mapM rule := by
  induction es with
  | nil => exact ⟨fun _ => [], fun _ => by simp [derivativesM, symbolLists]⟩
  | cons e es ih =>
    rw [forall_mem_cons] at h
    obtain ⟨g, hg⟩ := h.1
    obtain ⟨gs, hgs⟩ := ih h.2
    exact ⟨_, fun rule => by
      rw [derivativesM, hg, hgs, symbolLists]
      exact map_mapM_append rule _ _ g gs cons⟩

theorem exists_assembly (e : Expr) : ∃ g, e.Assembles g := by
  induction e using Expr.induction with
  | num q => exact ⟨fun _ => zero, fun _ => by simp [derivativeM, symbolList]⟩
  | sym s => exact ⟨fun ds => ds.headD zero, fun _ => by simp [derivativeM, symbolList]⟩
  | fn f a ih =>
    obtain ⟨g, hg⟩ := ih
    exact ⟨_, fun rule => by
      rw [derivativeM, hg, bind_pure_comp, Functor.map_map, symbolList]⟩
  | pow b e hb he =>
    obtain ⟨g, hg⟩ := hb
    obtain ⟨h, hh⟩ := he
    exact ⟨_, fun rule => by
      rw [derivativeM, hg, hh, symbolList]
      exact map_mapM_append rule _ _ g h (powerRule b e)⟩
  | mul fs ih | add fs ih =>
    obtain ⟨g, hg⟩ := exists_assembly_of_forall ih
    exact ⟨_, fun rule => by
      rw [derivativeM, hg, bind_pure_comp, Functor.map_map, symbolList]⟩

theorem Assembles.derivative (h : e.Assembles g) (r : String → Expr) :
    e.derivative r = g (e.symbolList.map r) := by
  rw [Expr.derivative, h, mapM_pure]
  rfl

end Assembly

section

variable (rule : String → Expr)

theorem derivativesM_eq_map (es : List Expr) :
    Id.run (derivativesM (fun s => pure (rule s)) es) = es.map (derivative rule) := by
  induction es with
  | nil => rfl
  | cons e es ih =>
    rw [map_cons, ← ih]
    rfl

theorem derivative_mul (fs : List Expr) :
    (mul fs).derivative rule = sum (productRule [] fs (fs.map (derivative rule))) := by
  rw [← derivativesM_eq_map]
  rfl

theorem derivative_add (ts : List Expr) :
    (add ts).derivative rule = sum (ts.map (derivative rule)) := by
  rw [← derivativesM_eq_map]
  rfl

theorem derivative_pow (b e : Expr) :
    (pow b e).derivative rule = powerRule b e (b.derivative rule) (e.derivative rule) := rfl

end

section SymbolFree

theorem isZero_zero : zero.isZero = true := by decide

theorem sum_replicate_zero (n : Nat) : sum (List.replicate n zero) = zero := by
  have hterms (n : Nat) : termLists (List.replicate n zero) = List.replicate n zero := by
    induction n with
    | zero => rfl
    | succ n ih => rw [replicate_succ, termLists, ih]; rfl
  have hgather (n : Nat) : Number.gather Number.add? 0 (List.replicate n 0) = (0, []) := by
    induction n with
    | zero => rfl
    | succ n ih =>
      rw [replicate_succ, Number.gather, Number.add?_zero (by decide)]
      exact ih
  have hnumbers : (List.replicate n zero).filterMap number? = List.replicate n 0 :=
    filterMap_replicate_of_some rfl
  have hothers : (List.replicate n zero).filter (!·.isNumber) = [] :=
    filter_replicate_of_neg (by decide)
  unfold sum sumTerms
  dsimp only
  rw [hterms, reverse_replicate, hnumbers, hothers, constantTerms, hgather, map_nil,
    collect, mergeSort_nil]
  rfl

theorem product_append_zero (es : List Expr) : product (es ++ [zero]) = zero := by
  rw [product_eq_result, if_pos]
  rw [factorLists_eq_flatMap, flatMap_append, any_append]
  exact Bool.or_true _

theorem productRule_replicate_zero (before fs : List Expr) (n : Nat) :
    productRule before fs (List.replicate n zero) = [] := by
  induction n generalizing before fs with
  | zero => cases fs <;> rfl
  | succ n ih =>
    cases fs with
    | nil => rfl
    | cons f fs =>
      rw [replicate_succ, productRule, if_pos isZero_zero]
      exact ih _ _

mutual

theorem derivative_of_symbolFree (rule : String → Expr) (e : Expr) (h : e.symbolList = []) :
    e.derivative rule = zero := by
  cases e with
  | num q => rfl
  | sym s => cases h
  | fn f a =>
    have ha := derivative_of_symbolFree rule a ((structural_symbolFree.fn f a).mp h)
    change (if (a.derivative rule).isZero then zero else _) = zero
    rw [ha]
    rfl
  | pow b e =>
    obtain ⟨hb, he⟩ := (structural_symbolFree.pow b e).mp h
    rw [derivative_pow, derivative_of_symbolFree rule b hb, derivative_of_symbolFree rule e he,
      powerRule, if_pos isZero_zero]
    exact product_append_zero [e, _]
  | mul fs =>
    rw [derivative_mul, derivatives_of_symbolFree rule fs h, productRule_replicate_zero]
    exact sum_replicate_zero 0
  | add ts => rw [derivative_add, derivatives_of_symbolFree rule ts h, sum_replicate_zero]

theorem derivatives_of_symbolFree (rule : String → Expr) (es : List Expr)
    (h : symbolLists es = []) : es.map (derivative rule) = List.replicate es.length zero := by
  cases es with
  | nil => rfl
  | cons e es =>
    rw [symbolLists, append_eq_nil_iff] at h
    rw [map_cons, derivative_of_symbolFree rule e h.1, derivatives_of_symbolFree rule es h.2]
    rfl

end

end SymbolFree

variable {σ : Valuation}

theorem HasValue.power {q : Rat} {n : Int} (h : HasValue σ b q) (he : IsExponent e)
    (hn : e.value σ = n) (hzero : q = 0 → 0 ≤ n) : HasValue σ (power b e) (q ^ n) := by
  have hpow : Regular {σ} (pow b e) := by
    refine regular_pow_iff.mpr ⟨h.regular, he, ?_⟩
    rintro τ rfl hb
    rw [hn]
    exact_mod_cast hzero (h.value_eq.symm.trans hb)
  obtain ⟨hpower, hvalue⟩ := simplifies_power b e {σ} hpow
  refine ⟨hpower, ?_⟩
  rw [hvalue σ rfl, value_pow, hn, Rat.num_intCast, h.value_eq]

theorem productRule_hasValue {before fs ds : List Expr} {qs : List Rat} {xs : List Rat[ε]}
    (hbefore : Forall₂ (HasValue σ) before qs) (hfs : Forall₂ (HasValue σ) fs (xs.map fst))
    (hds : Forall₂ (HasValue σ) ds (xs.map snd)) :
    HasValue σ (sum (productRule before fs ds)) (qs.prod * xs.prod.snd) := by
  suffices ∃ rs, Forall₂ (HasValue σ) (productRule before fs ds) rs ∧
      rs.sum = qs.prod * xs.prod.snd by
    obtain ⟨rs, hrs, hsum⟩ := this
    rw [← hsum]
    exact .sum hrs
  induction xs generalizing before fs ds qs with
  | nil =>
    cases hfs
    exact ⟨[], .nil, by simp⟩
  | cons x xs ih =>
    rw [map_cons] at hfs hds
    obtain - | ⟨hf, hfs⟩ := hfs
    obtain - | ⟨hd, hds⟩ := hds
    rename_i f fs d ds
    obtain ⟨rs, hrs, hsum⟩ := ih (rel_append hbefore (.cons hf .nil)) hfs hds
    have hsplit : qs.prod * (x * xs.prod).snd =
        qs.prod * (x.snd * (xs.map fst).prod) + rs.sum := by
      rw [DualNumber.snd_mul, hsum, fst_list_prod, prod_append, prod_singleton]
      ring
    rw [prod_cons, hsplit, productRule]
    split
    · next hzero =>
      refine ⟨rs, hrs, ?_⟩
      rw [← hd.value_eq, value_eq_zero_of_isZero hzero, zero_mul, mul_zero, zero_add]
    · refine ⟨_, .cons (.product (rel_append hbefore (.cons hd hfs))) hrs, ?_⟩
      rw [sum_cons, prod_append, prod_cons]

theorem powerRule_hasValue {db : Expr} {x : Rat[ε]} (hb : HasValue σ b x.fst)
    (hdb : HasValue σ db x.snd) (he : IsExponent e) {n : Int} (hn : e.value σ = n)
    (hzero : x.fst = 0 → 1 ≤ n) : HasValue σ (powerRule b e db zero) (dualPower x n).snd := by
  have hexponent : IsExponent (sum [e, integer (-1)]) :=
    .sum (by simpa using ⟨he, isExponent_integer (-1)⟩)
  have hvalue : (sum [e, integer (-1)]).value σ = (n - 1 : Int) := by
    simp [hn, sub_eq_add_neg]
  have hpower := hb.power hexponent hvalue fun h => by
    have := hzero h
    omega
  have hfactor : HasValue σ e n := ⟨he.regular.mono (Set.subset_univ _), hn⟩
  have hproduct := HasValue.product (.cons hfactor (.cons hpower (.cons hdb .nil)))
  rw [prod_cons, prod_cons, prod_singleton, ← mul_assoc, ← snd_dualPower] at hproduct
  exact hproduct

theorem Tidy.of_pow (h : Tidy True (.pow b e)) :
    Tidy True b ∧ ∃ n : Int, n ≠ 0 ∧ n ≠ 1 ∧ e = integer n := by
  cases h with
  | pow hb _ heq hwhole =>
    obtain ⟨hinteger, -, -⟩ := hwhole trivial
    cases e with
    | num q =>
      have hq : q = q.num := ((Rat.den_eq_one_iff q).mp (eq_of_beq hinteger)).symm
      refine ⟨hb, q.num, ?_, ?_, congrArg Expr.num hq⟩
      · intro hzero
        rw [power_eq, if_pos (by rw [isZero, hq, hzero]; rfl)] at heq
        cases heq
      · intro hone
        rw [power_eq, if_neg (by rw [isZero, hq, hone]; decide),
          if_pos (by rw [isOne, hq, hone]; rfl)] at heq
        exact absurd (congrArg sizeOf heq) (by simp; omega)
    | _ => cases hinteger

/-- Built in range, no power has the exponent 0 or 1. -/
theorem Tidy.definedFrom (h : Tidy True e) (hσ : Regular {σ} e) : e.DefinedFrom 2 σ := by
  induction e using Expr.induction with
  | num q => trivial
  | sym s => trivial
  | fn f a ih => exact hσ.elim
  | pow b e hb he =>
    obtain ⟨htidy, n, hn₀, hn₁, rfl⟩ := h.of_pow
    obtain ⟨hregular, -, hzero⟩ := regular_pow_iff.mp hσ
    refine ⟨hb htidy hregular, trivial, fun h => ?_⟩
    have hnonneg := hzero σ rfl h
    rw [value_integer] at hnonneg ⊢
    have hnonneg : 0 ≤ n := by exact_mod_cast hnonneg
    exact_mod_cast (show 2 ≤ n by omega)
  | mul fs ih =>
    have hfs := ((hereditary_regular _).mul fs).mp hσ
    exact ((hereditary_definedFrom 2 σ).mul fs).mpr fun f hf =>
      ih f hf (h.of_mem_mul f hf) (hfs f hf)
  | add ts ih =>
    have hts := ((hereditary_regular _).add ts).mp hσ
    have htidy : ∀ t ∈ ts, Tidy True t := by
      cases h
      assumption
    exact ((hereditary_definedFrom 2 σ).add ts).mpr fun t ht => ih t ht (htidy t ht) (hts t ht)

section Derivative

variable {r : String → Expr} {d : String → Rat}

def dualSymbols (σ : Valuation) (d : String → Rat) (s : String) : Rat[ε] :=
  inl (σ s) + d s • ε

theorem fst_dualValue_dualSymbols (e : Expr) : (e.dualValue (dualSymbols σ d)).fst = e.value σ := by
  rw [fst_dualValue]
  congr 1
  funext s
  simp [dualSymbols]

theorem hasValue_fst_dualValues (h : ∀ e ∈ es, Regular {σ} e) :
    Forall₂ (HasValue σ) es ((dualValues (dualSymbols σ d) es).map fst) := by
  induction es with
  | nil => exact .nil
  | cons e es ih =>
    rw [forall_mem_cons] at h
    exact .cons ⟨h.1, (fst_dualValue_dualSymbols e).symm⟩ (ih h.2)

mutual

theorem derivative_hasValue (e : Expr) (h : Smooth σ e)
    (hr : ∀ s ∈ e.symbolList, HasValue σ (r s) (d s)) :
    HasValue σ (e.derivative r) (e.dualValue (dualSymbols σ d)).snd := by
  cases e with
  | num q => exact .num 0
  | sym s =>
    have hs : HasValue σ (r s) (d s) := hr s (by simp [symbolList])
    have hsnd : (dualSymbols σ d s).snd = d s := by simp [dualSymbols]
    rwa [← hsnd] at hs
  | fn f a => exact h.regular.elim
  | pow b e =>
    obtain ⟨hb, he, -⟩ := regular_pow_iff.mp h.regular
    have hsmooth : Smooth σ b := ⟨hb, h.definedFrom.1⟩
    have hdb := derivative_hasValue b hsmooth fun s hs => hr s (by simp [symbolList, hs])
    have hbase : HasValue σ b (b.dualValue (dualSymbols σ d)).fst :=
      ⟨hsmooth.regular_at, (fst_dualValue_dualSymbols b).symm⟩
    obtain ⟨n, hn⟩ := he.integer σ
    have hpositive : (b.dualValue (dualSymbols σ d)).fst = 0 → 1 ≤ n := by
      intro hzero
      have := h.definedFrom.2.2 ((fst_dualValue_dualSymbols b).symm.trans hzero)
      rw [hn] at this
      exact_mod_cast this
    rw [derivative_pow, derivative_of_symbolFree r e he.symbolList, dualValue,
      fst_dualValue_dualSymbols, hn, Rat.num_intCast]
    exact powerRule_hasValue hbase hdb he hn hpositive
  | mul fs =>
    have hfs := ((hereditary_smooth σ).mul fs).mp h
    have hnone : Forall₂ (HasValue σ) [] [] := .nil
    have hrule := productRule_hasValue hnone
      (hasValue_fst_dualValues fun f hf => (hfs f hf).regular_at) (derivatives_hasValue fs hfs hr)
    rwa [prod_nil, one_mul, ← derivative_mul] at hrule
  | add ts =>
    have hsum : (dualValues (dualSymbols σ d) ts).sum.snd =
        ((dualValues (dualSymbols σ d) ts).map snd).sum := map_list_sum (sndHom Rat Rat) _
    rw [derivative_add, dualValue, hsum]
    exact .sum (derivatives_hasValue ts (((hereditary_smooth σ).add ts).mp h) hr)

theorem derivatives_hasValue (es : List Expr) (h : ∀ e ∈ es, Smooth σ e)
    (hr : ∀ s ∈ symbolLists es, HasValue σ (r s) (d s)) :
    Forall₂ (HasValue σ) (es.map (derivative r)) ((dualValues (dualSymbols σ d) es).map snd) := by
  cases es with
  | nil => exact .nil
  | cons e es =>
    rw [forall_mem_cons] at h
    rw [symbolLists, forall_mem_append] at hr
    exact .cons (derivative_hasValue e h.1 hr.1) (derivatives_hasValue es h.2 hr.2)

end

theorem smooth_productRule {before fs ds : List Expr} (hbefore : ∀ e ∈ before, Smooth σ e)
    (hfs : ∀ f ∈ fs, Smooth σ f) (hds : ∀ d ∈ ds, Smooth σ d) :
    ∀ t ∈ productRule before fs ds, Smooth σ t := by
  induction fs generalizing before ds with
  | nil => exact forall_mem_nil _
  | cons f fs ih =>
    cases ds with
    | nil => exact forall_mem_nil _
    | cons d ds =>
      rw [forall_mem_cons] at hfs hds
      have hrest := ih (forall_mem_append.mpr ⟨hbefore, forall_mem_singleton.mpr hfs.1⟩)
        hfs.2 hds.2
      rw [productRule]
      split
      · exact hrest
      · refine forall_mem_cons.mpr ⟨smooth_product ?_, hrest⟩
        exact forall_mem_append.mpr ⟨hbefore, forall_mem_cons.mpr ⟨hds.1, hfs.2⟩⟩

theorem smooth_derivative (he : Regular ∅ e) (h : e.DefinedFrom 2 σ)
    (hr : ∀ s ∈ e.symbolList, Smooth σ (r s)) : Smooth σ (e.derivative r) := by
  have hsmooth {e : Expr} (he : Regular ∅ e) (h : e.DefinedFrom 2 σ) : Smooth σ e :=
    ⟨he, h.mono (by decide) e⟩
  have hP := hereditary_smooth σ
  induction e using Expr.induction with
  | num q => exact hP.num 0
  | sym s => exact hr s (by simp [symbolList])
  | fn f a ih => exact he.elim
  | pow b e hb _ =>
    obtain ⟨hregular, hexponent, -⟩ := regular_pow_iff.mp he
    have hdb := hb hregular h.1 fun s hs => hr s (by simp [symbolList, hs])
    have hsum : Smooth σ (sum [e, integer (-1)]) := by
      refine hP.sum ?_
      simpa using ⟨hsmooth (hexponent.regular.mono (Set.empty_subset _)) h.2.1, hP.num (-1)⟩
    have hpow : Smooth σ (pow b (sum [e, integer (-1)])) := by
      refine ⟨regular_pow_iff.mpr ⟨hregular, .sum ?_, fun _ h => h.elim⟩,
        (hsmooth hregular h.1).definedFrom, hsum.definedFrom, fun hzero => ?_⟩
      · simpa using ⟨hexponent, isExponent_integer (-1)⟩
      · have htwo := h.2.2 hzero
        rw [value_sum]
        norm_num at htwo ⊢
        linarith
    rw [derivative_pow, derivative_of_symbolFree r e hexponent.symbolList, powerRule,
      if_pos isZero_zero]
    refine smooth_product ?_
    simpa using ⟨hsmooth (hexponent.regular.mono (Set.empty_subset _)) h.2.1, smooth_power hpow, hdb⟩
  | mul fs ih =>
    have hfs := ((hereditary_regular ∅).mul fs).mp he
    have hdefined := ((hereditary_definedFrom 2 σ).mul fs).mp h
    rw [derivative_mul]
    refine hP.sum (smooth_productRule (forall_mem_nil _)
      (fun f hf => hsmooth (hfs f hf) (hdefined f hf)) (forall_mem_map.mpr fun f hf => ?_))
    exact ih f hf (hfs f hf) (hdefined f hf) fun s hs => hr s (mem_symbolLists.mpr ⟨f, hf, hs⟩)
  | add ts ih =>
    have hts := ((hereditary_regular ∅).add ts).mp he
    have hdefined := ((hereditary_definedFrom 2 σ).add ts).mp h
    rw [derivative_add]
    refine hP.sum (forall_mem_map.mpr fun t ht => ?_)
    exact ih t ht (hts t ht) (hdefined t ht) fun s hs => hr s (mem_symbolLists.mpr ⟨t, ht, hs⟩)

end Derivative

/-- The derivative of an expression built in range is defined wherever the expression and the
derivatives of its symbols are, and it is the part that goes with `ε` when every symbol is moved by
its derivative. -/
theorem dualValue_eq_derivative {e : Expr} (h : RationalFragment e) (hbuilt : Built True e)
    {r : String → Expr} {σ : Valuation} (hσ : e.Defined σ)
    (hr : ∀ s ∈ e.symbolList, RationalFragment (r s) ∧ (r s).Defined σ) :
    (e.derivative r).Defined σ ∧
      e.dualValue (fun s => inl (σ s) + (r s).value σ • ε) =
        inl (e.value σ) + (e.derivative r).value σ • ε := by
  have hderivative : HasValue σ (e.derivative r)
      (e.dualValue (dualSymbols σ fun s => (r s).value σ)).snd :=
    derivative_hasValue e ⟨h.regular, (hbuilt.tidy.definedFrom (h.regular_of_defined hσ)).mono
      (by decide) e⟩ fun s hs => ((hr s hs).1.regular_of_defined (hr s hs).2).hasValue
  have hsymbols : (fun s => inl (σ s) + (r s).value σ • ε) =
      dualSymbols σ fun s => (r s).value σ := rfl
  refine ⟨hderivative.defined, TrivSqZeroExt.ext ?_ ?_⟩
  · rw [hsymbols, fst_dualValue_dualSymbols]
    simp
  · rw [hsymbols, hderivative.value_eq]
    simp

theorem dualValue_eq_derivative_reciprocal :
    let e := pow (add [sym "x", num 1]) (integer (-2))
    let r (s : String) := if s = "x" then product [sym "x", sym "y"] else zero
    let σ : Valuation := fun s => if s = "x" then 1 else 3
    (RationalFragment e ∧ Built True e ∧ e.Defined σ) ∧ (e.derivative r).Defined σ ∧
      e.value σ = 1 / 4 ∧ (e.derivative r).value σ = -3 / 4 := by
  intro e r σ
  have he : power (sum [sym "x", num 1]) (integer (-2)) = e := by cbv
  have hfragment : RationalFragment e :=
    he ▸ .power (-2) (.sum (by simpa using ⟨.sym "x", .num 1⟩))
  have hsum : Built True (sum [sym "x", num 1]) :=
    .sum (by simpa using ⟨.sym "x", .num (by decide)⟩) (by decide_cbv)
  have hbuilt : Built True e :=
    he ▸ .power hsum (.num (by decide)) (fun _ => rfl) (.plain (by cbv))
  have hproduct : HasValue σ (product [sym "x", sym "y"]) 3 := by
    have := HasValue.product (σ := σ) (.cons (.sym "x") (.cons (.sym "y") .nil))
    norm_num [σ] at this
    exact this
  have hr (s : String) : RationalFragment (r s) ∧ (r s).Defined σ := by
    by_cases hs : s = "x"
    · simp only [r, if_pos hs]
      exact ⟨.product (by simpa using ⟨.sym "x", .sym "y"⟩), hproduct.defined⟩
    · simp only [r, if_neg hs]
      exact ⟨.num 0, trivial⟩
  have hσ : e.Defined σ := by
    norm_num [e, σ, Defined, AllDefined, integer]
  obtain ⟨hdefined, hvalue⟩ := dualValue_eq_derivative hfragment hbuilt hσ fun s _ => hr s
  refine ⟨⟨hfragment, hbuilt, hσ⟩, hdefined, by norm_num [e, σ], ?_⟩
  have hdual : (e.dualValue fun s => inl (σ s) + (r s).value σ • ε).snd = -3 / 4 := by
    norm_num [e, r, σ, integer, dualValue, dualValues, snd_dualPower, hproduct.value_eq]
  rw [hvalue] at hdual
  simpa using hdual

/-! Rational expressions as fractions of polynomials in their symbols. To differentiate an
expression is to apply to its fraction the derivation that the rule for the symbols gives, so that
rules which commute at the symbols commute at every expression. -/

variable {a : Expr}

open MvPolynomial

mutual

theorem value_congr {σ τ : Valuation} (e : Expr) (h : ∀ s ∈ e.symbolList, σ s = τ s) :
    e.value σ = e.value τ := by
  cases e with
  | num q => rfl
  | sym s => exact h s (by simp [symbolList])
  | fn f a => rfl
  | pow b e =>
    rw [symbolList, forall_mem_append] at h
    rw [value, value, value_congr b h.1, value_congr e h.2]
  | mul fs | add fs => rw [value, value, values_congr fs h]

theorem values_congr {σ τ : Valuation} (es : List Expr) (h : ∀ s ∈ symbolLists es, σ s = τ s) :
    values σ es = values τ es := by
  cases es with
  | nil => rfl
  | cons e es =>
    rw [symbolLists, forall_mem_append] at h
    rw [values, values, value_congr e h.1, values_congr es h.2]

end

theorem IsExponent.exists_value {e : Expr} (h : IsExponent e) : ∃ n : Int, ∀ σ, e.value σ = n := by
  obtain ⟨n, hn⟩ := h.integer fun _ => 0
  refine ⟨n, fun σ => (value_congr e ?_).trans hn⟩
  rw [h.symbolList]
  exact forall_mem_nil _

abbrev Polynomial := MvPolynomial String Rat

/-- A numerator and a denominator, in the given symbols, of a value over the dual numbers that is
there where the denominator does not vanish. -/
structure IsFraction (symbols : List String) (there : Valuation → Prop)
    (value : (String → Rat[ε]) → Rat[ε]) (P Q : Polynomial) : Prop where
  numerator : P ∈ supported Rat {s | s ∈ symbols}
  denominator : Q ∈ supported Rat {s | s ∈ symbols}
  there_iff : ∀ σ, there σ ↔ eval σ Q ≠ 0
  value_mul : ∀ δ, there (fun s => (δ s).fst) → value δ * aeval δ Q = aeval δ P

theorem fst_aeval (δ : String → Rat[ε]) (P : Polynomial) :
    (aeval δ P).fst = eval (fun s => (δ s).fst) P := by
  have h := comp_aeval_apply δ (fstHom Rat Rat Rat) P
  rw [fstHom_apply] at h
  rw [h]
  exact congrFun (congrArg DFunLike.coe (coe_aeval_eq_eval fun s => (δ s).fst)) P

namespace IsFraction

variable {symbols symbols' : List String} {there there' : Valuation → Prop}
  {v v' : (String → Rat[ε]) → Rat[ε]} {P P' Q Q' : Polynomial}

theorem mono (h : IsFraction symbols there v P Q) (hsymbols : symbols ⊆ symbols') :
    IsFraction symbols' there v P Q where
  numerator := supported_mono hsymbols h.numerator
  denominator := supported_mono hsymbols h.denominator
  there_iff := h.there_iff
  value_mul := h.value_mul

section

variable (h : IsFraction symbols there v P Q) (h' : IsFraction symbols' there' v' P' Q')
include h h'

theorem mul :
    IsFraction (symbols ++ symbols') (fun σ => there σ ∧ there' σ) (fun δ => v δ * v' δ)
      (P * P') (Q * Q') := by
  have h := h.mono (subset_append_left symbols symbols')
  have h' := h'.mono (subset_append_right symbols symbols')
  refine ⟨mul_mem h.numerator h'.numerator, mul_mem h.denominator h'.denominator, fun σ => ?_,
    fun δ hδ => ?_⟩
  · rw [map_mul, mul_ne_zero_iff, h.there_iff, h'.there_iff]
  · rw [map_mul, map_mul, ← h.value_mul δ hδ.1, ← h'.value_mul δ hδ.2, mul_mul_mul_comm]

theorem add :
    IsFraction (symbols ++ symbols') (fun σ => there σ ∧ there' σ) (fun δ => v δ + v' δ)
      (P * Q' + P' * Q) (Q * Q') := by
  have h := h.mono (subset_append_left symbols symbols')
  have h' := h'.mono (subset_append_right symbols symbols')
  refine ⟨add_mem (mul_mem h.numerator h'.denominator) (mul_mem h'.numerator h.denominator),
    mul_mem h.denominator h'.denominator, fun σ => ?_, fun δ hδ => ?_⟩
  · rw [map_mul, mul_ne_zero_iff, h.there_iff, h'.there_iff]
  · rw [map_add, map_mul, map_mul, map_mul, ← h.value_mul δ hδ.1, ← h'.value_mul δ hδ.2]
    ring

theorem restrict :
    IsFraction (symbols ++ symbols') (fun σ => there σ ∧ there' σ) v (P * Q') (Q * Q') := by
  have hone : IsFraction symbols' there' (fun _ => 1) Q' Q' :=
    ⟨h'.denominator, h'.denominator, h'.there_iff, fun _ _ => one_mul _⟩
  simpa only [mul_one] using h.mul hone

end

theorem fst_value_mul (h : IsFraction symbols there v P Q) {w : Valuation → Rat}
    (hw : ∀ δ, (v δ).fst = w fun s => (δ s).fst) {σ : Valuation} (hσ : there σ) :
    w σ * eval σ Q = eval σ P := by
  have hvalue := congrArg fst (h.value_mul (fun s => inl (σ s)) hσ)
  rwa [fst_mul, hw, fst_aeval, fst_aeval] at hvalue

theorem power (h : IsFraction symbols there v P Q) {w : Valuation → Rat}
    (hw : ∀ δ, (v δ).fst = w fun s => (δ s).fst) (k : Nat) (n : Int) :
    ∃ P' Q', IsFraction symbols (fun σ => there σ ∧ (w σ = 0 → k ≤ n))
      (fun δ => dualPower (v δ) n) P' Q' := by
  -- a common factor that vanishes wherever the power is not there
  obtain ⟨U, hU, hthere⟩ : ∃ U ∈ supported Rat {s | s ∈ symbols}, ∀ σ,
      (there σ ∧ (w σ = 0 → k ≤ n) ↔ eval σ U ≠ 0) := by
    by_cases hkn : k ≤ n
    · exact ⟨Q, h.denominator, fun σ => by simpa [hkn] using h.there_iff σ⟩
    · refine ⟨P * Q, mul_mem h.numerator h.denominator, fun σ => ?_⟩
      have hzero (hσ : there σ) : w σ = 0 ↔ eval σ P = 0 := by
        rw [← h.fst_value_mul hw hσ, mul_eq_zero, or_iff_left ((h.there_iff σ).mp hσ)]
      rw [map_mul, mul_ne_zero_iff, and_comm, ← h.there_iff σ]
      refine and_congr_left fun hσ => ?_
      rw [hzero hσ, imp_iff_not hkn]
  have hbase {σ : Valuation} (hσ : eval σ U ≠ 0) : eval σ Q ≠ 0 :=
    (h.there_iff σ).mp ((hthere σ).mpr hσ).1
  cases n with
  | ofNat m =>
    refine ⟨P ^ m * U, Q ^ m * U, mul_mem (pow_mem h.numerator m) hU,
      mul_mem (pow_mem h.denominator m) hU, fun σ => ?_, fun δ hδ => ?_⟩
    · rw [hthere, map_mul, map_pow, mul_ne_zero_iff]
      exact ⟨fun hσ => ⟨pow_ne_zero m (hbase hσ), hσ⟩, And.right⟩
    · rw [map_mul, map_mul, map_pow, map_pow, ← h.value_mul δ hδ.1, mul_pow, mul_assoc]
      rfl
  | negSucc m =>
    have hvalue {σ : Valuation} (hσ : there σ ∧ (w σ = 0 → (k : Int) ≤ .negSucc m)) : w σ ≠ 0 := by
      intro hzero
      have := hσ.2 hzero
      omega
    refine ⟨Q ^ (m + 1) * U, P ^ (m + 1) * U, mul_mem (pow_mem h.denominator _) hU,
      mul_mem (pow_mem h.numerator _) hU, fun σ => ?_, fun δ hδ => ?_⟩
    · rw [hthere, map_mul, map_pow, mul_ne_zero_iff]
      refine ⟨fun hσ => ⟨pow_ne_zero _ ?_, hσ⟩, And.right⟩
      have hthere' := (hthere σ).mpr hσ
      rw [← h.fst_value_mul hw hthere'.1]
      exact mul_ne_zero (hvalue hthere') (hbase hσ)
    · have hinverse : (v δ)⁻¹ * v δ = 1 := TrivSqZeroExt.inv_mul_cancel (by rw [hw]; exact hvalue hδ)
      rw [map_mul, map_mul, map_pow, map_pow, ← h.value_mul δ hδ.1, dualPower, ← mul_assoc,
        ← mul_pow, ← mul_assoc, hinverse, one_mul]

end IsFraction

mutual

theorem exists_isFraction (k : Nat) (e : Expr) (h : Regular ∅ e) :
    ∃ P Q, IsFraction e.symbolList (fun σ => e.DefinedFrom k σ) (fun δ => e.dualValue δ) P Q := by
  cases e with
  | num q =>
    refine ⟨C q, 1, Subalgebra.algebraMap_mem _ q, one_mem _, fun σ => ?_, fun δ _ => ?_⟩
    · simp [DefinedFrom]
    · rw [map_one, mul_one, aeval_C]
      rfl
  | sym s =>
    refine ⟨X s, 1, X_mem_supported.mpr (mem_singleton_self s), one_mem _, fun σ => ?_,
      fun δ _ => ?_⟩
    · simp [DefinedFrom]
    · rw [map_one, mul_one, aeval_X]
      rfl
  | fn f a => exact h.elim
  | pow b e =>
    obtain ⟨hb, he, -⟩ := regular_pow_iff.mp h
    obtain ⟨n, hn⟩ := he.exists_value
    obtain ⟨P, Q, hbase⟩ := exists_isFraction k b hb
    obtain ⟨P', Q', hpower⟩ := hbase.power (w := fun σ => b.value σ) (fun δ => fst_dualValue δ b) k n
    obtain ⟨_, _, hexponent⟩ := exists_isFraction k e (he.regular.mono (Set.empty_subset _))
    have hrestricted := hpower.restrict hexponent
    refine ⟨_, _, hrestricted.numerator, hrestricted.denominator, fun σ => ?_, fun δ hδ => ?_⟩
    · rw [← hrestricted.there_iff, DefinedFrom, hn, and_assoc, and_comm (a := DefinedFrom k σ e)]
      norm_cast
    · rw [DefinedFrom, hn] at hδ
      rw [dualValue, fst_dualValue, hn, Rat.num_intCast]
      exact hrestricted.value_mul δ ⟨⟨hδ.1, by exact_mod_cast hδ.2.2⟩, hδ.2.1⟩
  | mul fs => exact (exists_isFraction_list k fs (((hereditary_regular _).mul fs).mp h)).1
  | add ts => exact (exists_isFraction_list k ts (((hereditary_regular _).add ts).mp h)).2

theorem exists_isFraction_list (k : Nat) (es : List Expr) (h : ∀ e ∈ es, Regular ∅ e) :
    (∃ P Q, IsFraction (symbolLists es) (fun σ => AllDefinedFrom k σ es)
      (fun δ => (dualValues δ es).prod) P Q) ∧
    ∃ P Q, IsFraction (symbolLists es) (fun σ => AllDefinedFrom k σ es)
      (fun δ => (dualValues δ es).sum) P Q := by
  cases es with
  | nil =>
    constructor
    · refine ⟨1, 1, one_mem _, one_mem _, fun σ => ?_, fun δ _ => ?_⟩
      · simp [AllDefinedFrom]
      · simp [dualValues]
    · refine ⟨0, 1, zero_mem _, one_mem _, fun σ => ?_, fun δ _ => ?_⟩
      · simp [AllDefinedFrom]
      · simp [dualValues]
  | cons e es =>
    rw [forall_mem_cons] at h
    obtain ⟨P, Q, he⟩ := exists_isFraction k e h.1
    obtain ⟨⟨P', Q', hproduct⟩, P'', Q'', hsum⟩ := exists_isFraction_list k es h.2
    exact ⟨⟨_, _, he.mul hproduct⟩, _, _, he.add hsum⟩

end

/-- A fraction of an expression, where no base that is 0 has an exponent below `k`. -/
def HasFraction (k : Nat) (e : Expr) (P Q : Polynomial) : Prop :=
  IsFraction e.symbolList (fun σ => e.DefinedFrom k σ) (fun δ => e.dualValue δ) P Q

section Derivation

variable {k : Nat} {p p' : String → Polynomial} {r r' : String → Expr} {A B G N P Q S : Polynomial}

theorem HasFraction.value_mul (h : e.HasFraction k P Q) (hσ : e.DefinedFrom k σ) :
    e.value σ * eval σ Q = eval σ P :=
  IsFraction.fst_value_mul (w := fun σ => e.value σ) h (fun δ => fst_dualValue δ e) hσ

theorem eq_of_eval (hS : S ≠ 0) (h : ∀ σ, eval σ S ≠ 0 → eval σ P = eval σ Q) : P = Q := by
  have hzero : (P - Q) * S = 0 := by
    refine MvPolynomial.funext fun σ => ?_
    by_cases hσ : eval σ S = 0
    · rw [map_mul, hσ, mul_zero, map_zero]
    · rw [map_mul, map_sub, h σ hσ, sub_self, zero_mul, map_zero]
  exact sub_eq_zero.mp ((mul_eq_zero.mp hzero).resolve_right hS)

theorem exists_eval_ne_zero (h : P ≠ 0) : ∃ σ, eval σ P ≠ 0 := by
  by_contra hall
  push Not at hall
  exact h (MvPolynomial.funext fun σ => (hall σ).trans (map_zero _).symm)

theorem snd_aeval (p : String → Polynomial) (σ : Valuation) (P : Polynomial) :
    (aeval (dualSymbols σ fun s => eval σ (p s)) P).snd = eval σ (mkDerivation Rat p P) := by
  induction P using MvPolynomial.induction_on with
  | C a =>
    rw [aeval_C, derivation_C, map_zero]
    rfl
  | add P Q hP hQ => rw [map_add, snd_add, hP, hQ, map_add, map_add]
  | mul_X P s hP =>
    have hfst : (aeval (dualSymbols σ fun s => eval σ (p s)) P).fst = eval σ P := by
      rw [fst_aeval]
      congr 2
      funext s
      simp [dualSymbols]
    rw [map_mul, DualNumber.snd_mul, hP, hfst, aeval_X, Derivation.leibniz, mkDerivation_X]
    simp [dualSymbols]
    ring

theorem HasFraction.derivative (h : e.HasFraction 1 P Q) (he : Regular ∅ e)
    (hσ : e.DefinedFrom 1 σ) (hr : ∀ s, HasValue σ (r s) (eval σ (p s))) :
    ∃ q, HasValue σ (e.derivative r) q ∧ q * eval σ (Q ^ 2) =
      eval σ (mkDerivation Rat p P * Q - P * mkDerivation Rat p Q) := by
  have hfst : (fun s => (dualSymbols σ (fun s => eval σ (p s)) s).fst) = σ := by
    funext s
    simp [dualSymbols]
  have hdual := IsFraction.value_mul h (dualSymbols σ fun s => eval σ (p s)) (by rwa [hfst])
  have hsnd := congrArg snd hdual
  rw [DualNumber.snd_mul, snd_aeval, snd_aeval, fst_aeval, hfst, fst_dualValue_dualSymbols] at hsnd
  refine ⟨_, derivative_hasValue e ⟨he, hσ⟩ fun s _ => hr s, ?_⟩
  rw [map_sub, map_mul, map_mul, map_pow, ← h.value_mul hσ, ← hsnd]
  ring

theorem quotient_rule_congr (D : Derivation Rat Polynomial Polynomial) (h : A * G = N * B) :
    (D A * B - A * D B) * G ^ 2 = (D N * G - N * D G) * B ^ 2 := by
  have hderivative : A * D G + G * D A = N * D B + B * D N := by
    have := congrArg D h
    rwa [D.leibniz, D.leibniz, smul_eq_mul, smul_eq_mul, smul_eq_mul, smul_eq_mul] at this
  linear_combination (B * G) * hderivative - (G * D B + B * D G) * h

noncomputable def secondNumerator (D D' : Derivation Rat Polynomial Polynomial) (P Q : Polynomial) : Polynomial :=
  D' (D P * Q - P * D Q) * Q ^ 2 - (D P * Q - P * D Q) * D' (Q ^ 2)

theorem secondNumerator_comm {D D' : Derivation Rat Polynomial Polynomial}
    (hP : D' (D P) = D (D' P)) (hQ : D' (D Q) = D (D' Q)) :
    secondNumerator D D' P Q = secondNumerator D' D P Q := by
  unfold secondNumerator
  simp only [map_sub, Derivation.leibniz, Derivation.leibniz_pow, smul_eq_mul, nsmul_eq_mul, hP, hQ]
  ring

theorem HasFraction.second (h : e.HasFraction 1 P Q) (he : Regular ∅ e)
    (hr : ∀ s σ, HasValue σ (r s) (eval σ (p s))) (hr' : ∀ s σ, HasValue σ (r' s) (eval σ (p' s)))
    (hQ : Q ≠ 0) (hfirst : ∃ σ, (e.derivative r).DefinedFrom 1 σ) :
    ∃ S, S ≠ 0 ∧ ∀ σ, eval σ S ≠ 0 → ∃ q, HasValue σ ((e.derivative r).derivative r') q ∧
      q * eval σ (Q ^ 4) =
        eval σ (secondNumerator (mkDerivation Rat p) (mkDerivation Rat p') P Q) := by
  have hregular : Regular ∅ (e.derivative r) := by
    obtain ⟨σ, hσ⟩ := exists_eval_ne_zero hQ
    obtain ⟨q, hq, -⟩ := h.derivative he ((h.there_iff σ).mpr hσ) fun s => hr s σ
    exact hq.regular.mono (Set.empty_subset _)
  obtain ⟨A, B, hAB⟩ := exists_isFraction 1 (e.derivative r) hregular
  have hAB : (e.derivative r).HasFraction 1 A B := hAB
  have hB : B ≠ 0 := by
    obtain ⟨σ, hσ⟩ := hfirst
    rintro rfl
    exact (hAB.there_iff σ).mp hσ (map_zero _)
  have hsame : A * Q ^ 2 =
      (mkDerivation Rat p P * Q - P * mkDerivation Rat p Q) * B := by
    refine eq_of_eval (mul_ne_zero hQ hB) fun σ hσ => ?_
    rw [map_mul, mul_ne_zero_iff] at hσ
    obtain ⟨q, hq, hvalue⟩ := h.derivative he ((h.there_iff σ).mpr hσ.1) fun s => hr s σ
    have hquotient := hAB.value_mul ((hAB.there_iff σ).mpr hσ.2)
    rw [hq.value_eq] at hquotient
    rw [map_mul, map_mul, ← hvalue, ← hquotient]
    ring
  refine ⟨B, hB, fun σ hσ => ?_⟩
  obtain ⟨q, hq, hvalue⟩ := hAB.derivative hregular ((hAB.there_iff σ).mpr hσ) fun s => hr' s σ
  refine ⟨q, hq, ?_⟩
  have hcongr := congrArg (eval σ) (quotient_rule_congr (mkDerivation Rat p') hsame)
  rw [map_mul, map_mul, ← hvalue] at hcongr
  have hpower : eval σ (B ^ 2) ≠ 0 := by
    rw [map_pow]
    exact pow_ne_zero 2 hσ
  refine mul_right_cancel₀ hpower ?_
  unfold secondNumerator
  rw [← hcongr, map_pow, map_pow, map_pow, map_pow]
  ring

theorem derivations_comm {symbols : List String}
    (hcomm : ∀ s ∈ symbols, mkDerivation Rat p' (p s) = mkDerivation Rat p (p' s))
    (hP : P ∈ supported Rat {s | s ∈ symbols}) :
    mkDerivation Rat p' (mkDerivation Rat p P) = mkDerivation Rat p (mkDerivation Rat p' P) := by
  -- the difference of the two orders is itself a derivation, and it vanishes at the symbols
  have hbracket : ⁅mkDerivation Rat p', mkDerivation Rat p⁆ P =
      (0 : Derivation Rat Polynomial Polynomial) P := by
    refine derivation_eq_of_forall_mem_vars fun s hs => ?_
    rw [Derivation.commutator_apply, mkDerivation_X, mkDerivation_X,
      hcomm s (mem_supported.mp hP hs), sub_self, Derivation.zero_apply]
  rw [Derivation.commutator_apply, Derivation.zero_apply] at hbracket
  exact sub_eq_zero.mp hbracket

/-- Expressions that have the same value at almost all valuations have it wherever both are
defined. -/
theorem value_eq_of_almost {f g : Expr} (hS : S ≠ 0)
    (h : ∀ σ, eval σ S ≠ 0 → ∃ q, HasValue σ f q ∧ HasValue σ g q) (hf : f.Defined σ)
    (hg : g.Defined σ) : f.value σ = g.value σ := by
  rw [← definedFrom_zero_iff] at hf hg
  obtain ⟨τ, hτ⟩ := exists_eval_ne_zero hS
  obtain ⟨q, hfτ, hgτ⟩ := h τ hτ
  obtain ⟨A, B, hAB⟩ := exists_isFraction 0 f (hfτ.regular.mono (Set.empty_subset _))
  obtain ⟨P, Q, hPQ⟩ := exists_isFraction 0 g (hgτ.regular.mono (Set.empty_subset _))
  have hAB : f.HasFraction 0 A B := hAB
  have hPQ : g.HasFraction 0 P Q := hPQ
  have hsame : A * Q = P * B := by
    refine eq_of_eval hS fun τ hτ => ?_
    obtain ⟨q, hfτ, hgτ⟩ := h τ hτ
    rw [map_mul, map_mul, ← hAB.value_mul ((definedFrom_zero_iff f).mpr hfτ.defined),
      ← hPQ.value_mul ((definedFrom_zero_iff g).mpr hgτ.defined), hfτ.value_eq, hgτ.value_eq]
    ring
  have hB := (hAB.there_iff σ).mp hf
  have hQ := (hPQ.there_iff σ).mp hg
  have hvalue := congrArg (eval σ) hsame
  rw [map_mul, map_mul, ← hAB.value_mul hf, ← hPQ.value_mul hg,
    mul_assoc, mul_assoc, mul_comm (eval σ Q)] at hvalue
  exact mul_right_cancel₀ (mul_ne_zero hB hQ) hvalue

inductive IsAtom : Expr → Prop
  | num (q : Number) : IsAtom (num q)
  | sym (s : String) : IsAtom (sym s)

noncomputable def atomPolynomial : Expr → Polynomial
  | num q => C q
  | sym s => X s
  | _ => 0

theorem IsAtom.hasValue (h : a.IsAtom) (σ : Valuation) :
    HasValue σ a (eval σ a.atomPolynomial) := by
  cases h with
  | num q => exact ⟨trivial, (eval_C q).symm⟩
  | sym s => exact ⟨trivial, (eval_X s).symm⟩

theorem IsAtom.smooth (h : a.IsAtom) (σ : Valuation) : Smooth σ a := by
  cases h with
  | num _ | sym _ => exact ⟨trivial, trivial⟩

theorem IsAtom.derivation (h : a.IsAtom) (r : String → Expr) :
    mkDerivation Rat (fun s => (r s).atomPolynomial) a.atomPolynomial =
      (a.derivative r).atomPolynomial := by
  cases h with
  | num q => exact (derivation_C _ q).trans C_0.symm
  | sym s => exact mkDerivation_X ..

/-- Two rules that give atoms and commute at the symbols of an expression give it mixed derivatives
of the same value wherever both are defined, provided that the expression is defined somewhere. -/
theorem mixed_derivatives_agree (he : Regular ∅ e) (hdefined : ∃ σ, e.DefinedFrom 2 σ)
    (hr : ∀ s, (r s).IsAtom) (hr' : ∀ s, (r' s).IsAtom)
    (hcomm : ∀ s ∈ e.symbolList, (r s).derivative r' = (r' s).derivative r)
    (hσ : ((e.derivative r).derivative r').Defined σ)
    (hσ' : ((e.derivative r').derivative r).Defined σ) :
    ((e.derivative r).derivative r').value σ = ((e.derivative r').derivative r).value σ := by
  obtain ⟨P, Q, hPQ⟩ := exists_isFraction 1 e he
  have hPQ : e.HasFraction 1 P Q := hPQ
  obtain ⟨τ, hτ⟩ := hdefined
  have hQ : Q ≠ 0 := by
    rintro rfl
    exact (hPQ.there_iff τ).mp (hτ.mono (by decide) e) (map_zero _)
  have hvalue (s : String) (σ : Valuation) := (hr s).hasValue σ
  have hvalue' (s : String) (σ : Valuation) := (hr' s).hasValue σ
  obtain ⟨S, hS, hsecond⟩ := hPQ.second he hvalue hvalue' hQ
    ⟨τ, (smooth_derivative he hτ fun s _ => (hr s).smooth τ).definedFrom⟩
  obtain ⟨S', hS', hsecond'⟩ := hPQ.second he hvalue' hvalue hQ
    ⟨τ, (smooth_derivative he hτ fun s _ => (hr' s).smooth τ).definedFrom⟩
  have hbracket : ∀ s ∈ e.symbolList,
      mkDerivation Rat (fun s => (r' s).atomPolynomial) (r s).atomPolynomial =
        mkDerivation Rat (fun s => (r s).atomPolynomial) (r' s).atomPolynomial := by
    intro s hs
    rw [(hr s).derivation, (hr' s).derivation, hcomm s hs]
  refine value_eq_of_almost (mul_ne_zero hQ (mul_ne_zero hS hS')) (fun τ hτ => ?_) hσ hσ'
  rw [map_mul, map_mul, mul_ne_zero_iff, mul_ne_zero_iff] at hτ
  obtain ⟨q, hq, hfourth⟩ := hsecond τ hτ.2.1
  obtain ⟨q', hq', hfourth'⟩ := hsecond' τ hτ.2.2
  rw [secondNumerator_comm (derivations_comm hbracket hPQ.numerator)
    (derivations_comm hbracket hPQ.denominator), ← hfourth', map_pow] at hfourth
  obtain rfl := mul_right_cancel₀ (pow_ne_zero 4 hτ.1) hfourth
  exact ⟨q, hq, hq'⟩

end Derivation

end Expr

end TensorCalculus
