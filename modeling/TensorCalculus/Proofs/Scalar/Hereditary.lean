import TensorCalculus.Proofs.Scalar.Exact
import TensorCalculus.Scalar.Derivative

/-! Simplification ends. -/
namespace TensorCalculus

namespace Expr

/-- Products and powers call each other on operands that may grow. The nesting of the calls is
bounded all the same, a higher bound makes no difference, and what is returned weighs no more than
the operands. Sums and functions make no such calls. -/
theorem simplification_terminates :
    (∀ operands, ∃ n, (∀ m, n ≤ m → productIn m operands = some (product operands)) ∧
      (product operands).weight ≤ totalProduct weight operands) ∧
    ∀ base exponent, ∃ n, (∀ m, n ≤ m → powerIn m base exponent = some (power base exponent)) ∧
      (power base exponent).weight ≤ base.weight ^ exponent.weight := by
  refine ⟨fun operands => ?_, fun base exponent => ?_⟩
  · obtain ⟨n, r, hr, hfits⟩ := product_halts operands
    rw [product_of_productIn hr]
    exact ⟨n, fun m hm => productIn_mono hm hr, hfits.weight_le⟩
  · obtain ⟨n, r, hr, hfits⟩ := power_halts base exponent
    rw [power_of_powerIn hr]
    exact ⟨n, fun m hm => powerIn_mono hm hr, hfits.weight_le⟩

end Expr

/-! Properties of expressions that pass from the parts to the whole. They hold of a
simplified sum, product or power as soon as they hold of the operands. -/

variable {operands es : List Expr} {e r a b exponent base : Expr} {powers ts fs : List Expr}

open List

namespace Expr

theorem induction {P : Expr → Prop} (num : ∀ q, P (num q)) (sym : ∀ s, P (sym s))
    (fn : ∀ f a, P a → P (fn f a)) (pow : ∀ b e, P b → P e → P (pow b e))
    (mul : ∀ fs, (∀ f ∈ fs, P f) → P (mul fs)) (add : ∀ ts, (∀ t ∈ ts, P t) → P (add ts)) :
    ∀ e, P e := by
  intro e
  refine @Expr.rec P (fun es => ∀ e ∈ es, P e) num sym fn pow mul add (by simp) ?_ e
  intro e es he hes
  rw [forall_mem_cons]
  exact ⟨he, hes⟩

section Steps

variable {power : Expr → Expr → Option Expr} {product : List Expr → Option Expr}

theorem productStep_cases (h : productStep power product operands = some r) :
    ((factorLists operands).any isZero ∧ r = zero) ∨
    ∃ powers, Pointwise (fun g p => power g.1 (sum g.2) = some p) (baseGroups operands) powers ∧
      let joined := join operands powers
      (joined.coefficient = 0 ∧ r = zero ∨
        product (joined.factors ++ [num joined.coefficient]) = some r ∨
        (∃ ts rs, joined.soleSum? = some ts ∧
          Pointwise (fun t p => product [num joined.coefficient, t] = some p) ts rs ∧
            r = sum rs) ∨
        r = mulNode joined.coefficient joined.factors) := by
  simp only [productStep, bind] at h
  split at h
  · next hz => exact .inl ⟨hz, (Option.some.inj h).symm⟩
  · obtain ⟨powers, hm, h⟩ := Option.bind_eq_some_iff.mp h
    refine .inr ⟨powers, pointwise_iff_mapM.mpr hm, ?_⟩
    split at h
    · next hq => exact .inl ⟨eq_of_beq hq, (Option.some.inj h).symm⟩
    · split at h
      · exact .inr (.inl h)
      · split at h
        · next ts hs =>
          obtain ⟨rs, hrs, h⟩ := Option.bind_eq_some_iff.mp h
          exact .inr (.inr (.inl
            ⟨ts, rs, hs, pointwise_iff_mapM.mpr hrs, (Option.some.inj h).symm⟩))
        · exact .inr (.inr (.inr (Option.some.inj h).symm))

theorem powerStep_cases (h : powerStep power product base exponent = some r) :
    (exponent.isZero ∧ r = one) ∨ (exponent.isOne ∧ r = base) ∨
    (∃ b, base = num b ∧ r = numberPower b exponent) ∨
    (∃ a p, base = fn .exp a ∧ product [a, exponent] = some p ∧ r = apply .exp p) ∨
    (∃ b e p, base = pow b e ∧ exponent.isInteger ∧ product [e, exponent] = some p ∧
      power b p = some r) ∨
    (∃ fs rs, base = mul fs ∧ exponent.isInteger ∧
      Pointwise (fun f p => power f exponent = some p) fs rs ∧ product rs = some r) ∨
    r = pow base exponent := by
  simp only [powerStep, bind] at h
  split at h
  · next h₀ => exact .inl ⟨h₀, (Option.some.inj h).symm⟩
  refine .inr ?_
  split at h
  · next h₁ => exact .inl ⟨h₁, (Option.some.inj h).symm⟩
  refine .inr ?_
  split at h
  · next b => exact .inl ⟨b, rfl, (Option.some.inj h).symm⟩
  · next a =>
    obtain ⟨p, hp, h⟩ := Option.bind_eq_some_iff.mp h
    exact .inr (.inl ⟨a, p, rfl, hp, (Option.some.inj h).symm⟩)
  · next b e =>
    split at h
    · next hn =>
      obtain ⟨p, hp, h⟩ := Option.bind_eq_some_iff.mp h
      exact .inr (.inr (.inl ⟨b, e, p, rfl, hn, hp, h⟩))
    · exact .inr (.inr (.inr (.inr (Option.some.inj h).symm)))
  · next fs =>
    split at h
    · next hn =>
      obtain ⟨rs, hrs, h⟩ := Option.bind_eq_some_iff.mp h
      exact .inr (.inr (.inr (.inl ⟨fs, rs, rfl, hn, pointwise_iff_mapM.mpr hrs, h⟩)))
    · exact .inr (.inr (.inr (.inr (Option.some.inj h).symm)))
  · exact .inr (.inr (.inr (.inr (Option.some.inj h).symm)))

end Steps

/-- Numbers have the property; products and sums have it exactly when all their parts do. -/
structure Hereditary (P : Expr → Prop) : Prop where
  num : ∀ q, P (num q)
  mul : ∀ fs, P (mul fs) ↔ ∀ f ∈ fs, P f
  add : ∀ ts, P (add ts) ↔ ∀ t ∈ ts, P t

namespace Hereditary

variable {P : Expr → Prop}

mutual

theorem of_mem_terms (hP : Hereditary P) {e : Expr} (h : P e) : ∀ t ∈ e.terms, P t := by
  cases e with
  | add ts => simpa only [terms] using hP.of_mem_termLists ((hP.add ts).mp h)
  | _ => simpa only [terms, mem_singleton, forall_eq] using h

theorem of_mem_termLists (hP : Hereditary P) {es : List Expr} (h : ∀ e ∈ es, P e) :
    ∀ t ∈ termLists es, P t := by
  cases es with
  | nil => simp [termLists]
  | cons e es =>
    intro t ht
    rw [termLists, mem_append] at ht
    cases ht with
    | inl ht => exact hP.of_mem_terms (h e (by simp)) t ht
    | inr ht => exact hP.of_mem_termLists (fun e he => h e (mem_cons_of_mem _ he)) t ht

end

mutual

theorem of_mem_factors (hP : Hereditary P) {e : Expr} (h : P e) : ∀ f ∈ e.factors, P f := by
  cases e with
  | mul fs => simpa only [factors] using hP.of_mem_factorLists ((hP.mul fs).mp h)
  | _ => simpa only [factors, mem_singleton, forall_eq] using h

theorem of_mem_factorLists (hP : Hereditary P) {es : List Expr} (h : ∀ e ∈ es, P e) :
    ∀ f ∈ factorLists es, P f := by
  cases es with
  | nil => simp [factorLists]
  | cons e es =>
    intro f hf
    rw [factorLists, mem_append] at hf
    cases hf with
    | inl hf => exact hP.of_mem_factors (h e (by simp)) f hf
    | inr hf => exact hP.of_mem_factorLists (fun e he => h e (mem_cons_of_mem _ he)) f hf

end

variable (hP : Hereditary P)
include hP

theorem splitCoefficient (h : P e) : P e.splitCoefficient.1 := by
  fun_cases Expr.splitCoefficient e with
  | case1 q => exact hP.num 1
  | case2 q e => exact (hP.mul _).mp h e (by simp)
  | case3 q fs => exact (hP.mul _).mpr fun f hf => (hP.mul _).mp h f (mem_cons_of_mem _ hf)
  | case4 => exact h

theorem scale (q : Number) (h : P e) : P (Expr.scale q e) := by
  unfold Expr.scale
  split
  · exact h
  · split
    · next fs =>
      rw [hP.mul, forall_mem_cons]
      exact ⟨hP.num q, (hP.mul fs).mp h⟩
    · next e _ =>
      rw [hP.mul, forall_mem_cons, forall_mem_singleton]
      exact ⟨hP.num q, h⟩

theorem of_mem_likeTerms {rest : Expr} (h : P rest) (qs : List Number) :
    ∀ t ∈ likeTerms rest qs, P t := by
  cases qs with
  | nil => simp [likeTerms]
  | cons q qs =>
    intro t ht
    rw [likeTerms, mem_append, mem_map] at ht
    rcases ht with ht | ⟨q', _, rfl⟩
    · split at ht
      · cases ht
      · rw [mem_singleton.mp ht]; exact hP.scale _ h
    · exact hP.scale q' h

theorem of_mem_constantTerms (qs : List Number) : ∀ t ∈ constantTerms qs, P t := by
  intro t ht
  rw [constantTerms, mem_append, mem_map] at ht
  rcases ht with ht | ⟨q, _, rfl⟩
  · split at ht
    · cases ht
    · rw [mem_singleton.mp ht]; exact hP.num _
  · exact hP.num q

theorem addNode (h : ∀ t ∈ ts, P t) : P (Expr.addNode ts) := by
  fun_cases Expr.addNode ts with
  | case1 => exact hP.num 0
  | case2 t => exact h t (by simp)
  | case3 => exact (hP.add _).mpr fun t ht => h t (mem_mergeSort.mp ht)

theorem sum (h : ∀ e ∈ es, P e) : P (Expr.sum es) := by
  apply hP.addNode
  intro t ht
  simp only [sumTerms, mem_append, mem_flatten, mem_map] at ht
  rcases ht with ⟨_, ⟨g, hg, rfl⟩, ht⟩ | ht
  · obtain ⟨q, hq⟩ := exists_mem_of_mem_collect hg
    obtain ⟨e, he, heq⟩ := mem_map.mp hq
    have hP' : P e := hP.of_mem_termLists h e (mem_reverse.mp (mem_of_mem_filter he))
    have hrest : P g.1 := by
      rw [← congrArg Prod.fst heq]
      exact hP.splitCoefficient hP'
    exact hP.of_mem_likeTerms hrest g.2 t ht
  · exact hP.of_mem_constantTerms _ t ht

theorem mulNode (q : Number) (h : ∀ f ∈ fs, P f) : P (Expr.mulNode q fs) := by
  have hsorted : ∀ f ∈ fs.mergeSort (fun a b => (factorCompare a b).isLE), P f :=
    fun f hf => h f (mem_mergeSort.mp hf)
  unfold Expr.mulNode
  split
  · exact hP.num q
  · next f =>
    split
    · exact h f (by simp)
    · rw [hP.mul, forall_mem_cons]
      exact ⟨hP.num q, h⟩
  · rw [hP.mul]
    split
    · exact hsorted
    · rw [forall_mem_cons]
      exact ⟨hP.num q, hsorted⟩

theorem of_mem_join (h : ∀ p ∈ powers, P p) : ∀ f ∈ (join operands powers).factors, P f := by
  intro f hf
  simp only [join, mem_append, mem_flatten, mem_map] at hf
  rcases hf with ⟨_, ⟨p, hp, rfl⟩, hf⟩ | ⟨q, _, rfl⟩
  · have hp' : P p := h p (mem_of_mem_filter hp)
    revert hf
    fun_cases outerFactors p with
    | case1 fs => exact (hP.mul fs).mp hp' f
    | case2 => intro hf; rwa [mem_singleton.mp hf]
  · exact hP.num q

theorem soleSum (h : ∀ p ∈ powers, P p) (hs : (join operands powers).soleSum? = some ts) :
    ∀ t ∈ ts, P t := by
  have hfactors := (Joined.soleSum?_eq_some hs).1
  have hadd : P (.add ts) := hP.of_mem_join h _ (hfactors ▸ mem_singleton_self _)
  exact (hP.add ts).mp hadd

theorem numberPower {b : Number} (h : P (pow (.num b) e)) : P (Expr.numberPower b e) := by
  unfold Expr.numberPower
  split
  · split
    · exact hP.num 1
    · split
      · exact hP.num _
      · split
        · exact hP.num 0
        · exact h
  · split
    · exact hP.num 1
    · exact h

theorem productStep {power : Expr → Expr → Option Expr} {product : List Expr → Option Expr}
    (hpower : ∀ b e r, power b e = some r → P (pow b e) → P r)
    (hproduct : ∀ es r, product es = some r → (∀ e ∈ es, P e) → P r)
    (hgroups : ∀ g ∈ baseGroups operands, P (pow g.1 (Expr.sum g.2)))
    (hr : productStep power product operands = some r) : P r := by
  rcases productStep_cases hr with ⟨_, rfl⟩ | ⟨powers, hpowers, hr⟩
  · exact hP.num 0
  have hp (p : Expr) (hp : p ∈ powers) : P p := by
    obtain ⟨g, hg, hgp⟩ := hpowers.exists_of_mem hp
    exact hpower _ _ _ hgp (hgroups g hg)
  rcases hr with ⟨_, rfl⟩ | hr | ⟨ts, rs, hs, hrs, rfl⟩ | rfl
  · exact hP.num 0
  · apply hproduct _ _ hr
    rw [forall_mem_append, forall_mem_singleton]
    exact ⟨hP.of_mem_join hp, hP.num _⟩
  · apply hP.sum
    intro r hr
    obtain ⟨t, ht, hrt⟩ := hrs.exists_of_mem hr
    apply hproduct _ _ hrt
    rw [forall_mem_cons, forall_mem_singleton]
    exact ⟨hP.num _, hP.soleSum hp hs t ht⟩
  · exact hP.mulNode _ (hP.of_mem_join hp)

end Hereditary

/-- A hereditary property that also does not tell a power or a function from its parts. -/
structure Structural (P : Expr → Prop) : Prop extends Hereditary P where
  fn : ∀ f a, P (fn f a) ↔ P a
  pow : ∀ b e, P (pow b e) ↔ P b ∧ P e

namespace Structural

variable {P : Expr → Prop} (hP : Structural P)
include hP

theorem baseGroups (h : ∀ e ∈ operands, P e) {g : Expr × List Expr}
    (hg : g ∈ Expr.baseGroups operands) : P g.1 ∧ ∀ e ∈ g.2, P e := by
  have hsplit (p : Expr × Expr) (hp : p ∈ (((factorLists operands).reverse.filter
      (!·.isNumber)).map splitPower)) : P p.1 ∧ P p.2 := by
    obtain ⟨f, hf, rfl⟩ := mem_map.mp hp
    have hf' : P f :=
      hP.of_mem_factorLists h f (mem_reverse.mp (mem_of_mem_filter hf))
    fun_cases splitPower f with
    | case1 b e => exact (hP.pow b e).mp hf'
    | case2 => exact ⟨hf', hP.num 1⟩
  obtain ⟨e, he⟩ := exists_mem_of_mem_collect hg
  exact ⟨(hsplit _ he).1, fun e he => (hsplit _ (mem_of_mem_collect hg he)).2⟩

theorem apply (f : Func) (h : P a) : P (Expr.apply f a) := by
  fun_cases Expr.apply f a <;> first
    | exact (hP.fn _ _).mpr h
    | exact (hP.fn _ _).mp h
    | exact hP.num _

section

variable {power : Expr → Expr → Option Expr} {product : List Expr → Option Expr}
  (hpower : ∀ b e r, power b e = some r → P b → P e → P r)
  (hproduct : ∀ es r, product es = some r → (∀ e ∈ es, P e) → P r)
include hpower hproduct

theorem productStep (hr : productStep power product operands = some r) (h : ∀ e ∈ operands, P e) :
    P r := by
  refine hP.toHereditary.productStep (fun b e r hr h => ?_) hproduct (fun g hg => ?_) hr
  · exact hpower b e r hr ((hP.pow b e).mp h).1 ((hP.pow b e).mp h).2
  · obtain ⟨hbase, hexponents⟩ := hP.baseGroups h hg
    exact (hP.pow _ _).mpr ⟨hbase, hP.sum hexponents⟩

theorem powerStep (hr : powerStep power product base exponent = some r) (hb : P base)
    (he : P exponent) : P r := by
  rcases powerStep_cases hr with ⟨_, rfl⟩ | ⟨_, rfl⟩ | ⟨b, rfl, rfl⟩ | ⟨a, p, rfl, hp, rfl⟩ |
    ⟨b, e, p, rfl, _, hp, hr⟩ | ⟨fs, rs, rfl, _, hrs, hr⟩ | rfl
  · exact hP.num 1
  · exact hb
  · exact hP.numberPower ((hP.pow _ _).mpr ⟨hb, he⟩)
  · apply hP.apply .exp
    exact hproduct _ _ hp (by simpa using ⟨(hP.fn _ _).mp hb, he⟩)
  · obtain ⟨hb, he'⟩ := (hP.pow b e).mp hb
    exact hpower _ _ _ hr hb (hproduct _ _ hp (by simpa using ⟨he', he⟩))
  · apply hproduct _ _ hr
    intro r hr
    obtain ⟨f, hf, hfr⟩ := hrs.exists_of_mem hr
    exact hpower _ _ _ hfr ((hP.mul fs).mp hb f hf) he
  · exact (hP.pow _ _).mpr ⟨hb, he⟩

end

theorem productIn_powerIn (n : Nat) :
    (∀ es r, productIn n es = some r → (∀ e ∈ es, P e) → P r) ∧
      ∀ b e r, powerIn n b e = some r → P b → P e → P r := by
  induction n with
  | zero => exact ⟨fun _ _ h => (nomatch h), fun _ _ _ h => (nomatch h)⟩
  | succ n ih =>
    exact ⟨fun _ _ => hP.productStep ih.2 ih.1, fun _ _ _ => hP.powerStep ih.2 ih.1⟩

theorem product (h : ∀ e ∈ es, P e) : P (Expr.product es) := by
  obtain ⟨n, hn⟩ := exists_productIn es
  exact (hP.productIn_powerIn n).1 es _ hn h

theorem power (hb : P b) (he : P e) : P (Expr.power b e) := by
  obtain ⟨n, hn⟩ := exists_powerIn b e
  exact (hP.productIn_powerIn n).2 b e _ hn hb he

end Structural

mutual

theorem Structural.substitute {P : Expr → Prop} (hP : Structural P) {f : String → Option Expr}
    {e : Expr} (h : ∀ s ∈ e.symbolList, P ((f s).getD (sym s))) : P (e.substitute f) := by
  cases e with
  | num q => exact hP.num q
  | sym s => exact h s (by simp [symbolList])
  | fn g a => exact hP.apply g (hP.substitute h)
  | pow b e =>
    rw [symbolList, forall_mem_append] at h
    exact hP.power (hP.substitute h.1) (hP.substitute h.2)
  | mul fs => exact hP.product (hP.substituteAll h)
  | add ts => exact hP.sum (hP.substituteAll h)

theorem Structural.substituteAll {P : Expr → Prop} (hP : Structural P)
    {f : String → Option Expr} {es : List Expr}
    (h : ∀ s ∈ symbolLists es, P ((f s).getD (sym s))) : ∀ e ∈ substituteAll f es, P e := by
  cases es with
  | nil => nofun
  | cons e es =>
    rw [symbolLists, forall_mem_append] at h
    rw [Expr.substituteAll, forall_mem_cons]
    exact ⟨hP.substitute h.1, hP.substituteAll h.2⟩

end

theorem mem_symbolLists {x : String} : x ∈ symbolLists es ↔ ∃ e ∈ es, x ∈ e.symbolList := by
  induction es with
  | nil => simp [symbolLists]
  | cons e es ih => simp [symbolLists, ih]

theorem structural_symbols (p : String → Prop) : Structural fun e => ∀ s ∈ e.symbolList, p s where
  num _ := nofun
  mul fs := by
    simp only [symbolList, mem_symbolLists]
    exact ⟨fun h f hf s hs => h s ⟨f, hf, hs⟩, fun h s ⟨f, hf, hs⟩ => h f hf s hs⟩
  add ts := by
    simp only [symbolList, mem_symbolLists]
    exact ⟨fun h t ht s hs => h s ⟨t, ht, hs⟩, fun h s ⟨t, ht, hs⟩ => h t ht s hs⟩
  fn _ _ := Iff.rfl
  pow b e := by rw [symbolList, forall_mem_append]

section Derivative

variable {P : Expr → Prop} (hP : Structural P)
include hP

theorem Structural.outerDerivative (f : Func) (h : P a) : P (Expr.outerDerivative f a) := by
  have hsquare : P (Expr.power a (integer 2)) := hP.power h (hP.num _)
  have hneg {e : Expr} (he : P e) : P e.neg := hP.product (by simpa using ⟨hP.num _, he⟩)
  have hsum {x y : Expr} (hx : P x) (hy : P y) : P (Expr.sum [x, y]) :=
    hP.sum (by simpa using ⟨hx, hy⟩)
  have hone : P one := hP.num 1
  cases f with
  | sin => exact hP.apply .cos h
  | cos => exact hneg (hP.apply .sin h)
  | tan => exact hsum hone (hP.power (hP.apply .tan h) (hP.num _))
  | sinh => exact hP.apply .cosh h
  | cosh => exact hP.apply .sinh h
  | tanh => exact hsum hone (hneg (hP.power (hP.apply .tanh h) (hP.num _)))
  | asin => exact hP.power (hsum hone (hneg hsquare)) (hP.num _)
  | acos => exact hneg (hP.power (hsum hone (hneg hsquare)) (hP.num _))
  | atan => exact hP.power (hsum hone hsquare) (hP.num _)
  | asinh => exact hP.power (hsum hsquare hone) (hP.num _)
  | acosh => exact hP.power (hsum hsquare (hP.num _)) (hP.num _)
  | atanh => exact hP.power (hsum hone (hneg hsquare)) (hP.num _)
  | exp => exact hP.apply .exp h
  | log => exact hP.power h (hP.num _)

theorem Structural.powerRule {db de : Expr} (hb : P b) (he : P e) (hdb : P db) (hde : P de) :
    P (Expr.powerRule b e db de) := by
  unfold Expr.powerRule
  split
  · apply hP.product
    simpa using ⟨he, hP.power hb (hP.sum (by simpa using ⟨he, hP.num _⟩)), hdb⟩
  · have hleft : P (Expr.product [de, Expr.apply .log b]) :=
      hP.product (by simpa using ⟨hde, hP.apply .log hb⟩)
    have hright : P (Expr.product [e, db, Expr.power b (integer (-1))]) :=
      hP.product (by simpa using ⟨he, hdb, hP.power hb (hP.num _)⟩)
    apply hP.product
    simpa using ⟨(hP.pow b e).mpr ⟨hb, he⟩, hP.sum (by simpa using ⟨hleft, hright⟩)⟩

theorem Structural.productRule {before ds : List Expr} (hbefore : ∀ f ∈ before, P f)
    (hfs : ∀ f ∈ fs, P f) (hds : ∀ d ∈ ds, P d) : ∀ e ∈ Expr.productRule before fs ds, P e := by
  induction fs generalizing before ds with
  | nil => cases ds <;> nofun
  | cons f fs ih =>
    cases ds with
    | nil => nofun
    | cons d ds =>
      rw [forall_mem_cons] at hfs hds
      have hrest : ∀ e ∈ Expr.productRule (before ++ [f]) fs ds, P e :=
        ih (by simpa [or_imp, forall_and] using ⟨hbefore, hfs.1⟩) hfs.2 hds.2
      rw [Expr.productRule]
      split
      · exact hrest
      · rw [forall_mem_cons]
        refine ⟨hP.product ?_, hrest⟩
        rw [forall_mem_append, forall_mem_cons]
        exact ⟨hbefore, hds.1, hfs.2⟩

end Derivative

end Expr

end TensorCalculus
