import Mathlib
import TensorCalculus.Proofs.Scalar.Tidy

/-! Expressions built by the simplifying operations without leaving the range of the numbers. No two
terms of a sum are alike, and building an expression once more changes nothing unless a product
has two factors with the same base. -/
namespace TensorCalculus

open List Number

variable {e : Expr} {f : String → Option Expr} {es : List Expr} {q : Number} {gs : List Expr}

namespace Expr

mutual

def SubstituteExact (f : String → Option Expr) : Expr → Prop
  | num _ => True
  | sym _ => True
  | fn _ a => a.SubstituteExact f
  | pow b e => b.SubstituteExact f ∧ e.SubstituteExact f ∧
      Exact (.power (b.substitute f) (e.substitute f))
  | mul fs => SubstituteAllExact f fs ∧ Exact (.product (substituteAll f fs))
  | add ts => SubstituteAllExact f ts ∧ SumExact (substituteAll f ts)

def SubstituteAllExact (f : String → Option Expr) : List Expr → Prop
  | [] => True
  | e :: es => e.SubstituteExact f ∧ SubstituteAllExact f es

end

/-- Built from numbers and symbols, with no number out of range on the way. Negation, difference,
quotient and square root are products, sums and powers. With `whole`, only integer powers and no
exponentials are used. -/
inductive Built (whole : Prop) : Expr → Prop
  | num {q : Number} : inRange q → Built whole (num q)
  | sym (s : String) : Built whole (sym s)
  | sum {es : List Expr} : (∀ e ∈ es, Built whole e) → SumExact es → Built whole (sum es)
  | product {es : List Expr} : (∀ e ∈ es, Built whole e) → Exact (.product es) →
      Built whole (product es)
  | power {b e : Expr} : Built whole b → Built whole e → (whole → e.isInteger) →
      Exact (.power b e) → Built whole (power b e)
  | apply {f : Func} {a : Expr} : Built whole a → (whole → f ≠ .exp) → Built whole (apply f a)
  | substitute {f : String → Option Expr} {e : Expr} : Built whole e →
      (∀ s r, f s = some r → Built whole r) → e.SubstituteExact f → Built whole (e.substitute f)

variable {whole : Prop}

theorem isInteger_substitute (h : e.isInteger) (f : String → Option Expr) :
    (e.substitute f).isInteger := by
  cases e <;> first | exact h | cases h

theorem mem_substituteAll {r : Expr} : r ∈ substituteAll f es ↔ ∃ e ∈ es, e.substitute f = r := by
  induction es with
  | nil => simp [substituteAll]
  | cons e es ih => simp [substituteAll, ih, eq_comm]

theorem substituteAllExact_iff : SubstituteAllExact f es ↔ ∀ e ∈ es, e.SubstituteExact f := by
  induction es with
  | nil => simp [SubstituteAllExact]
  | cons e es ih => simp [SubstituteAllExact, ih]

theorem Tidy.substitute (hf : ∀ s r, f s = some r → Tidy whole r) (h : Tidy whole e)
    (hexact : e.SubstituteExact f) : Tidy whole (e.substitute f) := by
  induction h with
  | num hq => exact .num hq
  | sym s =>
    rw [Expr.substitute]
    cases hs : f s with
    | none => exact .sym s
    | some r => exact hf s r hs
  | fn _ _ hexp ih => exact (ih hexact).apply hexp
  | pow _ _ _ hwhole ihb ihe =>
    rw [SubstituteExact] at hexact
    exact hexact.2.2.tidy ⟨ihb hexact.1, ihe hexact.2.1,
      fun hw => isInteger_substitute (hwhole hw).1 f⟩
  | mul q gs heq _ hnode _ ih =>
    rw [SubstituteExact, substituteAllExact_iff] at hexact
    apply hexact.2.tidy
    intro r hr
    obtain ⟨g, hg, rfl⟩ := mem_substituteAll.mp hr
    have hg' := hexact.1 g hg
    rcases mem_withCoefficient (heq ▸ hg) with rfl | hg
    · exact .num hnode.inRange
    · exact ih g hg hg'
  | add _ _ _ ih =>
    rw [SubstituteExact, substituteAllExact_iff] at hexact
    apply Tidy.sum _ hexact.2
    intro r hr
    obtain ⟨t, ht, rfl⟩ := mem_substituteAll.mp hr
    exact ih t ht (hexact.1 t ht)

theorem Built.tidy (h : Built whole e) : Tidy whole e := by
  induction h with
  | num hq => exact .num hq
  | sym s => exact .sym s
  | sum _ hexact ih => exact Tidy.sum ih hexact
  | product _ hexact ih => exact hexact.tidy ih
  | power _ _ hwhole hexact ihb ihe => exact hexact.tidy ⟨ihb, ihe, hwhole⟩
  | apply _ hexp ih => exact ih.apply hexp
  | substitute _ _ hexact ih ihf => exact ih.substitute ihf hexact

mutual

def parts : Expr → List Expr
  | num q => [num q]
  | sym s => [sym s]
  | fn f a => fn f a :: a.parts
  | pow b e => pow b e :: (b.parts ++ e.parts)
  | mul fs => mul fs :: partLists fs
  | add ts => add ts :: partLists ts

def partLists : List Expr → List Expr
  | [] => []
  | e :: es => e.parts ++ partLists es

end

theorem mem_partLists {p : Expr} : p ∈ partLists es ↔ ∃ e ∈ es, p ∈ e.parts := by
  induction es with
  | nil => simp [partLists]
  | cons e es ih => simp [partLists, ih]

/-- The factors of every product inside the expression have different bases, its numeric
coefficient left out. -/
def DistinctBases (e : Expr) : Prop :=
  ∀ fs, mul fs ∈ e.parts → ((fs.filter (!·.isNumber)).map base).Nodup

theorem collect_singleton {α : Type} (k : Expr) (v : α) : collect [(k, v)] = [(k, [v])] := by
  rw [collect, mergeSort_singleton, runs, runs]

theorem sum_singleton_num (hq : inRange q) : sum [num q] = num q := by
  have hexact : SumExact [num q] := sumExact_of_nodup rfl .nil (.inr ⟨q, hq, rfl⟩)
  have hcombined : combined [num q] = [] := by simp [combined, splitTerms]
  have htotal : numberTotal [num q] = q := Rat.add_zero q
  have hterms : termLists [num q] = [num q] := rfl
  rw [sum, hexact.sumTerms_eq, hterms, combinedTerms, hcombined, htotal]
  by_cases hzero : q = 0
  · rw [if_pos hzero, hzero]
    rfl
  · rw [if_neg hzero]
    rfl

theorem sum_singleton_term (h : Tidy whole e) (hnumber : e.isNumber = false)
    (hsum : e.isSum = false) : sum [e] = e := by
  obtain ⟨k, q, hsplit, -, -, -, hzero, hscale⟩ := h.splitCoefficient hnumber hsum
  have hterms : termLists [e] = [e] := termLists_of_not_isSum (by simpa using hsum)
  have hsplits : splitTerms [e] = [(k, q)] := by simp [splitTerms, hnumber, hsplit]
  have hnumbers : [e].filterMap number? = [] := by simp [number?_eq_none hnumber]
  have hexact : SumExact [e] := sumExact_of_nodup hterms (by simp [hsplits]) (.inl hnumbers)
  have hcombined : combined [e] = [(k, q)] := by
    simp [combined, hsplits, collect_singleton, hzero]
  have htotal : numberTotal [e] = 0 := by rw [numberTotal, hnumbers, sum_nil]
  rw [sum, hexact.sumTerms_eq, hterms, combinedTerms, hcombined, if_pos htotal]
  exact hscale

theorem sum_singleton (h : Tidy whole e) : sum [e] = e := by
  cases e with
  | num q =>
    cases h with
    | num hq => exact sum_singleton_num hq
  | add ts =>
    cases h with
    | add _ heq _ =>
      have hterms : termLists [add ts] = termLists ts := by
        rw [termLists, termLists, terms, append_nil]
      rw [sum, sumTerms, hterms]
      exact heq
  | _ => exact sum_singleton_term h rfl rfl

theorem filter_withCoefficient (h : ∀ g ∈ gs, g.isNumber = false ∧ g.isProduct = false) :
    (withCoefficient q gs).filter (!·.isNumber) = gs := by
  have hself : gs.filter (!·.isNumber) = gs := by
    rw [filter_eq_self]
    intro g hg
    rw [(h g hg).1]
    rfl
  rw [withCoefficient]
  split
  · exact hself
  · exact hself

theorem factorLists_of_not_isProduct {fs : List Expr} (h : ∀ f ∈ fs, f.isProduct = false) :
    factorLists fs = fs := by
  have hself (f : Expr) (hf : f ∈ fs) : f.factors = [f] := by
    have hproduct := h f hf
    cases f <;> first | rfl | cases hproduct
  rw [factorLists_eq_flatMap, flatMap_congr hself, flatMap_singleton']

theorem power_splitPower {g : Expr} (h : Tidy whole g) :
    power g.splitPower.1 (sum [g.splitPower.2]) = g := by
  cases h with
  | pow _ he heq _ => rw [splitPower, sum_singleton he, heq]
  | _ =>
    rw [splitPower, sum_one, power_eq]
    · rfl
    · nofun

section

variable (h : ∀ g ∈ gs, g.isNumber = false ∧ g.isProduct = false)
include h

theorem factorLists_withCoefficient :
    factorLists (withCoefficient q gs) = withCoefficient q gs := by
  apply factorLists_of_not_isProduct
  intro f hf
  rcases mem_withCoefficient hf with rfl | hf
  · rfl
  · exact (h f hf).2

theorem filterMap_withCoefficient :
    (withCoefficient q gs).filterMap number? = if q = 1 then [] else [q] := by
  have hnone : gs.filterMap number? = [] := by
    rw [filterMap_eq_nil_iff]
    intro g hg
    exact number?_eq_none (h g hg).1
  rw [withCoefficient]
  split
  · exact hnone
  · rw [filterMap_cons, number?_num, hnone]

end

theorem mulNode_of_perm {ps : List Expr} (h : IsProductNode q gs) (hperm : ps.Perm gs) :
    mulNode q ps = mul (withCoefficient q gs) := by
  have hsorted : (ps.mergeSort fun a b => (factorCompare a b).isLE) = gs := by
    rw [mergeSort_eq_of_perm hperm]
    exact mergeSort_of_pairwise h.sorted
  match ps, h.many with
  | [], hmany =>
    rw [nil_perm.mp hperm] at hmany
    simp at hmany
  | [p], hmany =>
    rw [← singleton_perm.mp hperm] at hmany
    have hone : q ≠ 1 := (hmany.resolve_left (by simp)).1
    rw [mulNode, if_neg (by simpa using hone), withCoefficient, if_neg hone,
      ← singleton_perm.mp hperm]
  | p :: p' :: ps, _ =>
    simp only [mulNode, hsorted, withCoefficient, beq_iff_eq]

section Rebuild

variable {operands : List Expr} (hothers : ((factorLists operands).filter (!·.isNumber)).Perm gs)
  (hgs : ∀ g ∈ gs, Tidy whole g) (hbases : (gs.map base).Nodup)
include hothers hgs hbases

theorem basePowers_of_distinct : (basePowers operands).Perm gs := by
  have hreverse : ((factorLists operands).reverse.filter (!·.isNumber)).Perm gs :=
    ((reverse_perm _).filter _).trans hothers
  have hkeys : ((((factorLists operands).reverse.filter (!·.isNumber)).map splitPower).map
      Prod.fst).Nodup := by
    have hbase : Prod.fst ∘ splitPower = base := by
      funext g
      cases g <;> rfl
    rw [map_map, hbase]
    exact (hreverse.map base).nodup_iff.mpr hbases
  rw [basePowers, baseGroups]
  refine (map_collect_of_nodup hkeys).trans ?_
  rw [map_map]
  refine (hreverse.map _).trans (.of_eq ?_)
  exact (map_congr_left fun g hg => power_splitPower (hgs g hg)).trans (map_id _)

variable (hsimple : ∀ g ∈ gs, g.isNumber = false ∧ g.isProduct = false)
  (hgiven : gather mul? 1 ((factorLists operands).reverse.filterMap number?) = (q, []))
include hsimple hgiven

theorem joined_of_distinct : joined operands = ⟨q, basePowers operands, false⟩ := by
  have hsimple (p : Expr) (hp : p ∈ basePowers operands) :=
    hsimple p ((basePowers_of_distinct hothers hgs hbases).mem_iff.mp hp)
  have hnumbers : (basePowers operands).filterMap number? = [] := by
    rw [filterMap_eq_nil_iff]
    intro p hp
    exact number?_eq_none (hsimple p hp).1
  have hrest : (basePowers operands).filter (!·.isNumber) = basePowers operands := by
    rw [filter_eq_self]
    intro p hp
    rw [(hsimple p hp).1]
    rfl
  have houter : ((basePowers operands).map outerFactors).flatten = basePowers operands := by
    have hself (p : Expr) (hp : p ∈ basePowers operands) : outerFactors p = [p] := by
      have hproduct := (hsimple p hp).2
      cases p <;> first | rfl | cases hproduct
    rw [← flatMap_def, flatMap_congr hself, flatMap_singleton']
  have hreopened : (basePowers operands).any isProduct = false := by
    rw [any_eq_false]
    intro p hp
    rw [(hsimple p hp).2]
    nofun
  rw [joined, join, hgiven, hnumbers, hrest, houter, hreopened, gather, append_nil,
    map_nil, append_nil]

variable (hzero : q ≠ 0)
include hzero

theorem product_eq_result_of_distinct :
    product operands = Joined.result ⟨q, basePowers operands, false⟩ := by
  have hnonzero : (factorLists operands).any isZero = false := by
    rw [any_eq_false]
    intro f hf hzero'
    obtain rfl : f = num 0 := by
      cases f with
      | num q => rw [show q = 0 by simpa [isZero] using hzero']
      | _ => cases hzero'
    have hgathers : Number.Gathers mul? 1
        ((factorLists operands).reverse.filterMap number?) := congrArg Prod.snd hgiven
    have hproduct := hgathers.mul_eq
    rw [hgiven, prod_eq_zero (mem_filterMap.mpr ⟨_, mem_reverse.mpr hf, rfl⟩), mul_zero] at hproduct
    exact hzero hproduct
  rw [product_eq_result, if_neg (by rw [hnonzero]; exact Bool.false_ne_true),
    joined_of_distinct hothers hgs hbases hsimple hgiven]

/-- A product of factors with different bases is the node of these factors, unless a coefficient is
spread over the only factor. -/
theorem product_of_others (hsole : q = 1 ∨ ∀ ts, gs ≠ [add ts]) :
    product operands = mulNode q gs := by
  have hperm := basePowers_of_distinct hothers hgs hbases
  rw [product_eq_result_of_distinct hothers hgs hbases hsimple hgiven hzero, Joined.result,
    if_neg (by simpa using hzero), if_neg Bool.false_ne_true]
  generalize basePowers operands = ps at hperm
  have hnone : Joined.soleSum? ⟨q, ps, false⟩ = none := by
    rw [Option.eq_none_iff_forall_ne_some]
    intro ts hsome
    obtain ⟨heq, hone⟩ := Joined.soleSum?_eq_some hsome
    rw [show ps = [add ts] from heq, singleton_perm] at hperm
    exact hsole.elim hone fun h => h ts hperm.symm
  rw [hnone]
  exact mulNode_perm hperm

end Rebuild

theorem product_of_distinct (hnode : IsProductNode q gs) (hgs : ∀ g ∈ gs, Tidy whole g)
    (hbases : (gs.map base).Nodup) :
    product (withCoefficient q gs) = mul (withCoefficient q gs) := by
  have hothers : (factorLists (withCoefficient q gs)).filter (!·.isNumber) = gs := by
    rw [factorLists_withCoefficient hnode.simple, filter_withCoefficient hnode.simple]
  have hgiven : gather mul? 1
      ((factorLists (withCoefficient q gs)).reverse.filterMap number?) = (q, []) := by
    rw [factorLists_withCoefficient hnode.simple, filterMap_reverse,
      filterMap_withCoefficient hnode.simple]
    by_cases hq : q = 1
    · rw [if_pos hq, hq]
      rfl
    · rw [if_neg hq, reverse_singleton, gather, mul?, Rat.one_mul,
        if_pos hnode.inRange]
      rfl
  have hsole : ∀ ts, gs ≠ [add ts] := by
    rintro ts rfl
    obtain ⟨-, g, heq, hsum⟩ := hnode.many.resolve_left (by simp)
    cases heq
    cases hsum
  rw [product_of_others (.of_eq hothers) hgs hbases hnode.simple hgiven hnode.ne_zero (.inr hsole)]
  exact mulNode_of_perm hnode (.refl gs)

theorem DistinctBases.of_parts {p : Expr} (h : e.DistinctBases) (hp : ∀ r ∈ p.parts, r ∈ e.parts) :
    p.DistinctBases :=
  fun fs hfs => h fs (hp _ hfs)

theorem mem_parts_self (e : Expr) : e ∈ e.parts := by
  cases e <;> simp [parts]

theorem Exact.node {operands : List Expr} (hfactors : FactorsExact operands)
    (hpowers : ∀ g ∈ baseGroups operands, Exact (.power g.1 (Expr.sum g.2)))
    (hgathers : Number.Gathers mul?
      (gather mul? 1 ((factorLists operands).reverse.filterMap number?)).1
      ((basePowers operands).filterMap number?)) (hreopened : (joined operands).reopened = false)
    (hsole : (joined operands).soleSum? = none) : Exact (.product operands) := by
  refine .product hfactors hpowers hgathers ?_ ?_ ?_
  · rintro ⟨-, h⟩
    rw [hreopened] at h
    cases h
  · rintro ts ⟨-, -, h⟩
    cases hsole.symm.trans h
  · rintro ts ⟨-, -, h⟩
    cases hsole.symm.trans h

/-- Sums and products in range have the same value for every order of their operands. A sum among
the operands of a sum can be opened if splitting off the coefficients of its terms loses nothing,
as it does for terms that were built in range. -/
theorem arrangement_irrelevant :
    (∀ ts us : List Expr, ts.Perm us → SumExact ts → SumExact us → sum ts = sum us) ∧
    (∀ ts us : List Expr, IsBareIn (termLists us) → SumExact us → SumExact (ts ++ [sum us]) →
      SumExact (ts ++ us) → sum (ts ++ [sum us]) = sum (ts ++ us)) ∧
    (∀ us : List Expr, (∀ u ∈ us, Built False u) → IsBareIn (termLists us)) ∧
    ∀ fs gs : List Expr, fs.Perm gs → FactorsExact fs → FactorsExact gs →
      product fs = product gs := by
  refine ⟨fun ts us => sum_perm, fun ts us hbare hus h h' => sum_append_sum hus hbare h h', ?_,
    fun fs gs => product_perm⟩
  intro us hus
  exact isBareIn_of_tidy (Tidy.of_mem_termLists fun u hu => (hus u hu).tidy)

theorem arrangement_irrelevant_shuffled :
    let x := sym "x"
    let y := sym "y"
    sum [x, num 2, y, x] = sum [y, x, x, num 2] ∧
      sum [x, sum [y, x, num 2]] = sum [x, y, x, num 2] ∧
      product [x, pow x (num (1 / 2)), num 2, y] = product [y, num 2, x, pow x (num (1 / 2))] := by
  obtain ⟨hsum, hopened, hbare, hproduct⟩ := arrangement_irrelevant
  refine ⟨hsum _ _ (by decide +kernel) (by decide_cbv) (by decide_cbv), ?_,
    hproduct _ _ (by decide +kernel) (by decide_cbv) (by decide_cbv)⟩
  refine hopened [sym "x"] _ (hbare _ ?_) (by decide_cbv) (by decide_cbv) (by decide_cbv)
  simpa using ⟨.sym "y", .sym "x", .num (by decide)⟩

/-- The terms of the inner sum are products with a number left over behind their coefficient. Their
coefficients add up to one, and the number left over then counts as the coefficient. -/
theorem sum_opened_after_overflow :
    let q : Number := 9000000000000000000
    let f := fn .sin (sym "x")
    let t := product [num q, num q, f]
    let u := product [num q, num (1 - q), f]
    SumExact [t, u] ∧ SumExact [f, sum [t, u]] ∧ SumExact [f, t, u] ∧
      sum [f, sum [t, u]] = mul [num (1 + q), f] ∧
      sum [f, t, u] = add [f, mul [num q, f]] := by
  dsimp only
  exact ⟨by decide_cbv, by decide_cbv, by decide_cbv, by cbv, by cbv⟩

/-! Sums of sums. Sums in range are equal if their terms add up to the same, in whatever way they
are nested. Products in range are equal if their factors are. -/

/-- What the terms of some operands add up to: the coefficient of each term, and the number. -/
def tally (es : List Expr) : (Expr → Number) × Number :=
  (fun k => coefficientOf k (termLists es), numberTotal (termLists es))

theorem tally_append (es es' : List Expr) : tally (es ++ es') = tally es + tally es' := by
  ext
  · simp [tally, termLists_append, coefficientOf_append]
  · simp [tally, termLists_append, numberTotal_append]

theorem tally_cons (e : Expr) (es : List Expr) : tally (e :: es) = tally [e] + tally es :=
  tally_append [e] es

theorem tally_perm {es es' : List Expr} (h : es.Perm es') : tally es = tally es' := by
  ext k
  · exact coefficientOf_perm k (termLists_perm h)
  · exact numberTotal_perm (termLists_perm h)

theorem sum_eq_of_tally {es es' : List Expr} (h : SumExact es) (h' : SumExact es')
    (heq : tally es = tally es') : sum es = sum es' := by
  apply sum_congr h h'
  · intro k
    exact congrFun (congrArg Prod.fst heq) k
  · exact congrArg Prod.snd heq

/-- A sum of operands that were built in range, which stays in range itself. -/
structure SumInRange (es : List Expr) : Prop where
  exact : SumExact es
  built : ∀ e ∈ es, Built False e

namespace SumInRange

variable (h : SumInRange es)
include h

theorem built_sum : Built False (sum es) :=
  .sum h.built h.exact

theorem tally_sum : tally [sum es] = tally es := by
  have hbare : IsBareIn (termLists es) :=
    isBareIn_of_tidy (Tidy.of_mem_termLists fun e he => (h.built e he).tidy)
  have hterms : termLists [sum es] = (sum es).terms := append_nil _
  have hsame (k : Expr) := coefficientOf_terms_addNode (termLists_combinedTerms hbare) k
  rw [tally, tally, hterms, sum, h.exact.sumTerms_eq]
  ext k
  · exact (hsame k).1.trans (coefficientOf_combinedTerms hbare k)
  · exact (hsame zero).2.trans (numberTotal_combinedTerms hbare)

end SumInRange

theorem tally_map_sum {ess : List (List Expr)} (h : ∀ es ∈ ess, SumInRange es) :
    tally (ess.map sum) = tally ess.flatten := by
  induction ess with
  | nil => rfl
  | cons es ess ih =>
    rw [forall_mem_cons] at h
    rw [map_cons, tally_cons, flatten_cons, tally_append, h.1.tally_sum, ih h.2]

theorem product_perm_of_exact {fs gs : List Expr} (hperm : fs.Perm gs) (hfs : Exact (.product fs))
    (hgs : Exact (.product gs)) : product fs = product gs := by
  have hfactors (es : List Expr) (hes : Exact (.product es)) (h : ¬ (factorLists es).any isZero) :
      FactorsExact es := by
    cases hes with
    | zero hzero => exact absurd hzero h
    | product hexact => exact hexact
  exact product_perm_of_zero hperm (hfactors fs hfs) (hfactors gs hgs)

section Symbols

variable {xs : List String}

theorem factorLists_symbols (xs : List String) : factorLists (xs.map sym) = xs.map sym := by
  rw [factorLists_eq_flatMap, flatMap_map]
  exact map_eq_flatMap.symm

theorem baseGroups_symbols (h : xs.Nodup) :
    (baseGroups (xs.map sym)).Perm (xs.reverse.map fun x => (sym x, [one])) := by
  have hpairs : ((factorLists (xs.map sym)).reverse.filter (!·.isNumber)).map splitPower =
      xs.reverse.map fun x => (sym x, one) := by
    rw [factorLists_symbols, ← map_reverse]
    simp [filter_map, Function.comp_def, isNumber, splitPower]
  have hkeys : ((xs.reverse.map fun x => (sym x, one)).map Prod.fst).Nodup := by
    rw [map_map]
    exact (nodup_reverse.mpr h).map fun _ _ => sym.inj
  have hgroups := map_collect_of_nodup (F := id) hkeys
  rw [map_id, map_map] at hgroups
  rw [baseGroups, hpairs]
  exact hgroups

theorem basePowers_symbols (h : xs.Nodup) : (basePowers (xs.map sym)).Perm (xs.reverse.map sym) := by
  have hpower (x : String) : power (sym x) (sum [one]) = sym x := by
    rw [sum_one, power_eq, if_neg (by decide), if_pos (by decide)]
  have hpowers := (baseGroups_symbols h).map fun g => power g.1 (sum g.2)
  rw [map_map] at hpowers
  exact hpowers.trans (.of_eq (map_congr_left fun x _ => hpower x))

theorem Exact.symbols (xs : List String) (h : xs.Nodup) : Exact (.product (xs.map sym)) := by
  have hsymbol (p : Expr) (hp : p ∈ basePowers (xs.map sym)) : ∃ x, p = sym x := by
    obtain ⟨x, -, rfl⟩ := mem_map.mp ((basePowers_symbols h).mem_iff.mp hp)
    exact ⟨x, rfl⟩
  have hgiven : (factorLists (xs.map sym)).reverse.filterMap number? = [] := by
    rw [factorLists_symbols, ← map_reverse]
    simp [filterMap_map, Function.comp_def, number?]
  have hnumbers : (basePowers (xs.map sym)).filterMap number? = [] := by
    rw [filterMap_eq_nil_iff]
    intro p hp
    obtain ⟨x, rfl⟩ := hsymbol p hp
    rfl
  have hgroup (g : Expr × List Expr) (hg : g ∈ baseGroups (xs.map sym)) :
      g.2 = [one] := by
    obtain ⟨x, -, rfl⟩ := mem_map.mp ((baseGroups_symbols h).mem_iff.mp hg)
    rfl
  refine .node ⟨?_, ?_⟩ ?_ ?_ ?_ ?_
  · intro g hg
    rw [hgroup g hg]
    exact sumExact_of_nodup rfl .nil (.inr ⟨1, by decide, rfl⟩)
  · rw [hgiven]
    rfl
  · intro g hg
    rw [hgroup g hg]
    rw [sum_one]
    exact .unit (.inr (by decide))
  · rw [hgiven, hnumbers]
    rfl
  · rw [joined, join, any_eq_false]
    intro p hp
    obtain ⟨x, rfl⟩ := hsymbol p (mem_filter.mp hp).1
    simp [isProduct]
  · rw [Option.eq_none_iff_forall_ne_some]
    intro ts hts
    have hmem : add ts ∈ (joined (xs.map sym)).factors :=
      (Joined.soleSum?_eq_some hts).1 ▸ mem_singleton_self _
    rw [joined, join, hgiven, hnumbers] at hmem
    simp only [gather, map_nil, append_nil, mem_flatten, mem_map] at hmem
    obtain ⟨_, ⟨p, hp, rfl⟩, hts⟩ := hmem
    obtain ⟨x, rfl⟩ := hsymbol p (mem_filter.mp hp).1
    simp [outerFactors] at hts

theorem product_symbols (xs : List String) (h : xs.Nodup) (hmany : 2 ≤ xs.length)
    (hsorted : (xs.map sym).Pairwise fun a b => (factorCompare a b).isLE) :
    product (xs.map sym) = mul (xs.map sym) := by
  have hsymbol : ∀ f ∈ xs.map sym, ∃ x, f = sym x := by simp
  have hnode : IsProductNode 1 (xs.map sym) := by
    refine ⟨by decide, by decide, ?_, hsorted, .inl (by simpa using hmany)⟩
    intro f hf
    obtain ⟨x, rfl⟩ := hsymbol f hf
    exact ⟨rfl, rfl⟩
  have htidy (f : Expr) (hf : f ∈ xs.map sym) : Tidy False f := by
    obtain ⟨x, rfl⟩ := hsymbol f hf
    exact .sym x
  have hbases : ((xs.map sym).map base).Nodup := by
    rw [map_map]
    exact h.map fun _ _ => sym.inj
  exact product_of_distinct hnode htidy hbases

end Symbols

end Expr

/-! Negation of simplified expressions. It changes the signs of the coefficients and leaves
everything else as it is, as long as these stay in range and no factors have the same base; so it
undoes itself. -/

variable {t : Expr} {qs : List Number}

namespace Expr

variable {whole : Prop} {ts : List Expr}

/-- The coefficient and the other factors of a term that is no number. -/
structure Factored (whole : Prop) (q : Number) (gs : List Expr) : Prop where
  inRange : inRange q
  ne_zero : q ≠ 0
  ne_nil : gs ≠ []
  ne_sum : ∀ ts, gs ≠ [add ts]
  simple : ∀ g ∈ gs, g.isNumber = false ∧ g.isProduct = false
  tidy : ∀ g ∈ gs, Tidy whole g
  bases : (gs.map base).Nodup

theorem exists_factored (h : Tidy whole t) (hnumber : t.isNumber = false) (hsum : t.isSum = false)
    (hbases : t.DistinctBases) : ∃ q gs, Factored whole q gs ∧ t = mulNode q gs := by
  have hself (hproduct : t.isProduct = false) :
      ∃ q gs, Factored whole q gs ∧ t = mulNode q gs := by
    refine ⟨1, [t], ⟨by decide, by decide, cons_ne_nil _ _, ?_, by simpa using ⟨hnumber, hproduct⟩,
      by simpa using h, by simp⟩, rfl⟩
    intro ts heq
    cases heq
    cases hsum
  cases h with
  | num _ => cases hnumber
  | add _ _ _ => cases hsum
  | sym s => exact hself rfl
  | fn _ _ _ => exact hself rfl
  | pow _ _ _ _ => exact hself rfl
  | @mul fs q gs heq hgs hnode _ =>
    have hnodup := hbases fs (mem_parts_self _)
    rw [heq, filter_withCoefficient hnode.simple] at hnodup
    refine ⟨q, gs, ⟨hnode.inRange, hnode.ne_zero, ?_, ?_, hnode.simple, hgs, hnodup⟩, ?_⟩
    · rintro rfl
      simpa using hnode.many
    · rintro ts rfl
      obtain ⟨-, g, hg, hsum⟩ := hnode.many.resolve_left (by simp)
      cases hg
      cases hsum
    · rw [heq, mulNode_of_perm hnode (.refl gs)]

theorem mulNode_of_many (q : Number) (h : 2 ≤ gs.length) : mulNode q gs =
    mul (withCoefficient q (gs.mergeSort fun a b => (factorCompare a b).isLE)) := by
  rcases gs with _ | ⟨g, _ | ⟨g', gs⟩⟩
  · simp at h
  · simp at h
  · simp only [mulNode, withCoefficient, beq_iff_eq]

theorem mulNode_singleton (q : Number) (g : Expr) :
    mulNode q [g] = if q = 1 then g else mul [num q, g] := by
  simp only [mulNode, beq_iff_eq]

theorem isSum_scale {k : Expr} (h : k.isBare) (q : Number) : (scale q k).isSum = false := by
  have hself : k.isSum = false := by cases k <;> first | rfl | cases h
  unfold scale
  split
  · exact hself
  · cases k <;> rfl

theorem inRange_prod (h : Number.Gathers mul? 1 qs) : inRange qs.prod := by
  have hrange : inRange (gather mul? 1 qs).1 :=
    (inRange_gather_mul? (by decide) qs).1
  rwa [h.mul_eq, one_mul] at hrange

section

variable (hq : inRange q) (hneg : inRange (-q))
include hq hneg

theorem gather_neg : gather mul? 1 [q, -1] = (-q, []) := by
  rw [gather, mul?, one_mul, if_pos hq]
  dsimp only
  rw [gather, mul?, mul_neg_one, if_pos hneg]
  rfl

theorem neg_num : (num q).neg = num (-q) := by
  by_cases hzero : q = 0
  · rw [hzero, neg_zero]
    cbv
  · have hothers : ((factorLists [num (-1), num q]).filter (!·.isNumber)).Perm [] := .refl []
    have htidy : ∀ g ∈ ([] : List Expr), Tidy False g := forall_mem_nil _
    exact product_of_others hothers htidy .nil (forall_mem_nil _) (gather_neg hq hneg)
      (neg_ne_zero.mpr hzero) (.inr fun ts => (cons_ne_nil _ _).symm)

end

theorem inRange_neg_num (hexact : Exact (.product [num (-1), num q])) : inRange (-q) := by
  rcases hexact.factorsExact with hzero | hfactors
  · obtain rfl : q = 0 := by simpa [factorLists, factors, isZero] using hzero
    decide
  · have hrange : inRange [q, -1].prod := inRange_prod hfactors.numbers
    simpa using hrange

namespace Factored

variable (h : Factored whole q gs)
include h

theorem exists_singleton_or_many : (∃ g, gs = [g] ∧ g.isSum = false) ∨ 2 ≤ gs.length := by
  rcases gs with _ | ⟨g, _ | ⟨g', gs⟩⟩
  · exact absurd rfl h.ne_nil
  · refine .inl ⟨g, rfl, ?_⟩
    cases g with
    | add ts => exact absurd rfl (h.ne_sum ts)
    | _ => rfl
  · exact .inr (by simp)

theorem scale_eq : (mulNode 1 gs).isBare ∧ ∀ p, scale p (mulNode 1 gs) = mulNode p gs := by
  rcases h.exists_singleton_or_many with ⟨g, rfl, hsum⟩ | hmany
  · have hsimple := h.simple g mem_cons_self
    rw [mulNode_singleton, if_pos rfl]
    refine ⟨isBare_of_simple hsimple hsum, fun p => ?_⟩
    rw [mulNode_singleton]
    split
    · next hp => rw [hp, scale_one]
    · next hp => rw [scale_of_not_isProduct hp hsimple.2]
  · have hperm := mergeSort_perm gs fun a b => (factorCompare a b).isLE
    rw [mulNode_of_many 1 hmany, withCoefficient, if_pos rfl]
    refine ⟨isBare_mul (fun f hf => (h.simple f (hperm.mem_iff.mp hf)).1)
      (hperm.length_eq ▸ hmany), fun p => ?_⟩
    rw [mulNode_of_many p hmany, withCoefficient]
    split
    · next hp => rw [hp, scale_one]
    · next hp => rw [scale_mul hp]

theorem splitCoefficient_eq : (mulNode q gs).isNumber = false ∧ (mulNode q gs).isSum = false ∧
    (mulNode q gs).splitCoefficient = (mulNode 1 gs, q) := by
  obtain ⟨hbare, hscale⟩ := h.scale_eq
  obtain ⟨hnumber, -, hsplit⟩ := scale_of_isBare hbare q
  have hsum := isSum_scale hbare q
  rw [hscale] at hnumber hsplit hsum
  exact ⟨hnumber, hsum, hsplit⟩

theorem factors_eq : (mulNode q gs).factors =
    withCoefficient q (gs.mergeSort fun a b => (factorCompare a b).isLE) := by
  have hperm := mergeSort_perm gs fun a b => (factorCompare a b).isLE
  have hlists := factorLists_withCoefficient (q := q)
    fun f hf => h.simple f (hperm.mem_iff.mp hf)
  rcases h.exists_singleton_or_many with ⟨g, rfl, -⟩ | hmany
  · rw [mergeSort_singleton] at hlists ⊢
    rw [mulNode_singleton, ← hlists, withCoefficient]
    split
    · rw [factorLists, factorLists, append_nil]
    · rfl
  · rw [mulNode_of_many q hmany, factors, hlists]

theorem factorLists_neg : factorLists [num (-1), mulNode q gs] =
    num (-1) :: withCoefficient q (gs.mergeSort fun a b => (factorCompare a b).isLE) := by
  rw [factorLists, factorLists, factorLists, append_nil, h.factors_eq]
  rfl

theorem simple_mergeSort : ∀ f ∈ gs.mergeSort fun a b => (factorCompare a b).isLE,
    f.isNumber = false ∧ f.isProduct = false :=
  fun f hf => h.simple f ((mergeSort_perm gs _).mem_iff.mp hf)

theorem numbers_neg : (factorLists [num (-1), mulNode q gs]).reverse.filterMap number? =
    if q = 1 then [-1] else [q, -1] := by
  have hnumbers : (factorLists [num (-1), mulNode q gs]).filterMap number? =
      -1 :: if q = 1 then [] else [q] := by
    rw [h.factorLists_neg, ← filterMap_withCoefficient h.simple_mergeSort]
    rfl
  rw [filterMap_reverse, hnumbers]
  split <;> rfl

section

variable (hneg : Number.inRange (-q))
include hneg

theorem neg_mulNode : (mulNode q gs).neg = mulNode (-q) gs := by
  have hothers : ((factorLists [num (-1), mulNode q gs]).filter (!·.isNumber)).Perm gs := by
    rw [h.factorLists_neg, filter_cons, if_neg (by decide),
      filter_withCoefficient h.simple_mergeSort]
    exact mergeSort_perm gs _
  have hgiven : gather mul? 1
      ((factorLists [num (-1), mulNode q gs]).reverse.filterMap number?) = (-q, []) := by
    rw [h.numbers_neg]
    split
    · next hq => rw [hq]; cbv
    · exact gather_neg h.inRange hneg
  exact product_of_others hothers h.tidy h.bases h.simple hgiven (neg_ne_zero.mpr h.ne_zero)
    (.inr h.ne_sum)

theorem neg : Factored whole (-q) gs :=
  { h with inRange := hneg, ne_zero := neg_ne_zero.mpr h.ne_zero }

theorem neg_neg_mulNode : (mulNode q gs).neg.neg = mulNode q gs := by
  rw [h.neg_mulNode hneg, (h.neg hneg).neg_mulNode (by rw [neg_neg]; exact h.inRange), neg_neg]

end

theorem tidy_mulNode : Tidy whole (mulNode q gs) :=
  Tidy.mulNode h.inRange h.ne_zero h.tidy h.simple (fun _ => h.ne_sum) fun _ => h.bases

theorem inRange_neg (hexact : Exact (.product [num (-1), mulNode q gs])) : Number.inRange (-q) := by
  have hnumbers : Number.Gathers mul? 1 (if q = 1 then [-1] else [q, -1]) := by
    rw [← h.numbers_neg]
    refine (hexact.factorsExact.resolve_left ?_).numbers
    rw [h.factorLists_neg, any_eq_true]
    rintro ⟨f, hf, hzero⟩
    rcases mem_cons.mp hf with rfl | hf
    · cases hzero
    rcases mem_withCoefficient hf with rfl | hf
    · exact h.ne_zero (by simpa [isZero] using hzero)
    · have hnumber := (h.simple_mergeSort f hf).1
      cases f <;> simp_all [isNumber, isZero]
  have hrange := inRange_prod hnumbers
  split at hrange
  · next hq => rw [hq]; decide
  · simpa using hrange

end Factored

def key (t : Expr) : Expr :=
  t.splitCoefficient.1

/-- The terms of a simplified sum: none is zero or a sum itself, and no two are alike. -/
structure Summands (whole : Prop) (ts : List Expr) : Prop where
  tidy : ∀ t ∈ ts, Tidy whole t
  ne_sum : ∀ t ∈ ts, t.isSum = false
  ne_zero : zero ∉ ts
  keys : (ts.map key).Nodup

theorem numbers_of_nodup (h : (ts.map key).Nodup) :
    ts.filterMap number? = [] ∨ ∃ q, num q ∈ ts ∧ ts.filterMap number? = [q] := by
  induction ts with
  | nil => exact .inl rfl
  | cons t ts ih =>
    rw [map_cons, nodup_cons] at h
    cases hnumber : number? t with
    | none =>
      rw [filterMap_cons_none hnumber]
      rcases ih h.2 with hnil | ⟨q, hq, hsingle⟩
      · exact .inl hnil
      · exact .inr ⟨q, mem_cons_of_mem _ hq, hsingle⟩
    | some q =>
      obtain rfl : t = num q := by cases t <;> cases hnumber; rfl
      have hnone : ts.filterMap number? = [] := by
        rw [filterMap_eq_nil_iff]
        intro u hu
        cases u with
        | num p => exact absurd (mem_map_of_mem hu) h.1
        | _ => rfl
      rw [filterMap_cons_some hnumber, hnone]
      exact .inr ⟨q, mem_cons_self, rfl⟩

namespace Summands

theorem of_perm {us : List Expr} (h : Summands whole ts) (hperm : us.Perm ts) :
    Summands whole us where
  tidy t ht := h.tidy t (hperm.mem_iff.mp ht)
  ne_sum t ht := h.ne_sum t (hperm.mem_iff.mp ht)
  ne_zero ht := h.ne_zero (hperm.mem_iff.mp ht)
  keys := (hperm.map key).nodup_iff.mpr h.keys

variable (h : Summands whole ts)
include h

theorem nodup_splitTerms : ((splitTerms ts).map Prod.fst).Nodup := by
  rw [splitTerms, map_map]
  exact h.keys.sublist (filter_sublist.map key)

theorem numbers : ts.filterMap number? = [] ∨
    ∃ q, inRange q ∧ q ≠ 0 ∧ ts.filterMap number? = [q] := by
  rcases numbers_of_nodup h.keys with hnil | ⟨q, hq, hsingle⟩
  · exact .inl hnil
  · refine .inr ⟨q, ?_, ?_, hsingle⟩
    · cases h.tidy _ hq with
      | num hrange => exact hrange
    · rintro rfl
      exact h.ne_zero hq

theorem sumExact : SumExact ts := by
  refine sumExact_of_nodup (termLists_of_not_isSum h.ne_sum) h.nodup_splitTerms ?_
  rcases h.numbers with hnil | ⟨q, hrange, -, hq⟩
  · exact .inl hnil
  · exact .inr ⟨q, hrange, hq⟩

theorem combinedTerms_perm : (combinedTerms ts).Perm ts := by
  have hsplit (t : Expr) (ht : t ∈ ts.filter (!·.isNumber)) :
      t.splitCoefficient.2 ≠ 0 ∧ scale t.splitCoefficient.2 t.splitCoefficient.1 = t := by
    obtain ⟨hmem, hnumber⟩ := mem_filter.mp ht
    obtain ⟨k, q, heq, -, -, -, hzero, hscale⟩ :=
      (h.tidy t hmem).splitCoefficient (by simpa using hnumber) (h.ne_sum t hmem)
    rw [heq]
    exact ⟨hzero, hscale⟩
  have hcombined : (combined ts).Perm (splitTerms ts) := by
    have hcollect : ((collect (splitTerms ts)).map fun g => (g.1, g.2.sum)).Perm (splitTerms ts) := by
      refine (map_collect_of_nodup h.nodup_splitTerms).trans (.of_eq ?_)
      refine (map_congr_left fun p _ => ?_).trans (map_id _)
      rw [List.sum_singleton]
      rfl
    refine (hcollect.filter _).trans (.of_eq ?_)
    rw [filter_eq_self]
    intro p hp
    obtain ⟨t, ht, rfl⟩ := mem_map.mp hp
    simpa using (hsplit t ht).1
  have hothers : ((combined ts).map fun p => scale p.2 p.1).Perm (ts.filter (!·.isNumber)) := by
    refine (hcombined.map _).trans (.of_eq ?_)
    rw [splitTerms, map_map]
    exact (map_congr_left fun t ht => (hsplit t ht).2).trans (map_id _)
  have hnumbers : (if numberTotal ts = 0 then [] else [num (numberTotal ts)]) =
      (ts.filterMap number?).map num := by
    rcases h.numbers with hnil | ⟨q, -, hzero, hsingle⟩
    · rw [numberTotal, hnil]
      rfl
    · rw [numberTotal, hsingle, List.sum_singleton, if_neg hzero]
      rfl
  rw [combinedTerms, hnumbers]
  exact ((hothers.append_right _).trans perm_append_comm).trans (numbers_append_others_perm ts)

theorem exists_add (hmany : 2 ≤ ts.length) : ∃ us, sum ts = add us ∧ us.Perm ts := by
  have hterms : termLists ts = ts := termLists_of_not_isSum h.ne_sum
  have hperm := h.combinedTerms_perm
  rw [sum, h.sumExact.sumTerms_eq, hterms]
  generalize combinedTerms ts = us at hperm
  revert hperm
  fun_cases addNode us with
  | case1 =>
    intro hperm
    rw [nil_perm.mp hperm] at hmany
    simp at hmany
  | case2 t =>
    intro hperm
    rw [← singleton_perm.mp hperm] at hmany
    simp at hmany
  | case3 => exact fun hperm => ⟨_, rfl, (mergeSort_perm _ _).trans hperm⟩

end Summands

theorem exists_of_mem_likeTerms {k : Expr} (h : t ∈ likeTerms k qs) : ∃ q, t = scale q k := by
  cases qs with
  | nil => cases h
  | cons q qs =>
    rw [likeTerms, mem_append] at h
    rcases h with h | h
    · split at h
      · cases h
      · exact ⟨_, mem_singleton.mp h⟩
    · obtain ⟨q, -, rfl⟩ := mem_map.mp h
      exact ⟨q, rfl⟩

theorem exists_of_mem_constantTerms (h : t ∈ constantTerms qs) : ∃ q, t = num q := by
  rw [constantTerms, mem_append] at h
  rcases h with h | h
  · split at h
    · cases h
    · exact ⟨_, mem_singleton.mp h⟩
  · obtain ⟨q, -, rfl⟩ := mem_map.mp h
    exact ⟨q, rfl⟩

theorem isSum_of_mem_sumTerms {es : List Expr} (h : ∀ e ∈ es, Tidy whole e) (ht : t ∈ sumTerms es) :
    t.isSum = false ∧
      (t.isNumber → t ∈ constantTerms ((termLists es).reverse.filterMap number?)) := by
  rcases mem_append.mp ht with ht | ht
  · obtain ⟨_, hgroup, ht⟩ := mem_flatten.mp ht
    obtain ⟨g, hg, rfl⟩ := mem_map.mp hgroup
    have hbare : g.1.isBare := by
      obtain ⟨q, hq⟩ := exists_mem_of_mem_collect hg
      obtain ⟨u, hu, heq⟩ := mem_map.mp hq
      obtain ⟨hu, hnumber⟩ := mem_filter.mp hu
      have hkey := isBareIn_of_tidy (Tidy.of_mem_termLists h) u (mem_reverse.mp hu)
        (by simpa using hnumber)
      rwa [heq] at hkey
    obtain ⟨q, rfl⟩ := exists_of_mem_likeTerms ht
    refine ⟨isSum_scale hbare q, fun hnumber => ?_⟩
    rw [(scale_of_isBare hbare q).1] at hnumber
    cases hnumber
  · obtain ⟨q, rfl⟩ := exists_of_mem_constantTerms ht
    exact ⟨rfl, fun _ => ht⟩

theorem summands_of_tidy (h : Tidy whole (add ts)) : Summands whole ts ∧ 2 ≤ ts.length := by
  cases h with
  | add htidy heq hkeys =>
    obtain ⟨hperm, hmany⟩ : (sumTerms ts).Perm ts ∧ 2 ≤ (sumTerms ts).length := by
      have hnone (t : Expr) (ht : t ∈ sumTerms ts) : t ≠ add ts := by
        rintro rfl
        cases (isSum_of_mem_sumTerms htidy ht).1
      rw [sum] at heq
      generalize sumTerms ts = us at heq hnone
      revert heq hnone
      fun_cases addNode us with
      | case1 =>
        intro heq
        cases heq
      | case2 t => exact fun heq hnone => absurd heq (hnone t mem_cons_self)
      | case3 _ hnil hsingle =>
        intro heq _
        rw [← Expr.add.inj heq]
        refine ⟨(mergeSort_perm _ _).symm, ?_⟩
        rcases us with _ | ⟨u, _ | ⟨u', us⟩⟩
        · exact (hnil rfl).elim
        · exact (hsingle u rfl).elim
        · simp
    have hsum (t : Expr) (ht : t ∈ ts) : t.isSum = false :=
      (isSum_of_mem_sumTerms htidy (hperm.mem_iff.mpr ht)).1
    refine ⟨⟨htidy, hsum, fun hzero => ?_, hkeys⟩, hperm.length_eq ▸ hmany⟩
    have hconstant := (isSum_of_mem_sumTerms htidy (hperm.mem_iff.mpr hzero)).2 rfl
    have hnumbers : ts.filterMap number? = [0] := by
      have hmem : (0 : Number) ∈ ts.filterMap number? := mem_filterMap.mpr ⟨_, hzero, rfl⟩
      rcases numbers_of_nodup hkeys with hnil | ⟨q, -, hsingle⟩
      · rw [hnil] at hmem
        cases hmem
      · rw [hsingle] at hmem ⊢
        rw [mem_singleton.mp hmem]
    rw [termLists_of_not_isSum hsum, filterMap_reverse, hnumbers] at hconstant
    rw [show constantTerms [(0 : Number)].reverse = [] by cbv] at hconstant
    cases hconstant

/-- The negative of a term is a term that is counted by the same key, and its negative is the term
again. -/
theorem neg_of_not_isSum (h : Tidy whole t) (hsum : t.isSum = false)
    (hexact : Exact (.product [num (-1), t])) (hbases : t.DistinctBases) :
    t.neg.neg = t ∧ Tidy whole t.neg ∧ t.neg.isSum = false ∧ (t.neg = zero → t = zero) ∧
      t.neg.key = t.key := by
  by_cases hnumber : t.isNumber
  · obtain ⟨q, rfl⟩ := exists_eq_num hnumber
    have hneg := inRange_neg_num hexact
    cases h with
    | num hq =>
      rw [neg_num hq hneg, neg_num hneg (by rwa [neg_neg]), neg_neg]
      refine ⟨rfl, .num hneg, rfl, fun hzero => ?_, rfl⟩
      rw [neg_eq_zero.mp (num.inj hzero)]
      rfl
  · rw [Bool.not_eq_true] at hnumber
    obtain ⟨q, gs, hfactored, rfl⟩ := exists_factored h hnumber hsum hbases
    have hneg := hfactored.inRange_neg hexact
    obtain ⟨hnumber', hsum', hsplit'⟩ := (hfactored.neg hneg).splitCoefficient_eq
    rw [hfactored.neg_neg_mulNode hneg, hfactored.neg_mulNode hneg]
    refine ⟨rfl, (hfactored.neg hneg).tidy_mulNode, hsum', fun hzero => ?_, ?_⟩
    · rw [hzero] at hnumber'
      cases hnumber'
    · rw [key, key, hsplit', hfactored.splitCoefficient_eq.2.2]

theorem Summands.map_neg (h : Summands whole ts) (hbases : ∀ t ∈ ts, t.DistinctBases)
    (hexact : ∀ t ∈ ts, Exact (.product [Expr.num (-1), t])) :
    Summands whole (ts.map Expr.neg) ∧ (ts.map Expr.neg).map Expr.neg = ts := by
  have hterm (t : Expr) (ht : t ∈ ts) :=
    neg_of_not_isSum (h.tidy t ht) (h.ne_sum t ht) (hexact t ht) (hbases t ht)
  have hkeys : (ts.map Expr.neg).map key = ts.map key := by
    rw [map_map]
    exact map_congr_left fun t ht => (hterm t ht).2.2.2.2
  refine ⟨⟨?_, ?_, fun hzero => ?_, hkeys ▸ h.keys⟩, ?_⟩
  · rw [forall_mem_map]
    exact fun t ht => (hterm t ht).2.1
  · rw [forall_mem_map]
    exact fun t ht => (hterm t ht).2.2.1
  · obtain ⟨t, ht, heq⟩ := mem_map.mp hzero
    rw [(hterm t ht).2.2.2.1 heq] at ht
    exact h.ne_zero ht
  · rw [map_map]
    exact (map_congr_left fun t ht => (hterm t ht).1).trans (map_id _)

section Sum

variable (h : Tidy whole (add ts))
include h

theorem joined_neg_add : joined [num (-1), add ts] = ⟨-1, [add ts], false⟩ := by
  have hothers : ((factorLists [num (-1), add ts]).filter (!·.isNumber)).Perm [add ts] := .refl _
  have htidy : ∀ g ∈ [add ts], Tidy whole g := by simpa using h
  have hbases : ([add ts].map base).Nodup := nodup_singleton _
  have hgiven : gather mul? 1
      ((factorLists [num (-1), add ts]).reverse.filterMap number?) = (-1, []) := by
    change gather mul? 1 [-1] = (-1, [])
    cbv
  rw [joined_of_distinct hothers htidy hbases (by simp [isNumber, isProduct]) hgiven,
    perm_singleton.mp (basePowers_of_distinct hothers htidy hbases)]

theorem neg_add : (add ts).neg = sum (ts.map neg) := by
  change product [num (-1), add ts] = _
  rw [product_eq_result, joined_neg_add h]
  rfl

theorem exact_neg_of_mem (hexact : Exact (.product [num (-1), add ts])) :
    ∀ t ∈ ts, Exact (.product [num (-1), t]) := by
  cases hexact with
  | zero hzero => cases hzero
  | product _ _ _ _ hspread _ =>
    rw [joined_neg_add h] at hspread
    exact hspread ts ⟨(by decide : (-1 : Number) ≠ 0), rfl, rfl⟩

end Sum

/-- An expression is its double negative, if minus one times it stays in range and its factors have
different bases. -/
theorem neg_neg_of_tidy {e : Expr} (h : Tidy whole e) (hexact : Exact (.product [num (-1), e]))
    (hbases : e.DistinctBases) : e.neg.neg = e := by
  by_cases hsum : e.isSum
  · obtain ⟨ts, rfl⟩ : ∃ ts, e = add ts := by
      cases e with
      | add ts => exact ⟨ts, rfl⟩
      | _ => cases hsum
    obtain ⟨hsummands, hmany⟩ := summands_of_tidy h
    have hparts (t : Expr) (ht : t ∈ ts) : t.DistinctBases := by
      apply hbases.of_parts
      intro r hr
      rw [parts, mem_cons, mem_partLists]
      exact .inr ⟨t, ht, hr⟩
    obtain ⟨hneg, hback⟩ := hsummands.map_neg hparts (exact_neg_of_mem h hexact)
    obtain ⟨us, hus, hperm⟩ := hneg.exists_add (by rwa [length_map])
    have htidy : Tidy whole (add us) := hus ▸ Tidy.sum hneg.tidy hneg.sumExact
    have hterms : (us.map neg).Perm ts := hback ▸ hperm.map neg
    calc (add ts).neg.neg
      _ = (add us).neg := by rw [neg_add h, hus]
      _ = sum (us.map neg) := neg_add htidy
      _ = sum ts := sum_perm hterms (hsummands.of_perm hterms).sumExact hsummands.sumExact
      _ = add ts := by
        cases h with
        | add _ heq _ => exact heq
  · exact (neg_of_not_isSum h (by simpa using hsum) hexact hbases).1

end Expr

end TensorCalculus
