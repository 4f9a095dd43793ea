import TensorCalculus.Proofs.Scalar.Exact

/-! The shape of simplified expressions, and that a sum of such expressions has it again. -/
namespace TensorCalculus

open List Number

variable {q : Number} {gs ts : List Expr} {es fs : List Expr} {f exponent t a : Expr}

namespace Expr

def isPower : Expr → Bool
  | pow _ _ => true
  | _ => false

/-- The factors of a product node behind its coefficient. One factor alone needs a coefficient
and is no sum. -/
structure IsProductNode (q : Number) (gs : List Expr) : Prop where
  inRange : inRange q
  ne_zero : q ≠ 0
  simple : ∀ g ∈ gs, g.isNumber = false ∧ g.isProduct = false
  sorted : gs.Pairwise fun a b => (factorCompare a b).isLE
  many : 2 ≤ gs.length ∨ q ≠ 1 ∧ ∃ g, gs = [g] ∧ g.isSum = false

def withCoefficient (q : Number) (gs : List Expr) : List Expr :=
  if q = 1 then gs else num q :: gs

theorem mem_withCoefficient (h : f ∈ withCoefficient q gs) : f = num q ∨ f ∈ gs := by
  rw [withCoefficient] at h
  split at h
  · exact .inr h
  · exact mem_cons.mp h

/-- Every node is what its constructor makes of its parts, up to factors of a product that have
the same base. With `whole`, all powers are integer powers and there are no exponentials; bases
are then different, too. -/
inductive Tidy (whole : Prop) : Expr → Prop
  | num {q : Number} : inRange q → Tidy whole (num q)
  | sym (s : String) : Tidy whole (sym s)
  | fn {f : Func} {a : Expr} : Tidy whole a → apply f a = fn f a → (whole → f ≠ .exp) →
      Tidy whole (fn f a)
  | pow {b e : Expr} : Tidy whole b → Tidy whole e → power b e = pow b e →
      (whole → e.isInteger ∧ b.isProduct = false ∧ b.isPower = false) → Tidy whole (pow b e)
  | mul {fs : List Expr} (q : Number) (gs : List Expr) : fs = withCoefficient q gs →
      (∀ g ∈ gs, Tidy whole g) → IsProductNode q gs → (whole → (gs.map base).Nodup) →
      Tidy whole (mul fs)
  | add {ts : List Expr} : (∀ t ∈ ts, Tidy whole t) → sum ts = add ts →
      (ts.map fun t => t.splitCoefficient.1).Nodup → Tidy whole (add ts)

variable {whole : Prop}

theorem Tidy.of_mem_mul (h : Tidy whole (Expr.mul fs)) : ∀ f ∈ fs, Tidy whole f := by
  cases h with
  | mul q gs heq hgs hnode _ =>
    intro f hf
    rcases mem_withCoefficient (heq ▸ hf) with rfl | hf
    · exact .num hnode.inRange
    · exact hgs f hf

theorem IsProductNode.one (h : IsProductNode q gs) (hmany : 2 ≤ gs.length) : IsProductNode 1 gs :=
  { h with inRange := by decide, ne_zero := by decide, many := .inl hmany }

theorem isBare_of_simple {g : Expr} (h : g.isNumber = false ∧ g.isProduct = false)
    (hsum : g.isSum = false) : g.isBare := by
  cases g <;> simp_all [isNumber, isProduct, isSum, isBare]

theorem isBare_mul (h : ∀ g ∈ gs, g.isNumber = false) (hmany : 2 ≤ gs.length) :
    (mul gs).isBare := by
  match gs, hmany with
  | g :: g' :: gs, _ =>
    have hg := h g mem_cons_self
    cases g <;> simp_all [isNumber, isBare]

theorem scale_of_not_isProduct (hq : q ≠ 1) {e : Expr} (he : e.isProduct = false) :
    scale q e = mul [num q, e] := by
  unfold scale
  rw [if_neg (by simpa using hq)]
  cases e <;> first | rfl | cases he

theorem scale_mul (hq : q ≠ 1) (fs : List Expr) : scale q (mul fs) = mul (num q :: fs) := by
  unfold scale
  rw [if_neg (by simpa using hq)]

theorem Tidy.splitCoefficient (h : Tidy whole t) (hnumber : t.isNumber = false)
    (hsum : t.isSum = false) :
    ∃ k q, t.splitCoefficient = (k, q) ∧ Tidy whole k ∧ k.isBare ∧ inRange q ∧ q ≠ 0 ∧
      Expr.scale q k = t := by
  have hself (hbare : t.isBare) : ∃ k q, t.splitCoefficient = (k, q) ∧ Tidy whole k ∧
      k.isBare ∧ inRange q ∧ q ≠ 0 ∧ Expr.scale q k = t :=
    ⟨t, 1, (isBare_self hbare).2.2, h, hbare, by decide, by decide, scale_one t⟩
  cases h with
  | num _ => cases hnumber
  | add _ _ _ => cases hsum
  | sym s => exact hself rfl
  | fn _ _ _ => exact hself rfl
  | pow _ _ _ _ => exact hself rfl
  | mul q gs heq hgs hnode hbases =>
    have hnumbers (g : Expr) (hg : g ∈ gs) := (hnode.simple g hg).1
    by_cases hq : q = 1
    · rw [withCoefficient, if_pos hq] at heq
      subst heq
      exact hself (isBare_mul hnumbers (hnode.many.resolve_right fun h => h.1 hq))
    · rw [withCoefficient, if_neg hq] at heq
      subst heq
      match gs, hnode.many with
      | [], hmany => simp at hmany
      | [g], hmany =>
        obtain ⟨-, g', heq, hsum⟩ := hmany.resolve_left (by simp)
        cases heq
        have hsimple := hnode.simple g mem_cons_self
        exact ⟨g, q, rfl, hgs g mem_cons_self, isBare_of_simple hsimple hsum, hnode.inRange,
          hnode.ne_zero, scale_of_not_isProduct hq hsimple.2⟩
      | g :: g' :: gs, _ =>
        have hmany : 2 ≤ (g :: g' :: gs).length := by simp
        exact ⟨.mul (g :: g' :: gs), q, rfl, .mul 1 _ (if_pos rfl).symm hgs (hnode.one hmany) hbases,
          isBare_mul hnumbers hmany, hnode.inRange, hnode.ne_zero, scale_mul hq _⟩

theorem Tidy.scale {k : Expr} (h : Tidy whole k) (hbare : k.isBare) (hq : inRange q)
    (hzero : q ≠ 0) : Tidy whole (Expr.scale q k) := by
  by_cases hone : q = 1
  · rwa [hone, scale_one]
  · by_cases hproduct : k.isProduct
    · cases h with
      | mul q' gs heq hgs hnode hbases =>
        -- A leading coefficient would not be bare.
        have hq' : q' = 1 := by
          by_contra hq'
          rw [heq, withCoefficient, if_neg hq'] at hbare
          cases hbare
        subst hq'
        rw [withCoefficient, if_pos rfl] at heq
        rw [scale_mul hone, heq]
        have hmany : 2 ≤ gs.length := hnode.many.resolve_right fun h => h.1 rfl
        exact .mul q gs (if_neg hone).symm hgs
          { hnode with inRange := hq, ne_zero := hzero, many := .inl hmany } hbases
      | _ => cases hproduct
    · rw [Bool.not_eq_true] at hproduct
      rw [scale_of_not_isProduct hone hproduct]
      have hsum : k.isSum = false := by cases k <;> first | rfl | cases hbare
      refine .mul q [k] (if_neg hone).symm (by simpa using h) ?_ (by simp)
      exact
        { inRange := hq
          ne_zero := hzero
          simple := by simpa using ⟨(isBare_self hbare).1, hproduct⟩
          sorted := pairwise_singleton ..
          many := .inr ⟨hone, k, rfl, hsum⟩ }

theorem Tidy.of_mem_terms {e : Expr} (h : Tidy whole e) :
    ∀ t ∈ e.terms, Tidy whole t ∧ t.isSum = false := by
  have hself (hsum : e.isSum = false) (hterms : e.terms = [e]) :
      ∀ t ∈ e.terms, Tidy whole t ∧ t.isSum = false := by
    simpa [hterms] using ⟨h, hsum⟩
  induction h with
  | add hts _ _ ih =>
    intro t ht
    rw [terms, termLists_eq_flatMap, mem_flatMap] at ht
    obtain ⟨u, hu, ht⟩ := ht
    refine ih u hu ?_ t ht
    intro hsum hterms
    simpa [hterms] using ⟨hts u hu, hsum⟩
  | _ => exact hself rfl rfl

theorem Tidy.of_mem_termLists (h : ∀ e ∈ es, Tidy whole e) :
    ∀ t ∈ termLists es, Tidy whole t ∧ t.isSum = false := by
  intro t ht
  rw [termLists_eq_flatMap, mem_flatMap] at ht
  obtain ⟨e, he, ht⟩ := ht
  exact (h e he).of_mem_terms t ht

theorem termLists_of_not_isSum (h : ∀ t ∈ ts, t.isSum = false) : termLists ts = ts := by
  have hself (t : Expr) (ht : t ∈ ts) : t.terms = [t] := by
    have hsum := h t ht
    cases t <;> first | rfl | cases hsum
  rw [termLists_eq_flatMap, flatMap_congr hself, flatMap_singleton']

theorem isBareIn_of_tidy (h : ∀ t ∈ ts, Tidy whole t ∧ t.isSum = false) : IsBareIn ts := by
  intro t ht hnumber
  obtain ⟨k, q, heq, -, hbare, -⟩ := (h t ht).1.splitCoefficient hnumber (h t ht).2
  rwa [heq]

theorem sumExact_of_nodup (hterms : termLists ts = ts)
    (hkeys : ((splitTerms ts).map Prod.fst).Nodup)
    (hnumbers : ts.filterMap number? = [] ∨ ∃ q, inRange q ∧ ts.filterMap number? = [q]) :
    SumExact ts:= by
  constructor
  · intro g hg
    rw [hterms] at hg
    have hperm := splitTerms_perm (reverse_perm ts)
    obtain ⟨q, hq⟩ := exists_mem_of_mem_collect hg
    have hvalues := perm_valuesAt_of_mem_collect hg
    rw [valuesAt_of_nodup ((hperm.map Prod.fst).nodup_iff.mpr hkeys) hq, perm_singleton] at hvalues
    rw [hvalues]
    exact rfl
  · rw [hterms, filterMap_reverse]
    rcases hnumbers with hnil | ⟨q, hq, hsingle⟩
    · rw [hnil]
      exact rfl
    · rw [hsingle, reverse_singleton, Number.Gathers, gather, add?_zero hq]
      rfl

theorem inRange_numberTotal (hexact : SumExact es) :
    inRange (numberTotal (termLists es)) := by
  have heq := hexact.numbers.add_eq
  rw [Rat.zero_add] at heq
  rw [← numberTotal_perm (reverse_perm (termLists es)), numberTotal, ← heq]
  exact inRange_gather_add? (by decide) _

section Sum

variable (h : ∀ e ∈ es, Tidy whole e) (hexact : SumExact es)
include h hexact

theorem tidy_of_mem_combined {p : Expr × Number} (hp : p ∈ combined (termLists es)) :
    Tidy whole p.1 ∧ p.1.isBare ∧ inRange p.2 ∧ p.2 ≠ 0 := by
  have hperm := reverse_perm (termLists es)
  have hsplit (k : Expr) (q : Number) (hkq : (k, q) ∈ splitTerms (termLists es).reverse) :
      Tidy whole k ∧ k.isBare ∧ inRange q := by
    obtain ⟨t, ht, heq⟩ := mem_map.mp hkq
    obtain ⟨ht, hnumber⟩ := mem_filter.mp ht
    obtain ⟨htidy, hsum⟩ := Tidy.of_mem_termLists h t (mem_reverse.mp ht)
    obtain ⟨k', q', hsplit, hkey, hbare, hrange, -⟩ :=
      htidy.splitCoefficient (by simpa using hnumber) hsum
    cases heq.symm.trans hsplit
    exact ⟨hkey, hbare, hrange⟩
  have hzero := (mem_combined.mp hp).2
  rw [← combined_congr fun k => coefficientOf_perm k hperm] at hp
  obtain ⟨g, hg, rfl⟩ := mem_map.mp (mem_of_mem_filter hp)
  obtain ⟨q, hq⟩ := exists_mem_of_mem_collect hg
  refine ⟨(hsplit _ _ hq).1, (hsplit _ _ hq).2.1, ?_, hzero⟩
  apply (hexact.coefficients g hg).inRange_sum
  intro v hv
  exact (hsplit _ _ (mem_of_mem_collect hg hv)).2.2

theorem tidy_of_mem_combinedTerms (ht : t ∈ combinedTerms (termLists es)) :
    Tidy whole t ∧ t.isSum = false := by
  rw [combinedTerms, mem_append, mem_map] at ht
  rcases ht with ⟨p, hp, rfl⟩ | ht
  · obtain ⟨htidy, hbare, hrange, hzero⟩ := tidy_of_mem_combined h hexact hp
    have hterms := (scale_of_isBare hbare p.2).2.1
    refine ⟨htidy.scale hbare hrange hzero, ?_⟩
    have hscaled := htidy.scale hbare hrange hzero
    exact (hscaled.of_mem_terms _ (hterms ▸ mem_singleton_self _)).2
  · split at ht
    · cases ht
    · rw [mem_singleton.mp ht]
      exact ⟨.num (inRange_numberTotal hexact), rfl⟩

theorem nodup_keys_combinedTerms :
    ((combinedTerms (termLists es)).map fun t => t.splitCoefficient.1).Nodup := by
  have hkeys : ((combined (termLists es)).map fun p => (scale p.2 p.1).splitCoefficient.1) =
      (combined (termLists es)).map Prod.fst := by
    apply map_congr_left
    intro p hp
    rw [(scale_of_isBare (tidy_of_mem_combined h hexact hp).2.1 p.2).2.2]
  rw [combinedTerms, map_append, map_map, Function.comp_def, hkeys, nodup_append]
  refine ⟨nodup_keys_combined _, by split <;> simp, ?_⟩
  intro k hk k' hk'
  obtain ⟨p, hp, rfl⟩ := mem_map.mp hk
  split at hk'
  · cases hk'
  · rw [map_singleton, mem_singleton] at hk'
    have hbare := (tidy_of_mem_combined h hexact hp).2.1
    rintro heq
    rw [heq, hk'] at hbare
    cases hbare

theorem sum_eq_of_perm_combinedTerms (hperm : ts.Perm (combinedTerms (termLists es))) :
    sum ts = sum es:= by
  have hbare := isBareIn_of_tidy (Tidy.of_mem_termLists h)
  have hterms : termLists ts = ts := by
    apply termLists_of_not_isSum
    intro t ht
    exact (tidy_of_mem_combinedTerms h hexact (hperm.mem_iff.mp ht)).2
  have hexact' : SumExact ts := by
    apply sumExact_of_nodup hterms
    · have hsplit := (splitTerms_perm hperm).map Prod.fst
      rw [splitTerms_combinedTerms hbare] at hsplit
      exact hsplit.nodup_iff.mpr (nodup_keys_combined _)
    · have hnumbers := hperm.filterMap number?
      rw [combinedTerms, filterMap_append, filterMap_scaled hbare, nil_append] at hnumbers
      split at hnumbers
      · exact .inl (perm_nil.mp hnumbers)
      · exact .inr ⟨_, inRange_numberTotal hexact, perm_singleton.mp hnumbers⟩
  apply sum_congr hexact' hexact
  · intro k
    rw [hterms, coefficientOf_perm k hperm, coefficientOf_combinedTerms hbare]
  · rw [hterms, numberTotal_perm hperm, numberTotal_combinedTerms hbare]

theorem Tidy.sum : Tidy whole (Expr.sum es) := by
  have hmem (t : Expr) (ht : t ∈ combinedTerms (termLists es)) :=
    (tidy_of_mem_combinedTerms h hexact ht).1
  have hkeys := nodup_keys_combinedTerms h hexact
  have hperm := mergeSort_perm (combinedTerms (termLists es)) fun a b => (termCompare a b).isLE
  have hsorted := sum_eq_of_perm_combinedTerms h hexact hperm
  have hsum : Expr.sum es = addNode (combinedTerms (termLists es)) :=
    congrArg addNode hexact.sumTerms_eq
  rw [hsum] at hsorted ⊢
  generalize combinedTerms (termLists es) = ts at *
  revert hsorted
  fun_cases addNode ts with
  | case1 => exact fun _ => .num (by decide)
  | case2 t => exact fun _ => hmem t mem_cons_self
  | case3 =>
    intro hsorted
    apply Tidy.add _ hsorted
    · exact (hperm.map _).nodup_iff.mpr hkeys
    · intro t ht
      exact hmem t (hperm.mem_iff.mp ht)

end Sum

end Expr

variable {b e : Expr} {operands : List Expr}

namespace Number

theorem isInteger_iff {q : Number} : isInteger q ↔ ∃ n : Int, q = n := by
  rw [isInteger, beq_iff_eq]
  constructor
  · intro h
    exact ⟨q.num, ((Rat.den_eq_one_iff q).mp h).symm⟩
  · rintro ⟨n, rfl⟩
    rfl

theorem isInteger_mul {a b : Number} (ha : isInteger a) (hb : isInteger b) : isInteger (a * b) := by
  rw [isInteger_iff] at *
  obtain ⟨m, rfl⟩ := ha
  obtain ⟨n, rfl⟩ := hb
  exact ⟨m * n, (Rat.intCast_mul m n).symm⟩

theorem isInteger_sum {qs : List Number} (h : ∀ q ∈ qs, isInteger q) : isInteger qs.sum := by
  induction qs with
  | nil => rfl
  | cons q qs ih =>
    rw [forall_mem_cons] at h
    have ih := ih h.2
    rw [sum_cons]
    rw [isInteger_iff] at *
    obtain ⟨m, rfl⟩ := h.1
    obtain ⟨n, hn⟩ := ih
    exact ⟨m + n, by rw [hn, Rat.intCast_add]⟩

end Number

namespace Expr

variable {whole : Prop}

theorem isNumber_of_isInteger (h : e.isInteger) : e.isNumber := by
  cases e <;> first | rfl | cases h

theorem isInteger_sum (h : ∀ e ∈ es, e.isInteger) (hexact : SumExact es) : (sum es).isInteger := by
  have hterms : termLists es = es := by
    apply termLists_of_not_isSum
    intro e he
    have hinteger := h e he
    cases e <;> first | rfl | cases hinteger
  have hcombined : combined es = [] := by
    have hnone : es.filter (!·.isNumber) = [] := by
      simpa using fun e he => isNumber_of_isInteger (h e he)
    rw [combined, splitTerms, hnone, map_nil, collect_nil]
    rfl
  have htotal : Number.isInteger (numberTotal es) := by
    apply Number.isInteger_sum
    intro q hq
    obtain ⟨e, he, heq⟩ := mem_filterMap.mp hq
    have hinteger := h e he
    cases e <;> cases heq
    exact hinteger
  rw [sum, hexact.sumTerms_eq, hterms, combinedTerms, hcombined]
  by_cases hzero : numberTotal es = 0
  · rw [if_pos hzero]
    rfl
  · rw [if_neg hzero]
    exact htotal

theorem Tidy.of_mem_factors (h : Tidy whole e) :
    ∀ f ∈ e.factors, Tidy whole f ∧ f.isProduct = false := by
  have hself (hproduct : e.isProduct = false) (hfactors : e.factors = [e]) :
      ∀ f ∈ e.factors, Tidy whole f ∧ f.isProduct = false := by
    simpa [hfactors] using ⟨h, hproduct⟩
  induction h with
  | mul q gs heq hgs hnode _ ih =>
    intro f hf
    rw [factors, factorLists_eq_flatMap, mem_flatMap, heq] at hf
    obtain ⟨g, hg, hf⟩ := hf
    rcases mem_withCoefficient hg with rfl | hg
    · rw [mem_singleton.mp hf]
      exact ⟨.num hnode.inRange, rfl⟩
    · refine ih g hg ?_ f hf
      intro hproduct hfactors
      simpa [hfactors] using ⟨hgs g hg, hproduct⟩
  | _ => exact hself rfl rfl

theorem Tidy.of_mem_factorLists (h : ∀ e ∈ es, Tidy whole e) :
    ∀ f ∈ factorLists es, Tidy whole f ∧ f.isProduct = false := by
  intro f hf
  rw [factorLists_eq_flatMap, mem_flatMap] at hf
  obtain ⟨e, he, hf⟩ := hf
  exact (h e he).of_mem_factors f hf

/-- A base that keeps its integer powers apart from those of other bases. -/
def IsAtomic (b : Expr) : Prop :=
  b.isProduct = false ∧ b.isPower = false ∧ ∀ a, b ≠ fn .exp a

theorem Tidy.splitPower (h : Tidy whole f) (hproduct : f.isProduct = false) :
    Tidy whole f.splitPower.1 ∧ Tidy whole f.splitPower.2 ∧
      (whole → f.splitPower.2.isInteger ∧ IsAtomic f.splitPower.1) := by
  have hself (hsplit : f.splitPower = (f, one)) (hpower : f.isPower = false)
      (hexp : whole → ∀ a, f ≠ .fn .exp a) : Tidy whole f.splitPower.1 ∧
      Tidy whole f.splitPower.2 ∧
        (whole → f.splitPower.2.isInteger ∧ IsAtomic f.splitPower.1) := by
    rw [hsplit]
    exact ⟨h, .num (by decide), fun hw => ⟨rfl, hproduct, hpower, hexp hw⟩⟩
  cases h with
  | pow hb he _ hwhole =>
    refine ⟨hb, he, fun hw => ⟨(hwhole hw).1, (hwhole hw).2.1, (hwhole hw).2.2, ?_⟩⟩
    rintro a rfl
    cases hb with
    | fn _ _ hexp => exact hexp hw rfl
  | fn _ _ hexp =>
    refine hself rfl rfl fun hw a heq => ?_
    cases heq
    exact hexp hw rfl
  | mul _ _ _ _ _ _ => cases hproduct
  | _ => exact hself rfl rfl nofun

theorem Tidy.baseGroups (h : ∀ e ∈ operands, Tidy whole e) {g : Expr × List Expr}
    (hg : g ∈ Expr.baseGroups operands) :
    Tidy whole g.1 ∧ (∀ e ∈ g.2, Tidy whole e) ∧
      (whole → (∀ e ∈ g.2, e.isInteger) ∧ IsAtomic g.1) := by
  have hsplit (b e : Expr) (hbe : (b, e) ∈ (((factorLists operands).reverse.filter
      (!·.isNumber)).map Expr.splitPower)) :
      Tidy whole b ∧ Tidy whole e ∧ (whole → e.isInteger ∧ IsAtomic b) := by
    obtain ⟨f, hf, heq⟩ := mem_map.mp hbe
    obtain ⟨htidy, hproduct⟩ :=
      Tidy.of_mem_factorLists h f (mem_reverse.mp (mem_of_mem_filter hf))
    have hsplit := htidy.splitPower hproduct
    rwa [heq] at hsplit
  obtain ⟨e, he⟩ := exists_mem_of_mem_collect hg
  refine ⟨(hsplit _ _ he).1, ?_, fun hw => ⟨?_, ((hsplit _ _ he).2.2 hw).2⟩⟩
  · intro e he
    exact (hsplit _ _ (mem_of_mem_collect hg he)).2.1
  · intro e he
    exact ((hsplit _ _ (mem_of_mem_collect hg he)).2.2 hw).1

theorem Tidy.mulNode {q : Number} (hq : inRange q) (hzero : q ≠ 0)
    (h : ∀ f ∈ fs, Tidy whole f) (hsimple : ∀ f ∈ fs, f.isNumber = false ∧ f.isProduct = false)
    (hsole : q ≠ 1 → ∀ ts, fs ≠ [.add ts]) (hbases : whole → (fs.map base).Nodup) :
    Tidy whole (Expr.mulNode q fs) := by
  fun_cases Expr.mulNode q fs with
  | case1 => exact .num hq
  | case2 f _ => exact h f mem_cons_self
  | case3 f hone =>
    rw [beq_iff_eq] at hone
    have hsum : f.isSum = false := by
      cases f with
      | add ts => exact absurd rfl (hsole hone ts)
      | _ => rfl
    refine .mul q [f] (if_neg hone).symm h ?_ hbases
    exact
      { inRange := hq
        ne_zero := hzero
        simple := hsimple
        sorted := pairwise_singleton ..
        many := .inr ⟨hone, f, rfl, hsum⟩ }
  | case4 _ hnil hsingle =>
    have hperm := mergeSort_perm fs fun a b => (factorCompare a b).isLE
    have hmany : 2 ≤ fs.length := by
      rcases fs with _ | ⟨f, _ | _⟩
      · exact (hnil rfl).elim
      · exact (hsingle f rfl).elim
      · simp
    refine .mul q (fs.mergeSort fun a b => (factorCompare a b).isLE)
      (by simp only [withCoefficient, beq_iff_eq]; rfl) ?_ ?_ ?_
    · intro f hf
      exact h f (hperm.mem_iff.mp hf)
    · exact
        { inRange := hq
          ne_zero := hzero
          simple := fun f hf => hsimple f (hperm.mem_iff.mp hf)
          sorted := pairwise_mergeSort_isLE fs
          many := .inl (hperm.length_eq ▸ hmany) }
    · intro hw
      exact (hperm.map base).nodup_iff.mpr (hbases hw)

theorem Tidy.apply {f : Func} (h : Tidy whole a) (hf : whole → f ≠ .exp) :
    Tidy whole (Expr.apply f a) := by
  by_cases heq : Expr.apply f a = .fn f a
  · rw [heq]
    exact .fn h heq hf
  · revert heq
    fun_cases Expr.apply f a with
    | case1 g inner _ =>
      intro _
      cases h with
      | fn hinner _ _ => exact hinner
    | case3 q _ n hn =>
      intro _
      apply Tidy.num
      cases f <;> cases hn <;> decide
    | case5 => exact fun _ => .num (by decide)
    | _ => exact fun heq => absurd rfl heq

theorem Tidy.numberPower {b : Number} (hb : inRange b) (he : Tidy whole e)
    (hzero : e.isZero = false) (hone : e.isOne = false) (hwhole : whole → e.isInteger)
    (hrange : ∀ n q, e = .num n → pow? b n = some q → inRange q) :
    Tidy whole (Expr.numberPower b e) := by
  have hpower : power (.num b) e = Expr.numberPower b e := by
    rw [power_eq, hzero, hone]
    rfl
  have hpow (heq : Expr.numberPower b e = .pow (.num b) e) : Tidy whole (Expr.pow (.num b) e) :=
    .pow (.num hb) he (hpower.trans heq) fun hw => ⟨hwhole hw, rfl, rfl⟩
  revert hpow
  fun_cases Expr.numberPower b e with
  | case2 n _ q hq => exact fun _ => .num (hrange n q rfl hq)
  | case4 | case6 => exact fun hpow => hpow rfl
  | _ => exact fun _ => .num (by decide)

section Join

variable (hfactors : FactorsExact operands)
  (hgathers : Number.Gathers mul?
    (gather mul? 1 ((factorLists operands).reverse.filterMap number?)).1
    ((basePowers operands).filterMap number?))

theorem inRange_joined (operands : List Expr) : inRange (joined operands).coefficient :=
  (inRange_gather_mul? (inRange_gather_mul? (by decide) _).1 _).1

include hfactors hgathers

theorem factors_joined : (joined operands).factors =
    (((basePowers operands).filter (!·.isNumber)).map outerFactors).flatten := by
  have hgiven : (gather mul? 1
      ((factorLists operands).reverse.filterMap number?)).2 = [] := hfactors.numbers
  simp only [joined, join, hgiven, show (gather ..).2 = [] from hgathers, append_nil,
    map_nil]

theorem factors_joined_of_not_reopened (h : (joined operands).reopened = false) :
    (joined operands).factors = (basePowers operands).filter (!·.isNumber) := by
  rw [factors_joined hfactors hgathers]
  have hself (p : Expr) (hp : p ∈ (basePowers operands).filter (!·.isNumber)) :
      outerFactors p = [p] := by
    have hproduct : p.isProduct = false := by
      rw [joined, join, any_eq_false] at h
      simpa using h p hp
    cases p <;> first | rfl | cases hproduct
  rw [← flatMap_def, flatMap_congr hself, flatMap_singleton']

end Join

theorem base_power (h : IsAtomic b) (e : Expr) :
    (power b e).isNumber ∨ (power b e).base = b ∧ (power b e).isProduct = false := by
  obtain ⟨hproduct, hpower, hexp⟩ := h
  have hself : b.base = b := by cases b <;> first | rfl | cases hpower
  rw [power_eq]
  split
  · exact .inl rfl
  · split
    · exact .inr ⟨hself, hproduct⟩
    · cases b with
      | num b =>
        change (numberPower b e).isNumber ∨
          (numberPower b e).base = num b ∧ (numberPower b e).isProduct = false
        fun_cases numberPower b e with
        | case4 | case6 => exact .inr ⟨rfl, rfl⟩
        | _ => exact .inl rfl
      | fn f a =>
        cases f with
        | exp => exact absurd rfl (hexp a)
        | _ => exact .inr ⟨rfl, rfl⟩
      | pow _ _ => cases hpower
      | mul _ => cases hproduct
      | _ => exact .inr ⟨rfl, rfl⟩

theorem nodup_base_basePowers (h : ∀ g ∈ baseGroups operands, IsAtomic g.1) :
    (((basePowers operands).filter (!·.isNumber)).map base).Nodup := by
  have hkeys : ((baseGroups operands).map Prod.fst).Nodup := nodup_keys_collect _
  rw [basePowers]
  generalize baseGroups operands = groups at h hkeys
  have hmap : ((groups.map fun g => power g.1 (sum g.2)).filter (!·.isNumber)).map base =
      (groups.filter fun g => !(power g.1 (sum g.2)).isNumber).map Prod.fst := by
    rw [filter_map, map_map]
    apply map_congr_left
    intro g hg
    obtain ⟨hg, hnumber⟩ := mem_filter.mp hg
    exact ((base_power (h g hg) (sum g.2)).resolve_left (by simpa using hnumber)).1
  rw [hmap]
  exact hkeys.sublist (filter_sublist.map _)

def Call.Tidy (whole : Prop) : Call → Prop
  | .product operands => ∀ e ∈ operands, Expr.Tidy whole e
  | .power base exponent =>
    Expr.Tidy whole base ∧ Expr.Tidy whole exponent ∧ (whole → exponent.isInteger)

def Call.value : Call → Expr
  | .product operands => Expr.product operands
  | .power base exponent => Expr.power base exponent

theorem isInteger_product {b : Expr} (ha : a.isInteger) (hb : b.isInteger) (h : FactorsExact [a, b]) :
    (product [a, b]).isInteger := by
  obtain ⟨m, rfl⟩ := exists_eq_num (isNumber_of_isInteger ha)
  obtain ⟨n, rfl⟩ := exists_eq_num (isNumber_of_isInteger hb)
  have hpowers : basePowers [num m, num n] = [] := by
    simp [basePowers, baseGroups, factorLists, factors]
  have hjoined : joined [num m, num n] = ⟨n * m, [], false⟩ := by
    have hgiven : gather mul? 1
        ((factorLists [num m, num n]).reverse.filterMap number?) = (n * m, []) := by
      apply Prod.ext
      · rw [h.numbers.mul_eq]
        simp [factorLists, factors]
      · exact h.numbers
    rw [joined, join, hpowers, hgiven]
    rfl
  rw [product_eq_result, hjoined, Joined.result]
  split
  · rfl
  · split
    · rfl
    · exact isInteger_mul hb ha

theorem Tidy.of_mem_outerFactors (h : Tidy whole e) : ∀ f ∈ e.outerFactors, Tidy whole f := by
  fun_cases outerFactors e with
  | case1 fs => exact h.of_mem_mul
  | case2 => simpa using h

theorem power_of_not_opens (hzero : ¬ e.isZero) (hone : ¬ e.isOne) (h : opens b e = false) :
    power b e = pow b e:= by
  rw [power_eq, if_neg hzero, if_neg hone]
  cases b with
  | num q => cases h
  | fn f a => cases f <;> first | rfl | cases h
  | pow b e' => exact if_neg (by simpa [opens] using h)
  | mul fs => exact if_neg (by simpa [opens] using h)
  | _ => rfl

section

variable (hzero : ¬ exponent.isZero) (hone : ¬ exponent.isOne) (hinteger : exponent.isInteger)
include hzero hone hinteger

theorem power_pow : power (pow b e) exponent = power b (product [e, exponent]) := by
  rw [power_eq, if_neg hzero, if_neg hone]
  exact if_pos hinteger

theorem power_mul : power (mul fs) exponent = product (fs.map fun f => power f exponent) := by
  rw [power_eq, if_neg hzero, if_neg hone]
  exact if_pos hinteger

end

theorem tidy_power (hb : Tidy whole b) (h : ¬ e.isZero → ¬ e.isOne → Tidy whole (power b e)) :
    Tidy whole (power b e):= by
  by_cases hzero : e.isZero
  · rw [power_eq, if_pos hzero]
    exact .num (by decide)
  by_cases hone : e.isOne
  · rwa [power_eq, if_neg hzero, if_pos hone]
  · exact h hzero hone

theorem Exact.factorsExact (h : Exact (.product operands)) :
    (factorLists operands).any isZero ∨ FactorsExact operands := by
  cases h with
  | zero hzero => exact .inl hzero
  | product hfactors => exact .inr hfactors

section Product

variable (hfactors : FactorsExact operands)
  (hgathers : Number.Gathers mul?
    (gather mul? 1 ((factorLists operands).reverse.filterMap number?)).1
    ((basePowers operands).filterMap number?))
  (hoperands : ∀ e ∈ operands, Tidy whole e) (hpowers : ∀ p ∈ basePowers operands, Tidy whole p)
include hfactors hgathers hpowers

theorem tidy_of_mem_joined (hf : f ∈ (joined operands).factors) : Tidy whole f := by
  rw [factors_joined hfactors hgathers, mem_flatten] at hf
  obtain ⟨_, hmap, hf⟩ := hf
  obtain ⟨p, hp, rfl⟩ := mem_map.mp hmap
  exact (hpowers p (mem_of_mem_filter hp)).of_mem_outerFactors f hf

include hoperands

theorem tidy_mulNode_joined (hzero : (joined operands).coefficient ≠ 0)
    (hreopened : (joined operands).reopened = false) (hsole : (joined operands).soleSum? = none) :
    Tidy whole (mulNode (joined operands).coefficient (joined operands).factors) := by
  have hrest := factors_joined_of_not_reopened hfactors hgathers hreopened
  apply Tidy.mulNode (inRange_joined operands) hzero
  · intro f hf
    exact tidy_of_mem_joined hfactors hgathers hpowers hf
  · intro f hf
    rw [hrest] at hf
    rw [joined, join, any_eq_false] at hreopened
    exact ⟨by simpa using (mem_filter.mp hf).2, by simpa using hreopened f hf⟩
  · intro hone ts heq
    rw [Joined.soleSum?, heq] at hsole
    simp [hone] at hsole
  · intro hw
    rw [hrest]
    exact nodup_base_basePowers fun g hg => ((Tidy.baseGroups hoperands hg).2.2 hw).2

end Product

theorem Exact.tidy {c : Call} (h : Exact c) (hc : c.Tidy whole) : Tidy whole c.value := by
  -- The induction follows the calls that a call makes.
  induction h with
  | zero hzero =>
    rw [Call.value, product_eq_result, if_pos hzero]
    exact .num (by decide)
  | @product operands hfactors _ hgathers _ _ hsums ihpowers ihreopened ihspread =>
    have hpowers (p : Expr) (hp : p ∈ basePowers operands) : Tidy whole p := by
      obtain ⟨g, hg, rfl⟩ := mem_map.mp hp
      obtain ⟨hbase, hexponents, hwhole⟩ := Tidy.baseGroups hc hg
      have hexact := hfactors.exponents g hg
      exact ihpowers g hg ⟨hbase, Tidy.sum hexponents hexact,
        fun hw => isInteger_sum (hwhole hw).1 hexact⟩
    have hmem (f : Expr) := tidy_of_mem_joined hfactors hgathers hpowers (f := f)
    have hrange : Tidy whole (.num (joined operands).coefficient) := .num (inRange_joined operands)
    rw [Call.value, product_eq_result]
    split
    · exact .num (by decide)
    rw [Joined.result]
    split
    · exact .num (by decide)
    next hzero =>
    rw [beq_iff_eq] at hzero
    split
    · next hreopened =>
      apply ihreopened ⟨hzero, hreopened⟩
      rw [Call.Tidy, forall_mem_append, forall_mem_singleton]
      exact ⟨hmem, hrange⟩
    next hreopened =>
    rw [Bool.not_eq_true] at hreopened
    split
    · next ts hsole =>
      have hts : Tidy whole (.add ts) :=
        hmem _ ((Joined.soleSum?_eq_some hsole).1 ▸ mem_singleton_self _)
      apply Tidy.sum _ (hsums ts ⟨hzero, hreopened, hsole⟩)
      intro e he
      obtain ⟨t, ht, rfl⟩ := mem_map.mp he
      cases hts with
      | add hts _ _ =>
        apply ihspread ts ⟨hzero, hreopened, hsole⟩ t ht
        simpa [Call.Tidy] using ⟨hrange, hts t ht⟩
    · next hsole => exact tidy_mulNode_joined hfactors hgathers hc hpowers hzero hreopened hsole
  | @unit base exponent hunit =>
    refine tidy_power hc.1 fun hzero hone => ?_
    exact (hunit.elim hzero hone).elim
  | @number base exponent hrange =>
    obtain ⟨hb, he, hwhole⟩ := hc
    refine tidy_power hb fun hzero hone => ?_
    cases hb with
    | num hb =>
      rw [power_eq, if_neg hzero, if_neg hone]
      rw [Bool.not_eq_true] at hzero hone
      exact Tidy.numberPower hb he hzero hone hwhole hrange
  | @exp a exponent _ ih =>
    obtain ⟨hb, he, hwhole⟩ := hc
    refine tidy_power hb fun hzero hone => ?_
    cases hb with
    | fn ha _ hf =>
      rw [power_eq, if_neg hzero, if_neg hone]
      exact Tidy.apply (ih (by simpa [Call.Tidy] using ⟨ha, he⟩)) hf
  | @pow b e exponent hinteger hproduct _ ihproduct ihpower =>
    obtain ⟨hb, he, hwhole⟩ := hc
    refine tidy_power hb fun hzero hone => ?_
    cases hb with
    | pow hb he' _ hpow =>
      rw [power_pow hzero hone hinteger]
      refine ihpower ⟨hb, ihproduct (by simpa [Call.Tidy] using ⟨he', he⟩), fun hw => ?_⟩
      rcases hproduct.factorsExact with hzero | hfactors
      · rw [product_eq_result, if_pos hzero]
        rfl
      · exact isInteger_product (hpow hw).1 hinteger hfactors
  | @mul fs exponent hinteger _ _ ihpowers ihproduct =>
    obtain ⟨hb, he, hwhole⟩ := hc
    refine tidy_power hb fun hzero hone => ?_
    rw [power_mul hzero hone hinteger]
    apply ihproduct
    intro p hp
    obtain ⟨f, hf, rfl⟩ := mem_map.mp hp
    exact ihpowers f hf ⟨hb.of_mem_mul f hf, he, hwhole⟩
  | @plain base exponent hopens =>
    obtain ⟨hb, he, hwhole⟩ := hc
    refine tidy_power hb fun hzero hone => ?_
    have hpower := power_of_not_opens hzero hone hopens
    rw [hpower]
    refine .pow hb he hpower fun hw => ⟨hwhole hw, ?_⟩
    cases base <;> simp_all [isProduct, isPower, opens]

end Expr

end TensorCalculus
