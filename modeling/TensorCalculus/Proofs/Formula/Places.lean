import TensorCalculus.Formula.Covariant
import TensorCalculus.Proofs.Formula.Scope
import TensorCalculus.Proofs.Text.Slice

/-! The same formula at other places. What is done to a formula does not look at the places in it:
they are only passed on, to other formulas and to errors. -/
namespace TensorCalculus

open List

/-- The same formula, where the places are related. -/
inductive Formula.Matches (R : Span → Span → Prop) : Formula → Formula → Prop
  | num (q : Number) : Matches R (num q) (num q)
  | sym (name : String) : Matches R (sym name) (sym name)
  | tensor (t : TensorRef) {span : Span} : R t.span span →
      Matches R (tensor t) (tensor { t with span })
  | derivative (kind : DerivativeKind) (i : Index) {f f' : Formula} (dimension : Option Nat)
      {span span' : Span} : Matches R f f' → R span span' →
      Matches R (derivative kind i f dimension span) (derivative kind i f' dimension span')
  | sum {ts ts' : List Formula} : Forall₂ (Matches R) ts ts' → Matches R (sum ts) (sum ts')
  | product {fs fs' : List Formula} : Forall₂ (Matches R) fs fs' →
      Matches R (product fs) (product fs')
  | power {b b' e e' : Formula} : Matches R b b' → Matches R e e' →
      Matches R (power b e) (power b' e')
  | fn (g : Func) {a a' : Formula} : Matches R a a' → Matches R (fn g a) (fn g a')
  | contraction (index : String) (dimension : Nat) {f f' : Formula} : Matches R f f' →
      Matches R (contraction index dimension f) (contraction index dimension f')

structure Occurrence.Matches (R : Span → Span → Prop) (o o' : Occurrence) : Prop where
  name : o'.name = o.name
  height : o'.height = o.height
  dimension : o'.dimension = o.dimension
  span : R o.span o'.span

inductive IndexRole.Matches (R : Span → Span → Prop) : IndexRole → IndexRole → Prop
  | free {o o' : Occurrence} : Occurrence.Matches R o o' → Matches R (free o) (free o')
  | bound (name : String) (dimension : Option Nat) :
      Matches R (bound name dimension) (bound name dimension)

variable {R : Span → Span → Prop} {dims : Dimensions}

namespace Formula

@[elab_as_elim] theorem matches_induction {P : Formula → Formula → Prop} (num : ∀ q, P (num q) (num q))
    (sym : ∀ name, P (sym name) (sym name))
    (tensor : ∀ t span, R t.span span → P (tensor t) (tensor { t with span }))
    (derivative : ∀ kind i f f' dimension span span', P f f' → R span span' →
      P (derivative kind i f dimension span) (derivative kind i f' dimension span'))
    (sum : ∀ ts ts', Forall₂ P ts ts' → P (sum ts) (sum ts'))
    (product : ∀ fs fs', Forall₂ P fs fs' → P (product fs) (product fs'))
    (power : ∀ b b' e e', P b b' → P e e' → P (power b e) (power b' e'))
    (fn : ∀ g a a', P a a' → P (fn g a) (fn g a'))
    (contraction : ∀ index dimension f f', Matches R f f' → P f f' →
      P (contraction index dimension f) (contraction index dimension f'))
    {f f' : Formula} (h : Matches R f f') : P f f' :=
  @Matches.rec R (fun f f' _ => P f f') (fun fs fs' _ => Forall₂ P fs fs') num sym
    (fun t span hspan => tensor t span hspan)
    (fun kind i _ _ dimension _ _ _ hspan ih => derivative kind i _ _ dimension _ _ ih hspan)
    (fun _ ih => sum _ _ ih) (fun _ ih => product _ _ ih)
    (fun _ _ ihb ihe => power _ _ _ _ ihb ihe) (fun g _ _ _ ih => fn g _ _ ih)
    (fun index dimension _ _ h ih => contraction index dimension _ _ h ih) .nil
    (fun _ _ ih ihs => .cons ih ihs) f f' h

namespace Matches

variable {f f' : Formula}

theorem refl (hR : ∀ span, R span span) (f : Formula) : Matches R f f := by
  induction f using Formula.induction with
  | num q => exact .num q
  | sym s => exact .sym s
  | tensor t => exact .tensor t (hR t.span)
  | derivative kind i operand dimension span ih => exact .derivative kind i dimension ih (hR span)
  | sum ts ih => exact .sum (forall₂_same.mpr ih)
  | product fs ih => exact .product (forall₂_same.mpr ih)
  | power b e hb he => exact .power hb he
  | fn g a ih => exact .fn g ih
  | contraction index dimension body ih => exact .contraction index dimension ih

theorem eq_of_eq (h : Matches Eq f f') : f = f' := by
  have hlists {fs fs' : List Formula} (h : Forall₂ (· = ·) fs fs') : fs = fs' := by
    rwa [forall₂_eq_eq_eq] at h
  refine matches_induction ?num ?sym ?tensor ?derivative ?sum ?product ?power ?fn ?contraction h
  case num | sym => intros; rfl
  case tensor => rintro t _ rfl; rfl
  case derivative => rintro _ _ _ _ _ _ _ rfl rfl; rfl
  case sum => exact fun _ _ ih => congrArg Formula.sum (hlists ih)
  case product => exact fun _ _ ih => congrArg Formula.product (hlists ih)
  case power => rintro _ _ _ _ rfl rfl; rfl
  case fn => rintro _ _ _ rfl; rfl
  case contraction => rintro _ _ _ _ _ rfl; rfl

theorem names_and_dimension (dims : Dimensions) (h : Matches R f f') :
    f'.indexNames = f.indexNames ∧ f'.freeNames = f.freeNames ∧
      f'.firstDimension? dims = f.firstDimension? dims := by
  have hlists {fs fs' : List Formula} (h : Forall₂ (fun f f' => f'.indexNames = f.indexNames ∧
      f'.freeNames = f.freeNames ∧ f'.firstDimension? dims = f.firstDimension? dims) fs fs') :
      indexNameLists fs' = indexNameLists fs ∧ freeNameLists fs' = freeNameLists fs ∧
        firstDimensionIn? dims fs' = firstDimensionIn? dims fs := by
    induction h with
    | nil => exact ⟨rfl, rfl, rfl⟩
    | cons hf _ ih =>
      simp only [indexNameLists, freeNameLists, firstDimensionIn?, hf, ih, and_self]
  refine matches_induction ?num ?sym ?tensor ?derivative ?sum ?product ?power ?fn ?contraction h
  case num | sym | tensor => intros; exact ⟨rfl, rfl, rfl⟩
  case derivative =>
    intro _ _ _ _ _ _ _ ih _
    simp only [Formula.indexNames, Formula.freeNames, Formula.firstDimension?, ih, and_self]
  case sum =>
    intro _ _ ih
    have hts := hlists ih
    refine ⟨hts.1, ?_, hts.2.2⟩
    cases ih with
    | nil => rfl
    | cons ht _ => exact ht.2.1
  case product =>
    intro _ _ ih
    simp only [Formula.indexNames, Formula.freeNames, Formula.firstDimension?, hlists ih, and_self]
  case power =>
    intro _ _ _ _ ihb ihe
    simp only [Formula.indexNames, Formula.freeNames, Formula.firstDimension?, ihb, ihe, and_self]
  case fn =>
    intro _ _ _ ih
    exact ⟨ih.1, rfl, ih.2.2⟩
  case contraction =>
    intro _ _ _ _ _ ih
    simp only [Formula.indexNames, Formula.freeNames, Formula.firstDimension?, ih, and_self]

theorem indexNames (h : Matches R f f') : f'.indexNames = f.indexNames :=
  (h.names_and_dimension ⟨fun _ => none, none, 0⟩).1

theorem freeNames (h : Matches R f f') : f'.freeNames = f.freeNames :=
  (h.names_and_dimension ⟨fun _ => none, none, 0⟩).2.1

theorem rename (source target : String) (h : Matches R f f') :
    Matches R (f.rename source target) (f'.rename source target) := by
  have hlists {fs fs' : List Formula} (h : Forall₂ (fun f f' =>
      Matches R (f.rename source target) (f'.rename source target)) fs fs') :
      Forall₂ (Matches R) (renameAll source target fs) (renameAll source target fs') := by
    induction h with
    | nil => exact .nil
    | cons hf _ ih => exact .cons hf ih
  refine matches_induction ?num ?sym ?tensor ?derivative ?sum ?product ?power ?fn ?contraction h
  case num => exact fun q => .num q
  case sym => exact fun name => .sym name
  case tensor => exact fun t _ hspan => .tensor (t.rename source target) hspan
  case derivative =>
    exact fun kind _ _ _ dimension _ _ ih hspan => .derivative kind _ dimension ih hspan
  case sum => exact fun _ _ ih => .sum (hlists ih)
  case product => exact fun _ _ ih => .product (hlists ih)
  case power => exact fun _ _ _ _ ihb ihe => .power ihb ihe
  case fn => exact fun g _ _ ih => .fn g ih
  case contraction =>
    intro index dimension f f' h ih
    rw [Formula.rename, Formula.rename]
    split
    · exact .contraction index dimension h
    · exact .contraction index dimension ih

theorem isMinusOne (h : Matches R f f') : f'.isMinusOne = f.isMinusOne := by
  cases h <;> rfl

theorem negate (h : Matches R f f') : Matches R f.negate f'.negate := by
  cases h with
  | num q => exact .num (-q)
  | sym name => exact .product (.cons (.num _) (.cons (.sym name) .nil))
  | tensor t hspan => exact .product (.cons (.num _) (.cons (.tensor t hspan) .nil))
  | derivative kind i dimension hf hspan =>
    exact .product (.cons (.num _) (.cons (.derivative kind i dimension hf hspan) .nil))
  | sum hts => exact .product (.cons (.num _) (.cons (.sum hts) .nil))
  | product hfs => exact .product (.cons (.num _) (.cons (.product hfs) .nil))
  | power hb he => exact .product (.cons (.num _) (.cons (.power hb he) .nil))
  | fn g ha => exact .product (.cons (.num _) (.cons (.fn g ha) .nil))
  | contraction index dimension hf =>
    exact .product (.cons (.num _) (.cons (.contraction index dimension hf) .nil))

end Matches

theorem ofTerms_matches {ts ts' : List Formula} (h : Forall₂ (Matches R) ts ts') :
    Matches R (ofTerms ts) (ofTerms ts') := by
  obtain - | ⟨ht, - | ⟨hu, hts⟩⟩ := h
  · exact .sum .nil
  · exact ht
  · exact .sum (.cons ht (.cons hu hts))

theorem ofFactors_matches {fs fs' : List Formula} (h : Forall₂ (Matches R) fs fs') :
    Matches R (ofFactors fs) (ofFactors fs') := by
  obtain - | ⟨hf, - | ⟨hg, hfs⟩⟩ := h
  · exact .product .nil
  · exact hf
  · exact .product (.cons hf (.cons hg hfs))

theorem connectionTerm_matches (hnone : R .none .none) (mark : Diacritic) (name : String)
    (height : Height) (dummy : String) (index : Index) {f f' : Formula} (h : Matches R f f') :
    Matches R (connectionTerm mark name height dummy index f)
      (connectionTerm mark name height dummy index f') := by
  have hconnection (indices : List Index) :
      Matches R (connection mark indices) (connection mark indices) := .tensor _ hnone
  cases height with
  | upper => exact .product (.cons (hconnection _) (.cons h .nil))
  | lower => exact .product (.cons (.num _) (.cons (hconnection _) (.cons h .nil)))

theorem covariantStep_matches (hnone : R .none .none) (mark : Diacritic) (index : Index)
    (taken : List String) {f f' : Formula} (h : Matches R f f') :
    Matches R (f.covariantStep mark index taken).1 (f'.covariantStep mark index taken).1 ∧
      (f'.covariantStep mark index taken).2 = (f.covariantStep mark index taken).2 := by
  rw [covariantStep, covariantStep, h.indexNames, h.freeNames]
  refine ⟨ofTerms_matches (.cons (.derivative _ _ _ h hnone) ?_), rfl⟩
  rw [forall₂_map_left_iff, forall₂_map_right_iff, forall₂_same]
  rintro ⟨name, height⟩ -
  exact connectionTerm_matches hnone mark name height _ _ (h.rename name _)

end Formula

namespace Occurrence.Matches

variable {o o' : Occurrence} {os os' : List Occurrence}

theorem key (h : Matches R o o') : o'.key = o.key := by
  rw [Occurrence.key, Occurrence.key, h.name, h.height]

theorem describe (h : Matches R o o') : o'.describe = o.describe := by
  rw [Occurrence.describe, Occurrence.describe, Occurrence.index, Occurrence.index, h.name, h.height]

theorem map_eq {g : Occurrence → α} (hg : ∀ o o', Matches R o o' → g o' = g o)
    (h : Forall₂ (Matches R) os os') : os'.map g = os.map g := by
  induction h with
  | nil => rfl
  | cons ho _ ih => rw [map_cons, map_cons, hg _ _ ho, ih]

theorem keys (h : Forall₂ (Matches R) os os') : os'.map Occurrence.key = os.map Occurrence.key :=
  map_eq (fun _ _ h => h.key) h

theorem descriptions (h : Forall₂ (Matches R) os os') :
    os'.map Occurrence.describe = os.map Occurrence.describe :=
  map_eq (fun _ _ h => h.describe) h

theorem filter (p : String → Bool) (h : Forall₂ (Matches R) os os') :
    Forall₂ (Matches R) (os.filter (p ·.name)) (os'.filter (p ·.name)) := by
  induction h with
  | nil => exact .nil
  | cons ho _ ih =>
    rw [filter_cons, filter_cons, ho.name]
    split
    · exact .cons ho ih
    · exact ih

end Occurrence.Matches

namespace IndexRole

variable {o o' : Occurrence} {os os' : List Occurrence}

theorem ofOccurrences_matches (ho : Occurrence.Matches R o o')
    (h : Forall₂ (Occurrence.Matches R) os os') :
    SameOutcome R (Matches R) (ofOccurrences o os) (ofOccurrences o' os') := by
  cases h with
  | nil => exact .ok (.free ho)
  | @cons b b' rest rest' hb hrest =>
    have hlast : Occurrence.Matches R (rest.getLastD b) (rest'.getLastD b') := by
      induction hrest generalizing b b' with
      | nil => exact hb
      | cons hc _ ih =>
        rw [getLastD_cons, getLastD_cons]
        exact ih hc
    have hempty : rest'.isEmpty = rest.isEmpty := by cases hrest <;> rfl
    rw [ofOccurrences, ofOccurrences, ho.height, ho.dimension, ho.name, hb.height, hb.dimension,
      hempty, ← hrest.length_eq]
    split
    · split
      · split
        · exact .ok (.bound _ _)
        · exact .error _ hb.span
      · exact .ok (.bound _ _)
    · exact .error _ hlast.span

theorem ofTerm_matches {os os' : List Occurrence} (h : Forall₂ (Occurrence.Matches R) os os') :
    SameOutcome R (Forall₂ (Matches R)) (ofTerm os) (ofTerm os') := by
  cases h with
  | nil =>
    rw [ofTerm]
    exact .ok .nil
  | @cons o o' rest rest' ho hrest =>
    rw [ofTerm, ofTerm, ho.name]
    have hsame := Occurrence.Matches.filter (· == o.name) hrest
    have hothers := Occurrence.Matches.filter (· != o.name) hrest
    exact (ofOccurrences_matches ho hsame).bind fun role role' hrole =>
      (ofTerm_matches hothers).bind fun roles roles' hroles => .ok (.cons hrole hroles)
termination_by os.length
decreasing_by exact Nat.lt_succ_of_le (length_filter_le ..)

section

variable {roles roles' : List IndexRole} (h : Forall₂ (Matches R) roles roles')
include h

theorem free?_matches :
    Forall₂ (Occurrence.Matches R) (roles.filterMap free?) (roles'.filterMap free?) := by
  induction h with
  | nil => exact .nil
  | cons hrole _ ih =>
    cases hrole with
    | free ho => exact .cons ho ih
    | bound => exact ih

theorem bound?_matches : roles'.filterMap bound? = roles.filterMap bound? := by
  induction h with
  | nil => rfl
  | cons hrole _ ih =>
    cases hrole with
    | free => exact ih
    | bound name dimension => exact congrArg ((name, dimension) :: ·) ih

end

end IndexRole

namespace Formula

/-- Computations that draw the same names and come to what is alike. -/
def Summation.Matches (R : Span → Span → Prop) (Q : α → β → Prop) (x : Summation α)
    (x' : Summation β) : Prop :=
  ∀ n, SameOutcome R (fun r r' => Q r.1 r'.1 ∧ r'.2 = r.2) (x.run n) (x'.run n)

namespace Summation.Matches

variable {Q : α → β → Prop} {P : γ → δ → Prop}

theorem pure {a : α} {b : β} (h : Q a b) : Summation.Matches R Q (Pure.pure a) (Pure.pure b) :=
  fun _ => .ok ⟨h, rfl⟩

theorem bind {x : Summation α} {x' : Summation β} {f : α → Summation γ} {f' : β → Summation δ}
    (hx : Summation.Matches R Q x x') (hf : ∀ a b, Q a b → Summation.Matches R P (f a) (f' b)) :
    Summation.Matches R P (x >>= f) (x' >>= f') := by
  intro n
  refine (hx n).bind ?_
  rintro ⟨a, k⟩ ⟨b, k'⟩ ⟨h, hk⟩
  cases hk
  exact hf a b h k

theorem lift {x : Except Error α} {x' : Except Error β} (h : SameOutcome R Q x x') :
    Summation.Matches R Q (liftM x) (liftM x') :=
  fun _ => h.bind fun _ _ hq => .ok ⟨hq, rfl⟩

end Summation.Matches

def Open (R : Span → Span → Prop) (r r' : Formula × List Occurrence) : Prop :=
  Matches R r.1 r'.1 ∧ Forall₂ (Occurrence.Matches R) r.2 r'.2

variable {f f' : Formula}

theorem contract_matches (dims : Dimensions) (hf : Matches R f f') {os os' : List Occurrence}
    (ho : Forall₂ (Occurrence.Matches R) os os') :
    Summation.Matches R (Open R) (contract dims f os) (contract dims f' os') := by
  refine (Summation.Matches.lift (IndexRole.ofTerm_matches ho)).bind fun roles roles' hroles => ?_
  rw [IndexRole.bound?_matches hroles]
  have hsums (bound : List (String × Option Nat)) {f f' : Formula} (hf : Matches R f f') :
      Summation.Matches R (Matches R)
        (bound.foldlM (fun f b => sumOver dims f b.1 b.2) f)
        (bound.foldlM (fun f b => sumOver dims f b.1 b.2) f') := by
    induction bound generalizing f f' with
    | nil => exact .pure hf
    | cons b bound ih =>
      rw [foldlM_cons, foldlM_cons]
      exact Summation.Matches.bind (fun n => .ok ⟨.contraction _ _ (hf.rename _ _), rfl⟩)
        fun g g' hg => ih hg
  exact (hsums _ hf).bind fun g g' hg => .pure ⟨hg, IndexRole.free?_matches hroles⟩

theorem tensorOccurrences_matches (dims : Dimensions) (t : TensorRef) {span : Span}
    (h : R t.span span) : Forall₂ (Occurrence.Matches R) (tensorOccurrences dims t)
      (tensorOccurrences dims { t with span }) := by
  rw [tensorOccurrences, tensorOccurrences, forall₂_map_left_iff, forall₂_map_right_iff,
    forall₂_same]
  exact fun _ _ => ⟨rfl, rfl, rfl, h⟩

def ResolveAlike (R : Span → Span → Prop) (dims : Dimensions) (f f' : Formula) : Prop :=
  Summation.Matches R (Open R) (f.resolve dims) (f'.resolve dims)

theorem resolveFactors_matches {fs fs' : List Formula} (h : Forall₂ (ResolveAlike R dims) fs fs') :
    Summation.Matches R (fun r r' => Forall₂ (Matches R) r.1 r'.1 ∧
      Forall₂ (Occurrence.Matches R) r.2 r'.2) (resolveFactors dims fs)
      (resolveFactors dims fs') := by
  induction h with
  | nil => exact .pure ⟨.nil, .nil⟩
  | cons hf _ ih =>
    rw [resolveFactors, resolveFactors]
    exact Summation.Matches.bind hf fun a b hab => ih.bind fun as bs habs =>
      .pure ⟨.cons hab.1 habs.1, rel_append hab.2 habs.2⟩

theorem unequalTerms_matches {Q : α → β → Prop} (hnone : R .none .none)
    {first first' other other' : List Occurrence}
    (hfirst : Forall₂ (Occurrence.Matches R) first first')
    (hother : Forall₂ (Occurrence.Matches R) other other') :
    SameOutcome R Q (.error (unequalTerms first other)) (.error (unequalTerms first' other')) := by
  rw [unequalTerms, unequalTerms, Occurrence.Matches.descriptions hfirst,
    Occurrence.Matches.descriptions hother]
  refine .error _ ?_
  cases hother with
  | cons ho _ => exact ho.span
  | nil =>
    cases hfirst with
    | cons ho _ => exact ho.span
    | nil => exact hnone

theorem resolveTerms_matches (hnone : R .none .none) {ts ts' : List Formula}
    (h : Forall₂ (ResolveAlike R dims) ts ts') {first first' : Option (List Occurrence)}
    (hfirst : Option.Rel (Forall₂ (Occurrence.Matches R)) first first') :
    Summation.Matches R (fun r r' => Forall₂ (Matches R) r.1 r'.1 ∧
      Forall₂ (Occurrence.Matches R) r.2 r'.2) (resolveTerms dims first ts)
      (resolveTerms dims first' ts') := by
  induction h generalizing first first' with
  | nil =>
    cases hfirst with
    | none => exact .pure ⟨.nil, .nil⟩
    | some h => exact .pure ⟨.nil, h⟩
  | cons hf _ ih =>
    rw [resolveTerms, resolveTerms]
    refine Summation.Matches.bind hf ?_
    rintro ⟨t, free⟩ ⟨t', free'⟩ ⟨ht, hfree⟩
    have hcommon : Forall₂ (Occurrence.Matches R) (first.getD free) (first'.getD free') := by
      cases hfirst with
      | none => exact hfree
      | some h => exact h
    dsimp only
    rw [Occurrence.Matches.keys hcommon, Occurrence.Matches.keys hfree]
    split
    · exact (ih (.some hcommon)).bind fun as bs habs => .pure ⟨.cons ht habs.1, habs.2⟩
    · exact .lift (unequalTerms_matches hnone hcommon hfree)

section

variable (hnone : R .none .none) (dims : Dimensions) (h : Matches R f f')
include hnone h

theorem resolve_matches : ResolveAlike R dims f f' := by
  refine matches_induction ?num ?sym ?tensor ?derivative ?sum ?product ?power ?fn ?contraction h
  case num =>
    intro q
    exact .pure ⟨.num q, .nil⟩
  case sym =>
    intro name
    exact .pure ⟨.sym name, .nil⟩
  case tensor =>
    intro t span hspan
    exact contract_matches dims (.tensor t hspan) (tensorOccurrences_matches dims t hspan)
  case derivative =>
    intro kind i f f' dimension span span' ih hspan
    rw [ResolveAlike, resolve, resolve]
    refine Summation.Matches.bind ih ?_
    rintro ⟨operand, free⟩ ⟨operand', free'⟩ ⟨hoperand, hfree⟩
    dsimp only
    rw [(hoperand.names_and_dimension dims).2.2]
    refine contract_matches dims (.derivative kind i _ hoperand hspan) (rel_append hfree ?_)
    rw [forall₂_map_left_iff, forall₂_map_right_iff, forall₂_same]
    exact fun _ _ => ⟨rfl, rfl, rfl, hspan⟩
  case sum =>
    intro ts ts' ih
    rw [ResolveAlike, resolve, resolve]
    exact (resolveTerms_matches hnone ih .none).bind fun r r' hr => .pure ⟨.sum hr.1, hr.2⟩
  case product =>
    intro fs fs' ih
    rw [ResolveAlike, resolve, resolve]
    exact (resolveFactors_matches ih).bind fun r r' hr => contract_matches dims (.product hr.1) hr.2
  case power =>
    intro b b' e e' ihb ihe
    rw [ResolveAlike, resolve, resolve]
    refine Summation.Matches.bind ihb ?_
    rintro ⟨b, inBase⟩ ⟨b', inBase'⟩ ⟨hb, hbase⟩
    refine Summation.Matches.bind ihe ?_
    rintro ⟨e, inExponent⟩ ⟨e', inExponent'⟩ ⟨he, hexponent⟩
    have hfree : Forall₂ (Occurrence.Matches R) (inBase ++ inExponent) (inBase' ++ inExponent') :=
      rel_append hbase hexponent
    dsimp only
    generalize inBase ++ inExponent = free at hfree
    generalize inBase' ++ inExponent' = free' at hfree
    cases hfree with
    | nil => exact .pure ⟨.power hb he, .nil⟩
    | cons ho _ =>
      dsimp only
      rw [ho.name]
      exact .lift (.error _ ho.span)
  case fn =>
    intro g a a' ih
    rw [ResolveAlike, resolve, resolve]
    refine Summation.Matches.bind ih ?_
    rintro ⟨a, free⟩ ⟨a', free'⟩ ⟨ha, hfree⟩
    dsimp only at hfree ⊢
    cases hfree with
    | nil => exact .pure ⟨.fn g ha, .nil⟩
    | cons ho _ =>
      dsimp only
      rw [ho.name]
      exact .lift (.error _ ho.span)
  case contraction =>
    intro index dimension f f' _ ih
    rw [ResolveAlike, resolve, resolve]
    exact Summation.Matches.bind ih fun r r' hr =>
      .pure ⟨.contraction index dimension hr.1, Occurrence.Matches.filter (· != index) hr.2⟩

theorem resolved_matches : SameOutcome R (Open R) (f.resolved dims) (f'.resolved dims) :=
  (resolve_matches hnone dims h 0).bind fun _ _ hr => .ok hr.1

end

end Formula

structure TensorRef.Matches (R : Span → Span → Prop) (t t' : TensorRef) : Prop where
  same : t' = { t with span := t'.span }
  span : R t.span t'.span

structure Equation.Matches (R : Span → Span → Prop) (e e' : Equation) : Prop where
  target : TensorRef.Matches R e.target e'.target
  value : Formula.Matches R e.value e'.value
  span : R e.span e'.span

end TensorCalculus
