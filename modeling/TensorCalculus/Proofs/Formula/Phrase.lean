import Mathlib.Algebra.BigOperators.Group.List.Lemmas
import Mathlib.Data.Rat.Cast.Defs
import Mathlib.Data.Rat.Lemmas
import Mathlib.Tactic.Ring
import TensorCalculus.Formula.Parse
import TensorCalculus.Proofs.Formula.Scope

/-! Formulas as a source can contain them: numbers of 64 bits, indices that are letters or digits,
sums and products of at least two parts, and no explicit contractions. -/
namespace TensorCalculus

variable {f : Formula} {fs : List Formula}

open List

def Index.Written (i : Index) : Prop :=
  match i.value with
  | .named s => Command.isGreek s ∨ ∃ c : Char, s = c.toString
  | .fixed n => n < 10

def Number.Written (q : Number) : Prop :=
  q.num.natAbs ≤ 9223372036854775807 ∧ q.den ≤ 9223372036854775807

def TensorRef.Written (t : TensorRef) : Prop :=
  t.indices ≠ [] ∧ t = .ofBase t.base t.indices t.span ∧ ∀ i ∈ t.indices, i.Written

namespace Formula

mutual

def Written : Formula → Prop
  | num q => Number.Written q
  | sym _ => True
  | tensor t => t.Written
  | derivative _ i operand _ _ => i.Written ∧ operand.Written
  | sum ts => 2 ≤ ts.length ∧ AllWritten ts
  | product fs => 2 ≤ fs.length ∧ AllWritten fs
  | power b e => b.Written ∧ e.Written
  | fn _ a => a.Written
  | contraction .. => False

def AllWritten : List Formula → Prop
  | [] => True
  | f :: fs => f.Written ∧ AllWritten fs

end

theorem allWritten_iff : AllWritten fs ↔ ∀ f ∈ fs, f.Written := by
  induction fs with
  | nil => simp [AllWritten]
  | cons f fs ih => rw [AllWritten, ih, forall_mem_cons]

theorem written_integer {n : Int} (h : n.natAbs ≤ 9223372036854775807) : (integer n).Written :=
  ⟨h, by simp⟩

theorem written_negate (h : f.Written) : f.negate.Written := by
  cases f with
  | num q =>
    have hnum : (-q).num.natAbs = q.num.natAbs := Int.natAbs_neg q.num
    exact ⟨hnum ▸ h.1, h.2⟩
  | _ => exact ⟨by simp, written_integer (by decide), h, trivial⟩

theorem written_ofTerms {t : Formula} {ts : List Formula} (ht : t.Written) (hts : AllWritten ts) :
    (ofTerms (t :: ts)).Written := by
  cases ts with
  | nil => exact ht
  | cons u us => exact ⟨by simp, ht, hts⟩

theorem written_ofFactors (hf : f.Written) (hfs : AllWritten fs) :
    (ofFactors (f :: fs)).Written := by
  cases fs with
  | nil => exact hf
  | cons g gs => exact ⟨by simp, hf, hfs⟩

theorem written_inverse (h : f.Written) : f.inverse.Written :=
  ⟨h, written_integer (by decide)⟩

theorem written_rootExponent (h : f.Written) : f.rootExponent.Written := by
  cases f with
  | num q =>
    rw [rootExponent]
    split
    · exact written_inverse h
    · next hq =>
      rw [beq_iff_eq, ← Rat.num_eq_zero] at hq
      have hnum : q⁻¹.num.natAbs = q.den := by
        rw [Rat.num_inv, Int.natAbs_mul, Int.natAbs_sign_of_ne_zero hq, one_mul, Int.natAbs_natCast]
      have hden : q⁻¹.den = q.num.natAbs := by rw [Rat.den_inv, if_neg hq]
      exact ⟨hnum ▸ h.2, hden ▸ h.1⟩
  | _ => exact written_inverse h

theorem written_div {n d : Nat} (hn : n ≤ 9223372036854775807) (hd : d ≤ 9223372036854775807) :
    (num ((n : Rat) / (d : Rat))).Written := by
  have heq : ((n : Rat) / (d : Rat)) = Rat.divInt n d := by rw [Rat.divInt_eq_div]; rfl
  obtain rfl | hpos := Nat.eq_zero_or_pos d
  · exact ⟨by simp, by simp⟩
  constructor
  · have hdvd := Int.natAbs_dvd_natAbs.mpr (Rat.num_dvd n (b := d) (by omega))
    rw [← heq, Int.natAbs_natCast] at hdvd
    obtain rfl | hn' := Nat.eq_zero_or_pos n
    · simp
    · exact (Nat.le_of_dvd hn' hdvd).trans hn
  · have hdvd := Int.natCast_dvd_natCast.mp (Rat.den_dvd n d)
    rw [← heq] at hdvd
    exact (Nat.le_of_dvd hpos hdvd).trans hd

theorem written_of_number? {text : String} {q : Number} (h : number? text = some q) :
    (num q).Written := by
  unfold number? at h
  dsimp only at h
  generalize List.foldl _ _ _ = n at h
  generalize Nat.pow _ _ = d at h
  split at h
  · next hfits =>
    cases h
    simp only [Number.fits, Bool.and_eq_true, decide_eq_true_eq] at hfits
    exact written_div (by omega) (by omega)
  · cases h

end Formula

namespace Script

theorem digit_lt {c : Char} (h : c.isDigit) : c.toNat - '0'.toNat < 10 := by
  simp only [Char.isDigit, Bool.and_eq_true, decide_eq_true_eq, UInt32.le_iff_toNat_le] at h
  have : '9'.val.toNat = 57 := rfl
  have : '0'.toNat = 48 := rfl
  have : c.toNat = c.val.toNat := rfl
  omega

theorem written_of_indices? {height : Height} {kind : TokenKind} {indices : List Index}
    (h : indices? height kind = some indices) : ∀ i ∈ indices, i.Written := by
  unfold indices? at h
  split at h
  · cases h
    rw [forall_mem_singleton]
    exact .inr ⟨_, rfl⟩
  · split at h
    · cases h
      rw [forall_mem_singleton]
      exact .inl ‹_›
    · cases h
  · split at h
    · next hall =>
      cases h
      rw [forall_mem_map]
      exact fun c hc => digit_lt (all_eq_true.mp hall c hc)
    · cases h
  · cases h

end Script

/-! Phrases: kinds of tokens that the parser reads as a formula of a given value, wherever they
stand and whatever comes after. A product is read as a chain of factors and a sum as a chain of
terms, so the lemmas say what a phrase adds to the chain that it is part of. -/

/-! The value of a formula in a field, whatever scalars, components, functions, powers and
derivatives stand for. -/

namespace Formula

/-- What the parts of formulas stand for. Powers to -1 are inverses. -/
structure Meaning (K : Type*) [Field K] where
  scalar : String → K
  component : TensorHead → List Nat → K
  derivative : DerivativeKind → Height → Nat → K → K
  fn : Func → K → K
  pow : K → K → K
  pow_neg_one : ∀ b, pow b (-1) = b⁻¹

def indexAt (ρ : String → Nat) (i : Index) : Nat :=
  match i.value with
  | .named name => ρ name
  | .fixed n => n

variable {K : Type*} [Field K] (M : Meaning K)

mutual

def value (ρ : String → Nat) : Formula → K
  | num q => (q : K)
  | sym s => M.scalar s
  | tensor t => M.component t.head (t.indices.map (indexAt ρ))
  | derivative kind i operand _ _ => M.derivative kind i.height (indexAt ρ i) (operand.value ρ)
  | sum ts => (values ρ ts).sum
  | product fs => (values ρ fs).prod
  | power b e => M.pow (b.value ρ) (e.value ρ)
  | fn f a => M.fn f (a.value ρ)
  | contraction index dimension body =>
    ((List.range dimension).map fun n => body.value fun s => if s = index then n else ρ s).sum

def values (ρ : String → Nat) : List Formula → List K
  | [] => []
  | f :: fs => f.value ρ :: values ρ fs

end

variable {M} {ρ : String → Nat}

theorem values_append (fs gs : List Formula) :
    values M ρ (fs ++ gs) = values M ρ fs ++ values M ρ gs := by
  induction fs with
  | nil => rfl
  | cons f fs ih => rw [List.cons_append, values, values, ih, List.cons_append]

theorem value_negate (f : Formula) : f.negate.value M ρ = -f.value M ρ := by
  cases f with
  | num q => exact Rat.cast_neg q
  | _ => simp [negate, value, values, integer]

theorem value_signed (negative : Bool) (f : Formula) :
    (signed negative f).value M ρ = if negative then -f.value M ρ else f.value M ρ := by
  cases negative
  · rfl
  · exact value_negate f

theorem value_ofTerms (t : Formula) (ts : List Formula) :
    (ofTerms (t :: ts)).value M ρ = t.value M ρ + (values M ρ ts).sum := by
  cases ts with
  | nil => simp [ofTerms, values]
  | cons u us => rfl

theorem value_ofFactors (f : Formula) (fs : List Formula) :
    (ofFactors (f :: fs)).value M ρ = f.value M ρ * (values M ρ fs).prod := by
  cases fs with
  | nil => simp [ofFactors, values]
  | cons g gs => rfl

theorem value_inverse (f : Formula) : f.inverse.value M ρ = (f.value M ρ)⁻¹ := by
  simp only [inverse, value, integer]
  rw [Int.cast_neg, Int.cast_one, Rat.cast_neg, Rat.cast_one, M.pow_neg_one]

end Formula

open Cursor

variable {t s : Token} {k : TokenKind} {last : Nat} {negative : Bool}

namespace Formula

variable {K : Type*} [Field K] (M : Meaning K) (ρ : String → Nat) (g : Grammar)

/-- The tokens are some of the given kinds and then `rest`. -/
def Begins (ts : List Token) (ks : List TokenKind) (rest : List Token) : Prop :=
  match ks with
  | [] => ts = rest
  | k :: ks => ∃ t us, ts = t :: us ∧ t.kind = k ∧ Begins us ks rest

def Parses {c : Cursor} (x : Except Error (Formula × c.After)) (rest : List Token) (v : K) : Prop :=
  ∃ f e, x = .ok (f, e) ∧ e.val.rest = rest ∧ f.value M ρ = v

/-- The tokens can follow a factor: they go on with no script and no group. -/
def Closed (rest : List Token) : Prop :=
  ∀ t ∈ rest.head?, t.kind ≠ .superscript ∧ t.kind ≠ .subscript ∧ t.kind ≠ .openBrace

def Ends (rest : List Token) : Prop :=
  ∀ t ∈ rest.head?, t.kind ∈ [.plus, .minus, .closeParen, .closeBrace]

def Closes (rest : List Token) : Prop :=
  ∀ t ∈ rest.head?, t.kind ∈ [.closeParen, .closeBrace]

def opens : TokenKind → Bool
  | .letter _ | .number _ | .openParen => true
  | .command name => !(name == "right" || name == "cdot" || name == "times")
  | _ => false

def Opens (ks : List TokenKind) : Prop :=
  ∃ k ks', ks = k :: ks' ∧ opens k

/-- The phrase begins a factor or has a sign. -/
def Leads (ks : List TokenKind) : Prop :=
  ∃ k ks', ks = k :: ks' ∧ (opens k ∨ k = .minus)

/-- An operand that has no scripts and exponents after it, if `F` holds of what comes after. -/
def Atom (F : List Token → Prop) (ks : List TokenKind) (v : K) : Prop :=
  ∀ ts rest last, Begins ts ks rest → F rest → Parses M ρ (atom g ⟨ts, last⟩) rest v

def Primary (ks : List TokenKind) (v : K) : Prop :=
  ∀ ts rest last, Begins ts ks rest → Closed rest → Parses M ρ (primary g ⟨ts, last⟩) rest v

def factors (c : Cursor) : Except Error (List Formula × Cursor) :=
  (fun r => (r.1, r.2.val)) <$> moreFactors g c

def terms (c : Cursor) : Except Error (List Formula × Cursor) :=
  (fun r => (r.1, r.2.val)) <$> moreTerms g c

def prepend (fs : List Formula) (r : List Formula × Cursor) : List Formula × Cursor :=
  (fs ++ r.1, r.2)

def Product (ks : List TokenKind) (v : K) : Prop :=
  ∀ ts rest last, Begins ts ks rest → Closed rest → ∃ f d fs last',
    factor g ⟨ts, last⟩ = .ok (f, d) ∧
    factors g d.val = prepend fs <$> factors g ⟨rest, last'⟩ ∧
    f.value M ρ * (values M ρ fs).prod = v

def Sum (ks : List TokenKind) (v : K) : Prop :=
  ∀ ts rest last, Begins ts ks rest → Ends rest → ∃ t d us last',
    term g ⟨ts, last⟩ = .ok (t, d) ∧
    terms g d.val = prepend us <$> terms g ⟨rest, last'⟩ ∧
    t.value M ρ + (values M ρ us).sum = v

def Expression (ks : List TokenKind) (v : K) : Prop :=
  ∀ ts rest last, Begins ts ks rest → Closes rest → Parses M ρ (expression g ⟨ts, last⟩) rest v

variable {M ρ g} {ks ls : List TokenKind} {v w : K} {c : Cursor} {ts rest : List Token}

theorem begins_append : Begins ts (ks ++ ls) rest ↔ ∃ mid, Begins ts ks mid ∧ Begins mid ls rest := by
  induction ks generalizing ts with
  | nil => simp [Begins]
  | cons k ks ih =>
    simp only [cons_append, Begins, ih]
    constructor
    · rintro ⟨t, us, rfl, hk, mid, hus, hmid⟩
      exact ⟨mid, ⟨t, us, rfl, hk, hus⟩, hmid⟩
    · rintro ⟨mid, ⟨t, us, rfl, hk, hus⟩, hmid⟩
      exact ⟨t, us, rfl, hk, mid, hus, hmid⟩

theorem begins_of_map (h : ts.map (·.kind) = ks) (rest : List Token) :
    Begins (ts ++ rest) ks rest := by
  subst h
  induction ts with
  | nil => rfl
  | cons t ts ih => exact ⟨t, _, rfl, rfl, ih⟩

theorem ok_bind {ε α β : Type} (a : α) (f : α → Except ε β) : (Except.ok a >>= f) = f a := rfl

theorem next?_cons (t : Token) (rest : List Token) (last : Nat) :
    next? ⟨t :: rest, last⟩ = some (t, ⟨⟨rest, t.span.stop⟩, Nat.lt_succ_self _⟩) := rfl

theorem accept?_cons (h : t.kind = k) (rest : List Token) (last : Nat) :
    accept? ⟨t :: rest, last⟩ k = some (t.span, ⟨⟨rest, t.span.stop⟩, Nat.lt_succ_self _⟩) := by
  rw [accept?, next?_cons]
  exact if_pos h

theorem accept?_cons_of_ne (h : t.kind ≠ k) (rest : List Token) (last : Nat) :
    accept? ⟨t :: rest, last⟩ k = none:= by
  rw [accept?, next?_cons]
  exact if_neg h

theorem Closes.ends (h : Closes rest) : Ends rest := by
  intro t ht
  have := h t ht
  simp only [mem_cons, not_mem_nil, or_false] at this ⊢
  exact .inr (.inr this)

theorem Ends.closed (h : Ends rest) : Closed rest := by
  intro t ht
  have := h t ht
  simp only [mem_cons, not_mem_nil, or_false] at this
  obtain h | h | h | h := this <;> simp [h]

theorem Opens.leads (h : Opens ks) : Leads ks := by
  obtain ⟨k, ks', hks, hk⟩ := h
  exact ⟨k, ks', hks, .inl hk⟩

theorem Opens.closed (h : Opens ks) (hts : Begins ts ks rest) : Closed ts := by
  obtain ⟨k, ks', rfl, hk⟩ := h
  obtain ⟨t, us, rfl, rfl, -⟩ := hts
  intro u hu
  cases hu
  cases hkind : t.kind <;> simp_all [opens]

theorem postfixes_closed (h : Closed c.rest) (stop : Nat) (f : Formula) :
    postfixes g stop f c = .ok (f, c.stay) := by
  obtain ⟨rest, last⟩ := c
  rw [postfixes]
  cases rest with
  | nil => rfl
  | cons t rest =>
    obtain ⟨h₁, h₂, -⟩ := h t rfl
    rw [next?_cons]
    dsimp only
    rw [if_neg h₁, if_neg h₂]
    rfl

theorem factors_ends (h : Ends rest) (last : Nat) :
    factors g ⟨rest, last⟩ = .ok ([], ⟨rest, last⟩) := by
  rw [factors, moreFactors]
  cases rest with
  | nil => rfl
  | cons t rest =>
    have hk := h t rfl
    rw [next?_cons]
    dsimp only
    simp only [mem_cons, not_mem_nil, or_false] at hk
    obtain hk | hk | hk | hk := hk <;> rw [hk] <;> rfl

theorem terms_closes (h : Closes rest) (last : Nat) :
    terms g ⟨rest, last⟩ = .ok ([], ⟨rest, last⟩) := by
  rw [terms, moreTerms]
  cases rest with
  | nil => rfl
  | cons t rest =>
    have hk := h t rfl
    rw [next?_cons]
    dsimp only
    simp only [mem_cons, not_mem_nil, or_false] at hk
    obtain hk | hk := hk <;> rw [hk] <;> rfl

theorem primary_of_atom {e : c.After} (h : atom g c = .ok (f, e)) (hclosed : Closed e.val.rest) :
    ∃ e' : c.After, primary g c = .ok (f, e') ∧ e'.val.rest = e.val.rest := by
  obtain ⟨c₁, h₁⟩ := e
  refine ⟨.onward h₁ c₁.stay, ?_, rfl⟩
  rw [primary, h, ok_bind]
  dsimp only
  rw [postfixes_closed hclosed]
  rfl

theorem factor_of_opens (h : opens t.kind) (us : List Token) (last : Nat) :
    factor g ⟨t :: us, last⟩ = primary g ⟨t :: us, last⟩ := by
  have hminus : t.kind ≠ .minus := by
    intro hminus
    rw [hminus] at h
    cases h
  rw [factor, accept?_cons_of_ne hminus]

theorem Atom.primary (h : Atom M ρ g Closed ks v) : Primary M ρ g ks v := by
  intro ts rest last hts hrest
  obtain ⟨f, e, hatom, rfl, hv⟩ := h ts rest last hts hrest
  obtain ⟨e', hprimary, he'⟩ := primary_of_atom hatom hrest
  exact ⟨f, e', hprimary, he', hv⟩

theorem Primary.product (h : Primary M ρ g ks v) (hk : Opens ks) : Product M ρ g ks v := by
  intro ts rest last hts hrest
  obtain ⟨f, ⟨⟨rest', last'⟩, h₁⟩, hprimary, hrest', hv⟩ := h ts rest last hts hrest
  change rest' = rest at hrest'
  subst hrest'
  refine ⟨f, ⟨⟨rest', last'⟩, h₁⟩, [], last', ?_, ?_, by simp [values, hv]⟩
  · obtain ⟨k, ks', rfl, hk⟩ := hk
    obtain ⟨t, us, rfl, rfl, -⟩ := hts
    rw [factor_of_opens hk, ← hprimary]
  · cases factors g ⟨rest', last'⟩ <;> rfl

theorem Product.neg (h : Product M ρ g ks v) : Product M ρ g (.minus :: ks) (-v) := by
  intro ts rest last hts hrest
  obtain ⟨t, us, rfl, hkind, hus⟩ := hts
  obtain ⟨f, d, fs, last', hfactor, hfactors, hv⟩ := h us rest t.span.stop hus hrest
  refine ⟨f.negate, .after (Nat.lt_succ_self _) d, fs, last', ?_, hfactors, ?_⟩
  · rw [factor, accept?_cons hkind]
    dsimp only
    rw [hfactor]
    rfl
  · rw [value_negate, neg_mul, hv]

theorem startsFactor_of_opens (hk : opens k) : isTimes k = false ∧ k ≠ .slash ∧ startsFactor k := by
  cases k with
  | command name =>
    simp only [opens, Bool.not_eq_true', Bool.or_eq_false_iff, beq_eq_false_iff_ne] at hk
    refine ⟨?_, by simp, by simpa [startsFactor] using hk⟩
    unfold isTimes
    split <;> simp_all
  | letter _ | number _ => exact ⟨rfl, by simp, rfl⟩
  | openParen => exact ⟨rfl, by simp, rfl⟩
  | _ => cases hk

theorem factors_of_opens (hk : Opens ks) (hts : Begins ts ks rest) {d : Cursor.After ⟨ts, last⟩}
    (h : factor g ⟨ts, last⟩ = .ok (f, d)) :
    factors g ⟨ts, last⟩ = prepend [f] <$> factors g d.val := by
  obtain ⟨k, ks', rfl, hk⟩ := hk
  obtain ⟨t, us, rfl, rfl, -⟩ := hts
  obtain ⟨htimes, hslash, hstarts⟩ := startsFactor_of_opens hk
  rw [factors, moreFactors, next?_cons]
  dsimp only
  rw [if_neg (by simp [htimes]), if_neg hslash, if_pos hstarts, h]
  change (fun r => (r.1, r.2.val)) <$> (do
    let (fs, e) ← moreFactors g d.val
    return (f :: fs, (After.onward d.property e).toFrom)) = _
  rw [factors]
  cases moreFactors g d.val <;> rfl

theorem map_prepend (fs gs : List Formula) (x : Except Error (List Formula × Cursor)) :
    prepend fs <$> prepend gs <$> x = prepend (fs ++ gs) <$> x := by
  cases x with
  | error e => rfl
  | ok r => simp [prepend, Functor.map, Except.map]

theorem Product.mul (h : Product M ρ g ks v) (h' : Product M ρ g ls w) (hl : Opens ls) :
    Product M ρ g (ks ++ ls) (v * w) := by
  intro ts rest last hts hrest
  obtain ⟨us, hts, hus⟩ := begins_append.mp hts
  obtain ⟨f, d, fs, last', hfactor, hfactors, hv⟩ := h ts us last hts (hl.closed hus)
  obtain ⟨f', d', fs', last'', hfactor', hfactors', hw⟩ := h' us rest last' hus hrest
  refine ⟨f, d, fs ++ [f'] ++ fs', last'', hfactor, ?_, ?_⟩
  · rw [hfactors, factors_of_opens hl hus hfactor', hfactors', map_prepend, map_prepend,
      append_assoc]
  · rw [values_append, values_append, prod_append, prod_append, ← hv, ← hw]
    simp only [values, prod_singleton]
    ring

theorem term_of_factors {d : c.After} {e : Cursor} (hfactor : factor g c = .ok (f, d))
    (hfactors : factors g d.val = .ok (fs, e)) :
    ∃ d' : c.After, term g c = .ok (ofFactors (f :: fs), d') ∧ d'.val = e := by
  obtain ⟨d, hd⟩ := d
  rw [factors] at hfactors
  cases hmore : moreFactors g d with
  | error x => rw [hmore] at hfactors; cases hfactors
  | ok r =>
    rw [hmore] at hfactors
    cases hfactors
    refine ⟨.onward hd r.2, ?_, rfl⟩
    rw [term, hfactor]
    change (do
      let r ← moreFactors g d
      return (ofFactors (f :: r.1), After.onward hd r.2)) = _
    rw [hmore]
    rfl

theorem factors_of_term {t : Formula} {d : c.After} (h : term g c = .ok (t, d)) :
    ∃ f e fs, factor g c = .ok (f, e) ∧ factors g e.val = .ok (fs, d.val) ∧
      t = ofFactors (f :: fs) := by
  rw [term] at h
  obtain ⟨⟨f, ⟨c₁, h₁⟩⟩, hfactor, h⟩ := Except.bind_eq_ok h
  obtain ⟨⟨fs, e⟩, hfactors, h⟩ := Except.bind_eq_ok h
  cases h
  exact ⟨f, ⟨c₁, h₁⟩, fs, hfactor, by rw [factors, hfactors]; rfl, rfl⟩

theorem Product.term (h : Product M ρ g ks v) (hts : Begins ts ks rest) (hrest : Ends rest)
    (last : Nat) :
    ∃ t d last', term g ⟨ts, last⟩ = .ok (t, d) ∧ d.val = ⟨rest, last'⟩ ∧ t.value M ρ = v := by
  obtain ⟨f, d, fs, last', hfactor, hfactors, hv⟩ := h ts rest last hts hrest.closed
  rw [factors_ends hrest] at hfactors
  obtain ⟨d', hterm, hd'⟩ := term_of_factors hfactor hfactors
  refine ⟨_, d', last', hterm, hd', ?_⟩
  rw [append_nil, value_ofFactors, hv]

theorem Product.sum (h : Product M ρ g ks v) : Sum M ρ g ks v := by
  intro ts rest last hts hrest
  obtain ⟨t, d, last', hterm, hd, hv⟩ := h.term hts hrest last
  refine ⟨t, d, [], last', hterm, ?_, by simp [values, hv]⟩
  rw [hd]
  cases terms g ⟨rest, last'⟩ <;> rfl

theorem terms_of_sign (hs : sign? s.kind = some negative) {rest : List Token} {t : Formula}
    {d : Cursor.After ⟨rest, s.span.stop⟩} (h : term g ⟨rest, s.span.stop⟩ = .ok (t, d)) :
    terms g ⟨s :: rest, last⟩ = prepend [signed negative t] <$> terms g d.val := by
  rw [terms, moreTerms, next?_cons]
  dsimp only
  rw [hs]
  dsimp only
  rw [h]
  change (fun r => (r.1, r.2.val)) <$> (do
    let (us, e) ← moreTerms g d.val
    return (signed negative t :: us, (After.after (Nat.lt_succ_self _) (.onward d.property e)).toFrom))
      = _
  rw [terms]
  cases moreTerms g d.val <;> rfl

theorem ends_of_sign (h : sign? s.kind = some negative) (ts : List Token) : Ends (s :: ts) := by
  intro t ht
  cases ht
  cases hk : s.kind <;> first | (simp; done) | (rw [hk] at h; cases h)

theorem Sum.add (h : Sum M ρ g ks v) (h' : Sum M ρ g ls w) :
    Sum M ρ g (ks ++ .plus :: ls) (v + w) := by
  intro ts rest last hts hrest
  obtain ⟨_, hts, hus⟩ := begins_append.mp hts
  obtain ⟨s, us, rfl, hs, hus⟩ := hus
  have hsign : sign? s.kind = some false := by rw [hs]; rfl
  obtain ⟨t, d, fs, last', hterm, hterms, hv⟩ := h ts _ last hts (ends_of_sign hsign us)
  obtain ⟨t', d', fs', last'', hterm', hterms', hw⟩ := h' us rest s.span.stop hus hrest
  refine ⟨t, d, fs ++ [signed false t'] ++ fs', last'', hterm, ?_, ?_⟩
  · rw [hterms, terms_of_sign hsign hterm', hterms', map_prepend, map_prepend, append_assoc]
  · rw [values_append, values_append, sum_append, sum_append, ← hv, ← hw]
    simp only [values, sum_singleton, value_signed, Bool.false_eq_true, if_false]
    ring

theorem Sum.sub (h : Sum M ρ g ks v) (h' : Product M ρ g ls w) :
    Sum M ρ g (ks ++ .minus :: ls) (v - w) := by
  intro ts rest last hts hrest
  obtain ⟨_, hts, hus⟩ := begins_append.mp hts
  obtain ⟨s, us, rfl, hs, hus⟩ := hus
  have hsign : sign? s.kind = some true := by rw [hs]; rfl
  obtain ⟨t, d, fs, last', hterm, hterms, hv⟩ := h ts _ last hts (ends_of_sign hsign us)
  obtain ⟨t', d', last'', hterm', hd', hw⟩ := h'.term hus hrest s.span.stop
  refine ⟨t, d, fs ++ [signed true t'], last'', hterm, ?_, ?_⟩
  · rw [hterms, terms_of_sign hsign hterm', hd', map_prepend]
  · rw [values_append, sum_append, ← hv, ← hw]
    simp only [values, sum_singleton, value_signed, if_true]
    ring

theorem term_of_minus (hs : s.kind = .minus) {rest : List Token} {t : Formula}
    {d : Cursor.After ⟨s :: rest, last⟩} (h : term g ⟨s :: rest, last⟩ = .ok (t, d)) :
    ∃ t' d', term g ⟨rest, s.span.stop⟩ = .ok (t', d') ∧ d'.val = d.val ∧
      t.value M ρ = -t'.value M ρ := by
  obtain ⟨f, e, fs, hfactor, hfactors, rfl⟩ := factors_of_term h
  rw [factor, accept?_cons hs] at hfactor
  obtain ⟨⟨f', e'⟩, hfactor', hf⟩ := Except.bind_eq_ok hfactor
  cases hf
  obtain ⟨d', hterm, hd'⟩ := term_of_factors hfactor' hfactors
  refine ⟨_, d', hterm, hd', ?_⟩
  rw [value_ofFactors, value_ofFactors, value_negate, neg_mul]

theorem expression_of_terms {e : c.From} (hsign : leadingSign c = (negative, e)) {t : Formula}
    {d : e.val.After} (hterm : term g e.val = .ok (t, d)) {us : List Formula} {d' : Cursor}
    (hterms : terms g d.val = .ok (us, d')) :
    ∃ e' : c.After, expression g c = .ok (ofTerms (signed negative t :: us), e') ∧ e'.val = d' := by
  obtain ⟨c₁, h₁⟩ := e
  obtain ⟨c₂, h₂⟩ := d
  rw [terms] at hterms
  cases hmore : moreTerms g c₂ with
  | error x => rw [hmore] at hterms; cases hterms
  | ok r =>
    rw [hmore] at hterms
    cases hterms
    refine ⟨From.after h₁ (.onward h₂ r.2), ?_, rfl⟩
    rw [expression, hsign]
    dsimp only
    rw [hterm]
    change (do
      let r ← moreTerms g c₂
      return (ofTerms (signed negative t :: r.1), From.after h₁ (.onward h₂ r.2))) = _
    rw [hmore]
    rfl

theorem leadingSign_of_opens (h : opens t.kind) (rest : List Token) (last : Nat) :
    leadingSign ⟨t :: rest, last⟩ = (false, stay _) := by
  have hsign : sign? t.kind = none := by
    cases hk : t.kind <;> first | rfl | (rw [hk] at h; cases h)
  rw [leadingSign, next?_cons]
  dsimp only
  rw [hsign]

theorem leadingSign_of_minus (h : t.kind = .minus) (rest : List Token) (last : Nat) :
    leadingSign ⟨t :: rest, last⟩ = (true, ⟨⟨rest, t.span.stop⟩, Nat.le_succ _⟩) := by
  rw [leadingSign, next?_cons]
  dsimp only
  rw [h]
  rfl

theorem Sum.expression (h : Sum M ρ g ks v) (hk : Leads ks) : Expression M ρ g ks v := by
  intro ts rest last hts hrest
  obtain ⟨t, d, us, last', hterm, hterms, hv⟩ := h ts rest last hts hrest.ends
  rw [terms_closes hrest] at hterms
  obtain ⟨k, ks', rfl, hk⟩ := hk
  obtain ⟨s, us, rfl, rfl, -⟩ := hts
  obtain hk | hk := hk
  · obtain ⟨e, hexpression, he⟩ :=
      expression_of_terms (leadingSign_of_opens hk _ _) hterm hterms
    refine ⟨_, e, hexpression, by rw [he], ?_⟩
    rw [value_ofTerms, value_signed, append_nil, ← hv]
    rfl
  · obtain ⟨t', d', hterm', hd', ht⟩ := term_of_minus (M := M) (ρ := ρ) hk hterm
    rw [← hd'] at hterms
    obtain ⟨e, hexpression, he⟩ :=
      expression_of_terms (leadingSign_of_minus hk _ _) hterm' hterms
    refine ⟨_, e, hexpression, by rw [he], ?_⟩
    rw [value_ofTerms, value_signed, append_nil, ← hv, ht]
    rfl

end Formula

end TensorCalculus
