import Mathlib.Data.List.TakeWhile
import Mathlib.Tactic.IntervalCases
import TensorCalculus.Formula.Text
import TensorCalculus.Proofs.Formula.Phrase
import TensorCalculus.Proofs.Latex.Scan

/-! Phrases that are operands: numbers, groups, fractions, functions, powers, names with scripts and
derivatives. -/
namespace TensorCalculus

variable {base : String}

open Cursor List Command Script

namespace Formula

variable {K : Type*} [Field K] {M : Meaning K} {ρ : String → Nat} {g : Grammar}
  {ks ls : List TokenKind} {v w : K} {c : Cursor} {ts rest : List Token}

theorem Atom.mono {F G : List Token → Prop} (h : Atom M ρ g F ks v) (hFG : ∀ rest, G rest → F rest) :
    Atom M ρ g G ks v :=
  fun ts rest last hts hrest => h ts rest last hts (hFG rest hrest)

theorem expect_of_begins {k : TokenKind} (h : Begins c.rest (k :: ks) rest) (expected : Expected) :
    ∃ span e, g.expect c k expected = .ok (span, e) ∧ Begins e.val.rest ks rest := by
  obtain ⟨ts, last⟩ := c
  obtain ⟨t, us, rfl, ht, hus⟩ := h
  refine ⟨t.span, ⟨⟨us, t.span.stop⟩, Nat.lt_succ_self _⟩, ?_, hus⟩
  rw [Grammar.expect, accept?_cons ht]
  rfl

theorem number?_toString {n : Nat} (hn : n ≤ 9223372036854775807) :
    number? (toString n) = some (n : Rat) := by
  have hpoint : ∀ c ∈ (toString n).toList, (c != '.') = true := by
    intro c hc
    have := isDigit_of_mem_toString hc
    rw [bne_iff_ne]
    rintro rfl
    cases this
  have hwhole : (toString n).toList.takeWhile (· != '.') = (toString n).toList :=
    takeWhile_eq_self_iff.mpr hpoint
  have hfraction : (toString n).toList.dropWhile (· != '.') = [] :=
    dropWhile_eq_nil_iff.mpr hpoint
  have hall : (toString n).toList.all Char.isDigit :=
    all_eq_true.mpr fun c hc => isDigit_of_mem_toString hc
  have hfits : Number.fits n := by
    simp only [Number.fits, Bool.and_eq_true, decide_eq_true_eq]
    omega
  unfold number?
  rw [hwhole, hfraction]
  dsimp only
  rw [drop_nil, append_nil, hall, foldl_toString, hfits]
  simp [Number.fits]

theorem atom_number {n : Nat} (hn : n ≤ 9223372036854775807) :
    Atom M ρ g (fun _ => True) [.number (toString n)] (n : K) := by
  intro ts rest last hts _
  obtain ⟨t, us, rfl, ht, rfl⟩ := hts
  refine ⟨num n, ⟨⟨us, t.span.stop⟩, Nat.lt_succ_self _⟩, ?_, rfl, Rat.cast_natCast n⟩
  rw [atom, next?_cons]
  dsimp only
  rw [ht]
  dsimp only
  rw [numeral, number?_toString hn]
  rfl

theorem Expression.parens (h : Expression M ρ g ks v) :
    Atom M ρ g (fun _ => True) (.openParen :: (ks ++ [.closeParen])) v := by
  intro ts rest last hts _
  obtain ⟨t, us, rfl, ht, hus⟩ := hts
  obtain ⟨mid, hus, hmid⟩ := begins_append.mp hus
  have hcloses : Closes mid := by
    obtain ⟨u, _, rfl, hu, -⟩ := hmid
    intro x hx
    cases hx
    simp [hu]
  obtain ⟨f, ⟨c₁, h₁⟩, hexpression, hc₁, hv⟩ := h us mid t.span.stop hus hcloses
  obtain ⟨span, e, hexpect, he⟩ := expect_of_begins (g := g) (hc₁ ▸ hmid) .closeParen
  refine ⟨f, .after (Nat.lt_succ_self _) (.after h₁ e), ?_, he, hv⟩
  rw [atom, next?_cons]
  dsimp only
  rw [ht]
  dsimp only
  rw [hexpression, ok_bind]
  dsimp only
  rw [hexpect]
  rfl

theorem Leads.ne_closeBrace (hk : Leads ks) (hts : Begins ts ks rest) :
    ∃ t us, ts = t :: us ∧ t.kind ≠ .closeBrace := by
  obtain ⟨k, ks', rfl, hk⟩ := hk
  obtain ⟨t, us, rfl, rfl, -⟩ := hts
  refine ⟨t, us, rfl, fun h => ?_⟩
  rw [h] at hk
  obtain hk | hk := hk <;> cases hk

theorem closes_of_begins {k : TokenKind} (hk : k ∈ [.closeParen, .closeBrace])
    (h : Begins ts (k :: ks) rest) : Closes ts := by
  obtain ⟨t, us, rfl, rfl, -⟩ := h
  intro u hu
  cases hu
  exact hk

abbrev braces (ks : List TokenKind) : List TokenKind :=
  .openBrace :: (ks ++ [.closeBrace])

theorem Expression.group (h : Expression M ρ g ks v) (hk : Leads ks)
    (hts : Begins ts (braces ks) rest) (last : Nat) : Parses M ρ (group g ⟨ts, last⟩) rest v := by
  obtain ⟨opened, ⟨⟨us, last'⟩, h₁⟩, hopen, hus⟩ := expect_of_begins (g := g) (c := ⟨ts, last⟩) hts .openBrace
  obtain ⟨mid, hus, hmid⟩ := begins_append.mp hus
  obtain ⟨f, ⟨c₂, h₂⟩, hexpression, hc₂, hv⟩ :=
    h us mid last' hus (closes_of_begins (by simp) hmid)
  obtain ⟨span, e, hclose, he⟩ := expect_of_begins (g := g) (hc₂ ▸ hmid) .closeBrace
  obtain ⟨t, us', rfl, ht⟩ := hk.ne_closeBrace hus
  refine ⟨f, .after h₁ (.after h₂ e), ?_, he, hv⟩
  rw [Formula.group, hopen, ok_bind]
  dsimp only
  rw [accept?_cons_of_ne ht]
  dsimp only
  rw [hexpression, ok_bind]
  dsimp only
  rw [hclose]
  rfl

theorem Expression.frac (h : Expression M ρ g ks v) (hk : Leads ks) (h' : Expression M ρ g ls w)
    (hl : Leads ls) :
    Atom M ρ g (fun _ => True) (.command "frac" :: (braces ks ++ braces ls)) (v / w) := by
  intro ts rest last hts _
  obtain ⟨t, us, rfl, ht, hus⟩ := hts
  obtain ⟨mid, hus, hmid⟩ := begins_append.mp hus
  obtain ⟨n, ⟨⟨ms, last'⟩, h₁⟩, hn, hms, hv⟩ := h.group hk hus t.span.stop
  change ms = mid at hms
  subst hms
  obtain ⟨d, e, hd, he, hw⟩ := h'.group hl hmid last'
  refine ⟨product [n, inverse d], .after (Nat.lt_succ_self _) (.after h₁ e), ?_, he, ?_⟩
  · rw [atom, next?_cons]
    dsimp only
    rw [ht]
    change (do
      let r ← Formula.group g ⟨us, t.span.stop⟩
      let r' ← Formula.group g r.2.val
      return (product [r.1, inverse r'.1], After.after _ (After.after r.2.property r'.2))) = _
    rw [hn, ok_bind]
    dsimp only
    rw [hd]
    rfl
  · simp [value, values, value_inverse, hv, hw, div_eq_mul_inv]

theorem atom_command {t : Token} {name : String} (ht : t.kind = .command name)
    (hname : name ∉ ["left", "frac", "sqrt", "partial", "nabla", "pi"]) (us : List Token)
    (last : Nat) : atom g ⟨t :: us, last⟩ =
      match Grammar.accentedNabla? ⟨t :: us, last⟩, function? name with
      | some (mark, ⟨c₂, h₂⟩), _ => do
        let (f, e) ← operator g (.covariant mark) t.span.start c₂
        return (f, .after h₂ e)
      | none, some f => do
        let (f, e) ← function g f ⟨us, t.span.stop⟩
        return (f, .after (Nat.lt_succ_self _) e)
      | none, none => named g t ⟨t :: us, last⟩ := by
  rw [atom, next?_cons]
  dsimp only
  rw [ht]
  split
  case h_12 heq =>
    cases heq
    rcases Grammar.accentedNabla? ⟨t :: us, last⟩ with - | ⟨mark, c₂, h₂⟩ <;>
      cases function? name <;> rfl
  all_goals simp_all

theorem Expression.function (h : Expression M ρ g ks v) (f : Func) :
    Atom M ρ g (fun _ => True)
      (.command (ofFunction f) :: .openParen :: (ks ++ [.closeParen])) (M.fn f v) := by
  intro ts rest last hts _
  obtain ⟨t, us, rfl, ht, hus⟩ := hts
  obtain ⟨a, e, ha, he, hv⟩ := h.parens us rest t.span.stop hus trivial
  obtain ⟨u, us, rfl, hu, hus⟩ := hus
  refine ⟨fn f a, .after (Nat.lt_succ_self _) e, ?_, he, by simp [value, hv]⟩
  have hnabla : Grammar.accentedNabla? ⟨t :: u :: us, last⟩ = none := by
    rw [Grammar.accentedNabla?, next?_cons]
    simp only [Option.bind_eq_bind, Option.bind_some, ht]
    cases f <;> rfl
  rw [atom_command ht (by cases f <;> decide), hnabla, function?_ofFunction]
  dsimp only
  rw [Formula.function, accept?_cons_of_ne (by simp [hu])]
  dsimp only
  rw [argument, peek?]
  simp only [head?_cons, Option.map_some, hu, isBracketed, if_true, ha]
  rfl

theorem atom_pi : Atom M ρ g (fun _ => True) [.command "pi"] (M.scalar "pi") := by
  intro ts rest last hts _
  obtain ⟨t, us, rfl, ht, rfl⟩ := hts
  refine ⟨sym "pi", ⟨⟨us, t.span.stop⟩, Nat.lt_succ_self _⟩, ?_, rfl, rfl⟩
  rw [atom, next?_cons]
  dsimp only
  rw [ht]
  rfl

theorem Atom.power {F : List Token → Prop} (h : Atom M ρ g F ks v) (h' : Expression M ρ g ls w)
    (hl : Leads ls) (hF : ∀ mid rest, Begins mid (.superscript :: braces ls) rest → F mid) :
    Primary M ρ g (ks ++ .superscript :: braces ls) (M.pow v w) := by
  intro ts rest last hts hrest
  obtain ⟨mid, hts, hmid⟩ := begins_append.mp hts
  obtain ⟨f, ⟨⟨ms, last'⟩, h₁⟩, hatom, hms, hv⟩ := h ts mid last hts (hF mid rest hmid)
  change ms = mid at hms
  subst hms
  obtain ⟨t, us, rfl, ht, hus⟩ := hmid
  obtain ⟨e, ⟨c₂, h₂⟩, hgroup, hc₂, hw⟩ := h'.group hl hus t.span.stop
  refine ⟨.power f e, .onward h₁ (After.after (Nat.lt_succ_self _) (.onward h₂ c₂.stay)).toFrom,
    ?_, hc₂, by simp [value, hv, hw]⟩
  have hexponent : exponent g ⟨us, t.span.stop⟩ = .ok (e, ⟨c₂, h₂⟩) := by
    obtain ⟨u, us, rfl, hu, -⟩ := hus
    rw [exponent, next?_cons]
    dsimp only
    rw [hu]
    exact hgroup
  have hscripts : postfixes g last' f ⟨t :: us, last'⟩ =
      .ok (Formula.power f e, (After.after (Nat.lt_succ_self _) (.onward h₂ c₂.stay)).toFrom) := by
    rw [postfixes, next?_cons]
    dsimp only
    rw [if_pos ht, hexponent, ok_bind]
    dsimp only
    rw [postfixes_closed (hc₂ ▸ hrest)]
    rfl
  rw [Formula.primary, hatom, ok_bind]
  dsimp only
  rw [hscripts]
  rfl

inductive NamePhrase : List TokenKind → String → Prop
  | letter (c : Char) : NamePhrase [.letter c] c.toString
  | greek {s : String} : isGreek s → NamePhrase [.command s] s
  | accent {d : Diacritic} {ks : List TokenKind} {s : String} : d ≠ .none →
      NamePhrase ks s → NamePhrase (.command d.suffix :: braces ks) (s ++ d.suffix)

theorem ofCommand?_suffix {d : Diacritic} (h : d ≠ .none) : Diacritic.ofCommand? d.suffix = some d := by
  cases d <;> first | rfl | contradiction

theorem accentedNabla?_of_name {name : String} (h : NamePhrase ks base) {t u : Token}
    (ht : t.kind = .command name) (hu : u.kind = .openBrace) (hts : Begins ts ks rest) (last : Nat) :
    Grammar.accentedNabla? ⟨t :: u :: ts, last⟩ = none := by
  have hnabla : accept? ⟨ts, u.span.stop⟩ (.command "nabla") = none := by
    obtain ⟨v, vs, rfl, hv⟩ : ∃ v vs, ts = v :: vs ∧ v.kind ≠ .command "nabla" := by
      cases h with
      | letter c =>
        obtain ⟨v, vs, rfl, hv, -⟩ := hts
        exact ⟨v, vs, rfl, by simp [hv]⟩
      | greek hs =>
        obtain ⟨v, vs, rfl, hv, -⟩ := hts
        refine ⟨v, vs, rfl, fun h => ?_⟩
        rw [hv] at h
        cases h
        cases hs
      | @accent d =>
        obtain ⟨v, vs, rfl, hv, -⟩ := hts
        refine ⟨v, vs, rfl, fun h => ?_⟩
        rw [hv] at h
        exact absurd (TokenKind.command.inj h) (by cases d <;> decide)
    exact accept?_cons_of_ne hv _ _
  rw [Grammar.accentedNabla?, next?_cons]
  simp only [Option.bind_eq_bind, Option.bind_some, ht]
  cases Diacritic.ofCommand? name with
  | none => rfl
  | some d => simp [accept?_cons hu, hnabla]

theorem NamePhrase.name? (h : NamePhrase ks base) (hts : Begins ts ks rest) (last : Nat) :
    ∃ e, g.name? ⟨ts, last⟩ = .ok (some (base, e)) ∧ e.val.rest = rest := by
  induction h generalizing ts rest last with
  | letter c =>
    obtain ⟨t, us, rfl, ht, rfl⟩ := hts
    refine ⟨⟨⟨us, t.span.stop⟩, Nat.lt_succ_self _⟩, ?_, rfl⟩
    rw [Grammar.name?, next?_cons]
    dsimp only
    rw [ht]
    rfl
  | @greek s hs =>
    obtain ⟨t, us, rfl, ht, rfl⟩ := hts
    refine ⟨⟨⟨us, t.span.stop⟩, Nat.lt_succ_self _⟩, ?_, rfl⟩
    rw [Grammar.name?, next?_cons]
    dsimp only
    rw [ht]
    dsimp only
    rw [if_pos hs]
    rfl
  | @accent d ks s hd hks ih =>
    obtain ⟨t, us, rfl, ht, hus⟩ := hts
    obtain ⟨u, vs, rfl, hu, hvs⟩ := hus
    obtain ⟨mid, hvs, hmid⟩ := begins_append.mp hvs
    obtain ⟨⟨c₃, h₃⟩, hname, hc₃⟩ := ih hvs u.span.stop
    obtain ⟨span, e, hclose, he⟩ := expect_of_begins (g := g) (hc₃ ▸ hmid) .closeBrace
    refine ⟨.after (c := ⟨t :: u :: vs, last⟩) (d := ⟨u :: vs, t.span.stop⟩) (Nat.lt_succ_self _)
      (.after (Nat.lt_succ_self _) (.after h₃ e)), ?_, he⟩
    have hnabla := accentedNabla?_of_name hks ht hu hvs last
    rw [Grammar.name?, next?_cons]
    dsimp only
    rw [ht]
    dsimp only
    rw [if_neg (by cases d <;> decide), if_neg (by cases d <;> decide), hnabla,
      ofCommand?_suffix hd]
    dsimp only
    rw [accept?_cons hu]
    dsimp only
    rw [hname, ok_bind]
    dsimp only
    rw [hclose]
    rfl

theorem greek_only : ∀ s ∈ greekLetters,
    s ∉ ["left", "frac", "sqrt", "partial", "nabla", "pi"] ∧ Diacritic.ofCommand? s = none ∧
      function? s = none := by
  decide +kernel

theorem NamePhrase.atom (h : NamePhrase ks base) (hts : Begins ts ks rest) (last : Nat) :
    ∃ t us, ts = t :: us ∧ Formula.atom g ⟨ts, last⟩ = named g t ⟨ts, last⟩ := by
  cases h with
  | letter c =>
    obtain ⟨t, us, rfl, ht, rfl⟩ := hts
    refine ⟨t, us, rfl, ?_⟩
    rw [Formula.atom, next?_cons]
    dsimp only
    rw [ht]
  | greek hs =>
    obtain ⟨t, us, rfl, ht, rfl⟩ := hts
    refine ⟨t, us, rfl, ?_⟩
    obtain ⟨hspecial, haccent, hfunction⟩ := greek_only _ (contains_iff_mem.mp hs)
    have hnabla : Grammar.accentedNabla? ⟨t :: us, last⟩ = none := by
      rw [Grammar.accentedNabla?, next?_cons]
      simp [ht, haccent]
    rw [atom_command ht hspecial, hnabla, hfunction]
  | @accent d ks s hd hks =>
    obtain ⟨t, us, rfl, ht, hus⟩ := hts
    obtain ⟨u, vs, rfl, hu, hvs⟩ := hus
    obtain ⟨mid, hvs, -⟩ := begins_append.mp hvs
    refine ⟨t, u :: vs, rfl, ?_⟩
    have hfunction : function? d.suffix = none := by cases d <;> decide
    rw [atom_command ht (by cases d <;> decide), accentedNabla?_of_name hks ht hu hvs last, hfunction]

theorem NamePhrase.named (h : NamePhrase ks base) {mid : List Token} {P : Formula → Prop}
    (hexp : (∃ t us, mid = t :: us ∧ t.kind = .superscript) → ¬(base = "e" ∧ !g.isTensor base))
    (hscripts : ∀ start last, ∃ f e, withScripts g base start ⟨mid, last⟩ = .ok (f, e) ∧
      e.val.rest = rest ∧ P f) (hts : Begins ts ks mid) (t : Token) (last : Nat) :
    ∃ f e, Formula.named g t ⟨ts, last⟩ = .ok (f, e) ∧ e.val.rest = rest ∧ P f := by
  obtain ⟨⟨⟨ms, last'⟩, h₁⟩, hname, hms⟩ := h.name? (g := g) hts last
  change ms = mid at hms
  subst hms
  obtain ⟨f, e, hwith, he, hf⟩ := hscripts t.span.start last'
  refine ⟨f, .onward h₁ e, ?_, he, hf⟩
  rw [Formula.named, hname, ok_bind]
  dsimp only
  split
  · next hsuper =>
    rw [if_neg, hwith]
    · rfl
    · apply hexp
      cases ms with
      | nil => cases hsuper
      | cons u us =>
        refine ⟨u, us, rfl, ?_⟩
        by_contra hne
        rw [accept?_cons_of_ne hne] at hsuper
        cases hsuper
  · rw [hwith]
    rfl

/-- No script of a name starts here. -/
def Stops (g : Grammar) (isTensor : Bool) (rest : List Token) : Prop :=
  ∀ last, ∃ e, readAll g isTensor ⟨rest, last⟩ = .ok ({}, e) ∧ e.val.rest = rest

theorem skipSeparator_of_ne (h : ∀ t ∈ rest.head?, t.kind ≠ .openBrace) (last : Nat) :
    skipSeparator ⟨rest, last⟩ = stay ⟨rest, last⟩ := by
  cases rest with
  | nil => rfl
  | cons t rest =>
    obtain ⟨kind, span⟩ := t
    cases kind <;> first | rfl | exact absurd rfl (h _ rfl)

theorem Closed.stops (h : Closed rest) (isTensor : Bool) : Stops g isTensor rest := by
  intro last
  refine ⟨stay ⟨rest, last⟩, ?_, rfl⟩
  rw [readAll, skipSeparator_of_ne fun t ht => (h t ht).2.2]
  cases rest with
  | nil => rfl
  | cons t rest =>
    obtain ⟨h₁, h₂, -⟩ := h t rfl
    dsimp only [stay]
    rw [next?_cons]
    dsimp only
    split
    · contradiction
    · contradiction
    · rfl

theorem NamePhrase.sym (h : NamePhrase ks base) :
    Atom M ρ g (fun rest => Stops g (g.isTensor base) rest ∧
      ((∃ t us, rest = t :: us ∧ t.kind = .superscript) → ¬(base = "e" ∧ !g.isTensor base)))
      ks (M.scalar base) := by
  intro ts rest last hts hrest
  obtain ⟨t, us, rfl, hatom⟩ := h.atom (g := g) hts last
  rw [hatom]
  refine h.named hrest.2 (fun start last => ?_) hts t last
  obtain ⟨e, hread, he⟩ := hrest.1 last
  refine ⟨Formula.sym base, e, ?_, he, rfl⟩
  rw [withScripts, hread]
  rfl

end Formula

variable {k : TokenKind} {i : Index}

namespace Formula

variable {K : Type*} [Field K] {M : Meaning K} {ρ : String → Nat} {g : Grammar}
  {ks ls : List TokenKind} {v : K} {ts rest : List Token} {height : Height} {run : List Index}

abbrev IndexPhrase (height : Height) (ks : List TokenKind) (run : List Index) : Prop :=
  Forall₂ (fun k i => indices? height k = some [i]) ks run

def scriptBody : List TokenKind → List TokenKind
  | [k] => [k]
  | ks => braces ks

def markKind : Height → TokenKind
  | .upper => .superscript
  | .lower => .subscript

section

variable (h : indices? height k = some [i])
include h

theorem ofToken_of_index {t : Token} (ht : t.kind = k) :
    ofToken height none t = .ok ⟨[i], []⟩ := by
  rw [ofToken, ht, h]
  rfl

theorem indices?_cases :
    (∃ c, k = .letter c ∧ i.name?.isSome) ∨
    (∃ s, k = .command s ∧ isGreek s ∧ i.name?.isSome) ∨
    ∃ text, k = .number text ∧ text.toList.all Char.isDigit ∧ i.name?.isSome = false := by
  unfold indices? at h
  split at h
  · next c =>
    cases h
    exact .inl ⟨c, rfl, rfl⟩
  · next s =>
    split at h
    · next hs =>
      cases h
      exact .inr (.inl ⟨s, rfl, hs, rfl⟩)
    · cases h
  · next text =>
    split at h
    · next hall =>
      obtain ⟨c, cs, hcs, hc, -⟩ := map_eq_cons_iff.mp (Option.some.inj h)
      subst hc
      exact .inr (.inr ⟨text, rfl, hall, rfl⟩)
    · cases h
  · cases h

theorem kind_of_index : k ≠ .openBrace ∧ k ≠ .closeBrace ∧ k ≠ .comma ∧ k ≠ .semicolon := by
  obtain ⟨c, rfl, -⟩ | ⟨s, rfl, -⟩ | ⟨text, rfl, -⟩ := indices?_cases h <;> simp

end

section

variable (h : IndexPhrase height ks run)
include h

theorem IndexPhrase.group (opened : Nat) (hts : Begins ts (ks ++ [.closeBrace]) rest) (last : Nat) :
    ∃ e, Script.group g height opened none ⟨ts, last⟩ = .ok (⟨run, []⟩, e) ∧ e.val.rest = rest := by
  induction h generalizing ts last with
  | nil =>
    obtain ⟨t, us, rfl, ht, rfl⟩ := hts
    refine ⟨⟨⟨us, t.span.stop⟩, Nat.lt_succ_self _⟩, ?_, rfl⟩
    rw [Script.group, next?_cons]
    dsimp only
    rw [ht]
    rfl
  | @cons k i ks run hk h ih =>
    obtain ⟨t, us, rfl, ht, hus⟩ := hts
    obtain ⟨e, hgroup, he⟩ := ih hus t.span.stop
    refine ⟨.after (Nat.lt_succ_self _) e, ?_, he⟩
    obtain ⟨-, hclose, hcomma, hsemicolon⟩ := kind_of_index hk
    rw [Script.group, next?_cons]
    dsimp only
    rw [ofToken_of_index hk ht, ok_bind, hgroup]
    split
    · exact absurd (ht.symm.trans ‹_›) hclose
    · exact absurd (ht.symm.trans ‹_›) hcomma
    · exact absurd (ht.symm.trans ‹_›) hsemicolon
    · rfl

theorem IndexPhrase.read (hts : Begins ts (scriptBody ks) rest) (last : Nat) :
    ∃ e, read g height ⟨ts, last⟩ = .ok (⟨run, []⟩, e) ∧ e.val.rest = rest := by
  unfold scriptBody at hts
  split at hts
  · next k =>
    obtain - | ⟨hk, ⟨⟩⟩ := h
    obtain ⟨t, us, rfl, ht, rfl⟩ := hts
    refine ⟨⟨⟨us, t.span.stop⟩, Nat.lt_succ_self _⟩, ?_, rfl⟩
    rw [Script.read, next?_cons]
    dsimp only
    rw [if_neg (ht ▸ (kind_of_index hk).1), ofToken_of_index hk ht]
    rfl
  · obtain ⟨t, us, rfl, ht, hus⟩ := hts
    obtain ⟨e, hgroup, he⟩ := h.group (g := g) t.span.start hus t.span.stop
    refine ⟨.after (Nat.lt_succ_self _) e, ?_, he⟩
    rw [Script.read, next?_cons]
    dsimp only
    rw [if_pos ht, hgroup]
    rfl

theorem IndexPhrase.classifyGroup (named : Bool) (hts : Begins ts (ks ++ [.closeBrace]) rest) :
    classifyGroup named ts = (true, named || run.any (·.name?.isSome)) := by
  induction h generalizing ts named with
  | nil =>
    obtain ⟨t, us, rfl, ht, rfl⟩ := hts
    simp [classifyGroup, ht]
  | @cons k i ks run hk h ih =>
    obtain ⟨t, us, rfl, ht, hus⟩ := hts
    rw [classifyGroup, ht]
    obtain ⟨c, rfl, hi⟩ | ⟨s, rfl, hs, hi⟩ | ⟨text, rfl, hall, hi⟩ := indices?_cases hk
    · simp [ih true hus, hi]
    · simp [ih true hus, hi, hs]
    · dsimp only
      rw [if_pos hall, ih named hus, any_cons, hi, Bool.false_or]

theorem IndexPhrase.classify (hts : Begins ts (scriptBody ks) rest) :
    classify ts = (true, run.any (·.name?.isSome)) := by
  unfold scriptBody at hts
  split at hts
  · next k =>
    obtain - | ⟨hk, ⟨⟩⟩ := h
    obtain ⟨t, us, rfl, ht, rfl⟩ := hts
    obtain ⟨c, rfl, hi⟩ | ⟨s, rfl, hs, hi⟩ | ⟨text, rfl, hall, hi⟩ := indices?_cases hk <;>
      simp_all [classify]
  · obtain ⟨t, us, rfl, ht, hus⟩ := hts
    rw [classify, ht]
    dsimp only
    rw [h.classifyGroup false hus, Bool.false_or]

end

/-- The tokens of scripts, of which `n` have come before. -/
inductive ScriptsPhrase : Nat → List (Height × List Index) → List TokenKind → Prop
  | nil (n : Nat) : ScriptsPhrase n [] []
  | cons {n : Nat} {height : Height} {run : List Index} {ks ls : List TokenKind}
      {runs : List (Height × List Index)} : IndexPhrase height ks run →
      ScriptsPhrase (n + 1) runs ls → ScriptsPhrase n ((height, run) :: runs)
        ((if 2 ≤ n then braces [] else []) ++ markKind height :: scriptBody ks ++ ls)

/-- The scripts can be told from an exponent. -/
def Indexing (isTensor : Bool) (runs : List (Height × List Index)) : Prop :=
  ∀ r ∈ runs, r.1 = .upper → isTensor || r.2.any (·.name?.isSome)

theorem skipSeparator_braces {s t u : Token} (hs : s.kind = .openBrace) (ht : t.kind = .closeBrace)
    (hu : u.kind = .superscript ∨ u.kind = .subscript) (us : List Token) (last : Nat) :
    (skipSeparator ⟨s :: t :: u :: us, last⟩).val = ⟨u :: us, t.span.stop⟩ := by
  obtain ⟨_, s⟩ := s
  obtain ⟨_, t⟩ := t
  cases hs
  cases ht
  simp [skipSeparator, hu]

theorem skipSeparator_script {n : Nat}
    (hts : Begins ts ((if 2 ≤ n then braces [] else []) ++ markKind height :: ks) rest) (last : Nat) :
    ∃ t us last', (skipSeparator ⟨ts, last⟩).val = ⟨t :: us, last'⟩ ∧ t.kind = markKind height ∧
      Begins us ks rest := by
  split at hts
  · obtain ⟨s, _, rfl, hs, t, _, rfl, ht, u, us, rfl, hu, hus⟩ := hts
    refine ⟨u, us, _, skipSeparator_braces hs ht ?_ us last, hu, hus⟩
    rw [hu]
    cases height <;> simp [markKind]
  · obtain ⟨t, us, rfl, ht, hus⟩ := hts
    refine ⟨t, us, last, ?_, ht, hus⟩
    rw [skipSeparator_of_ne]
    · rfl
    · intro x hx
      cases hx
      rw [ht]
      cases height <;> simp [markKind]

theorem append_plain (run : List Index) (runs : List (Height × List Index)) :
    append ⟨run, []⟩ ⟨runs.flatMap (·.2), []⟩ =
      ⟨((height, run) :: runs).flatMap (·.2), []⟩ := rfl

theorem ScriptsPhrase.readAll {n : Nat} {runs : List (Height × List Index)}
    (h : ScriptsPhrase n runs ks) {isTensor : Bool} (hruns : Indexing isTensor runs)
    (hrest : Stops g isTensor rest) (hts : Begins ts ks rest) (last : Nat) :
    ∃ e, readAll g isTensor ⟨ts, last⟩ = .ok (⟨runs.flatMap (·.2), []⟩, e) ∧
      e.val.rest = rest := by
  induction h generalizing ts last with
  | nil n =>
    cases hts
    exact hrest last
  | @cons n height run ks ls runs hks hls ih =>
    rw [append_assoc, cons_append] at hts
    obtain ⟨t, us, last', hskip, ht, hus⟩ := skipSeparator_script hts last
    obtain ⟨mid, hus, hmid⟩ := begins_append.mp hus
    obtain ⟨⟨⟨ms, last''⟩, h₃⟩, hread, hms⟩ := hks.read (g := g) hus t.span.stop
    change ms = mid at hms
    subst hms
    obtain ⟨e, hreadAll, he⟩ := ih (fun r hr => hruns r (mem_cons_of_mem _ hr)) hmid last''
    have hindexing := hruns (height, run) (by simp)
    have hclassify := hks.classify hus
    rw [readAll]
    generalize skipSeparator ⟨ts, last⟩ = start at hskip
    obtain ⟨c₁, h₁⟩ := start
    change c₁ = _ at hskip
    subst hskip
    refine ⟨(From.after h₁ (.after (Nat.lt_succ_self _) (.onward h₃ e))).toFrom, ?_, he⟩
    dsimp only
    rw [next?_cons]
    dsimp only
    cases height with
    | lower =>
      rw [show t.kind = .subscript from ht]
      dsimp only
      rw [hread, ok_bind, hreadAll]
      exact congrArg (fun s => Except.ok (s, _)) (append_plain run _)
    | upper =>
      rw [show t.kind = .superscript from ht]
      dsimp only
      rw [hclassify]
      dsimp only
      rw [if_pos (by simpa using hindexing rfl), hread, ok_bind, hreadAll]
      exact congrArg (fun s => Except.ok (s, _)) (append_plain run _)

section

variable (h : NamePhrase ks base) {runs : List (Height × List Index)} (hs : ScriptsPhrase 0 runs ls)
  (hne : runs.flatMap (·.2) ≠ []) (hruns : Indexing (g.isTensor base) runs)
  (hexp : runs.head?.map (·.1) = some .upper → ¬(base = "e" ∧ !g.isTensor base))
include h hs hne hruns hexp

theorem NamePhrase.atom_tensor (hts : Begins ts (ks ++ ls) rest)
    (hrest : Stops g (g.isTensor base) rest) (last : Nat) :
    ∃ f e, Formula.atom g ⟨ts, last⟩ = .ok (f, e) ∧ e.val.rest = rest ∧
      ∃ span, f = Formula.tensor (.ofBase base (runs.flatMap (·.2)) span) := by
  obtain ⟨mid, hts, hmid⟩ := begins_append.mp hts
  obtain ⟨t, us, rfl, hatom⟩ := h.atom (g := g) hts last
  rw [hatom]
  refine h.named ?_ (fun start last => ?_) hts t last
  · rintro ⟨u, vs, rfl, hu⟩
    apply hexp
    cases hs with
    | nil n => exact absurd rfl hne
    | @cons n height run ks' ls' runs hks hls =>
      obtain ⟨u', _, heq, hu', -⟩ := hmid
      cases heq
      rw [hu] at hu'
      cases height with
      | upper => rfl
      | lower => cases hu'
  · obtain ⟨e, hread, he⟩ := hs.readAll hruns hrest hmid last
    refine ⟨_, e, ?_, he, ⟨start, e.val.last⟩, rfl⟩
    rw [withScripts, hread, ok_bind]
    dsimp only
    rw [if_neg (by simpa using hne)]
    rfl

theorem NamePhrase.tensor :
    Atom M ρ g (Stops g (g.isTensor base)) (ks ++ ls)
      (M.component (TensorRef.ofBase base (runs.flatMap (·.2)) .none).head
        ((runs.flatMap (·.2)).map (indexAt ρ))) := by
  intro ts rest last hts hrest
  obtain ⟨_, e, hatom, he, span, rfl⟩ := h.atom_tensor hs hne hruns hexp hts hrest last
  exact ⟨_, e, hatom, he, rfl⟩

end

inductive OperatorPhrase : List TokenKind → DerivativeKind → Prop
  | partialDerivative : OperatorPhrase [.command "partial"] .partialDerivative
  | nabla : OperatorPhrase [.command "nabla"] (.covariant .none)
  | accent {d : Diacritic} : d ≠ .none →
      OperatorPhrase (.command d.suffix :: braces [.command "nabla"]) (.covariant d)

section

variable {kind : DerivativeKind} (h : OperatorPhrase ks kind)
include h

theorem OperatorPhrase.atom (hts : Begins ts ks rest) (last : Nat) : ∃ start last' h',
      Formula.atom g ⟨ts, last⟩ = (do
        let (f, e) ← operator g kind start ⟨rest, last'⟩
        return (f, .after h' e)) := by
  cases h with
  | partialDerivative | nabla =>
    obtain ⟨t, us, rfl, ht, rfl⟩ := hts
    refine ⟨t.span.start, t.span.stop, Nat.lt_succ_self _, ?_⟩
    rw [Formula.atom, next?_cons]
    dsimp only
    rw [ht]
    rfl
  | @accent d hd =>
    obtain ⟨t, _, rfl, ht, u, _, rfl, hu, x, _, rfl, hx, y, us, rfl, hy, rfl⟩ := hts
    have hnabla : Grammar.accentedNabla? ⟨t :: u :: x :: y :: us, last⟩ =
        some (d, ⟨⟨us, y.span.stop⟩, by simp only [length_cons]; omega⟩) := by
      rw [Grammar.accentedNabla?, next?_cons]
      simp only [Option.bind_eq_bind, Option.bind_some, ht, ofCommand?_suffix hd,
        accept?_cons hu, accept?_cons hx, accept?_cons hy]
      rfl
    refine ⟨t.span.start, y.span.stop, by simp only [length_cons]; omega, ?_⟩
    rw [atom_command ht (by cases d <;> decide), hnabla]

theorem OperatorPhrase.derivative {height : Height} (hi : indices? height k = some [i])
    (hl : Primary M ρ g ls v) :
    Atom M ρ g Closed (ks ++ markKind height :: k :: ls)
      (M.derivative kind i.height (indexAt ρ i) v) := by
  intro ts rest last hts hrest
  obtain ⟨mid, hts, t, us, rfl, ht, (hus : Begins us ([k] ++ ls) rest)⟩ := begins_append.mp hts
  obtain ⟨start, last', h', hatom⟩ := h.atom (g := g) hts last
  obtain ⟨ms, hus, hms⟩ := begins_append.mp hus
  have hphrase : IndexPhrase height [k] [i] := .cons hi .nil
  obtain ⟨⟨⟨ms', last''⟩, h₂⟩, hread, hms'⟩ := hphrase.read (g := g) hus t.span.stop
  change ms' = ms at hms'
  subst hms'
  obtain ⟨f, e, hprimary, he, hv⟩ := hl ms' rest last'' hms hrest
  have hoperator : operator g kind start ⟨t :: us, last'⟩ =
      .ok (operated kind [i] ⟨start, e.val.last⟩ f,
        .after (Nat.lt_succ_self _) (.after h₂ e)) := by
    rw [operator, next?_cons]
    dsimp only
    cases height with
    | lower =>
      rw [show t.kind = .subscript from ht]
      dsimp only
      rw [hread, ok_bind]
      dsimp only
      rw [if_neg (by simp), hprimary]
      rfl
    | upper =>
      rw [show t.kind = .superscript from ht]
      dsimp only
      rw [hread, ok_bind]
      dsimp only
      rw [if_neg (by simp), hprimary]
      rfl
  refine ⟨operated kind [i] ⟨start, e.val.last⟩ f,
    .after h' (.after (Nat.lt_succ_self _) (.after h₂ e)), ?_, he, ?_⟩
  · rw [hatom, hoperator]
    rfl
  · simp [operated, value, hv]

end

end Formula

/-! Texts as phrases: which tokens the text of a name, an index, a script or a number is scanned
as. The braces of every such phrase match, and it is known whether the phrase reads as an index
list. -/

open Token String

variable {height : Height} {name : String}

namespace Formula

/-- No brace of the phrase is stray, and it opens and closes the same number of them. -/
def Balanced (ks : List TokenKind) : Prop :=
  ∀ depth script ts rest, Begins ts ks rest →
    ∃ script', strayBrace? depth script ts = strayBrace? depth script' rest

/-- Whether the phrase can be part of an index list, and whether it then names an index. -/
def Classed (like named : Bool) (ks : List TokenKind) : Prop :=
  ∀ ts rest seen, Begins ts ks rest → classifyGroup seen ts =
    if like then classifyGroup (seen || named) rest else (false, false)

/-- The text is scanned as the phrase if no letter, digit or point comes after. -/
structure Spelled (s : String) (like named : Bool) (ks : List TokenKind) : Prop where
  spells : Spells Bounded s.toList ks
  balanced : Balanced ks
  classed : Classed like named ks

def isForeign : TokenKind → Bool
  | .letter _ | .number _ | .comma | .semicolon | .closeBrace => false
  | .command name => !isGreek name
  | _ => true

variable {ks ls : List TokenKind} {s a b : String} {l l' n n' : Bool}

theorem balanced_nil : Balanced [] := by
  intro depth script ts rest h
  exact ⟨script, by rw [show ts = rest from h]⟩

theorem Balanced.append (hk : Balanced ks) (hl : Balanced ls) : Balanced (ks ++ ls) := by
  intro depth script ts rest h
  obtain ⟨mid, hts, hmid⟩ := begins_append.mp h
  obtain ⟨script₁, h₁⟩ := hk depth script ts mid hts
  obtain ⟨script₂, h₂⟩ := hl depth script₁ mid rest hmid
  exact ⟨script₂, h₁.trans h₂⟩

theorem balanced_singleton (hopen : k ≠ .openBrace) (hclose : k ≠ .closeBrace) : Balanced [k] := by
  intro depth script ts rest h
  obtain ⟨t, us, rfl, rfl, rfl⟩ := h
  rw [strayBrace?]
  split
  · contradiction
  · contradiction
  all_goals exact ⟨_, rfl⟩

theorem Balanced.braces (h : Balanced ks) : Balanced (braces ks) := by
  intro depth script ts rest hts
  obtain ⟨t, us, rfl, ht, hus⟩ := hts
  obtain ⟨_, hmid, u, vs, rfl, hu, rfl⟩ := begins_append.mp hus
  obtain ⟨script', hinner⟩ := h (depth + 1) script us _ hmid
  refine ⟨script', ?_⟩
  rw [strayBrace?, ht]
  dsimp only
  rw [hinner, strayBrace?, hu]
  simp

theorem classed_nil : Classed true false [] := by
  intro ts rest seen h
  rw [show ts = rest from h, Bool.or_false]
  rfl

theorem Classed.append (hk : Classed l n ks) (hl : Classed l' n' ls) :
    Classed (l && l') (n || n') (ks ++ ls) := by
  intro ts rest seen h
  obtain ⟨mid, hts, hmid⟩ := begins_append.mp h
  rw [hk ts mid seen hts, hl mid rest _ hmid, Bool.or_assoc]
  cases l <;> cases l' <;> rfl

theorem classed_foreign (h : isForeign k) (ks : List TokenKind) (n : Bool) :
    Classed false n (k :: ks) := by
  intro ts rest seen hts
  obtain ⟨t, us, rfl, rfl, -⟩ := hts
  rw [classifyGroup]
  cases hk : t.kind <;> simp_all [isForeign]

theorem classed_index (h : indices? height k = some [i]) :
    Classed true i.name?.isSome [k] := by
  intro ts rest seen hts
  obtain ⟨t, us, rfl, ht, rfl⟩ := hts
  rw [classifyGroup, ht]
  obtain ⟨c, rfl, hi⟩ | ⟨s, rfl, hs, hi⟩ | ⟨text, rfl, hall, hi⟩ := indices?_cases h
  · simp [hi]
  · simp [hs, hi]
  · dsimp only
    rw [if_pos hall, hi, Bool.or_false]
    rfl

variable {m : String} {c : Char}

theorem spelled_empty : Spelled "" true false [] :=
  ⟨spells_nil, balanced_nil, classed_nil⟩

def Apart (s : String) : Prop :=
  ∀ rest, Bounded rest → Bounded (s.toList ++ rest)

theorem apart_of_mark (hm : m.toList = [c]) (hc : mark? c = some k) (s : String) : Apart (m ++ s) := by
  intro rest _
  rw [toList_append, hm]
  exact bounded_of_mark hc _

theorem apart_blank (s : String) : Apart (" " ++ s) := by
  intro rest _
  rw [toList_append]
  exact bounded_blank _

theorem Apart.append (ha : Apart a) (hb : Apart b) : Apart (a ++ b) := by
  intro rest hrest
  rw [toList_append, List.append_assoc]
  exact ha _ (hb rest hrest)

theorem Spelled.append (ha : Spelled a l n ks) (hb : Spelled b l' n' ls) (h : Apart b) :
    Spelled (a ++ b) (l && l') (n || n') (ks ++ ls) where
  spells := by
    rw [toList_append]
    exact ha.spells.append hb.spells h
  balanced := ha.balanced.append hb.balanced
  classed := ha.classed.append hb.classed

theorem Spelled.after_blank (h : Spelled s l n ks) : Spelled (" " ++ s) l n ks := by
  refine ⟨?_, h.balanced, h.classed⟩
  rw [toList_append]
  exact spells_blank.append h.spells fun _ _ => trivial

theorem Spelled.spaced (ha : Spelled a l n ks) (hb : Spelled b l' n' ls) :
    Spelled (a ++ " " ++ b) (l && l') (n || n') (ks ++ ls) := by
  rw [String.append_assoc]
  exact ha.append hb.after_blank (apart_blank b)

theorem Spelled.after_mark (h : Spelled s l n ks) (hm : m.toList = [c]) (hc : mark? c = some k)
    (hk : isForeign k) (hopen : k ≠ .openBrace) (n' : Bool) : Spelled (m ++ s) false n' (k :: ks) where
  spells := by
    rw [toList_append, hm]
    exact (spells_mark hc).append h.spells fun _ _ => trivial
  balanced := by
    have hclose : k ≠ .closeBrace := by
      rintro rfl
      cases hk
    exact (balanced_singleton hopen hclose).append h.balanced
  classed := classed_foreign hk ks n'

theorem Spelled.unlike (h : Spelled s false n ks) (n' : Bool) : Spelled s false n' ks :=
  ⟨h.spells, h.balanced, h.classed⟩

section

variable (h : Spelled s l n ks) (n' : Bool)
include h

theorem Spelled.neg : Spelled ("-" ++ s) false n' (.minus :: ks) :=
  h.after_mark (c := '-') rfl rfl rfl (by simp) n'

theorem Spelled.parens :
    Spelled ("(" ++ s ++ ")") false n' (.openParen :: (ks ++ [.closeParen])) := by
  have hclose : Spelled (")" ++ "") false false [.closeParen] :=
    spelled_empty.after_mark (c := ')') rfl rfl rfl (by simp) false
  have happart : Apart (")" ++ "") := apart_of_mark (c := ')') rfl rfl ""
  rw [String.append_assoc]
  exact (h.append hclose happart).after_mark (c := '(') rfl rfl rfl (by simp) n'

theorem Spelled.braced :
    Spelled (braced s) false n' (braces ks) where
  spells := by
    have hclose := h.spells.append (spells_mark (c := '\x7d') rfl) fun rest _ => bounded_of_mark rfl rest
    have hopen := (spells_mark (c := '\x7b') rfl).append hclose fun _ _ => trivial
    have htext : (TensorCalculus.braced s).toList = '\x7b' :: (s.toList ++ ['\x7d']) := by
      simp [TensorCalculus.braced]
    rw [htext]
    exact hopen.mono fun _ _ => trivial
  balanced := h.balanced.braces
  classed := classed_foreign rfl _ n'

end

theorem apart_braced (s : String) : Apart (TensorCalculus.braced s) := by
  rw [TensorCalculus.braced, String.append_assoc]
  exact apart_of_mark (c := '\x7b') rfl rfl _

theorem apart_parens (s : String) : Apart ("(" ++ s ++ ")") := by
  rw [String.append_assoc]
  exact apart_of_mark (c := '(') rfl rfl _

theorem known_command : ∀ name ∈ known, name.toList ≠ [] ∧ name.toList.all Char.isAlpha ∧
    name ≠ "begin" ∧ name ≠ "end" ∧ name ∉ spacing := by
  decide +kernel

theorem classed_command (name : String) :
    Classed (isGreek name) (isGreek name) [.command name] := by
  intro ts rest seen hts
  obtain ⟨t, us, rfl, ht, rfl⟩ := hts
  rw [classifyGroup, ht]
  cases h : isGreek name <;> simp [h]

theorem spelled_command (h : isKnown name) :
    Spelled ("\\" ++ name) (isGreek name) (isGreek name) [.command name] where
  spells := by
    obtain ⟨hne, halpha, hspace⟩ := known_command name (contains_iff_mem.mp h)
    rw [toList_append]
    exact spells_command hne (all_eq_true.mp halpha) h hspace
  balanced := balanced_singleton (by simp) (by simp)
  classed := classed_command name

theorem isKnown_of_isGreek (h : isGreek name) : isKnown name := by
  rw [isGreek, contains_iff_mem] at h
  rw [isKnown, contains_iff_mem, known]
  exact mem_append_left _ (mem_append_left _ h)

end Formula

namespace Diacritic

/-- A letter or a Greek letter, with at most one mark. -/
def isSimple (name : String) : Bool :=
  markable (split name).1

theorem split_cases (name : String) : split name = (name, none) ∨
    ∃ stem d, d ≠ none ∧ split name = (stem, d) ∧ markable stem ∧ name = stem ++ d.suffix := by
  cases h : [hat, bar, tilde].findSome? fun d => (d.stem? name).map (·, d) with
  | none => exact .inl (by rw [split, h]; rfl)
  | some r =>
    obtain ⟨d, hd, hr⟩ := exists_of_findSome?_eq_some h
    obtain ⟨stem, hstem, rfl⟩ := Option.map_eq_some_iff.mp hr
    refine .inr ⟨stem, d, ?_, by rw [split, h]; rfl, ?_⟩
    · rintro rfl
      simp at hd
    · unfold stem? at hstem
      dsimp only at hstem
      split at hstem
      · next hcond =>
        rw [Bool.and_eq_true, isSuffixOf_iff_suffix] at hcond
        cases hstem
        refine ⟨hcond.2, ?_⟩
        rw [← toList_inj, toList_append, toList_ofList]
        exact (suffix_iff_eq_append.mp hcond.1).symm
      · cases hstem

theorem greek_unmarked : ∀ s ∈ greekLetters, 2 ≤ s.toList.length ∧
    ∀ d ∈ [hat, bar, tilde], d.suffix.toList.isSuffixOf s.toList = false := by
  decide +kernel

theorem markable_cases {stem : String} (h : markable stem) :
    isGreek stem ∨ ∃ c : Char, c.isAlpha ∧ stem = c.toString := by
  rw [markable, Bool.or_eq_true] at h
  obtain h | h := h
  · exact .inl h
  · right
    split at h
    · next c hc => exact ⟨c, h, by rw [← toList_inj, hc]; simp⟩
    · cases h

theorem markable_append_suffix {d : Diacritic} (hd : d ≠ none) (stem : String) :
    markable (stem ++ d.suffix) = false := by
  have hlong : 2 ≤ (stem ++ d.suffix).toList.length := by
    rw [toList_append, List.length_append]
    cases d <;> first | contradiction | simp [suffix]
  rw [markable, Bool.or_eq_false_iff]
  constructor
  · rw [Bool.eq_false_iff]
    intro hgreek
    have := (greek_unmarked _ (contains_iff_mem.mp hgreek)).2 d
      (by cases d <;> first | contradiction | simp)
    rw [toList_append, Bool.eq_false_iff] at this
    exact this (isSuffixOf_iff_suffix.mpr (suffix_append _ _))
  · split
    · next c hc =>
      rw [hc] at hlong
      simp at hlong
    · rfl

theorem split_of_markable (h : markable name) : split name = (name, none) := by
  obtain hsplit | ⟨stem, d, hd, -, -, rfl⟩ := split_cases name
  · exact hsplit
  · rw [markable_append_suffix hd stem] at h
    cases h

theorem isGreek_toString (c : Char) : isGreek c.toString = false := by
  rw [Bool.eq_false_iff]
  intro h
  have := (greek_unmarked _ (contains_iff_mem.mp h)).1
  simp at this

end Diacritic

def Index.isSimple (i : Index) : Bool :=
  i.name?.all Diacritic.isSimple

namespace Formula

open Diacritic

variable {ks ls : List TokenKind} {s : String}

theorem exists_unmarked (h : markable s) : ∃ k, NamePhrase [k] s ∧ opens k ∧
    (∀ height, indices? height k = some [.named s height]) ∧
    Spelled (if isGreek s then "\\" ++ s else s) true true [k] := by
  obtain hs | ⟨c, hc, rfl⟩ := markable_cases h
  · refine ⟨.command s, .greek hs, ?_, fun height => by simp [indices?, hs], ?_⟩
    · have : ∀ s ∈ greekLetters, opens (.command s) := by decide +kernel
      exact this s (contains_iff_mem.mp hs)
    · rw [if_pos hs]
      simpa only [hs] using spelled_command (isKnown_of_isGreek hs)
  · refine ⟨.letter c, .letter c, rfl, fun height => rfl, ?_⟩
    rw [isGreek_toString]
    have hclassed : Classed true true [.letter c] :=
      classed_index (show indices? .upper (.letter c) = some [.upper c.toString] from rfl)
    refine ⟨?_, balanced_singleton (by simp) (by simp), hclassed⟩
    rw [if_neg (by simp), show c.toString.toList = [c] by simp]
    exact (spells_letter hc).mono fun _ _ => trivial

theorem exists_namePhrase (h : isSimple s) : ∃ ks, NamePhrase ks s ∧ Opens ks ∧
    Spelled (nameText s) (markable s) (markable s) ks := by
  have hpi : s ≠ "pi" := by
    rintro rfl
    revert h
    decide
  rw [nameText, if_neg (by simpa using hpi)]
  rw [isSimple] at h
  obtain hsplit | ⟨stem, d, hd, hsplit, hstem, rfl⟩ := split_cases s
  · rw [hsplit] at h ⊢
    obtain ⟨k, hname, hopens, -, hspelled⟩ := exists_unmarked h
    exact ⟨[k], hname, ⟨k, [], rfl, hopens⟩, by rwa [h]⟩
  · obtain ⟨k, hname, hopens, -, hspelled⟩ := exists_unmarked hstem
    refine ⟨_, hname.accent hd, ⟨_, _, rfl, by cases d <;> rfl⟩, ?_⟩
    have hunmarked := markable_append_suffix hd stem
    have hgreek : isGreek (stem ++ d.suffix) = false := by
      rw [markable, Bool.or_eq_false_iff] at hunmarked
      exact hunmarked.1
    have hcommand : Spelled ("\\" ++ d.suffix) false false [.command d.suffix] := by
      cases d <;> first | contradiction | exact spelled_command (by decide)
    have htext := hcommand.append (hspelled.braced false) (apart_braced _)
    rw [hunmarked, hgreek, hsplit]
    cases d <;> first | contradiction | exact htext

theorem nameText_of_markable (h : markable s) :
    nameText s = if isGreek s then "\\" ++ s else s := by
  have hpi : s ≠ "pi" := by
    rintro rfl
    revert h
    decide
  rw [nameText, if_neg (by simpa using hpi), split_of_markable h]

theorem markable_of_written {i : Index} (h : i.Written) (hi : i.isSimple) {s : String}
    (hs : i.value = .named s) : markable s := by
  have hsimple : isSimple s := by rwa [Index.isSimple, Index.name?, hs] at hi
  rw [Index.Written, hs] at h
  obtain h | ⟨c, rfl⟩ := h
  · rw [markable, h, Bool.true_or]
  · obtain hsplit | ⟨stem, d, hd, hsplit, hstem, heq⟩ := split_cases c.toString
    · rwa [isSimple, hsplit] at hsimple
    · -- A marked name has more than one letter.
      have hlength := congrArg (·.toList.length) heq
      cases d <;> first | contradiction | simp [suffix] at hlength

theorem spelled_digit {m : Nat} (hm : m < 10) (height : Height) :
    indices? height (.number (toString m)) = some [.fixed m height] ∧
      Spelled (toString m) true false [.number (toString m)] := by
  have hindex : indices? height (.number (toString m)) = some [.fixed m height] := by
    interval_cases m <;> rfl
  exact ⟨hindex, spells_nat m, balanced_singleton (by simp) (by simp), classed_index hindex⟩

theorem exists_indexKind (h : i.Written) (hi : i.isSimple) :
    ∃ k, indices? i.height k = some [i] ∧ Spelled i.text true i.name?.isSome [k] := by
  obtain ⟨value, height⟩ := i
  cases value with
  | named s =>
    have hs := markable_of_written h hi rfl
    obtain ⟨k, -, -, hk, hspelled⟩ := exists_unmarked hs
    refine ⟨k, hk height, ?_⟩
    rw [← nameText_of_markable hs] at hspelled
    exact hspelled
  | fixed m =>
    obtain ⟨hk, hspelled⟩ := spelled_digit h height
    exact ⟨_, hk, hspelled⟩

theorem exists_indexPhrase {run : List Index}
    (h : ∀ i ∈ run, i.height = height ∧ i.Written ∧ i.isSimple) :
    ∃ ks, IndexPhrase height ks run ∧
      Spelled (" ".intercalate (run.map Index.text)) true (run.any (·.name?.isSome)) ks := by
  induction run with
  | nil => exact ⟨[], .nil, spelled_empty⟩
  | cons i run ih =>
    rw [forall_mem_cons] at h
    obtain ⟨⟨rfl, hwritten, hsimple⟩, hrun⟩ := h
    obtain ⟨k, hk, hspelled⟩ := exists_indexKind hwritten hsimple
    obtain ⟨ks, hks, htail⟩ := ih hrun
    refine ⟨k :: ks, .cons hk hks, ?_⟩
    cases run with
    | nil =>
      cases hks
      simpa using hspelled
    | cons j run =>
      rw [map_cons, map_cons, String.intercalate_cons_cons, any_cons]
      exact hspelled.spaced htail

theorem apart_mark (height : Height) (s : String) : Apart (height.mark ++ s) := by
  cases height with
  | upper => exact apart_of_mark (c := '^') rfl rfl s
  | lower => exact apart_of_mark (c := '_') rfl rfl s

theorem Spelled.scripted {l n : Bool} (h : Spelled s l n ks) (height : Height) :
    Spelled (height.mark ++ s) false false (markKind height :: ks) := by
  cases height with
  | upper => exact h.after_mark (c := '^') rfl rfl rfl (by simp) false
  | lower => exact h.after_mark (c := '_') rfl rfl rfl (by simp) false

theorem exists_script {height : Height} {run : List Index}
    (h : ∀ i ∈ run, i.height = height ∧ i.Written ∧ i.isSimple) :
    ∃ ks, IndexPhrase height ks run ∧
      Spelled (scriptText height run) false false (markKind height :: scriptBody ks) := by
  obtain ⟨ks, hks, hspelled⟩ := exists_indexPhrase h
  refine ⟨ks, hks, ?_⟩
  unfold scriptText
  split
  · next i =>
    obtain - | ⟨hk, ⟨⟩⟩ := hks
    rw [map_singleton, String.intercalate_singleton] at hspelled
    exact hspelled.scripted height
  · next hrun =>
    have hbody : scriptBody ks = braces ks := by
      unfold scriptBody
      split
      · next k =>
        obtain - | ⟨hk, ⟨⟩⟩ := hks
        exact absurd rfl (hrun _)
      · rfl
    rw [hbody]
    exact (hspelled.braced false).scripted height

theorem apart_scriptText (height : Height) (run : List Index) : Apart (scriptText height run) := by
  unfold scriptText
  split <;> exact apart_mark height _

theorem spelled_separator (m : Nat) : ∃ l, Apart (if 2 ≤ m then braced "" else "") ∧
    Spelled (if 2 ≤ m then braced "" else "") l false (if 2 ≤ m then braces [] else []) := by
  split
  · exact ⟨false, apart_braced "", spelled_empty.braced false⟩
  · exact ⟨true, fun _ hrest => hrest, spelled_empty⟩

theorem exists_scriptsPhrase {runs : List (Height × List Index)}
    (h : ∀ r ∈ runs, ∀ i ∈ r.2, i.height = r.1 ∧ i.Written ∧ i.isSimple) (m : Nat) :
    let text := String.join ((runs.zipIdx m).map fun ((height, run), n) =>
      (if 2 ≤ n then braced "" else "") ++ scriptText height run)
    ∃ ks, ScriptsPhrase m runs ks ∧ Apart text ∧ Spelled text runs.isEmpty false ks := by
  induction runs generalizing m with
  | nil => exact ⟨[], .nil m, fun rest hrest => hrest, spelled_empty⟩
  | cons r runs ih =>
    obtain ⟨height, run⟩ := r
    rw [forall_mem_cons] at h
    obtain ⟨ks, hks, hscript⟩ := exists_script h.1
    obtain ⟨ls, hls, hapart, htail⟩ := ih h.2 (m + 1)
    obtain ⟨l, hseparate, hseparator⟩ := spelled_separator m
    have hscriptApart := apart_scriptText height run
    rw [zipIdx_cons, map_cons, join_cons]
    refine ⟨_, .cons hks hls, (hseparate.append hscriptApart).append hapart, ?_⟩
    simpa using (hseparator.append hscript hscriptApart).append htail hapart

theorem flatMap_scripts (indices : List Index) : (scripts indices).flatMap (·.2) = indices := by
  induction indices with
  | nil => rfl
  | cons i indices ih =>
    rw [scripts]
    split
    · next height run rest heq =>
      rw [heq, flatMap_cons] at ih
      split <;> simp [ih]
    · next heq =>
      rw [heq] at ih
      simp [← ih]

theorem height_of_mem_scripts {indices : List Index} :
    ∀ r ∈ scripts indices, ∀ i ∈ r.2, i.height = r.1 := by
  induction indices with
  | nil => simp [scripts]
  | cons i indices ih =>
    rw [scripts]
    split
    · next height run rest heq =>
      rw [heq, forall_mem_cons] at ih
      split
      · next hheight =>
        rw [forall_mem_cons]
        exact ⟨forall_mem_cons.mpr ⟨hheight, ih.1⟩, ih.2⟩
      · exact forall_mem_cons.mpr ⟨by simp, forall_mem_cons.mpr ih⟩
    · simp

theorem head?_scripts (indices : List Index) :
    (scripts indices).head?.map (·.1) = indices.head?.map (·.height) := by
  cases indices with
  | nil => rfl
  | cons i indices =>
    rw [scripts]
    split
    · split
      · next hheight => simp [hheight]
      · rfl
    · rfl

theorem mem_of_mem_scripts {indices : List Index} {r : Height × List Index}
    (hr : r ∈ scripts indices) (hi : i ∈ r.2) : i ∈ indices := by
  rw [← flatMap_scripts indices]
  exact mem_flatMap.mpr ⟨r, hr, hi⟩

theorem exists_operatorPhrase (kind : DerivativeKind) :
    ∃ ks, OperatorPhrase ks kind ∧ Opens ks ∧ Spelled kind.text false false ks := by
  have hnabla : Spelled "\\nabla" false false [.command "nabla"] :=
    spelled_command (show isKnown "nabla" by decide)
  cases kind with
  | partialDerivative =>
    exact ⟨_, .partialDerivative, ⟨_, _, rfl, rfl⟩,
      spelled_command (show isKnown "partial" by decide)⟩
  | covariant d =>
    by_cases hd : d = .none
    · subst hd
      exact ⟨_, .nabla, ⟨_, _, rfl, rfl⟩, hnabla⟩
    · have hcommand : Spelled ("\\" ++ d.suffix) false false [.command d.suffix] := by
        cases d <;> first | contradiction | exact spelled_command (by decide)
      have htext := hcommand.append (hnabla.braced false) (apart_braced _)
      refine ⟨_, .accent hd, ⟨_, _, rfl, by cases d <;> rfl⟩, ?_⟩
      cases d <;> first | contradiction | exact htext

end Formula

end TensorCalculus
