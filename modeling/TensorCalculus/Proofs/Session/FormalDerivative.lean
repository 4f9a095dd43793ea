import TensorCalculus.Proofs.Scalar.DualValue
import TensorCalculus.Proofs.Session.SymbolDerivative

/-! Sessions in which the partial derivatives that are known are those of the tensors as they are
now. In such a session they have all the symbols of their components, and to differentiate more
keeps it so. -/
namespace TensorCalculus

variable {index : IndexVector} {name : String} {σ : Valuation}

open Option Table Entry
open List hiding product

theorem eq_nil_of_componentName {n : Nat} {naming : ComponentNaming}
    (h : componentName name index n naming = name) : index = [] := by
  have hempty := congrArg String.toList (String.append_eq_left_iff.mp h)
  rcases index with _ | ⟨i, _ | ⟨i', index⟩⟩
  · rfl
  · rw [map_singleton, String.intercalate_singleton] at hempty
    exact absurd hempty (toList_toString_ne_nil i)
  · rw [map_cons, map_cons, String.intercalate_cons_cons, String.toList_append,
      String.toList_append, String.toList_empty, append_eq_nil_iff,
      append_eq_nil_iff] at hempty
    exact absurd hempty.1.1 (toList_toString_ne_nil i)

namespace Session

variable {s t : Session} {range : Nat}

/-- The coordinates are known, and each entry has the symbols of its components, but for those that
a component of some other name has as well. -/
structure Assigned (s : Session) : Prop where
  coordinates : ∀ name ∈ s.coordinates, (s.table.get? name).isSome
  symbols : ∀ {name e}, s.table.get? name = some e → ∀ {symbol index},
    (symbol, index) ∈ e.componentSymbols s.config.naming →
      s.table.owners[symbol]? = some (name, index) ∨
        ∃ other, other ≠ name ∧ (s.table.get? other).isSome ∧
          ∃ i n, symbol = componentName other i n s.config.naming

namespace Assigned

theorem new (config : Config) : (Session.new config).Assigned where
  coordinates _ h := by simp [Session.new] at h
  symbols h := by simp [Session.new, Table.get?] at h

section

variable (hs : s.Assigned)
include hs

theorem of_sameTable (hsame : SameTable s t) : t.Assigned where
  coordinates name hname := by
    rw [hsame.table]
    exact (hsame.coordinates name hname).elim (hs.coordinates name) id
  symbols := by
    rw [hsame.table, hsame.config]
    exact hs.symbols

theorem insert (e : Entry) : (s.insert e).Assigned where
  coordinates name hname := isSome_insert e (.inr (hs.coordinates name hname))
  symbols {name e'} he' symbol index hsymbol := by
    change (s.table.insert s.config.naming e).get? name = some e' at he'
    rw [get?_insert] at he'
    split at he'
    · next hname =>
      cases he'
      exact .inl (hname ▸ owners_insert_self (lookup_componentSymbols hsymbol))
    next hname =>
    cases hlookup : (e.componentSymbols s.config.naming).reverse.lookup symbol with
    | some i =>
      -- the new entry takes the symbol over
      exact .inr ⟨e.name, hname, isSome_insert e (.inl rfl), i, e.dimension,
        (eq_componentName_of_mem (mem_of_lookup_reverse hlookup)).2⟩
    | none =>
      rcases hs.symbols he' hsymbol with howner | ⟨other, hne, hother, hspelled⟩
      · refine .inl ?_
        rw [Session.insert, getElem?_owners_insert, hlookup, howner]
        exact filter_some_pos (p := fun o : String × IndexVector => o.1 != e.name)
          (bne_iff_ne.mpr (Ne.symm hname))
      · exact .inr ⟨other, hne, isSome_insert e (.inr hother), hspelled⟩

theorem setValue (name : String) (value : Tensor) :
    { s with table := s.table.setValue name value }.Assigned := by
  have hknown (n : String) :
      ((s.table.setValue name value).get? n).isSome = (s.table.get? n).isSome := by
    rw [get?_setValue]
    split
    · next heq => rw [isSome_map, heq]
    · rfl
  refine ⟨fun n hn => (hknown n).trans (hs.coordinates n hn), ?_⟩
  intro other e' he' symbol index h
  simp only [hknown, owners_setValue]
  rw [get?_setValue] at he'
  split at he'
  · next heq =>
    obtain ⟨e, he, rfl⟩ := map_eq_some_iff.mp he'
    exact hs.symbols (e := e) (heq ▸ he) h
  · exact hs.symbols he' h

theorem withMetric (base : String) (height : Height) (dimension : Nat) (value : Tensor) :
    (s.withMetric base height dimension value).Assigned := by
  have hinverse := (hs.insert (metricEntry base height dimension value .declared)).insert
    (metricEntry base height.flip dimension value.inverse.1 .computed)
  have hall (det : Expr) := hinverse.insert (determinantEntry base dimension det)
  exact ⟨(hall _).coordinates, (hall _).symbols⟩

end

theorem of_reach (h : Reach (fun _ => True) s t) (hs : s.Assigned) : t.Assigned := by
  induction h with
  | refl => exact hs
  | tail _ h ih => cases h <;> exact ih.insert _

theorem of_effect {step : Step} (h : Effect step t) (hs : step.start.Assigned) : t.Assigned := by
  cases h with
  | changes hreach hleads hsame => exact (of_reach hreach hs).of_sameTable hsame
  | equation _ _ hreach _ hstores =>
    cases hstores with
    | tensor => exact (of_reach hreach hs).insert _
    | component => exact (of_reach hreach hs).setValue _ _
  | declaration hsame => exact (hs.of_sameTable hsame).insert _
  | metric _ hsame => exact (hs.of_sameTable hsame).withMetric _ _ _ _
  | evaluation => exact hs.setValue _ _

end Assigned

theorem Assigned.after (config : Config) (calls : List Call) :
    ((Session.new config).after calls).Assigned := by
  have hstep (step : Step) (_ : True) (h : step.start.Sane ∧ step.start.Assigned) :
      step.finish.Sane ∧ step.finish.Assigned :=
    have heffect := step.effect h.1.within
    ⟨h.1.of_effect heffect, of_effect heffect h.2⟩
  exact (invariant_of_history (I := fun s => s.Sane ∧ s.Assigned) hstep
    ⟨sane_new config, new config⟩ fun _ _ => trivial).2

/-- Entries with reserved names are the partial derivatives of tensors as these are now, where
scalars are differentiated by `range` coordinates. -/
def DerivativesCurrent (s : Session) (range : Nat) : Prop :=
  ∀ name e, s.table.get? name = some e → Reserved name →
    ∃ other owner, s.table.get? other = some owner ∧
      e.anonymous = derivativeEntry owner (derivativeRange owner range) s.config.naming

theorem derivativesCurrent_iff (hs : s.table.Listed) : s.DerivativesCurrent range ↔
    ∀ name ∈ s.table.order, ∀ e ∈ s.table.get? name, Reserved name →
      ∃ other ∈ s.table.order, ∃ owner ∈ s.table.get? other,
        e.anonymous = derivativeEntry owner (derivativeRange owner range) s.config.naming := by
  have hmem {name : String} {e : Entry} (he : s.table.get? name = some e) : name ∈ s.table.order :=
    (hs.mem_order name).mpr (isSome_iff_exists.mpr ⟨e, he⟩)
  constructor
  · intro h name _ e he hname
    obtain ⟨other, owner, howner, heq⟩ := h name e he hname
    exact ⟨other, hmem howner, owner, howner, heq⟩
  · intro h name e he hname
    obtain ⟨other, -, owner, howner, heq⟩ := h name (hmem he) e he hname
    exact ⟨other, owner, howner, heq⟩

/-- What differentiation relies on and keeps. -/
structure Differentiable (range : Nat) (s : Session) : Prop where
  indexed : s.Indexed
  wellFormed : s.table.WellFormed s.config.naming
  current : s.DerivativesCurrent range
  coordinates : ∀ name ∈ s.coordinates, (s.table.get? name).isSome
  owned : ∀ {name e}, s.table.get? name = some e → Reserved name → ∀ {symbol index},
    (symbol, index) ∈ e.componentSymbols s.config.naming →
      s.table.owners[symbol]? = some (name, index)

theorem DerivativesCurrent.spelling (h : s.DerivativesCurrent range)
    (hs : s.table.WellFormed s.config.naming) {e : Entry} (he : s.table.get? name = some e)
    (hname : Reserved name) : DerivativeSpelling name := by
  obtain ⟨other, owner, howner, heq⟩ := h name e he hname
  have hkey : e.name = derivativeName owner := congrArg Entry.name heq
  rw [← hs.key he, hkey]
  exact spelling_derivativeName (hs.proper howner)

theorem Differentiable.after {config : Config} {calls : List Call}
    (h : ((Session.new config).after calls).DerivativesCurrent range) :
    ((Session.new config).after calls).Differentiable range where
  indexed := .after config calls
  wellFormed := (Sane.after config calls).within.wellFormed
  current := h
  coordinates := (Assigned.after config calls).coordinates
  owned {name e} he hname symbol index hsymbol := by
    have hs := (Sane.after config calls).within.wellFormed
    refine ((Assigned.after config calls).symbols he hsymbol).resolve_right ?_
    -- no other name has components of the same spelling
    rintro ⟨other, hne, hother, i, n, hspelled⟩
    obtain ⟨e', he'⟩ := isSome_iff_exists.mp hother
    have hmine := (eq_componentName_of_mem hsymbol).2
    rw [hs.key he] at hmine
    exact hne (eq_of_componentName_eq (h.spelling hs he hname) (h.spelling hs he')
      (hmine.symm.trans hspelled)).symm

namespace Differentiable

variable {owner d : Entry}

section

variable (hs : s.Differentiable range)
include hs

theorem eq_derivativeEntry (howner : s.table.get? name = some owner)
    (hd : s.table.get? (derivativeName owner) = some d) :
    d.anonymous =
      (derivativeEntry owner (derivativeRange owner range) s.config.naming).anonymous := by
  have hproper := hs.wellFormed.proper howner
  obtain ⟨other, owner', howner', heq⟩ :=
    hs.current _ d hd (spelling_derivativeName hproper).reserved
  have hname : derivativeName owner = derivativeName owner' :=
    (hs.wellFormed.key hd).symm.trans (congrArg Entry.name heq)
  have hnames := derivativeName_injective hproper (hs.wellFormed.proper howner') hname
  rw [hs.wellFormed.key howner, hs.wellFormed.key howner'] at hnames
  rw [← hnames, howner] at howner'
  cases howner'
  exact heq

theorem not_mem_coordinates (hd : s.table.get? name = some d) (hname : Reserved name)
    (hrank : d.rank ≠ 0) {symbol : String}
    (h : (symbol, index) ∈ d.componentSymbols s.config.naming) : symbol ∉ s.coordinates := by
  intro hcoordinate
  obtain ⟨hindex, hsymbol⟩ := eq_componentName_of_mem h
  rw [hs.wellFormed.key hd] at hsymbol
  obtain ⟨e, he⟩ := isSome_iff_exists.mp (hs.coordinates symbol hcoordinate)
  have hself := componentName_nil symbol d.dimension s.config.naming
  have heq := eq_of_componentName_eq (hs.current.spelling hs.wellFormed hd hname)
    (hs.current.spelling hs.wellFormed he) (hsymbol.symm.trans hself.symm)
  subst heq
  rw [eq_nil_of_componentName hsymbol.symm, Layout.mem_indices] at hindex
  exact hrank hindex.1.symm

theorem hasRoom (howner : s.table.get? name = some owner) :
    s.HasRoom owner (derivativeRange owner range) := by
  intro d hd _
  have heq := hs.eq_derivativeEntry howner hd
  have hd' : d = { derivativeEntry owner (derivativeRange owner range) s.config.naming with
      id := d.id } := eq_of_anonymous heq
  rw [hd']
  exact differentiates_derivativeEntry ..

theorem sound : s.Sound range where
  wellFormed := hs.wellFormed
  coherent := {
    reserved := by
      intro name e he hname
      obtain ⟨other, owner, howner, heq⟩ := hs.current name e he hname
      have hkey : e.name = derivativeName owner := congrArg Entry.name heq
      exact ⟨other, owner, howner, hkey.symm.trans (hs.wellFormed.key he)⟩
    current := by
      intro symbol name index owner e _ hget _ he
      have hproper := hs.wellFormed.proper hget
      have heq := hs.eq_derivativeEntry hget he
      have hvalue : e.value = (derivativeEntry owner (derivativeRange owner range)
          s.config.naming).value := value_of_anonymous heq
      have hsymbols : e.componentSymbols s.config.naming = (derivativeEntry owner
          (derivativeRange owner range) s.config.naming).componentSymbols s.config.naming :=
        componentSymbols_of_anonymous heq _
      refine ⟨congrArg Entry.dimension heq, fun c hc x hx => ?_⟩
      rw [hvalue] at hc
      obtain ⟨i, hi⟩ := selfReferring_derivativeEntry hproper _ _ c hc x hx
      rw [← hsymbols] at hi
      have howned := hs.owned he (spelling_derivativeName hproper).reserved hi
      exact .inr (.inr (.inl (by rw [howned]; rfl))) }

theorem mono (hst : Extends range s t) (ht : t.Sound range) (hindexed : t.Indexed) :
    t.Differentiable range where
  indexed := hindexed
  wellFormed := ht.wellFormed
  current := by
    intro name e he hname
    cases hold : s.table.get? name with
    | some e' =>
      obtain ⟨other, owner, howner, heq⟩ := hs.current name e' hold hname
      obtain ⟨e'', he'', hsame⟩ := hst.entries hold
      obtain rfl : e = e'' := Option.some.inj (he.symm.trans he'')
      obtain ⟨owner', howner', hsame'⟩ := hst.entries howner
      refine ⟨other, owner', howner', ?_⟩
      rw [hsame, heq, derivativeRange_of_anonymous hsame', derivativeEntry_of_anonymous hsame',
        hst.config]
    | none =>
      rcases hst.declared he hold with ⟨hnot, -⟩ | ⟨other, owner, howner, -, heq⟩
      · rw [ht.wellFormed.key he] at hnot
        exact absurd hname hnot
      · exact ⟨other, owner, howner, heq⟩
  coordinates name hname := by
    rw [hst.coordinates] at hname
    obtain ⟨e, he⟩ := isSome_iff_exists.mp (hs.coordinates name hname)
    obtain ⟨e', he', -⟩ := hst.entries he
    exact isSome_iff_exists.mpr ⟨e', he'⟩
  owned {name e} he hname symbol index hsymbol := by
    cases hold : s.table.get? name with
    | some e' =>
      obtain ⟨e'', he'', hsame⟩ := hst.entries hold
      obtain rfl : e = e'' := Option.some.inj (he.symm.trans he'')
      rw [componentSymbols_of_anonymous hsame, hst.config] at hsymbol
      exact hst.owners (hs.owned hold hname hsymbol)
    | none => exact (hst.symbols he hold symbol index).mpr (lookup_componentSymbols hsymbol)

end

end Differentiable

end Session

/-! The rule by which a session differentiates. It can be read off any session that comes later, and
the rules for two coordinates commute at each symbol, as the last slots of partial derivatives
do. -/

namespace Expr

variable {rule : String → Except Error Expr} {r : String → Expr}

theorem derivativeM_eq_ok (e : Expr) (hr : ∀ s ∈ e.symbolList, ∀ a, rule s = .ok a → a = r s)
    {d : Expr} (h : e.derivativeM rule = .ok d) :
    d = e.derivative r ∧ ∀ s ∈ e.symbolList, rule s = .ok (r s) := by
  obtain ⟨g, hg⟩ := exists_assembly e
  rw [hg] at h
  obtain ⟨ds, hds, -⟩ := Except.bind_eq_ok h
  have hrule : ∀ s ∈ e.symbolList, rule s = .ok (r s) := by
    intro s hs
    obtain ⟨a, ha⟩ := Formula.exists_of_mapM_eq_ok hds s hs
    rw [ha, hr s hs a ha]
  rw [Formula.mapM_eq_ok hrule] at h
  cases h
  exact ⟨(hg.derivative r).symm, hrule⟩

end Expr

namespace Session

variable {s t : Session} {range j k : Nat} {symbol : String} {owner d : Entry} {span : Span}
  {e : Expr}

theorem Yields.derivativeM {K : Session → Prop} {rule : String → SessionM Expr}
    {r : String → Except Error Expr} (e : Expr)
    (h : ∀ symbol ∈ e.symbolList, Yields K (rule symbol) (r symbol)) :
    Yields K (e.derivativeM rule) (e.derivativeM r) := by
  obtain ⟨g, hg⟩ := e.exists_assembly
  rw [hg, hg]
  exact .bind (.mapM h) fun _ _ => .pure _

/-- The derivative of a symbol by the coordinate number `k`, if it has one. -/
def formalDerivative (s : Session) (k range : Nat) (symbol : String) : Expr :=
  match s.coordinates.idxOf? symbol with
  | some i => if i = k then .one else .zero
  | none =>
    if symbol = "pi" then .zero
    else
      match (s.withOwner symbol).table.owner? symbol with
      | none => .zero
      | some (owner, index) =>
        if owner.symmetry = .const then .zero
        else .sym (derivativeSymbol owner index k (derivativeRange owner range) s.config.naming)

theorem isAtom_formalDerivative (s : Session) (k range : Nat) (symbol : String) :
    (s.formalDerivative k range symbol).IsAtom := by
  unfold formalDerivative
  split
  · split <;> exact .num _
  · split
    · exact .num _
    · split
      · exact .num _
      · split
        · exact .num _
        · exact .sym _

def KnowsDerivative (range k : Nat) (s : Session) (symbol : String) : Prop :=
  symbol ∈ s.coordinates ∨ symbol = "pi" ∨
    ∃ owner index, s.table.owner? symbol = some (owner, index) ∧
      (owner.symmetry = .const ∨ k < derivativeRange owner range ∧
        (s.table.get? (derivativeName owner)).isSome)

theorem KnowsDerivative.mono (h : KnowsDerivative range k s symbol) (hst : Extends range s t) :
    KnowsDerivative range k t symbol := by
  rcases h with hcoordinate | hpi | ⟨owner, index, howner, h⟩
  · exact .inl (hst.coordinates ▸ hcoordinate)
  · exact .inr (.inl hpi)
  · obtain ⟨name, howned, hget⟩ := (owner?_eq_some _).mp howner
    obtain ⟨owner', hget', hsame⟩ := hst.entries hget
    refine .inr (.inr ⟨owner', index,
      (owner?_eq_some _).mpr ⟨name, hst.owners howned, hget'⟩, ?_⟩)
    rw [derivativeRange_of_anonymous hsame, derivativeName_of_anonymous hsame]
    rcases h with hconst | ⟨hk, hknown⟩
    · left
      rw [symmetry_of_anonymous hsame]
      exact hconst
    · obtain ⟨d, hd⟩ := isSome_iff_exists.mp hknown
      obtain ⟨d', hd', -⟩ := hst.entries hd
      exact .inr ⟨hk, isSome_iff_exists.mpr ⟨d', hd'⟩⟩

namespace Differentiable

theorem withOwner (hs : s.Differentiable range)
    (h : (s.table.owners[symbol]?).isSome ∨ s.Free symbol) :
    (s.withOwner symbol).Differentiable range := by
  obtain ⟨hmeet, -⟩ := withOwner_meet hs.sound hs.sound (.refl range s) h
  refine hs.mono hmeet.fromLeft hmeet.left ?_
  unfold Session.withOwner
  split
  · exact hs.indexed.insert (arranged_freeScalar _ _)
  · exact hs.indexed

theorem differentiate (hs : s.Differentiable range) (he : s.Ready e) (k : Nat) (span : Span) :
    let run := (differentiate e k range span).run s
    run.2.Differentiable range ∧ Extends range s run.2 ∧ ∀ d, run.1 = .ok d → run.2.Ready d := by
  intro run
  obtain ⟨-, hmeet, hready⟩ := differentiate_agrees e k span s s hs.sound
    hs.sound (.refl range s) he
  exact ⟨hs.mono hmeet.fromLeft hmeet.left (hs.indexed.of_reach (differentiate_obeys
    inherited_arranged e k range span s hs.indexed.arranged).1), hmeet.fromLeft, hready⟩

theorem eq_formalDerivative (hs : s.Differentiable range) (hsymbol : s.Settled symbol) {d : Expr}
    (hrun : (symbolDerivative k range span symbol).run s = (.ok d, t)) :
    d = s.formalDerivative k range symbol ∧ KnowsDerivative range k t symbol := by
  rw [run_symbolDerivative] at hrun
  unfold formalDerivative
  cases hcoordinate : s.coordinates.idxOf? symbol with
  | some i =>
    rw [hcoordinate] at hrun
    cases hrun
    refine ⟨rfl, .inl (by_contra fun hnot => ?_)⟩
    rw [idxOf?_eq_none_iff.mpr hnot] at hcoordinate
    cases hcoordinate
  | none =>
    rw [hcoordinate] at hrun
    dsimp only at hrun ⊢
    by_cases hpi : symbol = "pi"
    · rw [if_pos hpi] at hrun ⊢
      cases hrun
      exact ⟨rfl, .inr (.inl hpi)⟩
    rw [if_neg hpi] at hrun ⊢
    rw [idxOf?_eq_none_iff] at hcoordinate
    have hown := (hsymbol.resolve_left hcoordinate).resolve_left hpi
    have hs' := hs.withOwner hown
    obtain ⟨hmeet, howned⟩ := withOwner_meet hs.sound hs.sound (.refl range s) hown
    obtain ⟨⟨name, index⟩, howner⟩ := isSome_iff_exists.mp howned
    obtain ⟨owner, hget, hsome⟩ := owner?_eq hmeet.left howner
    rw [hsome] at hrun ⊢
    dsimp only at hrun ⊢
    by_cases hconst : owner.symmetry = .const
    · rw [if_pos hconst] at hrun ⊢
      cases hrun
      exact ⟨rfl, .inr (.inr ⟨owner, index, hsome, .inl hconst⟩)⟩
    rw [if_neg hconst] at hrun ⊢
    have howns : (s.withOwner symbol).Owns owner symbol index :=
      ⟨hsome, hmeet.fromLeft.coordinates ▸ hcoordinate, hpi⟩
    have hk : k < derivativeRange owner range := by
      by_contra hnot
      rw [run_ownedDerivative, if_pos (Nat.not_lt.mp hnot)] at hrun
      cases hrun
    rw [← howns.run_differentiate hconst] at hrun
    obtain ⟨hd, hcompletes⟩ :=
      howns.eq_of_differentiate hs'.indexed hconst hk (hs'.hasRoom hget) hrun
    obtain ⟨e, he, -⟩ := hcompletes.known
    rw [hmeet.fromLeft.config] at hd
    exact ⟨hd, .inr (.inr ⟨owner, index, (hcompletes.owns howns).owner?, .inr ⟨hk,
      isSome_iff_exists.mpr ⟨e, he⟩⟩⟩)⟩

theorem derivative_of_run (ht : t.Differentiable range) (hs : s.Sound range)
    (hst : Extends range s t) (he : s.Ready e) {d : Expr}
    (hrun : ((Session.differentiate e k range span).run s).1 = .ok d) :
    d = e.derivative (t.formalDerivative k range) ∧ ∀ symbol ∈ e.symbolList,
      ((symbolDerivative k range span symbol).run t).1 =
        .ok (t.formalDerivative k range symbol) := by
  have hyields : Yields (fun u => u.Sound range ∧ Extends range s u)
      (Session.differentiate e k range span)
      (e.derivativeM fun symbol => ((symbolDerivative k range span symbol).run s).1) := by
    refine .derivativeM e fun symbol hsymbol u hu => ?_
    obtain ⟨hresult, hmeet, -⟩ :=
      symbolDerivative_agrees k span symbol s u hs hu.1 hu.2 (he symbol hsymbol)
    exact ⟨hresult, hmeet.right, hu.2.trans hmeet.fromRight⟩
  rw [(hyields s ⟨hs, .refl range s⟩).1] at hrun
  have hlater : ∀ symbol ∈ e.symbolList, ((symbolDerivative k range span symbol).run t).1 =
      ((symbolDerivative k range span symbol).run s).1 := fun symbol hsymbol =>
    (symbolDerivative_agrees k span symbol s t hs ht.sound hst (he symbol hsymbol)).1
  obtain ⟨hd, hsymbols⟩ := Expr.derivativeM_eq_ok (r := t.formalDerivative k range) e
    (fun symbol hsymbol a ha =>
      have hrun : (symbolDerivative k range span symbol).run t =
          (.ok a, ((symbolDerivative k range span symbol).run t).2) :=
        Prod.ext ((hlater symbol hsymbol).trans ha) rfl
      (ht.eq_formalDerivative ((he symbol hsymbol).mono hst ht.wellFormed) hrun).1) hrun
  exact ⟨hd, fun symbol hsymbol => (hlater symbol hsymbol).trans (hsymbols symbol hsymbol)⟩

theorem exists_knowing (hs : s.Differentiable range) (span : Span) (symbols : List String)
    (h : ∀ symbol ∈ symbols, s.Settled symbol ∧
      ((symbolDerivative k range span symbol).run s).1 = .ok (s.formalDerivative k range symbol)) :
    ∃ t, t.Differentiable range ∧ Extends range s t ∧
      ∀ symbol ∈ symbols, KnowsDerivative range k t symbol := by
  induction symbols with
  | nil => exact ⟨s, hs, .refl range s, forall_mem_nil _⟩
  | cons symbol symbols ih =>
    rw [forall_mem_cons] at h
    obtain ⟨t, ht, hst, hknows⟩ := ih h.2
    have hsettled := h.1.1.mono hst ht.wellFormed
    have hready : t.Ready (.sym symbol) := forall_mem_singleton.mpr hsettled
    obtain ⟨hnext, htnext, -⟩ := ht.differentiate hready k span
    have hok :=
      (symbolDerivative_agrees k span symbol s t hs.sound ht.sound hst h.1.1).1.trans h.1.2
    refine ⟨_, hnext, hst.trans htnext, forall_mem_cons.mpr ⟨?_, ?_⟩⟩
    · exact (ht.eq_formalDerivative hsettled (Prod.ext hok rfl)).2
    · exact fun other hother => (hknows other hother).mono htnext

end Differentiable

section Commuting

theorem formalDerivative_of_owns (h : s.Owns owner symbol index)
    (hconst : owner.symmetry ≠ .const) : s.formalDerivative k range symbol =
      .sym (derivativeSymbol owner index k (derivativeRange owner range) s.config.naming) := by
  have hwith : s.withOwner symbol = s := by
    rw [withOwner, h.owner?]
    rfl
  unfold formalDerivative
  rw [idxOf?_eq_none_iff.mpr h.not_coordinate]
  dsimp only
  rw [if_neg h.ne_pi, hwith, h.owner?]
  exact if_neg hconst

theorem KnowsDerivative.num_or_owns (h : KnowsDerivative range k s symbol) :
    (∀ i, ∃ q, s.formalDerivative i range symbol = .num q) ∨
      ∃ owner index, s.Owns owner symbol index ∧ owner.symmetry ≠ .const ∧
        k < derivativeRange owner range ∧ ∃ d, s.table.get? (derivativeName owner) = some d := by
  unfold formalDerivative
  by_cases hcoordinate : symbol ∈ s.coordinates
  · left
    intro i
    obtain ⟨m, hm⟩ := ne_none_iff_exists'.mp
      (mt idxOf?_eq_none_iff.mp (not_not_intro hcoordinate))
    rw [hm]
    dsimp only
    split <;> exact ⟨_, rfl⟩
  by_cases hpi : symbol = "pi"
  · left
    intro i
    rw [idxOf?_eq_none_iff.mpr hcoordinate, if_pos hpi]
    exact ⟨_, rfl⟩
  obtain ⟨owner, index, howner, h⟩ := (h.resolve_left hcoordinate).resolve_left hpi
  by_cases hconst : owner.symmetry = .const
  · left
    intro i
    have hwith : s.withOwner symbol = s := by
      rw [withOwner, howner]
      rfl
    rw [idxOf?_eq_none_iff.mpr hcoordinate, if_neg hpi, hwith, howner]
    exact ⟨_, if_pos hconst⟩
  · obtain ⟨hk, hknown⟩ := h.resolve_left hconst
    exact .inr ⟨owner, index, ⟨howner, hcoordinate, hpi⟩, hconst, hk,
      isSome_iff_exists.mp hknown⟩

theorem derivativeSymbol_of_anonymous {e e' : Entry} (h : e.anonymous = e'.anonymous)
    (index : IndexVector) (k n : Nat) (naming : ComponentNaming) :
    derivativeSymbol e index k n naming = derivativeSymbol e' index k n naming := by
  unfold derivativeSymbol
  rw [derivativeName_of_anonymous h, derivativeEntry_of_anonymous h]

theorem derivativeSymbol_comm (howner : owner.Arranged) (hindex : index.length = owner.rank)
    (hcanonical : owner.symmetry.isCanonical index) (m n : Nat) (naming : ComponentNaming) :
    let d := derivativeEntry owner m naming
    derivativeSymbol d (d.symmetry.canonicalize (index ++ [j])).2 k n naming =
      derivativeSymbol d (d.symmetry.canonicalize (index ++ [k])).2 j n naming := by
  intro d
  obtain ⟨first, tail, hrank, hone, htwo⟩ := howner.lengthens_twice m n naming
  unfold derivativeSymbol
  rw [hone.canonicalize_comm htwo (hindex.trans hrank) hcanonical]

theorem not_reserved_pi : ¬ Reserved "pi" := by
  decide

theorem Differentiable.owns_derivativeSymbol (hs : s.Differentiable range)
    (h : s.Owns owner symbol index) (hk : k < derivativeRange owner range)
    (hd : s.table.get? (derivativeName owner) = some d) :
    s.Owns d (derivativeSymbol owner index k (derivativeRange owner range) s.config.naming)
      (d.symmetry.canonicalize (index ++ [k])).2 := by
  obtain ⟨name, -, hget⟩ := (owner?_eq_some _).mp h.owner?
  have hproper := hs.wellFormed.proper hget
  have hreserved := (spelling_derivativeName hproper).reserved
  have hindices := h.mem_indices hs.indexed
  have hsnoc := snoc_mem_indices hindices hk
  have heq := hs.eq_derivativeEntry hget hd
  have hdimension : d.dimension = derivativeRange owner range :=
    dimension_of_anonymous heq
  have hsymmetry : d.symmetry = (derivativeEntry owner (derivativeRange owner range)
    s.config.naming).symmetry := symmetry_of_anonymous heq
  have hrank : d.rank = owner.rank + 1 :=
    (rank_of_anonymous heq).trans (rank_derivativeEntry ..)
  obtain ⟨i, hi⟩ := derivativeSymbol_mem (h.arranged hs.indexed) (h.isCanonical hs.indexed)
    (Layout.mem_indices.mp hindices).1 (hs.hasRoom hget d hd hdimension) (hs.wellFormed.key hd)
    (hdimension ▸ hsnoc)
  rw [hdimension] at hi
  obtain ⟨hmem, hname⟩ := eq_componentName_of_mem hi
  rw [hrank, hdimension] at hmem
  rw [hs.wellFormed.key hd, hdimension, derivativeSymbol] at hname
  have hcanonical := Symmetry.canonicalize_mem_indices
    (derivativeEntry owner (derivativeRange owner range) s.config.naming).symmetry hsnoc
  rw [hsymmetry, componentName_injective hcanonical hmem hname]
  have hsymbol : Reserved (derivativeSymbol owner index k (derivativeRange owner range)
    s.config.naming) := hreserved.componentName _ _ _
  exact ⟨(owner?_eq_some _).mpr ⟨_, hs.owned hd hreserved hi, hd⟩,
    hs.not_mem_coordinates hd hreserved (by rw [hrank]; exact Nat.succ_ne_zero _) hi,
    fun hpi => not_reserved_pi (hpi ▸ hsymbol)⟩

theorem derivativeEntry_ne_const (owner : Entry) (n : Nat) (naming : ComponentNaming) :
    (derivativeEntry owner n naming).symmetry ≠ .const := by
  change Symmetry.ofPairs _ ≠ _
  unfold Symmetry.ofPairs
  split <;> exact Symmetry.noConfusion

theorem Differentiable.formalDerivative_twice (hs : s.Differentiable range)
    (h : s.Owns owner symbol index) (hj : j < derivativeRange owner range)
    (hd : s.table.get? (derivativeName owner) = some d) (k : Nat) :
    let n := derivativeRange owner range
    let e := derivativeEntry owner n s.config.naming
    s.formalDerivative k range (derivativeSymbol owner index j n s.config.naming) =
      .sym (derivativeSymbol e (e.symmetry.canonicalize (index ++ [j])).2 k
        (derivativeRange e range) s.config.naming) := by
  intro n e
  obtain ⟨name, -, hget⟩ := (owner?_eq_some _).mp h.owner?
  have heq : d.anonymous = e.anonymous := hs.eq_derivativeEntry hget hd
  have hsymmetry : d.symmetry = e.symmetry := symmetry_of_anonymous heq
  have hconst : d.symmetry ≠ .const := by
    rw [hsymmetry]
    exact derivativeEntry_ne_const owner n s.config.naming
  rw [formalDerivative_of_owns (hs.owns_derivativeSymbol h hj hd) hconst, hsymmetry,
    derivativeRange_of_anonymous heq, derivativeSymbol_of_anonymous heq]

theorem Differentiable.formalDerivative_comm (hs : s.Differentiable range)
    (hj : KnowsDerivative range j s symbol) (hk : KnowsDerivative range k s symbol) :
    (s.formalDerivative j range symbol).derivative (s.formalDerivative k range) =
      (s.formalDerivative k range symbol).derivative (s.formalDerivative j range) := by
  rcases hj.num_or_owns with hnum | ⟨owner, index, howns, hconst, hj, d, hd⟩
  · obtain ⟨p, hp⟩ := hnum j
    obtain ⟨q, hq⟩ := hnum k
    rw [hp, hq]
    rfl
  rcases hk.num_or_owns with hnum | ⟨owner', index', howns', -, hk, -⟩
  · obtain ⟨q, hq⟩ := hnum j
    rw [formalDerivative_of_owns howns hconst] at hq
    cases hq
  obtain ⟨rfl, rfl⟩ := Prod.mk.inj (Option.some.inj (howns.owner?.symm.trans howns'.owner?))
  rw [formalDerivative_of_owns howns hconst, formalDerivative_of_owns howns hconst]
  change s.formalDerivative k range _ = s.formalDerivative j range _
  rw [hs.formalDerivative_twice howns hj hd, hs.formalDerivative_twice howns hk hd,
    derivativeSymbol_comm (howns.arranged hs.indexed)
      (Layout.mem_indices.mp (howns.mem_indices hs.indexed)).1 (howns.isCanonical hs.indexed)]

end Commuting

/-! Mixed partial derivatives of rational expressions commute. -/

def differentiateTwice (e : Expr) (j k dimension : Nat) (span : Span) : SessionM Expr := do
  let d ← differentiate e j dimension span
  differentiate d k dimension span

theorem differentiateTwice_agrees (e : Expr) (j k : Nat) (span : Span) :
    Agrees range (·.Ready e) (differentiateTwice e j k range span) fun d s => s.Ready d :=
  .of_holds fun _ he => ((differentiate_agrees e j span).holds he).bindSame fun _ d _ hd =>
    (differentiate_agrees d k span).holds hd

namespace Differentiable

variable {d d' : Expr} {u : Session}

section

variable (hs : s.Differentiable range) (he : s.Ready e)
include hs he

theorem extends_differentiate (hu : u.Differentiable range) (hsu : Extends range s u)
    (h : (Session.differentiate e k range span).run s = (.ok d, t)) :
    t.Sound range ∧ t.Ready d ∧
      Extends range t ((Session.differentiate e k range span).run u).2 := by
  obtain ⟨-, hmeet, hd⟩ :=
    differentiate_agrees e k span s u hs.sound hu.sound hsu he
  obtain rfl : ((Session.differentiate e k range span).run s).2 = t := congrArg Prod.snd h
  exact ⟨hmeet.left, hd d (congrArg Prod.fst h), hmeet.between⟩

theorem exists_knowing_both (hj : ((Session.differentiate e j range span).run s).1 = .ok d)
    (hk : ((Session.differentiate e k range span).run s).1 = .ok d') :
    ∃ u, u.Differentiable range ∧ Extends range s u ∧ ∀ symbol ∈ e.symbolList,
      KnowsDerivative range j u symbol ∧ KnowsDerivative range k u symbol := by
  obtain ⟨u, hu, hsu, hknows⟩ := hs.exists_knowing span e.symbolList fun symbol hsymbol =>
    ⟨he symbol hsymbol, (hs.derivative_of_run hs.sound (.refl range s) he hj).2 symbol hsymbol⟩
  obtain ⟨v, hv, huv, hknows'⟩ := hu.exists_knowing span e.symbolList fun symbol hsymbol =>
    ⟨(he symbol hsymbol).mono hsu hu.wellFormed,
      (hu.derivative_of_run hs.sound hsu he hk).2 symbol hsymbol⟩
  exact ⟨v, hv, hsu.trans huv, fun symbol hsymbol =>
    ⟨(hknows symbol hsymbol).mono huv, hknows' symbol hsymbol⟩⟩

/-- Two derivatives in either order are those by rules that commute at the symbols. -/
theorem exists_rules {t' : Session} (h : (differentiateTwice e j k range span).run s = (.ok d, t))
    (h' : (differentiateTwice e k j range span).run s = (.ok d', t')) :
    ∃ u : Session, d = (e.derivative (u.formalDerivative j range)).derivative
        (u.formalDerivative k range) ∧
      d' = (e.derivative (u.formalDerivative k range)).derivative (u.formalDerivative j range) ∧
      ∀ symbol ∈ e.symbolList,
        (u.formalDerivative j range symbol).derivative (u.formalDerivative k range) =
          (u.formalDerivative k range symbol).derivative (u.formalDerivative j range) := by
  obtain ⟨dj, sj, hj, hjk⟩ := run_bind_eq_ok h
  obtain ⟨dk, sk, hk, hkj⟩ := run_bind_eq_ok h'
  obtain ⟨v, hv, hsv, hknows⟩ :=
    hs.exists_knowing_both he (congrArg Prod.fst hj) (congrArg Prod.fst hk)
  -- a later session that also comes after both of the first derivatives
  have hready := he.mono hsv hv.wellFormed
  obtain ⟨hw, hvw, -⟩ := hv.differentiate hready j span
  obtain ⟨hu, hwu, -⟩ := hw.differentiate (hready.mono hvw hw.wellFormed) k span
  obtain ⟨hsj, hdj, hjw⟩ := hs.extends_differentiate he hv hsv hj
  obtain ⟨hsk, hdk, hku⟩ := hs.extends_differentiate he hw (hsv.trans hvw) hk
  have hvu := hvw.trans hwu
  have hsu := hsv.trans hvu
  obtain ⟨rfl, -⟩ := hu.derivative_of_run hs.sound hsu he (congrArg Prod.fst hj)
  obtain ⟨rfl, -⟩ := hu.derivative_of_run hs.sound hsu he (congrArg Prod.fst hk)
  refine ⟨_, (hu.derivative_of_run hsj (hjw.trans hwu) hdj (congrArg Prod.fst hjk)).1,
    (hu.derivative_of_run hsk hku hdk (congrArg Prod.fst hkj)).1, fun symbol hsymbol => ?_⟩
  obtain ⟨hsymbolj, hsymbolk⟩ := hknows symbol hsymbol
  exact hu.formalDerivative_comm (hsymbolj.mono hvu) (hsymbolk.mono hvu)

end

end Differentiable

theorem run_derivativeM {rule : String → SessionM Expr} {r : String → Expr}
    (h : (e.symbolList.mapM rule).run s = (.ok (e.symbolList.map r), t)) :
    (e.derivativeM rule).run s = (.ok (e.derivative r), t) := by
  obtain ⟨g, hg⟩ := e.exists_assembly
  rw [hg, hg.derivative, map_eq_pure_bind, run_bind, h]
  rfl

/-- The derivatives of the symbols of `e` by `j`, and then of those of `d` by `k`. -/
def symbolDerivatives (e d : Expr) (j k dimension : Nat) (span : Span) :
    SessionM (List Expr × List Expr) := do
  let first ← e.symbolList.mapM (symbolDerivative j dimension span)
  let second ← d.symbolList.mapM (symbolDerivative k dimension span)
  return (first, second)

theorem differentiateTwice_eq_ok {d d' : Expr} {r q : String → Expr}
    (h : ((symbolDerivatives e d j k range span).run s).1 =
      .ok (e.symbolList.map r, d.symbolList.map q))
    (hd : e.derivative r = d) (hd' : d.derivative q = d') :
    ∃ t, (differentiateTwice e j k range span).run s = (.ok d', t) := by
  obtain ⟨ds, u, hfirst, h⟩ := run_bind_eq_ok (Prod.ext h rfl)
  obtain ⟨ds', t, hsecond, h⟩ := run_bind_eq_ok h
  obtain ⟨rfl, rfl⟩ := Prod.mk.inj (Except.ok.inj (congrArg Prod.fst h))
  have he := run_derivativeM hfirst
  have hd'' := run_derivativeM hsecond
  rw [hd] at he
  rw [hd'] at hd''
  unfold differentiateTwice
  rw [run_bind, differentiate, he]
  exact ⟨t, hd''⟩

instance (s : Session) (symbol : String) : Decidable (s.Free symbol) :=
  decidable_of_iff (s.table.get? symbol = none ∧ s.table.owners[symbol]? = none ∧ ¬ Reserved symbol)
    ⟨fun h => ⟨h.1, h.2.1, h.2.2⟩, fun h => ⟨h.1, h.2, h.3⟩⟩

instance (s : Session) (symbol : String) : Decidable (s.Settled symbol) :=
  inferInstanceAs (Decidable (_ ∨ _ ∨ _ ∨ _))

instance (s : Session) (e : Expr) : Decidable (s.Ready e) :=
  inferInstanceAs (Decidable (∀ symbol ∈ e.symbolList, s.Settled symbol))

section Commutation

open TensorCalculus.Expr

/-- The expression `c (m + x (p + y) (q + y)) - c x (p + y) (q + y)`, which is `c m`. -/
def unexpanded : Expr :=
  add [mul [num (-1), sym "c", sym "x", add [sym "p", sym "y"], add [sym "q", sym "y"]],
    mul [sym "c", add [sym "m", mul [sym "x", add [sym "p", sym "y"], add [sym "q", sym "y"]]]]]

def unexpandedSlope : Expr :=
  add [mul [num (-1), sym "c", sym "x", add [sym "p", sym "y"]],
    mul [num (-1), sym "c", sym "x", add [sym "q", sym "y"]],
    mul [sym "c", add [mul [sym "x", add [sym "p", sym "y"]],
      mul [sym "x", add [sym "q", sym "y"]]]]]

def unexpandedZero : Expr :=
  add [mul [sym "c", add [sym "p", sym "q", mul [num 2, sym "y"]]],
    mul [num (-1), sym "c", add [sym "p", sym "y"]],
    mul [num (-1), sym "c", add [sym "q", sym "y"]]]

def ruleOf (known : List (String × Expr)) (symbol : String) : Expr :=
  (known.lookup symbol).getD .zero

theorem hasValue_derivative_ruleOf {known : List (String × Expr)} (h : ∀ p ∈ known, p.2.IsAtom)
    {d : Expr} (hd : Smooth σ d) :
    HasValue σ (d.derivative (ruleOf known))
      (d.dualValue (dualSymbols σ fun symbol => (ruleOf known symbol).value σ)).snd := by
  have hatom (symbol : String) : (ruleOf known symbol).IsAtom := by
    unfold ruleOf
    cases hlookup : known.lookup symbol with
    | none => exact .num 0
    | some a =>
      obtain ⟨before, after, heq, -⟩ := List.lookup_eq_some_iff.mp hlookup
      exact h (symbol, a) (heq ▸ List.mem_append_right _ List.mem_cons_self)
  exact derivative_hasValue d hd fun symbol _ => ((hatom symbol).smooth σ).regular_at.hasValue

/-- The two orders succeed, with different values. -/
def OrdersDiffer (s : Session) (e : Expr) (dimension : Nat) : Prop :=
  ∃ d t d' t', (differentiateTwice e 0 1 dimension .none).run s = (.ok d, t) ∧
    (differentiateTwice e 1 0 dimension .none).run s = (.ok d', t') ∧
      ∃ σ, d.Defined σ ∧ d'.Defined σ ∧ d.value σ ≠ d'.value σ

theorem OrdersDiffer.of_rules (d d' : Expr) (known next known' next' : List (String × Expr))
    (h : ((symbolDerivatives e d 0 1 range .none).run s).1 =
      .ok (e.symbolList.map (ruleOf known), d.symbolList.map (ruleOf next)))
    (hd : e.derivative (ruleOf known) = d)
    (h' : ((symbolDerivatives e d' 1 0 range .none).run s).1 =
      .ok (e.symbolList.map (ruleOf known'), d'.symbolList.map (ruleOf next')))
    (hd' : e.derivative (ruleOf known') = d') {q q' : Rat}
    (hq : HasValue σ (d.derivative (ruleOf next)) q)
    (hq' : HasValue σ (d'.derivative (ruleOf next')) q') (hne : q ≠ q') :
    s.OrdersDiffer e range := by
  obtain ⟨t, ht⟩ := differentiateTwice_eq_ok h hd rfl
  obtain ⟨t', ht'⟩ := differentiateTwice_eq_ok h' hd' rfl
  refine ⟨_, t, _, t', ht, ht', σ, hq.defined, hq'.defined, ?_⟩
  rwa [hq.value_eq, hq'.value_eq]

theorem rationalFragment_sum {a b : Expr} (ha : RationalFragment a) (hb : RationalFragment b) :
    RationalFragment (sum [a, b]) :=
  .sum (by simpa using ⟨ha, hb⟩)

theorem rationalFragment_multiple (symbol : String) {e : Expr} (he : RationalFragment e) :
    RationalFragment (product [sym symbol, e]) :=
  .product (by simpa using ⟨.sym symbol, he⟩)

theorem rationalFragment_unexpanded : RationalFragment unexpanded := by
  have hx : RationalFragment (product [sym "x", sum [sym "p", sym "y"], sum [sym "q", sym "y"]]) :=
    .product (by simpa using ⟨.sym "x", rationalFragment_sum (.sym "p") (.sym "y"),
      rationalFragment_sum (.sym "q") (.sym "y")⟩)
  have hsub := RationalFragment.sub
    (rationalFragment_multiple "c" (rationalFragment_sum (.sym "m") hx))
    (rationalFragment_multiple "c" hx)
  rwa [show sub _ _ = unexpanded by cbv] at hsub

theorem rationalFragment_unexpandedZero : RationalFragment unexpandedZero := by
  have htwice : RationalFragment (sum [sym "p", sym "q", product [num 2, sym "y"]]) :=
    .sum (by simpa using ⟨.sym "p", .sym "q", .product (by simpa using ⟨.num 2, .sym "y"⟩)⟩)
  have hsub := RationalFragment.sub
    (.sub (rationalFragment_multiple "c" htwice)
      (rationalFragment_multiple "c" (rationalFragment_sum (.sym "p") (.sym "y"))))
    (rationalFragment_multiple "c" (rationalFragment_sum (.sym "q") (.sym "y")))
  rwa [show sub _ _ = unexpandedZero by cbv] at hsub

/-- Partial derivatives of a rational expression commute if those that are known are derivatives of
the tensors as they are now. The expression has to be defined somewhere, and there no power that
differentiation turns into one with a negative exponent may have the base zero. -/
theorem partial_derivatives_commute (config : Config) (calls : List Call) (e : Expr)
    (j k dimension : Nat) (span : Span) :
    let s := (Session.new config).after calls
    let twice (j k : Nat) := (differentiateTwice e j k dimension span).run
    s.DerivativesCurrent dimension → Expr.RationalFragment e → s.Ready e →
    (∃ τ, e.DefinedFrom 2 τ) →
    ∀ d t d' t', twice j k s = (.ok d, t) →
      twice k j s = (.ok d', t') ∨ twice k j t = (.ok d', t') →
      ∀ σ, d.Defined σ → d'.Defined σ → d.value σ = d'.value σ := by
  intro s twice hcurrent hrational hready hdefined d t d' t' hd hd' σ hσ hσ'
  have hs : s.Differentiable dimension := .after hcurrent
  obtain ⟨u, hsecond⟩ : ∃ u, twice k j s = (.ok d', u) := by
    rcases hd' with hd' | hd'
    · exact ⟨t', hd'⟩
    · -- what the first order declares makes no difference to the second
      obtain ⟨-, hmeet, -⟩ :=
        differentiateTwice_agrees e j k span s s hs.sound hs.sound (.refl dimension s) hready
      obtain rfl : (twice j k s).2 = t := congrArg Prod.snd hd
      obtain ⟨heq, -, -⟩ := differentiateTwice_agrees e k j span s _ hs.sound hmeet.left
        hmeet.fromLeft hready
      have hfst : (twice k j s).1 = .ok d' := heq.symm.trans (congrArg Prod.fst hd')
      exact ⟨(twice k j s).2, Prod.ext hfst rfl⟩
  obtain ⟨u, rfl, rfl, hcomm⟩ := hs.exists_rules hready hd hsecond
  exact Expr.mixed_derivatives_agree hrational.regular hdefined
    (u.isAtom_formalDerivative j dimension) (u.isAtom_formalDerivative k dimension) hcomm hσ hσ'

set_option maxRecDepth 100000 in
/-- The two orders do not multiply out the same, and one of them leaves terms that cancel. -/
theorem partial_derivatives_commute_unexpanded :
    let s := (Session.new {}).after
      [.document "% coord [x, y]\n% def const c, const p, const q, const m\nA_i = \\partial_i u"]
    let e := unexpanded
    let twice (j k : Nat) := (differentiateTwice e j k 2 .none).run s
    (s.DerivativesCurrent 2 ∧ RationalFragment e ∧ s.Ready e ∧ ∃ τ, e.DefinedFrom 2 τ) ∧
      ∃ d t d' t', twice 0 1 = (.ok d, t) ∧ twice 1 0 = (.ok d', t') ∧ d ≠ d' ∧
        ∀ σ, d.Defined σ → d'.Defined σ → d.value σ = d'.value σ := by
  intro s e twice
  have hcurrent : s.DerivativesCurrent 2 := by
    rw [derivativesCurrent_iff (Sane.after _ _).listed]
    decide +kernel
  have hready : s.Ready e := by decide +kernel
  have hdefined : e.DefinedFrom 2 fun _ => 0 := by
    simp [e, unexpanded, DefinedFrom, AllDefinedFrom]
  obtain ⟨t, ht⟩ : ∃ t, twice 0 1 = (.ok zero, t) :=
    differentiateTwice_eq_ok (r := ruleOf [("x", one)]) (q := ruleOf []) (d := zero)
      (by decide +kernel) (by cbv) rfl
  obtain ⟨t', ht'⟩ : ∃ t, twice 1 0 = (.ok unexpandedZero, t) :=
    differentiateTwice_eq_ok (r := ruleOf [("y", one)]) (q := ruleOf [("x", one)])
      (d := unexpandedSlope) (by decide +kernel) (by cbv) (by cbv)
  refine ⟨⟨hcurrent, rationalFragment_unexpanded, hready, _, hdefined⟩, _, t, _, t', ht, ht',
    Expr.noConfusion, ?_⟩
  exact partial_derivatives_commute {} _ e 0 1 2 .none hcurrent rationalFragment_unexpanded hready
    ⟨_, hdefined⟩ _ t _ t' ht (.inl ht')

set_option maxRecDepth 100000 in
/-- The orders give different values to an expression that is defined nowhere. They also do so
where a scalar has the name of a component of partial derivatives, and where partial derivatives
were declared in another dimension or have been given another value. -/
theorem partial_derivatives_depend_on_order :
    let plain := (Session.new {}).after
      [.document "% coord [x, y]\n% def const c, const p, const q, const m"]
    let derived := (Session.new {}).after [.document "A_i = \\partial_i x"]
    let taken := derived.after [.document "% def x_dD0"]
    let stale := derived.after [.document "% coord [a, b]"]
    let altered := derived.after [.document "\\mathrm\x7bx_d\x7d_0 = 5"]
    let e := mul [unexpanded, pow unexpandedZero (num (-1))]
    (plain.DerivativesCurrent 2 ∧ RationalFragment e ∧ plain.Ready e ∧ plain.OrdersDiffer e 2) ∧
      (∀ s ∈ [taken, stale, altered], ∃ x ∈ s.table.get? "x", ∃ d ∈ s.table.get? "x_dD",
        d.origin = .partialDerivative ∧
          d.symmetry = (derivativeEntry x d.dimension s.config.naming).symmetry) ∧
      taken.OrdersDiffer (sym "x") 3 ∧
      stale.OrdersDiffer (mul [sym "x_dD2", add [sym "x", num 1]]) 2 ∧
      altered.OrdersDiffer (sym "x") 3 := by
  intro plain derived taken stale altered e
  have hplain : plain.DerivativesCurrent 2 := by
    rw [derivativesCurrent_iff (Sane.after _ _).listed]
    decide +kernel
  have hrational : RationalFragment e := by
    have hproduct : RationalFragment (product [unexpanded, power unexpandedZero (integer (-1))]) :=
      .product (by
        simpa using ⟨rationalFragment_unexpanded, .power (-1) rationalFragment_unexpandedZero⟩)
    rwa [show product _ = e by cbv] at hproduct
  refine ⟨⟨hplain, hrational, by decide +kernel, ?_⟩, by decide +kernel, ?_, ?_, ?_⟩
  · have hone : (mul [unexpandedSlope, pow unexpandedZero (num (-1))]).derivative
      (ruleOf [("x", one)]) = one := by cbv
    have hvalue : ((mul [unexpandedSlope, pow unexpandedZero (num (-1))]).derivative
        (ruleOf [("x", one)])).HasValue (fun _ => 0) 1 := by
      rw [hone]
      exact .num 1
    exact .of_rules zero (mul [unexpandedSlope, pow unexpandedZero (num (-1))])
      [("x", one)] [] [("y", one)] [("x", one)]
      (by decide +kernel) (by cbv) (by decide +kernel) (by cbv) (.num 0) hvalue (by decide)
  · exact .of_rules (sym "x_dD0") (sym "x_dD1") [("x", sym "x_dD0")] [("x_dD0", sym "x_dD0_dD1")]
      [("x", sym "x_dD1")] [("x_dD1", sym "x_dDD01")]
      (by decide +kernel) rfl (by decide +kernel) rfl
      (σ := fun symbol => if symbol = "x_dDD01" then 1 else 0) ⟨trivial, rfl⟩ ⟨trivial, rfl⟩
      (by decide)
  · refine .of_rules
      (add [mul [sym "x_dD0", sym "x_dD2"], mul [sym "x_dDD02", add [sym "x", num 1]]])
      (add [mul [sym "x_dD1", sym "x_dD2"], mul [sym "x_dDD12", add [sym "x", num 1]]])
      [("x_dD2", sym "x_dDD02"), ("x", sym "x_dD0")]
      [("x_dD0", sym "x_dDD01"), ("x_dD2", sym "x_dD2_dD1"),
        ("x_dDD02", sym "x_dDD02_dD1"), ("x", sym "x_dD1")]
      [("x_dD2", sym "x_dDD12"), ("x", sym "x_dD1")]
      [("x_dD1", sym "x_dDD01"), ("x_dD2", sym "x_dD2_dD0"),
        ("x_dDD12", sym "x_dDD12_dD0"), ("x", sym "x_dD0")]
      (by decide +kernel) (by cbv) (by decide +kernel) (by cbv)
      (σ := fun symbol => if symbol = "x_dD0" ∨ symbol = "x_dD2_dD1" then 1 else 0)
      (hasValue_derivative_ruleOf ?_ ?_) (hasValue_derivative_ruleOf ?_ ?_) (by decide +kernel)
    · simpa using ⟨.sym _, .sym _, .sym _, .sym _⟩
    · constructor <;> simp [Regular, AllRegular, DefinedFrom, AllDefinedFrom]
    · simpa using ⟨.sym _, .sym _, .sym _, .sym _⟩
    · constructor <;> simp [Regular, AllRegular, DefinedFrom, AllDefinedFrom]
  · exact .of_rules (num 5) (sym "x_dD1") [("x", num 5)] [] [("x", sym "x_dD1")]
      [("x_dD1", sym "x_dDD01")] (by decide +kernel) rfl (by decide +kernel) rfl
      (σ := fun symbol => if symbol = "x_dDD01" then 1 else 0) ⟨trivial, rfl⟩ ⟨trivial, rfl⟩
      (by decide)

end Commutation

end Session

end TensorCalculus
