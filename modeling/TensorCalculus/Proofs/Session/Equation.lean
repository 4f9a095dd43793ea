import TensorCalculus.Proofs.Session.Coherence
import TensorCalculus.Proofs.Session.Conduct

/-! The components of a tensor that a formula defines. Each one is what the formula gives in
the session as it was before the first of them. -/
namespace TensorCalculus

variable {e : Entry} {p : String → Prop} {s t : Session} {f : Formula}

open Tensor

namespace Session

variable {range : Nat}

/-- The session knows what a formula is about: its scalars are scalars or can become such, its
tensors are known with their own ranks, all with values whose symbols are settled, and its
derivatives are by `range` coordinates. -/
structure Reads (range : Nat) (s : Session) (f : Formula) : Prop where
  scalars : ∀ name, .sym name ∈ f.parts → s.ReadsScalar name
  tensors : ∀ t, .tensor t ∈ f.parts → s.ReadsTensor t.name t.rank
  ranges : ∀ kind i operand dimension span,
    .derivative kind i operand dimension span ∈ f.parts →
      dimension.getD s.defaultDimension = range

def ReadsPart (range : Nat) (s : Session) : Formula → Prop
  | .sym name => s.ReadsScalar name
  | .tensor t => s.ReadsTensor t.name t.rank
  | .derivative _ _ _ dimension _ => dimension.getD s.defaultDimension = range
  | _ => True

theorem Reads.part {g : Formula} (h : s.Reads range f) (hg : g ∈ f.parts) :
    s.ReadsPart range g := by
  cases g with
  | sym name => exact h.scalars name hg
  | tensor t => exact h.tensors t hg
  | derivative kind i operand dimension span => exact h.ranges kind i operand dimension span hg
  | _ => trivial

theorem lasting_readsPart (f : Formula) : Lasting range (·.ReadsPart range f) := by
  intro s t ht hst h
  cases f with
  | sym name => exact lasting_readsScalar name s t ht hst h
  | tensor r => exact lasting_readsTensor r.name r.rank s t ht hst h
  | derivative kind i operand dimension span =>
    unfold ReadsPart
    rw [hst.defaultDimension]
    exact h
  | _ => trivial

theorem agreement_reads : (agreement range).Reads (fun s e => s.Ready e) (ReadsPart range) :=
  { stable_ready with
    fault := trivial
    kept := fun h hf => lasting_readsPart _ _ _ h.left h.fromLeft hf
    scalar := fun h => (scalar_agrees _).holds h
    component := by
      rintro w t index a _ h hlength rfl
      refine (component_agrees t.head index a).holds ?_
      rw [hlength]
      exact h
    differentiate := by
      rintro w _ _ _ dimension _ e a _ k h he rfl
      refine .of_start fun hw => .get ?_
      have hdimension : dimension.getD w.1.defaultDimension = range := h
      rw [hw.2.2.defaultDimension, hdimension]
      exact (differentiate_agrees e k a).holds he }

theorem evaluate_agrees (ρ : Assignment) (f : Formula) :
    Agrees range (·.Reads range f) (evaluate ρ f) fun e s => s.Ready e :=
  .of_holds fun _ hf => agreement_reads.evaluate (.refl (fun _ => rfl) f) ρ fun _ hg => hf.part hg

section Run

variable {target : Entry} {names : List String}

/-- After some components of a tensor are set, each of them has the value that the formula
gives in the session `s` before, and the rest is as it was. -/
theorem foldlM_components (hs : s.Sound range) (hf : s.Reads range f) (indices : List IndexVector)
    {start value : Tensor} {t' : Session} (ht : t.Sound range) (hst : Extends range s t)
    (hfull : start.Full)
    (hindices : ∀ index ∈ indices, index ∈ Layout.indices start.rank start.dimension)
    (h : (indices.foldlM (fun (t : Tensor) index => do
      return t.set index (← evaluate (names.zip index) f)) start).run t = (.ok value, t')) :
    value.Full ∧ value.rank = start.rank ∧ value.dimension = start.dimension ∧
      ∀ index ∈ Layout.indices start.rank start.dimension,
        (index ∈ indices → ∃ v, ((evaluate (names.zip index) f).run s).1 = .ok v ∧
          value.get? index = some v) ∧
        (index ∉ indices → value.get? index = start.get? index) := by
  induction indices generalizing start t with
  | nil =>
    cases h
    exact ⟨hfull, rfl, rfl, fun index _ => ⟨nofun, fun _ => rfl⟩⟩
  | cons first indices ih =>
    rw [List.forall_mem_cons] at hindices
    rw [List.foldlM_cons] at h
    obtain ⟨next, u, hstep, hrest⟩ := run_bind_eq_ok h
    obtain ⟨v, u', heval, hreturn⟩ := run_bind_eq_ok hstep
    cases hreturn
    obtain ⟨heq, hmeet, _⟩ := evaluate_agrees (names.zip first) f s t hs ht hst hf
    rw [heval] at heq hmeet
    have hsu : Extends range s u := hst.trans hmeet.fromRight
    obtain ⟨hfull', hrank, hdimension, hget⟩ := ih hmeet.right hsu (hfull.set first v)
      (by rw [rank_set, dimension_set]; exact hindices.2) hrest
    rw [rank_set] at hrank hget
    rw [dimension_set] at hdimension hget
    refine ⟨hfull', hrank, hdimension, fun index hindex => ⟨fun hmem => ?_, fun hnot => ?_⟩⟩
    · by_cases hlater : index ∈ indices
      · exact (hget index hindex).1 hlater
      · obtain rfl := (List.mem_cons.mp hmem).resolve_right hlater
        refine ⟨v, heq.symm, ?_⟩
        rw [(hget index hindex).2 hlater, get?_set hfull hindices.1 hindex, if_pos rfl]
    · rw [List.mem_cons, not_or] at hnot
      rw [(hget index hindex).2 hnot.2, get?_set hfull hindices.1 hindex, if_neg (Ne.symm hnot.1)]

end Run

open Relation

theorem inherited_proper : Inherited Entry.Proper where
  id _ _ h := ⟨h.ordered, h.spelling⟩
  scalar := proper_freeScalar
  derivative _ n naming h := proper_derivativeEntry h n naming
  connection mark metric value := by
    refine ⟨fun p hp => ?_, nofun⟩
    obtain rfl := List.mem_singleton.mp hp
    exact Nat.lt_succ_self 1
  derived e name heights origin value horigin _ h := by
    refine ⟨fun p hp => h.ordered p ?_, fun heq => absurd heq horigin⟩
    simpa [derivedEntry, slotPairs_ofPairs] using hp

theorem wellFormed_of_aux (h : Aux Entry.Proper s t) (hs : s.table.WellFormed s.config.naming) :
    t.table.WellFormed t.config.naming := by
  cases h with
  | scalar name => exact hs.insert (proper_freeScalar _ _)
  | derivative hget n => exact hs.insert (proper_derivativeEntry (hs.proper hget) _ _)
  | silent he _ => exact hs.insert he

theorem wellFormed_of_reach (h : ReflTransGen (Aux Entry.Proper) s t)
    (hs : s.table.WellFormed s.config.naming) : t.table.WellFormed t.config.naming := by
  induction h with
  | refl => exact hs
  | tail _ h ih => exact wellFormed_of_aux h ih

/-- The component that a formula gives in a session to a tensor of some symmetry: the value at
the canonical index, with its sign. -/
def componentValue (s : Session) (names : List String) (f : Formula) (symmetry : Symmetry)
    (c : IndexVector) : Except Error Expr :=
  let (sign, canonical) := symmetry.canonicalize c
  if sign = .zero then .ok .zero
  else sign.apply <$> ((evaluate (names.zip canonical) f).run s).1

section Components

variable {target : Entry} {names : List String}

theorem componentsOf_eq_ok (hs : s.Sound range) (hf : s.Reads range f)
    (hordered : target.symmetry.Ordered) {value : Tensor}
    (h : (componentsOf target names f).run s = (.ok value, t)) {c : IndexVector}
    (hc : c ∈ Layout.indices target.rank target.dimension) :
    ∃ v, s.componentValue names f target.symmetry c = .ok v ∧ value.get? c = some v := by
  obtain ⟨filled, u, hfold, hreturn⟩ := run_bind_eq_ok h
  cases hreturn
  -- a scalar is stored with dimension zero, which leaves it its only index
  generalize hstart : (if target.rank = 0 then Tensor.scalar .zero
    else .zeros target.rank target.dimension) = start at hfold
  have hshape : start.Full ∧ Layout.indices start.rank start.dimension
      = Layout.indices target.rank target.dimension := by
    subst hstart
    split
    · next hrank =>
      rw [hrank]
      exact ⟨Tensor.full_scalar _, rfl⟩
    · exact ⟨Tensor.full_zeros _ _, rfl⟩
  obtain ⟨hfull, hindices⟩ := hshape
  obtain ⟨hfilled, hrank, hdimension, hget⟩ := foldlM_components hs hf _ hs (.refl range s) hfull
    (fun index hindex => by rw [hindices]; exact (List.mem_filter.mp hindex).1) hfold
  have hcfilled : c ∈ Layout.indices filled.rank filled.dimension := by
    rw [hrank, hdimension, hindices]
    exact hc
  unfold componentValue
  dsimp only
  rw [Tensor.get?_fillAliases hordered hfilled hcfilled, Tensor.alias?]
  by_cases hzero : (target.symmetry.canonicalize c).1 = .zero
  · rw [if_pos hzero, if_pos hzero]
    exact ⟨_, rfl, rfl⟩
  · have hmem := target.symmetry.canonicalize_mem_indices hc
    obtain ⟨v, hv, hvalue⟩ := (hget _ (by rw [hindices]; exact hmem)).1
      (List.mem_filter.mpr ⟨hmem, Symmetry.isCanonical_canonical hordered hzero⟩)
    rw [if_neg hzero, if_neg hzero, hv, hvalue]
    exact ⟨_, rfl, rfl⟩

end Components

theorem ordered_targetEntry (hs : s.table.WellFormed s.config.naming) (target : TensorRef)
    (free : List Occurrence) : (s.targetEntry target free).symmetry.Ordered := by
  unfold targetEntry
  dsimp only
  cases hget : s.table.get? target.name with
  | none => exact nofun
  | some e =>
    rw [Option.filter_some]
    split
    · exact (hs.proper hget).ordered
    · exact nofun

/-- An equation for all components of a tensor meets no internal fault. Where it succeeds and
each symbol has one meaning only, all components are as in the session `u` right after the
covariant derivatives have been expanded, whatever their order. -/
theorem define_stores_component_values (s : Session) (e : Equation)
    (hnamed : ∀ i ∈ e.target.indices, i.name?.isSome) :
    let names := e.target.indices.filterMap Index.name?
    let run := (define e).run s
    (∀ fault, run.1 = .error fault → fault.cause.isInternal = false) ∧
    (run.1 = .ok () → s.table.WellFormed s.config.naming →
      ∃ f free u value id,
        (expandAndResolve names e.value).run s = (.ok (f, free), u) ∧
        run.2.table.get? e.target.name = some { u.targetEntry e.target free with value, id } ∧
        ∀ range, u.Coherent range → u.Reads range f →
          ∀ c ∈ Layout.indices e.target.rank (u.targetEntry e.target free).dimension,
            ∃ v, u.componentValue names f (u.targetEntry e.target free).symmetry c = .ok v ∧
              value.get? c = some v) := by
  intro names run
  refine ⟨define_blameless hnamed s, fun hok hs => ?_⟩
  have hrun : (defineTensor e.target e.value e.span).run s = (.ok (), run.2) := by
    rw [← define_eq_defineTensor hnamed, ← hok]
    rfl
  obtain ⟨f, free, u, value, v, hexpand, _, _, hvalue, hinsert⟩ := defineTensor_eq_ok hrun
  obtain ⟨hreach, _⟩ := (expandAndResolve_obeys inherited_proper names e.value).of_run
    (fun _ _ h => hs.proper h) hexpand
  have hu := wellFormed_of_reach hreach hs
  refine ⟨f, free, u, value, v.table.lastId + 1, hexpand, ?_, fun range hcoherent hreads c hc => ?_⟩
  · rw [hinsert, Session.insert, Table.get?_insert]
    exact if_pos rfl
  · have hrank : (u.targetEntry e.target free).rank = e.target.rank := List.length_map _
    exact componentsOf_eq_ok ⟨hu, hcoherent⟩ hreads (ordered_targetEntry hu _ _) hvalue
      (by rw [hrank]; exact hc)

theorem define_stores_component_values_hessian :
    let d (i : String) (dimension : Option Nat) (f : Formula) : Formula :=
      .derivative .partialDerivative (.lower i) f dimension .none
    let e : Equation := ⟨.ofBase "A" [.lower "i", .lower "j"] .none,
      d "i" none (d "j" none (.sym "x")), .none⟩
    let f := d "i" (some 3) (d "j" (some 3) (.sym "x"))
    let s := Session.new {}
    (∀ i ∈ e.target.indices, i.name?.isSome) ∧ ((define e).run s).1 = .ok () ∧
      s.table.WellFormed s.config.naming ∧ s.Coherent 3 ∧ s.Reads 3 f ∧
      ∃ stored, ((define e).run s).2.table.get? "ADD" = some stored ∧
        ∀ c ∈ Layout.indices 2 3, ∃ v, s.componentValue ["i", "j"] f .none c = .ok v ∧
          stored.value.get? c = some v := by
  intro d e f s
  have hnamed : ∀ i ∈ e.target.indices, i.name?.isSome := by decide
  have hsucceeds : ((define e).run s).1.toOption = some () := by
    dsimp only [e, s, d]
    decide +kernel
  have hok : ((define e).run s).1 = .ok () := eq_ok_of_toOption hsucceeds
  have hs : s.table.WellFormed s.config.naming := Table.wellFormed_empty _
  have hempty (name : String) : s.table.get? name = none := by simp [s, Session.new, Table.get?]
  have hunowned (symbol : String) : s.table.owners[symbol]? = none := by simp [s, Session.new]
  have hcoherent : s.Coherent 3 :=
    ⟨fun h => by simp [hempty] at h, fun h => by simp [hunowned] at h⟩
  have hreads : s.Reads 3 f := by
    refine ⟨fun name hname => ?_, fun t ht => ?_, fun kind i operand dimension span h => ?_⟩
    · obtain rfl : name = "x" := by simpa [f, d, Formula.parts] using hname
      exact .inr (.inr ⟨hempty _, hunowned _, by decide⟩)
    · simp [f, d, Formula.parts] at ht
    · have : dimension = some 3 := by
        simp only [f, d, Formula.parts, List.mem_cons] at h
        grind
      rw [this]
      rfl
  refine ⟨hnamed, hok, hs, hcoherent, hreads, ?_⟩
  obtain ⟨g, free, u, value, id, hexpand, hget, hvalues⟩ :=
    (define_stores_component_values s e hnamed).2 hok hs
  have hrun : (expandAndResolve ["i", "j"] e.value).run s =
    (.ok (f, [⟨"j", .lower, none, .none⟩, ⟨"i", .lower, none, .none⟩]), s) := by
    dsimp only [e, s, d, f]
    cbv
  cases hrun.symm.trans hexpand
  exact ⟨_, hget, hvalues 3 hcoherent hreads⟩

set_option maxRecDepth 100000 in
/-- Components may differ from what they are right after the expansion. In the first document the
first component replaces partial derivatives of another range, in the second one it declares a
tensor with a symbol that is also written as a scalar. -/
theorem component_depends_on_earlier_components :
    let c : TensorRef := .ofBase "C" [.upper "i"] .none
    let e : Equation := ⟨.ofBase "B" [.upper "i"] .none,
      .derivative .partialDerivative ⟨.fixed 0, .lower⟩ (.tensor c) none .none, .none⟩
    ∀ p ∈ [("% def CU (2)\nA_i = \\partial_i x\nC^0 = x\nC^1 = \\partial_2 x",
          "x_dD2_dD0", "x_dDD02"),
        ("% def CU (2)\nC^0 = x\nC^1 = \\mathrm\x7bx_dD0\x7d", "x_dDD00", "x_dD0_dD0")],
      let s := ((Session.new {}).parse p.1).2
      ((define e).run s).1.toOption = some () ∧
        (s.table.get? c.name).map (·.rank) = some c.rank ∧
        (((define e).run s).2.table.get? "BU").bind (·.value.get? [1]) = some (.sym p.2.1) ∧
        ((do let (f, _) ← expandAndResolve ["i"] e.value
             evaluate [("i", 1)] f : SessionM Expr).run s).1.toOption = some (.sym p.2.2) := by
  decide +kernel

end Session

/-! The changes that evaluation makes to a session: it declares scalars and partial
derivatives, and nothing else. They are described together with the symbols that are met,
since only a symbol that is differentiated can become a scalar in place of a tensor. -/

open Relation

def covariantMark : List Char := ['_', 'c', 'd']

def CovariantSpelling (name : String) : Prop :=
  covariantMark <:+: name.toList

instance (name : String) : Decidable (CovariantSpelling name) :=
  inferInstanceAs (Decidable (_ <:+: _))

/-- The name of covariant derivatives in one metric, of the first or a higher order. -/
def CovariantName (mark : Diacritic) (name : String) : Prop :=
  ∃ stem n, name.toList = stem ++ covariantMark ++ mark.suffix.toList ++ List.replicate (n + 1) 'D'

namespace Entry

/-- A connection or covariant derivatives, which are computed on the way. -/
structure Computed (p : String → Prop) (e : Entry) : Prop where
  silent : e.Silent
  ordered : e.symmetry.Ordered
  origin : e.origin ≠ .partialDerivative
  spelled : ∀ mark, e.origin = .covariantDerivative mark → CovariantName mark e.name
  name : CovariantSpelling e.name ∨ ∃ mark : Diacritic, e.name = mark.connectionName
  filled : e.Filled p

theorem Filled.shaped (h : e.Filled p) : e.Shaped := by
  obtain ⟨t, hfits, hvalue⟩ := h.exists_fits
  unfold Shaped
  rw [hvalue]
  exact hfits.fillAliases _

theorem Computed.proper (h : e.Computed p) : e.Proper :=
  ⟨h.ordered, fun horigin => absurd horigin h.origin⟩

end Entry

namespace Session

/-- A session whose values have only symbols with `p`, and in which covariant derivatives are
named as such. -/
structure Within (p : String → Prop) (s : Session) : Prop where
  wellFormed : s.table.WellFormed s.config.naming
  numbered : s.table.Numbered
  symbols : ∀ {name e}, s.table.get? name = some e → e.value.Over p
  spelled : ∀ {name e mark}, s.table.get? name = some e → e.origin = .covariantDerivative mark →
    CovariantName mark name

/-- One change. A name becomes a scalar if it is new, or if it is differentiated and no tensor
owns it. The entries that may be computed and then stored in a session have `C` there. -/
inductive Change (p : String → Prop) (C : Session → Entry → Prop) (s : Session) : Session → Prop
  | scalar {name : String} (hname : p name)
    (hfree : s.table.get? name = none ∨
      s.table.owner? name = none ∧ name ∉ s.coordinates ∧ name ≠ "pi") :
    Change p C s (s.registerScalar name)
  | derivative {name : String} {owner : Entry} (h : s.table.get? name = some owner) (n : Nat) :
    Change p C s (s.insert (derivativeEntry owner n s.config.naming))
  | computed {e : Entry} (h : C s e) : Change p C s (s.insert e)

/-- What the symbols and the computed entries have to satisfy. -/
structure Rule (p : String → Prop) (C : Session → Entry → Prop) : Prop where
  reserved : ∀ symbol, Reserved symbol → p symbol
  computed : ∀ s e, C s e → e.Computed p

def Makes (p : String → Prop) (C : Session → Entry → Prop) (x : SessionM α) (post : α → Prop) :
    Prop :=
  ∀ s, s.Within p → ReflTransGen (Change p C) s (x.run s).2 ∧
    ∀ a, (x.run s).1 = .ok a → post a

variable {C : Session → Entry → Prop}

theorem Within.insert (hs : s.Within p) (hproper : e.Proper) (hover : e.value.Over p)
    (hspelled : ∀ mark, e.origin = .covariantDerivative mark → CovariantName mark e.name) :
    (s.insert e).Within p where
  wellFormed := hs.wellFormed.insert hproper
  numbered := (Table.renews_insert _ _ _).numbered hs.numbered
  symbols {name e'} h := by
    rw [Session.insert, Table.get?_insert] at h
    split at h
    · cases h
      exact hover
    · exact hs.symbols h
  spelled {name e' mark} h horigin := by
    rw [Session.insert, Table.get?_insert] at h
    split at h
    · next hname =>
      cases h
      rw [← hname]
      exact hspelled mark horigin
    · exact hs.spelled h horigin

theorem over_derivativeEntry (hp : ∀ symbol, Reserved symbol → p symbol) {owner : Entry}
    (h : owner.Proper) (n : Nat) (naming : ComponentNaming) :
    (derivativeEntry owner n naming).value.Over p := by
  intro c hc symbol hsymbol
  obtain ⟨index, hindex⟩ := selfReferring_derivativeEntry h n naming c hc symbol hsymbol
  rw [(Table.eq_componentName_of_mem hindex).2]
  exact hp _ ((spelling_derivativeName h).reserved.componentName _ _ _)

theorem over_freeScalar {name : String} (h : p name) (dimension : Nat) :
    (Entry.freeScalar name dimension).value.Over p := by
  intro c hc symbol hsymbol
  obtain rfl : c = .sym name := by simpa [Entry.freeScalar, Tensor.scalar] using hc
  rw [List.mem_singleton.mp hsymbol]
  exact h

namespace Rule

variable (hr : Rule p C)
include hr

theorem within_of_change (h : Change p C s t) (hs : s.Within p) : t.Within p := by
  cases h with
  | scalar hname _ => exact hs.insert (proper_freeScalar _ _) (over_freeScalar hname _) nofun
  | derivative hget n =>
    have hproper := hs.wellFormed.proper hget
    exact hs.insert (proper_derivativeEntry hproper _ _)
      (over_derivativeEntry hr.reserved hproper _ _) nofun
  | computed he =>
    exact hs.insert (hr.computed _ _ he).proper (hr.computed _ _ he).filled.symbols
      (hr.computed _ _ he).spelled

theorem within_of_reach (h : ReflTransGen (Change p C) s t) (hs : s.Within p) : t.Within p := by
  induction h with
  | refl => exact hs
  | tail _ h ih => exact hr.within_of_change h ih

end Rule

def changes (hr : Rule p C) : Comparison :=
  .alone (·.Within p) (Change p C) (fun _ => True) hr.within_of_change

theorem Makes.of_holds {hr : Rule p C} {Q : Session → α → α → Prop} {x : SessionM α}
    {post : α → Prop} (hx : ∀ w, (changes hr).Holds w Q x x) (h : ∀ s a, Q s a a → post a) :
    Makes p C x post := by
  intro s hs
  obtain ⟨hreach, hok, _⟩ := (hx (s, s)).alone hs
  exact ⟨hreach, fun a ha => h _ a (hok a ha)⟩

section Evaluation

variable (hr : Rule p C)
include hr

theorem Rule.conducts : (changes hr).Conducts p where
  alike {s _} h := ⟨s.warnings, h.1⟩
  symbols h hget := h.2.symbols hget
  scalar h hname hfree := ⟨congrArg (registerScalar · _) h.1, .single (.scalar hname hfree)⟩
  derivative {w _ _} n h hget := by
    obtain ⟨s, s'⟩ := w
    obtain rfl : s' = s := h.1
    exact ⟨rfl, .single (.derivative hget n)⟩
  fault _ := trivial
  unplaced := rfl

theorem evaluate_makes (ρ : Assignment) (hf : ∀ name ∈ f.scalarNames, p name) :
    Makes p C (evaluate ρ f) (Expr.Over p) :=
  .of_holds (fun _ => hr.conducts.evaluate trivial (.refl (fun _ => rfl) f) hf ρ) fun _ _ h => h.2

theorem componentsOf_makes (target : Entry) (names : List String)
    (hf : ∀ name ∈ f.scalarNames, p name) :
    Makes p C (componentsOf target names f) fun value => { target with value }.Filled p :=
  .of_holds (fun _ => Comparison.Conducts.componentsOf target names fun _ _ _ =>
    hr.conducts.evaluate trivial (.refl (fun _ => rfl) f) hf _) fun _ _ h => h.2

end Evaluation

end Session

namespace Symmetry

theorem digit_injective {a b : Char} (ha : a.isDigit) (hb : b.isDigit)
    (h : a.toNat - '0'.toNat = b.toNat - '0'.toNat) : a = b := by
  have hbound {c : Char} (hc : c.isDigit) : '0'.toNat ≤ c.toNat := by
    simp only [Char.isDigit, Bool.and_eq_true, decide_eq_true_eq] at hc
    exact hc.1
  have ha := hbound ha
  have hb := hbound hb
  exact Char.toNat_inj.mp (by omega)

theorem first_lt_second_of_pairOfModifier? {part : List Char} {p : SlotPair}
    (h : pairOfModifier? part = some p) : p.first < p.second := by
  have hslots {a b : Char} (hdigits : (a.isDigit && b.isDigit && a != b) = true) :
      min (a.toNat - '0'.toNat) (b.toNat - '0'.toNat)
        < max (a.toNat - '0'.toNat) (b.toNat - '0'.toNat) := by
    simp only [Bool.and_eq_true, bne_iff_ne, ne_eq] at hdigits
    have hne := mt (digit_injective hdigits.1.1 hdigits.1.2) hdigits.2
    omega
  unfold pairOfModifier? at h
  dsimp only at h
  split at h
  · split at h
    · split at h
      · next hdigits =>
        cases h
        exact hslots hdigits
      · cases h
    · cases h
  · split at h
    · split at h
      · next hdigits =>
        cases h
        exact hslots hdigits
      · cases h
    · cases h
  · cases h

theorem ordered_of_ofModifier? {modifier : String} {s : Symmetry}
    (h : ofModifier? modifier = some s) : s.Ordered := by
  unfold ofModifier? at h
  split at h
  · cases h; exact nofun
  · cases h; exact nofun
  · cases h
    intro p hp
    obtain rfl := List.mem_singleton.mp hp
    exact Nat.zero_lt_one
  · cases h
    intro p hp
    obtain rfl := List.mem_singleton.mp hp
    exact Nat.zero_lt_one
  · cases h; exact nofun
  · obtain ⟨ps, hps, heq⟩ := Option.bind_eq_some_iff.mp h
    cases heq
    intro p hp
    obtain ⟨part, _, hpart⟩ := (pointwise_iff_mapM.mpr hps).exists_of_mem hp
    exact first_lt_second_of_pairOfModifier? hpart

end Symmetry

namespace Session

theorem ordered_of_symmetry {first : Option Symmetry} {modifiers : List Segment}
    {symmetry : Symmetry} (hfirst : ∀ s ∈ first, s.Ordered)
    (h : Declaration.symmetry first modifiers = .ok symmetry) : symmetry.Ordered := by
  induction modifiers generalizing first with
  | nil =>
    cases h
    cases first with
    | none => exact nofun
    | some s => exact hfirst s rfl
  | cons m ms ih =>
    rw [Declaration.symmetry] at h
    split at h
    · next s hs =>
      split at h
      · cases h
      · have hnext : ∀ s' ∈ some s, s'.Ordered := by
          rintro s' ⟨⟩
          exact Symmetry.ordered_of_ofModifier? hs
        exact ih hnext h
    · cases h

theorem eq_of_metricHeights? {name base : String} {height : Height}
    (h : metricHeights? name = some (base, height)) :
    base ++ String.ofList [height.letter, height.letter] = name := by
  rw [← String.toList_inj, String.toList_append]
  unfold metricHeights? at h
  split at h
  · next c rest hname =>
    cases h
    simpa [Height.letter] using (congrArg List.reverse hname).symm
  · next c rest hname =>
    cases h
    simpa [Height.letter] using (congrArg List.reverse hname).symm
  · cases h

theorem proper_metricEntry (base : String) (height : Height) (dimension : Nat) (value : Tensor)
    {origin : Origin} (h : origin ≠ .partialDerivative) :
    (metricEntry base height dimension value origin).Proper := by
  refine ⟨fun p hp => ?_, fun heq => absurd heq h⟩
  obtain rfl := List.mem_singleton.mp hp
  exact Nat.zero_lt_one

end Session

end TensorCalculus
