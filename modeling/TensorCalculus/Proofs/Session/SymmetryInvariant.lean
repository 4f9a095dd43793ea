import TensorCalculus.Proofs.Session.TableInvariant
import TensorCalculus.Proofs.Tensor.Balance

/-! Values and symmetries after any sequence of calls. Everything that is stored agrees with its
symmetry, except that three things are taken over without a look at the symmetry: the value
that a metric keeps, the value that an equation for one component writes back, and the
components that an evaluation has put new values into. -/
namespace TensorCalculus

variable {kept : Option Tensor} {symmetry : Symmetry} {t : Tensor} {x : Expr} {dimension : Nat}

open Relation Tensor Layout

def Entry.Balanced (e : Entry) : Prop :=
  e.value.Balanced e.symmetry

theorem Entry.Filled.balanced {p : String → Prop} {e : Entry} (h : e.Filled p)
    (hordered : e.symmetry.Ordered) : e.Balanced := by
  obtain ⟨t, hfits, hvalue⟩ := h.exists_fits
  unfold Balanced
  rw [hvalue]
  exact balanced_fillAliases hordered hfits.full

namespace Session

variable {s t : Session} {step : Step}

def pass (s : Session) (t : Tensor) : Tensor :=
  t.map (·.substitute s.currentValue?)

/-- A pass turns the negative of a component into the negative of what it turns the component
into, wherever the symmetry asks for negatives. -/
def KeepsSigns (s : Session) (symmetry : Symmetry) (t : Tensor) : Prop :=
  ∀ index ∈ indices t.rank t.dimension, (symmetry.canonicalize index).1 = .minus →
    ∀ x ∈ t.get? (symmetry.canonicalize index).2,
      x.neg.substitute s.currentValue? = (x.substitute s.currentValue?).neg

/-- What a step has to respect so that values go on to agree with their symmetries. -/
structure Step.Faithful (step : Step) : Prop where
  steady : step.Steady
  /-- An equation for a single component leaves the symmetry of its target as it was. -/
  symmetry : ∀ e ∈ step.equation?, e.IsComponent → step.outcome.1.isOk →
    ∀ old ∈ step.start.table.get? e.target.name, ∀ new ∈ step.finish.table.get? e.target.name,
      new.symmetry = old.symmetry
  /-- A tensor that is made a metric and keeps its value is symmetric. -/
  metric : ∀ name ∈ step.declared?, ∀ old ∈ step.start.table.get? name,
    ∀ new ∈ step.finish.table.get? name, old.symmetry ≠ .metric → new.symmetry = .metric →
      new.value = old.value → old.value.fillAliases .metric = old.value
  /-- The inverse of a metric that is declared can be computed in range. -/
  inverse : ∀ name ∈ step.declared?, ∀ e ∈ step.finish.table.get? name, e.symmetry = .metric →
    e.value.InverseInRange
  /-- An evaluation keeps signs in every pass. -/
  signs : ∀ name ∈ step.evaluated?, ∀ e ∈ step.start.table.get? name,
    ∀ n < maxPasses, step.start.KeepsSigns e.symmetry (step.start.pass^[n] e.value)

theorem balanced_substituteValues (n : Nat) {t : Tensor} (h : t.Balanced symmetry)
    (hsigns : ∀ k < n, s.KeepsSigns symmetry (s.pass^[k] t)) :
    (s.substituteValues n t).Balanced symmetry := by
  induction n generalizing t with
  | zero => exact h
  | succ n ih =>
    rw [substituteValues]
    split
    · exact h
    · refine ih (h.map rfl (hsigns 0 (Nat.zero_lt_succ n))) fun k hk => ?_
      exact hsigns (k + 1) (Nat.succ_lt_succ hk)

theorem balanced_derivativeEntry {owner : Entry} (h : owner.Proper) (n : Nat)
    (naming : ComponentNaming) : (derivativeEntry owner n naming).Balanced :=
  balanced_symbolic (proper_derivativeEntry h n naming).ordered _ _ _ _

theorem balanced_of_change (h : Change (fun _ => True) (Auxiliary fun _ => True) s t)
    (hs : s.Sane) (hbalanced : s.All Entry.Balanced) : t.All Entry.Balanced := by
  cases h with
  | scalar => exact hbalanced.insert fun _ => balanced_of_rank_zero rfl _
  | derivative h =>
    exact hbalanced.insert fun _ => balanced_derivativeEntry (hs.within.wellFormed.proper h) _ _
  | computed h => exact hbalanced.insert fun _ => h.computed.filled.balanced h.computed.ordered

theorem balanced_of_reach (h : Reach (fun _ => True) s t) (hs : s.Sane)
    (hbalanced : s.All Entry.Balanced) : t.All Entry.Balanced := by
  induction h with
  | refl => exact hbalanced
  | tail hreach h ih => exact balanced_of_change h (.of_reach hreach hs) ih

theorem balanced_declaredValue {e : Entry} (hordered : e.symmetry.Ordered)
    (hkept : ∀ t ∈ kept, t.Full) (naming : ComponentNaming) :
    (declaredValue e.name e.rank e.dimension e.symmetry naming kept).Balanced e.symmetry := by
  unfold declaredValue
  split
  · next h => rw [h]; exact balanced_leviCivita _
  · next h => rw [h]; exact balanced_kronecker _
  · exact balanced_fillAliases hordered (hkept _ rfl)
  · exact balanced_symbolic hordered _ _ _ _

theorem get?_withMetric (s : Session) (base : String) (height : Height) (dimension : Nat)
    (value : Tensor) :
    (s.withMetric base height dimension value).table.get?
        (metricEntry base height dimension value .declared).name =
      some { metricEntry base height dimension value .declared with id := s.table.lastId + 1 } := by
  have hflip : (metricEntry base height.flip dimension value.inverse.1 .computed).name ≠
      (metricEntry base height dimension value .declared).name := by
    intro h
    have hletter : height.flip.letter = height.letter := by
      simpa [metricEntry] using congrArg String.toList h
    cases height <;> cases hletter
  have hdet (det : Expr) : (determinantEntry base dimension det).name ≠
      (metricEntry base height dimension value .declared).name := by
    intro h
    simpa [metricEntry, determinantEntry] using congrArg String.toList h
  change (Session.insert (Session.insert (Session.insert _ _) _) _).table.get? _ = _
  rw [insert, Table.get?_insert, if_neg (hdet _), insert, Table.get?_insert, if_neg hflip, insert,
    Table.get?_insert, if_pos rfl]

theorem balanced_withMetric (hs : s.All Entry.Balanced) (base : String) (height : Height)
    {value : Tensor} (hvalue : value.Balanced .metric) (hrank : value.rank = 2)
    (hrange : value.InverseInRange) :
    (s.withMetric base height dimension value).All Entry.Balanced :=
  hs.withMetric (fun _ => hvalue) (fun _ => balanced_inverse hvalue hrank hrange.exact)
    fun _ _ => balanced_of_rank_zero rfl _

theorem balanced_of_effect (h : Effect step t) (ht : t = step.finish) (hfaithful : step.Faithful)
    (hs : step.start.Sane) (hshaped : step.start.All Entry.Shaped)
    (hbalanced : step.start.All Entry.Balanced) : t.All Entry.Balanced := by
  cases h with
  | changes h hleads hsame => exact all_of_table (balanced_of_reach h hs hbalanced) hsame.table
  | @equation e u _ he hok h hleads hstores =>
    have hu := balanced_of_reach h hs hbalanced
    cases hstores with
    | tensor hname horigin hsource hordered hfilled hsymmetry =>
      exact hu.insert fun _ => hfilled.balanced hordered
    | @component old index x hcomponent hold hx =>
      have hkey : old.name = e.target.name := hs.within.wellFormed.key hold
      intro name new hnew
      have hfinish := hnew
      rw [Table.get?_setValue] at hnew
      split at hnew
      · next hname =>
        have hok : step.outcome.1.isOk := by rw [hok]; rfl
        have hkept := hfaithful.symmetry e he hcomponent hok old hold new (by
          rw [← ht, ← hname.symm.trans hkey]
          exact hfinish)
        obtain ⟨current, _, rfl⟩ := Option.map_eq_some_iff.mp hnew
        unfold Entry.Balanced
        rw [hkept]
        exact balanced_fillAliases (hs.within.wellFormed.proper hold).ordered
          ((hshaped _ _ hold).full.set _ _)
      · exact hu name new hnew
  | declaration hsame horigin hsource hordered hfault hkept hvalue =>
    refine (all_of_table hbalanced hsame.table).insert fun _ => ?_
    unfold Entry.Balanced
    dsimp only
    rw [hvalue]
    refine balanced_declaredValue hordered (fun x hx => ?_) _
    obtain ⟨old, hold, -, -, rfl⟩ := hkept x hx
    exact (hshaped _ _ hold).full
  | @metric s name base height dimension value hdeclared hsame hname hvalue =>
    have hentry := get?_withMetric s base height dimension value
    rw [ht, show (metricEntry base height dimension value .declared).name = name from
      eq_of_metricHeights? hname] at hentry
    have hrange : value.InverseInRange := hfaithful.inverse name hdeclared _ hentry rfl
    refine balanced_withMetric (all_of_table hbalanced hsame.table) base height ?_ ?_ hrange
    · rcases hvalue with rfl | ⟨old, hold, hrank, hdimension, rfl⟩
      · exact balanced_symbolic Symmetry.ordered_metric _ _ _ _
      · by_cases hmetric : old.symmetry = .metric
        · have := hbalanced _ _ hold
          unfold Entry.Balanced at this
          rwa [hmetric] at this
        · rw [← hfaithful.metric name hdeclared old hold _ hentry hmetric rfl rfl]
          exact balanced_fillAliases Symmetry.ordered_metric (hshaped _ _ hold).full
    · rcases hvalue with rfl | ⟨old, hold, hrank, hdimension, rfl⟩
      · rfl
      · exact (hshaped _ _ hold).rank.trans hrank
  | @evaluation name e hevaluated h =>
    intro other new hnew
    rw [Table.get?_setValue] at hnew
    split at hnew
    · rw [h] at hnew
      cases hnew
      exact balanced_substituteValues _ (hbalanced _ _ h) (hfaithful.signs name hevaluated e h)
    · exact hbalanced other new hnew

theorem balanced_after (config : Config) {calls : List Call}
    (h : ∀ step ∈ (Session.new config).history calls, step.Faithful) :
    ((Session.new config).after calls).All fun e => e.Shaped ∧ e.Balanced := by
  have hnone (name : String) (e : Entry) : (Session.new config).table.get? name ≠ some e := by
    simp [Session.new, Table.get?]
  have hafter := invariant_of_history
    (I := fun s => s.Sane ∧ s.All Entry.Shaped ∧ s.All Entry.Balanced)
    (fun step hfaithful hs => ?_)
    ⟨sane_new config, fun name e he => absurd he (hnone name e),
      fun name e he => absurd he (hnone name e)⟩ h
  · exact fun name e he => ⟨hafter.2.1 name e he, hafter.2.2 name e he⟩
  · have heffect := step.effect hs.1.within
    exact ⟨hs.1.of_effect heffect, shaped_of_effect heffect rfl hfaithful.steady hs.1 hs.2.1,
      balanced_of_effect heffect rfl hfaithful hs.1 hs.2.1 hs.2.2⟩

/-- After any calls with faithful steps, each value is what filling in the aliases leaves as it
is: a component is the canonical one up to its sign, or the number zero. -/
theorem values_respect_symmetries (config : Config) (calls : List Call)
    (h : ∀ step ∈ (Session.new config).history calls, step.Faithful) :
    ∀ name e, ((Session.new config).after calls).table.get? name = some e →
      e.value.fillAliases e.symmetry = e.value ∧
      ∀ index ∈ Layout.indices e.rank e.dimension,
        e.value.get? index =
          if (e.symmetry.canonicalize index).1 = .zero then some .zero
          else (e.value.get? (e.symmetry.canonicalize index).2).map
            (e.symmetry.canonicalize index).1.apply := by
  intro name e he
  obtain ⟨hshaped, hbalanced⟩ := balanced_after config h name e he
  refine ⟨hbalanced.fillAliases, fun index hindex => ?_⟩
  exact hbalanced index (by rw [hshaped.indices]; exact hindex)

theorem inverseInRange_plane : (Tensor.symbolic "gDD" 2 2 .metric .auto).InverseInRange := by
  have h : ∀ row < 2, ∀ column < 2,
      let t := (Tensor.symbolic "gDD" 2 2 .metric .auto).minor row column
      (∀ p ∈ permutations t.dimension, Expr.FactorsExact (t.cells p)) ∧
        Expr.SumExact ((permutations t.dimension).map fun p =>
          (parity p).apply (Expr.product (t.cells p))) := by
    decide_cbv
  intro row hrow column hcolumn
  exact ⟨(h row hrow column hcolumn).1, (h row hrow column hcolumn).2⟩

theorem substitute_neg_sym (x : String) (f : String → Option Expr) :
    (Expr.sym x).neg.substitute f = ((Expr.sym x).substitute f).neg := by
  rw [show (Expr.sym x).neg = .mul [.num (-1), .sym x] by cbv]
  rfl

set_option maxRecDepth 100000 in
theorem values_respect_symmetries_evaluated :
    let calls : List Call :=
      [.document "% def anti01 FDD (2)\nF_\x7b0 1\x7d = y\n% eval FDD",
        .document "% def metric gDD (2)"]
    let s := (Session.new {}).after calls
    (∀ step ∈ (Session.new {}).history calls, step.Faithful) ∧
      (s.table.get? "FDD").map (·.symmetry) = some (.pairs [⟨0, 1, true⟩]) ∧
      (s.table.get? "gUU").map (·.symmetry) = some .metric ∧
      ∀ name e, s.table.get? name = some e → e.value.fillAliases e.symmetry = e.value := by
  intro calls s
  have hequation : ∀ step ∈ (Session.new {}).history calls, step.Steady ∧
      ∀ e ∈ step.equation?, e.IsComponent → step.outcome.1.isOk →
        ∀ old ∈ step.start.table.get? e.target.name,
          ∀ new ∈ step.finish.table.get? e.target.name, new.symmetry = old.symmetry := by
    decide +kernel
  have hmetric : ∀ step ∈ (Session.new {}).history calls, ∀ name ∈ step.declared?,
      step.start.table.get? name = none ∧
        ∀ e ∈ step.finish.table.get? name, e.symmetry = .metric →
          e.value = .symbolic "gDD" 2 2 .metric .auto := by
    decide +kernel
  have hsigns : ∀ step ∈ (Session.new {}).history calls, ∀ name ∈ step.evaluated?,
      ∀ e ∈ step.start.table.get? name, ∀ n < maxPasses,
        (step.start.pass^[n] e.value).rank = 2 ∧ (step.start.pass^[n] e.value).dimension = 2 ∧
        ∀ index ∈ indices 2 2, (e.symmetry.canonicalize index).1 = .minus →
          (step.start.pass^[n] e.value).get? (e.symmetry.canonicalize index).2 =
            some (.sym "y") := by
    decide +kernel
  have hfaithful : ∀ step ∈ (Session.new {}).history calls, step.Faithful := by
    intro step hstep
    refine ⟨(hequation step hstep).1, (hequation step hstep).2, ?_, ?_, ?_⟩
    · intro name hname old hold
      rw [(hmetric step hstep name hname).1] at hold
      cases hold
    · intro name hname e he hsymmetry
      rw [(hmetric step hstep name hname).2 e he hsymmetry]
      exact inverseInRange_plane
    · intro name hname e he n hn index hindex hminus x hx
      obtain ⟨hrank, hdimension, hget⟩ := hsigns step hstep name hname e he n hn
      rw [hrank, hdimension] at hindex
      rw [hget index hindex hminus] at hx
      cases hx
      exact substitute_neg_sym "y" _
  refine ⟨hfaithful, by decide +kernel, by decide +kernel, fun name e he => ?_⟩
  exact (values_respect_symmetries {} calls hfaithful name e he).1

set_option maxRecDepth 100000 in
/-- A tensor that is declared again as a metric keeps its value, whether that is symmetric or not. -/
theorem metric_of_unsymmetric_tensor :
    let s := ((Session.new {}).parse "% def gDD (2)\n% redef metric gDD (2)").2
    (s.table.get? "gDD").map (fun e => (e.symmetry.canonicalize [1, 0], e.value.get? [1, 0],
      e.value.get? [0, 1], decide (e.value.fillAliases e.symmetry = e.value))) =
      some ((.plus, [0, 1]), some (.sym "gDD10"), some (.sym "gDD01"), false) := by
  decide +kernel

end Session

/-! How far an evaluation gets. Every pass follows the definitions by one step, so a symbol that
has a value is only left at the end of a chain of as many definitions as there are passes. -/

namespace Session

variable {s : Session} {a b : String}

def Defines (s : Session) (a b : String) : Prop :=
  ∃ e ∈ s.currentValue? a, b ∈ e.symbolList

def Acyclic (s : Session) : Prop :=
  ∀ a, ¬ TransGen s.Defines a a

theorem Defines.isSome (h : s.Defines a b) : (s.currentValue? a).isSome := by
  obtain ⟨e, he, -⟩ := h
  exact Option.isSome_of_mem he

theorem Acyclic.nodup (h : s.Acyclic) {chain : List String} (hchain : chain.IsChain s.Defines) :
    chain.Nodup := by
  have hpairwise : chain.Pairwise (TransGen s.Defines) :=
    (hchain.imp fun _ _ => TransGen.single).pairwise
  refine hpairwise.imp ?_
  rintro a _ hab rfl
  exact h a hab

end Session

/-! Equations for one component. The value is stored at the canonical index with a sign and copied
back to all indices that have the same canonical one. Read at the index of the equation, it has
gone through its sign twice. -/

open List

variable {e : Expr} {index : IndexVector} {old : Entry}

/-- Built in range, with a negative in range and no two factors of one base. -/
structure Expr.Reversible (e : Expr) : Prop where
  built : e.Built False
  exact : Exact (.product [num (-1), e])
  distinct : e.DistinctBases

theorem Expr.Reversible.neg_neg (h : e.Reversible) : e.neg.neg = e :=
  neg_neg_of_tidy h.built.tidy h.exact h.distinct

theorem Expr.eq_zero_of_isZero (h : e.isZero) : e = zero := by
  cases e with
  | num q => rw [eq_of_beq h]; rfl
  | _ => cases h

theorem Sign.apply_apply {sign : Sign} (hzero : sign = .zero → e.isZero)
    (hminus : sign = .minus → e.Reversible) : sign.apply (sign.apply e) = e := by
  cases sign with
  | plus => rfl
  | minus => exact (hminus rfl).neg_neg
  | zero => exact (Expr.eq_zero_of_isZero (hzero rfl)).symm

namespace Tensor

variable {s : Symmetry}

theorem get?_eq_none (h : index ∉ indices t.rank t.dimension) : t.get? index = none := by
  rw [get?, offset?_eq_none h]
  rfl

theorem mem_indices_of_isSome (h : (t.get? index).isSome) :
    index ∈ indices t.rank t.dimension := by
  by_contra hnot
  rw [get?_eq_none hnot] at h
  cases h

theorem mem_indices_of_canonicalize {rank : Nat}
    (h : (s.canonicalize index).2 ∈ indices rank dimension) :
    index ∈ indices rank dimension := by
  have hperm := s.canonicalize_perm index
  rw [mem_indices] at h ⊢
  exact ⟨hperm.length_eq.symm.trans h.1, fun i hi => h.2 i (hperm.mem_iff.mpr hi)⟩

theorem Balanced.get?_eq_map (h : Balanced s t) (ht : t.Full) (index : IndexVector) :
    t.get? index = (t.get? (s.canonicalize index).2).map (s.canonicalize index).1.apply := by
  by_cases hindex : index ∈ indices t.rank t.dimension
  · rw [h index hindex, alias?]
    split
    · next hzero =>
      obtain ⟨e, he⟩ :=
        Option.isSome_iff_exists.mp (isSome_get? ht (s.canonicalize_mem_indices hindex))
      rw [hzero, he]
      rfl
    · rfl
  · rw [get?_eq_none hindex, get?_eq_none (mt mem_indices_of_canonicalize hindex)]
    rfl

/-- To set a canonical component and its aliases leaves all components as they are that have
another canonical one. -/
theorem Balanced.get?_set_fillAliases (h : Balanced s t) (hs : s.Ordered) (ht : t.Full)
    (hindex : index ∈ indices t.rank t.dimension) (hsign : (s.canonicalize index).1 ≠ .zero)
    (x : Expr) : let new := (t.set (s.canonicalize index).2 x).fillAliases s
    new.get? (s.canonicalize index).2 = some x ∧
      ∀ other, (s.canonicalize other).2 ≠ (s.canonicalize index).2 →
        new.get? other = t.get? other := by
  intro new
  have hcanonical := s.canonicalize_mem_indices hindex
  have hfull := ht.set (s.canonicalize index).2 x
  have hget {other : IndexVector} (hother : other ∈ indices t.rank t.dimension) :
      new.get? other = alias? s (t.set (s.canonicalize index).2 x) other :=
    get?_fillAliases hs hfull (by rwa [rank_set, dimension_set])
  refine ⟨?_, fun other hne => ?_⟩
  · rw [hget hcanonical, alias?_canonical hs _ hsign, ht.get?_set_apply hcanonical, if_pos rfl]
  · by_cases hother : other ∈ indices t.rank t.dimension
    · rw [hget hother, h other hother, alias?, alias?, ht.get?_set_apply hcanonical, if_neg hne]
    · obtain ⟨hrank, hdimension, -⟩ := (t.set (s.canonicalize index).2 x).fillAliases_shape s
      rw [rank_set] at hrank
      rw [dimension_set] at hdimension
      rw [get?_eq_none hother, get?_eq_none (by rwa [hrank, hdimension])]

end Tensor

namespace Session

variable {s t : Session} {step : Step}

def closedValue (f : Formula) : SessionM Expr := do
  let (g, _) ← expandAndResolve [] f
  evaluate [] g

theorem reach_closedValue (hs : s.Within fun _ => True) (f : Formula) :
    Reach (fun _ => True) s ((closedValue f).run s).2 := by
  have hp : ∀ symbol, Reserved symbol → True := fun _ _ => trivial
  have hr := Rule.ofReserved hp
  have hvalue : (changes hr).Holds (s, s) (fun _ _ _ => True) (closedValue f) (closedValue f) :=
    ((expands hp).expandAndResolve [] (.refl (fun _ => rfl) f) fun _ _ => trivial).bind
      fun _ _ _ _ h => (hr.conducts.evaluate trivial h.1.1 h.2.1.scalars []).mono
        fun _ _ _ _ => trivial
  exact (hvalue.alone hs).1

section Full

section

variable (name : String) (rank dimension : Nat) (symmetry : Symmetry) (naming : ComponentNaming)

theorem full_symbolic : (Tensor.symbolic name rank dimension symmetry naming).Full := by
  unfold Tensor.symbolic
  split
  · exact full_scalar _
  · exact full_ofFn _ _ _

theorem full_declaredValue (hkept : ∀ t ∈ kept, t.Full) :
    (declaredValue name rank dimension symmetry naming kept).Full := by
  unfold declaredValue
  split
  · exact (leviCivita_shape _).2.2
  · exact (kronecker_shape _).2.2
  · exact (fillAliases_shape _ _).2.2 (hkept _ rfl)
  · exact full_symbolic _ _ _ _ _

end

theorem full_of_effect (h : Effect step t) (hs : step.start.All (·.value.Full)) :
    t.All (·.value.Full) := by
  have hreach {u : Session} (h : Reach (fun _ => True) step.start u) : u.All (·.value.Full) :=
    all_of_reach (fun _ he => he.full) h hs
  cases h with
  | changes h hleads hsame => exact all_of_table (hreach h) hsame.table
  | equation he hok h hleads hstores =>
    cases hstores with
    | tensor hname horigin hsource hordered hfilled hsymmetry =>
      exact (hreach h).insert fun _ => hfilled.shaped.full
    | component hcomponent hold hx =>
      intro name new hnew
      rw [Table.get?_setValue] at hnew
      split at hnew
      · obtain ⟨current, _, rfl⟩ := Option.map_eq_some_iff.mp hnew
        exact (fillAliases_shape _ _).2.2 ((hs _ _ hold).set _ _)
      · exact hreach h name new hnew
  | declaration hsame horigin hsource hordered hfault hkept hvalue =>
    refine (all_of_table hs hsame.table).insert fun _ => ?_
    dsimp only
    rw [hvalue]
    refine full_declaredValue _ _ _ _ _ fun x hx => ?_
    obtain ⟨old, hold, -, -, rfl⟩ := hkept x hx
    exact hs _ _ hold
  | @metric s name base height dimension value hdeclared hsame hname hvalue =>
    have hfull : value.Full := by
      rcases hvalue with rfl | ⟨old, hold, -, -, rfl⟩
      · exact full_symbolic _ _ _ _ _
      · exact hs _ _ hold
    exact (all_of_table hs hsame.table).withMetric (fun _ => hfull)
      (fun _ => full_ofFn _ _ _) fun _ _ => full_scalar _
  | evaluation hevaluated h =>
    intro name new hnew
    rw [Table.get?_setValue] at hnew
    split at hnew
    · rw [h] at hnew
      cases hnew
      exact substituteValues_of_map (fun _ f h => h.map f) _ _ (hs _ _ h)
    · exact hs name new hnew

theorem full_after (config : Config) (calls : List Call) :
    ((Session.new config).after calls).All (·.value.Full) := by
  refine (invariant_of_history (I := fun s => s.Sane ∧ s.All (·.value.Full))
    (P := fun _ => True) (fun step _ hs => ?_) ⟨sane_new config, fun name e he => ?_⟩
    fun _ _ => trivial).2
  · have heffect := step.effect hs.1.within
    exact ⟨hs.1.of_effect heffect, full_of_effect heffect hs.2⟩
  · simp [Session.new, Table.get?] at he

end Full

structure Writes (symmetry : Symmetry) (old : Tensor) (index : IndexVector) (x : Expr)
    (new : Tensor) : Prop where
  written : new.get? index = some
    ((symmetry.canonicalize index).1.apply ((symmetry.canonicalize index).1.apply x))
  alike : ∀ other, (symmetry.canonicalize other).2 = (symmetry.canonicalize index).2 →
    new.get? other =
      (new.get? (symmetry.canonicalize index).2).map (symmetry.canonicalize other).1.apply
  kept : ∀ other, (symmetry.canonicalize other).2 ≠ (symmetry.canonicalize index).2 →
    new.get? other = old.get? other

theorem writes_withComponent (hordered : old.symmetry.Ordered) (hfull : old.value.Full)
    (hfixed : old.value.fillAliases old.symmetry = old.value)
    (hindex : (old.value.get? index).isSome) (hsign : (old.symmetry.canonicalize index).1 ≠ .zero)
    (x : Expr) : Writes old.symmetry old.value index x (old.withComponent index x) := by
  have hbalanced : old.value.Balanced old.symmetry :=
    hfixed ▸ balanced_fillAliases hordered hfull
  have hset := hfull.set (old.symmetry.canonicalize index).2
    ((old.symmetry.canonicalize index).1.apply x)
  obtain ⟨hcanonical, hkept⟩ := hbalanced.get?_set_fillAliases hordered hfull
    (Tensor.mem_indices_of_isSome hindex) hsign ((old.symmetry.canonicalize index).1.apply x)
  have hread := (balanced_fillAliases hordered hset).get?_eq_map
    ((fillAliases_shape _ _).2.2 hset)
  refine ⟨?_, fun other hother => ?_, hkept⟩
  · rw [Entry.withComponent, hread, hcanonical, Option.map_some]
  · rw [← hother]
    exact hread other

theorem writes_vanishing {old : Tensor} (hordered : symmetry.Ordered) (hfull : old.Full)
    (hfixed : old.fillAliases symmetry = old) (hindex : (old.get? index).isSome)
    (hsign : (symmetry.canonicalize index).1 = .zero) (x : Expr) :
    Writes symmetry old index x old := by
  have hbalanced : old.Balanced symmetry := hfixed ▸ balanced_fillAliases hordered hfull
  refine ⟨?_, fun other hother => ?_, fun _ _ => rfl⟩
  · rw [hbalanced index (Tensor.mem_indices_of_isSome hindex), Tensor.alias?, if_pos hsign, hsign]
    rfl
  · rw [← hother]
    exact hbalanced.get?_eq_map hfull other

theorem withComponent_of_misfit (hfull : old.value.Full)
    (hfixed : old.value.fillAliases old.symmetry = old.value) (hindex : old.value.get? index = none)
    (x : Expr) : old.withComponent index x = old.value := by
  have hmisfit : index ∉ indices old.value.rank old.value.dimension := by
    intro h
    have hsome := Tensor.isSome_get? hfull h
    rw [hindex] at hsome
    cases hsome
  rw [Entry.withComponent, set_of_not_mem (mt Tensor.mem_indices_of_canonicalize hmisfit), hfixed]

theorem filterMap_number? {indices : List Index} (h : indices.map Index.value = index.map .fixed) :
    indices.filterMap Index.number? = index:= by
  have hnumber : Index.number? = (fun v => Index.number? ⟨v, .upper⟩) ∘ Index.value := rfl
  rw [hnumber, ← filterMap_map, h, filterMap_map]
  exact filterMap_some

section

variable {e : Equation} (h : e.target.indices.map Index.value = index.map .fixed)
  (hpos : 0 < index.length)
include h hpos

theorem isComponent_of_fixed : e.IsComponent := by
  have hlength : e.target.indices.length = index.length := by simpa using congrArg List.length h
  refine ⟨countP_eq_zero.mpr fun i hi => ?_, hpos.trans_eq hlength.symm⟩
  obtain ⟨n, -, hn⟩ := mem_map.mp (h ▸ mem_map_of_mem hi)
  simp [Index.name?, ← hn]

/-- What a successful equation for one component leaves, in terms of what its right-hand side
leaves. -/
theorem define_component_eq_ok (hok : ((define e).run s).1 = .ok ()) :
    ∃ old v w, s.table.get? e.target.name = some old ∧
      (closedValue e.value).run s = (.ok v, w) ∧
      ((old.symmetry.canonicalize index).1 = .zero ∧ v.isZero ∧ ((define e).run s).2 = w ∨
        (old.symmetry.canonicalize index).1 ≠ .zero ∧ ((define e).run s).2 =
          { w with table := w.table.setValue old.name (old.withComponent index v) }) := by
  have hdefine : define e = defineComponent e.target e.value e.span := by
    rw [define]
    exact if_pos (isComponent_of_fixed h hpos)
  rw [hdefine] at hok ⊢
  obtain ⟨old, g, free, u, v, w, hold, hexpand, -, hvalue, hresult⟩ :=
    defineComponent_eq_ok (Prod.ext hok rfl)
  rw [filterMap_number? h] at hresult
  refine ⟨old, v, w, hold, ?_, hresult⟩
  rw [closedValue, run_bind, hexpand]
  exact hvalue

end

/-- An equation for one component that succeeds stores the value of its right-hand side, if the
index fits the tensor, and nothing if it does not. All components with the same canonical one
follow from it, and all others stay as they were. The value that is read back has gone through its
sign twice. This leaves it as it is if its negative can be built in range and no product in it has
two factors of one base. Where the component vanishes, the right-hand side must not have
replaced the tensor. -/
theorem component_equation_reads_back (config : Config) (calls : List Call) (e : Equation)
    (index : IndexVector) (hindex : e.target.indices.map Index.value = index.map .fixed)
    (hpos : 0 < index.length) :
    let s := (Session.new config).after calls
    let t := ((define e).run s).2
    ((define e).run s).1 = .ok () →
    ∃ old v w, s.table.get? e.target.name = some old ∧ (closedValue e.value).run s = (.ok v, w) ∧
      (∀ other, other ≠ e.target.name → t.table.get? other = w.table.get? other) ∧
      let sign := (old.symmetry.canonicalize index).1
      (old.value.fillAliases old.symmetry = old.value →
        (sign = .zero → (w.table.get? e.target.name).map (·.value) = some old.value) →
        ∃ new, t.table.get? e.target.name = some new ∧
          ((old.value.get? index).isSome → Writes old.symmetry old.value index v new.value ∧
            ((sign = .minus → v.Reversible) → new.value.get? index = some v)) ∧
          (old.value.get? index = none → new.value = old.value)) := by
  intro s t hok
  have hs : s.Sane := .after config calls
  obtain ⟨old, v, w, hold, hvalue, hresult⟩ := define_component_eq_ok hindex hpos hok
  have hkey : old.name = e.target.name := hs.within.wellFormed.key hold
  have hordered := (hs.within.wellFormed.proper hold).ordered
  have hfull : old.value.Full := full_after config calls _ _ hold
  refine ⟨old, v, w, hold, hvalue, fun other hother => ?_, fun hfixed hcurrent => ?_⟩
  · rcases hresult with ⟨-, -, ht⟩ | ⟨-, ht⟩
    · rw [show t = w from ht]
    · rw [show t = _ from ht, Table.get?_setValue, if_neg (hkey ▸ hother.symm)]
  · -- the sign is applied on the way in and on the way out
    have hread (new : Tensor) (h : Writes old.symmetry old.value index v new)
        (hzero : (old.symmetry.canonicalize index).1 = .zero → v.isZero)
        (hminus : (old.symmetry.canonicalize index).1 = .minus → v.Reversible) :
        new.get? index = some v := by
      rw [h.written, Sign.apply_apply hzero hminus]
    rcases hresult with ⟨hsign, hzero, ht⟩ | ⟨hsign, ht⟩
    · obtain ⟨new, hnew, hsame⟩ := Option.map_eq_some_iff.mp (hcurrent hsign)
      refine ⟨new, by rw [show t = w from ht, hnew], fun hfits => ?_, fun _ => hsame⟩
      have hwrites := writes_vanishing hordered hfull hfixed hfits hsign v
      rw [hsame]
      exact ⟨hwrites, hread _ hwrites fun _ => hzero⟩
    · have hknown : (w.table.get? e.target.name).isSome := by
        have hreach := reach_closedValue hs.within e.value
        rw [hvalue] at hreach
        exact isSome_of_reach hreach (by rw [hold]; rfl)
      obtain ⟨current, hcurrent⟩ := Option.isSome_iff_exists.mp hknown
      have hnew : t.table.get? e.target.name = some
          { current with value := old.withComponent index v, id := w.table.lastId + 1 } := by
        rw [show t = _ from ht, Table.get?_setValue, if_pos hkey, hkey, hcurrent, Option.map_some]
      refine ⟨_, hnew, fun hfits => ?_, fun h => withComponent_of_misfit hfull hfixed h v⟩
      have hwrites := writes_withComponent hordered hfull hfixed hfits hsign v
      exact ⟨hwrites, hread _ hwrites fun hzero => absurd hzero hsign⟩

set_option maxRecDepth 100000 in
theorem component_equation_reads_back_antisymmetric :
    let calls : List Call := [.document "% def anti01 FDD (2)"]
    let s := (Session.new {}).after calls
    let e : Equation :=
      ⟨.ofBase "F" [.fixed 1 .lower, .fixed 0 .lower] .none, .sym "y", .none⟩
    e.target.indices.map Index.value = [1, 0].map .fixed ∧ ((define e).run s).1 = .ok () ∧
      ∃ old new, s.table.get? "FDD" = some old ∧
        old.symmetry.canonicalize [1, 0] = (.minus, [0, 1]) ∧
        ((define e).run s).2.table.get? "FDD" = some new ∧
        Writes old.symmetry old.value [1, 0] (.sym "y") new.value ∧
        new.value.get? [1, 0] = some (.sym "y") := by
  intro calls s e
  have hindex : e.target.indices.map Index.value = [1, 0].map .fixed := rfl
  have hok : ((define e).run s).1.toOption = some () := by decide +kernel
  have hentry : (s.table.get? "FDD").map (fun old => (old.symmetry, old.value)) =
      some (.pairs [⟨0, 1, true⟩], .symbolic "FDD" 2 2 (.pairs [⟨0, 1, true⟩]) .auto) := by
    dsimp only [s, calls]
    cbv
  have hvalue : ((closedValue e.value).run s).1.toOption = some (.sym "y") := by decide +kernel
  have hreversible : (Expr.sym "y").Reversible := by
    have hgroups : Expr.baseGroups [.num (-1), .sym "y"] = [(.sym "y", [.one])] := by cbv
    refine ⟨.sym "y", ?_, fun fs hfs => by cases List.mem_singleton.mp hfs⟩
    apply Expr.Exact.node (by decide_cbv) _ (by decide_cbv) (by cbv) (by cbv)
    rw [hgroups, List.forall_mem_singleton]
    exact .plain (by cbv)
  refine ⟨hindex, eq_ok_of_toOption hok, ?_⟩
  obtain ⟨old, v, w, hold, hrun, -, hwritten⟩ := component_equation_reads_back {} calls e [1, 0]
    hindex (by decide) (eq_ok_of_toOption hok)
  rw [show s.table.get? "FDD" = some old from hold, Option.map_some, Option.some_inj,
    Prod.mk_inj] at hentry
  obtain ⟨hsymmetry, hsymbolic⟩ := hentry
  have hcanonical : old.symmetry.canonicalize [1, 0] = (.minus, [0, 1]) := by
    rw [hsymmetry]
    decide
  have hfixed : old.value.fillAliases old.symmetry = old.value := by
    rw [hsymbolic, hsymmetry]
    exact (Tensor.balanced_symbolic (by simp [Symmetry.Ordered, Symmetry.slotPairs]) _ _ _ _).fillAliases
  have hfits : (old.value.get? [1, 0]).isSome := by
    rw [hsymbolic]
    rfl
  obtain rfl : v = .sym "y" := by
    rw [show (closedValue e.value).run s = _ from hrun] at hvalue
    exact Option.some.inj hvalue
  obtain ⟨new, hnew, hread, -⟩ := hwritten hfixed (by rw [hcanonical]; rintro ⟨⟩)
  obtain ⟨hwrites, hread⟩ := hread hfits
  exact ⟨old, new, hold, hcanonical, hnew, hwrites, hread fun _ => hreversible⟩

/-- The equation succeeds after the document, and the component it names is not part of the value,
which stays as it was. -/
def LeavesUnset (before equation name : String) (index : IndexVector) : Prop :=
  let s := (Session.new {}).after [.document before]
  let t := (s.parse equation).2
  (s.parse equation).1.toOption.isSome ∧
    (∀ old ∈ s.table.get? name, old.value.fillAliases old.symmetry = old.value) ∧
    (t.table.get? name).map (·.value) = (s.table.get? name).map (·.value) ∧
    (t.table.get? name).map (·.value.get? index) = some none

set_option maxRecDepth 100000 in
/-- An equation for one component may succeed without storing anything. In the first session the
name of the tensor has one height more than the equation has indices, in the second one the range
of the tensor has grown and its value has not. -/
theorem component_equations_without_effect :
    LeavesUnset "% def gUU (2)" "\\mathrm\x7bgU\x7d^0 = 5" "gUU" [0] ∧
      LeavesUnset "% def x_dD (2)\n\\mathrm\x7bx_d\x7d_0 = \\partial_0 x"
        "\\mathrm\x7bx_d\x7d_2 = 5" "x_dD" [2] := by
  unfold LeavesUnset
  decide +kernel

end Session

end TensorCalculus
