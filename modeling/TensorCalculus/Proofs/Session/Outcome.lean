import TensorCalculus.Proofs.Formula.Renaming
import TensorCalculus.Proofs.Session.Coherence
import TensorCalculus.Proofs.Session.Conduct

/-! Expanding derivatives keeps the index discipline. Whichever way a derivative is removed, the
free indices stay, and each dummy that is drawn on the way is a new name. -/
namespace TensorCalculus

open List Formula Formula

variable {kind : DerivativeKind} {i : Index} {span : Span} {operand g : Formula} {metric : Metric}
  {r t : TensorRef} {name : String} {s : Session} {taken : List String}

namespace Session

section Run

variable {taken'' : List String} {t : Session}

theorem run_expansion_bind_eq_ok {x : ExpansionM α} {f : α → ExpansionM β} {b : β}
    (h : ((x >>= f).run taken).run s = (.ok (b, taken''), t)) :
    ∃ a taken' u, (x.run taken).run s = (.ok (a, taken'), u) ∧
      ((f a).run taken').run u = (.ok (b, taken''), t) := by
  rw [StateT.run_bind] at h
  obtain ⟨⟨a, taken'⟩, u, hx, hf⟩ := run_bind_eq_ok h
  exact ⟨a, taken', u, hx, hf⟩

theorem run_expansion_lift_eq_ok {x : SessionM α} {a : α}
    (h : ((liftM x : ExpansionM α).run taken).run s = (.ok (a, taken''), t)) :
    x.run s = (.ok a, t) ∧ taken = taken'' := by
  obtain ⟨b, u, hx, hreturn⟩ := run_bind_eq_ok h
  cases hreturn
  exact ⟨hx, rfl⟩

theorem keepable?_eq_some (h : s.keepable? operand = some r) :
    operand = .tensor r ∧ (∃ e, s.table.get? r.name = some e ∧ e.rank = r.rank ∧ 0 < e.rank) ∧
      (r.indices.filterMap Index.name?).length = r.rank ∧
      (r.indices.filterMap Index.name?).Nodup := by
  unfold keepable? at h
  split at h
  · next t =>
    obtain ⟨e, he, hif⟩ := Option.bind_eq_some_iff.mp h
    dsimp only at hif
    split at hif
    · next hcond =>
      cases hif
      exact ⟨rfl, ⟨e, he, hcond.1, hcond.2.1⟩, hcond.2.2.1, hcond.2.2.2⟩
    · cases hif
  · cases h

theorem lowerDerivative_eq_ok
    (h : ((lowerDerivative kind i span operand).run taken).run s = (.ok (g, taken''), t)) :
    (kind = .partialDerivative ∧ g = .derivative .partialDerivative i operand none span ∧
      taken'' = taken ∧ t = s) ∨
    (∃ mark r name u, kind = .covariant mark ∧ (ensureConnection mark span).run s = (.ok (), u) ∧
      u.keepable? operand = some r ∧ (covariantTensor r mark span).run u = (.ok name, t) ∧
      g = .tensor (.ofName name (r.indices ++ [i]) span) ∧ taken'' = taken) ∨
    (∃ mark, kind = .covariant mark ∧ (ensureConnection mark span).run s = (.ok (), t) ∧
      t.keepable? operand = none ∧ g = (operand.covariantStep mark i taken).1 ∧
      taken'' = (operand.covariantStep mark i taken).2 :: taken) := by
  cases kind with
  | partialDerivative =>
    cases h
    exact .inl ⟨rfl, rfl, rfl, rfl⟩
  | covariant mark =>
    refine .inr ?_
    unfold lowerDerivative at h
    dsimp only at h
    obtain ⟨_, _, u, hlift, h⟩ := run_expansion_bind_eq_ok h
    obtain ⟨hensure, rfl⟩ := run_expansion_lift_eq_ok hlift
    obtain ⟨u', _, _, hget, h⟩ := run_expansion_bind_eq_ok h
    cases hget
    cases hkeepable : u.keepable? operand with
    | some r =>
      rw [hkeepable] at h
      obtain ⟨name, _, _, hlift, h⟩ := run_expansion_bind_eq_ok h
      obtain ⟨htensor, rfl⟩ := run_expansion_lift_eq_ok hlift
      cases h
      exact .inl ⟨mark, r, name, u, rfl, hensure, hkeepable, htensor, rfl, rfl⟩
    | none =>
      rw [hkeepable] at h
      cases h
      exact .inr ⟨mark, rfl, hensure, hkeepable, rfl, rfl⟩

theorem contractedDerivative_eq_ok
    (h : ((contractedDerivative kind i span metric operand).run taken).run s =
      (.ok (g, taken''), t)) :
    let dummy := freshName (taken ++ operand.indexNames ++ i.name?.toList)
    ∃ lowered, g = .product [.tensor (.ofBase metric.base [i, .upper dummy] span), lowered] ∧
      ((lowerDerivative kind (.lower dummy) span operand).run (dummy :: taken)).run s =
        (.ok (lowered, taken''), t) := by
  unfold contractedDerivative at h
  obtain ⟨_, _, _, hget, h⟩ := run_expansion_bind_eq_ok h
  cases hget
  obtain ⟨_, _, _, hmodify, h⟩ := run_expansion_bind_eq_ok h
  cases hmodify
  obtain ⟨lowered, _, _, hlower, h⟩ := run_expansion_bind_eq_ok h
  cases h
  exact ⟨lowered, rfl, hlower⟩

theorem upperDerivative_eq_ok
    (h : ((upperDerivative kind i span operand).run taken).run s = (.ok (g, taken''), t)) :
    (∃ metric u, ((contractedDerivative kind i span metric operand).run taken).run u =
      (.ok (g, taken''), t) ∧ ∀ mark, kind = .covariant mark →
        (ensureConnection mark span).run s = (.ok (), u) ∧ u.keepable? operand = none) ∨
    (∃ mark metric r lower name u v, kind = .covariant mark ∧ s.metrics mark = some metric ∧
      (ensureConnection mark span).run s = (.ok (), u) ∧ u.keepable? operand = some r ∧
      (covariantTensor r mark span).run u = (.ok lower, v) ∧
      (raisedTensor lower metric.base span).run v = (.ok name, t) ∧
      g = .tensor (.ofName name (r.indices ++ [i]) span) ∧ taken'' = taken) := by
  unfold upperDerivative at h
  obtain ⟨_, _, _, hget, h⟩ := run_expansion_bind_eq_ok h
  cases hget
  cases hmetric : s.metrics kind.mark with
  | none =>
    rw [hmetric] at h
    cases h
  | some metric =>
    rw [hmetric] at h
    cases kind with
    | partialDerivative => exact .inl ⟨metric, s, h, nofun⟩
    | covariant mark =>
      dsimp only at h
      obtain ⟨_, _, u, hlift, h⟩ := run_expansion_bind_eq_ok h
      obtain ⟨hensure, rfl⟩ := run_expansion_lift_eq_ok hlift
      obtain ⟨_, _, _, hget, h⟩ := run_expansion_bind_eq_ok h
      cases hget
      cases hkeepable : u.keepable? operand with
      | some r =>
        rw [hkeepable] at h
        obtain ⟨lower, _, v, hlift, h⟩ := run_expansion_bind_eq_ok h
        obtain ⟨htensor, rfl⟩ := run_expansion_lift_eq_ok hlift
        obtain ⟨name, _, _, hlift, h⟩ := run_expansion_bind_eq_ok h
        obtain ⟨hraised, rfl⟩ := run_expansion_lift_eq_ok hlift
        cases h
        exact .inr ⟨mark, metric, r, lower, name, u, v, rfl, hmetric, hensure, hkeepable, htensor,
          hraised, rfl, rfl⟩
      | none =>
        rw [hkeepable] at h
        refine .inl ⟨metric, u, h, ?_⟩
        rintro _ ⟨⟩
        exact ⟨hensure, hkeepable⟩

end Run

/-- The names that are taken later are those taken before and the different new ones drawn. -/
structure Draws (taken taken' drawn : List String) : Prop where
  state : taken' = drawn ++ taken
  nodup : drawn.Nodup
  fresh : ∀ x ∈ drawn, x ∉ taken

namespace Draws

theorem none (taken : List String) : Draws taken taken [] :=
  ⟨rfl, .nil, nofun⟩

theorem one (h : name ∉ taken) : Draws taken (name :: taken) [name] :=
  ⟨rfl, nodup_singleton name, fun _ hx => mem_singleton.mp hx ▸ h⟩

theorem trans {taken' taken'' drawn drawn' : List String} (h : Draws taken taken' drawn)
    (h' : Draws taken' taken'' drawn') : Draws taken taken'' (drawn' ++ drawn) where
  state := by rw [h'.state, h.state, append_assoc]
  nodup := by
    refine h'.nodup.append h.nodup fun x hx' hx => h'.fresh x hx' ?_
    rw [h.state]
    exact mem_append_left _ hx
  fresh x hx := by
    rcases mem_append.mp hx with hx | hx
    · intro htaken
      refine h'.fresh x hx ?_
      rw [h.state]
      exact mem_append_right _ htaken
    · exact h.fresh x hx

end Draws

/-- Formula `f'` comes from `f` with its indices, where derivatives are removed and the names
`drawn` are used as dummies. -/
structure Lowers (taken taken' drawn : List String) (f f' : Formula) : Prop where
  draws : Draws taken taken' drawn
  lowered : f'.isLowered
  indices : f.Disciplined → f'.HasIndices f.freeNames
  names : ∀ x ∈ f'.indexNames, x ∈ f.indexNames ∨ x ∈ drawn

structure LowersAll (taken taken' drawn : List String) (fs fs' : List Formula) : Prop where
  draws : Draws taken taken' drawn
  lowered : allLowered fs'
  indices : Formula.AllDisciplined fs →
    Forall₂ (fun f f' => f'.HasIndices f.freeNames) fs fs'
  names : ∀ x ∈ indexNameLists fs', x ∈ indexNameLists fs ∨ x ∈ drawn

section Derivative

variable {taken' : List String} {t : Session} {dimension : Option Nat}

theorem namedIndices_subset (x : String × Height) (h : x ∈ namedIndices [i]) : i.name? = some x.1 := by
  simpa using mem_indexNames_of_namedIndices h

theorem nodup_map_fst_own (i : Index) : ((namedIndices [i]).map (·.1)).Nodup := by
  rw [map_fst_namedIndices]
  cases h : i.name? <;> simp [h]

theorem lowers_kept (h : t.keepable? operand = some r) (kind : DerivativeKind) (name : String)
    (taken : List String) :
    Lowers taken taken [] (.derivative kind i operand dimension span)
      (.tensor (.ofName name (r.indices ++ [i]) span)) := by
  obtain ⟨rfl, _, _, hnodup⟩ := keepable?_eq_some h
  have hfree : (tensor r).freeNames = namedIndices r.indices := by
    rw [freeNames, singles_of_nodup]
    rw [map_fst_namedIndices]
    exact hnodup
  have hkeys : namedIndices (TensorRef.ofName name (r.indices ++ [i]) span).indices =
      (tensor r).freeNames ++ namedIndices [i] := by
    rw [hfree]
    exact filterMap_append
  refine ⟨.none taken, rfl, fun hdisciplined => ⟨?_, fun key => ?_⟩, fun x hx => .inl ?_⟩
  · rw [Formula.Disciplined, hkeys]
    exact hdisciplined.2
  · rw [freeNames, hkeys]
    rfl
  · rw [indexNames, TensorRef.ofName, filterMap_append, mem_append] at hx
    rw [indexNames, mem_append, or_comm]
    refine hx.imp_right fun hx => ?_
    simpa [Option.mem_toList] using hx

section

variable (hoperand : operand.isLowered)
include hoperand

theorem lowerDerivative_lowers (hi : i.height = .lower)
    (h : ((lowerDerivative kind i span operand).run taken).run s = (.ok (g, taken'), t)) :
    ∃ drawn, Lowers taken taken' drawn (.derivative kind i operand dimension span) g := by
  rcases lowerDerivative_eq_ok h with ⟨_, rfl, rfl, _⟩ | ⟨mark, r, name, u, _, _, hr, _, rfl, rfl⟩ |
    ⟨mark, _, _, _, rfl, rfl⟩
  · refine ⟨[], .none _, ?_, fun hd => ⟨hd, fun key => Iff.rfl⟩, fun x hx => .inl hx⟩
    simp [isLowered, hi, hoperand]
  · exact ⟨[], lowers_kept hr kind name _⟩
  · refine ⟨_, .one ?_, isLowered_covariantStep hoperand,
      fun hd => covariantStep_hasIndices hd.1 hi hd.2 taken, fun x hx => ?_⟩
    · have hfresh := freshName_not_mem (taken ++ operand.indexNames ++ i.name?.toList)
      simp only [mem_append, not_or] at hfresh
      exact hfresh.1.1
    · rw [indexNames, mem_append, Option.mem_toList, mem_singleton]
      rcases mem_indexNames_covariantStep hx with hx | hx | hx
      · exact .inr hx
      · exact .inl (.inr hx)
      · exact .inl (.inl hx)

theorem contractedDerivative_lowers
    (h : ((contractedDerivative kind i span metric operand).run taken).run s =
      (.ok (g, taken'), t)) :
    ∃ drawn, Lowers taken taken' drawn (.derivative kind i operand dimension span) g := by
  obtain ⟨lowered, rfl, hlower⟩ := contractedDerivative_eq_ok h
  have hfresh := freshName_not_mem (taken ++ operand.indexNames ++ i.name?.toList)
  generalize freshName (taken ++ operand.indexNames ++ i.name?.toList) = dummy at hfresh hlower ⊢
  simp only [mem_append, Option.mem_toList, not_or] at hfresh
  obtain ⟨⟨htaken, hnames⟩, hindex⟩ := hfresh
  obtain ⟨drawn, hlowers⟩ : ∃ drawn, Lowers _ taken' drawn
      (.derivative kind (.lower dummy) operand dimension span) lowered :=
    lowerDerivative_lowers hoperand rfl hlower
  have hmetric : namedIndices [i, .upper dummy] = namedIndices [i] ++ [(dummy, .upper)] :=
    namedIndices_append [i] [.upper dummy]
  refine ⟨drawn ++ [dummy], (Draws.one htaken).trans hlowers.draws, ?_, fun hd => ?_, ?_⟩
  · simp [isLowered, allLowered, hlowers.lowered]
  · have hdummy : ∀ key ∈ operand.freeNames ++ namedIndices [i], key.1 ≠ dummy := by
      rw [forall_mem_append]
      constructor
      · rintro key hkey rfl
        exact hnames (mem_indexNames_of_freeNames hkey)
      · rintro key hkey rfl
        exact hindex (namedIndices_subset key hkey)
    have hnodup : (operand.freeNames ++ namedIndices [.lower dummy]).Nodup := by
      refine nodup_append'.mpr ⟨nodup_freeNames _, nodup_singleton _, ?_⟩
      intro key hkey hkey'
      have := mem_singleton.mp hkey'
      exact hdummy key (mem_append_left _ hkey) (by rw [this])
    obtain ⟨hdisciplined, hfree⟩ := hlowers.indices ⟨hd.1, hnodup⟩
    obtain ⟨htensor, hproduct, hmem⟩ := singles_raising (nodup_map_fst_freeNames operand)
      (nodup_map_fst_own i) hd.2 hdummy (nodup_freeNames lowered) hfree
    refine ⟨⟨⟨?_, hdisciplined, trivial⟩, ?_⟩, ?_⟩
    all_goals simp only [Formula.Disciplined, freeNames, freeNameLists,
      TensorRef.ofBase, hmetric, append_nil]
    · exact htensor
    · exact hproduct
    · exact hmem
  · intro x hx
    simp only [indexNames, indexNameLists, TensorRef.ofBase, append_nil,
      mem_append] at hx ⊢
    rcases hx with hx | hx
    · rw [← map_fst_namedIndices, hmetric, map_append, map_fst_namedIndices, mem_append] at hx
      rcases hx with hx | hx
      · exact .inl (.inl (by simpa [Option.mem_toList] using hx))
      · exact .inr (.inr hx)
    · rcases hlowers.names x hx with hx | hx
      · rw [indexNames, mem_append] at hx
        rcases hx with hx | hx
        · exact .inr (.inr hx)
        · exact .inl (.inr hx)
      · exact .inr (.inl hx)

theorem upperDerivative_lowers
    (h : ((upperDerivative kind i span operand).run taken).run s = (.ok (g, taken'), t)) :
    ∃ drawn, Lowers taken taken' drawn (.derivative kind i operand dimension span) g := by
  rcases upperDerivative_eq_ok h with
    ⟨metric, u, h, _⟩ | ⟨_, _, r, _, name, u, _, _, _, _, hr, _, _, rfl, rfl⟩
  · exact contractedDerivative_lowers hoperand h
  · exact ⟨[], lowers_kept hr kind name _⟩

end

end Derivative

section Expand

variable {taken' : List String} {t : Session}

def Lowered (f : Formula) : Prop :=
  ∀ {taken taken' f' s t}, ((expand f).run taken).run s = (.ok (f', taken'), t) →
    ∃ drawn, Lowers taken taken' drawn f f'

theorem expandAll_lowers {fs fs' : List Formula} (ih : ∀ f ∈ fs, Lowered f)
    (h : ((expandAll fs).run taken).run s = (.ok (fs', taken'), t)) :
    ∃ drawn, LowersAll taken taken' drawn fs fs' := by
  induction fs generalizing taken s fs' with
  | nil =>
    cases h
    exact ⟨[], .none _, rfl, fun _ => .nil, nofun⟩
  | cons f fs ihs =>
    rw [forall_mem_cons] at ih
    obtain ⟨f', _, _, hhead, h⟩ := run_expansion_bind_eq_ok h
    obtain ⟨fs', _, _, htail, h⟩ := run_expansion_bind_eq_ok h
    cases h
    obtain ⟨drawn, hf⟩ := ih.1 hhead
    obtain ⟨drawn', hfs⟩ := ihs ih.2 htail
    refine ⟨drawn' ++ drawn, hf.draws.trans hfs.draws, ?_,
      fun hd => .cons (hf.indices hd.1) (hfs.indices hd.2), fun x hx => ?_⟩
    · rw [allLowered, hf.lowered, hfs.lowered]
      rfl
    · rw [indexNameLists, mem_append] at hx
      rw [indexNameLists, mem_append, mem_append]
      rcases hx with hx | hx
      · rcases hf.names x hx with hx | hx
        · exact .inl (.inl hx)
        · exact .inr (.inr hx)
      · rcases hfs.names x hx with hx | hx
        · exact .inl (.inr hx)
        · exact .inr (.inl hx)

theorem expand_lowers (f : Formula) : Lowered f := by
  induction f using induction with
  | num _ | sym _ =>
    intro taken taken' f' s t h
    cases h
    exact ⟨[], .none _, rfl, fun hd => ⟨hd, fun _ => Iff.rfl⟩, nofun⟩
  | tensor r =>
    intro taken taken' f' s t h
    cases h
    exact ⟨[], .none _, rfl, fun hd => ⟨hd, fun _ => Iff.rfl⟩, fun x hx => .inl hx⟩
  | derivative kind i operand dimension span ih =>
    intro taken taken' f' s t h
    obtain ⟨operand', between, _, hoperand, h⟩ := run_expansion_bind_eq_ok h
    obtain ⟨drawn, ho⟩ := ih hoperand
    have hstep : ∃ drawn',
        Lowers between taken' drawn' (.derivative kind i operand' dimension span) f' := by
      split at h
      · next hi => exact lowerDerivative_lowers ho.lowered hi h
      · exact upperDerivative_lowers ho.lowered h
    obtain ⟨drawn', hd⟩ := hstep
    refine ⟨drawn' ++ drawn, ho.draws.trans hd.draws, hd.lowered, fun hdisciplined => ?_,
      fun x hx => ?_⟩
    · have hindices := ho.indices hdisciplined.1
      obtain ⟨hnodup, hmem⟩ := hindices.append hdisciplined.2
      obtain ⟨hf', hfree⟩ := hd.indices ⟨hindices.disciplined, hnodup⟩
      exact ⟨hf', fun key => (hfree key).trans (hmem key)⟩
    · rw [mem_append]
      rcases hd.names x hx with hx | hx
      · rw [indexNames, mem_append] at hx
        rw [indexNames, mem_append]
        rcases hx with hx | hx
        · exact .inl (.inl hx)
        · rcases ho.names x hx with hx | hx
          · exact .inl (.inr hx)
          · exact .inr (.inr hx)
      · exact .inr (.inl hx)
  | sum ts ih =>
    intro taken taken' f' s t h
    obtain ⟨ts', _, _, hterms, h⟩ := run_expansion_bind_eq_ok h
    cases h
    obtain ⟨drawn, hts⟩ := expandAll_lowers ih hterms
    exact ⟨drawn, hts.draws, hts.lowered, fun hd => .sum (hts.indices hd.1) hd, hts.names⟩
  | product fs ih =>
    intro taken taken' f' s t h
    obtain ⟨fs', _, _, hfactors, h⟩ := run_expansion_bind_eq_ok h
    cases h
    obtain ⟨drawn, hfs⟩ := expandAll_lowers ih hfactors
    exact ⟨drawn, hfs.draws, hfs.lowered, fun hd => .product (hfs.indices hd.1) hd, hfs.names⟩
  | power b e hb he =>
    intro taken taken' f' s t h
    obtain ⟨b', _, _, hbase, h⟩ := run_expansion_bind_eq_ok h
    obtain ⟨e', _, _, hexponent, h⟩ := run_expansion_bind_eq_ok h
    cases h
    obtain ⟨drawn, hb⟩ := hb hbase
    obtain ⟨drawn', he⟩ := he hexponent
    refine ⟨drawn' ++ drawn, hb.draws.trans he.draws, ?_, fun hd => ⟨⟨?_, ?_⟩, fun _ => Iff.rfl⟩,
      fun x hx => ?_⟩
    · rw [isLowered, hb.lowered, he.lowered]
      rfl
    · exact (hb.indices hd.1.1).of_nil hd.1.2
    · exact (he.indices hd.2.1).of_nil hd.2.2
    · rw [indexNames, mem_append] at hx
      rw [indexNames, mem_append, mem_append]
      rcases hx with hx | hx
      · rcases hb.names x hx with hx | hx
        · exact .inl (.inl hx)
        · exact .inr (.inr hx)
      · rcases he.names x hx with hx | hx
        · exact .inl (.inr hx)
        · exact .inr (.inl hx)
  | fn g a ih =>
    intro taken taken' f' s t h
    obtain ⟨a', _, _, harg, h⟩ := run_expansion_bind_eq_ok h
    cases h
    obtain ⟨drawn, ha⟩ := ih harg
    exact ⟨drawn, ha.draws, ha.lowered,
      fun hd => ⟨(ha.indices hd.1).of_nil hd.2, fun _ => Iff.rfl⟩, ha.names⟩
  | contraction index dimension body ih =>
    intro taken taken' f' s t h
    obtain ⟨body', _, _, hbody, h⟩ := run_expansion_bind_eq_ok h
    cases h
    obtain ⟨drawn, hb⟩ := ih hbody
    refine ⟨drawn, hb.draws, hb.lowered, fun hd => ?_, fun x hx => ?_⟩
    · obtain ⟨hdisciplined, hfree⟩ := hb.indices hd
      refine ⟨hdisciplined, fun key => ?_⟩
      rw [freeNames, freeNames, mem_filter, mem_filter, hfree]
    · rw [indexNames, mem_cons] at hx
      rw [indexNames, mem_cons]
      rcases hx with hx | hx
      · exact .inl (.inl hx)
      · exact (hb.names x hx).imp_left .inr

end Expand

/-- Where a formula resolves and its derivatives can be expanded, no covariant derivative and none
by an upper index is left, and the free indices are the same as before. The dummies are different
names that were not taken, and they are the only new names. The result resolves with the same
free indices, unless two ranges differ. -/
theorem expand_keeps_discipline {s s' : Session} {dims : Dimensions} {f g f' : Formula}
    {free : List Occurrence} {taken taken' : List String}
    (hresolved : f.resolved dims = .ok (g, free)) (htaken : ∀ x ∈ f.indexNames, x ∈ taken)
    (hexpand : ((expand f).run taken).run s = (.ok (f', taken'), s')) :
    f'.isLowered ∧
    (∀ key, key ∈ f'.freeNames ↔ key ∈ free.map Occurrence.key) ∧
    (∃ drawn, taken' = drawn ++ taken ∧ drawn.Nodup ∧ (∀ x ∈ drawn, x ∉ taken) ∧
      ∀ x ∈ f'.indexNames, x ∈ drawn ↔ x ∉ f.indexNames) ∧
    ∀ dims',
      (∃ g' free', f'.resolved dims' = .ok (g', free') ∧
        ∀ key, key ∈ free'.map Occurrence.key ↔ key ∈ free.map Occurrence.key) ∨
      ∃ e, f'.resolved dims' = .error e ∧ e.cause.isDimensions := by
  obtain ⟨drawn, hlowers⟩ := expand_lowers f hexpand
  have hsettles := f.resolved_settles dims
  rw [hresolved] at hsettles
  obtain ⟨hdisciplined, hfree⟩ := hsettles
  obtain ⟨hdisciplined', hfree'⟩ := hlowers.indices hdisciplined
  have hkeys (key : String × Height) : key ∈ f'.freeNames ↔ key ∈ free.map Occurrence.key := by
    rw [hfree', hfree]
  refine ⟨hlowers.lowered, hkeys, ⟨drawn, hlowers.draws.state, hlowers.draws.nodup,
    hlowers.draws.fresh, fun x hx => ⟨fun hdrawn hold => ?_, fun hnew => ?_⟩⟩, fun dims' => ?_⟩
  · exact hlowers.draws.fresh x hdrawn (htaken x hold)
  · exact (hlowers.names x hx).resolve_left hnew
  · have hsettles := f'.resolved_settles dims'
    cases hresult : f'.resolved dims' with
    | ok r =>
      rw [hresult] at hsettles
      refine .inl ⟨r.1, r.2, rfl, fun key => ?_⟩
      rw [hsettles.2, hkeys]
    | error e =>
      rw [hresult] at hsettles
      exact .inr ⟨e, rfl, hsettles.resolve_right (not_not_intro hdisciplined')⟩

theorem expand_keeps_discipline_divergence :
    let v : Formula := .tensor (.ofBase "v" [.lower "a"] .none)
    let w : Formula := .tensor (.ofBase "w" [.upper "b"] .none)
    let f : Formula := .derivative (.covariant .none) (.upper "a") (.product [v, w]) none .none
    let metric : Metric := ⟨"g", 2, 0⟩
    let s := ((Session.new {}).setMetric .none metric).insert
      (connectionEntry .none metric (.zeros 3 2))
    ∃ f' taken' s', (f.resolved s.dimensions).toOption.map (·.2.map Occurrence.key) =
        some [("b", .upper)] ∧
      ((expand f).run ["a", "b"]).run s = (.ok (f', taken'), s') ∧ taken' = ["d", "c", "a", "b"] ∧
      f'.isLowered ∧ ∀ key, key ∈ f'.freeNames ↔ key = ("b", .upper) := by
  intro v w f metric s
  have hfree : (f.resolved s.dimensions).toOption.map (·.2.map Occurrence.key) =
      some [("b", .upper)] := by
    dsimp only [f, v, w, s, metric]
    decide +kernel
  have hstate : (((expand f).run ["a", "b"]).run s).1.toOption.map (·.2) =
      some ["d", "c", "a", "b"] := by
    dsimp only [f, v, w, s, metric]
    decide +kernel
  obtain ⟨⟨g, free⟩, hresolved, hkeys⟩ := Option.map_eq_some_iff.mp hfree
  obtain ⟨⟨f', taken'⟩, hrun, htaken⟩ := Option.map_eq_some_iff.mp hstate
  have hexpand : ((expand f).run ["a", "b"]).run s =
      (.ok (f', taken'), (((expand f).run ["a", "b"]).run s).2) :=
    Prod.ext (eq_ok_of_toOption hrun) rfl
  have hnames : ∀ x ∈ f.indexNames, x ∈ ["a", "b"] := by decide
  obtain ⟨hlowered, hmem, _⟩ :=
    expand_keeps_discipline (eq_ok_of_toOption hresolved) hnames hexpand
  refine ⟨f', taken', _, hfree, hexpand, htaken, hlowered, fun key => ?_⟩
  rw [hmem, hkeys, List.mem_singleton]

end Session

theorem IndexRole.ofTerm_of_nodup {occurrences : List Occurrence}
    (h : (occurrences.map (·.name)).Nodup) :
    IndexRole.ofTerm occurrences = .ok (occurrences.map .free) := by
  induction occurrences with
  | nil =>
    rw [ofTerm]
    rfl
  | cons o rest ih =>
    rw [map_cons, nodup_cons] at h
    have hne : ∀ o' ∈ rest, o'.name ≠ o.name := fun o' ho' heq =>
      h.1 (heq ▸ mem_map_of_mem ho')
    have hsame : rest.filter (·.name == o.name) = [] :=
      filter_eq_nil_iff.mpr fun o' ho' => by simpa using hne o' ho'
    have hothers : rest.filter (·.name != o.name) = rest :=
      filter_eq_self.mpr fun o' ho' => by simpa using hne o' ho'
    rw [ofTerm, hsame, hothers, ih h.2]
    rfl

theorem Formula.resolved_tensor {dims : Dimensions} {t : TensorRef}
    (h : (t.indices.filterMap Index.name?).Nodup) :
    (tensor t).resolved dims = .ok (tensor t, tensorOccurrences dims t) := by
  have hnames : ((tensorOccurrences dims t).map (·.name)).Nodup := by
    rw [map_name_tensorOccurrences]
    exact h
  have hfree (occurrences : List Occurrence) :
      (occurrences.map IndexRole.free).filterMap IndexRole.free? = occurrences := by
    rw [filterMap_map]
    exact filterMap_some
  have hbound (occurrences : List Occurrence) :
      (occurrences.map IndexRole.free).filterMap IndexRole.bound? = [] := by
    rw [filterMap_map]
    exact filterMap_none ..
  have hrun : (contract dims (tensor t) (tensorOccurrences dims t)).run 0 = _ :=
    run_contract (IndexRole.ofTerm_of_nodup hnames) ..
  rw [hbound, hfree] at hrun
  rw [resolved, resolve, StateT.run'_eq, hrun]
  rfl

namespace Session

theorem keepable?_of_known {e : Entry} (h : s.table.get? t.name = some e) (hrank : e.rank = t.rank)
    (hpos : 0 < e.rank) (hnamed : (t.indices.filterMap Index.name?).length = t.rank)
    (hnodup : (t.indices.filterMap Index.name?).Nodup) : s.keepable? (.tensor t) = some t := by
  simp only [keepable?, h]
  exact if_pos ⟨hrank, hpos, hnamed, hnodup⟩

section Expansion

variable (s : Session)

theorem run_resolve (f : Formula) : (resolve f).run s = (f.resolved s.dimensions, s) := by
  unfold resolve
  rw [run_bind, run_get]
  exact run_lift _ _

variable (taken : List String)

theorem run_expandAndResolve (f : Formula) :
    (expandAndResolve taken f).run s =
      match ((expand f).run (taken ++ f.indexNames)).run s with
      | (.ok (g, _), u) => (resolve g).run u
      | (.error fault, u) => (.error fault, u) := by
  have hrun : ((expand f).run' (taken ++ f.indexNames) : SessionM Formula) =
      (expand f).run (taken ++ f.indexNames) >>= fun p => pure p.1 := by
    rw [StateT.run'_eq, map_eq_pure_bind]
  unfold expandAndResolve
  rw [hrun, run_bind, run_bind]
  rcases ((expand f).run (taken ++ f.indexNames)).run s with ⟨_ | _, _⟩
  · rfl
  · rfl

variable (mark : Diacritic)

theorem run_liftM_bind {α : Type} (x : SessionM α) (f : α → ExpansionM Formula) (s : Session) :
    (((liftM x : ExpansionM α) >>= f).run taken).run s =
      match x.run s with
      | (.ok a, u) => ((f a).run taken).run u
      | (.error fault, u) => (.error fault, u) := by
  have hrun : (liftM x : ExpansionM α).run taken = x >>= fun a => pure (a, taken) := rfl
  rw [StateT.run_bind, hrun, run_bind, run_bind]
  rcases x.run s with ⟨_ | _, _⟩
  · rfl
  · rfl

theorem run_lowerDerivative (i : Index) (span : Span) (operand : Formula) :
    ((lowerDerivative (.covariant mark) i span operand).run taken).run s =
      match (ensureConnection mark span).run s with
      | (.error fault, u) => (.error fault, u)
      | (.ok _, u) =>
        match u.keepable? operand with
        | some t =>
          match (covariantTensor t mark span).run u with
          | (.error fault, v) => (.error fault, v)
          | (.ok name, v) => (.ok (.tensor (.ofName name (t.indices ++ [i]) span), taken), v)
        | none =>
          let (f, dummy) := operand.covariantStep mark i taken
          (.ok (f, dummy :: taken), u) := by
  unfold lowerDerivative
  dsimp only
  rw [run_liftM_bind]
  rcases (ensureConnection mark span).run s with ⟨_ | _, u⟩
  · rfl
  have hget (f : Session → ExpansionM Formula) :
      ((getThe Session >>= f : ExpansionM Formula).run taken).run u = ((f u).run taken).run u := rfl
  dsimp only
  rw [hget]
  cases u.keepable? operand with
  | none => rfl
  | some t =>
    dsimp only
    rw [run_liftM_bind]
    rcases (covariantTensor t mark span).run u with ⟨_ | _, _⟩
    · rfl
    · rfl

theorem run_expand_covariant (hi : i.height = .lower) (span : Span) (t : TensorRef)
    (dimension : Option Nat) :
    ((expand (.derivative (.covariant mark) i (.tensor t) dimension span)).run taken).run s =
      ((lowerDerivative (.covariant mark) i span (.tensor t)).run taken).run s := by
  rw [expand, expand, hi, pure_bind]

end Expansion

end Session

/-! Values of formulas in a session, and evaluation that meets no number out of range. -/

variable {free : List Occurrence} {indices : List Index} {dims : Dimensions} {fs : List Formula}
  {ρ : Assignment} {f : Formula}

namespace Formula

open Occurrence

def summed (dims : Dimensions) (occurrences : List Occurrence) : List (String × Nat) :=
  (paired occurrences).map fun name => (name, (range? occurrences name).getD dims.default)

end Formula

namespace Session

/-- The value of a formula, with every evaluation begun in the session as it is. -/
def value (s : Session) (dims : Dimensions) (f : Formula) (ρ : Assignment) : Except Error Expr :=
  ((f.convention reading dims ρ).run s).1

def tensorValue (s : Session) (t : TensorRef) (ρ : Assignment) : Except Error Expr :=
  ((reading.componentAt ρ t).run s).1

/-- Where a component is raised from a sibling, the products and their sum stay in range. -/
def RaisesInRange (s : Session) (t : TensorHead) (index : IndexVector) : Prop :=
  ∀ sibling metric upper lower, s.sibling? t = some sibling → s.metrics .none = some metric →
    s.table.get? (metric.base ++ "UU") = some upper →
    s.table.get? (metric.base ++ "DD") = some lower → (∀ i ∈ index, i < sibling.dimension) →
      let slots := mismatches sibling.heights t.heights
      let factors := fun summed => raisingFactors upper.value lower.value sibling.value t.heights
        index slots summed index
      (∀ summed ∈ Layout.indices slots.length sibling.dimension,
        Expr.Exact (.product (factors summed))) ∧
      Expr.SumExact ((Layout.indices slots.length sibling.dimension).map fun summed =>
        .product (factors summed))

/-- A component is built in range, whether it is stored or raised from a sibling. -/
structure ComponentInRange (s : Session) (t : TensorHead) (index : IndexVector) (span : Span) :
    Prop where
  built : ∀ e, s.component t index span = .ok e → e.Built False
  raised : (∀ e, s.table.get? t.name = some e → e.rank ≠ index.length) → s.RaisesInRange t index

def derivativeValue (s : Session) (dims : Dimensions) (kind : DerivativeKind) (i : Index)
    (operand : Formula) (span : Span) (ρ : Assignment) : Except Error Expr :=
  let range := (operand.derivativeRange? dims).getD dims.default
  ((reading.derivativeAt ρ kind i (some range) span (operand.convention reading dims ρ)).run s).1

mutual

/-- Evaluation meets no number out of range: the values that it starts from are built in range,
and so is every sum, product and power that it forms. -/
def InRange (s : Session) (dims : Dimensions) (ρ : Assignment) : Formula → Prop
  | .num q => Number.inRange q
  | .sym name => (s.scalar name).1.Built False
  | .tensor t =>
    SumsInRange (summed dims (tensorOccurrences dims t)) (s.tensorValue t)
      (fun σ => ∀ index, σ.indexValues t.span t.indices = .ok index →
        s.ComponentInRange t.head index t.span) ρ
  | .derivative kind i operand _ span =>
    SumsInRange
      (summed dims (operand.freeOccurrences dims ++
        derivativeOccurrences (operand.derivativeRange? dims) i span))
      (s.derivativeValue dims kind i operand span)
      (fun σ => s.InRange dims σ operand ∧
        ∀ e, s.derivativeValue dims kind i operand span σ = .ok e → e.Built False) ρ
  | .sum ts => s.AllInRange dims ρ ts ∧ ∀ es, ts.mapM (s.value dims · ρ) = .ok es → Expr.SumExact es
  | .product fs =>
    SumsInRange (summed dims (freeOccurrenceLists dims fs))
      (fun σ => Expr.product <$> fs.mapM (s.value dims · σ))
      (fun σ => s.AllInRange dims σ fs ∧
        ∀ es, fs.mapM (s.value dims · σ) = .ok es → Expr.Exact (.product es)) ρ
  | .power b e => s.InRange dims ρ b ∧ s.InRange dims ρ e ∧
      ∀ b' e', s.value dims b ρ = .ok b' → s.value dims e ρ = .ok e' → Expr.Exact (.power b' e')
  | .fn _ a => s.InRange dims ρ a
  | .contraction index n body => (∀ v < n, s.InRange dims ((index, v) :: ρ) body) ∧
      ∀ es, ((List.range n).mapM fun v => s.value dims body ((index, v) :: ρ)) = .ok es →
        Expr.SumExact es

def AllInRange (s : Session) (dims : Dimensions) (ρ : Assignment) : List Formula → Prop
  | [] => True
  | f :: fs => s.InRange dims ρ f ∧ s.AllInRange dims ρ fs

end

theorem run_componentAt (s : Session) (t : TensorRef) (ρ : Assignment) :
    (reading.componentAt ρ t).run s = (do
      let index ← ρ.indexValues t.span t.indices
      s.component t.head index t.span, s) := by
  unfold Reading.componentAt
  rw [run_bind, run_lift]
  cases ρ.indexValues t.span t.indices with
  | error fault => rfl
  | ok index =>
    change ((get : SessionM Session) >>= fun u =>
      (liftM (u.component t.head index t.span) : SessionM Expr)).run s = _
    rw [run_bind, run_get]
    exact run_lift _ _

theorem tensorValue_eq (s : Session) (t : TensorRef) (ρ : Assignment) :
    s.tensorValue t ρ = (do
      let index ← ρ.indexValues t.span t.indices
      s.component t.head index t.span) := by
  rw [tensorValue, run_componentAt]

theorem allInRange_iff : s.AllInRange dims ρ fs ↔ ∀ f ∈ fs, s.InRange dims ρ f := by
  induction fs with
  | nil => simp [AllInRange]
  | cons f fs ih => rw [AllInRange, ih, List.forall_mem_cons]

end Session

/-! When two equations for one target come to the same: their right-hand sides have the same free
indices with the same ranges, and the same values wherever the target has a component. -/

namespace Occurrence

def ranged (o : Occurrence) : (String × Height) × Option Nat :=
  (o.key, o.dimension)

/-- The same indices with the same ranges, in whatever order. -/
def Alike (xs ys : List Occurrence) : Prop :=
  (xs.map ranged).Perm (ys.map ranged)

namespace Alike

theorem of_range {xs ys : List Occurrence} {range : Option Nat}
    (hkeys : (xs.map key).Perm (ys.map key)) (hx : ∀ o ∈ xs, o.dimension = range)
    (hy : ∀ o ∈ ys, o.dimension = range) : Alike xs ys := by
  have hranged {zs : List Occurrence} (h : ∀ o ∈ zs, o.dimension = range) :
      zs.map ranged = (zs.map key).map (·, range) := by
    rw [map_map]
    apply map_congr_left
    intro o ho
    exact congrArg (o.key, ·) (h o ho)
  rw [Alike, hranged hx, hranged hy]
  exact hkeys.map _

variable {xs ys : List Occurrence} (h : Alike xs ys)
include h

theorem symm : Alike ys xs :=
  List.Perm.symm h

theorem keys : (xs.map key).Perm (ys.map key) := by
  have hkeys (zs : List Occurrence) : zs.map key = (zs.map ranged).map (·.1) := by
    rw [map_map]
    rfl
  rw [hkeys, hkeys]
  exact h.map _

theorem dimensions : (xs.map (·.dimension)).Perm (ys.map (·.dimension)) := by
  have hdimensions (zs : List Occurrence) :
      zs.map (·.dimension) = (zs.map ranged).map (·.2) := by
    rw [map_map]
    rfl
  rw [hdimensions, hdimensions]
  exact h.map _

end Alike

end Occurrence

namespace Formula

mutual

/-- All derivatives are partial and by lower indices, as they are written. -/
def isDirect : Formula → Bool
  | num _ | sym _ | tensor _ => true
  | derivative kind i operand dimension _ =>
    kind = .partialDerivative && i.height = .lower && dimension.isNone && operand.isDirect
  | sum ts => allDirect ts
  | product fs => allDirect fs
  | power b e => b.isDirect && e.isDirect
  | fn _ a => a.isDirect
  | contraction _ _ body => body.isDirect

def allDirect : List Formula → Bool
  | [] => true
  | f :: fs => f.isDirect && allDirect fs

end

theorem allDirect_eq (fs : List Formula) : allDirect fs = fs.all isDirect := by
  induction fs with
  | nil => rfl
  | cons f fs ih => rw [allDirect, ih, all_cons]

end Formula

namespace Entry

theorem assemble_congr (target : Entry) {v v' : IndexVector → Except Error Expr}
    (h : ∀ index ∈ target.symmetry.distinctIndices target.rank target.dimension,
      (v index).toOption = (v' index).toOption) :
    (target.assemble v).toOption = (target.assemble v').toOption := by
  have hfold (indices : List IndexVector) (start : Tensor)
      (h : ∀ index ∈ indices, (v index).toOption = (v' index).toOption) :
      (indices.foldlM (fun (t : Tensor) index => do return t.set index (← v index)) start).toOption
        = (indices.foldlM (fun (t : Tensor) index => do
            return t.set index (← v' index)) start).toOption := by
    induction indices generalizing start with
    | nil => rfl
    | cons index indices ih =>
      rw [forall_mem_cons] at h
      rw [foldlM_cons, foldlM_cons]
      cases hv : v index with
      | ok e =>
        have hv' : v' index = .ok e := by
          rw [← toOption_eq_some, ← h.1, hv]
          rfl
        rw [hv']
        exact ih _ h.2
      | error fault =>
        cases hv' : v' index with
        | ok e =>
          rw [hv, hv'] at h
          cases h.1
        | error fault' => rfl
  have hstart := hfold _ (if target.rank = 0 then .scalar .zero
    else .zeros target.rank target.dimension) h
  have hmap {x x' : Except Error Tensor} (h : x.toOption = x'.toOption) :
      (x >>= fun value => pure (value.fillAliases target.symmetry)).toOption =
        (x' >>= fun value => pure (value.fillAliases target.symmetry)).toOption := by
    cases x with
    | ok value =>
      have hx' : x' = .ok value := by rw [← toOption_eq_some, ← h]; rfl
      rw [hx']
    | error fault =>
      cases x' with
      | ok value => cases h
      | error fault' => rfl
  exact hmap hstart

end Entry

namespace Session

open Occurrence

/-- Both runs fail, or both succeed and leave the same tensor under the name, apart from its
number. -/
def SameResult (name : String) (x y : Except Error Unit × Session) : Prop :=
  (x.1.toOption = none ∧ y.1.toOption = none) ∨
    (x.1 = .ok () ∧ y.1 = .ok () ∧ ∃ e e', x.2.table.get? name = some e ∧
      y.2.table.get? name = some e' ∧ e'.anonymous = e.anonymous)

theorem SameResult.bind {x : SessionM α} {y : SessionM β} {f : α → SessionM Unit}
    {g : β → SessionM Unit} {t u v : Session} {r : Except Error α} {r' : Except Error β}
    (hx : x.run s = (r, u)) (hy : y.run t = (r', v)) (hiff : (∃ a, r = .ok a) ↔ ∃ b, r' = .ok b)
    (h : ∀ a b, r = .ok a → r' = .ok b → SameResult name ((f a).run u) ((g b).run v)) :
    SameResult name ((x >>= f).run s) ((y >>= g).run t) := by
  rw [run_bind, run_bind, hx, hy]
  cases r with
  | ok a =>
    obtain ⟨b, rfl⟩ := hiff.mp ⟨a, rfl⟩
    exact h a b rfl rfl
  | error fault =>
    cases r' with
    | ok b =>
      obtain ⟨a, ha⟩ := hiff.mpr ⟨b, rfl⟩
      cases ha
    | error fault' => exact .inl ⟨rfl, rfl⟩

theorem expand_of_isDirect (h : f.isDirect) : expand f = pure f := by
  have hall {fs : List Formula} (ih : ∀ f ∈ fs, f.isDirect → expand f = pure f)
      (h : allDirect fs) : expandAll fs = pure fs := by
    induction fs with
    | nil => rfl
    | cons f fs ihs =>
      rw [forall_mem_cons] at ih
      rw [allDirect, Bool.and_eq_true] at h
      rw [expandAll, ih.1 h.1, pure_bind, ihs ih.2 h.2, pure_bind]
  induction f using induction with
  | num q => rfl
  | sym name => rfl
  | tensor t => rfl
  | derivative kind i operand dimension span ih =>
    simp only [isDirect, Bool.and_eq_true, decide_eq_true_eq, Option.isNone_iff_eq_none] at h
    obtain ⟨⟨⟨rfl, hheight⟩, rfl⟩, hoperand⟩ := h
    rw [expand, ih hoperand, pure_bind, hheight]
    rfl
  | sum ts ih | product ts ih => rw [expand, hall ih h, pure_bind]
  | power b e hb he =>
    rw [isDirect, Bool.and_eq_true] at h
    rw [expand, hb h.1, pure_bind, he h.2, pure_bind]
  | fn g a ih => rw [expand, ih h, pure_bind]
  | contraction index dimension body ih => rw [expand, ih h, pure_bind]

theorem run_expandAndResolve_of_isDirect (h : f.isDirect) (s : Session) (taken : List String) :
    (expandAndResolve taken f).run s = (f.resolved s.dimensions, s) := by
  rw [run_expandAndResolve, expand_of_isDirect h]
  exact run_resolve s f

/-- A class of sessions around `s` with its entries. -/
structure Keeps (s : Session) (K : Session → Prop) : Prop where
  start : K s
  entries : ∀ t, K t → ∀ {name e}, s.table.get? name = some e →
    ∃ e', t.table.get? name = some e' ∧ e'.anonymous = e.anonymous

namespace Yields

variable {K : Session → Prop}

theorem sumOverNames {body : Assignment → SessionM Expr} {body' : Assignment → Except Error Expr}
    (h : ∀ σ, Yields K (body σ) (body' σ)) (names : List (String × Nat)) (ρ : Assignment) :
    Yields K (sumOverNames names body ρ) (sumOverNames names body' ρ) := by
  induction names generalizing body body' with
  | nil => exact h ρ
  | cons p names ih => exact ih fun σ => .bind (.mapM fun v _ => h ((p.1, v) :: σ)) fun _ _ => .pure _

theorem conventionAll {v : Formula → Except Error Expr}
    (h : ∀ f ∈ fs, Yields K (f.convention reading dims ρ) (v f)) :
    Yields K (conventionAll reading dims ρ fs) (fs.mapM v) := by
  induction fs with
  | nil => exact .pure []
  | cons f fs ih =>
    rw [forall_mem_cons] at h
    rw [mapM_cons]
    exact .bind h.1 fun _ _ => .bind (ih h.2) fun _ _ => .pure _

end Yields

/-- The values of a formula, the same in all sessions of a class. -/
def HasValues (K : Session → Prop) (f : Formula) (v : Assignment → Except Error Expr) : Prop :=
  ∀ ρ, Yields K (evaluate ρ f) (v ρ)

section Congruence

variable {K : Session → Prop}

theorem HasValues.componentsOf_yields {f : Formula} {v : Assignment → Except Error Expr}
    (h : HasValues K f v) (target : Entry) (names : List String) :
    Yields K (componentsOf target names f) (target.assemble fun index => v (names.zip index)) :=
  .componentsOf fun index _ => h (names.zip index)

theorem checkFree_eq_ok {span : Span} :
    (∃ u, checkFree indices free span = .ok u) ↔
      ∀ k, k ∈ namedIndices indices ↔ k ∈ free.map key := by
  unfold checkFree
  rw [← sameMembers_iff]
  split
  · next h => exact ⟨fun _ => h, fun _ => ⟨(), rfl⟩⟩
  · next h =>
    refine ⟨?_, fun hsame => absurd hsame h⟩
    rintro ⟨u, ⟨⟩⟩

theorem checkDimensions_eq_ok {dimension : Nat} :
    (∃ u, checkDimensions dimension free = .ok u) ↔
      ∀ n, some n ∈ free.map (·.dimension) → n = dimension := by
  unfold checkDimensions
  induction free with
  | nil => exact ⟨fun _ n hn => absurd hn not_mem_nil, fun _ => ⟨(), rfl⟩⟩
  | cons o free ih =>
    rw [List.forM, map_cons]
    cases ho : o.dimension with
    | none => simpa using ih
    | some m =>
      dsimp only
      split
      · next hm =>
        subst hm
        simpa using ih
      · next hm =>
        constructor
        · rintro ⟨u, ⟨⟩⟩
        · intro h
          exact absurd (h m mem_cons_self) hm

theorem targetEntry_of_alike {target : TensorRef} {free' : List Occurrence} (h : Alike free free')
    (hcheck : ∃ u, checkDimensions (s.targetEntry target free).dimension free = .ok u) :
    s.targetEntry target free' = s.targetEntry target free ∧
      ∃ u, checkDimensions (s.targetEntry target free').dimension free' = .ok u := by
  have hfirst (zs : List Occurrence) (d : Nat) : zs.findSome? (·.dimension) = some d →
      some d ∈ zs.map (·.dimension) := by
    intro hd
    obtain ⟨o, ho, hdim⟩ := exists_of_findSome?_eq_some hd
    exact mem_map.mpr ⟨o, ho, hdim⟩
  have hnone (zs : List Occurrence) : zs.findSome? (·.dimension) = none →
      ∀ n, some n ∉ zs.map (·.dimension) := by
    intro hzs n hn
    obtain ⟨o, ho, hdim⟩ := mem_map.mp hn
    rw [findSome?_eq_none_iff] at hzs
    rw [hzs o ho] at hdim
    cases hdim
  have hmem := fun n => h.dimensions.mem_iff (a := some n)
  rw [checkDimensions_eq_ok] at hcheck
  have hdimension (existing : Option Entry)
      (hcheck : ∀ n, some n ∈ free.map (·.dimension) → n = s.targetDimension existing free) :
      s.targetDimension existing free' = s.targetDimension existing free := by
    have hinferred (hcheck : ∀ n, some n ∈ free.map (·.dimension) →
        n = (free.findSome? (·.dimension)).getD s.defaultDimension) :
        free'.findSome? (·.dimension) = free.findSome? (·.dimension) := by
      cases hd' : free'.findSome? (·.dimension) with
      | none =>
        cases hd : free.findSome? (·.dimension) with
        | none => rfl
        | some d => exact absurd ((hmem d).mp (hfirst _ d hd)) (hnone _ hd' d)
      | some d' =>
        have hd' := (hmem d').mpr (hfirst _ d' hd')
        cases hd : free.findSome? (·.dimension) with
        | none => exact absurd hd' (hnone _ hd d')
        | some d =>
          have := hcheck d' hd'
          rw [hd] at this
          exact congrArg some this
    unfold targetDimension at hcheck ⊢
    cases existing with
    | none => rw [hinferred hcheck]
    | some e =>
      dsimp only at hcheck ⊢
      split
      · rfl
      · next hrank =>
        rw [if_neg hrank] at hcheck
        rw [hinferred hcheck]
  have hentry : s.targetEntry target free' = s.targetEntry target free := by
    unfold targetEntry at hcheck ⊢
    dsimp only at hcheck ⊢
    rw [hdimension _ hcheck]
  refine ⟨hentry, ?_⟩
  rw [hentry, checkDimensions_eq_ok]
  intro n hn
  exact hcheck n ((hmem n).mpr hn)

def targetAssignments (s : Session) (target : TensorRef) (free : List Occurrence) :
    List Assignment :=
  let names := target.indices.filterMap Index.name?
  (Layout.indices names.length (s.targetEntry target free).dimension).map names.zip

/-- Formulas whose sums can be made explicit, with the same free indices and the same values where
the target has components. -/
structure Corresponds (s : Session) (K : Session → Prop) (target : TensorRef)
    (p p' : Formula × List Occurrence) : Prop where
  free : Alike p.2 p'.2
  values : ∃ v v', HasValues K p.1 v ∧ HasValues K p'.1 v' ∧
    ∀ ρ ∈ s.targetAssignments target p.2, (∀ x ∈ p.2.map (·.name), (ρ.lookup x).isSome) →
      (v ρ).toOption = (v' ρ).toOption

theorem exists_ok_congr {x y : Except Error α} (h : x.toOption = y.toOption) :
    (∃ a, x = .ok a) ↔ ∃ a, y = .ok a := by
  simp only [← toOption_eq_some, h]

theorem assignResolved_sameResult (hs : K s) {entry : Entry} {f f' : Formula} {span : Span}
    {v v' : Assignment → Except Error Expr} (hf : HasValues K f v) (hf' : HasValues K f' v')
    (hvalues : ∀ index ∈ Layout.indices entry.rank entry.dimension,
      let ρ := (indices.filterMap Index.name?).zip index
      (v ρ).toOption = (v' ρ).toOption) :
    SameResult entry.name ((assignResolved entry indices f span).run s)
      ((assignResolved entry indices f' span).run s) := by
  unfold assignResolved
  simp only [run_ite]
  split
  · exact .inl ⟨rfl, rfl⟩
  split
  · exact .inl ⟨rfl, rfl⟩
  obtain ⟨hvalue, -⟩ := hf.componentsOf_yields entry (indices.filterMap Index.name?) s hs
  obtain ⟨hvalue', -⟩ := hf'.componentsOf_yields entry (indices.filterMap Index.name?) s hs
  rcases hrun : (componentsOf entry (indices.filterMap Index.name?) f).run s with ⟨r, u⟩
  rcases hrun' : (componentsOf entry (indices.filterMap Index.name?) f').run s with ⟨r', u'⟩
  have hassemble := entry.assemble_congr fun index hindex =>
    hvalues index (mem_of_mem_filter hindex)
  rw [hrun] at hvalue
  rw [hrun'] at hvalue'
  rw [← hvalue, ← hvalue'] at hassemble
  refine .bind hrun hrun' (exists_ok_congr hassemble) fun value value' hr hr' => ?_
  subst hr hr'
  cases hassemble
  have hget (w : Session) : (w.insert { entry with value }).table.get? entry.name =
      some { entry with value, id := w.table.lastId + 1 } := by
    rw [insert, Table.get?_insert, if_pos rfl]
  exact .inr ⟨rfl, rfl, _, _, hget u, hget u', rfl⟩

variable (hK : Keeps s K) {target : TensorRef} {f' : Formula} (hf : f.isDirect) (hf' : f'.isDirect)
  (hresolved : (∃ p, f.resolved s.dimensions = .ok p) ↔ ∃ p, f'.resolved s.dimensions = .ok p)
  (hcorresponds : ∀ p p', f.resolved s.dimensions = .ok p → f'.resolved s.dimensions = .ok p' → s.Corresponds K target p p')
include hK hf hf' hresolved hcorresponds

theorem defineTensor_sameResult (hnamed : ∀ i ∈ target.indices, i.name?.isSome) :
    SameResult target.name ((defineTensor target f span).run s)
      ((defineTensor target f' span).run s) := by
  unfold defineTensor
  refine .bind (run_lift _ s) (run_lift _ s) Iff.rfl fun _ _ _ _ => ?_
  refine .bind (run_expandAndResolve_of_isDirect hf s _)
    (run_expandAndResolve_of_isDirect hf' s _) hresolved fun p p' hp hp' => ?_
  obtain ⟨hfree, v, v', hv, hv', hvalues⟩ := hcorresponds p p' hp hp'
  obtain ⟨g, free⟩ := p
  obtain ⟨g', free'⟩ := p'
  dsimp only at hfree hv hv' hvalues ⊢
  refine .bind (run_lift _ s) (run_lift _ s) ?_ fun _ _ hchecked _ => ?_
  · simp only [checkFree_eq_ok, hfree.keys.mem_iff]
  refine .bind (run_get s) (run_get s) Iff.rfl fun _ _ h h' => ?_
  cases h
  cases h'
  refine .bind (run_lift _ s) (run_lift _ s) ?_ fun _ _ hcheck _ => ?_
  · exact ⟨fun h => (targetEntry_of_alike hfree h).2, fun h => (targetEntry_of_alike hfree.symm h).2⟩
  obtain ⟨hentry, _⟩ := targetEntry_of_alike hfree ⟨_, hcheck⟩
  rw [hentry]
  change SameResult (s.targetEntry target free).name _ _
  refine assignResolved_sameResult hK.start hv hv' ?_
  intro index hindex
  have hrank : (s.targetEntry target free).rank =
      (target.indices.filterMap Index.name?).length := by
    rw [length_names hnamed, targetEntry, Entry.rank, length_map]
  rw [hrank] at hindex
  refine hvalues _ (mem_map_of_mem hindex) fun x hx => ?_
  exact isSome_lookup_zip (Layout.mem_indices.mp hindex).1.symm (names_of_checkFree hchecked hx)

theorem defineComponent_sameResult (hnamed : target.indices.filterMap Index.name? = []) :
    SameResult target.name ((defineComponent target f span).run s)
      ((defineComponent target f' span).run s) := by
  unfold defineComponent
  refine .bind (run_get s) (run_get s) Iff.rfl fun _ _ h h' => ?_
  cases h
  cases h'
  cases he : s.table.get? target.name with
  | none => exact .inl ⟨rfl, rfl⟩
  | some e =>
    simp only [run_ite]
    split
    · exact .inl ⟨rfl, rfl⟩
    refine .bind (run_expandAndResolve_of_isDirect hf s _)
      (run_expandAndResolve_of_isDirect hf' s _) hresolved fun p p' hp hp' => ?_
    obtain ⟨hfree, v, v', hv, hv', hvalues⟩ := hcorresponds p p' hp hp'
    obtain ⟨g, free⟩ := p
    obtain ⟨g', free'⟩ := p'
    dsimp only at hfree hv hv' hvalues ⊢
    refine .bind (run_lift _ s) (run_lift _ s) ?_ fun _ _ hchecked _ => ?_
    · simp only [checkFree_eq_ok, hfree.keys.mem_iff]
    have heq : (v []).toOption = (v' []).toOption := by
      apply hvalues
      · rw [targetAssignments, hnamed]
        exact mem_singleton_self _
      · intro x hx
        have hmem := names_of_checkFree hchecked hx
        rw [hnamed] at hmem
        cases hmem
    obtain ⟨hvalue, hu⟩ := hv [] s hK.start
    obtain ⟨hvalue', hu'⟩ := hv' [] s hK.start
    rcases hrun : (evaluate [] g).run s with ⟨r, u⟩
    rcases hrun' : (evaluate [] g').run s with ⟨r', u'⟩
    rw [hrun] at hvalue hu
    rw [hrun'] at hvalue' hu'
    rw [← hvalue, ← hvalue'] at heq
    refine .bind hrun hrun' (exists_ok_congr heq) fun value value' hr hr' => ?_
    subst hr hr'
    cases heq
    obtain ⟨stored, hstored, hsame⟩ := hK.entries _ hu he
    obtain ⟨stored', hstored', hsame'⟩ := hK.entries _ hu' he
    simp only [run_ite]
    split
    · split
      · exact .inl ⟨rfl, rfl⟩
      · exact .inr ⟨rfl, rfl, _, _, hstored, hstored', hsame'.trans hsame.symm⟩
    · refine .inr ⟨rfl, rfl, ?_⟩
      rw [run_modify, run_modify]
      dsimp only
      rw [Table.get?_setValue, Table.get?_setValue]
      by_cases hname : e.name = target.name
      · rw [if_pos hname, if_pos hname, hname, hstored, hstored']
        refine ⟨_, _, rfl, rfl, ?_⟩
        rw [Entry.eq_of_anonymous hsame, Entry.eq_of_anonymous hsame']
        rfl
      · rw [if_neg hname, if_neg hname]
        exact ⟨_, _, hstored, hstored', hsame'.trans hsame.symm⟩

theorem define_sameResult :
    SameResult target.name ((define ⟨target, f, span⟩).run s) ((define ⟨target, f', span⟩).run s) := by
  unfold define
  simp only [run_ite]
  split
  · next hcount =>
    apply defineComponent_sameResult hK hf hf' hresolved hcorresponds
    rw [← length_eq_zero_iff, length_filterMap_eq_countP]
    exact hcount.1
  split
  · exact .inl ⟨rfl, rfl⟩
  · next hcount =>
    apply defineTensor_sameResult hK hf hf' hresolved hcorresponds
    exact countP_eq_length.mp (not_not.mp hcount)

end Congruence

end Session

end TensorCalculus
