import TensorCalculus.Proofs.Session.Raising
import TensorCalculus.Proofs.Session.TableInvariant

/-! Covariant derivatives that are kept in the table. Each of them goes back to a session in which
it was computed, and the numbers of entries tell that the tensor, the connection and the metric
have not changed since. Nothing tells whether the coordinates have. -/
namespace TensorCalculus

variable {mark : Diacritic} {name : String} {span : Span} {lower : Entry} {metricBase : String}
  {ref : TensorRef} {e x : Entry}

open Relation List Table

namespace CovariantName

variable {mark' : Diacritic}

theorem getLast? (h : CovariantName mark name) : name.toList.getLast? = some 'D' := by
  obtain ⟨stem, n, hname⟩ := h
  rw [hname, replicate_succ', ← append_assoc, getLast?_concat]

theorem unique (h : CovariantName mark name) (h' : CovariantName mark' name) : mark = mark' := by
  have hletter {mark : Diacritic} (h : CovariantName mark name) :
      (name.toList.reverse.dropWhile (· == 'D')).head? =
        (mark.suffix.toList.reverse ++ ['d']).head? := by
    obtain ⟨stem, n, hname⟩ := h
    rw [hname, reverse_append, reverse_replicate, dropWhile_append_of_pos (by simp)]
    cases mark <;> simp [covariantMark, Diacritic.suffix]
  have hsame := (hletter h).symm.trans (hletter h')
  cases mark <;> cases mark' <;> simp [Diacritic.suffix] at hsame ⊢

end CovariantName

theorem not_spelling_connectionName (mark : Diacritic) :
    ¬ CovariantSpelling mark.connectionName := by
  cases mark <;> decide

/-- Covariant derivatives that were stored on the way and are used again. -/
def Entry.Kept (e : Entry) : Prop :=
  e.source.isSome ∧ CovariantSpelling e.name

theorem Entry.not_kept (h : e.source = none) : ¬ e.Kept := by
  rintro ⟨hsource, _⟩
  rw [h] at hsource
  cases hsource

namespace Session

variable {p : String → Prop} {Q : Prop} {s t u : Session} {k : Entry}

theorem get?_insert_self (s : Session) (e : Entry) :
    (s.insert e).table.get? e.name = some { e with id := s.table.lastId + 1 } := by
  rw [Session.insert, get?_insert, if_pos rfl]

theorem source_of_insert (hsource : e.source = none) (hx : (s.insert e).table.get? name = some x) :
    x.source = none ∨ s.table.get? name = some x := by
  rw [Session.insert, get?_insert] at hx
  split at hx
  · cases hx
    exact .inl hsource
  · exact .inr hx

theorem source_of_evaluates (hu : u.table.Numbered) (h : Evaluates p u s) :
    u.table.Older s.table ∧ u.coordinates = s.coordinates ∧
      ∀ {name x}, s.table.get? name = some x → u.table.lastId < x.id → x.source = none := by
  induction h with
  | refl => exact ⟨.refl _, rfl, fun hx hid => absurd (hu.le_lastId hx) (by omega)⟩
  | tail _ h ih =>
    obtain ⟨holder, hcoordinates, hsource⟩ := ih
    cases h with
    | scalar | derivative =>
      exact ⟨holder.trans (renews_insert _ _ _).older, hcoordinates, fun hx hid =>
        (source_of_insert rfl hx).elim id fun hx => hsource hx hid⟩
    | computed h => exact h.elim

def Stored (x : SessionM Unit) (u : Session) (k : Entry) : Prop :=
  ∃ w, x.run u = (.ok (), w) ∧ w.table.get? k.name = some k

theorem hasValues_raisedFormula {q : Formula × List Occurrence}
    (h : (raisedFormula lower metricBase).resolved u.dimensions = .ok q) :
    HasValues (· = u) q.1 fun ρ => u.value u.dimensions (raisedFormula lower metricBase) ρ := by
  have hnames (k : Nat) : Formula.summationName k ∉ (raisedFormula lower metricBase).indexNames := by
    refine summationName_not_mem (fun x hx => ?_) k
    have hx : x ∈ ["_d", "_a"] ++ ((genericIndices lower.heights.dropLast ++
        [Index.lower "_a"]).filterMap Index.name? ++ []) := hx
    rw [append_nil, filterMap_append, filterMap_name?_genericIndices] at hx
    rcases mem_append.mp hx with hx | hx
    · rcases mem_pair.mp hx with rfl | rfl <;> rfl
    rcases mem_append.mp hx with hx | hx
    · obtain ⟨n, _, rfl⟩ := mem_map.mp hx
      rw [isReserved, toList_genericName]
      simp [Char.isDigit]
    · rw [mem_singleton.mp hx]
      rfl
  obtain ⟨⟨⟨g, free⟩, n⟩, hrun, hpair⟩ := Except.bind_eq_ok h
  cases hpair
  obtain ⟨hresolves, _⟩ := Formula.resolve_resolves _ hrun rfl hnames
  intro ρ
  rw [evaluate, hresolves.evaluate reading ρ]
  have hyields := product_yields u u.dimensions [.ofBase metricBase [.upper "_d", .upper "_a"] .none,
    .ofName lower.name (genericIndices lower.heights.dropLast ++ [.lower "_a"]) .none] ρ
  rw [← hyields.value_eq] at hyields
  exact hyields

theorem run_assignRaised {w : Session}
    (h : (assignRaised lower metricBase span).run u = (.ok (), w)) :
    ∃ value, w = u.insert { raisedTarget lower with value } := by
  unfold assignRaised assign at h
  obtain ⟨q, _, hresolved, h⟩ := run_bind_eq_ok h
  rw [run_resolve, Prod.mk.injEq] at hresolved
  obtain ⟨hresolved, rfl⟩ := hresolved
  obtain ⟨_, _, h⟩ := run_lift_bind_eq_ok h
  unfold assignResolved at h
  simp only [run_ite] at h
  split at h
  · cases h
  split at h
  · cases h
  obtain ⟨value, t, hrun, h⟩ := run_bind_eq_ok h
  cases h
  obtain ⟨_, hsame⟩ := (hasValues_raisedFormula hresolved).componentsOf_yields (raisedTarget lower)
    ((genericIndices lower.heights.dropLast ++ [Index.upper "_d"]).filterMap Index.name?) u rfl
  rw [hrun] at hsame
  exact ⟨value, congrArg (·.insert { raisedTarget lower with value }) hsame⟩

/-- A session in which a kept entry was computed, and what has stayed the same since. Under `Q`,
that includes the coordinates. -/
inductive Recorded (Q : Prop) (s : Session) (k : Entry) : Prop
  | covariant {u : Session} {e : Entry} {mark : Diacritic} {span : Span}
    (hnumbered : u.table.Numbered) (holder : u.table.Older s.table)
    (he : u.table.get? e.name = some e) (hid : u.table.lastId < k.id)
    (hbetween : ∀ {name x}, s.table.get? name = some x → u.table.lastId < x.id → x.id < k.id →
      x.source = none)
    (hcoordinates : Q → u.coordinates = s.coordinates) (hname : CovariantName mark k.name)
    (hsource : k.source = some e.id) (hstored : Stored (assignCovariant e mark span) u k) :
    Recorded Q s k
  | raised {u : Session} {lower : Entry} {mark : Diacritic} {metric : Metric} {span : Span}
    (hnumbered : u.table.Numbered) (holder : u.table.Older s.table)
    (hlower : u.table.get? lower.name = some lower) (hid : k.id = u.table.lastId + 1)
    (hmark : CovariantName mark lower.name) (hname : k.name = raisedName lower.name)
    (hmetric : ∀ m, s.metrics mark = some m → m = metric ∨ lower.id < m.generation)
    (hsource : k.source = some lower.id) (hstored : Stored (assignRaised lower metric.base span) u k) :
    Recorded Q s k

/-- A later session, in which a new metric has a new number. -/
structure Later (s t : Session) : Prop where
  older : s.table.Older t.table
  metrics : ∀ {mark m}, t.metrics mark = some m →
    s.metrics mark = some m ∨ s.table.lastId < m.generation

theorem Recorded.later (h : Recorded Q s k) (hk : k.id ≤ s.table.lastId) (hst : Later s t)
    (hcoordinates : Q → t.coordinates = s.coordinates) : Recorded Q t k := by
  cases h with
  | covariant hnumbered holder he hid hbetween hcoords hname hsource hstored =>
    refine .covariant hnumbered (holder.trans hst.older) he hid (fun hx hlow hhigh => ?_)
      (fun hQ => (hcoords hQ).trans (hcoordinates hQ).symm) hname hsource hstored
    exact hbetween (hst.older.get? hx (by omega)) hlow hhigh
  | raised hnumbered holder hlower hid hmark hname hmetric hsource hstored =>
    refine .raised hnumbered (holder.trans hst.older) hlower hid hmark hname (fun m hm => ?_) hsource
      hstored
    rcases hst.metrics hm with hold | hnew
    · exact hmetric m hold
    · have := hnumbered.le_lastId hlower
      omega

/-- All that is kept can be traced back, and connections are newer than their metrics. -/
structure Accounted (Q : Prop) (s : Session) : Prop where
  generations : ∀ {mark m}, s.metrics mark = some m → m.generation ≤ s.table.lastId
  connections : ∀ {mark : Diacritic} {c n}, s.table.get? mark.connectionName = some c →
    c.source = some n → n < c.id
  kept : ∀ {name k}, s.table.get? name = some k → k.Kept → Recorded Q s k

structure Admissible (Q : Prop) (s : Session) (name : String) (x : Entry) : Prop where
  connection : ∀ mark n, name = Diacritic.connectionName mark → x.source = some n → n < x.id
  kept : x.Kept → Recorded Q s x

theorem admissible_of_source (h : x.source = none) :
    Admissible Q s name x where
  connection _ _ _ hsource := by
    rw [h] at hsource
    cases hsource
  kept hkept := absurd hkept (Entry.not_kept h)

namespace Accounted

theorem later (hs : s.Accounted Q) (hst : Later s t)
    (hcoordinates : Q → t.coordinates = s.coordinates)
    (hgenerations : ∀ {mark m}, t.metrics mark = some m → m.generation ≤ t.table.lastId)
    (hnew : ∀ name x, t.table.get? name = some x → s.table.lastId < x.id → Admissible Q t name x) :
    t.Accounted Q where
  generations := hgenerations
  connections {mark c n} hc hsource := by
    by_cases hid : c.id ≤ s.table.lastId
    · exact hs.connections (hst.older.get? hc hid) hsource
    · exact (hnew _ c hc (by omega)).connection mark n rfl hsource
  kept {name x} hx hkept := by
    by_cases hid : x.id ≤ s.table.lastId
    · exact (hs.kept (hst.older.get? hx hid) hkept).later hid hst hcoordinates
    · exact (hnew _ x hx (by omega)).kept hkept

theorem later_insert (s : Session) (e : Entry) : Later s (s.insert e) :=
  ⟨(renews_insert _ _ _).older, .inl⟩

section

variable (hs : s.Accounted Q) (hnumbered : s.table.Numbered)
include hs hnumbered

theorem insert (hnew : Admissible Q (s.insert e) e.name { e with id := s.table.lastId + 1 }) :
    (s.insert e).Accounted Q := by
  refine hs.later (later_insert s e) (fun _ => rfl) (fun hm => ?_) fun name x hx hid => ?_
  · exact (hs.generations hm).trans (renews_insert _ _ _).older.lastId_le
  · rw [Session.insert, get?_insert] at hx
    split at hx
    · next hname =>
      cases hx
      rw [← hname]
      exact hnew
    · exact absurd (hnumbered.le_lastId hx) (by omega)

theorem setValue (value : Tensor) (hname : ∀ e, s.table.get? name = some e → ¬ e.Kept) :
    { s with table := s.table.setValue name value }.Accounted Q := by
  have hrenews := renews_setValue s.table name value
  refine hs.later ⟨hrenews.older, .inl⟩ (fun _ => rfl) (fun hm => ?_) fun other x hx hid => ?_
  · exact (hs.generations hm).trans hrenews.older.lastId_le
  · rw [get?_setValue] at hx
    split at hx
    · next hother =>
      obtain ⟨e, he, rfl⟩ := Option.map_eq_some_iff.mp hx
      refine ⟨fun mark n hconnection hsource => ?_, fun hkept => absurd hkept (hname e he)⟩
      rw [hother, hconnection] at he
      have hlt := hs.connections he hsource
      have hle := hnumbered.le_lastId he
      exact Nat.lt_succ_of_lt (hlt.trans_le hle)
    · exact absurd (hnumbered.le_lastId hx) (by omega)

theorem withMetric (base : String) (height : Height) (dimension : Nat) (value : Tensor) :
    (s.withMetric base height dimension value).Accounted Q := by
  refine hs.later ⟨?_, fun {mark m} hm => ?_⟩ (fun _ => rfl) (fun {mark m} hm => ?_)
    fun name x hx hid => ?_
  · exact ((renews_insert _ _ _).older.trans (renews_insert _ _ _).older).trans
      (renews_insert _ _ _).older
  · change (if mark = _ then some _ else s.metrics mark) = some m at hm
    split at hm
    · cases hm
      exact .inr (Nat.lt_succ_self _)
    · exact .inl hm
  · change (if mark = _ then some _ else s.metrics mark) = some m at hm
    change m.generation ≤ s.table.lastId + 1 + 1 + 1
    split at hm
    · cases hm
      change s.table.lastId + 1 ≤ _
      omega
    · have := hs.generations hm
      omega
  · apply admissible_of_source
    rcases source_of_insert rfl hx with h | hx
    · exact h
    rcases source_of_insert rfl hx with h | hx
    · exact h
    rcases source_of_insert rfl hx with h | hx
    · exact h
    exact absurd (hnumbered.le_lastId hx) (by omega)

end

theorem of_change (h : Change p (Auxiliary p) s t) (hs : s.Accounted Q) (hwithin : s.Within p) :
    t.Accounted Q := by
  have hnumbered := hwithin.numbered
  cases h with
  | scalar | derivative => exact hs.insert hnumbered (admissible_of_source rfl)
  | @computed k h =>
    have hself := get?_insert_self s k
    have holder : s.table.Older (s.insert k).table := (renews_insert _ _ _).older
    refine hs.insert hnumbered ?_
    cases h.traced with
    | connection hmetric hk =>
      subst hk
      refine ⟨fun mark n _ hsource => ?_, fun hkept => absurd hkept.2 (not_spelling_connectionName _)⟩
      cases hsource
      exact Nat.lt_succ_of_le (hs.generations hmetric)
    | @covariant u e mark span value hu hreach he hk hrun =>
      obtain ⟨hbefore, hcoordinates, hsource⟩ := source_of_evaluates hu.numbered hreach
      have hname : CovariantName mark k.name := by
        rw [hk]
        exact spelling_covariantName (hu.spelled he)
      refine ⟨fun mark n hconnection _ => ?_, fun _ => ?_⟩
      · exact absurd (hconnection ▸ hname.spelling) (not_spelling_connectionName mark)
      · refine .covariant hu.numbered (hbefore.trans holder) he
          (Nat.lt_succ_of_le hbefore.lastId_le) (fun hx hlow hhigh => ?_) (fun _ => hcoordinates)
          hname (by rw [hk]; rfl) ⟨_, hrun, hself⟩
        exact hsource (holder.get? hx (Nat.le_of_lt_succ hhigh)) hlow
    | @raised u lower mark metric span value hu hreach hlower hmark hmetric hk hrun =>
      obtain ⟨hbefore, _, _⟩ := source_of_evaluates hu.numbered hreach
      have hname : k.name = raisedName lower.name := by
        rw [hk]
        rfl
      have hlast : s.table.lastId + 1 = u.table.lastId + 1 := by
        obtain ⟨value, hvalue⟩ := run_assignRaised hrun
        exact congrArg (·.table.lastId) hvalue
      refine ⟨fun mark' n hconnection _ => ?_, fun _ => ?_⟩
      · have hspelling := hmark.spelling.raised
        rw [← hname, hconnection] at hspelling
        exact absurd hspelling (not_spelling_connectionName mark')
      · refine .raised hu.numbered (hbefore.trans holder) hlower hlast hmark hname (fun m hm => .inl ?_)
          (by rw [hk]; rfl) ⟨_, hrun, hself⟩
        have hm : s.metrics mark = some m := hm
        rw [metrics_of_reach hreach, hmetric] at hm
        exact (Option.some.inj hm).symm

theorem of_reach (h : Reach (fun _ => True) s t) (hs : s.Accounted Q) (hsane : s.Sane) :
    t.Accounted Q := by
  induction h with
  | refl => exact hs
  | tail hreach h ih => exact of_change h ih (Sane.of_reach hreach hsane).within

end Accounted

/-- No kept derivatives are evaluated or set component by component. -/
structure Step.LeavesKept (step : Step) : Prop where
  evaluated : ∀ name ∈ step.evaluated?, ∀ e ∈ step.start.table.get? name, ¬ e.Kept
  component : ∀ e ∈ step.equation?, e.IsComponent → step.outcome.1.isOk →
    ∀ new ∈ step.finish.table.get? e.target.name, ¬ new.Kept

/-- The coordinates stay, unless nothing is kept. -/
def Step.KeepsCoordinates (step : Step) : Prop :=
  step.finish.coordinates = step.start.coordinates ∨
    ∀ name e, step.finish.table.get? name = some e → ¬ e.Kept

namespace Accounted

variable {step : Step}

theorem of_eq_table (hs : s.Accounted Q) (hnumbered : s.table.Numbered)
    (htable : t.table = s.table) (hmetrics : t.metrics = s.metrics)
    (h : (Q → t.coordinates = s.coordinates) ∨ ∀ name e, t.table.get? name = some e → ¬ e.Kept) :
    t.Accounted Q where
  generations hm := by
    rw [hmetrics] at hm
    rw [htable]
    exact hs.generations hm
  connections hc hsource := by
    rw [htable] at hc
    exact hs.connections hc hsource
  kept {name k} hk hkept := by
    rcases h with hcoordinates | hnone
    · rw [htable] at hk
      refine (hs.kept hk hkept).later (hnumbered.le_lastId hk) ⟨?_, fun hm => .inl ?_⟩ hcoordinates
      · rw [htable]
        exact .refl _
      · rw [← hmetrics]
        exact hm
    · exact absurd hkept (hnone name k hk)

theorem of_effect (h : Effect step t) (ht : t = step.finish) (hleaves : step.LeavesKept)
    (hkeeps : Q → step.KeepsCoordinates) (hsane : step.start.Sane)
    (hs : step.start.Accounted Q) : t.Accounted Q := by
  have hcoordinates : (Q → step.finish.coordinates = step.start.coordinates) ∨
      ∀ name e, step.finish.table.get? name = some e → ¬ e.Kept := by
    by_cases hQ : Q
    · exact (hkeeps hQ).imp_left fun h _ => h
    · exact .inl fun h => absurd h hQ
  have hsame {s : Session} (htable : s.table = step.start.table)
      (hmetrics : s.metrics = step.start.metrics) : s.table.Numbered ∧
        { s with coordinates := step.start.coordinates }.Accounted Q :=
    ⟨htable ▸ hsane.within.numbered,
      hs.of_eq_table hsane.within.numbered htable hmetrics (.inl fun _ => rfl)⟩
  cases h with
  | @changes u t h hleads hsettings =>
    have hu := of_reach h hs hsane
    rw [← (sameSettings_of_reach h).coordinates, ← ht] at hcoordinates
    exact hu.of_eq_table (Sane.of_reach h hsane).within.numbered hsettings.table hsettings.metrics
      hcoordinates
  | @equation e u t he hok h hleads hstores =>
    have hu := of_reach h hs hsane
    have hnumbered := (Sane.of_reach h hsane).within.numbered
    cases hstores with
    | tensor hname horigin hsource hordered hfilled hsymmetry =>
      exact hu.insert hnumbered (admissible_of_source hsource)
    | @component old index x hcomponent hold hx =>
      have hkey : old.name = e.target.name := hsane.within.wellFormed.key hold
      refine hu.setValue hnumbered _ fun current hcurrent hkept => ?_
      refine hleaves.component e he hcomponent (by rw [hok]; rfl) { current with
        value := old.withComponent index x, id := u.table.lastId + 1 } ?_ hkept
      rw [← ht, Option.mem_def, get?_setValue, if_pos hkey, hcurrent]
      rfl
  | @declaration s e kept hsettings horigin hsource hordered hfault hkept hvalue =>
    obtain ⟨hnumbered, hstart⟩ := hsame hsettings.table hsettings.metrics
    rw [← ht] at hcoordinates
    exact (hstart.insert hnumbered (admissible_of_source hsource)).of_eq_table
      ((renews_insert _ _ _).numbered hnumbered) rfl rfl hcoordinates
  | @metric s name base height dimension value hdeclared hsettings hname hvalue =>
    obtain ⟨hnumbered, hstart⟩ := hsame hsettings.table hsettings.metrics
    rw [← ht] at hcoordinates
    have hfinish := (Sane.of_table hsane hsettings.table hsettings.config).withMetric base height dimension value
    exact (hstart.withMetric hnumbered base height dimension value).of_eq_table
      hfinish.within.numbered rfl rfl hcoordinates
  | @evaluation name e hevaluated h =>
    exact hs.setValue hsane.within.numbered _ fun e he => hleaves.evaluated name hevaluated e he

theorem new (config : Config) : (Session.new config).Accounted Q where
  generations h := by cases h
  connections h := by simp [Session.new, Table.get?] at h
  kept h := by simp [Session.new, Table.get?] at h

end Accounted

end Session

end TensorCalculus
