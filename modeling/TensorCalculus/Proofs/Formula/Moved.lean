import TensorCalculus.Proofs.Formula.Phrase
import TensorCalculus.Proofs.Formula.Places
import TensorCalculus.Proofs.Latex.Scan

/-! Formulas of a text that is moved: the parser finds the same formulas, with their places moved,
or fails for the same cause. All that it finds is what a source can contain. -/
namespace TensorCalculus

open Cursor List Grammar

variable {ts ts' : List Token} {start start' : Nat} {m : Move} {p : Passage} {c c' : Cursor}
  {g g' : Grammar} {document : List Char} {s : Segment}

structure IndexDerivative.Moves (m : Move) (floor : Nat) (d d' : IndexDerivative) : Prop where
  kind : d'.kind = d.kind
  index : d'.index = d.index
  span : Span.Moves m d.span d'.span
  after : floor ≤ d.span.stop
  written : d.index.Written

structure Script.Moves (m : Move) (floor : Nat) (s s' : Script) : Prop where
  indices : s'.indices = s.indices
  written : ∀ i ∈ s.indices, i.Written
  derivatives : Forall₂ (IndexDerivative.Moves m floor) s.derivatives s'.derivatives

namespace Script

variable {floor : Nat}

theorem Moves.append {a a' b b' : Script} (ha : Moves m floor a a') (hb : Moves m floor b b') :
    Moves m floor (a.append b) (a'.append b') where
  indices := by rw [Script.append, Script.append, ha.indices, hb.indices]
  written := forall_mem_append.mpr ⟨ha.written, hb.written⟩
  derivatives := rel_append ha.derivatives hb.derivatives

theorem Moves.isEmpty {s s' : Script} (h : Moves m floor s s') :
    s'.derivatives.isEmpty = s.derivatives.isEmpty := by
  obtain ⟨indices, derivatives⟩ := s
  obtain ⟨indices', derivatives'⟩ := s'
  obtain ⟨-, -, h⟩ := h
  cases h <;> rfl

theorem moves_empty : Moves m floor {} {} :=
  ⟨rfl, forall_mem_nil _, .nil⟩

theorem ofToken_moves {t t' : Token} (ht : Token.Moves m t t') (hfloor : floor ≤ t.span.start)
    (height : Height) (kind : Option DerivativeKind) :
    m.SameOutcome (Moves m floor) (ofToken height kind t) (ofToken height kind t') := by
  rw [ofToken, ofToken, ht.kind]
  cases hindices : indices? height t.kind with
  | none => exact .error _ ht.span.tracks
  | some indices =>
    have hwritten := written_of_indices? hindices
    refine .ok ?_
    cases kind with
    | none => exact ⟨rfl, hwritten, .nil⟩
    | some kind =>
      refine ⟨rfl, forall_mem_nil _, ?_⟩
      rw [ofIndices, ofIndices, forall₂_map_left_iff, forall₂_map_right_iff, forall₂_same]
      exact fun i hi => ⟨rfl, rfl, ht.span, Nat.le_trans hfloor ht.span.ordered, hwritten i hi⟩

theorem classifyGroup_moves (h : Forall₂ (Token.Moves m) ts ts') (named : Bool) :
    classifyGroup named ts' = classifyGroup named ts:= by
  induction h generalizing named with
  | nil => rfl
  | cons ht _ ih =>
    rw [classifyGroup, classifyGroup, ht.kind]
    simp only [ih]

theorem classify_moves (h : Forall₂ (Token.Moves m) ts ts') : classify ts' = classify ts := by
  cases h with
  | nil => rfl
  | cons ht hts =>
    rw [classify, classify, ht.kind]
    simp only [classifyGroup_moves hts]

theorem group_moves {c c' : Cursor} (hg : Grammar.Moves m p g g') (hc : Cursor.Moves m p c c')
    {opened opened' : Nat} (ho : m.Offset opened opened') (hfloor : floor ≤ opened)
    (hopened : opened ≤ c.last) (height : Height) (kind : Option DerivativeKind) :
    m.SameOutcome (m.Found p (Moves m floor)) (group g height opened kind c)
      (group g' height opened' kind c') := by
  rw [group, group]
  refine hc.next_elim (.error _ (.inl ⟨ho, hg.stop, Nat.le_trans hopened (hg.last_le hc)⟩))
    fun t c₁ h₁ t' c₁' h₁' _ hle _ ht hc₁ => ?_
  dsimp only
  have hopened₁ : opened ≤ c₁.last := Nat.le_trans hopened (hc.last_le hc₁ (Nat.le_of_lt h₁))
  have hmore (kind : Option DerivativeKind) {first first' : Script}
      (hfirst : Moves m floor first first') :
      m.SameOutcome (m.Found p (Moves m floor)) (do
        let r ← group g height opened kind c₁
        return (first.append r.1, (After.after h₁ r.2 : c.After)))
      (do
        let r ← group g' height opened' kind c₁'
        return (first'.append r.1, (After.after h₁' r.2 : c'.After))) :=
    (group_moves hg hc₁ ho hfloor hopened₁ height kind).bind fun r r' hr =>
      .ok ⟨hfirst.append hr.1, hr.2⟩
  rw [ht.kind]
  split
  · exact .ok ⟨moves_empty, hc₁⟩
  · exact hmore _ moves_empty
  · exact hmore _ moves_empty
  · have hfloor' : floor ≤ t.span.start := by omega
    exact (ofToken_moves ht hfloor' height kind).bind fun first first' hfirst => hmore kind hfirst
termination_by c.rest.length

theorem read_moves (hg : Grammar.Moves m p g g') (hc : Cursor.Moves m p c c')
    (hfloor : floor ≤ c.last) (height : Height) :
    m.SameOutcome (m.Found p (Moves m floor)) (read g height c) (read g' height c') := by
  rw [read, read]
  refine hc.next_elim (.error _ (hg.here hc).tracks) fun t c₁ h₁ t' c₁' h₁' _ hle hlast ht hc₁ => ?_
  have hfloor' : floor ≤ t.span.start := Nat.le_trans hfloor hle
  dsimp only
  rw [ht.kind]
  split
  · exact (group_moves hg hc₁ ht.span.start hfloor' (hlast ▸ ht.span.ordered) height none).bind
      fun r r' hr => .ok hr
  · exact (ofToken_moves ht hfloor' height none).bind fun s s' hs => .ok ⟨hs, hc₁⟩

theorem readAll_moves {c c' : Cursor} (hg : Grammar.Moves m p g g') (hc : Cursor.Moves m p c c')
    (hfloor : floor ≤ c.last) (isTensor : Bool) :
    m.SameOutcome (m.Found p (Moves m floor)) (readAll g isTensor c) (readAll g' isTensor c') := by
  rw [readAll, readAll]
  have hskip := hc.skipSeparator
  generalize c.skipSeparator = e at hskip
  generalize c'.skipSeparator = e' at hskip
  obtain ⟨c₁, h₁⟩ := e
  obtain ⟨c₁', h₁'⟩ := e'
  dsimp only at hskip ⊢
  have hfloor₁ : floor ≤ c₁.last := Nat.le_trans hfloor (hc.last_le hskip h₁)
  refine hskip.next_elim (.ok ⟨moves_empty, hskip⟩) fun t c₂ h₂ t' c₂' h₂' _ _ _ ht hc₂ => ?_
  dsimp only
  have hfloor₂ : floor ≤ c₂.last := Nat.le_trans hfloor₁ (hskip.last_le hc₂ (Nat.le_of_lt h₂))
  have hmore (height : Height) : m.SameOutcome (m.Found p (Moves m floor)) (do
      let r ← read g height c₂
      let r' ← readAll g isTensor r.2.val
      return (r.1.append r'.1,
        ((From.after h₁ (.after h₂ (.onward r.2.property r'.2))).toFrom : c.From)))
      (do
      let r ← read g' height c₂'
      let r' ← readAll g' isTensor r.2.val
      return (r.1.append r'.1,
        ((From.after h₁' (.after h₂' (.onward r.2.property r'.2))).toFrom : c'.From))) := by
    refine (read_moves hg hc₂ hfloor₂ height).bind fun r r' hr => ?_
    have h₃ : r.2.val.rest.length < c₂.rest.length := r.2.property
    have hfloor₃ : floor ≤ r.2.val.last := Nat.le_trans hfloor₂ (hc₂.last_le hr.2 (Nat.le_of_lt h₃))
    exact (readAll_moves hg hr.2 hfloor₃ isTensor).bind fun s s' hs =>
      .ok ⟨hr.1.append hs.1, hs.2⟩
  rw [ht.kind]
  split
  · exact hmore .lower
  · rw [classify_moves hc₂.rest]
    split
    · exact hmore .upper
    · exact .ok ⟨moves_empty, hskip⟩
  · exact .ok ⟨moves_empty, hskip⟩
termination_by c.rest.length

theorem readTarget_moves {c c' : Cursor} (hg : Grammar.Moves m p g g') (hc : Cursor.Moves m p c c') :
    m.SameOutcome (m.Found p fun is is' => is' = is) (readTarget g c) (readTarget g' c') := by
  rw [readTarget, readTarget]
  have hskip := hc.skipSeparator
  generalize c.skipSeparator = e at hskip
  generalize c'.skipSeparator = e' at hskip
  obtain ⟨c₁, h₁⟩ := e
  obtain ⟨c₁', h₁'⟩ := e'
  dsimp only at hskip ⊢
  refine hskip.next_elim (.ok ⟨rfl, hskip⟩) fun t c₂ h₂ t' c₂' h₂' _ _ _ ht hc₂ => ?_
  dsimp only
  rw [ht.kind]
  split
  case h_3 => exact .ok ⟨rfl, hskip⟩
  -- an index below and an index above are read in the same way
  all_goals
    refine (read_moves hg hc₂ (Nat.le_refl _) _).bind fun r r' hr => ?_
    obtain ⟨⟨indices, derivatives⟩, e⟩ := r
    obtain ⟨⟨indices', derivatives'⟩, e'⟩ := r'
    have h₃ : e.val.rest.length < c₂.rest.length := e.property
    obtain ⟨⟨hindices, -, hderivatives⟩, he⟩ := hr
    cases hderivatives with
    | cons hd _ => exact .error _ hd.span.tracks
    | nil =>
      refine (readTarget_moves hg he).bind fun s s' hs => .ok ⟨?_, hs.2⟩
      rw [hs.1]
      exact congrArg (· ++ s.1) hindices
termination_by c.rest.length

end Script

namespace Grammar

theorem accentedNabla?_moves (hc : Cursor.Moves m p c c') :
    accentedNabla? c = none ∧ accentedNabla? c' = none ∨
    ∃ d e e', accentedNabla? c = some (d, e) ∧ accentedNabla? c' = some (d, e') ∧
      Cursor.Moves m p e.val e'.val := by
  rw [accentedNabla?, accentedNabla?]
  refine hc.next_elim (.inl ⟨rfl, rfl⟩) fun t c₁ h₁ t' c₁' h₁' _ _ _ ht hc₁ => ?_
  simp only [Option.bind_eq_bind, Option.bind_some]
  rw [ht.kind]
  split
  · next name _ =>
    cases Diacritic.ofCommand? name with
    | none => exact .inl ⟨rfl, rfl⟩
    | some mark =>
      refine hc₁.accept_elim .openBrace ?_ fun s c₂ h₂ s' c₂' h₂' _ _ _ hc₂ => ?_
      · exact hc₁.accept_elim (.command "nabla") (.inl ⟨rfl, rfl⟩)
          fun _ e _ _ e' _ _ _ _ he => .inr ⟨_, _, _, rfl, rfl, he⟩
      · dsimp only [Option.bind_some]
        refine hc₂.accept_elim (.command "nabla") (.inl ⟨rfl, rfl⟩)
          fun _ c₃ h₃ _ c₃' h₃' _ _ _ hc₃ => ?_
        dsimp only [Option.bind_some]
        exact hc₃.accept_elim .closeBrace (.inl ⟨rfl, rfl⟩)
          fun _ e _ _ e' _ _ _ _ he => .inr ⟨_, _, _, rfl, rfl, he⟩
  · exact .inl ⟨rfl, rfl⟩

theorem bracedName_moves (hg : Grammar.Moves m p g g') (hc : Cursor.Moves m p c c') :
    m.SameOutcome (m.Found p fun s s' => s' = s) (g.bracedName c) (g'.bracedName c') := by
  refine (hg.expectAt hc .openBrace .openBrace).bind fun r r' hr => ?_
  obtain ⟨opened, ⟨c₁, h₁⟩⟩ := r
  obtain ⟨opened', ⟨c₁', h₁'⟩⟩ := r'
  obtain ⟨⟨hopened, hc₁⟩, hstop⟩ := hr
  dsimp only at hopened hc₁ hstop ⊢
  obtain ⟨hclose, hclose'⟩ | ⟨s, e, _, s', e', _, hclose, hclose', hle, hs, he⟩ :=
    hc₁.closeGroup?
  · rw [hclose, hclose']
    exact .error _ hg.stopSpan.tracks
  · rw [hclose, hclose']
    have hname : Span.Moves m ⟨opened.stop, s.start⟩ ⟨opened'.stop, s'.start⟩ :=
      ⟨hopened.stop, hs.start, hstop ▸ hle⟩
    have hbraces : Span.Moves m ⟨opened.start, s.stop⟩ ⟨opened'.start, s'.stop⟩ :=
      ⟨hopened.start, hs.stop, Nat.le_trans hopened.ordered (Nat.le_trans hname.ordered hs.ordered)⟩
    dsimp only
    rw [hg.spelledName hname]
    split
    · exact .error _ hbraces.tracks
    · exact .ok ⟨rfl, he⟩

theorem name?_moves {c c' : Cursor} (hg : Grammar.Moves m p g g') (hc : Cursor.Moves m p c c') :
    m.SameOutcome (Option.Rel (m.Found p fun s s' => s' = s)) (g.name? c) (g'.name? c') := by
  rw [name?, name?]
  have hnabla := accentedNabla?_moves hc
  refine hc.next_elim (.ok .none) fun t c₁ h₁ t' c₁' h₁' _ _ _ ht hc₁ => ?_
  dsimp only
  rw [ht.kind]
  split
  · exact .ok (.some ⟨rfl, hc₁⟩)
  · next name _ =>
    split
    · exact .ok (.some ⟨rfl, hc₁⟩)
    split
    · exact (bracedName_moves hg hc₁).bind fun r r' hr => .ok (.some hr)
    obtain ⟨hnone, hnone'⟩ | ⟨d, e, e', hsome, hsome', -⟩ := hnabla
    · rw [hnone, hnone']
      cases Diacritic.ofCommand? name with
      | none => exact .ok .none
      | some mark =>
        dsimp only
        refine hc₁.accept_elim .openBrace ?_ fun s c₂ h₂ s' c₂' h₂' _ _ _ hc₂ => ?_
        · refine (name?_moves hg hc₁).bind fun r r' hr => ?_
          cases hr with
          | none => exact .error _ (hg.here hc₁).tracks
          | some hr => exact .ok (.some ⟨congrArg (· ++ mark.suffix) hr.1, hr.2⟩)
        refine (name?_moves hg hc₂).bind fun r r' hr => ?_
        cases hr with
        | none => exact .error _ (hg.here hc₂).tracks
        | some hr =>
          exact (hg.expect hr.2 .closeBrace .closeBrace).bind fun q q' hq =>
            .ok (.some ⟨congrArg (· ++ mark.suffix) hr.1, hq.2⟩)
    · rw [hsome, hsome']
      cases Diacritic.ofCommand? name <;> exact .ok .none
  · exact .ok .none
termination_by c.rest.length

end Grammar

namespace Formula

variable {f f' : Formula}

abbrev Moves (m : Move) : Formula → Formula → Prop :=
  Matches (Span.Tracks m)

/-- The same formula, with its places moved, and one that a source can contain. -/
structure Reads (m : Move) (f f' : Formula) : Prop where
  moves : Moves m f f'
  written : f.Written

abbrev ReadAlike (m : Move) (p : Passage) {P P' : Cursor → Prop} :
    Except Error (Formula × Subtype P) → Except Error (Formula × Subtype P') → Prop :=
  m.SameOutcome (m.Found p (Reads m))

namespace Reads

variable {e e' : Formula} {fs fs' : List Formula}

theorem sym (name : String) : Reads m (.sym name) (.sym name) :=
  ⟨.sym name, trivial⟩

theorem num {q : Number} (h : q.Written) : Reads m (.num q) (.num q) :=
  ⟨.num q, h⟩

theorem power (hf : Reads m f f') (he : Reads m e e') : Reads m (.power f e) (.power f' e') :=
  ⟨.power hf.moves he.moves, hf.written, he.written⟩

theorem fn (g : Func) (hf : Reads m f f') : Reads m (.fn g f) (.fn g f') :=
  ⟨.fn g hf.moves, hf.written⟩

theorem negate (hf : Reads m f f') : Reads m f.negate f'.negate :=
  ⟨hf.moves.negate, written_negate hf.written⟩

theorem signed (negative : Bool) (hf : Reads m f f') :
    Reads m (signed negative f) (signed negative f') := by
  cases negative with
  | false => exact hf
  | true => exact hf.negate

theorem inverse (hf : Reads m f f') : Reads m (inverse f) (inverse f') :=
  hf.power (.num (written_integer (by decide)))

theorem rootExponent (hf : Reads m f f') : Reads m (rootExponent f) (rootExponent f') := by
  refine ⟨?_, written_rootExponent hf.written⟩
  have hinverse := hf.inverse.moves
  cases hf.moves with
  | num q =>
    rw [Formula.rootExponent]
    split
    · exact hinverse
    · exact .num _
  | _ => exact hinverse

theorem all (h : Forall₂ (Reads m) fs fs') : Forall₂ (Moves m) fs fs' ∧ AllWritten fs := by
  induction h with
  | nil => exact ⟨.nil, trivial⟩
  | cons h _ ih => exact ⟨.cons h.moves ih.1, h.written, ih.2⟩

theorem ofTerms (hf : Reads m f f') (h : Forall₂ (Reads m) fs fs') :
    Reads m (ofTerms (f :: fs)) (ofTerms (f' :: fs')) :=
  ⟨ofTerms_matches (.cons hf.moves (all h).1), written_ofTerms hf.written (all h).2⟩

theorem ofFactors (hf : Reads m f f') (h : Forall₂ (Reads m) fs fs') :
    Reads m (ofFactors (f :: fs)) (ofFactors (f' :: fs')) :=
  ⟨ofFactors_matches (.cons hf.moves (all h).1), written_ofFactors hf.written (all h).2⟩

theorem differentiated (hstart : m.Offset start start') {ds ds' : List IndexDerivative}
    (hds : Forall₂ (IndexDerivative.Moves m start) ds ds') (hf : Reads m f f') :
    Reads m (differentiated start f ds) (differentiated start' f' ds'):= by
  induction hds generalizing f f' with
  | nil => exact hf
  | @cons d d' ds ds' hd _ ih =>
    rw [Formula.differentiated, Formula.differentiated, foldl_cons, foldl_cons, hd.kind, hd.index]
    exact ih ⟨.derivative _ _ _ hf.moves (.inl ⟨hstart, hd.span.stop, hd.after⟩), hd.written,
      hf.written⟩

theorem operated (kind : DerivativeKind) {indices : List Index} (h : ∀ i ∈ indices, i.Written)
    {a b : Span} (hspan : Span.Moves m a b) (hf : Reads m f f') :
    Reads m (operated kind indices a f) (operated kind indices b f') := by
  induction indices with
  | nil => exact hf
  | cons i indices ih =>
    rw [forall_mem_cons] at h
    have hrest := ih h.2
    exact ⟨.derivative kind i none hrest.moves hspan.tracks, h.1, hrest.written⟩

end Reads

theorem numeral_moves (text : String) {a b : Span} (h : Span.Moves m a b) :
    m.SameOutcome (Reads m) (numeral text a) (numeral text b) := by
  rw [numeral, numeral]
  cases hnumber : number? text with
  | some q => exact .ok (.num (written_of_number? hnumber))
  | none => exact .error _ h.tracks

theorem leadingSign_moves (hc : Cursor.Moves m p c c') :
    m.Found p (fun s s' => s' = s) (leadingSign c) (leadingSign c') := by
  rw [leadingSign, leadingSign]
  refine hc.next_elim (⟨rfl, hc⟩) fun t c₁ h₁ t' c₁' h₁' _ _ _ ht hc₁ => ?_
  dsimp only
  rw [ht.kind]
  cases sign? t.kind with
  | some negative => exact ⟨rfl, hc₁⟩
  | none => exact ⟨rfl, hc⟩

theorem withScripts_moves (hg : Grammar.Moves m p g g') (hc : Cursor.Moves m p c c') (base : String)
    (hstart : m.Offset start start') (hle : start ≤ c.last) :
    ReadAlike m p (withScripts g base start c) (withScripts g' base start' c') := by
  rw [withScripts, withScripts, hg.isTensor]
  refine (Script.readAll_moves hg hc hle _).bindFound ?_
  rintro ⟨indices, derivatives⟩ c₁ h₁ ⟨indices', derivatives'⟩ c₁' h₁'
    ⟨hindices, hwritten, hderivatives⟩ hc₁
  obtain rfl : indices' = indices := hindices
  refine .ok ⟨.differentiated hstart hderivatives ?_, hc₁⟩
  dsimp only
  split
  · exact .sym base
  · next h =>
    refine ⟨.tensor _ (hc₁.spanFrom hstart (Nat.le_trans hle (hc.last_le hc₁ h₁))).tracks, ?_⟩
    exact ⟨by simpa [TensorRef.ofBase] using h, rfl, hwritten⟩

/-- The readers that call each other, for cursors with fewer tokens than a bound. -/
structure ReadsBelow (m : Move) (p : Passage) (g g' : Grammar) (n : Nat) : Prop where
  grammar : Grammar.Moves m p g g'
  expression : ∀ {c c' : Cursor}, c.rest.length < n → Cursor.Moves m p c c' →
    ReadAlike m p (expression g c) (expression g' c')
  primary : ∀ {c c' : Cursor}, c.rest.length < n → Cursor.Moves m p c c' →
    ReadAlike m p (primary g c) (primary g' c')
  atom : ∀ {c c' : Cursor}, c.rest.length < n → Cursor.Moves m p c c' →
    ReadAlike m p (atom g c) (atom g' c')

section Step

variable {n : Nat} (h : ReadsBelow m p g g' n)
include h

section

variable (hn : c.rest.length ≤ n) (hc : Cursor.Moves m p c c')
include hn hc

theorem group_moves : ReadAlike m p (group g c) (group g' c') := by
  rw [group, group]
  refine (h.grammar.expectAt hc .openBrace .openBrace).bind fun r r' hr => ?_
  obtain ⟨s, c₁, h₁⟩ := r
  obtain ⟨s', c₁', h₁'⟩ := r'
  obtain ⟨⟨hs, hc₁⟩, hstop⟩ := hr
  dsimp only at hs hc₁ hstop ⊢
  refine hc₁.accept_elim .closeBrace ?_ fun u c₂ h₂ u' c₂' h₂' hle _ hu _ => ?_
  · refine (h.expression (by omega) hc₁).bindFound fun f c₂ h₂ f' c₂' h₂' hf hc₂ => ?_
    exact (h.grammar.expect hc₂ .closeBrace .closeBrace).bind fun r r' hr => .ok ⟨hf, hr.2⟩
  have hordered : s.start ≤ u.stop :=
    Nat.le_trans hs.ordered (Nat.le_trans (hstop ▸ hle) hu.ordered)
  exact .error _ (.inl ⟨hs.start, hu.stop, hordered⟩)

theorem exponent_moves : ReadAlike m p (exponent g c) (exponent g' c') := by
  rw [exponent, exponent]
  refine hc.next_elim (.error _ (h.grammar.here hc).tracks)
    fun t c₁ h₁ t' c₁' h₁' _ _ _ ht hc₁ => ?_
  dsimp only
  rw [ht.kind]
  split
  · exact group_moves h (by omega) hc
  · exact (numeral_moves _ ht.span).bind fun f f' hf => .ok ⟨hf, hc₁⟩
  · exact .ok ⟨.sym _, hc₁⟩
  · split
    · exact .ok ⟨.sym _, hc₁⟩
    · exact .error _ ht.span.tracks
  · exact .error _ ht.span.tracks

theorem root_moves : ReadAlike m p (root g c) (root g' c') := by
  rw [root, root]
  refine hc.accept_elim .openBracket ?_ fun s c₁ h₁ s' c₁' h₁' _ _ _ hc₁ => ?_
  · have hhalf : (1 / 2 : Number).Written := ⟨by decide +kernel, by decide +kernel⟩
    exact (group_moves h (by omega) hc).bind fun r r' hr => .ok ⟨hr.1.power (.num hhalf), hr.2⟩
  refine (h.expression (by omega) hc₁).bindFound fun d c₂ h₂ d' c₂' h₂' hd hc₂ => ?_
  refine (h.grammar.expect hc₂ .closeBracket .closeBracket).bindFound fun _ c₃ h₃ _ c₃' h₃' _ hc₃ => ?_
  exact (group_moves h (by omega) hc₃).bind fun r r' hr => .ok ⟨hr.1.power hd.rootExponent, hr.2⟩

theorem delimited_moves {left left' : Span} (hleft : Span.Moves m left left') :
    ReadAlike m p (delimited g left c) (delimited g' left' c') := by
  rw [delimited, delimited]
  refine hc.next_elim (.error _ hleft.tracks) fun t c₁ h₁ t' c₁' h₁' _ _ _ ht hc₁ => ?_
  dsimp only
  rw [ht.kind]
  split
  · refine (h.expression (by omega) hc₁).bindFound fun f c₂ h₂ f' c₂' h₂' hf hc₂ => ?_
    refine (h.grammar.expect hc₂ (.command "right") .right).bindFound fun _ c₃ h₃ _ c₃' h₃' _ hc₃ => ?_
    dsimp only
    refine hc₃.next_elim (.error _ (h.grammar.here hc₃).tracks)
      fun u c₄ h₄ u' c₄' h₄' _ _ _ hu hc₄ => ?_
    dsimp only
    rw [hu.kind]
    split
    · exact .ok ⟨hf, hc₄⟩
    · exact .error _ (h.grammar.here hc₄).tracks
  · exact .error _ hleft.tracks

theorem operator_moves (kind : DerivativeKind) (hstart : m.Offset start start')
    (hbefore : start ≤ c.last) :
    ReadAlike m p (operator g kind start c) (operator g' kind start' c') := by
  rw [operator, operator]
  refine hc.next_elim (.error _ (hc.spanFrom hstart hbefore).tracks)
    fun t c₁ h₁ t' c₁' h₁' _ _ _ ht hc₁ => ?_
  have hbefore₁ : start ≤ c₁.last := Nat.le_trans hbefore (hc.last_le hc₁ (Nat.le_of_lt h₁))
  dsimp only
  rw [ht.kind]
  split
  case h_3 => exact .error _ (hc.spanFrom hstart hbefore).tracks
  all_goals
    refine (Script.read_moves h.grammar hc₁ hbefore₁ _).bindFound fun s c₂ h₂ s' c₂' h₂' hs hc₂ => ?_
    have hbefore₂ : start ≤ c₂.last := Nat.le_trans hbefore₁ (hc₁.last_le hc₂ (Nat.le_of_lt h₂))
    dsimp only
    rw [hs.indices, hs.isEmpty]
    split
    · exact .error _ (hc₂.spanFrom hstart hbefore₂).tracks
    · refine (h.primary (by omega) hc₂).bindFound fun f c₃ h₃ f' c₃' h₃' hf hc₃ => ?_
      have hbefore₃ : start ≤ c₃.last := Nat.le_trans hbefore₂ (hc₂.last_le hc₃ (Nat.le_of_lt h₃))
      exact .ok ⟨.operated kind hs.written (hc₃.spanFrom hstart hbefore₃) hf, hc₃⟩

theorem named_moves {t t' : Token} (ht : Token.Moves m t t') (hhere : g.here c = t.span) :
    ReadAlike m p (named g t c) (named g' t' c') := by
  rw [named, named]
  refine (name?_moves h.grammar hc).bind fun r r' hr => ?_
  cases hr with
  | none => exact .error _ ht.span.tracks
  | @some r r' hr =>
    obtain ⟨base, c₁, h₁⟩ := r
    obtain ⟨base', c₁', h₁'⟩ := r'
    obtain ⟨hbase, hc₁⟩ := hr
    cases hbase
    dsimp only at hc₁ ⊢
    have hscripts := withScripts_moves h.grammar hc₁ base ht.span.start (hhere ▸ h.grammar.here_le hc hc₁ h₁)
    refine hc₁.accept_elim .superscript (hscripts.bind fun r r' hr => .ok hr)
      fun s c₂ h₂ s' c₂' h₂' _ _ _ hc₂ => ?_
    dsimp only
    rw [h.grammar.isTensor]
    split
    · exact (exponent_moves h (by omega) hc₂).bind fun r r' hr => .ok ⟨.fn .exp hr.1, hr.2⟩
    · exact hscripts.bind fun r r' hr => .ok hr

end

section

variable (hn : c.rest.length < n) (hc : Cursor.Moves m p c c')
include hn hc

theorem argument_moves : ReadAlike m p (argument g c) (argument g' c') := by
  rw [argument, argument, hc.peek?]
  split
  · exact h.atom (by omega) hc
  · exact h.primary (by omega) hc

theorem function_moves (f : Func) : ReadAlike m p (function g f c) (function g' f c') := by
  rw [function, function]
  refine hc.accept_elim .superscript ?_ fun s c₁ h₁ s' c₁' h₁' _ _ _ hc₁ => ?_
  · exact (argument_moves h (by omega) hc).bind fun r r' hr => .ok ⟨.fn f hr.1, hr.2⟩
  refine (exponent_moves h (by omega) hc₁).bindFound fun n c₂ h₂ n' c₂' h₂' hn hc₂ => ?_
  refine (argument_moves h (by omega) hc₂).bind fun r r' hr => .ok ⟨?_, hr.2⟩
  dsimp only
  rw [hn.moves.isMinusOne]
  split
  · exact .fn _ hr.1
  · exact .power (.fn f hr.1) hn

end

theorem atom_step (hn : c.rest.length ≤ n) (hc : Cursor.Moves m p c c') :
    ReadAlike m p (atom g c) (atom g' c') := by
  rw [atom, atom]
  have hnabla := accentedNabla?_moves hc
  refine hc.next_elim (.error _ (h.grammar.here hc).tracks)
    fun t c₁ h₁ t' c₁' h₁' hrest _ hlast ht hc₁ => ?_
  dsimp only
  have hhere : g.here c = t.span := here_of_rest hrest
  have hnamed := named_moves h (by omega) hc ht hhere
  have hstart : t.span.start ≤ c₁.last := hlast ▸ ht.span.ordered
  rw [ht.kind]
  split
  · exact (numeral_moves _ ht.span).bind fun f f' hf => .ok ⟨hf, hc₁⟩
  · refine (h.expression (by omega) hc₁).bindFound fun f c₂ h₂ f' c₂' h₂' hf hc₂ => ?_
    exact (h.grammar.expect hc₂ .closeParen .closeParen).bind fun r r' hr => .ok ⟨hf, hr.2⟩
  · refine (h.expression (by omega) hc₁).bindFound fun f c₂ h₂ f' c₂' h₂' hf hc₂ => ?_
    exact (h.grammar.expect hc₂ .closeBracket .closeBracket).bind fun r r' hr => .ok ⟨hf, hr.2⟩
  · exact group_moves h (by omega) hc
  · exact hnamed
  · exact (delimited_moves h (by omega) hc₁ ht.span).bind fun r r' hr => .ok hr
  · refine (group_moves h (by omega) hc₁).bindFound fun n c₂ h₂ n' c₂' h₂' hn hc₂ => ?_
    exact (group_moves h (by omega) hc₂).bind fun r r' hr =>
      .ok ⟨.ofFactors hn (.cons hr.1.inverse .nil), hr.2⟩
  · exact (root_moves h (by omega) hc₁).bind fun r r' hr => .ok hr
  · exact (operator_moves h (by omega) hc₁ _ ht.span.start hstart).bind fun r r' hr => .ok hr
  · exact (operator_moves h (by omega) hc₁ _ ht.span.start hstart).bind fun r r' hr => .ok hr
  · exact .ok ⟨.sym _, hc₁⟩
  · next name _ _ _ _ _ _ _ =>
    obtain ⟨hnone, hnone'⟩ | ⟨mark, ⟨c₂, h₂⟩, ⟨c₂', h₂'⟩, hsome, hsome', hc₂⟩ := hnabla
    · rw [hnone, hnone']
      cases Command.function? name with
      | some f => exact (function_moves h (by omega) hc₁ f).bind fun r r' hr => .ok hr
      | none => exact hnamed
    · rw [hsome, hsome']
      have hordered := hhere ▸ h.grammar.here_le hc hc₂ h₂
      exact (operator_moves h (Nat.le_trans (Nat.le_of_lt h₂) hn) hc₂ _ ht.span.start hordered).bind
        fun r r' hr => .ok hr
  · exact .error _ ht.span.tracks

theorem postfixes_moves {c c' : Cursor} (hn : c.rest.length ≤ n) (hc : Cursor.Moves m p c c')
    {stop stop' : Nat} (hstop : m.Offset stop stop') (hbefore : stop ≤ c.last) {f f' : Formula}
    (hf : Reads m f f') : ReadAlike m p (postfixes g stop f c) (postfixes g' stop' f' c') := by
  rw [postfixes, postfixes]
  refine hc.next_elim (.ok ⟨hf, hc⟩) fun t c₁ h₁ t' c₁' h₁' _ _ hlast ht hc₁ => ?_
  have hbefore₁ : stop ≤ c₁.last := Nat.le_trans hbefore (hc.last_le hc₁ (Nat.le_of_lt h₁))
  have hlater {d d' : Cursor} (hd : Cursor.Moves m p d d') (h : d.rest.length < c₁.rest.length) :
      stop ≤ d.last := Nat.le_trans hbefore₁ (hc₁.last_le hd (Nat.le_of_lt h))
  dsimp only
  rw [ht.kind]
  split
  · refine (exponent_moves h (by omega) hc₁).bindFound fun e c₂ h₂ e' c₂' h₂' he hc₂ => ?_
    exact (postfixes_moves (by omega) hc₂ hstop (hlater hc₂ h₂) (hf.power he)).bind fun r r' hr => .ok hr
  split
  · refine (Script.read_moves h.grammar hc₁ hbefore₁ .lower).bindFound fun s c₂ h₂ s' c₂' h₂' hs hc₂ => ?_
    dsimp only
    rw [hs.indices]
    split
    · have hordered : t.span.start ≤ c₂.last :=
        Nat.le_trans (hlast ▸ ht.span.ordered) (hc₁.last_le hc₂ (Nat.le_of_lt h₂))
      exact .error _ (hc₂.spanFrom ht.span.start hordered).tracks
    · exact (postfixes_moves (by omega) hc₂ hstop (hlater hc₂ h₂)
        (.differentiated hstop hs.derivatives hf)).bind fun r r' hr => .ok hr
  · exact .ok ⟨hf, hc⟩
termination_by c.rest.length

theorem primary_step (hn : c.rest.length ≤ n) (hc : Cursor.Moves m p c c') :
    ReadAlike m p (primary g c) (primary g' c') := by
  rw [primary, primary]
  refine (atom_step h (by omega) hc).bindFound fun f c₁ h₁ f' c₁' h₁' hf hc₁ => ?_
  exact (postfixes_moves h (by omega) hc₁ hc₁.last (Nat.le_refl _) hf).bind fun r r' hr => .ok hr

theorem factor_moves {c c' : Cursor} (hn : c.rest.length ≤ n) (hc : Cursor.Moves m p c c') :
    ReadAlike m p (factor g c) (factor g' c') := by
  rw [factor, factor]
  refine hc.accept_elim .minus (primary_step h (by omega) hc) fun s c₁ h₁ s' c₁' h₁' _ _ _ hc₁ => ?_
  exact (factor_moves (by omega) hc₁).bind fun r r' hr => .ok ⟨hr.1.negate, hr.2⟩
termination_by c.rest.length

theorem moreFactors_moves {c c' : Cursor} (hn : c.rest.length ≤ n) (hc : Cursor.Moves m p c c') :
    m.SameOutcome (m.Found p (Forall₂ (Reads m))) (moreFactors g c) (moreFactors g' c') := by
  rw [moreFactors, moreFactors]
  refine hc.next_elim (.ok ⟨.nil, hc⟩) fun t c₁ h₁ t' c₁' h₁' _ _ _ ht hc₁ => ?_
  dsimp only
  rw [ht.kind]
  split
  · refine (factor_moves h (by omega) hc₁).bindFound fun f c₂ h₂ f' c₂' h₂' hf hc₂ => ?_
    exact (moreFactors_moves (by omega) hc₂).bindFound fun fs c₃ h₃ fs' c₃' h₃' hfs hc₃ =>
      .ok ⟨.cons hf hfs, hc₃⟩
  split
  · refine (factor_moves h (by omega) hc₁).bindFound fun f c₂ h₂ f' c₂' h₂' hf hc₂ => ?_
    exact (moreFactors_moves (by omega) hc₂).bindFound fun fs c₃ h₃ fs' c₃' h₃' hfs hc₃ =>
      .ok ⟨.cons hf.inverse hfs, hc₃⟩
  split
  · refine (factor_moves h (by omega) hc).bindFound fun f c₂ h₂ f' c₂' h₂' hf hc₂ => ?_
    exact (moreFactors_moves (by omega) hc₂).bindFound fun fs c₃ h₃ fs' c₃' h₃' hfs hc₃ =>
      .ok ⟨.cons hf hfs, hc₃⟩
  · exact .ok ⟨.nil, hc⟩
termination_by c.rest.length

theorem term_moves (hn : c.rest.length ≤ n) (hc : Cursor.Moves m p c c') :
    ReadAlike m p (term g c) (term g' c') := by
  rw [term, term]
  refine (factor_moves h (by omega) hc).bindFound fun f c₁ h₁ f' c₁' h₁' hf hc₁ => ?_
  exact (moreFactors_moves h (by omega) hc₁).bindFound fun fs c₂ h₂ fs' c₂' h₂' hfs hc₂ =>
    .ok ⟨hf.ofFactors hfs, hc₂⟩

theorem moreTerms_moves {c c' : Cursor} (hn : c.rest.length ≤ n) (hc : Cursor.Moves m p c c') :
    m.SameOutcome (m.Found p (Forall₂ (Reads m))) (moreTerms g c) (moreTerms g' c') := by
  rw [moreTerms, moreTerms]
  refine hc.next_elim (.ok ⟨.nil, hc⟩) fun t c₁ h₁ t' c₁' h₁' _ _ _ ht hc₁ => ?_
  dsimp only
  rw [ht.kind]
  cases sign? t.kind with
  | none => exact .ok ⟨.nil, hc⟩
  | some negative =>
    refine (term_moves h (by omega) hc₁).bindFound fun u c₂ h₂ u' c₂' h₂' hu hc₂ => ?_
    exact (moreTerms_moves (by omega) hc₂).bindFound fun us c₃ h₃ us' c₃' h₃' hus hc₃ =>
      .ok ⟨.cons (hu.signed negative) hus, hc₃⟩
termination_by c.rest.length

theorem expression_step (hn : c.rest.length ≤ n) (hc : Cursor.Moves m p c c') :
    ReadAlike m p (expression g c) (expression g' c') := by
  rw [expression, expression]
  have hsign := leadingSign_moves hc
  generalize leadingSign c = sign at hsign
  generalize leadingSign c' = sign' at hsign
  obtain ⟨negative, c₁, h₁⟩ := sign
  obtain ⟨negative', c₁', h₁'⟩ := sign'
  obtain ⟨hnegative, hc₁⟩ := hsign
  cases hnegative
  dsimp only at hc₁
  refine (term_moves h (by omega) hc₁).bindFound fun t c₂ h₂ t' c₂' h₂' ht hc₂ => ?_
  exact (moreTerms_moves h (by omega) hc₂).bindFound fun ts c₃ h₃ ts' c₃' h₃' hts hc₃ =>
    .ok ⟨(ht.signed negative).ofTerms hts, hc₃⟩

end Step

theorem ReadsBelow.of_moves (hg : Grammar.Moves m p g g') (n : Nat) : ReadsBelow m p g g' n := by
  induction n with
  | zero => exact ⟨hg, fun h => absurd h (Nat.not_lt_zero _), fun h => absurd h (Nat.not_lt_zero _),
      fun h => absurd h (Nat.not_lt_zero _)⟩
  | succ n ih =>
    exact ⟨hg, fun h => expression_step ih (Nat.le_of_lt_succ h),
      fun h => primary_step ih (Nat.le_of_lt_succ h), fun h => atom_step ih (Nat.le_of_lt_succ h)⟩

theorem expression_moves {c c' : Cursor} (hg : Grammar.Moves m p g g') (hc : Cursor.Moves m p c c') :
    ReadAlike m p (expression g c) (expression g' c') :=
  (ReadsBelow.of_moves hg _).expression (Nat.lt_succ_self _) hc

end Formula

namespace Grammar

theorem tokens_moves {s' : Segment} (h : Segment.Moves m s s') :
    m.SameOutcome (Token.ListMoves m s.offset s.stop) (tokens s) (tokens s') := by
  rw [tokens, tokens]
  refine (Token.scan_moves h).bind fun ts ts' hts => ?_
  have hstray := strayBrace?_moves hts.tokens 0 false
  generalize strayBrace? 0 false ts = stray at hstray
  generalize strayBrace? 0 false ts' = stray' at hstray
  cases hstray with
  | none => exact .ok hts
  | some hspan => exact .error _ hspan.tracks

section

variable (hg : Grammar.Moves m p g g') (hc : Cursor.Moves m p c c')
include hg hc

theorem expectEnd_moves : m.SameOutcome (fun _ _ => True) (g.expectEnd c) (g'.expectEnd c') := by
  have hhere := hg.here hc
  obtain ⟨rest, last⟩ := c
  obtain ⟨rest', last'⟩ := c'
  obtain ⟨hrest, -⟩ := hc
  cases hrest with
  | nil => exact .ok trivial
  | cons => exact .error _ hhere.tracks

theorem target_moves :
    m.SameOutcome (m.Found p (TensorRef.Matches (Span.Tracks m))) (g.target c) (g'.target c') := by
  rw [target, target]
  refine (name?_moves hg hc).bind fun r r' hr => ?_
  cases hr with
  | none => exact .error _ (hg.here hc).tracks
  | @some r r' hr =>
    obtain ⟨base, c₁, h₁⟩ := r
    obtain ⟨base', c₁', h₁'⟩ := r'
    obtain ⟨hbase, hc₁⟩ := hr
    cases hbase
    dsimp only at hc₁ ⊢
    refine (Script.readTarget_moves hg hc₁).bindFound fun is c₂ h₂ is' c₂' h₂' his hc₂ => ?_
    cases his
    have hlt : c₂.rest.length < c.rest.length := Nat.lt_of_le_of_lt h₂ h₁
    exact .ok ⟨⟨rfl, (hg.spanHere hc hc₂ hlt).tracks⟩, hc₂⟩

theorem equation_moves :
    m.SameOutcome (m.Found p (Equation.Matches (Span.Tracks m))) (g.equation c) (g'.equation c') := by
  rw [equation, equation]
  refine (target_moves hg hc).bindFound fun t c₁ h₁ t' c₁' h₁' ht hc₁ => ?_
  refine (hg.expect hc₁ .equals .equals).bindFound fun _ c₂ h₂ _ c₂' h₂' _ hc₂ => ?_
  refine (Formula.expression_moves hg hc₂).bindFound fun f c₃ h₃ f' c₃' h₃' hf hc₃ => ?_
  have hlt : c₃.rest.length < c.rest.length := Nat.lt_trans h₃ (Nat.lt_trans h₂ h₁)
  exact .ok ⟨⟨ht, hf.moves, (hg.spanHere hc hc₃ hlt).tracks⟩, hc₃⟩

end

end Grammar

def Move.inside (before document : List Char) : Move :=
  ⟨document, byteLength before⟩

section

variable {before : List Char} {s' : Segment} (h : Segment.Moves (.inside before document) s s')
  (after : List Char) (isTensor : String → Bool)
include h

theorem Segment.Moves.grammar
    (hts : Token.ListMoves (.inside before document) s.offset s.stop ts ts') :
    Grammar.Moves (.inside before document) (.ofTokens ts hts.ascends) ⟨document, s.stop, isTensor⟩
      ⟨before ++ document ++ after, s'.stop, isTensor⟩ where
  atStop := rfl
  stop := h.span.stop
  isTensor := rfl
  spelledName := fun hspan => by
    obtain ⟨cs, hslice, hslice'⟩ := hspan.slice? rfl after
    dsimp only [Move.inside] at hslice hslice'
    simp only [spelledName, hslice, hslice']

theorem Equation.parse_moves :
    (Move.inside before document).SameOutcome
      (Equation.Matches (Span.Tracks (.inside before document)))
      (parse document s isTensor) (parse (before ++ document ++ after) s' isTensor) := by
  rw [parse, parse]
  refine (tokens_moves h).bind fun ts ts' hts => ?_
  have hg := h.grammar after isTensor hts
  refine (equation_moves hg (.start hts h.span.stop)).bindFound
    fun e c h₁ e' c' h₁' he hc => ?_
  exact (expectEnd_moves hg hc).bind fun _ _ _ => .ok he

theorem Formula.parse_moves :
    (Move.inside before document).SameOutcome (Formula.Reads (.inside before document))
      (parse document s isTensor) (parse (before ++ document ++ after) s' isTensor) := by
  rw [parse, parse]
  refine (tokens_moves h).bind fun ts ts' hts => ?_
  have hg := h.grammar after isTensor hts
  refine (Formula.expression_moves hg (.start hts h.span.stop)).bindFound
    fun f c h₁ f' c' h₁' hf hc => ?_
  exact (expectEnd_moves hg hc).bind fun _ _ _ => .ok hf

end

abbrev Move.still (document : List Char) : Move :=
  .inside [] document

theorem Segment.PartOf.still (h : s.PartOf document) : Segment.Moves (.still document) s s :=
  ⟨rfl, rfl, h⟩

theorem Formula.written_of_parse (h : s.PartOf document) {isTensor : String → Bool} {f : Formula}
    (hparse : parse document s isTensor = .ok f) : f.Written := by
  have hreads := parse_moves h.still [] isTensor
  rw [nil_append, append_nil, hparse] at hreads
  cases hreads with
  | ok hf => exact hf.written

/-- A place in the tokens of a segment: what is read up to it, and where that ends. -/
def Segment.Reaches (s : Segment) (c : Cursor) : Prop :=
  ∃ read, tokens s = .ok (read ++ c.rest) ∧
    c.last = Token.endOf (Cursor.start (read ++ c.rest) s.stop).last read

/-- A reader that succeeds takes at least one token off what is left, and nothing else. -/
def Cursor.Consumes {c : Cursor} (x : Except Error (α × c.After)) : Prop :=
  ∀ a e, x = .ok (a, e) → ∃ read, read ≠ [] ∧ c.rest = read ++ e.val.rest

theorem Cursor.Moves.onward {read rest : List Token} {last : Nat}
    (h : Cursor.Moves m p ⟨read ++ rest, last⟩ ⟨read ++ rest, last⟩) :
    Cursor.Moves m p ⟨rest, Token.endOf last read⟩ ⟨rest, Token.endOf last read⟩ := by
  induction read generalizing last with
  | nil => exact h
  | cons t read ih =>
    rw [Token.endOf_cons]
    exact ih (h.tail rfl rfl).2.2

theorem Cursor.Moves.consumes (hc : Cursor.Moves m p c c') {Q : α → β → Prop} {P : Cursor → Prop}
    {x : Except Error (α × c.After)} {x' : Except Error (β × Subtype P)}
    (h : m.SameOutcome (m.Found p Q) x x') : Consumes x := by
  rintro a e rfl
  cases h with
  | ok hfound =>
    obtain ⟨_, hreached⟩ := hc.reached
    obtain ⟨_, hreached'⟩ := hfound.2.reached
    obtain ⟨read, hread, -⟩ := hreached.exists_read hreached' (Nat.le_of_lt e.property)
    refine ⟨read, ?_, hread⟩
    rintro rfl
    exact Nat.ne_of_gt e.property (congrArg List.length hread)

theorem Segment.Reaches.moves (h : s.PartOf document) (hc : s.Reaches c) (isTensor : String → Bool) :
    ∃ p, Cursor.Moves (.still document) p c c ∧ Grammar.Moves (.still document) p
      ⟨document, s.stop, isTensor⟩ ⟨[] ++ document ++ [], s.stop, isTensor⟩ := by
  obtain ⟨rest, last⟩ := c
  obtain ⟨read, htokens, hlast⟩ := hc
  dsimp only at htokens hlast
  subst hlast
  have hmoves := tokens_moves h.still
  rw [htokens] at hmoves
  cases hmoves with
  | ok hts => exact ⟨_, .onward (.start hts h.still.span.stop), h.still.grammar [] isTensor hts⟩

theorem Grammar.eq_ok_of_expectEnd {P : Cursor → Prop} {x : Except Error (α × Subtype P)} {a : α}
    (h : (do let (a, e) ← x; g.expectEnd e.val; return a) = .ok a) :
    ∃ e, x = .ok (a, e) ∧ e.val.rest = [] := by
  obtain ⟨⟨b, e⟩, hx, h⟩ := Except.bind_eq_ok h
  dsimp only at h
  obtain ⟨_, hend, h⟩ := Except.bind_eq_ok h
  cases h
  refine ⟨e, hx, ?_⟩
  rw [expectEnd] at hend
  split at hend
  · next hempty => exact List.isEmpty_iff.mp hempty
  · cases hend

/-- A reader that succeeds goes on by at least one token and leaves the rest of them, from whatever
place in the tokens of a text it starts, and a parse that succeeds leaves none. -/
theorem Formula.readers_consume (h : s.PartOf document) (isTensor : String → Bool) :
    let g : Grammar := ⟨document, s.stop, isTensor⟩
    (∀ c : Cursor, s.Reaches c → Consumes (expression g c) ∧ Consumes (term g c) ∧
      Consumes (factor g c) ∧ Consumes (primary g c) ∧ Consumes (atom g c) ∧ Consumes (group g c) ∧
      (∀ f, Consumes (function g f c)) ∧
      ∀ kind start, start ≤ c.last → IsBoundary document start →
        Consumes (operator g kind start c)) ∧
    (∀ f, parse document s isTensor = .ok f → ∃ ts e, tokens s = .ok ts ∧
      expression g (.start ts s.stop) = .ok (f, e) ∧ e.val.rest = []) ∧
    ∀ q, Equation.parse document s isTensor = .ok q → ∃ ts e, tokens s = .ok ts ∧
      g.equation (.start ts s.stop) = .ok (q, e) ∧ e.val.rest = [] := by
  refine ⟨fun c hplace => ?_, fun f hparse => ?_, fun q hparse => ?_⟩
  · obtain ⟨p, hc, hg⟩ := hplace.moves h isTensor
    have hbelow := ReadsBelow.of_moves hg (c.rest.length + 1)
    have hlt := Nat.lt_succ_self c.rest.length
    refine ⟨hc.consumes (hbelow.expression hlt hc), hc.consumes (term_moves hbelow hlt.le hc),
      hc.consumes (factor_moves hbelow hlt.le hc), hc.consumes (hbelow.primary hlt hc),
      hc.consumes (hbelow.atom hlt hc), hc.consumes (group_moves hbelow hlt.le hc),
      fun f => hc.consumes (function_moves hbelow hlt hc f),
      fun kind start hle hstart => ?_⟩
    exact hc.consumes (operator_moves hbelow hlt.le hc kind ⟨rfl, hstart⟩ hle)
  · obtain ⟨ts, htokens, hrest⟩ := Except.bind_eq_ok hparse
    obtain ⟨e, he⟩ := eq_ok_of_expectEnd hrest
    exact ⟨ts, e, htokens, he⟩
  · obtain ⟨ts, htokens, hrest⟩ := Except.bind_eq_ok hparse
    obtain ⟨e, he⟩ := eq_ok_of_expectEnd hrest
    exact ⟨ts, e, htokens, he⟩

theorem Formula.readers_consume_sum :
    let document := "a+b".toList
    let s : Segment := ⟨0, document⟩
    s.PartOf document ∧ (parse document s fun _ => false).toOption.isSome ∧
      ∀ f, parse document s (fun _ => false) = .ok f → ∃ ts e, tokens s = .ok ts ∧
        expression ⟨document, s.stop, fun _ => false⟩ (.start ts s.stop) = .ok (f, e) ∧
        e.val.rest = [] := by
  intro document s
  have h : s.PartOf document := ⟨[], [], by simp [s], rfl⟩
  exact ⟨h, by decide +kernel, (readers_consume h _).2.1⟩

end TensorCalculus
