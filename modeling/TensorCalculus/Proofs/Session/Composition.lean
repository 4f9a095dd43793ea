import TensorCalculus.Proofs.Document.Segmentation
import TensorCalculus.Proofs.Formula.Moved
import TensorCalculus.Proofs.Session.Conduct

/-! Directives of a text that is moved. Their lists, words and declarations are the same ones. -/
namespace TensorCalculus

open List Statement Segment

variable {m : Move} {s s' : Segment} {span : Span} {e : Error} {old : List Warning}
  {ts : List Token} {source : String} {c : Cursor} {d : c.After}

theorem byteLength_reverse (cs : List Char) : byteLength cs.reverse = byteLength cs := by
  induction cs with
  | nil => rfl
  | cons c cs ih => simp [ih, Nat.add_comm]

namespace Segment

theorem splitCommas_moves (cs : List Char) (offset depth : Nat) (taken : List Char)
    (h : PartOf m.document ⟨offset, taken.reverse ++ cs⟩) :
    Forall₂ (Segment.Moves m) (splitCommas offset depth taken cs)
      (splitCommas (offset + m.distance) depth taken cs) := by
  induction cs generalizing offset depth taken with
  | nil =>
    rw [append_nil] at h
    exact .cons ⟨rfl, rfl, h⟩ .nil
  | cons c cs ih =>
    have hnext : PartOf m.document ⟨offset, (c :: taken).reverse ++ cs⟩ := by simpa using h
    rw [splitCommas, splitCommas]
    split
    · exact ih _ _ _ hnext
    split
    · exact ih _ _ _ hnext
    split
    · next hcomma =>
      obtain rfl : c = ',' := by simp_all
      obtain ⟨hpart, hrest⟩ := h.of_append rfl
      have hsplit : ',' :: cs = [','] ++ cs := rfl
      have hstop : stop ⟨offset + m.distance, taken.reverse⟩ + 1 =
          stop ⟨offset, taken.reverse⟩ + 1 + m.distance := by
        simp only [stop]
        omega
      dsimp only
      rw [hstop]
      exact .cons ⟨rfl, rfl, hpart⟩ (ih _ _ [] (hrest.of_append hsplit).2)
    · exact ih _ _ _ hnext

theorem wordsFrom_moves (cs : List Char) (offset : Nat) (taken : List Char)
    (h : PartOf m.document ⟨offset, taken.reverse ++ cs⟩) :
    Forall₂ (Segment.Moves m) (wordsFrom offset taken cs)
      (wordsFrom (offset + m.distance) taken cs) := by
  induction cs generalizing offset taken with
  | nil =>
    rw [append_nil] at h
    rw [wordsFrom, wordsFrom]
    split
    · exact .nil
    · exact .cons ⟨rfl, rfl, h⟩ .nil
  | cons c cs ih =>
    rw [wordsFrom, wordsFrom]
    split
    · obtain ⟨hpart, hrest⟩ := h.of_append rfl
      have hsplit : c :: cs = [c] ++ cs := rfl
      have hmore := ih _ [] (hrest.of_append hsplit).2
      rw [byteLength_reverse, byteLength_cons, byteLength_nil, Nat.add_zero] at hmore
      have hstop : offset + m.distance + byteLength taken + c.utf8Size =
          offset + byteLength taken + c.utf8Size + m.distance := by omega
      dsimp only
      rw [hstop]
      split
      · exact hmore
      · exact .cons ⟨rfl, rfl, hpart⟩ hmore
    · exact ih _ _ (by simpa using h)

namespace Moves

variable (h : Segment.Moves m s s')
include h

theorem items : Forall₂ (Segment.Moves m) s.items s'.items := by
  rw [Segment.items, Segment.items, h.chars, h.offset]
  refine rel_filter ?_ (rel_map ?_ (splitCommas_moves _ _ _ [] h.partOf))
  · intro a b hab
    dsimp only
    rw [hab.isEmpty]
  · exact fun _ _ hab => hab.trim

theorem words : Forall₂ (Segment.Moves m) s.words s'.words := by
  rw [Segment.words, Segment.words, h.chars, h.offset]
  exact wordsFrom_moves _ _ [] h.partOf

end Moves

end Segment

namespace Session.Declaration

/-- The same declaration, with its places moved. -/
structure Moves (m : Move) (d d' : Declaration) : Prop where
  name : Segment.Moves m d.name d'.name
  modifiers : Forall₂ (Segment.Moves m) d.modifiers d'.modifiers
  dimension : d'.dimension = d.dimension
  isName : isName d.name.chars

theorem parseDimension_moves (h : Segment.Moves m s s') :
    m.SameOutcome Eq (parseDimension s) (parseDimension s') := by
  rw [parseDimension, parseDimension, h.trim.chars]
  split
  · exact .ok rfl
  · exact .error _ h.trim.span.tracks

theorem parse_moves (h : Segment.Moves m s s') : m.SameOutcome (Moves m) (parse s) (parse s') := by
  rw [parse, parse]
  set isOpen : Char → Bool := fun c => c == '(' || c == '['
  have hrest : Segment.Moves m (s.dropWhile (!isOpen ·)) (s'.dropWhile (!isOpen ·)) :=
    h.dropWhile _
  have hwords := rel_reverse (h.takeWhile (!isOpen ·)).words
  have hdimension := parseDimension_moves (hrest.drop 1)
  generalize (s.takeWhile (!isOpen ·)).words.reverse = words at hwords
  generalize (s'.takeWhile (!isOpen ·)).words.reverse = words' at hwords
  rw [hrest.isEmpty]
  cases hwords with
  | nil =>
    split
    · exact .error _ h.span.tracks
    · exact hdimension.bindEq fun _ => .error _ h.span.tracks
  | @cons name name' modifiers modifiers' hname hmodifiers =>
    dsimp only
    rw [hname.chars, hname.text]
    by_cases hvalid : TensorCalculus.isName name.chars
    · have hfound (dimension : Option Nat) : Moves m ⟨name, modifiers.reverse, dimension⟩
          ⟨name', modifiers'.reverse, dimension⟩ :=
        ⟨hname, rel_reverse hmodifiers, rfl, hvalid⟩
      rw [hvalid]
      split
      · exact .ok (hfound none)
      · exact hdimension.bindEq fun n => .ok (hfound (some n))
    · rw [Bool.not_eq_true] at hvalid
      rw [hvalid]
      split
      · exact .error _ hname.span.tracks
      · exact hdimension.bindEq fun _ => .error _ hname.span.tracks

theorem symmetry_moves {ms ms' : List Segment} (h : Forall₂ (Segment.Moves m) ms ms')
    (first : Option Symmetry) : m.SameOutcome Eq (symmetry first ms) (symmetry first ms') := by
  induction h generalizing first with
  | nil => exact .ok rfl
  | @cons a b _ _ hab _ ih =>
    rw [symmetry, symmetry, hab.text]
    cases Symmetry.ofModifier? a.text with
    | none => exact .error _ hab.span.tracks
    | some s =>
      dsimp only
      split
      · exact .error _ hab.span.tracks
      · exact ih _

end Session.Declaration

namespace Session

variable {R : Span → Span → Prop}

theorem targetEntry_matches (s : Session) (target : TensorRef) (span : Span)
    {free free' : List Occurrence} (h : Forall₂ (Occurrence.Matches R) free free') :
    s.targetEntry { target with span } free' = s.targetEntry target free := by
  have hfirst : free'.findSome? (·.dimension) = free.findSome? (·.dimension) := by
    induction h with
    | nil => rfl
    | cons ho _ ih => rw [List.findSome?_cons, List.findSome?_cons, ho.dimension, ih]
  unfold targetEntry targetDimension
  rw [hfirst]
  rfl

section

variable (hnone : R .none .none) (target : TensorRef) (htarget : R target.span span)
  {f f' : Formula} (h : Formula.Matches R f f') {a b : Span} (hspan : R a b)
include hnone htarget h hspan

theorem defineComponent_follows : Follows R old (fun _ _ => True) (defineComponent target f a)
      (defineComponent { target with span } f' b) := by
  have hF : (places R old).Conducts fun _ => True := places_conducts hnone
  rw [defineComponent, defineComponent]
  refine .get fun s w _ => ?_
  rw [table_withWarnings, undeclared_withWarnings]
  dsimp only
  cases s.table.get? target.name with
  | none => exact .throw _ htarget
  | some e =>
    dsimp only
    split
    · exact .throw_bind _ htarget
    · refine (expandAndResolve_follows hnone [] h).bind ?_
      rintro ⟨g, free⟩ ⟨g', free'⟩ ⟨hg, hfree⟩
      refine (Follows.of_outcome (hF.checkFree_outcome hspan target.indices hfree)).bind fun _ _ _ => ?_
      refine (evaluate_follows hnone [] hg).bindEq fun value => ?_
      split
      · split
        · exact .throw _ htarget
        · exact .pure trivial
      · exact .modify fun _ _ => rfl

theorem defineTensor_follows : Follows R old (fun _ _ => True) (defineTensor target f a)
      (defineTensor { target with span } f' b) := by
  have hF : (places R old).Conducts fun _ => True := places_conducts hnone
  rw [defineTensor, defineTensor]
  refine (Follows.of_outcome (hF.checkTarget_outcome target htarget)).bind fun _ _ _ => ?_
  refine (expandAndResolve_follows hnone _ h).bind ?_
  rintro ⟨g, free⟩ ⟨g', free'⟩ ⟨hg, hfree⟩
  refine (Follows.of_outcome (hF.checkFree_outcome hspan target.indices hfree)).bind fun _ _ _ => ?_
  refine .get fun s w _ => ?_
  have hentry : (s.withWarnings w).targetEntry { target with span } free' =
      s.targetEntry target free := targetEntry_matches s target span hfree
  rw [hentry]
  exact (Follows.of_outcome (hF.checkDimensions_outcome _ hfree)).bind fun _ _ _ =>
    assignResolved_follows hnone _ target.indices hg hspan

end

theorem define_follows (hnone : R .none .none) {e e' : Equation} (h : Equation.Matches R e e') :
    Follows R old (fun _ _ => True) (define e) (define e') := by
  obtain ⟨target, value, span⟩ := e
  obtain ⟨target', value', span'⟩ := e'
  obtain ⟨⟨hsame, htarget⟩, hvalue, hspan⟩ := h
  dsimp only at hsame htarget hvalue hspan
  have hrank : ({ target with span := target'.span } : TensorRef).rank = target.rank := rfl
  rw [hsame, define, define, hrank]
  dsimp only
  split
  · exact defineComponent_follows hnone target htarget hvalue hspan
  · split
    · exact .throw _ htarget
    · exact defineTensor_follows hnone target htarget hvalue hspan

end Session

theorem Segment.span_ne_none {s : Segment} (hname : isName s.chars) : s.span ≠ .none := by
  obtain ⟨offset, cs⟩ := s
  cases cs with
  | nil => cases hname
  | cons c cs =>
    intro hnone
    have hstart : offset = 0 := congrArg Span.start hnone
    have hstop : offset + (c.utf8Size + byteLength cs) = 0 := congrArg Span.stop hnone
    have hpos := c.utf8Size_pos
    omega

namespace Session

variable {R : Span → Span → Prop}

theorem unaware_setCoordinates (names : List String) : Unaware (·.setCoordinates names) := by
  intro s w
  have hscalars (names : List String) (s : Session) : names.foldl (fun s name =>
      if s.table.contains name then s else s.registerScalar name) (s.withWarnings w) =
      (names.foldl (fun s name =>
        if s.table.contains name then s else s.registerScalar name) s).withWarnings w := by
    induction names generalizing s with
    | nil => rfl
    | cons name names ih =>
      rw [foldl_cons, foldl_cons, ← ih, table_withWarnings]
      split
      · rfl
      · rfl
  simp only [setCoordinates, hscalars]
  rfl

theorem declareMetric_follows {a b : Span} (hspan : R a b) (name : String) (dimension : Nat)
    (keep : Bool) : Follows R old (fun _ _ => True) (declareMetric name dimension keep a)
      (declareMetric name dimension keep b) := by
  rw [declareMetric, declareMetric]
  cases metricHeights? name with
  | none => exact .throw _ hspan
  | some form =>
    refine .get fun s w hs => ?_
    exact .set (hs.of_withWarnings rfl)

theorem warn_follows {w w' : Warning} (h : Warning.Matches R w w') :
    Follows R old (fun _ _ => True) (modify (·.warn w)) (modify (·.warn w')) := by
  rintro s _ ⟨hold, hnew⟩
  rw [run_modify, run_modify]
  refine ⟨.ok trivial, ?_⟩
  dsimp only
  rw [warn, warn, config_withWarnings]
  split
  · have happend := rel_append hnew (.cons h .nil)
    simp only [withWarnings, append_assoc]
    refine .intro ?_ happend
    rw [hold, append_assoc]
  · exact .intro hold hnew

section

variable (h : Segment.Moves m s s')
include h

theorem declare_follows (again : Bool) :
    Follows (Span.Tracks m) old (fun _ _ => True) (declare again s) (declare again s') := by
  rw [declare, declare]
  refine (Follows.lift (Declaration.parse_moves h)).bind fun d d' hd => ?_
  refine (Follows.lift (Declaration.symmetry_moves hd.modifiers none)).bindEq fun symmetry => ?_
  refine .get fun t w _ => ?_
  rw [table_withWarnings, defaultDimension_withWarnings, config_withWarnings, hd.name.text,
    hd.dimension]
  dsimp only
  have hspan : Span.Tracks m d.name.span d'.name.span := hd.name.span.tracks
  have hstore (dimension : Nat) (e : Entry) : Follows (Span.Tracks m) old (fun _ _ => True)
      (if symmetry = .metric then declareMetric d.name.text dimension again d.name.span
        else modify (·.insert e))
      (if symmetry = .metric then declareMetric d.name.text dimension again d'.name.span
        else modify (·.insert e)) := by
    split
    · exact declareMetric_follows hspan _ _ _
    · exact .modify (unaware_insert e)
  split
  · exact .throw_bind _ hspan
  · split
    · have hwarning : Warning.Matches (Span.Tracks m) ⟨d.name.text, d.name.span⟩
          ⟨d.name.text, d'.name.span⟩ := ⟨rfl, hspan, span_ne_none hd.isName⟩
      exact (warn_follows hwarning).bind fun _ _ _ => hstore _ _
    · exact hstore _ _

theorem evaluateName_follows :
    Follows (Span.Tracks m) old (fun _ _ => True) (evaluateName s) (evaluateName s') := by
  rw [evaluateName, evaluateName, h.text]
  refine .get fun t w _ => ?_
  rw [table_withWarnings, undeclared_withWarnings]
  cases t.table.get? s.text with
  | none => exact .throw _ h.span.tracks
  | some e => exact .modify fun _ _ => rfl

theorem declareCoordinates_follows :
    Follows (Span.Tracks m) old (fun _ _ => True) (declareCoordinates s) (declareCoordinates s') := by
  have hnames : coordinateNames s' = coordinateNames s := by
    rw [coordinateNames, coordinateNames, ((h.trim.dropWhile _).dropWhileEnd _).chars]
  rw [declareCoordinates, declareCoordinates, hnames]
  dsimp only
  split
  · exact .throw_bind _ h.span.tracks
  · split
    · exact .throw_bind _ h.span.tracks
    · exact .modify (unaware_setCoordinates _)

theorem declareDimension_follows :
    Follows (Span.Tracks m) old (fun _ _ => True) (declareDimension s) (declareDimension s') := by
  rw [declareDimension, declareDimension, h.chars]
  cases positive? s.chars with
  | none => exact .throw _ h.span.tracks
  | some n => exact .modify fun _ _ => rfl

end

section Inside

variable {before document : List Char} (h : Segment.Moves (.inside before document) s s')
  (after : List Char)
include h

theorem defineText_follows : Follows (Span.Tracks (.inside before document)) old (fun _ _ => True)
    (defineText document s) (defineText (before ++ document ++ after) s') := by
  rw [defineText, defineText]
  refine .get fun t w _ => ?_
  rw [table_withWarnings]
  refine (Follows.lift (Equation.parse_moves h after t.table.isTensorBase)).bind fun e e' he => ?_
  exact define_follows Span.tracks_none he

theorem runEquation_follows : Follows (Span.Tracks (.inside before document)) old (fun _ _ => True)
    (runEquation document s) (runEquation (before ++ document ++ after) s') := by
  rw [runEquation, runEquation]
  refine (Follows.lift (Token.scan_moves h)).bind fun ts ts' hts => ?_
  obtain ⟨htokens, -⟩ := hts
  cases htokens with
  | nil => exact .pure trivial
  | cons => exact defineText_follows h after

theorem directiveActions_follow :
    Forall₂ (Follows (Span.Tracks (.inside before document)) old fun _ _ => True)
      (directiveActions document s) (directiveActions (before ++ document ++ after) s') := by
  have hrest := (h.trim.dropWhile Char.isAlpha).trim
  rw [directiveActions, directiveActions, (h.trim.takeWhile Char.isAlpha).text]
  split
  · refine rel_map ?_ hrest.items
    exact fun _ _ hitem => declare_follows hitem false
  · refine rel_map ?_ hrest.items
    exact fun _ _ hitem => declare_follows hitem true
  · exact .cons (defineText_follows hrest after) .nil
  · refine rel_map ?_ hrest.items
    exact fun _ _ hitem => evaluateName_follows hitem
  · exact .cons (declareCoordinates_follows hrest) .nil
  · exact .cons (declareDimension_follows hrest) .nil
  · exact .nil

end Inside

theorem statementActions_follow (before document after : List Char) :
    Forall₂ (Follows (Span.Tracks (.inside before document)) old fun _ _ => True)
      (documentActions document)
      (((split document).map (moved (byteLength before))).flatMap
        (statementActions (before ++ document ++ after))) := by
  have hstatements : Forall₂ (fun t t' => t.text.PartOf document ∧
      t' = t.moved (byteLength before)) (split document)
      ((split document).map (moved (byteLength before))) := by
    rw [forall₂_map_right_iff, forall₂_same]
    exact fun t ht => ⟨split_partOf document t ht, rfl⟩
  refine rel_flatMap hstatements ?_
  rintro t _ ⟨hpart, rfl⟩
  have hmoves : Segment.Moves (.inside before document) t.text (t.moved (byteLength before)).text := by
    cases t <;> exact ⟨rfl, rfl, hpart⟩
  cases t with
  | directive s => exact directiveActions_follow hmoves after
  | equation s => exact .cons (runEquation_follows hmoves after) .nil

theorem statementActions_follow_first (document after : List Char) :
    Forall₂ (Follows (Span.Tracks (.still document)) old fun _ _ => True)
      (documentActions document)
      ((split document).flatMap (statementActions (document ++ after))) := by
  have h : Forall₂ (Follows (Span.Tracks (.still document)) old fun _ _ => True) _ _ :=
    statementActions_follow [] document after
  rwa [byteLength_nil, moved_zero, map_id, nil_append] at h

theorem documentActions_follow (document : List Char) :
    Forall₂ (Follows (Span.Tracks (.still document)) old fun _ _ => True)
      (documentActions document) (documentActions document) := by
  have h : Forall₂ (Follows (Span.Tracks (.still document)) old fun _ _ => True) _ _ :=
    statementActions_follow_first document []
  rwa [append_nil] at h

end Session

/-! Documents in a row. To run them at once is to run one after the other, except for places: those
of the second document are moved, unless they stand for what is not written. -/

def Span.moved (distance : Nat) (a : Span) : Span :=
  ⟨a.start + distance, a.stop + distance⟩

def Warning.moved (distance : Nat) (w : Warning) : Warning :=
  { w with span := w.span.moved distance }

def Error.moved (distance : Nat) (e : Error) : Error :=
  { e with span := e.span.moved distance }

theorem Span.Moves.eq_moved {m : Move} {a b : Span} (h : Span.Moves m a b) :
    b = a.moved m.distance := by
  rw [Span.moved, ← h.start.moved, ← h.stop.moved]

section Inside

variable {before document : List Char} {a b : Span}
  (h : Span.Tracks (.inside before document) a b)
include h

theorem Span.Tracks.text_eq (after : List Char) :
    (Segment.slice? (before ++ document ++ after) b).map Segment.text =
      (Segment.slice? document a).map Segment.text := by
  rcases h with h | ⟨rfl, rfl⟩
  · obtain ⟨cs, hslice, hslice'⟩ := h.slice? rfl after
    rw [show slice? (before ++ document ++ after) b = _ from hslice',
      show slice? document a = _ from hslice]
    rfl
  · have hstart (document : List Char) : slice? document .none = some ⟨0, []⟩ := by
      have hpart : Segment.PartOf document ⟨0, []⟩ := ⟨[], document, rfl, rfl⟩
      exact hpart.slice?
    rw [hstart, hstart]

theorem Span.Tracks.within_eq (after : List Char) (cause : Cause) :
    Error.within (before ++ document ++ after) { cause, span := b } =
        (Error.within document { cause, span := a }).moved (byteLength before) ∨
      a = .none ∧ Error.within (before ++ document ++ after) { cause, span := b } =
        Error.within document { cause, span := a } := by
  have htext := h.text_eq after
  rcases h with h | ⟨rfl, rfl⟩
  · refine .inl ?_
    obtain rfl : b = a.moved (byteLength before) := h.eq_moved
    simp only [Error.within, Error.moved, htext]
  · refine .inr ⟨rfl, ?_⟩
    simp only [Error.within, htext]

end Inside

namespace Session

/-- How a document ends alone, and how it does after another one whose warnings are the old ones. -/
structure Continues (distance : Nat) (old : List Warning)
    (alone joined : Except Error (List String) × Session) : Prop where
  state : ∃ new, alone.2.warnings = old ++ new ∧
    joined.2 = { alone.2 with warnings := old ++ new.map (Warning.moved distance) }
  names : ∀ names, alone.1 = .ok names → joined.1 = .ok names
  error : ∀ e, alone.1 = .error e →
    joined.1 = .error (e.moved distance) ∨ e.span = .none ∧ joined.1 = .error e

theorem Matches.warnings_moved {before document : List Char} {s s' : Session}
    (h : Matches (Span.Tracks (.inside before document)) old s s') :
    ∃ new, s.warnings = old ++ new ∧
      s' = { s with warnings := old ++ new.map (Warning.moved (byteLength before)) } := by
  cases h with
  | @intro new new' hold hnew =>
    refine ⟨new, hold, ?_⟩
    have hmoved : new' = new.map (Warning.moved (byteLength before)) := by
      clear hold
      induction hnew with
      | nil => rfl
      | @cons w w' _ _ hw _ ih =>
        obtain ⟨hname, hspan | ⟨hnone, -⟩, hwritten⟩ := hw
        · rw [map_cons, ← ih, Warning.moved, ← hname,
            show w.span.moved (byteLength before) = w'.span from hspan.eq_moved.symm]
        · exact absurd hnone hwritten
    rw [hmoved]
    rfl

theorem Follows.run_eq {document : List Char} {x x' : SessionM Unit} {s : Session}
    (h : Follows (Span.Tracks (.still document)) s.warnings (fun _ _ => True) x x') :
    x'.run s = x.run s := by
  obtain ⟨hresult, hstate⟩ := h s s (.refl s)
  obtain ⟨new, hold, hstate⟩ := hstate.warnings_moved
  have hnew : new.map (Warning.moved (byteLength [])) = new := map_id new
  rw [hnew, ← hold] at hstate
  generalize x.run s = r at *
  generalize x'.run s = r' at *
  obtain ⟨r, t⟩ := r
  obtain ⟨r', t'⟩ := r'
  refine Prod.ext ?_ hstate
  cases hresult with
  | ok => rfl
  | @error cause a b hspan =>
    rcases hspan with hspan | ⟨rfl, rfl⟩
    · rw [hspan.eq_moved]
      rfl
    · rfl

theorem Follows.within_eq {document after : List Char} {x x' : SessionM Unit} {s t : Session}
    (h : Follows (Span.Tracks (.still document)) s.warnings (fun _ _ => True) x x')
    (hrun : x.run s = (.error e, t)) : e.within (document ++ after) = e.within document := by
  have hrun' := h.run_eq
  obtain ⟨hresult, -⟩ := h s s (.refl s)
  rw [hrun', hrun] at hresult
  cases hresult with
  | error cause hspan =>
    rcases hspan.within_eq after cause with hwithin | ⟨-, hwithin⟩ <;> exact hwithin

section Two

variable (first second : List Char)

theorem documentActions_append (hclosed : Statement.Closed (split first)) :
    documentActions (first ++ '\n' :: second) =
      (split first).flatMap (statementActions (first ++ '\n' :: second)) ++
      ((split second).map (moved (byteLength first + 1))).flatMap
        (statementActions (first ++ '\n' :: second)) := by
  rw [documentActions, split_append hclosed, flatMap_append]

theorem statementActions_follow_second :
    Forall₂ (Follows (Span.Tracks (.inside (first ++ ['\n']) second)) old fun _ _ => True)
      (documentActions second)
      (((split second).map (moved (byteLength first + 1))).flatMap
        (statementActions (first ++ '\n' :: second))) := by
  have h : Forall₂ (Follows (Span.Tracks (.inside (first ++ ['\n']) second)) old
      fun _ _ => True) _ _ := statementActions_follow (first ++ ['\n']) second []
  have hlength : byteLength (first ++ ['\n']) = byteLength first + 1 := byteLength_append first ['\n']
  have happend : first ++ ['\n'] ++ second ++ [] = first ++ '\n' :: second := by simp
  rwa [hlength, happend] at h

end Two

theorem run_documentActions_append (s : Session) {first : List Char} (second : List Char)
    (hclosed : Statement.Closed (split first)) :
    ((documentActions (first ++ '\n' :: second)).forM id).run s =
      ((documentActions first).forM id >>= fun _ =>
        (((split second).map (moved (byteLength first + 1))).flatMap
          (statementActions (first ++ '\n' :: second))).forM id).run s := by
  have hfirst : (((split first).flatMap
      (statementActions (first ++ '\n' :: second))).forM id).run s =
      ((documentActions first).forM id).run s :=
    (Follows.forM (statementActions_follow_first first ('\n' :: second))).run_eq
  rw [forM_eq_forM] at hfirst ⊢
  rw [documentActions_append first second hclosed, forM_append, run_bind, run_bind, hfirst]

def answer (document : List Char) :
    Except Error Unit × Session → Except Error (List String) × Session
  | (.ok _, s) => (.ok s.table.order, s)
  | (.error e, s) => (.error (e.within document), s)

theorem parse_eq_answer (s : Session) (source : String) :
    s.parse source = answer source.toList (((documentActions source.toList).forM id).run s) := by
  rw [parse]
  split
  · next hrun => rw [hrun, answer]
  · next hrun => rw [hrun, answer]

theorem Follows.continues {first second : List Char} {x x' : SessionM Unit} {s : Session}
    (h : Follows (Span.Tracks (.inside (first ++ ['\n']) second)) s.warnings (fun _ _ => True) x x') :
    Continues (byteLength first + 1) s.warnings (answer second (x.run s))
      (answer (first ++ '\n' :: second) (x'.run s)) := by
  have hlength : byteLength (first ++ ['\n']) = byteLength first + 1 := byteLength_append first ['\n']
  have happend : first ++ ['\n'] ++ second ++ [] = first ++ '\n' :: second := by simp
  obtain ⟨hresult, hstate⟩ := h s s (.refl s)
  obtain ⟨new, hold, hstate⟩ := hstate.warnings_moved
  rw [hlength] at hstate
  generalize x.run s = r at *
  generalize x'.run s = r' at *
  obtain ⟨r, t⟩ := r
  obtain ⟨r', t'⟩ := r'
  obtain rfl := hstate
  cases hresult with
  | ok =>
    refine ⟨⟨new, hold, rfl⟩, fun names hnames => hnames, ?_⟩
    intro e he
    cases he
  | error cause hspan =>
    refine ⟨⟨new, hold, rfl⟩, ?_, ?_⟩
    · intro names hnames
      cases hnames
    · intro e he
      cases he
      have hwithin := hspan.within_eq [] cause
      rw [hlength, happend] at hwithin
      rcases hwithin with hwithin | ⟨hnone, hwithin⟩
      · exact .inl (congrArg Except.error hwithin)
      · exact .inr ⟨hnone, congrArg Except.error hwithin⟩

/-- Two documents in a row, the first of which leaves nothing open, are run one after the other. If
the first one fails the second is not run. -/
theorem parse_append (s : Session) (first second : String)
    (hclosed : Statement.Closed (Statement.split first.toList)) :
    (∀ e t, s.parse first = (.error e, t) → s.parse (first ++ "\n" ++ second) = (.error e, t)) ∧
    ∀ names t, s.parse first = (.ok names, t) →
      Continues (byteLength first.toList + 1) t.warnings (t.parse second)
        (s.parse (first ++ "\n" ++ second)) := by
  have hjoined : (first ++ "\n" ++ second).toList = first.toList ++ '\n' :: second.toList := by simp
  rw [parse_eq_answer, parse_eq_answer, hjoined, run_documentActions_append s _ hclosed, run_bind]
  cases hrun : ((documentActions first.toList).forM id).run s with
  | mk r t =>
    cases r with
    | error e =>
      have hwithin : e.within (first.toList ++ '\n' :: second.toList) = e.within first.toList :=
        (Follows.forM (documentActions_follow first.toList)).within_eq hrun
      refine ⟨?_, ?_⟩
      · intro e' t' hfirst
        rw [← hfirst, answer, answer, hwithin]
      · intro names t' hfirst
        cases hfirst
    | ok =>
      refine ⟨?_, ?_⟩
      · intro e' t' hfirst
        cases hfirst
      · intro names t' hfirst
        cases hfirst
        rw [parse_eq_answer]
        exact (Follows.forM (statementActions_follow_second first.toList second.toList)).continues

/-- A warning and an error of the second document. -/
theorem parse_append_redeclared :
    let first := "% def vU (2)"
    let second := "% def vU (3)\n% def é"
    let t := ((Session.new {}).parse first).2
    Statement.Closed (split first.toList) ∧
      ((Session.new {}).parse first).1 = .ok ["vU"] ∧ (t.parse second).1.isOk = false ∧
      Continues (byteLength first.toList + 1) t.warnings (t.parse second)
        ((Session.new {}).parse (first ++ "\n" ++ second)) := by
  intro first second t
  have hclosed : Statement.Closed (split first.toList) := by decide +kernel
  have hnames : ((Session.new {}).parse first).1 = .ok ["vU"] := by decide +kernel
  refine ⟨hclosed, hnames, by decide +kernel, ?_⟩
  exact (parse_append (Session.new {}) first second hclosed).2 ["vU"] t (Prod.ext hnames rfl)

set_option maxRecDepth 100000 in
/-- An error in a tensor that is not written keeps its place. Here the metric of the session has
dimension one and the tensor that is differentiated has dimension two. -/
theorem unwritten_place_not_moved :
    let s := (Session.new {}).setMetric .none ⟨"g", 1, 2⟩
    let first := "% def gUU (1), gDD (1), vU (2)"
    let second := "A^i_j = \\nabla_j v^i"
    let e : Error := ⟨.dimensions "a" 1 2, .none, some ""⟩
    Statement.Closed (split first.toList) ∧ (s.parse first).1.isOk ∧
      ((s.parse first).2.parse second).1 = .error e ∧
      (s.parse (first ++ "\n" ++ second)).1 ≠ .error (e.moved (byteLength first.toList + 1)) := by
  decide +kernel

end Session

/-! The places of errors. A document run beside itself shows that all places it comes to are places
in it, so that each error quotes the text it points to. -/

/-- The error points to a part of the document, and quotes it. -/
structure Error.PointsInto (document : List Char) (e : Error) : Prop where
  ordered : e.span.start ≤ e.span.stop
  inside : e.span.stop ≤ byteLength document
  start : IsBoundary document e.span.start
  stop : IsBoundary document e.span.stop
  quoted : ∃ piece, slice? document e.span = some piece ∧ e.fragment = some piece.text

variable {document : List Char}

theorem Span.Tracks.pointsInto {a b : Span} (h : Span.Tracks (.still document) a b) (cause : Cause) :
    Error.PointsInto document (Error.within document { cause, span := a }) := by
  have hboundaries : a.start ≤ a.stop ∧ IsBoundary document a.start ∧ IsBoundary document a.stop := by
    rcases h with h | ⟨rfl, -⟩
    · exact ⟨h.ordered, h.start.boundary, h.stop.boundary⟩
    · exact ⟨Nat.le_refl 0, .zero, .zero⟩
  obtain ⟨hordered, hstart, hstop⟩ := hboundaries
  obtain ⟨piece, hpart, hspan⟩ := hstart.exists_partOf hstop hordered
  have hslice : slice? document a = some piece :=
    (congrArg (slice? document) hspan).symm.trans hpart.slice?
  refine ⟨hordered, hstop.le_byteLength, hstart, hstop, piece, hslice, ?_⟩
  simp [Error.within, hslice]

theorem Session.Follows.pointsInto {x : SessionM α} {Q : α → α → Prop} {s t : Session}
    (h : Follows (Span.Tracks (.still document)) s.warnings Q x x) (hrun : x.run s = (.error e, t)) :
    (e.within document).PointsInto document := by
  obtain ⟨hresult, -⟩ := h s s (.refl s)
  rw [hrun] at hresult
  cases hresult with
  | error cause hspan => exact hspan.pointsInto cause

theorem Cursor.accept?_eq_some {kind : TokenKind} (h : c.accept? kind = some (span, d)) :
    ∃ t, c.rest = t :: d.val.rest ∧ span = t.span := by
  obtain ⟨_ | ⟨t, ts⟩, last⟩ := c
  · cases h
  · rw [Cursor.accept?, Cursor.next?] at h
    dsimp only at h
    split at h
    · cases h
      exact ⟨t, rfl, rfl⟩
    · cases h

theorem Cursor.closeGroup?_eq_some (h : c.closeGroup? = some (span, d)) :
    ∃ ts t us, c.rest = ts ++ t :: us ∧ span = t.span := by
  obtain ⟨rest, last⟩ := c
  induction rest generalizing last with
  | nil =>
    rw [Cursor.closeGroup?] at h
    cases h
  | cons t ts ih =>
    rw [Cursor.closeGroup?, Cursor.next?] at h
    dsimp only at h
    split at h
    · cases h
      exact ⟨[], t, ts, rfl, rfl⟩
    · split at h
      · next hclose =>
        cases h
        obtain ⟨us, u, vs, hrest, hspan⟩ := ih _ hclose
        exact ⟨t :: us, u, vs, congrArg (t :: ·) hrest, hspan⟩
      · cases h

namespace Token

variable (hs : s.PartOf document)
include hs

theorem scan_listMoves (h : scan s = .ok ts) :
    ListMoves (.still document) s.offset s.stop ts ts := by
  have hscan := scan_moves hs.still
  rw [h] at hscan
  cases hscan with
  | ok h => exact h

theorem span_moves (h : scan s = .ok ts) {t : Token} (ht : t ∈ ts) :
    Span.Moves (.still document) t.span t.span :=
  (forall₂_same.mp (scan_listMoves hs h).tokens t ht).span

theorem exists_slice_between {as bs cs : List Token} {a b : Token}
    (h : scan s = .ok (as ++ a :: (bs ++ b :: cs))) :
    ∃ piece, slice? document ⟨a.span.stop, b.span.start⟩ = some piece := by
  obtain ⟨-, -, hafter⟩ := (scan_listMoves hs h).ascends.append.2
  have hordered : a.span.stop ≤ b.span.start := Nat.le_trans hafter.append.1.le hafter.append.2.1
  have ha := (span_moves hs h (t := a) (by simp)).stop.boundary
  have hb := (span_moves hs h (t := b) (by simp)).start.boundary
  obtain ⟨piece, hpart, hspan⟩ := ha.exists_partOf hb hordered
  exact ⟨piece, hspan ▸ hpart.slice?⟩

end Token

/-- Whatever is cut from the segment is a part of the document, down to its tokens and the names
that are spelled between braces. -/
structure Segment.CutsCleanly (document : List Char) (s : Segment) : Prop where
  slice : slice? document s.span = some s
  trim : s.trim.PartOf document
  drop : ∀ n, (s.drop n).PartOf document
  takeWhile : ∀ p, (s.takeWhile p).PartOf document
  dropWhile : ∀ p, (s.dropWhile p).PartOf document
  dropWhileEnd : ∀ p, (s.dropWhileEnd p).PartOf document
  items : ∀ item ∈ s.items, item.PartOf document
  words : ∀ word ∈ s.words, word.PartOf document
  tokens : ∀ ts, Token.scan s = .ok ts → ∀ t ∈ ts, ∃ piece, slice? document t.span = some piece
  names : ∀ ts, Token.scan s = .ok ts → ∀ c : Cursor, c.rest <:+ ts →
    ∀ opened d, c.accept? .openBrace = some (opened, d) →
    ∀ closed e, d.val.closeGroup? = some (closed, e) →
    ∃ piece, slice? document ⟨opened.stop, closed.start⟩ = some piece

theorem Segment.PartOf.cutsCleanly {s : Segment} (h : s.PartOf document) : s.CutsCleanly document where
  slice := h.slice?
  trim := h.trim
  drop := h.drop
  takeWhile := h.takeWhile
  dropWhile := h.dropWhile
  dropWhileEnd := h.dropWhileEnd
  items := fun item hitem => (forall₂_same.mp h.still.items item hitem).partOf
  words := fun word hword => (forall₂_same.mp h.still.words word hword).partOf
  tokens := fun ts hts t ht => by
    obtain ⟨cs, hslice, -⟩ := (Token.span_moves h hts ht).slice? rfl []
    exact ⟨_, hslice⟩
  names := by
    rintro ts hts c ⟨read, hread⟩ opened d hopen closed e hclose
    obtain ⟨a, hrest, rfl⟩ := Cursor.accept?_eq_some hopen
    obtain ⟨bs, b, cs, hrest', rfl⟩ := Cursor.closeGroup?_eq_some hclose
    rw [← hread, hrest, hrest'] at hts
    exact Token.exists_slice_between h hts

namespace Session

theorem valueOf_follows (document : List Char) :
    Follows (Span.Tracks (.still document)) old Eq (valueOf document) (valueOf document) := by
  have hwhole : Segment.PartOf document ⟨0, document⟩ := ⟨[], [], by simp, rfl⟩
  rw [valueOf]
  dsimp only
  refine .get fun s w _ => ?_
  have hparse := Formula.parse_moves hwhole.still [] s.table.isTensorBase
  rw [nil_append, append_nil] at hparse
  rw [table_withWarnings]
  refine (Follows.lift hparse).bind fun f f' hf => ?_
  refine (expandAndResolve_follows Span.tracks_none [] hf.moves).bind ?_
  rintro ⟨g, free⟩ ⟨g', free'⟩ ⟨hg, hfree⟩
  dsimp only
  rw [Occurrence.Matches.descriptions hfree]
  cases hfree with
  | nil => exact evaluate_follows Span.tracks_none [] hg
  | cons => exact .throw_bind _ hwhole.still.span.tracks

theorem parse_pointsInto {s t : Session} (h : s.parse source = (.error e, t)) :
    e.PointsInto source.toList := by
  have hactions : Follows (Span.Tracks (.still source.toList)) s.warnings (fun _ _ => True)
      ((documentActions source.toList).forM id) ((documentActions source.toList).forM id) :=
    .forM (documentActions_follow source.toList)
  rw [parse] at h
  split at h
  · cases h
  · next hrun =>
    cases h
    exact hactions.pointsInto hrun

theorem parseExpr_pointsInto {s t : Session} (h : s.parseExpr source = (.error e, t)) :
    e.PointsInto source.toList := by
  rw [parseExpr] at h
  split at h
  · cases h
  · next hrun =>
    cases h
    exact (valueOf_follows source.toList).pointsInto hrun

/-- Statements, directives, tokens and spelled names are taken from the document at places between
its characters, and so are the places of all errors, each of which quotes the text there. -/
theorem errors_point_into_document (source : String) :
    (∀ t ∈ Statement.split source.toList, t.text.PartOf source.toList) ∧
    (∀ s : Segment, s.PartOf source.toList → s.CutsCleanly source.toList) ∧
    (∀ (s t : Session) (e : Error), s.parse source = (.error e, t) → e.PointsInto source.toList) ∧
    (∀ (s t : Session) (e : Error), s.parseExpr source = (.error e, t) → e.PointsInto source.toList) ∧
    ∀ (config : Config) (e : Error), compile config source = .error e → e.PointsInto source.toList := by
  refine ⟨split_partOf _, fun s hs => hs.cutsCleanly, fun s t e => parse_pointsInto,
    fun s t e => parseExpr_pointsInto, ?_⟩
  intro config e h
  rw [compile] at h
  split at h
  · cases h
  · next hparse =>
    cases h
    exact parse_pointsInto hparse

/-- A name that is not one, of a character of two bytes. -/
theorem errors_point_into_document_accent :
    ∃ e t, (Session.new {}).parse "% def é" = (.error e, t) ∧ e.span = ⟨6, 8⟩ ∧
      e.PointsInto "% def é".toList := by
  have hrun : (Session.new {}).parse "% def é" =
      (.error ⟨.directive (.invalidName "é"), ⟨6, 8⟩, some "é"⟩, Session.new {}) := by
    cbv
  exact ⟨_, _, hrun, rfl, (errors_point_into_document "% def é").2.2.1 _ _ _ hrun⟩

end Session

end TensorCalculus
