import Mathlib.Data.List.Forall2
import TensorCalculus.Error

/-! Letters, digits and the digits of a number. -/
namespace TensorCalculus

variable {c : Char} {n : Nat}

theorem isAlpha_iff : c.isAlpha ↔ 65 ≤ c.toNat ∧ c.toNat ≤ 90 ∨ 97 ≤ c.toNat ∧ c.toNat ≤ 122 := by
  change (decide ('A'.val ≤ c.val ∧ c.val ≤ 'Z'.val) ||
    decide ('a'.val ≤ c.val) && decide (c.val ≤ 'z'.val)) = true ↔ _
  simp only [Bool.or_eq_true, Bool.and_eq_true, decide_eq_true_eq, UInt32.le_iff_toNat_le]
  exact Iff.rfl

theorem isDigit_iff : c.isDigit ↔ 48 ≤ c.toNat ∧ c.toNat ≤ 57 := by
  simp only [Char.isDigit, Bool.and_eq_true, decide_eq_true_eq, ge_iff_le, UInt32.le_iff_toNat_le]
  exact Iff.rfl

theorem isDigit_of_isAlpha (h : c.isAlpha) : c.isDigit = false := by
  rw [isAlpha_iff] at h
  rw [← Bool.not_eq_true, isDigit_iff]
  omega

theorem isBlank_of_isAlphanum (h : c.isAlphanum) : isBlank c = false := by
  rw [Char.isAlphanum, Bool.or_eq_true, isAlpha_iff, isDigit_iff] at h
  simp only [isBlank, Bool.or_eq_false_iff, Bool.and_eq_false_iff, decide_eq_false_iff_not,
    beq_eq_false_iff_ne, ne_eq]
  omega

theorem toList_toString (n : Nat) : (toString n).toList = Nat.toDigits 10 n :=
  Nat.toList_repr

theorem isDigit_of_mem_toString (hc : c ∈ (toString n).toList) : c.isDigit := by
  rw [toList_toString] at hc
  exact Nat.isDigit_of_mem_toDigits (by decide) (by decide) hc

theorem toList_toString_ne_nil (n : Nat) : (toString n).toList ≠ [] := by
  rw [toList_toString]
  exact Nat.toDigits_ne_nil

theorem foldl_toString (n : Nat) :
    (toString n).toList.foldl (fun n c => 10 * n + (c.toNat - '0'.toNat)) 0 = n := by
  rw [toList_toString]
  exact Nat.ofDigitChars_toDigits (by decide) (by decide)

open List

/-- Some characters of the document come before the offset, and the others after it. -/
def IsBoundary (document : List Char) (offset : Nat) : Prop :=
  ∃ before after, document = before ++ after ∧ offset = byteLength before

/-- The characters of the segment stand in the document, at its offset. -/
def Segment.PartOf (document : List Char) (s : Segment) : Prop :=
  ∃ before after, document = before ++ (s.chars ++ after) ∧ s.offset = byteLength before

variable {document : List Char}

theorem eq_nil_of_byteLength_eq_zero {cs : List Char} (h : byteLength cs = 0) : cs = [] := by
  cases cs with
  | nil => rfl
  | cons c cs =>
    have := c.utf8Size_pos
    rw [byteLength_cons] at h
    omega

theorem dropBytes?_append (before after : List Char) :
    dropBytes? (byteLength before) (before ++ after) = some after := by
  induction before with
  | nil => cases after <;> rfl
  | cons c before ih =>
    have hpos := c.utf8Size_pos
    obtain ⟨n, hn⟩ : ∃ n, byteLength (c :: before) = n + 1 :=
      ⟨byteLength (c :: before) - 1, by rw [byteLength_cons]; omega⟩
    rw [hn, cons_append, dropBytes?, ← hn, byteLength_cons, if_pos (Nat.le_add_right _ _),
      Nat.add_sub_cancel_left, ih]

theorem takeBytes?_append (cs after : List Char) :
    takeBytes? (byteLength cs) (cs ++ after) = some cs := by
  induction cs with
  | nil => cases after <;> rfl
  | cons c cs ih =>
    have hpos := c.utf8Size_pos
    obtain ⟨n, hn⟩ : ∃ n, byteLength (c :: cs) = n + 1 :=
      ⟨byteLength (c :: cs) - 1, by rw [byteLength_cons]; omega⟩
    rw [hn, cons_append, takeBytes?, ← hn, byteLength_cons, if_pos (Nat.le_add_right _ _),
      Nat.add_sub_cancel_left, ih]
    rfl

namespace IsBoundary

theorem le_byteLength (h : IsBoundary document n) : n ≤ byteLength document := by
  obtain ⟨before, after, rfl, rfl⟩ := h
  rw [byteLength_append]
  omega

theorem zero : IsBoundary document 0 :=
  ⟨[], document, rfl, rfl⟩

theorem exists_partOf {a b : Nat} (ha : IsBoundary document a) (hb : IsBoundary document b)
    (h : a ≤ b) : ∃ s : Segment, s.PartOf document ∧ s.span = ⟨a, b⟩ := by
  obtain ⟨before, after, hdocument, rfl⟩ := ha
  obtain ⟨before', after', rfl, rfl⟩ := hb
  rcases append_eq_append_iff.mp hdocument with ⟨cs, rfl, -⟩ | ⟨cs, rfl, -⟩
  · have hnil : cs = [] := by
      rw [byteLength_append] at h
      exact eq_nil_of_byteLength_eq_zero (by omega)
    subst hnil
    refine ⟨⟨byteLength before', []⟩, ⟨before', after', rfl, rfl⟩, ?_⟩
    simp [Segment.span, Segment.stop]
  · refine ⟨⟨byteLength before, cs⟩, ⟨before, after', by simp, rfl⟩, ?_⟩
    simp [Segment.span, Segment.stop]

end IsBoundary

namespace Segment.PartOf

variable {s : Segment}

theorem slice? (h : s.PartOf document) : Segment.slice? document s.span = some s := by
  obtain ⟨before, after, rfl, hoffset⟩ := h
  have hordered : ¬ s.span.stop < s.span.start := Nat.not_lt.mpr (Nat.le_add_right _ _)
  have hlength : s.span.stop - s.span.start = byteLength s.chars :=
    Nat.add_sub_cancel_left _ _
  have hdrop : dropBytes? s.span.start (before ++ (s.chars ++ after)) = some (s.chars ++ after) := by
    rw [show s.span.start = byteLength before from hoffset, dropBytes?_append]
  simp [Segment.slice?, hordered, hlength, hdrop, takeBytes?_append]
  rfl

variable (h : s.PartOf document)
include h

theorem start_isBoundary : IsBoundary document s.offset := by
  obtain ⟨before, after, rfl, hoffset⟩ := h
  exact ⟨before, _, rfl, hoffset⟩

theorem stop_isBoundary : IsBoundary document s.stop := by
  obtain ⟨before, after, rfl, hoffset⟩ := h
  refine ⟨before ++ s.chars, after, by simp, ?_⟩
  rw [byteLength_append, Segment.stop, hoffset]

theorem of_append {as bs : List Char} (hs : s.chars = as ++ bs) :
    PartOf document ⟨s.offset, as⟩ ∧ PartOf document ⟨s.offset + byteLength as, bs⟩ := by
  obtain ⟨before, after, rfl, hoffset⟩ := h
  rw [hs]
  refine ⟨⟨before, bs ++ after, by simp, hoffset⟩, before ++ as, after, by simp, ?_⟩
  rw [byteLength_append, hoffset]

theorem takeWhile (p : Char → Bool) : (s.takeWhile p).PartOf document :=
  (h.of_append takeWhile_append_dropWhile.symm).1

theorem dropWhile (p : Char → Bool) : (s.dropWhile p).PartOf document :=
  (h.of_append takeWhile_append_dropWhile.symm).2

theorem drop (n : Nat) : (s.drop n).PartOf document :=
  (h.of_append (take_append_drop n s.chars).symm).2

theorem dropWhileEnd (p : Char → Bool) : (s.dropWhileEnd p).PartOf document := by
  have hs : s.chars = (s.chars.reverse.dropWhile p).reverse ++ (s.chars.reverse.takeWhile p).reverse := by
    rw [← reverse_append, takeWhile_append_dropWhile, reverse_reverse]
  exact (h.of_append hs).1

theorem trim : s.trim.PartOf document :=
  (h.dropWhile isBlank).dropWhileEnd isBlank

end Segment.PartOf

/-! A document inside a larger one. All its places are moved by the length of what comes before it,
and what stands there is the same. -/

/-- A document that is moved by some bytes. -/
structure Move where
  document : List Char
  distance : Nat

structure Move.Offset (m : Move) (a b : Nat) : Prop where
  moved : b = a + m.distance
  boundary : IsBoundary m.document a

structure Span.Moves (m : Move) (a b : Span) : Prop where
  start : m.Offset a.start b.start
  stop : m.Offset a.stop b.stop
  ordered : a.start ≤ a.stop

/-- The place is moved, or it stands for what is not written. -/
def Span.Tracks (m : Move) (a b : Span) : Prop :=
  Span.Moves m a b ∨ a = .none ∧ b = .none

/-- The same characters in the document and in the larger one. -/
structure Segment.Moves (m : Move) (s s' : Segment) : Prop where
  chars : s'.chars = s.chars
  offset : s'.offset = s.offset + m.distance
  partOf : s.PartOf m.document

/-- Results that are alike, or errors for the same cause at places that are. -/
inductive SameOutcome (R : Span → Span → Prop) (Q : α → β → Prop) :
    Except Error α → Except Error β → Prop
  | ok {a : α} {b : β} : Q a b → SameOutcome R Q (.ok a) (.ok b)
  | error (cause : Cause) {a b : Span} : R a b →
      SameOutcome R Q (.error { cause, span := a }) (.error { cause, span := b })

abbrev Move.SameOutcome (m : Move) (Q : α → β → Prop) : Except Error α → Except Error β → Prop :=
  TensorCalculus.SameOutcome (Span.Tracks m) Q

variable {m : Move} {R : Span → Span → Prop} {Q : α → β → Prop}

theorem Span.Moves.tracks {a b : Span} (h : Span.Moves m a b) : Span.Tracks m a b :=
  .inl h

theorem Span.tracks_none : Span.Tracks m .none .none :=
  .inr ⟨rfl, rfl⟩

namespace SameOutcome

theorem bind {P : γ → δ → Prop} {x : Except Error α} {x' : Except Error β} {f : α → Except Error γ}
    {f' : β → Except Error δ} (hx : SameOutcome R Q x x')
    (hf : ∀ a b, Q a b → SameOutcome R P (f a) (f' b)) : SameOutcome R P (x >>= f) (x' >>= f') := by
  cases hx with
  | ok h => exact hf _ _ h
  | error cause h => exact .error cause h

theorem bindEq {P : γ → δ → Prop} {x x' : Except Error α} {f : α → Except Error γ}
    {f' : α → Except Error δ} (hx : SameOutcome R Eq x x') (hf : ∀ a, SameOutcome R P (f a) (f' a)) :
    SameOutcome R P (x >>= f) (x' >>= f') := by
  refine hx.bind ?_
  rintro a _ rfl
  exact hf a

theorem mono {P : α → β → Prop} {x : Except Error α} {x' : Except Error β}
    (hx : SameOutcome R Q x x') (h : ∀ a b, Q a b → P a b) : SameOutcome R P x x' := by
  cases hx with
  | ok hq => exact .ok (h _ _ hq)
  | error cause hspan => exact .error cause hspan

end SameOutcome

theorem Span.Moves.slice? {a b : Span} (h : Span.Moves m a b) {before : List Char}
    (hbefore : byteLength before = m.distance) (after : List Char) :
    ∃ cs, Segment.slice? m.document a = some ⟨a.start, cs⟩ ∧
      Segment.slice? (before ++ m.document ++ after) b = some ⟨b.start, cs⟩ := by
  obtain ⟨⟨offset, cs⟩, hpart, hspan⟩ :=
    h.start.boundary.exists_partOf h.stop.boundary h.ordered
  obtain rfl : offset = a.start := congrArg Span.start hspan
  have hstop : a.start + byteLength cs = a.stop := congrArg Span.stop hspan
  have hmoved : Segment.PartOf (before ++ m.document ++ after) ⟨b.start, cs⟩ := by
    obtain ⟨front, back, hdocument, hfront⟩ := hpart
    refine ⟨before ++ front, back ++ after, by simp [hdocument], ?_⟩
    rw [byteLength_append, hbefore, Nat.add_comm]
    exact h.start.moved.trans (congrArg (· + m.distance) hfront)
  have hb : Segment.span ⟨b.start, cs⟩ = b := by
    have hb := h.start.moved
    have hb' := h.stop.moved
    change Span.mk b.start (b.start + byteLength cs) = b
    rw [show b.start + byteLength cs = b.stop by omega]
  refine ⟨cs, ?_, hb ▸ hmoved.slice?⟩
  exact (congrArg (Segment.slice? m.document) hspan).symm.trans hpart.slice?

namespace Segment.Moves

variable {s s' : Segment} (h : Segment.Moves m s s')
include h

theorem span : Span.Moves m s.span s'.span where
  start := ⟨h.offset, h.partOf.start_isBoundary⟩
  stop := by
    refine ⟨?_, h.partOf.stop_isBoundary⟩
    simp only [Segment.span, Segment.stop, h.chars, h.offset]
    omega
  ordered := Nat.le_add_right _ _

theorem text : s'.text = s.text := by
  rw [Segment.text, Segment.text, h.chars]

theorem isEmpty : s'.isEmpty = s.isEmpty := by
  rw [Segment.isEmpty, Segment.isEmpty, h.chars]

theorem takeWhile (p : Char → Bool) : Segment.Moves m (s.takeWhile p) (s'.takeWhile p) where
  chars := by rw [Segment.takeWhile, Segment.takeWhile, h.chars]
  offset := h.offset
  partOf := h.partOf.takeWhile p

theorem dropWhile (p : Char → Bool) : Segment.Moves m (s.dropWhile p) (s'.dropWhile p) where
  chars := by rw [Segment.dropWhile, Segment.dropWhile, h.chars]
  offset := by
    simp only [Segment.dropWhile, h.chars, h.offset]
    omega
  partOf := h.partOf.dropWhile p

theorem drop (n : Nat) : Segment.Moves m (s.drop n) (s'.drop n) where
  chars := by rw [Segment.drop, Segment.drop, h.chars]
  offset := by
    simp only [Segment.drop, h.chars, h.offset]
    omega
  partOf := h.partOf.drop n

theorem dropWhileEnd (p : Char → Bool) : Segment.Moves m (s.dropWhileEnd p) (s'.dropWhileEnd p) where
  chars := by rw [Segment.dropWhileEnd, Segment.dropWhileEnd, h.chars]
  offset := h.offset
  partOf := h.partOf.dropWhileEnd p

theorem trim : Segment.Moves m s.trim s'.trim :=
  (h.dropWhile isBlank).dropWhileEnd isBlank

end Segment.Moves

end TensorCalculus
