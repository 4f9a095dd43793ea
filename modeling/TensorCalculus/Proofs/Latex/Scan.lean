import Mathlib.Order.Bounds.Basic
import TensorCalculus.Formula.Parse
import TensorCalculus.Proofs.Text.Slice

/-! Edits of words. The distance that is computed row by row is the least number of edits. A row
goes through the words from the front; to reverse two words leaves their distance as it is, so that
each new character can be the first one. -/
namespace TensorCalculus

/-- One character is inserted, deleted or replaced. -/
inductive Edit : List Char → List Char → Prop
  | insert (s t : List Char) (x : Char) : Edit (s ++ t) (s ++ x :: t)
  | delete (s t : List Char) (x : Char) : Edit (s ++ x :: t) (s ++ t)
  | replace (s t : List Char) (x y : Char) : Edit (s ++ x :: t) (s ++ y :: t)

/-- So many edits turn one word into the other. -/
inductive Edits : Nat → List Char → List Char → Prop
  | refl (a : List Char) : Edits 0 a a
  | step {a b c : List Char} {n : Nat} (h : Edit a b) (hs : Edits n b c) : Edits (n + 1) a c

variable {a b c rest : List Char} {x y : Char} {k l m n : Nat} {row : List Nat}

namespace Edit

theorem symm (h : Edit a b) : Edit b a := by
  cases h with
  | insert s t x => exact .delete s t x
  | delete s t x => exact .insert s t x
  | replace s t x y => exact .replace s t y x

theorem cons (x : Char) (h : Edit a b) : Edit (x :: a) (x :: b) := by
  cases h with
  | insert s t y => exact .insert (x :: s) t y
  | delete s t y => exact .delete (x :: s) t y
  | replace s t y z => exact .replace (x :: s) t y z

theorem reverse (h : Edit a b) : Edit a.reverse b.reverse := by
  cases h with
  | insert s t x => simpa using Edit.insert t.reverse s.reverse x
  | delete s t x => simpa using Edit.delete t.reverse s.reverse x
  | replace s t x y => simpa using Edit.replace t.reverse s.reverse x y

theorem length_le (h : Edit a b) : b.length ≤ a.length + 1 := by
  cases h <;> simp only [List.length_append, List.length_cons] <;> omega

theorem cons_cases (h : Edit (x :: a) b) :
    (∃ a', b = x :: a' ∧ Edit a a') ∨ (∃ y, b = y :: x :: a) ∨ b = a ∨ ∃ y, b = y :: a := by
  generalize hw : x :: a = w at h
  cases h with
  | insert s t y =>
    cases s with
    | nil => exact .inr (.inl ⟨y, rfl⟩)
    | cons z s =>
      cases hw
      exact .inl ⟨_, rfl, .insert s t y⟩
  | delete s t y =>
    cases s with
    | nil =>
      cases hw
      exact .inr (.inr (.inl rfl))
    | cons z s =>
      cases hw
      exact .inl ⟨_, rfl, .delete s t y⟩
  | replace s t y z =>
    cases s with
    | nil =>
      cases hw
      exact .inr (.inr (.inr ⟨z, rfl⟩))
    | cons w s =>
      cases hw
      exact .inl ⟨_, rfl, .replace s t y z⟩

end Edit

namespace Edits

theorem single (h : Edit a b) : Edits 1 a b :=
  .step h (.refl b)

theorem trans (h : Edits m a b) (h' : Edits n b c) : Edits (m + n) a c := by
  induction h with
  | refl a => simpa using h'
  | step h _ ih =>
    rw [Nat.add_right_comm]
    exact .step h (ih h')

theorem symm (h : Edits n a b) : Edits n b a := by
  induction h with
  | refl a => exact .refl a
  | step h _ ih => exact ih.trans (.single h.symm)

theorem map {f : List Char → List Char} (hf : ∀ {a b}, Edit a b → Edit (f a) (f b))
    (h : Edits n a b) : Edits n (f a) (f b) := by
  induction h with
  | refl a => exact .refl (f a)
  | step h _ ih => exact .step (hf h) ih

theorem length_le (h : Edits n a b) : b.length ≤ a.length + n := by
  induction h with
  | refl a => exact Nat.le_refl _
  | step h _ ih =>
    have := h.length_le
    omega

theorem to_nil (a : List Char) : Edits a.length a [] := by
  induction a with
  | nil => exact .refl []
  | cons x a ih => exact .step (.delete [] a x) ih

/-- The first characters are the same and stay, or at least one edit is made at the front. -/
theorem uncons (h : Edits m (x :: a) (y :: b)) :
    (x = y ∧ ∃ k ≤ m, Edits k a b) ∨
      ∃ k < m, Edits k a b ∨ Edits k a (y :: b) ∨ Edits k (x :: a) b := by
  induction m using Nat.strong_induction_on generalizing x a with
  | _ m ih =>
    cases h with
    | refl => exact .inl ⟨rfl, 0, Nat.le_refl 0, .refl b⟩
    | @step _ _ _ n hfirst hs =>
      rcases hfirst.cons_cases with ⟨a', rfl, h⟩ | ⟨z, rfl⟩ | rfl | ⟨z, rfl⟩
      · rcases ih n (by omega) hs with ⟨rfl, k, hk, hs⟩ | ⟨k, hk, hs | hs | hs⟩
        · exact .inl ⟨rfl, k + 1, by omega, .step h hs⟩
        · exact .inr ⟨k + 1, by omega, .inl (.step h hs)⟩
        · exact .inr ⟨k + 1, by omega, .inr (.inl (.step h hs))⟩
        · exact .inr ⟨k + 1, by omega, .inr (.inr (.step (h.cons x) hs))⟩
      · rcases ih n (by omega) hs with ⟨-, k, hk, hs⟩ | ⟨k, hk, hs | hs | hs⟩
        · exact .inr ⟨k, by omega, .inr (.inr hs)⟩
        · exact .inr ⟨k, by omega, .inr (.inr hs)⟩
        · -- The character that was put in front has been deleted again.
          rcases ih k (by omega) hs with ⟨hxy, l, hl, hs⟩ | ⟨l, hl, hs⟩
          · exact .inl ⟨hxy, l, by omega, hs⟩
          · exact .inr ⟨l, by omega, hs⟩
        · exact .inr ⟨k + 1, by omega, .inr (.inr (.step (.insert [] (x :: a) z) hs))⟩
      · exact .inr ⟨n, by omega, .inr (.inl hs)⟩
      · rcases ih n (by omega) hs with ⟨-, k, hk, hs⟩ | ⟨k, hk, hs | hs | hs⟩
        · exact .inr ⟨k, by omega, .inl hs⟩
        · exact .inr ⟨k, by omega, .inl hs⟩
        · exact .inr ⟨k, by omega, .inr (.inl hs)⟩
        · exact .inr ⟨k + 1, by omega, .inr (.inr (.step (.replace [] a x z) hs))⟩

end Edits

/-- The least number of edits that turn one word into the other. -/
def IsDistance (a b : List Char) (n : Nat) : Prop :=
  IsLeast {n | Edits n a b} n

namespace IsDistance

theorem to_nil (a : List Char) : IsDistance a [] a.length :=
  ⟨.to_nil a, fun _ h => by simpa using h.symm.length_le⟩

theorem symm (h : IsDistance a b n) : IsDistance b a n :=
  ⟨h.1.symm, fun _ hm => h.2 hm.symm⟩

theorem of_reverse (h : IsDistance a.reverse b.reverse n) : IsDistance a b n := by
  refine ⟨?_, fun m hm => h.2 (hm.map Edit.reverse)⟩
  simpa using h.1.map Edit.reverse

theorem cons_self (h : IsDistance a b n) (x : Char) : IsDistance (x :: a) (x :: b) n := by
  refine ⟨h.1.map (Edit.cons x), fun m hm => ?_⟩
  -- Edits that pair the common character with another one are no fewer than those that keep it.
  have hkeep : ∃ k ≤ m, Edits k a b := by
    rcases hm.uncons with ⟨-, hk⟩ | ⟨k, hk, hs | hs | hs⟩
    · exact hk
    · exact ⟨k, hk.le, hs⟩
    · exact ⟨k + 1, hk, hs.trans (.single (.delete [] b x))⟩
    · exact ⟨k + 1, hk, .step (.insert [] a x) hs⟩
  obtain ⟨k, hk, hs⟩ := hkeep
  exact (h.2 hs).trans hk

theorem cons_of_ne (hxy : x ≠ y) (hdiagonal : IsDistance a b k) (habove : IsDistance a (y :: b) l)
    (hleft : IsDistance (x :: a) b m) : IsDistance (x :: a) (y :: b) (1 + min k (min l m)) := by
  constructor
  · have hs (n : Nat) (hn : n = k ∨ n = l ∨ n = m) : Edits (1 + n) (x :: a) (y :: b) := by
      rcases hn with rfl | rfl | rfl
      · have htail : Edits n (y :: a) (y :: b) := Edits.map (Edit.cons y) hdiagonal.1
        exact (Edits.single (.replace [] a x y)).trans htail
      · exact (Edits.single (.delete [] a x)).trans habove.1
      · rw [Nat.add_comm]
        exact Edits.trans hleft.1 (.single (.insert [] b y))
    exact hs _ (by omega)
  · intro n hn
    rcases hn.uncons with ⟨rfl, -⟩ | ⟨i, hi, hs | hs | hs⟩
    · exact absurd rfl hxy
    · have := hdiagonal.2 hs
      omega
    · have := habove.2 hs
      omega
    · have := hleft.2 hs
      omega

end IsDistance

/-- The distances of `a` to `b`, and to what becomes of it when one character of `rest` after the
other is put in front. -/
inductive IsRow (a : List Char) : List Char → List Char → List Nat → Prop
  | last {b : List Char} {n : Nat} (h : IsDistance a b n) : IsRow a b [] [n]
  | next {b rest : List Char} {n : Nat} {y : Char} {row : List Nat} (h : IsDistance a b n)
    (hrow : IsRow a (y :: b) rest row) : IsRow a b (y :: rest) (n :: row)

namespace IsRow

theorem exists_head (h : IsRow a b rest row) : ∃ n row', row = n :: row' ∧ IsDistance a b n := by
  cases h with
  | last h => exact ⟨_, _, rfl, h⟩
  | next h _ => exact ⟨_, _, rfl, h⟩

theorem start (b rest : List Char) : IsRow [] b rest (List.range' b.length (rest.length + 1)) := by
  induction rest generalizing b with
  | nil => exact .last (IsDistance.to_nil b).symm
  | cons y rest ih => exact .next (IsDistance.to_nil b).symm (ih (y :: b))

theorem nextDistances (h : IsRow a b rest (k :: row)) (hleft : IsDistance (x :: a) b n) :
    IsRow (x :: a) b rest (n :: nextDistances x rest (k :: row) n) := by
  induction rest generalizing b k row n with
  | nil =>
    cases h
    exact .last hleft
  | cons y rest ih =>
    cases h with
    | next hdiagonal hrow =>
      obtain ⟨l, row, rfl, habove⟩ := hrow.exists_head
      refine .next hleft (ih hrow ?_)
      by_cases hxy : x = y
      · rw [if_pos (beq_iff_eq.mpr hxy), hxy]
        exact hdiagonal.cons_self y
      · rw [if_neg (by simpa using hxy)]
        exact .cons_of_ne hxy hdiagonal habove hleft

theorem distanceRow (h : IsRow a [] b row) (x : Char) : IsRow (x :: a) [] b (distanceRow b row x) := by
  obtain ⟨n, row, rfl, hn⟩ := h.exists_head
  refine h.nextDistances ?_
  rw [hn.unique (IsDistance.to_nil a)]
  exact .to_nil (x :: a)

theorem foldl (h : IsRow a [] b row) (s : List Char) :
    IsRow (s.reverse ++ a) [] b (s.foldl (TensorCalculus.distanceRow b) row) := by
  induction s generalizing a row with
  | nil => exact h
  | cons x s ih => simpa using ih (h.distanceRow x)

theorem getLastD (h : IsRow a b rest row) : IsDistance a (rest.reverse ++ b) (row.getLastD 0) := by
  induction h with
  | last h => exact h
  | next _ hrow ih =>
    obtain ⟨n, row, rfl, -⟩ := hrow.exists_head
    simpa using ih

end IsRow

theorem isDistance_editDistance (a b : List Char) : IsDistance a b (editDistance a b) := by
  have h := ((IsRow.start [] b).foldl a).getLastD
  rw [List.append_nil, List.append_nil, List.length_nil, ← List.range_eq_range'] at h
  exact h.of_reverse

/-- The distance is the least number of insertions, deletions and replacements of one character,
and so it is a metric. -/
theorem editDistance_isLeast (a b c : List Char) :
    IsLeast {n | Edits n a b} (editDistance a b) ∧ editDistance a b = editDistance b a ∧
      editDistance a c ≤ editDistance a b + editDistance b c ∧ (editDistance a b = 0 ↔ a = b) := by
  have h := isDistance_editDistance a b
  refine ⟨h, ?_, ?_, ?_⟩
  · exact h.unique (isDistance_editDistance b a).symm
  · exact (isDistance_editDistance a c).2 (h.1.trans (isDistance_editDistance b c).1)
  · constructor
    · intro hzero
      have hs : Edits 0 a b := hzero ▸ h.1
      cases hs
      rfl
    · rintro rfl
      exact Nat.le_zero.mp (h.2 (.refl a))

/-! The tokens of a text cover it. Each of them is written out under its span, and what is between
them has no meaning. -/

variable {ts ts' : List Token} {t : Token}

open List

namespace Token

/-- The constructs that are skipped: blanks and delimiters, spacing commands, and the ends of
environments with or without their names. -/
inductive Dropped : List Char → Prop
  | delimiter {c : Char} (h : c = '&' ∨ c = '$' ∨ isBlank c) : Dropped [c]
  | control {c : Char} (h : c ∈ [',', ';', ':', '!'] ∨ isBlank c) : Dropped ['\\', c]
  | spacing {name : String} (h : name ∈ Command.spacing) : Dropped ('\\' :: name.toList)
  | environment {name : String} (h : name = "begin" ∨ name = "end") : Dropped ('\\' :: name.toList)
  | named {name : String} (h : name = "begin" ∨ name = "end") {blanks inner : List Char}
    (hblanks : ∀ c ∈ blanks, isBlank c) (hinner : '\x7d' ∉ inner) :
    Dropped ('\\' :: (name.toList ++ (blanks ++ '\x7b' :: (inner ++ ['\x7d']))))

def Skipped (cs : List Char) : Prop :=
  ∃ pieces : List (List Char), (∀ p ∈ pieces, Dropped p) ∧ cs = pieces.flatten

/-- What a token stands for. -/
structure Denotes (k : TokenKind) (cs : List Char) : Prop where
  text : cs = k.text.toList
  nonempty : cs ≠ []
  known : ∀ name, k = .command name → Command.isKnown name

/-- How tokens lie in a text that starts at an offset. -/
def Covers (offset : Nat) (cs : List Char) : List Token → Prop
  | [] => Skipped cs
  | t :: ts => ∃ gap text rest, cs = gap ++ (text ++ rest) ∧ Skipped gap ∧ Denotes t.kind text ∧
    t.span = Segment.span ⟨offset + byteLength gap, text⟩ ∧ Covers t.span.stop rest ts

/-- The characters that a reading is of. -/
def Reading.Describes : Reading → List Char → Prop
  | token kind, cs => Denotes kind cs
  | skip, cs => Dropped cs
  | unknown _ _, _ => True

theorem denotes_mark {c : Char} {k : TokenKind} (h : mark? c = some k) : Denotes k [c] := by
  unfold mark? at h
  split at h <;> cases h
  all_goals exact ⟨by decide, cons_ne_nil _ _, by simp⟩

theorem take_environmentLength (cs : List Char) :
    cs.take (environmentLength cs) = [] ∨ ∃ blanks inner, (∀ c ∈ blanks, isBlank c) ∧
      '\x7d' ∉ inner ∧ cs.take (environmentLength cs) = blanks ++ '\x7b' :: (inner ++ ['\x7d']) := by
  unfold environmentLength
  dsimp only
  split
  · next inner hdrop =>
    split
    · next hclosed =>
      obtain ⟨name, rest, rfl, hname⟩ := eq_append_cons_of_mem (contains_iff_mem.mp hclosed)
      have hwhile : (name ++ '\x7d' :: rest).takeWhile (· != '\x7d') = name := by
        rw [takeWhile_append_of_pos]
        · simp
        · exact fun c hc => bne_iff_ne.mpr (ne_of_mem_of_not_mem hc hname)
      have hblanks := prefix_iff_eq_take.mp ( takeWhile_prefix (l := cs) isBlank)
      refine .inr ⟨cs.takeWhile isBlank, name, all_eq_true.mp all_takeWhile, hname, ?_⟩
      rw [hwhile, Nat.add_assoc, take_add, ← hblanks, hdrop, Nat.add_comm 2,
        take_succ_cons, take_length_add_append]
      rfl
    · exact .inl rfl
  · exact .inl rfl

theorem readCommand_describes (cs : List Char) :
    (readCommand cs).1.Describes ('\\' :: cs.take (readCommand cs).2) := by
  cases cs with
  | nil => trivial
  | cons c cs =>
    obtain ⟨name, hname⟩ : ∃ name : String, c :: cs.takeWhile Char.isAlpha = name.toList :=
      ⟨.ofList (c :: cs.takeWhile Char.isAlpha), by simp⟩
    have htake : (c :: cs).take name.toList.length = name.toList := by
      rw [← hname, length_cons, take_succ_cons, ← prefix_iff_eq_take.mp ( takeWhile_prefix _)]
    rw [readCommand, hname]
    dsimp only
    rw [String.ofList_toList]
    split
    · split
      · next hend =>
        have hend : name = "begin" ∨ name = "end" := by simpa using hend
        dsimp only
        rw [take_add, htake]
        obtain hnone | ⟨blanks, inner, hblanks, hinner, hnamed⟩ :=
          take_environmentLength ((c :: cs).drop name.toList.length)
        · rw [hnone, append_nil]
          exact .environment hend
        · rw [hnamed]
          exact .named hend hblanks hinner
      · split
        · next hspacing =>
          dsimp only
          rw [htake]
          exact .spacing (contains_iff_mem.mp hspacing)
        · split
          · next hknown =>
            dsimp only
            rw [htake]
            refine ⟨by simp [TokenKind.text], cons_ne_nil _ _, ?_⟩
            rintro name ⟨⟩
            exact hknown
          · trivial
    · split
      · next hc =>
        rw [beq_iff_eq.mp hc]
        exact ⟨rfl, cons_ne_nil _ _, by simp⟩
      · split
        · next hc => exact .control (by simpa [or_assoc] using hc)
        · trivial

theorem read_describes (c : Char) (cs : List Char) :
    (read c cs).1.Describes (c :: cs.take (read c cs).2) := by
  unfold read
  split
  · next hc => exact .delimiter (by simpa [or_assoc] using hc)
  · split
    · next hc =>
      rw [beq_iff_eq.mp hc]
      exact readCommand_describes cs
    · split
      · next hmark => exact denotes_mark hmark
      · split
        · exact ⟨by simp [TokenKind.text], cons_ne_nil _ _, by simp⟩
        · split
          · exact ⟨by simp [TokenKind.text], cons_ne_nil _ _, by simp⟩
          · trivial

theorem Skipped.cons {piece cs : List Char} (hpiece : Dropped piece) (h : Skipped cs) :
    Skipped (piece ++ cs) := by
  obtain ⟨pieces, hpieces, rfl⟩ := h
  exact ⟨piece :: pieces, forall_mem_cons.mpr ⟨hpiece, hpieces⟩, rfl⟩

theorem Covers.skip {offset : Nat} {piece cs : List Char}
    (h : Covers (offset + byteLength piece) cs ts) (hpiece : Dropped piece) :
    Covers offset (piece ++ cs) ts := by
  cases ts with
  | nil => exact Skipped.cons hpiece h
  | cons t ts =>
    obtain ⟨gap, text, rest, rfl, hgap, htext, hspan, hrest⟩ := h
    refine ⟨piece ++ gap, text, rest, by simp, hgap.cons hpiece, htext, ?_, hrest⟩
    rw [hspan, byteLength_append, Nat.add_assoc]

theorem covers_scanFrom {offset : Nat} {cs : List Char} {ts : List Token}
    (h : scanFrom offset cs = .ok ts) : Covers offset cs ts := by
  cases cs with
  | nil =>
    rw [scanFrom] at h
    cases h
    exact ⟨[], by simp, rfl⟩
  | cons c cs =>
    have hread := read_describes c cs
    rw [scanFrom] at h
    generalize read c cs = r at h hread
    obtain ⟨reading, n⟩ := r
    dsimp only at h hread
    have hcs : c :: cs.take n ++ cs.drop n = c :: cs := by simp
    cases reading with
    | skip =>
      rw [← hcs]
      exact (covers_scanFrom h).skip hread
    | token kind =>
      cases htokens : scanFrom (offset + byteLength (c :: cs.take n)) (cs.drop n) with
      | error e =>
        rw [htokens] at h
        cases h
      | ok tokens =>
        rw [htokens] at h
        cases h
        exact ⟨[], c :: cs.take n, cs.drop n, hcs.symm, ⟨[], by simp, rfl⟩, hread, rfl,
          covers_scanFrom htokens⟩
    | unknown text suggestions => cases h
termination_by cs.length

section Parts

variable {document cs : List Char} {offset : Nat}

/-- The token is written out under its span, between two offsets. -/
structure Written (document : List Char) (start stop : Nat) (t : Token) : Prop where
  start_le : start ≤ t.span.start
  start_lt : t.span.start < t.span.stop
  stop_le : t.span.stop ≤ stop
  slice : ∃ text, Segment.slice? document t.span = some text ∧ Denotes t.kind text.chars

section

variable (h : Covers offset cs ts) (hpart : Segment.PartOf document ⟨offset, cs⟩)
include h hpart

theorem Covers.written : ∀ t ∈ ts, t.Written document offset (offset + byteLength cs) := by
  induction ts generalizing offset cs with
  | nil => simp
  | cons t ts ih =>
    obtain ⟨gap, text, rest, rfl, -, htext, hspan, hrest⟩ := h
    obtain ⟨htoken, hmore⟩ := (hpart.of_append rfl).2.of_append rfl
    have hpos := Nat.pos_of_ne_zero (mt eq_nil_of_byteLength_eq_zero htext.nonempty)
    rw [hspan] at hrest
    simp only [byteLength_append]
    refine forall_mem_cons.mpr ⟨⟨?_, ?_, ?_, ?_⟩, fun u hu => ?_⟩
    · rw [hspan]
      exact Nat.le_add_right _ _
    · rw [hspan]
      exact Nat.lt_add_of_pos_right hpos
    · rw [hspan]
      change offset + byteLength gap + byteLength text ≤ _
      omega
    · rw [hspan]
      exact ⟨_, htoken.slice?, htext⟩
    · obtain ⟨hstart, hlt, hstop, hslice⟩ := ih hrest hmore u hu
      change offset + byteLength gap + byteLength text ≤ _ at hstart
      change _ ≤ offset + byteLength gap + byteLength text + byteLength rest at hstop
      exact ⟨by omega, hlt, by omega, hslice⟩

theorem Covers.pairwise : ts.Pairwise fun t u => t.span.stop ≤ u.span.start := by
  induction ts generalizing offset cs with
  | nil => exact .nil
  | cons t ts ih =>
    obtain ⟨gap, text, rest, rfl, -, -, hspan, hrest⟩ := h
    obtain ⟨-, hmore⟩ := (hpart.of_append rfl).2.of_append rfl
    rw [hspan] at hrest
    exact .cons (fun u hu => hspan ▸ (hrest.written hmore u hu).start_le) (ih hrest hmore)

end

end Parts

/-- The tokens of a part of a document are written out in it one after the other, and the text
between them is skipped construct by construct. -/
theorem scan_covers {document : List Char} {s : Segment} (hs : s.PartOf document) {ts : List Token}
    (h : scan s = .ok ts) :
    (∀ t ∈ ts, t.Written document s.offset s.stop) ∧
      ts.Pairwise (fun t u => t.span.stop ≤ u.span.start) ∧ Covers s.offset s.chars ts :=
  have hcovers := covers_scanFrom h
  ⟨hcovers.written hs, hcovers.pairwise hs, hcovers⟩

theorem scan_covers_aligned :
    let document := "é\\begin \x7baligned\x7d\\mathrm\x7bv\x7d &= \\quad 2.5\\,x".toList
    let s : Segment := ⟨2, document.tail⟩
    s.PartOf document ∧ ∃ ts, scan s = .ok ts ∧ ts.length = 7 ∧
      (∀ t ∈ ts, t.Written document s.offset s.stop) ∧
      ts.Pairwise (fun t u => t.span.stop ≤ u.span.start) ∧ Covers s.offset s.chars ts := by
  intro document s
  have hs : s.PartOf document := ⟨['é'], [], by decide +kernel, rfl⟩
  have hlength : (scan s).toOption.map List.length = some 7 := by decide +kernel
  cases hscan : scan s with
  | error e =>
    rw [hscan] at hlength
    cases hlength
  | ok ts =>
    rw [hscan] at hlength
    exact ⟨hs, ts, rfl, Option.some.inj hlength, scan_covers hs hscan⟩

/-! Texts and the kinds of their tokens. `Spells F cs ks` says that the characters are scanned as
tokens of these kinds wherever they stand, if the text after them has the property `F`. -/

def Spells (F : List Char → Prop) (cs : List Char) (ks : List TokenKind) : Prop :=
  ∀ offset, ∃ ts : List Token, ts.map (·.kind) = ks ∧ ∀ rest, F rest →
    scanFrom offset (cs ++ rest) = (ts ++ ·) <$> scanFrom (offset + byteLength cs) rest

/-- The text does not go on with a letter, a digit or a point. -/
def Bounded (cs : List Char) : Prop :=
  ∀ c ∈ cs.head?, c.isAlpha = false ∧ c.isDigit = false ∧ c ≠ '.'

abbrev Anything (_ : List Char) : Prop := True

variable {F G : List Char → Prop} {as bs : List Char} {js ks : List TokenKind} {c : Char}
  {k : TokenKind}

theorem spells_nil : Spells F [] [] := by
  intro offset
  refine ⟨[], rfl, fun rest _ => ?_⟩
  rw [nil_append, byteLength_nil, Nat.add_zero]
  cases scanFrom offset rest <;> rfl

theorem Spells.append (ha : Spells F as js) (hb : Spells G bs ks)
    (h : ∀ rest, G rest → F (bs ++ rest)) : Spells G (as ++ bs) (js ++ ks) := by
  intro offset
  obtain ⟨ts, rfl, hts⟩ := ha offset
  obtain ⟨us, rfl, hus⟩ := hb (offset + byteLength as)
  refine ⟨ts ++ us, by simp, fun rest hrest => ?_⟩
  rw [append_assoc, hts _ (h rest hrest), hus rest hrest, byteLength_append, Nat.add_assoc]
  cases scanFrom (offset + (byteLength as + byteLength bs)) rest with
  | error e => rfl
  | ok vs => exact congrArg Except.ok (append_assoc ts us vs).symm

theorem Spells.mono (h : Spells F as ks) (hFG : ∀ rest, G rest → F rest) : Spells G as ks := by
  intro offset
  obtain ⟨ts, hts, hscan⟩ := h offset
  exact ⟨ts, hts, fun rest hrest => hscan rest (hFG rest hrest)⟩

theorem spells_of_read (h : ∀ rest, F rest → read c (as ++ rest) = (.token k, as.length)) :
    Spells F (c :: as) [k] := by
  intro offset
  refine ⟨[⟨k, ⟨offset, offset + byteLength (c :: as)⟩⟩], rfl, fun rest hrest => ?_⟩
  rw [cons_append, scanFrom, h rest hrest]
  dsimp only
  rw [take_left, drop_left]
  cases scanFrom (offset + byteLength (c :: as)) rest <;> rfl

theorem spells_blank : Spells Anything [' '] [] := by
  intro offset
  refine ⟨[], rfl, fun rest _ => ?_⟩
  have hread : read ' ' rest = (.skip, 0) := rfl
  rw [cons_append, nil_append, scanFrom, hread]
  change scanFrom (offset + byteLength [' ']) rest = _
  cases scanFrom (offset + byteLength [' ']) rest <;> rfl

theorem spells_mark (h : mark? c = some k) : Spells Anything [c] [k] := by
  refine spells_of_read fun rest _ => ?_
  unfold mark? at h
  split at h <;> first | contradiction | (cases h; rfl)

theorem bounded_of_mark (h : mark? c = some k) (cs : List Char) : Bounded (c :: cs) := by
  intro d hd
  cases hd
  unfold mark? at h
  split at h <;> first | contradiction | decide

theorem bounded_blank (cs : List Char) : Bounded (' ' :: cs) := by
  intro d hd
  cases hd
  decide

theorem mark?_of_isAlphanum (h : c.isAlphanum) : mark? c = none := by
  unfold mark?
  split <;> first | rfl | contradiction

theorem read_of_isAlphanum (h : c.isAlphanum) (cs : List Char) :
    read c cs = if c.isDigit then
      (.token (.number (String.ofList (c :: cs.take (numberLength true cs)))), numberLength true cs)
    else (.token (.letter c), 0) := by
  have hne {d : Char} (hd : d.isAlphanum = false) : c ≠ d := by
    rintro rfl
    rw [h] at hd
    contradiction
  have halpha (hd : c.isDigit = false) : c.isAlpha := by
    rw [Char.isAlphanum, hd, Bool.or_false] at h
    exact h
  have hpoint : (c != '.') = true := by simpa using hne (d := '.') rfl
  rw [read, mark?_of_isAlphanum h, isBlank_of_isAlphanum h, hpoint]
  cases hd : c.isDigit
  · simp [hne (d := '&') rfl, hne (d := '$') rfl, hne (d := '\\') rfl, hne (d := '.') rfl, halpha hd]
  · simp [hne (d := '&') rfl, hne (d := '$') rfl, hne (d := '\\') rfl]

theorem spells_letter (h : c.isAlpha) : Spells Anything [c] [.letter c] := by
  refine spells_of_read fun rest _ => ?_
  rw [nil_append, read_of_isAlphanum (by rw [Char.isAlphanum, h, Bool.true_or]),
    isDigit_of_isAlpha h]
  rfl

theorem numberLength_append {ds rest : List Char} (hd : ∀ d ∈ ds, d.isDigit) (h : Bounded rest) :
    numberLength true (ds ++ rest) = ds.length := by
  induction ds with
  | nil =>
    cases rest with
    | nil => rfl
    | cons c rest =>
      obtain ⟨-, hdigit, hpoint⟩ := h c rfl
      rw [nil_append, numberLength, hdigit]
      simp [hpoint]
  | cons d ds ih =>
    rw [forall_mem_cons] at hd
    rw [cons_append, numberLength, if_pos hd.1, ih hd.2, length_cons, Nat.add_comm]

theorem spells_digits {ds : List Char} (hne : ds ≠ []) (hd : ∀ d ∈ ds, d.isDigit) :
    Spells Bounded ds [.number (String.ofList ds)] := by
  cases ds with
  | nil => contradiction
  | cons d ds =>
    rw [forall_mem_cons] at hd
    refine spells_of_read fun rest hrest => ?_
    rw [read_of_isAlphanum (by rw [Char.isAlphanum, hd.1, Bool.or_true]), if_pos hd.1,
      numberLength_append hd.2 hrest, take_left]

theorem spells_nat (n : Nat) : Spells Bounded (toString n).toList [.number (toString n)] := by
  have h := spells_digits (toList_toString_ne_nil n) fun c hc => isDigit_of_mem_toString hc
  rwa [String.ofList_toList] at h

theorem takeWhile_append {ds rest : List Char} (hd : ∀ d ∈ ds, d.isAlpha) (h : Bounded rest) :
    (ds ++ rest).takeWhile Char.isAlpha = ds := by
  rw [takeWhile_append_of_pos hd]
  cases rest with
  | nil => simp
  | cons c rest => simp [(h c rfl).1]

theorem spells_command {name : String} (hne : name.toList ≠ []) (halpha : ∀ c ∈ name.toList, c.isAlpha)
    (hknown : Command.isKnown name)
    (hspace : name ≠ "begin" ∧ name ≠ "end" ∧ name ∉ Command.spacing) :
    Spells Bounded ('\\' :: name.toList) [.command name] := by
  refine spells_of_read fun rest hrest => ?_
  have hread : read '\\' (name.toList ++ rest) = readCommand (name.toList ++ rest) := rfl
  rw [hread]
  obtain ⟨c, cs, hcs⟩ := exists_cons_of_ne_nil hne
  rw [hcs, forall_mem_cons] at halpha
  rw [hcs, cons_append, readCommand, if_pos halpha.1, takeWhile_append halpha.2 hrest, ← hcs]
  simp [hspace, hknown]

/-! Tokens of a text that is moved. They are scanned as before, and what is read from them differs
in its places only. The tokens of a text stand one after the other, so that what is read later
ends later. -/

/-- Tokens that stand one after the other between two offsets. -/
def Ascends (start : Nat) : List Token → Nat → Prop
  | [], stop => start ≤ stop
  | t :: ts, stop => start ≤ t.span.start ∧ t.span.start ≤ t.span.stop ∧ Ascends t.span.stop ts stop

def endOf (start : Nat) (ts : List Token) : Nat :=
  (ts.getLast?.map (·.span.stop)).getD start

@[simp] theorem endOf_nil (start : Nat) : endOf start [] = start := rfl

@[simp] theorem endOf_cons (start : Nat) (t : Token) (ts : List Token) :
    endOf start (t :: ts) = endOf t.span.stop ts := by
  cases h : ts.getLast? <;> simp [endOf, getLast?_cons, h]

@[simp] theorem endOf_append (start : Nat) (as bs : List Token) :
    endOf start (as ++ bs) = endOf (endOf start as) bs := by
  induction as generalizing start with
  | nil => rfl
  | cons t ts ih => simp [ih]

namespace Ascends

variable {start stop : Nat}

theorem le (h : Ascends start ts stop) : start ≤ stop := by
  induction ts generalizing start with
  | nil => exact h
  | cons t ts ih =>
    obtain ⟨hstart, hspan, hts⟩ := h
    exact Nat.le_trans hstart (Nat.le_trans hspan (ih hts))

theorem mono {start' : Nat} (hle : start' ≤ start) (h : Ascends start ts stop) :
    Ascends start' ts stop:= by
  cases ts with
  | nil => exact Nat.le_trans hle h
  | cons t ts => exact ⟨Nat.le_trans hle h.1, h.2⟩

theorem append {as bs : List Token} (h : Ascends start (as ++ bs) stop) :
    Ascends start as (endOf start as) ∧ Ascends (endOf start as) bs stop := by
  induction as generalizing start with
  | nil => exact ⟨Nat.le_refl _, h⟩
  | cons t ts ih =>
    obtain ⟨hstart, hspan, hts⟩ := h
    rw [endOf_cons]
    exact ⟨⟨hstart, hspan, (ih hts).1⟩, (ih hts).2⟩

end Ascends

end Token

/-- A text as it is read: the first place, and where the text ends. -/
structure Passage where
  first : Cursor
  stop : Nat
  ascends : Token.Ascends first.last first.rest stop

namespace Passage

def ofTokens (ts : List Token) {start stop : Nat} (h : Token.Ascends start ts stop) : Passage where
  first := .start ts stop
  stop := stop
  ascends := by
    cases ts with
    | nil => exact Nat.le_refl stop
    | cons t ts => exact ⟨Nat.le_refl _, h.2⟩

/-- The places in a passage. -/
structure Reaches (p : Passage) (c : Cursor) (read : List Token) : Prop where
  tokens : p.first.rest = read ++ c.rest
  last : c.last = Token.endOf p.first.last read

variable {p : Passage} {c d : Cursor} {read read' : List Token}

namespace Reaches

theorem ascends (h : p.Reaches c read) : Token.Ascends c.last c.rest p.stop := by
  rw [h.last]
  exact (Token.Ascends.append (h.tokens ▸ p.ascends)).2

theorem tail (h : p.Reaches c read) (hrest : c.rest = t :: ts) :
    p.Reaches ⟨ts, t.span.stop⟩ (read ++ [t]) where
  tokens := by simp [h.tokens, hrest]
  last := by simp

section

variable (hc : p.Reaches c read) (hd : p.Reaches d read')
include hc hd

theorem exists_read (hle : d.rest.length ≤ c.rest.length) :
    ∃ ts, c.rest = ts ++ d.rest ∧ d.last = Token.endOf c.last ts := by
  have htokens : read ++ c.rest = read' ++ d.rest := hc.tokens.symm.trans hd.tokens
  rcases append_eq_append_iff.mp htokens with ⟨ts, hread, hrest⟩ | ⟨ts, hread, hrest⟩
  · refine ⟨ts, hrest, ?_⟩
    rw [hd.last, hread, Token.endOf_append, hc.last]
  · have hlength := congrArg List.length hrest
    rw [length_append] at hlength
    obtain rfl : ts = [] := eq_nil_of_length_eq_zero (by omega)
    refine ⟨[], hrest.symm, ?_⟩
    rw [hc.last, hread, hd.last, append_nil, Token.endOf_nil]

theorem last_le (hle : d.rest.length ≤ c.rest.length) : c.last ≤ d.last := by
  obtain ⟨ts, hrest, hlast⟩ := hc.exists_read hd hle
  rw [hlast]
  exact (Token.Ascends.append (hrest ▸ hc.ascends)).1.le

theorem head_le (hrest : c.rest = t :: ts) (hlt : d.rest.length < c.rest.length) :
    t.span.stop ≤ d.last := by
  refine (hc.tail hrest).last_le hd ?_
  rw [hrest, length_cons] at hlt
  exact Nat.lt_succ_iff.mp hlt

end

end Reaches

end Passage

structure Token.Moves (m : Move) (t t' : Token) : Prop where
  kind : t'.kind = t.kind
  span : Span.Moves m t.span t'.span

structure Cursor.Moves (m : Move) (p : Passage) (c c' : Cursor) : Prop where
  rest : Forall₂ (Token.Moves m) c.rest c'.rest
  last : m.Offset c.last c'.last
  reached : ∃ read, p.Reaches c read

/-- A passage is read under the same declarations. -/
structure Grammar.Moves (m : Move) (p : Passage) (g g' : Grammar) : Prop where
  atStop : g.stop = p.stop
  stop : m.Offset g.stop g'.stop
  isTensor : g'.isTensor = g.isTensor
  spelledName : ∀ {a b}, Span.Moves m a b → g'.spelledName b = g.spelledName a

def Move.Found (m : Move) (p : Passage) (Q : α → β → Prop) {P P' : Cursor → Prop}
    (r : α × Subtype P) (r' : β × Subtype P') : Prop :=
  Q r.1 r'.1 ∧ Cursor.Moves m p r.2.val r'.2.val

variable {m : Move} {p : Passage} {c c' d d' : Cursor} {g g' : Grammar}

theorem SameOutcome.bindFound {Q : α → β → Prop} {R : γ → δ → Prop} {P P' : Cursor → Prop}
    {x : Except Error (α × Subtype P)} {x' : Except Error (β × Subtype P')}
    {f : α × Subtype P → Except Error γ} {f' : β × Subtype P' → Except Error δ}
    (hx : m.SameOutcome (m.Found p Q) x x') (hf : ∀ a d hd b d' hd', Q a b → Cursor.Moves m p d d' →
      m.SameOutcome R (f (a, ⟨d, hd⟩)) (f' (b, ⟨d', hd'⟩))) :
    m.SameOutcome R (x >>= f) (x' >>= f') := by
  refine hx.bind ?_
  rintro ⟨a, d, hd⟩ ⟨b, d', hd'⟩ ⟨hq, hmoves⟩
  exact hf a d hd b d' hd' hq hmoves

namespace Token

structure ListMoves (m : Move) (start stop : Nat) (ts ts' : List Token) : Prop where
  tokens : Forall₂ (Token.Moves m) ts ts'
  ascends : Ascends start ts stop

theorem scanFrom_moves (cs : List Char) (offset : Nat) (h : Segment.PartOf m.document ⟨offset, cs⟩) :
    m.SameOutcome (ListMoves m offset (offset + byteLength cs)) (scanFrom offset cs)
      (scanFrom (offset + m.distance) cs) := by
  cases cs with
  | nil =>
    rw [scanFrom, scanFrom]
    exact .ok ⟨.nil, Nat.le_refl _⟩
  | cons c cs =>
    rw [scanFrom, scanFrom]
    rcases read c cs with ⟨reading, n⟩
    have hsplit : c :: cs = c :: cs.take n ++ cs.drop n := by simp
    obtain ⟨htoken, hrest⟩ := h.of_append hsplit
    have hstop : offset + m.distance + byteLength (c :: cs.take n) =
        offset + byteLength (c :: cs.take n) + m.distance := by omega
    have hend : offset + byteLength (c :: cs.take n) + byteLength (cs.drop n) =
        offset + byteLength (c :: cs) := by
      rw [hsplit, byteLength_append, Nat.add_assoc]
    have hspan : Span.Moves m ⟨offset, offset + byteLength (c :: cs.take n)⟩
        ⟨offset + m.distance, offset + byteLength (c :: cs.take n) + m.distance⟩ :=
      ⟨⟨rfl, htoken.start_isBoundary⟩, ⟨rfl, htoken.stop_isBoundary⟩, Nat.le_add_right _ _⟩
    have hmore := scanFrom_moves (cs.drop n) (offset + byteLength (c :: cs.take n)) hrest
    rw [hend] at hmore
    dsimp only
    rw [hstop]
    cases reading with
    | skip => exact hmore.mono fun ts ts' hts => ⟨hts.tokens, hts.ascends.mono hspan.ordered⟩
    | token kind =>
      exact hmore.bind fun ts ts' hts =>
        .ok ⟨.cons ⟨rfl, hspan⟩ hts.tokens, Nat.le_refl _, hspan.ordered, hts.ascends⟩
    | unknown text suggestions => exact .error _ hspan.tracks
termination_by cs.length

theorem scan_moves {s s' : Segment} (h : Segment.Moves m s s') :
    m.SameOutcome (ListMoves m s.offset s.stop) (scan s) (scan s') := by
  rw [scan, scan, h.chars, h.offset]
  exact scanFrom_moves _ _ h.partOf

end Token

theorem strayBrace?_moves (h : Forall₂ (Token.Moves m) ts ts') (depth : Nat) (script : Bool) :
    Option.Rel (Span.Moves m) (strayBrace? depth script ts) (strayBrace? depth script ts') := by
  induction h generalizing depth script with
  | nil => exact .none
  | @cons t t' ts ts' ht hts ih =>
    rw [strayBrace?, strayBrace?, ht.kind]
    split
    · exact ih _ _
    · split
      · exact .some ht.span
      · exact ih _ _
    all_goals exact ih _ _

theorem Cursor.skipSeparator_val (c : Cursor) : c.skipSeparator.val =
    match c.rest with
    | a :: b :: t :: rest =>
      if a.kind = .openBrace ∧ b.kind = .closeBrace ∧ (t.kind = .superscript ∨ t.kind = .subscript) then
        ⟨t :: rest, b.span.stop⟩
      else c
    | _ => c := by
  unfold Cursor.skipSeparator
  split
  · next s s' t rest last => split <;> simp_all [Cursor.stay]
  · next hne =>
    obtain ⟨rest, last⟩ := c
    dsimp only [Cursor.stay]
    split
    · next a b t rest =>
      rw [if_neg]
      rintro ⟨ha, hb, -⟩
      obtain ⟨_, s⟩ := a
      obtain ⟨_, s'⟩ := b
      cases ha
      cases hb
      exact hne _ _ _ _ _ rfl
    · rfl

namespace Cursor.Moves

theorem start {start stop stop' : Nat} (h : Token.ListMoves m start stop ts ts')
    (hstop : m.Offset stop stop') :
    Cursor.Moves m (.ofTokens ts h.ascends) (.start ts stop) (.start ts' stop') := by
  refine ⟨h.tokens, ?_, [], rfl, rfl⟩
  obtain ⟨hts, -⟩ := h
  cases hts with
  | nil => exact hstop
  | cons ht _ => exact ht.span.start

theorem last_le (hc : Cursor.Moves m p c c') (hd : Cursor.Moves m p d d')
    (h : d.rest.length ≤ c.rest.length) : c.last ≤ d.last := by
  obtain ⟨read, hread⟩ := hc.reached
  obtain ⟨read', hread'⟩ := hd.reached
  exact hread.last_le hread' h

theorem spanFrom {start start' : Nat} (h : Cursor.Moves m p c c') (hstart : m.Offset start start')
    (hle : start ≤ c.last) : Span.Moves m ⟨start, c.last⟩ ⟨start', c'.last⟩ :=
  ⟨hstart, h.last, hle⟩

variable (h : Cursor.Moves m p c c')
include h

theorem last_le_stop : c.last ≤ p.stop := by
  obtain ⟨read, hread⟩ := h.reached
  exact hread.ascends.le

theorem peek? : c'.peek? = c.peek? := by
  obtain ⟨rest, last⟩ := c
  obtain ⟨rest', last'⟩ := c'
  obtain ⟨hrest, -⟩ := h
  cases hrest with
  | nil => rfl
  | cons ht _ => simp [Cursor.peek?, ht.kind]

theorem tail {t' : Token} (hrest : c.rest = t :: ts) (hrest' : c'.rest = t' :: ts') :
    c.last ≤ t.span.start ∧ Token.Moves m t t' ∧
      Cursor.Moves m p ⟨ts, t.span.stop⟩ ⟨ts', t'.span.stop⟩ := by
  obtain ⟨hmoves, -, read, hread⟩ := h
  have hascends := hread.ascends
  rw [hrest] at hascends
  rw [hrest, hrest'] at hmoves
  obtain - | ⟨ht, hts⟩ := hmoves
  exact ⟨hascends.1, ht, hts, ht.span.stop, _, hread.tail hrest⟩

@[elab_as_elim]
theorem next_elim {motive : Option (Token × c.After) → Option (Token × c'.After) → Prop}
    (none : motive none none)
    (some : ∀ t d hd t' d' hd', c.rest = t :: d.rest → c.last ≤ t.span.start →
      t.span.stop = d.last → Token.Moves m t t' → Cursor.Moves m p d d' →
      motive (some (t, ⟨d, hd⟩)) (some (t', ⟨d', hd'⟩))) : motive c.next? c'.next? := by
  obtain ⟨rest, last⟩ := c
  obtain ⟨rest', last'⟩ := c'
  have hrest := h.rest
  cases hrest with
  | nil => exact none
  | cons ht hts =>
    obtain ⟨hle, ht, hmoves⟩ := h.tail rfl rfl
    exact some _ _ _ _ _ _ rfl hle rfl ht hmoves

@[elab_as_elim]
theorem accept_elim (kind : TokenKind)
    {motive : Option (Span × c.After) → Option (Span × c'.After) → Prop} (none : motive none none)
    (some : ∀ s d hd s' d' hd', c.last ≤ s.start → s.stop = d.last → Span.Moves m s s' →
      Cursor.Moves m p d d' → motive (some (s, ⟨d, hd⟩)) (some (s', ⟨d', hd'⟩))) :
    motive (c.accept? kind) (c'.accept? kind) := by
  rw [Cursor.accept?, Cursor.accept?]
  refine h.next_elim none fun t d hd t' d' hd' _ hle hstop ht hmoves => ?_
  dsimp only
  rw [ht.kind]
  split
  · exact some _ d hd _ d' hd' hle hstop ht.span hmoves
  · exact none

theorem skipSeparator : Cursor.Moves m p c.skipSeparator.val c'.skipSeparator.val := by
  rw [skipSeparator_val, skipSeparator_val]
  obtain ⟨rest, last⟩ := c
  obtain ⟨rest', last'⟩ := c'
  have hrest := h.rest
  obtain - | ⟨ha, - | ⟨hb, - | ⟨ht, hts⟩⟩⟩ := hrest
  · exact h
  · exact h
  · exact h
  · dsimp only
    rw [ha.kind, hb.kind, ht.kind]
    split
    · exact ((h.tail rfl rfl).2.2.tail rfl rfl).2.2
    · exact h

end Cursor.Moves

theorem Cursor.Moves.closeGroup? {c c' : Cursor} (h : Cursor.Moves m p c c') :
    c.closeGroup? = none ∧ c'.closeGroup? = none ∨
    ∃ s d hd s' d' hd', c.closeGroup? = some (s, ⟨d, hd⟩) ∧ c'.closeGroup? = some (s', ⟨d', hd'⟩) ∧
      c.last ≤ s.start ∧ Span.Moves m s s' ∧ Cursor.Moves m p d d' := by
  rw [Cursor.closeGroup?, Cursor.closeGroup?]
  refine h.next_elim (.inl ⟨rfl, rfl⟩) fun t d hd t' d' hd' _ hle _ ht hmoves => ?_
  dsimp only
  rw [ht.kind]
  split
  · exact .inr ⟨_, d, hd, _, d', hd', rfl, rfl, hle, ht.span, hmoves⟩
  · obtain ⟨hclose, hclose'⟩ | ⟨s, e, he, s', e', he', hclose, hclose', hle', hs, hmore⟩ :=
      closeGroup? hmoves
    · rw [hclose, hclose']
      exact .inl ⟨rfl, rfl⟩
    · rw [hclose, hclose']
      have hlast := h.last_le hmoves (Nat.le_of_lt hd)
      exact .inr ⟨_, e, Nat.lt_trans he hd, _, e', Nat.lt_trans he' hd', rfl, rfl,
        Nat.le_trans hlast hle', hs, hmore⟩
termination_by c.rest.length

theorem Grammar.here_of_rest (h : c.rest = t :: ts) : g.here c = t.span := by
  obtain ⟨rest, last⟩ := c
  cases h
  rfl

namespace Grammar.Moves

variable (hg : Grammar.Moves m p g g')
include hg

theorem stopSpan : Span.Moves m ⟨g.stop, g.stop⟩ ⟨g'.stop, g'.stop⟩ :=
  ⟨hg.stop, hg.stop, Nat.le_refl _⟩

variable (hc : Cursor.Moves m p c c')
include hc

theorem here : Span.Moves m (g.here c) (g'.here c') := by
  obtain ⟨rest, last⟩ := c
  obtain ⟨rest', last'⟩ := c'
  obtain ⟨hrest, -⟩ := hc
  cases hrest with
  | nil => exact hg.stopSpan
  | cons ht _ => exact ht.span

theorem last_le : c.last ≤ g.stop :=
  hg.atStop ▸ hc.last_le_stop

section

variable (hd : Cursor.Moves m p d d') (h : d.rest.length < c.rest.length)
include hd h

theorem here_le : (g.here c).start ≤ d.last := by
  have hordered := (hg.here hc).ordered
  obtain ⟨rest, last⟩ := c
  obtain ⟨-, -, read, hread⟩ := hc
  obtain ⟨-, -, read', hread'⟩ := hd
  cases rest with
  | nil => cases h
  | cons t ts => exact Nat.le_trans hordered (hread.head_le hread' rfl h)

theorem spanHere : Span.Moves m ⟨(g.here c).start, d.last⟩ ⟨(g'.here c').start, d'.last⟩ :=
  hd.spanFrom (hg.here hc).start (hg.here_le hc hd h)

end

theorem expectAt (kind : TokenKind) (expected : Expected) :
    m.SameOutcome (fun r r' => m.Found p (Span.Moves m) r r' ∧ r.1.stop = r.2.val.last)
      (g.expect c kind expected) (g'.expect c' kind expected) := by
  rw [Grammar.expect, Grammar.expect]
  exact hc.accept_elim kind (.error _ (hg.here hc).tracks)
    fun s d hd s' d' hd' _ hstop hs hmoves => .ok ⟨⟨hs, hmoves⟩, hstop⟩

theorem expect (kind : TokenKind) (expected : Expected) :
    m.SameOutcome (m.Found p (Span.Moves m)) (g.expect c kind expected)
      (g'.expect c' kind expected) :=
  (hg.expectAt hc kind expected).mono fun _ _ hr => hr.1

end Grammar.Moves

end TensorCalculus
