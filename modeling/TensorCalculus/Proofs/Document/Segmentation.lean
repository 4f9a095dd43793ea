import Mathlib.Tactic.SplitIfs
import TensorCalculus.Document.List
import TensorCalculus.Proofs.Text.Slice

/-! The statements of a document are parts of it, and those of two documents in a row are the
statements of the first and then those of the second, moved. -/
namespace TensorCalculus

variable {c : Char} {ss : List Statement} {document cs : List Char}

open List

namespace Statement

def text : Statement → Segment
  | directive s | equation s => s

def moved (distance : Nat) : Statement → Statement
  | directive s => directive ⟨s.offset + distance, s.chars⟩
  | equation s => equation ⟨s.offset + distance, s.chars⟩

theorem moved_zero : moved 0 = id := by
  funext s
  cases s <;> rfl

/-- How many brackets are open after a text. There is no answer where the text ends in a backslash
that protects what comes next. -/
def openBrackets? (depth : Nat) : List Char → Option Nat
  | [] => some depth
  | ['\\'] => none
  | '\\' :: _ :: rest => openBrackets? depth rest
  | c :: rest =>
    if isOpening c then openBrackets? (depth + 1) rest
    else if isClosing c then openBrackets? (depth - 1) rest
    else openBrackets? depth rest

def depthAfter (depth : Nat) (c : Char) : Nat :=
  if isOpening c then depth + 1 else if isClosing c then depth - 1 else depth

def isEnd (directive : Bool) (c : Char) : Bool :=
  c == ';' || c == '\n' || (c == '%' && !directive)

theorem not_bracket_of_isEnd {directive : Bool} (h : isEnd directive c) :
    ¬ isOpening c ∧ ¬ isClosing c := by
  simp only [isEnd, Bool.or_eq_true, Bool.and_eq_true, beq_iff_eq] at h
  obtain (rfl | rfl) | ⟨rfl, -⟩ := h <;> decide

section Plain

variable (hc : c ≠ '\\') (directive : Bool) (depth : Nat) (rest : List Char)
include hc

theorem bodyLength_cons : bodyLength directive depth (c :: rest) =
    if depth = 0 ∧ isEnd directive c then 0
    else 1 + bodyLength directive (depthAfter depth c) rest := by
  have hgoes (h : isOpening c ∨ isClosing c) : ¬ (depth = 0 ∧ isEnd directive c) := fun hend =>
    h.elim (not_bracket_of_isEnd hend.2).1 (not_bracket_of_isEnd hend.2).2
  rw [bodyLength]
  · unfold depthAfter
    by_cases hopen : isOpening c
    · rw [if_pos hopen, if_pos hopen, if_neg (hgoes (.inl hopen))]
    · rw [if_neg hopen, if_neg hopen]
      by_cases hclose : isClosing c
      · rw [if_pos hclose, if_pos hclose, if_neg (hgoes (.inr hclose))]
      · rw [if_neg hclose, if_neg hclose]
        rfl
  · exact fun _ h _ => hc h
  · exact fun _ _ h _ => hc h

theorem openBrackets?_cons : openBrackets? depth (c :: rest) =
    openBrackets? (depthAfter depth c) rest := by
  rw [openBrackets?]
  · unfold depthAfter
    split_ifs <;> rfl
  · exact fun h _ => hc h
  · exact fun _ _ h _ => hc h

end Plain

/-- Reading a text from its start, with the depth of brackets and what a backslash protects. -/
@[elab_as_elim]
theorem reading_induction {P : Nat → List Char → Prop} (depth : Nat) (cs : List Char)
    (nil : ∀ depth, P depth []) (backslash : ∀ depth, P depth ['\\'])
    (escaped : ∀ depth c rest, P depth rest → P depth ('\\' :: c :: rest))
    (plain : ∀ depth c rest, c ≠ '\\' → P (depthAfter depth c) rest → P depth (c :: rest)) :
    P depth cs := by
  cases cs with
  | nil => exact nil depth
  | cons c rest =>
    by_cases hc : c = '\\'
    · subst hc
      cases rest with
      | nil => exact backslash depth
      | cons c rest =>
        exact escaped depth c rest (reading_induction depth rest nil backslash escaped plain)
    · exact plain depth c rest hc (reading_induction _ rest nil backslash escaped plain)
termination_by cs.length

theorem bodyLength_escaped (directive : Bool) (depth : Nat) (c : Char) (rest : List Char) :
    bodyLength directive depth ('\\' :: c :: rest) =
      if c = '\\' ∧ depth = 0 ∧ !directive then 0 else 2 + bodyLength directive depth rest := by
  by_cases hc : c = '\\'
  · simp [bodyLength, hc]
  · rw [bodyLength, if_neg (fun h => hc h.1)]
    exact hc

theorem bodyLength_le (directive : Bool) (depth : Nat) (cs : List Char) :
    bodyLength directive depth cs ≤ cs.length := by
  fun_induction bodyLength directive depth cs <;> simp only [length_cons, length_nil] <;>
    omega

/-- A new line ends a statement that leaves nothing open, and changes nothing about one that has
ended before. -/
theorem bodyLength_append_newline (directive : Bool) (depth : Nat) (cs rest : List Char)
    (h : bodyLength directive depth cs < cs.length ∨ openBrackets? depth cs = some 0) :
    bodyLength directive depth (cs ++ '\n' :: rest) = bodyLength directive depth cs := by
  induction depth, cs using reading_induction with
  | nil depth =>
    have hdepth : depth = 0 := by simpa [openBrackets?, bodyLength] using h
    rw [hdepth]
    rfl
  | backslash depth => simp [bodyLength, openBrackets?, isOpening, isClosing] at h
  | escaped depth c cs ih =>
    rw [cons_append, cons_append, bodyLength_escaped, bodyLength_escaped]
    rw [bodyLength_escaped, openBrackets?, length_cons, length_cons] at h
    split
    · rfl
    · next hends =>
      rw [if_neg hends] at h
      rw [ih (h.imp_left fun h => by omega)]
  | plain depth c cs hc ih =>
    rw [cons_append, bodyLength_cons hc, bodyLength_cons hc]
    rw [bodyLength_cons hc, openBrackets?_cons hc, length_cons] at h
    split
    · rfl
    · next hends =>
      rw [if_neg hends] at h
      rw [ih (h.imp_left fun h => by omega)]

theorem stop_moved (distance offset : Nat) (cs : List Char) :
    Segment.stop ⟨offset + distance, cs⟩ = Segment.stop ⟨offset, cs⟩ + distance := by
  simp only [Segment.stop]
  omega

theorem splitFrom_moved (distance offset : Nat) (cs : List Char) :
    splitFrom (offset + distance) cs = (splitFrom offset cs).map (moved distance) := by
  fun_induction splitFrom offset cs with
  | case1 => rw [splitFrom, map_nil]
  | case2 offset rest ih =>
    rw [splitFrom, ← ih, Nat.add_right_comm]
  | case3 offset c rest hx hc ih =>
    rw [splitFrom, if_pos hc, ← ih, Nat.add_right_comm]
    exact hx
  | case4 offset c rest hx hc hpercent text ih =>
    rw [splitFrom, if_neg hc, if_pos hpercent, Nat.add_right_comm]
    · dsimp only
      rw [stop_moved, ih, map_cons]
      rfl
    · exact hx
  | case5 offset c rest hx hc hpercent n text ih =>
    rw [splitFrom, if_neg hc, if_neg hpercent]
    · dsimp only
      rw [stop_moved, ih, map_cons]
      rfl
    · exact hx

theorem utf8Size_separator (hc : (c == ';' || isSpace c) = true) : c.utf8Size = 1 := by
  simp only [isSpace, Bool.or_eq_true, beq_iff_eq] at hc
  rcases hc with rfl | (((rfl | rfl) | rfl) | rfl) | rfl <;> rfl

theorem splitFrom_partOf (offset : Nat) (cs : List Char) (h : Segment.PartOf document ⟨offset, cs⟩) :
    ∀ s ∈ splitFrom offset cs, s.text.PartOf document := by
  fun_induction splitFrom offset cs with
  | case1 => simp
  | case2 offset rest ih =>
    have hsplit : '\\' :: '\\' :: rest = ['\\', '\\'] ++ rest := rfl
    exact ih (h.of_append hsplit).2
  | case3 offset c rest hx hc ih =>
    have hrest := (h.of_append (singleton_append (x := c) (l := rest)).symm).2
    rw [byteLength_cons, utf8Size_separator hc] at hrest
    exact ih hrest
  | case4 offset c rest hx hc hpercent text ih =>
    obtain rfl : c = '%' := by simpa using hpercent
    have hrest := (h.of_append (singleton_append (x := '%') (l := rest)).symm).2
    obtain ⟨hbody, hmore⟩ := hrest.of_append
      (take_append_drop (bodyLength true 0 rest) rest).symm
    exact forall_mem_cons.mpr ⟨hbody, ih hmore⟩
  | case5 offset c rest hx hc hpercent n text ih =>
    have hsplit : c :: rest = c :: rest.take n ++ rest.drop n := by simp
    obtain ⟨hbody, hmore⟩ := h.of_append hsplit
    exact forall_mem_cons.mpr ⟨hbody, ih hmore⟩

theorem split_partOf (document : List Char) : ∀ s ∈ split document, s.text.PartOf document :=
  splitFrom_partOf 0 document ⟨[], [], by simp, rfl⟩

/-- The last of some statements leaves nothing open. -/
def Closed (ss : List Statement) : Prop :=
  ∀ s ∈ ss.getLast?, openBrackets? 0 s.text.chars = some 0

instance (ss : List Statement) : Decidable (Closed ss) :=
  inferInstanceAs (Decidable (∀ s ∈ ss.getLast?, openBrackets? 0 s.text.chars = some 0))

theorem Closed.tail {s : Statement} (h : Closed (s :: ss)) : Closed ss := by
  intro t ht
  refine h t ?_
  rw [getLast?_cons, Option.mem_def.mp ht]
  rfl

theorem bodyLength_of_closed {directive : Bool} {s : Statement} {tail : List Char} {offset : Nat}
    (hs : s.text.chars = cs.take (bodyLength directive 0 cs))
    (htail : tail = cs.drop (bodyLength directive 0 cs)) (h : Closed (s :: splitFrom offset tail))
    (rest : List Char) :
    bodyLength directive 0 (cs ++ '\n' :: rest) = bodyLength directive 0 cs := by
  refine bodyLength_append_newline directive 0 cs rest ?_
  rcases Nat.lt_or_eq_of_le (bodyLength_le directive 0 cs) with hlt | heq
  · exact .inl hlt
  · rw [heq, take_length] at hs
    rw [heq, drop_length] at htail
    rw [htail, splitFrom] at h
    exact .inr (hs ▸ h s rfl)

theorem bodyLength_pos (hx : ∀ rest, c = '\\' → cs = '\\' :: rest → False)
    (hc : ¬(c == ';' || isSpace c) = true) (hpercent : ¬(c == '%') = true) :
    0 < bodyLength false 0 (c :: cs) := by
  by_cases hbackslash : c = '\\'
  · subst hbackslash
    cases cs with
    | nil => decide
    | cons d cs =>
      rw [bodyLength_escaped, if_neg (fun h => hx cs rfl (by rw [h.1]))]
      omega
  · have hgoes : ¬(0 = 0 ∧ isEnd false c) := by simp_all [isEnd, isSpace]
    rw [bodyLength_cons hbackslash, if_neg hgoes]
    omega

theorem splitFrom_append (offset : Nat) (cs rest : List Char) (h : Closed (splitFrom offset cs)) :
    splitFrom offset (cs ++ '\n' :: rest) =
      splitFrom offset cs ++ splitFrom (offset + byteLength cs + 1) rest := by
  fun_induction splitFrom offset cs with
  | case1 offset => exact splitFrom.eq_3 offset '\n' rest (by simp)
  | case2 offset cs ih =>
    have hsize : byteLength ('\\' :: '\\' :: cs) = 2 + byteLength cs := by
      rw [byteLength_cons, byteLength_cons, ← Nat.add_assoc]
      rfl
    rw [cons_append, cons_append, splitFrom, ih h, hsize]
    simp only [Nat.add_assoc]
  | case3 offset c cs hx hc ih =>
    have hplain : c ≠ '\\' := by
      rintro rfl
      revert hc
      decide
    rw [cons_append, splitFrom, if_pos hc, ih h, byteLength_cons, utf8Size_separator hc]
    · simp only [Nat.add_assoc]
    · exact fun _ hbackslash _ => hplain hbackslash
  | case4 offset c cs hx hc hpercent text ih =>
    obtain rfl : c = '%' := by simpa using hpercent
    have hbody := bodyLength_of_closed rfl rfl h rest
    have hle := bodyLength_le true 0 cs
    have hstop : text.stop + byteLength (cs.drop (bodyLength true 0 cs)) =
        offset + byteLength ('%' :: cs) := by
      have hcs := congrArg byteLength (take_append_drop (bodyLength true 0 cs) cs)
      rw [byteLength_append] at hcs
      change offset + 1 + byteLength (cs.take (bodyLength true 0 cs)) + _ =
        offset + (1 + byteLength cs)
      omega
    rw [cons_append, splitFrom, if_neg hc, if_pos hpercent]
    · dsimp only
      rw [hbody, take_append_of_le_length hle, drop_append_of_le_length hle, ih h.tail, hstop]
      rfl
    · simp
  | case5 offset c cs hx hc hpercent n text ih =>
    have hpos := bodyLength_pos hx hc hpercent
    have hn : bodyLength false 0 (c :: cs) = n + 1 := by omega
    have hbody : bodyLength false 0 (c :: cs ++ '\n' :: rest) = bodyLength false 0 (c :: cs) :=
      bodyLength_of_closed (hn ▸ rfl) (hn ▸ rfl) h rest
    have hle : n ≤ cs.length := by
      have hle := bodyLength_le false 0 (c :: cs)
      rw [hn] at hle
      exact Nat.le_of_succ_le_succ hle
    have hstop : text.stop + byteLength (cs.drop n) = offset + byteLength (c :: cs) := by
      have hcs := congrArg byteLength (take_append_drop n cs)
      rw [byteLength_append] at hcs
      change offset + (c.utf8Size + byteLength (cs.take n)) + _ = offset + (c.utf8Size + byteLength cs)
      omega
    rw [cons_append] at hbody ⊢
    rw [splitFrom, if_neg hc, if_neg hpercent]
    · dsimp only
      rw [hbody, take_append_of_le_length hle, drop_append_of_le_length hle, ih h.tail, hstop]
      rfl
    · intro rest' hbackslash hcs
      cases cs with
      | nil => exact absurd (List.cons.inj hcs).1 (by decide)
      | cons d cs => exact hx _ hbackslash (congrArg (· :: cs) (List.cons.inj hcs).1)

theorem split_append (h : Closed (split document)) (rest : List Char) :
    split (document ++ '\n' :: rest) =
      split document ++ (split rest).map (moved (byteLength document + 1)) := by
  rw [split, split, split, splitFrom_append 0 document rest h, ← splitFrom_moved, Nat.zero_add,
    Nat.zero_add]

end Statement

theorem place_cases {as bs before after : List Char} (h : as ++ bs = before ++ c :: after) :
    byteLength before < byteLength as ∨
      ∃ before', before = as ++ before' ∧ bs = before' ++ c :: after := by
  obtain ⟨before', rfl, hbs⟩ | ⟨tail, rfl, htail⟩ := append_eq_append_iff.mp h
  · exact .inr ⟨before', rfl, hbs⟩
  · cases tail with
    | nil => exact .inr ⟨[], by simp, htail.symm⟩
    | cons d tail =>
      have := d.utf8Size_pos
      left
      rw [byteLength_append, byteLength_cons]
      omega

namespace Statement

theorem bodyLength_append_of_le (directive : Bool) {depth d : Nat} {as : List Char} (rest : List Char)
    (hopen : openBrackets? depth as = some d)
    (hle : as.length ≤ bodyLength directive depth (as ++ rest)) :
    bodyLength directive depth (as ++ rest) = as.length + bodyLength directive d rest := by
  induction depth, as using reading_induction with
  | nil depth =>
    cases hopen
    simp
  | backslash depth => cases hopen
  | escaped depth c as ih =>
    rw [cons_append, cons_append, bodyLength_escaped, length_cons, length_cons] at hle ⊢
    split at hle
    · omega
    · next hends =>
      rw [if_neg hends, ih hopen (by omega)]
      omega
  | plain depth c as hc ih =>
    rw [openBrackets?_cons hc] at hopen
    rw [cons_append, bodyLength_cons hc, length_cons] at hle ⊢
    split at hle
    · omega
    · next hends =>
      rw [if_neg hends, ih hopen (by omega)]
      omega

/-- Outside of brackets there is nothing at which an equation would end. -/
def Unbroken (t : List Char) : Prop :=
  ∀ as c bs, t = as ++ c :: bs → openBrackets? 0 as = some 0 →
    ¬ isEnd false c ∧ ¬ (c = '\\' ∧ bs.head? = some '\\')

theorem unbroken_take (cs : List Char) : Unbroken (cs.take (bodyLength false 0 cs)) := by
  intro as c bs htake hopen
  have hlt : as.length < bodyLength false 0 cs := by
    have hlength := congrArg List.length htake
    rw [length_take, Nat.min_eq_left (bodyLength_le false 0 cs), length_append,
      length_cons] at hlength
    omega
  have hcs := take_append_drop (bodyLength false 0 cs) cs
  generalize cs.drop (bodyLength false 0 cs) = rest at hcs
  rw [htake, append_assoc, cons_append] at hcs
  rw [← hcs] at hlt
  rw [bodyLength_append_of_le false _ hopen (Nat.le_of_lt hlt)] at hlt
  by_cases hc : c = '\\'
  · subst hc
    refine ⟨by decide, ?_⟩
    rintro ⟨-, hpair⟩
    obtain ⟨bs, rfl⟩ := head?_eq_some_iff.mp hpair
    simp [bodyLength_escaped] at hlt
  · rw [bodyLength_cons hc] at hlt
    refine ⟨fun hend => ?_, fun hpair => hc hpair.1⟩
    rw [if_pos ⟨rfl, hend⟩] at hlt
    omega

theorem bodyLength_line (depth : Nat) {t : List Char} (ht : ∀ c ∈ t, ¬ isEnd true c)
    (rest : List Char) :
    bodyLength true depth (t ++ '\n' :: rest) = t.length ↔ openBrackets? depth t = some 0 := by
  induction depth, t using reading_induction with
  | nil depth =>
    rw [nil_append, bodyLength_cons (by decide), openBrackets?]
    split <;> simp_all [isEnd]
  | backslash depth =>
    rw [cons_append, nil_append, bodyLength_escaped, openBrackets?]
    simp
    omega
  | escaped depth c t ih =>
    rw [forall_mem_cons, forall_mem_cons] at ht
    rw [cons_append, cons_append, bodyLength_escaped, openBrackets?, ← ih ht.2.2]
    simp
    omega
  | plain depth c t hc ih =>
    rw [forall_mem_cons] at ht
    rw [cons_append, bodyLength_cons hc, openBrackets?_cons hc, ← ih ht.2,
      if_neg fun hends => ht.1 hends.2, length_cons]
    omega

theorem splitFrom_directive (offset : Nat) (cs : List Char) :
    splitFrom offset ('%' :: cs) =
      directive ⟨offset + 1, cs.take (bodyLength true 0 cs)⟩ ::
        splitFrom (offset + 1 + byteLength (cs.take (bodyLength true 0 cs)))
          (cs.drop (bodyLength true 0 cs)) := by
  rw [splitFrom, if_neg (by decide), if_pos (by decide)]
  · rfl
  · simp

/-- A directive ends with its line exactly where the line leaves no bracket open and does not end in
a backslash. Elsewhere it goes on with the line after it. -/
theorem split_line {t : List Char} (ht : ∀ c ∈ t, c ≠ ';' ∧ c ≠ '\n') (rest : List Char) :
    split ('%' :: t ++ '\n' :: rest) =
        directive ⟨1, t⟩ :: (split rest).map (moved (byteLength t + 2)) ↔
      openBrackets? 0 t = some 0 := by
  have hline := bodyLength_line 0 (t := t) (fun c hc => by simp [isEnd, ht c hc]) rest
  rw [← hline, split, split, List.cons_append, splitFrom_directive]
  constructor
  · intro h
    have htake := congrArg Segment.chars (directive.inj (List.cons.inj h).1)
    have hlength := congrArg List.length htake
    rwa [List.length_take, Nat.min_eq_left (bodyLength_le ..)] at hlength
  · intro h
    have hmoved := splitFrom_moved (byteLength t + 2) 0 rest
    rw [h, List.take_left, List.drop_left, ← hmoved, splitFrom, if_pos (by decide)]
    · congr 2
      omega
    · simp

theorem split_line_prose :
    let t := " the metric (of signature [+, -])".toList
    let rest := "A = 1".toList
    (∀ c ∈ t, c ≠ ';' ∧ c ≠ '\n') ∧ openBrackets? 0 t = some 0 ∧
      split ('%' :: t ++ '\n' :: rest) =
        directive ⟨1, t⟩ :: (split rest).map (moved (byteLength t + 2)) := by
  intro t rest
  have ht : ∀ c ∈ t, c ≠ ';' ∧ c ≠ '\n' :=
    @of_decide_eq_true _ (decidableBAll _ _) (by decide +kernel)
  have hopen : openBrackets? 0 t = some 0 := by decide +kernel
  exact ⟨ht, hopen, (split_line ht rest).mpr hopen⟩

/-- Comments that take the next line with them. -/
theorem directive_takes_next_line :
    split "% note (\nA = 1".toList = [directive ⟨1, " note (\nA = 1".toList⟩] ∧
      split "% note \\\nA = 1".toList = [directive ⟨1, " note \\\nA = 1".toList⟩] := by
  decide +kernel

theorem drop_bodyLength (depth : Nat) (cs : List Char) :
    ∀ c ∈ (cs.drop (bodyLength true depth cs)).head?, isEnd true c := by
  induction depth, cs using reading_induction with
  | nil depth => simp
  | backslash depth => simp [bodyLength, isOpening, isClosing]
  | escaped depth c cs ih =>
    rw [bodyLength_escaped, if_neg (by simp), Nat.add_comm]
    exact ih
  | plain depth c cs hc ih =>
    rw [bodyLength_cons hc]
    split
    · next hends => simpa using hends.2
    · rw [Nat.add_comm]
      exact ih

/-- How statements lie in a text that starts at an offset: one after the other, with separators
between them. -/
inductive Covers : Nat → List Char → List Statement → Prop
  | nil (offset : Nat) : Covers offset [] []
  | pair {offset cs ss} : Covers (offset + 2) cs ss → Covers offset ('\\' :: '\\' :: cs) ss
  | separator {offset cs ss c} (hc : c = ';' ∨ isSpace c) :
    Covers (offset + 1) cs ss → Covers offset (c :: cs) ss
  | directive {offset cs ss t} (hend : ∀ c ∈ cs.head?, isEnd true c) :
    Covers (offset + 1 + byteLength t) cs ss →
      Covers offset ('%' :: (t ++ cs)) (directive ⟨offset + 1, t⟩ :: ss)
  | equation {offset cs ss t} (hne : t ≠ []) (ht : Unbroken t) :
    Covers (offset + byteLength t) cs ss → Covers offset (t ++ cs) (equation ⟨offset, t⟩ :: ss)

theorem covers_splitFrom (offset : Nat) (cs : List Char) : Covers offset cs (splitFrom offset cs) := by
  fun_induction splitFrom offset cs with
  | case1 offset => exact .nil offset
  | case2 offset cs ih => exact .pair ih
  | case3 offset c cs _ hc ih => exact .separator (by simpa using hc) ih
  | case4 offset c cs _ _ hpercent text ih =>
    have hcover := Covers.directive (drop_bodyLength 0 cs) ih
    rw [take_append_drop] at hcover
    rwa [beq_iff_eq.mp hpercent]
  | case5 offset c cs hx hc hpercent n text ih =>
    have hpos := bodyLength_pos hx hc hpercent
    have htext := unbroken_take (c :: cs)
    rw [← Nat.sub_add_cancel hpos] at htext
    have hcover := Covers.equation (cons_ne_nil _ _) htext ih
    rwa [cons_append, take_append_drop] at hcover

namespace Covers

variable {offset : Nat}

section

variable (h : Covers offset cs ss)
include h

theorem offset_le : ∀ s ∈ ss, offset ≤ s.text.offset := by
  induction h with
  | nil => simp
  | pair _ ih => exact fun s hs => Nat.le_of_add_right_le (ih s hs)
  | separator _ _ ih => exact fun s hs => Nat.le_of_add_right_le (ih s hs)
  | directive _ _ ih =>
    refine forall_mem_cons.mpr ⟨Nat.le_add_right _ _, fun s hs => ?_⟩
    exact Nat.le_of_add_right_le (Nat.le_of_add_right_le (ih s hs))
  | equation _ _ _ ih =>
    exact forall_mem_cons.mpr ⟨Nat.le_refl _, fun s hs => Nat.le_of_add_right_le (ih s hs)⟩

theorem offset_lt (hend : ∀ c ∈ cs.head?, isEnd true c) : ∀ s ∈ ss, offset < s.text.offset := by
  cases h with
  | nil => simp
  | pair _ => exact absurd (hend _ rfl) (by decide)
  | separator _ h => exact h.offset_le
  | directive _ _ => exact absurd (hend _ rfl) (by decide)
  | @equation _ _ _ t hne ht _ =>
    obtain ⟨c, t, rfl⟩ := exists_cons_of_ne_nil hne
    have hend := hend c rfl
    have hgoes := (ht [] c t rfl rfl).1
    simp_all [isEnd]

theorem pairwise :
    ss.Pairwise fun s t => s.text.offset < t.text.offset ∧ s.text.stop ≤ t.text.offset := by
  induction h with
  | nil => exact .nil
  | pair _ ih => exact ih
  | separator _ _ ih => exact ih
  | directive hend h ih =>
    refine .cons (fun s hs => ⟨?_, h.offset_le s hs⟩) ih
    exact Nat.lt_of_le_of_lt (Nat.le_add_right _ _) (h.offset_lt hend s hs)
  | equation hne _ h ih =>
    refine .cons (fun s hs => ⟨?_, h.offset_le s hs⟩) ih
    have hpos := Nat.pos_of_ne_zero (mt eq_nil_of_byteLength_eq_zero hne)
    exact Nat.lt_of_lt_of_le (Nat.lt_add_of_pos_right hpos) (h.offset_le s hs)

theorem unbroken {text : Segment} (htext : .equation text ∈ ss) : Unbroken text.chars := by
  induction h with
  | nil => cases htext
  | pair _ ih => exact ih htext
  | separator _ _ ih => exact ih htext
  | directive _ _ ih => exact ih (by simpa using htext)
  | equation _ ht _ ih =>
    rcases mem_cons.mp htext with heq | htext
    · cases heq
      exact ht
    · exact ih htext

end

end Covers

/-- What stands at a place of a text: a part of a statement, a separator, the mark of a directive, or
half of a line break. -/
def Accounted (ss : List Statement) (before : List Char) (place : Nat) (c : Char) (after : List Char) :
    Prop :=
  (∃ s ∈ ss, s.text.offset ≤ place ∧ place < s.text.stop) ∨ c = ';' ∨ isSpace c ∨
    (c = '%' ∧ ∃ t, directive ⟨place + 1, t⟩ ∈ ss) ∨
    c = '\\' ∧ (before.getLast? = some '\\' ∨ after.head? = some '\\')

theorem Accounted.mono {ss' : List Statement} {before after : List Char} {place : Nat}
    (h : Accounted ss before place c after) (hss : ss ⊆ ss') (more : List Char) :
    Accounted ss' (more ++ before) place c after := by
  rcases h with ⟨s, hs, hplace⟩ | h | h | ⟨h, t, ht⟩ | ⟨h, hpair⟩
  · exact .inl ⟨s, hss hs, hplace⟩
  · exact .inr (.inl h)
  · exact .inr (.inr (.inl h))
  · exact .inr (.inr (.inr (.inl ⟨h, t, hss ht⟩)))
  · refine .inr (.inr (.inr (.inr ⟨h, hpair.imp_left fun hlast => ?_⟩)))
    rw [getLast?_append, hlast]
    rfl

theorem Covers.accounted {offset place : Nat} (h : Covers offset cs ss) {before after : List Char}
    (hcs : cs = before ++ c :: after) (hplace : place = offset + byteLength before) :
    Accounted ss before place c after := by
  induction h generalizing before with
  | nil => simp at hcs
  | @pair offset cs ss _ ih =>
    obtain - | ⟨b, - | ⟨b', before⟩⟩ := before <;> cases hcs
    · exact .inr (.inr (.inr (.inr ⟨rfl, .inr rfl⟩)))
    · exact .inr (.inr (.inr (.inr ⟨rfl, .inl rfl⟩)))
    · have hsize : '\\'.utf8Size = 1 := rfl
      simp only [byteLength_cons, hsize] at hplace
      exact (ih rfl (by omega)).mono (List.Subset.refl ss) ['\\', '\\']
  | @separator offset cs ss d hd _ ih =>
    obtain - | ⟨b, before⟩ := before <;> cases hcs
    · exact .inr (hd.imp_right .inl)
    · have hsize := utf8Size_separator (c := d) (by simpa using hd)
      rw [byteLength_cons, hsize] at hplace
      exact (ih rfl (by omega)).mono (List.Subset.refl ss) [d]
  | @directive offset cs ss t _ _ ih =>
    obtain - | ⟨b, before⟩ := before
    · cases hcs
      subst hplace
      exact .inr (.inr (.inr (.inl ⟨rfl, t, mem_cons_self⟩)))
    · obtain ⟨rfl, htail⟩ := List.cons.inj hcs
      have hsize : '%'.utf8Size = 1 := rfl
      rw [byteLength_cons, hsize] at hplace
      rcases place_cases htail with hlt | ⟨before, rfl, hrest⟩
      · refine .inl ⟨_, mem_cons_self, ?_⟩
        change offset + 1 ≤ place ∧ place < offset + 1 + byteLength t
        omega
      · rw [byteLength_append] at hplace
        exact (ih hrest (by omega)).mono (subset_cons_self _ ss) ('%' :: t)
  | @equation offset cs ss t _ _ _ ih =>
    rcases place_cases hcs with hlt | ⟨before, rfl, hrest⟩
    · refine .inl ⟨_, mem_cons_self, ?_⟩
      change offset ≤ place ∧ place < offset + byteLength t
      omega
    · rw [byteLength_append] at hplace
      exact (ih hrest (by omega)).mono (subset_cons_self _ ss) t

/-- The statements of a document lie in it one after the other. Between them are only separators,
marks of directives and line breaks, and no equation goes on where it could end. -/
theorem split_covers (document : List Char) :
    (∀ s ∈ split document, Segment.slice? document s.text.span = some s.text) ∧
    (split document).Pairwise (fun s t =>
      s.text.offset < t.text.offset ∧ s.text.stop ≤ t.text.offset) ∧
    (∀ before c after, document = before ++ c :: after →
      Accounted (split document) before (byteLength before) c after) ∧
    ∀ text, equation text ∈ split document → Unbroken text.chars := by
  have h : Covers 0 document (split document) := covers_splitFrom 0 document
  exact ⟨fun s hs => (split_partOf document s hs).slice?, h.pairwise,
    fun before c after hcs => h.accounted hcs (Nat.zero_add _).symm, fun text => h.unbroken⟩

end Statement

end TensorCalculus
