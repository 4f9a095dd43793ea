import TensorCalculus.Proofs.Session.SymbolDerivative

/-! The directive that declares a metric of any dimension, from its text to the session that it
leaves. -/
namespace TensorCalculus

open List Option Segment Layout Statement Segment

variable {c : Char} {n : Nat}

theorem natural?_toString (n : Nat) :
    natural? (toString n).toList = if n < 18446744073709551616 then some n else none := by
  have hall : (toString n).toList.all Char.isDigit :=
    List.all_eq_true.mpr fun c hc => isDigit_of_mem_toString hc
  have hvalue := foldl_toString n
  have hnonempty := isEmpty_eq_false_iff.mpr (toList_toString_ne_nil n)
  generalize (toString n).toList = cs at *
  unfold natural?
  dsimp only
  split
  · simp at hall
  · rw [hnonempty, hall, hvalue]
    rfl

/-- Neither a bracket nor a character that can end an item or a statement. -/
def isPlain (c : Char) : Bool :=
  !isOpening c && !isClosing c && c != '\\' && c != ',' && c != ';' && c != '\n'

theorem ne_of_isDigit (h : c.isDigit) {x : Char} (hx : x.isDigit = false) : c ≠ x := by
  rintro rfl
  rw [h] at hx
  cases hx

theorem isPlain_of_isDigit (h : c.isDigit) : isPlain c := by
  have hne {x : Char} (hx : x.isDigit = false) := ne_of_isDigit h hx
  simp [isPlain, isOpening, isClosing, hne]

theorem isBlank_of_isDigit (h : c.isDigit) : isBlank c = false := by
  have hbounds : 48 ≤ c.toNat ∧ c.toNat ≤ 57 := by
    simp only [Char.isDigit, Bool.and_eq_true, decide_eq_true_eq] at h
    exact h
  simp only [isBlank, Bool.or_eq_false_iff, Bool.and_eq_false_iff, decide_eq_false_iff_not,
    beq_eq_false_iff_ne]
  omega

section Plain

variable {p : List Char} (hp : ∀ c ∈ p, isPlain c)
include hp

theorem Statement.bodyLength_append (depth : Nat) (rest : List Char) :
    bodyLength true depth (p ++ rest) = p.length + bodyLength true depth rest := by
  induction p with
  | nil => simp
  | cons c p ih =>
    rw [forall_mem_cons] at hp
    have hc := hp.1
    simp only [isPlain, Bool.and_eq_true, Bool.not_eq_true', bne_iff_ne, ne_eq] at hc
    rw [cons_append, bodyLength, if_neg (by simp [hc]), if_neg (by simp [hc]),
      if_neg (by simp [hc]), ih hp.2, length_cons]
    · omega
    · rintro rest' rfl
      exact absurd rfl hc.1.1.1.2
    · rintro c' rest' rfl
      exact absurd rfl hc.1.1.1.2

theorem Segment.splitCommas_append (offset depth : Nat) (taken rest : List Char) :
    splitCommas offset depth taken (p ++ rest) =
      splitCommas offset depth (p.reverse ++ taken) rest := by
  induction p generalizing taken with
  | nil => rfl
  | cons c p ih =>
    rw [forall_mem_cons] at hp
    have hc := hp.1
    simp only [isPlain, Bool.and_eq_true, Bool.not_eq_true', bne_iff_ne, ne_eq] at hc
    rw [cons_append, splitCommas, if_neg (by simp [hc]), if_neg (by simp [hc]),
      if_neg (by simp [hc]), ih hp.2, reverse_cons, append_assoc]
    rfl

end Plain

section Trim

variable {offset : Nat} {first last : Char} {cs : List Char} (hfirst : isBlank first = false)
  (hlast : isBlank last = false)
include hfirst hlast

theorem Segment.trim_eq :
    trim ⟨offset, first :: (cs ++ [last])⟩ = ⟨offset, first :: (cs ++ [last])⟩ := by
  simp [trim, dropWhile, dropWhileEnd, hfirst, hlast]

theorem Segment.trim_space :
    trim ⟨offset, ' ' :: first :: (cs ++ [last])⟩ = ⟨offset + 1, first :: (cs ++ [last])⟩ := by
  have hspace : isBlank ' ' = true := by decide
  have hsize : ' '.utf8Size = 1 := by decide
  simp [trim, dropWhile, dropWhileEnd, hfirst, hlast, hspace, hsize]

end Trim

theorem Segment.trim_of_forall {offset : Nat} {cs : List Char} (h : ∀ c ∈ cs, isBlank c = false) :
    trim ⟨offset, cs⟩ = ⟨offset, cs⟩ := by
  have hdrop {xs : List Char} (hxs : ∀ c ∈ xs, isBlank c = false) : xs.dropWhile isBlank = xs := by
    cases xs with
    | nil => rfl
    | cons x xs => simp [hxs x mem_cons_self]
  have htake : cs.takeWhile isBlank = [] := by
    cases cs with
    | nil => rfl
    | cons c cs => simp [h c mem_cons_self]
  rw [trim, dropWhile, dropWhileEnd]
  dsimp only
  rw [hdrop h, htake, hdrop fun c hc => h c (mem_reverse.mp hc), reverse_reverse]
  rfl

namespace Session

def symbolicMetric (naming : ComponentNaming) (n : Nat) : Tensor :=
  .symbolic "gDD" 2 n .metric naming

def metricSession (config : Config) (n : Nat) : Session :=
  let value := symbolicMetric config.naming n
  ((((Session.new config).insert (metricEntry "g" .lower n value .declared)).insert
    (metricEntry "g" .upper n value.inverse.1 .computed)).insert
      (determinantEntry "g" n value.inverse.2)).setMetric .none ⟨"g", n, 1⟩

theorem run_declareMetric (config : Config) (n : Nat) (span : Span) :
    (declareMetric "gDD" n false span).run (Session.new config) =
      (.ok (), metricSession config n) := by
  have hget : (Session.new config).table.get? "gDD" = none := by
    simp [Session.new, Table.get?]
  unfold declareMetric
  have hheights : metricHeights? "gDD" = some ("g", .lower) := by decide
  rw [hheights]
  dsimp only
  rw [run_bind, run_get]
  dsimp only
  rw [hget]
  have hmark : (Diacritic.split "g").2 = .none := by decide
  rw [hmark]
  rfl

def metricDirective (n : Nat) : String :=
  "% def metric gDD (" ++ toString n ++ ")"

def metricWords : List Char :=
  ['m', 'e', 't', 'r', 'i', 'c', ' ', 'g', 'D', 'D', ' ']

def metricItem (n : Nat) : Segment :=
  ⟨6, metricWords ++ '(' :: ((toString n).toList ++ [')'])⟩

theorem isPlain_of_mem_toString : ∀ c ∈ (toString n).toList, isPlain c :=
  fun _ hc => isPlain_of_isDigit (isDigit_of_mem_toString hc)

section

variable (n : Nat)

theorem toList_metricDirective :
    (metricDirective n).toList = '%' :: ([' ', 'd', 'e', 'f', ' '] ++ (metricItem n).chars) := by
  have hopening : "% def metric gDD (".toList =
      '%' :: ([' ', 'd', 'e', 'f', ' '] ++ (metricWords ++ ['('])) := by
    decide +kernel
  have hclosing : ")".toList = [')'] := by decide +kernel
  unfold metricDirective metricItem
  rw [String.toList_append, String.toList_append, hopening, hclosing]
  simp only [cons_append, append_assoc, nil_append]

theorem bodyLength_metricItem :
    bodyLength true 0 ([' ', 'd', 'e', 'f', ' '] ++ (metricItem n).chars) =
      ([' ', 'd', 'e', 'f', ' '] ++ (metricItem n).chars).length := by
  rw [bodyLength_append (List.all_eq_true.mp (by decide)), metricItem]
  dsimp only
  rw [bodyLength_append (List.all_eq_true.mp (by decide)), bodyLength, if_pos (by decide),
    bodyLength_append isPlain_of_mem_toString]
  · simp [bodyLength, isOpening, isClosing]
    omega
  · nofun
  · nofun

theorem split_metricDirective :
    split (metricDirective n).toList =
      [.directive ⟨1, [' ', 'd', 'e', 'f', ' '] ++ (metricItem n).chars⟩] := by
  rw [toList_metricDirective, split, splitFrom.eq_3 0 '%' _ (by simp),
    if_neg (by decide), if_pos (by decide), bodyLength_metricItem, take_length,
    drop_length]
  dsimp only
  rw [splitFrom.eq_1]

theorem chars_metricItem :
    (metricItem n).chars = 'm' :: ((metricWords.tail ++ '(' :: (toString n).toList) ++ [')']) := by
  simp [metricItem, metricWords]

theorem items_metricItem : (metricItem n).items = [metricItem n] := by
  have hsplit : splitCommas 6 0 [] (metricItem n).chars = [metricItem n] := by
    rw [metricItem]
    dsimp only
    rw [splitCommas_append (List.all_eq_true.mp (by decide)), splitCommas, if_pos (by decide),
      splitCommas_append isPlain_of_mem_toString, splitCommas, if_neg (by decide),
      if_pos (by decide), splitCommas]
    simp
  have htrim : (metricItem n).trim = metricItem n := by
    have h := @trim_eq 6 'm' ')' (metricWords.tail ++ '(' :: (toString n).toList)
      (by decide) (by decide)
    rw [← chars_metricItem] at h
    exact h
  have hnonempty : (metricItem n).isEmpty = false := by
    rw [Segment.isEmpty, chars_metricItem]
    rfl
  unfold items
  rw [show (metricItem n).offset = 6 from rfl, hsplit, map_singleton, htrim,
    filter_singleton, hnonempty]
  rfl

theorem documentActions_metricDirective :
    documentActions (metricDirective n).toList = [declare false (metricItem n)] := by
  have htrim : trim ⟨1, [' ', 'd', 'e', 'f', ' '] ++ (metricItem n).chars⟩ =
      ⟨2, ['d', 'e', 'f', ' '] ++ (metricItem n).chars⟩ := by
    rw [chars_metricItem]
    exact @trim_space 1 'd' ')' (['e', 'f', ' ', 'm'] ++
      (metricWords.tail ++ '(' :: (toString n).toList)) (by decide) (by decide)
  have hkeyword : Segment.takeWhile ⟨2, ['d', 'e', 'f', ' '] ++ (metricItem n).chars⟩ Char.isAlpha =
      ⟨2, ['d', 'e', 'f']⟩ := by
    simp [Segment.takeWhile, (by decide : 'd'.isAlpha = true), (by decide : 'e'.isAlpha = true),
      (by decide : 'f'.isAlpha = true), (by decide : ' '.isAlpha = false)]
  have hrest : (dropWhile ⟨2, ['d', 'e', 'f', ' '] ++ (metricItem n).chars⟩
      Char.isAlpha).trim = metricItem n := by
    have hdrop : Segment.dropWhile ⟨2, ['d', 'e', 'f', ' '] ++ (metricItem n).chars⟩ Char.isAlpha =
        ⟨5, ' ' :: (metricItem n).chars⟩ := by
      simp [Segment.dropWhile, (by decide : 'd'.isAlpha = true), (by decide : 'e'.isAlpha = true),
        (by decide : 'f'.isAlpha = true), (by decide : ' '.isAlpha = false),
        (by decide : 'd'.utf8Size = 1), (by decide : 'e'.utf8Size = 1),
        (by decide : 'f'.utf8Size = 1)]
    have h := @trim_space 5 'm' ')' (metricWords.tail ++ '(' :: (toString n).toList)
      (by decide) (by decide)
    rw [← chars_metricItem] at h
    rw [hdrop]
    exact h
  have hdef : text ⟨2, ['d', 'e', 'f']⟩ = "def" := by decide +kernel
  rw [documentActions, split_metricDirective, flatMap_singleton, statementActions,
    directiveActions, htrim, hkeyword, hrest, hdef, items_metricItem]
  rfl

end

theorem parseDimension_digits (offset n : Nat) :
    Declaration.parseDimension ⟨offset, (toString n).toList ++ [')']⟩ =
      match positive? (toString n).toList with
      | some n => .ok n
      | none => .error (directiveError (span ⟨offset, (toString n).toList ++ [')']⟩)
        .declaredDimension) := by
  have hblank : ∀ c ∈ (toString n).toList, isBlank c = false :=
    fun c hc => isBlank_of_isDigit (isDigit_of_mem_toString hc)
  have hclosed : ∀ c ∈ (toString n).toList ++ [')'], isBlank c = false := by
    intro c hc
    rcases mem_append.mp hc with hc | hc
    · exact hblank c hc
    · rw [mem_singleton.mp hc]
      decide
  unfold Declaration.parseDimension
  rw [trim_of_forall hclosed]
  dsimp only
  rw [reverse_append, reverse_singleton]
  change (match positive? (trim ⟨0, (toString n).toList.reverse.reverse⟩).chars with
    | some n => pure n
    | none => throw _ : Except Error Nat) = _
  rw [reverse_reverse, trim_of_forall hblank]
  dsimp only
  cases positive? (toString n).toList with
  | none => rfl
  | some n => rfl

theorem parse_metricItem (n : Nat) :
    ∃ fault, Declaration.parse (metricItem n) =
      match positive? (toString n).toList with
      | some n => .ok ⟨⟨13, ['g', 'D', 'D']⟩, [⟨6, ['m', 'e', 't', 'r', 'i', 'c']⟩], some n⟩
      | none => .error fault := by
  let isOpen (c : Char) : Bool := c == '(' || c == '['
  have hhead : (metricItem n).takeWhile (!isOpen ·) = ⟨6, metricWords⟩ := by
    rw [Segment.takeWhile, metricItem]
    dsimp only
    rw [takeWhile_append_of_pos (List.all_eq_true.mp (by decide)), takeWhile_cons_of_neg (by decide),
      append_nil]
  have hrest : (metricItem n).dropWhile (!isOpen ·) = ⟨17, '(' :: ((toString n).toList ++ [')'])⟩ := by
    rw [Segment.dropWhile, metricItem]
    dsimp only
    rw [takeWhile_append_of_pos (List.all_eq_true.mp (by decide)), takeWhile_cons_of_neg (by decide),
      append_nil, dropWhile_append_of_pos (List.all_eq_true.mp (by decide)),
      dropWhile_cons_of_neg (by decide), (by decide : byteLength metricWords = 11)]
  have hwords : (words ⟨6, metricWords⟩).reverse =
      [⟨13, ['g', 'D', 'D']⟩, ⟨6, ['m', 'e', 't', 'r', 'i', 'c']⟩] := by
    decide
  have hdrop : drop ⟨17, '(' :: ((toString n).toList ++ [')'])⟩ 1 =
      ⟨18, (toString n).toList ++ [')']⟩ := by
    rw [Segment.drop]
    dsimp only [take_succ_cons, take_zero]
    rw [(by decide : byteLength ['('] = 1)]
    rfl
  refine ⟨directiveError (span ⟨18, (toString n).toList ++ [')']⟩) .declaredDimension, ?_⟩
  unfold Declaration.parse
  dsimp only
  rw [hhead, hrest, hwords, hdrop, parseDimension_digits]
  cases positive? (toString n).toList with
  | none => rfl
  | some n => rfl

theorem positive?_toString (hn : 0 < n) :
    positive? (toString n).toList = if n < 18446744073709551616 then some n else none := by
  rw [positive?, natural?_toString]
  split
  · rw [filter_some, if_pos (by simpa using hn)]
  · rfl

theorem declarationFault?_metric (n : Nat) :
    declarationFault? "gDD" 2 n .metric =
      if (componentCount? 2 n).isNone then some (.largeTensor "gDD") else none := by
  have hsymmetry : symmetryFault? "gDD" 2 n .metric = none := rfl
  rw [declarationFault?, hsymmetry, none_or]

theorem not_isSome_componentCount? (h : 18446744073709551616 ≤ n) :
    ¬ (componentCount? 2 n).isSome := by
  rw [isSome_componentCount? (by decide) (by omega), Nat.not_le, pow_two]
  calc maxComponents < 18446744073709551616 * 1 := by decide
    _ ≤ n * n := Nat.mul_le_mul h (by omega)

theorem symmetry_metricItem :
    Declaration.symmetry none [⟨6, ['m', 'e', 't', 'r', 'i', 'c']⟩] = .ok .metric := by
  have hmodifier : Symmetry.ofModifier? (text ⟨6, ['m', 'e', 't', 'r', 'i', 'c']⟩) =
      some .metric := by
    decide +kernel
  rw [Declaration.symmetry, hmodifier]
  rfl

theorem run_declare_metric {s : Session} {item : Segment} {d : Declaration}
    (hparse : Declaration.parse item = .ok d)
    (hsymmetry : Declaration.symmetry none d.modifiers = .ok .metric)
    (hdimension : d.dimension = some n) (habsent : s.table.get? d.name.text = none) :
    (declare false item).run s =
      match declarationFault? d.name.text (splitHeights d.name.text).2.length n .metric with
      | some fault => (.error (directiveError d.name.span fault), s)
      | none => (declareMetric d.name.text n false d.name.span).run s := by
  unfold declare
  rw [run_bind, run_lift, hparse]
  dsimp only
  rw [run_bind, run_lift, hsymmetry]
  dsimp only
  rw [run_bind, run_get]
  dsimp only
  rw [habsent, hdimension]
  rw [filter_none, map_none, or_none, getD_some]
  cases declarationFault? d.name.text (splitHeights d.name.text).2.length n .metric with
  | some fault =>
    dsimp only
    rw [run_bind, run_throw]
  | none =>
    have hquiet : ¬ ((!false && (none : Option Entry).isSome) = true) := by decide
    dsimp only
    rw [run_ite, if_neg hquiet, run_ite, if_pos rfl]

theorem run_declare_metricItem (config : Config) (hn : 0 < n) :
    ((declare false (metricItem n)).run (Session.new config)).2 =
      if (componentCount? 2 n).isSome then metricSession config n
      else Session.new config := by
  obtain ⟨fault, hparse⟩ := parse_metricItem n
  rw [positive?_toString hn] at hparse
  by_cases hbound : n < 18446744073709551616
  · have hname : text ⟨13, ['g', 'D', 'D']⟩ = "gDD" := by decide +kernel
    have hheights : (splitHeights "gDD").2.length = 2 := by decide +kernel
    have habsent : (Session.new config).table.get? "gDD" = none := by
      simp [Session.new, Table.get?]
    rw [if_pos hbound] at hparse
    rw [run_declare_metric hparse symmetry_metricItem rfl (by rw [hname]; exact habsent)]
    dsimp only
    rw [hname, hheights, declarationFault?_metric]
    cases componentCount? 2 n with
    | none => rfl
    | some count =>
      rw [if_neg (by simp)]
      dsimp only
      rw [run_declareMetric, if_pos isSome_some]
  · rw [if_neg hbound] at hparse
    unfold declare
    rw [run_bind, run_lift, hparse, if_neg (not_isSome_componentCount? (Nat.not_lt.mp hbound))]

theorem parse_of_singleton {source : String} {x : SessionM Unit}
    (h : documentActions source.toList = [x]) (s : Session) : (s.parse source).2 = (x.run s).2 := by
  have hrun : ([x].forM id).run s = (x >>= fun _ => pure ()).run s := rfl
  rw [parse, h, hrun, run_bind]
  rcases x.run s with ⟨_ | _, _⟩
  · rfl
  · rfl

theorem parse_metricDirective (config : Config) (hn : 0 < n) :
    ((Session.new config).parse (metricDirective n)).2 =
      if (componentCount? 2 n).isSome then metricSession config n
      else Session.new config := by
  rw [parse_of_singleton (documentActions_metricDirective n), run_declare_metricItem config hn]

open Formula

def declaredMetric (naming : ComponentNaming) (n : Nat) : Entry :=
  { metricEntry "g" .lower n (symbolicMetric naming n) .declared with id := 1 }

def inverseMetric (naming : ComponentNaming) (n : Nat) : Entry :=
  { metricEntry "g" .upper n (symbolicMetric naming n).inverse.1 .computed with id := 2 }

theorem name_lowerMetric (n : Nat) (value : Tensor) (origin : Origin) :
    (metricEntry "g" .lower n value origin).name = "gDD" :=
  (by decide : "g" ++ String.ofList [Height.lower.letter, Height.lower.letter] = "gDD")

theorem name_upperMetric (n : Nat) (value : Tensor) (origin : Origin) :
    (metricEntry "g" .upper n value origin).name = "gUU" :=
  (by decide : "g" ++ String.ofList [Height.upper.letter, Height.upper.letter] = "gUU")

theorem name_determinant (n : Nat) (value : Expr) : (determinantEntry "g" n value).name = "gdet" :=
  (by decide : "g" ++ "det" = "gdet")

theorem name_declaredMetric (naming : ComponentNaming) (n : Nat) :
    (declaredMetric naming n).name = "gDD" :=
  name_lowerMetric n (symbolicMetric naming n) .declared

theorem derivativeName_declaredMetric (naming : ComponentNaming) (n : Nat) :
    derivativeName (declaredMetric naming n) = "gDD_dD" := by
  change (declaredMetric naming n).name ++ "_dD" = _
  rw [name_declaredMetric]
  decide

section Fresh

variable (config : Config) (n : Nat)

theorem get?_metricSession (name : String) :
    (metricSession config n).table.get? name =
      if "gdet" = name then
        some { determinantEntry "g" n (symbolicMetric config.naming n).inverse.2 with id := 3 }
      else if "gUU" = name then
        some (inverseMetric config.naming n)
      else if "gDD" = name then
        some (declaredMetric config.naming n)
      else none := by
  have hempty : (Session.new config).table.get? name = none := by simp [Session.new, Table.get?]
  change (Session.insert (Session.insert (Session.insert _ _) _) _).table.get? name = _
  rw [insert, Table.get?_insert, name_determinant, insert, Table.get?_insert, name_upperMetric,
    insert, Table.get?_insert, name_lowerMetric, hempty]
  rfl

theorem get?_declaredMetric :
    (metricSession config n).table.get? "gDD" = some (declaredMetric config.naming n) :=
  get?_metricSession config n "gDD"

theorem indexed_metricSession {n : Nat} (hn : 0 < n)
    (hcount : (componentCount? 2 n).isSome) : (metricSession config n).Indexed := by
  have hafter := Indexed.after config [.document (metricDirective n)]
  have hparse := parse_metricDirective config hn
  rw [if_pos hcount] at hparse
  rw [← hparse]
  exact hafter

end Fresh

def metricSymbol (naming : ComponentNaming) (n i j : Nat) : String :=
  componentName "gDD" [min i j, max i j] n naming

theorem metricSymbol_comm (naming : ComponentNaming) (n i j : Nat) :
    metricSymbol naming n i j = metricSymbol naming n j i := by
  rw [metricSymbol, metricSymbol, Nat.min_comm, Nat.max_comm]

variable (config : Config)

theorem get_symbolicMetric (naming : ComponentNaming) {i j : Nat}
    (h : [i, j] ∈ indices 2 n) :
    (symbolicMetric naming n).get [i, j] = .sym (metricSymbol naming n i j) := by
  unfold symbolicMetric Tensor.symbolic
  rw [if_neg (by decide), Tensor.get_ofFn h]
  dsimp only
  rw [Symmetry.canonicalize_metric]
  rfl

theorem metricSymbol_ne (naming : ComponentNaming) {i j : Nat} {name : String}
    (hname : ¬ ['g', 'D'] <+: name.toList) : metricSymbol naming n i j ≠ name := by
  rintro rfl
  obtain ⟨tail, -, htail⟩ := exists_componentName "gDD" [min i j, max i j] n naming
  exact hname ⟨'D' :: tail, htail.symm⟩

theorem owns_metricSymbol {i j : Nat} (h : [i, j] ∈ indices 2 n) :
    (metricSession config n).Owns (declaredMetric config.naming n)
      (metricSymbol config.naming n i j) [min i j, max i j] where
  owner? := by
    have hmem := Symmetry.metric.canonicalize_mem_indices h
    have hcanonical : (Symmetry.metric.canonicalize [i, j]).1 ≠ .zero → _ :=
      Symmetry.isCanonical_canonical Symmetry.ordered_metric
    rw [Symmetry.canonicalize_metric] at hmem hcanonical
    have hsymbol : (metricSymbol config.naming n i j, [min i j, max i j]) ∈
        (declaredMetric config.naming n).componentSymbols config.naming := by
      refine (Entry.mem_componentSymbols_iff (e := declaredMetric config.naming n) Nat.two_pos
        rfl).mpr ⟨mem_filter.mpr ⟨hmem, hcanonical nofun⟩, ?_⟩
      rw [name_declaredMetric]
      rfl
    have hlower := (Entry.owners_insert_iff (Session.new config).table
      (metricEntry "g" .lower n (symbolicMetric config.naming n) .declared)).mpr hsymbol
    rw [name_lowerMetric] at hlower
    refine (Table.owner?_eq_some _).mpr ⟨"gDD", ?_, get?_declaredMetric config n⟩
    -- the inverse stands for no symbols, and the determinant for one that is not of the metric
    refine owners_insert_of_ne (owners_insert_of_ne hlower ?_ nofun) ?_ fun index hdet => ?_
    · rw [name_upperMetric]
      exact (by decide : "gDD" ≠ "gUU")
    · rw [name_determinant]
      exact (by decide : "gDD" ≠ "gdet")
    · obtain ⟨hdet, -⟩ := Prod.mk.inj (mem_singleton.mp hdet)
      rw [name_determinant] at hdet
      exact metricSymbol_ne _ (by decide) hdet
  not_coordinate := not_mem_nil
  ne_pi := metricSymbol_ne _ (by decide)

/-- The sessions that differentiation of a metric leads to. -/
structure Metrical (config : Config) (n : Nat) (s t : Session) : Prop where
  configured : t.config = config
  indexed : t.Indexed
  room : t.HasRoom (declaredMetric config.naming n) n
  owns : ∀ {symbol index}, s.Owns (declaredMetric config.naming n) symbol index →
    t.Owns (declaredMetric config.naming n) symbol index
  others : ∀ {name}, "gDD_dD" ≠ name → t.table.get? name = s.table.get? name
  coordinates : t.coordinates = s.coordinates

variable {config} {s : Session}

theorem Metrical.differentiate (hcount : (componentCount? 3 n).isSome) {symbol : String}
    {index : IndexVector} (h : s.Owns (declaredMetric config.naming n) symbol index) {k : Nat}
    (hk : k < n) (span : Span) :
    Yields (Metrical config n s) (differentiate (.sym symbol) k n span)
      (.ok (.sym (derivativeSymbol (declaredMetric config.naming n) index k n config.naming))) := by
  intro t ht
  have hk : k < derivativeRange (declaredMetric config.naming n) n := hk
  rcases (ht.owns h).differentiate ht.indexed nofun hk ht.room span with ⟨u, hrun, hu⟩ | ⟨hnone, -⟩
  · rw [hrun, ht.configured]
    have hroom := hu.hasRoom
    refine ⟨rfl, hu.config.trans ht.configured, hu.indexed, hroom, fun h => hu.owns (ht.owns h),
      fun hname => ?_, hu.coordinates.trans ht.coordinates⟩
    rw [← derivativeName_declaredMetric config.naming n] at hname
    exact (hu.others hname).trans (ht.others (derivativeName_declaredMetric .. ▸ hname))
  · rw [show componentCount? 3 n = none from hnone] at hcount
    cases hcount

def metricPartial (config : Config) (n k i j : Nat) : Expr :=
  .sym (derivativeSymbol (declaredMetric config.naming n) [min i j, max i j] k n config.naming)

def partialTensor (config : Config) (n k : Nat) : Tensor :=
  (indices 2 n).foldl (fun t index =>
    t.set index (metricPartial config n k (index.getD 0 0) (index.getD 1 0))) (.zeros 2 n)

theorem entries_symbolicMetric (naming : ComponentNaming) :
    (symbolicMetric naming n).entries = (indices 2 n).map
      fun index => (index, (symbolicMetric naming n).get index) := by
  unfold symbolicMetric Tensor.symbolic
  rw [if_neg (by decide), Tensor.entries_ofFn]
  apply map_congr_left
  intro index hindex
  rw [Tensor.get_ofFn hindex]

theorem metricDerivative_yields (hcount : (componentCount? 3 n).isSome) {k : Nat}
    (hk : k < n) (span : Span) :
    Yields (Metrical config n (metricSession config n))
      (metricDerivative (symbolicMetric config.naming n) n k span)
      (.ok (partialTensor config n k)) := by
  rw [partialTensor, ← foldlM_set (fun index => .ok (metricPartial config n k (index.getD 0 0)
    (index.getD 1 0))) (fun _ _ => rfl), metricDerivative, entries_symbolicMetric, foldlM_map]
  refine .foldlM (fun t index hindex => .bind ?_ fun _ _ => .pure _) _
  obtain ⟨i, j, rfl⟩ := length_eq_two.mp (mem_indices.mp hindex).1
  rw [get_symbolicMetric config.naming hindex]
  exact Metrical.differentiate hcount (owns_metricSymbol config hindex) hk span

theorem hasMatrix_partialTensor (k : Nat) (σ : Valuation) :
    (partialTensor config n k).HasMatrix σ
      (Matrix.of fun i j : Fin n => (metricPartial config n k i j).value σ) := by
  obtain ⟨_, _, hdimension, hget⟩ := Tensor.foldl_set
    (g := fun index => metricPartial config n k (index.getD 0 0) (index.getD 1 0))
    (indices 2 n) (Tensor.full_zeros 2 n) (fun _ h => h)
  refine ⟨hdimension, fun i j => ?_⟩
  have hmem : [(i : Nat), (j : Nat)] ∈ indices 2 n :=
    mem_indices.mpr ⟨rfl, by simp⟩
  rw [Tensor.get, partialTensor, hget _ hmem, if_pos hmem]
  exact .sym _

section Connection

def metricConnection (config : Config) (n : Nat) : Tensor :=
  connectionValue (inverseMetric config.naming n).value
    ((List.range n).map (partialTensor config n)) n

def connectionOfMetric (config : Config) (n : Nat) : Entry :=
  connectionEntry .none ⟨"g", n, 1⟩ (metricConnection config n)

/-- A session with the metric and its connection, in which the covariant derivatives of the metric
are not known yet. -/
structure Connected (config : Config) (n : Nat) (s : Session) : Prop where
  metrical : Metrical config n s s
  metric : s.table.get? "gDD" = some (declaredMetric config.naming n)
  owns : ∀ {i j}, [i, j] ∈ indices 2 n → s.Owns (declaredMetric config.naming n)
    (metricSymbol config.naming n i j) [min i j, max i j]
  absent : s.table.get? "gDD_cdD" = none
  connection : ∃ c, s.table.get? Diacritic.none.connectionName = some c ∧ c.rank = 3 ∧
    c.dimension = n ∧ c.value = metricConnection config n
  coordinates : s.coordinates = []

variable (config)

theorem metrical_metricSession (hn : 0 < n) (hcount : (componentCount? 2 n).isSome) :
    Metrical config n (metricSession config n) (metricSession config n) where
  configured := rfl
  indexed := indexed_metricSession config hn hcount
  room e he := by
    rw [derivativeName_declaredMetric, get?_metricSession] at he
    cases he
  owns h := h
  others _ := rfl
  coordinates := rfl

theorem run_ensureConnection (span : Span) :
    (ensureConnection .none span).run (metricSession config n) =
      (((List.range n).mapM fun k => metricDerivative (symbolicMetric config.naming n) n k span) >>=
        fun derivatives => modify (·.insert (connectionEntry .none ⟨"g", n, 1⟩
          (connectionValue (inverseMetric config.naming n).value derivatives n)))).run
            (metricSession config n) := by
  have hlower : (metricSession config n).table.get? ("g" ++ "DD") =
      some (declaredMetric config.naming n) := get?_declaredMetric config n
  have hupper : (metricSession config n).table.get? ("g" ++ "UU") =
      some (inverseMetric config.naming n) := get?_metricSession config n _
  have hunknown : (metricSession config n).table.get? Diacritic.none.connectionName = none :=
    get?_metricSession config n _
  unfold ensureConnection
  rw [run_bind, run_get]
  dsimp only
  rw [show (metricSession config n).metrics .none = some ⟨"g", n, 1⟩ from rfl]
  dsimp only
  rw [hunknown, hlower, hupper]
  rfl

theorem isSome_componentCount?_two (hn : 0 < n) (h : (componentCount? 3 n).isSome) :
    (componentCount? 2 n).isSome := by
  rw [isSome_componentCount? (by decide) hn] at h ⊢
  exact (Nat.pow_le_pow_right hn (by decide)).trans h

theorem exists_run_ensureConnection (hn : 0 < n) (hcount : (componentCount? 3 n).isSome)
    (span : Span) :
    ∃ s, (ensureConnection .none span).run (metricSession config n) = (.ok (), s) ∧
      Connected config n s := by
  have hyields := Yields.mapM fun k hk =>
    @metricDerivative_yields n config hcount k (mem_range.mp hk) span
  obtain ⟨hresult, hu⟩ := hyields (metricSession config n)
    (metrical_metricSession config hn (isSome_componentCount?_two hn hcount))
  rw [show ((List.range n).mapM fun k => (.ok (partialTensor config n k) : Except Error Tensor)) =
    .ok ((List.range n).map (partialTensor config n)) from mapM_pure] at hresult
  rw [run_ensureConnection, run_bind]
  rcases hrun : ((List.range n).mapM fun k =>
    metricDerivative (symbolicMetric config.naming n) n k span).run (metricSession config n) with
    ⟨r, u⟩
  rw [hrun] at hresult hu
  subst hresult
  have hother {name : String} (hne : Diacritic.none.connectionName ≠ name) (hd : "gDD_dD" ≠ name) :
      (u.insert (connectionOfMetric config n)).table.get? name =
        (metricSession config n).table.get? name := by
    rw [get?_insert_of_ne (e := connectionOfMetric config n) hne, hu.others hd]
  refine ⟨u.insert (connectionOfMetric config n), rfl, ?_⟩
  exact {
    metrical := {
      configured := hu.configured
      indexed := hu.indexed.insert (Entry.inherited_arranged.connection ..)
      room := fun e he => hu.room e (by
        rwa [get?_insert_of_ne (e := connectionOfMetric config n) (by
          rw [derivativeName_declaredMetric]
          exact (by decide : Diacritic.none.connectionName ≠ "gDD_dD"))] at he)
      owns := id
      others := fun _ => rfl
      coordinates := rfl }
    metric := by rw [hother (by decide) (by decide), get?_declaredMetric]
    owns := fun h => (hu.owns (owns_metricSymbol config h)).insert hu.indexed (by
      rw [name_declaredMetric]
      exact (by decide : Diacritic.none.connectionName ≠ "gDD")) nofun
    absent := by
      rw [hother (by decide) (by decide)]
      exact get?_metricSession config n _
    connection := by
      refine ⟨_, by rw [insert, Table.get?_insert]; exact if_pos rfl, rfl, rfl, rfl⟩
    coordinates := hu.coordinates }

theorem run_ensureConnection_of_large (hn : 0 < n)
    (hcount : ¬ (componentCount? 3 n).isSome) (span : Span) :
    ∃ fault u, (ensureConnection .none span).run (metricSession config n) = (.error fault, u) := by
  obtain ⟨m, rfl⟩ := Nat.exists_eq_succ_of_ne_zero hn.ne'
  -- already the derivative of the first component by the first coordinate has no room
  have hzero : [0, 0] ∈ indices 2 (m + 1) := mem_indices.mpr ⟨rfl, by simp⟩
  obtain ⟨first, rest, hindices⟩ := exists_cons_of_ne_nil (ne_nil_of_mem hzero)
  have hfirst : first ∈ indices 2 (m + 1) := hindices ▸ mem_cons_self
  obtain ⟨i, j, rfl⟩ := length_eq_two.mp (mem_indices.mp hfirst).1
  have hfails : ∃ fault, (differentiate (.sym (metricSymbol config.naming (m + 1) i j)) 0 (m + 1)
      span).run (metricSession config (m + 1)) = (.error fault, metricSession config (m + 1)) := by
    have hnone : (componentCount? 3 (m + 1)).isNone = true := by simpa using hcount
    rw [(owns_metricSymbol config hfirst).run_differentiate nofun, run_ownedDerivative,
      if_neg (show ¬ derivativeRange (declaredMetric _ _) (m + 1) ≤ 0 from
        Nat.not_succ_le_zero m),
      derivativeName_declaredMetric, get?_metricSession,
      if_neg (by decide), if_neg (by decide), if_neg (by decide), Option.filter_none]
    exact ⟨_, if_pos hnone⟩
  obtain ⟨fault, hfails⟩ := hfails
  refine ⟨fault, metricSession config (m + 1), ?_⟩
  rw [run_ensureConnection, run_bind, range_succ_eq_map, mapM_cons, run_bind,
    metricDerivative, entries_symbolicMetric, foldlM_map, hindices, foldlM_cons, run_bind,
    run_bind, get_symbolicMetric config.naming hfirst, hfails]

def metricMatrix (naming : ComponentNaming) (n : Nat) (σ : Valuation) :
    Matrix (Fin n) (Fin n) Rat :=
  Matrix.of fun i j => σ (metricSymbol naming n i j)

def partialMatrix (config : Config) (n : Nat) (σ : Valuation) (k : Fin n) :
    Matrix (Fin n) (Fin n) Rat :=
  Matrix.of fun i j => (metricPartial config n k i j).value σ

theorem isSymm_metricMatrix (naming : ComponentNaming) (σ : Valuation) :
    (metricMatrix naming n σ).IsSymm := by
  ext i j
  exact congrArg σ (metricSymbol_comm naming n j i)

theorem isSymm_partialMatrix (σ : Valuation) (k : Fin n) : (partialMatrix config n σ k).IsSymm := by
  ext i j
  simp only [partialMatrix, Matrix.transpose_apply, Matrix.of_apply, metricPartial,
    Nat.min_comm, Nat.max_comm]

theorem pair_mem_indices (i j : Fin n) : [(i : Nat), (j : Nat)] ∈ indices 2 n :=
  mem_indices.mpr ⟨rfl, by simp⟩

theorem hasMatrix_symbolicMetric (naming : ComponentNaming) (σ : Valuation) :
    (symbolicMetric naming n).HasMatrix σ (metricMatrix naming n σ) where
  dimension := rfl
  value i j := by
    rw [get_symbolicMetric naming (pair_mem_indices i j)]
    exact .sym _

theorem hasValue_metricConnection {σ : Valuation}
    (hdet : (metricMatrix config.naming n σ).det ≠ 0) (c a b : Fin n) :
    ((metricConnection config n).get [(c : Nat), (a : Nat), (b : Nat)]).HasValue σ
      (christoffelValue (metricMatrix config.naming n σ)⁻¹ (partialMatrix config n σ) c a b) := by
  have hmem : [(c : Nat), (a : Nat), (b : Nat)] ∈ indices 3 n :=
    mem_indices.mpr ⟨rfl, by simp⟩
  have hupper := (hasMatrix_symbolicMetric config.naming σ).inverse hdet
  have hderivatives (k : Fin n) : ∃ t, ((List.range n).map (partialTensor config n))[(k : Nat)]? =
      some t ∧ t.HasMatrix σ (partialMatrix config n σ k) := by
    refine ⟨partialTensor config n k, by simp, hasMatrix_partialTensor k σ⟩
  rw [Tensor.get, metricConnection, get?_connectionValue _ _ hmem]
  -- only ordered lower indices are computed
  rcases Nat.le_total a b with hab | hab
  · rw [Nat.min_eq_left hab, Nat.max_eq_right hab]
    exact hasValue_christoffel hupper hderivatives c a b
  · rw [Nat.min_eq_right hab, Nat.max_eq_left hab,
      christoffelValue_comm (isSymm_partialMatrix config σ)]
    exact hasValue_christoffel hupper hderivatives c b a

end Connection

/-! A metric with symbols of its own has no covariant derivative: its connection and the terms
with it fit together. -/

variable {index : IndexVector}

section Compatible

variable (config : Config)

theorem covariantValue_eq_zero {σ : Valuation}
    (hdet : (metricMatrix config.naming n σ).det ≠ 0) {γ α : IndexVector → Rat}
    (hγ : ∀ c a b : Fin n, γ [(c : Nat), (a : Nat), (b : Nat)] =
      christoffelValue (metricMatrix config.naming n σ)⁻¹ (partialMatrix config n σ) c a b)
    (hα : ∀ i j : Fin n, α [(i : Nat), (j : Nat)] = metricMatrix config.naming n σ i j)
    (i j b : Fin n) :
    covariantValue n γ [.lower, .lower] α (partialMatrix config n σ b i j) b [(i : Nat), (j : Nat)] =
      0 := by
  have hcorrection (i : Fin n) {α : Nat → Rat} {v : Fin n → Rat} (h : ∀ c : Fin n, α c = v c) :
      correctionValue n γ .lower i b α = -∑ c, christoffelValue
        (metricMatrix config.naming n σ)⁻¹ (partialMatrix config n σ) c i b * v c := by
    rw [correctionValue, sum_map_range, ← Finset.sum_neg_distrib]
    apply Finset.sum_congr rfl
    intro c _
    rw [connectionFactor, connectionIndex, hγ, h]
    ring
  have hsum : covariantValue n γ [.lower, .lower] α (partialMatrix config n σ b i j) b
      [(i : Nat), (j : Nat)] = partialMatrix config n σ b i j +
        (correctionValue n γ .lower i b (fun a => α [a, (j : Nat)]) +
          (correctionValue n γ .lower j b (fun a => α [(i : Nat), a]) + 0)) := rfl
  rw [hsum, hcorrection i (hα · j), hcorrection j (hα i), derivative_eq_connection (isSymm_metricMatrix config.naming σ) hdet
    (isSymm_partialMatrix config σ) i j b]
  ring

namespace Connected

variable {config} (h : Connected config n s)
include h

theorem component_of_get? {e : Entry} {head : TensorHead} {x : Expr}
    (he : s.table.get? head.name = some e) (hne : "gDD_dD" ≠ head.name)
    (hrank : e.rank = index.length) (hx : e.value.get? index = some x) (span : Span) :
    (commonReading (Metrical config n s)).component head index span = .ok x := by
  refine Yields.common_eq (fun t ht => ?_) h.metrical
  have hrun : (reading.component head index span).run t = (t.component head index span, t) := by
    unfold reading
    dsimp only
    rw [run_bind, run_get]
    exact run_lift ..
  rw [hrun, component_of_known ((ht.others hne).trans he) hrank, hx]
  exact ⟨rfl, ht⟩

theorem component_metric (hindex : index ∈ indices 2 n) (span : Span) :
    (commonReading (Metrical config n s)).component (declaredMetric config.naming n).head index span =
      .ok ((symbolicMetric config.naming n).get index) := by
  have hname : (declaredMetric config.naming n).head.name = "gDD" :=
    name_declaredMetric config.naming n
  have hfull : (symbolicMetric config.naming n).Full := Tensor.full_ofFn _ _ _
  obtain ⟨e, he⟩ := Option.isSome_iff_exists.mp (Tensor.isSome_get? hfull hindex)
  rw [Tensor.get, he]
  have hknown : s.table.get? (declaredMetric config.naming n).head.name =
      some (declaredMetric config.naming n) := hname ▸ h.metric
  exact h.component_of_get? hknown (by rw [hname]; decide) (mem_indices.mp hindex).1.symm he
    span

theorem component_connection (hindex : index ∈ indices 3 n) (span : Span) :
    (commonReading (Metrical config n s)).component (connectionHead .none) index span =
      .ok ((metricConnection config n).get index) := by
  have hlength := (mem_indices.mp hindex).1
  obtain ⟨c, hc, hrank, -, hvalue⟩ := h.connection
  obtain ⟨x, y, z, rfl⟩ := length_eq_three.mp hlength
  refine h.component_of_get? hc (by decide) (hrank.trans hlength.symm) ?_ span
  rw [Tensor.get, hvalue, metricConnection, get?_connectionValue _ _ hindex]
  rfl

section

variable (hcount : (componentCount? 3 n).isSome)
include hcount

theorem derivative_metric {i j k : Nat} (hindex : [i, j] ∈ indices 2 n) (hk : k < n)
    (span : Span) :
    (commonReading (Metrical config n s)).differentiate
      ((symbolicMetric config.naming n).get [i, j]) k (some n) span =
        .ok (metricPartial config n k i j) := by
  refine Yields.common_eq (fun t ht => ?_) h.metrical
  rw [get_symbolicMetric config.naming hindex]
  exact Metrical.differentiate hcount (h.owns hindex) hk span t ht

theorem covariantComponent (i j b : Fin n) :
    ∃ e, Formula.covariantComponent (commonReading (Metrical config n s)) .none n n
        (declaredMetric config.naming n).head .none [(b : Nat)] [(i : Nat), (j : Nat)] = .ok e ∧
      ∀ σ, (metricMatrix config.naming n σ).det ≠ 0 → e.HasValue σ 0 := by
  generalize hr : commonReading (Metrical config n s) = r
  generalize hhead : (declaredMetric config.naming n).head = head
  have hheights : head.heights = [.lower, .lower] := hhead ▸ rfl
  have hrank : head.rank = 2 := congrArg List.length hheights
  have hindex : [(i : Nat), (j : Nat)] ∈ indices head.rank n :=
    hrank ▸ pair_mem_indices i j
  have hconnection {index : IndexVector} (hindex : index ∈ indices 3 n) :
      r.component (connectionHead .none) index .none = .ok ((metricConnection config n).get index) :=
    hr ▸ h.component_connection hindex .none
  have hmetric {index : IndexVector} (hindex : index ∈ indices 2 n) :
      r.component head index .none = .ok ((symbolicMetric config.naming n).get index) :=
    hr ▸ hhead ▸ h.component_metric hindex .none
  have hderivative : ∀ e, r.component head [(i : Nat), (j : Nat)] .none = .ok e →
      r.differentiate e b (some n) .none = .ok (metricPartial config n b i j) := by
    intro e he
    rw [hmetric (pair_mem_indices i j)] at he
    cases he
    exact hr ▸ h.derivative_metric hcount (pair_mem_indices i j) b.isLt .none
  obtain ⟨e, he⟩ := exists_covariantComponent hindex b.isLt (fun _ hindex => ⟨_, hconnection hindex⟩)
    (fun _ hindex => ⟨_, hmetric (hrank ▸ hindex)⟩) (fun e he => ⟨_, hderivative e he⟩)
  refine ⟨e, he, fun σ hdet => ?_⟩
  have hγ : ∀ index ∈ indices 3 n, Gives σ (r.component (connectionHead .none) index .none)
      (((metricConnection config n).get index).value σ) := by
    intro index hindex
    rw [hconnection hindex]
    obtain ⟨hlength, hlt⟩ := mem_indices.mp hindex
    obtain ⟨x, y, z, rfl⟩ := length_eq_three.mp hlength
    simp only [mem_cons, not_mem_nil, or_false, forall_eq_or_imp, forall_eq] at hlt
    exact .ok (hasValue_metricConnection config hdet ⟨x, hlt.1⟩ ⟨y, hlt.2.1⟩
      ⟨z, hlt.2.2⟩).regular.hasValue
  have hα : ∀ index ∈ indices head.rank n, Gives σ (r.component head index .none)
      (((symbolicMetric config.naming n).get index).value σ) := by
    intro index hindex
    rw [hrank] at hindex
    rw [hmetric hindex]
    obtain ⟨hlength, hlt⟩ := mem_indices.mp hindex
    obtain ⟨x, y, rfl⟩ := length_eq_two.mp hlength
    simp only [mem_cons, not_mem_nil, or_false, forall_eq_or_imp, forall_eq] at hlt
    exact .ok ((hasMatrix_symbolicMetric config.naming σ).value ⟨x, hlt.1⟩
      ⟨y, hlt.2⟩).regular.hasValue
  have hδ : ∀ e, r.component head [(i : Nat), (j : Nat)] .none = .ok e →
      Gives σ (r.differentiate e b (some n) .none) (partialMatrix config n σ b i j) := by
    intro e he
    rw [hderivative e he]
    exact .ok (.sym _)
  have hgives := gives_covariantComponent hindex b.isLt hγ hα hδ e he
  rw [hheights, covariantValue_eq_zero config hdet] at hgives
  · exact hgives
  · exact fun c a b => (hasValue_metricConnection config hdet c a b).value_eq
  · exact fun i j => ((hasMatrix_symbolicMetric config.naming σ).value i j).value_eq

theorem run_covariantTensor {t : TensorRef} (ht : t.name = "gDD") (span : Span) :
    ∃ v e, (covariantTensor t .none span).run s = (.ok "gDD_cdD", v) ∧
      v.table.get? "gDD_cdD" = some e ∧ e.rank = 3 ∧ e.dimension = n ∧
      ∀ σ, (metricMatrix config.naming n σ).det ≠ 0 → ∀ index ∈ indices 3 n,
        ∃ x, e.value.get? index = some x ∧ x.HasValue σ 0 := by
  have hname := name_declaredMetric config.naming n
  have hcovariant : covariantName (declaredMetric config.naming n) .none = "gDD_cdD" := by
    rw [covariantName, hname]
    exact (by decide : "gDD" ++ "_cd" ++ Diacritic.none.suffix ++ "D" = "gDD_cdD")
  have hconnection : s.dimensions.ofTensor (connectionHead .none) = some n := by
    obtain ⟨c, hc, hrank, rfl, -⟩ := h.connection
    exact @ofTensor_of_known s c (connectionHead .none) hc hrank (by omega)
  have hrange : s.dimensions.ofCoordinates.getD n = n := by
    simp only [dimensions]
    rw [h.coordinates]
    rfl
  have hstale : s.upToDate (declaredMetric config.naming n) .none = false := by
    rw [upToDate, hcovariant, h.absent]
    rfl
  -- each component is a covariant derivative of the metric
  let component (index : IndexVector) : Except Error Expr :=
    Formula.covariantComponent (commonReading (Metrical config n s)) .none n n
      (declaredMetric config.naming n).head .none (index.drop 2) (index.take 2)
  have hcomponent : ∀ index ∈ indices 3 n, ∃ e, component index = .ok e ∧
      ∀ σ, (metricMatrix config.naming n σ).det ≠ 0 → e.HasValue σ 0 := by
    intro index hindex
    obtain ⟨hlength, hlt⟩ := mem_indices.mp hindex
    obtain ⟨x, y, z, rfl⟩ := length_eq_three.mp hlength
    simp only [mem_cons, not_mem_nil, or_false, forall_eq_or_imp, forall_eq] at hlt
    exact h.covariantComponent hcount ⟨x, hlt.1⟩ ⟨y, hlt.2.1⟩ ⟨z, hlt.2.2⟩
  have hknown : s.table.get? (declaredMetric config.naming n).name =
      some (declaredMetric config.naming n) := hname ▸ h.metric
  obtain ⟨value, u, hrun, hget⟩ := Session.run_covariantTensor hknown
    (show 0 < (declaredMetric config.naming n).rank from Nat.two_pos) hconnection h.metrical
    realizesReading_common
    (fun index => show component index = _ by
      rw [show (declaredMetric config.naming n).dimension = n from rfl, hrange]
      rfl)
    (fun index hindex => (hcomponent index hindex).imp fun _ he => he.1)
    Symmetry.ordered_metric hstale hcount (ht.trans hname.symm) span
  rw [hcovariant] at hrun
  have hself : (u.insert { covariantTarget (declaredMetric config.naming n) .none with value }).table.get?
      "gDD_cdD" = some { covariantTarget (declaredMetric config.naming n) .none with
        value, id := u.table.lastId + 1 } := by
    rw [insert, Table.get?_insert]
    exact if_pos hcovariant
  refine ⟨_, _, hrun, hself, rfl, rfl, fun σ hdet index hindex => ?_⟩
  obtain ⟨x, hx, hvalue⟩ := hget index hindex
  refine ⟨x, hvalue, ?_⟩
  unfold Symmetry.component at hx
  dsimp only at hx
  split at hx
  · cases hx
    exact .num 0
  · obtain ⟨e, he, hzero⟩ := hcomponent _ (Symmetry.canonicalize_mem_indices _ hindex)
    rw [he] at hx
    cases hx
    have hsign := (hzero σ hdet).sign
      ((covariantTarget (declaredMetric config.naming n) .none).symmetry.canonicalize index).1
    rwa [mul_zero] at hsign

end

end Connected

end Compatible

section Gradient

variable (config : Config) {a b c : String} (taken : List String) (place span : Span)

def metricGradient (a b c : String) (place span : Span) : Formula :=
  .derivative (.covariant .none) (.lower c) (.tensor (.ofBase "g" [.lower a, .lower b] place)) none
    span

theorem run_metricGradient (s : Session) :
    (expandAndResolve taken (metricGradient a b c place span)).run s =
      match ((lowerDerivative (.covariant .none) (.lower c) span
          (.tensor (.ofBase "g" [.lower a, .lower b] place))).run
            (taken ++ (metricGradient a b c place span).indexNames)).run s with
      | (.ok (g, _), u) => (resolve g).run u
      | (.error fault, u) => (.error fault, u) := by
  have hheight : (Index.lower c).height = .lower := rfl
  rw [← run_expand_covariant _ _ _ hheight span _ none]
  exact run_expandAndResolve ..

theorem run_metricGradient_of_error {s u : Session} {fault : Error}
    (h : (ensureConnection .none span).run s = (.error fault, u)) :
    ((expandAndResolve taken (metricGradient a b c place span)).run s).1 = .error fault := by
  rw [run_metricGradient, run_lowerDerivative, h]

theorem run_metricGradient_of_small (hn : 0 < n) (hdistinct : [a, b, c].Nodup)
    (hcount : (componentCount? 3 n).isSome) :
    ∃ free v e, (expandAndResolve taken (metricGradient a b c place span)).run
        (metricSession config n) =
          (.ok (.tensor (.ofName "gDD_cdD" [.lower a, .lower b, .lower c] span), free), v) ∧
      v.table.get? "gDD_cdD" = some e ∧ e.rank = 3 ∧ e.dimension = n ∧
      ∀ σ, (metricMatrix config.naming n σ).det ≠ 0 → ∀ index ∈ indices 3 n,
        ∃ x, e.value.get? index = some x ∧ x.HasValue σ 0 := by
  obtain ⟨u, hensure, hconnected⟩ := exists_run_ensureConnection config hn hcount span
  have hname : (TensorRef.ofBase "g" [.lower a, .lower b] place).name = "gDD" :=
    (by decide : "g" ++ String.ofList [Height.lower.letter, Height.lower.letter] = "gDD")
  obtain ⟨v, e, hrun, hget, hrank, hdimension, hzero⟩ :=
    hconnected.run_covariantTensor hcount hname span
  have hkeepable : u.keepable? (.tensor (.ofBase "g" [.lower a, .lower b] place)) =
      some (.ofBase "g" [.lower a, .lower b] place) := by
    have hab : [a, b].Nodup := hdistinct.sublist (by simp)
    have hknown : u.table.get? (TensorRef.ofBase "g" [.lower a, .lower b] place).name =
        some (declaredMetric config.naming n) := hname ▸ hconnected.metric
    exact keepable?_of_known hknown rfl Nat.two_pos rfl hab
  let aux : TensorRef := .ofName "gDD_cdD" [.lower a, .lower b, .lower c] span
  refine ⟨tensorOccurrences v.dimensions aux, v, e, ?_, hget, hrank, hdimension, hzero⟩
  rw [run_metricGradient, run_lowerDerivative, hensure]
  dsimp only
  rw [hkeepable]
  dsimp only
  rw [hrun]
  change (resolve (.tensor aux)).run v = _
  rw [run_resolve, @resolved_tensor v.dimensions aux hdistinct]

end Gradient

theorem matrix_declaredMetric (naming : ComponentNaming) (n : Nat) (σ : Valuation) :
    (Matrix.of fun i j : Fin n => ((declaredMetric naming n).value.get
      [(i : Nat), (j : Nat)]).value σ) = metricMatrix naming n σ := by
  ext i j
  exact ((hasMatrix_symbolicMetric naming σ).value i j).value_eq

/-- In a new session with a metric of symbols, the covariant derivative of the metric is that of a
tensor of its own, unless its components are too many. All of them are zero wherever the metric
is not singular. -/
theorem covariant_derivative_of_metric_vanishes (config : Config) {n : Nat} (hn : 0 < n)
    {a b c : String} (hdistinct : [a, b, c].Nodup) (taken : List String) (place span : Span) :
    let s := ((Session.new config).parse ("% def metric gDD (" ++ toString n ++ ")")).2
    let run := (expandAndResolve taken (.derivative (.covariant .none) (.lower c)
      (.tensor (.ofBase "g" [.lower a, .lower b] place)) none span)).run s
    (run.1.isOk ↔ n ^ 3 ≤ maxComponents) ∧
    ∀ f free, run.1 = .ok (f, free) →
      f = .tensor (.ofName "gDD_cdD" [.lower a, .lower b, .lower c] span) ∧
      ∃ g e, s.table.get? "gDD" = some g ∧ run.2.table.get? "gDD_cdD" = some e ∧
        e.rank = 3 ∧ e.dimension = n ∧
        ∀ σ : Valuation,
          (Matrix.of fun i j : Fin n => (g.value.get [(i : Nat), (j : Nat)]).value σ).det ≠ 0 →
            ∀ index ∈ indices 3 n,
              ∃ x, e.value.get? index = some x ∧ x.Defined σ ∧ x.value σ = 0 := by
  intro s run
  have hsession : s = if (componentCount? 2 n).isSome then metricSession config n
      else Session.new config := parse_metricDirective config hn
  have hsmall : (componentCount? 3 n).isSome ↔ n ^ 3 ≤ maxComponents :=
    isSome_componentCount? (by decide) hn
  by_cases hcount : (componentCount? 3 n).isSome
  · rw [if_pos (isSome_componentCount?_two hn hcount)] at hsession
    obtain ⟨free, v, e, hrun, hget, hrank, hdimension, hzero⟩ :=
      run_metricGradient_of_small config taken place span hn hdistinct hcount
    have hrun : run =
        (.ok (.tensor (.ofName "gDD_cdD" [.lower a, .lower b, .lower c] span), free), v) := by
      rw [← hrun, ← hsession]
      rfl
    rw [hrun]
    refine ⟨iff_of_true rfl (hsmall.mp hcount), ?_⟩
    rintro _ _ ⟨⟩
    refine ⟨rfl, declaredMetric config.naming n, e, ?_, hget, hrank, hdimension,
      fun σ hdet index hindex => ?_⟩
    · rw [hsession, get?_declaredMetric]
    · rw [matrix_declaredMetric] at hdet
      obtain ⟨x, hx, hvalue⟩ := hzero σ hdet index hindex
      exact ⟨x, hx, hvalue.defined, hvalue.value_eq⟩
  · obtain ⟨fault, u, herror⟩ : ∃ fault u,
        (ensureConnection .none span).run s = (.error fault, u) := by
      by_cases hcount' : (componentCount? 2 n).isSome
      · rw [if_pos hcount'] at hsession
        rw [hsession]
        exact run_ensureConnection_of_large config hn hcount span
      · rw [if_neg hcount'] at hsession
        rw [hsession]
        exact ⟨_, _, rfl⟩
    have hrun : run.1 = .error fault := run_metricGradient_of_error taken place span herror
    rw [hrun]
    exact ⟨iff_of_false nofun (mt hsmall.mpr hcount), nofun⟩

theorem covariant_derivative_of_metric_vanishes_plane :
    let s := ((Session.new {}).parse ("% def metric gDD (" ++ toString 2 ++ ")")).2
    let run := (expandAndResolve [] (.derivative (.covariant .none) (.lower "c")
      (.tensor (.ofBase "g" [.lower "a", .lower "b"] .none)) none .none)).run s
    let σ : Valuation := fun name => if name = "gDD01" then 3 else 2
    0 < 2 ∧ ["a", "b", "c"].Nodup ∧ run.1.isOk ∧
      ∃ g e, s.table.get? "gDD" = some g ∧ run.2.table.get? "gDD_cdD" = some e ∧
        (Matrix.of fun i j : Fin 2 => (g.value.get [(i : Nat), (j : Nat)]).value σ).det ≠ 0 ∧
        ∀ index ∈ indices 3 2,
          ∃ x, e.value.get? index = some x ∧ x.Defined σ ∧ x.value σ = 0 := by
  intro s run σ
  have hdistinct : ["a", "b", "c"].Nodup := by decide
  obtain ⟨hok, hzero⟩ := covariant_derivative_of_metric_vanishes {} (by decide : 0 < 2) hdistinct []
    .none .none
  have hsmall : run.1.isOk := hok.mpr (by decide)
  refine ⟨by decide, hdistinct, hsmall, ?_⟩
  obtain ⟨⟨f, free⟩, hrun⟩ : ∃ r, run.1 = .ok r := by
    cases hrun : run.1 with
    | error fault =>
      rw [hrun] at hsmall
      cases hsmall
    | ok r => exact ⟨r, rfl⟩
  obtain ⟨_, g, e, hg, he, _, _, hvalue⟩ := hzero f free hrun
  have hsession : s = metricSession {} 2 := parse_metricDirective {} (by decide)
  have hmetric : g = declaredMetric .auto 2 := by
    have hget : s.table.get? "gDD" = some (declaredMetric .auto 2) := by
      rw [hsession, get?_declaredMetric]
    exact Option.some.inj (hg.symm.trans hget)
  have hdet : (Matrix.of fun i j : Fin 2 =>
      (g.value.get [(i : Nat), (j : Nat)]).value σ).det ≠ 0 := by
    rw [hmetric, matrix_declaredMetric, Matrix.det_fin_two]
    decide +kernel
  exact ⟨g, e, hg, he, hdet, hvalue σ hdet⟩

end Session

end TensorCalculus
