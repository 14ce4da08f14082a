import PgAdmin.WxString

/-! getArrayFromCommaSeparatedList: a text is cut at the commas outside quotes and round brackets. A list whose
elements are all left as they were entered is cut into its elements. -/
namespace PgAdmin.misc
open PgsObjects (Text)
open wxString

/- inSingleQuote, inDoubleQuote and nBracketLevel. The level is a size_t; below 0 it is only compared with 0. -/
structure Quoting where
  inSingleQuote : Bool
  inDoubleQuote : Bool
  nBracketLevel : ℤ
  deriving DecidableEq, Repr

namespace Quoting

def out : Quoting := ⟨false, false, 0⟩

def turn (q : Quoting) (curr : Char) : Quoting :=
  if !q.inDoubleQuote && curr = '\'' then { q with inSingleQuote := !q.inSingleQuote }
  else if !q.inSingleQuote && curr = '"' then { q with inDoubleQuote := !q.inDoubleQuote }
  else if !q.inDoubleQuote && !q.inSingleQuote && curr = '(' then
    { q with nBracketLevel := q.nBracketLevel + 1 }
  else if !q.inDoubleQuote && !q.inSingleQuote && curr = ')' then
    { q with nBracketLevel := q.nBracketLevel - 1 }
  else q

end Quoting

open Quoting

def trimBoth (str : Text) : Text := (Trim str).dropWhile isSpace

/- The loop with the text since the last cut. The last element is added when nothing is left open. -/
def cut (q : Quoting) (since : Text) : Text → Bool × List Text
  | [] => if q = out then (true, [trimBoth since]) else (false, [])
  | curr :: rest =>
    if q = out ∧ curr = ',' then
      let res := cut q [] rest
      (res.1, trimBoth since :: res.2)
    else cut (q.turn curr) (since ++ [curr]) rest

def getArrayFromCommaSeparatedList (str : Text) : List Text := if str = [] then [] else (cut out [] str).2

def scan : Quoting → Text → Option Quoting
  | q, [] => some q
  | q, curr :: rest => if q = out ∧ curr = ',' then none else scan (q.turn curr) rest

/- The loop leaves the text as it entered it and does not cut it. -/
def Clean (text : Text) : Prop := scan out text = some out

instance (text : Text) : Decidable (Clean text) := by unfold Clean; infer_instance

def Balanced (text : Text) : Prop := text.foldl turn out = out

instance (text : Text) : Decidable (Balanced text) := by unfold Balanced; infer_instance

def listed (separator : Text) : List Text → Text
  | [] => []
  | w :: ws => w ++ ws.flatMap (separator ++ ·)

@[simp] theorem turnComma (q : Quoting) : q.turn ',' = q := by
  simp [turn]

@[simp] theorem turnBlank (q : Quoting) : q.turn ' ' = q := by
  simp [turn]

theorem cutScan {q q' : Quoting} {w : Text} (through : scan q w = some q') (since rest : Text) :
    cut q since (w ++ rest) = cut q' (since ++ w) rest := by
  induction w generalizing q since with
  | nil => cases through; simp
  | cons c w ih =>
    rw [scan] at through
    split at through
    · cases through
    case isFalse stays =>
      rw [List.cons_append, cut, if_neg stays, ih through]
      simp

theorem cutComma (since rest : Text) : cut out since (',' :: rest) =
    ((cut out [] rest).1, trimBoth since :: (cut out [] rest).2) := by
  rw [cut, if_pos ⟨rfl, rfl⟩]

theorem scanCut {q : Quoting} {w : Text} (cuts : scan q w = none) :
    ∃ before after, w = before ++ ',' :: after ∧ scan q before = some out := by
  induction w generalizing q with
  | nil => cases cuts
  | cons c w ih =>
    rw [scan] at cuts
    split at cuts
    case isTrue here => exact ⟨[], w, by rw [here.2]; rfl, by rw [here.1]; rfl⟩
    case isFalse stays =>
      obtain ⟨before, after, rfl, through⟩ := ih cuts
      exact ⟨c :: before, after, rfl, by rw [scan, if_neg stays]; exact through⟩

theorem cutClean {w : Text} (clean : Clean w) (since : Text) (ws : List Text) :
    cut out since (w ++ ws.flatMap (',' :: ·)) =
      match ws with
      | [] => (true, [trimBoth (since ++ w)])
      | v :: vs => ((cut out [] (v ++ vs.flatMap (',' :: ·))).1,
          trimBoth (since ++ w) :: (cut out [] (v ++ vs.flatMap (',' :: ·))).2) := by
  rw [cutScan clean]
  cases ws with
  | nil => rfl
  | cons v vs => exact cutComma ..

theorem cutAll {w : Text} {ws : List Text} (clean : ∀ v ∈ w :: ws, Clean v) :
    cut out [] (w ++ ws.flatMap (',' :: ·)) = (true, (w :: ws).map trimBoth) := by
  induction ws generalizing w with
  | nil => exact cutClean (clean w List.mem_cons_self) [] []
  | cons v vs ih =>
    rw [cutClean (clean w List.mem_cons_self) [] (v :: vs)]
    dsimp only
    rw [ih fun u member => clean u (List.mem_cons_of_mem w member)]
    rfl

theorem cutHead (q : Quoting) (since t : Text) : (cut q since t).2 = [] ∨
    ∃ s, s <+: t ∧ (cut q since t).2.head? = some (trimBoth (since ++ s)) := by
  induction t generalizing q since with
  | nil =>
    rw [cut]
    split
    · exact .inr ⟨[], List.prefix_rfl, by simp⟩
    · exact .inl rfl
  | cons c t ih =>
    rw [cut]
    split
    · exact .inr ⟨[], List.nil_prefix, by simp⟩
    · refine (ih (q.turn c) (since ++ [c])).imp_right fun ⟨s, inside, head⟩ => ?_
      exact ⟨c :: s, List.cons_prefix_cons.mpr ⟨rfl, inside⟩, by simpa using head⟩

theorem trimBlank (e : Text) : trimBoth (' ' :: e) = trimBoth e := by
  have turned : (' ' :: e).reverse = e.reverse ++ [' '] := List.reverse_cons
  rw [trimBoth, trimBoth, Trim, Trim, List.rdropWhile, List.rdropWhile, turned, List.dropWhile_append]
  split
  case isTrue none =>
    rw [List.isEmpty_iff.mp none]
    rfl
  case isFalse =>
    rw [List.reverse_append]
    rfl

section Counting

def weight (w : Text) : ℕ := w.count ',' + 1

theorem trimCount (str : Text) : (trimBoth str).count ',' = str.count ',' := by
  have leading (s : Text) : (s.dropWhile isSpace).count ',' = s.count ',' := by
    induction s with
    | nil => rfl
    | cons c s ih =>
      by_cases space : isSpace c = true
      · have other : c ≠ ',' := by rintro rfl; exact absurd space (by decide)
        rw [List.dropWhile_cons_of_pos space, ih, List.count_cons_of_ne other]
      · rw [List.dropWhile_cons_of_neg space]
  rw [trimBoth, leading, Trim, List.rdropWhile, List.count_reverse, leading, List.count_reverse]

theorem cutOk (q : Quoting) (since t : Text) : (cut q since t).1 = true ↔ t.foldl turn q = out := by
  induction t generalizing q since with
  | nil =>
    rw [cut]
    split
    case isTrue here => exact ⟨fun _ => here, fun _ => rfl⟩
    case isFalse other => exact ⟨fun no => absurd no (by decide), fun here => absurd here other⟩
  | cons c t ih =>
    rw [cut, List.foldl_cons]
    split
    case isTrue here =>
      rw [here.2, turnComma]
      exact ih q []
    case isFalse => exact ih _ _

theorem cutWeight {q : Quoting} {since t : Text} (ok : (cut q since t).1 = true) :
    ((cut q since t).2.map weight).sum = weight since + t.count ',' := by
  induction t generalizing q since with
  | nil =>
    rw [cut] at ok ⊢
    split at ok
    case isTrue here =>
      rw [if_pos here]
      simp [weight, trimCount]
    case isFalse => cases ok
  | cons c t ih =>
    rw [cut] at ok ⊢
    split at ok
    case isTrue here =>
      rw [if_pos here]
      have rest := ih ok
      rw [here.2, List.count_cons_self]
      simp only [List.map_cons, List.sum_cons, rest]
      simp only [weight, trimCount, List.count_nil]
      omega
    case isFalse stays =>
      rw [if_neg stays, ih ok]
      simp only [weight, List.count_append, List.count_cons, List.count_nil]
      omega

variable {w : Text} {ws : List Text}

theorem cutAtLeast (balanced : ∀ v ∈ ws, Balanced v) {q : Quoting} (since : Text) {t : Text}
    (closed : t.foldl turn q = out) :
    ws.length + 1 ≤ (cut q since (t ++ ws.flatMap (", ".toList ++ ·))).2.length := by
  induction ws generalizing q since t with
  | nil =>
    rw [List.flatMap_nil, List.append_nil]
    induction t generalizing q since with
    | nil =>
      cases closed
      exact le_rfl
    | cons c t ih =>
      rw [cut]
      split
      · exact Nat.le_add_left ..
      · exact ih _ closed
  | cons v vs ih =>
    induction t generalizing q since with
    | nil =>
      obtain rfl : q = out := closed
      have next := ih (fun u member => balanced u (List.mem_cons_of_mem v member)) (q := out) [] (t := ' ' :: v)
        (by rw [List.foldl_cons, turnBlank]; exact balanced v List.mem_cons_self)
      have here := cutComma since ((' ' :: v) ++ vs.flatMap (", ".toList ++ ·))
      have text : [] ++ (v :: vs).flatMap (", ".toList ++ ·) =
          ',' :: ((' ' :: v) ++ vs.flatMap (", ".toList ++ ·)) := rfl
      rw [text, here, List.length_cons, List.length_cons]
      exact Nat.succ_le_succ next
    | cons c t inner =>
      rw [List.cons_append, cut]
      split
      case isTrue here =>
        rw [List.foldl_cons, here.2, turnComma] at closed
        exact Nat.le_succ_of_le (inner [] closed)
      case isFalse => exact inner _ closed

theorem scanFold {q q' : Quoting} {t : Text} (through : scan q t = some q') : t.foldl turn q = q' := by
  induction t generalizing q with
  | nil => exact Option.some.inj through
  | cons c t ih =>
    rw [scan] at through
    split at through
    · cases through
    · exact ih through

theorem uncleanCut {e : Text} (balanced : Balanced e) (unclean : ¬ Clean e) :
    ∃ before after, e = before ++ ',' :: after ∧ scan out before = some out := by
  cases ran : scan out e with
  | none => exact scanCut ran
  | some q => exact absurd (by rw [Clean, ran, ← scanFold ran]; exact congrArg some balanced) unclean

theorem cleanBlank (e : Text) : Clean (' ' :: e) ↔ Clean e := by
  rw [Clean, scan, if_neg (by decide), turnBlank, Clean]

theorem balancedBlank (e : Text) : Balanced (' ' :: e) ↔ Balanced e := by
  rw [Balanced, List.foldl_cons, turnBlank, Balanced]

theorem uncleanHead (since : Text) (balanced : ∀ v ∈ w :: ws, Balanced v) (unclean : ¬ Clean w) :
    (w :: ws).length + 1 ≤ (cut out since (w ++ ws.flatMap (", ".toList ++ ·))).2.length := by
  obtain ⟨before, after, rfl, through⟩ := uncleanCut (balanced w List.mem_cons_self) unclean
  have closed : after.foldl turn out = out := by
    have all := balanced _ List.mem_cons_self
    rw [Balanced, List.foldl_append, scanFold through, List.foldl_cons, turnComma] at all
    exact all
  rw [List.append_assoc, cutScan through, List.cons_append, cutComma]
  exact Nat.succ_le_succ (cutAtLeast (fun v member => balanced v (List.mem_cons_of_mem _ member)) [] closed)

theorem uncleanLonger (since : Text) (balanced : ∀ v ∈ w :: ws, Balanced v)
    (unclean : ¬ ∀ v ∈ w :: ws, Clean v) :
    (w :: ws).length + 1 ≤ (cut out since (w ++ ws.flatMap (", ".toList ++ ·))).2.length := by
  induction ws generalizing w since with
  | nil => exact uncleanHead since balanced fun clean => unclean (by simpa using clean)
  | cons v vs ih =>
    by_cases clean : Clean w
    · have next : (v :: vs).length + 1 ≤ (cut out [] ((' ' :: v) ++ vs.flatMap (", ".toList ++ ·))).2.length := by
        refine ih (w := ' ' :: v) [] ?_ ?_
        · rw [List.forall_mem_cons, balancedBlank, ← List.forall_mem_cons]
          exact (List.forall_mem_cons.mp balanced).2
        · rw [List.forall_mem_cons, cleanBlank, ← List.forall_mem_cons]
          exact fun all => unclean (List.forall_mem_cons.mpr ⟨clean, all⟩)
      have text : w ++ (v :: vs).flatMap (", ".toList ++ ·) =
          w ++ ',' :: ((' ' :: v) ++ vs.flatMap (", ".toList ++ ·)) := rfl
      rw [text, cutScan clean, cutComma]
      exact Nat.succ_le_succ next
    · exact uncleanHead since balanced clean

theorem listRead {es : List Text} (nonempty : ∀ e ∈ es, e ≠ []) (trimmed : ∀ e ∈ es, trimBoth e = e)
    (clean : ∀ e ∈ es, Clean e) : getArrayFromCommaSeparatedList (listed ", ".toList es) = es := by
  cases es with
  | nil => rfl
  | cons w ws =>
    have some_ : listed ", ".toList (w :: ws) ≠ [] := fun none =>
      nonempty w List.mem_cons_self (List.append_eq_nil_iff.mp none).1
    rw [getArrayFromCommaSeparatedList, if_neg some_, listed]
    have text : w ++ ws.flatMap (", ".toList ++ ·) = w ++ (ws.map (' ' :: ·)).flatMap (',' :: ·) := by
      rw [List.flatMap_map]
      rfl
    rw [text, cutAll (by
      rw [List.forall_mem_cons, List.forall_mem_map]
      exact ⟨clean w List.mem_cons_self, fun v member =>
        (cleanBlank v).mpr (clean v (List.mem_cons_of_mem w member))⟩)]
    rw [List.map_cons, List.map_map]
    have same : ws.map (trimBoth ∘ (' ' :: ·)) = ws :=
      (List.map_congr_left fun v member => (trimBlank v).trans (trimmed v (List.mem_cons_of_mem w member))).trans
        (List.map_id _)
    rw [same, trimmed w List.mem_cons_self]

theorem listWeight {es : List Text} (balanced : ∀ e ∈ es, Balanced e) (nonempty : ∀ e ∈ es, e ≠ []) :
    ((getArrayFromCommaSeparatedList (listed ", ".toList es)).map weight).sum = (es.map weight).sum := by
  cases es with
  | nil => rfl
  | cons w ws =>
    have some_ : listed ", ".toList (w :: ws) ≠ [] := fun none =>
      nonempty w List.mem_cons_self (List.append_eq_nil_iff.mp none).1
    have closed {vs : List Text} (later : ∀ v ∈ vs, Balanced v) :
        (vs.flatMap (", ".toList ++ ·)).foldl turn out = out := by
      induction vs with
      | nil => rfl
      | cons v vs ih =>
        have text : (v :: vs).flatMap (", ".toList ++ ·) =
            ',' :: ' ' :: (v ++ vs.flatMap (", ".toList ++ ·)) := rfl
        rw [text, List.foldl_cons, turnComma, List.foldl_cons, turnBlank, List.foldl_append,
          later v List.mem_cons_self]
        exact ih fun u member => later u (List.mem_cons_of_mem v member)
    have ok : (cut out [] (w ++ ws.flatMap (", ".toList ++ ·))).1 = true := by
      rw [cutOk, List.foldl_append, balanced w List.mem_cons_self]
      exact closed fun v member => balanced v (List.mem_cons_of_mem w member)
    rw [getArrayFromCommaSeparatedList, if_neg some_, listed, cutWeight ok]
    have commas (vs : List Text) : (vs.flatMap (", ".toList ++ ·)).count ',' = (vs.map weight).sum := by
      induction vs with
      | nil => rfl
      | cons v vs ih =>
        rw [List.flatMap_cons, List.count_append, ih, List.map_cons, List.sum_cons, List.count_append]
        simp only [weight]
        have one : (", ".toList).count ',' = 1 := by decide
        omega
    rw [List.count_append, commas, List.map_cons, List.sum_cons]
    simp only [weight, List.count_nil]
    omega

end Counting

end PgAdmin.misc
