import PgAdmin.PgFunctionNames

/-! The defaults of the arguments. They are printed as one list, cut at its commas and handed out under a countdown
of the inputs; every input gets its own when the cutting leaves the expressions whole. -/
namespace PgAdmin.pgFunction
open PgsObjects (Text)
open misc

section Handing
variable {defs : List Text}

def handed (defs : List Text) (n r : ℕ) : Text :=
  if r ≤ min defs.length n then argDef (defs.getD (min defs.length n - r) []) else []

def inputCount (args : List Argument) : ℕ := args.countP fun a => isInput a.mode

def placed (g : ℕ → Text) : List Argument → List Argument
  | [] => []
  | a :: rest => { a with default := if isInput a.mode then g (inputCount (a :: rest)) else [] } :: placed g rest

theorem addDefaultsPlaced {args : List Argument} (fresh : ∀ a ∈ args, a.default = []) {n : ℕ}
    (fits : inputCount args ≤ n) : addDefaults defs (inputCount args) (min defs.length n - inputCount args) args =
      some (placed (handed defs n) args) := by
  induction args with
  | nil => rfl
  | cons a rest ih =>
    have next := ih fun b member => fresh b (List.mem_cons_of_mem a member)
    have mine := fresh a List.mem_cons_self
    rw [addDefaults, placed]
    by_cases input : isInput a.mode = true
    · have count : inputCount (a :: rest) = inputCount rest + 1 := List.countP_cons_of_pos input
      rw [count] at fits
      rw [if_pos input, if_pos input, count, Nat.add_sub_cancel]
      split
      case isTrue given =>
        have inside : min defs.length n - (inputCount rest + 1) < defs.length := by omega
        have onward : min defs.length n - (inputCount rest + 1) + 1 = min defs.length n - inputCount rest := by omega
        rw [onward, next (by omega), List.getElem?_eq_getElem inside, handed,
          if_pos (by omega), List.getD_eq_getElem _ _ inside]
        rfl
      case isFalse none =>
        have past : ¬ inputCount rest + 1 ≤ min defs.length n := fun le => none
          ⟨fun empty => by subst empty; simp at le, by omega⟩
        have onward : min defs.length n - (inputCount rest + 1) = min defs.length n - inputCount rest := by omega
        rw [onward, next (by omega), handed, if_neg past, ← mine]
        rfl
    · have count : inputCount (a :: rest) = inputCount rest := List.countP_cons_of_neg input
      rw [count] at fits
      rw [if_neg input, if_neg input, count, next fits, ← mine]
      rfl

end Handing

section Expected
variable {params : List Param}

def isIn (p : Param) : Bool := p.mode ≠ .out

def defaultText (p : Param) : Text := (p.default.map Expr.text).getD []

def texts (params : List Param) : List Text := params.filterMap fun p => p.default.map Expr.text

def expected (es : List Text) (r : ℕ) : Text := if r ≤ es.length then es.getD (es.length - r) [] else []

def placedDefaults (g : ℕ → Text) : List Param → List Text
  | [] => []
  | p :: rest => (if isIn p then g ((p :: rest).countP isIn) else []) :: placedDefaults g rest

theorem placedDefaultsSame (g h : ℕ → Text) (params : List Param) :
    placedDefaults g params = placedDefaults h params ↔ ∀ r, 1 ≤ r → r ≤ params.countP isIn → g r = h r := by
  induction params with
  | nil => exact ⟨fun _ r one none => absurd (one.trans none) (by decide), fun _ => rfl⟩
  | cons p rest ih =>
    rw [placedDefaults, placedDefaults, List.cons_eq_cons, ih]
    by_cases input : isIn p = true
    · rw [if_pos input, if_pos input, List.countP_cons_of_pos input]
      constructor
      · intro ⟨here, later⟩ r one le
        rcases Nat.lt_or_eq_of_le le with less | rfl
        · exact later r one (Nat.le_of_lt_succ less)
        · exact here
      · exact fun all => ⟨all _ (Nat.succ_pos _) le_rfl, fun r one le => all r one (Nat.le_succ_of_le le)⟩
    · rw [if_neg input, if_neg input, List.countP_cons_of_neg input]
      exact ⟨fun all => all.2, fun all => ⟨rfl, all⟩⟩

theorem textsLength (outputs : ∀ p ∈ params, p.mode = .out → p.default = none) :
    (texts params).length ≤ params.countP isIn ∧
      ((∀ p ∈ params, p.mode ≠ .out → p.default.isSome) → (texts params).length = params.countP isIn) := by
  induction params with
  | nil => exact ⟨le_rfl, fun _ => rfl⟩
  | cons p rest ih =>
    obtain ⟨le, all⟩ := ih fun q member => outputs q (List.mem_cons_of_mem p member)
    have mine := outputs p List.mem_cons_self
    cases given : p.default with
    | some e =>
      have input : isIn p = true := decide_eq_true fun out => by rw [mine out] at given; cases given
      rw [List.countP_cons_of_pos input]
      have more : (texts (p :: rest)).length = (texts rest).length + 1 := by simp [texts, given]
      exact ⟨by omega, fun every => by rw [more, all fun q member => every q (List.mem_cons_of_mem p member)]⟩
    | none =>
      have same : (texts (p :: rest)).length = (texts rest).length := by simp [texts, given]
      rw [same]
      refine ⟨le.trans (List.sublist_cons_self p rest).countP_le, fun every => ?_⟩
      have output : ¬ isIn p = true := fun input => by
        have some_ := every p List.mem_cons_self (of_decide_eq_true input)
        rw [given] at some_
        cases some_
      rw [List.countP_cons_of_neg output, all fun q member => every q (List.mem_cons_of_mem p member)]

theorem defaultsExpected (front : List Text) (outputs : ∀ p ∈ params, p.mode = .out → p.default = none)
    (trailing : params.Pairwise fun p q => p.default.isSome → q.mode ≠ .out → q.default.isSome)
    (begun : front ≠ [] → ∀ p ∈ params, p.mode ≠ .out → p.default.isSome) :
    params.map defaultText = placedDefaults (expected (front ++ texts params)) params := by
  induction params generalizing front with
  | nil => rfl
  | cons p rest ih =>
    have later : ∀ q ∈ rest, q.mode = .out → q.default = none :=
      fun q member => outputs q (List.mem_cons_of_mem p member)
    obtain ⟨mine, trailing⟩ := List.pairwise_cons.mp trailing
    rw [List.map_cons, placedDefaults]
    cases given : p.default with
    | none =>
      have same : texts (p :: rest) = texts rest := by simp [texts, given]
      have none : defaultText p = [] := by simp [defaultText, given]
      rw [same, none, ← ih front later trailing fun some_ q member => begun some_ q (List.mem_cons_of_mem p member)]
      congr 1
      split
      case isTrue input =>
        have unbegun : front = [] := by
          by_contra some_
          have here := begun some_ p List.mem_cons_self (of_decide_eq_true input)
          rw [given] at here
          cases here
        rw [unbegun, List.nil_append, List.countP_cons_of_pos input, expected, if_neg]
        have le := (textsLength later).1
        omega
      case isFalse => rfl
    | some e =>
      have input : isIn p = true := decide_eq_true fun out => by
        rw [outputs p List.mem_cons_self out] at given
        cases given
      have every : ∀ q ∈ rest, q.mode ≠ .out → q.default.isSome := fun q member => mine q member (by rw [given]; rfl)
      have text : texts (p :: rest) = e.text :: texts rest := by simp [texts, given]
      have here : defaultText p = e.text := by simp [defaultText, given]
      have longer : front ++ e.text :: texts rest = (front ++ [e.text]) ++ texts rest := by simp
      rw [text, here, longer, ← ih (front ++ [e.text]) later trailing fun _ => every, if_pos input,
        List.countP_cons_of_pos input, ← (textsLength later).2 every, expected]
      congr 1
      have count : ((front ++ [e.text]) ++ texts rest).length - ((texts rest).length + 1) = front.length := by
        simp only [List.length_append, List.length_cons, List.length_nil]
        omega
      rw [if_pos (by simp), count]
      simp

end Expected

section Cutting
variable {es : List Expr} {n : ℕ}

def cutDefaults (es : List Expr) : List Text := getArrayFromCommaSeparatedList (listed ", ".toList (es.map Expr.text))

theorem sublistWeight {a b : List Text} (part : a.Sublist b) :
    (a.map weight).sum + (b.length - a.length) ≤ (b.map weight).sum := by
  induction part with
  | slnil => exact le_rfl
  | @cons a b w part ih =>
    have le := part.length_le
    have one : 1 ≤ weight w := Nat.le_add_left ..
    rw [List.map_cons, List.sum_cons, List.length_cons]
    omega
  | @cons_cons a b w part ih =>
    rw [List.map_cons, List.sum_cons, List.map_cons, List.sum_cons, List.length_cons, List.length_cons]
    omega

theorem exprsBalanced : ∀ t ∈ es.map Expr.text, Balanced t := by
  rw [List.forall_mem_map]
  exact fun e _ => e.balanced

theorem exprsNonempty : ∀ t ∈ es.map Expr.text, t ≠ [] := by
  rw [List.forall_mem_map]
  exact fun e _ => e.nonempty

theorem cleanCut (clean : ∀ e ∈ es, Clean e.text) : cutDefaults es = es.map Expr.text := by
  refine listRead exprsNonempty ?_ ?_
  · rw [List.forall_mem_map]
    exact fun e _ => e.trimmed
  · rw [List.forall_mem_map]
    exact clean

theorem uncleanLength (unclean : ¬ ∀ e ∈ es, Clean e.text) : es.length + 1 ≤ (cutDefaults es).length := by
  cases es with
  | nil => exact absurd (fun e member => absurd member List.not_mem_nil) unclean
  | cons e rest =>
    have some_ : listed ", ".toList ((e :: rest).map Expr.text) ≠ [] := fun none =>
      e.nonempty (List.append_eq_nil_iff.mp none).1
    have longer := @uncleanLonger e.text (rest.map Expr.text) []
      (@exprsBalanced (e :: rest)) (by
        rw [← List.map_cons, List.forall_mem_map]
        exact unclean)
    rw [cutDefaults, getArrayFromCommaSeparatedList, if_neg some_]
    rw [List.length_cons, List.length_map] at longer
    exact longer

theorem argDefKept (e : Expr) : argDef e.text = e.text := if_pos ⟨e.nonempty, e.noDash⟩

theorem handedExpected (fits : es.length ≤ n) :
    (∀ r, 1 ≤ r → r ≤ n → handed (cutDefaults es) n r = expected (es.map Expr.text) r) ↔
      ∀ e ∈ es, Clean e.text := by
  constructor
  · intro same
    by_contra unclean
    have longer := uncleanLength unclean
    obtain ⟨m, here⟩ : ∃ m, m = min (cutDefaults es).length n := ⟨_, rfl⟩
    -- the last expressions are among the pieces, so the pieces cannot be more of them
    have whole : es.map Expr.text = ((cutDefaults es).take m).drop (m - es.length) := by
      apply List.ext_getElem
      · simp only [List.length_map, List.length_drop, List.length_take]
        omega
      · intro i inEs inPieces
        rw [List.length_map] at inEs
        have at_ := same (es.length - i) (by omega) (by omega)
        rw [handed, if_pos (by omega), expected, List.length_map, if_pos (by omega)] at at_
        have left : min (cutDefaults es).length n - (es.length - i) = m - es.length + i := by omega
        have right : es.length - (es.length - i) = i := by omega
        rw [left, right, List.getD_eq_getElem _ _ (by omega), List.getD_eq_getElem _ _ (by simpa using inEs),
          argDef] at at_
        split at at_
        · rw [List.getElem_drop, List.getElem_take, at_]
        · rw [List.getElem_map] at at_
          exact absurd at_.symm es[i].nonempty
    have part : (es.map Expr.text).Sublist (cutDefaults es) := by
      rw [whole]
      exact (List.drop_sublist ..).trans (List.take_sublist ..)
    have weights := sublistWeight part
    rw [cutDefaults, listWeight exprsBalanced exprsNonempty, ← cutDefaults, List.length_map] at weights
    omega
  · intro clean r one le
    rw [cleanCut clean, handed, expected, List.length_map, min_eq_left fits]
    split
    case isTrue inside =>
      have index : es.length - r < (es.map Expr.text).length := by rw [List.length_map]; omega
      rw [List.getD_eq_getElem _ _ index, List.getElem_map, argDefKept]
    case isFalse => rfl

end Cutting

end PgAdmin.pgFunction
