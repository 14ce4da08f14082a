import PgAdmin.DebugTarget

/-! The defaults of a debugger target are handed out from its last argument back; every argument gets its own when
the expressions are left whole and none of them is for a VARIADIC argument. -/
namespace PgAdmin.dbgTarget
open PgsObjects (Text)
open misc misc.Quoting
open pgFunction (Mode Oid Expr Param Column texts cutDefaults cleanCut uncleanLength exprsBalanced exprsNonempty
  sublistWeight)

section Cutting
variable {es : List Expr}

theorem cutEnough (es : List Expr) : es.length ≤ (cutDefaults es).length := by
  by_cases clean : ∀ e ∈ es, Clean e.text
  · rw [cleanCut clean, List.length_map]
  · exact (Nat.le_succ _).trans (uncleanLength clean)

theorem cutSame : (∀ j < es.length, (cutDefaults es)[j]? = (es.map Expr.text)[j]?) ↔ ∀ e ∈ es, Clean e.text := by
  constructor
  · intro same
    by_contra unclean
    have longer := uncleanLength unclean
    have first : es.map Expr.text = (cutDefaults es).take es.length := by
      refine List.ext_getElem? fun j => ?_
      rw [List.getElem?_take]
      split
      case isTrue inside => exact (same j inside).symm
      case isFalse outside => exact List.getElem?_eq_none (by rw [List.length_map]; omega)
    have part : (es.map Expr.text).Sublist (cutDefaults es) := by
      rw [first]
      exact List.take_sublist ..
    have weights := sublistWeight part
    rw [cutDefaults, listWeight exprsBalanced exprsNonempty, ← cutDefaults, List.length_map] at weights
    omega
  · intro clean j _
    rw [cleanCut clean]

end Cutting

section Setting
variable (formatType : Oid → TypeName) {defs es : List Text}

theorem setTakes {n left : ℕ} {arg : dbgArgInfo} {args later : List dbgArgInfo} {val : Text}
    (ran : setDefaults defs n args = some (left + 1, later)) (takes : arg.m_mode = .inout ∨ arg.m_mode = .in)
    (here : defs[left]? = some val) : setDefaults defs n (arg :: args) =
      some (left, (if val ≠ ['-'] then { arg with m_defValue := some val } else arg) :: later) := by
  simp only [setDefaults, ran, bind, Option.bind_some, Nat.add_sub_cancel, here]
  exact if_pos ⟨Nat.succ_ne_zero left, takes⟩

theorem setSkips {n left : ℕ} {arg : dbgArgInfo} {args later : List dbgArgInfo}
    (ran : setDefaults defs n args = some (left, later))
    (skips : ¬(left ≠ 0 ∧ (arg.m_mode = .inout ∨ arg.m_mode = .in))) :
    setDefaults defs n (arg :: args) = some (left, arg :: later) := by
  simp only [setDefaults, ran, bind, Option.bind_some]
  exact if_neg skips

theorem setDefaultsFrom (params : List Param) (front : List Text) (idx : ℕ) (names : List Text)
    (whole : es = front ++ texts params) (enough : es.length ≤ defs.length)
    (plain : ∀ p ∈ params, p.mode ≠ .variadic) (outputs : ∀ p ∈ params, p.mode = .out → p.default = none)
    (trailing : params.Pairwise fun p q => p.default.isSome → q.mode ≠ .out → q.default.isSome)
    (begun : front ≠ [] → ∀ p ∈ params, p.mode ≠ .out → p.default.isSome) :
    ∃ args, setDefaults defs es.length (paramArgs formatType idx params names) = some (front.length, args) ∧
      (args = arguments formatType idx params ↔
        Named idx params names ∧ ∀ j, front.length ≤ j → j < es.length → defs[j]? = es[j]?) := by
  induction params generalizing front idx names with
  | nil =>
    obtain rfl : es = front := by simpa [texts] using whole
    refine ⟨[], rfl, ?_⟩
    simp only [arguments, Named, true_and, true_iff]
    intro j low high
    omega
  | cons p params ih =>
    obtain ⟨mine, plain⟩ := List.forall_mem_cons.mp plain
    obtain ⟨output, outputs⟩ := List.forall_mem_cons.mp outputs
    obtain ⟨later, trailing⟩ := List.pairwise_cons.mp trailing
    cases given : p.default with
    | some e =>
      have input : p.mode ≠ .out := by
        intro out
        rw [output out] at given
        cases given
      have takes : p.mode = .inout ∨ p.mode = .in := by
        revert mine input
        cases p.mode <;> decide
      have text : texts (p :: params) = e.text :: texts params := by simp [texts, given]
      have longer : es = (front ++ [e.text]) ++ texts params := by simp [whole, text]
      obtain ⟨args, ran, same⟩ := ih (front ++ [e.text]) (idx + 1) names.tail longer plain outputs trailing
        fun _ q member => later q member (by rw [given]; rfl)
      have size : (front ++ [e.text]).length = front.length + 1 := List.length_append
      rw [size] at ran same
      have long := congrArg List.length longer
      rw [List.length_append, size] at long
      have within : front.length < defs.length := by omega
      obtain ⟨val, here⟩ : ∃ val, defs[front.length]? = some val := ⟨_, List.getElem?_eq_getElem within⟩
      have mineText : es[front.length]? = some e.text := by simp [whole, text]
      refine ⟨_, setTakes ran takes here, ?_⟩
      have value : (if val ≠ ['-'] then (⟨argName idx names.head?, (formatType p.type).text,
          Nat.ofDigitChars 10 p.type.digits 0, p.mode, some val⟩ : dbgArgInfo) else
          ⟨argName idx names.head?, (formatType p.type).text, Nat.ofDigitChars 10 p.type.digits 0, p.mode, none⟩) =
          argument formatType idx p ↔
          argName idx names.head? = (if p.name = [] then generated idx else p.name) ∧ val = e.text := by
        by_cases dash : val = ['-']
        · simp [dash, argument, given, e.noDash.symm]
        · simp [dash, argument, given]
      rw [arguments, Named, List.cons_eq_cons, value, same]
      constructor
      · rintro ⟨⟨name, rfl⟩, named, rest⟩
        refine ⟨⟨name, named⟩, fun j low high => ?_⟩
        rcases Nat.lt_or_eq_of_le low with less | rfl
        · exact rest j less high
        · rw [here, mineText]
      · rintro ⟨⟨name, named⟩, all⟩
        have own := all front.length le_rfl (by omega)
        rw [here, mineText] at own
        exact ⟨⟨name, Option.some.inj own⟩, named, fun j low high => all j (by omega) high⟩
    | none =>
      have text : texts (p :: params) = texts params := by simp [texts, given]
      obtain ⟨args, ran, same⟩ := ih front (idx + 1) names.tail (by rw [whole, text]) plain outputs trailing
        fun some_ q member => begun some_ q (List.mem_cons_of_mem p member)
      have skips : ¬(front.length ≠ 0 ∧ (p.mode = .inout ∨ p.mode = .in)) := by
        rintro ⟨some_, takes⟩
        have input : p.mode ≠ .out := by
          rcases takes with mode | mode <;> rw [mode] <;> decide
        have own := begun (mt List.length_eq_zero_iff.mpr some_) p List.mem_cons_self input
        rw [given] at own
        cases own
      refine ⟨_, setSkips ran skips, ?_⟩
      have unset : (⟨argName idx names.head?, (formatType p.type).text, Nat.ofDigitChars 10 p.type.digits 0, p.mode,
          none⟩ : dbgArgInfo) = argument formatType idx p ↔
          argName idx names.head? = (if p.name = [] then generated idx else p.name) := by
        simp [argument, given]
      rw [arguments, Named, List.cons_eq_cons, unset, same, and_assoc]

theorem unsetArguments (params : List Param) (idx : ℕ) (names : List Text) (none : ∀ p ∈ params, p.default = none) :
    paramArgs formatType idx params names = arguments formatType idx params ↔ Named idx params names := by
  induction params generalizing idx names with
  | nil => simp [paramArgs, arguments, Named]
  | cons p params ih =>
    obtain ⟨unset, rest⟩ := List.forall_mem_cons.mp none
    rw [paramArgs, arguments, Named, List.cons_eq_cons, ih (idx + 1) names.tail rest]
    simp [argument, unset]

theorem setOthers {n left : ℕ} {args set : List dbgArgInfo} (ran : setDefaults defs n args = some (left, set)) :
    ∀ arg ∈ set, arg.m_mode = .variadic → arg ∈ args := by
  induction args generalizing left set with
  | nil =>
    cases Option.some.inj ran
    exact fun arg member => absurd member List.not_mem_nil
  | cons arg args ih =>
    simp only [setDefaults, bind, Option.bind_eq_some_iff] at ran
    obtain ⟨⟨left', later⟩, ran', rest⟩ := ran
    have tail := ih ran'
    split at rest
    case isTrue takes =>
      obtain ⟨val, -, last⟩ := Option.bind_eq_some_iff.mp rest
      cases Option.some.inj last
      intro other member variadic
      rcases List.mem_cons.mp member with rfl | inside
      · have mode : arg.m_mode = .variadic := by
          split at variadic
          · exact variadic
          · exact variadic
        rcases takes.2 with plain | plain <;> rw [mode] at plain <;> cases plain
      · exact List.mem_cons_of_mem _ (tail other inside variadic)
    case isFalse =>
      cases Option.some.inj rest
      intro other member variadic
      rcases List.mem_cons.mp member with rfl | inside
      · exact List.mem_cons_self
      · exact List.mem_cons_of_mem _ (tail other inside variadic)

theorem paramArgsUnset (params : List Param) (idx : ℕ) (names : List Text) :
    ∀ arg ∈ paramArgs formatType idx params names, arg.m_defValue = none := by
  induction params generalizing idx names with
  | nil => exact fun arg member => absurd member List.not_mem_nil
  | cons p params ih => exact List.forall_mem_cons.mpr ⟨rfl, ih (idx + 1) names.tail⟩

theorem argumentsMember {params : List Param} {p : Param} (member : p ∈ params) (idx : ℕ) :
    ∃ i, argument formatType i p ∈ arguments formatType idx params := by
  induction params generalizing idx with
  | nil => cases member
  | cons q params ih =>
    rcases List.mem_cons.mp member with rfl | inside
    · exact ⟨idx, List.mem_cons_self⟩
    · obtain ⟨i, here⟩ := ih inside (idx + 1)
      exact ⟨i, List.mem_cons_of_mem _ here⟩

end Setting

section Signature
variable (f : Target)

def Follows (p q : Param) : Prop := p.mode = .variadic → q.default.isSome → p.default.isSome

theorem variadicDefault {p q : Param} (here : p ∈ f.params) (there : q ∈ f.params) : Follows p q := by
  have before : f.params.Pairwise Follows := by
    refine f.variadicLast.imp_of_mem fun {a b} _ inside last variadic given => ?_
    rw [f.outputs b inside (last variadic)] at given
    cases given
  have behind : f.params.Pairwise (flip Follows) := f.trailing.imp fun {a b} follows variadic given =>
    follows given (by rw [variadic]; decide)
  exact before.forall_of_forall_of_flip (fun _ _ _ => id) behind here there

variable (formatType : Oid → TypeName)

theorem textsExprs (params : List Param) : texts params = (params.filterMap Param.default).map Expr.text := by
  rw [List.map_filterMap]
  rfl

theorem defaultsRead (some_ : texts f.params ≠ []) :
    fetched (f.row formatType).proargdefaults = cutDefaults (f.params.filterMap Param.default) := by
  have here : (f.row formatType).proargdefaults = some (listed ", ".toList (texts f.params)) := if_neg some_
  rw [here, fetched, textsExprs]
  rfl

theorem variadicUnset {p : Param} (member : p ∈ f.params) (variadic : p.mode = .variadic)
    (same : dbgTargetInfo (f.row formatType) = some (arguments formatType 0 f.params)) : p.default = none := by
  obtain ⟨i, inside⟩ := argumentsMember formatType member 0
  have unset : (argument formatType i p).m_defValue = none := by
    simp only [dbgTargetInfo, argsRead, bind, Option.bind_some] at same
    split at same
    case isTrue =>
      rw [← Option.some.inj same] at inside
      exact paramArgsUnset formatType f.params 0 _ _ inside
    case isFalse =>
      obtain ⟨⟨left, set⟩, ran, last⟩ := Option.bind_eq_some_iff.mp same
      rw [← Option.some.inj last] at inside
      exact paramArgsUnset formatType f.params 0 _ _ (setOthers ran _ inside variadic)
  exact Option.map_eq_none_iff.mp unset

theorem plainArguments (some_ : texts f.params ≠ []) (plain : ∀ p ∈ f.params, p.mode ≠ .variadic) :
    dbgTargetInfo (f.row formatType) = some (arguments formatType 0 f.params) ↔
      (∀ p ∈ f.params, NameFine p.name) ∧ ∀ p ∈ f.params, ∀ e ∈ p.default, Clean e.text := by
  have enough : (texts f.params).length ≤ (cutDefaults (f.params.filterMap Param.default)).length := by
    rw [textsExprs, List.length_map]
    exact cutEnough _
  obtain ⟨args, ran, same⟩ := setDefaultsFrom formatType f.params [] 0 (fetched (f.row formatType).proargnames)
    (List.nil_append (texts f.params)).symm enough plain f.outputs f.trailing fun no => absurd rfl no
  have counted : (f.row formatType).pronargdefaults = (texts f.params).length := rfl
  have nonempty : ¬((paramArgs formatType 0 f.params (fetched (f.row formatType).proargnames)).isEmpty ∨
      (texts f.params).length = 0) := by
    rw [not_or]
    refine ⟨fun empty => some_ ?_, mt List.length_eq_zero_iff.mp some_⟩
    cases here : f.params with
    | nil => rfl
    | cons p later => simp [here, paramArgs] at empty
  have result : dbgTargetInfo (f.row formatType) = some args := by
    simp only [dbgTargetInfo, argsRead, bind, Option.bind_some, counted, if_neg nonempty,
      defaultsRead f formatType some_, ran]
  have cuts : (∀ j, ([] : List Text).length ≤ j → j < (texts f.params).length →
      (cutDefaults (f.params.filterMap Param.default))[j]? = (texts f.params)[j]?) ↔
      ∀ p ∈ f.params, ∀ e ∈ p.default, Clean e.text := by
    have cut := @cutSame (f.params.filterMap Param.default)
    simp only [List.mem_filterMap, forall_exists_index, and_imp] at cut
    rw [textsExprs, List.length_map]
    constructor
    · intro all p member e given
      exact cut.mp (fun j high => all j (Nat.zero_le j) high) e p member given
    · intro clean j _ high
      exact cut.mpr (fun e p member given => clean p member e given) j high
  rw [result, Option.some.injEq, same, namedRead, cuts]

theorem targetArguments : dbgTargetInfo (f.row formatType) = some (arguments formatType 0 f.params) ↔
    (∀ p ∈ f.params, NameFine p.name) ∧ (∀ p ∈ f.params, ∀ e ∈ p.default, Clean e.text) ∧
      ∀ p ∈ f.params, p.mode = .variadic → p.default = none := by
  by_cases none : texts f.params = []
  case pos =>
    have unset : ∀ p ∈ f.params, p.default = Option.none := by
      rw [textsExprs, List.map_eq_nil_iff, List.filterMap_eq_nil_iff] at none
      exact none
    have counted : (f.row formatType).pronargdefaults = 0 := by rw [Target.row, none]; rfl
    have same : dbgTargetInfo (f.row formatType) =
        some (paramArgs formatType 0 f.params (fetched (f.row formatType).proargnames)) := by
      simp [dbgTargetInfo, argsRead, counted]
    rw [same, Option.some.injEq, unsetArguments formatType f.params 0 _ unset, namedRead]
    refine ⟨fun fine => ⟨fine, fun p member e given => ?_, fun p member _ => unset p member⟩, And.left⟩
    rw [unset p member] at given
    cases given
  case neg =>
    obtain ⟨q, there, given⟩ : ∃ q ∈ f.params, q.default.isSome := by
      by_contra unset
      refine none ?_
      rw [textsExprs, List.map_eq_nil_iff, List.filterMap_eq_nil_iff]
      intro q there
      rw [← Option.not_isSome_iff_eq_none]
      exact fun given => unset ⟨q, there, given⟩
    by_cases plain : ∀ p ∈ f.params, p.mode ≠ .variadic
    case pos =>
      rw [plainArguments f formatType none plain]
      exact ⟨fun both => ⟨both.1, both.2, fun p member mode => absurd mode (plain p member)⟩,
        fun all => ⟨all.1, all.2.1⟩⟩
    case neg =>
      simp only [not_forall, not_not] at plain
      obtain ⟨p, member, mode⟩ := plain
      have own := variadicDefault f member there mode given
      constructor
      · intro same
        rw [variadicUnset f formatType member mode same] at own
        cases own
      · intro fine
        rw [fine.2.2 p member mode] at own
        cases own

/- `(a integer DEFAULT 1, VARIADIC rest integer[] DEFAULT NULL)`: the loop gives `a` the default of `rest`. -/
def shifted : Target where
  params := [⟨.in, "a".toList, ⟨"23".toList, by decide, List.all_eq_true.mp rfl⟩,
      some ⟨"1".toList, by decide, by decide, by decide, rfl⟩⟩,
    ⟨.variadic, "rest".toList, ⟨"1007".toList, by decide, List.all_eq_true.mp rfl⟩,
      some ⟨"NULL::integer[]".toList, by decide, by decide, by decide, rfl⟩⟩]
  columns := []
  outputs := by simp
  trailing := by simp
  variadicLast := by simp

def integers (oid : Oid) : TypeName :=
  if oid.digits = "23".toList then ⟨"integer".toList, by decide, by decide, by decide⟩
  else ⟨"integer[]".toList, by decide, by decide, by decide⟩

theorem shiftedDefault : dbgTargetInfo (shifted.row integers) ≠ some (arguments integers 0 shifted.params) := by
  intro same
  have unset := variadicUnset shifted integers (List.mem_cons_of_mem _ List.mem_cons_self) rfl same
  cases unset

end Signature

end PgAdmin.dbgTarget
