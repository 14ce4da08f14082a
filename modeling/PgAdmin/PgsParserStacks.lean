import PgAdmin.PgsParser

/-! The context's stacks follow the parser's. Every production is balanced: it pops what it
embeds and pushes what it makes. So at every reduction the stacks are the live values of the
semantic stack, and every node made so far is in one place: on a stack, owned, or deleted. -/
namespace PgAdmin.PgsParser

/- The positions, from `first` on, of the symbols of one kind. -/
def positionsFrom (kind : Kind) : ℕ → List Symbol → List ℕ
  | _, [] => []
  | first, symbol :: rest =>
    if symbol.kind = kind then first :: positionsFrom kind (first + 1) rest
    else positionsFrom kind (first + 1) rest

def Production.vars (p : Production) : List ℕ := positionsFrom .expr 1 p.rhs
def Production.stmts (p : Production) : List ℕ := positionsFrom .stmt 1 p.rhs

def Production.balanced (p : Production) : Bool :=
  match p.action with
  | .plain => p.vars = [] ∧ p.stmts = [] ∧ p.lhs.kind = .plain
  | .passOn i =>
    (p.vars = [i] ∧ p.stmts = [] ∧ p.lhs.kind = .expr) ∨
    (p.vars = [] ∧ p.stmts = [i] ∧ p.lhs.kind = .stmt) ∨
    (p.vars = [] ∧ p.stmts = [] ∧ p.lhs.kind = .plain)
  | .embedVar kids defaults pops =>
    p.vars = kids ∧ p.stmts = [] ∧ p.lhs.kind = .expr ∧ pops = kids.length + defaults.length
  | .embedStmt vars stmts emptyList popVars popStmts =>
    p.vars = vars ∧ p.stmts = stmts ∧ p.lhs.kind = .stmt ∧ popVars = vars.length ∧
      popStmts = stmts.length + emptyList.toNat
  | .emptyList => p.vars = [] ∧ p.stmts = [] ∧ p.lhs.kind = .stmt
  | .openList i => p.vars = [] ∧ p.stmts = [i] ∧ p.lhs.kind = .stmt
  | .appendList list i => p.vars = [] ∧ p.stmts = [list, i] ∧ p.lhs.kind = .stmt
  | .runProgram i => p.vars = [] ∧ p.stmts = [i] ∧ p.lhs.kind = .plain

theorem grammarBalanced {p : Production} (member : p ∈ grammar) : p.balanced = true := by
  have all : grammar.all Production.balanced = true := by decide +kernel
  exact List.all_eq_true.mp all p member

/-! The nodes at the positions of a kind are the live values of that kind. -/

theorem liveAppend (kind : Kind) (left right : List Value) :
    live kind (left ++ right) = live kind left ++ live kind right := List.filterMap_append

theorem liveReverse (kind : Kind) (values : List Value) :
    live kind values.reverse = (live kind values).reverse := List.filterMap_reverse

theorem liveSingle {kind : Kind} {v : Value} {node : ℕ} (isKind : v.kind = kind)
    (same : v.node = some node) : live kind [v] = [node] := by simp [live, isKind, same]

theorem liveOther {kind : Kind} {v : Value} (other : v.kind ≠ kind) : live kind [v] = [] := by
  simp [live, other]

theorem nodeOfKind {kind : Kind} (owned : kind ≠ .plain) {v : Value} (isKind : v.kind = kind) :
    ∃ node, v.node = some node := by
  cases v with
  | plain => exact absurd isKind.symm owned
  | expr node => exact ⟨node, rfl⟩
  | stmt node => exact ⟨node, rfl⟩

theorem positionsValues (kind : Kind) {rhs : List Symbol} {values : List Value}
    (before : List Value) (typed : values.map Value.kind = rhs.map Symbol.kind) :
    (positionsFrom kind (before.length + 1) rhs).map (valueOf (before ++ values)) =
      values.filter (·.kind = kind) := by
  induction rhs generalizing values before with
  | nil =>
    cases values with
    | nil => rfl
    | cons v values => simp at typed
  | cons symbol rhs ih =>
    cases values with
    | nil => simp at typed
    | cons v values =>
      simp only [List.map_cons, List.cons.injEq] at typed
      have rest := ih (before ++ [v]) typed.2
      rw [List.length_append, List.length_singleton, List.append_assoc, List.singleton_append]
        at rest
      have here : valueOf (before ++ v :: values) (before.length + 1) = v := by simp [valueOf]
      rw [positionsFrom, List.filter_cons]
      simp only [typed.1, decide_eq_true_eq]
      split
      · rw [List.map_cons, here, rest]
      · exact rest

theorem liveFilter (kind : Kind) (values : List Value) :
    live kind values = (values.filter (·.kind = kind)).filterMap Value.node := by
  rw [List.filterMap_filter]
  simp [live]

theorem nodesOfPositions {kind : Kind} {rhs : List Symbol} {values : List Value}
    (typed : values.map Value.kind = rhs.map Symbol.kind) :
    nodesOf values (positionsFrom kind 1 rhs) = live kind values := by
  rw [liveFilter, ← positionsValues kind [] typed, List.filterMap_map]
  rfl

theorem liveLength {kind : Kind} (owned : kind ≠ .plain) {rhs : List Symbol} {values : List Value}
    (typed : values.map Value.kind = rhs.map Symbol.kind) :
    (live kind values).length = (positionsFrom kind 1 rhs).length := by
  have all : ∀ v ∈ values.filter (·.kind = kind), (Value.node v).isSome := by
    intro v member
    obtain ⟨node, same⟩ := nodeOfKind owned (by simpa using (List.mem_filter.mp member).2)
    rw [same]
    rfl
  rw [liveFilter, List.length_filterMap_eq_countP, List.countP_eq_length.mpr all,
    ← positionsValues kind [] typed, List.length_map]
  rfl

theorem onlyValue {kind : Kind} (owned : kind ≠ .plain) {rhs : List Symbol} {values : List Value}
    {i : ℕ} (typed : values.map Value.kind = rhs.map Symbol.kind)
    (position : positionsFrom kind 1 rhs = [i]) :
    (valueOf values i).kind = kind ∧
      ∃ node, (valueOf values i).node = some node ∧ live kind values = [node] := by
  have filtered := positionsValues kind [] typed
  rw [show ([] : List Value).length + 1 = 1 from rfl, position, List.map_singleton] at filtered
  have member : valueOf values i ∈ values.filter (·.kind = kind) := by
    rw [← filtered]
    exact List.mem_singleton_self _
  have isKind : (valueOf values i).kind = kind := by simpa using (List.mem_filter.mp member).2
  obtain ⟨node, same⟩ := nodeOfKind owned isKind
  refine ⟨isKind, node, same, ?_⟩
  rw [← nodesOfPositions typed, position]
  simp [nodesOf, same]

theorem twoValues {kind : Kind} (owned : kind ≠ .plain) {rhs : List Symbol} {values : List Value}
    {i j : ℕ} (typed : values.map Value.kind = rhs.map Symbol.kind)
    (positions : positionsFrom kind 1 rhs = [i, j]) :
    ∃ a b, (valueOf values i).node = some a ∧ (valueOf values j).node = some b ∧
      live kind values = [a, b] := by
  have filtered := positionsValues kind [] typed
  rw [show ([] : List Value).length + 1 = 1 from rfl, positions] at filtered
  have isKind : ∀ v ∈ [valueOf values i, valueOf values j], v.kind = kind := by
    intro v member
    have kept : v ∈ values.filter (·.kind = kind) := by
      rw [← filtered]
      exact member
    simpa using (List.mem_filter.mp kept).2
  obtain ⟨a, left⟩ := nodeOfKind owned (isKind (valueOf values i) (by simp))
  obtain ⟨b, right⟩ := nodeOfKind owned (isKind (valueOf values j) (by simp))
  refine ⟨a, b, left, right, ?_⟩
  rw [← nodesOfPositions typed, positions]
  simp [nodesOf, left, right]

theorem plainValue {rhs : List Symbol} {values : List Value} (i : ℕ)
    (typed : values.map Value.kind = rhs.map Symbol.kind)
    (noVars : positionsFrom .expr 1 rhs = []) (noStmts : positionsFrom .stmt 1 rhs = []) :
    valueOf values i = .plain := by
  have absent : ∀ v ∈ values, ∀ kind, positionsFrom kind 1 rhs = [] → v.kind ≠ kind := by
    intro v member kind none isKind
    have filtered := positionsValues kind [] typed
    rw [show ([] : List Value).length + 1 = 1 from rfl, none] at filtered
    have kept : v ∈ values.filter (·.kind = kind) := List.mem_filter.mpr ⟨member, by simpa⟩
    rw [← filtered] at kept
    cases kept
  unfold valueOf
  cases found : values[i - 1]? with
  | none => rfl
  | some v =>
    have member := List.mem_of_getElem? found
    cases v with
    | plain => rfl
    | expr node => exact absurd rfl (absent _ member .expr noVars)
    | stmt node => exact absurd rfl (absent _ member .stmt noStmts)

/-! One action. -/

def Places (c : PgsContext) : Prop :=
  (c.vars ++ c.stmts ++ c.deleted ++ c.owns.map Prod.snd).Perm (List.range c.next)

/- The effect of a reduction: its own $$ is pushed and nothing else, and what was popped is $$
itself, or is owned by it, or was deleted. -/
structure NetEffect (values : List Value) (v : Value) (vars stmts : List ℕ) (after : PgsContext) :
    Prop where
  vars : after.vars = live .expr [v] ++ vars
  stmts : after.stmts = live .stmt [v] ++ stmts
  embedded : ∀ node ∈ live .expr values ++ live .stmt values, v.node = some node ∨
    (∃ owner, v.node = some owner ∧ (owner, node) ∈ after.owns) ∨ node ∈ after.deleted

theorem makeDefaults (defaults : List Default) (c : PgsContext) :
    defaults.foldl PgsContext.makeDefault c =
      {c with vars := ((List.range defaults.length).map (c.next + ·)).reverse ++ c.vars,
              next := c.next + defaults.length} := by
  induction defaults generalizing c with
  | nil => simp
  | cons d defaults ih =>
    rw [List.foldl_cons, ih]
    simp only [PgsContext.makeDefault, PgsContext.make, PgsContext.pushVar, List.map_nil,
      List.append_nil, List.length_cons, List.range_succ_eq_map, List.map_cons, List.map_map,
      List.reverse_cons, List.append_assoc, List.singleton_append, Nat.add_zero]
    congr 1
    · congr 3
      funext i
      simp only [Function.comp]
      omega
    · omega

structure Ready (p : Production) (values : List Value) (vars stmts : List ℕ) (c : PgsContext) :
    Prop where
  typed : values.map Value.kind = p.rhs.map Symbol.kind
  vars : c.vars = (live .expr values).reverse ++ vars
  stmts : c.stmts = (live .stmt values).reverse ++ stmts
  places : Places c

section Perform
variable {p : Production} {values : List Value} {vars stmts : List ℕ} {c : PgsContext}

theorem popVarsAppend {c : PgsContext} (top : List ℕ) {rest : List ℕ} {count : ℕ}
    (same : c.vars = top ++ rest) (length : top.length = count) :
    c.popVars count = some {c with vars := rest} := by
  have enough : count ≤ c.vars.length := by rw [same, List.length_append]; omega
  rw [PgsContext.popVars, if_pos enough, same, ← length, List.drop_left]

theorem popStmtsAppend {c : PgsContext} (top : List ℕ) {rest : List ℕ} {count : ℕ}
    (same : c.stmts = top ++ rest) (length : top.length = count) :
    c.popStmts count = some {c with stmts := rest} := by
  have enough : count ≤ c.stmts.length := by rw [same, List.length_append]; omega
  rw [PgsContext.popStmts, if_pos enough, same, ← length, List.drop_left]

theorem noneLive {kind : Kind} {rhs : List Symbol} {values : List Value}
    (typed : values.map Value.kind = rhs.map Symbol.kind) (none : positionsFrom kind 1 rhs = []) :
    live kind values = [] := by
  rw [← nodesOfPositions typed, none]
  rfl

theorem performPlain (ready : Ready p values vars stmts c) (noVars : p.vars = [])
    (noStmts : p.stmts = []) : NetEffect values .plain vars stmts c := by
  have liveVars := noneLive ready.typed noVars
  have liveStmts := noneLive ready.typed noStmts
  refine ⟨?_, ?_, ?_⟩
  · rw [ready.vars, liveVars]
    rfl
  · rw [ready.stmts, liveStmts]
    rfl
  · simp [liveVars, liveStmts]

theorem performPassVar (ready : Ready p values vars stmts c) {i : ℕ} (oneVar : p.vars = [i])
    (noStmts : p.stmts = []) :
    (valueOf values i).kind = .expr ∧ NetEffect values (valueOf values i) vars stmts c := by
  obtain ⟨isVar, node, same, liveVars⟩ := onlyValue (by decide) ready.typed oneVar
  have liveStmts := noneLive ready.typed noStmts
  refine ⟨isVar, ?_, ?_, ?_⟩
  · rw [ready.vars, liveVars, liveSingle isVar same]
    rfl
  · rw [ready.stmts, liveStmts, liveOther (by rw [isVar]; decide)]
    rfl
  · rw [liveVars, liveStmts]
    intro other member
    rw [List.mem_singleton.mp member]
    exact .inl same

theorem performPassStmt (ready : Ready p values vars stmts c) {i : ℕ} (noVars : p.vars = [])
    (oneStmt : p.stmts = [i]) :
    (valueOf values i).kind = .stmt ∧ NetEffect values (valueOf values i) vars stmts c := by
  obtain ⟨isStmt, node, same, liveStmts⟩ := onlyValue (by decide) ready.typed oneStmt
  have liveVars := noneLive ready.typed noVars
  refine ⟨isStmt, ?_, ?_, ?_⟩
  · rw [ready.vars, liveVars, liveOther (by rw [isStmt]; decide)]
    rfl
  · rw [ready.stmts, liveStmts, liveSingle isStmt same]
    rfl
  · rw [liveVars, liveStmts]
    intro other member
    rw [List.mem_singleton.mp member]
    exact .inl same

theorem performEmbedVar (ready : Ready p values vars stmts c) {kids : List ℕ}
    {defaults : List Default} {pops : ℕ} (kidVars : p.vars = kids) (noStmts : p.stmts = [])
    (count : pops = kids.length + defaults.length) :
    ∃ node after, perform (.embedVar kids defaults pops) values c = some (.expr node, after) ∧
      NetEffect values (.expr node) vars stmts after ∧ Places after := by
  have liveStmts := noneLive ready.typed noStmts
  have nodes : nodesOf values kids = live .expr values := kidVars ▸ nodesOfPositions ready.typed
  have length : (live .expr values).length = kids.length :=
    kidVars ▸ liveLength (by decide) ready.typed
  let fresh := (List.range defaults.length).map (c.next + ·)
  let made : PgsContext :=
    {c with vars := fresh.reverse ++ c.vars, next := c.next + defaults.length}
  let whole := made.make (live .expr values ++ fresh)
  have popped : whole.popVars pops = some {whole with vars := vars} := by
    refine popVarsAppend (fresh.reverse ++ (live .expr values).reverse) ?_ ?_
    · change fresh.reverse ++ c.vars = _
      rw [ready.vars, List.append_assoc]
    · simp only [fresh, List.length_append, List.length_reverse, List.length_map,
        List.length_range, length, count]
      omega
  refine ⟨made.next, {whole with vars := vars}.pushVar made.next, ?_, ⟨rfl, ?_, ?_⟩, ?_⟩
  · simp only [perform, makeDefaults, nodes]
    change (whole.popVars pops).bind _ = _
    rw [popped]
    rfl
  · change c.stmts = _
    rw [ready.stmts, liveStmts]
    rfl
  · rw [liveStmts, List.append_nil]
    intro node member
    refine .inr (.inl ⟨made.next, rfl, ?_⟩)
    exact List.mem_append_right _ (List.mem_map_of_mem (List.mem_append_left _ member))
  · have before := ready.places
    unfold Places at before ⊢
    rw [ready.vars] at before
    rw [List.perm_iff_count] at before ⊢
    intro a
    have counted := before a
    simp only [PgsContext.pushVar, whole, made, fresh, PgsContext.make, List.map_append,
      List.map_map, Function.comp_def, List.map_id', List.count_append, List.count_cons,
      List.count_reverse, List.range_succ, List.range_add, List.count_nil] at counted ⊢
    omega

theorem performEmbedStmt (ready : Ready p values vars stmts c) {varKids stmtKids : List ℕ}
    {emptyList : Bool} {popVars popStmts : ℕ} (kidVars : p.vars = varKids)
    (kidStmts : p.stmts = stmtKids) (countVars : popVars = varKids.length)
    (countStmts : popStmts = stmtKids.length + emptyList.toNat) :
    ∃ node after, perform (.embedStmt varKids stmtKids emptyList popVars popStmts) values c =
      some (.stmt node, after) ∧ NetEffect values (.stmt node) vars stmts after ∧ Places after := by
  have nodesV : nodesOf values varKids = live .expr values :=
    kidVars ▸ nodesOfPositions ready.typed
  have nodesS : nodesOf values stmtKids = live .stmt values :=
    kidStmts ▸ nodesOfPositions ready.typed
  have lengthV : (live .expr values).length = varKids.length :=
    kidVars ▸ liveLength (by decide) ready.typed
  have lengthS : (live .stmt values).length = stmtKids.length :=
    kidStmts ▸ liveLength (by decide) ready.typed
  let made := if emptyList then c.stmtList else c
  let lists := if emptyList then [c.next] else []
  let whole := made.make (live .expr values ++ live .stmt values ++ lists)
  have poppedV : whole.popVars popVars = some {whole with vars := vars} := by
    refine popVarsAppend (live .expr values).reverse ?_ ?_
    · have same : whole.vars = c.vars := by
        cases emptyList <;> rfl
      rw [same, ready.vars]
    · rw [List.length_reverse, lengthV, countVars]
  have poppedS : ({whole with vars := vars} : PgsContext).popStmts popStmts =
      some {whole with vars := vars, stmts := stmts} := by
    refine popStmtsAppend (lists ++ (live .stmt values).reverse) ?_ ?_
    · have same : whole.stmts = lists ++ c.stmts := by
        cases emptyList <;> rfl
      change whole.stmts = _
      rw [same, ready.stmts, List.append_assoc]
    · rw [List.length_append, List.length_reverse, lengthS, countStmts]
      cases emptyList <;> simp [lists, Nat.add_comm]
  refine ⟨made.next, ({whole with vars := vars, stmts := stmts} : PgsContext).pushStmt made.next,
    ?_, ⟨rfl, rfl, ?_⟩, ?_⟩
  · simp only [perform, nodesV, nodesS]
    change (whole.popVars popVars).bind _ = _
    rw [poppedV]
    change (PgsContext.popStmts {whole with vars := vars} popStmts).bind _ = _
    rw [poppedS]
    rfl
  · intro node member
    refine .inr (.inl ⟨made.next, rfl, ?_⟩)
    exact List.mem_append_right _ (List.mem_map_of_mem (List.mem_append_left _ member))
  · have before := ready.places
    unfold Places at before ⊢
    rw [ready.vars, ready.stmts] at before
    rw [List.perm_iff_count] at before ⊢
    intro a
    have counted := before a
    cases emptyList
    all_goals
      simp only [PgsContext.pushStmt, PgsContext.stmtList, whole, made, lists, PgsContext.make,
        List.map_append, List.map_map, Function.comp_def, List.map_id', List.count_append,
        List.count_cons, List.count_reverse, List.range_succ, List.count_nil, if_true,
        Bool.false_eq_true, if_false, List.map_nil, List.append_nil, List.map_cons] at counted ⊢
      omega

theorem performEmptyList (ready : Ready p values vars stmts c) (noVars : p.vars = [])
    (noStmts : p.stmts = []) :
    NetEffect values (.stmt c.next) vars stmts c.stmtList ∧ Places c.stmtList := by
  have liveVars := noneLive ready.typed noVars
  have liveStmts := noneLive ready.typed noStmts
  refine ⟨⟨?_, ?_, by simp [liveVars, liveStmts]⟩, ?_⟩
  · change c.vars = _
    rw [ready.vars, liveVars]
    rfl
  · change c.next :: c.stmts = _
    rw [ready.stmts, liveStmts]
    rfl
  · have before := ready.places
    unfold Places at before ⊢
    rw [List.perm_iff_count] at before ⊢
    intro a
    have counted := before a
    simp only [PgsContext.stmtList, PgsContext.pushStmt, PgsContext.make, List.map_nil,
      List.append_nil, List.count_append, List.count_cons, List.range_succ, List.count_nil]
      at counted ⊢
    omega

theorem performOpenList (ready : Ready p values vars stmts c) {i : ℕ} (noVars : p.vars = [])
    (oneStmt : p.stmts = [i]) :
    ∃ node after, perform (.openList i) values c = some (.stmt node, after) ∧
      NetEffect values (.stmt node) vars stmts after ∧ Places after := by
  obtain ⟨_, node, same, liveStmts⟩ := onlyValue (by decide) ready.typed oneStmt
  have liveVars := noneLive ready.typed noVars
  have onTop : c.stmts = [node] ++ stmts := by rw [ready.stmts, liveStmts]; rfl
  let left : PgsContext := {c with stmts := stmts}
  have popped : c.popStmts 1 = some left := popStmtsAppend _ onTop rfl
  refine ⟨c.next, left.stmtList.insertBack c.next node, ?_, ⟨?_, rfl, ?_⟩, ?_⟩
  · simp only [perform, popped, same, bind, Option.bind_some, left]
  · change c.vars = _
    rw [ready.vars, liveVars]
    rfl
  · rw [liveVars, liveStmts]
    intro other member
    rw [List.mem_singleton.mp member]
    exact .inr (.inl ⟨c.next, rfl, by simp [PgsContext.insertBack]⟩)
  · have before := ready.places
    unfold Places at before ⊢
    rw [onTop] at before
    rw [List.perm_iff_count] at before ⊢
    intro a
    have counted := before a
    simp only [left, PgsContext.insertBack, PgsContext.stmtList, PgsContext.pushStmt,
      PgsContext.make, List.map_nil, List.append_nil, List.map_append, List.map_cons,
      List.count_append, List.count_cons, List.range_succ, List.count_nil] at counted ⊢
    omega

theorem performAppendList (ready : Ready p values vars stmts c) {list i : ℕ}
    (noVars : p.vars = []) (twoStmts : p.stmts = [list, i]) :
    ∃ node after, perform (.appendList list i) values c = some (.stmt node, after) ∧
      NetEffect values (.stmt node) vars stmts after ∧ Places after := by
  obtain ⟨owner, node, sameOwner, same, liveStmts⟩ := twoValues (by decide) ready.typed twoStmts
  have liveVars := noneLive ready.typed noVars
  have onTop : c.stmts = [node] ++ (owner :: stmts) := by rw [ready.stmts, liveStmts]; rfl
  let left : PgsContext := {c with stmts := owner :: stmts}
  have popped : c.popStmts 1 = some left := popStmtsAppend _ onTop rfl
  refine ⟨owner, left.insertBack owner node, ?_, ⟨?_, rfl, ?_⟩, ?_⟩
  · simp only [perform, popped, sameOwner, same, bind, Option.bind_some, left]
  · change c.vars = _
    rw [ready.vars, liveVars]
    rfl
  · rw [liveVars, liveStmts]
    intro other member
    rcases List.mem_cons.mp member with rfl | member
    · exact .inl rfl
    · rw [List.mem_singleton.mp member]
      exact .inr (.inl ⟨owner, rfl, by simp [PgsContext.insertBack]⟩)
  · have before := ready.places
    unfold Places at before ⊢
    rw [onTop] at before
    rw [List.perm_iff_count] at before ⊢
    intro a
    have counted := before a
    simp only [left, PgsContext.insertBack, List.map_append, List.map_cons, List.map_nil,
      List.count_append, List.count_cons, List.count_nil] at counted ⊢
    omega

theorem performRunProgram (ready : Ready p values vars stmts c) {i : ℕ} (noVars : p.vars = [])
    (oneStmt : p.stmts = [i]) :
    ∃ after, perform (.runProgram i) values c = some (.plain, after) ∧
      NetEffect values .plain vars stmts after ∧ Places after := by
  obtain ⟨_, node, same, liveStmts⟩ := onlyValue (by decide) ready.typed oneStmt
  have liveVars := noneLive ready.typed noVars
  have onTop : c.stmts = [node] ++ stmts := by rw [ready.stmts, liveStmts]; rfl
  let left : PgsContext := {c with stmts := stmts}
  have popped : c.popStmts 1 = some left := popStmtsAppend _ onTop rfl
  refine ⟨left.pdelete node, ?_, ⟨?_, rfl, ?_⟩, ?_⟩
  · simp only [perform, popped, same, bind, Option.bind_some, left]
  · change c.vars = _
    rw [ready.vars, liveVars]
    rfl
  · rw [liveVars, liveStmts]
    intro other member
    rw [List.mem_singleton.mp member]
    exact .inr (.inr (by simp [PgsContext.pdelete]))
  · have before := ready.places
    unfold Places at before ⊢
    rw [onTop] at before
    rw [List.perm_iff_count] at before ⊢
    intro a
    have counted := before a
    simp only [left, PgsContext.pdelete, List.count_append, List.count_cons, List.count_nil]
      at counted ⊢
    omega

theorem performBalanced (balanced : p.balanced = true) (ready : Ready p values vars stmts c) :
    ∃ v after, perform p.action values c = some (v, after) ∧ v.kind = p.lhs.kind ∧
      NetEffect values v vars stmts after ∧ Places after := by
  unfold Production.balanced at balanced
  cases action : p.action with
  | plain =>
    rw [action] at balanced
    obtain ⟨noVars, noStmts, isPlain⟩ := of_decide_eq_true balanced
    exact ⟨_, _, rfl, isPlain.symm, performPlain ready noVars noStmts, ready.places⟩
  | passOn i =>
    rw [action] at balanced
    rcases of_decide_eq_true balanced with ⟨oneVar, noStmts, isExpr⟩ | ⟨noVars, oneStmt, isStmt⟩ |
      ⟨noVars, noStmts, isPlain⟩
    · obtain ⟨isVar, effect⟩ := performPassVar ready oneVar noStmts
      exact ⟨_, _, rfl, isVar.trans isExpr.symm, effect, ready.places⟩
    · obtain ⟨isList, effect⟩ := performPassStmt ready noVars oneStmt
      exact ⟨_, _, rfl, isList.trans isStmt.symm, effect, ready.places⟩
    · have nothing := plainValue i ready.typed noVars noStmts
      exact ⟨_, _, rfl, by rw [nothing, isPlain]; rfl,
        nothing ▸ performPlain ready noVars noStmts, ready.places⟩
  | embedVar kids defaults pops =>
    rw [action] at balanced
    obtain ⟨kidVars, noStmts, isExpr, count⟩ := of_decide_eq_true balanced
    obtain ⟨node, after, same, effect, places⟩ := performEmbedVar ready kidVars noStmts count
    exact ⟨_, after, same, isExpr.symm, effect, places⟩
  | embedStmt varKids stmtKids emptyList popVars popStmts =>
    rw [action] at balanced
    obtain ⟨kidVars, kidStmts, isStmt, countVars, countStmts⟩ := of_decide_eq_true balanced
    obtain ⟨node, after, same, effect, places⟩ :=
      performEmbedStmt ready kidVars kidStmts countVars countStmts
    exact ⟨_, after, same, isStmt.symm, effect, places⟩
  | emptyList =>
    rw [action] at balanced
    obtain ⟨noVars, noStmts, isStmt⟩ := of_decide_eq_true balanced
    obtain ⟨effect, places⟩ := performEmptyList ready noVars noStmts
    exact ⟨_, _, rfl, isStmt.symm, effect, places⟩
  | openList i =>
    rw [action] at balanced
    obtain ⟨noVars, oneStmt, isStmt⟩ := of_decide_eq_true balanced
    obtain ⟨node, after, same, effect, places⟩ := performOpenList ready noVars oneStmt
    exact ⟨_, after, same, isStmt.symm, effect, places⟩
  | appendList list i =>
    rw [action] at balanced
    obtain ⟨noVars, twoStmts, isStmt⟩ := of_decide_eq_true balanced
    obtain ⟨node, after, same, effect, places⟩ := performAppendList ready noVars twoStmts
    exact ⟨_, after, same, isStmt.symm, effect, places⟩
  | runProgram i =>
    rw [action] at balanced
    obtain ⟨noVars, oneStmt, isPlain⟩ := of_decide_eq_true balanced
    obtain ⟨after, same, effect, places⟩ := performRunProgram ready noVars oneStmt
    exact ⟨_, after, same, isPlain.symm, effect, places⟩

end Perform

/-! Whole runs. -/

structure Follows (s : Parser) : Prop where
  typed : ∀ entry ∈ s.stack, entry.2.kind = entry.1.kind
  vars : s.context.vars = live .expr (s.stack.map Prod.snd)
  stmts : s.context.stmts = live .stmt (s.stack.map Prod.snd)
  places : Places s.context

theorem startFollows : Follows .start :=
  ⟨by simp [Parser.start], rfl, rfl, by simp [Places, Parser.start]⟩

theorem shiftFollows {s : Parser} (follows : Follows s) {symbol : Symbol}
    (terminal : symbol.kind = .plain) : Follows (s.shift symbol) := by
  refine ⟨?_, follows.vars, follows.stmts, follows.places⟩
  intro entry member
  rcases List.mem_cons.mp member with rfl | old
  · exact terminal.symm
  · exact follows.typed entry old

theorem handleReady {s : Parser} (follows : Follows s) {p : Production} {values : List Value}
    (onTop : s.handle p.rhs = some values) :
    Ready p values (live .expr ((s.stack.drop p.rhs.length).map Prod.snd))
      (live .stmt ((s.stack.drop p.rhs.length).map Prod.snd)) s.context := by
  unfold Parser.handle at onTop
  dsimp only at onTop
  split at onTop
  · rename_i symbols
    cases onTop
    have stack : s.stack.map Prod.snd = ((s.stack.take p.rhs.length).reverse.map Prod.snd).reverse ++
        (s.stack.drop p.rhs.length).map Prod.snd := by
      rw [← List.map_reverse, List.reverse_reverse, ← List.map_append, List.take_append_drop]
    refine ⟨?_, ?_, ?_, follows.places⟩
    · have kinds : p.rhs.map Symbol.kind =
          ((s.stack.take p.rhs.length).reverse.map Prod.fst).map Symbol.kind := by rw [symbols]
      rw [kinds, List.map_map, List.map_map]
      refine List.map_congr_left fun entry member => ?_
      exact follows.typed entry (List.mem_of_mem_take (List.mem_reverse.mp member))
    · rw [follows.vars, stack, liveAppend, liveReverse]
    · rw [follows.stmts, stack, liveAppend, liveReverse]
  · contradiction

theorem reduceFollows {s : Parser} (follows : Follows s) {p : Production} (member : p ∈ grammar)
    {values : List Value} (onTop : s.handle p.rhs = some values) :
    ∃ v after, s.reduce p = some ⟨(.n p.lhs, v) :: s.stack.drop p.rhs.length, after⟩ ∧
      NetEffect values v (live .expr ((s.stack.drop p.rhs.length).map Prod.snd))
        (live .stmt ((s.stack.drop p.rhs.length).map Prod.snd)) after ∧
      Follows ⟨(.n p.lhs, v) :: s.stack.drop p.rhs.length, after⟩ := by
  obtain ⟨v, after, performed, isKind, effect, places⟩ :=
    performBalanced (grammarBalanced member) (handleReady follows onTop)
  refine ⟨v, after, ?_, effect, ?_, ?_, ?_, places⟩
  · simp only [Parser.reduce, onTop, performed, bind, Option.bind_some]
  · intro entry inside
    rcases List.mem_cons.mp inside with rfl | old
    · exact isKind
    · exact follows.typed entry (List.mem_of_mem_drop old)
  · rw [effect.vars]
    exact (liveAppend .expr [v] _).symm
  · rw [effect.stmts]
    exact (liveAppend .stmt [v] _).symm

theorem stepFollows {s next : Parser} {move : Move} (follows : Follows s)
    (stepped : step s move = some next) : Follows next := by
  cases move with
  | shiftToken token =>
    cases stepped
    exact shiftFollows follows rfl
  | shiftChar char =>
    cases stepped
    exact shiftFollows follows rfl
  | reduce index =>
    obtain ⟨p, found, reduced⟩ := Option.bind_eq_some_iff.mp stepped
    have member := List.mem_of_getElem? found
    cases onTop : s.handle p.rhs with
    | none =>
      simp only [Parser.reduce, onTop, bind, Option.bind_none] at reduced
      contradiction
    | some values =>
      obtain ⟨v, after, same, _, still⟩ := reduceFollows follows member onTop
      rw [reduced] at same
      cases Option.some.inj same
      exact still

theorem runFollows {moves : List Move} {s last : Parser} (follows : Follows s)
    (ran : run moves s = some last) : Follows last := by
  induction moves generalizing s with
  | nil =>
    cases ran
    exact follows
  | cons move moves ih =>
    obtain ⟨next, stepped, rest⟩ := Option.bind_eq_some_iff.mp ran
    exact ih (stepFollows follows stepped) rest

/- After a syntax error: every root was deleted once, and no node another node owns. -/
structure Cleared (c : PgsContext) : Prop where
  vars : c.vars = []
  stmts : c.stmts = []
  once : c.deleted.Nodup
  roots : ∀ node, node ∈ c.deleted ↔ node < c.next ∧ ∀ owner, (owner, node) ∉ c.owns

theorem clearStacksCleared {c : PgsContext} (places : Places c) : Cleared c.clearStacks := by
  have reordered : ((c.deleted ++ c.vars ++ c.stmts) ++ c.owns.map Prod.snd).Perm
      (List.range c.next) := by
    refine List.Perm.trans ?_ places
    rw [List.perm_iff_count]
    intro a
    simp only [List.count_append]
    omega
  have nodup := reordered.nodup_iff.mpr List.nodup_range
  obtain ⟨once, _, apart⟩ := List.nodup_append'.mp nodup
  refine ⟨rfl, rfl, once, fun node => ?_⟩
  have known : node ∈ (c.deleted ++ c.vars ++ c.stmts) ++ c.owns.map Prod.snd ↔ node < c.next :=
    reordered.mem_iff.trans List.mem_range
  constructor
  · intro deleted
    refine ⟨known.mp (List.mem_append_left _ deleted), fun owner owned => ?_⟩
    exact apart deleted (List.mem_map_of_mem owned)
  · rintro ⟨made, free⟩
    rcases List.mem_append.mp (known.mpr made) with deleted | owned
    · exact deleted
    · obtain ⟨⟨owner, kid⟩, member, rfl⟩ := List.mem_map.mp owned
      exact absurd member (free owner)

/-- In every state of every parse the context's stacks are the live values of the semantic stack
in order; a reduction pushes its own $$ and embeds what it pops; the stacks are empty once the
start symbol alone is left; and clearing them deletes every root once. -/
theorem stacksFollow (moves : List Move) (s : Parser) (ran : run moves .start = some s) :
    s.context.vars = live .expr (s.stack.map Prod.snd) ∧
    s.context.stmts = live .stmt (s.stack.map Prod.snd) ∧
    (∀ p ∈ grammar, ∀ values, s.handle p.rhs = some values →
      ∃ v after, s.reduce p = some ⟨(.n p.lhs, v) :: s.stack.drop p.rhs.length, after⟩ ∧
        NetEffect values v (live .expr ((s.stack.drop p.rhs.length).map Prod.snd))
          (live .stmt ((s.stack.drop p.rhs.length).map Prod.snd)) after) ∧
    (s.stack.map Prod.fst = [.n .translationUnit] → s.context.vars = [] ∧ s.context.stmts = []) ∧
    s.context.clearStacks.deleted = s.context.deleted ++ s.context.vars ++ s.context.stmts ∧
    Cleared s.context.clearStacks := by
  have follows := runFollows startFollows ran
  refine ⟨follows.vars, follows.stmts, ?_, ?_, rfl, clearStacksCleared follows.places⟩
  · intro p member values onTop
    obtain ⟨v, after, reduced, effect, _⟩ := reduceFollows follows member onTop
    exact ⟨v, after, reduced, effect⟩
  · intro whole
    obtain ⟨entry, only, isUnit⟩ := List.map_eq_singleton_iff.mp whole
    have isPlain : entry.2.kind = .plain := by
      rw [follows.typed entry (by rw [only]; exact List.mem_singleton_self _), isUnit]
      rfl
    rw [follows.vars, follows.stmts, only]
    exact ⟨liveOther (by rw [isPlain]; decide), liveOther (by rw [isPlain]; decide)⟩

/- PRINT INTEGER(1, 2); up to the reduction of the generator. -/
def printGenerator : List Move := [.shiftToken .pgsPrint, .shiftToken .pgsInteger, .shiftChar '(',
  .shiftToken .pgsValInt, .reduce 6, .reduce 12, .reduce 16, .reduce 22, .reduce 26, .reduce 29,
  .reduce 34, .reduce 38, .reduce 40, .reduce 42, .shiftChar ',', .shiftToken .pgsValInt, .reduce 6,
  .reduce 12, .reduce 16, .reduce 22, .reduce 26, .reduce 29, .reduce 34, .reduce 38, .reduce 40,
  .reduce 42, .shiftChar ')', .reduce 43]

theorem stacksFollowPrint : ∃ s, run printGenerator .start = some s ∧
    s.context.vars = live .expr (s.stack.map Prod.snd) := by
  have ran : ∃ s, run printGenerator .start = some s := ⟨_, rfl⟩
  obtain ⟨s, ran⟩ := ran
  exact ⟨s, ran, (stacksFollow printGenerator s ran).1⟩

end PgAdmin.PgsParser
