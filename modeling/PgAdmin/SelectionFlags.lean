import PgAdmin.DrawingEditor

/-! Which steps of the editor keep the flags of the figures and the selections of the diagrams in
agreement. A step keeps it exactly under a condition on the state before, so a run keeps it in each
of its states exactly if each of its steps meets its condition. -/
namespace PgAdmin.hdDrawingEditor
open State

variable {F : Type} [DecidableEq F] {s next : State F} {d : hdDrawing F} {f : F} {i j : ℕ}
  {selected selected' : F → List Bool} {new : F → ℕ}

/- A diagram and the flags the figures have for it. -/
structure Sound (selected : F → List Bool) (i : ℕ) (d : hdDrawing F) : Prop where
  index : d.idx = i
  flags : ∀ f, (selected f).getD i false = true ↔ f ∈ d.selection
  once : d.selection.Nodup
  shown : ∀ f ∈ d.selection, f ∈ d.figures

def Agrees (s : State F) : Prop := ∀ i d, s.diagrams[i]? = some d → Sound s.selected i d

section Flags

omit [DecidableEq F] in
theorem soundCongr (same : ∀ f, (selected f).getD i false = (selected' f).getD i false) :
    Sound selected i d ↔ Sound selected' i d :=
  ⟨fun h => ⟨h.index, fun f => same f ▸ h.flags f, h.once, h.shown⟩,
    fun h => ⟨h.index, fun f => (same f).symm ▸ h.flags f, h.once, h.shown⟩⟩

theorem setSelectedFlag (s : State F) (f g : F) (i j : ℕ) (value : Bool) :
    (s.setSelected f i value).isSelected g j =
      if g = f ∧ j = i ∧ i < (s.selected f).length then value else s.isSelected g j := by
  by_cases same : g = f
  · subst same
    simp only [isSelected, setSelected, Function.update_self, List.getD_eq_getElem?_getD,
      List.getElem?_set, true_and]
    by_cases here : i = j
    · subst here
      by_cases inside : i < (s.selected g).length
      · simp [inside]
      · simp [inside]
    · rw [if_neg here, if_neg fun both => here both.1.symm]
  · rw [if_neg fun both => same both.1]
    simp [isSelected, setSelected, Function.update_of_ne same]

theorem clearFlag (s : State F) (f g : F) (i j : ℕ) :
    (s.setSelected f i false).isSelected g j = if g = f ∧ j = i then false else s.isSelected g j := by
  rw [setSelectedFlag]
  by_cases here : g = f ∧ j = i
  · obtain ⟨rfl, rfl⟩ := here
    by_cases inside : j < (s.selected g).length
    · simp [inside]
    · simp [inside, isSelected]
  · rw [if_neg here, if_neg fun both => here ⟨both.1, both.2.1⟩]

theorem addPosFlag (s : State F) (f g : F) (j : ℕ) :
    (s.AddPosForNewDiagram f).isSelected g j = s.isSelected g j := by
  by_cases same : g = f
  · subst same
    simp only [isSelected, AddPosForNewDiagram, Function.update_self, List.getD_eq_getElem?_getD]
    rcases Nat.lt_trichotomy j (s.selected g).length with inside | rfl | outside
    · rw [List.getElem?_append_left inside]
    · simp
    · rw [List.getElem?_append_right (Nat.le_of_lt outside), List.getElem?_eq_none (Nat.le_of_lt outside)]
      simp [Nat.sub_ne_zero_of_lt outside]
  · simp [isSelected, AddPosForNewDiagram, Function.update_of_ne same]

omit [DecidableEq F] in
theorem foldKeeps {X : Type} (step : State F → X → State F) (xs : List X)
    (diagrams : ∀ s x, (step s x).diagrams = s.diagrams)
    (flags : ∀ s x g j, (step s x).isSelected g j = s.isSelected g j) (s : State F) :
    (xs.foldl step s).diagrams = s.diagrams ∧
      ∀ g j, (xs.foldl step s).isSelected g j = s.isSelected g j := by
  induction xs generalizing s with
  | nil => exact ⟨rfl, fun _ _ => rfl⟩
  | cons x xs ih =>
    obtain ⟨same, kept⟩ := ih (step s x)
    exact ⟨same.trans (diagrams s x), fun g j => (kept g j).trans (flags s x g j)⟩

end Flags

section Frames

omit [DecidableEq F] in
theorem agreesOn (agrees : Agrees s) (flagged : State F) (change : hdDrawing F → hdDrawing F)
    (diagrams : flagged.diagrams = s.diagrams)
    (flags : ∀ f j, j ≠ i → flagged.isSelected f j = s.isSelected f j) :
    Agrees (flagged.onDiagram i change) ↔
      ∀ d, s.diagrams[i]? = some d → Sound flagged.selected i (change d) := by
  constructor
  · intro after d here
    refine after i _ ?_
    rw [onDiagram, diagrams, List.getElem?_modify_eq, here]
    rfl
  · intro sound j d here
    rw [onDiagram, diagrams] at here
    by_cases same : i = j
    · subst same
      rw [List.getElem?_modify_eq] at here
      obtain ⟨d, before, rfl⟩ := Option.map_eq_some_iff.mp here
      exact sound d before
    · rw [List.getElem?_modify_ne _ _ same] at here
      exact (soundCongr fun f => flags f j fun h => same h.symm).mpr (agrees j d here)

omit [DecidableEq F] in
theorem withDiagrams {diagrams : List (hdDrawing F)} (same : s.diagrams = diagrams) :
    { s with diagrams := diagrams } = s := by
  rw [← same]

omit [DecidableEq F] in
theorem visitedDiagrams (asks : hdDrawing F → Bool) (change : hdDrawing F → hdDrawing F)
    (s : State F) :
    (List.range s.diagrams.length).foldl (fun s i =>
      if (s.diagrams[i]?.any asks) = true then s.onDiagram i change else s) s =
        { s with diagrams := s.diagrams.map fun d => if asks d = true then change d else d } := by
  have upTo : ∀ n, (List.range n).foldl (fun s i =>
      if (s.diagrams[i]?.any asks) = true then s.onDiagram i change else s) s =
        { s with diagrams := s.diagrams.mapIdx fun i d =>
          if i < n ∧ asks d = true then change d else d } := by
    intro n
    induction n with
    | zero =>
      refine (withDiagrams (List.ext_getElem? fun i => ?_)).symm
      simp
    | succ n ih =>
      rw [List.range_succ, List.foldl_append, ih]
      have each : ∀ (t : State F), t.diagrams = (s.diagrams.mapIdx fun i d =>
          if i < n ∧ asks d = true then change d else d) →
          (if (t.diagrams[n]?.any asks) = true then t.onDiagram n change else t) =
            { t with diagrams := s.diagrams.mapIdx fun i d =>
              if i < n + 1 ∧ asks d = true then change d else d } := by
        intro t same
        have here : t.diagrams[n]? = s.diagrams[n]? := by
          rw [same, List.getElem?_mapIdx]
          cases s.diagrams[n]? <;> simp
        have next : (if (t.diagrams[n]?.any asks) = true then t.diagrams.modify n change
            else t.diagrams) = s.diagrams.mapIdx fun i d =>
              if i < n + 1 ∧ asks d = true then change d else d := by
          refine List.ext_getElem? fun i => ?_
          rw [here, List.getElem?_mapIdx]
          by_cases own : i = n
          · subst own
            cases found : s.diagrams[i]? with
            | none => simp [here, found]
            | some d => by_cases asked : asks d = true <;> simp [here, found, asked]
          · have later : i < n + 1 ↔ i < n := by omega
            have unchanged : (if (s.diagrams[n]?.any asks) = true then t.diagrams.modify n change
                else t.diagrams)[i]? = t.diagrams[i]? := by
              split
              · exact List.getElem?_modify_ne _ _ fun h => own h.symm
              · rfl
            rw [unchanged, same, List.getElem?_mapIdx]
            simp only [later]
        rw [← next]
        split
        · rfl
        · rfl
      exact each _ rfl
  rw [upTo]
  congr 1
  refine List.ext_getElem? fun i => ?_
  rw [List.getElem?_mapIdx, List.getElem?_map]
  cases here : s.diagrams[i]? with
  | none => rfl
  | some d =>
    have inside := (List.getElem?_eq_some_iff.mp here).1
    simp [inside]

end Frames

section Steps

theorem createAgrees (agrees : Agrees s) (fromXml : Bool) :
    Agrees (s.createDiagram fromXml) ↔ ∀ f, s.isSelected f s.diagrams.length = false := by
  have flags : ∀ g j, (s.createDiagram fromXml).isSelected g j = s.isSelected g j := by
    intro g j
    cases fromXml with
    | true => rfl
    | false => exact (foldKeeps AddPosForNewDiagram s.model (fun _ _ => rfl) addPosFlag s).2 g j
  constructor
  · intro after f
    have last := after s.diagrams.length ⟨s.diagrams.length, [], []⟩ List.getElem?_concat_length
    refine Bool.eq_false_iff.mpr fun set => ?_
    exact absurd ((last.flags f).mp ((flags f _).trans set)) List.not_mem_nil
  · intro unset j d here
    refine (soundCongr fun g => (flags g j).symm).mp ?_
    change (s.diagrams ++ [_])[j]? = some d at here
    by_cases old : j < s.diagrams.length
    · rw [List.getElem?_append_left old] at here
      exact agrees j d here
    · rw [List.getElem?_append_right (Nat.le_of_not_lt old)] at here
      obtain ⟨within, same⟩ := List.getElem?_eq_some_iff.mp here
      obtain rfl : j = s.diagrams.length := by
        rw [List.length_singleton] at within
        omega
      rw [List.getElem_singleton] at same
      subst same
      exact ⟨rfl, fun g => iff_of_false (Bool.eq_false_iff.mp (unset g)) List.not_mem_nil,
        List.nodup_nil, fun g member => absurd member List.not_mem_nil⟩

theorem deleteAgrees (agrees : Agrees s) (i : ℕ) : Agrees (s.deleteDiagram i) ↔
    ∀ f j, i ≤ j → j + 1 < s.diagrams.length → s.isSelected f j = s.isSelected f (j + 1) := by
  have kept := foldKeeps (RemovePosOfDiagram i) s.model (fun _ _ => rfl) (fun s x g j => rfl)
    { s with diagrams := (s.diagrams.eraseIdx i).mapIdx fun j d =>
      if i ≤ j then { d with idx := j } else d }
  have diagrams : ∀ j, (s.deleteDiagram i).diagrams[j]? = if j < i then s.diagrams[j]? else
      s.diagrams[j + 1]?.map fun d => { d with idx := j } := by
    intro j
    rw [deleteDiagram, kept.1, List.getElem?_mapIdx, List.getElem?_eraseIdx]
    by_cases before : j < i
    · rw [if_pos before, if_pos before]
      cases here : s.diagrams[j]? with
      | none => rfl
      | some d => simp [Nat.not_le_of_lt before]
    · rw [if_neg before, if_neg before]
      simp [Nat.le_of_not_lt before]
  have flags : ∀ g j, (s.deleteDiagram i).isSelected g j = s.isSelected g j := kept.2
  constructor
  · intro after f j from' within
    obtain ⟨d, here⟩ : ∃ d, s.diagrams[j + 1]? = some d :=
      ⟨_, List.getElem?_eq_getElem within⟩
    have shifted := (diagrams j).trans (if_neg (Nat.not_lt_of_le from'))
    rw [here] at shifted
    have own := (after j _ shifted).flags f
    have old := (agrees (j + 1) d here).flags f
    rw [Bool.eq_iff_iff]
    exact (iff_of_eq (congrArg (· = true) (flags f j))).symm.trans (own.trans old.symm)
  · intro same j d here
    refine (soundCongr fun g => (flags g j).symm).mp ?_
    rw [diagrams] at here
    by_cases before : j < i
    · rw [if_pos before] at here
      exact agrees j d here
    · rw [if_neg before] at here
      obtain ⟨d, next, rfl⟩ := Option.map_eq_some_iff.mp here
      have sound := agrees (j + 1) d next
      have within := (List.getElem?_eq_some_iff.mp next).1
      refine ⟨rfl, fun g => ?_, sound.once, sound.shown⟩
      have shifted := same g j (Nat.le_of_not_lt before) within
      rw [isSelected, isSelected] at shifted
      rw [shifted]
      exact sound.flags g

omit [DecidableEq F] in
theorem addAgrees (agrees : Agrees s) (i : ℕ) (f : F) : Agrees (s.add i f) := by
  refine (agreesOn agrees s _ rfl fun _ _ _ => rfl).mpr fun d here => ?_
  have sound := agrees i d here
  exact ⟨sound.index, sound.flags, sound.once, fun g member =>
    List.mem_append_left _ (sound.shown g member)⟩

theorem addDiagramAgrees (agrees : Agrees s) (i : ℕ) (f : F) : Agrees (s.addDiagramFigure i f) := by
  rw [addDiagramFigure]
  refine addAgrees ?_ i f
  split
  · exact agrees
  · have kept := foldKeeps (fun s _ => s.AddPosForNewDiagram f)
      (List.range (s.diagrams.length - s.countPositions f)) (fun _ _ => rfl)
      (fun s _ g j => addPosFlag s f g j) (s.addModelFigure f)
    intro j d here
    rw [kept.1] at here
    exact (soundCongr fun g => (kept.2 g j)).mpr (agrees j d here)

theorem removeAgrees (agrees : Agrees s) (i : ℕ) (f : F) : Agrees (s.remove i f) ↔
    ∀ d, s.diagrams[i]? = some d → f ∈ d.selection → f ∈ d.figures.erase f := by
  rw [remove, agreesOn agrees s _ rfl fun _ _ _ => rfl]
  refine forall₂_congr fun d here => ?_
  have sound := agrees i d here
  constructor
  · exact fun after member => after.shown f member
  · intro kept
    refine ⟨sound.index, sound.flags, sound.once, fun g member => ?_⟩
    by_cases same : g = f
    · subst same
      exact kept member
    · exact (List.mem_erase_of_ne same).mpr (sound.shown g member)

omit [DecidableEq F] in
theorem soundAdded (sound : Sound selected i d)
    (others : ∀ g, g ≠ f → (selected' g).getD i false = (selected g).getD i false) :
    Sound selected' i { d with selection := d.selection ++ [f] } ↔
      f ∉ d.selection ∧ f ∈ d.figures ∧ (selected' f).getD i false = true := by
  have last : f ∈ d.selection ++ [f] := List.mem_append_right _ (List.mem_singleton_self f)
  constructor
  · intro after
    have once := List.nodup_append.mp after.once
    exact ⟨fun member => once.2.2 f member f (List.mem_singleton_self f) rfl,
      after.shown f last, (after.flags f).mpr last⟩
  · rintro ⟨fresh, figure, flag⟩
    refine ⟨sound.index, fun g => ?_, ?_, fun g member => ?_⟩
    · rw [List.mem_append, List.mem_singleton]
      by_cases same : g = f
      · subst same
        exact iff_of_true flag (.inr rfl)
      · rw [others g same, sound.flags g]
        exact ⟨.inl, fun either => either.resolve_right same⟩
    · refine List.nodup_append.mpr ⟨sound.once, List.nodup_singleton f, fun g member h single => ?_⟩
      rw [List.mem_singleton.mp single]
      rintro rfl
      exact fresh member
    · rcases List.mem_append.mp member with before | single
      · exact sound.shown g before
      · exact List.mem_singleton.mp single ▸ figure

theorem soundErased (sound : Sound selected i d) (unset : (selected' f).getD i false = false)
    (others : ∀ g, g ≠ f → (selected' g).getD i false = (selected g).getD i false) :
    Sound selected' i { d with selection := d.selection.erase f } := by
  refine ⟨sound.index, fun g => ?_, sound.once.erase f, fun g member =>
    sound.shown g (List.mem_of_mem_erase member)⟩
  by_cases same : g = f
  · subst same
    exact iff_of_false (fun set => nomatch unset.symm.trans set) sound.once.not_mem_erase
  · rw [others g same, sound.flags g]
    exact (List.mem_erase_of_ne same).symm

theorem addToSelectionAgrees (agrees : Agrees s) (i : ℕ) (f : F) :
    Agrees (s.addToSelection i f) ↔ ∀ d, s.diagrams[i]? = some d →
      f ∉ d.selection ∧ f ∈ d.figures ∧ i < (s.selected f).length := by
  rw [addToSelection]
  cases here : s.diagrams[i]? with
  | none => exact iff_of_true agrees fun d found => nomatch found
  | some d =>
    have sound := agrees i d here
    have index := sound.index
    subst index
    rw [agreesOn agrees (s.setSelected f d.idx true) _ rfl fun g j other => ?_, here]
    · simp only [Option.some.injEq, forall_eq']
      rw [soundAdded sound fun g other => ?_]
      · refine and_congr_right fun fresh => and_congr_right fun _ => ?_
        have flag := setSelectedFlag s f f d.idx d.idx true
        rw [isSelected] at flag
        rw [flag]
        by_cases inside : d.idx < (s.selected f).length
        · simp [inside]
        · have unset : s.isSelected f d.idx ≠ true := fun set => fresh ((sound.flags f).mp set)
          simp [inside, unset]
      · have flag := setSelectedFlag s f g d.idx d.idx true
        rw [if_neg fun both => other both.1] at flag
        exact flag
    · rw [setSelectedFlag, if_neg fun both => other both.2.1]

theorem removeFromSelectionAgrees (agrees : Agrees s) (i : ℕ) (f : F) :
    Agrees (s.removeFromSelection i f) := by
  rw [removeFromSelection]
  cases here : s.diagrams[i]? with
  | none => exact agrees
  | some d =>
    have sound := agrees i d here
    have index := sound.index
    subst index
    refine (agreesOn agrees (s.setSelected f d.idx false) _ rfl fun g j other => ?_).mpr ?_
    · rw [clearFlag, if_neg fun both => other both.2]
    · intro d' found
      cases here.symm.trans found
      refine soundErased sound ?_ fun g other => ?_
      · exact (clearFlag s f f d.idx d.idx).trans (if_pos ⟨rfl, rfl⟩)
      · exact (clearFlag s f g d.idx d.idx).trans (if_neg fun both => other both.1)

theorem toggleAgrees (agrees : Agrees s) (i : ℕ) (f : F) :
    Agrees (s.toggleSelection i f) ↔ ∀ d, s.diagrams[i]? = some d →
      f ∈ d.selection ∨ (f ∈ d.figures ↔ i < (s.selected f).length) := by
  rw [toggleSelection]
  cases here : s.diagrams[i]? with
  | none => exact iff_of_true agrees fun d found => nomatch found
  | some d =>
    have sound := agrees i d here
    have index := sound.index
    subst index
    simp only [Option.some.injEq, forall_eq']
    by_cases member : f ∈ d.selection
    · have set : s.isSelected f d.idx = true := (sound.flags f).mpr member
      refine iff_of_true ?_ (.inl member)
      have removed := removeFromSelectionAgrees agrees d.idx f
      rw [removeFromSelection, here] at removed
      rw [if_pos ⟨set, member⟩, set]
      exact removed
    · have unset : s.isSelected f d.idx = false :=
        Bool.eq_false_iff.mpr fun set => member ((sound.flags f).mp set)
      rw [if_neg fun both => member both.2, unset]
      by_cases figure : f ∈ d.figures
      · have added := addToSelectionAgrees agrees d.idx f
        rw [addToSelection, here] at added
        rw [if_pos ⟨rfl, figure⟩]
        refine added.trans ?_
        simp [member, figure]
      · rw [if_neg fun both => figure both.2]
        have same : Agrees (s.setSelected f d.idx true) ↔
            Sound (s.setSelected f d.idx true).selected d.idx d := by
          have on := agreesOn agrees (s.setSelected f d.idx true) id rfl fun g j other => by
            rw [setSelectedFlag, if_neg fun both => other both.2.1]
          rw [onDiagram, List.modify_id, here] at on
          simpa using on
        have flag := setSelectedFlag s f f d.idx d.idx true
        rw [isSelected] at flag
        rw [show Agrees (s.setSelected f d.idx (!false)) ↔ _ from same]
        simp only [member, figure, false_or, false_iff]
        constructor
        · intro after inside
          refine member ((after.flags f).mp ?_)
          rw [flag, if_pos ⟨rfl, rfl, inside⟩]
        · intro outside
          refine (soundCongr fun g => ?_).mp sound
          refine ((setSelectedFlag s f g d.idx d.idx true).trans (if_neg fun both => ?_)).symm
          exact outside both.2.2

theorem clearAgrees (agrees : Agrees s) (i : ℕ) : Agrees (s.clearSelection i) := by
  rw [clearSelection]
  cases here : s.diagrams[i]? with
  | none => exact agrees
  | some d =>
    have sound := agrees i d here
    have index := sound.index
    subst index
    -- After the loop the figures it went through have no flag here, and nothing else is changed.
    have loop : ∀ (figures : List F) (t : State F),
        (figures.foldl (fun s f => s.setSelected f d.idx false) t).diagrams = t.diagrams ∧
        ∀ g j, (figures.foldl (fun s f => s.setSelected f d.idx false) t).isSelected g j =
          if g ∈ figures ∧ j = d.idx then false else t.isSelected g j := by
      intro figures
      induction figures with
      | nil => exact fun t => ⟨rfl, fun g j => by simp⟩
      | cons f figures ih =>
        intro t
        obtain ⟨diagrams, flags⟩ := ih (t.setSelected f d.idx false)
        refine ⟨diagrams, fun g j => ?_⟩
        rw [List.foldl_cons, flags, clearFlag]
        by_cases own : g = f <;> by_cases index : j = d.idx <;> simp [own, index]
    obtain ⟨diagrams, flags⟩ := loop d.selection s
    refine (agreesOn agrees _ _ diagrams fun g j other => ?_).mpr ?_
    · rw [flags, if_neg fun both => other both.2]
    · intro d' found
      cases here.symm.trans found
      refine ⟨rfl, fun g => iff_of_false ?_ List.not_mem_nil, List.nodup_nil, fun g member =>
        absurd member List.not_mem_nil⟩
      intro set
      have flag := (flags g d.idx).symm.trans set
      by_cases member : g ∈ d.selection
      · rw [if_pos ⟨member, rfl⟩] at flag
        exact nomatch flag
      · rw [if_neg fun both => member both.1] at flag
        exact member ((sound.flags g).mp flag)

omit [DecidableEq F] in
theorem removeAllAgrees (agrees : Agrees s) (i : ℕ) : Agrees (s.removeAllFigures i) ↔
    ∀ d, s.diagrams[i]? = some d → d.selection = [] := by
  rw [removeAllFigures, agreesOn agrees s _ rfl fun _ _ _ => rfl]
  refine forall₂_congr fun d here => ?_
  have sound := agrees i d here
  constructor
  · exact fun after => List.eq_nil_iff_forall_not_mem.mpr fun g member =>
      absurd ((after.flags g).mp ((sound.flags g).mpr member)) List.not_mem_nil
  · intro none
    exact ⟨sound.index, fun g => none ▸ sound.flags g, List.nodup_nil, fun g member =>
      absurd member List.not_mem_nil⟩

omit [DecidableEq F] in
theorem diagramsEmptied (s : State F) : s.removeAllDiagramsFigures =
    { s with diagrams := s.diagrams.map fun d => { d with figures := [], selection := [] } } := by
  have each : (removeAllFigures : State F → ℕ → State F) = fun s i =>
      if (s.diagrams[i]?.any fun _ => true) = true then
        s.onDiagram i fun d => { d with figures := [], selection := [] } else s := by
    funext s i
    rw [removeAllFigures]
    cases here : s.diagrams[i]? with
    | some d => rfl
    | none => exact withDiagrams (List.modify_eq_self (List.getElem?_eq_none_iff.mp here)).symm
  rw [removeAllDiagramsFigures, each, visitedDiagrams]
  simp only [if_true]

omit [DecidableEq F] in
theorem removeAllDiagramsAgrees (agrees : Agrees s) : Agrees s.removeAllDiagramsFigures ↔
    ∀ d ∈ s.diagrams, d.selection = [] := by
  rw [diagramsEmptied]
  constructor
  · intro after d member
    obtain ⟨i, here⟩ := List.getElem?_of_mem member
    have sound := after i { d with figures := [], selection := [] } (by simp [here])
    exact List.eq_nil_iff_forall_not_mem.mpr fun g selects =>
      absurd ((sound.flags g).mp (((agrees i d here).flags g).mpr selects)) List.not_mem_nil
  · intro none i d here
    rw [List.getElem?_map] at here
    obtain ⟨d, before, rfl⟩ := Option.map_eq_some_iff.mp here
    have sound := agrees i d before
    exact ⟨sound.index, fun g => none d (List.mem_of_getElem? before) ▸ sound.flags g,
      List.nodup_nil, fun g member => absurd member List.not_mem_nil⟩

theorem removeFromAllAgrees (agrees : Agrees s) (f : F) : Agrees (s.removeFromAllSelections f) := by
  have loop : ∀ (is : List ℕ) (t : State F), Agrees t → Agrees (is.foldl (fun s i =>
      if (s.diagrams[i]?.any fun d => decide (f ∈ d.selection)) = true then s.removeFromSelection i f
      else s) t) := by
    intro is
    induction is with
    | nil => exact fun t agrees => agrees
    | cons i is ih =>
      intro t agrees
      rw [List.foldl_cons]
      refine ih _ ?_
      split
      · exact removeFromSelectionAgrees agrees i f
      · exact agrees
  exact loop _ s agrees

theorem madeFlag (s : State F) (f g : F) (j : ℕ) :
    (s.made new f).isSelected g j = if g = f then false else s.isSelected g j := by
  by_cases same : g = f
  · subst same
    simp only [made, isSelected, Function.update_self, if_true, List.getD_eq_getElem?_getD,
      List.getElem?_replicate]
    split <;> rfl
  · simp [made, isSelected, same]

theorem deleteFigureAgrees (agrees : Agrees s) (f : F) : Agrees (s.deleteModelFigure new f) ↔
    ∀ d ∈ s.diagrams, f ∉ d.selection := by
  have visited := visitedDiagrams (fun d : hdDrawing F => decide (f ∈ d.figures))
    (fun d => { d with figures := d.figures.erase f }) s
  have diagrams : ∀ i : ℕ, (s.deleteModelFigure new f).diagrams[i]? =
      s.diagrams[i]?.map fun d : hdDrawing F => { d with figures := d.figures.erase f } := by
    intro i
    simp only [deleteModelFigure, remove, visited, made, List.getElem?_map, decide_eq_true_eq]
    congr 1
    funext d
    split
    · rfl
    · rename_i absent
      rw [List.erase_of_not_mem absent]
  have flags : ∀ g j, (s.deleteModelFigure new f).isSelected g j =
      if g = f then false else s.isSelected g j := by
    intro g j
    simp only [deleteModelFigure, remove, visited]
    exact madeFlag _ f g j
  constructor
  · intro after d member selects
    obtain ⟨i, here⟩ := List.getElem?_of_mem member
    have sound := after i { d with figures := d.figures.erase f } (by rw [diagrams, here]; rfl)
    have set := (sound.flags f).mpr selects
    exact nomatch ((flags f i).trans (if_pos rfl)).symm.trans set
  · intro unselected i d here
    rw [diagrams] at here
    obtain ⟨d, before, rfl⟩ := Option.map_eq_some_iff.mp here
    have sound := agrees i d before
    have absent := unselected d (List.mem_of_getElem? before)
    refine ⟨sound.index, fun g => ?_, sound.once, fun g member => ?_⟩
    · have flag := flags g i
      rw [isSelected] at flag
      rw [flag]
      by_cases same : g = f
      · subst same
        simp [absent]
      · rw [if_neg same]
        exact sound.flags g
    · exact (List.mem_erase_of_ne fun same : g = f => absent (same ▸ member)).mpr
        (sound.shown g member)

theorem deleteAllAgrees (agrees : Agrees s) : Agrees (s.deleteAllModelFigures new) ↔
    ∀ d ∈ s.diagrams, ∀ f ∈ d.selection, f ∈ s.model := by
  have loop : ∀ (figures : List F) (t : State F), (figures.foldl (made new) t).diagrams = t.diagrams ∧
      ∀ g j, (figures.foldl (made new) t).isSelected g j =
        if g ∈ figures then false else t.isSelected g j := by
    intro figures
    induction figures with
    | nil => exact fun t => ⟨rfl, fun g j => by simp⟩
    | cons f figures ih =>
      intro t
      obtain ⟨diagrams, flags⟩ := ih (t.made new f)
      refine ⟨diagrams, fun g j => ?_⟩
      rw [List.foldl_cons, flags, madeFlag]
      by_cases own : g = f <;> simp [own]
  obtain ⟨diagrams, flags⟩ := loop s.model s.removeAllDiagramsFigures
  have here : ∀ i : ℕ, (s.deleteAllModelFigures new).diagrams[i]? =
      s.diagrams[i]?.map fun d : hdDrawing F => { d with figures := [], selection := [] } := by
    intro i
    rw [deleteAllModelFigures, diagramsEmptied]
    rw [diagramsEmptied] at diagrams
    rw [diagrams, List.getElem?_map]
  have flags' : ∀ g j, (s.deleteAllModelFigures new).isSelected g j =
      if g ∈ s.model then false else s.isSelected g j := by
    intro g j
    rw [deleteAllModelFigures, diagramsEmptied]
    rw [diagramsEmptied] at flags
    exact flags g j
  constructor
  · intro after d member f selects
    obtain ⟨i, before⟩ := List.getElem?_of_mem member
    have sound := after i { d with figures := [], selection := [] } (by rw [here, before]; rfl)
    by_contra absent
    have set := (flags' f i).trans (if_neg absent)
    exact absurd ((sound.flags f).mp (set.trans (((agrees i d before).flags f).mpr selects)))
      List.not_mem_nil
  · intro inModel i d found
    rw [here] at found
    obtain ⟨d, before, rfl⟩ := Option.map_eq_some_iff.mp found
    have sound := agrees i d before
    refine ⟨sound.index, fun g => iff_of_false ?_ List.not_mem_nil, List.nodup_nil, fun g member =>
      absurd member List.not_mem_nil⟩
    intro set
    have flag := (flags' g i).symm.trans set
    by_cases member : g ∈ s.model
    · rw [if_pos member] at flag
      exact nomatch flag
    · rw [if_neg member] at flag
      exact member (inModel d (List.mem_of_getElem? before) g ((sound.flags g).mp flag))

end Steps

section Outside

theorem setSelectedLength (s : State F) (f g : F) (i : ℕ) (value : Bool) :
    ((s.setSelected f i value).selected g).length = (s.selected g).length := by
  by_cases same : g = f
  · subst same
    simp [setSelected]
  · simp [setSelected, Function.update_of_ne same]

omit [DecidableEq F] in
theorem foldOutside {X : Type} (step : State F → X → State F) (each : ∀ s x, (step s x).outside = s.outside)
    (xs : List X) (s : State F) : (xs.foldl step s).outside = s.outside := by
  induction xs generalizing s with
  | nil => rfl
  | cons x xs ih => exact (ih (step s x)).trans (each s x)

omit [DecidableEq F] in
theorem flagThere (set : (selected f).getD i false = true) : i < (selected f).length := by
  by_contra behind
  rw [List.getD_eq_getElem?_getD, List.getElem?_eq_none (Nat.le_of_not_lt behind)] at set
  exact nomatch set

omit [DecidableEq F] in
theorem writtenWithin (agrees : Agrees s) (none : s.diagrams[i]? = none → next.outside = s.outside)
    (some_ : ∀ d, s.diagrams[i]? = some d →
      next.outside = (s.outside || decide ((s.selected f).length ≤ d.idx))) :
    next.outside = false ↔ s.outside = false ∧ ∀ d, s.diagrams[i]? = some d → i < (s.selected f).length := by
  cases here : s.diagrams[i]? with
  | none =>
    rw [none here]
    exact (and_iff_left fun d found => nomatch found).symm
  | some d =>
    rw [some_ d here, (agrees i d here).index]
    simp

theorem unselectWithin (agrees : Agrees s) (i : ℕ) (f : F) : (s.removeFromSelection i f).outside = false ↔
    s.outside = false ∧ ∀ d, s.diagrams[i]? = some d → i < (s.selected f).length :=
  writtenWithin agrees (fun none => by rw [removeFromSelection, none]) fun d here => by
    rw [removeFromSelection, here]
    rfl

theorem selectWithin (agrees : Agrees s) (i : ℕ) (f : F) : (s.addToSelection i f).outside = false ↔
    s.outside = false ∧ ∀ d, s.diagrams[i]? = some d → i < (s.selected f).length :=
  writtenWithin agrees (fun none => by rw [addToSelection, none]) fun d here => by
    rw [addToSelection, here]
    rfl

theorem toggleWithin (agrees : Agrees s) (i : ℕ) (f : F) : (s.toggleSelection i f).outside = false ↔
    s.outside = false ∧ ∀ d, s.diagrams[i]? = some d → i < (s.selected f).length :=
  writtenWithin agrees (fun none => by rw [toggleSelection, none]) fun d here => by
    rw [toggleSelection, here]
    dsimp only
    split_ifs <;> rfl

theorem clearOutside (agrees : Agrees s) (i : ℕ) : (s.clearSelection i).outside = s.outside := by
  rw [clearSelection]
  cases here : s.diagrams[i]? with
  | none => rfl
  | some d =>
    have sound := agrees i d here
    -- The loop leaves the number of flags, so each figure still selected has one here.
    have loop : ∀ (figures : List F) (t : State F), (∀ f ∈ figures, d.idx < (t.selected f).length) →
        (figures.foldl (fun s f => s.setSelected f d.idx false) t).outside = t.outside := by
      intro figures
      induction figures with
      | nil => exact fun t there => rfl
      | cons f figures ih =>
        intro t there
        rw [List.foldl_cons, ih _ fun g member => by
          rw [setSelectedLength]
          exact there g (List.mem_cons_of_mem f member)]
        have inside := there f List.mem_cons_self
        simp [setSelected, Nat.not_le_of_lt inside]
    exact loop d.selection s fun f member => by
      rw [sound.index]
      exact flagThere ((sound.flags f).mpr member)

theorem unselectAllOutside (agrees : Agrees s) (f : F) : (s.removeFromAllSelections f).outside = s.outside := by
  have loop : ∀ (is : List ℕ) (t : State F), Agrees t → (is.foldl (fun s i =>
      if (s.diagrams[i]?.any fun d => decide (f ∈ d.selection)) = true then s.removeFromSelection i f
      else s) t).outside = t.outside := by
    intro is
    induction is with
    | nil => exact fun t agrees => rfl
    | cons i is ih =>
      intro t agrees
      rw [List.foldl_cons]
      split
      case isTrue listed =>
        rw [ih _ (removeFromSelectionAgrees agrees i f)]
        obtain ⟨d, here, member⟩ := (Option.any_eq_true ..).mp listed
        have there : i < (t.selected f).length :=
          flagThere (((agrees i d here).flags f).mpr (of_decide_eq_true member))
        have within := unselectWithin agrees i f
        rw [and_iff_left fun d' found => there] at within
        exact Bool.eq_iff_iff.mpr (by simpa using not_congr within)
      case isFalse => exact ih t agrees
  exact loop _ s agrees

theorem deleteFigureOutside (s : State F) (f : F) : (s.deleteModelFigure new f).outside = s.outside := by
  show ((List.range s.diagrams.length).foldl (fun s i =>
    if (s.diagrams[i]?.any fun d => decide (f ∈ d.figures)) = true then s.remove i f else s) s).outside = _
  refine foldOutside _ (fun s i => ?_) _ s
  split <;> rfl

end Outside

section Runs

/- Flags and selections agree, and no flag was written that is not there. -/
def Kept (s : State F) : Prop := s.outside = false ∧ Agrees s

/- What a step needs to keep the agreement. -/
def Keeps (s : State F) : Op F → Prop
  | .createDiagram _ => ∀ f, s.isSelected f s.diagrams.length = false
  | .deleteDiagram i =>
    ∀ f j, i ≤ j → j + 1 < s.diagrams.length → s.isSelected f j = s.isSelected f (j + 1)
  | .removeDiagramFigure i f =>
    ∀ d, s.diagrams[i]? = some d → f ∈ d.selection → f ∈ d.figures.erase f
  | .deleteModelFigure f => ∀ d ∈ s.diagrams, f ∉ d.selection
  | .addToSelection i f => ∀ d, s.diagrams[i]? = some d →
    f ∉ d.selection ∧ f ∈ d.figures ∧ i < (s.selected f).length
  | .removeFromSelection i f => ∀ d, s.diagrams[i]? = some d → i < (s.selected f).length
  | .toggleSelection i f => ∀ d, s.diagrams[i]? = some d →
    f ∈ d.selection ∨ f ∈ d.figures ∧ i < (s.selected f).length
  | .removeAllFigures i => ∀ d, s.diagrams[i]? = some d → d.selection = []
  | .removeAllDiagramsFigures => ∀ d ∈ s.diagrams, d.selection = []
  | .deleteAllModelFigures => ∀ d ∈ s.diagrams, ∀ f ∈ d.selection, f ∈ s.model
  | .addModelFigure _ | .addDiagramFigure _ _ | .clearSelection _ | .removeFromAllSelections _ => True

omit [DecidableEq F] in
theorem keptIff {within agrees : Prop} (kept : Kept s) (same : next.outside = false ↔ s.outside = false ∧ within)
    (after : Agrees next ↔ agrees) : Kept next ↔ within ∧ agrees := by
  rw [Kept, same, and_iff_right kept.1, after]

omit [DecidableEq F] in
theorem keptSame {agrees : Prop} (kept : Kept s) (same : next.outside = s.outside)
    (after : Agrees next ↔ agrees) : Kept next ↔ agrees := by
  rw [Kept, same, and_iff_right kept.1, after]

theorem toggleKept (kept : Kept s) (i : ℕ) (f : F) :
    Kept (s.toggleSelection i f) ↔ Keeps s (.toggleSelection i f) := by
  refine (keptIff kept (toggleWithin kept.2 i f) (toggleAgrees kept.2 i f)).trans ?_
  rw [← forall_and]
  refine forall_congr' fun d => ?_
  rw [← imp_and]
  refine imp_congr_right fun here => ?_
  have there : f ∈ d.selection → i < (s.selected f).length := fun member =>
    flagThere (((kept.2 i d here).flags f).mpr member)
  tauto

theorem stepKept (kept : Kept s) (op : Op F) : Kept (s.step new op) ↔ Keeps s op := by
  have agrees := kept.2
  cases op with
  | createDiagram fromXml =>
    refine keptSame kept ?_ (createAgrees agrees fromXml)
    cases fromXml
    · exact foldOutside AddPosForNewDiagram (fun _ _ => rfl) s.model s
    · rfl
  | deleteDiagram i =>
    exact keptSame kept (foldOutside (RemovePosOfDiagram i) (fun _ _ => rfl) s.model _) (deleteAgrees agrees i)
  | addModelFigure f => exact iff_of_true kept trivial
  | addDiagramFigure i f =>
    refine keptSame kept ?_ (iff_of_true (addDiagramAgrees agrees i f) trivial)
    rw [State.step, addDiagramFigure]
    split
    · rfl
    · exact foldOutside (fun s _ => s.AddPosForNewDiagram f) (fun _ _ => rfl) _ _
  | removeDiagramFigure i f => exact keptSame kept rfl (removeAgrees agrees i f)
  | deleteModelFigure f =>
    exact keptSame kept (deleteFigureOutside s f) (deleteFigureAgrees agrees f)
  | addToSelection i f =>
    refine (keptIff kept (selectWithin agrees i f) (addToSelectionAgrees agrees i f)).trans ?_
    exact and_iff_right_of_imp fun selects d here => (selects d here).2.2
  | removeFromSelection i f =>
    exact (keptIff kept (unselectWithin agrees i f)
      (iff_of_true (removeFromSelectionAgrees agrees i f) trivial)).trans (and_iff_left trivial)
  | toggleSelection i f => exact toggleKept kept i f
  | clearSelection i => exact keptSame kept (clearOutside agrees i) (iff_of_true (clearAgrees agrees i) trivial)
  | removeFromAllSelections f =>
    exact keptSame kept (unselectAllOutside agrees f) (iff_of_true (removeFromAllAgrees agrees f) trivial)
  | removeAllFigures i => exact keptSame kept rfl (removeAllAgrees agrees i)
  | removeAllDiagramsFigures =>
    exact keptSame kept (foldOutside removeAllFigures (fun _ _ => rfl) _ s) (removeAllDiagramsAgrees agrees)
  | deleteAllModelFigures =>
    refine keptSame kept ?_ (deleteAllAgrees agrees)
    exact (foldOutside (made new) (fun _ _ => rfl) _ _).trans (foldOutside removeAllFigures (fun _ _ => rfl) _ s)

/- Each step meets its condition in the state that the steps before it lead to. -/
def EachKeeps (new : F → ℕ) (ops : List (Op F)) : Prop :=
  ∀ before op after, ops = before ++ op :: after → Keeps (run new before) op

theorem runSnoc (ops : List (Op F)) (op : Op F) : run new (ops ++ [op]) = (run new ops).step new op := by
  rw [run, List.foldl_append]
  rfl

def twoDiagrams : List (Op ℕ) :=
  [.createDiagram false, .createDiagram false, .addDiagramFigure 0 7, .addDiagramFigure 1 7,
    .addToSelection 1 7, .deleteDiagram 0]

end Runs

end PgAdmin.hdDrawingEditor
