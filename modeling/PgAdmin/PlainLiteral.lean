import PgAdmin.SqlLiteral

/-! A text put between quotes as it is. It is read as itself just where there is nothing to escape. -/
namespace PgAdmin.SqlLiteral
open PgsObjects (Text)

def between (value : Text) : Text := '\'' :: value ++ ['\'']

theorem readShorter {escapes : Bool} {s value rest : Text} (read : readBody escapes s = some (value, rest)) :
    value.length + rest.length + 1 ≤ s.length ∧
      (value.length + rest.length + 1 = s.length → '\'' ∉ value ∧ (escapes = false ∨ '\\' ∉ value)) := by
  induction s using readBody.induct escapes generalizing value with
  | case1 => cases read
  | case2 s ih =>
    obtain ⟨⟨v, r⟩, inner, same⟩ := Option.map_eq_some_iff.mp read
    cases same
    have shorter := (ih inner).1
    simp only [List.length_cons]
    exact ⟨by omega, fun equal => by omega⟩
  | case3 s closes =>
    rw [readBody.eq_3 _ _ closes] at read
    cases read
    exact ⟨by simp, fun _ => ⟨List.not_mem_nil, .inr List.not_mem_nil⟩⟩
  | case4 c s escape ih =>
    rw [readBody.eq_4, if_pos escape] at read
    obtain ⟨d, -, read⟩ := Option.bind_eq_some_iff.mp read
    obtain ⟨⟨v, r⟩, inner, same⟩ := Option.map_eq_some_iff.mp read
    cases same
    have shorter := (ih inner).1
    simp only [List.length_cons]
    exact ⟨by omega, fun equal => by omega⟩
  | case5 c s escape ih =>
    rw [readBody.eq_4, if_neg escape] at read
    obtain ⟨⟨v, r⟩, inner, same⟩ := Option.map_eq_some_iff.mp read
    cases same
    obtain ⟨shorter, exact_⟩ := ih inner
    simp only [List.length_cons] at shorter exact_ ⊢
    refine ⟨by omega, fun equal => ⟨?_, .inl (by simpa using escape)⟩⟩
    have quote := (exact_ (by omega)).1
    simpa using quote
  | case6 c s pair quote backslash ih =>
    rw [readBody.eq_5 _ _ _ pair quote backslash] at read
    obtain ⟨⟨v, r⟩, inner, same⟩ := Option.map_eq_some_iff.mp read
    cases same
    obtain ⟨shorter, exact_⟩ := ih inner
    simp only [List.length_cons] at shorter exact_ ⊢
    refine ⟨by omega, fun equal => ?_⟩
    obtain ⟨free, plain⟩ := exact_ (by omega)
    refine ⟨by simp [free, Ne.symm quote], plain.imp_right fun absent => ?_⟩
    have other : c ≠ '\\' := by
      rintro rfl
      cases s with
      | nil => cases inner
      | cons d s => exact backslash d s rfl rfl
    simp [absent, Ne.symm other]

theorem readPlain {escapes : Bool} {value : Text} (quote : '\'' ∉ value) (escape : escapes = false ∨ '\\' ∉ value) :
    readBody escapes (value ++ ['\'']) = some (value, []) := by
  induction value with
  | nil => rfl
  | cons c value ih =>
    rw [List.mem_cons, not_or] at quote
    have rest := ih quote.2 (escape.imp_right fun absent member => absent (List.mem_cons_of_mem _ member))
    rw [List.cons_append]
    by_cases backslash : c = '\\'
    · subst backslash
      have off : escapes = false := escape.resolve_right fun absent => absent List.mem_cons_self
      subst off
      obtain ⟨c, s, same⟩ := List.exists_cons_of_ne_nil (show value ++ ['\''] ≠ [] by simp)
      rw [same] at rest ⊢
      simp [readBody, rest]
    · simp [readBody, rest, backslash, Ne.symm quote.1]

def Unescaped (server : Server) (value : Text) : Prop := '\'' ∉ value ∧ (server.conforming = true ∨ '\\' ∉ value)

theorem readBetween {server : Server} {value : Text} :
    read server (between value) = some (value, []) ↔ Unescaped server value := by
  have off : (!server.conforming) = false ↔ server.conforming = true := by simp
  rw [Unescaped, ← off]
  constructor
  · intro read
    exact (readShorter (show readBody (!server.conforming) (value ++ ['\'']) = some (value, []) from read)).2 (by simp)
  · exact fun plain => readPlain plain.1 plain.2

theorem readWhole (server : Server) (value : Text) : read server (qtDbString server value) = some (value, []) := by
  have whole := @readQtDbString server value [] (by simp)
  rwa [List.append_nil] at whole

end PgAdmin.SqlLiteral
