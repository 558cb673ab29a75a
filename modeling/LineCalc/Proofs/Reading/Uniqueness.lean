import LineCalc.Proofs.Reading.Acceptance

/-!
# Unique parse trees

Reading gives one tree for one token list, and it accepts the tokens of every
tree once all names are bound and parentheses may nest as deep as the line is
long.  So no two trees stand for the same tokens.
-/

namespace LineCalc

def Scope.permissive (tokens : List Token) : Scope where
  symbols := ⟨tokens.filterMap fun
    | .name name => some (name, 0)
    | _ => none⟩
  nextAddress := .ok 0
  maxDepth := tokens.length

theorem Scope.admits_permissive (tokens : List Token) :
    (Scope.permissive tokens).Admits 0 tokens := by
  constructor
  · intro name hname
    rw [SymbolTable.lookup?, List.lookup_isSome_iff]
    refine ⟨(name, 0), ?_, by simp⟩
    exact List.mem_filterMap.mpr ⟨.name name, hname, rfl⟩
  · exact nestsWithin_length tokens

def Token.unplaced (token : Token) : Lexeme :=
  ⟨token, ⟨0, 0⟩⟩

@[simp] theorem Token.token_unplaced (token : Token) :
    token.unplaced.token = token :=
  rfl

theorem map_token_unplaced (tokens : List Token) :
    (tokens.map Token.unplaced).map Lexeme.token = tokens := by
  rw [List.map_map]
  exact List.map_id tokens

theorem Reading.run_permissive {lexemes : List Lexeme} {e : Expression}
    (closing : Lexeme) (h : lexemes.map Lexeme.token = e.tokens) :
    Reading.start.run (Scope.permissive e.tokens) closing lexemes = .ok e := by
  apply Reading.run_start_eq_ok_iff.mpr
  refine ⟨?_, Scope.admits_permissive e.tokens⟩
  rw [h]
  exact (takeWhile_ne_endOfInput
    (endOfInput_notMem_of_derives (derives_tokens_expression e))).symm

theorem Expression.eq_of_tokens_eq {e f : Expression}
    (h : e.tokens = f.tokens) : e = f := by
  have hplain := map_token_unplaced e.tokens
  have he := Reading.run_permissive (Token.unplaced .endOfInput) hplain
  have hf :=
    Reading.run_permissive (Token.unplaced .endOfInput) (hplain.trans h)
  rw [← h, he] at hf
  injection hf

theorem Expression.define_notMem_tokens (e : Expression) :
    Token.define ∉ e.tokens :=
  define_notMem_of_derives (derives_tokens_expression e) (by simp)

/-- A line has one parse tree. -/
theorem Line.eq_of_tokens_eq {line other : Line}
    (h : line.tokens = other.tokens) :
    line = other := by
  rcases line with ⟨defined, body⟩
  rcases other with ⟨otherDefined, otherBody⟩
  cases defined with
  | none =>
      cases otherDefined with
      | none =>
          have hbody : body = otherBody := Expression.eq_of_tokens_eq h
          rw [hbody]
      | some name =>
          have hbody : body.tokens =
              .define :: .name name :: .equals :: otherBody.tokens := h
          exact absurd (by simp [hbody]) body.define_notMem_tokens
  | some name =>
      cases otherDefined with
      | none =>
          have hbody : .define :: .name name :: .equals :: body.tokens =
              otherBody.tokens := h
          exact absurd (by simp [← hbody]) otherBody.define_notMem_tokens
      | some otherName =>
          simp only [Line.tokens, List.cons.injEq, Token.name.injEq,
            true_and] at h
          rcases h with ⟨rfl, htokens⟩
          have hbody : body = otherBody := Expression.eq_of_tokens_eq htokens
          rw [hbody]

end LineCalc
