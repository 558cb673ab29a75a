import LineCalc.Proofs.Grammar.Continuation
import LineCalc.Proofs.Reading.Uniqueness

/-!
# Paths of reading

A path is a run of steps.  Every path from the start reads the beginning of some
sentence, and it goes on with exactly the tokens with which some sentence goes
on.  A run that fails is a path to a lexeme where the reading stops.
-/

namespace LineCalc

namespace Reading

inductive Path (scope : Scope) : Reading -> List Lexeme -> Reading -> Prop where
  | nil (reading : Reading) : Path scope reading [] reading
  | cons {first middle last : Reading} {found : Lexeme} {read : List Lexeme} :
      Step scope first found middle ->
      Path scope middle read last ->
      Path scope first (found :: read) last

inductive Stops (scope : Scope) (reading : Reading) (found : Lexeme)
    (failure : ParseFailure) : Prop where
  | atEnd :
      found.token = .endOfInput ->
      reading.finish found = .error failure ->
      Stops scope reading found failure
  | within :
      found.token ≠ .endOfInput ->
      reading.next scope found = .error failure ->
      Stops scope reading found failure

variable {scope : Scope}

/-!
## What a step does
-/

namespace Step

variable {reading after : Reading} {found : Lexeme}

theorem allows (h : Step scope reading found after) :
    reading.Allows found.token := by
  cases h <;> simp [Allows]

theorem token_ne_endOfInput (h : Step scope reading found after) :
    found.token ≠ .endOfInput := by
  cases h <;> simp

theorem depth (h : Step scope reading found after) :
    after.depth + [found.token].count .closeParen =
      reading.depth + [found.token].count .openParen := by
  cases h <;> simp [Reading.depth]

theorem depth_le (h : Step scope reading found after)
    (hdepth : reading.depth ≤ scope.maxDepth) :
    after.depth ≤ scope.maxDepth := by
  cases h with
  | openParen hroom => exact hroom
  | closeParen => exact Nat.le_of_succ_le hdepth
  | _ => exact hdepth

theorem unique {other : Scope} {elsewhere : Reading}
    (h : Step scope reading found after)
    (hother : Step other reading found elsewhere) : elsewhere = after := by
  cases h <;> cases hother <;> rfl

end Step

theorem not_allows_define (reading : Reading) : ¬ reading.Allows .define := by
  cases reading <;> simp [Allows]

theorem not_allows_equals (reading : Reading) : ¬ reading.Allows .equals := by
  cases reading <;> simp [Allows]

theorem exists_step_of_allows {reading : Reading} {found : Lexeme}
    (h : reading.Allows found.token) (hfound : found.token ≠ .endOfInput) :
    exists (wide : Scope) (after : Reading), Step wide reading found after := by
  rcases found with ⟨token, span⟩
  cases reading with
  | atOperand groups context =>
      cases token with
      | number value => exact ⟨⟨.empty, .ok 0, 0⟩, _, .number⟩
      | name name =>
          refine ⟨⟨⟨[(name, 0)]⟩, .ok 0, 0⟩, _, .name ?_⟩
          simp [SymbolTable.lookup?, List.lookup_cons_self]
      | openParen =>
          exact ⟨⟨.empty, .ok 0, groups.length + 1⟩, _,
            .openParen (Nat.lt_succ_self _)⟩
      | _ => exact absurd h (by simp [Allows])
  | atOperator groups sum term =>
      cases token with
      | operator op =>
          cases op with
          | additive op => exact ⟨⟨.empty, .ok 0, 0⟩, _, .additive⟩
          | multiplicative op => exact ⟨⟨.empty, .ok 0, 0⟩, _, .multiplicative⟩
      | closeParen =>
          cases groups with
          | nil => exact absurd rfl h
          | cons group outer => exact ⟨⟨.empty, .ok 0, 0⟩, _, .closeParen⟩
      | endOfInput => exact absurd rfl hfound
      | _ => exact absurd h (by simp [Allows])

/-!
## What a path does
-/

namespace Path

variable {first last : Reading} {read : List Lexeme}

theorem tokens (h : Path scope first read last) :
    last.tokens = first.tokens ++ read.map Lexeme.token := by
  induction h with
  | nil reading => simp
  | cons hstep _ ih => simp [ih, hstep.tokens]

theorem depth (h : Path scope first read last) :
    last.depth + (read.map Lexeme.token).count .closeParen =
      first.depth + (read.map Lexeme.token).count .openParen := by
  induction h with
  | nil reading => rfl
  | cons hstep _ ih =>
      have hfirst := hstep.depth
      simp only [List.map_cons, List.count_cons, List.count_nil,
        Nat.zero_add] at hfirst ⊢
      omega

theorem depth_le (h : Path scope first read last)
    (hdepth : first.depth ≤ scope.maxDepth) :
    last.depth ≤ scope.maxDepth := by
  induction h with
  | nil reading => exact hdepth
  | cons hstep _ ih => exact ih (hstep.depth_le hdepth)

theorem define_notMem (h : Path scope first read last) :
    .define ∉ read.map Lexeme.token := by
  induction h with
  | nil reading => simp
  | cons hstep _ ih =>
      intro hmem
      rcases List.mem_cons.mp hmem with hfound | hread
      · exact not_allows_define _ (hfound ▸ hstep.allows)
      · exact ih hread

theorem step_of_append {found : Lexeme} {before after : List Lexeme}
    (h : Path scope first (before ++ found :: after) last) :
    exists reading next, Path scope first before reading ∧
      Step scope reading found next := by
  induction before generalizing first with
  | nil =>
      cases h with
      | cons hstep _ => exact ⟨first, _, .nil first, hstep⟩
  | cons earlier before ih =>
      cases h with
      | cons hstep hpath =>
          rcases ih hpath with ⟨reading, next, hbefore, hnext⟩
          exact ⟨reading, next, .cons hstep hbefore, hnext⟩

theorem run_eq_ok {other : Scope} {closing : Lexeme} {more : List Lexeme}
    {e : Expression} (h : Path scope first read last)
    (hrun : first.run other closing (read ++ more) = .ok e) :
    last.run other closing more = .ok e := by
  induction h with
  | nil reading => exact hrun
  | @cons first middle last found read hstep _ ih =>
      rw [List.cons_append, run, if_neg hstep.token_ne_endOfInput] at hrun
      cases hnext : first.next other found with
      | error failure =>
          rw [hnext] at hrun
          cases hrun
      | ok after =>
          rw [hnext, hstep.unique (next_eq_ok_iff.mp hnext)] at hrun
          exact ih hrun

end Path

/-!
## Where a run stops
-/

theorem refusal_of_stops {reading : Reading} {found : Lexeme}
    {failure : ParseFailure} (h : Stops scope reading found failure) :
    Refusal scope reading found failure.error := by
  cases h with
  | atEnd hended hfinish => exact refusal_of_finish hended hfinish
  | within hfound hnext => exact refusal_of_next hfound hnext

theorem path_of_run_eq_error {closing : Lexeme} {first : Reading}
    {lexemes : List Lexeme} {failure : ParseFailure}
    (hclosing : closing.token = .endOfInput)
    (h : first.run scope closing lexemes = .error failure) :
    exists read found unread last,
      lexemes ++ [closing] = read ++ found :: unread ∧
      Path scope first read last ∧ Stops scope last found failure := by
  induction lexemes generalizing first with
  | nil => exact ⟨[], closing, [], first, rfl, .nil first, .atEnd hclosing h⟩
  | cons found rest ih =>
      rw [run] at h
      split at h
      · rename_i hended
        exact ⟨[], found, rest ++ [closing], first, rfl, .nil first,
          .atEnd hended h⟩
      · rename_i hfound
        cases hnext : first.next scope found with
        | error other =>
            rw [hnext] at h
            cases h
            exact ⟨[], found, rest ++ [closing], first, rfl, .nil first,
              .within hfound hnext⟩
        | ok after =>
            rw [hnext] at h
            rcases ih h with ⟨read, stop, unread, last, hlexemes, hpath, hstops⟩
            exact ⟨found :: read, stop, unread, last, by simp [hlexemes],
              .cons (next_eq_ok_iff.mp hnext) hpath, hstops⟩

theorem run_eq_error_of_path {closing found : Lexeme} {first last : Reading}
    {lexemes read unread : List Lexeme} {failure : ParseFailure}
    (hclosing : closing.token = .endOfInput)
    (hlexemes : lexemes ++ [closing] = read ++ found :: unread)
    (hpath : Path scope first read last)
    (hstops : Stops scope last found failure) :
    first.run scope closing lexemes = .error failure := by
  induction hpath generalizing lexemes with
  | nil reading =>
      cases lexemes with
      | nil =>
          cases hlexemes
          cases hstops with
          | atEnd _ hfinish => exact hfinish
          | within hfound _ => exact absurd hclosing hfound
      | cons earlier rest =>
          cases hlexemes
          cases hstops with
          | atEnd hended hfinish => rw [run, if_pos hended, hfinish]
          | within hfound hnext => rw [run, if_neg hfound, hnext]
  | cons hstep _ ih =>
      cases lexemes with
      | nil => simp at hlexemes
      | cons earlier rest =>
          injection hlexemes with hearlier hrest
          rw [hearlier, run, if_neg hstep.token_ne_endOfInput,
            next_eq_ok_iff.mpr hstep]
          exact ih hrest hstops

/-- A run fails exactly if it is a path to a lexeme where the reading stops. -/
theorem run_eq_error_iff {closing : Lexeme} {first : Reading}
    {lexemes : List Lexeme} {failure : ParseFailure}
    (hclosing : closing.token = .endOfInput) :
    first.run scope closing lexemes = .error failure <->
      exists read found unread last,
        lexemes ++ [closing] = read ++ found :: unread ∧
        Path scope first read last ∧ Stops scope last found failure := by
  constructor
  · exact path_of_run_eq_error hclosing
  · intro h
    rcases h with ⟨read, found, unread, last, hlexemes, hpath, hstops⟩
    exact run_eq_error_of_path hclosing hlexemes hpath hstops

/-!
## Paths and sentences
-/

theorem exists_completion (reading : Reading) :
    exists (rest : List Token) (e : Expression),
      e.tokens = reading.tokens ++ rest := by
  have hoperator : forall groups sum term,
      exists (rest : List Token) (e : Expression),
      e.tokens = (atOperator groups sum term).tokens ++ rest := by
    intro groups
    induction groups with
    | nil =>
        intro sum term
        exact ⟨[], sum.complete term,
          by simp [Reading.tokens, OpenGroup.tokens]⟩
    | cons group outer ih =>
        intro sum term
        have hstep :
            Step ⟨.empty, .ok 0, 0⟩ (atOperator (group :: outer) sum term)
            (Token.unplaced .closeParen) _ := .closeParen
        rcases ih group.outside.sum
          (group.outside.product.complete (.group (sum.complete term))) with
            ⟨rest, e, he⟩
        exact ⟨.closeParen :: rest, e, by simp [he, hstep.tokens]⟩
  cases reading with
  | atOperand groups context =>
      have hstep : Step ⟨.empty, .ok 0, 0⟩ (atOperand groups context)
          (Token.unplaced (.number .nan)) _ := .number
      rcases hoperator groups context.sum
        (context.product.complete (.number .nan)) with ⟨rest, e, he⟩
      exact ⟨.number .nan :: rest, e, by simp [he, hstep.tokens]⟩
  | atOperator groups sum term => exact hoperator groups sum term

theorem allows_of_finish {reading : Reading} {found : Lexeme} {e : Expression}
    (h : reading.finish found = .ok e) : reading.Allows .endOfInput := by
  cases reading with
  | atOperand groups context => cases h
  | atOperator groups sum term =>
      cases groups with
      | nil => exact rfl
      | cons group outer => cases h

theorem exists_expression_of_allows {reading : Reading}
    (h : reading.Allows .endOfInput) :
    exists e : Expression, e.tokens = reading.tokens := by
  cases reading with
  | atOperand groups context => exact absurd h (by simp [Allows])
  | atOperator groups sum term =>
      have hgroups : groups = [] := h
      exact ⟨sum.complete term,
        by simp [hgroups, Reading.tokens, OpenGroup.tokens]⟩

theorem begins_of_path {read : List Lexeme} {reading : Reading}
    (h : Path scope start read reading) :
    Rule.expression.Begins (read.map Lexeme.token) := by
  rcases reading.exists_completion with ⟨rest, e, he⟩
  refine ⟨rest, ?_⟩
  have hread : reading.tokens = read.map Lexeme.token := by simpa using h.tokens
  rw [← hread, ← he]
  exact derives_tokens_expression e

theorem allows_of_continues {read : List Lexeme} {reading : Reading}
    {token : Token} (h : Path scope start read reading)
    (hcontinues : Rule.expression.Continues (read.map Lexeme.token) token) :
    reading.Allows token := by
  -- The sentence is read along the same path in a scope that admits all of it,
  -- so there the reading goes on with the token, and what it allows is the same
  -- in every scope.
  by_cases hended : token = .endOfInput
  · subst token
    rcases hasTree_of_derives hcontinues with ⟨e, he⟩
    have hrun := run_permissive (Token.unplaced .endOfInput) he.symm
    rw [← List.append_nil read] at hrun
    have hfinish := h.run_eq_ok hrun
    exact allows_of_finish hfinish
  · rcases (Rule.continues_iff_of_ne hended).mp hcontinues with ⟨rest, hrest⟩
    rcases hasTree_of_derives hrest with ⟨e, he⟩
    have hlexemes :
        (read ++ (token :: rest).map Token.unplaced).map Lexeme.token =
          e.tokens := by
      rw [List.map_append, map_token_unplaced, he]
    have hrun :=
      h.run_eq_ok (run_permissive (Token.unplaced .endOfInput) hlexemes)
    rw [List.map_cons, run, Token.token_unplaced, if_neg hended] at hrun
    cases hnext : reading.next (Scope.permissive e.tokens) token.unplaced with
    | error failure =>
        rw [hnext] at hrun
        cases hrun
    | ok after => exact (next_eq_ok_iff.mp hnext).allows

theorem continues_of_allows {read : List Lexeme} {reading : Reading}
    {token : Token} (h : Path scope start read reading)
    (hallows : reading.Allows token) :
    Rule.expression.Continues (read.map Lexeme.token) token := by
  have hread : reading.tokens = read.map Lexeme.token := by simpa using h.tokens
  by_cases hended : token = .endOfInput
  · subst token
    rcases exists_expression_of_allows hallows with ⟨e, he⟩
    rw [← hread, ← he]
    exact derives_tokens_expression e
  · have hfound : reading.Allows token.unplaced.token := hallows
    rcases exists_step_of_allows hfound hended with ⟨wide, after, hstep⟩
    rcases after.exists_completion with ⟨rest, e, he⟩
    apply (Rule.continues_iff_of_ne hended).mpr
    refine ⟨rest, ?_⟩
    rw [hstep.tokens, hread, List.append_assoc] at he
    have hderives := derives_tokens_expression e
    rw [he] at hderives
    exact hderives

/-- The tokens that a reading allows are those with which some expression goes
on. -/
theorem continues_iff_allows {read : List Lexeme} {reading : Reading}
    {token : Token} (h : Path scope start read reading) :
    Rule.expression.Continues (read.map Lexeme.token) token <->
      reading.Allows token :=
  ⟨allows_of_continues h, continues_of_allows h⟩

end Reading

end LineCalc
