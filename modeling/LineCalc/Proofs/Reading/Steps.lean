import LineCalc.Tree.Tokens

/-!
# Steps of reading

A reading goes on with a token in one of six ways, and there are three reasons
for which it does not.  Which tokens it allows depends on the reading alone;
whether names are bound and parentheses may be opened depends on the scope.
-/

namespace LineCalc

namespace Reading

inductive Step (scope : Scope) : Reading -> Lexeme -> Reading -> Prop where
  | number {groups : List OpenGroup} {context : OperandContext}
      {value : Binary64} {span : Span} :
      Step scope (.atOperand groups context) ⟨.number value, span⟩
        (.atOperator groups context.sum (context.product.complete (.number value)))
  | name {groups : List OpenGroup} {context : OperandContext} {name : String}
      {span : Span} :
      (scope.symbols.lookup? name).isSome ->
      Step scope (.atOperand groups context) ⟨.name name, span⟩
        (.atOperator groups context.sum (context.product.complete (.name name)))
  | openParen {groups : List OpenGroup} {context : OperandContext}
      {span : Span} :
      groups.length < scope.maxDepth ->
      Step scope (.atOperand groups context) ⟨.openParen, span⟩
        (.atOperand (⟨span.start, context⟩ :: groups) .start)
  | multiplicative {groups : List OpenGroup} {sum : PendingSum} {term : Term}
      {op : Multiplicative} {span : Span} :
      Step scope (.atOperator groups sum term)
        ⟨.operator (.multiplicative op), span⟩
        (.atOperand groups ⟨sum, some (term, op)⟩)
  | additive {groups : List OpenGroup} {sum : PendingSum} {term : Term}
      {op : Additive} {span : Span} :
      Step scope (.atOperator groups sum term) ⟨.operator (.additive op), span⟩
        (.atOperand groups ⟨some (sum.complete term, op), none⟩)
  | closeParen {group : OpenGroup} {outer : List OpenGroup}
      {sum : PendingSum} {term : Term} {span : Span} :
      Step scope (.atOperator (group :: outer) sum term) ⟨.closeParen, span⟩
        (.atOperator outer group.outside.sum
          (group.outside.product.complete (.group (sum.complete term))))

/-- The tokens with which a reading can go on, and whether it may end. -/
def Allows : Reading -> Token -> Prop
  | .atOperand _ _, .number _ => True
  | .atOperand _ _, .name _ => True
  | .atOperand _ _, .openParen => True
  | .atOperator _ _ _, .operator _ => True
  | .atOperator groups _ _, .closeParen => groups ≠ []
  | .atOperator groups _ _, .endOfInput => groups = []
  | _, _ => False

inductive Refusal (scope : Scope) :
    Reading -> Lexeme -> ParseError -> Prop where
  | undefined {groups : List OpenGroup} {context : OperandContext}
      {name : String} {span : Span} :
      scope.symbols.lookup? name = none ->
      Refusal scope (.atOperand groups context) ⟨.name name, span⟩
        (.undefinedVariable name span)
  | tooDeep {groups : List OpenGroup} {context : OperandContext} {span : Span} :
      scope.maxDepth ≤ groups.length ->
      Refusal scope (.atOperand groups context) ⟨.openParen, span⟩
        (.tooDeep scope.maxDepth span)
  | illegal {reading : Reading} {found : Lexeme} {error : ParseError} :
      ¬ reading.Allows found.token ->
      error.illegal? = some found ->
      Refusal scope reading found error

variable {scope : Scope} {reading : Reading} {found : Lexeme}

theorem next_eq_ok_iff {after : Reading} :
    reading.next scope found = .ok after <->
      Step scope reading found after := by
  constructor
  · intro h
    rcases found with ⟨token, span⟩
    cases reading with
    | atOperand groups context =>
        cases token with
        | number value =>
            cases h
            exact .number
        | name name =>
            simp only [next] at h
            split at h
            · rename_i address hlookup
              cases h
              exact .name (by rw [hlookup]; rfl)
            · cases h
        | openParen =>
            simp only [next] at h
            split at h
            · rename_i hdepth
              cases h
              exact .openParen hdepth
            · cases h
        | _ => cases h
    | atOperator groups sum term =>
        cases token with
        | operator op =>
            cases op <;> cases h
            · exact .additive
            · exact .multiplicative
        | closeParen =>
            cases groups with
            | nil => cases h
            | cons group outer =>
                cases h
                exact .closeParen
        | _ => cases h
  · intro h
    cases h with
    | number => rfl
    | name hbound =>
        rcases Option.isSome_iff_exists.mp hbound with ⟨address, hlookup⟩
        simp only [next, hlookup]
    | openParen hdepth => simp only [next, hdepth, ↓reduceIte]
    | multiplicative => rfl
    | additive => rfl
    | closeParen => rfl

/-!
## Where a reading stops
-/

theorem refusal_of_next {failure : ParseFailure}
    (hfound : found.token ≠ .endOfInput)
    (h : reading.next scope found = .error failure) :
    Refusal scope reading found failure.error := by
  rcases found with ⟨token, span⟩
  cases reading with
  | atOperand groups context =>
      cases token with
      | number value => cases h
      | name name =>
          simp only [next] at h
          split at h
          · cases h
          · rename_i hlookup
            cases h
            exact .undefined hlookup
      | openParen =>
          simp only [next] at h
          split at h
          · cases h
          · rename_i hdepth
            cases h
            exact .tooDeep (Nat.not_lt.mp hdepth)
      | _ =>
          cases h
          exact .illegal (by simp [Allows]) rfl
  | atOperator groups sum term =>
      cases token with
      | operator op => cases op <;> cases h
      | closeParen =>
          cases groups with
          | nil =>
              cases h
              exact .illegal (by simp [Allows]) rfl
          | cons group outer => cases h
      | endOfInput => exact absurd rfl hfound
      | _ =>
          cases h
          exact .illegal (by simp [Allows]) rfl

theorem refusal_of_finish {failure : ParseFailure}
    (hfound : found.token = .endOfInput)
    (h : reading.finish found = .error failure) :
    Refusal scope reading found failure.error := by
  cases reading with
  | atOperand groups context =>
      cases h
      exact .illegal (by simp [Allows, hfound]) rfl
  | atOperator groups sum term =>
      cases groups with
      | nil => cases h
      | cons group outer =>
          cases h
          exact .illegal (by simp [Allows, hfound]) rfl

/-!
## What has been read
-/

@[simp] theorem tokens_start : start.tokens = [] :=
  rfl

theorem Step.tokens {after : Reading} (h : Step scope reading found after) :
    after.tokens = reading.tokens ++ [found.token] := by
  cases h <;>
    simp [Reading.tokens, OpenGroup.tokens, OperandContext.tokens,
      OperandContext.start, PendingSum.tokens, PendingProduct.tokens,
      Factor.tokens]

theorem tokens_finish {e : Expression} (h : reading.finish found = .ok e) :
    e.tokens = reading.tokens := by
  cases reading with
  | atOperand groups context => cases h
  | atOperator groups sum term =>
      cases groups with
      | nil =>
          cases h
          simp [Reading.tokens, OpenGroup.tokens]
      | cons group outer => cases h

theorem tokens_run {closing : Lexeme} {rest : List Lexeme} {e : Expression}
    (h : reading.run scope closing rest = .ok e) :
    e.tokens = reading.tokens ++
      (rest.map Lexeme.token).takeWhile (· ≠ .endOfInput) := by
  induction rest generalizing reading with
  | nil => simpa using tokens_finish h
  | cons found rest ih =>
      rw [run] at h
      split at h
      · rename_i hended
        simpa [hended] using tokens_finish h
      · rename_i hfound
        cases hnext : reading.next scope found with
        | error failure =>
            rw [hnext] at h
            cases h
        | ok after =>
            rw [hnext] at h
            simp [ih h, (next_eq_ok_iff.mp hnext).tokens, hfound]

end Reading

end LineCalc
