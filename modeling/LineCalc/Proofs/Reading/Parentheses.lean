import LineCalc.Proofs.Grammar.Parentheses
import LineCalc.Proofs.Reading.Path

/-!
# Open parentheses of a reading

The groups of a reading are the parentheses that are open in what has been read,
and its last token tells whether an operand has just ended.  The error with
which a reading stops depends on nothing else.
-/

namespace LineCalc

namespace Reading

def openedAt : Reading -> List Nat
  | .atOperand groups _ => groups.map OpenGroup.start
  | .atOperator groups _ _ => groups.map OpenGroup.start

def BehindOperand : Reading -> Prop
  | .atOperand _ _ => False
  | .atOperator _ _ _ => True

/-- The error with which a reading stops at a lexeme. -/
inductive Verdict : Reading -> Lexeme -> ParseError -> Prop where
  | undefined {groups : List OpenGroup} {context : OperandContext}
      {name : String} {span : Span} :
      Verdict (.atOperand groups context) ⟨.name name, span⟩
        (.undefinedVariable name span)
  | tooDeep {groups : List OpenGroup} {context : OperandContext} {limit : Nat}
      {span : Span} :
      Verdict (.atOperand groups context) ⟨.openParen, span⟩
        (.tooDeep limit span)
  | operand {groups : List OpenGroup} {context : OperandContext}
      {found : Lexeme} :
      Verdict (.atOperand groups context) found (.unexpected .operand found)
  | unclosed {group : OpenGroup} {outer : List OpenGroup}
      {sum : PendingSum} {term : Term} {found : Lexeme} :
      found.token = .endOfInput ->
      Verdict (.atOperator (group :: outer) sum term) found
        (.unclosedParen group.start found)
  | trailing {sum : PendingSum} {term : Term} {found : Lexeme} :
      found.token = .closeParen ->
      Verdict (.atOperator [] sum term) found (.trailingInput found)
  | continuation {groups : List OpenGroup} {sum : PendingSum} {term : Term}
      {found : Lexeme} :
      found.token ≠ .endOfInput ->
      found.token ≠ .closeParen ->
      Verdict (.atOperator groups sum term) found
        (.unexpected .continuation found)

variable {scope : Scope} {reading : Reading} {found : Lexeme}

/-!
## Where a reading stops
-/

theorem verdict_of_finish {failure : ParseFailure}
    (hended : found.token = .endOfInput)
    (h : reading.finish found = .error failure) :
    Verdict reading found failure.error := by
  cases reading with
  | atOperand groups context =>
      cases h
      exact .operand
  | atOperator groups sum term =>
      cases groups with
      | nil => cases h
      | cons group outer =>
          cases h
          exact .unclosed hended

theorem verdict_of_next {failure : ParseFailure}
    (hfound : found.token ≠ .endOfInput)
    (h : reading.next scope found = .error failure) :
    Verdict reading found failure.error := by
  rcases found with ⟨token, span⟩
  cases reading with
  | atOperand groups context =>
      cases token with
      | number value => cases h
      | name name =>
          simp only [next] at h
          split at h
          · cases h
          · cases h
            exact .undefined
      | openParen =>
          simp only [next] at h
          split at h
          · cases h
          · cases h
            exact .tooDeep
      | _ =>
          cases h
          exact .operand
  | atOperator groups sum term =>
      cases token with
      | operator op => cases op <;> cases h
      | closeParen =>
          cases groups with
          | nil =>
              cases h
              exact .trailing rfl
          | cons group outer => cases h
      | endOfInput => exact absurd rfl hfound
      | _ =>
          cases h
          exact .continuation (by simp) (by simp)

theorem verdict_of_stops {failure : ParseFailure}
    (h : Stops scope reading found failure) :
    Verdict reading found failure.error := by
  cases h with
  | atEnd hended hfinish => exact verdict_of_finish hended hfinish
  | within hfound hnext => exact verdict_of_next hfound hnext

namespace Verdict

variable {error : ParseError}

theorem unclosed_iff (h : Verdict reading found error) :
    (exists opened blamed, error = .unclosedParen opened blamed) <->
      found.token = .endOfInput ∧ reading.BehindOperand ∧
      reading.openedAt ≠ [] := by
  cases h <;> simp_all [BehindOperand, openedAt]

theorem trailing_iff (h : Verdict reading found error) :
    (exists blamed, error = .trailingInput blamed) <->
      found.token = .closeParen ∧ reading.BehindOperand ∧
      reading.openedAt = [] := by
  cases h <;> simp_all [BehindOperand, openedAt]

theorem of_unclosed {opened : Nat} {blamed : Lexeme}
    (h : Verdict reading found (.unclosedParen opened blamed)) :
    blamed = found ∧ reading.openedAt.head? = some opened := by
  cases h with
  | unclosed _ => exact ⟨rfl, rfl⟩

theorem of_trailing {blamed : Lexeme}
    (h : Verdict reading found (.trailingInput blamed)) :
    blamed = found := by
  cases h with
  | trailing _ => rfl

end Verdict

theorem allows_endOfInput_iff :
    reading.Allows .endOfInput <-> reading.BehindOperand ∧
      reading.openedAt = [] := by
  cases reading <;> simp [Allows, BehindOperand, openedAt]

/-!
## What has been read
-/

theorem Step.behindOperand_iff {after : Reading}
    (h : Step scope reading found after) :
    after.BehindOperand <-> found.token.EndsOperand := by
  cases h <;> simp [BehindOperand, Token.EndsOperand]

theorem Path.behindOperand_iff {first last : Reading} {read : List Lexeme}
    (h : Path scope first read last)
    (hfirst : ¬ first.BehindOperand ∨ read ≠ []) :
    last.BehindOperand <-> EndsWithOperand read := by
  unfold EndsWithOperand
  induction h with
  | nil reading => simpa using hfirst
  | @cons first middle last found read hstep hpath ih =>
      cases hpath with
      | nil => simpa using hstep.behindOperand_iff
      | cons hnext hmore =>
          simpa [List.getLast?_cons_cons] using
            ih (Or.inr (List.cons_ne_nil _ _))

def OpenedBy (reading : Reading) (stack : List Lexeme) : Prop :=
  reading.openedAt = stack.map fun opening => opening.span.start

theorem Step.leavesOpen {after : Reading} {read stack : List Lexeme}
    (h : Step scope reading found after) (hread : LeavesOpen read stack)
    (hstack : reading.OpenedBy stack) :
    exists stack, LeavesOpen (read ++ [found]) stack ∧
      after.OpenedBy stack := by
  cases h with
  | openParen _ =>
      refine ⟨_, hread.openParen rfl, ?_⟩
      unfold OpenedBy at hstack ⊢
      rw [List.map_cons, ← hstack]
      rfl
  | closeParen =>
      cases stack with
      | nil => cases hstack
      | cons opening outer =>
          refine ⟨outer, hread.closeParen rfl, ?_⟩
          unfold OpenedBy openedAt at hstack ⊢
          injection hstack
  | _ => exact ⟨stack, hread.other (by simp) (by simp), hstack⟩

theorem Path.leavesOpen {first last : Reading} {before read stack : List Lexeme}
    (h : Path scope first read last) (hbefore : LeavesOpen before stack)
    (hstack : first.OpenedBy stack) :
    exists stack, LeavesOpen (before ++ read) stack ∧ last.OpenedBy stack := by
  induction h generalizing before stack with
  | nil reading => exact ⟨stack, by simpa using hbefore, hstack⟩
  | cons hstep _ ih =>
      rcases hstep.leavesOpen hbefore hstack with ⟨middle, hmiddle, hopened⟩
      simpa using ih hmiddle hopened

end Reading

end LineCalc
