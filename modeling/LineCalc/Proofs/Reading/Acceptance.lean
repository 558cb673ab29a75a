import LineCalc.Proofs.Grammar.Nesting
import LineCalc.Proofs.Reading.Steps

/-!
# Expressions that are read

Reading accepts the token lists of expressions whose names are bound and whose
parentheses nest as deep as allowed, and gives back the tree.  One direction
goes along the run, step by step; the other one along the tree, whose tokens
take the run from a context to that context with the tree put in.
-/

namespace LineCalc

/-- The names among the tokens are bound, and the tokens nest as deep as allowed
where `depth` parentheses are open in front of them. -/
structure Scope.Admits (scope : Scope) (depth : Nat)
    (tokens : List Token) : Prop where
  bound : forall name, .name name ∈ tokens ->
    (scope.symbols.lookup? name).isSome
  nests : NestsWithin (scope.maxDepth - depth) tokens

namespace Scope

theorem admits_nil (scope : Scope) (depth : Nat) : scope.Admits depth [] := by
  constructor
  · intro name hname
    cases hname
  · exact nestsWithin_nil _

theorem admits_append {scope : Scope} {depth : Nat} {left right : List Token}
    (hleft : left.count .openParen = left.count .closeParen) :
    scope.Admits depth (left ++ right) <->
      scope.Admits depth left ∧ scope.Admits depth right := by
  constructor
  · intro h
    rcases (nestsWithin_append hleft).mp h.nests with ⟨hnestsLeft, hnestsRight⟩
    constructor
    · exact ⟨fun name hname => h.bound name (List.mem_append_left _ hname),
        hnestsLeft⟩
    · exact ⟨fun name hname => h.bound name (List.mem_append_right _ hname),
        hnestsRight⟩
  · intro h
    rcases h with ⟨hadmitsLeft, hadmitsRight⟩
    constructor
    · intro name hname
      rcases List.mem_append.mp hname with hname | hname
      · exact hadmitsLeft.bound name hname
      · exact hadmitsRight.bound name hname
    · exact (nestsWithin_append hleft).mpr
        ⟨hadmitsLeft.nests, hadmitsRight.nests⟩

theorem admits_openParen_cons {scope : Scope} {depth : Nat}
    {tokens : List Token} :
    scope.Admits depth (.openParen :: tokens) <->
      depth < scope.maxDepth ∧ scope.Admits (depth + 1) tokens := by
  constructor
  · intro h
    rcases nestsWithin_openParen_cons.mp h.nests with ⟨hpos, hnests⟩
    refine ⟨by omega, ?_, hnests⟩
    intro name hname
    exact h.bound name (List.mem_cons_of_mem _ hname)
  · intro h
    rcases h with ⟨hdepth, h⟩
    constructor
    · intro name hname
      exact h.bound name (by simpa using hname)
    · exact nestsWithin_openParen_cons.mpr ⟨by omega, h.nests⟩

theorem admits_cons_of_ne {scope : Scope} {depth : Nat} {token : Token}
    {tokens : List Token} (hopen : token ≠ .openParen)
    (hclose : token ≠ .closeParen)
    (hbound : forall name, token = .name name ->
      (scope.symbols.lookup? name).isSome) (h : scope.Admits depth tokens) :
      scope.Admits depth (token :: tokens) := by
  constructor
  · intro name hname
    rcases List.mem_cons.mp hname with htoken | hrest
    · exact hbound name htoken.symm
    · exact h.bound name hrest
  · exact (nestsWithin_cons_of_ne hopen hclose).mpr h.nests

theorem admits_of_operator_cons {scope : Scope} {depth : Nat} {op : Operator}
    {tokens : List Token} (h : scope.Admits depth (.operator op :: tokens)) :
    scope.Admits depth tokens := by
  constructor
  · intro name hname
    exact h.bound name (List.mem_cons_of_mem _ hname)
  · exact (nestsWithin_cons_of_ne (by simp) (by simp)).mp h.nests

theorem admits_closeParen_cons {scope : Scope} {depth : Nat}
    {tokens : List Token} (h : scope.Admits depth tokens) :
    scope.Admits (depth + 1) (.closeParen :: tokens) := by
  constructor
  · intro name hname
    exact h.bound name (by simpa using hname)
  · apply nestsWithin_closeParen_cons.mpr
    intro read hread
    have hcount := h.nests read hread
    omega

end Scope

namespace Reading

def depth : Reading -> Nat
  | .atOperand groups _ => groups.length
  | .atOperator groups _ _ => groups.length

/-!
## What is read is admitted
-/

theorem admits_next {scope : Scope} {reading after : Reading} {found : Lexeme}
    {rest : List Token} (hstep : reading.next scope found = .ok after)
    (hrest : scope.Admits after.depth rest) :
    scope.Admits reading.depth (found.token :: rest) := by
  cases next_eq_ok_iff.mp hstep with
  | name hbound =>
      refine Scope.admits_cons_of_ne (by simp) (by simp) ?_ hrest
      intro other hother
      cases hother
      exact hbound
  | openParen hdepth => exact Scope.admits_openParen_cons.mpr ⟨hdepth, hrest⟩
  | closeParen => exact Scope.admits_closeParen_cons hrest
  | _ => exact Scope.admits_cons_of_ne (by simp) (by simp) (by simp) hrest

theorem admits_run {scope : Scope} {closing : Lexeme} {reading : Reading}
    {lexemes : List Lexeme} {expression : Expression}
    (h : reading.run scope closing lexemes = .ok expression) :
    scope.Admits reading.depth
      ((lexemes.map Lexeme.token).takeWhile (· ≠ .endOfInput)) := by
  induction lexemes generalizing reading with
  | nil =>
      exact Scope.admits_nil scope _
  | cons found rest ih =>
      simp only [run] at h
      split at h
      · rename_i hended
        simpa [hended] using Scope.admits_nil scope _
      · rename_i hgoesOn
        cases hstep : reading.next scope found with
        | error failure =>
            rw [hstep] at h
            cases h
        | ok after =>
            rw [hstep] at h
            have hrest := ih h
            simpa [hgoesOn] using admits_next hstep hrest

/-!
## What is admitted is read
-/

/-- Reading the tokens takes one reading to the other, whatever follows. -/
def Reads (scope : Scope) (tokens : List Token)
    (before after : Reading) : Prop :=
  forall (closing : Lexeme) (lexemes : List Lexeme) (rest : List Token),
    lexemes.map Lexeme.token = tokens ++ rest ->
      exists remaining : List Lexeme, remaining.map Lexeme.token = rest ∧
        before.run scope closing lexemes = after.run scope closing remaining

theorem reads_append {scope : Scope} {left right : List Token}
    {first second third : Reading} (hleft : Reads scope left first second)
    (hright : Reads scope right second third) :
    Reads scope (left ++ right) first third := by
  intro closing lexemes rest hlexemes
  rw [List.append_assoc] at hlexemes
  rcases hleft closing lexemes (right ++ rest) hlexemes with
    ⟨middle, hmiddle, hrunLeft⟩
  rcases hright closing middle rest hmiddle with
    ⟨remaining, hremaining, hrunRight⟩
  exact ⟨remaining, hremaining, hrunLeft.trans hrunRight⟩

theorem reads_of_next {scope : Scope} {token : Token} {before after : Reading}
    (htoken : token ≠ .endOfInput)
    (hstep : forall span, before.next scope ⟨token, span⟩ = .ok after) :
    Reads scope [token] before after := by
  intro closing lexemes rest hlexemes
  cases lexemes with
  | nil => simp at hlexemes
  | cons found remaining =>
      rcases found with ⟨found, span⟩
      simp only [List.map_cons, List.cons_append, List.nil_append,
        List.cons.injEq] at hlexemes
      rcases hlexemes with ⟨rfl, hremaining⟩
      refine ⟨remaining, hremaining, ?_⟩
      simp [run, htoken, hstep]

theorem reads_group {scope : Scope} {groups : List OpenGroup}
    {context : OperandContext} {tokens : List Token}
    {sum : PendingSum} {term : Term} (hdepth : groups.length < scope.maxDepth)
    (hinner : forall group : OpenGroup,
      Reads scope tokens (.atOperand (group :: groups) .start)
        (.atOperator (group :: groups) sum term)) :
    Reads scope (.openParen :: tokens ++ [.closeParen])
      (.atOperand groups context)
      (.atOperator groups context.sum
        (context.product.complete (.group (sum.complete term)))) := by
  intro closing lexemes rest hlexemes
  cases lexemes with
  | nil => simp at hlexemes
  | cons found lexemes =>
      rcases found with ⟨found, span⟩
      simp only [List.map_cons, List.cons_append, List.append_assoc,
        List.cons.injEq] at hlexemes
      rcases hlexemes with ⟨rfl, hlexemes⟩
      have hclose : Reads scope [.closeParen]
          (.atOperator (⟨span.start, context⟩ :: groups) sum term)
          (.atOperator groups context.sum
            (context.product.complete (.group (sum.complete term)))) :=
        reads_of_next (by simp) (fun _ => rfl)
      rcases reads_append
        (hinner ⟨span.start, context⟩) hclose closing lexemes rest
          (by simpa using hlexemes) with ⟨remaining, hremaining, hrun⟩
      refine ⟨remaining, hremaining, ?_⟩
      rw [← hrun]
      simp [run, next, hdepth]

end Reading

def Expression.front : Expression -> PendingSum
  | .term _ => none
  | .chain left op _ => some (left, op)

def Expression.last : Expression -> Term
  | .term only => only
  | .chain _ _ right => right

theorem Expression.complete_front_last (e : Expression) :
    e.front.complete e.last = e := by
  cases e <;> rfl

namespace Reading

mutual

theorem reads_expression {scope : Scope} :
    forall (e : Expression) (groups : List OpenGroup),
      scope.Admits groups.length e.tokens ->
        Reads scope e.tokens (.atOperand groups .start)
          (.atOperator groups e.front e.last)
  | .term t, groups, h => reads_term t groups none h
  | .chain left op right, groups, h => by
      rw [Expression.tokens] at h
      have hbalanced :=
        count_openParen_of_derives (derives_tokens_expression left)
      rcases (Scope.admits_append hbalanced).mp h with ⟨hleft, hnext⟩
      have hright := Scope.admits_of_operator_cons hnext
      have hop : Reads scope [.operator (.additive op)]
          (.atOperator groups left.front left.last)
          (.atOperand groups ⟨some (left, op), none⟩) := by
        apply reads_of_next (by simp)
        intro span
        simp [next, Expression.complete_front_last]
      exact reads_append (reads_expression left groups hleft)
        (reads_append hop (reads_term right groups (some (left, op)) hright))

theorem reads_term {scope : Scope} :
    forall (t : Term) (groups : List OpenGroup) (sum : PendingSum),
      scope.Admits groups.length t.tokens ->
        Reads scope t.tokens (.atOperand groups ⟨sum, none⟩)
          (.atOperator groups sum t)
  | .factor f, groups, sum, h => reads_factor f groups ⟨sum, none⟩ h
  | .chain left op right, groups, sum, h => by
      rw [Term.tokens] at h
      have hbalanced := count_openParen_of_derives (derives_tokens_term left)
      rcases (Scope.admits_append hbalanced).mp h with ⟨hleft, hnext⟩
      have hright := Scope.admits_of_operator_cons hnext
      have hop : Reads scope [.operator (.multiplicative op)]
          (.atOperator groups sum left)
          (.atOperand groups ⟨sum, some (left, op)⟩) :=
        reads_of_next (by simp) (fun _ => rfl)
      exact reads_append (reads_term left groups sum hleft)
        (reads_append hop (reads_factor right groups ⟨sum, some (left, op)⟩ hright))

theorem reads_factor {scope : Scope} :
    forall (f : Factor) (groups : List OpenGroup) (context : OperandContext),
      scope.Admits groups.length f.tokens ->
        Reads scope f.tokens (.atOperand groups context)
          (.atOperator groups context.sum (context.product.complete f))
  | .number value, groups, context, _ =>
      reads_of_next (by simp) (fun _ => rfl)
  | .name name, groups, context, h => by
      apply reads_of_next (by simp)
      intro span
      rcases Option.isSome_iff_exists.mp
        (h.bound name (by simp [Factor.tokens])) with ⟨address, hlookup⟩
      simp [next, hlookup]
  | .group inner, groups, context, h => by
      rw [Factor.tokens] at h
      rcases Scope.admits_openParen_cons.mp h with ⟨hdepth, hbody⟩
      have hbalanced :=
        count_openParen_of_derives (derives_tokens_expression inner)
      rcases (Scope.admits_append hbalanced).mp hbody with ⟨hinner, _⟩
      have hgroup : Reads scope (.openParen :: inner.tokens ++ [.closeParen])
          (.atOperand groups context)
          (.atOperator groups context.sum
            (context.product.complete
              (.group (inner.front.complete inner.last)))) :=
        reads_group hdepth
          (fun group => reads_expression inner (group :: groups) hinner)
      rw [Expression.complete_front_last] at hgroup
      exact hgroup

end

/-- An expression is read exactly if it stands for the tokens up to the end of
the input and these are admitted. -/
theorem run_start_eq_ok_iff {scope : Scope} {closing : Lexeme}
    {lexemes : List Lexeme} {e : Expression} :
    start.run scope closing lexemes = .ok e <->
      e.tokens = (lexemes.map Lexeme.token).takeWhile (· ≠ .endOfInput) ∧
        scope.Admits 0 e.tokens := by
  constructor
  · intro h
    have htokens := tokens_run h
    rw [tokens_start, List.nil_append] at htokens
    refine ⟨htokens, ?_⟩
    rw [htokens]
    exact admits_run h
  · intro h
    rcases h with ⟨htokens, hadmits⟩
    rcases reads_expression e [] hadmits closing lexemes
        ((lexemes.map Lexeme.token).dropWhile (· ≠ .endOfInput))
        (by rw [htokens, List.takeWhile_append_dropWhile]) with
          ⟨remaining, hremaining, hrun⟩
    have hfinish : forall found,
        finish (.atOperator [] e.front e.last) found = .ok e := by
      intro found
      simp [finish, Expression.complete_front_last]
    rw [start, hrun]
    cases remaining with
    | nil =>
        exact hfinish closing
    | cons found rest =>
        have hended : found.token = .endOfInput := by
          have hhead :=
            List.head?_dropWhile_not (· ≠ Token.endOfInput)
              (lexemes.map Lexeme.token)
          rw [← hremaining] at hhead
          simpa using hhead
        simp [run, hended, hfinish]

end Reading

end LineCalc
