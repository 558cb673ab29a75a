import LineCalc.Proofs.Grammar.Nesting
import LineCalc.Tree.Parentheses

/-!
# Parentheses in texts that end early

Sentences are balanced.  What has been read of a sentence is balanced up to some
parentheses that are still open; these form a stack, on which the next
parenthesis that closes finds its partner.
-/

namespace LineCalc

/-!
## Balanced tokens
-/

namespace Balanced

variable {tokens left right : List Token}

theorem append (hleft : Balanced left) (hright : Balanced right) :
    Balanced (left ++ right) := by
  induction hleft with
  | nil => exact hright
  | cons hopen hclose _ ih => exact .cons hopen hclose ih
  | group hinner _ _ ih => simpa using Balanced.group hinner ih

theorem singleton {token : Token} (hopen : token ≠ .openParen)
    (hclose : token ≠ .closeParen) :
    Balanced [token] :=
  .cons hopen hclose .nil

theorem count_eq (h : Balanced tokens) :
    tokens.count .openParen = tokens.count .closeParen := by
  induction h with
  | nil => rfl
  | cons hopen hclose _ ih => simpa [List.count_cons, hopen, hclose] using ih
  | group _ _ ihinner ihrest => simp [ihinner, ihrest, Nat.add_assoc]

theorem count_le (h : Balanced tokens) {read unread : List Token}
    (hread : tokens = read ++ unread) :
    read.count .closeParen ≤ read.count .openParen := by
  induction h generalizing read unread with
  | nil =>
      rw [(List.append_eq_nil_iff.mp hread.symm).left]
      exact Nat.le_refl _
  | cons hopen hclose _ ih =>
      cases read with
      | nil => exact Nat.le_refl _
      | cons first read =>
          injection hread with hfirst hrest
          subst first
          simpa [List.count_cons, hopen, hclose] using ih hrest
  | @group inner rest hinner _ ihinner ihrest =>
      cases read with
      | nil => exact Nat.le_refl _
      | cons first read =>
          injection hread with hfirst hread
          subst first
          rcases List.append_eq_append_iff.mp hread with
            ⟨more, rfl, hmore⟩ | ⟨more, hmore, _⟩
          · cases more with
            | nil => simp [hinner.count_eq]
            | cons first more =>
                injection hmore with hfirst hrest
                subst first
                have hcount := ihrest hrest
                simp [hinner.count_eq]
                omega
          · have hcount := ihinner hmore
            simp only [List.count_cons, beq_iff_eq, reduceCtorEq, ↓reduceIte]
            omega

theorem not_closes (h : Balanced tokens) : ¬ Closes tokens := by
  intro hcloses
  rcases hcloses with ⟨inner, rest, htokens, hinner⟩
  have hsplit : tokens = (inner ++ [.closeParen]) ++ rest := by simp [htokens]
  have hcount := h.count_le hsplit
  have hequal := hinner.count_eq
  simp only [List.count_append, List.count_cons, List.count_nil,
    beq_iff_eq, reduceCtorEq, ↓reduceIte] at hcount
  omega

end Balanced

theorem Closes.append {tokens : List Token} (h : Closes tokens)
    (more : List Token) :
    Closes (tokens ++ more) := by
  rcases h with ⟨inner, rest, rfl, hinner⟩
  exact ⟨inner, rest ++ more, by simp, hinner⟩

/-- In balanced tokens every parenthesis that opens has its partner. -/
theorem Balanced.closes_of_eq {tokens before after : List Token}
    (h : Balanced tokens) (htokens : tokens = before ++ .openParen :: after) :
    Closes after := by
  induction h generalizing before after with
  | nil => simp at htokens
  | cons hopen hclose _ ih =>
      cases before with
      | nil =>
          injection htokens with hfirst _
          exact absurd hfirst hopen
      | cons first before =>
          injection htokens with _ hrest
          exact ih hrest
  | @group inner rest hinner _ ihinner ihrest =>
      cases before with
      | nil =>
          injection htokens with _ hafter
          exact ⟨inner, rest, hafter.symm, hinner⟩
      | cons first before =>
          injection htokens with _ htokens
          rcases List.append_eq_append_iff.mp htokens with
            ⟨more, hbefore, hmore⟩ | ⟨more, hinside, hmore⟩
          · cases more with
            | nil => cases hmore
            | cons first more =>
                injection hmore with _ hrest
                exact ihrest hrest
          · cases more with
            | nil => cases hmore
            | cons first more =>
                injection hmore with hfirst hafter
                subst first
                rw [hafter]
                exact (ihinner hinside).append _

theorem balanced_of_derives {rule : Rule} {tokens : List Token}
    (h : Derives rule tokens) :
    Balanced tokens := by
  induction h with
  | definition _ ih =>
      exact .cons (by simp) (by simp)
        (.cons (by simp) (by simp) (.cons (by simp) (by simp) ih))
  | evaluation _ ih => exact ih
  | sum _ _ ihfirst ihrest => exact ihfirst.append ihrest
  | sumEnd => exact .nil
  | sumNext _ _ ihnext ihrest =>
      exact .cons (by simp) (by simp) (ihnext.append ihrest)
  | product _ _ ihfirst ihrest => exact ihfirst.append ihrest
  | productEnd => exact .nil
  | productNext _ _ ihnext ihrest =>
      exact .cons (by simp) (by simp) (ihnext.append ihrest)
  | group _ ih => exact .group ih .nil
  | number => exact .singleton (by simp) (by simp)
  | name => exact .singleton (by simp) (by simp)

theorem not_continues_closeParen_of_derives {rule : Rule} {tokens : List Token}
    (h : Derives rule tokens) : ¬ rule.Continues tokens .closeParen := by
  intro hcontinues
  rcases hcontinues with ⟨rest, hrest⟩
  exact (balanced_of_derives hrest).not_closes ⟨tokens, rest, rfl,
    balanced_of_derives h⟩

/-!
## Open parentheses
-/

/-- The parentheses among lexemes that have no partner, the last one first. -/
inductive LeavesOpen : List Lexeme -> List Lexeme -> Prop where
  | balanced {read : List Lexeme} :
      Balanced (read.map Lexeme.token) ->
      LeavesOpen read []
  | opening {before after outer : List Lexeme} {opening : Lexeme} :
      LeavesOpen before outer ->
      opening.token = .openParen ->
      Balanced (after.map Lexeme.token) ->
      LeavesOpen (before ++ opening :: after) (opening :: outer)

namespace LeavesOpen

variable {read stack : List Lexeme} {found : Lexeme}

theorem append (h : LeavesOpen read stack) {more : List Lexeme}
    (hmore : Balanced (more.map Lexeme.token)) :
    LeavesOpen (read ++ more) stack := by
  cases h with
  | balanced hread =>
      apply LeavesOpen.balanced
      rw [List.map_append]
      exact hread.append hmore
  | opening hbefore hopening hafter =>
      rw [List.append_assoc, List.cons_append]
      apply LeavesOpen.opening hbefore hopening
      rw [List.map_append]
      exact hafter.append hmore

theorem other (h : LeavesOpen read stack) (hopen : found.token ≠ .openParen)
    (hclose : found.token ≠ .closeParen) : LeavesOpen (read ++ [found]) stack :=
  h.append (.singleton hopen hclose)

theorem openParen (h : LeavesOpen read stack)
    (hfound : found.token = .openParen) :
    LeavesOpen (read ++ [found]) (found :: stack) :=
  .opening h hfound .nil

theorem closeParen {opening : Lexeme} (h : LeavesOpen read (opening :: stack))
    (hfound : found.token = .closeParen) :
    LeavesOpen (read ++ [found]) stack := by
  cases h with
  | opening hbefore hopening hafter =>
      rw [List.append_assoc]
      apply hbefore.append
      simpa [hopening, hfound] using Balanced.group hafter .nil

theorem lastOpen {opening : Lexeme} (h : LeavesOpen read (opening :: stack)) :
    LastOpen read opening := by
  cases h with
  | @opening before after _ _ _ hopening hafter =>
      refine ⟨before, after, rfl, ⟨hopening, hafter.not_closes⟩, ?_⟩
      intro between other rest hbetween hother
      have htokens : after.map Lexeme.token =
          between.map Lexeme.token ++ .openParen :: rest.map Lexeme.token := by
        simp [hbetween, hother.left]
      exact hother.right (hafter.closes_of_eq htokens)

theorem not_hasOpen (h : LeavesOpen read []) : ¬ HasOpen read := by
  intro hopen
  rcases hopen with ⟨before, opening, after, hread, hopening⟩
  cases h with
  | balanced hbalanced =>
      have htokens : read.map Lexeme.token =
          before.map Lexeme.token ++ .openParen :: after.map Lexeme.token := by
        simp [hread, hopening.left]
      exact hopening.right (hbalanced.closes_of_eq htokens)

end LeavesOpen

theorem HasOpen.openParen_mem {read : List Lexeme} (h : HasOpen read) :
    .openParen ∈ read.map Lexeme.token := by
  rcases h with ⟨before, opening, after, rfl, hopening⟩
  simp [hopening.left]

theorem LastOpen.hasOpen {read : List Lexeme} {opening : Lexeme}
    (h : LastOpen read opening) :
    HasOpen read := by
  rcases h with ⟨before, after, hread, hopening, _⟩
  exact ⟨before, opening, after, hread, hopening⟩

end LineCalc
