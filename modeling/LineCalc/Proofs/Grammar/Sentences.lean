import LineCalc.Tree.Grammar

/-!
# Sentences and trees

The sentences of the grammar are the token lists of parse trees.  A derivation
is read from left to right, while trees associate to the left, so a rest has no
tree of its own: it extends the tree of what stands in front of it.
-/

namespace LineCalc

/-!
## From derivations to trees
-/

def Rule.HasTree : Rule -> List Token -> Prop
  | .line, tokens => exists line : Line, line.tokens = tokens
  | .expression, tokens => exists e : Expression, e.tokens = tokens
  | .expressionRest, tokens =>
      forall left : Expression,
        exists e : Expression, e.tokens = left.tokens ++ tokens
  | .term, tokens => exists t : Term, t.tokens = tokens
  | .termRest, tokens =>
      forall left : Term, exists t : Term, t.tokens = left.tokens ++ tokens
  | .factor, tokens => exists f : Factor, f.tokens = tokens

theorem hasTree_of_derives {rule : Rule} {tokens : List Token}
    (h : Derives rule tokens) : rule.HasTree tokens := by
  induction h with
  | definition _ ih =>
      rename_i name body _
      rcases ih with ⟨e, he⟩
      exact ⟨⟨some name, e⟩, by simp [Line.tokens, he]⟩
  | evaluation _ ih =>
      rcases ih with ⟨e, he⟩
      exact ⟨⟨none, e⟩, by simp [Line.tokens, he]⟩
  | sum _ _ ihfirst ihrest =>
      rcases ihfirst with ⟨t, ht⟩
      rcases ihrest (.term t) with ⟨e, he⟩
      exact ⟨e, by simpa [Expression.tokens, ht] using he⟩
  | sumEnd =>
      intro left
      exact ⟨left, by simp⟩
  | sumNext _ _ ihnext ihrest =>
      rename_i op next rest _ _
      intro left
      rcases ihnext with ⟨t, ht⟩
      rcases ihrest (.chain left op t) with ⟨e, he⟩
      exact ⟨e, by simpa [Expression.tokens, ht] using he⟩
  | product _ _ ihfirst ihrest =>
      rcases ihfirst with ⟨f, hf⟩
      rcases ihrest (.factor f) with ⟨t, ht⟩
      exact ⟨t, by simpa [Term.tokens, hf] using ht⟩
  | productEnd =>
      intro left
      exact ⟨left, by simp⟩
  | productNext _ _ ihnext ihrest =>
      rename_i op next rest _ _
      intro left
      rcases ihnext with ⟨f, hf⟩
      rcases ihrest (.chain left op f) with ⟨t, ht⟩
      exact ⟨t, by simpa [Term.tokens, hf] using ht⟩
  | group _ ih =>
      rcases ih with ⟨e, he⟩
      exact ⟨.group e, by simp [Factor.tokens, he]⟩
  | number =>
      rename_i value
      exact ⟨.number value, rfl⟩
  | name =>
      rename_i name
      exact ⟨.name name, rfl⟩

/-!
## From trees to derivations
-/

theorem derives_expressionRest_snoc {op : Additive} {rest next : List Token}
    (hrest : Derives .expressionRest rest) (hnext : Derives .term next) :
    Derives .expressionRest (rest ++ .operator (.additive op) :: next) := by
  generalize hrule : Rule.expressionRest = rule at hrest
  induction hrest with
  | sumEnd =>
      have hlast :
          Derives .expressionRest (.operator (.additive op) :: next ++ []) :=
        .sumNext hnext .sumEnd
      simpa using hlast
  | sumNext hfirst _ _ ih =>
      simpa using Derives.sumNext hfirst (ih hrule)
  | _ => cases hrule

theorem derives_termRest_snoc {op : Multiplicative} {rest next : List Token}
    (hrest : Derives .termRest rest) (hnext : Derives .factor next) :
    Derives .termRest (rest ++ .operator (.multiplicative op) :: next) := by
  generalize hrule : Rule.termRest = rule at hrest
  induction hrest with
  | productEnd =>
      have hlast :
          Derives .termRest (.operator (.multiplicative op) :: next ++ []) :=
        .productNext hnext .productEnd
      simpa using hlast
  | productNext hfirst _ _ ih =>
      simpa using Derives.productNext hfirst (ih hrule)
  | _ => cases hrule

theorem derives_expression_snoc {op : Additive} {left right : List Token}
    (hleft : Derives .expression left) (hright : Derives .term right) :
    Derives .expression (left ++ .operator (.additive op) :: right) := by
  cases hleft with
  | @sum first rest hfirst hrest =>
      have hlonger :
          Derives .expressionRest (rest ++ .operator (.additive op) :: right) :=
        derives_expressionRest_snoc hrest hright
      simpa using Derives.sum hfirst hlonger

theorem derives_term_snoc {op : Multiplicative} {left right : List Token}
    (hleft : Derives .term left) (hright : Derives .factor right) :
    Derives .term (left ++ .operator (.multiplicative op) :: right) := by
  cases hleft with
  | @product first rest hfirst hrest =>
      have hlonger :
          Derives .termRest (rest ++ .operator (.multiplicative op) :: right) :=
        derives_termRest_snoc hrest hright
      simpa using Derives.product hfirst hlonger

mutual

theorem derives_tokens_expression :
    forall e : Expression, Derives .expression e.tokens
  | .term t => by
      simpa [Expression.tokens] using
        Derives.sum (derives_tokens_term t) Derives.sumEnd
  | .chain left _ right => by
      rw [Expression.tokens]
      exact derives_expression_snoc (derives_tokens_expression left)
        (derives_tokens_term right)

theorem derives_tokens_term : forall t : Term, Derives .term t.tokens
  | .factor f => by
      simpa [Term.tokens] using
        Derives.product (derives_tokens_factor f) Derives.productEnd
  | .chain left _ right => by
      rw [Term.tokens]
      exact derives_term_snoc (derives_tokens_term left)
        (derives_tokens_factor right)

theorem derives_tokens_factor : forall f : Factor, Derives .factor f.tokens
  | .number _ => Derives.number
  | .name _ => Derives.name
  | .group inner => by
      rw [Factor.tokens]
      exact Derives.group (derives_tokens_expression inner)

end

theorem derives_tokens_line (line : Line) : Derives .line line.tokens := by
  rcases line with ⟨defined, body⟩
  cases defined with
  | none =>
      exact Derives.evaluation (derives_tokens_expression body)
  | some name =>
      exact Derives.definition (derives_tokens_expression body)

/-- A token list is a line exactly if it has a parse tree. -/
theorem derives_line_iff {tokens : List Token} :
    Derives .line tokens <-> exists line : Line, line.tokens = tokens := by
  constructor
  · intro h
    exact hasTree_of_derives h
  · intro h
    rcases h with ⟨line, rfl⟩
    exact derives_tokens_line line

end LineCalc
