import LineCalc.Proofs.Grammar.Nesting

/-!
# How lines go on

Behind `def`, a name and `=` a line goes on as an expression does, and so does a
line that does not start with `def`.  The parts of a definition in front of its
expression leave no choice.
-/

namespace LineCalc

namespace Rule

variable {read body : List Token} {token : Token}

theorem continues_iff_of_ne {rule : Rule} (h : token ≠ .endOfInput) :
    rule.Continues read token <->
      exists rest, Derives rule (read ++ token :: rest) := by
  cases token with
  | endOfInput => exact absurd rfl h
  | _ => rfl

theorem begins_of_continues {rule : Rule} (h : rule.Continues read token) :
    rule.Begins read := by
  by_cases hended : token = .endOfInput
  · subst token
    exact ⟨[], by rw [List.append_nil]; exact h⟩
  · rcases (continues_iff_of_ne hended).mp h with ⟨rest, hrest⟩
    exact ⟨token :: rest, hrest⟩

end Rule

/-!
## Sentences by their first token
-/

theorem derives_line_define_cons_iff {tokens : List Token} :
    Derives .line (.define :: tokens) <->
      exists name body, tokens = .name name :: .equals :: body ∧
        Derives .expression body := by
  constructor
  · intro h
    cases h with
    | definition hbody => exact ⟨_, _, rfl, hbody⟩
    | evaluation hbody =>
        exact absurd List.mem_cons_self
          (define_notMem_of_derives hbody (by simp))
  · intro h
    rcases h with ⟨name, body, rfl, hbody⟩
    exact .definition hbody

theorem derives_definition_iff {name : String} {body : List Token} :
    Derives .line (.define :: .name name :: .equals :: body) <->
      Derives .expression body := by
  rw [derives_line_define_cons_iff]
  constructor
  · intro h
    rcases h with ⟨other, tokens, hbody, hderives⟩
    cases hbody
    exact hderives
  · intro h
    exact ⟨name, body, rfl, h⟩

theorem derives_line_iff_of_head? {tokens : List Token}
    (h : tokens.head? ≠ some .define) :
    Derives .line tokens <-> Derives .expression tokens := by
  constructor
  · intro hline
    cases hline with
    | definition _ => exact absurd rfl h
    | evaluation hbody => exact hbody
  · exact .evaluation

theorem derives_expression_number (value : Binary64) :
    Derives .expression [.number value] :=
  .sum (.product .number .productEnd) .sumEnd

namespace Rule

variable {body : List Token} {token : Token} {name : String}

/-!
## Definitions
-/

theorem continues_define : Rule.line.Continues [] .define :=
  ⟨[.name "", .equals, .number .nan],
    .definition (derives_expression_number .nan)⟩

theorem continues_define_iff :
    Rule.line.Continues [.define] token <->
      exists name, token = .name name := by
  constructor
  · intro h
    by_cases hended : token = .endOfInput
    · subst token
      rcases derives_line_define_cons_iff.mp h with ⟨name, body, hbody, _⟩
      cases hbody
    · rcases (continues_iff_of_ne hended).mp h with ⟨rest, hrest⟩
      rcases derives_line_define_cons_iff.mp hrest with ⟨name, body, hbody, _⟩
      cases hbody
      exact ⟨name, rfl⟩
  · intro h
    rcases h with ⟨name, rfl⟩
    exact ⟨[.equals, .number .nan],
      .definition (derives_expression_number .nan)⟩

theorem continues_define_name_iff :
    Rule.line.Continues [.define, .name name] token <-> token = .equals := by
  constructor
  · intro h
    by_cases hended : token = .endOfInput
    · subst token
      rcases derives_line_define_cons_iff.mp h with ⟨name, body, hbody, _⟩
      cases hbody
    · rcases (continues_iff_of_ne hended).mp h with ⟨rest, hrest⟩
      rcases derives_line_define_cons_iff.mp hrest with ⟨name, body, hbody, _⟩
      cases hbody
      rfl
  · intro h
    rw [h]
    exact ⟨[.number .nan], .definition (derives_expression_number .nan)⟩

theorem continues_definition_iff :
    Rule.line.Continues (.define :: .name name :: .equals :: body) token <->
      Rule.expression.Continues body token := by
  by_cases hended : token = .endOfInput
  · subst token
    exact derives_definition_iff
  · rw [continues_iff_of_ne hended, continues_iff_of_ne hended]
    simp only [List.cons_append, derives_definition_iff]

/-!
## Evaluations
-/

theorem continues_evaluation_iff (h : (body ++ [token]).head? ≠ some .define) :
    Rule.line.Continues body token <->
      Rule.expression.Continues body token := by
  by_cases hended : token = .endOfInput
  · subst token
    apply derives_line_iff_of_head?
    cases body <;> simp_all
  · rw [continues_iff_of_ne hended, continues_iff_of_ne hended]
    have hhead : forall rest, (body ++ token :: rest).head? ≠ some .define := by
      intro rest
      cases body <;> simp_all
    simp only [derives_line_iff_of_head? (hhead _)]

end Rule

end LineCalc
