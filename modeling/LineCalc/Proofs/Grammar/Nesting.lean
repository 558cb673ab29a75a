import LineCalc.Proofs.Grammar.Sentences
import Mathlib.Data.List.TakeWhile

/-!
# Parentheses in sentences

Every sentence closes as many parentheses as it opens.  So what nests within a
limit can be judged piece by piece: in front of a sentence and behind it the
same parentheses are open.
-/

namespace LineCalc

/-!
## Tokens of sentences
-/

theorem count_openParen_of_derives {rule : Rule} {tokens : List Token}
    (h : Derives rule tokens) :
    tokens.count .openParen = tokens.count .closeParen := by
  induction h with
  | definition _ ih =>
      simpa using ih
  | evaluation _ ih =>
      exact ih
  | sum _ _ ihfirst ihrest =>
      rw [List.count_append, List.count_append, ihfirst, ihrest]
  | sumEnd => rfl
  | sumNext _ _ ihnext ihrest =>
      simp [ihnext, ihrest]
  | product _ _ ihfirst ihrest =>
      rw [List.count_append, List.count_append, ihfirst, ihrest]
  | productEnd => rfl
  | productNext _ _ ihnext ihrest =>
      simp [ihnext, ihrest]
  | group _ ih =>
      simp [ih]
  | number => rfl
  | name => rfl

theorem endOfInput_notMem_of_derives {rule : Rule} {tokens : List Token}
    (h : Derives rule tokens) : Token.endOfInput ∉ tokens := by
  induction h with
  | group _ ih =>
      simpa using ih
  | _ => simp_all

theorem takeWhile_ne_endOfInput {tokens : List Token}
    (h : Token.endOfInput ∉ tokens) :
    tokens.takeWhile (· ≠ .endOfInput) = tokens := by
  apply List.takeWhile_eq_self_iff.mpr
  intro token htoken
  apply decide_eq_true
  intro hended
  exact h (hended ▸ htoken)

theorem define_notMem_of_derives {rule : Rule} {tokens : List Token}
    (h : Derives rule tokens) (hrule : rule ≠ .line) :
    Token.define ∉ tokens := by
  induction h with
  | definition _ _ =>
      exact absurd rfl hrule
  | evaluation _ _ =>
      exact absurd rfl hrule
  | group _ ih =>
      simpa using ih
  | _ => simp_all

/-!
## Nesting
-/

theorem nestsWithin_nil (limit : Nat) : NestsWithin limit [] := by
  intro read hread
  have hnil : read = [] := List.prefix_nil.mp hread
  simp [hnil]

theorem nestsWithin_cons_of_ne {limit : Nat} {token : Token}
    {tokens : List Token} (hopen : token ≠ .openParen)
    (hclose : token ≠ .closeParen) :
    NestsWithin limit (token :: tokens) <-> NestsWithin limit tokens := by
  constructor
  · intro h read hread
    have hlonger := h (token :: read) (List.cons_prefix_cons.mpr ⟨rfl, hread⟩)
    simpa [List.count_cons, hopen, hclose] using hlonger
  · intro h read hread
    cases read with
    | nil => simp
    | cons first read =>
        rcases List.cons_prefix_cons.mp hread with ⟨hfirst, htail⟩
        subst first
        simpa [List.count_cons, hopen, hclose] using h read htail

theorem nestsWithin_openParen_cons {limit : Nat} {tokens : List Token} :
    NestsWithin limit (.openParen :: tokens) <->
      0 < limit ∧ NestsWithin (limit - 1) tokens := by
  constructor
  · intro h
    have hpos : 0 < limit := by
      have hone :=
        h [.openParen] (List.cons_prefix_cons.mpr ⟨rfl, List.nil_prefix⟩)
      simpa [Nat.lt_iff_add_one_le] using hone
    refine ⟨hpos, ?_⟩
    intro read hread
    have hlonger :=
      h (.openParen :: read) (List.cons_prefix_cons.mpr ⟨rfl, hread⟩)
    simp only [List.count_cons_self, List.count_cons_of_ne, ne_eq, reduceCtorEq,
      not_false_eq_true] at hlonger
    omega
  · intro h read hread
    rcases h with ⟨hpos, h⟩
    cases read with
    | nil => simp
    | cons first read =>
        rcases List.cons_prefix_cons.mp hread with ⟨hfirst, htail⟩
        subst first
        have hshorter := h read htail
        simp only [List.count_cons_self, List.count_cons_of_ne,
          ne_eq, reduceCtorEq, not_false_eq_true]
        omega

theorem nestsWithin_closeParen_cons {limit : Nat} {tokens : List Token} :
    NestsWithin limit (.closeParen :: tokens) <->
      NestsWithin (limit + 1) tokens := by
  constructor
  · intro h read hread
    have hlonger :=
      h (.closeParen :: read) (List.cons_prefix_cons.mpr ⟨rfl, hread⟩)
    simp only [List.count_cons_self, List.count_cons_of_ne, ne_eq, reduceCtorEq,
      not_false_eq_true] at hlonger
    omega
  · intro h read hread
    cases read with
    | nil => simp
    | cons first read =>
        rcases List.cons_prefix_cons.mp hread with ⟨hfirst, htail⟩
        subst first
        have hshorter := h read htail
        simp only [List.count_cons_self, List.count_cons_of_ne,
          ne_eq, reduceCtorEq, not_false_eq_true]
        omega

theorem nestsWithin_append {limit : Nat} {left right : List Token}
    (hleft : left.count .openParen = left.count .closeParen) :
    NestsWithin limit (left ++ right) <->
      NestsWithin limit left ∧ NestsWithin limit right := by
  constructor
  · intro h
    constructor
    · intro read hread
      exact h read (hread.trans (List.prefix_append left right))
    · intro read hread
      have hlonger :=
        h (left ++ read) ((List.prefix_append_right_inj left).mpr hread)
      rw [List.count_append, List.count_append] at hlonger
      omega
  · intro h read hread
    rcases h with ⟨hfirst, hsecond⟩
    rcases hread with ⟨unread, hread⟩
    rcases List.append_eq_append_iff.mp hread with
      ⟨rest, hrest, _⟩ | ⟨rest, hrest, hright⟩
    · exact hfirst read ⟨rest, hrest.symm⟩
    · subst read
      have hcount := hsecond rest ⟨unread, hright.symm⟩
      rw [List.count_append, List.count_append]
      omega

theorem nestsWithin_length (tokens : List Token) :
    NestsWithin tokens.length tokens := by
  intro read hread
  have hcount : read.count .openParen ≤ read.length := List.count_le_length
  have hlength : read.length ≤ tokens.length := hread.length_le
  omega

end LineCalc
