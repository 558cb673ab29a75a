import LineCalc.Proofs.Machine.FirstFault
import LineCalc.Proofs.Reading.Parentheses
import Mathlib.Data.List.Induction

/-!
# Errors about parentheses

Which error a line gets at an illegal token is told by the parentheses in front
of it.  At the end of the input an operand may have just ended while parentheses
are open; then the last of these is blamed.  Behind a complete line a
parenthesis may close that none has opened.  All other illegal tokens are
reported as unexpected.
-/

namespace LineCalc

/-!
## Where lines are refused
-/

namespace Statement

variable {scope : Scope} {header read : List Lexeme} {found : Lexeme}
  {failure : ParseFailure}

theorem Header.leavesOpen (h : Header scope header) : LeavesOpen header [] := by
  apply LeavesOpen.balanced
  cases h with
  | evaluation => exact .nil
  | definition hfirst hsecond hthird _ =>
      simp only [List.map_cons, List.map_nil, hfirst, hsecond, hthird]
      exact .cons (by simp) (by simp)
        (.cons (by simp) (by simp) (.singleton (by simp) (by simp)))

theorem Header.endsWithOperand_iff (h : Header scope header)
    {body : List Lexeme} :
    EndsWithOperand (header ++ body) <-> EndsWithOperand body := by
  unfold EndsWithOperand
  rw [List.getLast?_append]
  cases body with
  | nil => cases h <;> simp_all [Token.EndsOperand]
  | cons first body => simp [List.getLast?_cons]

theorem not_hasOpen_define {first : Lexeme} (hfirst : first.token = .define) :
    ¬ HasOpen [first] := by
  intro h
  simpa [hfirst] using h.openParen_mem

theorem not_hasOpen_define_name {first second : Lexeme} {name : String}
    (hfirst : first.token = .define) (hsecond : second.token = .name name) :
    ¬ HasOpen [first, second] := by
  intro h
  simpa [hfirst, hsecond] using h.openParen_mem

theorem leavesOpen_of_path {body : List Lexeme} {reading : Reading}
    (hheader : Header scope header)
    (hpath : Reading.Path scope .start body reading) :
    exists stack, LeavesOpen (header ++ body) stack ∧ reading.OpenedBy stack :=
  hpath.leavesOpen hheader.leavesOpen rfl

theorem unclosed_iff_of_refuses (h : Refuses scope read found failure) :
    (exists opened blamed, failure.error = .unclosedParen opened blamed) <->
      found.token = .endOfInput ∧ EndsWithOperand read ∧ HasOpen read := by
  cases h with
  | variableName hfirst _ => simp [not_hasOpen_define hfirst]
  | equalsSign hfirst hsecond _ => simp [not_hasOpen_define_name hfirst hsecond]
  | storage hfirst hsecond _ _ => simp [not_hasOpen_define_name hfirst hsecond]
  | @body header body reading _ _ hheader _ hpath hstops =>
      rcases leavesOpen_of_path hheader hpath with ⟨stack, hstack, hopened⟩
      have hopen : reading.openedAt ≠ [] <-> HasOpen (header ++ body) := by
        rw [hopened]
        cases stack with
        | nil => simp [hstack.not_hasOpen]
        | cons opening outer => simp [hstack.lastOpen.hasOpen]
      rw [(Reading.verdict_of_stops hstops).unclosed_iff,
        hheader.endsWithOperand_iff,
        hpath.behindOperand_iff (Or.inl not_false), hopen]

theorem lastOpen_of_refuses {opened : Nat} {blamed : Lexeme}
    (h : Refuses scope read found failure)
    (herror : failure.error = .unclosedParen opened blamed) :
    blamed = found ∧ exists opening, LastOpen read opening ∧
      opened = opening.span.start := by
  cases h with
  | variableName _ _ => cases herror
  | equalsSign _ _ _ => cases herror
  | storage _ _ _ _ => cases herror
  | body hheader _ hpath hstops =>
      have hverdict := Reading.verdict_of_stops hstops
      rw [herror] at hverdict
      rcases hverdict.of_unclosed with ⟨hblamed, hopened⟩
      rcases leavesOpen_of_path hheader hpath with ⟨stack, hstack, hplaces⟩
      rw [hplaces, List.head?_map] at hopened
      rcases Option.map_eq_some_iff.mp hopened with ⟨opening, hfirst, rfl⟩
      cases stack with
      | nil => cases hfirst
      | cons innermost outer =>
          cases hfirst
          exact ⟨hblamed, opening, hstack.lastOpen, rfl⟩

theorem trailing_iff_of_refuses (h : Refuses scope read found failure) :
    (exists blamed, failure.error = .trailingInput blamed) <->
      found.token = .closeParen ∧ Derives .line (read.map Lexeme.token) := by
  cases h with
  | variableName hfirst _ => simp [hfirst, derives_line_define_cons_iff]
  | equalsSign hfirst hsecond _ =>
      simp [hfirst, hsecond, derives_line_define_cons_iff]
  | storage hfirst hsecond _ _ =>
      simp [hfirst, hsecond, derives_line_define_cons_iff]
  | @body header body reading _ _ hheader _ hpath hstops =>
      have hcontinues :
          Rule.line.Continues
            ((header ++ body).map Lexeme.token) .endOfInput <->
          reading.Allows .endOfInput :=
        (hheader.continues_iff hpath.define_notMem fun _ _ => by simp).trans
          (Reading.continues_iff_allows hpath)
      have hcomplete : Derives .line ((header ++ body).map Lexeme.token) <->
          reading.Allows .endOfInput := hcontinues
      rw [(Reading.verdict_of_stops hstops).trailing_iff, hcomplete,
        Reading.allows_endOfInput_iff]

theorem eq_of_refuses_trailing {blamed : Lexeme}
    (h : Refuses scope read found failure)
    (herror : failure.error = .trailingInput blamed) : blamed = found := by
  cases h with
  | variableName _ _ => cases herror
  | equalsSign _ _ _ => cases herror
  | storage _ _ _ _ => cases herror
  | body _ _ _ hstops =>
      have hverdict := Reading.verdict_of_stops hstops
      rw [herror] at hverdict
      exact hverdict.of_trailing

end Statement

namespace Machine

open Statement (Refuses)

variable {machine : Machine} {symbols : SymbolTable} {maxDepth : Nat}
  {stream : TokenStream}
  {read other : List Lexeme} {found stop : Lexeme} {error : ParseError}

/-!
## Where lines end without fault
-/

def EndsAt (machine : Machine) (symbols : SymbolTable) (maxDepth : Nat)
    (read : List Lexeme) (found : Lexeme) : Prop :=
  found.token = .endOfInput ∨
    exists error,
      machine.Fault symbols maxDepth (read.map Lexeme.token) found error

theorem Reaches.not_endsAt {more : List Lexeme}
    (h : machine.Reaches symbols maxDepth stream (read ++ found :: more) stop) :
    ¬ machine.EndsAt symbols maxDepth read found := by
  intro hends
  rcases hends with hended | ⟨error, hfault⟩
  · exact h.unended (by simp [hended])
  · exact h.faultless read found more error rfl hfault

theorem Reaches.unique (h : machine.Reaches symbols maxDepth stream read found)
    (hother : machine.Reaches symbols maxDepth stream other stop)
    (hends : machine.EndsAt symbols maxDepth read found)
    (hstops : machine.EndsAt symbols maxDepth other stop) :
    other = read ∧ stop = found := by
  rcases h.split with ⟨unread, hstream⟩
  rcases hother.split with ⟨rest, hrest⟩
  rw [hstream] at hrest
  rcases List.append_eq_append_iff.mp hrest with
    ⟨more, rfl, hmore⟩ | ⟨more, rfl, hmore⟩
  · cases more with
    | nil =>
        injection hmore with hfound _
        exact ⟨List.append_nil read, hfound.symm⟩
    | cons first more =>
        injection hmore with hfirst _
        subst first
        exact absurd hends hother.not_endsAt
  · cases more with
    | nil =>
        injection hmore with hstop _
        exact ⟨(List.append_nil other).symm, hstop⟩
    | cons first more =>
        injection hmore with hfirst _
        subst first
        exact absurd hstops h.not_endsAt

theorem begins_of_faultless (h : machine.Faultless symbols maxDepth read)
    (hended : .endOfInput ∉ read.map Lexeme.token) :
    Rule.line.Begins (read.map Lexeme.token) := by
  induction read using List.reverseRecOn with
  | nil => exact ⟨[.number .nan], .evaluation (derives_expression_number .nan)⟩
  | append_singleton read last ih =>
      have hbegins : Rule.line.Begins (read.map Lexeme.token) := by
        apply ih
        · intro before found after error hread
          exact h before found (after ++ [last]) error (by simp [hread])
        · intro hmem
          exact hended (by rw [List.map_append]; exact List.mem_append_left _ hmem)
      have hcontinues :
          Rule.line.Continues (read.map Lexeme.token) last.token := by
        apply Classical.byContradiction
        intro hillegal
        exact h read last [] (.trailingInput last) rfl
          (.illegal hbegins hillegal rfl)
      have hlast : last.token ≠ .endOfInput := by
        intro hlast
        exact hended (by simp [hlast])
      rcases (Rule.continues_iff_of_ne hlast).mp hcontinues with ⟨rest, hrest⟩
      exact ⟨rest, by simpa using hrest⟩

theorem Reaches.endsAt_of_not_continues
    (h : machine.Reaches symbols maxDepth stream read found)
    (hillegal : ¬ Rule.line.Continues (read.map Lexeme.token) found.token) :
    machine.EndsAt symbols maxDepth read found :=
  Or.inr ⟨.trailingInput found,
    .illegal (begins_of_faultless h.faultless h.unended) hillegal rfl⟩

/-- A line that does not compile is refused where it ends, and nowhere else. -/
theorem exists_refuses
    (hfails : (machine.compile symbols maxDepth stream).2 = .error error) :
    exists read found failure, failure.error = error ∧
      machine.Reaches symbols maxDepth stream read found ∧
      Refuses (machine.scope symbols maxDepth) read found failure ∧
      forall other stop, machine.Reaches symbols maxDepth stream other stop ->
        machine.EndsAt symbols maxDepth other stop -> other = read ∧
          stop = found := by
  rcases compile_eq_error_iff.mp hfails with ⟨registers, hparse⟩
  rcases Statement.parse_eq_error_iff.mp hparse with
    ⟨read, found, unread, hstream, hrefuses⟩
  rcases fault_of_refuses hrefuses with ⟨hfault, hfaultless⟩
  have hreaches : machine.Reaches symbols maxDepth stream read found :=
    ⟨⟨unread, hstream⟩, endOfInput_notMem_of_fault hfault, hfaultless⟩
  refine ⟨read, found, _, rfl, hreaches, hrefuses, ?_⟩
  intro other stop hother hstops
  exact hreaches.unique hother (Or.inr ⟨_, hfault⟩) hstops

/-!
## Errors by parentheses
-/

theorem illegal_of_fault {read : List Token}
    (hfault : machine.Fault symbols maxDepth read found error)
    (hillegal : ¬ Rule.line.Continues read found.token) :
    error.illegal? = some found := by
  cases hfault with
  | illegal _ _ herror => exact herror
  | undefined hcontinues _ _ => exact absurd hcontinues hillegal
  | tooDeep hcontinues _ => exact absurd hcontinues hillegal
  | storage _ _ =>
      exact absurd (Rule.continues_define_name_iff.mpr rfl) hillegal

/-- The error of a line as its parentheses tell it. -/
structure ParenDiagnosis (machine : Machine) (symbols : SymbolTable)
    (maxDepth : Nat) (stream : TokenStream) (error : ParseError) : Prop where
  unclosed : (exists opened blamed, error = .unclosedParen opened blamed) <->
    exists read found, machine.Reaches symbols maxDepth stream read found ∧
      found.token = .endOfInput ∧ EndsWithOperand read ∧ HasOpen read
  innermost : forall opened blamed, error = .unclosedParen opened blamed ->
    blamed.token.text = "end of input" ∧ error.span? = some blamed.span ∧
      exists read opening, machine.Reaches symbols maxDepth stream read blamed ∧
        blamed.token = .endOfInput ∧ LastOpen read opening ∧
        opened = opening.span.start
  trailing : (exists blamed, error = .trailingInput blamed) <->
    exists read found, machine.Reaches symbols maxDepth stream read found ∧
      found.token = .closeParen ∧ Derives .line (read.map Lexeme.token) ∧
      ¬ HasOpen read
  closing : forall blamed, error = .trailingInput blamed ->
    blamed.token.text = ")" ∧ error.span? = some blamed.span ∧
      exists read, machine.Reaches symbols maxDepth stream read blamed ∧
        blamed.token = .closeParen ∧ Derives .line (read.map Lexeme.token)
  otherwise : forall read found,
    machine.Reaches symbols maxDepth stream read found ->
    ¬ Rule.line.Continues (read.map Lexeme.token) found.token ->
    (exists opened blamed, error = .unclosedParen opened blamed) ∨
      (exists blamed, error = .trailingInput blamed) ∨
      exists expected, error = .unexpected expected found

theorem not_hasOpen_of_derives (h : Derives .line (read.map Lexeme.token)) :
    ¬ HasOpen read :=
  (LeavesOpen.balanced (balanced_of_derives h)).not_hasOpen

theorem parenDiagnosis_of_compile
    (hfails : (machine.compile symbols maxDepth stream).2 = .error error) :
    machine.ParenDiagnosis symbols maxDepth stream error := by
  rcases exists_refuses hfails with
    ⟨read, found, failure, rfl, hreaches, hrefuses, hunique⟩
  constructor
  · rw [Statement.unclosed_iff_of_refuses hrefuses]
    constructor
    · intro h
      exact ⟨read, found, hreaches, h⟩
    · intro h
      rcases h with ⟨other, stop, hother, hended, h⟩
      rcases hunique other stop hother (Or.inl hended) with ⟨rfl, rfl⟩
      exact ⟨hended, h⟩
  · intro opened blamed herror
    rcases Statement.lastOpen_of_refuses hrefuses herror with
      ⟨rfl, opening, hlast, hopened⟩
    have hended :=
      ((Statement.unclosed_iff_of_refuses hrefuses).mp ⟨_, _, herror⟩).left
    rw [herror, hended]
    exact ⟨rfl, rfl, read, opening, hreaches, rfl, hlast, hopened⟩
  · rw [Statement.trailing_iff_of_refuses hrefuses]
    constructor
    · intro h
      rcases h with ⟨hclose, hline⟩
      exact ⟨read, found, hreaches, hclose, hline, not_hasOpen_of_derives hline⟩
    · intro h
      rcases h with ⟨other, stop, hother, hclose, hline, _⟩
      have hillegal :
          ¬ Rule.line.Continues (other.map Lexeme.token) stop.token := by
        rw [hclose]
        exact not_continues_closeParen_of_derives hline
      rcases hunique other stop hother
        (hother.endsAt_of_not_continues hillegal) with ⟨rfl, rfl⟩
      exact ⟨hclose, hline⟩
  · intro blamed herror
    have hblamed := Statement.eq_of_refuses_trailing hrefuses herror
    subst blamed
    rcases (Statement.trailing_iff_of_refuses hrefuses).mp ⟨_, herror⟩ with
      ⟨hclose, hline⟩
    rw [herror, hclose]
    exact ⟨rfl, rfl, read, hreaches, rfl, hline⟩
  · intro other stop hother hillegal
    rcases hunique other stop hother
      (hother.endsAt_of_not_continues hillegal) with ⟨rfl, rfl⟩
    have herror := illegal_of_fault (fault_of_refuses hrefuses).left hillegal
    generalize failure.error = error at herror
    cases error <;> cases herror
    · exact Or.inr (Or.inr ⟨_, rfl⟩)
    · exact Or.inl ⟨_, _, rfl⟩
    · exact Or.inr (Or.inl ⟨_, rfl⟩)

/-- In `2 * (1 + (3 - (4)) / (5` the first and the last parenthesis stay
open. -/
theorem parenDiagnosis_of_nested_line :
    let stream := TokenStream.scan "2 * (1 + (3 - (4)) / (5"
    let error := ParseError.unclosedParen 21 ⟨.endOfInput, ⟨23, 23⟩⟩
    ((Machine.new .standard).compile .empty 256 stream).2 = .error error ∧
      (Machine.new .standard).ParenDiagnosis .empty 256 stream error := by
  intro stream error
  have hfails : ((Machine.new .standard).compile .empty 256 stream).2 =
      .error error := by
    decide +kernel
  exact ⟨hfails, parenDiagnosis_of_compile hfails⟩

end Machine

end LineCalc
