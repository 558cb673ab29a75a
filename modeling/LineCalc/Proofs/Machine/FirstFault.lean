import LineCalc.Machine.Fault
import LineCalc.Proofs.Statement.Acceptance
import LineCalc.Proofs.Statement.Refusal
import LineCalc.Token.Scan

/-!
# The fault that is reported

A line that does not compile is refused at its first fault, whatever comes
behind it.  What has been read in front of it is a header and a path: every
token there is one with which some sentence goes on, and every check has been
passed.
-/

namespace LineCalc

namespace Statement.Header

variable {scope : Scope} {header body : List Lexeme}

theorem count_openParen (h : Header scope header) :
    (header.map Lexeme.token).count .openParen = 0 := by
  cases h <;> simp_all

theorem count_closeParen (h : Header scope header) :
    (header.map Lexeme.token).count .closeParen = 0 := by
  cases h <;> simp_all

theorem begins (h : Header scope header)
    (hbody : Rule.expression.Begins (body.map Lexeme.token)) :
    Rule.line.Begins ((header ++ body).map Lexeme.token) := by
  rcases hbody with ⟨rest, hrest⟩
  refine ⟨rest, ?_⟩
  cases h with
  | evaluation => exact .evaluation hrest
  | definition hfirst hsecond hthird _ =>
      simpa [hfirst, hsecond, hthird] using Derives.definition hrest

theorem continues_iff {token : Token} (h : Header scope header)
    (hbody : .define ∉ body.map Lexeme.token)
    (htoken : header = [] -> body = [] -> token ≠ .define) :
    Rule.line.Continues ((header ++ body).map Lexeme.token) token <->
      Rule.expression.Continues (body.map Lexeme.token) token := by
  cases h with
  | evaluation =>
      apply Rule.continues_evaluation_iff
      cases body with
      | nil => simpa using htoken rfl rfl
      | cons first body =>
          intro hdefine
          simp_all
  | definition hfirst hsecond hthird _ =>
      simp only [List.map_cons, hfirst, hsecond, hthird, List.cons_append,
        List.nil_append]
      exact Rule.continues_definition_iff

end Statement.Header

namespace Machine

open Statement (Header Refuses)

variable {machine : Machine} {symbols : SymbolTable} {maxDepth : Nat}

/-!
## Tokens without fault
-/

theorem not_fault {read : List Token} {found : Lexeme} {error : ParseError}
    (hcontinues : Rule.line.Continues read found.token)
    (hname : forall name, found.token = .name name -> read ≠ [.define] ->
      symbols.lookup? name ≠ none)
    (hdepth : found.token = .openParen ->
      read.count .openParen ≠ maxDepth + read.count .closeParen)
    (hroom : forall name, found.token = .equals ->
      read = [.define, .name name] ->
      symbols.lookup? name = none -> machine.heap + 1 ≤ machine.stack) :
    ¬ machine.Fault symbols maxDepth read found error := by
  intro h
  cases h with
  | illegal _ hillegal _ => exact hillegal hcontinues
  | undefined _ hread hlookup => exact hname _ rfl hread hlookup
  | tooDeep _ hcount => exact hdepth rfl hcount
  | storage hlookup hfull =>
      exact Nat.not_lt.mpr (hroom _ rfl rfl hlookup) hfull

theorem faultless_nil : machine.Faultless symbols maxDepth [] := by
  intro before found after error h
  simp at h

theorem faultless_append {left right : List Lexeme}
    (hleft : machine.Faultless symbols maxDepth left)
    (hright : forall before found after error,
      right = before ++ found :: after ->
      ¬ machine.Fault symbols maxDepth
        ((left ++ before).map Lexeme.token) found error) :
    machine.Faultless symbols maxDepth (left ++ right) := by
  intro before found after error h
  rcases List.append_eq_append_iff.mp h with
    ⟨rest, hrest, hafter⟩ | ⟨rest, hrest, hafter⟩
  · subst before
    exact hright rest found after error hafter
  · cases rest with
    | nil =>
        rw [List.append_nil] at hrest
        subst before
        have hnil := hright [] found after error hafter.symm
        rwa [List.append_nil] at hnil
    | cons first rest =>
        injection hafter with hfirst _
        subst first
        exact hleft before found rest error hrest

theorem faultless_concat {left : List Lexeme} {last : Lexeme}
    (hleft : machine.Faultless symbols maxDepth left)
    (hlast : forall error,
      ¬ machine.Fault symbols maxDepth (left.map Lexeme.token) last error) :
    machine.Faultless symbols maxDepth (left ++ [last]) := by
  apply faultless_append hleft
  intro before found after error h
  cases before with
  | nil =>
      cases h
      rw [List.append_nil]
      exact hlast error
  | cons first before => simp at h

/-!
## What has been read
-/

theorem faultless_define {first : Lexeme} (hfirst : first.token = .define) :
    machine.Faultless symbols maxDepth [first] := by
  apply faultless_concat faultless_nil
  intro error
  apply not_fault
  · rw [hfirst]
    exact Rule.continues_define
  all_goals simp [hfirst]

theorem faultless_define_name {first second : Lexeme} {name : String}
    (hfirst : first.token = .define) (hsecond : second.token = .name name) :
    machine.Faultless symbols maxDepth [first, second] := by
  apply faultless_concat (faultless_define hfirst)
  intro error
  apply not_fault
  · rw [List.map_singleton, hfirst, hsecond]
    exact Rule.continues_define_iff.mpr ⟨name, rfl⟩
  all_goals simp [hfirst, hsecond]

theorem faultless_header {header : List Lexeme}
    (h : Header (machine.scope symbols maxDepth) header) :
    machine.Faultless symbols maxDepth header := by
  cases h with
  | evaluation => exact faultless_nil
  | definition hfirst hsecond hthird hbind =>
      apply faultless_concat (faultless_define_name hfirst hsecond)
      intro error
      apply not_fault
      · rw [List.map_cons, List.map_singleton, hfirst, hsecond, hthird]
        exact Rule.continues_define_name_iff.mpr rfl
      · simp [hthird]
      · simp [hthird]
      · intro other _ hread hlookup
        simp only [List.map_cons, List.map_nil, hfirst, hsecond,
          List.cons.injEq, Token.name.injEq, true_and, and_true] at hread
        subst other
        exact (bind_scope_eq_ok_iff.mp hbind).right hlookup

section Body

variable {header body : List Lexeme} {reading : Reading} {found : Lexeme}

theorem count_openParen_of_path
    (hheader : Header (machine.scope symbols maxDepth) header)
    (hpath : Reading.Path (machine.scope symbols maxDepth) .start body reading) :
    ((header ++ body).map Lexeme.token).count .openParen =
      reading.depth +
        ((header ++ body).map Lexeme.token).count .closeParen := by
  have hdepth := hpath.depth
  rw [List.map_append, List.count_append, List.count_append,
    hheader.count_openParen, hheader.count_closeParen]
  simp only [Reading.start, Reading.depth, List.length_nil] at hdepth ⊢
  omega

theorem not_fault_of_step {after : Reading} {error : ParseError}
    (hheader : Header (machine.scope symbols maxDepth) header)
    (hpath : Reading.Path (machine.scope symbols maxDepth) .start body reading)
    (hstep : Reading.Step (machine.scope symbols maxDepth) reading found after) :
    ¬ machine.Fault symbols maxDepth
      ((header ++ body).map Lexeme.token) found error := by
  have hplain : found.token ≠ .define := by
    intro hdefine
    exact reading.not_allows_define (hdefine ▸ hstep.allows)
  have hcount := count_openParen_of_path hheader hpath
  apply not_fault
  · apply (hheader.continues_iff hpath.define_notMem fun _ _ => hplain).mpr
    exact (Reading.continues_iff_allows hpath).mpr hstep.allows
  · intro name hname _ hlookup
    cases hstep <;> simp_all [scope]
  · intro hopen
    cases hstep with
    | openParen hroom =>
        simp only [Reading.depth, scope] at hcount hroom
        omega
    | _ => cases hopen
  · intro name hequals
    exact absurd (hequals ▸ hstep.allows) reading.not_allows_equals

theorem faultless_path
    (hheader : Header (machine.scope symbols maxDepth) header)
    (hpath : Reading.Path (machine.scope symbols maxDepth) .start body reading) :
    machine.Faultless symbols maxDepth (header ++ body) := by
  apply faultless_append (faultless_header hheader)
  intro before found after error hbody
  subst body
  rcases hpath.step_of_append with ⟨middle, next, hbefore, hstep⟩
  exact not_fault_of_step hheader hbefore hstep

/-!
## Where reading stops
-/

theorem fault_of_refusal {error : ParseError}
    (hheader : Header (machine.scope symbols maxDepth) header)
    (hpath : Reading.Path (machine.scope symbols maxDepth) .start body reading)
    (hfound : header = [] -> body = [] -> found.token ≠ .define)
    (h : Reading.Refusal (machine.scope symbols maxDepth) reading found error) :
    machine.Fault symbols maxDepth
      ((header ++ body).map Lexeme.token) found error := by
  have hcontinues := (hheader.continues_iff hpath.define_notMem hfound).trans
    (Reading.continues_iff_allows hpath)
  cases h with
  | undefined hlookup =>
      refine .undefined (hcontinues.mpr trivial) ?_ hlookup
      cases hheader with
      | evaluation =>
          intro hdefine
          rw [List.nil_append] at hdefine
          exact hpath.define_notMem (hdefine ▸ List.mem_singleton_self _)
      | definition _ _ _ _ => simp
  | tooDeep hdeep =>
      have hdepth := hpath.depth_le (Nat.zero_le _)
      refine .tooDeep (hcontinues.mpr trivial) ?_
      rw [count_openParen_of_path hheader hpath, Nat.le_antisymm hdepth hdeep]
      rfl
  | illegal hallows herror =>
      exact .illegal (hheader.begins (Reading.begins_of_path hpath))
        (fun h => hallows (hcontinues.mp h)) herror

end Body

theorem fault_of_refuses {read : List Lexeme} {found : Lexeme}
    {failure : ParseFailure}
    (h : Refuses (machine.scope symbols maxDepth) read found failure) :
    machine.Fault symbols maxDepth (read.map Lexeme.token) found failure.error ∧
      machine.Faultless symbols maxDepth read := by
  cases h with
  | variableName hfirst hname =>
      refine ⟨?_, faultless_define hfirst⟩
      rw [List.map_singleton, hfirst]
      refine .illegal (Rule.begins_of_continues
        (Rule.continues_define_iff.mpr ⟨"", rfl⟩)) ?_ rfl
      intro hcontinues
      rcases Rule.continues_define_iff.mp hcontinues with ⟨name, hfound⟩
      exact hname name hfound
  | @equalsSign first second found name hfirst hsecond hequals =>
      refine ⟨?_, faultless_define_name hfirst hsecond⟩
      rw [List.map_cons, List.map_singleton, hfirst, hsecond]
      refine .illegal (Rule.begins_of_continues
        (Rule.continues_define_name_iff.mpr rfl)) ?_ rfl
      intro hcontinues
      exact hequals (Rule.continues_define_name_iff.mp hcontinues)
  | storage hfirst hsecond hequals hbind =>
      refine ⟨?_, faultless_define_name hfirst hsecond⟩
      rcases found with ⟨token, span⟩
      have htoken : token = .equals := hequals
      rcases bind_scope_eq_error_iff.mp hbind with ⟨hlookup, hfull, rfl⟩
      rw [List.map_cons, List.map_singleton, hfirst, hsecond, htoken]
      exact .storage hlookup hfull
  | body hheader hfound hpath hstops =>
      exact ⟨fault_of_refusal hheader hpath hfound
        (Reading.refusal_of_stops hstops),
        faultless_path hheader hpath⟩

/-!
## The first fault
-/

theorem begins_of_fault {read : List Token} {found : Lexeme}
    {error : ParseError} (h : machine.Fault symbols maxDepth read found error) :
    Rule.line.Begins read := by
  cases h with
  | illegal hbegins _ _ => exact hbegins
  | undefined hcontinues _ _ => exact Rule.begins_of_continues hcontinues
  | tooDeep hcontinues _ => exact Rule.begins_of_continues hcontinues
  | storage _ _ =>
      exact Rule.begins_of_continues (Rule.continues_define_name_iff.mpr rfl)

theorem endOfInput_notMem_of_fault {read : List Token} {found : Lexeme}
    {error : ParseError} (h : machine.Fault symbols maxDepth read found error) :
    .endOfInput ∉ read := by
  rcases begins_of_fault h with ⟨rest, hrest⟩
  intro hended
  exact endOfInput_notMem_of_derives hrest (List.mem_append_left rest hended)

/-- The error of a line that does not compile is its first fault, at the latest
at its first end of input.  No lexeme behind the fault has been looked at: every
line that agrees up to there fails in the same way. -/
theorem compile_error_is_first_fault {machine : Machine} {symbols : SymbolTable}
    {maxDepth : Nat} {stream : TokenStream} {error : ParseError}
    (hfails : (machine.compile symbols maxDepth stream).2 = .error error) :
    exists read found unread, stream.toList = read ++ found :: unread ∧
      .endOfInput ∉ read.map Lexeme.token ∧
      machine.Fault symbols maxDepth (read.map Lexeme.token) found error ∧
      machine.Faultless symbols maxDepth read ∧
      forall other : TokenStream, read ++ [found] <+: other.toList ->
        (machine.compile symbols maxDepth other).2 = .error error := by
  rcases compile_eq_error_iff.mp hfails with ⟨registers, hparse⟩
  rcases Statement.parse_eq_error_iff.mp hparse with
    ⟨read, found, unread, hstream, hrefuses⟩
  rcases fault_of_refuses hrefuses with ⟨hfault, hfaultless⟩
  refine ⟨read, found, unread, hstream, endOfInput_notMem_of_fault hfault,
    hfault, hfaultless, ?_⟩
  intro other hprefix
  rcases hprefix with ⟨unread, hother⟩
  rw [List.append_assoc] at hother
  exact compile_eq_error_iff.mpr
    ⟨registers, Statement.parse_eq_error_iff.mpr ⟨read, found, unread,
      hother.symm, hrefuses⟩⟩

/-- Where the heap is full, a new variable is refused at its `=`, and no
expression behind it makes a difference. -/
theorem compile_without_room :
    let machine := Machine.new ⟨4, 4, 1⟩
    (machine.compile .empty 1 (TokenStream.scan "def x = )")).2 =
        .error (.storage (.heapExhausted 1 4 4)) ∧
      exists read found unread,
        (TokenStream.scan "def x = )").toList = read ++ found :: unread ∧
        .endOfInput ∉ read.map Lexeme.token ∧
        machine.Fault .empty 1 (read.map Lexeme.token) found
          (.storage (.heapExhausted 1 4 4)) ∧
        machine.Faultless .empty 1 read ∧
        forall other : TokenStream, read ++ [found] <+: other.toList ->
          (machine.compile .empty 1 other).2 =
            .error (.storage (.heapExhausted 1 4 4)) := by
  intro machine
  have hfails : (machine.compile .empty 1 (TokenStream.scan "def x = )")).2 =
      .error (.storage (.heapExhausted 1 4 4)) := by
    decide +kernel
  exact ⟨hfails, compile_error_is_first_fault hfails⟩

end Machine

end LineCalc
