import LineCalc.Proofs.Session.Allocation
import LineCalc.Proofs.Token.Words
import LineCalc.Proofs.Tree.Size

/-!
# Reading variables back

Every variable can be read back by its own name.  The name came out of a line
that was scanned, so it is scanned as the same name again; and the shortest
definition is longer than the line that reads a variable and as long as the one
that defines it by itself, so the limit that admitted the one admits the others.
-/

namespace LineCalc

def Expression.variableNamed (name : String) : Expression :=
  .term (.factor (.name name))

namespace Environment

theorem define_of_lookup {environment : Environment} {name : String}
    {value : Binary64} (h : environment.lookup name = some value) :
    environment.define name value = environment := by
  induction environment with
  | nil => cases h
  | cons entry rest ih =>
      rw [lookup_cons] at h
      rw [define]
      split at h
      · rename_i hname
        rw [if_pos hname, ← hname, ← Option.some.inj h]
      · rename_i hname
        rw [if_neg hname, ih h]

end Environment

namespace Session

variable {session : Session} {config : Config} {environment : Environment}

/-!
## What definitions tell of their names
-/

theorem le_length_program {statement : Statement} {name : String}
    (hdefined : statement.line.defined = some name) :
    5 ≤ (session.program statement).length := by
  rcases Option.map_eq_some_iff.mp hdefined with ⟨binding, hbinding, _⟩
  have hbody := statement.body.two_le_registers
  rw [program, Statement.length_program, hbinding, Option.toList_some,
    List.length_singleton]
  omega

namespace Holds

theorem isName_of_evaluate (h : session.Holds config environment)
    {line name : String} {value : Binary64}
    (hvalue : (session.evaluate line).2 = .ok value)
    (hname : Token.definedName? (TokenStream.scan line).lineTokens = some name) :
    IsName name ∧ 5 ≤ config.heapBase := by
  cases h.outcome line with
  | unparsed _ hevaluate _ =>
      rw [hevaluate] at hvalue
      cases hvalue
  | tooLarge _ _ hevaluate _ =>
      rw [hevaluate] at hvalue
      cases hvalue
  | runs hparse hfits _ _ _ _ =>
      constructor
      · rcases Token.definedName?_eq_some_iff.mp hname with ⟨rest, htokens⟩
        have hmem : .name name ∈ (TokenStream.scan line).lineTokens := by
          simp [htokens]
        exact isName_of_mem_lineTokens hmem
      · rw [definedName?_of_parse hparse] at hname
        exact Nat.le_trans (le_length_program hname) hfits

theorem isName_of_mem_definitions (h : session.Holds config environment)
    (calls : List Call) {name : String}
    (hname : name ∈ (session.definitions calls).map Prod.fst) :
    IsName name ∧ 5 ≤ config.heapBase := by
  induction calls generalizing session environment with
  | nil => cases hname
  | cons first rest ih =>
      rw [definitions_cons, List.map_append] at hname
      rcases List.mem_append.mp hname with hfirst | hrest
      · cases first with
        | compile line => cases hfirst
        | evaluate line =>
            simp only [definitions] at hfirst
            split at hfirst
            · rename_i value defined hvalue hdefined
              rw [List.mem_singleton.mp hfirst]
              exact h.isName_of_evaluate hvalue hdefined
            · cases hfirst
      · exact ih (h.call first) hrest

end Holds

theorem Reachable.holds_names (h : session.Reachable config) :
    exists environment, session.Holds config environment ∧
      forall name, name ∈ environment.names -> IsName name ∧
        5 ≤ config.heapBase := by
  rcases h with ⟨calls, rfl⟩
  refine ⟨_, (Holds.new config).after calls, ?_⟩
  intro name hname
  rw [Environment.names_defineAll, Definitions.names,
    List.mem_eraseDups] at hname
  exact (Holds.new config).isName_of_mem_definitions calls hname

/-!
## Lines that read a variable
-/

namespace Holds

theorem evaluate_variableNamed (h : session.Holds config environment)
    (line : String) (binding : Option Binding) {name : String}
    (hname : name ∈ environment.names)
    (htokens : (Statement.mk binding (.variableNamed name)).line.tokens =
      (TokenStream.scan line).lineTokens)
    (hbind : forall other, binding = some other ->
      (session.machine.scope session.symbols session.maxDepth).bind other.name =
        .ok other)
    (hroom : 4 + binding.toList.length ≤ config.heapBase) :
    exists after,
      session.evaluate line = (after, .ok (environment.valueOf name)) ∧
        after.Holds config
          (environment.afterLine
            (Statement.mk binding (.variableNamed name)).line) := by
  have hparse : session.parse line = .ok ⟨binding, .variableNamed name⟩ := by
    apply Statement.parse_eq_ok_iff.mpr
    refine ⟨htokens, ⟨?_, ?_⟩, hbind⟩
    · intro other hother
      have hsame : other = name := by
        simpa [Expression.variableNamed, Expression.tokens, Term.tokens,
          Factor.tokens] using hother
      rw [hsame]
      exact (h.stores.lookup?_isSome name).mpr hname
    · exact (nestsWithin_cons_of_ne (by simp) (by simp)).mpr (nestsWithin_nil _)
  have hfits : (session.program ⟨binding, .variableNamed name⟩).length ≤
      config.heapBase := by
    rw [program, Statement.length_program]
    exact hroom
  rcases h.evaluate_of_fits hparse hfits with ⟨after, hevaluate, hafter, _⟩
  exact ⟨after, hevaluate, hafter⟩

theorem evaluate_name (h : session.Holds config environment) {name : String}
    (hname : name ∈ environment.names) (hword : IsName name)
    (hroom : 4 ≤ config.heapBase) :
    (session.evaluate name).2 = .ok (environment.valueOf name) := by
  have htokens : (Statement.mk none (.variableNamed name)).line.tokens =
      (TokenStream.scan name).lineTokens := hword.lineTokens_scan.symm
  rcases h.evaluate_variableNamed name none hname htokens
    (fun _ hother => by cases hother)
    hroom with ⟨after, hevaluate, _⟩
  rw [hevaluate]

/-- Defining a variable by itself leads back to the same environment. -/
theorem evaluate_definition (h : session.Holds config environment)
    {name : String} (hname : name ∈ environment.names) (hword : IsName name)
    (hroom : 5 ≤ config.heapBase) :
    exists after,
      session.evaluate ("def " ++ name ++ " = " ++ name) =
          (after, .ok (environment.valueOf name)) ∧
        after.Holds config environment := by
  have hstored := session.machine.name_storage session.symbols name
  have hbind :
      (session.machine.scope session.symbols session.maxDepth).bind name =
      .ok (session.machine.storage session.symbols name) := by
    apply Machine.bind_scope_eq_ok_iff.mpr
    refine ⟨rfl, ?_⟩
    intro hfresh
    have hbound := (h.stores.lookup?_isSome name).mpr hname
    rw [hfresh] at hbound
    cases hbound
  generalize session.machine.storage session.symbols name =
    binding at hstored hbind
  have hline : (Statement.mk (some binding) (.variableNamed name)).line =
      ⟨some name, .variableNamed name⟩ := by
    rw [Statement.line, Option.map_some, hstored]
  have htokens :
      (Statement.mk (some binding) (.variableNamed name)).line.tokens =
      (TokenStream.scan ("def " ++ name ++ " = " ++ name)).lineTokens := by
    rw [hword.lineTokens_scan_definition, hline]
    rfl
  have hsame : environment.afterLine ⟨some name, .variableNamed name⟩ =
      environment := by
    rcases Option.isSome_iff_exists.mp
      ((environment.lookup_isSome_iff name).mpr hname) with ⟨value, hvalue⟩
    apply Environment.define_of_lookup
    simp [Expression.variableNamed, Expression.value, Term.value, Factor.value,
      Environment.valueOf, hvalue]
  have hbinds : forall other, some binding = some other ->
      (session.machine.scope session.symbols session.maxDepth).bind other.name =
        .ok other := by
    intro other hother
    rw [← Option.some.inj hother, hstored, hbind]
  have hevaluates :=
    h.evaluate_variableNamed _ (some binding) hname htokens hbinds hroom
  rwa [hline, hsame] at hevaluates

theorem exists_of_mem_definedVariables (h : session.Holds config environment)
    {var : Variable} (hvar : var ∈ session.definedVariables) :
    var.name ∈ environment.names ∧
    environment.lookup var.name = some var.value := by
  rw [h.definedVariables] at hvar
  rcases List.mem_mapIdx.mp hvar with ⟨i, hi, rfl⟩
  have hmem := List.getElem_mem hi
  refine ⟨hmem, ?_⟩
  rcases Option.isSome_iff_exists.mp
    ((environment.lookup_isSome_iff _).mpr hmem) with ⟨value, hvalue⟩
  simp only [hvalue, Option.getD_some]

end Holds

/-- What can be done with a variable by its name. -/
structure ReadsBack (session : Session) (var : Variable) : Prop where
  name : IsName var.name
  scanned : (TokenStream.scan var.name).toList =
    [⟨.name var.name, ⟨0, byteLength var.name.toList⟩⟩,
      ⟨.endOfInput, ⟨byteLength var.name.toList, byteLength var.name.toList⟩⟩]
  read : (session.evaluate var.name).2 = .ok var.value
  redefined :
    (session.evaluate ("def " ++ var.name ++ " = " ++ var.name)).2 =
        .ok var.value ∧
      (session.evaluate ("def " ++ var.name ++ " = " ++
        var.name)).1.definedVariables =
        session.definedVariables

theorem readsBack_of_mem {var : Variable} (hreach : session.Reachable config)
    (hvar : var ∈ session.definedVariables) : session.ReadsBack var := by
  rcases hreach.holds_names with ⟨environment, h, hnames⟩
  rcases h.exists_of_mem_definedVariables hvar with ⟨hmem, hlookup⟩
  rcases hnames var.name hmem with ⟨hword, hroom⟩
  have hvalue : environment.valueOf var.name = var.value := by
    rw [Environment.valueOf, hlookup, Option.getD_some]
  rcases h.evaluate_definition hmem hword hroom with ⟨after, hevaluate, hafter⟩
  refine ⟨hword, hword.toList_scan, ?_, ?_⟩
  · rw [h.evaluate_name hmem hword (Nat.le_trans (by decide) hroom), hvalue]
  · rw [hevaluate, hafter.definedVariables, h.definedVariables, hvalue]
    exact ⟨rfl, rfl⟩

/-- A name that looks like an equation with a malformed number in it, and beyond
ASCII. -/
theorem readsBack_of_odd_name :
    Session.ReadsBack ((Session.new ⟨5, 6, 0⟩).after [.evaluate "def x=1.5.é = 2"])
      ⟨"x=1.5.é", 5, .ofBits 0x4000000000000000⟩ :=
  readsBack_of_mem (⟨_, rfl⟩ : Session.Reachable _ ⟨5, 6, 0⟩)
    (by decide +kernel)

end Session

end LineCalc
