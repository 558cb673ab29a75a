import Mathlib.Data.List.Induction
import LineCalc.Proofs.Session.History
import LineCalc.Proofs.Statement.Storage

/-!
# The storage of a session

Whatever is asked of a session, its storage says which definitions succeeded:
the names have consecutive addresses in the order in which they were first
defined, and their cells hold the values that they were given last.  A new name
is refused exactly if these cells leave no room below the stack.
-/

namespace LineCalc

/-!
## Environments as definitions leave them
-/

namespace Environment

theorem defineAll_concat (environment : Environment) (definitions : Definitions)
    (last : String × Binary64) :
    environment.defineAll (definitions ++ [last]) =
      (environment.defineAll definitions).define last.1 last.2 :=
  environment.defineAll_append definitions [last]

theorem names_defineAll (definitions : Definitions) :
    names (defineAll [] definitions) = definitions.names := by
  induction definitions using List.reverseRecOn with
  | nil => rfl
  | append_singleton definitions last ih =>
      unfold Definitions.names at ih ⊢
      rw [defineAll_concat, names_define, ih, List.map_append,
        List.eraseDups_append]
      simp only [List.mem_eraseDups]
      by_cases hbound : last.1 ∈ definitions.map Prod.fst
      · rw [if_pos hbound]
        simp [List.removeAll, hbound]
      · rw [if_neg hbound]
        simp [List.removeAll, hbound, List.eraseDups_cons]

theorem lookup_defineAll (definitions : Definitions) (name : String) :
    List.lookup name (defineAll [] definitions) = definitions.value? name := by
  induction definitions using List.reverseRecOn with
  | nil => rfl
  | append_singleton definitions last ih =>
      unfold Definitions.value? at ih ⊢
      rw [defineAll_concat, lookup_define, ih, List.reverse_concat, lookup_cons]
      simp only [eq_comm]

theorem names_prefix_defineAll (environment : Environment)
    (definitions : Definitions) :
    environment.names <+: (environment.defineAll definitions).names := by
  induction definitions generalizing environment with
  | nil => exact List.prefix_rfl
  | cons first rest ih =>
      have hfirst :
          environment.names <+: (environment.define first.1 first.2).names := by
        rw [names_define]
        split
        · exact List.prefix_rfl
        · exact List.prefix_append _ _
      exact hfirst.trans (ih _)

end Environment

/-!
## Refusals
-/

def EvalError.isStorage : EvalError -> Bool
  | .parse (.storage _) => true
  | .machine (.heapExhausted _ _ _) => true
  | _ => false

namespace Session

variable {session : Session} {config : Config} {environment : Environment}

namespace Holds

theorem room_iff (h : session.Holds config environment) :
    session.machine.stack < session.machine.heap + 1 <->
      config.stackTop - config.heapBase ≤ environment.length := by
  rw [h.stack, h.stores.heap]
  omega

theorem parse_storage_iff (h : session.Holds config environment)
    (line : String) :
    (exists failure, session.parse line = .error failure ∧
        (EvalError.parse failure.error).isStorage = true) <->
      exists name, Token.definedName? (TokenStream.scan line).lineTokens =
          some name ∧
        name ∉ environment.names ∧
        config.stackTop - config.heapBase ≤ environment.length := by
  have hfresh : forall name, session.symbols.lookup? name = none <->
      name ∉ environment.names := by
    intro name
    rw [← h.stores.lookup?_isSome, Bool.not_eq_true, Option.isSome_eq_false_iff,
      Option.isNone_iff_eq_none]
  constructor
  · intro hfailure
    rcases hfailure with ⟨⟨error, registers⟩, hparse, hstorage⟩
    cases error with
    | storage cause =>
        rcases Statement.parse_storage_iff.mp ⟨registers, hparse⟩ with
          ⟨name, hname, hbind⟩
        rcases Machine.bind_scope_eq_error_iff.mp hbind with ⟨hnone, hfull, _⟩
        exact ⟨name, hname, (hfresh name).mp hnone, h.room_iff.mp hfull⟩
    | _ => cases hstorage
  · intro hname
    rcases hname with ⟨name, hname, hnew, hfull⟩
    have hbind :
        (session.machine.scope session.symbols session.maxDepth).bind name =
        .error (.heapExhausted 1 session.machine.heap session.machine.stack) :=
      Machine.bind_scope_eq_error_iff.mpr
        ⟨(hfresh name).mpr hnew, h.room_iff.mpr hfull, rfl⟩
    rcases Statement.parse_storage_iff.mpr ⟨name, hname, hbind⟩ with
      ⟨registers, hparse⟩
    exact ⟨_, hparse, rfl⟩

theorem evaluate_storage_iff (h : session.Holds config environment)
    (line : String) :
    (exists cause, (session.evaluate line).2 = .error cause ∧
      cause.isStorage = true) <->
      exists failure, session.parse line = .error failure ∧
        (EvalError.parse failure.error).isStorage = true := by
  cases h.outcome line with
  | unparsed hparse hevaluate _ => simp [hparse, hevaluate]
  | tooLarge hparse _ hevaluate _ =>
      simp [hparse, hevaluate, EvalError.isStorage]
  | runs hparse _ hevaluate _ _ _ => simp [hparse, hevaluate]

theorem compile_storage_iff (h : session.Holds config environment)
    (line : String) :
    (exists cause, (session.compile line).2 = .error cause ∧
      cause.isStorage = true) <->
      exists failure, session.parse line = .error failure ∧
        (EvalError.parse failure.error).isStorage = true := by
  cases h.outcome line with
  | unparsed hparse _ hcompile => simp [hparse, hcompile]
  | tooLarge hparse _ _ hcompile => simp [hparse, hcompile, EvalError.isStorage]
  | runs hparse _ _ hcompile _ _ => simp [hparse, hcompile]

/-!
## Cells and listings
-/

theorem toList_symbols (h : session.Holds config environment) :
    session.symbols.toList =
      environment.names.mapIdx fun i name => (name, config.heapBase + i) := by
  unfold SymbolTable.toList
  rw [h.stores.entries]
  apply List.mergeSort_of_pairwise
  rw [List.pairwise_iff_getElem]
  intro i j hi hj hij
  simp only [List.getElem_mapIdx, decide_eq_true_eq]
  exact Nat.add_le_add_left (Nat.le_of_lt hij) _

theorem definedVariables (h : session.Holds config environment) :
    session.definedVariables = environment.names.mapIdx fun i name =>
      ⟨name, config.heapBase + i, (environment.lookup name).getD .nan⟩ := by
  unfold Session.definedVariables
  rw [h.toList_symbols]
  apply List.ext_getElem?
  intro i
  simp only [List.getElem?_map, List.getElem?_mapIdx, Option.map_map]
  cases hname : environment.names[i]? with
  | none => rfl
  | some name =>
      rcases Environment.entry_of_getElem? h.names hname with
        ⟨value, hlookup, hentry⟩
      simp only [Option.map_some, Function.comp, h.stores.read?,
        hlookup, hentry]

theorem word?_of_getElem? (h : session.Holds config environment) {i : Nat}
    {name : String} (hname : environment.names[i]? = some name) :
    exists value, environment.lookup name = some value ∧
      session.machine.word? (config.heapBase + i) = some (.data value) := by
  rcases Environment.entry_of_getElem? h.names hname with
    ⟨value, hlookup, hentry⟩
  refine ⟨value, hlookup, ?_⟩
  rw [h.stores.cells, hentry]
  rfl

theorem word?_eq_none (h : session.Holds config environment) {address : Nat}
    (haddress : config.heapBase + environment.length ≤ address) :
    session.machine.word? address = none := by
  rcases Nat.exists_eq_add_of_le haddress with ⟨offset, rfl⟩
  rw [Nat.add_assoc, h.stores.cells,
    List.getElem?_eq_none (Nat.le_add_right _ offset)]
  rfl

theorem lookup?_after (h : session.Holds config environment)
    (calls : List Call) {i : Nat} {name : String}
    (hname : environment.names[i]? = some name) :
    (session.after calls).lookup? name = some (config.heapBase + i) := by
  have hafter := h.after calls
  have hkept := environment.names_prefix_defineAll (session.definitions calls)
  rcases List.getElem?_eq_some_iff.mp hname with ⟨hi, hhere⟩
  have hlater := List.prefix_iff_getElem?.mp hkept i hi
  rw [hhere] at hlater
  rw [Session.lookup?, hafter.stores.lookup?,
    if_pos (List.mem_of_getElem? hlater),
    Environment.place_of_getElem? hafter.names hlater]

end Holds

/-!
## Whole histories
-/

/-- What storage looks like when the definitions of a history have succeeded. -/
structure Records (session : Session) (config : Config)
    (definitions : Definitions) : Prop where
  heap : session.machine.heap = config.heapBase + definitions.names.length
  bound : forall i name, definitions.names[i]? = some name -> forall calls,
    (session.after calls).lookup? name = some (config.heapBase + i)
  unbound : forall name, name ∉ definitions.names -> session.lookup? name = none
  listing : session.definedVariables = definitions.names.mapIdx fun i name =>
    ⟨name, config.heapBase + i, (definitions.value? name).getD .nan⟩
  cells : forall i name, definitions.names[i]? = some name ->
    exists value, definitions.value? name = some value ∧
      session.machine.word? (config.heapBase + i) = some (.data value)
  vacant : forall address,
    config.heapBase + definitions.names.length ≤ address ->
    session.machine.word? address = none
  idle : session.machine.registersInUse = 0
  cleared : session.machine.registers = .empty
  refused : forall line,
    ((exists cause, (session.evaluate line).2 = .error cause ∧
      cause.isStorage = true) <->
      exists name, Token.definedName? (TokenStream.scan line).lineTokens =
          some name ∧
        name ∉ definitions.names ∧
        config.stackTop - config.heapBase ≤ definitions.names.length) ∧
    ((exists cause, (session.compile line).2 = .error cause ∧
      cause.isStorage = true) <->
      exists cause, (session.evaluate line).2 = .error cause ∧
        cause.isStorage = true)

theorem records_definitions (config : Config) (calls : List Call) :
    ((Session.new config).after calls).Records config
      ((Session.new config).definitions calls) := by
  have h := (Holds.new config).after calls
  have hnames :=
    Environment.names_defineAll ((Session.new config).definitions calls)
  have hlookup :=
    Environment.lookup_defineAll ((Session.new config).definitions calls)
  generalize (Session.new config).after calls = session at h ⊢
  generalize (Session.new config).definitions calls =
    definitions at h hnames hlookup ⊢
  generalize Environment.defineAll [] definitions =
    environment at h hnames hlookup
  have hlength : List.length environment = definitions.names.length := by
    rw [← hnames, Environment.length_names]
  constructor
  · rw [h.stores.heap, hlength]
  · intro i name hname more
    rw [← hnames] at hname
    exact h.lookup?_after more hname
  · intro name hname
    rw [← hnames] at hname
    rw [Session.lookup?, h.stores.lookup?, if_neg hname]
  · rw [h.definedVariables, hnames]
    simp only [hlookup]
  · intro i name hname
    rw [← hnames] at hname
    rw [← hlookup]
    exact h.word?_of_getElem? hname
  · intro address haddress
    rw [← hlength] at haddress
    exact h.word?_eq_none haddress
  · exact h.idle
  · exact h.cleared
  · intro line
    constructor
    · rw [h.evaluate_storage_iff, h.parse_storage_iff, hnames, hlength]
    · rw [h.evaluate_storage_iff, h.compile_storage_iff]

end Session

end LineCalc
