import LineCalc.Proofs.Session.Allocation
import LineCalc.Proofs.Tree.Relocation
import LineCalc.Session.Transcript

/-!
# Higher limits

A script that works under one configuration works under every more generous one,
with the same answers.  Two sessions that hold the same environment under the
two configurations differ in addresses only, by the distance of the heap bases.
Every line that the first one accepts keeps it so: it passes each of the three
limits of the second one because it passes that of the first one.
-/

namespace LineCalc

theorem nestsWithin_of_le {limit higher : Nat} {tokens : List Token}
    (h : NestsWithin limit tokens) (hle : limit ≤ higher) :
    NestsWithin higher tokens := by
  intro read hread
  exact Nat.le_trans (h read hread) (Nat.add_le_add_right hle _)

@[simp] theorem Statement.line_relocate (distance : Nat)
    (statement : Statement) :
    (statement.relocate distance).line = statement.line := by
  rcases statement with ⟨binding, body⟩
  cases binding <;> simp [Statement.relocate, Statement.line]

namespace Session.Holds

variable {session other : Session} {config raised : Config}
  {environment : Environment} {distance : Nat}

/-!
## Storage
-/

theorem lookup?_relocate (h : session.Holds config environment)
    (hother : other.Holds raised environment)
    (hbase : raised.heapBase = config.heapBase + distance) (name : String) :
    other.symbols.lookup? name =
      (session.symbols.lookup? name).map (· + distance) := by
  rw [h.stores.lookup?, hother.stores.lookup?, hbase]
  split
  · rw [Option.map_some, Nat.add_right_comm]
  · rfl

theorem storage_relocate (h : session.Holds config environment)
    (hother : other.Holds raised environment)
    (hbase : raised.heapBase = config.heapBase + distance) (name : String) :
    other.machine.storage other.symbols name =
      (session.machine.storage session.symbols name).relocate distance := by
  have hheap : other.machine.heap = session.machine.heap + distance := by
    rw [h.stores.heap, hother.stores.heap, hbase, Nat.add_right_comm]
  unfold Machine.storage
  rw [h.lookup?_relocate hother hbase, hheap]
  cases session.symbols.lookup? name <;> rfl

theorem moved (h : session.Holds config environment)
    (hother : other.Holds raised environment)
    (hbase : raised.heapBase = config.heapBase + distance) {tokens : List Token}
    (hbound : forall name, .name name ∈ tokens ->
      (session.symbols.lookup? name).isSome) :
    Moved (session.machine.scope session.symbols session.maxDepth).address
      (other.machine.scope other.symbols other.maxDepth).address
        distance tokens := by
  intro name hname
  rcases Option.isSome_iff_exists.mp (hbound name hname) with
    ⟨address, haddress⟩
  simp only [Scope.address, Machine.scope,
    h.lookup?_relocate hother hbase, haddress, Option.map_some,
    Option.getD_some]

/-!
## Lines
-/

theorem parse_relocate (h : session.Holds config environment)
    (hother : other.Holds raised environment) (hraised : config.RaisedTo raised)
    (hbase : raised.heapBase = config.heapBase + distance) {line : String}
    {statement : Statement} (hparse : session.parse line = .ok statement) :
    other.parse line = .ok (statement.relocate distance) := by
  rcases Statement.parse_eq_ok_iff.mp hparse with ⟨htokens, hadmits, hbind⟩
  apply Statement.parse_eq_ok_iff.mpr
  refine ⟨?_, ⟨?_, ?_⟩, ?_⟩
  · rw [Statement.line_relocate]
    exact htokens
  · intro name hname
    have hbound := hadmits.bound name hname
    simp only [Machine.scope] at hbound ⊢
    rwa [h.lookup?_relocate hother hbase, Option.isSome_map]
  · apply nestsWithin_of_le hadmits.nests
    simp only [Machine.scope, h.maxDepth, hother.maxDepth, Nat.sub_zero]
    exact hraised.maxDepth
  · intro binding hbinding
    rcases Option.map_eq_some_iff.mp hbinding with ⟨before, hbefore, rfl⟩
    rcases Machine.bind_scope_eq_ok_iff.mp (hbind before hbefore) with
      ⟨hstorage, hroom⟩
    rw [Binding.name_relocate]
    apply Machine.bind_scope_eq_ok_iff.mpr
    rw [h.storage_relocate hother hbase, ← hstorage]
    refine ⟨rfl, ?_⟩
    intro hfresh
    rw [h.lookup?_relocate hother hbase, Option.map_eq_none_iff] at hfresh
    have hspace := hroom hfresh
    have hmore := hraised.room
    rw [h.stores.heap, h.stack] at hspace
    rw [hother.stores.heap, hother.stack]
    omega

theorem program_relocate (h : session.Holds config environment)
    (hother : other.Holds raised environment)
    (hbase : raised.heapBase = config.heapBase + distance) {line : String}
    {statement : Statement} (hparse : session.parse line = .ok statement) :
    other.program (statement.relocate distance) =
      (session.program statement).map (.relocate distance) := by
  rcases Statement.parse_eq_ok_iff.mp hparse with ⟨_, hadmits, _⟩
  exact statement.program_of_moved 0 (h.moved hother hbase hadmits.bound)

theorem definedVariables_relocate (h : session.Holds config environment)
    (hother : other.Holds raised environment)
    (hbase : raised.heapBase = config.heapBase + distance) :
    other.definedVariables =
      session.definedVariables.map (.relocate distance) := by
  rw [h.definedVariables, hother.definedVariables, hbase]
  apply List.ext_getElem?
  intro i
  simp only [List.getElem?_mapIdx, List.getElem?_map, Option.map_map]
  cases environment.names[i]? with
  | none => rfl
  | some name =>
      simp only [Option.map_some, Function.comp, Variable.relocate,
        Nat.add_right_comm]

/-- A line that is answered under the lower limits is answered alike under the
higher ones, and both sessions hold the same environment again. -/
theorem evaluate_relocate (h : session.Holds config environment)
    (hother : other.Holds raised environment) (hraised : config.RaisedTo raised)
    (hbase : raised.heapBase = config.heapBase + distance) {line : String}
    (hok : (session.evaluate line).2.isOk) :
    (other.evaluate line).2 = (session.evaluate line).2 ∧
      (other.compile line).2 =
        (session.compile line).2.map (Compiled.relocate distance) ∧
      exists later, (session.evaluate line).1.Holds config later ∧
        (other.evaluate line).1.Holds raised later := by
  cases h.outcome line with
  | unparsed _ hevaluate _ =>
      rw [hevaluate] at hok
      cases hok
  | tooLarge _ _ hevaluate _ =>
      rw [hevaluate] at hok
      cases hok
  | @runs statement after hparse hfits hevaluate hcompile hafter _ =>
      have hparsed := h.parse_relocate hother hraised hbase hparse
      have hprogram := h.program_relocate hother hbase hparse
      have hlength : (other.program (statement.relocate distance)).length ≤
          raised.heapBase := by
        rw [hprogram, List.length_map]
        exact Nat.le_trans hfits hraised.heapBase
      rcases hother.evaluate_of_fits hparsed hlength with
        ⟨later, hlater, hholds, _⟩
      rw [Statement.line_relocate] at hholds
      rw [hevaluate, hcompile, hlater,
        hother.compile_of_fits hparsed hlength, hprogram]
      exact ⟨rfl, rfl, _, hafter, hholds⟩

theorem transcript_relocate (h : session.Holds config environment)
    (hother : other.Holds raised environment) (hraised : config.RaisedTo raised)
    (hbase : raised.heapBase = config.heapBase + distance)
    {script : List String}
    (hok : forall record, record ∈ session.transcript script ->
      record.answer.isOk) :
    other.transcript script =
      (session.transcript script).map (.relocate distance) := by
  induction script generalizing session other environment with
  | nil => rfl
  | cons line rest ih =>
      have hfirst : (session.evaluate line).2.isOk = true :=
        hok _ List.mem_cons_self
      rcases h.evaluate_relocate hother hraised hbase hfirst with
        ⟨hanswer, hcompiled, later, hafter, hotherAfter⟩
      have hrest := ih hafter hotherAfter
        (fun record hrecord => hok record (List.mem_cons_of_mem _ hrecord))
      simp only [transcript, List.map_cons, LineRecord.relocate]
      rw [hanswer, hcompiled,
        hafter.definedVariables_relocate hotherAfter hbase, hrest]

end Session.Holds

/-!
## Scripts
-/

namespace Session

/-- Raising limits does not change what a working script does: under the higher
limits every line compiles to the same program up to the addresses, which are
larger by the distance of the heap bases, gives the same answer, and leaves the
same variables. -/
theorem transcript_of_raised {config raised : Config} {script : List String}
    (hraised : config.RaisedTo raised)
    (hok : forall record, record ∈ (Session.new config).transcript script ->
      record.answer.isOk) :
    (Session.new raised).transcript script =
      ((Session.new config).transcript script).map
        (.relocate (raised.heapBase - config.heapBase)) := by
  have hbase : raised.heapBase =
      config.heapBase + (raised.heapBase - config.heapBase) :=
    (Nat.add_sub_of_le hraised.heapBase).symm
  exact (Holds.new config).transcript_relocate
    (Holds.new raised) hraised hbase hok

/-- Limits that are just high enough, and the standard ones. -/
theorem transcript_of_tight_limits :
    (Session.new .standard).transcript ["def x = (5)", "def y = x * 2",
      "def x = y / x"] =
      ((Session.new ⟨10, 12, 1⟩).transcript
        ["def x = (5)", "def y = x * 2",
          "def x = y / x"]).map (.relocate 990) := by
  have hraised : Config.RaisedTo ⟨10, 12, 1⟩ .standard :=
    ⟨by decide, by decide, by decide⟩
  exact transcript_of_raised hraised (by decide +kernel)

end Session

end LineCalc
