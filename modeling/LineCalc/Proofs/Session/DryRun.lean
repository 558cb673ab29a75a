import LineCalc.Proofs.Session.History

/-!
# Lines that are compiled

Compiling a line is a dry run of its evaluation.  It leaves the session as it
was, fails exactly as the evaluation does, and otherwise gives the code and the
storage that are found in the session once the line has been evaluated.
-/

namespace LineCalc

def Binding.newCells : Option Binding -> Nat
  | some (.new _ _) => 1
  | _ => 0

/-- What a program and its binding tell of the session after their line: the
program is in memory from address 0 on, also after it has run, the variable is
bound to its storage, and the heap has grown by the storage that is new. -/
structure Compiled.Foretells (compiled : Compiled)
    (before after : Session) : Prop where
  code : forall i instruction, compiled.code[i]? = some instruction ->
    after.machine.word? i = some (.code instruction)
  bound : forall binding, compiled.binding = some binding ->
    after.lookup? binding.name = some binding.address
  heap : after.machine.heap =
    before.machine.heap + Binding.newCells compiled.binding

namespace Session

variable {session : Session} {config : Config} {environment : Environment}

namespace Holds

theorem lookup?_afterLine {after : Session} {line : String}
    {statement : Statement} {binding : Binding}
    (h : session.Holds config environment)
    (hparse : session.parse line = .ok statement)
    (hafter : after.Holds config (environment.afterLine statement.line))
    (hbinding : statement.binding = some binding) :
    after.lookup? binding.name = some binding.address := by
  have haddress := h.address_of_parse hparse
  have hdefined : statement.line.defined = some binding.name := by
    simp [Statement.line, hbinding]
  rw [hbinding, hdefined, Option.map_some, Option.map_some,
    Option.some.injEq] at haddress
  unfold Environment.afterLine at hafter
  simp only [hdefined] at hafter
  have hmem : binding.name ∈
      (environment.define binding.name
        (statement.line.body.value environment.valueOf)).names := by
    rw [Environment.names_define]
    split
    · assumption
    · simp
  rw [Session.lookup?, hafter.stores.lookup?, if_pos hmem,
    Environment.place_define, haddress]

theorem heap_afterLine {after : Session} {line : String} {statement : Statement}
    (h : session.Holds config environment)
    (hparse : session.parse line = .ok statement)
    (hafter : after.Holds config (environment.afterLine statement.line)) :
    after.machine.heap =
      session.machine.heap + Binding.newCells statement.binding := by
  rw [hafter.stores.heap, h.stores.heap, binding_of_parse hparse]
  unfold Environment.afterLine
  cases statement.line.defined with
  | none => rfl
  | some name =>
      simp only [Option.map_some, Machine.storage, h.stores.lookup?,
        Environment.length_define]
      by_cases hname : name ∈ environment.names
      · simp [hname, Binding.newCells]
      · simp [hname, Binding.newCells, Nat.add_assoc]

end Holds

/-- Compiling a line is a dry run of its evaluation.  Of all that the machine
may refuse, a line meets with nothing but the limit on the length of
programs. -/
theorem compile_is_dry_run (hreach : session.Reachable config) (line : String) :
    (session.compile line).1 = session ∧
    (forall cause, (session.compile line).2 = .error cause <->
      (session.evaluate line).2 = .error cause) ∧
    (forall compiled, (session.compile line).2 = .ok compiled ->
      compiled.Foretells session (session.evaluate line).1) ∧
    forall cause, (session.compile line).2 = .error (.machine cause) ∨
        (session.evaluate line).2 = .error (.machine cause) ->
      exists length, cause = .programTooLarge length config.heapBase ∧
        config.heapBase < length := by
  rcases hreach.holds with ⟨environment, h⟩
  refine ⟨h.compile_fst line, ?_⟩
  cases h.outcome line with
  | unparsed _ hevaluate hcompile => simp [hevaluate, hcompile]
  | @tooLarge statement _ hlarge hevaluate hcompile =>
      rw [hevaluate, hcompile]
      refine ⟨fun cause => by simp, ?_, ?_⟩
      · intro compiled hcompiled
        cases hcompiled
      · intro cause hcause
        rcases hcause with hcause | hcause <;> cases hcause <;>
          exact ⟨_, rfl, hlarge⟩
  | @runs statement after hparse hfits hevaluate hcompile hafter hcode =>
      rw [hevaluate, hcompile]
      refine ⟨fun cause => by simp, ?_, by simp⟩
      intro compiled hcompiled
      cases hcompiled
      constructor
      · intro i instruction hi
        have hcell := hcode i instruction hi
        rwa [Nat.zero_add] at hcell
      · intro binding hbinding
        exact h.lookup?_afterLine hparse hafter hbinding
      · exact h.heap_afterLine hparse hafter

/-- A new variable, computed from one that is there. -/
theorem compile_foretells_quotient :
    let session := (Session.new .standard).after [.evaluate "def x = 5"]
    (session.compile "def y = x / 2").1 = session ∧
      Compiled.Foretells
        ⟨[.load 2 1000, .loadImmediate 3 (.ofBits 0x4000000000000000),
            .binary (.multiplicative .over) 2 3 4, .move 4 1, .move 1 0,
            .store 1001 0, .halt],
          some (.new "y" 1001), 5⟩
        session (session.evaluate "def y = x / 2").1 := by
  have h :=
    @compile_is_dry_run _ .standard ⟨[.evaluate "def x = 5"], rfl⟩
      "def y = x / 2"
  exact ⟨h.left, h.right.right.left _ (by decide +kernel)⟩

end Session

end LineCalc
