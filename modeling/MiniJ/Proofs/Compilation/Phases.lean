import MiniJ.Compilation
import MiniJ.Proofs.Outcome

/-!
# Phases of a compilation

How a program that was read goes through the phases: what each of them was given when the whole
compilation succeeds, and which of them failed when it does not.
-/
namespace MiniJ

open Outcome

variable {last : Phase} {a : Arena}

/-- A fault or error of a phase is the failure of the compilation. -/
theorem mapError_bind_eq_error {ε δ α β : Type} {x : Except ε α} {f : ε → δ} {k : α → Except δ β}
    {e : δ} : (x.mapError f >>= k) = .error e ↔
      (∃ e', x = .error e' ∧ e = f e') ∨ ∃ v, x = .ok v ∧ k v = .error e := by
  cases x with
  | error e' => simp [Except.mapError, bind, Except.bind, eq_comm]
  | ok v => simp [Except.mapError, bind, Except.bind]

theorem mapError_bind_eq_ok {ε δ α β : Type} {x : Except ε α} {f : ε → δ} {k : α → Except δ β}
    {v : β} : (x.mapError f >>= k) = .ok v ↔ ∃ w, x = .ok w ∧ k w = .ok v := by
  cases x with
  | error e' => simp [Except.mapError, bind, Except.bind]
  | ok w => simp [Except.mapError, bind, Except.bind]

/-- Why a program that was read does not compile. -/
inductive Rejects (a : Arena) : Failure (List Diagnostic) → Prop
  | bind {failure : Failure SemanticError} {table : SymbolTable} {info : SemanticInfo}
      (bound : a.bind {} = (.error failure, table, info)) :
      Rejects a (failure.map Diagnostic.ofSemantic)
  | check {failure : Failure SemanticError} {table table' : SymbolTable} {info info' : SemanticInfo}
      (bound : a.bind {} = (.ok (), table, info))
      (checked : a.check table info = (.error failure, table', info')) :
      Rejects a (failure.map Diagnostic.ofSemantic)
  | targets {table table' : SymbolTable} {info info' : SemanticInfo} {fault : Fault}
      (bound : a.bind {} = (.ok (), table, info))
      (checked : a.check table info = (.ok (), table', info'))
      (missing : requireTargets a info' = .error fault) : Rejects a (.fault fault)
  | generate {failure : Failure CodegenError} {table table' : SymbolTable}
      {info info' : SemanticInfo} (bound : a.bind {} = (.ok (), table, info))
      (checked : a.check table info = (.ok (), table', info'))
      (generated : a.generate info' table' = .error failure) :
      Rejects a (failure.map fun e => [⟨.error, e.message, e.span⟩])

/-- A compilation that fails does so in one of its phases. -/
theorem rejects_of_compileArena {failure : Failure (List Diagnostic)}
    (h : compileArena last a = .error failure) : Rejects a failure := by
  unfold compileArena at h
  split at h
  · cases h
  · generalize hbound : a.bind {} = bound at h
    obtain ⟨result, table, info⟩ := bound
    rcases mapError_bind_eq_error.1 h with ⟨f, rfl, rfl⟩ | ⟨⟨⟩, rfl, hlater⟩
    · exact .bind hbound
    · split at hlater
      · cases hlater
      · generalize hchecked : a.check table info = checked at hlater
        obtain ⟨result, table', info'⟩ := checked
        rcases mapError_bind_eq_error.1 hlater with ⟨f, rfl, rfl⟩ | ⟨⟨⟩, rfl, hlast⟩
        · exact .check hbound hchecked
        · rcases mapError_bind_eq_error.1 hlast with ⟨f, hmissing, rfl⟩ | ⟨⟨⟩, -, hlast⟩
          · exact .targets hbound hchecked hmissing
          · split at hlast
            · cases hlast
            · rcases mapError_bind_eq_error.1 hlast with ⟨f, hgenerated, rfl⟩ | ⟨text, -, hdone⟩
              · exact .generate hbound hchecked hgenerated
              · cases hdone

/-- A program that went through all phases has assembly. -/
theorem assembly_of_compileArena {artifact : Artifact}
    (h : compileArena .generate a = .ok artifact) : ∃ text, artifact.assembly = some text := by
  unfold compileArena at h
  rw [if_neg (by decide)] at h
  obtain ⟨-, -, hbound⟩ := mapError_bind_eq_ok.1 h
  rw [if_neg (by decide)] at hbound
  obtain ⟨-, -, hchecked⟩ := mapError_bind_eq_ok.1 hbound
  obtain ⟨-, -, hresolved⟩ := mapError_bind_eq_ok.1 hchecked
  rw [if_neg (by decide)] at hresolved
  obtain ⟨text, -, hdone⟩ := mapError_bind_eq_ok.1 hresolved
  cases hdone
  exact ⟨text, rfl⟩

/-- A program compiles if it passes every phase. -/
theorem compileArena_eq_ok_iff {r : Artifact} : compileArena .generate a = .ok r ↔
    ∃ table info table' info' text, a.bind {} = (.ok (), table, info) ∧
      a.check table info = (.ok (), table', info') ∧ requireTargets a info' = .ok () ∧
      a.generate info' table' = .ok text ∧
      r = { arena := a, info := info', table := table', assembly := text } := by
  unfold compileArena
  simp only [reduceCtorEq, if_false]
  constructor
  · intro h
    generalize hbind : a.bind {} = bound at h
    obtain ⟨result, table, info⟩ := bound
    obtain ⟨⟨⟩, rfl, h⟩ := mapError_bind_eq_ok.1 h
    dsimp only at h
    generalize hcheck : a.check table info = checked at h
    obtain ⟨result, table', info'⟩ := checked
    obtain ⟨⟨⟩, rfl, h⟩ := mapError_bind_eq_ok.1 h
    obtain ⟨⟨⟩, htargets, h⟩ := bind_eq_ok.1 h
    obtain ⟨text, htext, h⟩ := mapError_bind_eq_ok.1 h
    cases pure_eq_ok.1 h
    exact ⟨table, info, table', info', text, rfl, hcheck, lift_eq_ok.1 htargets, htext, rfl⟩
  · rintro ⟨table, info, table', info', text, hbind, hcheck, htargets, htext, rfl⟩
    simp only [hbind, hcheck, htargets, htext, lift_ok]
    rfl

end MiniJ
