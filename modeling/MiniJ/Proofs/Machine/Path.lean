import MiniJ.Proofs.Machine.Execution
import Mathlib.Logic.Relation

/-!
# Paths through a block of code

Code with labels runs by position: an instruction goes on to the next line, a jump goes to its
label. A call runs the callee and goes on behind it.

## Main definitions

* `Machine.Step` — one line.
* `Machine.Reaches` — any number of lines.
-/
namespace MiniJ

namespace Machine

/-- One line of a block runs. A state is the position of the next line and the machine. -/
inductive Step (env : Environment) (code : List Line) : Nat × Machine → Nat × Machine → Prop
  | label {i : Nat} {name : String} {m : Machine} (line : code[i]? = some (.label name)) :
      Step env code (i, m) (i + 1, m)
  | exec {i : Nat} {mnemonic : Mnemonic} {operands : List Operand} {m m' : Machine}
      (line : code[i]? = some (.instruction mnemonic operands))
      (exec : m.exec env mnemonic operands = some m') : Step env code (i, m) (i + 1, m')
  | call {i : Nat} {name : String} {back : Word} {m m₁ m₂ : Machine}
      (line : code[i]? = some (.instruction .call [.label name]))
      (pushed : m.push env back = some m₁) (callee : env.callee name m₁ m₂) :
      Step env code (i, m) (i + 1, m₂)
  | jmp {i j : Nat} {name : String} {m : Machine}
      (line : code[i]? = some (.instruction .jmp [.label name]))
      (target : code[j]? = some (.label name)) : Step env code (i, m) (j, m)
  | taken {i j : Nat} {condition : Condition} {name : String} {x y : Word} {m : Machine}
      (line : code[i]? = some (.instruction (.jump condition) [.label name]))
      (flags : m.flags = some (x, y)) (holds : condition.holds x y = true)
      (target : code[j]? = some (.label name)) : Step env code (i, m) (j, m)
  | passed {i : Nat} {condition : Condition} {name : String} {x y : Word} {m : Machine}
      (line : code[i]? = some (.instruction (.jump condition) [.label name]))
      (flags : m.flags = some (x, y)) (fails : condition.holds x y = false) :
      Step env code (i, m) (i + 1, m)

namespace Step

variable {env : Environment} {code : List Line} {i : Nat} {m : Machine} {y : Nat × Machine}

/-- Instructions that do not always go on to the next line. -/
def leavesLine : Mnemonic → Bool
  | .call | .jmp | .jump _ => true
  | _ => false

theorem of_label {name : String} (h : Step env code (i, m) y)
    (line : code[i]? = some (.label name)) : y = (i + 1, m) := by
  cases h with
  | label => rfl
  | exec line' | call line' | jmp line' | taken line' | passed line' => cases line.symm.trans line'

theorem of_instruction {mnemonic : Mnemonic} {operands : List Operand} (h : Step env code (i, m) y)
    (line : code[i]? = some (.instruction mnemonic operands))
    (goesOn : leavesLine mnemonic = false) :
    ∃ m', m.exec env mnemonic operands = some m' ∧ y = (i + 1, m') := by
  cases h with
  | label line' => cases line.symm.trans line'
  | exec line' exec =>
    cases line.symm.trans line'
    exact ⟨_, exec, rfl⟩
  | call line' | jmp line' | taken line' | passed line' =>
    cases line.symm.trans line'
    cases goesOn

theorem of_call {name : String} (h : Step env code (i, m) y)
    (line : code[i]? = some (.instruction .call [.label name])) :
    ∃ back m₁ m₂, m.push env back = some m₁ ∧ env.callee name m₁ m₂ ∧ y = (i + 1, m₂) := by
  cases h with
  | label line' => cases line.symm.trans line'
  | exec line' exec =>
    cases line.symm.trans line'
    cases exec
  | call line' pushed callee =>
    cases line.symm.trans line'
    exact ⟨_, _, _, pushed, callee, rfl⟩
  | jmp line' | taken line' | passed line' => cases line.symm.trans line'

theorem of_jmp {name : String} (h : Step env code (i, m) y)
    (line : code[i]? = some (.instruction .jmp [.label name])) :
    ∃ j, code[j]? = some (.label name) ∧ y = (j, m) := by
  cases h with
  | label line' => cases line.symm.trans line'
  | exec line' exec =>
    cases line.symm.trans line'
    cases exec
  | jmp line' target =>
    cases line.symm.trans line'
    exact ⟨_, target, rfl⟩
  | call line' | taken line' | passed line' => cases line.symm.trans line'

theorem of_jump {condition : Condition} {name : String} (h : Step env code (i, m) y)
    (line : code[i]? = some (.instruction (.jump condition) [.label name])) :
    ∃ x x', m.flags = some (x, x') ∧
      ((condition.holds x x' = true ∧ ∃ j, code[j]? = some (.label name) ∧ y = (j, m)) ∨
        (condition.holds x x' = false ∧ y = (i + 1, m))) := by
  cases h with
  | label line' => cases line.symm.trans line'
  | exec line' exec =>
    cases line.symm.trans line'
    cases exec
  | call line' | jmp line' => cases line.symm.trans line'
  | taken line' flags holds target =>
    cases line.symm.trans line'
    exact ⟨_, _, flags, .inl ⟨holds, _, target, rfl⟩⟩
  | passed line' flags fails =>
    cases line.symm.trans line'
    exact ⟨_, _, flags, .inr ⟨fails, rfl⟩⟩

end Step

/-- Any number of lines run. -/
def Reaches (env : Environment) (code : List Line) : Nat × Machine → Nat × Machine → Prop :=
  Relation.ReflTransGen (Step env code)

/-- What holds at first and is kept by every line holds wherever a path leads. -/
theorem Reaches.invariant {env : Environment} {code : List Line} {P : Nat × Machine → Prop}
    {start stop : Nat × Machine} (h : Reaches env code start stop) (hstart : P start)
    (hstep : ∀ {x y}, P x → Step env code x y → P y) : P stop := by
  induction h with
  | refl => exact hstart
  | tail _ step ih => exact hstep ih step

end Machine

end MiniJ
