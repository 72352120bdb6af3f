/-!
# Faults and failures

A pass over a program fails in one of two ways. An error says something about the program and is
reported to its author. A fault says that the program, or the data describing it, lies outside what
the pass can represent: a number no node carries, a size that does not fit its word. Faults end a
run without a diagnostic and are never handled by a pass.
-/
namespace MiniJ

/-- Reasons to end a run without a diagnostic. -/
inductive Fault where
  /-- A node number outside of the arena. -/
  | danglingNode
  /-- A chain of nodes longer than any chain in a tree of this size. -/
  | cyclicArena
  /-- A scope number the symbol table does not have. -/
  | unknownScope
  /-- An entry number the symbol table does not have. -/
  | unknownEntry
  /-- A storage size or a stack offset that does not fit an unsigned 32-bit word. -/
  | sizeOverflow
  /-- An address displacement that does not fit a signed 32-bit word. -/
  | displacementOverflow
  /-- A register released while it is free. -/
  | freeRegister
  /-- More words taken from the stack than were put on it. -/
  | stackUnderflow
  /-- A call that passed the checker without a target. -/
  | unresolvedCall
  /-- More rounds of reading a program than it has tokens. -/
  | endlessLoop
  /-- A start of a line or a column that does not fit an unsigned 32-bit word. -/
  | positionOverflow
  deriving DecidableEq, Repr

/-- Why a pass stopped: an error to report, or a fault. -/
inductive Failure (ε : Type) where
  | reported (error : ε)
  | fault (fault : Fault)
  deriving DecidableEq, Repr

namespace Failure

/-- Relabels the reported error and keeps faults. -/
def map {ε δ : Type} (f : ε → δ) : Failure ε → Failure δ
  | reported e => reported (f e)
  | fault x => fault x

end Failure

/-- A computation that can only fault runs inside every pass. -/
instance {ε : Type} : MonadLift (Except Fault) (Except (Failure ε)) where
  monadLift := Except.mapError Failure.fault

instance {ε : Type} {m : Type → Type} [Monad m] :
    MonadLift (Except Fault) (ExceptT (Failure ε) m) where
  monadLift x := ExceptT.mk (pure (x.mapError Failure.fault))

end MiniJ
