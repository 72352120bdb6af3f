import MiniJ.Symbol.Table

/-!
# Builtins

Functions every program can call and none defines. They are declared before a program is bound and
dropped once its calls are resolved; the assembly only names them.
-/
namespace MiniJ

/-- A function implemented outside of the program. -/
structure Builtin where
  name : String
  returnType : Ty
  params : List Ty
  deriving DecidableEq, Repr

namespace Builtin

def all : List Builtin :=
  [⟨"readInt", .int, []⟩, ⟨"readChar", .int, []⟩, ⟨"writeInt", .void, [.int]⟩,
    ⟨"writeChar", .void, [.int]⟩, ⟨"_exit", .void, [.int]⟩]

def named? (name : String) : Option Builtin := all.find? (·.name == name)

/-- Overload without a definition. Its parameters are all called `x`. -/
def signature (b : Builtin) : Signature :=
  ⟨b.returnType, b.params.map fun ty => ⟨"x", ty, false⟩, none⟩

end Builtin

/-- Declares every builtin in the current scope. -/
def SymbolTable.withBuiltins (t : SymbolTable) : SymbolTable :=
  Builtin.all.foldl (fun t b => (t.declare b.name (.function [b.signature]) Span.empty).2) t

end MiniJ
