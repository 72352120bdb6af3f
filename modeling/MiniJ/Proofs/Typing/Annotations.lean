import MiniJ.Proofs.Lowering.Context

/-!
# Annotations of an accepted program

The side tables that the type checker leaves behind, node by node: what is noted at a node follows
from what is noted at its parts. Code generation reads the tables in this form and does not check
them again.

## Main statements

* `Accepted.validTyping` — the annotations of an accepted program are a valid typing.
-/
namespace MiniJ

namespace Arena

variable {a : Arena} {u : UnitNode} {table : SymbolTable} {info : SemanticInfo}

/-- The type `ty` of an expression of kind `k` is right, given what is noted at its parts. -/
def ValidType (a : Arena) (u : UnitNode) (table : SymbolTable) (info : SemanticInfo) (id : NodeId)
    (ty : Ty) : NodeKind → Prop
  | .int _ => ty = .int
  | .text _ => ty = .text
  | .bool _ => ty = .bool
  | .var _ => ∃ e entry isReference cls declaration, info.resolvedEntry id = some e ∧
      table.entry e = .ok entry ∧ entry.meaning = .var ty isReference cls declaration
  | .field base name => ∃ record fields f, info.typeOf base = some (.record record) ∧
      table.lookupRecord record = .ok (some fields) ∧ fields.find? (·.name == name) = some f ∧
      ty = f.ty
  | .element base index => info.typeOf base = some (.array ty) ∧ info.typeOf index = some .int
  | .unary op operand => (∃ inner, info.typeOf operand = some inner ∧ op.result? inner = some ty) ∧
      (op.isStep = true → a.IsPlace operand)
  | .binary op left right => ∃ l r, info.typeOf left = some l ∧ info.typeOf right = some r ∧
      op.result? l r = some ty
  | .call name args => ∃ sig : Signature, sig.Describes a u name ∧
      info.callTarget id = some (Typing.target name sig) ∧
      List.Forall₂ (fun arg param => info.typeOf arg = some param.ty ∧
        (param.isReference = true → a.IsPlace arg)) args sig.params ∧ ty = sig.returnType
  | _ => False

/-- A statement of kind `k` fits into a function that returns `ret`. -/
def ValidStatement (a : Arena) (table : SymbolTable) (info : SemanticInfo) (ret : Ty) :
    NodeKind → Prop
  | .declare d => a.KnownDeclaration table d
  | .assign target value => ∃ ty, info.typeOf target = some ty ∧ info.typeOf value = some ty
  | .branch condition _ _ | .loop condition _ => info.typeOf condition = some .bool
  | .ret none => ret = .void
  | .ret (some value) => info.typeOf value = some ret
  | _ => True

/-- What is noted at a node of a function that returns `ret`. -/
structure ValidNode (a : Arena) (u : UnitNode) (table : SymbolTable) (info : SemanticInfo)
    (ret : Ty) (id : NodeId) (k : NodeKind) : Prop where
  expression : k.role = .expression →
    ∃ ty, info.typeOf id = some ty ∧ a.ValidType u table info id ty k
  statement : a.ValidStatement table info ret k

/-- The annotations of a program are a valid typing: they are right at every node of every function
body, and every record that a declared type names is defined. -/
structure ValidTyping (a : Arena) (u : UnitNode) (table : SymbolTable) (info : SemanticInfo) :
    Prop where
  nodes : ∀ d ∈ u.functions, ∀ f, a.kind d = .ok (.function f) → ∀ r ∈ f.body, ∀ id,
    a.Below r id → ∃ k, a.kind id = .ok k ∧ a.ValidNode u table info f.returnType id k
  globals : ∀ g ∈ u.globals, a.KnownDeclaration table g
  fields : ∀ id ∈ u.records, ∀ r, a.kind id = .ok (.record r) →
    ∀ d ∈ r.fields, a.KnownDeclaration table d
  params : ∀ d ∈ u.functions, ∀ f, a.kind d = .ok (.function f) →
    ∀ p ∈ f.params, a.KnownDeclaration table p
  results : ∀ d ∈ u.functions, ∀ f, a.kind d = .ok (.function f) → table.Knows f.returnType

/-- The annotation of a typed expression follows from those of its parts. -/
theorem Typed.validType {id : NodeId} {ty : Ty} (h : a.Typed u table info id ty) :
    ∃ k, a.kind id = .ok k ∧ k.role = .expression ∧ a.ValidType u table info id ty k := by
  cases h with
  | int kind | text kind | bool kind => exact ⟨_, kind, rfl, rfl⟩
  | var kind resolved entry meaning =>
    exact ⟨_, kind, rfl, _, _, _, _, _, resolved, entry, meaning⟩
  | field kind part lookup found =>
    exact ⟨_, kind, rfl, _, _, _, part.noted, lookup, found, rfl⟩
  | element kind array position => exact ⟨_, kind, rfl, array.noted, position.noted⟩
  | unary kind part result place => exact ⟨_, kind, rfl, ⟨_, part.noted, result⟩, place⟩
  | binary kind first second result =>
    exact ⟨_, kind, rfl, _, _, first.noted, second.noted, result⟩
  | @call _ name args sig kind signature arity target typed places =>
    refine ⟨_, kind, rfl, sig, signature, target, List.forall₂_iff_zip.2 ⟨arity, fun hp => ?_⟩, rfl⟩
    exact ⟨(typed _ hp).noted, places _ hp⟩

/-- A statement that is well typed fits according to the annotations of its parts. -/
theorem Checked.validStatement {ret : Ty} {id : NodeId} (h : a.Checked u table info ret id) :
    ∃ k, a.kind id = .ok k ∧ k.role ≠ .expression ∧ a.ValidStatement table info ret k := by
  cases h with
  | block kind | callStatement kind | empty kind => exact ⟨_, kind, nofun, True.intro⟩
  | declare kind declaration known =>
    refine ⟨_, kind, nofun, fun b hb => ?_⟩
    cases declaration.symm.trans hb
    exact known
  | assign kind place typed => exact ⟨_, kind, nofun, _, place.noted, typed.noted⟩
  | branch kind test | loop kind test => exact ⟨_, kind, nofun, test.noted⟩
  | @ret _ value kind typed void =>
    cases value with
    | none => exact ⟨_, kind, nofun, void rfl⟩
    | some v => exact ⟨_, kind, nofun, (typed v rfl).noted⟩

theorem ValidStatement.of_expression {ret : Ty} {k : NodeKind} (h : k.role = .expression) :
    a.ValidStatement table info ret k := by
  cases k <;> first | exact True.intro | cases h

/-- A part of a well typed function has valid annotations. -/
theorem Annotated.validNode {ret : Ty} {id : NodeId} (h : a.Annotated u table info ret id) :
    ∃ k, a.kind id = .ok k ∧ a.ValidNode u table info ret id k := by
  rcases h with h | ⟨ty, h⟩ | ⟨b, h⟩
  · obtain ⟨k, hk, hrole, hvalid⟩ := h.validStatement
    exact ⟨k, hk, fun hexpression => absurd hexpression hrole, hvalid⟩
  · obtain ⟨k, hk, hrole, hvalid⟩ := h.validType
    exact ⟨k, hk, fun _ => ⟨ty, h.noted, hvalid⟩, .of_expression hrole⟩
  · exact ⟨_, h, nofun, True.intro⟩

end Arena

/-- The type checker is sound: the side tables of every program that parses, binds and type checks
are a valid typing. -/
theorem Accepted.validTyping {a : Arena} {table : SymbolTable} {info : SemanticInfo}
    (h : Accepted a table info) : ∃ u, a.unit? = some u ∧ a.ValidTyping u table info := by
  obtain ⟨u, hu, hprogram⟩ := h.checkedProgram
  refine ⟨u, hu, ?_, hprogram.typed.globals, hprogram.typed.records,
    fun d hd f hf => (hprogram.typed.functions d hd f hf).params,
    fun d hd f hf => (hprogram.typed.functions d hd f hf).result⟩
  intro d hd f hf r hr id hid
  have hbody := (hprogram.typed.functions d hd f hf).body r hr
  exact Arena.Annotated.validNode (Arena.Annotated.below hid (.inl hbody))

theorem Sample.validTyping_unit : arena.ValidTyping unit table info := by
  obtain ⟨u, hu, hvalid⟩ := accepted.validTyping
  cases unit?_arena.symm.trans hu
  exact hvalid

end MiniJ
