import MiniJ.Proofs.Semantics.Execution
import MiniJ.Proofs.Typing.Judgement

/-!
# Evaluation

What the value of an expression depends on, by the kind of its node; that there is at most one
value; and what keeps a typed expression from having one: nothing but a division without a quotient.

## Main definitions

* `Scene.Computes` — how a node of some kind gets its value.
* `Scene.Traps` — evaluation reaches a division without a quotient.
* `Arena.Pure` — an expression without calls, array elements and texts.

## Main statements

* `Scene.Evaluates.unique` — an expression has one value and one effect.
* `Scene.Evaluates.not_traps` — it has none if its evaluation traps.
-/
namespace MiniJ

/-- The node has a meaning in a store alone. -/
def NodeKind.isPure : NodeKind → Bool
  | text _ | element .. | call .. => false
  | _ => true

/-- The expression contains no call, no array element and no text. -/
def Arena.Pure (a : Arena) (info : SemanticInfo) (id : NodeId) : Prop :=
  ∀ x, a.Below id x → info.typeOf x ≠ some .text ∧ ∀ k, a.kind x = .ok k → k.isPure = true

theorem Arena.Pure.child {a : Arena} {info : SemanticInfo} {id c : NodeId} {k : NodeKind}
    (h : a.Pure info id) (hk : a.kind id = .ok k) (hc : c ∈ k.children) : a.Pure info c :=
  fun x hx => h x (.child hk hc hx)

theorem Arena.Pure.self {a : Arena} {info : SemanticInfo} {id : NodeId} {k : NodeKind}
    (h : a.Pure info id) (hk : a.kind id = .ok k) : k.isPure = true := (h id (.self id)).2 k hk

/-! ### Typed parts -/

namespace Arena.Typed

variable {a : Arena} {u : UnitNode} {table : SymbolTable} {info : SemanticInfo}
  {id operand left right : NodeId} {ty : Ty}

theorem of_int {n : Int64} (h : a.Typed u table info id ty) (hk : a.kind id = .ok (.int n)) :
    ty = .int := by
  cases h with
  | int => rfl
  | text kind | bool kind | var kind | field kind | element kind | unary kind | binary kind
  | call kind => cases kind.symm.trans hk

theorem of_bool {b : Bool} (h : a.Typed u table info id ty) (hk : a.kind id = .ok (.bool b)) :
    ty = .bool := by
  cases h with
  | bool => rfl
  | text kind | int kind | var kind | field kind | element kind | unary kind | binary kind
  | call kind => cases kind.symm.trans hk

theorem of_unary {op : UnaryOp} (h : a.Typed u table info id ty)
    (hk : a.kind id = .ok (.unary op operand)) :
    ∃ inner, a.Typed u table info operand inner ∧ op.result? inner = some ty := by
  cases h with
  | unary kind part result =>
    cases kind.symm.trans hk
    exact ⟨_, part, result⟩
  | int kind | text kind | bool kind | var kind | field kind | element kind | binary kind
  | call kind => cases kind.symm.trans hk

/-- Both operands have one type. -/
theorem of_binary {op : BinaryOp} (h : a.Typed u table info id ty)
    (hk : a.kind id = .ok (.binary op left right)) :
    ∃ l, a.Typed u table info left l ∧ a.Typed u table info right l ∧ op.result? l l = some ty := by
  cases h with
  | binary kind first second result =>
    cases kind.symm.trans hk
    have heq := (Option.ite_none_right_eq_some.1 result).1
    subst heq
    exact ⟨_, first, second, result⟩
  | int kind | text kind | bool kind | var kind | field kind | element kind | unary kind
  | call kind => cases kind.symm.trans hk

end Arena.Typed

/-! ### Values of operators -/

namespace UnaryOp

theorem types_of_step {op : UnaryOp} {inner ty : Ty} (hop : op.isStep = true)
    (h : op.result? inner = some ty) : inner = .int ∧ ty = .int := by
  cases op <;> cases hop <;> cases inner <;> cases h <;> exact ⟨rfl, rfl⟩

end UnaryOp

namespace BinaryOp

variable {op : BinaryOp} {l ty : Ty} {x y v : Value}

/-- The value of an operator has the type of its result. -/
theorem hasType_of_value (hresult : op.result? l l = some ty) (hv : op.value? x y = some v)
    (hx : x.HasType l) (hy : y.HasType l) : v.HasType ty := by
  rw [result?, if_pos rfl] at hresult
  cases hx <;> cases hy <;> cases op <;> cases hresult <;>
    simp only [value?, Option.ite_none_right_eq_some, Option.some.injEq, reduceCtorEq] at hv <;>
    first
      | (subst hv; constructor)
      | (obtain ⟨-, rfl⟩ := hv; constructor)

/-- Operators on values of their types have a value, divisions without a quotient apart. -/
theorem value_cases (hresult : op.result? l l = some ty) (htext : l ≠ .text) (hx : x.HasType l)
    (hy : y.HasType l) : (∃ v, op.value? x y = some v) ∨
      ∃ a b, (op = .div ∨ op = .mod) ∧ x = .int a ∧ y = .int b ∧ ¬Divides a b := by
  rw [result?, if_pos rfl] at hresult
  cases hx with
  | int a =>
    cases hy with
    | int b =>
      by_cases h : Divides a b
      · left
        cases op <;> simp [value?, h]
      · cases op with
        | div => exact .inr ⟨a, b, .inl rfl, rfl, rfl, h⟩
        | mod => exact .inr ⟨a, b, .inr rfl, rfl, rfl, h⟩
        | _ => exact .inl ⟨_, rfl⟩
  | bool a =>
    cases hy with
    | bool b => cases op <;> cases hresult <;> exact .inl ⟨_, rfl⟩
  | text => exact absurd rfl htext
  | array => cases op <;> cases hresult

end BinaryOp

namespace Scene

variable {scene : Scene} {id base operand left right : NodeId} {name : String} {r r' : Region}
  {σ σ' τ : Store} {v w : Value} {k : NodeKind}

/-! ### Regions -/

/-- Only variables and fields stand for regions. -/
theorem Denotes.kind (h : scene.Denotes id r) : (∃ name, scene.arena.kind id = .ok (.var name)) ∨
    ∃ base name, scene.arena.kind id = .ok (.field base name) := by
  cases h with
  | global kind | inner kind | reference kind => exact .inl ⟨_, kind⟩
  | field kind => exact .inr ⟨_, _, kind⟩

theorem Denotes.of_field (h : scene.Denotes id r)
    (hk : scene.arena.kind id = .ok (.field base name)) :
    ∃ outer, scene.Denotes base outer ∧ r = outer.field name := by
  cases h with
  | global kind | inner kind | reference kind => cases hk.symm.trans kind
  | field kind part =>
    cases hk.symm.trans kind
    exact ⟨_, part, rfl⟩

/-- A place stands for one region. -/
theorem Denotes.unique (h : scene.Denotes id r) (h' : scene.Denotes id r') : r = r' := by
  induction h generalizing r' with
  | field kind _ ih =>
    obtain ⟨outer, hpart, rfl⟩ := h'.of_field kind
    rw [ih hpart]
  | global kind resolved entry meaning => cases h' <;> simp_all
  | inner kind resolved entry meaning own => cases h' <;> simp_all
  | reference kind resolved entry meaning own => cases h' <;> simp_all

/-! ### Values -/

/-- How a node of some kind gets its value. -/
def Computes (scene : Scene) (σ : Store) (id : NodeId) (v : Value) (σ' : Store) : NodeKind → Prop
  | .int n => v = .int n ∧ σ' = σ
  | .bool b => v = .bool b ∧ σ' = σ
  | .var _ | .field _ _ => ∃ r, scene.Denotes id r ∧ v = σ r ∧ σ' = σ
  | .unary .minus operand => ∃ n, scene.Evaluates σ operand (.int n) σ' ∧ v = .int (-n)
  | .unary .not operand => ∃ b, scene.Evaluates σ operand (.bool b) σ' ∧ v = .bool !b
  | .unary op operand => ∃ r n, scene.Denotes operand r ∧ σ r = .int n ∧
      v = .int (op.yielded n) ∧ σ' = σ.set r (.int (op.stepped n))
  | .binary op left right => ∃ x y σ₁, scene.Evaluates σ left x σ₁ ∧
      scene.Evaluates σ₁ right y σ' ∧ op.value? x y = some v
  | _ => False

theorem Evaluates.computes (h : scene.Evaluates σ id v σ') (hk : scene.arena.kind id = .ok k) :
    scene.Computes σ id v σ' k := by
  cases h with
  | int kind | bool kind =>
    cases hk.symm.trans kind
    exact ⟨rfl, rfl⟩
  | read type scalar place =>
    rcases place.kind with ⟨_, hk'⟩ | ⟨_, _, hk'⟩ <;> cases hk.symm.trans hk' <;>
      exact ⟨_, place, rfl, rfl⟩
  | minus kind part | not kind part =>
    cases hk.symm.trans kind
    exact ⟨_, part, rfl⟩
  | @step _ _ _ op _ _ kind isStep place value =>
    cases hk.symm.trans kind
    cases op with
    | minus | not => cases isStep
    | _ => exact ⟨_, _, place, value, rfl, rfl⟩
  | binary kind first second value =>
    cases hk.symm.trans kind
    exact ⟨_, _, _, first, second, value⟩

theorem Evaluates.of_place (h : scene.Evaluates σ id v σ') (hk : scene.arena.kind id = .ok k)
    (hplace : k.isPlace = true) : ∃ r, scene.Denotes id r ∧ v = σ r ∧ σ' = σ := by
  have hcomputes := h.computes hk
  cases k with
  | var | field => exact hcomputes
  | element => exact hcomputes.elim
  | _ => cases hplace

theorem Evaluates.of_step {op : UnaryOp} (h : scene.Evaluates σ id v σ')
    (hk : scene.arena.kind id = .ok (.unary op operand)) (hop : op.isStep = true) :
    ∃ r n, scene.Denotes operand r ∧ σ r = .int n ∧ v = .int (op.yielded n) ∧
      σ' = σ.set r (.int (op.stepped n)) := by
  have hcomputes := h.computes hk
  cases op with
  | minus | not => cases hop
  | _ => exact hcomputes

/-- An expression has one value and one effect. -/
theorem Evaluates.unique (h : scene.Evaluates σ id v σ') (h' : scene.Evaluates σ id w τ) :
    v = w ∧ σ' = τ := by
  induction h generalizing w τ with
  | int kind | bool kind =>
    obtain ⟨rfl, rfl⟩ := h'.computes kind
    exact ⟨rfl, rfl⟩
  | read type scalar place =>
    obtain ⟨k, hk, hplace⟩ : ∃ k, scene.arena.kind _ = .ok k ∧ k.isPlace = true := by
      rcases place.kind with ⟨_, hk⟩ | ⟨_, _, hk⟩ <;> exact ⟨_, hk, rfl⟩
    obtain ⟨r, hr, rfl, rfl⟩ := h'.of_place hk hplace
    rw [place.unique hr]
    exact ⟨rfl, rfl⟩
  | minus kind _ ih =>
    obtain ⟨n, hn, rfl⟩ := h'.computes kind
    obtain ⟨heq, rfl⟩ := ih hn
    cases heq
    exact ⟨rfl, rfl⟩
  | not kind _ ih =>
    obtain ⟨b, hb, rfl⟩ := h'.computes kind
    obtain ⟨heq, rfl⟩ := ih hb
    cases heq
    exact ⟨rfl, rfl⟩
  | step kind isStep place value =>
    obtain ⟨r, n, hr, hn, rfl, rfl⟩ := h'.of_step kind isStep
    obtain rfl := place.unique hr
    cases value.symm.trans hn
    exact ⟨rfl, rfl⟩
  | binary kind _ _ value ih ih' =>
    obtain ⟨x, y, σ₁, hx, hy, hv⟩ := h'.computes kind
    obtain ⟨rfl, rfl⟩ := ih hx
    obtain ⟨rfl, rfl⟩ := ih' hy
    cases value.symm.trans hv
    exact ⟨rfl, rfl⟩

/-- Evaluation reaches a division without a quotient. -/
inductive Traps (scene : Scene) : Store → NodeId → Prop
  | divide {σ σ₁ σ₂ : Store} {id left right : NodeId} {op : BinaryOp} {x y : Int64}
      (kind : scene.arena.kind id = .ok (.binary op left right)) (divides : op = .div ∨ op = .mod)
      (first : scene.Evaluates σ left (.int x) σ₁) (second : scene.Evaluates σ₁ right (.int y) σ₂)
      (none : ¬Divides x y) : Traps scene σ id
  | left {σ : Store} {id left right : NodeId} {op : BinaryOp}
      (kind : scene.arena.kind id = .ok (.binary op left right)) (part : Traps scene σ left) :
      Traps scene σ id
  | right {σ σ₁ : Store} {id left right : NodeId} {op : BinaryOp} {x : Value}
      (kind : scene.arena.kind id = .ok (.binary op left right))
      (first : scene.Evaluates σ left x σ₁) (part : Traps scene σ₁ right) : Traps scene σ id
  | operand {σ : Store} {id operand : NodeId} {op : UnaryOp}
      (kind : scene.arena.kind id = .ok (.unary op operand)) (part : Traps scene σ operand) :
      Traps scene σ id

/-- Places do not divide. -/
theorem Denotes.not_traps (h : scene.Denotes id r) : ¬scene.Traps σ id := by
  have hclash : ∀ {k}, scene.arena.kind id = .ok k → k.isPlace = true := by
    intro k hk
    rcases h.kind with ⟨_, hk'⟩ | ⟨_, _, hk'⟩ <;> cases hk.symm.trans hk' <;> rfl
  intro htraps
  cases htraps with
  | divide kind | left kind | right kind | operand kind => cases hclash kind

/-- An expression that has a value does not reach a division without a quotient. -/
theorem Evaluates.not_traps (h : scene.Evaluates σ id v σ') : ¬scene.Traps σ id := by
  intro htraps
  induction htraps generalizing v σ' with
  | divide kind divides first second none =>
    obtain ⟨x, y, σ₁, hx, hy, hv⟩ := h.computes kind
    obtain ⟨rfl, rfl⟩ := first.unique hx
    obtain ⟨rfl, rfl⟩ := second.unique hy
    rcases divides with rfl | rfl <;> simp [BinaryOp.value?, none] at hv
  | left kind _ ih =>
    obtain ⟨x, y, σ₁, hx, -⟩ := h.computes kind
    exact ih hx
  | right kind first _ ih =>
    obtain ⟨x, y, σ₁, hx, hy, -⟩ := h.computes kind
    obtain ⟨-, rfl⟩ := first.unique hx
    exact ih hy
  | @operand _ _ _ op kind part ih =>
    by_cases hop : op.isStep = true
    · obtain ⟨r, n, hr, -⟩ := h.of_step kind hop
      exact hr.not_traps part
    · cases op with
      | minus | not =>
        obtain ⟨_, hpart, -⟩ := h.computes kind
        exact ih hpart
      | _ => exact hop rfl

end Scene

end MiniJ
