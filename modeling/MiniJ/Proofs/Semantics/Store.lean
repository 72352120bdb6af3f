import MiniJ.Operator
import MiniJ.Arena
import MiniJ.Proofs.Machine.Memory

/-!
# Stores

What a running program remembers: values in the variables of the function at hand, in globals, and
in objects of its callers that references lead to. Records are not values of their own; each of
their scalar fields has one.

## Main definitions

* `Value` — what an expression evaluates to.
* `Region` — an object, or a field somewhere inside of it.
* `Store` — the values of all scalar regions.
* `BinaryOp.value?` — what the operators compute.
-/
namespace MiniJ

/-- A scalar value. Texts and arrays are handles to storage elsewhere. -/
inductive Value where
  | int (n : Int64)
  | bool (b : Bool)
  | handle (address : Word)
  deriving DecidableEq

namespace Value

/-- The types that a value can have. -/
inductive HasType : Value → Ty → Prop
  | int (n : Int64) : HasType (.int n) .int
  | bool (b : Bool) : HasType (.bool b) .bool
  | text (address : Word) : HasType (.handle address) .text
  | array (address : Word) (element : Ty) : HasType (.handle address) (.array element)

/-- The value that a variable of this type has when its declaration runs. -/
def zero : Ty → Value
  | .int => .int 0
  | .bool => .bool false
  | _ => .handle 0#64

/-- A value as a machine word. -/
def word : Value → Word
  | .int n => n.toBitVec
  | .bool b => if b then 1#64 else 0#64
  | .handle address => address

theorem HasType.exists_int {v : Value} (h : v.HasType .int) : ∃ n, v = .int n := by
  cases h
  exact ⟨_, rfl⟩

theorem HasType.exists_bool {v : Value} (h : v.HasType .bool) : ∃ b, v = .bool b := by
  cases h
  exact ⟨_, rfl⟩

@[simp] theorem word_zero (ty : Ty) : (zero ty).word = 0#64 := by
  cases ty <;> rfl

end Value

/-! ### Operators -/

/-- The quotient of two numbers exists and fits. -/
def Divides (x y : Int64) : Prop := y ≠ 0 ∧ ¬(x = Int64.minValue ∧ y = -1)

instance (x y : Int64) : Decidable (Divides x y) :=
  inferInstanceAs (Decidable (y ≠ 0 ∧ ¬(x = Int64.minValue ∧ y = -1)))

/-- What a binary operator computes. Numbers wrap around, and `&&` and `||` combine numbers bit by
bit. A division without a quotient has no value. -/
def BinaryOp.value? : BinaryOp → Value → Value → Option Value
  | plus, .int x, .int y => some (.int (x + y))
  | minus, .int x, .int y => some (.int (x - y))
  | times, .int x, .int y => some (.int (x * y))
  | div, .int x, .int y => if Divides x y then some (.int (x / y)) else none
  | mod, .int x, .int y => if Divides x y then some (.int (x % y)) else none
  | and, .int x, .int y => some (.int (x &&& y))
  | or, .int x, .int y => some (.int (x ||| y))
  | and, .bool x, .bool y => some (.bool (x && y))
  | or, .bool x, .bool y => some (.bool (x || y))
  | equal, .int x, .int y => some (.bool (x == y))
  | unequal, .int x, .int y => some (.bool (x != y))
  | equal, .bool x, .bool y => some (.bool (x == y))
  | unequal, .bool x, .bool y => some (.bool (x != y))
  | lesser, .int x, .int y => some (.bool (decide (x < y)))
  | lesserEq, .int x, .int y => some (.bool (decide (x ≤ y)))
  | greater, .int x, .int y => some (.bool (decide (y < x)))
  | greaterEq, .int x, .int y => some (.bool (decide (y ≤ x)))
  | _, _, _ => none

/-- The number that `++` and `--` leave behind. -/
def UnaryOp.stepped : UnaryOp → Int64 → Int64
  | preIncrement, n | postIncrement, n => n + 1
  | _, n => n - 1

/-- The value of `++` and `--`: the number after the change, or before it for the operators behind
their operand. -/
def UnaryOp.yielded : UnaryOp → Int64 → Int64
  | postIncrement, n | postDecrement, n => n
  | op, n => op.stepped n

/-! ### Regions -/

/-- Something that has a place in the store. -/
inductive Object where
  /-- The global of a declaration. -/
  | global (declaration : NodeId)
  /-- The parameter or local of a declaration. -/
  | inner (declaration : NodeId)
  /-- An object of a caller. -/
  | outer (number : Nat)
  deriving DecidableEq

/-- An object, or what a path of field names leads to inside of it. -/
structure Region where
  object : Object
  path : List String
  deriving DecidableEq

namespace Region

/-- The whole object. -/
def whole (object : Object) : Region := ⟨object, []⟩

/-- A region inside of this one. -/
def inside (r : Region) (path : List String) : Region := ⟨r.object, r.path ++ path⟩

/-- A field of a record. -/
def field (r : Region) (name : String) : Region := r.inside [name]

@[simp] theorem object_inside (r : Region) (path : List String) :
    (r.inside path).object = r.object :=
  rfl

@[simp] theorem path_inside (r : Region) (path : List String) :
    (r.inside path).path = r.path ++ path := rfl

/-- The region is this one or lies inside of it. -/
def Covers (outer inner : Region) : Prop := ∃ path, inner = outer.inside path

theorem covers_iff {outer inner : Region} :
    outer.Covers inner ↔ inner.object = outer.object ∧ outer.path <+: inner.path := by
  constructor
  · rintro ⟨path, rfl⟩
    exact ⟨rfl, List.prefix_append _ _⟩
  · rintro ⟨hobject, path, hpath⟩
    refine ⟨path, ?_⟩
    obtain ⟨o, p⟩ := inner
    cases hobject
    cases hpath
    rfl

instance (outer inner : Region) : Decidable (outer.Covers inner) := decidable_of_iff' _ covers_iff

end Region

/-- The values of scalar regions. What it says about others has no meaning. -/
abbrev Store := Region → Value

namespace Store

/-- Changes the value of a region. -/
def set (σ : Store) (r : Region) (v : Value) : Store := fun q => if q = r then v else σ q

/-- Copies all values of one region to another at once. -/
def copy (σ : Store) (target source : Region) : Store := fun q =>
  if target.Covers q then σ (source.inside (q.path.drop target.path.length)) else σ q

/-- Gives all regions of an object new values. -/
def fill (σ : Store) (object : Object) (values : List String → Value) : Store := fun q =>
  if q.object = object then values q.path else σ q

theorem set_self (σ : Store) (r : Region) (v : Value) : σ.set r v r = v := if_pos rfl

theorem set_of_ne (σ : Store) (v : Value) {r q : Region} (h : q ≠ r) : σ.set r v q = σ q := if_neg h

theorem copy_inside (σ : Store) (target source : Region) (path : List String) :
    σ.copy target source (target.inside path) = σ (source.inside path) := by
  have hdrop : (target.inside path).path.drop target.path.length = path := by
    rw [Region.path_inside, List.drop_left]
  rw [copy, if_pos ⟨path, rfl⟩, hdrop]

theorem copy_of_not_covers (σ : Store) {target source q : Region} (h : ¬target.Covers q) :
    σ.copy target source q = σ q := if_neg h

theorem fill_of_eq (σ : Store) (object : Object) (values : List String → Value)
    (path : List String) : σ.fill object values ⟨object, path⟩ = values path := if_pos rfl

theorem fill_of_ne (σ : Store) {object : Object} (values : List String → Value) {q : Region}
    (h : q.object ≠ object) : σ.fill object values q = σ q := if_neg h

end Store

end MiniJ
