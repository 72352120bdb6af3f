import MiniJ.Proofs.Binding.Sound
import MiniJ.Proofs.Symbol.Meaning

/-!
# Verdicts of binding

The steps of the pass decide conditions on what names stand for: a step succeeds exactly when its
condition holds, and reports an error otherwise. Under its own conditions the pass never faults.

## Main definitions

* `Binding.Decides` — a step succeeds exactly under a condition.
* `SymbolTable.seen?` — what a name stands for, seen from the current scope.

## Main statements

* `Binding.decides_declareVariable`, `Binding.decides_registerOverload` — declarations ask for names
  that are free, and overloads for sets without an equal one.
* `Binding.decides_resolveVariable` — uses ask for variables.
-/
namespace MiniJ

/-- What a name stands for in the current scope or else in the global one. -/
def SymbolTable.seen? (t : SymbolTable) (name : String) : Option Meaning :=
  (t.meaning? t.current name).or (t.meaning? ScopeId.global name)

def Meaning.IsVariable : Meaning → Prop
  | .var .. => True
  | _ => False

/-- Two overloads with the same result and the same parameters. -/
def Signature.Same (sig other : Signature) : Prop :=
  sig.returnType = other.returnType ∧ sig.params = other.params

namespace Binding

variable {α β : Type} {a : Arena} {u : UnitNode} {s s' : State} {P K : Prop}

/-- The step succeeds exactly under a condition, and then with what `Q` says; otherwise it reports
an error. -/
structure Decides (x : BindM α) (s : State) (P : Prop) (Q : α → State → Prop) : Prop where
  accepts : P → ∃ v s', Succeeds x s v s' ∧ Q v s'
  rejects : ¬P → ∃ e s', outcome x s = (.error (.reported e), s')

namespace Decides

variable {x : BindM α} {Q R : α → State → Prop}

theorem congr (h : Decides x s P Q) (hP : P ↔ K) : Decides x s K Q :=
  ⟨fun hp => h.accepts (hP.2 hp), fun hp => h.rejects fun hp' => hp (hP.1 hp')⟩

theorem mono (h : Decides x s P Q) (hQ : ∀ v s', P → Succeeds x s v s' → Q v s' → R v s') :
    Decides x s P R := by
  refine ⟨fun hp => ?_, h.rejects⟩
  obtain ⟨v, s', hx, hq⟩ := h.accepts hp
  exact ⟨v, s', hx, hQ v s' hp hx hq⟩

/-- A step that succeeds meets its condition. -/
theorem of_succeeds (h : Decides x s P Q) {v : α} (hx : Succeeds x s v s') : P ∧ Q v s' := by
  by_cases hp : P
  · obtain ⟨w, t, hw, hq⟩ := h.accepts hp
    cases hx.symm.trans hw
    exact ⟨hp, hq⟩
  · obtain ⟨e, t, he⟩ := h.rejects hp
    cases hx.symm.trans he

theorem pure (v : α) : Decides (Pure.pure v) s True fun w s' => w = v ∧ s' = s :=
  ⟨fun _ => ⟨v, s, succeeds_pure.2 ⟨rfl, rfl⟩, rfl, rfl⟩, fun h => absurd trivial h⟩

theorem fail (cause : SemanticError.Cause) (span : Span) :
    Decides (Binding.fail cause span : BindM α) s False Q :=
  ⟨False.elim, fun _ => ⟨_, s, rfl⟩⟩

/-- Steps behind each other decide the conjunction of their conditions. -/
theorem bind {f : α → BindM β} {R : β → State → Prop} (hx : Decides x s P Q)
    (hf : P → ∀ v s', Succeeds x s v s' → Q v s' → Decides (f v) s' K R) :
    Decides (x >>= f) s (P ∧ K) R := by
  refine ⟨fun ⟨hp, hp'⟩ => ?_, fun hboth => ?_⟩
  · obtain ⟨v, t, hv, hq⟩ := hx.accepts hp
    obtain ⟨w, t', hw, hr⟩ := (hf hp v t hv hq).accepts hp'
    exact ⟨w, t', succeeds_bind.2 ⟨v, t, hv, hw⟩, hr⟩
  · by_cases hp : P
    · obtain ⟨v, t, hv, hq⟩ := hx.accepts hp
      obtain ⟨e, t', he⟩ := (hf hp v t hv hq).rejects fun hp' => hboth ⟨hp, hp'⟩
      exact ⟨e, t', by rw [outcome_bind, hv]; exact he⟩
    · obtain ⟨e, t, he⟩ := hx.rejects hp
      exact ⟨e, t, by rw [outcome_bind, he]⟩

/-- A step that cannot fail in front of another. -/
theorem bind_total {f : α → BindM β} {R : β → State → Prop} {v : α} (hx : Succeeds x s v s')
    (hf : Decides (f v) s' P R) : Decides (x >>= f) s P R := by
  have hsame : outcome (x >>= f) s = outcome (f v) s' := by rw [outcome_bind, hx]
  refine ⟨fun hp => ?_, fun hp => ?_⟩
  · obtain ⟨w, t, hw, hr⟩ := hf.accepts hp
    exact ⟨w, t, hsame.trans hw, hr⟩
  · obtain ⟨e, t, he⟩ := hf.rejects hp
    exact ⟨e, t, hsame.trans he⟩

/-- A check in front of a step. -/
theorem guard {c : Prop} [Decidable c] {cause : SemanticError.Cause} {span : Span}
    {k : β → BindM α} (hx : ¬c → Decides x s P Q) :
    Decides (if c then Binding.fail cause span >>= k else x) s (¬c ∧ P) Q := by
  by_cases hc : c
  · rw [if_pos hc]
    refine ⟨fun h => absurd hc h.1, fun _ => ⟨⟨cause, span⟩, s, ?_⟩⟩
    rw [outcome_bind]
    rfl
  · rw [if_neg hc]
    exact (hx hc).congr ⟨fun hp => ⟨hc, hp⟩, fun h => h.2⟩

end Decides

theorem succeeds_lift_ok {x : Except Fault α} {v : α} (h : x = .ok v) :
    Succeeds (liftM x) s v s := succeeds_lift.2 ⟨h, rfl⟩

/-! ### Declarations -/

theorem TableSound.linked {t : SymbolTable} (h : TableSound a u t) : t.Linked :=
  fun c sc hc n e he => h.names c sc hc n e (Scope.mem_of_find? he)

/-- Declaring asks for a name that is free in the current scope. -/
theorem decides_ensureFresh {name : String} {span : Span} (hlinked : s.table.Linked) {sc : Scope}
    (hsc : s.table.scope? s.table.current = some sc) :
    Decides (ensureFresh name span) s (s.table.meaning? s.table.current name = none)
      fun _ s' => s' = s := by
  unfold ensureFresh
  refine .bind_total (succeeds_get.2 ⟨rfl, rfl⟩) ?_
  refine .bind_total (succeeds_lift_ok (SymbolTable.lookupIn_eq_ok_iff.2 ⟨sc, hsc, rfl⟩)) ?_
  cases he : sc.find? name with
  | none =>
    refine ((Decides.pure ()).congr ?_).mono fun _ _ _ _ h => h.2
    simp [SymbolTable.meaning?_eq_none hsc he]
  | some e =>
    obtain ⟨x, hx, -⟩ := hlinked _ sc hsc name e he
    refine .bind_total (succeeds_lift_ok hx) ((Decides.fail _ _).congr ?_)
    simp [SymbolTable.meaning?_of_find? hsc he hx]

/-- The tables after what a node declares is declared. -/
def State.declared (s : State) (id : NodeId) (name : String) (m : Meaning) (span : Span) : State :=
  { s with
    scopes := SemanticInfo.setRow s.scopes id s.table.current
    table := (s.table.declare name m span).2 }

theorem decides_declareVariable {id : Nat} {b : Binder} {cls : VariableClass}
    (hk : a.kind id = .ok (.declaration b)) (hlinked : s.table.Linked) {sc : Scope}
    (hsc : s.table.scope? s.table.current = some sc) :
    Decides (declareVariable a id cls) s (s.table.meaning? s.table.current b.name = none)
      fun _ s' => ∃ span, s' = s.declared id b.name (.var b.ty b.isReference cls id) span := by
  obtain ⟨span, hnode⟩ := Arena.kind_eq_ok_iff.1 hk
  unfold declareVariable
  refine .bind_total (succeeds_lift_ok hnode) ?_
  have hfresh : Decides (ensureFresh b.name span) s _ _ := decides_ensureFresh hlinked hsc
  refine (hfresh.bind (K := True) fun _ _ t _ ht => ?_).congr (by simp)
  subst ht
  exact ⟨fun _ => ⟨(), t.declared id b.name (.var b.ty b.isReference cls id) span, rfl, span, rfl⟩,
    fun h => absurd trivial h⟩

/-! ### Overloads -/

/-- A name can take one more overload: it is free or stands for overloads that all differ from
it. -/
def Takes (found : Option Meaning) (sig : Signature) : Prop :=
  match found with
  | none => True
  | some (.function overloads) => ∀ other ∈ overloads, ¬other.Same sig
  | some _ => False

/-- What a name with one more overload stands for. -/
def extended (found : Option Meaning) (sig : Signature) : Meaning :=
  match found with
  | some (.function overloads) => .function (overloads ++ [sig])
  | _ => .function [sig]

theorem decides_registerOverload {name : String} {sig : Signature} {span : Span}
    (hlinked : s.table.Linked) (hpos : 0 < s.table.current) {sc : Scope}
    (hsc : s.table.scope? s.table.current = some sc) :
    Decides (registerOverload name sig span) s
      (Takes (s.table.meaning? s.table.current name) sig) fun e s' =>
        s'.scopes = s.scopes ∧ s'.table.scopes.size = s.table.scopes.size ∧
        (∃ x, s'.table.entry e = .ok x ∧
          x.meaning = extended (s.table.meaning? s.table.current name) sig) ∧
        (∀ c, c ≠ s.table.current → s'.table.scope? c = s.table.scope? c) ∧
        ∀ n, s'.table.meaning? s.table.current n =
          if n = name then some (extended (s.table.meaning? s.table.current name) sig)
          else s.table.meaning? s.table.current n := by
  unfold registerOverload
  refine .bind_total (succeeds_get.2 ⟨rfl, rfl⟩) ?_
  refine .bind_total (succeeds_lift_ok (SymbolTable.lookupIn_eq_ok_iff.2 ⟨sc, hsc, rfl⟩)) ?_
  cases he : sc.find? name with
  | none =>
    have hnone := SymbolTable.meaning?_eq_none hsc he
    rw [hnone]
    refine ⟨fun _ => ⟨_, { s with table := (s.table.declare name (.function [sig]) span).2 }, rfl,
      rfl, by simp [SymbolTable.declare, SymbolTable.bind], ⟨_, SymbolTable.entry_declare.2
      (.inr ⟨rfl, rfl⟩), rfl⟩, fun c hc => (SymbolTable.scope?_declare hpos).trans (if_neg hc),
      fun n => ?_⟩, fun h => absurd trivial h⟩
    rw [hlinked.meaning?_declare hpos hsc]
    simp [extended]
  | some id =>
    obtain ⟨x, hx, hname⟩ := hlinked _ sc hsc name id he
    refine .bind_total (succeeds_lift_ok hx) ?_
    rw [SymbolTable.meaning?_of_find? hsc he hx]
    cases hm : x.meaning with
    | var | record => exact (Decides.fail _ _).congr (by simp [Takes])
    | function overloads =>
      have hstep : Decides (do
          modify fun s =>
            { s with table := s.table.redefine id (.function (overloads ++ [sig])) }
          return id : BindM EntryId) s True fun e s' =>
            e = id ∧
              s' = { s with table := s.table.redefine id (.function (overloads ++ [sig])) } :=
        ⟨fun _ => ⟨_, _, rfl, rfl, rfl⟩, fun h => absurd trivial h⟩
      refine ((Decides.guard fun _ => hstep).congr ?_).mono ?_
      · simp [Takes, Signature.Same]
      · rintro id _ - - ⟨rfl, rfl⟩
        have hpos : 0 < id := (SymbolTable.entry_eq_ok_iff.1 hx).1
        refine ⟨rfl, rfl, ⟨{ x with meaning := .function (overloads ++ [sig]) }, ?_, rfl⟩,
          fun c hc => rfl, fun n => hlinked.meaning?_redefine hsc he hx⟩
        rw [SymbolTable.entry_eq_ok_iff] at hx ⊢
        exact ⟨hpos, by simp [SymbolTable.redefine, Array.getElem?_modify, hx.2]⟩

/-! ### Uses -/

/-- The entry that is found for a name is what the name stands for. -/
theorem lookup_eq {P : Nat → Prop} (hin : Inside a u P s) (name : String) :
    (s.table.lookup name = none ∧ s.table.seen? name = none) ∨
      ∃ e c x, s.table.lookup name = some (e, c) ∧ s.table.entry e = .ok x ∧ x.name = name ∧
        s.table.seen? name = some x.meaning := by
  have hlinked := hin.table.linked
  obtain ⟨sc, hsc, hparent, -⟩ := hin.scope.scope
  obtain ⟨g, hg, hroot⟩ := hin.table.root
  have hlookup : s.table.lookup name = ((sc.find? name).map (·, s.table.current)).or
      ((g.find? name).map (·, ScopeId.global)) :=
    SymbolTable.find?_below_global hsc hparent hg hroot hin.scope.inner
  rw [hlookup]
  cases he : sc.find? name with
  | some e =>
    obtain ⟨x, hx, hname⟩ := hlinked _ sc hsc name e he
    refine .inr ⟨e, _, x, rfl, hx, hname, ?_⟩
    simp [SymbolTable.seen?, SymbolTable.meaning?_of_find? hsc he hx]
  | none =>
    have hnone := SymbolTable.meaning?_eq_none hsc he
    cases hge : g.find? name with
    | some e =>
      obtain ⟨x, hx, hname⟩ := hlinked _ g hg name e hge
      refine .inr ⟨e, _, x, rfl, hx, hname, ?_⟩
      simp [SymbolTable.seen?, hnone, SymbolTable.meaning?_of_find? hg hge hx]
    | none =>
      exact .inl ⟨rfl, by simp [SymbolTable.seen?, hnone, SymbolTable.meaning?_eq_none hg hge]⟩

/-- A use asks for a variable. -/
theorem decides_resolveVariable {id : Nat} {name : String} {span : Span} {P : Nat → Prop}
    (hin : Inside a u P s) :
    Decides (resolveVariable id name span) s (∃ m, s.table.seen? name = some m ∧ m.IsVariable)
      fun _ s' => ∃ e x, s' = { s with resolved := SemanticInfo.setRow s.resolved id e } ∧
        s.table.entry e = .ok x ∧ x.name = name ∧ s.table.seen? name = some x.meaning := by
  unfold resolveVariable
  refine .bind_total (succeeds_get.2 ⟨rfl, rfl⟩) ?_
  dsimp only
  rcases lookup_eq hin name with ⟨hfind, hseen⟩ | ⟨e, c, x, hfind, hx, hname, hseen⟩ <;>
    rw [hfind, hseen]
  · exact (Decides.fail _ _).congr (by simp)
  · refine .bind_total (succeeds_lift_ok hx) ?_
    cases hm : x.meaning with
    | var ty ref cls d =>
      exact ⟨fun _ => ⟨(), _, rfl, e, x, rfl, hx, hname, by rw [hm]⟩,
        fun h => absurd ⟨_, rfl, trivial⟩ h⟩
    | function | record => exact (Decides.fail _ _).congr (by simp [Meaning.IsVariable])

end Binding

end MiniJ
