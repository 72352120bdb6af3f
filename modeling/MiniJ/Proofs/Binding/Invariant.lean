import MiniJ.Proofs.Binding.Scoping

/-!
# Invariants of the table

What every step of binding keeps, binding keeps: a property of symbol tables has to be checked for a
new name, one more overload, a scope that is opened and a scope that is left.

## Main definitions

* `Binding.Invariant` — the four steps.

## Main statements

* `Binding.Invariant.bindUnit` — a whole run.
* `Arena.invariant_of_bind` — the table of a bound program.
-/
namespace MiniJ

/-- An overload set with an overload that the program defines. Other meanings are no overload
sets. -/
def Meaning.HasDefinition (m : Meaning) : Prop :=
  ∀ overloads, m = .function overloads → ∃ sig ∈ overloads, sig.definition.isSome

namespace Binding

/-- A property of tables that each step of binding keeps. Names are declared where they are free,
overload sets in the global scope only, and a scope starts with a name that the program gives a
meaning. -/
structure Invariant (P : SymbolTable → Prop) : Prop where
  declare : ∀ {t name m sc} (span : Span), P t → t.scope? t.current = some sc →
    sc.find? name = none → (∀ overloads, m = .function overloads → t.current = ScopeId.global) →
    P (t.declare name m span).2
  redefine : ∀ {t e x overloads sig}, P t → t.entry e = .ok x → x.meaning = .function overloads →
    sig.definition.isSome → P (t.redefine e (.function (overloads ++ [sig])))
  enter : ∀ {t e x} (name : String), P t → t.entry e = .ok x → x.meaning.HasDefinition →
    P (t.pushScope.bind name e)
  leave : ∀ {t}, P t → P t.popScope

theorem ensureFresh_cases {s s' : State} {name : String} {span : Span}
    (h : Succeeds (ensureFresh name span) s () s') :
    s' = s ∧ ∃ sc, s.table.scope? s.table.current = some sc ∧ sc.find? name = none := by
  simp only [ensureFresh, succeeds_bind, succeeds_get, succeeds_lift] at h
  obtain ⟨_, _, ⟨rfl, rfl⟩, _, _, ⟨hfound, rfl⟩, h⟩ := h
  split at h
  · simp [succeeds_bind, succeeds_fail] at h
  · exact ⟨(succeeds_pure.1 h).2, SymbolTable.lookupIn_eq_ok_iff.1 hfound⟩

theorem resolveVariable_table {s s' : State} {id : Nat} {name : String} {span : Span}
    (h : Succeeds (resolveVariable id name span) s () s') : s'.table = s.table := by
  simp only [resolveVariable, succeeds_bind, succeeds_get] at h
  obtain ⟨v, t, ⟨rfl, rfl⟩, h⟩ := h
  split at h
  · simp [succeeds_fail] at h
  · simp only [succeeds_bind, succeeds_lift] at h
    obtain ⟨x, t', ⟨hx, rfl⟩, h⟩ := h
    split at h
    · obtain rfl := succeeds_modify.1 h
      rfl
    · simp [succeeds_fail] at h

namespace Invariant

variable {P : SymbolTable → Prop} {a : Arena} {s s' : State}

theorem declareVariable (hP : Invariant P) {id : Nat} {kind : VariableClass} (h : P s.table)
    (hrun : Succeeds (declareVariable a id kind) s () s') : P s'.table := by
  simp only [Binding.declareVariable, recordScope, Binding.declare, succeeds_bind,
    succeeds_lift] at hrun
  obtain ⟨node, t, ⟨hnode, rfl⟩, hrun⟩ := hrun
  split at hrun
  · obtain ⟨-, rfl⟩ := succeeds_pure.1 hrun
    exact h
  · simp only [succeeds_bind, succeeds_get, succeeds_modify, succeeds_pure] at hrun
    obtain ⟨_, _, hfresh, _, _, rfl, _, _, ⟨_, _, ⟨rfl, rfl⟩, _, _, rfl, _, rfl⟩, _, rfl⟩ := hrun
    obtain ⟨rfl, sc, hsc, hnone⟩ := ensureFresh_cases hfresh
    exact hP.declare _ h hsc hnone (by simp)

theorem forM {X : Type} {g : X → BindM Unit} {xs : List X}
    (hg : ∀ x ∈ xs, ∀ s s', P s.table → Succeeds (g x) s () s' → P s'.table)
    (h : P s.table) (hrun : Succeeds (xs.forM g) s () s') : P s'.table := by
  induction xs generalizing s with
  | nil =>
    obtain ⟨-, rfl⟩ := succeeds_pure.1 hrun
    exact h
  | cons x xs ih =>
    obtain ⟨_, t, hx, hrun⟩ := succeeds_bind.1 hrun
    exact ih (fun y hy => hg y (by simp [hy])) (hg x (by simp) s t h hx) hrun

theorem bindNode (hP : Invariant P) {depth id : Nat} (h : P s.table)
    (hrun : Succeeds (bindNode a depth id) s () s') : P s'.table := by
  induction depth generalizing id s s' with
  | zero => exact (succeeds_throw.1 hrun).elim
  | succ depth ih =>
    obtain ⟨k, t, -, rfl, hrun⟩ := bindNode_cases hrun
    have hmarked : P { s with
        scopes := SemanticInfo.setRow s.scopes id s.table.current }.table := h
    rcases hrun with ⟨d, -, hrun⟩ | ⟨name, span, -, hrun⟩ | ⟨-, rfl⟩ | ⟨-, hrun⟩
    · exact hP.declareVariable hmarked hrun
    · rw [resolveVariable_table hrun]
      exact h
    · exact h
    · exact forM (fun c _ s s' hs hrun => ih hs hrun) hmarked hrun

theorem declareParameters (hP : Invariant P) {params : List NodeId} {index : Nat} (h : P s.table)
    (hrun : Succeeds (declareParameters a index params) s () s') : P s'.table := by
  induction params generalizing index s with
  | nil =>
    obtain ⟨-, rfl⟩ := succeeds_pure.1 hrun
    exact h
  | cons p rest ih =>
    obtain ⟨_, t, hp, hrun⟩ := succeeds_bind.1 hrun
    exact ih (hP.declareVariable h hp) hrun

/-- The entry of a registered overload has this overload. -/
theorem registerOverload (hP : Invariant P) {name : String} {sig : Signature} {span : Span}
    {e : Nat} (hdefinition : sig.definition.isSome) (hcurrent : s.table.current = ScopeId.global)
    (h : P s.table) (hrun : Succeeds (registerOverload name sig span) s e s') :
    P s'.table ∧ ∃ x, s'.table.entry e = .ok x ∧ x.meaning.HasDefinition := by
  simp only [Binding.registerOverload, Binding.declare, succeeds_bind, succeeds_get,
    succeeds_lift] at hrun
  obtain ⟨_, _, ⟨rfl, rfl⟩, found, t, ⟨hfound, rfl⟩, hrun⟩ := hrun
  obtain ⟨sc, hscope, hfind⟩ := SymbolTable.lookupIn_eq_ok_iff.1 hfound
  split at hrun
  · simp only [succeeds_bind, succeeds_get, succeeds_modify, succeeds_pure] at hrun
    obtain ⟨_, t₁, ⟨rfl, rfl⟩, _, _, rfl, rfl, rfl⟩ := hrun
    refine ⟨hP.declare _ h hscope hfind fun _ _ => hcurrent, _,
      SymbolTable.entry_declare.2 (.inr ⟨rfl, rfl⟩), fun overloads hm => ?_⟩
    cases hm
    exact ⟨sig, by simp, hdefinition⟩
  · next id =>
    simp only [succeeds_bind, succeeds_lift] at hrun
    obtain ⟨x, _, ⟨hx, rfl⟩, hrun⟩ := hrun
    split at hrun
    · exact (succeeds_fail.1 hrun).elim
    · next overloads hover =>
      have hm : x.meaning = .function overloads := by
        cases hm : x.meaning <;> simp_all [Meaning.overloads?]
      rw [succeeds_guard, succeeds_bind] at hrun
      obtain ⟨-, _, _, hmod, hrun⟩ := hrun
      obtain rfl := succeeds_modify.1 hmod
      obtain ⟨rfl, rfl⟩ := succeeds_pure.1 hrun
      refine ⟨hP.redefine h hx hm hdefinition, _, SymbolTable.entry_redefine_self hx,
        fun overloads' hm' => ?_⟩
      cases hm'
      exact ⟨sig, by simp, hdefinition⟩

theorem bindRecord (hP : Invariant P) {id : Nat} (h : P s.table)
    (hrun : Succeeds (bindRecord a id) s () s') : P s'.table := by
  simp only [Binding.bindRecord, recordScope, Binding.declare, succeeds_bind, succeeds_lift] at hrun
  obtain ⟨node, _, ⟨-, rfl⟩, hrun⟩ := hrun
  split at hrun
  · obtain ⟨-, rfl⟩ := succeeds_pure.1 hrun
    exact h
  · next r _ =>
    simp only [succeeds_bind, succeeds_get, succeeds_modify, succeeds_pure, succeeds_lift,
      succeeds_inScope] at hrun
    obtain ⟨_, _, hfresh, _, _, rfl, fields, _, ⟨-, rfl⟩, _, _,
      ⟨_, _, ⟨rfl, rfl⟩, _, _, rfl, rfl, rfl⟩, t, hbody, rfl⟩ := hrun
    obtain ⟨rfl, sc, hsc, hnone⟩ := ensureFresh_cases hfresh
    have hdeclared := hP.declare (m := .record (fields.map fun b => ⟨b.name, b.ty⟩) id) node.span
      h hsc hnone (by simp)
    have hentered := hP.enter r.name hdeclared (SymbolTable.entry_declare.2 (.inr ⟨rfl, rfl⟩))
      (fun _ hm => by cases hm)
    exact hP.leave (forM (fun d _ s s' hs hrun => hP.declareVariable hs hrun) hentered hbody)

theorem bindFunction (hP : Invariant P) {id : Nat} {f : FunctionNode}
    (hk : a.kind id = .ok (.function f)) (hcurrent : s.table.current = ScopeId.global)
    (h : P s.table) (hrun : Succeeds (bindFunction a id) s () s') : P s'.table := by
  obtain ⟨params, span, entry, t, t', -, -, hentry, hbody, rfl⟩ := bindFunction_cases hk hrun
  obtain ⟨hregistered, x, hx, hdefinition⟩ := hP.registerOverload (s := { s with
    scopes := SemanticInfo.setRow s.scopes id s.table.current }) rfl hcurrent h hentry
  obtain ⟨_, t₁, hparams, hbody⟩ := succeeds_bind.1 hbody
  have hstart := hP.declareParameters
    (s := { t with table := t.table.pushScope.bind f.name entry })
    (hP.enter _ hregistered hx hdefinition) hparams
  exact hP.leave (forM (fun r _ s s' hs hrun => hP.bindNode hs hrun) hstart hbody)

/-- Members behind each other, each of which returns to the global scope. -/
theorem members {g : NodeId → BindM Unit} {ids : List NodeId} (hrestores : ∀ id, Restores (g id))
    (hg : ∀ id ∈ ids, ∀ s s', s.table.current = ScopeId.global → P s.table →
      Succeeds (g id) s () s' → P s'.table)
    (hcurrent : s.table.current = ScopeId.global) (h : P s.table)
    (hrun : Succeeds (ids.forM g) s () s') :
    s'.table.current = ScopeId.global ∧ P s'.table := by
  induction ids generalizing s with
  | nil =>
    obtain ⟨-, rfl⟩ := succeeds_pure.1 hrun
    exact ⟨hcurrent, h⟩
  | cons id rest ih =>
    obtain ⟨_, t, hid, hrun⟩ := succeeds_bind.1 hrun
    have hanchored := hrestores id s
    rw [hid] at hanchored
    exact ih (fun i hi => hg i (by simp [hi])) (hanchored.current.trans hcurrent)
      (hg id (by simp) s t hcurrent h hid) hrun

/-- Builtins are declared like all names. -/
theorem builtins (hP : Invariant P) {builtins : List Builtin} {t : SymbolTable} {g : Scope}
    (h : P t) (hcurrent : t.current = ScopeId.global) (hg : t.scope? ScopeId.global = some g)
    (hnodup : (builtins.map (·.name)).Nodup) (hfresh : ∀ b ∈ builtins, g.find? b.name = none) :
    P (builtins.foldl (fun t b =>
      (t.declare b.name (.function [b.signature]) Span.empty).2) t) := by
  induction builtins generalizing t g with
  | nil => exact h
  | cons b rest ih =>
    obtain ⟨hnot, hrest⟩ := List.nodup_cons.1 hnodup
    have hpos : 0 < t.current := by rw [hcurrent]; exact Nat.one_pos
    have hdeclared := hP.declare (m := .function [b.signature]) Span.empty h (hcurrent ▸ hg)
      (hfresh b (by simp)) (fun _ _ => hcurrent)
    refine ih hdeclared hcurrent
      (by rw [SymbolTable.scope?_declare hpos, if_pos hcurrent.symm, hg]; rfl) hrest fun c hc => ?_
    have hne : c.name ≠ b.name := fun heq => hnot (List.mem_map.2 ⟨c, hc, heq⟩)
    rw [Scope.find?_insert, if_neg hne]
    exact hfresh c (by simp [hc])

theorem initial (hP : Invariant P) (h : P {}) : P (initial a).table :=
  hP.builtins h rfl rfl (by decide) fun _ _ => rfl

/-- An invariant holds of the table of a bound program. -/
theorem bindUnit (hP : Invariant P) {u : UnitNode} (hu : a.unit? = some u)
    (hfunctions : ∀ id ∈ u.functions, ∃ f, a.kind id = .ok (.function f))
    (hcurrent : s.table.current = ScopeId.global) (h : P s.table)
    (hrun : Succeeds (bindUnit a) s () s') : P s'.table := by
  obtain ⟨span, hnode⟩ := Arena.node_root_of_unit? hu
  simp only [Binding.bindUnit, recordScope, succeeds_bind, succeeds_lift] at hrun
  obtain ⟨_, s, ⟨hnode', rfl⟩, hrun⟩ := hrun
  cases hnode.symm.trans hnode'
  simp only [succeeds_bind, succeeds_modify] at hrun
  obtain ⟨_, _, rfl, _, t, hglobals, _, t', hrecords, hrest⟩ := hrun
  obtain ⟨hcurrent₁, h₁⟩ := members (P := P) (s := { s with
    scopes := SemanticInfo.setRow s.scopes NodeId.root s.table.current })
    (fun id => Restores.declareVariable id .global)
    (fun id _ s s' _ hs hrun => hP.declareVariable hs hrun) hcurrent h hglobals
  obtain ⟨hcurrent₂, h₂⟩ := members (P := P) (fun id => Restores.bindRecord id)
    (fun id _ s s' _ hs hrun => hP.bindRecord hs hrun) hcurrent₁ h₁ hrecords
  refine (members (P := P) (fun id => Restores.bindFunction id) (fun id hid s s' hc hs hrun => ?_)
    hcurrent₂ h₂ hrest).2
  obtain ⟨f, hf⟩ := hfunctions id hid
  exact hP.bindFunction hf hc hs hrun

end Invariant

end Binding

namespace Arena

variable {a : Arena} {u : UnitNode} {table : SymbolTable} {info : SemanticInfo}

/-- An accepted program was bound by a run from the initial state. -/
theorem exists_run_of_bind (h : a.bind {} = (.ok (), table, info)) :
    ∃ s, Binding.Succeeds (Binding.bindUnit a) (Binding.initial a) () s ∧ s.table = table ∧
      s.scopes = info.scopes ∧ s.resolved = info.resolved := by
  rw [bind_eq] at h
  simp only [Prod.mk.injEq] at h
  obtain ⟨hok, rfl, rfl⟩ := h
  exact ⟨_, Prod.ext hok rfl, rfl, rfl, rfl⟩

/-- What holds of the empty table and is kept by each step holds when a program is bound. -/
theorem invariant_of_bind {P : SymbolTable → Prop} (hP : Binding.Invariant P) (hempty : P {})
    (hu : a.unit? = some u) (hspread : a.Spread u) (h : a.bind {} = (.ok (), table, info)) :
    P table := by
  have hfunctions : ∀ id ∈ u.functions, ∃ f, a.kind id = .ok (.function f) :=
    fun _ hid => (hspread.function_tree hid).1
  have hcurrent : (Binding.initial a).table.current = ScopeId.global :=
    (Binding.tableSound_initial (a := a) (u := u)).2
  obtain ⟨s, hrun, rfl, -⟩ := exists_run_of_bind h
  exact hP.bindUnit hu hfunctions hcurrent (hP.initial hempty) hrun

end Arena

end MiniJ
