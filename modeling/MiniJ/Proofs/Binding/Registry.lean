import MiniJ.Proofs.Binding.Invariant

/-!
# One entry per function name

All overloads of a name share one entry, which the global scope binds. A function binds its own name
in its scope to this entry too, so a call sees the same overloads from everywhere: variables of the
name are skipped, and no scope holds an overload set of its own.

## Main definitions

* `SymbolTable.Orderly` — every overload set is bound in the global scope.

## Main statements

* `Binding.orderly_invariant` — binding keeps tables orderly.
* `Binding.UnitBound.lookupFunction` — the overloads a call sees.
* `Arena.unitBound_of_bind` — what is known of a program that binds.
-/
namespace MiniJ

theorem Scope.nodup_insert {s : Scope} (h : (s.symbols.map Prod.fst).Nodup) (name : String)
    (e : EntryId) : ((s.insert name e).symbols.map Prod.fst).Nodup := by
  rw [insert, List.map_cons, List.nodup_cons]
  refine ⟨?_, h.sublist ((List.filter_sublist).map _)⟩
  simp

/-- Every scope binds a name once, and every overload set is bound in the global scope. -/
structure SymbolTable.Orderly (t : SymbolTable) : Prop where
  root : ∃ g, t.scope? ScopeId.global = some g
  tidy : ∀ c s, t.scope? c = some s → (s.symbols.map Prod.fst).Nodup
  registered : ∀ e x overloads, t.entry e = .ok x → x.meaning = .function overloads →
    ∃ g, t.scope? ScopeId.global = some g ∧ g.find? x.name = some e

namespace SymbolTable.Orderly

variable {t : SymbolTable} {name : String} {e : EntryId} {m : Meaning}

/-- Declaring a name that is free in the current scope; functions are declared globally. -/
theorem declare (h : t.Orderly) {sc : Scope} (hsc : t.scope? t.current = some sc)
    (hfresh : sc.find? name = none) (hm : ∀ o, m = .function o → t.current = ScopeId.global)
    (span : Span) : (t.declare name m span).2.Orderly := by
  have hpos : 0 < t.current := (scope?_eq_some_iff.1 hsc).1
  have hscope : ∀ c, (t.declare name m span).2.scope? c = if c = t.current then
      (t.scope? c).map (·.insert name (t.entries.size + 1)) else t.scope? c :=
    fun c => scope?_declare hpos
  refine ⟨?_, fun c s hs => ?_, fun e x overloads hx hover => ?_⟩
  · obtain ⟨g, hg⟩ := h.root
    rw [hscope]
    split
    · exact ⟨_, by rw [hg]; rfl⟩
    · exact ⟨g, hg⟩
  · rw [hscope] at hs
    split at hs
    · obtain ⟨s₀, hs₀, rfl⟩ := Option.map_eq_some_iff.1 hs
      exact Scope.nodup_insert (h.tidy c s₀ hs₀) _ _
    · exact h.tidy c s hs
  · rw [hscope]
    rcases entry_declare.1 hx with hx | ⟨rfl, rfl⟩
    · obtain ⟨g, hg, hfind⟩ := h.registered e x overloads hx hover
      split
      · next hcur =>
        rw [← hcur] at hsc
        cases hsc.symm.trans hg
        have hne : x.name ≠ name := by
          rintro heq
          rw [heq, hfresh] at hfind
          cases hfind
        exact ⟨_, by rw [hg]; rfl, by rw [Scope.find?_insert, if_neg hne, hfind]⟩
      · exact ⟨g, hg, hfind⟩
    · have hcur := hm overloads hover
      rw [if_pos hcur.symm, ← hcur, hsc]
      exact ⟨_, rfl, by simp [Scope.find?_insert]⟩

/-- One more overload in a set. -/
theorem redefine (h : t.Orderly) {x : Entry} {o : List Signature} (hx : t.entry e = .ok x)
    (hm : x.meaning = .function o) (o' : List Signature) :
    (t.redefine e (.function o')).Orderly := by
  have hpos : 0 < e := (entry_eq_ok_iff.1 hx).1
  refine ⟨h.root, h.tidy, fun e' x' overloads hx' hover => ?_⟩
  obtain ⟨y, hy, hname, hmeaning⟩ := entry_redefine hx' hpos
  rw [hname, scope?_redefine]
  split at hmeaning
  · next heq =>
    subst heq
    cases hx.symm.trans hy
    exact h.registered e' x o hx hm
  · exact h.registered e' y overloads hy (hmeaning.symm.trans hover)

/-- A scope that is opened lies below the global one. -/
theorem enter (h : t.Orderly) (name : String) (e : EntryId) :
    (t.pushScope.bind name e).Orderly := by
  have hscope : ∀ c, (t.pushScope.bind name e).scope? c =
      if c = t.scopes.size + 1 then some ⟨some t.current, [(name, e)]⟩ else t.scope? c := by
    intro c
    have hcurrent : t.pushScope.current = t.scopes.size + 1 := rfl
    rw [scope?_bind (Nat.succ_pos _), scope?_pushScope, hcurrent]
    split <;> rfl
  have hglobal : ScopeId.global ≠ t.scopes.size + 1 := by
    obtain ⟨g, hg⟩ := h.root
    obtain ⟨-, hg⟩ := scope?_eq_some_iff.1 hg
    obtain ⟨hlt, -⟩ := Array.getElem?_eq_some_iff.1 hg
    exact Nat.ne_of_lt (Nat.succ_lt_succ hlt)
  refine ⟨?_, fun c s hs => ?_, fun e' x overloads hx hover => ?_⟩
  · rw [hscope, if_neg hglobal]
    exact h.root
  · rw [hscope] at hs
    split at hs
    · cases hs
      simp
    · exact h.tidy c s hs
  · rw [hscope, if_neg hglobal]
    exact h.registered e' x overloads hx hover

theorem leave (h : t.Orderly) : t.popScope.Orderly := ⟨h.root, h.tidy, h.registered⟩

/-- From below the global scope a call sees the overloads that the global scope holds. -/
theorem lookupFunction_eq (h : t.Orderly) (hlinked : t.Linked) {c : ScopeId} {sc g : Scope}
    (hsc : t.scope? c = some sc) (hparent : sc.parent = some ScopeId.global)
    (hg : t.scope? ScopeId.global = some g) (hroot : g.parent = none) (hne : c ≠ ScopeId.global) :
    t.lookupFunction name c = .ok ((t.meaning? ScopeId.global name).bind (·.overloads?)) := by
  have houter : t.overloadsAlong name [(ScopeId.global, g)] =
      .ok ((t.meaning? ScopeId.global name).bind (·.overloads?)) := by
    rw [overloadsAlong]
    cases he : g.find? name with
    | none =>
      rw [meaning?_eq_none hg he]
      rfl
    | some e =>
      obtain ⟨x, hx, -⟩ := hlinked _ g hg name e he
      rw [meaning?_of_find? hg he hx]
      dsimp only
      rw [hx, Outcome.ok_bind, Option.bind_some]
      cases x.meaning.overloads? <;> rfl
  rw [lookupFunction, scope_eq_ok_iff.2 hsc, Outcome.ok_bind,
    chain_below_global hsc hparent hg hroot hne, overloadsAlong]
  cases he : sc.find? name with
  | none => exact houter
  | some e =>
    obtain ⟨x, hx, rfl⟩ := hlinked _ sc hsc name e he
    dsimp only
    rw [hx, Outcome.ok_bind]
    cases hm : x.meaning with
    | function overloads =>
      -- the entry is the one that the global scope binds
      obtain ⟨g', hg', hfind⟩ := h.registered e x overloads hx hm
      cases hg.symm.trans hg'
      rw [meaning?_of_find? hg hfind hx, hm]
      rfl
    | var | record => exact houter

end SymbolTable.Orderly

namespace Binding

variable {a : Arena} {u : UnitNode} {s : State}

/-! ### Runs -/

theorem orderly_invariant : Invariant SymbolTable.Orderly where
  declare span h hsc hfresh hm := h.declare hsc hfresh hm span
  redefine h hx hm _ := h.redefine hx hm _
  enter name h _ _ := h.enter name _
  leave h := h.leave

theorem orderly_empty : ({} : SymbolTable).Orderly := by
  refine ⟨⟨⟨none, []⟩, rfl⟩, fun c s hs => ?_, fun e x overloads hx => ?_⟩
  · rw [SymbolTable.scope?_empty hs]
    exact List.nodup_nil
  · obtain ⟨-, hx⟩ := SymbolTable.entry_eq_ok_iff.1 hx
    simp at hx

/-! ### Bound programs -/

/-- The overload set of a name, if there is one. -/
def overloadSet (O : List (String × Signature)) (name : String) : Option (List Signature) :=
  (overloadsOf O name).bind (·.overloads?)

theorem getD_overloadSet (O : List (String × Signature)) (name : String) :
    (overloadSet O name).getD [] = signaturesOf O name := by
  rw [overloadSet, overloadsOf]
  cases signaturesOf O name <;> rfl

theorem bind_globalView {D : List (String × Meaning)} {O : List (String × Signature)}
    (hD : ∀ p ∈ D, p.2.overloads? = none) (name : String) :
    (globalView D O name).bind (·.overloads?) = overloadSet O name := by
  rw [globalView, overloadSet]
  cases hO : overloadsOf O name with
  | some m => rfl
  | none =>
    rw [Option.none_or]
    cases hm : D.lookup name with
    | none => rfl
    | some m => exact hD (name, m) (mem_of_lookup hm)

/-- What a bound program knows of its calls: from the body of a function a name has the builtins
first, and behind them the functions of that name in the order of the program. -/
theorem UnitBound.lookupFunction (h : UnitBound a u s) (horder : s.table.Orderly) {i id : Nat}
    {f : FunctionNode} (hi : u.functions[i]? = some id) (hf : a.kind id = .ok (.function f))
    (name : String) : s.table.lookupFunction name (u.records.length + 2 + i) =
      .ok (overloadSet (Builtin.overloads ++ a.overloads u.functions) name) := by
  obtain ⟨⟨sc, hsc⟩, hinner, -⟩ := h.settled i id f hi hf
  obtain ⟨g, hg, hroot⟩ := h.level.table.root
  rw [horder.lookupFunction_eq h.level.table.linked hsc (h.level.parents _ sc hsc hinner) hg hroot
    hinner, h.view, bind_globalView fun p hp => overloads?_globalsAs_append hp]

end Binding

/-- What binding leaves of a program that it accepts. -/
theorem Arena.unitBound_of_bind {a : Arena} {u : UnitNode} {table : SymbolTable}
    {info : SemanticInfo}
    (hu : a.unit? = some u) (hspread : a.Spread u) (hbind : a.bind {} = (.ok (), table, info)) :
    ∃ s : Binding.State, Binding.UnitBound a u s ∧ s.table.Orderly ∧ s.table = table ∧
      s.scopes = info.scopes ∧ s.resolved = info.resolved := by
  obtain ⟨s, hrun, rfl, hscopes, hresolved⟩ := exists_run_of_bind hbind
  exact ⟨s, ((Binding.decides_bindUnit hu hspread).of_succeeds hrun).2,
    invariant_of_bind Binding.orderly_invariant Binding.orderly_empty hu hspread hbind, rfl,
    hscopes,
    hresolved⟩

end MiniJ
