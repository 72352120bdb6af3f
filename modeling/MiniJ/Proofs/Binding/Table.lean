import MiniJ.Proofs.Binding.Run
import MiniJ.Proofs.Semantic.Info
import MiniJ.Proofs.Symbol.Table

/-!
# The table binding builds

Every entry describes a member of the program or a builtin, every binding leads to an entry of its
name, and the scope of a function binds only its own variables.

## Main definitions

* `Meaning.Describes` — what an entry says is true of the program.
* `Binding.TableSound` — the invariant of the whole pass.
* `Binding.ScopeSound` — the invariant inside of a function or a record.
-/
namespace MiniJ

/-- An overload belongs to a function of the program or to a builtin. -/
def Signature.Describes (a : Arena) (u : UnitNode) (name : String) (sig : Signature) : Prop :=
  match sig.definition with
  | some d => d ∈ u.functions ∧ ∃ f, a.kind d = .ok (.function f) ∧ f.name = name ∧
      f.returnType = sig.returnType ∧ Binding.binders a f.params = .ok sig.params
  | none => ∃ b ∈ Builtin.all, b.name = name ∧ sig = b.signature

/-- What a name stands for is declared by the program or builtin. -/
def Meaning.Describes (a : Arena) (u : UnitNode) (name : String) : Meaning → Prop
  | .var ty isReference kind d =>
      a.kind d = .ok (.declaration ⟨name, ty, isReference⟩) ∧ (kind = .global → d ∈ u.globals)
  | .function overloads => ∀ sig ∈ overloads, sig.Describes a u name
  | .record fields d => d ∈ u.records ∧ ∃ r bs, a.kind d = .ok (.record r) ∧ r.name = name ∧
      Binding.binders a r.fields = .ok bs ∧ fields = bs.map fun b => ⟨b.name, b.ty⟩

namespace Binding

/-- The invariant of the pass. -/
structure TableSound (a : Arena) (u : UnitNode) (t : SymbolTable) : Prop where
  names : ∀ c sc, t.scope? c = some sc → ∀ n e, (n, e) ∈ sc.symbols →
    ∃ x, t.entry e = .ok x ∧ x.name = n
  meanings : ∀ e x, t.entry e = .ok x → x.meaning.Describes a u x.name
  root : ∃ g, t.scope? ScopeId.global = some g ∧ g.parent = none
  globals : ∀ g, t.scope? ScopeId.global = some g → ∀ n e x ty ref kind d, (n, e) ∈ g.symbols →
    t.entry e = .ok x → x.meaning = .var ty ref kind d → kind = .global

/-- The current scope lies below the global one and binds only variables with property `P`. -/
structure ScopeSound (P : Nat → Prop) (t : SymbolTable) : Prop where
  inner : t.current ≠ ScopeId.global
  pos : 0 < t.current
  scope : ∃ sc, t.scope? t.current = some sc ∧ sc.parent = some ScopeId.global ∧
    ∀ n e x ty ref kind d, (n, e) ∈ sc.symbols → t.entry e = .ok x →
      x.meaning = .var ty ref kind d → kind ≠ .global ∧ P d

/-- Entries stay; only overload sets change what they stand for. -/
def Grows (t t' : SymbolTable) : Prop :=
  ∀ e x, t.entry e = .ok x → ∃ x', t'.entry e = .ok x' ∧ x'.name = x.name ∧
    (x.meaning.overloads? = none → x' = x)

variable {a : Arena} {u : UnitNode} {P : Nat → Prop} {t t' t'' : SymbolTable}

theorem Grows.refl (t : SymbolTable) : Grows t t := fun _ x h => ⟨x, h, rfl, fun _ => rfl⟩

theorem Grows.trans (h : Grows t t') (h' : Grows t' t'') : Grows t t'' := by
  intro e x hx
  obtain ⟨x', hx', hname, heq⟩ := h e x hx
  obtain ⟨x'', hx'', hname', heq'⟩ := h' e x' hx'
  refine ⟨x'', hx'', hname'.trans hname, fun ho => ?_⟩
  obtain rfl := heq ho
  exact heq' ho

/-- A variable keeps its entry. -/
theorem Grows.var (h : Grows t t') {e : Nat} {x : Entry} (hx : t.entry e = .ok x) {ty : Ty}
    {ref : Bool} {kind : VariableClass} {d : Nat} (hm : x.meaning = .var ty ref kind d) :
    t'.entry e = .ok x := by
  obtain ⟨x', hx', -, heq⟩ := h e x hx
  rw [hx', heq (by rw [hm]; rfl)]

theorem grows_declare (name : String) (m : Meaning) (span : Span) :
    Grows t (t.declare name m span).2 := fun _ x h =>
  ⟨x, SymbolTable.entry_declare.2 (.inl h), rfl, fun _ => rfl⟩

/-! ### Declaring variables -/

/-- A new entry under its name in the current scope. -/
theorem TableSound.declare (h : TableSound a u t) (hpos : 0 < t.current) {name : String}
    {m : Meaning} (span : Span) (hm : m.Describes a u name)
    (hglobal : t.current = ScopeId.global →
      ∀ ty ref kind d, m = .var ty ref kind d → kind = .global) :
    TableSound a u (t.declare name m span).2 := by
  have hentry : ∀ e x, t.entry e = .ok x → (t.declare name m span).2.entry e = .ok x :=
    fun e x hx => SymbolTable.entry_declare.2 (.inl hx)
  have hnew : (t.declare name m span).2.entry (t.entries.size + 1) =
      .ok ⟨name, t.current, span, m⟩ := SymbolTable.entry_declare.2 (.inr ⟨rfl, rfl⟩)
  have hscope : ∀ c, (t.declare name m span).2.scope? c =
      if c = t.current then (t.scope? c).map (·.insert name (t.entries.size + 1))
      else t.scope? c := fun _ => SymbolTable.scope?_declare hpos
  refine ⟨?_, ?_, ?_, ?_⟩
  · intro c sc hc n e hmem
    rw [hscope] at hc
    split at hc
    · obtain ⟨old, hold, rfl⟩ := Option.map_eq_some_iff.1 hc
      rcases Scope.mem_insert hmem with ⟨rfl, rfl⟩ | hmem
      · exact ⟨_, hnew, rfl⟩
      · obtain ⟨x, hx, hn⟩ := h.names c old hold n e hmem
        exact ⟨x, hentry e x hx, hn⟩
    · obtain ⟨x, hx, hn⟩ := h.names c sc hc n e hmem
      exact ⟨x, hentry e x hx, hn⟩
  · intro e x hx
    rcases SymbolTable.entry_declare.1 hx with hx | ⟨-, rfl⟩
    · exact h.meanings e x hx
    · exact hm
  · obtain ⟨g, hg, hparent⟩ := h.root
    rw [hscope]
    split
    · exact ⟨g.insert name (t.entries.size + 1), by rw [hg]; rfl, hparent⟩
    · exact ⟨g, hg, hparent⟩
  · intro g hg n e x ty ref kind d hmem hx hvar
    rw [hscope] at hg
    have hold : ∀ g', t.scope? ScopeId.global = some g' → (n, e) ∈ g'.symbols → kind = .global := by
      intro g' hg' hmem'
      obtain ⟨y, hy, -⟩ := h.names _ g' hg' n e hmem'
      obtain rfl : y = x := Except.ok.inj ((hentry e y hy).symm.trans hx)
      exact h.globals g' hg' n e y ty ref kind d hmem' hy hvar
    split at hg
    · next hcur =>
      obtain ⟨old, holdg, rfl⟩ := Option.map_eq_some_iff.1 hg
      rcases Scope.mem_insert hmem with ⟨rfl, rfl⟩ | hmem
      · obtain rfl := Except.ok.inj (hnew.symm.trans hx)
        exact hglobal hcur.symm ty ref kind d hvar
      · exact hold old holdg hmem
    · exact hold g hg hmem

/-- A variable of the current function. -/
theorem ScopeSound.declare (h : ScopeSound P t) (hs : TableSound a u t) {name : String}
    {m : Meaning} (span : Span) (hP : ∀ ty ref kind d, m = .var ty ref kind d →
      kind ≠ .global ∧ P d) :
    ScopeSound P (t.declare name m span).2 := by
  obtain ⟨hinner, hpos, sc, hsc, hparent, hvars⟩ := h
  refine ⟨hinner, hpos, sc.insert name (t.entries.size + 1), ?_, hparent, ?_⟩
  · rw [SymbolTable.scope?_declare hpos]
    simp [hsc]
  · intro n e x ty ref kind d hmem hx hvar
    rcases Scope.mem_insert hmem with ⟨rfl, rfl⟩ | hmem
    · have hnew : (t.declare n m span).2.entry (t.entries.size + 1) =
          .ok ⟨n, t.current, span, m⟩ := SymbolTable.entry_declare.2 (.inr ⟨rfl, rfl⟩)
      obtain rfl := Except.ok.inj (hnew.symm.trans hx)
      exact hP ty ref kind d hvar
    · obtain ⟨y, hy, -⟩ := hs.names _ sc hsc n e hmem
      obtain rfl : y = x :=
        Except.ok.inj ((SymbolTable.entry_declare.2 (.inl hy)).symm.trans hx)
      exact hvars n e y ty ref kind d hmem hy hvar

/-! ### Scopes and overloads -/

/-- Opening a scope that binds the name of the member it belongs to. -/
theorem TableSound.enter (h : TableSound a u t) (hcur : t.current = ScopeId.global) {name : String}
    {e : Nat} {x : Entry} (hx : t.entry e = .ok x) (hname : x.name = name)
    (hnv : ∀ ty ref kind d, x.meaning ≠ .var ty ref kind d) :
    TableSound a u (t.pushScope.bind name e) ∧ ScopeSound P (t.pushScope.bind name e) := by
  obtain ⟨g, hg, hparent⟩ := h.root
  have hsize : 0 < t.scopes.size := by
    obtain ⟨-, hg⟩ := SymbolTable.scope?_eq_some_iff.1 hg
    obtain ⟨hlt, -⟩ := Array.getElem?_eq_some_iff.1 hg
    exact hlt
  have hnew : t.pushScope.current = t.scopes.size + 1 := rfl
  have hscope : ∀ c, (t.pushScope.bind name e).scope? c =
      if c = t.scopes.size + 1 then some ⟨some ScopeId.global, [(name, e)]⟩ else t.scope? c := by
    intro c
    rw [SymbolTable.scope?_bind (by rw [hnew]; exact Nat.succ_pos _), SymbolTable.scope?_pushScope,
      hnew]
    split
    · rw [hcur]
      rfl
    · rfl
  have hne : ScopeId.global ≠ t.scopes.size + 1 := by
    change (1 : Nat) ≠ t.scopes.size + 1
    omega
  refine ⟨⟨?_, h.meanings, ⟨g, ?_, hparent⟩, ?_⟩, ⟨hne.symm, Nat.succ_pos _, ?_⟩⟩
  · intro c sc hc n i hmem
    rw [hscope] at hc
    split at hc
    · cases hc
      cases List.mem_singleton.1 hmem
      exact ⟨x, hx, hname⟩
    · exact h.names c sc hc n i hmem
  · rw [hscope, if_neg hne, hg]
  · intro g' hg'
    rw [hscope, if_neg hne] at hg'
    exact h.globals g' hg'
  · refine ⟨_, (hscope _).trans (if_pos rfl), rfl, ?_⟩
    intro n i y ty ref kind d hmem hy hvar
    cases List.mem_singleton.1 hmem
    obtain rfl := Except.ok.inj (hx.symm.trans hy)
    exact absurd hvar (hnv ty ref kind d)

/-- Leaving a scope below the global one. -/
theorem TableSound.leave (h : TableSound a u t) (hs : ScopeSound P t) :
    TableSound a u t.popScope ∧ t.popScope.current = ScopeId.global := by
  refine ⟨⟨h.names, h.meanings, h.root, h.globals⟩, ?_⟩
  obtain ⟨sc, hsc, hparent, -⟩ := hs.scope
  simp [SymbolTable.popScope, SymbolTable.parent?, hsc, hparent]

/-- Adding an overload to a set. -/
theorem TableSound.redefine (h : TableSound a u t) {id : Nat} {x : Entry}
    (hx : t.entry id = .ok x) {overloads : List Signature} {sig : Signature}
    (hm : x.meaning = .function overloads) (hsig : sig.Describes a u x.name) :
    TableSound a u (t.redefine id (.function (overloads ++ [sig]))) ∧
      Grows t (t.redefine id (.function (overloads ++ [sig]))) ∧
      ∃ y, (t.redefine id (.function (overloads ++ [sig]))).entry id = .ok y ∧ y.name = x.name ∧
        y.meaning = .function (overloads ++ [sig]) := by
  have hpos : 0 < id := (SymbolTable.entry_eq_ok_iff.1 hx).1
  have hself : (t.redefine id (.function (overloads ++ [sig]))).entry id =
      .ok { x with meaning := .function (overloads ++ [sig]) } := SymbolTable.entry_redefine_self hx
  have hgrows : Grows t (t.redefine id (.function (overloads ++ [sig]))) := by
    intro e y hy
    by_cases heq : e = id
    · subst heq
      obtain rfl := Except.ok.inj (hx.symm.trans hy)
      exact ⟨_, hself, rfl, fun hno => by simp [hm, Meaning.overloads?] at hno⟩
    · exact ⟨y, SymbolTable.entry_redefine_of_ne hy heq hpos, rfl, fun _ => rfl⟩
  refine ⟨⟨?_, ?_, h.root, ?_⟩, hgrows, _, hself, rfl, rfl⟩
  · intro c sc hc n e hmem
    obtain ⟨y, hy, hn⟩ := h.names c sc hc n e hmem
    obtain ⟨y', hy', hname, -⟩ := hgrows e y hy
    exact ⟨y', hy', hname.trans hn⟩
  · intro e y hy
    obtain ⟨z, hz, hname, hmean⟩ := SymbolTable.entry_redefine hy hpos
    rw [hname, hmean]
    split
    · next heq =>
      subst heq
      obtain rfl := Except.ok.inj (hx.symm.trans hz)
      have hold := h.meanings e x hx
      rw [hm] at hold
      intro sig' hsig'
      rcases List.mem_append.1 hsig' with hmem | hmem
      · exact hold sig' hmem
      · exact List.mem_singleton.1 hmem ▸ hsig
    · exact h.meanings e z hz
  · intro g hg n e y ty ref kind d hmem hy hvar
    obtain ⟨z, hz, -, hmean⟩ := SymbolTable.entry_redefine hy hpos
    rw [hmean] at hvar
    split at hvar
    · cases hvar
    · exact h.globals g hg n e z ty ref kind d hmem hz hvar

end Binding

end MiniJ
