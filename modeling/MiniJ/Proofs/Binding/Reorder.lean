import MiniJ.Proofs.Arena.Reorder
import MiniJ.Proofs.Binding.Stubs
import MiniJ.Proofs.Layout.Storage

/-!
# Binding functions in another order

The order of the functions decides in which order their names are declared and which numbers entries
and scopes get. It does not decide whether a program is bound. When no two functions share a name,
every name has the same meaning afterwards, and every variable stands for the same declaration.

## Main definitions

* `Arena.NamesFunctionsOnce` — no two functions share a name.
* `Arena.BoundAlike` — names and variables mean the same in two bound programs.

## Main statements

* `Arena.Reorders.bind_iff` — both programs are bound, or none is.
* `Arena.Reorders.boundAlike` — and then they mean the same.
-/
namespace MiniJ

/-! ### What binding reads -/

namespace Arena.Reorders

variable {a a' : Arena} {u u' : UnitNode} {f : FunctionNode}

theorem bindersOf (h : a.Reorders a' u u') (ids : List NodeId) :
    a'.bindersOf ids = a.bindersOf ids :=
  congrArg (List.filterMap · ids) (funext fun id => h.node?_bind _ (fun _ _ => rfl) id)

theorem names (h : a.Reorders a' u u') (ids : List NodeId) : a'.names ids = a.names ids := by
  rw [Arena.names, h.bindersOf, Arena.names]

theorem recordNames (h : a.Reorders a' u u') (ids : List NodeId) :
    a'.recordNames ids = a.recordNames ids := by
  have hrecord : ∀ id, (a'.node? id).bind (·.kind.record?) = (a.node? id).bind (·.kind.record?) :=
    h.node?_bind _ fun _ _ => rfl
  simp only [Arena.recordNames, hrecord]

theorem overloads (h : a.Reorders a' u u') (ids : List NodeId) :
    a'.overloads ids = a.overloads ids := by
  have hfunction : ∀ id, (a'.node? id).bind (·.kind.function?) =
      (a.node? id).bind (·.kind.function?) :=
    h.node?_bind _ fun _ _ => rfl
  simp only [Arena.overloads, hfunction, Binding.overloadOf, h.bindersOf]

theorem declaredAs? (h : a.Reorders a' u u') (cls : VariableClass) (d : NodeId) :
    a'.declaredAs? cls d = a.declaredAs? cls d := by
  by_cases hd : d = NodeId.root
  · subst hd
    obtain ⟨span, hroot, hroot'⟩ := h.root
    rw [Arena.declaredAs?, node_eq_ok_iff.1 hroot', Arena.declaredAs?, node_eq_ok_iff.1 hroot]
  · rw [Arena.declaredAs?, h.node? hd, Arena.declaredAs?]

theorem recordAs? (h : a.Reorders a' u u') (id : NodeId) : a'.recordAs? id = a.recordAs? id := by
  by_cases hid : id = NodeId.root
  · subst hid
    obtain ⟨span, hroot, hroot'⟩ := h.root
    rw [Arena.recordAs?, node_eq_ok_iff.1 hroot', Arena.recordAs?, node_eq_ok_iff.1 hroot]
  · simp only [Arena.recordAs?, h.node? hid, h.bindersOf]

theorem localsIn (h : a.Reorders a' u u') (body : List NodeId) :
    a'.localsIn body = a.localsIn body :=
  congrArg (List.filterMap · body) (funext fun id => h.node?_bind _ (fun _ _ => rfl) id)

theorem variablesOf (h : a.Reorders a' u u') (f : FunctionNode) :
    a'.variablesOf f = a.variablesOf f := by
  simp only [Arena.variablesOf, Arena.parametersAs, Arena.localsAs, h.declaredAs?, h.localsIn]

theorem variableNames (h : a.Reorders a' u u') (f : FunctionNode) :
    a'.variableNames f = a.variableNames f := by
  rw [Arena.variableNames, h.localsIn, h.names, Arena.variableNames]

theorem blockReturns (h : a.Reorders a' u u') {b : NodeId} (hb : a.BlockReturns b) :
    a'.BlockReturns b := by
  obtain ⟨body, hbody, r, hr, value, hvalue⟩ := hb
  exact ⟨body, (h.kind_iff (by simp)).2 hbody, r, hr, value, (h.kind_iff (by simp)).2 hvalue⟩

theorem returns (h : a.Reorders a' u u') {r : NodeId} (hr : a.Returns r) : a'.Returns r := by
  obtain ⟨value, hvalue⟩ | ⟨condition, onTrue, onFalse, hk, b, hb, hreturns⟩ := hr
  · exact .inl ⟨value, (h.kind_iff (by simp)).2 hvalue⟩
  · exact .inr ⟨condition, onTrue, onFalse, (h.kind_iff (by simp)).2 hk, b, hb,
      h.blockReturns hreturns⟩

/-! ### The rules -/

theorem functionRules (h : a.Reorders a' u u') {lo id : Nat} (htree : a.Tree lo id)
    (hf : a.kind id = .ok (.function f)) {globals : String → Prop}
    (hrules : a.FunctionRules globals f) :
    a'.FunctionRules globals f := by
  refine ⟨hrules.main, by rw [h.variableNames]; exact hrules.distinct, fun r hr v name hv hk => ?_,
    fun hresult => ?_⟩
  · have hmem : r ∈ (NodeKind.function f).children := List.mem_append_right _ hr
    obtain ⟨start, hstart, -⟩ := htree.child hf hmem
    rw [h.below_iff hstart (h.child_ne_root htree hf hmem)] at hv
    rw [h.variableNames]
    exact hrules.uses r hr v name hv ((h.kind_iff (by simp)).1 hk)
  · obtain ⟨r, hr, hreturns⟩ := hrules.returns hresult
    exact ⟨r, hr, h.returns hreturns⟩

theorem perm_overloads (h : a.Reorders a' u u') :
    (a'.overloads u'.functions).Perm (a.overloads u.functions) := by
  rw [h.overloads]
  exact h.functions.filterMap _

theorem keeps_wellScoped (h : a.Reorders a' u u') (hspread : a.Spread u)
    (hscoped : a.WellScoped u) :
    a'.WellScoped u' := by
  have hperm := h.perm_overloads.append_left Builtin.overloads
  refine ⟨?_, fun name hname o ho => ?_, fun id hid r hr => ?_, ?_, fun id hid f hf => ?_⟩
  · rw [h.names, h.recordNames, h.globals, h.records]
    exact hscoped.distinct
  · rw [h.names, h.recordNames, h.globals, h.records] at hname
    exact hscoped.unclaimed name hname o (hperm.mem_iff.1 ho)
  · rw [h.names]
    exact hscoped.fields id (h.records ▸ hid) r ((h.kind_iff (by simp)).1 hr)
  · refine hperm.symm.pairwise hscoped.overloads fun hxy heq hsame =>
      hxy heq.symm ⟨hsame.1.symm, hsame.2.symm⟩
  · have hf' := (h.kind_iff (by simp)).1 hf
    have hid' := h.functions.mem_iff.1 hid
    obtain ⟨-, -, lo, htree⟩ := h.function_tree hspread hid'
    rw [h.names, h.globals]
    exact h.functionRules htree hf' (hscoped.functions id hid' f hf')

/-- Binding accepts both programs, or none. -/
theorem bind_iff (h : a.Reorders a' u u') (hspread : a.Spread u) :
    (a'.bind {}).1 = .ok () ↔ (a.bind {}).1 = .ok () := by
  have hdecides {a : Arena} {u : UnitNode} (hu : a.unit? = some u) (hspread : a.Spread u) :
      (a.bind {}).1 = .ok () ↔ a.WellScoped u := by
    have hrun := Binding.decides_bindUnit hu hspread
    rw [Arena.bind_eq]
    refine ⟨fun hok => (hrun.of_succeeds (Prod.ext hok rfl)).1, fun hscoped => ?_⟩
    obtain ⟨_, s, hs, -⟩ := hrun.accepts hscoped
    exact congrArg Prod.fst hs
  have hspread' := h.spread hspread
  rw [hdecides h.unit? hspread, hdecides h.symm.unit? hspread']
  exact ⟨h.symm.keeps_wellScoped hspread', h.keeps_wellScoped hspread⟩

end Arena.Reorders

/-! ### Overload sets -/

namespace Binding

variable {O O' : List (String × Signature)}

/-- With one function for each name the order of the functions does not show in their overload
sets. -/
theorem signaturesOf_of_perm (h : O'.Perm O) (hnames : (O.map Prod.fst).Nodup) (name : String) :
    signaturesOf O' name = signaturesOf O name := by
  induction h with
  | nil => rfl
  | cons o _ ih =>
    have hrest := ih (List.nodup_cons.1 hnames).2
    simp only [signaturesOf, List.filter_cons] at hrest ⊢
    split
    · rw [List.map_cons, List.map_cons, hrest]
    · exact hrest
  | swap o o' O =>
    have hne : o'.1 ≠ o.1 := fun heq => by simp [heq] at hnames
    by_cases ho : o.1 = name
    · have ho' : o'.1 ≠ name := fun heq => hne (heq.trans ho.symm)
      simp [signaturesOf, ho, ho']
    · simp [signaturesOf, List.filter_cons, ho]
  | trans _ h ih ih' => rw [ih ((h.map Prod.fst).nodup_iff.2 hnames), ih' hnames]

theorem overloadsOf_of_perm (h : O'.Perm O) (hnames : (O.map Prod.fst).Nodup)
    (builtins : List (String × Signature)) (name : String) :
    overloadsOf (builtins ++ O') name = overloadsOf (builtins ++ O) name := by
  have happend : ∀ O, signaturesOf (builtins ++ O) name =
      signaturesOf builtins name ++ signaturesOf O name := fun O => by
    simp [signaturesOf]
  rw [overloadsOf, overloadsOf, happend, happend, signaturesOf_of_perm h hnames]

end Binding

/-! ### Meanings -/

/-- A variable stands for the same in two bound programs. -/
def SameVariable (table table' : SymbolTable) (info info' : SemanticInfo) (v : NodeId) : Prop :=
  ∃ e e' x x', info.resolvedEntry v = some e ∧ info'.resolvedEntry v = some e' ∧
    table.entry e = .ok x ∧ table'.entry e' = .ok x' ∧ x'.name = x.name ∧ x'.meaning = x.meaning ∧
    x.meaning.IsVariable

namespace Arena

/-- No two functions share a name. -/
def NamesFunctionsOnce (a : Arena) (u : UnitNode) : Prop :=
  ((a.overloads u.functions).map Prod.fst).Nodup

variable {a a' : Arena} {u u' : UnitNode} {table table' : SymbolTable} {info info' : SemanticInfo}

/-- Names and variables mean the same in two bound programs. -/
structure BoundAlike (a : Arena) (table table' : SymbolTable) (info info' : SemanticInfo) :
    Prop where
  meanings : ∀ name, table'.meaning? ScopeId.global name = table.meaning? ScopeId.global name
  sameVariable : ∀ v name, a.kind v = .ok (.var name) → SameVariable table table' info info' v

end Arena

namespace Binding

variable {a a' : Arena} {u u' : UnitNode} {s s' : State}

/-- The global variable of a name. -/
theorem global_unique (h : a.Reorders a' u u') (hscoped : a.WellScoped u)
    (htable : TableSound a u s.table) (htable' : TableSound a' u' s'.table) {e e' : EntryId}
    {x x' : Entry} (hx : s.table.entry e = .ok x) (hx' : s'.table.entry e' = .ok x')
    (hname : x'.name = x.name) {ty ty' : Ty} {ref ref' : Bool} {d d' : NodeId}
    (hm : x.meaning = .var ty ref .global d) (hm' : x'.meaning = .var ty' ref' .global d') :
    x'.meaning = x.meaning := by
  have hdescribes := htable.meanings e x hx
  have hdescribes' := htable'.meanings e' x' hx'
  rw [hm] at hdescribes
  rw [hm', hname] at hdescribes'
  have hmem : (x.name, x.meaning) ∈ globalsAs a u :=
    List.mem_filterMap.2 ⟨d, hdescribes.2 rfl, by rw [Arena.declaredAs?_of_kind hdescribes.1, hm]⟩
  have hmem' : (x.name, x'.meaning) ∈ globalsAs a u :=
    List.mem_filterMap.2 ⟨d', h.globals ▸ hdescribes'.2 rfl, by
      rw [Arena.declaredAs?_of_kind ((h.kind_iff (by simp)).1 hdescribes'.1), hm']⟩
  have hnodup : ((globalsAs a u).map Prod.fst).Nodup := by
    rw [globalsAs, Arena.map_fst_filterMap]
    exact (List.nodup_append.1 hscoped.distinct).1
  rw [← lookup_eq_some_iff hnodup] at hmem hmem'
  exact Option.some.inj (hmem'.symm.trans hmem)

/-- The variables in a body. -/
theorem Settled.sameVariable (h : a.Reorders a' u u') (hscoped : a.WellScoped u)
    (hlevel : Level a u s) (hlevel' : Level a' u' s') {f : FunctionNode} {c c' : Nat}
    (hnodup : (a.variableNames f).Nodup) (hsettled : Settled a f c s)
    (hsettled' : Settled a' f c' s')
    {r v : NodeId} {name : String} (hr : r ∈ f.body) (hv : a.Below r v) (hv' : a'.Below r v)
    (hk : a.kind v = .ok (.var name)) {info info' : SemanticInfo}
    (hinfo : info.resolved = s.resolved) (hinfo' : info'.resolved = s'.resolved) :
    SameVariable s.table s'.table info info' v := by
  obtain ⟨e, x, hrow, hx, rfl, hcase⟩ := hsettled.resolves r hr v name hv hk
  obtain ⟨e', x', hrow', hx', hname', hcase'⟩ :=
    hsettled'.resolves r hr v _ hv' ((h.kind_iff (by simp)).2 hk)
  rw [h.variablesOf, h.variableNames] at hcase'
  refine ⟨e, e', x, x', by rw [SemanticInfo.resolvedEntry, hinfo, hrow],
    by rw [SemanticInfo.resolvedEntry, hinfo', hrow'], hx, hx', hname', ?_, ?_⟩
  · rw [← Arena.map_fst_variablesOf] at hnodup hcase hcase'
    rcases hcase with hmem | ⟨hunknown, ty, ref, d, hm⟩ <;>
      rcases hcase' with hmem' | ⟨hunknown', ty', ref', d', hm'⟩
    · rw [← lookup_eq_some_iff hnodup] at hmem hmem'
      exact Option.some.inj (hmem'.symm.trans hmem)
    · exact absurd (List.mem_map_of_mem hmem) hunknown'
    · exact absurd (List.mem_map_of_mem hmem') hunknown
    · exact global_unique h hscoped hlevel.table hlevel'.table hx hx' hname' hm hm'
  · rcases hcase with hmem | ⟨-, ty, ref, d, hm⟩
    · exact Arena.isVariable_of_mem_variablesOf hmem
    · rw [hm]
      trivial

theorem UnitBound.meanings (h : a.Reorders a' u u') (hnames : a.NamesFunctionsOnce u)
    (hbound : UnitBound a u s) (hbound' : UnitBound a' u' s') (name : String) :
    s'.table.meaning? ScopeId.global name = s.table.meaning? ScopeId.global name := by
  have hglobals : globalsAs a' u' = globalsAs a u := by
    rw [globalsAs, h.globals, globalsAs]
    exact congrArg (List.filterMap · u.globals) (funext (h.declaredAs? .global))
  have hrecords : recordsAs a' u' = recordsAs a u := by
    rw [recordsAs, h.records, recordsAs]
    exact congrArg (List.filterMap · u.records) (funext h.recordAs?)
  rw [hbound.view, hbound'.view, globalView, globalView, hglobals, hrecords,
    overloadsOf_of_perm h.perm_overloads hnames]

end Binding

namespace Arena

variable {a a' : Arena} {u u' : UnitNode} {table table' : SymbolTable} {info info' : SemanticInfo}

theorem Reorders.boundAlike (h : a.Reorders a' u u') (hcomplete : a.Complete u)
    (hnames : a.NamesFunctionsOnce u) (hbind : a.bind {} = (.ok (), table, info))
    (hbind' : a'.bind {} = (.ok (), table', info')) : a.BoundAlike table table' info info' := by
  have hspread := hcomplete.spread
  obtain ⟨s, hrun, rfl, hscopes, hresolved⟩ := exists_run_of_bind hbind
  obtain ⟨s', hrun', rfl, hscopes', hresolved'⟩ := exists_run_of_bind hbind'
  obtain ⟨hscoped, hbound⟩ := (Binding.decides_bindUnit h.unit? hspread).of_succeeds hrun
  obtain ⟨-, hbound'⟩ := (Binding.decides_bindUnit h.symm.unit? (h.spread hspread)).of_succeeds
    hrun'
  refine ⟨hbound.meanings h hnames hbound', fun v name hk => ?_⟩
  obtain ⟨d, hd, f, hf, r, hr, hv⟩ := hcomplete.exists_body h.unit? hk (.inl rfl)
  obtain ⟨i, hi⟩ := List.mem_iff_getElem?.1 hd
  obtain ⟨i', hi'⟩ := List.mem_iff_getElem?.1 (h.functions.mem_iff.2 hd)
  have hf' := (h.kind_iff (by simp)).2 hf
  have hv' : a'.Below r v := h.below_body hspread hd hf hr hv
  exact (hbound.settled i d f hi hf).sameVariable h hscoped hbound.level hbound'.level
    (List.nodup_cons.1 (hscoped.functions d hd f hf).distinct).2 (hbound'.settled i' d f hi' hf')
      hr hv hv'
    hk hresolved.symm hresolved'.symm

end Arena

/-! ### Without the builtins -/

/-- What is left of a meaning when the builtins are dropped. -/
def Meaning.left? (m : Meaning) : Option Meaning :=
  if m.withoutBuiltins.isVacant then none else some m.withoutBuiltins

namespace SymbolTable

variable {t t' : SymbolTable} {name : String}

theorem Stripped.meaning?_eq (h : t.Stripped t.withoutBuiltins) (hlinked : t.Linked) (c : ScopeId)
    (name : String) : t.withoutBuiltins.meaning? c name =
    (t.meaning? c name).bind Meaning.left? := by
  cases hs : t.scope? c with
  | none => simp [meaning?, hs, scope?_withoutBuiltins]
  | some s =>
    obtain ⟨s', hs', -, hiff⟩ := h.names c s hs
    cases he : s.find? name with
    | none =>
      have he' : s'.find? name = none := by
        cases hfound : s'.find? name with
        | none => rfl
        | some e =>
          rw [hiff, he] at hfound
          cases hfound.1
      rw [meaning?_eq_none hs he, meaning?_eq_none hs' he', Option.bind_none]
    | some e =>
      obtain ⟨x, hx, -⟩ := hlinked c s hs name e he
      have hvacant : x.meaning.withoutBuiltins.isVacant = true ↔ t.OnlyStubs e := by
        rw [isVacant_withoutBuiltins, OnlyStubs]
        simp [hx]
      rw [meaning?_of_find? hs he hx, Option.bind_some, Meaning.left?]
      by_cases hstubs : t.OnlyStubs e
      · rw [if_pos (hvacant.2 hstubs)]
        refine meaning?_eq_none hs' ?_
        cases hfound : s'.find? name with
        | none => rfl
        | some e' =>
          rw [hiff, he] at hfound
          obtain ⟨heq, hnot⟩ := hfound
          cases heq
          exact absurd hstubs hnot
      · rw [if_neg (hvacant.not.2 hstubs)]
        exact meaning?_of_find? hs' ((hiff name e).2 ⟨he, hstubs⟩)
          (entry_withoutBuiltins.2 ⟨x, hx, rfl⟩)

/-- The global names are those with a meaning. -/
theorem Linked.mem_globalNames_iff (h : t.Linked) :
    name ∈ t.globalNames ↔ (t.meaning? ScopeId.global name).isSome := by
  unfold globalNames
  cases hg : t.scope? ScopeId.global with
  | none => simp [meaning?, hg]
  | some g =>
    have hfind : name ∈ g.symbols.map Prod.fst ↔ (g.find? name).isSome := by
      simp [Scope.find?]
    cases he : g.find? name with
    | none => simp [hfind, he, meaning?_eq_none hg he]
    | some e =>
      obtain ⟨x, hx, -⟩ := h _ g hg name e he
      simp [hfind, he, meaning?_of_find? hg he hx]

/-- Tables with the same meanings of global names know the same records. -/
theorem sameRecords (hlinked : t.Linked) (hlinked' : t'.Linked) (hnodup : t.globalNames.Nodup)
    (hnodup' : t'.globalNames.Nodup) {g g' : Scope} (hg : t.scope? ScopeId.global = some g)
    (hg' : t'.scope? ScopeId.global = some g')
    (hmeanings : ∀ name, t'.meaning? ScopeId.global name = t.meaning? ScopeId.global name) :
    t.SameRecords t' where
  lookupRecord := by
    funext name
    rw [hlinked.lookupRecord_eq hg, hlinked'.lookupRecord_eq hg', hmeanings]
  recordDepth := by
    have hperm : t'.globalNames.Perm t.globalNames := (List.perm_ext_iff_of_nodup hnodup' hnodup).2
      fun name => by rw [hlinked.mem_globalNames_iff, hlinked'.mem_globalNames_iff, hmeanings]
    rw [recordDepth_eq, recordDepth_eq, hperm.length_eq]

theorem Orderly.nodup_globalNames (h : t.Orderly) : t.withoutBuiltins.globalNames.Nodup := by
  unfold globalNames
  rw [scope?_withoutBuiltins]
  cases hg : t.scope? ScopeId.global with
  | none => exact List.nodup_nil
  | some g => exact (h.tidy _ g hg).sublist (List.filter_sublist.map _)

end SymbolTable

namespace Arena

variable {a a' : Arena} {u u' : UnitNode} {table table' : SymbolTable} {info info' : SemanticInfo}

/-- What is known of the table of a bound program. -/
theorem stripped_of_bind (hu : a.unit? = some u) (hspread : a.Spread u)
    (hbind : a.bind {} = (.ok (), table, info)) : Binding.TableSound a u table ∧ table.Orderly ∧
      table.Stripped table.withoutBuiltins := by
  obtain ⟨s, hbound, horder, rfl, -⟩ := unitBound_of_bind hu hspread hbind
  exact ⟨hbound.level.table, horder,
    (invariant_of_bind Binding.homed_invariant Binding.homed_empty hu hspread hbind).stripped
      horder.tidy hbound.level.table.names⟩

/-- Code generation works with the same records. -/
theorem Reorders.sameRecords (h : a.Reorders a' u u') (hspread : a.Spread u)
    (hbind : a.bind {} = (.ok (), table, info)) (hbind' : a'.bind {} = (.ok (), table', info'))
    (halike : a.BoundAlike table table' info info') :
    table.withoutBuiltins.SameRecords table'.withoutBuiltins := by
  obtain ⟨hsound, horder, hstripped⟩ := stripped_of_bind h.unit? hspread hbind
  obtain ⟨hsound', horder', hstripped'⟩ :=
    stripped_of_bind h.symm.unit? (h.spread hspread) hbind'
  obtain ⟨g, hg, -⟩ := hsound.withoutBuiltins.root
  obtain ⟨g', hg', -⟩ := hsound'.withoutBuiltins.root
  refine SymbolTable.sameRecords hsound.withoutBuiltins.linked hsound'.withoutBuiltins.linked
    horder.nodup_globalNames horder'.nodup_globalNames hg hg' fun name => ?_
  rw [hstripped.meaning?_eq hsound.linked, hstripped'.meaning?_eq hsound'.linked, halike.meanings]

end Arena

end MiniJ
