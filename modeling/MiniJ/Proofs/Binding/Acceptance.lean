import MiniJ.Proofs.Binding.Members
import MiniJ.Token.Lexer

/-!
# What binding accepts

The pass declares names one after the other and stops at the first error. What it decides does not
depend on this order: a parsed program is accepted exactly when it meets the rules of
`Arena.WellScoped`, which say nothing about when a name is declared.

## Main definitions

* `Arena.WellScoped` — the rules for a whole program.

## Main statements

* `Binding.decides_bindUnit` — the pass decides the rules.
-/
namespace MiniJ

/-- The builtins by name, as overloads. -/
def Builtin.overloads : List (String × Signature) := Builtin.all.map fun b => (b.name, b.signature)

namespace Arena

/-- The names of records. -/
def recordNames (a : Arena) (ids : List NodeId) : List String :=
  ids.filterMap fun id => ((a.node? id).bind (·.kind.record?)).map (·.name)

/-- Functions by name, as overloads. -/
def overloads (a : Arena) (ids : List NodeId) : List (String × Signature) :=
  ids.filterMap fun id => ((a.node? id).bind (·.kind.function?)).map fun f =>
    (f.name, Binding.overloadOf a id f)

/-- The rules that names follow in a program. -/
structure WellScoped (a : Arena) (u : UnitNode) : Prop where
  /-- Globals and records have distinct names. -/
  distinct : (a.names u.globals ++ a.recordNames u.records).Nodup
  /-- None of them is the name of a function, builtin or not. -/
  unclaimed : ∀ name ∈ a.names u.globals ++ a.recordNames u.records,
    ∀ o ∈ Builtin.overloads ++ a.overloads u.functions, o.1 ≠ name
  fields : ∀ id ∈ u.records, ∀ r, a.kind id = .ok (.record r) → (r.name :: a.names r.fields).Nodup
  /-- Overloads of one name differ in their result or their parameters. -/
  overloads : (Builtin.overloads ++ a.overloads u.functions).Pairwise fun x y =>
    x.1 = y.1 → ¬x.2.Same y.2
  functions : ∀ id ∈ u.functions, ∀ f, a.kind id = .ok (.function f) →
    a.FunctionRules (· ∈ a.names u.globals) f

end Arena

namespace Binding

variable {a : Arena} {u : UnitNode} {f : FunctionNode} {s s' s'' : State} {n : Nat} {T : Nat → Prop}
  {D : List (String × Meaning)} {O : List (String × Signature)} {name other : String}
  {sig : Signature}

/-! ### Global names -/

/-- The overloads of a name. -/
def signaturesOf (O : List (String × Signature)) (name : String) : List Signature :=
  (O.filter (·.1 = name)).map (·.2)

/-- What overloads make of a name. -/
def overloadsOf (O : List (String × Signature)) (name : String) : Option Meaning :=
  match signaturesOf O name with
  | [] => none
  | sig :: sigs => some (.function (sig :: sigs))

/-- What a name stands for among overloads and declarations. -/
def globalView (D : List (String × Meaning)) (O : List (String × Signature)) (name : String) :
    Option Meaning := (overloadsOf O name).or (D.lookup name)

theorem mem_signaturesOf : sig ∈ signaturesOf O name ↔ (name, sig) ∈ O := by
  simp only [signaturesOf, List.mem_map, List.mem_filter, decide_eq_true_eq, Prod.exists]
  grind

theorem overloadsOf_eq_none_iff : overloadsOf O name = none ↔ ∀ o ∈ O, o.1 ≠ name := by
  have hnil : signaturesOf O name = [] ↔ ∀ o ∈ O, o.1 ≠ name := by
    simp [signaturesOf, List.filter_eq_nil_iff]
  rw [← hnil, overloadsOf]
  split <;> simp [*]

theorem takes_overloadsOf :
    Takes (overloadsOf O name) sig ↔ ∀ o ∈ O, o.1 = name → ¬o.2.Same sig := by
  have hmem : (∀ o ∈ O, o.1 = name → ¬o.2.Same sig) ↔
      ∀ other ∈ signaturesOf O name, ¬other.Same sig := by
    simp only [mem_signaturesOf]
    grind
  rw [hmem, overloadsOf]
  split
  · next h => simp [h, Takes]
  · next h => simp [h, Takes]

theorem extended_overloadsOf :
    some (extended (overloadsOf O name) sig) = overloadsOf (O ++ [(name, sig)]) name := by
  have happend : signaturesOf (O ++ [(name, sig)]) name = signaturesOf O name ++ [sig] := by
    simp [signaturesOf]
  rw [overloadsOf, overloadsOf, happend]
  cases signaturesOf O name <;> rfl

theorem overloadsOf_append_of_ne (h : other ≠ name) :
    overloadsOf (O ++ [(name, sig)]) other = overloadsOf O other := by
  simp [overloadsOf, signaturesOf, h.symm]

theorem not_isVariable_overloadsOf {m : Meaning} (h : overloadsOf O name = some m) :
    ¬m.IsVariable := by
  unfold overloadsOf at h
  split at h
  · cases h
  · cases h
    exact fun h => h

/-- A name takes an overload when no declaration has it and no overload is the same. -/
theorem takes_globalView (hD : ∀ p ∈ D, p.2.overloads? = none)
    (hapart : ∀ n ∈ D.map Prod.fst, ∀ o ∈ O, o.1 ≠ n) :
    Takes (globalView D O name) sig ↔
      name ∉ D.map Prod.fst ∧ ∀ o ∈ O, o.1 = name → ¬o.2.Same sig := by
  rw [← takes_overloadsOf, globalView]
  by_cases hname : name ∈ D.map Prod.fst
  · rw [overloadsOf_eq_none_iff.2 (hapart name hname), Option.none_or]
    cases hm : D.lookup name with
    | none => exact absurd hname (lookup_eq_none_iff.1 hm)
    | some m =>
      have hover := hD (name, m) (mem_of_lookup hm)
      cases m <;> simp_all [Takes, Meaning.overloads?]
  · rw [lookup_eq_none_iff.2 hname, Option.or_none]
    simp [hname]

/-- One more overload. -/
theorem globalView_append (hname : name ∉ D.map Prod.fst) :
    globalView D (O ++ [(name, sig)]) other =
      if other = name then some (extended (globalView D O name) sig) else globalView D O other := by
  by_cases heq : other = name
  · subst heq
    rw [if_pos rfl, globalView, globalView, lookup_eq_none_iff.2 hname, Option.or_none,
      Option.or_none, extended_overloadsOf]
  · rw [if_neg heq, globalView, globalView, overloadsOf_append_of_ne heq]

/-! ### Functions -/

/-- What is settled about a function stays when later members touch none of its nodes. -/
theorem Settled.mono {c : Nat} (h : Settled a f c s) (hlevel : Level a u s)
    (hspares : Spares n T s s')
    (hrows : ∀ r ∈ f.body, ∀ v : Nat, a.Below r v → 0 < v ∧ ¬T v) : Settled a f c s' := by
  obtain ⟨sc, hsc⟩ := h.scope
  have hscope : s'.table.scope? c = s.table.scope? c := by
    obtain ⟨hpos, hget⟩ := SymbolTable.scope?_eq_some_iff.1 hsc
    obtain ⟨hlt, -⟩ := Array.getElem?_eq_some_iff.1 hget
    exact hspares.scopes c (by omega) (by rw [hlevel.current]; exact h.inner)
  refine ⟨⟨sc, hscope.trans hsc⟩, h.inner, fun name m hmem => ?_, fun r hr v k hv hk hcode => ?_,
    fun r hr v name hv hk => ?_⟩
  · obtain ⟨sc', e, x, hsc', he, hx, hname, rfl⟩ :=
      hlevel.table.linked.meaning?_eq_some (h.holds name m hmem)
    have hvar := Arena.isVariable_of_mem_variablesOf hmem
    cases hm : x.meaning with
    | var ty ref cls d =>
      rw [← hm]
      exact SymbolTable.meaning?_of_find? (hscope.trans hsc') he (hspares.grows.var hx hm)
    | function | record =>
      simp only [hm] at hvar
      exact hvar.elim
  · obtain ⟨hpos, hout⟩ := hrows r hr v hv
    exact (hspares.rows v hpos hout).1.trans (h.marked r hr v k hv hk hcode)
  · obtain ⟨hpos, hout⟩ := hrows r hr v hv
    obtain ⟨e, x, hrow, hx, hname, hcase⟩ := h.resolves r hr v name hv hk
    have hkeep : s'.table.entry e = .ok x := by
      rcases hcase with hmem | ⟨-, ty, ref, d, hm⟩
      · have hvar := Arena.isVariable_of_mem_variablesOf hmem
        cases hm : x.meaning with
        | var ty ref cls d => exact hspares.grows.var hx hm
        | function | record =>
          simp only [hm] at hvar
          exact hvar.elim
      · exact hspares.grows.var hx hm
    exact ⟨e, x, (hspares.rows v hpos hout).2.trans hrow, hkeep, hname, hcase⟩

/-- The rules for a list of functions behind the overloads `O`. -/
structure FunctionsRules (a : Arena) (globals : String → Prop) (D : List (String × Meaning))
    (O : List (String × Signature)) (ids : List NodeId) : Prop where
  overloads : (O ++ a.overloads ids).Pairwise fun x y => x.1 = y.1 → ¬x.2.Same y.2
  unclaimed : ∀ o ∈ a.overloads ids, o.1 ∉ D.map Prod.fst
  each : ∀ id ∈ ids, ∀ f, a.kind id = .ok (.function f) → a.FunctionRules globals f

theorem overloads_cons {id : Nat} {ids : List NodeId} (hk : a.kind id = .ok (.function f)) :
    a.overloads (id :: ids) = (f.name, overloadOf a id f) :: a.overloads ids := by
  obtain ⟨span, hnode⟩ := Arena.kind_eq_ok_iff.1 hk
  rw [Arena.overloads, List.filterMap_cons_some, Arena.overloads]
  rw [Arena.node_eq_ok_iff.1 hnode]
  rfl

theorem functionsRules_cons {globals : String → Prop} {id : Nat} {ids : List NodeId}
    (hk : a.kind id = .ok (.function f)) :
    FunctionsRules a globals D O (id :: ids) ↔
      ((f.name ∉ D.map Prod.fst ∧ ∀ o ∈ O, o.1 = f.name → ¬o.2.Same (overloadOf a id f)) ∧
        a.FunctionRules globals f) ∧
      FunctionsRules a globals D (O ++ [(f.name, overloadOf a id f)]) ids := by
  have hmid : O ++ a.overloads (id :: ids) =
      (O ++ [(f.name, overloadOf a id f)]) ++ a.overloads ids := by
    rw [overloads_cons hk, List.append_assoc]
    rfl
  constructor
  · intro h
    refine ⟨⟨⟨h.unclaimed (f.name, overloadOf a id f) (by rw [overloads_cons hk]; simp), ?_⟩,
      h.each id (by simp) f hk⟩, hmid ▸ h.overloads, ?_, fun id' hid' =>
        h.each id' (by simp [hid'])⟩
    · have hpair := h.overloads
      rw [overloads_cons hk, List.pairwise_append] at hpair
      exact fun o ho => hpair.2.2 o ho (f.name, overloadOf a id f) (by simp)
    · exact fun o ho => h.unclaimed o (by rw [overloads_cons hk]; simp [ho])
  · rintro ⟨⟨⟨hfree, -⟩, hrules⟩, hrest⟩
    refine ⟨hmid ▸ hrest.overloads, fun o ho => ?_, fun id' hid' f' hf' => ?_⟩
    · rw [overloads_cons hk] at ho
      rcases List.mem_cons.1 ho with rfl | ho
      · exact hfree
      · exact hrest.unclaimed o ho
    · rcases List.mem_cons.1 hid' with rfl | hid'
      · cases hk.symm.trans hf'
        exact hrules
      · exact hrest.each id' hid' f' hf'

/-- The global variables are the variables among the declarations. -/
theorem globalVariable_iff (hapart : ∀ name ∈ D.map Prod.fst, ∀ o ∈ O, o.1 ≠ name)
    (hview : ∀ name, s.table.meaning? ScopeId.global name = globalView D O name) :
    GlobalVariable s.table name ↔ ∃ m, D.lookup name = some m ∧ m.IsVariable := by
  rw [GlobalVariable, hview, globalView]
  cases hO : overloadsOf O name with
  | none => rw [Option.none_or]
  | some m =>
    have hnone : D.lookup name = none := by
      refine lookup_eq_none_iff.2 fun hname => ?_
      rw [overloadsOf_eq_none_iff.2 (hapart name hname)] at hO
      cases hO
    simp [hnone, not_isVariable_overloadsOf hO]

/-- The rows of some subtrees. -/
def Covers (parts : List (Nat × Nat)) (i : Nat) : Prop := ∃ p ∈ parts, p.2 < i ∧ i ≤ p.1

/-- Functions behind each other, in any order. -/
theorem decides_bindFunctions {globals : String → Prop} {parts : List (Nat × Nat)}
    (hpairs : parts.Pairwise Arena.Apart)
    (hparts : ∀ p ∈ parts, p.1 ∈ u.functions ∧ a.Tree p.2 p.1 ∧
      ∃ f, a.kind p.1 = .ok (.function f) ∧ a.LocalsFirst f.body)
    (hD : ∀ p ∈ D, p.2.overloads? = none) (hapart : ∀ name ∈ D.map Prod.fst, ∀ o ∈ O, o.1 ≠ name)
    (hglobals : ∀ name, globals name ↔ ∃ m, D.lookup name = some m ∧ m.IsVariable)
    (hO : O.Pairwise fun x y => x.1 = y.1 → ¬x.2.Same y.2) (hlevel : Level a u s)
    (hview : ∀ name, s.table.meaning? ScopeId.global name = globalView D O name) :
    Decides ((parts.map Prod.fst).forM (bindFunction a)) s
      (FunctionsRules a globals D O (parts.map Prod.fst)) fun _ s' =>
      Level a u s' ∧ Spares parts.length (Covers parts) s s' ∧
        (∀ name, s'.table.meaning? ScopeId.global name =
          globalView D (O ++ a.overloads (parts.map Prod.fst)) name) ∧
        ∀ i p, parts[i]? = some p → ∀ f, a.kind p.1 = .ok (.function f) →
          Settled a f (s.table.scopes.size + 1 + i) s' := by
  induction parts generalizing s O with
  | nil =>
    refine ((Decides.pure ()).congr ?_).mono ?_
    · simp only [true_iff]
      exact ⟨by simpa [Arena.overloads] using hO, by simp [Arena.overloads], by simp⟩
    · rintro _ _ - - ⟨-, rfl⟩
      exact ⟨hlevel, .refl _ _, by simpa [Arena.overloads] using hview, by simp⟩
  | cons q rest ih =>
    obtain ⟨c, start⟩ := q
    obtain ⟨hfirst', hrest'⟩ := List.pairwise_cons.1 hpairs
    obtain ⟨hmem, htree, f, hf, hfirst⟩ := hparts (c, start) (by simp)
    have hlt : start < c := htree.lt
    have hknown : GlobalVariable s.table = globals := by
      funext name
      rw [globalVariable_iff hapart hview, hglobals]
    have hone := decides_bindFunction hf htree hmem hfirst hlevel
    rw [hknown, hview, takes_globalView hD hapart] at hone
    refine (hone.bind fun ⟨⟨hfree, hsame⟩, _⟩ _ s' _ hbound => ?_).congr
      (functionsRules_cons hf).symm
    have hcount := hbound.spares.count
    have hrest := ih (s := s') (O := O ++ [(f.name, overloadOf a c f)]) hrest'
      (fun p hp => hparts p (by simp [hp])) (fun name hname o ho => ?_) ?_ hbound.level
        fun name => ?_
    · refine hrest.mono fun _ s'' _ _ ⟨hlevel'', hspares, hview'', hsettled⟩ =>
        ⟨hlevel'', ?_, ?_, ?_⟩
      · rw [List.length_cons, Nat.add_comm]
        refine (hbound.spares.mono fun i hi => ?_).trans (hspares.mono fun i hi => ?_)
        · exact ⟨(c, start), by simp, hi⟩
        · obtain ⟨p, hp, hi⟩ := hi
          exact ⟨p, by simp [hp], hi⟩
      · intro name
        rw [hview'', List.map_cons, overloads_cons hf, List.append_assoc]
        rfl
      · rintro (_ | i) p hp f' hf'
        · cases hp
          cases hf.symm.trans hf'
          refine hbound.settled.mono hbound.level hspares fun r hr v hv => ?_
          obtain ⟨start', hsub, hlo', hle⟩ := htree.sub (.child hf (List.mem_append_right _ hr) hv)
          have hv' := hsub.lt
          refine ⟨by omega, ?_⟩
          rintro ⟨q, hq, hin⟩
          rcases hfirst' q hq with hdis | hdis <;> simp only at hdis <;> omega
        · have hs := hsettled i p hp f' hf'
          rwa [hcount, Nat.add_right_comm] at hs
    · rcases List.mem_append.1 ho with ho | ho
      · exact hapart name hname o ho
      · cases List.mem_singleton.1 ho
        rintro rfl
        exact hfree hname
    · refine List.pairwise_append.2 ⟨hO, List.pairwise_singleton _ _, fun o ho o' ho' => ?_⟩
      cases List.mem_singleton.1 ho'
      exact hsame o ho
    · rw [hbound.meaning, globalView_append hfree, hview, hview]

/-! ### Builtins -/

theorem meaning?_builtins {builtins : List Builtin} {t : SymbolTable}
    (hsub : ∀ b ∈ builtins, b ∈ Builtin.all) (htable : TableSound a u t)
    (hcur : t.current = ScopeId.global) (hview : ∀ n, t.meaning? ScopeId.global n = overloadsOf O n)
    (hnodup : (O.map Prod.fst ++ builtins.map (·.name)).Nodup) :
    let t' :=
      builtins.foldl (fun t b => (t.declare b.name (.function [b.signature]) Span.empty).2) t
    t'.scopes.size = t.scopes.size ∧ ∀ n, t'.meaning? ScopeId.global n =
      overloadsOf (O ++ builtins.map fun b => (b.name, b.signature)) n := by
  induction builtins generalizing t O with
  | nil => exact ⟨rfl, by simpa using hview⟩
  | cons b rest ih =>
    have hpos : 0 < t.current := by rw [hcur]; exact Nat.one_pos
    obtain ⟨g, hg, -⟩ := htable.root
    have hone : ∀ c ∈ [b], c ∈ Builtin.all := by simpa using hsub b (by simp)
    obtain ⟨htable', hcur'⟩ := tableSound_builtins hone htable hcur
    have hfresh : overloadsOf O b.name = none := by
      refine overloadsOf_eq_none_iff.2 fun o ho heq => ?_
      exact (List.nodup_append.1 hnodup).2.2 o.1 (List.mem_map_of_mem ho) b.name (by simp) heq
    have hrest := ih (t := (t.declare b.name (.function [b.signature]) Span.empty).2)
      (O := O ++ [(b.name, b.signature)]) (fun c hc => hsub c (by simp [hc])) htable' hcur'
      (fun n => ?_) (by simpa using hnodup)
    · simpa [SymbolTable.declare, SymbolTable.bind] using hrest
    · rw [htable.linked.meaning?_declare hpos (hcur ▸ hg), hcur, hview]
      by_cases hn : n = b.name
      · subst hn
        rw [if_pos ⟨rfl, rfl⟩, ← extended_overloadsOf, hfresh]
        rfl
      · rw [if_neg (fun h => hn h.2), overloadsOf_append_of_ne hn]

/-- The tables that the pass starts with. -/
def initial (a : Arena) : State :=
  ⟨SymbolTable.withBuiltins {}, (SemanticInfo.blank a.size).scopes,
    (SemanticInfo.blank a.size).resolved⟩

theorem meaning?_initial : (initial a).table.scopes.size = 1 ∧
    ∀ n, (initial a).table.meaning? ScopeId.global n = overloadsOf Builtin.overloads n :=
  meaning?_builtins (u := ⟨[], [], []⟩) (O := []) (fun _ hb => hb) (tableSound_empty (a := a)) rfl
    (fun _ => rfl) (by decide)

theorem level_initial : Level a u (initial a) := by
  obtain ⟨htable, hcur⟩ := tableSound_initial (a := a) (u := u)
  refine ⟨⟨htable, hcur, by simp [initial, SemanticInfo.blank]⟩, by simp [initial,
    SemanticInfo.blank], fun (c : Nat) sc hc hne => absurd ?_ hne⟩
  obtain ⟨hpos, hget⟩ := SymbolTable.scope?_eq_some_iff.1 hc
  obtain ⟨hlt, -⟩ := Array.getElem?_eq_some_iff.1 hget
  have hsize := (meaning?_initial (a := a)).1
  change c = 1
  omega

theorem pairwise_builtins : Builtin.overloads.Pairwise fun x y => x.1 = y.1 → ¬x.2.Same y.2 := by
  have hnames : Builtin.overloads.Pairwise fun x y => x.1 ≠ y.1 := by decide
  exact hnames.imp fun hne heq => absurd heq hne

/-! ### Programs -/

/-- The globals of a program, by name. -/
def globalsAs (a : Arena) (u : UnitNode) : List (String × Meaning) :=
  u.globals.filterMap (a.declaredAs? .global)

/-- The records of a program, by name. -/
def recordsAs (a : Arena) (u : UnitNode) : List (String × Meaning) :=
  u.records.filterMap a.recordAs?

theorem map_fst_recordAs? (id : NodeId) :
    (a.recordAs? id).map Prod.fst = ((a.node? id).bind (·.kind.record?)).map (·.name) := by
  unfold Arena.recordAs?
  split
  · next h => simp [h, NodeKind.record?]
  · next h =>
    cases hnode : a.node? id with
    | none => rfl
    | some node =>
      obtain ⟨k, span⟩ := node
      cases k with
      | record r => exact absurd hnode (h r span)
      | _ => rfl

theorem map_fst_append : (globalsAs a u ++ recordsAs a u).map Prod.fst =
    a.names u.globals ++ a.recordNames u.records := by
  rw [List.map_append, globalsAs, Arena.map_fst_filterMap, recordsAs, List.map_filterMap,
    Arena.recordNames]
  simp only [map_fst_recordAs?]

/-- Globals and records are no overload sets. -/
theorem overloads?_globalsAs_append {p : String × Meaning}
    (hp : p ∈ globalsAs a u ++ recordsAs a u) : p.2.overloads? = none := by
  rcases List.mem_append.1 hp with hp | hp <;> obtain ⟨d, -, hd⟩ := List.mem_filterMap.1 hp
  · unfold Arena.declaredAs? at hd
    split at hd <;> cases hd
    rfl
  · unfold Arena.recordAs? at hd
    split at hd <;> cases hd
    rfl

theorem decides_bindGlobals (hlayout : a.Spread u) (hlevel : Level a u s) :
    Decides (u.globals.forM fun id => declareVariable a id .global) s
      (Free s.table (globalsAs a u)) fun _ s' =>
      Level a u s' ∧ Declares 0 (fun _ => True) (globalsAs a u) s s' := by
  refine decides_names (fun d hd => ?_) hlevel
  obtain ⟨b, hb⟩ := (hlayout.globals d hd).1
  exact ⟨b.name, _, Arena.declaredAs?_of_kind hb _, fun s hs => decides_bindGlobal hb hd trivial hs⟩

theorem recordAs?_of_kind {id : Nat} {r : RecordNode} (h : a.kind id = .ok (.record r)) :
    a.recordAs? id =
      some (r.name, .record ((a.bindersOf r.fields).map fun b => ⟨b.name, b.ty⟩) id) := by
  obtain ⟨span, hnode⟩ := Arena.kind_eq_ok_iff.1 h
  rw [Arena.recordAs?, Arena.node_eq_ok_iff.1 hnode]

theorem decides_bindRecords (hlayout : a.Spread u) (hlevel : Level a u s) :
    Decides (u.records.forM (bindRecord a)) s
      (Free s.table (recordsAs a u) ∧
        ∀ id ∈ u.records, ∀ r, a.kind id = .ok (.record r) → (r.name :: a.names r.fields).Nodup)
      fun _ s' => Level a u s' ∧ Declares u.records.length (fun _ => True)
        (recordsAs a u) s s' := by
  have hall : Decides (u.records.forM (bindRecord a)) s
      (Free s.table (u.records.filterMap a.recordAs?) ∧
      ∀ id ∈ u.records, ∀ r, a.kind id = .ok (.record r) → (r.name :: a.names r.fields).Nodup)
      fun _ s' => Level a u s' ∧ Declares (1 * u.records.length) (fun _ => True)
        (u.records.filterMap a.recordAs?) s s' ∧ ∀ id ∈ u.records, True := by
    refine decides_declarations (fun id hid => ?_) (fun _ _ _ _ _ _ _ => trivial) hlevel
    obtain ⟨⟨r, hr⟩, start, htree⟩ := hlayout.records id hid
    refine ⟨r.name, _, recordAs?_of_kind hr, fun s hs => ?_⟩
    refine ((decides_bindRecord hr htree hid (fun _ _ _ => trivial) hs).congr ?_).mono
      fun _ _ _ _ h => ⟨h.1, h.2, trivial⟩
    simp [hr]
  rw [Nat.one_mul] at hall
  exact hall.mono fun _ _ _ _ h => ⟨h.1, h.2.1⟩

/-- What the pass leaves behind. -/
structure UnitBound (a : Arena) (u : UnitNode) (s : State) : Prop where
  level : Level a u s
  count : s.table.scopes.size = 1 + u.records.length + u.functions.length
  view : ∀ name, s.table.meaning? ScopeId.global name =
    globalView (globalsAs a u ++ recordsAs a u) (Builtin.overloads ++ a.overloads u.functions) name
  settled : ∀ (i id : Nat) f, u.functions[i]? = some id → a.kind id = .ok (.function f) →
    Settled a f (u.records.length + 2 + i) s

/-- Names are free at the start when they are distinct and no builtin has them. -/
theorem free_initial {L : List (String × Meaning)} : Free (initial a).table L ↔
    (L.map Prod.fst).Nodup ∧ ∀ name ∈ L.map Prod.fst, ∀ o ∈ Builtin.overloads, o.1 ≠ name := by
  have hcurrent : (initial a).table.current = ScopeId.global := (tableSound_initial (a := a)
    (u := ⟨[], [], []⟩)).2
  simp only [Free, hcurrent, meaning?_initial.2, overloadsOf_eq_none_iff]

/-- The rules in the order they are checked. -/
theorem wellScoped_iff : a.WellScoped u ↔ Free (initial a).table (globalsAs a u) ∧
    (Free (initial a).table (globalsAs a u ++ recordsAs a u) ∧
      ∀ id ∈ u.records, ∀ r, a.kind id = .ok (.record r) → (r.name :: a.names r.fields).Nodup) ∧
    FunctionsRules a (· ∈ a.names u.globals) (globalsAs a u ++ recordsAs a u) Builtin.overloads
      u.functions := by
  constructor
  · intro h
    have hfree : Free (initial a).table (globalsAs a u ++ recordsAs a u) := by
      rw [free_initial, map_fst_append]
      exact ⟨h.distinct, fun name hname o ho => h.unclaimed name hname o
        (List.mem_append_left _ ho)⟩
    refine ⟨hfree.of_append, ⟨hfree, h.fields⟩, h.overloads, fun o ho hname => ?_, h.functions⟩
    rw [map_fst_append] at hname
    exact h.unclaimed o.1 hname o (List.mem_append_right _ ho) rfl
  · rintro ⟨-, ⟨hfree, hfields⟩, hfunctions⟩
    have hunclaimed := hfunctions.unclaimed
    rw [free_initial, map_fst_append] at hfree
    rw [map_fst_append] at hunclaimed
    refine ⟨hfree.1, fun name hname o ho => ?_, hfields, hfunctions.overloads, hfunctions.each⟩
    rcases List.mem_append.1 ho with ho | ho
    · exact hfree.2 name hname o ho
    · rintro rfl
      exact hunclaimed o ho hname

/-- The variables among the declarations are the globals. -/
theorem mem_globals_iff (hnodup : ((globalsAs a u ++ recordsAs a u).map Prod.fst).Nodup) :
    name ∈ a.names u.globals ↔
      ∃ m, (globalsAs a u ++ recordsAs a u).lookup name = some m ∧ m.IsVariable := by
  have hglobals : ∀ p ∈ globalsAs a u, p.2.IsVariable := by
    intro p hp
    obtain ⟨d, -, hd⟩ := List.mem_filterMap.1 hp
    exact Arena.isVariable_of_declaredAs? hd
  have hrecords : ∀ p ∈ recordsAs a u, ¬p.2.IsVariable := by
    intro p hp
    obtain ⟨d, -, hd⟩ := List.mem_filterMap.1 hp
    unfold Arena.recordAs? at hd
    split at hd <;> cases hd
    exact fun h => h
  have hnames : a.names u.globals = (globalsAs a u).map Prod.fst :=
    (Arena.map_fst_filterMap _ _).symm
  rw [hnames]
  simp only [lookup_eq_some_iff hnodup, List.mem_append, List.mem_map, Prod.exists,
    exists_and_right, exists_eq_right]
  refine exists_congr fun m => ⟨fun h => ⟨.inl h, hglobals _ h⟩, fun ⟨h, hvar⟩ => ?_⟩
  exact h.resolve_right fun hrecord => hrecords _ hrecord hvar

/-- The pass decides the rules. -/
theorem decides_bindUnit (hu : a.unit? = some u) (hspread : a.Spread u) :
    Decides (bindUnit a) (initial a) (a.WellScoped u) fun _ s => UnitBound a u s := by
  obtain ⟨span, hnode⟩ := Arena.node_root_of_unit? hu
  obtain ⟨parts, hparts, hpairs, htrees⟩ := hspread.functions
  have hmem : ∀ p ∈ parts, p.1 ∈ u.functions := fun p hp => hparts ▸ List.mem_map_of_mem hp
  have hlevel := (level_initial (a := a) (u := u)).recordScope NodeId.root
  unfold bindUnit
  refine .bind_total (succeeds_lift_ok hnode) (.bind_total (succeeds_recordScope _) ?_)
  refine Decides.congr ?_ wellScoped_iff.symm
  refine (decides_bindGlobals hspread hlevel).bind fun hfree _ s₁ _ ⟨hlevel₁, hdecl₁⟩ => ?_
  refine ((decides_bindRecords hspread hlevel₁).congr
    (and_congr_left' ?_)).bind fun ⟨hfree₂, _⟩ _ s₂ _ ⟨hlevel₂, hdecl₂⟩ => ?_
  · exact (hdecl₁.free_append.trans (and_iff_right hfree)).symm
  have hdecl := hdecl₁.append hdecl₂
  have hcount : s₂.table.scopes.size = 1 + (0 + u.records.length) :=
    hdecl.count.trans (by rw [← (meaning?_initial (a := a)).1])
  rw [free_initial] at hfree₂
  rw [← hparts]
  refine (decides_bindFunctions hpairs (fun p hp => ?_)
    (fun p hp => overloads?_globalsAs_append hp) hfree₂.2
    (fun name => mem_globals_iff hfree₂.1) pairwise_builtins hlevel₂ fun name => ?_).mono ?_
  · obtain ⟨⟨f, hf⟩, htree⟩ := htrees p hp
    exact ⟨hmem p hp, htree, f, hf, hspread.localsFirst p.1 (hmem p hp) f hf⟩
  · have hhere := hdecl.here name
    rw [hlevel.current] at hhere
    rw [globalView, ← (meaning?_initial (a := a)).2 name]
    exact hhere
  · rintro _ s₃ - - ⟨hlevel₃, hspares, hview₃, hsettled⟩
    have hcount₃ := hspares.count
    have hlength : parts.length = u.functions.length := by rw [← hparts, List.length_map]
    refine ⟨hlevel₃, by omega, hparts ▸ hview₃, fun i id f hi hf => ?_⟩
    rw [← hparts, List.getElem?_map] at hi
    obtain ⟨p, hp, rfl⟩ := Option.map_eq_some_iff.1 hi
    have hs := hsettled i p hp f hf
    rwa [hcount, show 1 + (0 + u.records.length) + 1 + i = u.records.length + 2 + i by omega] at hs

end Binding

/-- Binding as a run from the tables it starts with. -/
theorem Arena.bind_eq (a : Arena) (t : SymbolTable) : a.bind t =
    let r := Binding.outcome (Binding.bindUnit a)
      ⟨t.withBuiltins, (SemanticInfo.blank a.size).scopes, (SemanticInfo.blank a.size).resolved⟩
    (r.1, r.2.table,
      { SemanticInfo.blank a.size with scopes := r.2.scopes, resolved := r.2.resolved }) :=
  rfl

/-- A parsed program is bound exactly when it is well scoped; any other gets an error report. -/
theorem Program.bind_accepts_iff {tokens : List Token} {p : Program}
    (h : Program.parse tokens = .ok p) :
    ∃ u, (Arena.ofProgram p).unit? = some u ∧
      (((Arena.ofProgram p).bind {}).1 = .ok () ↔ (Arena.ofProgram p).WellScoped u) ∧
      (¬(Arena.ofProgram p).WellScoped u →
        ∃ e, ((Arena.ofProgram p).bind {}).1 = .error (.reported e)) := by
  obtain ⟨u, hu, hcomplete⟩ := Arena.exists_complete_ofProgram (Program.shaped_of_parse h)
  have hdecides := Binding.decides_bindUnit hu hcomplete.spread
  rw [Arena.bind_eq]
  refine ⟨u, hu, ⟨fun hok => ?_, fun hscoped => ?_⟩, fun hnot => ?_⟩
  · exact (hdecides.of_succeeds (Prod.ext hok rfl)).1
  · obtain ⟨_, s, hs, -⟩ := hdecides.accepts hscoped
    exact congrArg Prod.fst hs
  · obtain ⟨e, s, he⟩ := hdecides.rejects hnot
    exact ⟨e, congrArg Prod.fst he⟩

namespace Shadowing

/-- A global, a record with a field of that name, two functions of one name, and a parameter that
hides the global. One of the functions returns in a branch only. -/
def words : List String :=
  ["int", "g", ";", "record", "R", "\x7b", "int", "g", ";", "\x7d",
    "int", "f", "(", "int", "g", ")", "\x7b", "bool", "x", ";", "x", "=", "g", "==", "0", ";",
    "if", "(", "x", ")", "\x7b", "return", "g", ";", "\x7d", "\x7d",
    "int", "f", "(", ")", "\x7b", "return", "g", ";", "\x7d"]

def bytes : List UInt8 := words.flatMap fun w => w.toList.map (fun c => UInt8.ofNat c.toNat) ++ [32]

def tokens : List Token := (Token.scan 2 bytes).toOption.get (by decide +kernel)

def program : Program := (Program.parse tokens).toOption.get (by decide +kernel)

theorem parse_tokens : Program.parse tokens = .ok program := Outcome.ok_get_toOption _

theorem bind_ok : ((Arena.ofProgram program).bind {}).1 = .ok () := by decide +kernel

end Shadowing

/-- Own names, fields and overloads do not clash with each other. -/
theorem Shadowing.wellScoped :
    ∃ u, (Arena.ofProgram program).unit? = some u ∧ (Arena.ofProgram program).WellScoped u := by
  obtain ⟨u, hu, hiff, -⟩ := Program.bind_accepts_iff parse_tokens
  exact ⟨u, hu, hiff.1 bind_ok⟩

end MiniJ
