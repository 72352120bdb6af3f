import MiniJ.Proofs.Binding.Table

/-!
# Binding resolves variables

After a successful pass every variable in the body of a function is resolved to a global of the
program or to a parameter or local of that function, and every entry of the table describes what
it was declared by.

## Main statements

* `Binding.bindNode_sound` — what one statement or expression contributes.
* `Binding.bindFunction_sound` — a whole function.
* `Arena.bind_sound` — the pass.
-/
namespace MiniJ

namespace Binding

variable {a : Arena} {u : UnitNode} {f : FunctionNode} {s s' t : State}

/-- A parameter of a function or a variable its body declares. -/
def DeclaredIn (a : Arena) (f : FunctionNode) (d : Nat) : Prop :=
  d ∈ f.params ∨ ∃ r ∈ f.body, ∃ x, a.Below r x ∧ a.kind x = .ok (.declare d)

/-- The pass between two members. -/
structure Outside (a : Arena) (u : UnitNode) (s : State) : Prop where
  table : TableSound a u s.table
  current : s.table.current = ScopeId.global
  size : s.resolved.size = a.size

/-- The pass inside of a member whose variables have property `P`. -/
structure Inside (a : Arena) (u : UnitNode) (P : Nat → Prop) (s : State) : Prop where
  table : TableSound a u s.table
  scope : ScopeSound P s.table
  size : s.resolved.size = a.size

/-- A variable node is resolved to a global or to a variable with property `P`. -/
def Resolves (P : Nat → Prop) (table : SymbolTable) (resolved : Array (Option EntryId))
    (v : Nat) : Prop :=
  ∃ e x ty ref kind d, SemanticInfo.row resolved v = some e ∧ table.entry e = .ok x ∧
    x.meaning = .var ty ref kind d ∧ (kind = .global ∨ (kind ≠ .global ∧ P d))

theorem Resolves.mono {P : Nat → Prop} {v : Nat} (h : Resolves P s.table s.resolved v)
    (hg : Grows s.table s'.table)
    (hrow : SemanticInfo.row s'.resolved v = SemanticInfo.row s.resolved v) :
    Resolves P s'.table s'.resolved v := by
  obtain ⟨e, x, ty, ref, kind, d, hv, hx, hm, hP⟩ := h
  exact ⟨e, x, ty, ref, kind, d, hrow.trans hv, hg.var hx hm, hm, hP⟩

/-! ### Declarations -/

theorem binder?_eq_some {k : NodeKind} {b : Binder} (h : k.binder? = some b) :
    k = .declaration b := by
  cases k <;> simp_all [NodeKind.binder?]

theorem ensureFresh_state {name : String} {span : Span}
    (h : Succeeds (ensureFresh name span) s () s') : s' = s := by
  simp only [ensureFresh, succeeds_bind, succeeds_get, succeeds_lift] at h
  obtain ⟨_, _, ⟨rfl, rfl⟩, _, _, ⟨_, rfl⟩, h⟩ := h
  split at h
  · simp [succeeds_bind, succeeds_fail] at h
  · exact (succeeds_pure.1 h).2

/-- Declaring the variable of a node touches neither scopes below nor resolved variables. -/
theorem declareVariable_cases {id : Nat} {kind : VariableClass}
    (h : Succeeds (declareVariable a id kind) s () s') :
    s' = s ∨ ∃ b span, a.kind id = .ok (.declaration b) ∧ s'.resolved = s.resolved ∧
      s'.table = (s.table.declare b.name (.var b.ty b.isReference kind id) span).2 := by
  simp only [declareVariable, recordScope, declare, succeeds_bind, succeeds_lift] at h
  obtain ⟨node, t, ⟨hnode, rfl⟩, h⟩ := h
  split at h
  · exact .inl (succeeds_pure.1 h).2
  · next b hb =>
    simp only [succeeds_bind, succeeds_get, succeeds_modify, succeeds_pure] at h
    obtain ⟨_, _, hfresh, _, _, rfl, _, _, ⟨_, _, ⟨rfl, rfl⟩, _, _, rfl, _, rfl⟩, _, rfl⟩ := h
    obtain rfl := ensureFresh_state hfresh
    refine .inr ⟨b, node.span, ?_, rfl, rfl⟩
    rw [Arena.kind_eq_ok_iff]
    exact ⟨node.span, by rw [hnode, ← binder?_eq_some hb]⟩

theorem declareVariable_inside {P : Nat → Prop} {id : Nat} {kind : VariableClass}
    (hin : Inside a u P s) (hkind : kind ≠ .global) (hP : P id)
    (h : Succeeds (declareVariable a id kind) s () s') :
    Inside a u P s' ∧ Grows s.table s'.table ∧ s'.resolved = s.resolved := by
  rcases declareVariable_cases h with rfl | ⟨b, span, hb, hres, htab⟩
  · exact ⟨hin, .refl _, rfl⟩
  · have hcur : s.table.current ≠ ScopeId.global := hin.scope.inner
    refine ⟨⟨?_, ?_, hres ▸ hin.size⟩, htab ▸ grows_declare _ _ _, hres⟩
    · rw [htab]
      refine hin.table.declare hin.scope.pos span ⟨hb, fun h => absurd h hkind⟩ fun h =>
        absurd h hcur
    · rw [htab]
      refine hin.scope.declare hin.table span fun ty ref kind' d heq => ?_
      cases heq
      exact ⟨hkind, hP⟩

theorem declareVariable_outside {id : Nat} (hout : Outside a u s) (hid : id ∈ u.globals)
    (h : Succeeds (declareVariable a id .global) s () s') :
    Outside a u s' ∧ Grows s.table s'.table ∧ s'.resolved = s.resolved := by
  rcases declareVariable_cases h with rfl | ⟨b, span, hb, hres, htab⟩
  · exact ⟨hout, .refl _, rfl⟩
  · have hpos : 0 < s.table.current := by rw [hout.current]; exact Nat.one_pos
    refine ⟨⟨?_, ?_, hres ▸ hout.size⟩, htab ▸ grows_declare _ _ _, hres⟩
    · rw [htab]
      refine hout.table.declare hpos span ⟨hb, fun _ => hid⟩ fun _ ty ref kind d heq => ?_
      cases heq
      rfl
    · rw [htab, SymbolTable.current_declare, hout.current]

/-! ### Statements and expressions -/

/-- The entry a variable is resolved to. -/
theorem resolveVariable_inside {P : Nat → Prop} {id : Nat} {name : String} {span : Span}
    (hin : Inside a u P s) (hpos : 0 < id) (hle : id ≤ a.size)
    (h : Succeeds (resolveVariable id name span) s () s') :
    Inside a u P s' ∧ s'.table = s.table ∧ Resolves P s'.table s'.resolved id ∧
      ∀ i, 0 < i → i ≠ id → SemanticInfo.row s'.resolved i = SemanticInfo.row s.resolved i := by
  simp only [resolveVariable, succeeds_bind, succeeds_get] at h
  obtain ⟨v, t, ⟨rfl, rfl⟩, h⟩ := h
  split at h
  · simp [succeeds_fail] at h
  · next e c hfind =>
    simp only [succeeds_bind, succeeds_lift] at h
    obtain ⟨x, t', ⟨hx, rfl⟩, h⟩ := h
    split at h
    · next ty ref kind d hm =>
      obtain rfl := succeeds_modify.1 h
      have hsize : id ≤ t'.resolved.size := by rw [hin.size]; exact hle
      refine ⟨⟨hin.table, hin.scope, by simp [hin.size]⟩, rfl, ?_, ?_⟩
      · refine ⟨e, x, ty, ref, kind, d, SemanticInfo.row_setRow_self hpos hsize e, hx, hm, ?_⟩
        obtain ⟨sc, hsc, hparent, hvars⟩ := hin.scope.scope
        obtain ⟨g, hg, hroot⟩ := hin.table.root
        rcases SymbolTable.find?_of_parent hsc hparent hg hroot hfind with hf | hf
        · exact .inr (hvars name e x ty ref kind d (Scope.mem_of_find? hf) hx hm)
        · exact .inl (hin.table.globals g hg name e x ty ref kind d (Scope.mem_of_find? hf) hx hm)
      · intro i hi hne
        exact SemanticInfo.row_setRow_of_ne hpos hi hne e
    · simp [succeeds_fail] at h

/-- What binding the subtree at `id`, which fills the numbers above `lo`, contributes. -/
structure Contributes (a : Arena) (u : UnitNode) (P : Nat → Prop) (lo id : Nat) (s s' : State)
    (vars : Nat → Prop) : Prop where
  inside : Inside a u P s'
  grows : Grows s.table s'.table
  frame : ∀ i, 0 < i → i ≤ lo ∨ id < i →
    SemanticInfo.row s'.resolved i = SemanticInfo.row s.resolved i
  resolves : ∀ v name, vars v → a.kind v = .ok (.var name) →
    Resolves P s'.table s'.resolved v

/-- Subtrees behind each other contribute one after the other. -/
theorem bindNodes_sound {P : Nat → Prop} {bind : Nat → BindM Unit} {lo id : Nat}
    {parts : List (Nat × Nat)} (htiles : Arena.Tiles lo parts id)
    (htrees : ∀ p ∈ parts, a.Tree p.2 p.1)
    (hbind : ∀ p ∈ parts, ∀ s s', Inside a u P s → Succeeds (bind p.1) s () s' →
      Contributes a u P p.2 p.1 s s' (a.Below p.1))
    (hin : Inside a u P s) (h : Succeeds ((parts.map Prod.fst).forM bind) s () s') :
    Contributes a u P lo (id - 1) s s' fun v => ∃ p ∈ parts, a.Below p.1 v := by
  induction parts generalizing lo s with
  | nil =>
    obtain ⟨-, rfl⟩ := succeeds_pure.1 h
    exact ⟨hin, .refl _, fun _ _ _ => rfl, fun v name ⟨p, hp, _⟩ => by simp at hp⟩
  | cons q rest ih =>
    obtain ⟨c, start⟩ := q
    obtain ⟨rfl, htiles⟩ := htiles
    have hc : start < c := (htrees (c, start) (by simp)).lt
    have hbounds := htiles.bounds fun p hp => (htrees p (by simp [hp])).lt
    obtain ⟨_, t, hfirst, hrest⟩ := succeeds_bind.1 h
    have hone := hbind (c, start) (by simp) s t hin hfirst
    have hmany := ih htiles (fun p hp => htrees p (by simp [hp]))
      (fun p hp => hbind p (by simp [hp])) hone.inside hrest
    refine ⟨hmany.inside, hone.grows.trans hmany.grows, fun i hi hout => ?_, ?_⟩
    · rw [hmany.frame i hi (by omega), hone.frame i hi (by simp only; omega)]
    · rintro v name ⟨p, hp, hv⟩ hk
      rcases List.mem_cons.1 hp with rfl | hp
      · obtain ⟨_, _, _, hle⟩ := (htrees (c, start) (by simp)).sub hv
        have hpos := (Arena.bounds_of_kind hk).1
        exact (hone.resolves v name hv hk).mono hmany.grows (hmany.frame v hpos (.inl hle))
      · exact hmany.resolves v name ⟨p, hp, hv⟩ hk

/-- Noting the scope of a node changes neither the table nor the resolved variables. -/
theorem Inside.recordScope {P : Nat → Prop} (h : Inside a u P s) (id : Nat) :
    Inside a u P { s with scopes := SemanticInfo.setRow s.scopes id s.table.current } :=
  ⟨h.table, h.scope, h.size⟩

/-- What binding one node comes down to. -/
theorem bindNode_cases {depth id : Nat} (h : Succeeds (bindNode a (depth + 1) id) s () s') :
    ∃ k t, a.kind id = .ok k ∧
      t = { s with scopes := SemanticInfo.setRow s.scopes id s.table.current } ∧
      ((∃ d, k = .declare d ∧ Succeeds (declareVariable a d .localVariable) t () s') ∨
        (∃ name span, k = .var name ∧ Succeeds (resolveVariable id name span) t () s') ∨
        ((k.role = .member ∨ ∃ b, k = .declaration b) ∧ s' = t) ∨
        ((∀ name, k ≠ .var name) ∧ Succeeds (k.children.forM (bindNode a depth)) t () s')) := by
  simp only [bindNode, recordScope, succeeds_bind, succeeds_lift, succeeds_modify] at h
  obtain ⟨⟨k, span⟩, t, ⟨hnode, rfl⟩, _, t', rfl, h⟩ := h
  refine ⟨k, _, Arena.kind_eq_ok_iff.2 ⟨span, hnode⟩, rfl, ?_⟩
  cases k with
  | declare d => exact .inl ⟨d, rfl, h⟩
  | var name => exact .inr (.inl ⟨name, span, rfl, h⟩)
  | declaration b => exact .inr (.inr (.inl ⟨.inr ⟨b, rfl⟩, (succeeds_pure.1 h).2⟩))
  | function | record | unit => exact .inr (.inr (.inl ⟨.inl rfl, (succeeds_pure.1 h).2⟩))
  | _ => exact .inr (.inr (.inr ⟨by simp, h⟩))

/-- A declaration has no variables below it. -/
theorem not_below_declaration {d v : Nat} {name : String} {b : Binder}
    (hd : a.kind d = .ok (.declaration b)) (hv : a.Below d v) : a.kind v ≠ .ok (.var name) := by
  cases hv with
  | self => simp [hd]
  | child hk hmem _ =>
    cases Except.ok.inj (hd.symm.trans hk)
    simp [NodeKind.children] at hmem

/-- Binding a subtree resolves its variables and touches no other row. -/
theorem bindNode_sound {P : Nat → Prop} {depth lo id : Nat} (htree : a.Tree lo id)
    (hpart : a.IsPart id) (hP : ∀ x d, a.Below id x → a.kind x = .ok (.declare d) → P d)
    (hin : Inside a u P s) (h : Succeeds (bindNode a depth id) s () s') :
    Contributes a u P lo id s s' (a.Below id) := by
  induction depth generalizing lo id s s' with
  | zero => exact (succeeds_throw.1 h).elim
  | succ depth ih =>
    obtain ⟨k, t, hk, rfl, h⟩ := bindNode_cases h
    have hin' := hin.recordScope id
    have hlt := htree.lt
    obtain ⟨hpos, hle⟩ := Arena.bounds_of_kind hk
    rcases h with ⟨d, rfl, h⟩ | ⟨name, span, rfl, h⟩ | ⟨hkind, rfl⟩ | ⟨hvar, h⟩
    · obtain ⟨hin'', hgrows, hres⟩ := declareVariable_inside hin' (by simp)
        (hP id d (.self id) hk) h
      refine ⟨hin'', hgrows, fun i _ _ => by rw [hres], fun v name hv hkv => ?_⟩
      obtain ⟨b, hb⟩ : a.IsDeclaration d := by
        have hroles := htree.roles hk
        simp only [NodeKind.partRoles, NodeKind.children, List.forall₂_cons] at hroles
        exact hroles.1.isDeclaration
      cases hv with
      | self => simp [hk] at hkv
      | child hk' hmem hv =>
        cases Except.ok.inj (hk.symm.trans hk')
        cases List.mem_singleton.1 hmem
        exact absurd hkv (not_below_declaration hb hv)
    · obtain ⟨hin'', htab, hres, hframe⟩ := resolveVariable_inside hin' hpos hle h
      refine ⟨hin'', htab ▸ .refl _, fun i hi hout => hframe i hi (by omega), fun v n hv _ => ?_⟩
      cases hv with
      | self => exact hres
      | child hk' hmem _ =>
        cases Except.ok.inj (hk.symm.trans hk')
        simp [NodeKind.children] at hmem
    · obtain ⟨k', hk', hmember⟩ := hpart
      obtain rfl := Except.ok.inj (hk.symm.trans hk')
      obtain ⟨b, rfl⟩ := hkind.resolve_left (by simp [hmember])
      exact ⟨hin', .refl _, fun _ _ _ => rfl,
        fun v n hv hkv => absurd hkv (not_below_declaration hk hv)⟩
    · have hinner := fun c => htree.isPart_child hk (c := c)
      obtain ⟨parts, hk', -, hchildren, htiles, -, htrees⟩ := htree
      obtain rfl := Except.ok.inj (hk.symm.trans hk')
      have hmem : ∀ p ∈ parts, p.1 ∈ k.children := fun p hp =>
        hchildren ▸ List.mem_map_of_mem hp
      rw [← hchildren] at h
      have hmany := bindNodes_sound htiles htrees
        (fun p hp s s' hs h' => ih (htrees p hp) (hinner p.1 (hmem p hp))
          (fun x d hx hd => hP x d (.child hk (hmem p hp) hx) hd) hs h') hin' h
      refine ⟨hmany.inside, hmany.grows, fun i hi hout => hmany.frame i hi (by omega),
        fun v n hv hkv => ?_⟩
      cases hv with
      | self => exact absurd (Except.ok.inj (hk.symm.trans hkv)) (hvar n)
      | child hk'' hc hv =>
        obtain rfl := Except.ok.inj (hk.symm.trans hk'')
        obtain ⟨p, hp, rfl⟩ := List.mem_map.1 (hchildren ▸ hc)
        exact hmany.resolves v n ⟨p, hp, hv⟩ hkv

/-! ### Members -/

/-- The overload set of a name gets one more overload. -/
theorem registerOverload_outside {name : String} {sig : Signature} {span : Span} {e : Nat}
    (hout : Outside a u s) (hsig : sig.Describes a u name)
    (h : Succeeds (registerOverload name sig span) s e s') :
    Outside a u s' ∧ Grows s.table s'.table ∧ s'.resolved = s.resolved ∧
      ∃ x, s'.table.entry e = .ok x ∧ x.name = name ∧
        ∀ ty ref kind d, x.meaning ≠ .var ty ref kind d := by
  have hpos : 0 < s.table.current := by rw [hout.current]; exact Nat.one_pos
  simp only [registerOverload, declare, succeeds_bind, succeeds_get, succeeds_lift] at h
  obtain ⟨_, _, ⟨rfl, rfl⟩, found, t, ⟨hfound, rfl⟩, h⟩ := h
  split at h
  · simp only [succeeds_bind, succeeds_get, succeeds_modify, succeeds_pure] at h
    obtain ⟨_, t₁, ⟨rfl, rfl⟩, _, _, rfl, rfl, rfl⟩ := h
    refine ⟨⟨hout.table.declare hpos span ?_ (by simp), hout.current, hout.size⟩,
      grows_declare _ _ _, rfl, _, SymbolTable.entry_declare.2 (.inr ⟨rfl, rfl⟩), rfl, by simp⟩
    intro sig' hsig'
    exact List.mem_singleton.1 hsig' ▸ hsig
  · next id =>
    obtain ⟨sc, hscope, hfind⟩ := SymbolTable.lookupIn_eq_ok_iff.1 hfound
    obtain ⟨x, hx, rfl⟩ := hout.table.names _ sc hscope _ _ (Scope.mem_of_find? hfind)
    simp only [succeeds_bind, succeeds_lift] at h
    obtain ⟨y, _, ⟨hy, rfl⟩, h⟩ := h
    obtain rfl := Except.ok.inj (hx.symm.trans hy)
    split at h
    · exact (succeeds_fail.1 h).elim
    · next overloads hover =>
      have hm : x.meaning = .function overloads := by
        cases hm : x.meaning <;> simp_all [Meaning.overloads?]
      rw [succeeds_guard, succeeds_bind] at h
      obtain ⟨-, _, _, hmod, h⟩ := h
      obtain rfl := succeeds_modify.1 hmod
      obtain ⟨rfl, rfl⟩ := succeeds_pure.1 h
      obtain ⟨htable, hgrows, z, hz, hname, hmeaning⟩ := hout.table.redefine hx hm hsig
      exact ⟨⟨htable, hout.current, hout.size⟩, hgrows, rfl, z, hz, hname, by simp [hmeaning]⟩

theorem declareParameters_inside {P : Nat → Prop} {params : List NodeId} {index : Nat}
    (hin : Inside a u P s) (hP : ∀ p ∈ params, P p)
    (h : Succeeds (declareParameters a index params) s () s') :
    Inside a u P s' ∧ Grows s.table s'.table ∧ s'.resolved = s.resolved := by
  induction params generalizing index s with
  | nil =>
    obtain ⟨-, rfl⟩ := succeeds_pure.1 h
    exact ⟨hin, .refl _, rfl⟩
  | cons p rest ih =>
    obtain ⟨_, t, hp, h⟩ := succeeds_bind.1 h
    obtain ⟨hin', hgrows, hres⟩ := declareVariable_inside hin (by simp) (hP p (by simp)) hp
    obtain ⟨hin'', hgrows', hres'⟩ := ih hin' (fun q hq => hP q (by simp [hq])) h
    exact ⟨hin'', hgrows.trans hgrows', hres'.trans hres⟩

/-- What binding a function comes down to. -/
theorem bindFunction_cases {id : Nat} (hk : a.kind id = .ok (.function f))
    (h : Succeeds (bindFunction a id) s () s') :
    ∃ params span entry t t', (f.name = "main" → f.returnType = .int ∧ f.params = []) ∧
      binders a f.params = .ok params ∧
      Succeeds (registerOverload f.name ⟨f.returnType, params, some id⟩ span)
        { s with scopes := SemanticInfo.setRow s.scopes id s.table.current } entry t ∧
      Succeeds (do declareParameters a 0 f.params; f.body.forM (bindNode a a.depthLimit))
        { t with table := t.table.pushScope.bind f.name entry } () t' ∧
      s' = { t' with table := t'.table.popScope } := by
  obtain ⟨span, hnode⟩ := Arena.kind_eq_ok_iff.1 hk
  simp only [bindFunction, succeeds_bind, succeeds_lift] at h
  obtain ⟨_, _, ⟨hnode', rfl⟩, h⟩ := h
  cases Except.ok.inj (hnode.symm.trans hnode')
  simp only [NodeKind.function?, succeeds_guard_guard, recordScope, succeeds_bind, succeeds_lift,
    succeeds_modify, succeeds_inScope] at h
  obtain ⟨hmain, params, _, ⟨hparams, rfl⟩, _, _, rfl, entry, t, hentry, _, _, ⟨t', hbody, rfl⟩,
    hlast⟩ := h
  refine ⟨params, span, entry, t, t', fun hname => ?_, hparams, hentry,
    succeeds_bind.2 hbody, ?_⟩
  · obtain ⟨hty, hempty⟩ := hmain hname
    exact ⟨by simpa using hty, by simpa using hempty⟩
  · split at hlast
    · simp only [succeeds_bind, succeeds_lift] at hlast
      obtain ⟨returned, _, ⟨-, rfl⟩, hlast⟩ := hlast
      split at hlast
      · exact (succeeds_fail.1 hlast).elim
      · exact (succeeds_pure.1 hlast).2
    · exact (succeeds_pure.1 hlast).2

/-- Binding a function resolves the variables of its body and touches no other row. -/
theorem bindFunction_sound {lo id : Nat} (hout : Outside a u s) (hmem : id ∈ u.functions)
    (hk : a.kind id = .ok (.function f)) (htree : a.Tree lo id)
    (h : Succeeds (bindFunction a id) s () s') :
    Outside a u s' ∧ Grows s.table s'.table ∧
      (∀ i, 0 < i → i ≤ lo ∨ id < i →
        SemanticInfo.row s'.resolved i = SemanticInfo.row s.resolved i) ∧
      (∀ r ∈ f.body, ∀ v name, a.Below r v → a.kind v = .ok (.var name) →
        Resolves (DeclaredIn a f) s'.table s'.resolved v) := by
  obtain ⟨params, span, entry, t, t', -, hparams, hentry, hbody, rfl⟩ := bindFunction_cases hk h
  have hsig : Signature.Describes a u f.name ⟨f.returnType, params, some id⟩ :=
    ⟨hmem, f, hk, rfl, rfl, hparams⟩
  obtain ⟨hout', hgrows, hres, x, hx, hname, hnv⟩ := registerOverload_outside
    (s := { s with scopes := SemanticInfo.setRow s.scopes id s.table.current })
    ⟨hout.table, hout.current, hout.size⟩ hsig hentry
  obtain ⟨hent, hscope⟩ := hout'.table.enter (P := DeclaredIn a f) hout'.current hx hname hnv
  obtain ⟨_, t₁, hps, hbody⟩ := succeeds_bind.1 hbody
  have hstart : Inside a u (DeclaredIn a f)
      { t with table := t.table.pushScope.bind f.name entry } := ⟨hent, hscope, hout'.size⟩
  obtain ⟨hin, hgrows', hres'⟩ := declareParameters_inside hstart (fun p hp => .inl hp) hps
  have hinner := fun c => htree.isPart_child hk (c := c)
  obtain ⟨start, parts, hle, hback, htiles, htrees, -⟩ := htree.exists_body hk
  have hpart : ∀ p ∈ parts, p.1 ∈ f.body := fun p hp => hback ▸ List.mem_map_of_mem hp
  rw [← hback] at hbody
  have hmany := bindNodes_sound htiles htrees
    (fun p hp s s' hs h' => bindNode_sound (htrees p hp)
      (hinner p.1 (List.mem_append_right _ (hpart p hp)))
      (fun x d hx hd => .inr ⟨p.1, hpart p hp, x, hx, hd⟩) hs h') hin hbody
  obtain ⟨hleave, hcur⟩ := hmany.inside.table.leave hmany.inside.scope
  refine ⟨⟨hleave, hcur, hmany.inside.size⟩, ?_, fun i hi hout => ?_, fun r hr v name hv hkv => ?_⟩
  · have hpush : Grows t.table (t.table.pushScope.bind f.name entry) := fun _ y hy =>
      ⟨y, hy, rfl, fun _ => rfl⟩
    exact hgrows.trans (hpush.trans (hgrows'.trans hmany.grows))
  · rw [← hres, ← hres']
    exact hmany.frame i hi (by omega)
  · rw [← hback] at hr
    obtain ⟨p, hp, rfl⟩ := List.mem_map.1 hr
    exact hmany.resolves v name ⟨p, hp, hv⟩ hkv

theorem declareFields_inside {P : Nat → Prop} {fields : List NodeId} (hin : Inside a u P s)
    (hP : ∀ p ∈ fields, P p)
    (h : Succeeds (fields.forM fun field => declareVariable a field .recordField) s () s') :
    Inside a u P s' ∧ Grows s.table s'.table ∧ s'.resolved = s.resolved := by
  induction fields generalizing s with
  | nil =>
    obtain ⟨-, rfl⟩ := succeeds_pure.1 h
    exact ⟨hin, .refl _, rfl⟩
  | cons p rest ih =>
    obtain ⟨_, t, hp, h⟩ := succeeds_bind.1 h
    obtain ⟨hin', hgrows, hres⟩ := declareVariable_inside hin (by simp) (hP p (by simp)) hp
    obtain ⟨hin'', hgrows', hres'⟩ := ih hin' (fun q hq => hP q (by simp [hq])) h
    exact ⟨hin'', hgrows.trans hgrows', hres'.trans hres⟩

theorem bindRecord_outside {id : Nat} {r : RecordNode} (hout : Outside a u s)
    (hmem : id ∈ u.records) (hk : a.kind id = .ok (.record r))
    (h : Succeeds (bindRecord a id) s () s') :
    Outside a u s' ∧ Grows s.table s'.table ∧ s'.resolved = s.resolved := by
  obtain ⟨span, hnode⟩ := Arena.kind_eq_ok_iff.1 hk
  have hpos : 0 < s.table.current := by rw [hout.current]; exact Nat.one_pos
  simp only [bindRecord, succeeds_bind, succeeds_lift] at h
  obtain ⟨_, _, ⟨hnode', rfl⟩, h⟩ := h
  cases Except.ok.inj (hnode.symm.trans hnode')
  simp only [NodeKind.record?, recordScope, declare, succeeds_bind, succeeds_lift, succeeds_get,
    succeeds_modify, succeeds_inScope, succeeds_pure] at h
  obtain ⟨_, _, hfresh, _, _, rfl, bs, _, ⟨hbs, rfl⟩, _, _, ⟨_, _, ⟨rfl, rfl⟩, _, _, rfl, rfl, rfl⟩,
    t', hbody, rfl⟩ := h
  obtain rfl := ensureFresh_state hfresh
  have hm : (Meaning.record (bs.map fun b => ⟨b.name, b.ty⟩) id).Describes a u r.name :=
    ⟨hmem, r, bs, hk, rfl, hbs, rfl⟩
  have htable := hout.table.declare hpos span hm (by simp)
  obtain ⟨hent, hscope⟩ := htable.enter (P := fun _ => True) hout.current
    (SymbolTable.entry_declare.2 (.inr ⟨rfl, rfl⟩)) rfl (by simp)
  obtain ⟨hin, hgrows, hres⟩ := declareFields_inside (by exact ⟨hent, hscope, hout.size⟩)
    (fun _ _ => trivial) hbody
  obtain ⟨hleave, hcur⟩ := hin.table.leave hin.scope
  refine ⟨⟨hleave, hcur, hin.size⟩, ?_, hres⟩
  exact (grows_declare _ _ _).trans fun e x hx => hgrows e x hx

/-! ### Programs -/

/-- What binding a program establishes. -/
structure Bound (a : Arena) (u : UnitNode) (table : SymbolTable)
    (resolved : Array (Option EntryId)) : Prop where
  sound : TableSound a u table
  /-- Variables of a body are globals or belong to the function. -/
  resolves : ∀ id ∈ u.functions, ∀ f, a.kind id = .ok (.function f) → ∀ r ∈ f.body, ∀ v name,
    a.Below r v → a.kind v = .ok (.var name) → Resolves (DeclaredIn a f) table resolved v
  main : ∀ id ∈ u.functions, ∀ f, a.kind id = .ok (.function f) → f.name = "main" →
    f.returnType = .int ∧ f.params = []

theorem bindGlobals_outside {globals : List NodeId} (hout : Outside a u s)
    (hmem : ∀ g ∈ globals, g ∈ u.globals)
    (h : Succeeds (globals.forM fun id => declareVariable a id .global) s () s') :
    Outside a u s' := by
  induction globals generalizing s with
  | nil =>
    obtain ⟨-, rfl⟩ := succeeds_pure.1 h
    exact hout
  | cons g rest ih =>
    obtain ⟨_, t, hg, h⟩ := succeeds_bind.1 h
    exact ih (declareVariable_outside hout (hmem g (by simp)) hg).1
      (fun q hq => hmem q (by simp [hq])) h

theorem bindRecords_outside {records : List NodeId} (hout : Outside a u s)
    (hmem : ∀ r ∈ records, r ∈ u.records ∧ ∃ d, a.kind r = .ok (.record d))
    (h : Succeeds (records.forM (bindRecord a)) s () s') : Outside a u s' := by
  induction records generalizing s with
  | nil =>
    obtain ⟨-, rfl⟩ := succeeds_pure.1 h
    exact hout
  | cons r rest ih =>
    obtain ⟨_, t, hr, h⟩ := succeeds_bind.1 h
    obtain ⟨hu, d, hd⟩ := hmem r (by simp)
    exact ih (bindRecord_outside hout hu hd hr).1 (fun q hq => hmem q (by simp [hq])) h

/-- Functions behind each other do not disturb each other. -/
theorem bindFunctions_sound {lo : Nat} {parts : List (Nat × Nat)} (hout : Outside a u s)
    (hasc : Arena.Ascends lo parts)
    (hparts : ∀ p ∈ parts, p.1 ∈ u.functions ∧ (∃ f, a.kind p.1 = .ok (.function f)) ∧
      a.Tree p.2 p.1)
    (h : Succeeds ((parts.map Prod.fst).forM (bindFunction a)) s () s') :
    Outside a u s' ∧ Grows s.table s'.table ∧
      (∀ i, 0 < i → i ≤ lo → SemanticInfo.row s'.resolved i = SemanticInfo.row s.resolved i) ∧
      ∀ p ∈ parts, ∀ f, a.kind p.1 = .ok (.function f) →
        (f.name = "main" → f.returnType = .int ∧ f.params = []) ∧
        ∀ r ∈ f.body, ∀ v name, a.Below r v → a.kind v = .ok (.var name) →
          Resolves (DeclaredIn a f) s'.table s'.resolved v := by
  induction parts generalizing lo s with
  | nil =>
    obtain ⟨-, rfl⟩ := succeeds_pure.1 h
    exact ⟨hout, .refl _, fun _ _ _ => rfl, by simp⟩
  | cons p rest ih =>
    obtain ⟨c, start⟩ := p
    obtain ⟨hlo, hasc⟩ := hasc
    obtain ⟨_, t, hfirst, h⟩ := succeeds_bind.1 h
    obtain ⟨hmem, ⟨f, hf⟩, htree⟩ := hparts (c, start) (by simp)
    have hlt : start < c := htree.lt
    obtain ⟨hout', hgrows, hframe, hres⟩ := bindFunction_sound hout hmem hf htree hfirst
    obtain ⟨hout'', hgrows', hframe', hres'⟩ := ih hout' hasc
      (fun q hq => hparts q (by simp [hq])) h
    refine ⟨hout'', hgrows.trans hgrows', fun i hi hle => ?_, fun q hq f' hf' => ?_⟩
    · rw [hframe' i hi (by omega), hframe i hi (.inl (by omega))]
    · rcases List.mem_cons.1 hq with rfl | hq
      · obtain rfl : f' = f := by simpa using hf'.symm.trans hf
        obtain ⟨_, _, _, _, _, hmain, -⟩ := bindFunction_cases hf hfirst
        refine ⟨hmain, fun r hr v name hv hkv => ?_⟩
        obtain ⟨start', hsub, -, hle⟩ := htree.sub
          (.child hf (List.mem_append_right _ hr) hv)
        exact (hres r hr v name hv hkv).mono hgrows' (hframe' v (Arena.bounds_of_kind hkv).1 hle)
      · exact hres' q hq f' hf'

theorem tableSound_builtins {builtins : List Builtin} {t : SymbolTable}
    (hsub : ∀ b ∈ builtins, b ∈ Builtin.all) (h : TableSound a u t)
    (hcur : t.current = ScopeId.global) :
    let t' :=
      builtins.foldl (fun t b => (t.declare b.name (.function [b.signature]) Span.empty).2) t
    TableSound a u t' ∧ t'.current = ScopeId.global := by
  induction builtins generalizing t with
  | nil => exact ⟨h, hcur⟩
  | cons b rest ih =>
    have hm : (Meaning.function [b.signature]).Describes a u b.name := fun sig hsig =>
      List.mem_singleton.1 hsig ▸ ⟨b, hsub b (by simp), rfl, rfl⟩
    have hpos : 0 < t.current := by rw [hcur]; exact Nat.one_pos
    exact ih (fun c hc => hsub c (by simp [hc])) (h.declare hpos Span.empty hm (by simp)) hcur

theorem tableSound_empty : TableSound a u {} := by
  have hentry : ∀ e x, ({} : SymbolTable).entry e ≠ .ok x := by
    rintro (_ | e) x <;> simp [SymbolTable.entry]
  refine ⟨?_, ?_, ⟨_, rfl, rfl⟩, ?_⟩
  · intro c sc hc n e hmem
    simp [SymbolTable.scope?_empty hc] at hmem
  · intro e x hx
    exact absurd hx (hentry e x)
  · intro g hg n e x ty ref kind d hmem
    simp [SymbolTable.scope?_empty hg] at hmem

theorem tableSound_initial :
    TableSound a u (SymbolTable.withBuiltins {}) ∧
      (SymbolTable.withBuiltins {}).current = ScopeId.global :=
  tableSound_builtins (fun _ hb => hb) tableSound_empty rfl

end Binding

/-- Binding a laid out program resolves its variables. -/
theorem Arena.bind_sound {a : Arena} {u : UnitNode} {table : SymbolTable} {info : SemanticInfo}
    (hu : a.unit? = some u) (hlayout : a.Layout 1 u) (h : a.bind {} = (.ok (), table, info)) :
    Binding.Bound a u table info.resolved := by
  obtain ⟨hsound, hcur⟩ := Binding.tableSound_initial (a := a) (u := u)
  have hrun : ∃ s', Binding.Succeeds (Binding.bindUnit a)
      ⟨SymbolTable.withBuiltins {}, (SemanticInfo.blank a.size).scopes,
        (SemanticInfo.blank a.size).resolved⟩ () s' ∧ table = s'.table ∧
      info.resolved = s'.resolved := by
    have hbind : a.bind {} =
        let r := Binding.outcome (Binding.bindUnit a) ⟨SymbolTable.withBuiltins {},
          (SemanticInfo.blank a.size).scopes, (SemanticInfo.blank a.size).resolved⟩
        (r.1, r.2.table, { SemanticInfo.blank a.size with
          scopes := r.2.scopes, resolved := r.2.resolved }) := rfl
    simp only [hbind, Prod.mk.injEq] at h
    obtain ⟨hok, rfl, rfl⟩ := h
    exact ⟨_, Prod.ext hok rfl, rfl, rfl⟩
  obtain ⟨s', hrun, rfl, hres⟩ := hrun
  rw [hres]
  obtain ⟨span, hnode⟩ := Arena.node_root_of_unit? hu
  simp only [Binding.bindUnit, Binding.recordScope, Binding.succeeds_bind,
    Binding.succeeds_lift] at hrun
  obtain ⟨_, _, ⟨hnode', rfl⟩, hrun⟩ := hrun
  cases Except.ok.inj (hnode.symm.trans hnode')
  simp only [Binding.succeeds_bind, Binding.succeeds_modify] at hrun
  obtain ⟨_, _, rfl, _, t, hglobals, _, t', hrecords, hfunctions⟩ := hrun
  have hout := Binding.bindGlobals_outside (u := u)
    (by exact ⟨hsound, hcur, by simp [SemanticInfo.blank]⟩)
    (fun g hg => hg) hglobals
  have hout' := Binding.bindRecords_outside hout (fun r hr => ⟨hr, (hlayout.records r hr).1⟩)
    hrecords
  obtain ⟨parts, hparts, hasc, htrees⟩ := hlayout.functions
  rw [← hparts] at hfunctions
  have hmem : ∀ p ∈ parts, p.1 ∈ u.functions := fun p hp => hparts ▸ List.mem_map_of_mem hp
  obtain ⟨hout'', -, -, hbodies⟩ := Binding.bindFunctions_sound hout' hasc
    (fun p hp => ⟨hmem p hp, htrees p hp⟩) hfunctions
  refine ⟨hout''.table, fun id hid f hf => ?_, fun id hid f hf => ?_⟩ <;>
  · rw [← hparts] at hid
    obtain ⟨p, hp, rfl⟩ := List.mem_map.1 hid
    first | exact (hbodies p hp f hf).2 | exact (hbodies p hp f hf).1

end MiniJ
