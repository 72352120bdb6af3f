import MiniJ.Proofs.Binding.Acceptance

/-!
# Lexical scoping

A variable of an accepted program stands for the parameter or local of its name, if the function
around it has one, and for the global otherwise. Binding leaves every scope that it opens, also when
an error stops it inside.

## Main definitions

* `Arena.Nearest` — what a name stands for inside of a function.
* `Arena.LexicallyScoped` — what binding has found out about a program.

## Main statements

* `Arena.bind_lexical` — binding is lexical and returns to the scope it came from.
-/
namespace MiniJ

/-- The current scope and the parents of the scopes are kept. -/
structure SymbolTable.Anchored (t t' : SymbolTable) : Prop where
  current : t'.current = t.current
  parents : ∀ c sc, t.scope? c = some sc → ∃ sc', t'.scope? c = some sc' ∧ sc'.parent = sc.parent

namespace SymbolTable.Anchored

variable {t t' t'' : SymbolTable}

theorem refl (t : SymbolTable) : t.Anchored t := ⟨rfl, fun _ sc h => ⟨sc, h, rfl⟩⟩

theorem trans (h : t.Anchored t') (h' : t'.Anchored t'') : t.Anchored t'' := by
  refine ⟨h'.current.trans h.current, fun c sc hc => ?_⟩
  obtain ⟨sc', hc', hparent⟩ := h.parents c sc hc
  obtain ⟨sc'', hc'', hparent'⟩ := h'.parents c sc' hc'
  exact ⟨sc'', hc'', hparent'.trans hparent⟩

theorem bind (name : String) (e : EntryId) : t.Anchored (t.bind name e) := by
  refine ⟨rfl, fun c sc hc => ?_⟩
  obtain ⟨hpos, hget⟩ := scope?_eq_some_iff.1 hc
  by_cases hcur : t.current - 1 = c - 1
  · exact ⟨sc.insert name e, scope?_eq_some_iff.2 ⟨hpos, by
      simp [SymbolTable.bind, Array.getElem?_modify, hcur, hget]⟩, rfl⟩
  · exact ⟨sc, scope?_eq_some_iff.2 ⟨hpos, by
      simp [SymbolTable.bind, Array.getElem?_modify, hcur, hget]⟩, rfl⟩

theorem declare (name : String) (m : Meaning) (span : Span) :
    t.Anchored (t.declare name m span).2 := by
  have h := bind (t := { t with entries := t.entries.push ⟨name, t.current, span, m⟩ }) name
    (t.entries.size + 1)
  exact ⟨h.current, h.parents⟩

theorem redefine (id : EntryId) (m : Meaning) : t.Anchored (t.redefine id m) :=
  ⟨rfl, fun _ sc h => ⟨sc, h, rfl⟩⟩

/-- Leaving a scope that was opened. -/
theorem leave (h : t.pushScope.Anchored t') : t.Anchored t'.popScope := by
  have hnew : t.pushScope.scope? t.pushScope.current = some ⟨some t.current, []⟩ :=
    scope?_pushScope.trans (if_pos rfl)
  obtain ⟨sc', hsc', hparent⟩ := h.parents _ _ hnew
  refine ⟨?_, fun (c : Nat) sc hc => ?_⟩
  · simp [popScope, parent?, h.current, hsc', hparent]
  · obtain ⟨hpos, hget⟩ := scope?_eq_some_iff.1 hc
    obtain ⟨hlt, -⟩ := Array.getElem?_eq_some_iff.1 hget
    refine h.parents c sc (scope?_pushScope.trans ?_)
    rw [if_neg (by omega), hc]

theorem withBuiltins (t : SymbolTable) : t.Anchored t.withBuiltins := by
  unfold SymbolTable.withBuiltins
  generalize Builtin.all = builtins
  induction builtins generalizing t with
  | nil => exact refl t
  | cons b rest ih => exact (declare b.name _ Span.empty).trans (ih _)

end SymbolTable.Anchored

namespace Binding

variable {α β X : Type} {a : Arena}

/-- Whatever comes of a part of the pass, it ends in the scope it began in. -/
def Restores (x : BindM α) : Prop := ∀ s : State, s.table.Anchored (outcome x s).2.table

namespace Restores

theorem pure (v : α) : Restores (Pure.pure v) := fun s => .refl s.table

theorem throw (e : Failure SemanticError) : Restores (throw e : BindM α) := fun s => .refl s.table

theorem fail (cause : SemanticError.Cause) (span : Span) :
    Restores (Binding.fail cause span : BindM α) :=
  throw _

theorem lift (x : Except Fault α) : Restores (liftM x : BindM α) := by
  intro s
  cases x <;> exact .refl s.table

theorem get : Restores (get : BindM State) := fun s => .refl s.table

theorem modify {g : State → State} (h : ∀ s : State, s.table.Anchored (g s).table) :
    Restores (modify g : BindM PUnit) := h

theorem bind {x : BindM α} {g : α → BindM β} (hx : Restores x) (hg : ∀ v, Restores (g v)) :
    Restores (x >>= g) := by
  intro s
  have hfirst := hx s
  rw [outcome_bind]
  generalize outcome x s = r at hfirst
  obtain ⟨_ | v, t⟩ := r
  · exact hfirst
  · exact hfirst.trans (hg v t)

theorem ite {c : Prop} [Decidable c] {x y : BindM α} (hx : Restores x) (hy : Restores y) :
    Restores (if c then x else y) := by
  split
  · exact hx
  · exact hy

theorem forM {g : X → BindM Unit} {xs : List X} (h : ∀ x ∈ xs, Restores (g x)) :
    Restores (xs.forM g) := by
  induction xs with
  | nil => exact pure ()
  | cons x xs ih => exact (h x (by simp)).bind fun _ => ih fun y hy => h y (by simp [hy])

theorem recordScope (id : NodeId) : Restores (recordScope id) :=
  modify fun s => .refl s.table

theorem declare (name : String) (m : Meaning) (span : Span) : Restores (declare name m span) :=
  fun _ => .declare name m span

theorem ensureFresh (name : String) (span : Span) : Restores (ensureFresh name span) := by
  refine get.bind fun _ => (lift _).bind fun found => ?_
  split
  · exact (lift _).bind fun _ => fail _ _
  · exact pure ()

theorem declareVariable (id : NodeId) (cls : VariableClass) :
    Restores (declareVariable a id cls) := by
  refine (lift _).bind fun node => ?_
  split
  · exact pure ()
  · exact (ensureFresh _ _).bind fun _ => (recordScope id).bind fun _ => (declare _ _ _).bind
      fun _ =>
      pure ()

/-- Also a part that opens a scope. -/
theorem inScope (name : String) (e : EntryId) {body : BindM Unit} (h : Restores body) :
    Restores (inScope name e body) := by
  intro s
  rw [outcome_inScope]
  exact .leave ((SymbolTable.Anchored.bind name e).trans (h (s.entered name e)))

theorem bindRecord (id : NodeId) : Restores (bindRecord a id) := by
  refine (lift _).bind fun node => ?_
  split
  · exact pure ()
  · exact (ensureFresh _ _).bind fun _ => (recordScope id).bind fun _ => (lift _).bind fun _ =>
      (declare _ _ _).bind fun _ => inScope _ _ (forM fun d _ => declareVariable d _)

theorem registerOverload (name : String) (sig : Signature) (span : Span) :
    Restores (registerOverload name sig span) := by
  refine get.bind fun s => (lift _).bind fun found => ?_
  split
  · exact declare _ _ _
  · next id =>
    refine (lift _).bind fun entry => ?_
    split
    · exact fail _ _
    · next overloads _ =>
      have hlast := (modify (g := fun s => { s with
        table := s.table.redefine id (.function (overloads ++ [sig])) }) fun s =>
          .redefine id (.function (overloads ++ [sig]))).bind fun _ => pure id
      exact ite ((fail _ _).bind fun _ => hlast) hlast

theorem resolveVariable (id : NodeId) (name : String) (span : Span) :
    Restores (resolveVariable id name span) := by
  refine get.bind fun s => ?_
  dsimp only
  split
  · exact fail _ _
  · refine (lift _).bind fun entry => ?_
    split
    · exact modify fun s => .refl s.table
    · exact fail _ _

theorem bindNode (depth : Nat) (id : NodeId) : Restores (bindNode a depth id) := by
  induction depth generalizing id with
  | zero => exact throw _
  | succ depth ih =>
    refine (lift _).bind fun node => (recordScope id).bind fun _ => ?_
    split
    · exact declareVariable _ _
    · exact resolveVariable _ _ _
    · exact pure ()
    · exact pure ()
    · exact pure ()
    · exact pure ()
    · exact forM fun c _ => ih c

theorem declareParameters (index : Nat) (params : List NodeId) :
    Restores (declareParameters a index params) := by
  rw [declareParameters_eq]
  exact forM fun p _ => declareVariable _ _

theorem bindFunction (id : NodeId) : Restores (bindFunction a id) := by
  refine (lift _).bind fun node => ?_
  split
  · exact pure ()
  · have hbody := fun f : FunctionNode => (declareParameters (a := a) 0 f.params).bind fun _ =>
      forM fun r (_ : r ∈ f.body) => bindNode (a := a) a.depthLimit r
    have hreturn := fun (f : FunctionNode) (span : Span) =>
      ite (c := (f.returnType ≠ .void && f.name ≠ "main") = true)
        ((lift (f.body.anyM (returns a))).bind fun returned =>
          ite (c := (!returned) = true) (fail (.missingReturn f.name) span) (pure ())) (pure ())
    have hrest := fun (f : FunctionNode) (span : Span) => (lift (binders a f.params)).bind
      fun params =>
      (recordScope id).bind fun _ =>
        (registerOverload f.name ⟨f.returnType, params, some id⟩ span).bind fun entry =>
          (inScope f.name entry (hbody f)).bind fun _ => hreturn f span
    exact ite (ite ((fail _ _).bind fun _ => ite ((fail _ _).bind fun _ => hrest _ _) (hrest _ _))
      (ite ((fail _ _).bind fun _ => hrest _ _) (hrest _ _))) (hrest _ _)

theorem bindUnit : Restores (bindUnit a) := by
  refine (lift _).bind fun node => ?_
  split
  · exact (recordScope _).bind fun _ => (forM fun d _ => declareVariable d _).bind fun _ =>
      (forM fun r _ => bindRecord r).bind fun _ => forM fun f _ => bindFunction f
  · exact pure ()

end Restores

end Binding

namespace Arena

variable {a : Arena} {u : UnitNode} {f : FunctionNode} {table : SymbolTable} {info : SemanticInfo}

/-- What a name stands for inside of a function, together with its declaration: a parameter,
numbered in order, a local, or, if neither has the name, a global. -/
inductive Nearest (a : Arena) (u : UnitNode) (f : FunctionNode) (name : String) :
    Meaning → NodeId → Prop
  | parameter {i d : Nat} {ty : Ty} {ref : Bool} (param : f.params[i]? = some d)
      (kind : a.kind d = .ok (.declaration ⟨name, ty, ref⟩)) :
      Nearest a u f name (.var ty ref (.parameter i) d) d
  | localVariable {d : Nat} {ty : Ty} {ref : Bool} (mem : d ∈ a.localsIn f.body)
      (kind : a.kind d = .ok (.declaration ⟨name, ty, ref⟩)) :
      Nearest a u f name (.var ty ref .localVariable d) d
  | global {d : Nat} {ty : Ty} {ref : Bool} (unknown : name ∉ a.variableNames f)
    (mem : d ∈ u.globals) (kind : a.kind d = .ok (.declaration ⟨name, ty, ref⟩)) :
      Nearest a u f name (.var ty ref .global d) d

/-- What binding has found out about the function at node `id`, whose scope is `c`. -/
structure FunctionScoped (a : Arena) (u : UnitNode) (table : SymbolTable) (info : SemanticInfo)
    (id : NodeId) (f : FunctionNode) (c : ScopeId) : Prop where
  /-- Its scope has its parameters and locals. -/
  holds : ∀ name m, (name, m) ∈ a.variablesOf f → table.meaning? c name = some m
  /-- Its statements and expressions lie in its scope. -/
  nodes : ∀ r ∈ f.body, ∀ v k, a.Below r v → a.kind v = .ok k →
    k.role = .expression ∨ k.role = .statement → info.scopeOf v = some c
  /-- Its variables are resolved to the nearest variables of their names, which no other function
  and no record declares. -/
  resolves : ∀ r ∈ f.body, ∀ v name, a.Below r v → a.kind v = .ok (.var name) → ∃ e x d,
    info.resolvedEntry v = some e ∧ table.entry e = .ok x ∧ x.name = name ∧
      a.Nearest u f name x.meaning d ∧ ∀ m ∈ u.members, a.Below m d → m = id ∨ m ∈ u.globals

/-- What binding has found out about a program. -/
structure LexicallyScoped (a : Arena) (u : UnitNode) (table : SymbolTable) (info : SemanticInfo) :
    Prop where
  /-- There is one scope for each record and each function below the global one. -/
  count : table.scopes.size = 1 + u.records.length + u.functions.length
  parents : ∀ c sc, table.scope? c = some sc →
    sc.parent = if c = ScopeId.global then none else some ScopeId.global
  /-- Statements and expressions lie in the bodies of functions. -/
  enclosed : ∀ v k, a.kind v = .ok k → k.role = .expression ∨ k.role = .statement →
    ∃ id ∈ u.functions, ∃ f, a.kind id = .ok (.function f) ∧ ∃ r ∈ f.body, a.Below r v
  functions : ∀ (i : Nat) id f, u.functions[i]? = some id → a.kind id = .ok (.function f) →
    a.FunctionScoped u table info id f (u.records.length + 2 + i)

theorem declaredAs?_eq_some {cls : VariableClass} {d : NodeId} {name : String} {m : Meaning}
    (h : a.declaredAs? cls d = some (name, m)) :
    ∃ ty ref, a.kind d = .ok (.declaration ⟨name, ty, ref⟩) ∧ m = .var ty ref cls d := by
  unfold declaredAs? at h
  split at h
  · next b span hnode =>
    cases h
    exact ⟨b.ty, b.isReference, kind_eq_ok_iff.2 ⟨span, node_eq_ok_iff.2 hnode⟩, rfl⟩
  · cases h

/-- The parameters and locals of a function are nearest. -/
theorem nearest_of_mem {name : String} {m : Meaning} (h : (name, m) ∈ a.variablesOf f) :
    ∃ d ∈ f.params ++ a.localsIn f.body, a.Nearest u f name m d := by
  rcases List.mem_append.1 h with h | h
  · obtain ⟨⟨d, i⟩, hmem, hd⟩ := List.mem_filterMap.1 h
    obtain ⟨ty, ref, hk, rfl⟩ := declaredAs?_eq_some hd
    have hparam : f.params[i]? = some d := List.mem_zipIdx_iff_getElem?.1 hmem
    exact ⟨d, List.mem_append_left _ (List.mem_of_getElem? hparam), .parameter hparam hk⟩
  · obtain ⟨d, hmem, hd⟩ := List.mem_filterMap.1 h
    obtain ⟨ty, ref, hk, rfl⟩ := declaredAs?_eq_some hd
    exact ⟨d, List.mem_append_right _ hmem, .localVariable hmem hk⟩

/-- The variables of a function lie in it. -/
theorem below_of_mem {id d : Nat} (hf : a.kind id = .ok (.function f))
    (hd : d ∈ f.params ++ a.localsIn f.body) : a.Below id d := by
  rcases List.mem_append.1 hd with hd | hd
  · exact .child hf (List.mem_append_left _ hd) (.self d)
  · obtain ⟨l, hl, hdeclared⟩ := List.mem_filterMap.1 hd
    obtain ⟨⟨k, span⟩, hnode, hk⟩ := Option.bind_eq_some_iff.1 hdeclared
    cases k <;> cases hk
    exact .child hf (List.mem_append_right _ hl)
      (.child (kind_eq_ok_iff.2 ⟨span, node_eq_ok_iff.2 hnode⟩) (List.mem_singleton.2 rfl)
        (.self d))

/-- What is settled about a function says that it is scoped. -/
theorem Complete.functionScoped {s : Binding.State} {id : Nat} {c : ScopeId} (h : a.Complete u)
    (hid : id ∈ u.functions) (hf : a.kind id = .ok (.function f)) (hlevel : Binding.Level a u s)
    (hsettled : Binding.Settled a f c s) (hscopes : info.scopes = s.scopes)
    (hresolved : info.resolved = s.resolved) : a.FunctionScoped u s.table info id f c := by
  have hmember : id ∈ u.members := UnitNode.mem_members.2 (.inr (.inr hid))
  refine ⟨hsettled.holds, fun r hr v k hv hk hrole => ?_, fun r hr v name hv hk => ?_⟩
  · rw [SemanticInfo.scopeOf, hscopes]
    exact hsettled.marked r hr v k hv hk hrole
  · obtain ⟨e, x, hrow, hx, hname, hcase⟩ := hsettled.resolves r hr v name hv hk
    have hentry : info.resolvedEntry v = some e := by
      rw [SemanticInfo.resolvedEntry, hresolved]
      exact hrow
    rcases hcase with hmem | ⟨hunknown, ty, ref, d, hm⟩
    · obtain ⟨d, hd, hnearest⟩ := nearest_of_mem (u := u) hmem
      refine ⟨e, x, d, hentry, hx, hname, hnearest, fun m hmem' hbelow => .inl ?_⟩
      exact h.apart hmem' hmember hbelow (below_of_mem hf hd)
    · have hdesc := hlevel.table.meanings e x hx
      rw [hm, hname] at hdesc
      have hglobal : d ∈ u.globals := hdesc.2 rfl
      refine ⟨e, x, d, hentry, hx, hname, hm ▸ .global hunknown hglobal hdesc.1,
        fun m hmem' hbelow => .inr ?_⟩
      rwa [h.apart hmem' (UnitNode.mem_members.2 (.inl hglobal)) hbelow (.self d)]

theorem Complete.lexicallyScoped {s : Binding.State} (h : a.Complete u) (hu : a.unit? = some u)
    (hbound : Binding.UnitBound a u s) (hscopes : info.scopes = s.scopes)
    (hresolved : info.resolved = s.resolved) : a.LexicallyScoped u s.table info := by
  refine ⟨hbound.count, fun c sc hc => ?_, fun v k hk hrole => h.exists_body hu hk hrole,
    fun i id f hi hf => ?_⟩
  · split
    · next hglobal =>
      obtain ⟨g, hg, hroot⟩ := hbound.level.table.root
      subst hglobal
      cases hc.symm.trans hg
      exact hroot
    · next hne => exact hbound.level.parents c sc hc hne
  · exact h.functionScoped (List.mem_of_getElem? hi) hf hbound.level (hbound.settled i id f hi hf)
      hscopes hresolved

/-- Parsed programs that binding accepts are scoped lexically. On every run, whatever it runs on and
however it ends, binding returns to the scope it started in. -/
theorem bind_lexical :
    (∀ tokens p, Program.parse tokens = .ok p → ∀ table info,
      (Arena.ofProgram p).bind {} = (.ok (), table, info) →
      ∃ u, (Arena.ofProgram p).unit? = some u ∧ (Arena.ofProgram p).LexicallyScoped u table info) ∧
    ∀ (a : Arena) (t : SymbolTable), (a.bind t).2.1.current = t.current := by
  refine ⟨fun tokens p hparse table info hbind => ?_, fun a t => ?_⟩
  · obtain ⟨u, hu, hcomplete⟩ := exists_complete_ofProgram (Program.shaped_of_parse hparse)
    rw [bind_eq] at hbind
    simp only [Prod.mk.injEq] at hbind
    obtain ⟨hok, rfl, rfl⟩ := hbind
    obtain ⟨-, hbound⟩ := (Binding.decides_bindUnit hu hcomplete.spread).of_succeeds
      (Prod.ext hok rfl)
    exact ⟨u, hu, hcomplete.lexicallyScoped hu hbound rfl rfl⟩
  · have hrun := Binding.Restores.bindUnit (a := a) ⟨t.withBuiltins,
      (SemanticInfo.blank a.size).scopes, (SemanticInfo.blank a.size).resolved⟩
    exact ((SymbolTable.Anchored.withBuiltins t).trans hrun).current

end Arena

/-- A program with a global, a field and a parameter of one name. -/
theorem Shadowing.scoped_lexically : Program.parse tokens = .ok program ∧ ∃ u table info,
    (Arena.ofProgram program).unit? = some u ∧
      (Arena.ofProgram program).bind {} = (.ok (), table, info) ∧
      (Arena.ofProgram program).LexicallyScoped u table info ∧ table.current = ScopeId.global := by
  have hlexical := Arena.bind_lexical.1 tokens program parse_tokens
  have hcurrent := Arena.bind_lexical.2 (Arena.ofProgram program) {}
  have hok := bind_ok
  refine ⟨parse_tokens, ?_⟩
  generalize Arena.ofProgram program = a at *
  obtain ⟨u, hu, hscoped⟩ := hlexical _ _ (Prod.ext hok rfl)
  exact ⟨u, _, _, hu, Prod.ext hok rfl, hscoped, hcurrent⟩

end MiniJ
