import MiniJ.Proofs.Symbol.Meaning

/-!
# Scopes and their history

A table is built by opening and leaving scopes and by binding names in the current one. Whatever the
order of these steps, the scope around a scope is older, so every look-up comes to the global scope,
and a name stands for what was bound last in the nearest scope in which it was bound at all. What is
bound in one scope is seen from the scopes inside of it only, and only under its name.

## Main definitions

* `SymbolTable.Step`, `SymbolTable.run` — the steps that build a table.
* `SymbolTable.insertions` — the bindings that some steps make.
* `SymbolTable.Outwards` — a scope and the scopes around it, out to the global one.
* `SymbolTable.SameLookups` — two tables in which a name is found alike.
* `SymbolTable.Nested` — steps in which every scope that is opened is left.

## Main statements

* `SymbolTable.Recorded.run` — what is kept by the steps that build a table.
* `SymbolTable.Outwards.unique`, `SymbolTable.Recorded.outwards` — chains of scopes.
* `SymbolTable.scoping_laws` — the laws of scoping.
-/
namespace MiniJ.SymbolTable

variable {t t' u : SymbolTable} {name : String} {c e : Nat}

/-! ### Histories -/

/-- A step in the building of a table. -/
inductive Step where
  | push
  | pop
  | declare (name : String) (meaning : Meaning) (span : Span)
  /-- One more name for an entry. -/
  | bind (name : String) (entry : EntryId)

def Step.apply (t : SymbolTable) : Step → SymbolTable
  | push => t.pushScope
  | pop => t.popScope
  | declare name meaning span => (t.declare name meaning span).2
  | bind name entry => t.bind name entry

/-- Names are given to entries that exist. -/
def Step.Permitted (t : SymbolTable) : Step → Prop
  | bind _ entry => ∃ x, t.entry entry = .ok x
  | _ => True

/-- The table after some steps. -/
def run (t : SymbolTable) (steps : List Step) : SymbolTable := steps.foldl Step.apply t

/-- Each step is permitted when it is taken. -/
def Permitted : SymbolTable → List Step → Prop
  | _, [] => True
  | t, step :: rest => step.Permitted t ∧ Permitted (step.apply t) rest

/-- A binding that was made. -/
structure Insertion where
  scope : ScopeId
  name : String
  entry : EntryId

/-- The binding a step makes. A declaration binds a new entry. -/
def Step.insertion? (t : SymbolTable) : Step → Option Insertion
  | declare name _ _ => some ⟨t.current, name, t.entries.size + 1⟩
  | bind name entry => some ⟨t.current, name, entry⟩
  | _ => none

/-- The bindings that some steps make, in order. -/
def insertions : SymbolTable → List Step → List Insertion
  | _, [] => []
  | t, step :: rest => (step.insertion? t).toList ++ insertions (step.apply t) rest

/-- What was bound last to a name in a scope. -/
def lastInserted (log : List Insertion) (scope : ScopeId) (name : String) : Option EntryId :=
  (log.reverse.find? fun i => i.scope == scope && i.name == name).map (·.entry)

theorem lastInserted_append_singleton (log : List Insertion) (i : Insertion) (c : ScopeId)
    (name : String) : lastInserted (log ++ [i]) c name =
      if c = i.scope ∧ name = i.name then some i.entry else lastInserted log c name := by
  rw [lastInserted, List.reverse_append, List.reverse_singleton, List.singleton_append,
    List.find?_cons]
  by_cases h : c = i.scope ∧ name = i.name
  · simp [h]
  · have hne : (i.scope == c && i.name == name) = false := by
      rw [Bool.and_eq_false_iff, beq_eq_false_iff_ne, beq_eq_false_iff_ne]
      by_cases hc : c = i.scope
      · exact .inr fun hn => h ⟨hc, hn.symm⟩
      · exact .inl fun hc' => hc hc'.symm
    rw [hne, if_neg h]
    rfl

theorem lastInserted_eq_none {log : List Insertion} (h : ∀ i ∈ log, i.scope ≠ c) (name : String) :
    lastInserted log c name = none := by
  rw [lastInserted, Option.map_eq_none_iff, List.find?_eq_none]
  intro i hi
  simp [h i (List.mem_reverse.1 hi)]

/-! ### What every step keeps -/

/-- What holds of a table after the bindings in `log` were made. -/
structure Recorded (t : SymbolTable) (log : List Insertion) : Prop where
  root : ∃ s, t.scope? ScopeId.global = some s ∧ s.parent = none
  current : ∃ s, t.scope? t.current = some s
  /-- The scope around a scope is older. -/
  parent : ∀ (c : Nat) s, t.scope? c = some s → c ≠ ScopeId.global →
    ∃ p : Nat, s.parent = some p ∧ 0 < p ∧ p < c
  bound : ∀ c s, t.scope? c = some s → ∀ name e, (name, e) ∈ s.symbols → ∃ x, t.entry e = .ok x
  within : ∀ i ∈ log, t.scopes.size ≥ i.scope
  last : ∀ c s, t.scope? c = some s → ∀ name, s.find? name = lastInserted log c name

theorem scope?_bounds {s : Scope} (h : t.scope? c = some s) : 0 < c ∧ c ≤ t.scopes.size := by
  obtain ⟨hpos, h⟩ := scope?_eq_some_iff.1 h
  obtain ⟨hlt, -⟩ := Array.getElem?_eq_some_iff.1 h
  omega

theorem exists_scope? (hpos : 0 < c) (hle : c ≤ t.scopes.size) : ∃ s, t.scope? c = some s := by
  have hlt : c - 1 < t.scopes.size := by omega
  exact ⟨_, scope?_eq_some_iff.2 ⟨hpos, Array.getElem?_eq_getElem hlt⟩⟩

namespace Recorded

variable {log : List Insertion}

theorem empty : Recorded {} [] where
  root := ⟨⟨none, []⟩, rfl, rfl⟩
  current := ⟨⟨none, []⟩, rfl⟩
  parent c s h hne := by
    obtain ⟨hpos, hle⟩ := scope?_bounds h
    exact absurd (Nat.le_antisymm hle hpos) hne
  bound c s h name e he := by
    rw [scope?_empty h] at he
    cases he
  within i hi := nomatch hi
  last c s h name := by
    rw [scope?_empty h]
    rfl

theorem pushScope (h : Recorded t log) : Recorded t.pushScope log := by
  have hold : ∀ {c s}, t.scope? c = some s → t.pushScope.scope? c = some s := by
    intro c s hs
    have := scope?_bounds hs
    rw [scope?_pushScope, if_neg (by omega), hs]
  have hcases : ∀ {c s}, t.pushScope.scope? c = some s →
      c = t.scopes.size + 1 ∧ s = ⟨some t.current, []⟩ ∨ t.scope? c = some s := by
    intro c s hs
    rw [scope?_pushScope] at hs
    split at hs
    · next heq => exact .inl ⟨heq, (Option.some.inj hs).symm⟩
    · exact .inr hs
  have hnew : t.pushScope.scope? (t.scopes.size + 1) = some ⟨some t.current, []⟩ := by
    rw [scope?_pushScope, if_pos rfl]
  obtain ⟨root, hroot, hnone⟩ := h.root
  obtain ⟨current, hcurrent⟩ := h.current
  have hbounds := scope?_bounds hcurrent
  refine ⟨⟨root, hold hroot, hnone⟩, ⟨⟨some t.current, []⟩, hnew⟩,
    fun c s hs hne => ?_, fun c s hs name e he => ?_, fun i hi => ?_, fun c s hs name => ?_⟩
  · rcases hcases hs with ⟨rfl, rfl⟩ | hs
    · exact ⟨t.current, rfl, hbounds.1, by omega⟩
    · exact h.parent c s hs hne
  · rcases hcases hs with ⟨-, rfl⟩ | hs
    · cases he
    · exact h.bound c s hs name e he
  · have hsize : t.pushScope.scopes.size = t.scopes.size + 1 := Array.size_push ..
    have := h.within i hi
    omega
  · rcases hcases hs with ⟨rfl, rfl⟩ | hs
    · exact (lastInserted_eq_none (fun i hi heq =>
        Nat.not_succ_le_self _ (heq ▸ h.within i hi)) name).symm
    · exact h.last c s hs name

theorem popScope (h : Recorded t log) : Recorded t.popScope log := by
  refine ⟨h.root, ?_, h.parent, h.bound, h.within, h.last⟩
  obtain ⟨s, hs⟩ := h.current
  have hparent : t.parent? = s.parent := by rw [parent?, hs]; rfl
  by_cases heq : t.current = ScopeId.global
  · obtain ⟨root, hroot, hnone⟩ := h.root
    obtain rfl : s = root := Option.some.inj (hs.symm.trans (heq ▸ hroot))
    have hsame : t.popScope.current = t.current := by
      rw [SymbolTable.popScope, hparent, hnone]
      rfl
    exact ⟨s, hsame ▸ hs⟩
  · obtain ⟨p, hp, hpos, hlt⟩ := h.parent _ s hs heq
    have houter : t.popScope.current = p := by
      rw [SymbolTable.popScope, hparent, hp]
      rfl
    have := scope?_bounds hs
    obtain ⟨outer, houter'⟩ := exists_scope? (t := t) hpos (by omega)
    exact ⟨outer, houter ▸ houter'⟩

/-- A new binding of an entry that exists, in a table with the same scopes and no entry less. -/
theorem insert (h : Recorded t log) (hentry : ∃ x, u.entry e = .ok x)
    (hcurrent : u.current = t.current)
    (hscopes : u.scopes = t.scopes) (hkept : ∀ e x, t.entry e = .ok x → u.entry e = .ok x) :
    Recorded (u.bind name e) (log ++ [⟨t.current, name, e⟩]) := by
  have hscope : ∀ c, u.scope? c = t.scope? c := fun c => by
    cases c <;> simp [scope?, hscopes]
  obtain ⟨current, hcurrent'⟩ := h.current
  have hbounds := scope?_bounds hcurrent'
  have hbind : ∀ c, (u.bind name e).scope? c =
      if c = t.current then (t.scope? c).map (·.insert name e) else t.scope? c := by
    intro c
    rw [scope?_bind (hcurrent ▸ hbounds.1), hcurrent, hscope]
  -- every scope is an old one, or the current one with the new binding
  have hcases : ∀ {c s}, (u.bind name e).scope? c = some s →
      ∃ old, t.scope? c = some old ∧ s = if c = t.current then old.insert name e else old := by
    intro c s hs
    rw [hbind] at hs
    split at hs
    · obtain ⟨old, hold, rfl⟩ := Option.map_eq_some_iff.1 hs
      exact ⟨old, hold, by simp [*]⟩
    · exact ⟨s, hs, by simp [*]⟩
  have hnew : ∀ {c s}, t.scope? c = some s → ∃ s', (u.bind name e).scope? c = some s' ∧
      s'.parent = s.parent := by
    intro c s hs
    rw [hbind, hs]
    split
    · exact ⟨_, rfl, rfl⟩
    · exact ⟨_, rfl, rfl⟩
  refine ⟨?_, ?_, fun c s hs hne => ?_, fun c s hs n f hf => ?_, fun i hi => ?_, fun c s hs n => ?_⟩
  · obtain ⟨root, hroot, hnone⟩ := h.root
    obtain ⟨s', hs', hparent⟩ := hnew hroot
    exact ⟨s', hs', hparent.trans hnone⟩
  · obtain ⟨s', hs', -⟩ := hnew hcurrent'
    exact ⟨s', hcurrent ▸ hs'⟩
  · obtain ⟨old, hold, rfl⟩ := hcases hs
    obtain ⟨p, hp, hbetween⟩ := h.parent c old hold hne
    refine ⟨p, ?_, hbetween⟩
    split
    · exact hp
    · exact hp
  · obtain ⟨old, hold, rfl⟩ := hcases hs
    have hbound : (n, f) ∈ old.symbols → ∃ x, (u.bind name e).entry f = .ok x := fun hmem => by
      obtain ⟨x, hx⟩ := h.bound c old hold n f hmem
      exact ⟨x, hkept f x hx⟩
    split at hf
    · rcases Scope.mem_insert hf with ⟨-, rfl⟩ | hf
      · exact hentry
      · exact hbound hf
    · exact hbound hf
  · have hsize : (u.bind name e).scopes.size = t.scopes.size := by
      simp [SymbolTable.bind, hscopes]
    rcases List.mem_append.1 hi with hi | hi
    · exact hsize ▸ h.within i hi
    · cases List.mem_singleton.1 hi
      exact hsize ▸ hbounds.2
  · obtain ⟨old, hold, rfl⟩ := hcases hs
    rw [lastInserted_append_singleton]
    by_cases hc : c = t.current
    · rw [if_pos hc, Scope.find?_insert]
      by_cases hn : n = name
      · rw [if_pos hn, if_pos ⟨hc, hn⟩]
      · rw [if_neg hn, if_neg (fun hboth => hn hboth.2), h.last c old hold]
    · rw [if_neg hc, if_neg (fun hboth => hc hboth.1), h.last c old hold]

theorem apply (h : Recorded t log) {step : Step} (hstep : step.Permitted t) :
    Recorded (step.apply t) (log ++ (step.insertion? t).toList) := by
  cases step with
  | push => exact (List.append_nil log).symm ▸ h.pushScope
  | pop => exact (List.append_nil log).symm ▸ h.popScope
  | declare name meaning span =>
    exact h.insert (u := { t with entries := t.entries.push ⟨name, t.current, span, meaning⟩ })
      ⟨_, entry_declare.2 (.inr ⟨rfl, rfl⟩)⟩ rfl rfl fun e x hx => entry_declare.2 (.inl hx)
  | bind name entry => exact h.insert hstep rfl rfl fun _ _ hx => hx

theorem run (h : Recorded t log) {steps : List Step} (hsteps : Permitted t steps) :
    Recorded (t.run steps) (log ++ insertions t steps) := by
  induction steps generalizing t log with
  | nil => exact (List.append_nil log).symm ▸ h
  | cons step rest ih =>
    have hrest := ih (h.apply hsteps.1) hsteps.2
    rwa [List.append_assoc] at hrest

end Recorded

/-! ### Chains of scopes -/

/-- A scope and the scopes around it, from inside out, the last of which is the global one. -/
inductive Outwards (t : SymbolTable) : ScopeId → List (ScopeId × Scope) → Prop where
  | root {s : Scope} : t.scope? ScopeId.global = some s → s.parent = none →
      Outwards t ScopeId.global [(ScopeId.global, s)]
  | inside {c p : ScopeId} {s : Scope} {outer : List (ScopeId × Scope)} :
      t.scope? c = some s → s.parent = some p → Outwards t p outer → Outwards t c ((c, s) :: outer)

/-- There is one way out. -/
theorem Outwards.unique {scopes scopes' : List (ScopeId × Scope)} (h : t.Outwards c scopes)
    (h' : t.Outwards c scopes') : scopes = scopes' := by
  induction h generalizing scopes' with
  | root hs hnone =>
    cases h' with
    | root hs' _ => rw [Option.some.inj (hs.symm.trans hs')]
    | inside hs' hp' _ =>
      obtain rfl := Option.some.inj (hs.symm.trans hs')
      rw [hnone] at hp'
      cases hp'
  | inside hs hp _ ih =>
    cases h' with
    | root hs' hnone' =>
      obtain rfl := Option.some.inj (hs.symm.trans hs')
      rw [hnone'] at hp
      cases hp
    | inside hs' hp' h' =>
      obtain rfl := Option.some.inj (hs.symm.trans hs')
      obtain rfl := Option.some.inj (hp.symm.trans hp')
      rw [ih h']

/-- A chain starts with the scope it leads out of. -/
theorem Outwards.mem {scopes : List (ScopeId × Scope)} {s : Scope} (h : t.Outwards c scopes)
    (hs : t.scope? c = some s) : (c, s) ∈ scopes := by
  cases h with
  | root hs' _ => simp [Option.some.inj (hs.symm.trans hs')]
  | inside hs' _ _ => simp [Option.some.inj (hs.symm.trans hs')]

namespace Recorded

variable {log : List Insertion}

/-- A chain is not cut short by its limit, since every scope around a scope has a smaller number. -/
theorem outwards_chainUpTo (h : Recorded t log) {limit : Nat} {s : Scope} (hs : t.scope? c = some s)
    (hle : c ≤ limit) : t.Outwards c (t.chainUpTo limit c) := by
  induction limit generalizing c s with
  | zero =>
    have := scope?_bounds hs
    omega
  | succ limit ih =>
    simp only [chainUpTo, hs]
    by_cases hglobal : c = ScopeId.global
    · obtain ⟨root, hroot, hnone⟩ := h.root
      obtain rfl : s = root := Option.some.inj (hs.symm.trans (hglobal ▸ hroot))
      rw [hnone]
      exact hglobal ▸ .root hroot hnone
    · obtain ⟨p, hp, hpos, hlt⟩ := h.parent c s hs hglobal
      have := scope?_bounds hs
      obtain ⟨outer, houter⟩ := exists_scope? (t := t) hpos (by omega)
      rw [hp]
      exact .inside hs hp (ih houter (by omega))

theorem outwards (h : Recorded t log) {s : Scope} (hs : t.scope? c = some s) :
    t.Outwards c (t.chain c) := h.outwards_chainUpTo hs (scope?_bounds hs).2

/-- A look-up finds the last binding in the nearest scope that has one. -/
theorem lookupFrom_eq (h : Recorded t log) {s : Scope} (hs : t.scope? c = some s) (name : String) :
    t.lookupFrom name c =
      .ok ((t.chain c).findSome? fun p => (lastInserted log p.1 name).map (·, p.1)) := by
  rw [lookupFrom, scope_eq_ok_iff.2 hs, Outcome.ok_bind, find?]
  refine congrArg Except.ok ?_
  have hchain : ∀ p ∈ t.chain c, t.scope? p.1 = some p.2 := fun p hp => mem_chainUpTo hp
  generalize t.chain c = scopes at hchain
  induction scopes with
  | nil => rfl
  | cons p rest ih =>
    obtain ⟨d, s⟩ := p
    rw [List.findSome?_cons, List.findSome?_cons, ih fun q hq =>
      hchain q (List.mem_cons_of_mem _ hq)]
    dsimp only
    rw [h.last d s (hchain (d, s) List.mem_cons_self) name]

/-- Looking for an overload set along some scopes of the table comes to an end without a fault. -/
theorem exists_overloadsAlong (h : Recorded t log) {scopes : List (ScopeId × Scope)}
    (hscopes : ∀ p ∈ scopes, t.scope? p.1 = some p.2) (name : String) :
    ∃ found, t.overloadsAlong name scopes = .ok found := by
  induction scopes with
  | nil => exact ⟨none, rfl⟩
  | cons p rest ih =>
    have hrest := ih fun q hq => hscopes q (List.mem_cons_of_mem _ hq)
    rw [overloadsAlong]
    cases hfind : p.2.find? name with
    | none => exact hrest
    | some e =>
      obtain ⟨x, hx⟩ :=
        h.bound p.1 p.2 (hscopes p List.mem_cons_self) name e (Scope.mem_of_find? hfind)
      simp only [hx, Outcome.ok_bind]
      cases x.meaning.overloads? with
      | none => exact hrest
      | some overloads => exact ⟨some overloads, rfl⟩

end Recorded

/-! ### Look-ups that stay the same -/

/-- A name that is looked up from a scope is found alike in both tables. -/
structure SameLookups (t t' : SymbolTable) (name : String) (c : ScopeId) : Prop where
  nearest : t'.lookupFrom name c = t.lookupFrom name c
  inside : t'.lookupIn name c = t.lookupIn name c
  function : t'.lookupFunction name c = t.lookupFunction name c
  record : c = ScopeId.global → t'.lookupRecord name = t.lookupRecord name

/-- Two scopes with the same number in which a name is bound to the same entry. -/
def BoundAlike (name : String) (p p' : ScopeId × Scope) : Prop :=
  p'.1 = p.1 ∧ p'.2.find? name = p.2.find? name

theorem overloadsAlong_congr {log : List Insertion} (h : Recorded t log)
    (hkept : ∀ e x, t.entry e = .ok x → t'.entry e = .ok x)
    {scopes scopes' : List (ScopeId × Scope)} (hscopes : ∀ p ∈ scopes, t.scope? p.1 = some p.2)
    (halike : List.Forall₂ (BoundAlike name) scopes scopes') :
    t'.overloadsAlong name scopes' = t.overloadsAlong name scopes := by
  induction halike with
  | nil => rfl
  | @cons p p' rest rest' hp _ ih =>
    have hrest := ih fun q hq => hscopes q (List.mem_cons_of_mem _ hq)
    rw [overloadsAlong, overloadsAlong, hp.2]
    cases hfind : p.2.find? name with
    | none => exact hrest
    | some e =>
      obtain ⟨x, hx⟩ :=
        h.bound p.1 p.2 (hscopes p List.mem_cons_self) name e (Scope.mem_of_find? hfind)
      simp only [hx, hkept e x hx, hrest]

/-- The scopes around a scope keep their number and the binding of a name. -/
theorem SameLookups.of_chain {log log' : List Insertion} (h : Recorded t log)
    (h' : Recorded t' log') {s : Scope} (hs : t.scope? c = some s)
    (hkept : ∀ e x, t.entry e = .ok x → t'.entry e = .ok x)
    (hscopes : ∀ p ∈ t.chain c, ∃ s', t'.scope? p.1 = some s' ∧ s'.parent = p.2.parent ∧
      s'.find? name = p.2.find? name) : SameLookups t t' name c := by
  have hout := h.outwards hs
  have hmem : ∀ p ∈ t.chain c, t.scope? p.1 = some p.2 := fun p hp => mem_chainUpTo hp
  -- the same way leads outwards in the other table
  have hway : ∀ {c scopes}, t.Outwards c scopes → (∀ p ∈ scopes, ∃ s', t'.scope? p.1 = some s' ∧
      s'.parent = p.2.parent ∧ s'.find? name = p.2.find? name) →
      ∃ scopes', t'.Outwards c scopes' ∧ List.Forall₂ (BoundAlike name) scopes scopes' := by
    intro c scopes hout hscopes
    induction hout with
    | root hs hnone =>
      obtain ⟨s', hs', hparent, hfind⟩ := hscopes _ List.mem_cons_self
      exact ⟨_, .root hs' (hparent.trans hnone), .cons ⟨rfl, hfind⟩ .nil⟩
    | inside hs hp _ ih =>
      obtain ⟨s', hs', hparent, hfind⟩ := hscopes _ List.mem_cons_self
      obtain ⟨outer', houter', halike⟩ := ih fun q hq => hscopes q (List.mem_cons_of_mem _ hq)
      exact ⟨_, .inside hs' (hparent.trans hp) houter', .cons ⟨rfl, hfind⟩ halike⟩
  obtain ⟨scopes', hout', halike⟩ := hway hout hscopes
  obtain ⟨s', hs', -, hfind'⟩ : ∃ s', t'.scope? c = some s' ∧ _ := hscopes _ (hout.mem hs)
  obtain rfl := hout'.unique (h'.outwards hs')
  have hin : t'.lookupIn name c = t.lookupIn name c := by
    rw [lookupIn_eq_ok_iff.2 ⟨s, hs, rfl⟩, lookupIn_eq_ok_iff.2 ⟨s', hs', hfind'⟩]
  refine ⟨?_, hin, ?_, fun hglobal => ?_⟩
  · rw [lookupFrom, lookupFrom, scope_eq_ok_iff.2 hs, scope_eq_ok_iff.2 hs']
    refine congrArg Except.ok ?_
    unfold find?
    generalize t.chain c = scopes at halike
    generalize t'.chain c = scopes' at halike
    induction halike with
    | nil => rfl
    | @cons p p' _ _ hp _ ih =>
      obtain ⟨d, s⟩ := p
      obtain ⟨d', s'⟩ := p'
      obtain ⟨rfl, hfind⟩ : d' = d ∧ s'.find? name = s.find? name := hp
      rw [List.findSome?_cons, List.findSome?_cons, ih]
      dsimp only
      rw [hfind]
  · rw [lookupFunction, lookupFunction, scope_eq_ok_iff.2 hs, scope_eq_ok_iff.2 hs']
    exact overloadsAlong_congr h hkept hmem halike
  · subst hglobal
    rw [lookupRecord, lookupRecord, hin, lookupIn_eq_ok_iff.2 ⟨s, hs, rfl⟩, Outcome.ok_bind,
      Outcome.ok_bind]
    cases hfind : s.find? name with
    | none => rfl
    | some e =>
      obtain ⟨x, hx⟩ := h.bound _ s hs name e (Scope.mem_of_find? hfind)
      simp only [hx, hkept e x hx]

/-- A binding changes no look-up of another name, and none from a scope that does not lie in the
scope of the binding. -/
theorem Recorded.sameLookups_apply {log : List Insertion} (h : Recorded t log) {step : Step}
    (hstep : step.Permitted t) {i : Insertion} (hi : step.insertion? t = some i) {s : Scope}
    (hs : t.scope? c = some s) (hapart : name ≠ i.name ∨ ∀ p ∈ t.chain c, p.1 ≠ i.scope) :
    SameLookups t (step.apply t) name c := by
  obtain ⟨current, hcurrent⟩ := h.current
  have hpos := (scope?_bounds hcurrent).1
  obtain ⟨hkept, hscope⟩ : (∀ e x, t.entry e = .ok x → (step.apply t).entry e = .ok x) ∧
      ∀ d, (step.apply t).scope? d =
        if d = i.scope then (t.scope? d).map (·.insert i.name i.entry) else t.scope? d := by
    cases step with
    | push | pop => cases hi
    | declare name meaning span =>
      cases hi
      exact ⟨fun e x hx => entry_declare.2 (.inl hx), fun d => scope?_declare hpos⟩
    | bind name entry =>
      cases hi
      exact ⟨fun _ _ hx => hx, fun d => scope?_bind hpos⟩
  refine .of_chain h (h.apply hstep) hs hkept fun p hp => ?_
  rw [hscope, mem_chainUpTo hp]
  split
  · next heq =>
    refine ⟨p.2.insert i.name i.entry, rfl, rfl, ?_⟩
    rw [Scope.find?_insert, if_neg (hapart.resolve_right fun hnone => hnone p hp heq)]
  · exact ⟨p.2, rfl, rfl, rfl⟩

/-! ### Scopes that are left again -/

/-- Steps in which every scope that is opened is left, and none that was open before. -/
inductive Nested : List Step → Prop where
  | done : Nested []
  | declare {name : String} {meaning : Meaning} {span : Span} {rest : List Step} :
      Nested rest → Nested (.declare name meaning span :: rest)
  | bind {name : String} {entry : EntryId} {rest : List Step} :
      Nested rest → Nested (.bind name entry :: rest)
  | block {body rest : List Step} : Nested body → Nested rest →
      Nested (.push :: (body ++ .pop :: rest))

/-- No entry and no scope is lost, and the first `n` scopes are as before. -/
structure Keeps (n : Nat) (t t' : SymbolTable) : Prop where
  entry : ∀ e x, t.entry e = .ok x → t'.entry e = .ok x
  scope : ∀ (c : Nat) s, t.scope? c = some s →
    ∃ s', t'.scope? c = some s' ∧ s'.parent = s.parent ∧ (c ≤ n → s' = s)

theorem Keeps.refl (n : Nat) (t : SymbolTable) : Keeps n t t :=
  ⟨fun _ _ hx => hx, fun _ s hs => ⟨s, hs, rfl, fun _ => rfl⟩⟩

theorem Keeps.trans {n : Nat} (h : Keeps n t u) (h' : Keeps n u t') : Keeps n t t' := by
  refine ⟨fun e x hx => h'.entry e x (h.entry e x hx), fun c s hs => ?_⟩
  obtain ⟨s₁, hs₁, hparent₁, hsame₁⟩ := h.scope c s hs
  obtain ⟨s₂, hs₂, hparent₂, hsame₂⟩ := h'.scope c s₁ hs₁
  exact ⟨s₂, hs₂, hparent₂.trans hparent₁, fun hc => (hsame₂ hc).trans (hsame₁ hc)⟩

theorem keeps_pushScope (n : Nat) (t : SymbolTable) : Keeps n t t.pushScope := by
  refine ⟨fun _ _ hx => hx, fun c s hs => ⟨s, ?_, rfl, fun _ => rfl⟩⟩
  have := scope?_bounds hs
  rw [scope?_pushScope, if_neg (by omega), hs]

theorem keeps_popScope (n : Nat) (t : SymbolTable) : Keeps n t t.popScope :=
  ⟨fun _ _ hx => hx, fun _ s hs => ⟨s, hs, rfl, fun _ => rfl⟩⟩

/-- A binding in a later scope leaves the first ones alone. -/
theorem keeps_bind {n : Nat} (hlt : n < t.current) (name : String) (entry : EntryId) :
    Keeps n t (t.bind name entry) := by
  refine ⟨fun _ _ hx => hx, fun c s hs => ?_⟩
  rw [scope?_bind (Nat.zero_lt_of_lt hlt), hs]
  split
  · next heq => exact ⟨_, rfl, rfl, fun hc => absurd hc (Nat.not_le_of_lt (heq ▸ hlt))⟩
  · exact ⟨s, rfl, rfl, fun _ => rfl⟩

theorem keeps_declare {n : Nat} (hlt : n < t.current) (name : String) (meaning : Meaning)
    (span : Span) : Keeps n t (t.declare name meaning span).2 :=
  ⟨fun _ _ hx => entry_declare.2 (.inl hx),
    (keeps_bind (t := { t with entries := t.entries.push ⟨name, t.current, span, meaning⟩ }) hlt
      name (t.entries.size + 1)).scope⟩

/-- A scope that was opened is left towards the one around it. -/
theorem current_popScope_of_keeps {n : Nat} (h : Keeps n t.pushScope u)
    (hcurrent : u.current = t.pushScope.current) : u.popScope.current = t.current := by
  have hopened : t.pushScope.scope? (t.scopes.size + 1) = some ⟨some t.current, []⟩ := by
    rw [scope?_pushScope, if_pos rfl]
  obtain ⟨s, hs, hparent, -⟩ := h.scope _ _ hopened
  have hscope : u.scope? u.current = some s := hcurrent ▸ hs
  have hfound : u.parent? = some t.current := by
    rw [parent?, hscope]
    exact hparent
  rw [popScope, hfound]
  rfl

theorem permitted_append {steps rest : List Step} :
    Permitted t (steps ++ rest) ↔ Permitted t steps ∧ Permitted (t.run steps) rest := by
  induction steps generalizing t with
  | nil => exact ⟨fun h => ⟨trivial, h⟩, fun h => h.2⟩
  | cons step steps ih =>
    rw [List.cons_append, Permitted, ih, Permitted, and_assoc]
    rfl

theorem run_append (t : SymbolTable) (steps rest : List Step) :
    t.run (steps ++ rest) = (t.run steps).run rest := List.foldl_append

/-- Nested steps return to the scope they start in, and what they bind does not concern older
scopes. -/
theorem Nested.keeps {steps : List Step} (hnested : Nested steps) {n : Nat} (hlt : n < t.current)
    {log : List Insertion} (h : Recorded t log) (hsteps : Permitted t steps) :
    Keeps n t (t.run steps) ∧ (t.run steps).current = t.current := by
  induction hnested generalizing t log with
  | done => exact ⟨.refl n t, rfl⟩
  | @declare name meaning span _ _ ih =>
    obtain ⟨hkeeps, hcurrent⟩ :=
      ih (t := (t.declare name meaning span).2) hlt (h.apply hsteps.1) hsteps.2
    exact ⟨(keeps_declare hlt name meaning span).trans hkeeps, hcurrent⟩
  | @bind name entry _ _ ih =>
    obtain ⟨hkeeps, hcurrent⟩ := ih (t := t.bind name entry) hlt (h.apply hsteps.1) hsteps.2
    exact ⟨(keeps_bind hlt name entry).trans hkeeps, hcurrent⟩
  | @block body rest _ _ ihbody ihrest =>
    obtain ⟨hbody, -, hrest⟩ := permitted_append.1 hsteps.2
    obtain ⟨current, hscope⟩ := h.current
    have hopen : n < t.pushScope.current :=
      Nat.lt_succ_of_lt (Nat.lt_of_lt_of_le hlt (scope?_bounds hscope).2)
    obtain ⟨hkeeps, hcurrent⟩ := ihbody hopen h.pushScope hbody
    have hback := current_popScope_of_keeps hkeeps hcurrent
    have hrecorded := (h.pushScope.run hbody).popScope
    obtain ⟨hkeeps', hcurrent'⟩ := ihrest (hback ▸ hlt) hrecorded hrest
    have hrun : t.run (.push :: (body ++ .pop :: rest)) =
        (t.pushScope.run body).popScope.run rest := run_append t.pushScope body (.pop :: rest)
    rw [hrun]
    exact ⟨(((keeps_pushScope n t).trans hkeeps).trans (keeps_popScope n _)).trans hkeeps',
      hcurrent'.trans hback⟩

/-- A scope that is opened, whatever happens in it and in scopes inside of it, and left again. -/
theorem Recorded.sameLookups_block {log : List Insertion} (h : Recorded t log) {body : List Step}
    (hnested : Nested body) (hsteps : Permitted t (.push :: (body ++ [.pop]))) :
    (t.run (.push :: (body ++ [.pop]))).current = t.current ∧
      ∀ c s, t.scope? c = some s → ∀ name,
        SameLookups t (t.run (.push :: (body ++ [.pop]))) name c := by
  have hrun : t.run (.push :: (body ++ [.pop])) = (t.pushScope.run body).popScope :=
    run_append t.pushScope body [.pop]
  obtain ⟨hbody, -⟩ := permitted_append.1 hsteps.2
  obtain ⟨hkeeps, hcurrent⟩ :=
    hnested.keeps (n := t.scopes.size) (Nat.lt_succ_self _) h.pushScope hbody
  rw [hrun]
  refine ⟨current_popScope_of_keeps hkeeps hcurrent, fun c s hs name => ?_⟩
  have hall := ((keeps_pushScope t.scopes.size t).trans hkeeps).trans (keeps_popScope _ _)
  refine .of_chain h (h.pushScope.run hbody).popScope hs hall.entry fun p hp => ?_
  obtain ⟨s', hs', hparent, hsame⟩ := hall.scope p.1 p.2 (mem_chainUpTo hp)
  exact ⟨s', hs', hparent, by rw [hsame (scope?_bounds (mem_chainUpTo hp)).2]⟩

/-! ### The laws of scoping -/

/-- The laws of scoping, for every table that permitted steps build. Every scope but the global one
lies in a scope with a smaller number, and every binding leads to an entry. From every scope a chain
of scopes leads out to the global one; a look-up finds what was bound last to the name in the
nearest of them in which it was bound, and the look-up of an overload set comes to an end. A binding
changes no look-up of another name, and none from a scope whose chain does not come through the
scope of the binding. After a scope was opened and left again, whatever was bound inside, the
current scope is the one from before and every look-up from an older scope finds what it found
before. -/
theorem scoping_laws {steps : List Step} (h : Permitted {} steps) :
    (∀ (c : Nat) s, (run {} steps).scope? c = some s →
      c = ScopeId.global ∧ s.parent = none ∨
      ∃ p : Nat, s.parent = some p ∧ p < c ∧ ∃ outer, (run {} steps).scope? p = some outer) ∧
    (∀ c s, (run {} steps).scope? c = some s → ∀ name e, (name, e) ∈ s.symbols →
      ∃ x, (run {} steps).entry e = .ok x) ∧
    (∀ c s, (run {} steps).scope? c = some s →
      (run {} steps).Outwards c ((run {} steps).chain c) ∧
      ∀ name,
        (run {} steps).lookupFrom name c = .ok (((run {} steps).chain c).findSome? fun p =>
          (lastInserted (insertions {} steps) p.1 name).map (·, p.1)) ∧
        ∃ found, (run {} steps).lookupFunction name c = .ok found) ∧
    (∀ (step : Step) i, step.Permitted (run {} steps) → step.insertion? (run {} steps) = some i →
      ∀ c s, (run {} steps).scope? c = some s → ∀ name,
        (name ≠ i.name ∨ ∀ p ∈ (run {} steps).chain c, p.1 ≠ i.scope) →
        SameLookups (run {} steps) (step.apply (run {} steps)) name c) ∧
    ∀ body, Nested body → Permitted (run {} steps) (.push :: (body ++ [.pop])) →
      ((run {} steps).run (.push :: (body ++ [.pop]))).current = (run {} steps).current ∧
      ∀ c s, (run {} steps).scope? c = some s → ∀ name,
        SameLookups (run {} steps) ((run {} steps).run (.push :: (body ++ [.pop]))) name c := by
  have hrecorded : Recorded (run {} steps) (insertions {} steps) := Recorded.empty.run h
  refine ⟨fun c s hs => ?_, hrecorded.bound, fun c s hs => ⟨hrecorded.outwards hs, fun name => ?_⟩,
    fun step i hstep hi c s hs name => hrecorded.sameLookups_apply hstep hi hs,
    fun body => hrecorded.sameLookups_block⟩
  · have hbounds := scope?_bounds hs
    by_cases hglobal : c = ScopeId.global
    · obtain ⟨root, hroot, hnone⟩ := hrecorded.root
      obtain rfl : s = root := Option.some.inj (hs.symm.trans (hglobal ▸ hroot))
      exact .inl ⟨hglobal, hnone⟩
    · obtain ⟨p, hp, hpos, hlt⟩ := hrecorded.parent c s hs hglobal
      exact .inr ⟨p, hp, hlt, exists_scope? hpos (by omega)⟩
  · obtain ⟨found, hfound⟩ :=
      hrecorded.exists_overloadsAlong
        (fun p (hp : p ∈ (run {} steps).chain c) => mem_chainUpTo hp) name
    refine ⟨hrecorded.lookupFrom_eq hs name, found, ?_⟩
    rw [lookupFunction, scope_eq_ok_iff.2 hs]
    exact hfound

/-- A name that is bound again in a scope, after a scope inside of it was left. -/
def Rebound.steps : List Step :=
  [.declare "x" (.var .int false .global 2) Span.empty, .push,
    .declare "x" (.var .bool false .localVariable 3) Span.empty, .bind "y" 1, .push, .pop,
    .bind "y" 2]

/-- What is declared in one more scope. -/
def Rebound.body : List Step := [.declare "x" (.var .text false .localVariable 4) Span.empty]

theorem Rebound.scoped :
    Permitted {} steps ∧ Nested body ∧ Permitted (run {} steps) (.push :: (body ++ [.pop])) ∧
    (run {} steps).lookupFrom "y" 3 = .ok (some (2, 2)) ∧
    (run {} steps).lookupFrom "x" 1 = .ok (some (1, 1)) ∧
    ((run {} steps).run (.push :: (body ++ [.pop]))).lookupFrom "x" 3 =
      (run {} steps).lookupFrom "x" 3 := by
  have hsteps : Permitted {} steps :=
    ⟨trivial, trivial, trivial, ⟨_, rfl⟩, trivial, trivial, ⟨_, rfl⟩, trivial⟩
  have hnested : Nested body := .declare .done
  have hblock : Permitted (run {} steps) (.push :: (body ++ [.pop])) :=
    ⟨trivial, trivial, trivial, trivial⟩
  obtain ⟨-, -, hlookups, -, hkept⟩ := scoping_laws hsteps
  have hinner : (run {} steps).scope? 3 = some ⟨some 2, []⟩ := by decide
  have hglobal : (run {} steps).scope? 1 = some ⟨none, [("x", 1)]⟩ := by decide
  exact ⟨hsteps, hnested, hblock, ((hlookups 3 _ hinner).2 "y").1.trans (by decide),
    ((hlookups 1 _ hglobal).2 "x").1.trans (by decide),
    ((hkept body hnested hblock).2 3 _ hinner "x").nearest⟩

end MiniJ.SymbolTable
