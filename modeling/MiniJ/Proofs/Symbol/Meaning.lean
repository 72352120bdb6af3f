import MiniJ.Proofs.Symbol.Table

/-!
# What names stand for

A table seen from outside: what a name stands for in each scope. Each operation changes this view in
one place, and a lookup from a scope below the global one sees its own scope first and then the
global one.

## Main definitions

* `SymbolTable.meaning?` — what a name stands for in a scope.
* `SymbolTable.Linked` — every binding leads to an entry of its name.
-/
namespace MiniJ

namespace Scope

variable {s : Scope} {name n : String} {e : EntryId}

theorem find?_insert : (s.insert name e).find? n = if n = name then some e else s.find? n := by
  by_cases h : n = name
  · simp [find?, insert, h]
  · have hkeep : ∀ symbols : List (String × EntryId),
        (symbols.filter (·.1 != name)).lookup n = symbols.lookup n := by
      intro symbols
      induction symbols with
      | nil => rfl
      | cons b rest ih =>
        obtain ⟨m, i⟩ := b
        by_cases hm : m = name
        · have hn : (n == m) = false := by simpa [hm] using h
          simp [hm, ih, List.lookup_cons, hm ▸ hn]
        · simp [hm, ih, List.lookup_cons]
    have hn : (n == name) = false := by simpa using h
    simp [find?, insert, h, hkeep, List.lookup_cons, hn]

end Scope

namespace SymbolTable

variable {t : SymbolTable} {name n : String} {c e : Nat} {m : Meaning}

/-- What a name stands for in one scope. -/
def meaning? (t : SymbolTable) (c : ScopeId) (name : String) : Option Meaning :=
  match (t.scope? c).bind (·.find? name) with
  | some e => (t.entry e).toOption.map (·.meaning)
  | none => none

/-- Every binding leads to an entry of its name. -/
def Linked (t : SymbolTable) : Prop :=
  ∀ c s, t.scope? c = some s → ∀ n e, s.find? n = some e → ∃ x, t.entry e = .ok x ∧ x.name = n

theorem meaning?_of_find? {s : Scope} {x : Entry} (hs : t.scope? c = some s)
    (he : s.find? name = some e) (hx : t.entry e = .ok x) : t.meaning? c name = some x.meaning := by
  simp [meaning?, hs, he, hx, Except.toOption]

theorem meaning?_eq_none {s : Scope} (hs : t.scope? c = some s) (he : s.find? name = none) :
    t.meaning? c name = none := by
  simp [meaning?, hs, he]

/-- A name with a meaning is bound to an entry with that meaning. -/
theorem Linked.meaning?_eq_some (h : t.Linked) (hm : t.meaning? c name = some m) :
    ∃ s e x, t.scope? c = some s ∧ s.find? name = some e ∧ t.entry e = .ok x ∧ x.name = name ∧
      x.meaning = m := by
  unfold meaning? at hm
  split at hm
  · next e he =>
    obtain ⟨s, hs, he⟩ := Option.bind_eq_some_iff.1 he
    obtain ⟨x, hx, hname⟩ := h c s hs name e he
    refine ⟨s, e, x, hs, he, hx, hname, ?_⟩
    simpa [hx, Except.toOption] using hm
  · cases hm

/-! ### Operations -/

/-- Declaring a name gives it its meaning in the current scope and changes nothing else. -/
theorem Linked.meaning?_declare (h : t.Linked) (hpos : 0 < t.current) {s : Scope}
    (hs : t.scope? t.current = some s) (span : Span) :
    (t.declare name m span).2.meaning? c n =
      if c = t.current ∧ n = name then some m else t.meaning? c n := by
  have hnew : (t.declare name m span).2.entry (t.entries.size + 1) =
      .ok ⟨name, t.current, span, m⟩ := entry_declare.2 (.inr ⟨rfl, rfl⟩)
  have hold : ∀ s, t.scope? c = some s →
      (match s.find? n with
        | some e => ((t.declare name m span).2.entry e).toOption.map (·.meaning)
        | none => none) = t.meaning? c n := by
    intro s hs
    cases he : s.find? n with
    | none => rw [meaning?_eq_none hs he]
    | some e =>
      obtain ⟨x, hx, -⟩ := h c s hs n e he
      simp [meaning?_of_find? hs he hx, entry_declare.2 (.inl hx), Except.toOption]
  by_cases hc : c = t.current
  · subst hc
    have hscope : (t.declare name m span).2.scope? t.current =
        some (s.insert name (t.entries.size + 1)) := by
      rw [scope?_declare hpos, if_pos rfl, hs]
      rfl
    by_cases hn : n = name
    · subst hn
      rw [if_pos ⟨rfl, rfl⟩]
      exact meaning?_of_find? hscope (by simp [Scope.find?_insert]) hnew
    · rw [if_neg (fun hboth => hn hboth.2), ← hold s hs, meaning?, hscope]
      simp [Scope.find?_insert, hn]
  · rw [if_neg (fun hboth => hc hboth.1)]
    have hscope : (t.declare name m span).2.scope? c = t.scope? c := by
      rw [scope?_declare hpos, if_neg hc]
    cases hsc : t.scope? c with
    | none => simp [meaning?, hscope, hsc]
    | some sc =>
      rw [← hold sc hsc, meaning?, hscope, hsc]
      rfl

/-- A new scope knows the one name it starts with. -/
theorem meaning?_enter {x : Entry} (hx : t.entry e = .ok x) :
    (t.pushScope.bind name e).meaning? c n =
      if c = t.scopes.size + 1 then if n = name then some x.meaning else none
      else t.meaning? c n := by
  have hscope : (t.pushScope.bind name e).scope? c =
      if c = t.scopes.size + 1 then some ⟨some t.current, [(name, e)]⟩ else t.scope? c := by
    have hcurrent : t.pushScope.current = t.scopes.size + 1 := rfl
    rw [scope?_bind (Nat.succ_pos _), scope?_pushScope, hcurrent]
    split <;> rfl
  by_cases hc : c = t.scopes.size + 1
  · rw [if_pos hc] at hscope ⊢
    by_cases hn : n = name
    · rw [if_pos hn]
      exact meaning?_of_find? hscope (by simp [Scope.find?, hn]) hx
    · rw [if_neg hn]
      refine meaning?_eq_none hscope ?_
      have hne : (n == name) = false := by simpa using hn
      simp [Scope.find?, List.lookup_cons, hne]
  · rw [if_neg hc] at hscope ⊢
    simp only [meaning?, hscope, entry_bind, entry_pushScope]

@[simp] theorem meaning?_popScope : t.popScope.meaning? c n = t.meaning? c n := rfl

/-- Redefining the entry of a name changes the meaning of this name only. -/
theorem Linked.meaning?_redefine (h : t.Linked) {s : Scope} {x : Entry} (hs : t.scope? c = some s)
    (he : s.find? name = some e) (hx : t.entry e = .ok x) :
    (t.redefine e m).meaning? c n = if n = name then some m else t.meaning? c n := by
  have hpos : 0 < e := (entry_eq_ok_iff.1 hx).1
  by_cases hn : n = name
  · subst hn
    rw [if_pos rfl]
    exact meaning?_of_find? (t := t.redefine e m) hs he (entry_redefine_self hx)
  · rw [if_neg hn]
    cases he' : s.find? n with
    | none => rw [meaning?_eq_none hs he', meaning?_eq_none (t := t.redefine e m) hs he']
    | some e' =>
      obtain ⟨y, hy, hyname⟩ := h c s hs n e' he'
      obtain ⟨z, hz, hzname⟩ := h c s hs name e he
      have hne : e' ≠ e := by
        rintro rfl
        cases hy.symm.trans hz
        exact hn (hyname.symm.trans hzname)
      rw [meaning?_of_find? hs he' hy]
      exact meaning?_of_find? (t := t.redefine e m) hs he' (entry_redefine_of_ne hy hne hpos)

/-! ### Lookups -/

/-- The scopes around a scope directly below the global one. -/
theorem chain_below_global {g d : Nat} {sc sg : Scope} (hd : t.scope? d = some sc)
    (hp : sc.parent = some g) (hg : t.scope? g = some sg) (hroot : sg.parent = none) (hne : d ≠ g) :
    t.chain d = [(d, sc), (g, sg)] := by
  have hsize : 2 ≤ t.scopes.size := by
    obtain ⟨hdpos, hd⟩ := scope?_eq_some_iff.1 hd
    obtain ⟨hgpos, hg⟩ := scope?_eq_some_iff.1 hg
    obtain ⟨hdlt, -⟩ := Array.getElem?_eq_some_iff.1 hd
    obtain ⟨hglt, -⟩ := Array.getElem?_eq_some_iff.1 hg
    omega
  obtain ⟨k, hk⟩ := Nat.exists_eq_add_of_le hsize
  rw [chain, hk, Nat.add_comm, chainUpTo, hd]
  simp only [hp]
  rw [chainUpTo, hg]
  simp [hroot]

/-- A lookup from a scope directly below the global one. -/
theorem find?_below_global {g d : Nat} {sc sg : Scope} (hd : t.scope? d = some sc)
    (hp : sc.parent = some g) (hg : t.scope? g = some sg) (hroot : sg.parent = none) (hne : d ≠ g) :
    t.find? name d = ((sc.find? name).map (·, d)).or ((sg.find? name).map (·, g)) := by
  rw [find?, chain_below_global hd hp hg hroot hne, List.findSome?_cons, List.findSome?_cons,
    List.findSome?_nil]
  dsimp only
  cases sc.find? name <;> cases sg.find? name <;> rfl

/-- A record is looked up in the global scope. -/
theorem Linked.lookupRecord_eq (h : t.Linked) {g : Scope} (hg : t.scope? ScopeId.global = some g)
    (name : String) :
    t.lookupRecord name = .ok ((t.meaning? ScopeId.global name).bind (·.fields?)) := by
  rw [lookupRecord, lookupIn_eq_ok_iff.2 ⟨g, hg, rfl⟩, Outcome.ok_bind]
  cases he : g.find? name with
  | none =>
    rw [meaning?_eq_none hg he]
    rfl
  | some e =>
    obtain ⟨x, hx, -⟩ := h _ g hg name e he
    rw [meaning?_of_find? hg he hx]
    dsimp only
    rw [hx]
    rfl

end SymbolTable

end MiniJ
