import MiniJ.Proofs.Outcome
import MiniJ.Symbol.Table

/-!
# Laws of symbol tables

What each operation does to the entries and scopes of a table, and where a lookup can find a name.
-/
namespace MiniJ

theorem Scope.mem_of_find? {s : Scope} {name : String} {e : Nat} (h : s.find? name = some e) :
    (name, e) ∈ s.symbols := by
  unfold Scope.find? at h
  generalize s.symbols = symbols at h ⊢
  induction symbols with
  | nil => simp at h
  | cons p rest ih =>
    obtain ⟨n, i⟩ := p
    rw [List.lookup_cons] at h
    split at h
    · next heq =>
      obtain rfl := eq_of_beq heq
      simp_all
    · exact List.mem_cons_of_mem _ (ih h)

theorem Scope.mem_insert {s : Scope} {name n : String} {entry e : Nat}
    (h : (n, e) ∈ (s.insert name entry).symbols) : (n = name ∧ e = entry) ∨ (n, e) ∈ s.symbols := by
  simp only [Scope.insert, List.mem_cons, Prod.mk.injEq, List.mem_filter] at h
  rcases h with h | ⟨h, -⟩
  · exact .inl h
  · exact .inr h

namespace SymbolTable

variable {t : SymbolTable}

theorem entry_eq_ok_iff {e : Nat} {x : Entry} :
    t.entry e = .ok x ↔ 0 < e ∧ t.entries[e - 1]? = some x := by
  unfold entry
  cases e with
  | zero => simp
  | succ i => cases h : t.entries[i]? <;> simp [h]

theorem scope?_eq_some_iff {c : Nat} {s : Scope} :
    t.scope? c = some s ↔ 0 < c ∧ t.scopes[c - 1]? = some s := by
  cases c <;> simp [scope?]

theorem scope_eq_ok_iff {c : Nat} {s : Scope} : t.scope c = .ok s ↔ t.scope? c = some s := by
  unfold scope
  cases t.scope? c <;> simp

theorem lookupIn_eq_ok_iff {name : String} {c : Nat} {found : Option Nat} :
    t.lookupIn name c = .ok found ↔ ∃ s, t.scope? c = some s ∧ s.find? name = found := by
  simp only [lookupIn, Outcome.bind_eq_ok, Outcome.pure_eq_ok, scope_eq_ok_iff]

/-! ### Entries -/

@[simp] theorem entry_bind (name : String) (entry e : Nat) :
    (t.bind name entry).entry e = t.entry e := rfl

@[simp] theorem entry_pushScope (e : Nat) : t.pushScope.entry e = t.entry e := rfl

@[simp] theorem entry_popScope (e : Nat) : t.popScope.entry e = t.entry e := rfl

theorem entry_declare {name : String} {m : Meaning} {span : Span} {e : Nat} {x : Entry} :
    (t.declare name m span).2.entry e = .ok x ↔
      t.entry e = .ok x ∨ (e = t.entries.size + 1 ∧ x = ⟨name, t.current, span, m⟩) := by
  simp only [declare, entry_bind, entry_eq_ok_iff, Array.getElem?_push]
  constructor
  · rintro ⟨hpos, h⟩
    split at h
    · next heq => exact .inr ⟨by omega, (Option.some.inj h).symm⟩
    · exact .inl ⟨hpos, h⟩
  · rintro (⟨hpos, h⟩ | ⟨rfl, rfl⟩)
    · obtain ⟨hlt, -⟩ := Array.getElem?_eq_some_iff.1 h
      rw [if_neg (by omega)]
      exact ⟨hpos, h⟩
    · simp

theorem entry_redefine {id : Nat} {m : Meaning} {e : Nat} {x : Entry}
    (h : (t.redefine id m).entry e = .ok x) (hid : 0 < id) :
    ∃ y, t.entry e = .ok y ∧ x.name = y.name ∧ x.meaning = if e = id then m else y.meaning := by
  simp only [redefine, entry_eq_ok_iff, Array.getElem?_modify] at h ⊢
  obtain ⟨hpos, h⟩ := h
  split at h
  · next heq =>
    obtain ⟨y, hy, rfl⟩ := Option.map_eq_some_iff.1 h
    exact ⟨y, ⟨hpos, heq ▸ hy⟩, rfl, by rw [if_pos (by omega)]⟩
  · next hne =>
    exact ⟨x, ⟨hpos, h⟩, rfl, by rw [if_neg (fun heq => hne (by omega))]⟩

theorem entry_redefine_self {id : Nat} {m : Meaning} {x : Entry} (h : t.entry id = .ok x) :
    (t.redefine id m).entry id = .ok { x with meaning := m } := by
  rw [entry_eq_ok_iff] at h ⊢
  exact ⟨h.1, by simp [redefine, Array.getElem?_modify, h.2]⟩

theorem entry_redefine_of_ne {id : Nat} {m : Meaning} {e : Nat} {x : Entry}
    (h : t.entry e = .ok x) (hne : e ≠ id) (hid : 0 < id) : (t.redefine id m).entry e = .ok x := by
  simp only [redefine, entry_eq_ok_iff, Array.getElem?_modify] at h ⊢
  exact ⟨h.1, by rw [if_neg (by omega)]; exact h.2⟩

/-! ### Scopes -/

theorem scope?_empty {c : Nat} {s : Scope} (h : ({} : SymbolTable).scope? c = some s) :
    s = ⟨none, []⟩ := by
  obtain ⟨-, h⟩ := scope?_eq_some_iff.1 h
  obtain ⟨hlt, rfl⟩ := Array.getElem?_eq_some_iff.1 h
  rw [List.getElem_toArray, List.getElem_singleton]

@[simp] theorem scope?_redefine (id : Nat) (m : Meaning) (c : Nat) :
    (t.redefine id m).scope? c = t.scope? c := rfl

theorem scope?_bind {name : String} {entry : Nat} {c : Nat} (h : 0 < t.current) :
    (t.bind name entry).scope? c =
      if c = t.current then (t.scope? c).map (·.insert name entry) else t.scope? c := by
  cases c with
  | zero => simp [scope?]
  | succ i =>
    simp only [scope?, bind, Array.getElem?_modify]
    by_cases heq : i + 1 = t.current
    · rw [if_pos heq, if_pos (by rw [← heq]; rfl)]
    · rw [if_neg heq, if_neg (fun h' : t.current - 1 = i => heq (h' ▸ Nat.sub_add_cancel h))]

@[simp] theorem scope?_popScope (c : Nat) : t.popScope.scope? c = t.scope? c := rfl

theorem scope?_pushScope {c : Nat} : t.pushScope.scope? c =
    if c = t.scopes.size + 1 then some ⟨some t.current, []⟩ else t.scope? c := by
  cases c with
  | zero => simp [scope?]
  | succ i =>
    simp only [scope?, pushScope, Array.getElem?_push]
    by_cases heq : i = t.scopes.size
    · simp [heq]
    · simp [heq]

@[simp] theorem current_declare (name : String) (m : Meaning) (span : Span) :
    (t.declare name m span).2.current = t.current := rfl

theorem scope?_declare {name : String} {m : Meaning} {span : Span} {c : Nat}
    (h : 0 < t.current) : (t.declare name m span).2.scope? c =
      if c = t.current then (t.scope? c).map (·.insert name (t.entries.size + 1))
      else t.scope? c := by
  exact scope?_bind (t := { t with entries := t.entries.push ⟨name, t.current, span, m⟩ }) h

/-! ### Lookups -/

theorem mem_chainUpTo {limit : Nat} {c d : Nat} {s : Scope}
    (h : (d, s) ∈ t.chainUpTo limit c) : t.scope? d = some s := by
  induction limit generalizing c with
  | zero => simp [chainUpTo] at h
  | succ limit ih =>
    simp only [chainUpTo] at h
    split at h
    · simp at h
    · next s' hs =>
      rcases List.mem_cons.1 h with heq | h
      · cases heq
        exact hs
      · split at h
        · exact ih h
        · simp at h

/-- A name is found in the scope of the search or in the scope around it, when that is the last. -/
theorem find?_of_parent {name : String} {c d g : Nat} {e : Nat} {sc sg : Scope}
    (hc : t.scope? c = some sc) (hp : sc.parent = some g) (hg : t.scope? g = some sg)
    (hroot : sg.parent = none) (h : t.find? name c = some (e, d)) :
    sc.find? name = some e ∨ sg.find? name = some e := by
  unfold find? chain at h
  obtain ⟨⟨i, s⟩, hmem, hs⟩ := List.exists_of_findSome?_eq_some h
  obtain ⟨e', he, heq⟩ := Option.map_eq_some_iff.1 hs
  cases heq
  cases hn : t.scopes.size with
  | zero => simp [hn, chainUpTo] at hmem
  | succ n =>
    simp only [hn, chainUpTo, hc, hp] at hmem
    rcases List.mem_cons.1 hmem with heq | hmem
    · cases heq
      exact .inl he
    · cases n with
      | zero => simp [chainUpTo] at hmem
      | succ n =>
        simp only [chainUpTo, hg, hroot, List.mem_singleton] at hmem
        cases hmem
        exact .inr he

/-- An overload set that is found belongs to an entry of that name. -/
theorem overloads_of_lookupFunction {name : String} {c : Nat} {overloads : List Signature}
    (h : t.lookupFunction name c = .ok (some overloads)) :
    ∃ d s e x, t.scope? d = some s ∧ (name, e) ∈ s.symbols ∧ t.entry e = .ok x ∧
      x.meaning = .function overloads := by
  simp only [lookupFunction, Outcome.bind_eq_ok] at h
  obtain ⟨_, _, h⟩ := h
  have hchain : ∀ p ∈ t.chain c, t.scope? p.1 = some p.2 := fun p hp => mem_chainUpTo hp
  generalize t.chain c = scopes at h hchain
  induction scopes with
  | nil => simp [overloadsAlong, Outcome.pure_eq_ok] at h
  | cons p rest ih =>
    obtain ⟨d, s⟩ := p
    have hrest := fun h' => ih h' fun q hq => hchain q (by simp [hq])
    simp only [overloadsAlong] at h
    split at h
    · exact hrest h
    · next e he =>
      obtain ⟨x, hx, h⟩ := Outcome.bind_eq_ok.1 h
      split at h
      · next ovs hovs =>
        cases h
        refine ⟨d, s, e, x, hchain (d, s) (by simp), Scope.mem_of_find? he, hx, ?_⟩
        cases hm : x.meaning <;> simp_all [Meaning.overloads?]
      · exact hrest h

/-- A record is found through its binding in the global scope. -/
theorem lookupRecord_eq_some_iff {name : String} {fields : List Field} :
    t.lookupRecord name = .ok (some fields) ↔ ∃ s e x d, t.scope? ScopeId.global = some s ∧
      s.find? name = some e ∧ t.entry e = .ok x ∧ x.meaning = .record fields d := by
  simp only [lookupRecord, Outcome.bind_eq_ok, lookupIn_eq_ok_iff]
  constructor
  · rintro ⟨_, ⟨s, hs, rfl⟩, h⟩
    split at h
    · cases h
    · next e he =>
      simp only [Outcome.bind_eq_ok, Outcome.pure_eq_ok] at h
      obtain ⟨x, hx, h⟩ := h
      cases hm : x.meaning with
      | record fs d =>
        simp only [hm, Meaning.fields?, Option.some.injEq] at h
        exact ⟨s, e, x, d, hs, he, hx, h ▸ hm⟩
      | _ => simp [hm, Meaning.fields?] at h
  · rintro ⟨s, e, x, d, hs, he, hx, hm⟩
    refine ⟨some e, ⟨s, hs, he⟩, ?_⟩
    simp only [Outcome.bind_eq_ok, Outcome.pure_eq_ok]
    exact ⟨x, hx, by rw [hm]; rfl⟩

end SymbolTable

end MiniJ
