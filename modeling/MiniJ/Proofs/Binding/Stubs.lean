import Mathlib.Data.List.Nodup
import MiniJ.Proofs.Accepted
import MiniJ.Proofs.Binding.Registry

/-!
# Dropping the builtins leaves no trace

Builtins and the functions of a program share overload sets, and a function scope binds the name of
its function to the set too. Once all calls are resolved the builtins are dropped by a walk over the
entries: a set that is empty then loses its binding in the scope that declared it, and in no other.
This is enough because a set is bound elsewhere only for an overload that the program defines.

## Main definitions

* `SymbolTable.Homed` — what a scope binds was declared there or keeps a meaning.
* `SymbolTable.OnlyStubs` — an overload set of builtins alone.
* `SymbolTable.Stripped` — a table without its builtins.

## Main statements

* `Binding.homed_invariant` — binding keeps tables homed.
* `SymbolTable.Homed.stripped` — dropping the builtins of a homed table drops nothing else.
* `Arena.check_strips` — however the check of a bound program ends, it leaves the table stripped.
-/
namespace MiniJ

namespace SymbolTable

/-- What a scope binds was declared in it, or will have a meaning without the builtins too. -/
def Homed (t : SymbolTable) : Prop :=
  ∀ c s, t.scope? c = some s → ∀ n e, (n, e) ∈ s.symbols →
    ∃ x, t.entry e = .ok x ∧ (x.scope = c ∨ x.meaning.HasDefinition)

namespace Homed

variable {t : SymbolTable} {name : String} {e : EntryId}

theorem declare (h : t.Homed) {sc : Scope} (hsc : t.scope? t.current = some sc) (m : Meaning)
    (span : Span) : (t.declare name m span).2.Homed := by
  intro c s hs n e' hmem
  have hkept : ∀ s₀, t.scope? c = some s₀ → (n, e') ∈ s₀.symbols →
      ∃ x, (t.declare name m span).2.entry e' = .ok x ∧
        (x.scope = c ∨ x.meaning.HasDefinition) := by
    intro s₀ hs₀ hmem₀
    obtain ⟨x, hx, hcase⟩ := h c s₀ hs₀ n e' hmem₀
    exact ⟨x, entry_declare.2 (.inl hx), hcase⟩
  rw [scope?_declare (scope?_eq_some_iff.1 hsc).1] at hs
  split at hs
  · next hc =>
    obtain ⟨s₀, hs₀, rfl⟩ := Option.map_eq_some_iff.1 hs
    rcases Scope.mem_insert hmem with ⟨rfl, rfl⟩ | hold
    · exact ⟨_, entry_declare.2 (.inr ⟨rfl, rfl⟩), .inl hc.symm⟩
    · exact hkept s₀ hs₀ hold
  · exact hkept s hs hmem

/-- A set with one more definition has a meaning for good. -/
theorem redefine (h : t.Homed) {x : Entry} {overloads : List Signature} {sig : Signature}
    (hx : t.entry e = .ok x) (hsig : sig.definition.isSome) :
    (t.redefine e (.function (overloads ++ [sig]))).Homed := by
  intro c s hs n e' hmem
  rw [scope?_redefine] at hs
  obtain ⟨y, hy, hcase⟩ := h c s hs n e' hmem
  by_cases heq : e' = e
  · subst heq
    refine ⟨_, entry_redefine_self hx, .inr fun o ho => ?_⟩
    cases ho
    exact ⟨sig, by simp, hsig⟩
  · exact ⟨y, entry_redefine_of_ne hy heq (entry_eq_ok_iff.1 hx).1, hcase⟩

theorem enter (h : t.Homed) {x : Entry} (hx : t.entry e = .ok x) (hm : x.meaning.HasDefinition) :
    (t.pushScope.bind name e).Homed := by
  intro c s hs n e' hmem
  have hcurrent : t.pushScope.current = t.scopes.size + 1 := rfl
  rw [scope?_bind (Nat.succ_pos _), scope?_pushScope, hcurrent] at hs
  split at hs
  · cases hs
    simp only [Scope.insert, List.filter_nil, List.mem_singleton, Prod.mk.injEq] at hmem
    obtain ⟨rfl, rfl⟩ := hmem
    exact ⟨x, hx, .inr hm⟩
  · exact h c s hs n e' hmem

end Homed

/-! ### Stripped tables -/

/-- An overload set that the program does not add to. -/
def OnlyStubs (t : SymbolTable) (e : EntryId) : Prop :=
  ∃ x overloads, t.entry e = .ok x ∧ x.meaning = .function overloads ∧
    ∀ sig ∈ overloads, sig.definition = none

/-- The table `t'` is the table `t` without its builtins. -/
structure Stripped (t t' : SymbolTable) : Prop where
  current : t'.current = t.current
  /-- Entries and scopes keep their numbers. -/
  entries : t'.entries.size = t.entries.size
  scopes : t'.scopes.size = t.scopes.size
  /-- Variables and records stay. -/
  other : ∀ e x, t.entry e = .ok x → x.meaning.overloads? = none → t'.entry e = .ok x
  /-- An overload set keeps the overloads of the program, in their order. -/
  function : ∀ e x overloads, t.entry e = .ok x → x.meaning = .function overloads →
    t'.entry e = .ok { x with meaning := .function (overloads.filter (·.definition.isSome)) }
  defined : ∀ e x overloads, t'.entry e = .ok x → x.meaning = .function overloads →
    ∀ sig ∈ overloads, sig.definition.isSome
  /-- A scope stays where it is, and loses the names of builtins alone. -/
  names : ∀ c s, t.scope? c = some s → ∃ s', t'.scope? c = some s' ∧ s'.parent = s.parent ∧
    ∀ name e, s'.find? name = some e ↔ s.find? name = some e ∧ ¬t.OnlyStubs e
  /-- What is still bound has a meaning. -/
  occupied : ∀ c s name e, t'.scope? c = some s → s.find? name = some e →
    ∃ x, t'.entry e = .ok x ∧ x.meaning ≠ .function []

variable {t : SymbolTable}

/-- With one binding for each name a name is found exactly where it is bound. -/
theorem find?_eq_some_iff {s : Scope} (h : (s.symbols.map Prod.fst).Nodup) {name : String}
    {e : EntryId} : s.find? name = some e ↔ (name, e) ∈ s.symbols := by
  refine ⟨Scope.mem_of_find?, fun hmem => ?_⟩
  cases hfound : s.find? name with
  | none => simpa using List.lookup_eq_none_iff.1 hfound _ hmem
  | some e' =>
    obtain ⟨-, rfl⟩ := Prod.mk.inj (List.inj_on_of_nodup_map h hmem (Scope.mem_of_find? hfound) rfl)
    rfl

theorem isVacant_iff {m : Meaning} : m.isVacant = true ↔ m = .function [] := by
  rcases m with _ | (_ | _) | _ <;> simp [Meaning.isVacant]

/-- A meaning is dropped with the builtins if it is a set of builtins. -/
theorem isVacant_withoutBuiltins {m : Meaning} : m.withoutBuiltins.isVacant = true ↔
    ∃ overloads, m = .function overloads ∧ ∀ sig ∈ overloads, sig.definition = none := by
  rw [isVacant_iff]
  cases m with
  | function overloads =>
    simp [Meaning.withoutBuiltins, List.filter_eq_nil_iff, Signature.isBuiltin]
  | var | record => simp [Meaning.withoutBuiltins]

/-- Bindings that the walk drops: where the binding is homed, those of builtins alone. -/
theorem isVacant_dropBuiltins {c : ScopeId} {n : String} {e : EntryId} {x : Entry}
    (hx : t.entry e = .ok x) (hname : x.name = n) (hhome : x.scope = c ∨ x.meaning.HasDefinition) :
    t.dropBuiltins.isVacant c (n, e) = true ↔ t.OnlyStubs e := by
  have hentry : t.dropBuiltins.entry e = .ok { x with meaning := x.meaning.withoutBuiltins } :=
    entry_withoutBuiltins.2 ⟨x, hx, rfl⟩
  have hvacant : t.dropBuiltins.isVacant c (n, e) =
      (x.meaning.withoutBuiltins.isVacant && x.name == n && x.scope == c) := by
    simp only [isVacant, hentry]
  rw [hvacant, Bool.and_eq_true, Bool.and_eq_true, isVacant_withoutBuiltins]
  constructor
  · rintro ⟨⟨⟨overloads, hm, hstubs⟩, -⟩, -⟩
    exact ⟨x, overloads, hx, hm, hstubs⟩
  · rintro ⟨y, overloads, hy, hm, hstubs⟩
    cases hx.symm.trans hy
    refine ⟨⟨⟨overloads, hm, hstubs⟩, beq_iff_eq.2 hname⟩, beq_iff_eq.2 ?_⟩
    -- a set of builtins is bound in its own scope only
    refine hhome.resolve_right fun hdefinition => ?_
    obtain ⟨sig, hsig, hsome⟩ := hdefinition overloads hm
    simp [hstubs sig hsig] at hsome

/-- Dropping the builtins drops nothing else. -/
theorem Homed.stripped (h : t.Homed)
    (hnodup : ∀ c s, t.scope? c = some s → (s.symbols.map Prod.fst).Nodup)
    (hnames : ∀ c s, t.scope? c = some s → ∀ n e, (n, e) ∈ s.symbols →
      ∃ x, t.entry e = .ok x ∧ x.name = n) : t.Stripped t.withoutBuiltins := by
  have hfind : ∀ c s, t.scope? c = some s → ∃ s', t.withoutBuiltins.scope? c = some s' ∧
      s'.parent = s.parent ∧
      ∀ name e, s'.find? name = some e ↔ s.find? name = some e ∧ ¬t.OnlyStubs e := by
    intro c s hs
    refine ⟨_, scope?_withoutBuiltins_of_some hs, rfl, fun name e => ?_⟩
    rw [find?_eq_some_iff ((hnodup c s hs).sublist (List.filter_sublist.map _)), List.mem_filter,
      find?_eq_some_iff (hnodup c s hs)]
    refine and_congr_right fun hmem => ?_
    obtain ⟨x, hx, hhome⟩ := h c s hs name e hmem
    obtain ⟨y, hy, hname⟩ := hnames c s hs name e hmem
    cases hx.symm.trans hy
    rw [← isVacant_dropBuiltins hx hname hhome, Bool.not_eq_true', Bool.not_eq_true]
  refine ⟨rfl, by simp [withoutBuiltins, dropVacant, dropBuiltins],
    by simp [withoutBuiltins, dropVacant, dropBuiltins], fun e x hx hm => ?_,
    fun e x overloads hx hm => ?_, fun e x overloads hx hm sig hsig => ?_, hfind,
    fun c s name e hs he => ?_⟩
  · refine entry_withoutBuiltins.2 ⟨x, hx, ?_⟩
    cases x with | mk _ _ _ m => cases m <;> first | rfl | cases hm
  · refine entry_withoutBuiltins.2 ⟨x, hx, ?_⟩
    simp [hm, Meaning.withoutBuiltins, Signature.isBuiltin]
  · obtain ⟨y, hy, rfl⟩ := entry_withoutBuiltins.1 hx
    cases hy' : y.meaning <;> simp only [hy', Meaning.withoutBuiltins] at hm <;> cases hm
    simpa [Signature.isBuiltin] using (List.mem_filter.1 hsig).2
  · obtain ⟨s₀, hs₀, -, -⟩ := scope?_withoutBuiltins_some hs
    obtain ⟨s', hs', -, hiff⟩ := hfind c s₀ hs₀
    cases hs.symm.trans hs'
    obtain ⟨he₀, hnot⟩ := (hiff name e).1 he
    obtain ⟨x, hx, -⟩ := h c s₀ hs₀ name e (Scope.mem_of_find? he₀)
    refine ⟨_, entry_withoutBuiltins.2 ⟨x, hx, rfl⟩, fun hempty => hnot ?_⟩
    obtain ⟨overloads, hm, hstubs⟩ := isVacant_withoutBuiltins.1 (isVacant_iff.2 hempty)
    exact ⟨x, overloads, hx, hm, hstubs⟩

end SymbolTable

namespace Binding

theorem homed_invariant : Invariant SymbolTable.Homed where
  declare span h hsc _ _ := h.declare hsc _ span
  redefine h hx _ hsig := h.redefine hx hsig
  enter _ h hx hm := h.enter hx hm
  leave h := h

theorem homed_empty : ({} : SymbolTable).Homed := by
  intro c s hs n e hmem
  rw [SymbolTable.scope?_empty hs] at hmem
  cases hmem

end Binding

namespace Arena

variable {a : Arena} {table : SymbolTable} {info : SemanticInfo}

/-- However the check of a bound program ends, it leaves the table without its builtins, and with
all else that was in it. -/
theorem check_strips {source : SourceId} {bytes : List UInt8}
    (hparse : Arena.ofBytes source bytes = .ok a)
    (hbind : a.bind {} = (.ok (), table, info)) : table.Stripped (a.check table info).2.1 := by
  obtain ⟨u, hu, hcomplete⟩ := exists_complete_ofBytes hparse
  obtain ⟨s, hbound, horder, rfl, -⟩ := unitBound_of_bind hu hcomplete.spread hbind
  have hhomed := invariant_of_bind Binding.homed_invariant Binding.homed_empty hu hcomplete.spread
    hbind
  exact hhomed.stripped horder.tidy hbound.level.table.names

end Arena

/-! ### A program -/

namespace Extended

/-- One more overload of a builtin, the result of which is not of its type. -/
def words : List String :=
  ["int", "writeInt", "(", "bool", "b", ")", "\x7b", "return", "b", ";", "\x7d"]

/-- The words with a blank behind each. -/
def bytes : List UInt8 := words.flatMap fun w => w.toList.map (fun c => UInt8.ofNat c.toNat) ++ [32]

def arena : Arena := (Arena.ofBytes 0 bytes).toOption.get (by decide +kernel)

theorem toOption_ofBytes : (Arena.ofBytes 0 bytes).toOption = some arena := by
  rw [arena, Option.some_get]

/-- Names are bound, but the check fails. The name of the new overload stays in the global scope and
in the one of the function, and the name of another builtin is gone. -/
theorem check_rejects : (arena.bind {}).1.toOption = some () ∧
    ((arena.check (arena.bind {}).2.1 (arena.bind {}).2.2).1.toOption,
      (arena.check (arena.bind {}).2.1 (arena.bind {}).2.2).2.1.scopes.map fun s =>
        ((s.find? "writeInt").isSome, (s.find? "readInt").isSome)) =
      (none, #[(true, false), (true, false)]) := by decide +kernel

attribute [irreducible] arena

theorem rejected_program_stripped : ∃ a table info, Arena.ofBytes 0 bytes = .ok a ∧
    a.bind {} = (.ok (), table, info) ∧ table.Stripped (a.check table info).2.1 ∧
    ((a.check table info).1.toOption, (a.check table info).2.1.scopes.map fun s =>
      ((s.find? "writeInt").isSome, (s.find? "readInt").isSome)) =
      (none, #[(true, false), (true, false)]) := by
  have hparse := toOption_ofBytes
  obtain ⟨hbind, hcheck⟩ := check_rejects
  generalize arena = a at *
  cases hbytes : Arena.ofBytes 0 bytes with
  | error _ => simp [hbytes, Except.toOption] at hparse
  | ok a' =>
    obtain rfl : a' = a := by simpa [hbytes, Except.toOption] using hparse
    cases hbound : a'.bind {} with
    | mk r tables =>
      obtain ⟨table, info⟩ := tables
      cases r with
      | error _ => simp [hbound, Except.toOption] at hbind
      | ok _ =>
        rw [hbound] at hcheck
        exact ⟨a', table, info, rfl, hbound, Arena.check_strips hbytes hbound, hcheck⟩

end Extended

end MiniJ
