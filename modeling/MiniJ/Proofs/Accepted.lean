import MiniJ.Compilation
import MiniJ.Proofs.Arena.Coverage
import MiniJ.Proofs.Typing.Sound

/-!
# Accepted programs

A program that parses, binds and type checks. Its members are laid out as trees, its variables are
resolved, and its annotations are right, also in the table without the builtins that code
generation works with.

## Main statements

* `Accepted.checkedProgram` — what acceptance establishes.
-/
namespace MiniJ

/-- A source text is accepted, as this arena and with these tables. -/
def Accepted (a : Arena) (table : SymbolTable) (info : SemanticInfo) : Prop :=
  ∃ source bytes table₀ info₀, Arena.ofBytes source bytes = .ok a ∧
    a.bind {} = (.ok (), table₀, info₀) ∧ a.check table₀ info₀ = (.ok (), table, info)

/-- Bytes of a source text made of words. -/
def spaced (words : List String) : List UInt8 :=
  words.flatMap fun w => w.toList.map (fun c => UInt8.ofNat c.toNat) ++ [32]

/-- The arena and the tables of a source text, if it is accepted. -/
def accept? (source : SourceId) (bytes : List UInt8) :
    Option (Arena × SymbolTable × SemanticInfo) :=
  match Arena.ofBytes source bytes with
  | .error _ => none
  | .ok a =>
    match a.bind {} with
    | (.error _, _) => none
    | (.ok (), table, info) =>
      match a.check table info with
      | (.error _, _) => none
      | (.ok (), table, info) => some (a, table, info)

theorem accepted_of_accept? {source : SourceId} {bytes : List UInt8}
    {p : Arena × SymbolTable × SemanticInfo} (h : accept? source bytes = some p) :
    Accepted p.1 p.2.1 p.2.2 := by
  unfold accept? at h
  split at h
  · cases h
  · next a' hparse =>
    split at h
    · cases h
    · next table₀ info₀ hbind =>
      split at h
      · cases h
      · next hcheck =>
        cases h
        exact ⟨source, bytes, table₀, info₀, hparse, hbind, hcheck⟩

/-- What acceptance establishes about the program at the root of an arena. -/
structure CheckedProgram (a : Arena) (u : UnitNode) (table : SymbolTable) (info : SemanticInfo) :
    Prop where
  layout : a.Layout 1 u
  bound : Binding.Bound a u table info.resolved
  typed : a.WellTyped u table info

namespace SymbolTable

variable {t : SymbolTable}

/-! ### Dropping the builtins -/

theorem entry_withoutBuiltins {e : Nat} {x : Entry} :
    t.withoutBuiltins.entry e = .ok x ↔
      ∃ y, t.entry e = .ok y ∧ x = { y with meaning := y.meaning.withoutBuiltins } := by
  simp only [withoutBuiltins, dropVacant, dropBuiltins, entry_eq_ok_iff, Array.getElem?_map,
    Option.map_eq_some_iff]
  constructor
  · rintro ⟨hpos, y, hy, rfl⟩
    exact ⟨y, ⟨hpos, hy⟩, rfl⟩
  · rintro ⟨y, ⟨hpos, hy⟩, rfl⟩
    exact ⟨hpos, y, hy, rfl⟩

theorem scope?_withoutBuiltins {c : Nat} :
    t.withoutBuiltins.scope? c = (t.scope? c).map fun s =>
      { s with symbols := s.symbols.filter fun b => !t.dropBuiltins.isVacant c b } := by
  cases c with
  | zero => rfl
  | succ i => simp [scope?, withoutBuiltins, dropVacant, dropBuiltins]

theorem scope?_withoutBuiltins_of_some {c : Nat} {s : Scope} (h : t.scope? c = some s) :
    t.withoutBuiltins.scope? c = some { s with
      symbols := s.symbols.filter fun b => !t.dropBuiltins.isVacant c b } := by
  rw [scope?_withoutBuiltins, h]
  rfl

theorem scope?_withoutBuiltins_some {c : Nat} {s : Scope}
    (h : t.withoutBuiltins.scope? c = some s) :
    ∃ s₀, t.scope? c = some s₀ ∧ s.parent = s₀.parent ∧ ∀ b ∈ s.symbols, b ∈ s₀.symbols := by
  rw [scope?_withoutBuiltins] at h
  obtain ⟨s₀, hs₀, rfl⟩ := Option.map_eq_some_iff.1 h
  exact ⟨s₀, hs₀, rfl, fun b hb => (List.mem_filter.1 hb).1⟩

/-- A variable keeps its entry. -/
theorem entry_withoutBuiltins_var {e : Nat} {x : Entry} {ty : Ty} {ref : Bool}
    {cls : VariableClass} {d : Nat} (hx : t.entry e = .ok x) (hm : x.meaning = .var ty ref cls d) :
    t.withoutBuiltins.entry e = .ok x := by
  refine entry_withoutBuiltins.2 ⟨x, hx, ?_⟩
  rw [hm]
  cases x
  simp_all [Meaning.withoutBuiltins]

/-- Filtering keeps the first binding of a name if it passes. -/
theorem lookup_filter {symbols : List (String × Nat)} {p : String × Nat → Bool} {name : String}
    {e : Nat} (h : symbols.lookup name = some e) (hp : p (name, e) = true) :
    (symbols.filter p).lookup name = some e := by
  induction symbols with
  | nil => simp at h
  | cons b rest ih =>
    obtain ⟨n, i⟩ := b
    rw [List.lookup_cons] at h
    split at h
    · next heq =>
      cases h
      obtain rfl := eq_of_beq heq
      simp [hp]
    · next hne =>
      rw [List.filter_cons]
      split
      · rw [List.lookup_cons, hne]
        exact ih h
      · exact ih h

/-- Records are found in the same way. -/
theorem lookupRecord_withoutBuiltins {name : String} {fields : List Field}
    (h : t.lookupRecord name = .ok (some fields)) :
    t.withoutBuiltins.lookupRecord name = .ok (some fields) := by
  obtain ⟨s, e, x, d, hs, he, hx, hm⟩ := lookupRecord_eq_some_iff.1 h
  have hmeaning : x.meaning.withoutBuiltins = x.meaning := by rw [hm]; rfl
  have hx' : t.withoutBuiltins.entry e = .ok x :=
    entry_withoutBuiltins.2 ⟨x, hx, by rw [hmeaning]⟩
  have hvacant : t.dropBuiltins.isVacant ScopeId.global (name, e) = false := by
    have hx'' : t.dropBuiltins.entry e = .ok x := hx'
    simp [isVacant, hx'', hm, Meaning.isVacant]
  exact lookupRecord_eq_some_iff.2 ⟨_, e, x, d, scope?_withoutBuiltins_of_some hs,
    lookup_filter he (by simp [hvacant]), hx', hm⟩

theorem Knows.withoutBuiltins {ty : Ty} (h : t.Knows ty) : t.withoutBuiltins.Knows ty := by
  intro name hname
  obtain ⟨fields, hfields⟩ := h name hname
  exact ⟨fields, lookupRecord_withoutBuiltins hfields⟩

end SymbolTable

namespace Binding

variable {a : Arena} {u : UnitNode} {t : SymbolTable}

theorem TableSound.withoutBuiltins (h : TableSound a u t) : TableSound a u t.withoutBuiltins := by
  refine ⟨?_, ?_, ?_, ?_⟩
  · intro c sc hc n e hmem
    obtain ⟨s₀, hs₀, -, hsub⟩ := SymbolTable.scope?_withoutBuiltins_some hc
    obtain ⟨x, hx, hn⟩ := h.names c s₀ hs₀ n e (hsub _ hmem)
    exact ⟨_, SymbolTable.entry_withoutBuiltins.2 ⟨x, hx, rfl⟩, hn⟩
  · intro e x hx
    obtain ⟨y, hy, rfl⟩ := SymbolTable.entry_withoutBuiltins.1 hx
    have hdesc := h.meanings e y hy
    cases hm : y.meaning with
    | function overloads =>
      rw [hm] at hdesc
      exact fun sig hsig => hdesc sig (List.mem_filter.1 hsig).1
    | _ => rw [hm] at hdesc; exact hdesc
  · obtain ⟨g, hg, hparent⟩ := h.root
    exact ⟨_, SymbolTable.scope?_withoutBuiltins_of_some hg, hparent⟩
  · intro g hg n e x ty ref kind d hmem hx hvar
    obtain ⟨g₀, hg₀, -, hsub⟩ := SymbolTable.scope?_withoutBuiltins_some hg
    obtain ⟨y, hy, rfl⟩ := SymbolTable.entry_withoutBuiltins.1 hx
    refine h.globals g₀ hg₀ n e y ty ref kind d (hsub _ hmem) hy ?_
    cases hm : y.meaning <;> simp_all [Meaning.withoutBuiltins]

theorem Resolves.withoutBuiltins {P : Nat → Prop} {resolved : Array (Option EntryId)} {v : Nat}
    (h : Resolves P t resolved v) : Resolves P t.withoutBuiltins resolved v := by
  obtain ⟨e, x, ty, ref, kind, d, he, hx, hm, hP⟩ := h
  exact ⟨e, x, ty, ref, kind, d, he, SymbolTable.entry_withoutBuiltins_var hx hm, hm, hP⟩

theorem Bound.withoutBuiltins {resolved : Array (Option EntryId)} (h : Bound a u t resolved) :
    Bound a u t.withoutBuiltins resolved :=
  ⟨h.sound.withoutBuiltins, fun id hid f hf r hr v name hv hkv =>
    (h.resolves id hid f hf r hr v name hv hkv).withoutBuiltins, h.main⟩

end Binding

namespace Arena

variable {a : Arena} {u : UnitNode} {t : SymbolTable} {info : SemanticInfo}

theorem Typed.withoutBuiltins {id : Nat} {ty : Ty} (h : a.Typed u t info id ty) :
    a.Typed u t.withoutBuiltins info id ty := by
  induction h with
  | int kind noted => exact .int kind noted
  | text kind noted => exact .text kind noted
  | bool kind noted => exact .bool kind noted
  | var kind resolved entry meaning noted =>
    exact .var kind resolved (SymbolTable.entry_withoutBuiltins_var entry meaning) meaning noted
  | field kind _ lookup found noted ih =>
    exact .field kind ih (SymbolTable.lookupRecord_withoutBuiltins lookup) found noted
  | element kind _ _ noted ih ih' => exact .element kind ih ih' noted
  | unary kind _ result place noted ih => exact .unary kind ih result place noted
  | binary kind _ _ result noted ih ih' => exact .binary kind ih ih' result noted
  | call kind signature arity target _ places noted ih =>
    exact .call kind signature arity target ih places noted

theorem Checked.withoutBuiltins {ret : Ty} {id : Nat} (h : a.Checked u t info ret id) :
    a.Checked u t.withoutBuiltins info ret id := by
  induction h with
  | block kind _ ih => exact .block kind ih
  | declare kind declaration known => exact .declare kind declaration known.withoutBuiltins
  | assign kind place typed => exact .assign kind place.withoutBuiltins typed.withoutBuiltins
  | callStatement kind call => exact .callStatement kind call.withoutBuiltins
  | branch kind test _ _ ih ih' => exact .branch kind test.withoutBuiltins ih ih'
  | loop kind test _ ih => exact .loop kind test.withoutBuiltins ih
  | ret kind typed void => exact .ret kind (fun v hv => (typed v hv).withoutBuiltins) void
  | empty kind => exact .empty kind

theorem WellTyped.withoutBuiltins (h : a.WellTyped u t info) :
    a.WellTyped u t.withoutBuiltins info := by
  have hdecl : ∀ {d}, a.KnownDeclaration t d → a.KnownDeclaration t.withoutBuiltins d :=
    fun hd b hb => (hd b hb).withoutBuiltins
  refine ⟨fun g hg => hdecl (h.globals g hg), fun id hid r hr d hd =>
    hdecl (h.records id hid r hr d hd), fun id hid f hf => ?_⟩
  obtain ⟨hresult, hparams, hbody⟩ := h.functions id hid f hf
  exact ⟨hresult.withoutBuiltins, fun p hp => hdecl (hparams p hp),
    fun r hr => (hbody r hr).withoutBuiltins⟩

end Arena

/-- Binding leaves the tables of the type checker blank. -/
theorem Arena.bind_blank {a : Arena} {t table : SymbolTable} {info : SemanticInfo}
    {r : Except (Failure SemanticError) Unit} (h : a.bind t = (r, table, info)) :
    info.types = (SemanticInfo.blank a.size).types ∧
      info.targets = (SemanticInfo.blank a.size).targets := by
  unfold Arena.bind at h
  cases h
  exact ⟨rfl, rfl⟩

/-- The members of a program that is read are laid out as trees. -/
theorem Arena.exists_complete_ofBytes {source : SourceId} {bytes : List UInt8} {a : Arena}
    (h : Arena.ofBytes source bytes = .ok a) : ∃ u, a.unit? = some u ∧ a.Complete u := by
  simp only [Arena.ofBytes, Outcome.bind_eq_ok, Outcome.pure_eq_ok] at h
  obtain ⟨tokens, -, program, hprogram, rfl⟩ := h
  exact Arena.exists_complete_ofProgram (Program.shaped_of_parse hprogram)

/-- The tables of an accepted program are right. -/
theorem Accepted.checkedProgram {a : Arena} {table : SymbolTable} {info : SemanticInfo}
    (h : Accepted a table info) : ∃ u, a.unit? = some u ∧ CheckedProgram a u table info := by
  obtain ⟨source, bytes, table₀, info₀, hparse, hbind, hcheck⟩ := h
  obtain ⟨u, hu, hcomplete⟩ := Arena.exists_complete_ofBytes hparse
  have hbound := Arena.bind_sound hu hcomplete.layout hbind
  have hsized : info₀.types.size = a.size ∧ info₀.targets.size = a.size := by
    obtain ⟨htypes, htargets⟩ := Arena.bind_blank hbind
    simp [htypes, htargets, SemanticInfo.blank]
  obtain ⟨hwell, hresolved, rfl⟩ := Arena.check_sound hu hcomplete.layout hbound.sound hsized hcheck
  exact ⟨u, hu, hcomplete.layout, hresolved ▸ hbound.withoutBuiltins, hwell.withoutBuiltins⟩

theorem Accepted.checked_of_unit {a : Arena} {table : SymbolTable} {info : SemanticInfo}
    {u : UnitNode} (h : Accepted a table info) (hu : a.unit? = some u) :
    CheckedProgram a u table info := by
  obtain ⟨u', hu', hprogram⟩ := h.checkedProgram
  cases hu.symm.trans hu'
  exact hprogram

/-! ### A program -/

namespace Sample

/-- A function of seven parameters that counts one of them up in the arguments of a call, passes a
call to a call, and divides. -/
def words : List String :=
  ["int", "f", "(", "int", "a", ",", "int", "b", ",", "int", "c", ",", "int", "d", ",", "int", "e",
    ",", "int", "g", ",", "int", "h", ")", "\x7b", "f", "(", "a", "++", ",", "b", ",", "c",
    ",", "d",
    ",", "e", ",", "g", ",", "f", "(", "1", ",", "2", ",", "3", ",", "4", ",", "5", ",", "6", ",",
    "a", ")", ")", ";", "return", "a", "%", "h", ";", "\x7d"]

/-- The words with a blank behind each. -/
def bytes : List UInt8 := words.flatMap fun w => w.toList.map (fun c => UInt8.ofNat c.toNat) ++ [32]

def program : Arena × SymbolTable × SemanticInfo := (accept? 2 bytes).get (by decide +kernel)

def arena : Arena := program.1

def table : SymbolTable := program.2.1

def info : SemanticInfo := program.2.2

theorem accept?_bytes : accept? 2 bytes = some program := by
  rw [program, Option.some_get]

attribute [irreducible] program

theorem accepted : Accepted arena table info :=
  accepted_of_accept? accept?_bytes

/-- The unit at the root. -/
def unit : UnitNode := arena.unit?.get (by decide +kernel)

theorem unit?_arena : arena.unit? = some unit := by
  rw [unit, Option.some_get]

/-- The function. -/
def function : FunctionNode :=
  ⟨"f", .int, [2, 3, 4, 5, 6, 7, 8], [25, 29]⟩

/-- There is one function. -/
theorem members : arena.kind 30 = .ok (.function function) ∧ unit.functions = [30] := by
  decide +kernel

theorem kind_function : arena.kind 30 = .ok (.function function) := members.1

theorem functions_unit : unit.functions = [30] := members.2

theorem function_mem : 30 ∈ unit.functions := by simp [functions_unit]

end Sample

end MiniJ
