import MiniJ.Proofs.Arena.Coverage
import MiniJ.Proofs.Lowering.Context

/-!
# Calls of an accepted program are resolved

The check between type checking and code generation looks at every node of the arena, whether the
program reaches it or not. It never fails: no call lies outside of the bodies of functions, and the
type checker settles each call in a body on a target, also in branches that never run and in
arguments it has tried against several overloads.

## Main statements

* `requireTargets_eq_ok_iff` — what the check asks for.
* `Accepted.targets_found` — the check passes on every accepted program.
-/
namespace MiniJ

variable {a : Arena} {u : UnitNode} {table : SymbolTable} {info : SemanticInfo}

theorem Arena.node?_eq_some_iff {id : Nat} {n : Node} :
    a.node? id = some n ↔ 0 < id ∧ a.nodes[id - 1]? = some n := by
  cases id <;> simp [Arena.node?]

/-- The check passes exactly when all calls of the arena have targets. -/
theorem requireTargets_eq_ok_iff : requireTargets a info = .ok () ↔
    ∀ id name args, a.kind id = .ok (.call name args) →
      ∃ target, info.callTarget id = some target := by
  have hall : requireTargets a info = .ok () ↔
      ∀ node id, 0 < id → a.nodes[id - 1]? = some node → isResolved info id node = true := by
    unfold requireTargets
    split <;> simp_all [List.mem_zipIdx_iff_le_and_getElem?_sub, Nat.succ_le_iff]
  simp only [hall, Arena.kind_eq_ok_iff, Arena.node_eq_ok_iff, Arena.node?_eq_some_iff]
  constructor
  · rintro h id name args ⟨span, hpos, hnode⟩
    simpa [isResolved, NodeKind.isCall, Option.isSome_iff_exists] using h _ id hpos hnode
  · intro h node id hpos hnode
    by_cases hcall : node.kind.isCall = true
    · obtain ⟨name, args, hk⟩ := NodeKind.exists_of_isCall hcall
      obtain ⟨target, htarget⟩ := h id name args ⟨node.span, hpos, by rw [hnode, ← hk]⟩
      simp [isResolved, htarget]
    · simp [isResolved, hcall]

/-- The arena of an accepted program is complete. -/
theorem Accepted.complete (h : Accepted a table info) :
    ∃ u, a.unit? = some u ∧ a.Complete u ∧ CheckedProgram a u table info := by
  obtain ⟨u, hu, hprogram⟩ := h.checkedProgram
  obtain ⟨source, bytes, table₀, info₀, hparse, -, -⟩ := h
  obtain ⟨u', hu', hcomplete⟩ := Arena.exists_complete_ofBytes hparse
  cases hu.symm.trans hu'
  exact ⟨u, hu, hcomplete, hprogram⟩

/-- Every call of an accepted program has a target, wherever it stands in the arena. So compilation
passes the check for unresolved calls and comes down to code generation. -/
theorem Accepted.targets_found (h : Accepted a table info) :
    (∀ id name args, a.kind id = .ok (.call name args) →
      ∃ target, info.callTarget id = some target) ∧
    requireTargets a info = .ok () ∧
    compileArena .check a = .ok { arena := a, info := info, table := table } ∧
    compileArena .generate a = (do
      let assembly ← (a.generate info table).mapError (·.map fun e => [⟨.error, e.message, e.span⟩])
      return { arena := a, info := info, table := table, assembly := assembly }) := by
  have hcalls : ∀ id name args, a.kind id = .ok (.call name args) →
      ∃ target, info.callTarget id = some target := by
    intro id name args hk
    obtain ⟨u, hu, hcomplete, hprogram⟩ := h.complete
    obtain ⟨d, hd, f, hf, r, hr, hbelow⟩ := hcomplete.exists_body hu hk (.inl rfl)
    obtain ⟨ty, htyped⟩ := hprogram.typed_below hd hf hr hbelow hk rfl
    obtain ⟨sig, -, -, htarget, -⟩ := htyped.call_cases hk
    exact ⟨_, htarget⟩
  have hpasses := requireTargets_eq_ok_iff.2 hcalls
  obtain ⟨source, bytes, table₀, info₀, -, hbind, hcheck⟩ := h
  refine ⟨hcalls, hpasses, ?_, ?_⟩ <;>
  · unfold compileArena
    rw [hbind]
    simp only [reduceCtorEq, if_false, hcheck, hpasses]
    rfl

/-- A call that stands in an argument of another call. -/
theorem Sample.inner_call_found : Accepted Sample.arena Sample.table Sample.info ∧
    (∃ target, Sample.info.callTarget 23 = some target) ∧
    compileArena .check Sample.arena =
      .ok { arena := Sample.arena, info := Sample.info, table := Sample.table } := by
  obtain ⟨hcalls, -, hcompile, -⟩ := accepted.targets_found
  exact ⟨accepted, hcalls 23 "f" [16, 17, 18, 19, 20, 21, 22] (by decide +kernel), hcompile⟩

end MiniJ
