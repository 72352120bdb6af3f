import MiniJ.Arena

/-!
# Arenas that differ in containers

Blocks, branches, loops and units hold statements or members. Most of what reads an arena does not
look into them, so it does not notice when a container is replaced by another one.

## Main definitions

* `NodeKind.isContainer` — nodes that hold statements or members.
* `NodeKind.Blind` — what does not tell containers apart.
* `Arena.Alike` — two arenas with the same nodes, up to what their containers hold.
-/
namespace MiniJ

namespace NodeKind

/-- Nodes that hold statements or members. -/
def isContainer : NodeKind → Bool
  | block _ | branch .. | loop .. | unit _ => true
  | _ => false

/-- All containers are treated as placeholders are. -/
structure Blind {β : Type} (f : NodeKind → β) : Prop where
  block : ∀ body, f (.block body) = f .dummy
  branch : ∀ condition onTrue onFalse, f (.branch condition onTrue onFalse) = f .dummy
  loop : ∀ condition body, f (.loop condition body) = f .dummy
  unit : ∀ u, f (.unit u) = f .dummy

theorem Blind.eq {β : Type} {f : NodeKind → β} (h : Blind f) {k : NodeKind}
    (hk : k.isContainer = true) : f k = f .dummy := by
  cases k with
  | block body => exact h.block body
  | branch condition onTrue onFalse => exact h.branch condition onTrue onFalse
  | loop condition body => exact h.loop condition body
  | unit u => exact h.unit u
  | _ => cases hk

/-- Treating nodes further does not tell containers apart. -/
theorem Blind.comp {β γ : Type} {f : NodeKind → β} (h : Blind f) (g : β → γ) :
    Blind fun k => g (f k) :=
  ⟨fun body => congrArg g (h.block body), fun c t e => congrArg g (h.branch c t e),
    fun c body => congrArg g (h.loop c body), fun u => congrArg g (h.unit u)⟩

theorem blind_isCall : Blind isCall :=
  ⟨fun _ => rfl, fun _ _ _ => rfl, fun _ _ => rfl, fun _ => rfl⟩

theorem blind_isReturn : Blind isReturn :=
  ⟨fun _ => rfl, fun _ _ _ => rfl, fun _ _ => rfl, fun _ => rfl⟩

theorem blind_binder? : Blind binder? :=
  ⟨fun _ => rfl, fun _ _ _ => rfl, fun _ _ => rfl, fun _ => rfl⟩

theorem blind_function? : Blind function? :=
  ⟨fun _ => rfl, fun _ _ _ => rfl, fun _ _ => rfl, fun _ => rfl⟩

end NodeKind

/-- The same node, or two containers that were read from the same text. -/
def Node.Alike (n n' : Node) : Prop :=
  n = n' ∨ n.span = n'.span ∧ n.kind.isContainer = true ∧ n'.kind.isContainer = true

theorem Node.Alike.span {n n' : Node} (h : n.Alike n') : n.span = n'.span := by
  rcases h with rfl | ⟨hspan, -⟩
  · rfl
  · exact hspan

theorem Node.Alike.kind {β : Type} {n n' : Node} (h : n.Alike n') {f : NodeKind → β}
    (hf : NodeKind.Blind f) : f n.kind = f n'.kind := by
  rcases h with rfl | ⟨-, hk, hk'⟩
  · rfl
  · rw [hf.eq hk, hf.eq hk']

/-- Two arenas with the same nodes, up to what their containers hold. -/
structure Arena.Alike (a a' : Arena) : Prop where
  size : a.size = a'.size
  node : ∀ id, (∃ e, a.node id = .error e ∧ a'.node id = .error e) ∨
    ∃ n n', a.node id = .ok n ∧ a'.node id = .ok n' ∧ n.Alike n'

namespace Arena.Alike

variable {a a' : Arena}

theorem binder? (h : a.Alike a') (id : NodeId) : a.binder? id = a'.binder? id := by
  unfold Arena.binder? Arena.kind
  rcases h.node id with ⟨e, he, he'⟩ | ⟨n, n', hn, hn', halike⟩
  · rw [he, he']
  · rw [hn, hn']
    exact congrArg Except.ok (halike.kind NodeKind.blind_binder?)

theorem function? (h : a.Alike a') (id : NodeId) : a.function? id = a'.function? id := by
  unfold Arena.function? Arena.kind
  rcases h.node id with ⟨e, he, he'⟩ | ⟨n, n', hn, hn', halike⟩
  · rw [he, he']
  · rw [hn, hn']
    exact congrArg Except.ok (halike.kind NodeKind.blind_function?)

/-- What does not look into containers reads the same. -/
theorem kind_bind {β : Type} {f : NodeKind → Except Fault β} (h : a.Alike a')
    (hf : NodeKind.Blind f) (id : NodeId) : (a.kind id >>= f) = (a'.kind id >>= f) := by
  unfold Arena.kind
  rcases h.node id with ⟨e, he, he'⟩ | ⟨n, n', hn, hn', halike⟩
  · rw [he, he']
  · rw [hn, hn']
    exact halike.kind hf

theorem symm (h : a.Alike a') : a'.Alike a where
  size := h.size.symm
  node id := by
    rcases h.node id with ⟨e, he, he'⟩ | ⟨n, n', hn, hn', halike⟩
    · exact .inl ⟨e, he', he⟩
    · refine .inr ⟨n', n, hn', hn, ?_⟩
      rcases halike with rfl | ⟨hspan, hk, hk'⟩
      · exact .inl rfl
      · exact .inr ⟨hspan.symm, hk', hk⟩

/-- No container is a variable. -/
theorem kind_of_var (h : a.Alike a') {id : NodeId} {name : String}
    (hk : a.kind id = .ok (.var name)) :
    a'.kind id = .ok (.var name) := by
  unfold Arena.kind at hk ⊢
  rcases h.node id with ⟨e, he, he'⟩ | ⟨n, n', hn, hn', halike⟩
  · rw [he] at hk
    cases hk
  · rw [hn] at hk
    rw [hn']
    rcases halike with rfl | ⟨-, hcontainer, -⟩
    · exact hk
    · rw [Except.ok.inj hk] at hcontainer
      cases hcontainer

theorem depthLimit (h : a.Alike a') : a.depthLimit = a'.depthLimit := by
  rw [Arena.depthLimit, Arena.depthLimit, h.size]

end Arena.Alike

end MiniJ
