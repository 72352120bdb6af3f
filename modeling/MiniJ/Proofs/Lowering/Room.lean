import MiniJ.Proofs.Arena.Depth
import MiniJ.Proofs.Lowering.Frame
import MiniJ.Proofs.Typing.Storage

/-!
# Frames that fit

The frame of a function of a checked program can be laid out as soon as the bytes it needs stay
below the limit of signed displacements.

## Main definitions

* `Frame.bytesNeeded` — the bytes of a frame, without a limit.

## Main statements

* `Frame.exists_layout` — a frame that fits is laid out.
-/
namespace MiniJ

open Outcome

namespace Frame

variable {a : Arena} {table : SymbolTable} {info : SemanticInfo} {f g : Frame} {b : Binder}
  {d index used : Nat} {taken : List NodeId}

/-! ### Bytes -/

/-- Least multiple of `unit` that is not below `n`. -/
def rounded (n unit : Nat) : Nat := (n + unit - 1) / unit * unit

/-- Bytes of a variable in a frame. -/
def bytesOf (table : SymbolTable) (b : Binder) : Nat :=
  if b.isReference then handleSize else table.bytes b.ty

/-- Bytes in use once a variable has got bytes of its own. -/
def extended (table : SymbolTable) (used : Nat) (b : Binder) : Nat :=
  rounded (used + bytesOf table b) (if b.ty = .bool then 4 else 8)

/-- What a node declares. -/
def declaredBy (a : Arena) (d : NodeId) : Option Binder := (a.kind d).toOption.bind NodeKind.binder?

/-- Whether the parameter with an index gets bytes in the frame: records are copied into it, and
registers whose address is taken are moved there. -/
def movesIn (taken : List NodeId) (index : Nat) (param : NodeId) (b : Binder) : Bool :=
  (b.ty.isRecord && !b.isReference) ||
    (decide (index < Register.arguments.length) && taken.contains param)

/-- The parameters from `index` on that get bytes in the frame. -/
def movedParameters (a : Arena) (taken : List NodeId) : Nat → List NodeId → List Binder
  | _, [] => []
  | index, param :: rest =>
    ((declaredBy a param).filter (movesIn taken index param)).toList ++
      movedParameters a taken (index + 1) rest

/-- The declarations of locals in some statements. -/
def localsIn (a : Arena) (body : List NodeId) : List NodeId :=
  body.flatMap fun r => (localsOf a r).toOption.getD []

/-- The variables whose address some statements take. -/
def addressesIn (a : Arena) (info : SemanticInfo) (table : SymbolTable) (body : List NodeId) :
    List NodeId :=
  body.flatMap fun r => (takenIn a info table r).toOption.getD []

/-- Bytes of the frame of a function. -/
def bytesNeeded (a : Arena) (info : SemanticInfo) (table : SymbolTable) (f : FunctionNode) : Nat :=
  let moved := movedParameters a (addressesIn a info table f.body) 0 f.params
  let locals := (localsIn a f.body).filterMap (declaredBy a)
  rounded ((moved ++ locals).foldl (extended table) 0) 16

theorem le_rounded {n unit : Nat} (hunit : 0 < unit) : n ≤ rounded n unit := by
  unfold rounded
  have hdiv := Nat.div_add_mod (n + unit - 1) unit
  have hmod := Nat.mod_lt (n + unit - 1) hunit
  rw [Nat.mul_comm] at hdiv
  omega

theorem roundUp_of_lt {n unit : Nat} (h : rounded n unit < sizeLimit) :
    roundUp n unit = .ok (rounded n unit) := if_pos h

theorem le_extended : used + bytesOf table b ≤ extended table used b :=
  le_rounded (by split <;> decide)

theorem le_foldl_extended {bs : List Binder} : used ≤ bs.foldl (extended table) used := by
  induction bs generalizing used with
  | nil => exact Nat.le_refl _
  | cons b bs ih =>
    have hfirst : used + bytesOf table b ≤ extended table used b := le_extended
    have hrest : extended table used b ≤ _ := ih
    rw [List.foldl_cons]
    omega

theorem declaredBy_eq (h : a.kind d = .ok (.declaration b)) : declaredBy a d = some b := by
  simp [declaredBy, h, Except.toOption, NodeKind.binder?]

/-! ### Variables -/

theorem slotSize_of_storable {span : Span} (hcompact : table.Compact) (hb : table.Storable b.ty) :
    slotSize table b span = .ok (bytesOf table b) := by
  unfold slotSize bytesOf
  split
  · rfl
  · exact bind_eq_ok.2 ⟨_, lift_eq_ok.2 (hcompact.sizeOf_eq hb), rfl⟩

/-- Bytes below the ones in use. -/
theorem allocate_of_lt (h : extended table f.size b < 2147483648) :
    f.allocate (bytesOf table b) b.ty = .ok (-SymbolTable.displacement (extended table f.size b),
      { f with size := extended table f.size b }) := by
  have hle : f.size + bytesOf table b ≤ extended table f.size b := le_extended
  have hsum : addSize f.size (bytesOf table b) = .ok (f.size + bytesOf table b) :=
    addSize_eq_ok.2 ⟨by unfold sizeLimit; omega, rfl⟩
  have hround : roundUp (f.size + bytesOf table b) (if b.ty = .bool then 4 else 8) =
      .ok (extended table f.size b) :=
        roundUp_of_lt (by unfold extended at h; unfold sizeLimit; omega)
  have hrange : Address.inRange (-SymbolTable.displacement (extended table f.size b)) = true := by
    rw [SymbolTable.displacement_of_lt h]
    simp only [Address.inRange, Bool.and_eq_true, decide_eq_true_eq]
    omega
  refine bind_eq_ok.2 ⟨_, hsum, bind_eq_ok.2 ⟨_, hround, ?_⟩⟩
  simp [hrange, pure, Except.pure]

theorem exists_addLocal (hcompact : table.Compact) (hd : a.kind d = .ok (.declaration b))
    (hb : table.Storable b.ty) (h : extended table f.size b < 2147483648) :
    ∃ g, addLocal a table f d = .ok g ∧ g.size = extended table f.size b := by
  obtain ⟨span, hnode⟩ := Arena.kind_eq_ok_iff.1 hd
  simp only [addLocal, hnode, lift_ok, ok_bind, NodeKind.binder?, slotSize_of_storable hcompact hb,
    allocate_of_lt h]
  exact ⟨_, rfl, rfl⟩

theorem incoming_register_iff :
    (∃ r, incoming index = .register r) ↔ index < Register.arguments.length := by
  rcases incoming_cases index with ⟨r, hr, hin⟩ | ⟨hindex, hin⟩
  · exact ⟨fun _ => (List.getElem?_eq_some_iff.1 hr).1, fun _ => ⟨r, hin⟩⟩
  · have hlength : Register.arguments.length = 6 := rfl
    constructor
    · rintro ⟨r, hr⟩
      cases hr.symm.trans hin
    · omega

theorem copied_eq_false (h : ∀ record, b.ty = .record record → b.isReference = false → False) :
    (b.ty.isRecord && !b.isReference) = false := by
  have hfits : (slotOf b (incoming 0)).FitsWord := fitsWord_of_not_record h
  rcases hfits with href | hplain
  · simp_all [slotOf]
  · simp_all [slotOf]

/-- A parameter is added, with bytes in the frame if it moves in. -/
theorem exists_addParameter (hcompact : table.Compact) (hd : a.kind d = .ok (.declaration b))
    (hb : table.Storable b.ty)
    (h : movesIn taken index d b = true → extended table f.size b < 2147483648) :
    ∃ g, addParameter a table taken f index d = .ok g ∧
      g.size = if movesIn taken index d b then extended table f.size b else f.size := by
  obtain ⟨span, hnode⟩ := Arena.kind_eq_ok_iff.1 hd
  simp only [addParameter, hnode, lift_ok, ok_bind, NodeKind.binder?]
  split
  · next record hty href =>
    have hmoves : movesIn taken index d b = true := by simp [movesIn, hty, href, Ty.isRecord]
    rw [if_pos hmoves, slotSize_of_storable hcompact hb, ok_bind, allocate_of_lt (h hmoves),
      lift_ok, ok_bind]
    exact ⟨_, rfl, rfl⟩
  · next r hr hrecord =>
    have hindex := incoming_register_iff.1 ⟨r, hr⟩
    split
    · next htaken =>
      have hmoves : movesIn taken index d b = true := by
        rw [movesIn, htaken, Bool.and_true, decide_eq_true hindex, Bool.or_true]
      rw [if_pos hmoves, slotSize_of_storable hcompact hb, ok_bind, allocate_of_lt (h hmoves),
        lift_ok, ok_bind]
      exact ⟨_, rfl, rfl⟩
    · next htaken =>
      have hmoves : movesIn taken index d b = false := by
        rw [movesIn, copied_eq_false hrecord, Bool.false_or, Bool.eq_false_iff.2 htaken,
          Bool.and_false]
      rw [if_neg (by simp [hmoves])]
      exact ⟨_, rfl, rfl⟩
  · next hrecord hregister =>
    have hindex : ¬index < Register.arguments.length := by
      rw [← incoming_register_iff]
      rintro ⟨r, hr⟩
      exact hregister r hr
    have hmoves : movesIn taken index d b = false := by
      rw [movesIn, copied_eq_false hrecord, Bool.false_or, decide_eq_false hindex, Bool.false_and]
    rw [if_neg (by simp [hmoves])]
    exact ⟨_, rfl, rfl⟩

theorem exists_addParameters {params : List NodeId} (hcompact : table.Compact)
    (hparams : ∀ p ∈ params, ∃ b, a.kind p = .ok (.declaration b) ∧ table.Storable b.ty)
    (h : (movedParameters a taken index params).foldl (extended table) f.size < 2147483648) :
    ∃ g, addParameters a table taken index params f = .ok g ∧
      g.size = (movedParameters a taken index params).foldl (extended table) f.size := by
  induction params generalizing index f with
  | nil => exact ⟨f, rfl, rfl⟩
  | cons p params ih =>
    obtain ⟨b, hb, hstorable⟩ := hparams p (by simp)
    rw [movedParameters, declaredBy_eq hb, List.foldl_append] at h ⊢
    have hroom : movesIn taken index p b = true → extended table f.size b < 2147483648 := by
      intro hmoves
      have hle : extended table f.size b ≤ (movedParameters a taken (index + 1) params).foldl
          (extended table) (extended table f.size b) := le_foldl_extended
      simp only [Option.filter_some, hmoves, if_true, Option.toList_some, List.foldl_cons,
        List.foldl_nil] at h
      omega
    obtain ⟨f', hf', hsize⟩ := exists_addParameter hcompact hb hstorable hroom
    have hfirst : ((some b).filter (movesIn taken index p)).toList.foldl (extended table) f.size =
        f'.size := by
      rw [hsize, Option.filter_some]
      split <;> rfl
    rw [hfirst] at h ⊢
    obtain ⟨g, hg, hgsize⟩ := ih (fun q hq => hparams q (by simp [hq])) h
    exact ⟨g, bind_eq_ok.2 ⟨f', hf', hg⟩, hgsize⟩

theorem exists_addLocals {ids : List NodeId} (hcompact : table.Compact)
    (hids : ∀ d ∈ ids, ∃ b, a.kind d = .ok (.declaration b) ∧ table.Storable b.ty)
    (h : (ids.filterMap (declaredBy a)).foldl (extended table) f.size < 2147483648) :
    ∃ g, ids.foldlM (addLocal a table) f = .ok g ∧
      g.size = (ids.filterMap (declaredBy a)).foldl (extended table) f.size := by
  induction ids generalizing f with
  | nil => exact ⟨f, rfl, rfl⟩
  | cons d ids ih =>
    obtain ⟨b, hb, hstorable⟩ := hids d (by simp)
    rw [List.filterMap_cons_some (declaredBy_eq hb), List.foldl_cons] at h ⊢
    have hle : extended table f.size b ≤ (ids.filterMap (declaredBy a)).foldl (extended table)
        (extended table f.size b) := le_foldl_extended
    obtain ⟨f', hf', hsize⟩ := exists_addLocal hcompact hb hstorable (f := f) (by omega)
    rw [← hsize] at h ⊢
    obtain ⟨g, hg, hgsize⟩ := ih (fun q hq => hids q (by simp [hq])) h
    exact ⟨g, foldlM_cons_eq_ok.2 ⟨f', hf', hg⟩, hgsize⟩

/-! ### Functions -/

theorem exists_localsOf {r lo : Nat} (h : a.Tree lo r) : ∃ ids, localsOf a r = .ok ids := by
  obtain ⟨nodes, hnodes⟩ := h.walk
  obtain ⟨kinds, hkinds⟩ : ∃ kinds, nodes.mapM a.kind = .ok kinds := exists_mapM fun x hx =>
    (h.within.below ((Arena.mem_walk hnodes x).1 hx)).kind
  refine ⟨_, bind_eq_ok.2 ⟨nodes, hnodes, bind_eq_ok.2 ⟨kinds, hkinds, rfl⟩⟩⟩

theorem typed_kind {u : UnitNode} {id : Nat} {ty : Ty} (h : a.Typed u table info id ty) :
    ∃ k, a.kind id = .ok k := by
  cases h <;> exact ⟨_, by assumption⟩

theorem exists_takenBy {u : UnitNode} {arg param : Nat} {ty : Ty}
    (harg : a.Typed u table info arg ty) (hparam : a.IsDeclaration param) :
    ∃ found, takenBy a info table arg param = .ok found := by
  obtain ⟨b, hb⟩ := hparam
  simp only [takenBy, Arena.binder?_eq_ok hb, ok_bind]
  split
  · exact ⟨_, rfl⟩
  · obtain ⟨k, hk⟩ := typed_kind harg
    rw [hk, ok_bind]
    split
    · cases harg with
      | var kind resolved entry meaning =>
        rw [resolved]
        dsimp only
        rw [entry, ok_bind, meaning]
        exact ⟨_, rfl⟩
      | _ => simp_all
    · exact ⟨_, rfl⟩

theorem exists_takenAt {u : UnitNode} {id : Nat} {k : NodeKind}
    (hprogram : CheckedProgram a u table info) (hk : a.kind id = .ok k)
    (htyped : k.isCall = true → ∃ ty, a.Typed u table info id ty) :
    ∃ found, takenAt a info table id = .ok found := by
  simp only [takenAt, hk, ok_bind]
  split
  · next name args callee htarget =>
    obtain ⟨ty, hty⟩ := htyped rfl
    obtain ⟨sig, hsig, -, htarget', -⟩ := hty.call_cases hk
    rw [htarget', Typing.target] at htarget
    split at htarget
    · next d hd =>
      cases htarget
      obtain ⟨hmem, g, hg, -⟩ := hsig.function hd
      rw [Arena.function?_eq_ok hg, ok_bind]
      obtain ⟨found, hfound⟩ : ∃ found, (args.zip g.params).mapM
          (fun p => takenBy a info table p.1 p.2) = .ok found := exists_mapM fun p hp => by
        obtain ⟨_, harg⟩ := hty.child hk (List.of_mem_zip hp).1
        exact exists_takenBy harg (hprogram.params_declared hmem hg (List.of_mem_zip hp).2)
      exact ⟨_, bind_eq_ok.2 ⟨found, hfound, rfl⟩⟩
    · cases htarget
  · exact ⟨_, rfl⟩

theorem exists_takenIn {u : UnitNode} {fid r lo : Nat} {function : FunctionNode}
    (hprogram : CheckedProgram a u table info) (hfid : fid ∈ u.functions)
    (hf : a.kind fid = .ok (.function function)) (hr : r ∈ function.body) (htree : a.Tree lo r) :
    ∃ found, takenIn a info table r = .ok found := by
  obtain ⟨nodes, hnodes⟩ := htree.walk
  obtain ⟨lists, hlists⟩ : ∃ lists, nodes.mapM (takenAt a info table) = .ok lists :=
      exists_mapM fun x hx => by
    have hbelow := (Arena.mem_walk hnodes x).1 hx
    obtain ⟨k, hk⟩ := (htree.within.below hbelow).kind
    refine exists_takenAt hprogram hk fun hcall => ?_
    obtain ⟨name, args, rfl⟩ := NodeKind.exists_of_isCall hcall
    exact hprogram.typed_below hfid hf hr hbelow hk rfl
  exact ⟨_, bind_eq_ok.2 ⟨nodes, hnodes, bind_eq_ok.2 ⟨lists, hlists, rfl⟩⟩⟩

theorem flatMap_getD_of_mapM {α : Type} {x : NodeId → Except Fault (List α)} {body : List NodeId}
    {lists : List (List α)} (h : body.mapM x = .ok lists) :
    (body.flatMap fun r => (x r).toOption.getD []) = lists.flatten := by
  rw [mapM_eq_ok] at h
  induction h with
  | nil => rfl
  | cons hx _ ih =>
    rw [List.flatMap_cons, List.flatten_cons, ih, hx]
    rfl

theorem foldlM_addLocals {body : List NodeId} {lists : List (List NodeId)}
    (h : body.mapM (localsOf a) = .ok lists) :
    body.foldlM (addLocals a table) f = lists.flatten.foldlM (addLocal a table) f := by
  rw [mapM_eq_ok] at h
  induction h generalizing f with
  | nil => rfl
  | cons hx _ ih =>
    rw [List.foldlM_cons, List.flatten_cons, List.foldlM_append, addLocals, hx, lift_ok, ok_bind]
    congr 1
    funext f'
    exact ih

/-- The frame of a function is laid out if its bytes stay below the limit. -/
theorem exists_layout {u : UnitNode} {fid : Nat} {function : FunctionNode}
    (hprogram : CheckedProgram a u table info) (hcompact : table.Compact)
    (hfid : fid ∈ u.functions) (hf : a.kind fid = .ok (.function function))
    (h : bytesNeeded a info table function < 2147483648) :
    ∃ g, layout a info table function = .ok g ∧ g.size = bytesNeeded a info table function := by
  obtain ⟨-, start, htree⟩ := hprogram.layout.function_tree hfid
  have hbody : ∀ r ∈ function.body, ∃ lo, a.Tree lo r := by
    intro r hr
    obtain ⟨lo, hlo, -⟩ := htree.child hf (List.mem_append_right _ hr)
    exact ⟨lo, hlo⟩
  obtain ⟨taken, htaken⟩ : ∃ taken, function.body.mapM (takenIn a info table) = .ok taken :=
    exists_mapM
    fun r hr => exists_takenIn hprogram hfid hf hr (hbody r hr).choose_spec
  obtain ⟨lists, hlists⟩ : ∃ lists, function.body.mapM (localsOf a) = .ok lists := exists_mapM
    fun r hr => exists_localsOf (hbody r hr).choose_spec
  have hlocals : ∀ d ∈ lists.flatten, ∃ b, a.kind d = .ok (.declaration b) ∧
      table.Storable b.ty := by
    intro d hd
    obtain ⟨ids, hids, hd⟩ := List.mem_flatten.1 hd
    obtain ⟨r, hr, hrids⟩ := exists_of_forall₂_right (mapM_eq_ok.1 hlists) hids
    obtain ⟨x, hx, hk⟩ := (mem_localsOf hrids).1 hd
    obtain ⟨lo, hlo⟩ := hbody r hr
    obtain ⟨lo', hsub, -⟩ := hlo.sub hx
    have hroles := hsub.roles hk
    simp only [NodeKind.partRoles, NodeKind.children, List.forall₂_cons] at hroles
    obtain ⟨b, hb⟩ := hroles.1.isDeclaration
    exact ⟨b, hb, hprogram.storable_local hfid hf hr hx hk hb⟩
  have hparams : ∀ p ∈ function.params, ∃ b, a.kind p = .ok (.declaration b) ∧
      table.Storable b.ty := by
    intro p hp
    obtain ⟨b, hb⟩ := hprogram.params_declared hfid hf hp
    exact ⟨b, hb, hprogram.storable_param hfid hf hp hb⟩
  -- bytes after the parameters, after the locals, and rounded up
  obtain ⟨moved, hmoved⟩ : ∃ n, n =
      (movedParameters a taken.flatten 0 function.params).foldl (extended table) 0 := ⟨_, rfl⟩
  obtain ⟨used, hused⟩ : ∃ n, n =
      (lists.flatten.filterMap (declaredBy a)).foldl (extended table) moved := ⟨_, rfl⟩
  have htotal : bytesNeeded a info table function = rounded used 16 := by
    rw [hused, hmoved, bytesNeeded, addressesIn, localsIn, flatMap_getD_of_mapM htaken,
      flatMap_getD_of_mapM hlists, List.foldl_append]
  have hround : used ≤ rounded used 16 := le_rounded (by decide)
  have hmono : moved ≤ used := hused ▸ le_foldl_extended
  rw [htotal] at h ⊢
  have hparameters : ∃ g, addParameters a table taken.flatten 0 function.params {} = .ok g ∧
      g.size = moved :=
    hmoved ▸ exists_addParameters hcompact hparams (show _ < _ from hmoved ▸ (by omega))
  obtain ⟨f₁, hf₁, rfl⟩ := hparameters
  have hadded : ∃ g, lists.flatten.foldlM (addLocal a table) f₁ = .ok g ∧ g.size = used :=
    hused ▸ exists_addLocals hcompact hlocals (hused ▸ (by omega))
  obtain ⟨f₂, hf₂, rfl⟩ := hadded
  refine ⟨{ f₂ with size := rounded f₂.size 16 }, ?_, rfl⟩
  simp only [layout, bind_eq_ok, lift_eq_ok, pure_eq_ok]
  refine ⟨taken, htaken, f₁, hf₁, f₂, (foldlM_addLocals hlists).trans hf₂, _, ?_, rfl⟩
  exact roundUp_of_lt (by unfold sizeLimit; omega)

end Frame

end MiniJ
