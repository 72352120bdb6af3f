import MiniJ.Proofs.Lowering.Frame

/-!
# Variables in their frames

Which storage each variable of a function gets. Locals, records passed by value and register
parameters that are passed on by reference have bytes of their own below the frame pointer; the
other parameters stay where the caller puts them. A reference takes a handle, but is aligned for the
type it refers to.

## Main definitions

* `Frame.PassedIn` — the variables that a body passes by reference.
* `Frame.Arranged` — the storage of all variables of a function.

## Main statements

* `Accepted.frame_arranged` — frames of accepted programs are arranged.
-/
namespace MiniJ

open Outcome

namespace Arena

variable {a : Arena}

theorem binder?_eq_ok_iff {d : Nat} {b : Binder} :
    a.binder? d = .ok (some b) ↔ a.kind d = .ok (.declaration b) := by
  refine ⟨fun h => ?_, binder?_eq_ok⟩
  obtain ⟨k, hk, hb⟩ := bind_eq_ok.1 h
  cases k with
  | declaration b' =>
    cases pure_eq_ok.1 hb
    exact hk
  | _ => cases hb

theorem function?_eq_ok_iff {d : Nat} {f : FunctionNode} :
    a.function? d = .ok (some f) ↔ a.kind d = .ok (.function f) := by
  refine ⟨fun h => ?_, function?_eq_ok⟩
  obtain ⟨k, hk, hf⟩ := bind_eq_ok.1 h
  cases k with
  | function f' =>
    cases pure_eq_ok.1 hf
    exact hk
  | _ => cases hf

/-- The parts of a tiling lie behind each other. -/
theorem Tiles.pairwise {lo id : Nat} {parts : List (Nat × Nat)} (hp : ∀ p ∈ parts, p.2 < p.1)
    (h : Tiles lo parts id) : parts.Pairwise fun p q => p.1 ≤ q.2 ∧ q.2 < q.1 := by
  induction parts generalizing lo with
  | nil => exact .nil
  | cons p parts ih =>
    have hparts : ∀ q ∈ parts, q.2 < q.1 := fun q hq => hp q (by simp [hq])
    exact .cons (fun q hq => ⟨((h.2.bounds hparts).2 q hq).1, hparts q hq⟩) (ih hparts h.2)

/-- The parameters of a function are different nodes, and none of them lies in its body. -/
theorem Tree.params_apart {lo id : Nat} {f : FunctionNode} (h : a.Tree lo id)
    (hf : a.kind id = .ok (.function f)) :
    f.params.Nodup ∧ ∀ p ∈ f.params, ∀ r ∈ f.body, ¬a.Below r p := by
  obtain ⟨parts, kind, -, children, tiles, -, below⟩ := h
  cases hf.symm.trans kind
  have hpairs := tiles.pairwise fun p hp => (below p hp).lt
  obtain ⟨params, body, rfl, hparams, hbody⟩ := List.map_eq_append_iff.1 children
  obtain ⟨hfirst, -, hcross⟩ := List.pairwise_append.1 hpairs
  constructor
  · rw [← hparams, List.Nodup, List.pairwise_map]
    exact hfirst.imp fun hbehind => Nat.ne_of_lt (hbehind.1.trans_lt hbehind.2)
  · intro p hp r hr hbelow
    rw [← hparams] at hp
    rw [← hbody] at hr
    obtain ⟨q, hq, rfl⟩ := List.mem_map.1 hp
    obtain ⟨s, hs, rfl⟩ := List.mem_map.1 hr
    obtain ⟨start, htree, hstart, -⟩ := (below s (by simp [hs])).sub hbelow
    have hbehind := (hcross q hq s hs).1
    have hlt := htree.lt
    omega

end Arena

/-- A record that is passed by value. -/
def Binder.isCopied (b : Binder) : Bool := b.ty.isRecord && !b.isReference

/-- Bytes of a variable in memory: `n` of them from the displacement `o` on. What lies above the
frame pointer was pushed in words. -/
def Slot.Spans (table : SymbolTable) (slot : Slot) (o : Int) (n : Nat) : Prop :=
  slot.storage = .frame o ∧ if 0 < o then n = 8 else slot.Takes table n

namespace Frame

variable {a : Arena} {table : SymbolTable} {info : SemanticInfo} {f g : Frame} {b : Binder}
  {d x index : Nat} {taken : List NodeId} {function : FunctionNode}

/-! ### Variables passed by reference -/

/-- An argument names the variable of a declaration, and its parameter is a reference. -/
structure PassedTo (a : Arena) (info : SemanticInfo) (table : SymbolTable)
    (arg param d : NodeId) : Prop where
  reference : ∃ b, a.kind param = .ok (.declaration b) ∧ b.isReference = true
  named : ∃ name, a.kind arg = .ok (.var name)
  resolved : ∃ e x ty ref cls, info.resolvedEntry arg = some e ∧ table.entry e = .ok x ∧
    x.meaning = .var ty ref cls d

/-- The node is a call that passes the variable of a declaration by reference. -/
def PassedAt (a : Arena) (info : SemanticInfo) (table : SymbolTable) (id d : NodeId) : Prop :=
  ∃ name args callee f, a.kind id = .ok (.call name args) ∧
    info.callTarget id = some (.function callee) ∧ a.kind callee = .ok (.function f) ∧
    ∃ p ∈ args.zip f.params, PassedTo a info table p.1 p.2 d

/-- Some call in the body of a function passes the variable of a declaration by reference. -/
def PassedIn (a : Arena) (info : SemanticInfo) (table : SymbolTable) (f : FunctionNode)
    (d : NodeId) : Prop :=
  ∃ r ∈ f.body, ∃ id, a.Below r id ∧ PassedAt a info table id d

theorem takenBy_eq_ok_iff {arg param : Nat} {o : Option NodeId}
    (h : takenBy a info table arg param = .ok o) : o = some d ↔
    PassedTo a info table arg param d := by
  constructor
  · rintro rfl
    obtain ⟨o, hbinder, hrest⟩ := bind_eq_ok.1 h
    cases o with
    | none => cases hrest
    | some b =>
      cases href : b.isReference with
      | false =>
        simp only [Option.any_some, href, Bool.not_false, if_true] at hrest
        cases hrest
      | true =>
        simp only [Option.any_some, href, Bool.not_true, Bool.false_eq_true, if_false] at hrest
        obtain ⟨k, hk, hmatch⟩ := bind_eq_ok.1 hrest
        split at hmatch
        · next name =>
          split at hmatch
          · cases hmatch
          · next e he =>
            obtain ⟨x, hx, hmeaning⟩ := bind_eq_ok.1 hmatch
            split at hmeaning
            · next ty ref cls declaration hvar =>
              cases pure_eq_ok.1 hmeaning
              exact ⟨⟨b, Arena.binder?_eq_ok_iff.1 hbinder, href⟩, ⟨name, hk⟩,
                ⟨e, x, ty, ref, cls, he, hx, hvar⟩⟩
            · cases hmeaning
        · cases hmatch
  · rintro ⟨⟨b, hb, href⟩, ⟨name, hk⟩, e, x, ty, ref, cls, he, hx, hmeaning⟩
    exact Except.ok.inj (h.symm.trans (takenBy_eq hb href hk he hx hmeaning))

theorem mem_takenAt_iff {id : Nat} {found : List NodeId}
    (h : takenAt a info table id = .ok found) : d ∈ found ↔ PassedAt a info table id d := by
  constructor
  · intro hd
    obtain ⟨k, hk, hmatch⟩ := bind_eq_ok.1 h
    split at hmatch
    · next name args callee htarget =>
      obtain ⟨o, hfunction, hrest⟩ := bind_eq_ok.1 hmatch
      cases o with
      | none =>
        cases pure_eq_ok.1 hrest
        cases hd
      | some f =>
        obtain ⟨lists, hlists, hpure⟩ := bind_eq_ok.1 hrest
        cases pure_eq_ok.1 hpure
        obtain ⟨o, ho, rfl⟩ := List.mem_filterMap.1 hd
        obtain ⟨p, hp, htaken⟩ := exists_of_forall₂_right (mapM_eq_ok.1 hlists) ho
        exact ⟨name, args, callee, f, hk, htarget, Arena.function?_eq_ok_iff.1 hfunction, p, hp,
          (takenBy_eq_ok_iff htaken).1 rfl⟩
    · cases pure_eq_ok.1 hmatch
      cases hd
  · rintro ⟨name, args, callee, f, hk, htarget, hf, ⟨arg, param⟩, hp, hpassed⟩
    obtain ⟨⟨b, hb, href⟩, ⟨variableName, hvar⟩, e, x, ty, ref, cls, he, hx, hmeaning⟩ := hpassed
    exact mem_takenAt hk htarget (Arena.function?_eq_ok hf) hp
      (takenBy_eq hb href hvar he hx hmeaning) h

theorem mem_takenIn_iff {statement : Nat} {found : List NodeId}
    (h : takenIn a info table statement = .ok found) :
    d ∈ found ↔ ∃ id, a.Below statement id ∧ PassedAt a info table id d := by
  simp only [takenIn, bind_eq_ok, mapM_eq_ok, pure_eq_ok] at h
  obtain ⟨nodes, hnodes, lists, hlists, rfl⟩ := h
  rw [List.mem_flatten]
  constructor
  · rintro ⟨ids, hids, hd⟩
    obtain ⟨id, hid, htaken⟩ := exists_of_forall₂_right hlists hids
    exact ⟨id, (Arena.mem_walk hnodes id).1 hid, (mem_takenAt_iff htaken).1 hd⟩
  · rintro ⟨id, hid, hpassed⟩
    obtain ⟨ids, hids, htaken⟩ := exists_of_forall₂_left hlists ((Arena.mem_walk hnodes id).2 hid)
    exact ⟨ids, hids, (mem_takenAt_iff htaken).2 hpassed⟩

/-- The variables that are collected from a body are the ones that it passes by reference. -/
theorem mem_taken_iff {lists : List (List NodeId)}
    (h : function.body.mapM (takenIn a info table) = .ok lists) :
    d ∈ lists.flatten ↔ PassedIn a info table function d := by
  rw [mapM_eq_ok] at h
  rw [List.mem_flatten]
  constructor
  · rintro ⟨ids, hids, hd⟩
    obtain ⟨r, hr, htaken⟩ := exists_of_forall₂_right h hids
    exact ⟨r, hr, (mem_takenIn_iff htaken).1 hd⟩
  · rintro ⟨r, hr, hpassed⟩
    obtain ⟨ids, hids, htaken⟩ := exists_of_forall₂_left h hr
    exact ⟨ids, hids, (mem_takenIn_iff htaken).2 hpassed⟩

/-! ### Storage of one variable -/

theorem lookup_filter_of_ne {slots : List (NodeId × Slot)} (hne : x ≠ d) :
    (slots.filter (·.1 != d)).lookup x = slots.lookup x := by
  induction slots with
  | nil => rfl
  | cons e slots ih =>
    by_cases hd : e.1 = d
    · have hx : (x == e.1) = false := by simpa [hd] using hne
      rw [List.filter_cons_of_neg (by simp [hd]), ih, List.lookup_cons, hx]
    · rw [List.filter_cons_of_pos (by simpa using hd), List.lookup_cons, List.lookup_cons, ih]

/-- The variable of one declaration gets storage; the others keep theirs. -/
theorem slot?_of_slots_eq {slot : Slot}
    (hslots : g.slots = (d, slot) :: f.slots.filter (·.1 != d)) :
    g.slot? d = some slot ∧ ∀ x, x ≠ d → g.slot? x = f.slot? x := by
  refine ⟨by simp [slot?, hslots], fun x hne => ?_⟩
  have hx : (x == d) = false := by simpa using hne
  rw [slot?, hslots, List.lookup_cons, hx]
  exact lookup_filter_of_ne hne

/-- The variable has bytes of its own below the frame pointer. -/
def HasBytes (table : SymbolTable) (f : Frame) (d : NodeId) : Prop :=
  ∃ slot used n, f.slot? d = some slot ∧ slot.storage = .frame (-SymbolTable.displacement used) ∧
    slot.Takes table n ∧ n ≤ used ∧ used ≤ f.size

theorem HasBytes.mono (h : HasBytes table f d) (hslot : g.slot? d = f.slot? d)
    (hsize : f.size ≤ g.size) : HasBytes table g d := by
  obtain ⟨slot, used, n, hd, hstorage, htakes, hn, hused⟩ := h
  exact ⟨slot, used, n, hslot.trans hd, hstorage, htakes, hn, by omega⟩

theorem Allocates.size_le {used n : Nat} (h : Allocates table d b f g used n) :
    f.size ≤ g.size := by
  have hfits := h.fits
  have hsize := h.size
  omega

theorem Allocates.hasBytes {used n : Nat} (h : Allocates table d b f g used n) :
    HasBytes table g d := by
  have hfits := h.fits
  exact ⟨_, used, n, (slot?_of_slots_eq h.slots).1, rfl,
    h.takes, by omega, Nat.le_of_eq h.size.symm⟩

theorem Allocates.keeps_bytes {used n : Nat} (h : Allocates table d b f g used n)
    (hx : HasBytes table f x) : HasBytes table g x := by
  by_cases heq : x = d
  · exact heq ▸ h.hasBytes
  · exact hx.mono ((slot?_of_slots_eq h.slots).2 x heq) h.size_le

/-- Adding a parameter gives storage to it alone. -/
theorem AddsParameter.keeps (h : AddsParameter table taken index d b f g) :
    f.size ≤ g.size ∧ ∀ x, x ≠ d → g.slot? x = f.slot? x := by
  cases h with
  | stays word free size slots => exact ⟨Nat.le_of_eq size.symm, (slot?_of_slots_eq slots).2⟩
  | homed allocates => exact ⟨allocates.size_le, (slot?_of_slots_eq allocates.slots).2⟩
  | copied type value allocates =>
    exact ⟨allocates.size_le, (slot?_of_slots_eq allocates.slots).2⟩

theorem addParameters_keeps {params : List NodeId} (hparams : ∀ p ∈ params, a.IsDeclaration p)
    (h : Frame.addParameters a table taken index params f = .ok g) :
    f.size ≤ g.size ∧ ∀ x ∉ params, g.slot? x = f.slot? x := by
  induction params generalizing index f with
  | nil =>
    cases pure_eq_ok.1 h
    exact ⟨Nat.le_refl _, fun _ _ => rfl⟩
  | cons p params ih =>
    obtain ⟨f', hp, hrest⟩ := bind_eq_ok.1 h
    obtain ⟨b, hb⟩ := hparams p (by simp)
    obtain ⟨hsize, hslots⟩ := (addParameter_eq_ok hb hp).keeps
    obtain ⟨hsize', hslots'⟩ := ih (fun q hq => hparams q (by simp [hq])) hrest
    refine ⟨by omega, fun x hx => ?_⟩
    rw [List.mem_cons, not_or] at hx
    rw [hslots' x hx.2, hslots x hx.1]

/-- The storage that each parameter gets when it is added. -/
theorem exists_addsParameter {params : List NodeId} {i p : Nat}
    (hparams : ∀ p ∈ params, a.IsDeclaration p) (hnodup : params.Nodup)
    (h : Frame.addParameters a table taken index params f = .ok g) (hi : params[i]? = some p)
    (hb : a.kind p = .ok (.declaration b)) :
    ∃ f₁ f₂, AddsParameter table taken (index + i) p b f₁ f₂ ∧ f₂.size ≤ g.size ∧
      g.slot? p = f₂.slot? p := by
  induction params generalizing index f i with
  | nil => cases hi
  | cons q params ih =>
    obtain ⟨f', hq, hrest⟩ := bind_eq_ok.1 h
    have hparams' : ∀ r ∈ params, a.IsDeclaration r := fun r hr => hparams r (by simp [hr])
    obtain ⟨hfresh, hnodup'⟩ := List.nodup_cons.1 hnodup
    cases i with
    | zero =>
      cases hi
      obtain ⟨hsize, hslots⟩ := addParameters_keeps hparams' hrest
      exact ⟨f, f', addParameter_eq_ok hb hq, hsize, hslots p hfresh⟩
    | succ i =>
      obtain ⟨f₁, f₂, hadds, hsize, hslot⟩ := ih hparams' hnodup' hrest hi
      exact ⟨f₁, f₂, by rwa [Nat.add_assoc, Nat.add_comm 1] at hadds, hsize, hslot⟩

/-- Locals have bytes of their own, and leave the others theirs. -/
theorem addLocals_hasBytes {ids : List NodeId} (hids : ∀ d ∈ ids, a.IsDeclaration d)
    (h : ids.foldlM (Frame.addLocal a table) f = .ok g) :
    f.size ≤ g.size ∧ (∀ x ∉ ids, g.slot? x = f.slot? x) ∧
      (∀ x, x ∈ ids ∨ HasBytes table f x → HasBytes table g x) := by
  induction ids generalizing f with
  | nil =>
    cases pure_eq_ok.1 h
    exact ⟨Nat.le_refl _, fun _ _ => rfl, fun x hx => hx.resolve_left (by simp)⟩
  | cons d ids ih =>
    obtain ⟨f', hd, hrest⟩ := foldlM_cons_eq_ok.1 h
    obtain ⟨b, hb⟩ := hids d (by simp)
    obtain ⟨-, -, used, n, halloc⟩ := addLocal_eq_ok hb hd
    obtain ⟨hsize, hslots, hbytes⟩ := ih (fun q hq => hids q (by simp [hq])) hrest
    refine ⟨halloc.size_le.trans hsize, fun x hx => ?_, fun x hx => ?_⟩
    · rw [List.mem_cons, not_or] at hx
      rw [hslots x hx.2, (slot?_of_slots_eq halloc.slots).2 x hx.1]
    · rw [List.mem_cons] at hx
      rcases hx with (rfl | hx) | hx
      · exact hbytes x (.inr halloc.hasBytes)
      · exact hbytes x (.inl hx)
      · exact hbytes x (.inr (halloc.keeps_bytes hx))

/-- A declaration runs in a statement. -/
def DeclaresIn (a : Arena) (statement d : Nat) : Prop :=
  ∃ x, a.Below statement x ∧ a.kind x = .ok (.declare d)

theorem body_hasBytes {body : List NodeId} (hdecl : ∀ r ∈ body, LocalsDeclared a r)
    (h : body.foldlM (Frame.addLocals a table) f = .ok g) :
    f.size ≤ g.size ∧ (∀ x, (∀ r ∈ body, ¬DeclaresIn a r x) → g.slot? x = f.slot? x) ∧
      (∀ x, (∃ r ∈ body, DeclaresIn a r x) ∨ HasBytes table f x → HasBytes table g x) := by
  induction body generalizing f with
  | nil =>
    cases pure_eq_ok.1 h
    exact ⟨Nat.le_refl _, fun _ _ => rfl, fun x hx => hx.resolve_left (by simp)⟩
  | cons r body ih =>
    obtain ⟨f', hr, hrest⟩ := foldlM_cons_eq_ok.1 h
    obtain ⟨ids, hids, hfold⟩ := bind_eq_ok.1 hr
    have hmem : ∀ x, x ∈ ids ↔ DeclaresIn a r x := fun x => mem_localsOf (lift_eq_ok.1 hids)
    have hall : ∀ d ∈ ids, a.IsDeclaration d := fun d hd =>
      have ⟨x, hx, hk⟩ := (hmem d).1 hd
      hdecl r (by simp) x d hx hk
    obtain ⟨hsize, hslots, hbytes⟩ := addLocals_hasBytes hall hfold
    obtain ⟨hsize', hslots', hbytes'⟩ := ih (fun q hq => hdecl q (by simp [hq])) hrest
    refine ⟨hsize.trans hsize', fun x hx => ?_, fun x hx => ?_⟩
    · rw [hslots' x fun q hq => hx q (by simp [hq]), hslots x fun hin => hx r (by simp)
        ((hmem x).1 hin)]
    · rcases hx with ⟨q, hq, hx⟩ | hx
      · rcases List.mem_cons.1 hq with rfl | hq
        · exact hbytes' x (.inr (hbytes x (.inl ((hmem x).2 hx))))
        · exact hbytes' x (.inl ⟨q, hq, hx⟩)
      · exact hbytes' x (.inr (hbytes x (.inr hx)))

/-! ### All variables of a function -/

/-- The parameter of a function with this number, and its declaration. -/
structure Parameter (a : Arena) (f : FunctionNode) (i d : Nat) (b : Binder) : Prop where
  position : f.params[i]? = some d
  declares : a.kind d = .ok (.declaration b)

/-- The variables that get bytes of their own. -/
inductive Resides (a : Arena) (info : SemanticInfo) (table : SymbolTable) (f : FunctionNode)
    (d : NodeId) : Prop
  | local {r : NodeId} (body : r ∈ f.body) (declares : DeclaresIn a r d)
  | copied {i : Nat} {b : Binder} (parameter : Parameter a f i d b) (value : b.isCopied = true)
  | homed {i : Nat} {b : Binder} (parameter : Parameter a f i d b) (argument : i < 6)
      (passed : PassedIn a info table f d)

/-- The storage of the variables of a function. -/
structure Arranged (a : Arena) (info : SemanticInfo) (table : SymbolTable) (f : FunctionNode)
    (g : Frame) : Prop where
  whole : 16 ∣ g.size
  typed : ∀ d slot, g.slot? d = some slot → ∃ b, a.kind d = .ok (.declaration b) ∧
    slot.ty = b.ty ∧ slot.isReference = b.isReference
  resident : ∀ d, Resides a info table f d → ∃ slot o n, g.slot? d = some slot ∧
    slot.Spans table o n ∧ -(g.size : Int) ≤ o ∧ o + n ≤ 0 ∧ (alignment slot.ty : Int) ∣ o
  pushed : ∀ i d b, Parameter a f i d b → b.isCopied = false → 6 ≤ i →
    ∃ slot, g.slot? d = some slot ∧ slot.Spans table (16 + 8 * ((i : Int) - 6)) 8
  kept : ∀ i d b, Parameter a f i d b → b.isCopied = false → i < 6 → ¬PassedIn a info table f d →
    ∃ slot r, g.slot? d = some slot ∧ Register.arguments[i]? = some r ∧ slot.storage = .register r
  apart : ∀ d d' slot slot', Binding.DeclaredIn a f d → Binding.DeclaredIn a f d' → d ≠ d' →
    g.slot? d = some slot → g.slot? d' = some slot' →
    (∀ o n o' n', slot.Spans table o n → slot'.Spans table o' n' → o + n ≤ o' ∨ o' + n' ≤ o) ∧
      ∀ r, slot.storage = .register r → slot'.storage ≠ .register r
  addressable : ∀ d slot, PassedIn a info table f d → g.slot? d = some slot →
    ∀ r, slot.storage ≠ .register r

theorem fitsWord_iff {storage : Storage} : (slotOf b storage).FitsWord ↔ b.isCopied = false := by
  unfold Slot.FitsWord slotOf Binder.isCopied
  cases b.isReference <;> simp

/-- A word takes at least one byte. -/
theorem exists_takes {slot : Slot} (hword : slot.FitsWord) (hvoid : slot.ty ≠ .void) :
    ∃ n, slot.Takes table n ∧ 0 < n := by
  unfold Slot.Takes
  cases href : slot.isReference with
  | true => exact ⟨8, rfl, by decide⟩
  | false =>
    have hscalar : slot.ty.isRecord = false := hword.resolve_left (by simp [href])
    cases hty : slot.ty with
    | void => exact absurd hty hvoid
    | record record => simp [hty, Ty.isRecord] at hscalar
    | bool => exact ⟨4, by simp, by decide⟩
    | _ => exact ⟨8, by simp, by decide⟩

/-- Variables with separate storage have no byte in common, and no word of the caller either. -/
theorem spans_apart {size n n' : Nat} {slot slot' : Slot} {o o' : Int}
    (hplaced : Placed table index size slot) (hplaced' : Placed table index size slot')
    (hsmall : size < 2147483648) (hseparate : Separate table slot slot')
    (hvoid : slot.ty ≠ .void) (hvoid' : slot'.ty ≠ .void)
    (h : slot.Spans table o n) (h' : slot'.Spans table o' n') : o + n ≤ o' ∨ o' + n' ≤ o := by
  obtain ⟨hstorage, hn⟩ := h
  obtain ⟨hstorage', hn'⟩ := h'
  have hbelow : ∀ {used : Nat}, used ≤ size → SymbolTable.displacement used = used :=
    fun hle => if_pos (by omega)
  unfold Separate at hseparate
  rw [hstorage, hstorage'] at hseparate
  cases hplaced with
  | register storage => cases hstorage.symm.trans storage
  | @above i storage _ word =>
    cases hstorage.symm.trans storage
    rw [if_pos (by omega)] at hn
    cases hplaced' with
    | register storage' => cases hstorage'.symm.trans storage'
    | @above i' storage' _ word' =>
      cases hstorage'.symm.trans storage'
      rw [if_pos (by omega)] at hn'
      obtain ⟨k, hk, hpos⟩ : ∃ k, slot.Takes table k ∧ 0 < k := exists_takes word hvoid
      obtain ⟨k', hk', hpos'⟩ : ∃ k, slot'.Takes table k ∧ 0 < k := exists_takes word' hvoid'
      have hcells := hseparate k k' hk hk'
      omega
    | @below used' _ storage' takes' fits' inside' =>
      cases hstorage'.symm.trans storage'
      have hused' := hbelow inside'
      rw [if_neg (by omega)] at hn'
      obtain rfl := hn'.unique takes'
      omega
  | @below used _ storage takes fits inside =>
    cases hstorage.symm.trans storage
    have hused := hbelow inside
    rw [if_neg (by omega)] at hn
    cases hplaced' with
    | register storage' => cases hstorage'.symm.trans storage'
    | above storage' =>
      cases hstorage'.symm.trans storage'
      obtain rfl := hn.unique takes
      omega
    | @below used' _ storage' _ _ inside' =>
      cases hstorage'.symm.trans storage'
      have hused' := hbelow inside'
      rw [if_neg (by omega)] at hn'
      exact hseparate n n' hn hn'

/-- A parameter has bytes of its own, or stays where it comes in. -/
theorem AddsParameter.cases_of (h : AddsParameter table taken index d b f g) :
    (b.isCopied = true ∨ index < 6 ∧ d ∈ taken → HasBytes table g d) ∧
      (b.isCopied = false → (index < 6 → d ∉ taken) →
        g.slot? d = some (slotOf b (incoming index))) := by
  cases h with
  | stays word free size slots =>
    refine ⟨fun hown => ?_, fun _ _ => (slot?_of_slots_eq slots).1⟩
    rcases hown with hcopied | ⟨hindex, htaken⟩
    · rw [fitsWord_iff.1 word] at hcopied
      cases hcopied
    · rcases incoming_cases index with ⟨r, -, hin⟩ | ⟨hsix, -⟩
      · exact absurd htaken (free r hin)
      · omega
  | @homed used n r allocates _ _ source passed word =>
    refine ⟨fun _ => allocates.hasBytes, fun _ hfree => ?_⟩
    rcases incoming_cases index with ⟨_, hargument, -⟩ | ⟨-, hin⟩
    · exact absurd passed (hfree (List.getElem?_eq_some_iff.1 hargument).1)
    · cases source.symm.trans hin
  | copied type value allocates =>
    refine ⟨fun _ => allocates.hasBytes, fun hword => ?_⟩
    simp [Binder.isCopied, type, value, Ty.isRecord] at hword

/-- Variables of a function lie below it. -/
theorem below_of_declaredIn {id : Nat} (hf : a.kind id = .ok (.function function))
    (h : Binding.DeclaredIn a function d) : a.Below id d := by
  rcases h with hp | ⟨r, hr, x, hx, hk⟩
  · exact .child hf (List.mem_append_left _ hp) (.self d)
  · have hbody : a.Below id r := .child hf (List.mem_append_right _ hr) (.self r)
    exact hbody.trans (hx.trans (.child hk (by simp [NodeKind.children]) (.self d)))

theorem HasBytes.resident (h : HasBytes table g d) (hsmall : g.size < 2147483648)
    (haligned : ∀ slot, g.slot? d = some slot → ∀ o, slot.storage = .frame o →
      (alignment slot.ty : Int) ∣ o) :
    ∃ slot o n, g.slot? d = some slot ∧ slot.Spans table o n ∧ -(g.size : Int) ≤ o ∧ o + n ≤ 0 ∧
      (alignment slot.ty : Int) ∣ o := by
  obtain ⟨slot, used, n, hslot, hstorage, htakes, hn, hused⟩ := h
  have hdisplacement : SymbolTable.displacement used = used := if_pos (by omega)
  refine ⟨slot, _, n, hslot, ⟨hstorage, ?_⟩, by omega, by omega, haligned slot hslot _ hstorage⟩
  rw [if_neg (by omega)]
  exact htakes

/-- A parameter is no local. -/
theorem not_declaresIn_of_param {lo id : Nat} (htree : a.Tree lo id)
    (hf : a.kind id = .ok (.function function)) (hp : d ∈ function.params) :
    ∀ r ∈ function.body, ¬DeclaresIn a r d := by
  rintro r hr ⟨x, hx, hk⟩
  exact (htree.params_apart hf).2 d hp r hr
    (hx.trans (.child hk (by simp [NodeKind.children]) (.self d)))

/-- What the steps of a layout leave behind. A parameter has in the end what it gets when it is
added. -/
structure Laid (a : Arena) (info : SemanticInfo) (table : SymbolTable) (function : FunctionNode)
    (g : Frame) (taken : List NodeId) : Prop where
  passed : ∀ d, d ∈ taken ↔ PassedIn a info table function d
  sound : Sound a table taken function.params.length g
  whole : 16 ∣ g.size
  locals : ∀ r ∈ function.body, ∀ d, DeclaresIn a r d → HasBytes table g d
  added : ∀ i d b, Parameter a function i d b → ∃ f f', AddsParameter table taken i d b f f' ∧
    f'.size ≤ g.size ∧ g.slot? d = f'.slot? d

theorem laid_of_layout {lo id : Nat} (htree : a.Tree lo id)
    (hf : a.kind id = .ok (.function function)) (h : layout a info table function = .ok g) :
    ∃ taken, Laid a info table function g taken := by
  have hparams : ∀ p ∈ function.params, a.IsDeclaration p :=
    fun p hp => htree.isDeclaration_param hf hp
  have hdecl := localsDeclared_of_tree htree hf
  obtain ⟨lists, htaken', hsound, -⟩ := sound_layout hparams hdecl h
  simp only [layout, bind_eq_ok, lift_eq_ok, pure_eq_ok] at h
  obtain ⟨lists', htaken, f₁, hadd, f₂, hlocals, size, hsize, rfl⟩ := h
  cases htaken'.symm.trans htaken
  obtain ⟨hsize₂, hkeep, hbytes⟩ := body_hasBytes hdecl hlocals
  have hround := (roundUp_eq_ok hsize (by decide)).1
  refine ⟨lists.flatten, fun d => mem_taken_iff htaken, hsound, dvd_of_roundUp hsize, ?_, ?_⟩
  · exact fun r hr d hd => (hbytes d (.inl ⟨r, hr, hd⟩)).mono rfl hround
  · rintro i d b ⟨hi, hb⟩
    obtain ⟨f, f', hadds, hle, hslot⟩ :=
      exists_addsParameter hparams (htree.params_apart hf).1 hadd hi hb
    rw [Nat.zero_add] at hadds
    have hlocal := not_declaresIn_of_param htree hf (List.mem_of_getElem? hi)
    exact ⟨f, f', hadds, hle.trans (hsize₂.trans hround), (hkeep d hlocal).trans hslot⟩

namespace Laid

variable {i : Nat} {slot slot' : Slot} {d' : Nat}

theorem hasBytes_of_param (h : Laid a info table function g taken) (hp : Parameter a function i d b)
    (hown : b.isCopied = true ∨ i < 6 ∧ PassedIn a info table function d) : HasBytes table g d := by
  obtain ⟨f, f', hadds, hle, hslot⟩ := h.added i d b hp
  rw [← h.passed] at hown
  exact (hadds.cases_of.1 hown).mono hslot hle

/-- A word that is not passed on by reference stays where it comes in. -/
theorem slot_of_param (h : Laid a info table function g taken) (hp : Parameter a function i d b)
    (hword : b.isCopied = false) (hkept : i < 6 → ¬PassedIn a info table function d) :
    g.slot? d = some (slotOf b (incoming i)) := by
  obtain ⟨f, f', hadds, -, hslot⟩ := h.added i d b hp
  rw [← h.passed] at hkept
  exact hslot.trans (hadds.cases_of.2 hword hkept)

theorem hasBytes (h : Laid a info table function g taken)
    (hresides : Resides a info table function d) : HasBytes table g d := by
  cases hresides with
  | «local» body declares => exact h.locals _ body d declares
  | copied parameter value => exact h.hasBytes_of_param parameter (.inl value)
  | homed parameter argument passed => exact h.hasBytes_of_param parameter (.inr ⟨argument, passed⟩)

theorem pushed (h : Laid a info table function g taken) (hp : Parameter a function i d b)
    (hword : b.isCopied = false) (hsix : 6 ≤ i) :
    ∃ slot, g.slot? d = some slot ∧ slot.Spans table (16 + 8 * ((i : Int) - 6)) 8 := by
  refine ⟨_, h.slot_of_param hp hword fun hlt => absurd hlt (by omega), ?_⟩
  rcases incoming_cases i with ⟨r, hargument, -⟩ | ⟨-, hin⟩
  · have hlt : i < 6 := (List.getElem?_eq_some_iff.1 hargument).1
    omega
  · have hoffset : ((i - 6 : Nat) : Int) = (i : Int) - 6 := by omega
    rw [hoffset] at hin
    exact ⟨hin, by rw [if_pos (by omega)]⟩

theorem kept (h : Laid a info table function g taken) (hp : Parameter a function i d b)
    (hword : b.isCopied = false) (hlt : i < 6) (hkept : ¬PassedIn a info table function d) :
    ∃ slot r, g.slot? d = some slot ∧ Register.arguments[i]? = some r ∧
      slot.storage = .register r := by
  rcases incoming_cases i with ⟨r, hargument, hin⟩ | ⟨hsix, -⟩
  · exact ⟨_, r, h.slot_of_param hp hword fun _ => hkept, hargument, hin⟩
  · omega

/-- A variable of a function has a type that can be declared, so it takes some bytes. -/
theorem ty_ne_void {lo id : Nat} (h : Laid a info table function g taken) (htree : a.Tree lo id)
    (hf : a.kind id = .ok (.function function)) (hd : Binding.DeclaredIn a function d)
    (hslot : g.slot? d = some slot) : slot.ty ≠ .void := by
  obtain ⟨b, hb, hty, -⟩ := h.sound.declared _ (mem_of_slot? hslot)
  obtain ⟨start, hsub, -, -⟩ := htree.sub (below_of_declaredIn hf hd)
  have hdeclarable : b.ty.Declarable := hsub.shaped hb
  rintro hvoid
  rw [hty] at hvoid
  rw [hvoid] at hdeclarable
  exact hdeclarable rfl

end Laid

/-- The frame of a function gives all its variables the storage that is meant for them. -/
theorem arranged_layout {lo id : Nat} (htree : a.Tree lo id)
    (hf : a.kind id = .ok (.function function)) (hlayout : layout a info table function = .ok g)
    (hsmall : g.size < 2147483648) : Arranged a info table function g := by
  obtain ⟨taken, h⟩ := laid_of_layout htree hf hlayout
  refine ⟨h.whole, fun d slot hslot => h.sound.declared _ (mem_of_slot? hslot),
    fun d hresides => ?_,
    fun i d b => h.pushed, fun i d b => h.kept, fun d d' slot slot' hd hd' hne hslot hslot' =>
      ⟨?_, ?_⟩,
    fun d slot hin hslot => h.sound.homed _ (mem_of_slot? hslot) ((h.passed d).2 hin)⟩
  · exact (h.hasBytes hresides).resident hsmall fun slot hslot => h.sound.aligned _
      (mem_of_slot? hslot)
  · intro o n o' n'
    exact spans_apart (h.sound.placed _ (mem_of_slot? hslot))
      (h.sound.placed _ (mem_of_slot? hslot'))
      hsmall (h.sound.separate hsmall hslot hslot' hne) (h.ty_ne_void htree hf hd hslot)
      (h.ty_ne_void htree hf hd' hslot')
  · exact fun r hr => h.sound.register_ne hslot hslot' hne hr

end Frame

/-- The frames of the functions of an accepted program are arranged, as long as they are small
enough for signed displacements. -/
theorem Accepted.frame_arranged {a : Arena} {table : SymbolTable} {info : SemanticInfo}
    {u : UnitNode} {id : Nat} {f : FunctionNode} {g : Frame} (h : Accepted a table info)
    (hu : a.unit? = some u) (hid : id ∈ u.functions) (hf : a.kind id = .ok (.function f))
    (hlayout : Frame.layout a info table f = .ok g) (hsmall : g.size < 2147483648) :
    Frame.Arranged a info table f g := by
  have hprogram := h.checked_of_unit hu
  obtain ⟨-, start, htree⟩ := hprogram.layout.function_tree hid
  exact Frame.arranged_layout htree hf hlayout hsmall

/-! ### A program -/

namespace Crowded

/-- A function whose parameters and locals take storage of every kind: records by value, booleans
and references that are passed on, registers, words of the caller, and locals of both alignments. -/
def words : List String :=
  ["record", "R", "\x7b", "bool", "b", ";", "int", "i", ";", "\x7d",
    "void", "g", "(", "bool", "&", "p", ",", "R", "&", "r", ")", "\x7b", "\x7d",
    "void", "f", "(", "R", "r", ",", "bool", "x", ",", "bool", "&", "z", ",", "int", "y", ",",
    "R", "s", ",", "int", "a", ",", "R", "t", ",", "bool", "w", ",", "int", "c", ")", "\x7b",
    "bool", "l", ";", "R", "q", ";", "g", "(", "x", ",", "q", ")", ";",
    "g", "(", "z", ",", "s", ")", ";", "\x7d"]

def bytes : List UInt8 := words.flatMap fun w => w.toList.map (fun c => UInt8.ofNat c.toNat) ++ [32]

def program : Arena × SymbolTable × SemanticInfo := (accept? 2 bytes).get (by decide +kernel)

theorem accept?_bytes : accept? 2 bytes = some program := by
  rw [program, Option.some_get]

attribute [irreducible] program

theorem accepted : Accepted program.1 program.2.1 program.2.2 :=
  accepted_of_accept? accept?_bytes

def function : FunctionNode :=
  ⟨"f", .void, [8, 9, 10, 11, 12, 13, 14, 15, 16], [18, 20, 24, 28]⟩

/-- Three records, two parameters that are passed on and two locals take 76 bytes. -/
theorem layout_function : (program.1.unit?.map UnitNode.functions = some [7, 29] ∧
      program.1.kind 29 = .ok (.function function)) ∧
    (Frame.layout program.1 program.2.2 program.2.1 function).toOption.map
      (fun g => (g.size, g.slots.map fun e => (e.1, e.2.storage))) =
    some (80, [(19, .frame (-72)), (17, .frame (-60)), (16, .frame 32), (15, .frame 24),
      (14, .frame (-56)), (13, .register .r9), (12, .frame (-40)), (11, .register .rcx),
      (10, .frame (-28)), (9, .frame (-20)), (8, .frame (-16))]) := by decide +kernel

/-- All of them have storage of their own. -/
theorem arranged_function : ∃ g,
    Frame.layout program.1 program.2.2 program.2.1 function = .ok g ∧ g.size = 80 ∧
      Frame.Arranged program.1 program.2.2 program.2.1 function g := by
  obtain ⟨⟨hfunctions, hkind⟩, hplaces⟩ := layout_function
  obtain ⟨u, hu, hmembers⟩ := Option.map_eq_some_iff.1 hfunctions
  obtain ⟨g, hg, hslots⟩ := Option.map_eq_some_iff.1 hplaces
  have hsize : g.size = 80 := congrArg Prod.fst hslots
  have hlayout := eq_ok_of_toOption hg
  refine ⟨g, hlayout, hsize, accepted.frame_arranged hu (by simp [hmembers]) hkind hlayout ?_⟩
  rw [hsize]
  decide

end Crowded

end MiniJ
