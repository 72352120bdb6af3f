import MiniJ.Proofs.Lowering.FunctionShape
import MiniJ.Proofs.Lowering.Frame

/-!
# What code refers to

The labels that code defines, the labels it jumps to and the symbols its operands name. The code of
expressions defines no label and does not jump; its operands name globals and text constants.

## Main definitions

* `Line.label?`, `Line.isJump`, `Line.symbols` — what a line defines and refers to.
* `Lowering.Lays` — the labels, jumps and symbols of some code.
* `Lowering.TextsGrow` — what becomes of the text constants.
* `Lowering.Refers` — a part of code generation without labels and jumps.

## Main statements

* `Lowering.refers_atDepth` — expressions and places.
-/
namespace MiniJ

/-! ### Lines -/

/-- The symbol that an address is relative to. -/
def Address.symbol? (a : Address) : Option String :=
  match a.base with
  | .symbol name => some name
  | .register _ => none

/-- The symbol of a data section that an operand names. -/
def Operand.symbol? : Operand → Option String
  | .mem _ a | .addr a => a.symbol?
  | _ => none

namespace Line

/-- The label that a line defines. -/
def label? : Line → Option String
  | label name => some name
  | instruction .. => none

/-- Whether a line is a jump. -/
def isJump : Line → Bool
  | instruction .jmp _ | instruction (.jump _) _ => true
  | _ => false

/-- Symbols of data sections that a line names. -/
def symbols : Line → List String
  | instruction _ operands => operands.filterMap Operand.symbol?
  | label _ => []

end Line

@[simp] theorem Operand.symbol?_sized (width : Width) (r : Register) :
    (Operand.sized width r).symbol? = none := by
  cases width <;> rfl

@[simp] theorem Address.symbol?_frame (displacement : Int) : (frame displacement).symbol? = none :=
  rfl

@[simp] theorem Address.symbol?_register (r : Register) : (register r).symbol? = none := rfl

@[simp] theorem Address.symbol?_symbol (name : String) : (symbol name).symbol? = some name := rfl

/-- A moved address is relative to the same symbol. -/
theorem Address.symbol?_offsetBy {a b : Address} {delta : Int} (h : a.offsetBy delta = .ok b) :
    b.symbol? = a.symbol? := by
  unfold offsetBy at h
  split at h
  · cases h
    rfl
  · cases h

/-- Whether an instruction does not jump inside of a function. -/
def Mnemonic.goesOn : Mnemonic → Bool
  | .jmp | .jump _ => false
  | _ => true

/-- No node is a text. -/
def Arena.Textless (a : Arena) : Prop := ∀ id value, a.kind id ≠ .ok (.text value)

namespace Lowering

open Gen

variable {α β : Type} {cx : Context} {u : UnitNode} {f : FunctionNode} {s s' : State}
  {code code' front : List Line} {line : Line} {id : NodeId} {ty : Ty} {name : String} {n n' : Nat}
  {ks ks' js js' : List Nat}

/-! ### Symbols -/

/-- The symbol of a global of the program. -/
def IsGlobal (cx : Context) (u : UnitNode) (name : String) : Prop :=
  ∃ d ∈ u.globals, ∃ b, cx.arena.kind d = .ok (.declaration b) ∧ name = userSymbol b.name

/-- A symbol that is defined: a global, or one of the first `n` text constants. -/
def Defined (cx : Context) (u : UnitNode) (n : Nat) (name : String) : Prop :=
  IsGlobal cx u name ∨ ∃ i < n, name = textLabel i

theorem Defined.mono (h : Defined cx u n name) (hle : n ≤ n') : Defined cx u n' name :=
  h.imp_right fun ⟨i, hi, heq⟩ => ⟨i, by omega, heq⟩

/-- An address is relative to a register or to a global. -/
def Named (cx : Context) (u : UnitNode) (a : Address) : Prop :=
  ∀ name, a.symbol? = some name → IsGlobal cx u name

/-! ### Code -/

/-- Code that defines the labels with the numbers `ks`, in this order, and jumps to labels with
numbers in `js`; with `n` text constants, all symbols in it are known. -/
structure Lays (cx : Context) (u : UnitNode) (n : Nat) (code : List Line) (ks js : List Nat) :
    Prop where
  labels : code.filterMap Line.label? = ks.map labelName
  jumps : ∀ line ∈ code, line.isJump = true →
    ∃ k ∈ js, ∃ mnemonic, line = .instruction mnemonic [.label (labelName k)]
  symbols : ∀ line ∈ code, ∀ name ∈ line.symbols, Defined cx u n name

namespace Lays

theorem nil : Lays cx u n [] [] [] := ⟨rfl, by simp, by simp⟩

theorem mono (h : Lays cx u n code ks js) (hle : n ≤ n') : Lays cx u n' code ks js :=
  ⟨h.labels, h.jumps, fun line hline name hname => (h.symbols line hline name hname).mono hle⟩

theorem append (h : Lays cx u n code ks js) (h' : Lays cx u n code' ks' js') :
    Lays cx u n (code ++ code') (ks ++ ks') (js ++ js') := by
  refine ⟨by rw [List.filterMap_append, h.labels, h'.labels, List.map_append], ?_, ?_⟩
  · intro line hline hjump
    rcases List.mem_append.1 hline with hline | hline
    · obtain ⟨k, hk, hto⟩ := h.jumps line hline hjump
      exact ⟨k, List.mem_append_left _ hk, hto⟩
    · obtain ⟨k, hk, hto⟩ := h'.jumps line hline hjump
      exact ⟨k, List.mem_append_right _ hk, hto⟩
  · intro line hline
    rcases List.mem_append.1 hline with hline | hline
    · exact h.symbols line hline
    · exact h'.symbols line hline

/-- Code without labels and jumps in front of other code. -/
theorem after (h' : Lays cx u n code' ks js) (h : Lays cx u n code [] []) :
    Lays cx u n (code ++ code') ks js := by
  simpa using h.append h'

/-- A line that neither defines a label nor jumps. -/
theorem single {mnemonic : Mnemonic} {operands : List Operand} (hgoes : mnemonic.goesOn = true)
    (h : ∀ x ∈ operands, ∀ name, x.symbol? = some name → Defined cx u n name) :
    Lays cx u n [.instruction mnemonic operands] [] [] := by
  refine ⟨rfl, fun line hline hjump => ?_, fun line hline name hname => ?_⟩
  · cases List.mem_singleton.1 hline
    cases mnemonic <;> simp_all [Line.isJump, Mnemonic.goesOn]
  · cases List.mem_singleton.1 hline
    obtain ⟨x, hx, hsymbol⟩ := List.mem_filterMap.1 hname
    exact h x hx name hsymbol

theorem label (k : Nat) : Lays cx u n [.label (labelName k)] [k] [] :=
  ⟨rfl, by simp [Line.isJump], by simp [Line.symbols]⟩

/-- A jump. -/
theorem jump (mnemonic : Mnemonic) (k : Nat) :
    Lays cx u n [.instruction mnemonic [.label (labelName k)]] [] [k] := by
  refine ⟨rfl, fun line hline _ => ?_, by simp [Line.symbols, Operand.symbol?]⟩
  cases List.mem_singleton.1 hline
  exact ⟨k, by simp, mnemonic, rfl⟩

end Lays

/-! ### Text constants -/

/-- Text constants are never dropped, and added only where the program has texts. -/
structure TextsGrow (cx : Context) (texts texts' : List String) : Prop where
  le : texts.length ≤ texts'.length
  eq_of_textless : cx.arena.Textless → texts' = texts

namespace TextsGrow

variable {texts texts' texts'' : List String}

theorem of_eq (h : texts' = texts) : TextsGrow cx texts texts' :=
  ⟨Nat.le_of_eq (congrArg List.length h).symm, fun _ => h⟩

theorem trans (h : TextsGrow cx texts texts') (h' : TextsGrow cx texts' texts'') :
    TextsGrow cx texts texts'' :=
  ⟨h.le.trans h'.le, fun htextless => (h'.eq_of_textless htextless).trans
    (h.eq_of_textless htextless)⟩

end TextsGrow

/-! ### Parts of code generation -/

/-- A part of code generation defines no label and does not jump, and its symbols are known; it
gives a value with the property `Q`. -/
def Refers (cx : Context) (u : UnitNode) (x : Gen α) (Q : α → Prop) : Prop :=
  ∀ s v code s', Emits x cx s v code s' → Q v ∧ s'.labelCount = s.labelCount ∧
    TextsGrow cx s.texts s'.texts ∧ Lays cx u s'.texts.length code [] []

namespace Refers

variable {x : Gen α} {Q : α → Prop} {R : β → Prop}

/-- A part that emits nothing and keeps labels and text constants. -/
theorem quiet (h : ∀ s v code s', Emits x cx s v code s' → Q v ∧ code = [] ∧
    s'.labelCount = s.labelCount ∧ s'.texts = s.texts) : Refers cx u x Q := by
  intro s v code s' hemits
  obtain ⟨hQ, rfl, hlabels, htexts⟩ := h _ _ _ _ hemits
  exact ⟨hQ, hlabels, .of_eq htexts, .nil⟩

theorem pure {v : α} (h : Q v) : Refers cx u (Pure.pure v) Q := by
  refine quiet fun _ _ _ _ hemits => ?_
  obtain ⟨rfl, rfl, rfl⟩ := emits_pure.1 hemits
  exact ⟨h, rfl, rfl, rfl⟩

theorem bind {g : α → Gen β} (hx : Refers cx u x Q) (hg : ∀ v, Q v → Refers cx u (g v) R) :
    Refers cx u (x >>= g) R := by
  intro s w code s' hemits
  obtain ⟨v, c, t, c', hc, hc', rfl⟩ := emits_bind.1 hemits
  obtain ⟨hQ, hlabels, htexts, hlays⟩ := hx _ _ _ _ hc
  obtain ⟨hR, hlabels', htexts', hlays'⟩ := hg v hQ _ _ _ _ hc'
  exact ⟨hR, hlabels'.trans hlabels, htexts.trans htexts', hlays'.after (hlays.mono htexts'.le)⟩

/-- A part whose value does not matter, followed by another. -/
theorem seq {g : α → Gen β} (hx : Refers cx u x fun _ => True) (hg : ∀ v, Refers cx u (g v) R) :
    Refers cx u (x >>= g) R := hx.bind fun v _ => hg v

theorem context_bind {g : Context → Gen β} (h : Refers cx u (g cx) R) :
    Refers cx u (context >>= g) R := fun _ _ _ _ hemits => h _ _ _ _ (emits_context_bind.1 hemits)

theorem state_bind {g : State → Gen β} (h : ∀ s, Refers cx u (g s) R) :
    Refers cx u (state >>= g) R := fun _ _ _ _ hemits => h _ _ _ _ _ (emits_state_bind.1 hemits)

theorem update {g : State → State} (hlabels : ∀ s, (g s).labelCount = s.labelCount)
    (htexts : ∀ s, (g s).texts = s.texts) : Refers cx u (Gen.update g) fun _ => True := by
  refine quiet fun _ _ _ _ hemits => ?_
  obtain ⟨rfl, rfl⟩ := emits_update.1 hemits
  exact ⟨trivial, rfl, hlabels _, htexts _⟩

theorem fail {failure : Failure CodegenError} : Refers cx u (Gen.fail failure) Q :=
  fun _ _ _ _ hemits => (emits_fail.1 hemits).elim

theorem unsupported {what : Unsupported} : Refers cx u (Gen.unsupported what id) Q :=
  fun _ _ _ _ hemits => (emits_unsupported.1 hemits).elim

theorem lift {y : Except Fault α} : Refers cx u (liftM y : Gen α) fun v => y = .ok v := by
  refine quiet fun _ _ _ _ hemits => ?_
  obtain ⟨hv, rfl, rfl⟩ := emits_lift.1 hemits
  exact ⟨hv, rfl, rfl, rfl⟩

theorem lift_bind {y : Except Fault α} {g : α → Gen β} (h : ∀ v, y = .ok v → Refers cx u (g v) R) :
    Refers cx u (liftM y >>= g) R := lift.bind h

theorem kind_bind {g : NodeKind → Gen β}
    (h : ∀ k, cx.arena.kind id = .ok k → Refers cx u (g k) R) : Refers cx u (kind id >>= g) R := by
  intro s w code s' hemits
  obtain ⟨k, hk, hrest⟩ := emits_kind_bind.1 hemits
  exact h k hk _ _ _ _ hrest

theorem typeOf_bind {g : Ty → Gen β} (h : ∀ ty, Refers cx u (g ty) R) :
    Refers cx u (typeOf id >>= g) R := by
  intro s w code s' hemits
  obtain ⟨ty, -, hrest⟩ := emits_typeOf_bind.1 hemits
  exact h ty _ _ _ _ hrest

theorem sizeOf_bind {g : Nat → Gen β} (h : ∀ n, Refers cx u (g n) R) :
    Refers cx u (Gen.sizeOf ty id >>= g) R := by
  intro s w code s' hemits
  obtain ⟨n, -, hrest⟩ := emits_sizeOf_bind.1 hemits
  exact h n _ _ _ _ hrest

theorem scratch : Refers cx u (Gen.scratch id) fun _ => True := by
  refine state_bind fun s => ?_
  split
  · exact seq (update (fun _ => rfl) fun _ => rfl) fun _ => pure (Q := fun _ => True) trivial
  · exact fun _ _ _ _ hemits => by simp [emits_node_bind, emits_fail] at hemits

theorem claim {r : Register} : Refers cx u (Gen.claim r) fun _ => True := by
  refine state_bind fun s => ?_
  split
  · exact update (fun _ => rfl) fun _ => rfl
  · exact fail

theorem release {r : Register} : Refers cx u (Gen.release r) fun _ => True :=
  state_bind fun _ => lift_bind fun _ _ => update (fun _ => rfl) fun _ => rfl

theorem grow {words : Nat} : Refers cx u (Gen.grow words) fun _ => True :=
  update (fun _ => rfl) fun _ => rfl

theorem shrink {words : Nat} : Refers cx u (Gen.shrink words) fun _ => True := by
  refine state_bind fun s => ?_
  split
  · exact update (fun _ => rfl) fun _ => rfl
  · exact fail

theorem forM {X : Type} {xs : List X} {g : X → Gen Unit}
    (h : ∀ y ∈ xs, Refers cx u (g y) fun _ => True) : Refers cx u (xs.forM g) fun _ => True := by
  induction xs with
  | nil => exact pure trivial
  | cons y ys ih => exact (h y (by simp)).seq fun _ => ih fun z hz => h z (by simp [hz])

theorem releaseAll {rs : List Register} : Refers cx u (Gen.releaseAll rs) fun _ => True :=
  forM fun _ _ => release

/-- An instruction whose operands name globals only. -/
theorem emit {mnemonic : Mnemonic} {operands : List Operand} (hgoes : mnemonic.goesOn = true)
    (h : ∀ o ∈ operands, ∀ name, o.symbol? = some name → IsGlobal cx u name) :
    Refers cx u (Gen.emit mnemonic operands) fun _ => True := by
  intro s v code s' hemits
  obtain ⟨rfl, rfl⟩ := emits_emit.1 hemits
  exact ⟨trivial, rfl, .of_eq rfl, .single hgoes fun o ho name hname => .inl (h o ho name hname)⟩

/-- An instruction whose operands name no symbol. -/
theorem emit_plain {mnemonic : Mnemonic} {operands : List Operand} (hgoes : mnemonic.goesOn = true)
    (h : operands.filterMap Operand.symbol? = []) :
    Refers cx u (Gen.emit mnemonic operands) fun _ => True := by
  refine emit hgoes fun o ho name hname => ?_
  rw [List.filterMap_eq_nil_iff] at h
  cases (h o ho).symm.trans hname

/-- An instruction that is left out unless it is needed. -/
theorem emit_if {c : Prop} [Decidable c] {mnemonic : Mnemonic} {operands : List Operand}
    {g : Unit → Gen β} (hgoes : mnemonic.goesOn = true)
    (h : operands.filterMap Operand.symbol? = []) (hg : Refers cx u (g ()) R) :
    Refers cx u (if c then Gen.emit mnemonic operands >>= g else g ()) R := by
  split
  · exact (emit_plain hgoes h).seq fun _ => hg
  · exact hg

theorem guard {c : Prop} [Decidable c] {what : Unsupported} {k : α → Gen β} {y : Gen β}
    (hy : Refers cx u y R) :
    Refers cx u (if c then Gen.unsupported what id >>= k else y) R := by
  split
  · exact fun _ _ _ _ hemits => by simp [emits_bind, emits_unsupported] at hemits
  · exact hy

theorem push {r : Register} : Refers cx u (Gen.push r) fun _ => True :=
  (emit_plain rfl rfl).seq fun _ => grow

theorem pop {r : Register} : Refers cx u (Gen.pop r) fun _ => True :=
  (emit_plain rfl rfl).seq fun _ => shrink

end Refers

/-! ### Loads and stores -/

theorem named_frame (displacement : Int) : Named cx u (.frame displacement) := by
  intro name hname
  cases hname

theorem named_register (r : Register) : Named cx u (.register r) := by
  intro name hname
  cases hname

theorem Named.offsetBy {a b : Address} {delta : Int} (h : Named cx u a)
    (heq : a.offsetBy delta = .ok b) : Named cx u b := by
  intro name hname
  rw [Address.symbol?_offsetBy heq] at hname
  exact h name hname

/-- Where a place lies: in a register, or at an address whose symbol is a global. -/
def NamedAt (cx : Context) (u : UnitNode) : Location → Prop
  | .register _ => True
  | .memory a => Named cx u a

theorem refers_load {location : Location} {target : Register} (h : NamedAt cx u location) :
    Refers cx u (load location ty target id) fun _ => True := by
  cases location with
  | register => exact .emit_plain rfl rfl
  | memory a =>
    refine .sizeOf_bind fun n => .emit rfl fun o ho name hname => ?_
    rw [List.mem_pair] at ho
    rcases ho with rfl | rfl
    · simp at hname
    · exact h name hname

theorem refers_store {location : Location} {value : Register} (h : NamedAt cx u location) :
    Refers cx u (store location ty value id) fun _ => True := by
  cases location with
  | register => exact .emit_plain rfl rfl
  | memory a =>
    refine .sizeOf_bind fun n => .emit rfl fun o ho name hname => ?_
    rw [List.mem_pair] at ho
    rcases ho with rfl | rfl
    · exact h name hname
    · simp at hname

theorem refers_targetOf {p : Place} : Refers cx u (targetOf p id) fun _ => True := by
  unfold targetOf
  split
  · exact .pure trivial
  · exact .scratch

/-! ### Places -/

/-- Nodes of the function refer to what is known, at some depth. -/
structure RefersParts (depth : Nat) (cx : Context) (u : UnitNode) (f : FunctionNode) : Prop where
  lowers : cx.Lowers u f
  expression : ∀ {id}, cx.InBody f id →
    Refers cx u ((atDepth depth).expression id) fun _ => True
  place : ∀ {id}, cx.InBody f id →
    Refers cx u ((atDepth depth).place id) fun p => NamedAt cx u p.location

variable {depth : Nat}

/-- The storage of a variable is a global of the program, if it is no register or frame slot. -/
theorem isGlobal_of_stored {slot : Slot} {symbol : String} (hlowers : cx.Lowers u f)
    (h : Stored cx id slot) (hstorage : slot.storage = .global symbol) : IsGlobal cx u symbol := by
  cases h with
  | @global e x ty ref d resolved entry meaning =>
    cases hstorage
    have hdescribes := hlowers.program.bound.sound.meanings e x entry
    rw [meaning] at hdescribes
    exact ⟨d, hdescribes.2 rfl, _, hdescribes.1, rfl⟩
  | framed resolved entry meaning inner found =>
    obtain ⟨taken, -, hsound, -⟩ := hlowers.frame_sound
    -- frames have no slots in a data section
    cases hsound.placed _ (Frame.mem_of_slot? found) with
    | register storage => cases hstorage.symm.trans storage
    | above storage => cases hstorage.symm.trans storage
    | below storage => cases hstorage.symm.trans storage

theorem refers_variablePlace (hlowers : cx.Lowers u f) :
    Refers cx u (variablePlace id) fun p => NamedAt cx u p.location := by
  have hslot : Refers cx u (slotOf id) (Stored cx id) := by
    refine .quiet fun s slot code s' hemits => ?_
    obtain ⟨hstored, rfl, rfl⟩ := emits_slotOf hemits
    exact ⟨hstored, rfl, rfl, rfl⟩
  refine hslot.bind fun slot hstored => ?_
  split
  · next symbol _ hstorage =>
    refine .pure fun name hname => ?_
    cases hname
    exact isGlobal_of_stored hlowers hstored hstorage
  · exact .pure trivial
  · exact .pure (named_register _)
  · exact .pure (named_frame _)
  · exact Refers.scratch.seq fun pointer => (Refers.emit_plain rfl rfl).seq fun _ =>
      .pure (named_register pointer)

theorem refers_fieldPlace (hparts : RefersParts depth cx u f) {base : NodeId}
    (hin : cx.InBody f base) :
    Refers cx u (fieldPlace (atDepth depth) id base name) fun p => NamedAt cx u p.location := by
  refine .typeOf_bind fun ty => ?_
  split
  · refine .context_bind (.lift_bind fun found _ => ?_)
    split
    · exact .unsupported
    · refine (hparts.place hin).bind fun outer houter => ?_
      split
      · next address hlocation =>
        rw [hlocation] at houter
        exact .lift_bind fun target htarget => .pure (houter.offsetBy htarget)
      · exact .unsupported
  · exact .unsupported

theorem refers_elementPlace (hparts : RefersParts depth cx u f) {base index : NodeId}
    (hbase : cx.InBody f base) (hindex : cx.InBody f index) :
    Refers cx u (elementPlace (atDepth depth) id base index) fun p => NamedAt cx u p.location := by
  refine .typeOf_bind fun ty => .sizeOf_bind fun n => ?_
  refine (hparts.expression hbase).seq fun pointer => (hparts.expression hindex).seq
    fun offset => ?_
  exact (Refers.emit_plain rfl rfl).seq fun _ => (Refers.emit_plain rfl rfl).seq fun _ =>
    Refers.release.seq fun _ => .pure (named_register pointer)

theorem refers_placeAt (hparts : RefersParts depth cx u f) (hin : cx.InBody f id) :
    Refers cx u (placeAt (atDepth depth) id) fun p => NamedAt cx u p.location := by
  refine .kind_bind fun k hk => ?_
  split
  · exact refers_variablePlace hparts.lowers
  · exact refers_fieldPlace hparts (hin.child hk (.head _))
  · exact refers_elementPlace hparts (hin.child hk (.head _)) (hin.child hk (.tail _ (.head _)))
  · exact .unsupported

theorem refers_address (hparts : RefersParts depth cx u f) (hin : cx.InBody f id) :
    Refers cx u (address (atDepth depth) id) fun _ => True := by
  refine (hparts.place hin).bind fun p hp => ?_
  split
  · exact .unsupported
  · next a hlocation =>
    rw [hlocation] at hp
    refine refers_targetOf.seq fun target => Refers.seq (.emit rfl fun o ho name hname => ?_)
      fun _ => .pure trivial
    rw [List.mem_pair] at ho
    rcases ho with rfl | rfl
    · cases hname
    · exact hp name hname

/-! ### Operators -/

theorem refers_step (hparts : RefersParts depth cx u f) {op : UnaryOp} {operand : NodeId}
    (hin : cx.InBody f operand) :
    Refers cx u (step (atDepth depth) id op operand) fun _ => True := by
  refine .typeOf_bind fun ty => (hparts.place hin).bind fun p hp => ?_
  refine Refers.scratch.seq fun value => (refers_load hp).seq fun _ => ?_
  have hrelease : Refers cx u (releasePlace p >>= fun _ => pure value) fun _ => True :=
    Refers.releaseAll.seq fun _ => .pure trivial
  have hchange : ∀ {change r}, change = .add ∨ change = .sub →
      Refers cx u (emit change [.reg r, .imm 1]) fun _ => True := by
    rintro _ r (rfl | rfl)
    · exact .emit_plain rfl rfl
    · exact .emit_plain rfl rfl
  have hbefore : ∀ {change}, change = .add ∨ change = .sub →
      Refers cx u (emit change [.reg value, .imm 1] >>= fun _ =>
        store p.location ty value operand >>= fun _ => releasePlace p >>= fun _ => pure value)
        fun _ => True :=
    fun h => (hchange h).seq fun _ => (refers_store hp).seq fun _ => hrelease
  have hafter : ∀ {change}, change = .add ∨ change = .sub →
      Refers cx u (scratch id >>= fun updated =>
      emit .mov [.reg updated, .reg value] >>= fun _ =>
      emit change [.reg updated, .imm 1] >>= fun _ =>
      store p.location ty updated operand >>= fun _ => release updated >>= fun _ =>
      releasePlace p >>= fun _ => pure value) fun _ => True :=
    fun h => Refers.scratch.seq fun _ => (Refers.emit_plain rfl rfl).seq fun _ => (hchange h).seq
      fun _ =>
      (refers_store hp).seq fun _ => Refers.release.seq fun _ => hrelease
  cases op with
  | preIncrement => exact hbefore (.inl rfl)
  | preDecrement => exact hbefore (.inr rfl)
  | postIncrement => exact hafter (.inl rfl)
  | postDecrement | minus | not => exact hafter (.inr rfl)

theorem refers_unary (hparts : RefersParts depth cx u f) {op : UnaryOp} {operand : NodeId}
    (hin : cx.InBody f operand) :
    Refers cx u (unary (atDepth depth) id op operand) fun _ => True := by
  cases op with
  | minus | not =>
    exact (hparts.expression hin).seq fun _ => (Refers.emit_plain rfl rfl).seq fun _ =>
      .pure trivial
  | preIncrement | preDecrement | postIncrement | postDecrement =>
    unfold unary
    exact refers_step hparts hin

theorem refers_rejectText {op : BinaryOp} {left : NodeId} :
    Refers cx u (rejectText id op left) fun _ => True := by
  unfold rejectText
  split
  · exact .pure trivial
  · refine .typeOf_bind fun ty => ?_
    split
    · exact .unsupported
    · exact .pure trivial

theorem refers_divide {result dividend divisor : Register} :
    Refers cx u (divide id result dividend divisor) fun _ => True := by
  unfold divide
  extract_lets jp
  have hdivide : ∀ d, Refers cx u (jp d) fun _ => True := by
    intro d
    refine .state_bind fun s => .emit_if rfl rfl (.emit_if rfl rfl (.emit_if rfl rfl ?_))
    refine (Refers.emit_plain rfl rfl).seq fun _ => (Refers.emit_plain rfl rfl).seq fun _ => ?_
    refine .emit_if rfl rfl (.emit_if rfl rfl (.emit_if rfl rfl ?_))
    exact Refers.release.seq fun _ => .pure trivial
  split
  · exact Refers.scratch.seq fun moved => (Refers.emit_plain rfl rfl).seq fun _ =>
      Refers.release.seq fun _ => Refers.seq (.pure trivial) hdivide
  · exact Refers.seq (.pure trivial) hdivide

theorem refers_combine {mnemonic : Mnemonic} {left right : Register}
    (hgoes : mnemonic.goesOn = true) : Refers cx u (combine mnemonic left right) fun _ => True :=
  (Refers.emit_plain hgoes rfl).seq fun _ => Refers.release.seq fun _ => .pure trivial

theorem refers_compareTo {condition : Condition} {left right : Register} :
    Refers cx u (compareTo condition left right) fun _ => True :=
  (Refers.emit_plain rfl rfl).seq fun _ => (Refers.emit_plain rfl rfl).seq fun _ =>
    (Refers.emit_plain rfl rfl).seq fun _ => Refers.release.seq fun _ => .pure trivial

theorem refers_binary (hparts : RefersParts depth cx u f) {op : BinaryOp} {left right : NodeId}
    (hleft : cx.InBody f left) (hright : cx.InBody f right) :
    Refers cx u (binary (atDepth depth) id op left right) fun _ => True := by
  refine refers_rejectText.seq fun _ => (hparts.expression hleft).seq fun lhs =>
    (hparts.expression hright).seq fun rhs => ?_
  cases op with
  | plus | minus | times | and | or => exact refers_combine rfl
  | div | mod => exact refers_divide
  | equal | unequal | lesser | lesserEq | greater | greaterEq => exact refers_compareTo

/-! ### Calls -/

theorem refers_pushArgument (hparts : RefersParts depth cx u f) (hin : cx.InBody f id)
    {byAddress : Bool} : Refers cx u (pushArgument (atDepth depth) id byAddress) fun _ => True := by
  unfold pushArgument
  extract_lets jp
  have hpush : ∀ r, Refers cx u (jp r) fun _ => True := fun r => Refers.push.seq fun _ => .release
  cases byAddress with
  | false => exact (hparts.expression hin).seq hpush
  | true => exact .kind_bind fun k hk => .guard ((refers_address hparts hin).seq hpush)

theorem refers_passArguments (hparts : RefersParts depth cx u f) {callee : Callee}
    {args : List NodeId} (hin : ∀ arg ∈ args, cx.InBody f arg) :
    Refers cx u (passArguments (atDepth depth) callee args) fun _ => True := by
  refine .state_bind fun s => (Refers.forM fun _ _ => .push).seq fun _ => .state_bind fun s' => ?_
  have hrest : Refers cx u ((args.zip callee.byAddress).reverse.forM fun p =>
      pushArgument (atDepth depth) p.1 p.2) fun _ => True :=
    .forM fun p hp => refers_pushArgument hparts (hin _ (List.of_mem_zip (List.mem_reverse.1 hp)).1)
  have hpops : Refers cx u ((Register.arguments.take args.length).forM pop) fun _ => True :=
    .forM fun _ _ => .pop
  extract_lets padding jp
  have hjp : ∀ v, Refers cx u (jp v) fun _ => True := fun v =>
    hrest.seq fun _ => hpops.seq fun _ => .pure trivial
  split
  · exact (Refers.emit_plain rfl rfl).seq fun _ => Refers.grow.seq hjp
  · exact hjp ()

theorem refers_drop_bind {words : Nat} {g : Unit → Gen β} {R : β → Prop}
    (h : Refers cx u (g ()) R) :
    Refers cx u (if words > 0 then emit .add [.reg .rsp, .imm (Int64.ofNat (8 * words))] >>=
      fun _ =>
      shrink words >>= g else g ()) R := by
  split
  · exact (Refers.emit_plain rfl rfl).seq fun _ => Refers.shrink.seq fun _ => h
  · exact h

theorem refers_result {saved : List Register} {returns : Bool} :
    Refers cx u (if returns = true then takeResult id >>= fun r => pure (some r) >>= fun result =>
      saved.forM pop >>= fun _ => pure result
      else pure none >>= fun result => saved.forM pop >>= fun _ => pure result) fun _ => True := by
  have hpops : ∀ result : Option Register, Refers cx u (pure result >>= fun result =>
      saved.forM pop >>= fun _ => pure result) fun _ => True := fun result =>
    Refers.seq (.pure trivial) fun _ => (Refers.forM fun _ _ => .pop).seq fun _ => .pure trivial
  have htake : Refers cx u (takeResult id) fun _ => True :=
    Refers.scratch.seq fun _ => .emit_if rfl rfl (.pure trivial)
  split
  · exact htake.seq fun r => hpops (some r)
  · exact hpops none

theorem refers_callNode (hparts : RefersParts depth cx u f) (hin : cx.InBody f id)
    {args : List NodeId} (hk : cx.arena.kind id = .ok (.call name args)) :
    Refers cx u (callNode (atDepth depth) id name args) fun _ => True := by
  have hcallee : Refers cx u (calleeOf id name args) fun _ => True := by
    refine .quiet fun s callee code s' hemits => ?_
    obtain ⟨-, rfl, rfl⟩ := emits_calleeOf hemits
    exact ⟨trivial, rfl, rfl, rfl⟩
  refine hcallee.seq fun callee => .state_bind fun s => ?_
  refine (refers_passArguments hparts fun arg harg => hin.child hk harg).seq fun dropped => ?_
  exact (Refers.emit_plain rfl rfl).seq fun _ => refers_drop_bind refers_result

theorem refers_call (hparts : RefersParts depth cx u f) (hin : cx.InBody f id) :
    Refers cx u (call (atDepth depth) id) fun _ => True := by
  refine .kind_bind fun k hk => ?_
  split
  · exact refers_callNode hparts hin hk
  · exact .pure trivial

/-! ### Expressions -/

/-- The address of a text constant that is there then. -/
theorem refers_text {value : String} (hk : cx.arena.kind id = .ok (.text value)) :
    Refers cx u (textConstant value >>= fun label =>
    scratch id >>= fun r => emit .lea [.reg r, .addr (.symbol label)] >>= fun _ => pure r)
    fun _ => True := by
  intro s v code s' hemits
  obtain ⟨label, _, t, _, hlabel, hrest, rfl⟩ := emits_bind.1 hemits
  rw [textConstant, emits_state_bind, emits_update_bind, emits_pure] at hlabel
  obtain ⟨rfl, rfl, rfl⟩ := hlabel
  obtain ⟨r, c, t', _, hr, hlea, rfl⟩ := emits_bind.1 hrest
  obtain ⟨-, hlabels, htexts, hlays⟩ := @Refers.scratch cx u id _ _ _ _ hr
  obtain ⟨_, rfl, hdone⟩ := emits_emit_bind.1 hlea
  obtain ⟨rfl, rfl, rfl⟩ := emits_pure.1 hdone
  have hintern : s.texts.length ≤ (internText s.texts value).2.length ∧
      (internText s.texts value).1 < (internText s.texts value).2.length := by
    unfold internText
    split
    · next hmem => exact ⟨Nat.le_refl _, List.idxOf_lt_length_iff.2 (by simpa using hmem)⟩
    · simp
  rw [List.nil_append]
  refine ⟨trivial, hlabels, ⟨hintern.1.trans htexts.le, fun htextless => absurd hk (htextless _ _)⟩,
    Lays.after ?_ hlays⟩
  refine .single rfl fun o ho name hname => ?_
  rw [List.mem_pair] at ho
  rcases ho with rfl | rfl
  · cases hname
  · cases hname
    exact .inr ⟨_, hintern.2.trans_le htexts.le, rfl⟩

theorem refers_placeValue (hparts : RefersParts depth cx u f) (hin : cx.InBody f id) :
    Refers cx u (placeValue (atDepth depth) id) fun _ => True := by
  refine .typeOf_bind fun ty => .guard ((refers_placeAt hparts hin).bind fun p hp => ?_)
  exact refers_targetOf.seq fun target => (refers_load hp).seq fun _ => .pure trivial

theorem refers_expressionAt (hparts : RefersParts depth cx u f) (hin : cx.InBody f id) :
    Refers cx u (expressionAt (atDepth depth) id) fun _ => True := by
  have hconstant : ∀ value, Refers cx u (constant id value) fun _ => True := fun value =>
    Refers.scratch.seq fun _ => (Refers.emit_plain rfl rfl).seq fun _ => .pure trivial
  refine .kind_bind fun k hk => ?_
  cases k with
  | int | bool => exact hconstant _
  | text value => exact refers_text hk
  | var | field | element => exact refers_placeValue hparts hin
  | unary op operand => exact refers_unary hparts (hin.child hk (.head _))
  | binary op left right =>
    exact refers_binary hparts (hin.child hk (.head _)) (hin.child hk (.tail _ (.head _)))
  | call name args =>
    refine (refers_callNode hparts hin hk).seq fun result => ?_
    split
    · exact .pure trivial
    · exact .unsupported
  | _ => exact .unsupported

/-- Expressions and places of any depth refer to what is known. -/
theorem refers_atDepth (hlowers : cx.Lowers u f) (depth : Nat) : RefersParts depth cx u f := by
  induction depth with
  | zero => exact ⟨hlowers, fun _ => .fail, fun _ => .fail⟩
  | succ depth ih => exact ⟨hlowers, refers_expressionAt ih, refers_placeAt ih⟩

end Lowering

end MiniJ
