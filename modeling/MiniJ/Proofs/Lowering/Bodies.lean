import MiniJ.Proofs.Lowering.Alignment
import MiniJ.Proofs.Lowering.Limits
import MiniJ.Proofs.Lowering.Simulation
import MiniJ.Proofs.Lowering.Symbols

/-!
# Bodies of functions

The code of every function of an accepted program holds the code of its body in one piece. What the
body does to a store is what this code does to a machine that represents it, whether control comes
out at the end of the body or leaves the function from inside.

## Main statements

* `Lowering.setting` — the code of a function is a setting for the simulation of its statements.
* `Accepted.body_executes` — the code of a body does what the body means.
-/
namespace MiniJ

open Gen Machine Outcome Activation

/-- Labels that are defined once stand once. -/
theorem Machine.distinctLabels_of_nodup {block : List Line} (h : (definedLabels block).Nodup) :
    DistinctLabels block := by
  rw [definedLabels, List.Nodup, List.pairwise_filterMap, List.pairwise_iff_getElem] at h
  have hlt : ∀ {i j : Nat} {name : String}, i < j → block[i]? = some (.label name) →
      block[j]? = some (.label name) → False := by
    intro i j name hij hi hj
    obtain ⟨hi, hline⟩ := List.getElem?_eq_some_iff.1 hi
    obtain ⟨hj, hline'⟩ := List.getElem?_eq_some_iff.1 hj
    exact h i j hi hj hij name (by rw [hline]; rfl) name (by rw [hline']; rfl) rfl
  intro i j name hi hj
  rcases Nat.lt_trichotomy i j with hij | rfl | hji
  · exact (hlt hij hi hj).elim
  · rfl
  · exact (hlt hji hj hi).elim

theorem Arena.Declares.bindersOf_eq {a : Arena} {ids : List NodeId} {bs : List Binder}
    (h : a.Declares ids bs) : a.bindersOf ids = bs := by
  unfold Arena.bindersOf
  induction h with
  | nil => rfl
  | @cons p b _ _ hk _ ih =>
    obtain ⟨span, hnode⟩ := Arena.kind_eq_ok_iff.1 hk
    rw [List.filterMap_cons, Arena.node_eq_ok_iff.1 hnode, ih]
    rfl

/-- Fields of one record differ in their names. -/
theorem Accepted.nodup_fields {a : Arena} {table : SymbolTable} {info : SemanticInfo} {u : UnitNode}
    (h : Accepted a table info) (hu : a.unit? = some u) {record : String} {fields : List Field}
    (hfields : table.lookupRecord record = .ok (some fields)) : (fields.map Field.name).Nodup := by
  have hprogram := h.checked_of_unit hu
  obtain ⟨id, hid, r, bs, hk, -, hdeclares, rfl⟩ := hprogram.record_declares hfields
  have hnodup := (List.nodup_cons.1 ((h.isWellScoped hu).fields id hid r hk)).2
  rw [Arena.names, hdeclares.bindersOf_eq] at hnodup
  simpa [Function.comp_def] using hnodup

namespace Lowering

variable {cx : Context} {u : UnitNode} {f : FunctionNode} {s s' : State} {block : List Line}

/-- Every label in the code of a function stands once. -/
theorem distinctLabels_functionBody (hlowers : cx.Lowers u f) {label : String} {v : Unit}
    (hlabel : ∀ k, label ≠ labelName k) (h : Emits (functionBody label f) cx s v block s') :
    DistinctLabels block := by
  obtain ⟨rest, ks, js, rfl, hlays, hfresh, -, -⟩ := tidy_functionBody hlowers h
  refine distinctLabels_of_nodup ?_
  have hlabels : definedLabels (.label label :: rest) = label :: ks.map labelName :=
    congrArg (label :: ·) hlays.labels
  rw [hlabels, List.nodup_cons]
  refine ⟨fun hmem => ?_, hfresh.nodup.map fun i j => labelName_inj.1⟩
  obtain ⟨k, -, hk⟩ := List.mem_map.1 hmem
  exact hlabel k hk.symm

/-- A function without parameters has no registers for them. -/
theorem parameterRegisters_eq_nil (hlowers : cx.Lowers u f) (h : f.params = []) :
    cx.frame.parameterRegisters = [] := by
  obtain ⟨taken, -, hsound, -⟩ := hlowers.frame_sound
  refine List.eq_nil_iff_forall_not_mem.2 fun q hq => ?_
  obtain ⟨e, he, hstorage⟩ := Frame.mem_parameterRegisters.1 hq
  cases hsound.placed _ he with
  | register storage argument earlier =>
    rw [h] at earlier
    cases earlier
  | above storage => cases hstorage.symm.trans storage
  | below storage => cases hstorage.symm.trans storage

/-- The code of a function is a setting for the simulation of its statements. -/
theorem setting {A : Activation} {a : Arena} {table : SymbolTable} {info : SemanticInfo}
    {d : NodeId}
    {functions : List (NodeId × FunctionNode)} {label : String} {v : Unit}
    (h : Accepted a table info)
    (hu : a.unit? = some u) (hd : d ∈ u.functions) (hf : a.kind d = .ok (.function f))
    (hfunctions : functionsIn a u.functions = .ok functions)
    (hlabel : (labels functions).lookup d = some label) (harena : A.context.arena = a)
    (htable : A.context.table = table) (hentry : A.context.isEntry = decide (label = entryLabel))
    (hA : A.Of f) (hemits : Emits (functionBody label f) A.context s v block s') :
    Setting (ofArena a) A f block := by
  have hlowers := hA.lowers
  have hprogram := hlowers.program
  subst harena htable
  refine ⟨hA, correct_atDepth hA _, disciplined_atDepth hprogram _,
    distinctLabels_functionBody hlowers (label_ne hlabel).1 hemits, fun _ _ => h.nodup_fields hu,
    fun hmain => parameterRegisters_eq_nil hlowers ?_⟩
  have hbound := h.checked_of_unit hu
  obtain ⟨found, hfound, hkeys, hkinds⟩ := hbound.exists_functionsIn
  cases hfound.symm.trans hfunctions
  obtain ⟨label', hlabel', hentered⟩ := exists_label (by rw [hkeys]; exact hd)
  cases hlabel.symm.trans hlabel'
  obtain ⟨g, hg, hname⟩ := hentered (of_decide_eq_true (hentry.symm.trans hmain))
  obtain rfl : f = g := by
    cases hf.symm.trans (hkinds _ hg)
    rfl
  exact (hbound.bound.main d hd f hf hname).2

end Lowering

/-- The code of a function of an accepted program holds the code of its body in one piece. Where the
body ends after it has started from a store, this code gets to its own end, or out of the function,
when it starts from a machine that represents the store, and the machine it ends with represents the
store behind the body. As long as nothing is called there is no other way to go. -/
theorem Accepted.body_executes {a : Arena} {table : SymbolTable} {info : SemanticInfo}
    {u : UnitNode}
    {d : NodeId} {f : FunctionNode} {functions : List (NodeId × FunctionNode)} {frame : Frame}
    {label : String} {texts texts' : List String} {block : List Line} (h : Accepted a table info)
    (hu : a.unit? = some u) (hd : d ∈ u.functions) (hf : a.kind d = .ok (.function f))
    (hfunctions : Lowering.functionsIn a u.functions = .ok functions)
    (hlabel : (Lowering.labels functions).lookup d = some label)
    (hframe : Frame.layout a info table f = .ok frame)
    (hcode : Lowering.function a info table (Lowering.labels functions) texts label f =
      .ok (block, texts')) :
    ∃ front code back s s', block = front ++ (code ++ back) ∧
      Emits (f.body.forM (Lowering.statement (Lowering.ofArena a) a.depthLimit))
        ⟨a, info, table, Lowering.labels functions, frame, label = entryLabel⟩ s () code s' ∧
      ∀ A : Activation, A.context =
          ⟨a, info, table, Lowering.labels functions, frame, label = entryLabel⟩ → A.Of f →
        ∀ σ c σ' m, A.scene.Executes σ f.body c σ' → A.Represents σ m →
          ∃ y, Reaches A.env block (front.length, m) y ∧
            A.Ends block (front.length + code.length) σ' c y ∧
            ((∀ name m₁ m₂, ¬A.env.callee name m₁ m₂) → ∀ z,
              Reaches A.env block (front.length, m) z →
                Reaches A.env block z y ∨ Reaches A.env block y z) := by
  simp only [Lowering.function, hframe, ok_bind] at hcode
  obtain ⟨output, hbody, hdone⟩ := bind_eq_ok.1 hcode
  cases hdone
  generalize hcx :
    (⟨a, info, table, Lowering.labels functions, frame, label = entryLabel⟩ : Context) = cx
    at hbody ⊢
  obtain ⟨v, block, s'⟩ := output
  have hemits : Emits (Lowering.functionBody label f) cx { texts := texts } v block s' := hbody
  have harena : cx.arena = a := by rw [← hcx]
  cases Lowering.functionShape hemits with
  | @mk t s' copies code returns claimed copied lowered ends =>
  rw [harena] at lowered
  obtain ⟨front, back, hfront⟩ : ∃ front back, Line.label label :: (Lowering.frameCode cx ++
      (cx.frame.homed.map Lowering.homeCode ++
        (copies ++ (code ++ Lowering.tailCode cx returns)))) = front ++ (code ++ back) :=
    ⟨.label label :: (Lowering.frameCode cx ++ (cx.frame.homed.map Lowering.homeCode ++ copies)),
      Lowering.tailCode cx returns, by simp⟩
  rw [hfront] at hemits ⊢
  refine ⟨front, code, back, t, s', rfl, lowered, ?_⟩
  intro A hA hof σ c σ' m hexecutes hrep
  have hset := Lowering.setting h hu hd hf hfunctions hlabel (by rw [hA, harena])
    (by rw [hA, ← hcx]) (by rw [hA, ← hcx]) hof (hA ▸ hemits)
  obtain ⟨-, -, hlive⟩ := emits_forM_claim claimed
  have hclaimed : A.Claimed t := fun q hq => (hlive q).2 (.inl (hA ▸ hq))
  obtain ⟨id, hid, hkind⟩ := hof.lowers.member
  have hchecked := (hof.lowers.program.typed.functions id hid f hkind).body
  obtain ⟨y, hreach, hends⟩ := hset.performs hexecutes hchecked (fun x hx => ⟨x, hx, .self x⟩)
    (hA ▸ lowered) hclaimed _ m (.of_append front code _) hrep
  exact ⟨y, hreach, hends, fun hcallees z hz => hreach.comparable hset.labels hcallees hz⟩

/-! ### A loop -/

namespace Summation

/-- Adds the numbers down from `n` to what `s` refers to. -/
def words : List String :=
  ["int", "f", "(", "int", "n", ",", "int", "&", "s", ")", "\x7b",
    "while", "(", "n", ">", "0", ")", "\x7b", "s", "=", "s", "+", "n", ";", "n", "=", "n", "-",
    "1", ";",
    "\x7d", "return", "s", ";", "\x7d"]

def program : Arena × SymbolTable × SemanticInfo :=
  (accept? 2 (spaced words)).get (by decide +kernel)

theorem accept?_words : accept? 2 (spaced words) = some program := by
  rw [program, Option.some_get]

attribute [irreducible] program

theorem accepted : Accepted program.1 program.2.1 program.2.2 :=
  accepted_of_accept? accept?_words

def function : FunctionNode := ⟨"f", .int, [2, 3], [18, 20]⟩

def unit : UnitNode := ⟨[], [], [21]⟩

def frame : Frame :=
  ⟨[(3, ⟨.register .rsi, .int, true⟩), (2, ⟨.register .rdi, .int, false⟩)], 0, [], []⟩

/-- The frame, the nodes of the body, and the occurrences of the two variables. -/
theorem facts : (program.1.unit? = some unit ∧ program.1.kind 21 = .ok (.function function) ∧
      Frame.layout program.1 program.2.2 program.2.1 function = .ok frame ∧
      Lowering.functionsIn program.1 [21] = .ok [(21, function)]) ∧
    (program.1.kind 18 = .ok (.loop 6 17) ∧
      program.1.kind 6 = .ok (.binary .greater 4 5) ∧ program.1.kind 5 = .ok (.int 0) ∧
      program.1.kind 17 = .ok (.block [11, 16]) ∧ program.1.kind 11 = .ok (.assign 7 10) ∧
      program.1.kind 10 = .ok (.binary .plus 8 9) ∧ program.1.kind 16 = .ok (.assign 12 15) ∧
      program.1.kind 15 = .ok (.binary .minus 13 14) ∧ program.1.kind 14 = .ok (.int 1) ∧
      program.1.kind 20 = .ok (.ret (some 19))) ∧
    (∀ x ∈ [4, 9, 12, 13], program.1.kind x = .ok (.var "n") ∧
      program.2.2.resolvedEntry x = some 7 ∧ program.2.2.typeOf x = some .int) ∧
    (∀ x ∈ [7, 8, 19], program.1.kind x = .ok (.var "s") ∧
      program.2.2.resolvedEntry x = some 8 ∧ program.2.2.typeOf x = some .int) ∧
    (program.2.1.entry 7).toOption.map Entry.meaning = some (.var .int false (.parameter 0) 2) ∧
    (program.2.1.entry 8).toOption.map Entry.meaning = some (.var .int true (.parameter 1) 3) := by
  decide +kernel

def context : Context :=
  ⟨program.1, program.2.2, program.2.1, Lowering.labels [(21, function)], frame,
    "mj_f" = entryLabel⟩

/-- A call with 1 and a reference to a variable of the caller. -/
def activation : Activation where
  context := context
  unit := unit
  env := ⟨fun _ => 0, 0, fun _ _ _ => False⟩
  base := 4096#64
  top := 4096#64
  refers _ := .whole (.outer 0)
  outer n := if n = 0 then some (.int, 8192#64) else none

/-- The variable of the caller. -/
def sum : Region := .whole (.outer 0)

def counter : Region := .whole (.inner 2)

def initial : Store := fun r => .int (if r = sum then 5 else if r = counter then 1 else 0)

def final : Store := (initial.set sum (.int 6)).set counter (.int 0)

def start : Machine where
  regs r := if r = .rsp ∨ r = .rbp then 4096#64 else if r = .rdi then 1#64 else
    if r = .rsi then 8192#64 else 0#64
  mem x := if x = 8192#64 then 5 else 0

/-- Only the variable of the caller is in memory. -/
theorem located_cases {r : Region} {ty : Ty} {b : Word} (h : activation.Located r ty b) :
    r = sum ∧ ty = .int ∧ b = 8192#64 := by
  cases h with
  | mk placed leads =>
    cases placed with
    | global mem => cases mem
    | @outer n _ _ given =>
      by_cases hn : n = 0
      · subst hn
        cases given
        obtain rfl := leads.eq_nil rfl
        cases leads
        exact ⟨rfl, rfl, rfl⟩
      · simp [activation, hn] at given
    | inner slot =>
      have hmem := Frame.mem_of_slot? slot
      simp [activation, context, frame] at hmem

theorem occupies_cases {r : Region} {b : Word} {n : Nat} (h : activation.Occupies r b n) :
    r = sum ∧ b = 8192#64 ∧ n = 8 := by
  cases h with
  | scalar located size =>
    obtain ⟨rfl, rfl, rfl⟩ := located_cases located
    cases size
    exact ⟨rfl, rfl, rfl⟩
  | pointer slot =>
    have hmem := Frame.mem_of_slot? slot
    simp [activation, context, frame] at hmem

theorem located_sum : activation.Located sum .int 8192#64 :=
  .mk (a := 8192#64) (.outer rfl) (.here .int)

theorem of_activation : activation.Of function := by
  obtain ⟨hunit, hkind, hframe, -⟩ := facts.1
  refine ⟨⟨?_, ⟨21, by decide, hkind⟩, hframe⟩, by decide, by decide, by decide, ?_, ?_, ?_, ?_⟩
  · exact accepted.checked_of_unit hunit
  · intro d slot hslot href
    have hmem := Frame.mem_of_slot? hslot
    simp only [activation, context, frame, List.mem_cons, Prod.mk.injEq, List.not_mem_nil,
      or_false] at hmem
    rcases hmem with ⟨rfl, rfl⟩ | ⟨rfl, rfl⟩
    · exact ⟨_, located_sum⟩
    · cases href
  · intro o ty b h hinner
    cases h with
    | global mem => cases mem
    | @outer n _ _ given =>
      by_cases hn : n = 0
      · subst hn
        cases given
        exact ⟨8, (SymbolTable.scalarBytes_iff.1 rfl).1⟩
      · simp [activation, hn] at given
    | inner => cases hinner
  · intro r r' b b' n n' h h' hne
    rw [(occupies_cases h).1, (occupies_cases h').1] at hne
    exact absurd rfl hne
  · intro r b n h _
    obtain ⟨-, rfl, rfl⟩ := occupies_cases h
    intro x hx hx'
    change (x - 0#64).toNat < 4096 at hx'
    bv_omega

theorem represents_start : activation.Represents initial start := by
  have hslots : ∀ {d : NodeId} {slot : Slot}, activation.context.frame.slot? d = some slot →
      d = 3 ∧ slot = ⟨.register .rsi, .int, true⟩ ∨ d = 2 ∧
        slot = ⟨.register .rdi, .int, false⟩ := by
    intro d slot hslot
    simpa [activation, context, frame] using Frame.mem_of_slot? hslot
  refine ⟨rfl, rfl, ?_, ?_, ?_, ?_⟩
  · intro r ty b n h hn
    obtain ⟨rfl, rfl, rfl⟩ := located_cases h
    cases hn
    decide
  · intro d q ty hd
    rcases hslots hd with ⟨rfl, heq⟩ | ⟨rfl, heq⟩
    · cases heq
    · cases heq
      exact ⟨by decide, Lowering.fits_of_ne (by decide)⟩
  · intro d δ ty b hd
    rcases hslots hd with ⟨rfl, heq⟩ | ⟨rfl, heq⟩ <;> cases heq
  · intro d q ty b hd hb
    rcases hslots hd with ⟨rfl, heq⟩ | ⟨rfl, heq⟩
    · cases heq
      exact (located_cases hb).2.2.symm
    · cases heq

/-- What the two variables stand for. -/
theorem denotes : (∀ x ∈ [4, 9, 12, 13], activation.scene.Denotes x counter) ∧
    ∀ x ∈ [7, 8, 19], activation.scene.Denotes x sum := by
  obtain ⟨hcounter, hsum, hentry, hentry'⟩ := facts.2.2
  obtain ⟨x, hx, hmeaning⟩ := Option.map_eq_some_iff.1 hentry
  obtain ⟨y, hy, hmeaning'⟩ := Option.map_eq_some_iff.1 hentry'
  refine ⟨fun id hid => ?_, fun id hid => ?_⟩
  · obtain ⟨hk, hresolved, -⟩ := hcounter id hid
    exact .inner hk hresolved (eq_ok_of_toOption hx) hmeaning (by simp)
  · obtain ⟨hk, hresolved, -⟩ := hsum id hid
    exact .reference hk hresolved (eq_ok_of_toOption hy) hmeaning' (by simp)

theorem reads (σ : Store) : (∀ x ∈ [4, 9, 12, 13], activation.scene.Evaluates σ x (σ counter) σ) ∧
    ∀ x ∈ [7, 8, 19], activation.scene.Evaluates σ x (σ sum) σ :=
  ⟨fun x hx => .read (facts.2.2.1 x hx).2.2 rfl (denotes.1 x hx),
    fun x hx => .read (facts.2.2.2.1 x hx).2.2 rfl (denotes.2 x hx)⟩

/-- One round, and the condition once more. -/
theorem executes_body :
    activation.scene.Executes initial function.body (.returned (some (.int 6))) final := by
  obtain ⟨hloop, htest, hzero, hblock, hadd, hplus, hstep, hminus, hone, hret⟩ := facts.2.1
  have hfirst : activation.scene.Evaluates initial 6 (.bool true) initial :=
    .binary htest ((reads _).1 4 (by simp)) (.int hzero) (by decide)
  have hlast : activation.scene.Evaluates final 6 (.bool false) final :=
    .binary htest ((reads _).1 4 (by simp)) (.int hzero) (by decide)
  have hresult : activation.scene.Evaluates final 19 (.int 6) final := (reads final).2 19 (by simp)
  have hround : activation.scene.Executes initial [17] .normal final :=
    .block hblock (.next
      (.assign hadd (facts.2.2.2.1 7 (by simp)).2.2 rfl
        (.binary hplus ((reads _).2 8 (by simp)) ((reads _).1 9 (by simp)) (by decide))
        (denotes.2 7 (by simp)))
      (.assign hstep (facts.2.2.1 12 (by simp)).2.2 rfl
        (.binary hminus ((reads _).1 13 (by simp)) (.int hone) (by decide))
        (denotes.1 12 (by simp))))
  exact .next (.loopNext hloop hfirst hround (.loopEnd hloop hlast)) (.retValue hret hresult)

/-- The code of the function, and its text constants. -/
def compiled : List Line × List String :=
  (Lowering.function program.1 program.2.2 program.2.1 (Lowering.labels [(21, function)]) [] "mj_f"
    function).toOption.get (by decide +kernel)

theorem function_compiled : Lowering.function program.1 program.2.2 program.2.1
    (Lowering.labels [(21, function)]) [] "mj_f" function = .ok compiled := ok_get_toOption _

/-- The code of the body returns 6, and leaves 6 in the variable of the caller. -/
theorem body_sums : ∃ i y, Reaches activation.env compiled.1 (i, start) y ∧
    compiled.1[y.1]? = some (.instruction .ret []) ∧ y.2.regs .rax = 6#64 ∧
    y.2.mem.read 8192#64 8 = 6 := by
  obtain ⟨hunit, hkind, hframe, hfunctions⟩ := facts.1
  obtain ⟨front, code, back, s, s', -, -, hruns⟩ := accepted.body_executes hunit (by decide) hkind
    hfunctions (by decide) hframe function_compiled
  obtain ⟨y, hreach, hends, -⟩ := hruns activation rfl of_activation initial _ final start
    executes_body represents_start
  cases hends with
  | ret inner line held mem regs rsp rbp result =>
    refine ⟨_, _, hreach, line, result _ rfl, ?_⟩
    rw [mem, held.scalar located_sum rfl]
    decide
  | exit entry => exact absurd entry (by decide)

end Summation

end MiniJ
