import MiniJ.Proofs.Tree.Acceptance
import MiniJ.Proofs.Tree.Printing

/-!
# Reading what was printed

The reader for expressions gives back every printed expression, up to spans. An expression without
parentheses around it is read by one loop for each chain of left operands: the loop meets the
operators of the chain one by one and has then built the same tree.

## Main definitions

* `Parser.Gives` — a reader succeeds and gives a value with a property.
* `Parser.Inverts` — a reader for expressions gives back what was printed.

## Main statements

* `Parser.gives_left` — what the loop has built after an expression.
* `Parser.inverts_expressionAt` — the reader for expressions inverts printing.
-/
namespace MiniJ

namespace Parser

variable {α β : Type} {x : ParseM α} {f : α → ParseM β} {P : α → Prop} {Q : β → Prop}
  {cx : Context} {k : TokenKind} {w ks ks' rest rest' : List TokenKind} {n : Nat} {s : Punctuator}

/-- A reader succeeds on tokens of these kinds, gives a value with a property and leaves the
rest. -/
def Gives (cx : Context) (x : ParseM α) (ks : List TokenKind) (P : α → Prop)
    (rest : List TokenKind) : Prop :=
  ∀ ts, kinds ts = ks → ∃ v ts', (x.run cx).run ts = .ok (v, ts') ∧ P v ∧ kinds ts' = rest

theorem Gives.pure {v : α} (h : P v) : Gives cx (pure v) ks P ks :=
  fun ts hts => ⟨v, ts, rfl, h, hts⟩

theorem Gives.bind (hx : Gives cx x ks P ks') (hf : ∀ v, P v → Gives cx (f v) ks' Q rest) :
    Gives cx (x >>= f) ks Q rest := by
  intro ts hts
  obtain ⟨v, ts₁, hv, hP, hts₁⟩ := hx ts hts
  rw [run_bind, hv]
  exact hf v hP ts₁ hts₁

theorem Gives.mono {P' : α → Prop} (hx : Gives cx x ks P rest) (h : ∀ v, P v → P' v) :
    Gives cx x ks P' rest := by
  intro ts hts
  obtain ⟨v, ts', hv, hP, hts'⟩ := hx ts hts
  exact ⟨v, ts', hv, h v hP, hts'⟩

theorem Takes.next (hx : Takes cx x ks ks') (hf : ∀ v, Gives cx (f v) ks' Q rest) :
    Gives cx (x >>= f) ks Q rest := by
  intro ts hts
  obtain ⟨v, ts₁, hv, hts₁⟩ := hx ts hts
  rw [run_bind, hv]
  exact hf v ts₁ hts₁

theorem Answers.next {v : α} (hx : Answers cx x ks v) (hf : Gives cx (f v) ks Q rest) :
    Gives cx (x >>= f) ks Q rest := by
  intro ts hts
  rw [run_bind, hx ts hts]
  exact hf ts hts

theorem gives_current_bind {f : Token → ParseM β}
    (hf : ∀ span, Gives cx (f ⟨k, span⟩) (k :: ks) Q rest) :
    Gives cx (current >>= f) (k :: ks) Q rest := by
  intro ts hts
  cases ts with
  | nil => cases hts
  | cons t ts =>
    obtain ⟨rfl, rfl⟩ := List.cons_eq_cons.1 hts
    exact hf t.span (t :: ts) rfl

theorem gives_get_bind {f : List Token → ParseM β}
    (hf : ∀ ts, kinds ts = ks → Gives cx (f ts) ks Q rest) : Gives cx (get >>= f) ks Q rest :=
  fun ts hts => hf ts hts ts hts

theorem gives_name {text : String} : Gives cx name (.identifier text :: ks) (·.1 = text) ks :=
  gives_current_bind fun _ => takes_advance.next fun _ => .pure rfl

theorem gives_accept_bind {f : Bool → ParseM β} (hf : Gives cx (f true) ks Q rest) :
    Gives cx (accept s >>= f) (.punctuator s :: ks) Q rest := by
  intro ts hts
  cases ts with
  | nil => cases hts
  | cons t ts =>
    rw [run_bind, run_accept, hts, List.head?_cons, if_pos rfl]
    exact hf ts (List.cons_eq_cons.1 hts).2

theorem gives_skip_bind {f : Bool → ParseM β} (hs : ks.head? ≠ some (.punctuator s))
    (hf : Gives cx (f false) ks Q rest) : Gives cx (accept s >>= f) ks Q rest := by
  intro ts hts
  rw [run_bind, run_accept, hts, if_neg hs]
  exact hf ts hts

/-! ### Repeated items -/

section

variable {item : ParseM α} {R : α → β → Prop} {print : β → List TokenKind} {l : List β}
  {F : List TokenKind → Prop}

theorem gives_manyWhile {more : ParseM Bool}
    (hmore : ∀ b ∈ l, ∀ after, Answers cx more (print b ++ after) true)
    (hstop : Answers cx more rest false)
    (hitem : ∀ b ∈ l, ∀ after, F after → Gives cx item (print b ++ after) (R · b) after)
    (hfollow : ∀ b ∈ l, ∀ after, F (print b ++ after)) (hrest : F rest) {limit : Nat}
    (hlimit : l.length < limit) :
    Gives cx (manyWhile more item limit) ((l.map print).flatten ++ rest) (List.Forall₂ R · l)
      rest := by
  induction l generalizing limit with
  | nil =>
    obtain ⟨limit, rfl⟩ := Nat.exists_eq_add_one.2 hlimit
    exact hstop.next (.pure .nil)
  | cons b l ih =>
    obtain ⟨limit, rfl⟩ := Nat.exists_eq_add_one.2 (Nat.zero_lt_of_lt hlimit)
    have hlater : F ((l.map print).flatten ++ rest) := by
      cases l with
      | nil => exact hrest
      | cons c l =>
        rw [List.map_cons, List.flatten_cons, List.append_assoc]
        exact hfollow c (by simp) _
    rw [List.map_cons, List.flatten_cons, List.append_assoc]
    refine (hmore b (by simp) _).next ((hitem b (by simp) _ hlater).bind fun v hv => ?_)
    refine (ih (fun c hc => hmore c (by simp [hc])) (fun c hc => hitem c (by simp [hc]))
      (fun c hc => hfollow c (by simp [hc])) ?_).bind fun vs hvs => .pure (.cons hv hvs)
    simpa using hlimit

theorem gives_commaSeparated {b : β}
    (hitem : ∀ c ∈ b :: l, ∀ after, F after → Gives cx item (print c ++ after) (R · c) after)
    (hcomma : ∀ after, F (.punctuator .comma :: after)) (hrest : F rest)
    (hend : rest.head? ≠ some (.punctuator .comma)) {limit : Nat} (hlimit : l.length < limit) :
    Gives cx (commaSeparated item limit) (listed ((b :: l).map print) ++ rest)
      (List.Forall₂ R · (b :: l)) rest := by
  induction l generalizing b limit with
  | nil =>
    obtain ⟨limit, rfl⟩ := Nat.exists_eq_add_one.2 hlimit
    rw [List.map_singleton, listed_singleton]
    exact (hitem b (by simp) rest hrest).bind fun v hv =>
      gives_skip_bind hend (.pure (.cons hv .nil))
  | cons c l ih =>
    obtain ⟨limit, rfl⟩ := Nat.exists_eq_add_one.2 (Nat.zero_lt_of_lt hlimit)
    rw [List.map_cons, List.map_cons, listed_cons_cons, List.append_assoc, List.cons_append]
    refine (hitem b (by simp) _ (hcomma _)).bind fun v hv => gives_accept_bind ?_
    refine (ih (fun d hd => hitem d (by simp [List.mem_cons.1 hd])) ?_).bind fun vs hvs =>
      .pure (.cons hv hvs)
    simpa using hlimit

theorem gives_parenthesised
    (hitem : ∀ b ∈ l, ∀ after, F after → Gives cx item (print b ++ after) (R · b) after)
    (hstart : ∀ b ∈ l, ∃ k v, print b = k :: v ∧ k ≠ .punctuator .rightParen)
    (hcomma : ∀ after, F (.punctuator .comma :: after))
    (hparen : ∀ after, F (.punctuator .rightParen :: after)) (hlimit : l.length ≤ cx.limit) :
    Gives cx (parenthesised item)
      (.punctuator .leftParen :: (listed (l.map print) ++ .punctuator .rightParen :: rest))
      (List.Forall₂ R ·.1 l) rest := by
  refine takes_expect.next fun _ => (answers_next _).next ?_
  cases l with
  | nil => exact takes_expect.next fun _ => .pure .nil
  | cons b l =>
    have hne : (listed ((b :: l).map print) ++ .punctuator .rightParen :: rest).head? ≠
        some (.punctuator .rightParen) := by
      obtain ⟨k, v, hb, hk⟩ := hstart b (by simp)
      cases l with
      | nil => simpa [hb] using hk
      | cons => simpa [listed_cons_cons, hb] using hk
    rw [decide_eq_false hne]
    refine answers_read.next ((gives_commaSeparated hitem hcomma (hparen _) (by simp) ?_).bind
      fun vs hvs => takes_expect.next fun _ => .pure hvs)
    simpa using hlimit

end

/-! ### Expressions -/

theorem map_eq_map {f : α → β} {l l' : List α} (h : List.Forall₂ (fun a b => f a = f b) l l') :
    l.map f = l'.map f := by
  rwa [← List.forall₂_eq_eq_eq, List.forall₂_map_left_iff, List.forall₂_map_right_iff]

theorem length_le_listed {words : List (List TokenKind)} (hw : w ∈ words) :
    w.length ≤ (listed words).length := by
  induction words with
  | nil => cases hw
  | cons first words ih =>
    cases words with
    | nil =>
      rw [List.mem_singleton.1 hw, listed_singleton]
    | cons second words =>
      rw [listed_cons_cons, List.length_append, List.length_cons]
      rcases List.mem_cons.1 hw with rfl | hw
      · omega
      · have hle := ih hw
        omega

/-- There are as many commas as words, but one. -/
theorem length_words_le (words : List (List TokenKind)) :
    words.length ≤ (listed words).length + 1 := by
  induction words with
  | nil => simp
  | cons first words ih =>
    cases words with
    | nil => simp
    | cons second words =>
      simp only [listed_cons_cons, List.length_append, List.length_cons] at ih ⊢
      omega

/-- No operator is outermost that is weaker than this. -/
def Holds (level : Nat) : Expr → Prop
  | .binary _ op _ _ => level ≤ op.strength
  | _ => True

section

variable {e : Expr} {level bound : Nat}

theorem strength_lt (op : BinaryOp) : op.strength < UnaryOp.strength := by
  cases op <;> decide

theorem holds_of_le (h : level ≤ e.strength) : Holds level e := by
  cases e <;> first | exact h | exact True.intro

theorem Holds.mono {level' : Nat} (h : Holds level e) (hle : level' ≤ level) : Holds level' e := by
  cases e <;> first | exact hle.trans h | exact True.intro

theorem holds_of_operand (h : UnaryOp.strength ≤ e.strength) : Holds level e := by
  cases e with
  | binary _ op => exact absurd (strength_lt op) (Nat.not_lt.2 h)
  | _ => exact True.intro

theorem holds_one : Holds 1 e := by
  cases e with
  | binary _ op =>
    have hpos : 1 ≤ op.strength := by cases op <;> decide
    exact hpos
  | _ => exact True.intro

theorem enclosed_cons {c : Prop} [Decidable c] (h : ∃ k v, w = k :: v ∧ Opens k) :
    ∃ k v, enclosed c w = k :: v ∧ Opens k := by
  unfold enclosed
  split
  · exact ⟨_, _, rfl, by simp [Opens]⟩
  · exact h

theorem opens_print (h : e.Shaped) : ∃ k v, e.print = k :: v ∧ Opens k := by
  induction h with
  | int | text | var => exact ⟨_, _, rfl, by simp [Opens]⟩
  | bool _ value => cases value <;> exact ⟨_, _, rfl, by simp [Opens]⟩
  | call => exact ⟨_, _, rfl, by simp [Opens]⟩
  | field _ _ _ _ ih =>
    obtain ⟨k, v, heq, hk⟩ := ih
    exact ⟨k, _, by rw [Expr.print, heq, List.cons_append], hk⟩
  | element _ _ _ _ ih =>
    obtain ⟨k, v, heq, hk⟩ := ih
    exact ⟨k, _, by rw [Expr.print, heq, List.cons_append], hk⟩
  | @unary _ op operand _ ih =>
    rw [Expr.print]
    split
    · obtain ⟨k, v, heq, hk⟩ := enclosed_cons (c := operand.strength ≤ UnaryOp.strength) ih
      exact ⟨k, _, by rw [heq, List.cons_append], hk⟩
    · refine ⟨_, _, rfl, ?_⟩
      cases op <;> simp [Opens, UnaryOp.sign]
  | @binary _ op left _ _ _ ih =>
    obtain ⟨k, v, heq, hk⟩ := enclosed_cons (c := left.strength < op.strength) ih
    exact ⟨k, _, by rw [Expr.print, heq, List.cons_append], hk⟩

/-- A place is a name, or begins with a name and an access. -/
theorem place_print (hplace : e.IsPlace) (h : e.Shaped) : ∃ text v, e.print = .identifier text ::
    v ∧ (v = [] ∨ (∃ u, v = .punctuator .dot :: u) ∨
      ∃ k u, v = .punctuator .leftBracket :: k :: u ∧ Opens k) := by
  induction h with
  | var _ name => exact ⟨name, [], rfl, .inl rfl⟩
  | field _ name hbase _ ih =>
    obtain ⟨text, v, heq, hv⟩ := ih hbase
    refine ⟨text, v ++ [TokenKind.punctuator .dot,
      .identifier name], by rw [Expr.print, heq]; rfl, .inr ?_⟩
    rcases hv with rfl | ⟨u, rfl⟩ | ⟨k, u, rfl, hk⟩
    · exact .inl ⟨_, rfl⟩
    · exact .inl ⟨_, rfl⟩
    · exact .inr ⟨k, _, rfl, hk⟩
  | element _ hbase _ hindex ih _ =>
    obtain ⟨text, v, heq, hv⟩ := ih hbase
    obtain ⟨k, i, hi, hk⟩ := opens_print hindex
    refine ⟨text, v ++ TokenKind.punctuator .leftBracket ::
      (k :: i ++ [TokenKind.punctuator .rightBracket]), by rw [Expr.print, heq, hi]; rfl, .inr ?_⟩
    rcases hv with rfl | ⟨u, rfl⟩ | ⟨k', u, rfl, hk'⟩
    · exact .inr ⟨k, _, rfl, hk⟩
    · exact .inl ⟨_, rfl⟩
    · exact .inr ⟨k', _, rfl, hk'⟩
  | _ => cases hplace

end

/-- Readers for expressions whose operators are stronger than a bound give back what was printed, if
it is not too long. -/
def Inverts (cx : Context) (expression : Nat → ParseM Expr) (n : Nat) : Prop :=
  ∀ e : Expr, e.Shaped → ∀ (c : Prop) [Decidable c] (bound : Nat), (¬c → Holds (bound + 1) e) →
    (enclosed c e.print).length ≤ n → ∀ rest, Closed bound rest →
    Gives cx (expression bound) (enclosed c e.print ++ rest) (·.bare = e.bare) rest

section

variable {expression : Nat → ParseM Expr} {e : Expr} {bound : Nat} {T : Expr → Prop}

theorem Inverts.print (he : Inverts cx expression n) (hs : e.Shaped) (hlength : e.print.length ≤ n)
    (hrest : Closed 0 rest) : Gives cx (expression 0) (e.print ++ rest) (·.bare = e.bare) rest :=
  he e hs False 0 (fun _ => holds_one) hlength rest hrest

variable (he : Inverts cx expression n)

include he

theorem gives_call {span : Span} {callee : String} {args : List Expr} (hs : ∀ e ∈ args, e.Shaped)
    (hlength : (Expr.call span callee args).print.length ≤ n + 1)
    (hlimit : (Expr.call span callee args).print.length < cx.limit) :
    Gives cx (call (expression 0)) ((Expr.call span callee args).print ++ rest)
      (·.bare = (Expr.call span callee args).bare) rest := by
  simp only [Expr.print, Expr.printAll_eq_map, List.length_cons, List.length_append,
    List.cons_append, List.append_assoc, List.nil_append] at hlength hlimit ⊢
  have hcount := length_words_le (args.map Expr.print)
  rw [List.length_map] at hcount
  refine gives_name.bind fun head hhead => (gives_parenthesised
    (R := fun v e => v.bare = e.bare) (fun e hmem after hafter => ?_) (fun e hmem => ?_)
    (closed_sign (by simp) 0) (closed_sign (by simp) 0) (by omega)).bind fun tail htail => .pure ?_
  · have hle := length_le_listed (List.mem_map_of_mem (f := Expr.print) hmem)
    exact he.print (hs e hmem) (by omega) hafter
  · obtain ⟨k, v, heq, hk⟩ := opens_print (hs e hmem)
    exact ⟨k, v, heq, hk _ (by simp)⟩
  · simp only [Expr.bare, Expr.bareAll_eq_map, map_eq_map htail, hhead]

/-- After a place the loop has built the same place. -/
theorem gives_accesses (hplace : e.IsPlace) (hs : e.Shaped) (hlength : e.print.length ≤ n + 1)
    {m : Nat} (hm : m + e.print.length ≤ cx.limit)
    (hnext : ∀ base, base.bare = e.bare → ∀ k, m ≤ k →
      Gives cx (accesses (expression 0) k base) rest T rest') :
    Gives cx (place (expression 0)) (e.print ++ rest) T rest' := by
  induction hs generalizing rest m with
  | var span name =>
    refine gives_name.bind fun head hhead => answers_read.next (hnext _ ?_ _ (by omega))
    simp only [Expr.bare, hhead]
  | @field span base name hbase _ ih =>
    simp only [Expr.print, List.length_append, List.append_assoc, List.length_cons] at hlength hm ⊢
    refine ih hbase (by omega) (m := m + 1) (by omega) fun base' hbase' k hk => ?_
    obtain ⟨k, rfl⟩ := Nat.exists_eq_add_one.2 (Nat.zero_lt_of_lt hk)
    refine gives_accept_bind (gives_name.bind fun head hhead => hnext _ ?_ k (by omega))
    simp only [Expr.bare, hbase', hhead]
  | @element span base index hbase _ hindex ih _ =>
    simp only [Expr.print, List.length_append, List.append_assoc, List.length_cons,
      List.cons_append]
      at hlength hm ⊢
    refine ih hbase (by omega) (m := m + 1) (by omega) fun base' hbase' k hk => ?_
    obtain ⟨k, rfl⟩ := Nat.exists_eq_add_one.2 (Nat.zero_lt_of_lt hk)
    refine gives_skip_bind (by simp) (gives_accept_bind ?_)
    refine (he.print hindex (by omega) (closed_sign (by simp) 0 _)).bind fun i hi =>
      takes_expect.next fun _ => hnext _ ?_ k (by omega)
    simp only [Expr.bare, hbase', hi]
  | _ => cases hplace

theorem gives_place (hplace : e.IsPlace) (hs : e.Shaped) (hlength : e.print.length ≤ n + 1)
    (hlimit : e.print.length < cx.limit) (hrest : Whole rest) :
    Gives cx (place (expression 0)) (e.print ++ rest) (·.bare = e.bare) rest := by
  refine gives_accesses he hplace hs hlength (m := 1) (by omega) fun base hbase k hk => ?_
  obtain ⟨k, rfl⟩ := Nat.exists_eq_add_one.2 hk
  exact gives_skip_bind (hrest _ (by simp)) (gives_skip_bind (hrest _ (by simp)) (.pure hbase))

theorem gives_primary (hs : e.Shaped) (hstrength : UnaryOp.strength < e.strength)
    (hlength : e.print.length ≤ n + 1) (hlimit : e.print.length < cx.limit) (hrest : Whole rest) :
    Gives cx (primary (expression 0)) (e.print ++ rest) (·.bare = e.bare) rest := by
  have hplace : e.IsPlace →
      Gives cx (primary (expression 0)) (e.print ++ rest) (·.bare = e.bare) rest := by
    intro hplace
    have hgives := gives_place he hplace hs hlength hlimit hrest
    obtain ⟨text, v, heq, hv⟩ := place_print hplace hs
    have hsecond : (v ++ rest).head? ≠ some (.punctuator .leftParen) := by
      rcases hv with rfl | ⟨u, rfl⟩ | ⟨k, u, rfl, -⟩
      · exact hrest _ (by simp)
      · simp
      · simp
    rw [heq] at hgives ⊢
    refine gives_current_bind fun _ => (answers_ahead 1).next ?_
    rw [if_neg (by simpa [List.head?_eq_getElem?] using hsecond)]
    exact hgives
  cases hs with
  | int | text => exact gives_current_bind fun _ => takes_advance.next fun _ => .pure rfl
  | bool _ value =>
    cases value <;> exact gives_current_bind fun _ => takes_advance.next fun _ => .pure rfl
  | var | field | element => exact hplace True.intro
  | unary => exact absurd hstrength (Nat.lt_irrefl _)
  | binary _ op => exact absurd (strength_lt op) (Nat.lt_asymm hstrength)
  | call _ _ hargs =>
    exact gives_current_bind fun _ => (answers_ahead 1).next (gives_call he hargs hlength hlimit)

omit he in
/-- No sign of an operator in front begins what needs no parentheses. -/
theorem leadingOp?_primary (hs : e.Shaped) (hstrength : UnaryOp.strength < e.strength) :
    ∃ k v, e.print = k :: v ∧ leadingOp? k = none := by
  have hplace : e.IsPlace → ∃ k v, e.print = k :: v ∧ leadingOp? k = none := fun hplace => by
    obtain ⟨text, v, heq, -⟩ := place_print hplace hs
    exact ⟨_, v, heq, rfl⟩
  cases hs with
  | int | text | bool | call => exact ⟨_, _, rfl, rfl⟩
  | var | field | element => exact hplace True.intro
  | unary => exact absurd hstrength (Nat.lt_irrefl _)
  | binary _ op => exact absurd (strength_lt op) (Nat.lt_asymm hstrength)

section

variable {c : Prop} [Decidable c]

theorem gives_atom (hs : e.Shaped) (hc : ¬c → UnaryOp.strength < e.strength)
    (hlength : (enclosed c e.print).length ≤ n + 1)
    (hlimit : (enclosed c e.print).length < cx.limit) (hrest : Whole rest) :
    Gives cx (primary (expression 0)) (enclosed c e.print ++ rest) (·.bare = e.bare) rest := by
  unfold enclosed at hlength hlimit ⊢
  split at hlength
  · next h =>
    simp only [if_pos h, List.length_cons, List.length_append, List.cons_append, List.append_assoc,
      List.nil_append] at hlength ⊢
    refine gives_current_bind fun _ => takes_advance.next fun _ => ?_
    exact (he.print hs (by omega) (closed_sign (by simp) 0 _)).bind fun v hv =>
      takes_expect.next fun _ => .pure hv
  · next h =>
    rw [if_neg h] at hlimit ⊢
    exact gives_primary he hs (hc h) hlength hlimit hrest

omit he in
theorem leadingOp?_atom (hs : e.Shaped) (hc : ¬c → UnaryOp.strength < e.strength) :
    ∃ k v, enclosed c e.print = k :: v ∧ leadingOp? k = none := by
  unfold enclosed
  split
  · exact ⟨_, _, rfl, rfl⟩
  · next h => exact leadingOp?_primary hs (hc h)

theorem gives_operand_atom (hs : e.Shaped) (hc : ¬c → UnaryOp.strength < e.strength)
    (hlength : (enclosed c e.print).length ≤ n + 1)
    (hlimit : (enclosed c e.print).length < cx.limit) (hrest : Closed bound rest) :
    Gives cx (operand expression) (enclosed c e.print ++ rest) (·.bare = e.bare) rest := by
  have hatom := gives_atom he hs hc hlength hlimit hrest.whole
  obtain ⟨k, v, heq, hleading⟩ := leadingOp?_atom hs hc
  rw [heq] at hatom ⊢
  refine gives_current_bind fun _ => ?_
  simp only [hleading]
  refine hatom.bind fun v hv => gives_get_bind fun ts hts => ?_
  cases ts with
  | nil => exact .pure hv
  | cons t ts =>
    have htrailing : trailingOp? t.kind = none := hrest.trailing _ (by simp [← hts])
    simp only [List.head?_cons, htrailing]
    exact .pure hv

theorem gives_operand_trailing {op : UnaryOp} (htrails : op.trails = true) (hs : e.Shaped)
    (hc : ¬c → UnaryOp.strength < e.strength) (hlength : (enclosed c e.print).length ≤ n + 1)
    (hlimit : (enclosed c e.print).length < cx.limit) :
    Gives cx (operand expression) (enclosed c e.print ++ .punctuator op.sign :: rest)
      (·.bare = .unary Span.empty op e.bare) rest := by
  have hwhole : Whole (.punctuator op.sign :: rest) := by
    cases op <;> simp [UnaryOp.trails] at htrails <;> simp [Whole, UnaryOp.sign]
  have hatom := gives_atom he hs hc hlength hlimit hwhole
  obtain ⟨k, v, heq, hleading⟩ := leadingOp?_atom hs hc
  rw [heq] at hatom ⊢
  refine gives_current_bind fun _ => ?_
  simp only [hleading]
  refine hatom.bind fun v hv => gives_get_bind fun ts hts => ?_
  cases ts with
  | nil => cases hts
  | cons t ts =>
    have hkind : t.kind = .punctuator op.sign := (List.cons_eq_cons.1 hts).1
    simp only [List.head?_cons, hkind, trailingOp?_sign htrails]
    exact takes_advance.next fun _ => .pure (by rw [Expr.bare, hv])

theorem gives_operand_leading {op : UnaryOp} (htrails : op.trails = false) (hs : e.Shaped)
    (hc : ¬c → UnaryOp.strength ≤ e.strength) (hlength : (enclosed c e.print).length ≤ n)
    (hrest : Closed bound rest) :
    Gives cx (operand expression) (.punctuator op.sign :: (enclosed c e.print ++ rest))
      (·.bare = .unary Span.empty op e.bare) rest := by
  refine gives_current_bind fun _ => ?_
  simp only [leadingOp?_sign htrails]
  refine takes_advance.next fun _ => ?_
  have hclosed : Closed UnaryOp.strength rest :=
    ⟨hrest.whole, hrest.trailing, fun _ _ op _ => (strength_lt op).le⟩
  exact (he e hs c _ (fun h => holds_of_operand (hc h)) hlength rest hclosed).bind fun v hv =>
    .pure (by rw [Expr.bare, hv])

/-- An expression in parentheses, or without a binary operator outside of them. -/
theorem gives_operand (hs : e.Shaped) (hc : ¬c → UnaryOp.strength ≤ e.strength)
    (hlength : (enclosed c e.print).length ≤ n + 1)
    (hlimit : (enclosed c e.print).length < cx.limit) (hrest : Closed bound rest) :
    Gives cx (operand expression) (enclosed c e.print ++ rest) (·.bare = e.bare) rest := by
  by_cases hatom : ¬c → UnaryOp.strength < e.strength
  · exact gives_operand_atom he hs hatom hlength hlimit hrest
  · obtain ⟨hnot, hle⟩ := Classical.not_imp.1 hatom
    rw [enclosed, if_neg hnot] at hlength hlimit ⊢
    cases hs with
    | @unary _ op operand hoperand =>
      rw [Expr.print] at hlength hlimit ⊢
      cases htrails : op.trails with
      | true =>
        simp only [htrails, if_true, List.length_append, List.append_assoc, List.length_cons]
          at hlength hlimit ⊢
        exact gives_operand_trailing he htrails hoperand (fun h => by omega) (by omega) (by omega)
      | false =>
        simp only [htrails, Bool.false_eq_true, if_false, List.length_cons, List.cons_append]
          at hlength ⊢
        exact gives_operand_leading he htrails hoperand (fun h => by omega) (by omega) hrest
    | binary _ op => exact absurd (strength_lt op) (Nat.not_lt.2 (hc hnot))
    | _ => exact absurd (Nat.lt_succ_self _) hle

end

/-- After an expression the loop has built the same expression. -/
theorem gives_left (hs : e.Shaped) {c : Prop} [Decidable c] (hc : ¬c → Holds (bound + 1) e)
    {level : Nat} (hlevel : ¬c → Holds level e) (hlength : (enclosed c e.print).length ≤ n + 1)
    (hlimit : (enclosed c e.print).length < cx.limit) (hrest : Closed level rest) {m limit : Nat}
    (hnext : ∀ left, left.bare = e.bare → ∀ k, m ≤ k →
      Gives cx (operators expression bound k left) rest T rest')
    (hm : m + (enclosed c e.print).length ≤ limit) :
    Gives cx (operand expression >>= operators expression bound limit) (enclosed c e.print ++ rest)
      T rest' := by
  have hshaped := hs
  induction hs generalizing c level rest m with
  | @binary span op left right hleft hright ih _ =>
    by_cases h : c
    · exact (gives_operand he hshaped (absurd h) hlength hlimit hrest).bind fun left hleft =>
        hnext left hleft limit (by omega)
    · have hbound : bound < op.strength := hc h
      have hle : level ≤ op.strength := hlevel h
      simp only [enclosed, if_neg h] at hlength hlimit hm ⊢
      rw [Expr.print] at hlength hlimit hm ⊢
      simp only [List.length_append, List.length_cons, List.append_assoc, List.cons_append]
        at hlength hlimit hm ⊢
      -- the left operand is read first; then the loop meets the operator
      have hclosed := closed_operator (binaryOp?_sign op)
        (enclosed (right.strength ≤ op.strength) right.print ++ rest)
      refine ih (m := m + 1) (fun _ => holds_of_le (by omega)) (fun _ => holds_of_le (by omega))
        (by omega) (by omega) hclosed (fun left' hleft' k hk => ?_) (by omega) hleft
      obtain ⟨k, rfl⟩ := Nat.exists_eq_add_one.2 (Nat.zero_lt_of_lt hk)
      refine (answers_ahead 0).next ?_
      simp only [List.getElem?_cons_zero, Option.bind_some, binaryOp?_sign]
      rw [if_pos hbound]
      refine takes_advance.next fun _ => ?_
      refine (he right hright _ op.strength (fun _ => holds_of_le (by omega)) (by omega) rest
        (hrest.mono hle)).bind fun right' hright' => hnext _ ?_ k (by omega)
      rw [Expr.bare, hleft', hright', Expr.bare]
  | _ =>
    refine (gives_operand he hshaped (fun _ => ?_) hlength hlimit hrest).bind fun left hleft =>
      hnext left hleft limit (by omega)
    simp [Expr.strength]

end

/-- The loop stops where no stronger operator follows. -/
theorem gives_operators_none {expression : Nat → ParseM Expr} {bound : Nat}
    (hrest : Closed bound rest)
    {limit : Nat} (hlimit : 1 ≤ limit) {left : Expr} {T : Expr → Prop} (hleft : T left) :
    Gives cx (operators expression bound limit left) rest T rest := by
  obtain ⟨limit, rfl⟩ := Nat.exists_eq_add_one.2 hlimit
  refine (answers_ahead 0).next ?_
  rw [← List.head?_eq_getElem?]
  cases hop : rest.head?.bind binaryOp? with
  | none => exact .pure hleft
  | some op =>
    obtain ⟨k, hk, hop'⟩ := Option.bind_eq_some_iff.1 hop
    have hle := hrest.operator k hk op hop'
    simp only
    rw [if_neg (by omega)]
    exact .pure hleft

/-- The reader for expressions inverts printing. -/
theorem inverts_expressionAt {depth : Nat} (hn : n ≤ depth) (hlimit : n < cx.limit) :
    Inverts cx (expressionAt depth) n := by
  induction depth generalizing n with
  | zero =>
    intro e hs c _ bound hc hlength
    obtain ⟨k, v, heq, -⟩ := enclosed_cons (c := c) (opens_print hs)
    simp [heq] at hlength
    omega
  | succ depth ih =>
    intro e hs c _ bound hc hlength rest hrest
    have hgives : Gives cx (operand (expressionAt depth) >>=
        operators (expressionAt depth) bound cx.limit) (enclosed c e.print ++ rest)
        (·.bare = e.bare) rest := by
      exact gives_left (n := n - 1) (m := 1) (ih (by omega) (by omega)) hs hc
        (fun h => (hc h).mono (by omega)) (by omega) (by omega) hrest
        (fun left hleft k hk => gives_operators_none hrest hk hleft) (by omega)
    exact fun ts hts => hgives ts hts

end Parser

end MiniJ
