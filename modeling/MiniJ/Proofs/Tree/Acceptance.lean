import MiniJ.Proofs.Tree.Reading

/-!
# Words that readers accept

A reader succeeds on every word of its nonterminal if what stands behind it cannot continue the
word, and leaves exactly what stands behind. The limits are no obstacle: a word has more tokens than
parts and nested expressions or statements.
-/
namespace MiniJ

namespace Parser

open scoped Computability

variable {α β : Type} {x : ParseM α} {f : α → ParseM β} {cx : Context} {k : TokenKind}
  {w ks rest : List TokenKind} {n : Nat} {s : Punctuator}

/-- A reader succeeds on tokens of these kinds and leaves the rest. -/
def Takes (cx : Context) (x : ParseM α) (ks rest : List TokenKind) : Prop :=
  ∀ ts, kinds ts = ks → ∃ v ts', (x.run cx).run ts = .ok (v, ts') ∧ kinds ts' = rest

/-- A reader gives a value without consuming anything. -/
def Answers (cx : Context) (x : ParseM α) (ks : List TokenKind) (v : α) : Prop :=
  ∀ ts, kinds ts = ks → (x.run cx).run ts = .ok (v, ts)

theorem Takes.pure (v : α) : Takes cx (pure v) ks ks := fun ts hts => ⟨v, ts, rfl, hts⟩

theorem Takes.bind {ks' : List TokenKind} (hx : Takes cx x ks ks')
    (hf : ∀ v, Takes cx (f v) ks' rest) : Takes cx (x >>= f) ks rest := by
  intro ts hts
  obtain ⟨v, ts₁, hv, hts₁⟩ := hx ts hts
  rw [run_bind, hv]
  exact hf v ts₁ hts₁

theorem Takes.finish (hx : Takes cx x ks rest) (hf : ∀ v, Takes cx (f v) rest rest) :
    Takes cx (x >>= f) ks rest := hx.bind hf

theorem Answers.pure (v : α) : Answers cx (pure v) ks v := fun _ _ => rfl

theorem Answers.bind {v : α} (hx : Answers cx x ks v) (hf : Takes cx (f v) ks rest) :
    Takes cx (x >>= f) ks rest := by
  intro ts hts
  rw [run_bind, hx ts hts]
  exact hf ts hts

theorem Answers.trans {v : α} {u : β} (hx : Answers cx x ks v) (hf : Answers cx (f v) ks u) :
    Answers cx (x >>= f) ks u := by
  intro ts hts
  rw [run_bind, hx ts hts]
  exact hf ts hts

theorem answers_read : Answers cx read ks cx := fun _ _ => rfl

theorem answers_ahead (distance : Nat) : Answers cx (ahead distance) ks ks[distance]? := by
  intro ts hts
  rw [run_ahead, hts]

theorem answers_next (s : Punctuator) :
    Answers cx (next s) ks (decide (ks.head? = some (.punctuator s))) := by
  intro ts hts
  rw [run_next, hts]

theorem takes_current_bind {f : Token → ParseM β}
    (hf : ∀ span, Takes cx (f ⟨k, span⟩) (k :: ks) rest) : Takes cx (current >>= f)
    (k :: ks) rest := by
  intro ts hts
  cases ts with
  | nil => cases hts
  | cons t ts =>
    obtain ⟨rfl, rfl⟩ := List.cons_eq_cons.1 hts
    exact hf t.span (t :: ts) rfl

theorem takes_get_bind {f : List Token → ParseM β}
    (hf : ∀ ts, kinds ts = ks → Takes cx (f ts) ks rest) : Takes cx (get >>= f) ks rest :=
  fun ts hts => hf ts hts ts hts

theorem takes_advance : Takes cx advance (k :: ks) ks := by
  intro ts hts
  cases ts with
  | nil => cases hts
  | cons t ts => exact ⟨(), ts, rfl, (List.cons_eq_cons.1 hts).2⟩

theorem takes_expect : Takes cx (expect s) (.punctuator s :: ks) ks := by
  refine takes_current_bind fun span => ?_
  rw [if_pos rfl]
  exact takes_advance.finish fun _ => .pure _

theorem takes_name {text : String} : Takes cx name (.identifier text :: ks) ks :=
  takes_current_bind fun _ => takes_advance.finish fun _ => .pure _

theorem takes_accept_bind {f : Bool → ParseM β} (hf : Takes cx (f true) ks rest) :
    Takes cx (accept s >>= f) (.punctuator s :: ks) rest := by
  intro ts hts
  cases ts with
  | nil => cases hts
  | cons t ts =>
    rw [run_bind, run_accept, hts, List.head?_cons, if_pos rfl]
    exact hf ts (List.cons_eq_cons.1 hts).2

theorem takes_skip_bind {f : Bool → ParseM β} (hs : ks.head? ≠ some (.punctuator s))
    (hf : Takes cx (f false) ks rest) : Takes cx (accept s >>= f) ks rest := by
  intro ts hts
  rw [run_bind, run_accept, hts, if_neg hs]
  exact hf ts hts

/-! ### Repeated items -/

/-- As many words as are not empty fit in their number of tokens. -/
theorem length_le_flatten {L : List (List TokenKind)} (h : ∀ w ∈ L, w ≠ []) :
    L.length ≤ L.flatten.length := by
  induction L with
  | nil => simp
  | cons w L ih =>
    have hw := List.length_pos_iff.2 (h w (by simp))
    have hL := ih fun v hv => h v (by simp [hv])
    simp only [List.flatten_cons, List.length_append, List.length_cons]
    omega

theorem takes_manyWhile {more : ParseM Bool} {item : ParseM α} {L : List (List TokenKind)}
    {F : List TokenKind → Prop} (hmore : ∀ w ∈ L, ∀ after, Answers cx more (w ++ after) true)
    (hstop : Answers cx more rest false)
    (hitem : ∀ w ∈ L, ∀ after, F after → Takes cx item (w ++ after) after)
    (hfollow : ∀ w ∈ L, ∀ after, F (w ++ after)) (hrest : F rest) {limit : Nat}
    (hlimit : L.length < limit) :
    Takes cx (manyWhile more item limit) (L.flatten ++ rest) rest := by
  induction L generalizing limit with
  | nil =>
    obtain ⟨limit, rfl⟩ := Nat.exists_eq_add_one.2 hlimit
    exact hstop.bind (.pure _)
  | cons w L ih =>
    obtain ⟨limit, rfl⟩ := Nat.exists_eq_add_one.2 (Nat.zero_lt_of_lt hlimit)
    have hlater : F (L.flatten ++ rest) := by
      cases L with
      | nil => exact hrest
      | cons v L =>
        rw [List.flatten_cons, List.append_assoc]
        exact hfollow v (by simp) _
    rw [List.flatten_cons, List.append_assoc]
    refine (hmore w (by simp) _).bind ((hitem w (by simp) _ hlater).bind fun _ => ?_)
    refine (ih (fun v hv => hmore v (by simp [hv])) (fun v hv => hitem v (by simp [hv]))
      (fun v hv => hfollow v (by simp [hv])) ?_).finish fun _ => .pure _
    simpa using hlimit

theorem takes_commaSeparated {item : ParseM α} {A : Language TokenKind} {F : List TokenKind → Prop}
    (hitem : ∀ w ∈ A, w.length ≤ n → ∀ after, F after → Takes cx item (w ++ after) after)
    (hcomma : ∀ after, F (.punctuator .comma :: after)) (hrest : F rest)
    (hend : rest.head? ≠ some (.punctuator .comma))
    (hw : w ∈ A * (Grammar.sign .comma * A)∗) (hlength : w.length ≤ n) {limit : Nat}
    (hlimit : w.length < limit) : Takes cx (commaSeparated item limit) (w ++ rest) rest := by
  obtain ⟨first, hfirst, _, ⟨L, rfl, hL⟩, rfl⟩ := hw
  induction L generalizing first limit with
  | nil =>
    obtain ⟨limit, rfl⟩ := Nat.exists_eq_add_one.2 (Nat.zero_lt_of_lt hlimit)
    simp only [List.flatten_nil, List.append_nil] at hlength ⊢
    exact (hitem first hfirst hlength rest hrest).bind fun _ => takes_skip_bind hend (.pure _)
  | cons part L ih =>
    obtain ⟨limit, rfl⟩ := Nat.exists_eq_add_one.2 (Nat.zero_lt_of_lt hlimit)
    obtain ⟨_, rfl, second, hsecond, rfl⟩ := hL part (by simp)
    simp only [List.flatten_cons, List.length_append, List.length_cons,
      List.append_assoc, List.cons_append, List.nil_append] at hlength hlimit ⊢
    refine (hitem first hfirst (by omega) _ (hcomma _)).bind fun _ => takes_accept_bind ?_
    rw [← List.append_assoc]
    refine (ih second hsecond (fun v hv => hL v (by simp [hv])) ?_ ?_).finish fun _ => .pure _
    · simp only [List.length_append]
      omega
    · simp only [List.length_append]
      omega

theorem takes_parenthesised {item : ParseM α} {A : Language TokenKind} {F : List TokenKind → Prop}
    (hitem : ∀ w ∈ A, w.length ≤ n → ∀ after, F after → Takes cx item (w ++ after) after)
    (hstart : ∀ w ∈ A, ∃ k v, w = k :: v ∧ k ≠ .punctuator .rightParen)
    (hcomma : ∀ after, F (.punctuator .comma :: after))
    (hparen : ∀ after, F (.punctuator .rightParen :: after))
    (hw : w ∈ Grammar.separated A) (hlength : w.length ≤ n) (hlimit : w.length < cx.limit) :
    Takes cx (parenthesised item)
      (.punctuator .leftParen :: (w ++ .punctuator .rightParen :: rest)) rest := by
  refine takes_expect.bind fun _ => (answers_next _).bind ?_
  rcases hw with rfl | hw
  · exact takes_expect.finish fun _ => .pure _
  · have hne : (w ++ .punctuator .rightParen :: rest).head? ≠ some (.punctuator .rightParen) := by
      obtain ⟨first, hfirst, _, -, rfl⟩ := hw
      obtain ⟨k, v, rfl, hk⟩ := hstart first hfirst
      simpa using hk
    rw [decide_eq_false hne]
    refine answers_read.bind ?_
    exact (takes_commaSeparated hitem hcomma (hparen _) (by simp) hw hlength hlimit).bind fun _ =>
      takes_expect.finish fun _ => .pure _

/-! ### Expressions -/

/-- Tokens that can begin an expression. -/
def Opens (k : TokenKind) : Prop :=
  ∀ s ∈ [Punctuator.rightParen, .rightBracket, .semicolon, .rightBrace], k ≠ .punctuator s

/-- Nothing that comes next continues a place. -/
def Whole (rest : List TokenKind) : Prop :=
  ∀ s ∈ [Punctuator.leftParen, .leftBracket, .dot], rest.head? ≠ some (.punctuator s)

/-- Nothing that comes next continues an expression whose operators are stronger than `bound`. -/
structure Closed (bound : Nat) (rest : List TokenKind) : Prop where
  whole : Whole rest
  trailing : ∀ k ∈ rest.head?, trailingOp? k = none
  operator : ∀ k ∈ rest.head?, ∀ op, binaryOp? k = some op → op.strength ≤ bound

variable {bound : Nat}

theorem Closed.mono {bound' : Nat} (h : Closed bound rest) (hle : bound ≤ bound') :
    Closed bound' rest :=
  ⟨h.whole, h.trailing, fun k hk op hop => (h.operator k hk op hop).trans hle⟩

/-- The signs that stand behind expressions. -/
theorem closed_sign (hs : s ∈ [Punctuator.rightParen, .rightBracket, .comma, .semicolon, .assign])
    (bound : Nat) (ks : List TokenKind) : Closed bound (.punctuator s :: ks) := by
  simp only [List.mem_cons, List.not_mem_nil, or_false] at hs
  rcases hs with rfl | rfl | rfl | rfl | rfl <;>
    exact ⟨by simp [Whole], by simp [trailingOp?], by simp [binaryOp?]⟩

section

variable {e : ParseM Expr} {E : Language TokenKind}

/-- A reader succeeds on the expressions that are not too long. -/
def Reads (cx : Context) (e : ParseM Expr) (E : Language TokenKind) (n : Nat) : Prop :=
  ∀ w ∈ E, w.length ≤ n → ∀ rest, Closed 0 rest → Takes cx e (w ++ rest) rest

theorem takes_call (he : Reads cx e E n) (hopens : ∀ w ∈ E, ∃ k v, w = k :: v ∧ Opens k)
    (hw : w ∈ Grammar.call E) (hlength : w.length ≤ n + 1) (hlimit : w.length < cx.limit) :
    Takes cx (call e) (w ++ rest) rest := by
  rw [Grammar.call, mul_assoc, mul_assoc] at hw
  obtain ⟨_, ⟨text, rfl⟩, _, ⟨_, rfl, _, ⟨args, hargs, _, rfl, rfl⟩, rfl⟩, rfl⟩ := hw
  simp only [List.cons_append, List.nil_append, List.append_assoc, List.length_cons,
    List.length_append] at hlength hlimit ⊢
  refine takes_name.bind fun _ => (takes_parenthesised he (fun v hv => ?_) (closed_sign (by simp) 0)
    (closed_sign (by simp) 0) hargs (by omega) (by omega)).finish fun _ => .pure _
  obtain ⟨k, v, rfl, hk⟩ := hopens v hv
  exact ⟨k, v, rfl, hk _ (by simp)⟩

theorem takes_accesses (he : Reads cx e E n) {L : List (List TokenKind)}
    (hL : ∀ v ∈ L, v ∈ Grammar.access E) (hlength : L.flatten.length ≤ n) (hrest : Whole rest)
    {limit : Nat} (hlimit : L.length < limit) (base : Expr) :
    Takes cx (accesses e limit base) (L.flatten ++ rest) rest := by
  induction L generalizing limit base with
  | nil =>
    obtain ⟨limit, rfl⟩ := Nat.exists_eq_add_one.2 (Nat.zero_lt_of_lt hlimit)
    exact takes_skip_bind (hrest _ (by simp))
      (takes_skip_bind (hrest _ (by simp)) (.pure _))
  | cons v L ih =>
    obtain ⟨limit, rfl⟩ := Nat.exists_eq_add_one.2 (Nat.zero_lt_of_lt hlimit)
    have hlimit' : L.length < limit := by simpa using hlimit
    have hL' := fun u hu => hL u (List.mem_cons_of_mem _ hu)
    have hv := hL v (by simp)
    rw [Grammar.access, mul_assoc] at hv
    rcases hv with ⟨_, rfl, _, ⟨text, rfl⟩, rfl⟩ | ⟨_, rfl, _, ⟨index, hindex, _, rfl, rfl⟩, rfl⟩
    all_goals
      simp only [List.flatten_cons, List.cons_append, List.nil_append, List.append_assoc,
        List.length_cons, List.length_append] at hlength ⊢
    · exact takes_accept_bind (takes_name.bind fun _ => ih hL' (by omega) hlimit' _)
    · refine takes_skip_bind (by simp) (takes_accept_bind ?_)
      refine (he index hindex (by omega) _ (closed_sign (by simp) 0 _)).bind fun _ => ?_
      exact takes_expect.bind fun _ => ih hL' (by omega) hlimit' _

theorem access_ne_nil (hw : w ∈ Grammar.access E) : w ≠ [] := by
  rw [Grammar.access, mul_assoc] at hw
  rcases hw with ⟨_, rfl, _, -, rfl⟩ | ⟨_, rfl, _, -, rfl⟩ <;> simp

theorem takes_place (he : Reads cx e E n) (hw : w ∈ Grammar.place E) (hlength : w.length ≤ n + 1)
    (hlimit : w.length < cx.limit) (hrest : Whole rest) : Takes cx (place e) (w ++ rest) rest := by
  obtain ⟨_, ⟨text, rfl⟩, _, ⟨L, rfl, hL⟩, rfl⟩ := hw
  have hcount := length_le_flatten fun v hv => access_ne_nil (hL v hv)
  simp only [List.cons_append, List.nil_append, List.length_cons] at hlength hlimit ⊢
  exact takes_name.bind fun _ =>
    answers_read.bind (takes_accesses he hL (by omega) hrest (by omega) _)

/-- A call begins with a name and a parenthesis. -/
theorem call_cases (hw : w ∈ Grammar.call E) :
    ∃ text v, w = .identifier text :: .punctuator .leftParen :: v := by
  rw [Grammar.call, mul_assoc, mul_assoc] at hw
  obtain ⟨_, ⟨text, rfl⟩, _, ⟨_, rfl, v, -, rfl⟩, rfl⟩ := hw
  exact ⟨text, v, rfl⟩

/-- A place is a name, or begins with a name and an access. -/
theorem place_cases (hw : w ∈ Grammar.place E) : ∃ text, w = [.identifier text] ∨
    (∃ v, w = .identifier text :: .punctuator .dot :: v) ∨
    ∃ u ∈ E, ∃ v, w = .identifier text :: .punctuator .leftBracket :: (u ++ v) := by
  obtain ⟨_, ⟨text, rfl⟩, _, ⟨L, rfl, hL⟩, rfl⟩ := hw
  refine ⟨text, ?_⟩
  cases L with
  | nil => exact .inl rfl
  | cons v L =>
    have hv := hL v (by simp)
    rw [Grammar.access, mul_assoc] at hv
    rcases hv with ⟨_, rfl, u, -, rfl⟩ | ⟨_, rfl, _, ⟨u, hu, v, -, rfl⟩, rfl⟩
    · exact .inr (.inl ⟨u ++ L.flatten, rfl⟩)
    · exact .inr (.inr ⟨u, hu, v ++ L.flatten, by simp⟩)

/-- No parenthesis follows the name a place begins with. -/
theorem place_second (hw : w ∈ Grammar.place E) (hrest : Whole rest) :
    ∃ text v, w = .identifier text :: v ∧ (v ++ rest).head? ≠ some (.punctuator .leftParen) := by
  obtain ⟨text, rfl | ⟨v, rfl⟩ | ⟨u, -, v, rfl⟩⟩ := place_cases hw
  · exact ⟨text, [], rfl, hrest _ (by simp)⟩
  · exact ⟨text, _, rfl, by simp⟩
  · exact ⟨text, _, rfl, by simp⟩

theorem opens_primary (hw : w ∈ Grammar.primary E) :
    ∃ k v, w = k :: v ∧ Opens k ∧ leadingOp? k = none := by
  rw [Grammar.primary, Grammar.call, mul_assoc, mul_assoc, mul_assoc] at hw
  rcases hw with ((((⟨_, rfl, _, -, rfl⟩ | ⟨_, ⟨text, rfl⟩, _, -, rfl⟩) | rfl) | rfl) |
    (⟨v, rfl⟩ | ⟨v, rfl⟩)) | ⟨_, ⟨text, rfl⟩, _, -, rfl⟩
  all_goals exact ⟨_, _, rfl, by simp [Opens], rfl⟩

theorem takes_primary (he : Reads cx e E n) (hopens : ∀ w ∈ E, ∃ k v, w = k :: v ∧ Opens k)
    (hw : w ∈ Grammar.primary E) (hlength : w.length ≤ n + 1) (hlimit : w.length < cx.limit)
    (hrest : Whole rest) : Takes cx (primary e) (w ++ rest) rest := by
  unfold Grammar.primary at hw
  rw [mul_assoc] at hw
  rcases hw with ((((⟨_, rfl, _, ⟨v, hv, _, rfl, rfl⟩, rfl⟩ | hcall) | rfl) | rfl) |
    (⟨v, rfl⟩ | ⟨v, rfl⟩)) | hplace
  · simp only [List.cons_append, List.nil_append, List.append_assoc, List.length_cons,
      List.length_append] at hlength ⊢
    refine takes_current_bind fun _ => takes_advance.bind fun _ => ?_
    exact (he v hv (by omega) _ (closed_sign (by simp) 0 _)).bind fun _ =>
      takes_expect.finish fun _ => .pure _
  · have htakes := @takes_call cx _ rest n e E he hopens hcall hlength hlimit
    obtain ⟨text, v, rfl⟩ := call_cases hcall
    exact takes_current_bind fun _ => (answers_ahead 1).bind htakes
  · exact takes_current_bind fun _ => takes_advance.finish fun _ => .pure _
  · exact takes_current_bind fun _ => takes_advance.finish fun _ => .pure _
  · exact takes_current_bind fun _ => takes_advance.finish fun _ => .pure _
  · exact takes_current_bind fun _ => takes_advance.finish fun _ => .pure _
  · have htakes := takes_place he hplace hlength hlimit hrest
    obtain ⟨text, v, rfl, hsecond⟩ := place_second hplace hrest
    refine takes_current_bind fun _ => (answers_ahead 1).bind ?_
    rw [if_neg (by simpa [List.head?_eq_getElem?] using hsecond)]
    exact htakes

theorem opens_unary (hw : w ∈ Grammar.unary E) : ∃ k v, w = k :: v ∧ Opens k := by
  rw [Grammar.unary_eq] at hw
  rcases hw with ⟨_, ⟨s, hs, rfl⟩, v, -, rfl⟩ | ⟨_, hprimary, v, -, rfl⟩
  · refine ⟨_, _, rfl, ?_⟩
    simp only [Grammar.leading, List.mem_cons, List.not_mem_nil, or_false] at hs
    rcases hs with rfl | rfl | rfl | rfl <;> simp [Opens]
  · obtain ⟨k, u, rfl, hk, -⟩ := opens_primary hprimary
    exact ⟨k, u ++ v, rfl, hk⟩

theorem opens_level (hw : w ∈ Grammar.level E bound) : ∃ k v, w = k :: v ∧ Opens k := by
  unfold Grammar.level at hw
  generalize Grammar.strengths.drop bound = signs at hw
  induction signs generalizing w with
  | nil => exact opens_unary hw
  | cons signs stronger ih =>
    obtain ⟨u, hu, v, -, rfl⟩ := hw
    obtain ⟨k, u, rfl, hk⟩ := ih hu
    exact ⟨k, u ++ v, rfl, hk⟩

variable {expression : Nat → ParseM Expr}

theorem takes_operand (hclosed : E ≤ Grammar.level E 0)
    (he : ∀ bound, ∀ w ∈ Grammar.level E bound, w.length ≤ n → ∀ rest, Closed bound rest →
      Takes cx (expression bound) (w ++ rest) rest)
    (hw : w ∈ Grammar.unary E) (hlength : w.length ≤ n + 1) (hlimit : w.length < cx.limit)
    (hrest : Closed bound rest) : Takes cx (operand expression) (w ++ rest) rest := by
  rw [Grammar.unary_eq] at hw
  rcases hw with ⟨_, ⟨s, hs, rfl⟩, v, hv, rfl⟩ | ⟨u, hu, v, hv, rfl⟩
  · simp only [List.cons_append, List.nil_append, List.length_cons] at hlength ⊢
    refine takes_current_bind fun span => ?_
    obtain ⟨op, hop⟩ := Option.isSome_iff_exists.1 (leadingOp?_isSome.2 ⟨s, hs, rfl⟩)
    simp only [hop]
    refine takes_advance.bind fun _ => ?_
    have hseven : ∀ op : BinaryOp, op.strength ≤ UnaryOp.strength := by
      intro op
      cases op <;> decide
    refine (he UnaryOp.strength v hv (by omega) rest ?_).finish fun _ => .pure _
    exact ⟨hrest.whole, hrest.trailing, fun _ _ op _ => hseven op⟩
  · obtain ⟨k, u, rfl, -, hleading⟩ := opens_primary hu
    have hprimary : ∀ after, Whole after →
        Takes cx (primary (expression 0)) (k :: u ++ after) after := fun after hafter =>
      takes_primary (fun v hv => he 0 v (hclosed hv)) (fun v hv => opens_level (hclosed hv)) hu
        (by simp at hlength ⊢; omega) (by simp at hlimit ⊢; omega) hafter
    rw [List.append_assoc]
    refine takes_current_bind fun span => ?_
    simp only [hleading]
    rcases hv with rfl | ⟨s, hs, rfl⟩
    · refine (hprimary _ hrest.whole).bind fun _ => takes_get_bind fun ts hts => ?_
      cases ts with
      | nil => exact .pure _
      | cons t ts =>
        have htrailing : trailingOp? t.kind = none := hrest.trailing _ (by simp [← hts])
        simp only [List.head?_cons, htrailing]
        exact .pure _
    · obtain ⟨op, hop⟩ := Option.isSome_iff_exists.1 (trailingOp?_isSome.2 ⟨s, hs, rfl⟩)
      have hwhole : Whole (.punctuator s :: rest) := by
        simp only [Grammar.trailing, List.mem_cons, List.not_mem_nil, or_false] at hs
        rcases hs with rfl | rfl <;> simp [Whole]
      refine (hprimary _ hwhole).bind fun _ => takes_get_bind fun ts hts => ?_
      cases ts with
      | nil => cases hts
      | cons t ts =>
        have hkind : t.kind = .punctuator s := (List.cons_eq_cons.1 hts).1
        simp only [List.head?_cons, hkind, hop]
        exact takes_advance.finish fun _ => .pure _

/-- The signs of a strength are operators of that strength. -/
theorem strength_of_mem {signs : List Punctuator} {stronger : List (List Punctuator)}
    (h : Grammar.strengths.drop bound = signs :: stronger) (hs : s ∈ signs) :
    ∃ op, binaryOp? (.punctuator s) = some op ∧ op.strength = bound + 1 := by
  match bound with
  | 0 | 1 | 2 | 3 | 4 | 5 =>
    cases h
    cases s <;> first | exact absurd hs (by decide) | exact ⟨_, rfl, rfl⟩
  | bound + 6 => simp [Grammar.strengths] at h

/-- An operator ends the expressions whose operators are stronger. -/
theorem closed_operator {op : BinaryOp} (h : binaryOp? k = some op) (ks : List TokenKind) :
    Closed op.strength (k :: ks) := by
  refine ⟨fun s hs => ?_, ?_, ?_⟩
  · rintro ⟨⟩
    simp only [List.mem_cons, List.not_mem_nil, or_false] at hs
    rcases hs with rfl | rfl | rfl <;> cases h
  · rintro k ⟨⟩
    cases htrailing : trailingOp? k with
    | none => rfl
    | some op' =>
      obtain ⟨s, hs, rfl⟩ := trailingOp?_isSome.1 (Option.isSome_of_mem htrailing)
      simp only [Grammar.trailing, List.mem_cons, List.not_mem_nil, or_false] at hs
      rcases hs with rfl | rfl <;> cases h
  · rintro k ⟨⟩ op' hop'
    cases h.symm.trans hop'
    exact Nat.le_refl _

section

variable {signs : List Punctuator} {level m : Nat} {L : List (List TokenKind)}
  {rest' : List TokenKind}
  (he : ∀ bound, ∀ w ∈ Grammar.level E bound, w.length ≤ n → ∀ rest, Closed bound rest →
    Takes cx (expression bound) (w ++ rest) rest)
  (hsigns : Grammar.strengths.drop level = signs :: Grammar.strengths.drop (level + 1))
  (hL : ∀ v ∈ L, v ∈ Grammar.oneOf signs * Grammar.level E (level + 1))
  (hrest : Closed level rest)

include hsigns hL hrest

theorem closed_flatten : Closed (level + 1) (L.flatten ++ rest) := by
  cases L with
  | nil => exact hrest.mono (Nat.le_succ level)
  | cons v L =>
    obtain ⟨_, ⟨s, hs, rfl⟩, u, -, rfl⟩ := hL v (by simp)
    obtain ⟨op, hop, hstrength⟩ := strength_of_mem hsigns hs
    rw [← hstrength]
    exact closed_operator hop _

include he

/-- The loop takes the operators of one strength and goes on with what is behind them. -/
theorem takes_operators (hbound : bound ≤ level) (hlength : L.flatten.length ≤ n)
    (hnext : ∀ left k, m ≤ k → Takes cx (operators expression bound k left) rest rest')
    {limit : Nat} (hlimit : m + L.length ≤ limit) (left : Expr) :
    Takes cx (operators expression bound limit left) (L.flatten ++ rest) rest' := by
  induction L generalizing limit left with
  | nil => exact hnext left limit hlimit
  | cons v L ih =>
    have hL' := fun u hu => hL u (List.mem_cons_of_mem _ hu)
    obtain ⟨limit, rfl⟩ : ∃ l, limit = l + 1 :=
      Nat.exists_eq_add_one_of_ne_zero (by simp at hlimit; omega)
    obtain ⟨_, ⟨s, hs, rfl⟩, u, hu, rfl⟩ := hL v (by simp)
    obtain ⟨op, hop, hstrength⟩ := strength_of_mem hsigns hs
    simp only [List.flatten_cons, List.cons_append, List.nil_append, List.append_assoc,
      List.length_cons, List.length_append] at hlength hlimit ⊢
    refine (answers_ahead 0).bind ?_
    simp only [List.getElem?_cons_zero, Option.bind_some, hop, hstrength]
    rw [if_pos (by omega)]
    refine takes_advance.bind fun _ => ?_
    refine (he (level + 1) u hu (by omega) _ (closed_flatten hsigns hL' hrest)).bind fun _ => ?_
    exact ih hL' (by omega) (by omega) _

end

/-- An operand and the operators behind it. -/
theorem takes_level {level m : Nat} {rest' : List TokenKind} (hclosed : E ≤ Grammar.level E 0)
    (he : ∀ bound, ∀ w ∈ Grammar.level E bound, w.length ≤ n → ∀ rest, Closed bound rest →
      Takes cx (expression bound) (w ++ rest) rest)
    (hw : w ∈ Grammar.level E level) (hbound : bound ≤ level) (hlength : w.length ≤ n + 1)
    (hlimit : w.length < cx.limit) (hrest : Closed level rest)
    (hnext : ∀ left k, m ≤ k → Takes cx (operators expression bound k left) rest rest')
    {limit : Nat} (hm : m + w.length ≤ limit) :
    Takes cx (operand expression >>= operators expression bound limit) (w ++ rest) rest' := by
  generalize hsigns : Grammar.strengths.drop level = signs
  rw [Grammar.level, hsigns] at hw
  induction signs generalizing level w rest m with
  | nil =>
    exact (takes_operand hclosed he hw hlength hlimit hrest).bind fun left =>
      hnext left limit (by omega)
  | cons first stronger ih =>
    obtain rfl : stronger = Grammar.strengths.drop (level + 1) := by
      rw [← List.tail_drop, hsigns, List.tail_cons]
    obtain ⟨u, hu, _, ⟨L, rfl, hL⟩, rfl⟩ := hw
    have hcount : L.length ≤ L.flatten.length := length_le_flatten fun v hv => by
      obtain ⟨_, ⟨s, -, rfl⟩, v, -, rfl⟩ := hL v hv
      simp
    obtain ⟨k, u, rfl, -⟩ := opens_level (show u ∈ Grammar.level E (level + 1) from hu)
    simp only [List.length_append, List.length_cons] at hlength hlimit hm
    rw [List.append_assoc]
    refine ih (m := m + L.length) (by omega) (by simp; omega) (by simp; omega)
      (closed_flatten hsigns hL hrest) (fun left k hk => ?_) (by simp; omega) hu rfl
    exact takes_operators he hsigns hL hrest hbound (by omega) hnext hk left

/-- The loop stops where no stronger operator follows. -/
theorem takes_operators_none (hrest : Closed bound rest) {limit : Nat} (hlimit : 1 ≤ limit)
    (left : Expr) : Takes cx (operators expression bound limit left) rest rest := by
  obtain ⟨limit, rfl⟩ := Nat.exists_eq_add_one.2 hlimit
  refine (answers_ahead 0).bind ?_
  rw [← List.head?_eq_getElem?]
  cases hop : rest.head?.bind binaryOp? with
  | none => exact .pure _
  | some op =>
    obtain ⟨k, hk, hop'⟩ := Option.bind_eq_some_iff.1 hop
    have hle := hrest.operator k hk op hop'
    simp only
    rw [if_neg (by omega)]
    exact .pure _

end

/-- The reader for expressions succeeds on every expression. -/
theorem takes_expressionAt {depth : Nat} (hw : w ∈ Grammar.level Grammar.expression bound)
    (hdepth : w.length ≤ depth) (hlimit : w.length < cx.limit) (hrest : Closed bound rest) :
    Takes cx (expressionAt depth bound) (w ++ rest) rest := by
  induction depth generalizing bound w rest with
  | zero =>
    obtain ⟨k, v, rfl, -⟩ := opens_level hw
    simp at hdepth
  | succ depth ih =>
    have htakes : Takes cx (operand (expressionAt depth) >>=
        operators (expressionAt depth) bound cx.limit) (w ++ rest) rest :=
      takes_level (n := min depth (cx.limit - 1)) (m := 1) Grammar.expression_eq.ge
        (fun bound v hv hlength rest hrest => ih hv (by omega) (by omega) hrest) hw
        (Nat.le_refl bound) (by omega) hlimit hrest
        (fun left k hk => takes_operators_none hrest hk left) (by omega)
    exact fun ts hts => htakes ts hts

theorem reads_expression (hn : n < cx.limit) : Reads cx expression Grammar.expression n := by
  intro w hw hlength rest hrest
  rw [← Grammar.expression_eq] at hw
  exact answers_read.bind (takes_expressionAt hw (by omega) (by omega) hrest)

theorem opens_expression (hw : w ∈ Grammar.expression) : ∃ k v, w = k :: v ∧ Opens k := by
  rw [← Grammar.expression_eq] at hw
  exact opens_level hw

end Parser

end MiniJ
