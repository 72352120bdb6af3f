import MiniJ.Proofs.Outcome
import MiniJ.Proofs.Tree.Grammar
import MiniJ.Tree.Parser

/-!
# Words that readers consume

A reader that succeeds has consumed a word of its nonterminal, whatever the tokens behind it.

## Main statements

* `Parser.sound_expressionAt`, `Parser.sound_statementAt`, `Parser.sound_members` — the words that
  the readers for expressions, statements and programs consume.
-/
namespace MiniJ

namespace Parser

open scoped Computability

variable {α β : Type} {x : ParseM α} {f : α → ParseM β} {A B : Language TokenKind} {k : TokenKind}

/-- What tokens stand for. -/
def kinds (ts : List Token) : List TokenKind := ts.map (·.kind)

@[simp] theorem kinds_nil : kinds [] = [] := rfl

@[simp] theorem kinds_cons (t : Token) (ts : List Token) : kinds (t :: ts) = t.kind :: kinds ts :=
  rfl

/-- A reader consumes words of a language. -/
def Sound (x : ParseM α) (A : Language TokenKind) : Prop :=
  ∀ cx ts v ts', (x.run cx).run ts = .ok (v, ts') → ∃ w ∈ A, kinds ts = w ++ kinds ts'

/-- A reader consumes words of a language if a token of some kind comes next. -/
def SoundAt (k : TokenKind) (x : ParseM α) (A : Language TokenKind) : Prop :=
  ∀ cx t ts v ts', t.kind = k → (x.run cx).run (t :: ts) = .ok (v, ts') →
    ∃ w ∈ A, kinds (t :: ts) = w ++ kinds ts'

theorem run_bind (cx : Context) (ts : List Token) :
    ((x >>= f).run cx).run ts = (x.run cx).run ts >>= fun r => ((f r.1).run cx).run r.2 := rfl

theorem Sound.mono (h : Sound x A) (hAB : A ≤ B) : Sound x B := by
  intro cx ts v ts' hrun
  obtain ⟨w, hw, hts⟩ := h cx ts v ts' hrun
  exact ⟨w, hAB hw, hts⟩

theorem SoundAt.mono (h : SoundAt k x A) (hAB : A ≤ B) : SoundAt k x B := by
  intro cx t ts v ts' hk hrun
  obtain ⟨w, hw, hts⟩ := h cx t ts v ts' hk hrun
  exact ⟨w, hAB hw, hts⟩

theorem Sound.at (h : Sound x A) : SoundAt k x A := fun cx t ts v ts' _ => h cx (t :: ts) v ts'

theorem Sound.pure (v : α) : Sound (pure v) 1 := by
  intro cx ts w ts' hrun
  cases hrun
  exact ⟨[], rfl, rfl⟩

theorem Sound.throw (e : Failure ParseError) : Sound (throw e : ParseM α) A := by
  intro cx ts w ts' hrun
  cases hrun

theorem Sound.bind (hx : Sound x A) (hf : ∀ v, Sound (f v) B) : Sound (x >>= f) (A * B) := by
  intro cx ts w ts' hrun
  rw [run_bind] at hrun
  obtain ⟨⟨v, ts₁⟩, hv, hrun⟩ := Outcome.bind_eq_ok.1 hrun
  obtain ⟨w₁, hw₁, hts⟩ := hx cx ts v ts₁ hv
  obtain ⟨w₂, hw₂, hts₁⟩ := hf v cx ts₁ w ts' hrun
  exact ⟨w₁ ++ w₂, Language.append_mem_mul hw₁ hw₂, by rw [hts, hts₁, List.append_assoc]⟩

/-- Nothing is consumed first. -/
theorem Sound.after (hx : Sound x 1) (hf : ∀ v, Sound (f v) B) : Sound (x >>= f) B := by
  simpa using hx.bind hf

/-- Nothing is consumed last. -/
theorem Sound.finish (hx : Sound x A) (hf : ∀ v, Sound (f v) 1) : Sound (x >>= f) A := by
  simpa using hx.bind hf

theorem Sound.ite {c : Prop} [Decidable c] {y : ParseM α} (hx : Sound x A) (hy : Sound y A) :
    Sound (if c then x else y) A := by
  split <;> assumption

theorem sound_get : Sound get 1 := by
  intro cx ts w ts' hrun
  cases hrun
  exact ⟨[], rfl, rfl⟩

theorem sound_read : Sound read 1 := by
  intro cx ts w ts' hrun
  cases hrun
  exact ⟨[], rfl, rfl⟩

theorem sound_exhausted : Sound (exhausted : ParseM α) A := .throw _

theorem sound_ahead (distance : Nat) : Sound (ahead distance) 1 := sound_get.after fun _ => .pure _

theorem sound_next (s : Punctuator) : Sound (next s) 1 := (sound_ahead 0).after fun _ => .pure _

/-- The next token decides. -/
theorem sound_current_bind {f : Token → ParseM β} (hf : ∀ t, SoundAt t.kind (f t) B) :
    Sound (current >>= f) B := by
  intro cx ts w ts' hrun
  cases ts with
  | nil => cases hrun
  | cons t ts => exact hf t cx t ts w ts' rfl hrun

/-- The next token decides, if there is one. -/
theorem sound_get_bind {f : List Token → ParseM β} (hcons : ∀ t ts, SoundAt t.kind (f (t :: ts)) B)
    (hnil : Sound (f []) B) : Sound (get >>= f) B := by
  intro cx ts w ts' hrun
  cases ts with
  | nil => exact hnil cx [] w ts' hrun
  | cons t ts => exact hcons t ts cx t ts w ts' rfl hrun

theorem sound_ahead_bind {f : Option TokenKind → ParseM β} (hsome : ∀ k, SoundAt k (f (some k)) B)
    (hnone : Sound (f none) B) : Sound (ahead 0 >>= f) B := by
  intro cx ts w ts' hrun
  cases ts with
  | nil => exact hnone cx [] w ts' hrun
  | cons t ts => exact hsome t.kind cx t ts w ts' rfl hrun

theorem sound_unexpected (expected : String) : Sound (unexpected expected : ParseM α) A :=
  sound_current_bind fun _ => (Sound.throw _).at

/-- The next token is consumed. -/
theorem soundAt_advance_bind {f : Unit → ParseM β} (hf : Sound (f ()) B) :
    SoundAt k (advance >>= f) ({[k]} * B) := by
  intro cx t ts w ts' hk hrun
  obtain ⟨w, hw, hts⟩ := hf cx ts w ts' hrun
  exact ⟨[k] ++ w, Language.append_mem_mul rfl hw, by simp [hk, hts]⟩

theorem soundAt_advance_pure (v : α) : SoundAt k (advance >>= fun _ => pure v) {[k]} := by
  simpa using soundAt_advance_bind (f := fun _ => pure v) (Sound.pure v)

theorem sound_expect (s : Punctuator) : Sound (expect s) (Grammar.sign s) := by
  refine sound_current_bind fun t => ?_
  by_cases hk : t.kind = .punctuator s
  · rw [if_pos hk, hk]
    exact soundAt_advance_pure _
  · rw [if_neg hk]
    exact (sound_unexpected _).at

theorem sound_name : Sound name Grammar.identifier := by
  refine sound_current_bind fun ⟨kind, span⟩ => ?_
  cases kind with
  | identifier text => exact (soundAt_advance_pure _).mono (by rintro _ rfl; exact ⟨text, rfl⟩)
  | _ => exact (sound_unexpected _).at

theorem run_ahead (cx : Context) (distance : Nat) (ts : List Token) :
    ((ahead distance).run cx).run ts = .ok ((kinds ts)[distance]?, ts) := by
  rw [kinds, List.getElem?_map]
  rfl

theorem run_next (cx : Context) (s : Punctuator) (ts : List Token) :
    ((next s).run cx).run ts = .ok (decide ((kinds ts).head? = some (.punctuator s)), ts) := by
  unfold next
  rw [run_bind, run_ahead, ← List.head?_eq_getElem?, ← beq_eq_decide]
  rfl

theorem run_accept (cx : Context) (s : Punctuator) (ts : List Token) :
    ((accept s).run cx).run ts = if (kinds ts).head? = some (.punctuator s) then
      .ok (true, ts.drop 1) else .ok (false, ts) := by
  unfold accept
  rw [run_bind, run_next]
  by_cases h : (kinds ts).head? = some (.punctuator s)
  · rw [if_pos h, decide_eq_true h]
    rfl
  · rw [if_neg h, decide_eq_false h]
    rfl

/-- A sign that may stand there. -/
theorem sound_accept_bind {s : Punctuator} {f : Bool → ParseM β} (hthere : Sound (f true) A)
    (hmissing : Sound (f false) B) : Sound (accept s >>= f) (Grammar.sign s * A + B) := by
  intro cx ts w ts' hrun
  rw [run_bind, run_accept] at hrun
  split at hrun
  · next hhead =>
    obtain ⟨t, rest, rfl, hk⟩ : ∃ t rest, ts = t :: rest ∧ t.kind = .punctuator s := by
      cases ts <;> simp_all
    obtain ⟨w, hw, hts⟩ := hthere cx rest w ts' hrun
    exact ⟨_, .inl (Language.append_mem_mul rfl hw), by simp [hk, hts]⟩
  · obtain ⟨w, hw, hts⟩ := hmissing cx ts w ts' hrun
    exact ⟨w, .inr hw, hts⟩

theorem sound_manyWhile {more : ParseM Bool} {item : ParseM α} (hmore : Sound more 1)
    (hitem : Sound item A) (limit : Nat) : Sound (manyWhile more item limit) A∗ := by
  induction limit with
  | zero => exact sound_exhausted
  | succ limit ih =>
    refine hmore.after fun _ => Sound.ite ?_ ((Sound.pure _).mono one_le_kstar)
    rw [← Language.one_add_self_mul_kstar_eq_kstar]
    exact (hitem.bind fun _ => ih.finish fun _ => .pure _).mono le_add_self

theorem sound_commaSeparated {item : ParseM α} (hitem : Sound item A) (limit : Nat) :
    Sound (commaSeparated item limit) (A * (Grammar.sign .comma * A)∗) := by
  induction limit with
  | zero => exact sound_exhausted
  | succ limit ih =>
    rw [← Language.one_add_self_mul_kstar_eq_kstar, add_comm (1 : Language TokenKind), mul_assoc]
    refine hitem.bind fun _ => sound_accept_bind ?_ ?_
    · exact ih.finish fun _ => .pure _
    · exact .pure _

theorem sound_untilBrace {item : ParseM α} (hitem : Sound item A) : Sound (untilBrace item) A∗ :=
  sound_read.after fun _ => sound_manyWhile ((sound_next _).after fun _ => .pure _) hitem _

theorem sound_parenthesised {item : ParseM α} (hitem : Sound item A) : Sound (parenthesised item)
    (Grammar.sign .leftParen * Grammar.separated A * Grammar.sign .rightParen) := by
  rw [mul_assoc]
  refine (sound_expect _).bind fun _ => (sound_next _).after fun _ => Sound.ite ?_ ?_
  · refine ((sound_expect .rightParen).finish fun _ => .pure _).mono ?_
    rw [Grammar.separated, add_mul, one_mul]
    exact le_self_add
  · refine sound_read.after fun _ => ((sound_commaSeparated hitem _).bind fun _ =>
      (sound_expect .rightParen).finish fun _ => .pure _).mono ?_
    rw [Grammar.separated, add_mul]
    exact le_add_self

/-! ### Expressions -/

section

variable {e : ParseM Expr} {E : Language TokenKind}

theorem sound_call (h : Sound e E) : Sound (call e) (Grammar.call E) := by
  rw [Grammar.call, mul_assoc, mul_assoc, ← mul_assoc (Grammar.sign .leftParen)]
  exact sound_name.bind fun _ => (sound_parenthesised h).finish fun _ => .pure _

theorem sound_accesses (h : Sound e E) (limit : Nat) (base : Expr) :
    Sound (accesses e limit base) (Grammar.access E)∗ := by
  induction limit generalizing base with
  | zero => exact sound_exhausted
  | succ limit ih =>
    rw [Grammar.access_kstar]
    refine sound_accept_bind ?_ (sound_accept_bind ?_ ?_)
    · exact sound_name.bind fun _ => ih _
    · exact h.bind fun _ => (sound_expect .rightBracket).bind fun _ => ih _
    · exact Sound.pure _

theorem sound_place (h : Sound e E) : Sound (place e) (Grammar.place E) :=
  sound_name.bind fun _ => sound_read.after fun _ => sound_accesses h _ _

theorem sound_primary (h : Sound e E) : Sound (primary e) (Grammar.primary E) := by
  unfold Grammar.primary
  refine sound_current_bind fun ⟨kind, span⟩ => ?_
  cases kind with
  | integer value =>
    exact (soundAt_advance_pure _).mono (by rintro _ rfl; exact .inl (.inr (.inl ⟨value, rfl⟩)))
  | text value =>
    exact (soundAt_advance_pure _).mono (by rintro _ rfl; exact .inl (.inr (.inr ⟨value, rfl⟩)))
  | keyword word =>
    cases word with
    | true => exact (soundAt_advance_pure _).mono fun _ hw => .inl (.inl (.inl (.inr hw)))
    | false => exact (soundAt_advance_pure _).mono fun _ hw => .inl (.inl (.inr hw))
    | _ => exact (sound_unexpected _).at
  | punctuator s =>
    cases s with
    | leftParen =>
      refine (soundAt_advance_bind (h.bind fun _ => (sound_expect _).finish fun _ =>
        .pure _)).mono ?_
      intro w hw
      rw [← mul_assoc] at hw
      exact .inl (.inl (.inl (.inl (.inl hw))))
    | _ => exact (sound_unexpected _).at
  | identifier text =>
    refine Sound.at ((sound_ahead 1).after fun _ => Sound.ite ?_ ?_)
    · exact (sound_call h).mono fun _ hw => .inl (.inl (.inl (.inl (.inr hw))))
    · exact (sound_place h).mono fun _ hw => .inr hw

/-- The operators in front of operands. -/
theorem leadingOp?_isSome : (leadingOp? k).isSome ↔ ∃ s ∈ Grammar.leading, k = .punctuator s := by
  cases k with
  | punctuator s => cases s <;> simp [leadingOp?, Grammar.leading]
  | _ => simp [leadingOp?]

/-- The operators behind operands. -/
theorem trailingOp?_isSome :
    (trailingOp? k).isSome ↔ ∃ s ∈ Grammar.trailing, k = .punctuator s := by
  cases k with
  | punctuator s => cases s <;> simp [trailingOp?, Grammar.trailing]
  | _ => simp [trailingOp?]

/-- The signs of each strength. -/
theorem strengths_drop {op : BinaryOp} (h : binaryOp? k = some op) : ∃ s signs, k = .punctuator s ∧
    s ∈ signs ∧ Grammar.strengths.drop (op.strength - 1) = signs ::
      Grammar.strengths.drop op.strength := by
  cases k with
  | punctuator s =>
    cases s <;> simp only [binaryOp?, Option.some.injEq, reduceCtorEq] at h <;> subst h <;>
      exact ⟨_, _, rfl, by decide, rfl⟩
  | _ => cases h

variable {expression : Nat → ParseM Expr}

theorem sound_operand (hclosed : Grammar.level E 0 ≤ E)
    (h : ∀ bound, Sound (expression bound) (Grammar.level E bound)) :
    Sound (operand expression) (Grammar.unary E) := by
  rw [Grammar.unary_eq]
  refine sound_current_bind fun t => ?_
  cases hop : leadingOp? t.kind with
  | some op =>
    obtain ⟨s, hs, hk⟩ := leadingOp?_isSome.1 (Option.isSome_of_mem hop)
    refine (soundAt_advance_bind ((h UnaryOp.strength).finish fun _ => .pure _)).mono ?_
    intro w hw
    obtain ⟨_, rfl, w, hw, rfl⟩ := hw
    exact .inl (Language.append_mem_mul ⟨s, hs, by rw [hk]⟩ hw)
  | none =>
    have hend : ∀ inner : Expr, Sound (pure inner) (1 + Grammar.oneOf Grammar.trailing) :=
      fun _ => (Sound.pure _).mono le_self_add
    refine ((Sound.bind (sound_primary ((h 0).mono hclosed)) fun inner => ?_).mono le_add_self).at
    refine sound_get_bind (fun t ts => ?_) (hend inner)
    cases hop : trailingOp? t.kind with
    | some op =>
      obtain ⟨s, hs, hk⟩ := trailingOp?_isSome.1 (Option.isSome_of_mem hop)
      simp only [List.head?_cons, hop]
      refine (soundAt_advance_pure _).mono ?_
      rintro _ rfl
      exact .inr ⟨s, hs, by rw [hk]⟩
    | none =>
      simp only [List.head?_cons, hop]
      exact (hend inner).at

/-- An operator and its right operand leave an expression one. -/
theorem append_mem_level {op : BinaryOp} {bound : Nat} {u w : List TokenKind}
    (hop : binaryOp? k = some op) (hbound : bound < op.strength) (hu : u ∈ Grammar.level E bound)
    (hw : w ∈ Grammar.level E op.strength) : u ++ k :: w ∈ Grammar.level E bound := by
  obtain ⟨s, signs, rfl, hs, hdrop⟩ := strengths_drop hop
  have hweaker : Grammar.strengths.drop bound =
      (Grammar.strengths.drop bound).take (op.strength - 1 - bound) ++
        signs :: Grammar.strengths.drop op.strength := by
    rw [← hdrop]
    conv_lhs => rw [← List.take_append_drop (op.strength - 1 - bound)
      (Grammar.strengths.drop bound)]
    rw [List.drop_drop, show bound + (op.strength - 1 - bound) = op.strength - 1 by omega]
  rw [Grammar.level, hweaker] at hu ⊢
  exact Grammar.append_mem_binary hu hs hw

/-- What may stand behind an expression and leave it one. -/
def tail (E : Language TokenKind) (bound : Nat) : Language TokenKind :=
  {w | ∀ u ∈ Grammar.level E bound, u ++ w ∈ Grammar.level E bound}

theorem one_le_tail (bound : Nat) : 1 ≤ tail E bound := by
  rintro _ rfl u hu
  rwa [List.append_nil]

theorem sound_operators (h : ∀ bound, Sound (expression bound) (Grammar.level E bound))
    (bound limit : Nat) (left : Expr) :
    Sound (operators expression bound limit left) (tail E bound) := by
  induction limit generalizing left with
  | zero => exact sound_exhausted
  | succ limit ih =>
    refine sound_ahead_bind (fun k => ?_) ((Sound.pure _).mono (one_le_tail bound))
    simp only [Option.bind_some]
    split
    · next op hop =>
      split
      · next hbound =>
        refine (soundAt_advance_bind ((h op.strength).bind fun _ => ih _)).mono ?_
        rintro _ ⟨_, rfl, _, ⟨w, hw, v, hv, rfl⟩, rfl⟩ u hu
        have hextended := hv _ (append_mem_level hop hbound hu hw)
        simpa using hextended
      · exact ((Sound.pure _).mono (one_le_tail bound)).at
    · exact ((Sound.pure _).mono (one_le_tail bound)).at

theorem unary_le_level (bound : Nat) : Grammar.unary E ≤ Grammar.level E bound := by
  unfold Grammar.level
  induction Grammar.strengths.drop bound with
  | nil => exact le_refl _
  | cons signs stronger ih =>
    rw [Grammar.binary_eq]
    exact ih.trans le_self_add

end

theorem sound_expressionAt (depth bound : Nat) :
    Sound (expressionAt depth bound) (Grammar.level Grammar.expression bound) := by
  induction depth generalizing bound with
  | zero => exact sound_exhausted
  | succ depth ih =>
    refine ((sound_operand Grammar.expression_eq.le ih).bind fun _ =>
      sound_read.after fun _ => sound_operators ih bound _ _).mono ?_
    rintro _ ⟨u, hu, w, hw, rfl⟩
    exact hw u (unary_le_level bound hu)

theorem sound_expression : Sound expression Grammar.expression :=
  sound_read.after fun _ => (sound_expressionAt _ 0).mono Grammar.expression_eq.le

/-! ### Types and declarations -/

theorem sound_brackets (limit : Nat) (ty : Ty) :
    Sound (brackets limit ty) (Grammar.sign .leftBracket * Grammar.sign .rightBracket)∗ := by
  induction limit generalizing ty with
  | zero => exact sound_exhausted
  | succ limit ih =>
    rw [← Language.one_add_self_mul_kstar_eq_kstar, add_comm (1 : Language TokenKind), mul_assoc]
    refine sound_accept_bind ?_ ?_
    · exact (sound_expect .rightBracket).bind fun _ => ih _
    · exact Sound.pure _

/-- The tokens that begin a type. -/
theorem typeOf?_isSome : (typeOf? k).isSome ↔ [k] ∈ Grammar.keyword .int + Grammar.keyword .bool +
    Grammar.keyword .text + Grammar.identifier := by
  simp only [Language.mem_add, Grammar.mem_keyword, Grammar.mem_identifier]
  cases k with
  | keyword word => cases word <;> simp [typeOf?]
  | _ => simp [typeOf?]

theorem sound_type : Sound type Grammar.type := by
  refine sound_current_bind fun t => ?_
  cases hty : typeOf? t.kind with
  | some ty =>
    have hbrackets : Sound (do brackets (← read).limit ty) _ :=
      sound_read.after fun _ => sound_brackets _ _
    refine SoundAt.mono (soundAt_advance_bind hbrackets) ?_
    rintro _ ⟨_, rfl, w, hw, rfl⟩
    exact Language.append_mem_mul (typeOf?_isSome.1 (Option.isSome_of_mem hty)) hw
  | none => exact (sound_unexpected _).at

theorem sound_declarationRest (ty : Ty) (start : Span) :
    Sound (declarationRest ty start) (Grammar.identifier * Grammar.sign .semicolon) :=
  sound_name.bind fun _ => (sound_expect _).finish fun _ => .pure _

theorem sound_current : Sound current 1 := by
  intro cx ts t ts' hrun
  cases ts with
  | nil => cases hrun
  | cons t ts =>
    cases hrun
    exact ⟨[], rfl, rfl⟩

theorem sound_declaration : Sound declaration Grammar.declaration := by
  rw [Grammar.declaration, mul_assoc]
  exact sound_current.after fun _ => sound_type.bind fun _ => sound_declarationRest _ _

theorem sound_parameter : Sound parameter Grammar.parameter := by
  rw [Grammar.parameter, mul_assoc, add_mul, one_mul, add_comm Grammar.identifier]
  refine sound_current.after fun _ => sound_type.bind fun _ => sound_accept_bind ?_ ?_
  · exact sound_name.finish fun _ => .pure _
  · exact sound_name.finish fun _ => .pure _

theorem sound_startsDeclaration : Sound startsDeclaration 1 := by
  refine (sound_ahead 0).after fun first => ?_
  split
  · exact .pure _
  · exact .pure _
  · exact .pure _
  · refine (sound_ahead 1).after fun second => ?_
    split
    · exact .pure _
    · exact (sound_ahead 2).after fun _ => .pure _
    · exact .pure _
  · exact .pure _

theorem sound_declarations : Sound declarations Grammar.declaration∗ :=
  sound_read.after fun _ => sound_manyWhile sound_startsDeclaration sound_declaration _

/-! ### Statements -/

section

variable {s : ParseM Statement} {S : Language TokenKind}

theorem sound_block (h : Sound s S) : Sound (block s) (Grammar.block S) := by
  rw [Grammar.block, mul_assoc]
  exact (sound_expect _).bind fun _ => (sound_untilBrace h).bind fun _ =>
    (sound_expect _).finish fun _ => .pure _

theorem sound_body (h : Sound s S) (hclosed : Grammar.block S ≤ S) : Sound (body s) S :=
  (sound_next _).after fun _ =>
    Sound.ite ((sound_block h).mono hclosed) (h.finish fun _ => .pure _)

theorem sound_condition : Sound condition Grammar.condition := by
  rw [Grammar.condition, mul_assoc]
  exact (sound_expect _).bind fun _ => sound_expression.bind fun _ =>
    (sound_expect _).finish fun _ => .pure _

theorem sound_alternative (h : Sound s S) (hclosed : Grammar.block S ≤ S) :
    Sound (alternative s) (1 + Grammar.keyword .else * S) := by
  refine sound_ahead_bind (fun k => ?_) ((Sound.pure _).mono le_self_add)
  by_cases hk : k = .keyword .else
  · subst hk
    refine (soundAt_advance_bind ?_).mono le_add_self
    exact (sound_body h hclosed).finish fun _ => .pure _
  · simp only [beq_iff_eq, Option.some.injEq, hk, if_false]
    exact ((Sound.pure _).mono le_self_add).at

theorem sound_assignment : Sound assignment Grammar.assignment := by
  rw [Grammar.assignment, mul_assoc, mul_assoc]
  exact (sound_place sound_expression).bind fun _ => (sound_expect _).bind fun _ =>
    sound_expression.bind fun _ => (sound_expect _).finish fun _ => .pure _

theorem sound_returned : Sound returned (1 + Grammar.expression) :=
  (sound_next _).after fun _ => Sound.ite ((Sound.pure _).mono le_self_add)
    ((sound_expression.finish fun _ => .pure _).mono le_add_self)

end

theorem block_le_statement : Grammar.block Grammar.statement ≤ Grammar.statement := by
  conv_rhs => rw [← Grammar.statement_eq]
  exact le_add_self

theorem sound_statementAt (depth : Nat) : Sound (statementAt depth) Grammar.statement := by
  induction depth with
  | zero => exact sound_exhausted
  | succ depth ih =>
    have hbody := sound_body ih block_le_statement
    have halternative := sound_alternative ih block_le_statement
    rw [← Grammar.statement_eq]
    refine sound_current_bind fun ⟨kind, span⟩ => ?_
    cases kind with
    | punctuator s =>
      cases s with
      | leftBrace => exact ((sound_block ih).mono le_add_self).at
      | semicolon => exact (soundAt_advance_pure _).mono fun _ hw => .inl (.inl (.inl (.inr hw)))
      | _ => exact (sound_unexpected _).at
    | keyword word =>
      cases word with
      | «if» =>
        refine (soundAt_advance_bind (sound_condition.bind fun _ => hbody.bind fun _ =>
          halternative.finish fun _ => .pure _)).mono fun _ hw => .inl (.inl (.inr ?_))
        rwa [Grammar.branch, mul_assoc, mul_assoc]
      | «while» =>
        refine (soundAt_advance_bind (sound_condition.bind fun _ =>
          hbody.finish fun _ => .pure _)).mono fun _ hw => .inl (.inr ?_)
        rwa [Grammar.loop, mul_assoc]
      | «return» =>
        refine (soundAt_advance_bind (sound_returned.bind fun _ =>
          (sound_expect _).finish fun _ => .pure _)).mono fun _ hw =>
            .inl (.inl (.inl (.inl (.inr ?_))))
        rwa [Grammar.returned, mul_assoc]
      | _ => exact (sound_unexpected _).at
    | identifier text =>
      refine Sound.at ((sound_ahead 1).after fun _ => Sound.ite ?_ ?_)
      · exact ((sound_call sound_expression).bind fun _ =>
          (sound_expect _).finish fun _ => .pure _).mono
            fun _ hw => .inl (.inl (.inl (.inl (.inl (.inr hw)))))
      · exact sound_assignment.mono fun _ hw => .inl (.inl (.inl (.inl (.inl (.inl hw)))))
    | _ => exact (sound_unexpected _).at

theorem sound_statement : Sound statement Grammar.statement :=
  sound_read.after fun _ => sound_statementAt _

/-! ### Programs -/

theorem sound_recordRest (start : Span) : Sound (recordRest start) (Grammar.identifier *
    (Grammar.sign .leftBrace * (Grammar.declaration∗ * Grammar.sign .rightBrace))) :=
  sound_name.bind fun _ => (sound_expect _).bind fun _ =>
    (sound_untilBrace sound_declaration).bind fun _ => (sound_expect _).finish fun _ => .pure _

/-- What stands behind the return type of a function. -/
def functionTail : Language TokenKind :=
  Grammar.identifier * ((Grammar.sign .leftParen * Grammar.separated Grammar.parameter *
    Grammar.sign .rightParen) * (Grammar.declaration∗ * (Grammar.sign .leftBrace *
      (Grammar.declaration∗ * (Grammar.statement∗ * Grammar.sign .rightBrace)))))

theorem sound_functionRest (ty : Ty) (start : Span) : Sound (functionRest ty start) functionTail :=
  sound_name.bind fun _ => (sound_parenthesised sound_parameter).bind fun _ =>
    sound_declarations.bind fun _ => (sound_expect _).bind fun _ => sound_declarations.bind fun _ =>
      (sound_untilBrace sound_statement).bind fun _ => (sound_expect _).finish fun _ => .pure _

theorem function_eq :
    Grammar.function = (Grammar.keyword .void + Grammar.type) * functionTail := by
  simp only [Grammar.function, functionTail, mul_assoc]

/-- A member that begins with a type. -/
theorem sound_typedMember (start : Span) : Sound (do
    let ty ← type
    if (← ahead 1) == some (.punctuator .leftParen) then
      return some (Member.function (← functionRest ty start))
    else
      return some (Member.global (← declarationRest ty start))) Grammar.member := by
  refine Sound.mono
    (A := Grammar.type * (functionTail + Grammar.identifier * Grammar.sign .semicolon))
    (sound_type.bind fun ty => (sound_ahead 1).after fun _ => Sound.ite ?_ ?_) (fun w hw => ?_)
  · exact ((sound_functionRest ty start).finish fun _ => .pure _).mono le_self_add
  · exact ((sound_declarationRest ty start).finish fun _ => .pure _).mono le_add_self
  · rw [mul_add, ← mul_assoc] at hw
    rcases hw with hw | hw
    · refine .inl (.inr ?_)
      rw [function_eq, add_mul]
      exact .inr hw
    · exact .inl (.inl (.inl hw))

theorem sound_member : Sound member Grammar.member := by
  refine sound_current_bind fun ⟨kind, span⟩ => ?_
  cases kind with
  | punctuator s =>
    cases s with
    | semicolon => exact (soundAt_advance_pure _).mono fun _ hw => .inr hw
    | _ => exact (sound_unexpected _).at
  | keyword word =>
    cases word with
    | record =>
      refine (soundAt_advance_bind ((sound_recordRest _).finish fun _ => .pure _)).mono
        fun _ hw => .inl (.inl (.inr ?_))
      rwa [Grammar.record, mul_assoc, mul_assoc, mul_assoc]
    | void =>
      refine (soundAt_advance_bind ((sound_functionRest _ _).finish fun _ => .pure _)).mono
        fun _ hw => .inl (.inr ?_)
      rw [function_eq, add_mul]
      exact .inl hw
    | int => exact (sound_typedMember span).at
    | bool => exact (sound_typedMember span).at
    | text => exact (sound_typedMember span).at
    | _ => exact (sound_unexpected _).at
  | identifier text => exact (sound_typedMember span).at
  | _ => exact (sound_unexpected _).at

theorem sound_members : Sound members Grammar.program :=
  sound_read.after fun _ =>
    (sound_manyWhile (sound_get.after fun _ => .pure _) sound_member _).finish fun _ => .pure _

end Parser

end MiniJ
