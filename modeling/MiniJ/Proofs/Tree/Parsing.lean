import MiniJ.Proofs.Tree.ProgramAcceptance

/-!
# Parsing

`Program.parse` accepts exactly the words of the grammar. Its loops and recursions are bounded by a
limit that is larger than the number of tokens. Each round consumes a token, so they end by
themselves: no list of tokens takes them to the limit, and no larger limit changes anything.

## Main statements

* `Parser.agree_members` — the limit is not reached and does not matter.
* `Program.parse_iff` — the programs that parse.
-/
namespace MiniJ

namespace Parser

open scoped Computability

variable {α β : Type} {x y : ParseM α} {f g : α → ParseM β} {A : Language TokenKind}
  {cx cx' : Context} {n m : Nat}

/-- Two readers do the same on at most `n` tokens, each with its own limit, and do not go beyond
their limits. -/
def Agree (cx cx' : Context) (n : Nat) (x y : ParseM α) : Prop :=
  ∀ ts, ts.length ≤ n → (x.run cx).run ts = (y.run cx').run ts ∧
    ∀ fault, (x.run cx).run ts ≠ .error (.fault fault)

/-- The same where there is a next token. -/
def AgreeAt (cx cx' : Context) (n : Nat) (x y : ParseM α) : Prop :=
  ∀ t ts, ts.length < n → (x.run cx).run (t :: ts) = (y.run cx').run (t :: ts) ∧
    ∀ fault, (x.run cx).run (t :: ts) ≠ .error (.fault fault)

theorem Agree.at (h : Agree cx cx' n x y) : AgreeAt cx cx' n x y := fun t ts hts => h (t :: ts) hts

theorem Agree.pure (v : α) : Agree cx cx' n (pure v) (pure v) := fun _ _ => ⟨rfl, by nofun⟩

theorem Agree.throw (e : ParseError) :
    Agree cx cx' n (throw (.reported e) : ParseM α) (throw (.reported e)) :=
  fun _ _ => ⟨rfl, by nofun⟩

/-- Readers never give tokens back. -/
theorem Sound.length_le (h : Sound x A) {ts ts' : List Token} {v : α}
    (hrun : (x.run cx).run ts = .ok (v, ts')) : ts'.length ≤ ts.length := by
  obtain ⟨w, -, hts⟩ := h cx ts v ts' hrun
  have hlength := congrArg List.length hts
  simp only [kinds, List.length_map, List.length_append] at hlength
  omega

theorem Sound.length_lt (h : Sound x A) (hA : [] ∉ A) {ts ts' : List Token} {v : α}
    (hrun : (x.run cx).run ts = .ok (v, ts')) : ts'.length < ts.length := by
  obtain ⟨w, hw, hts⟩ := h cx ts v ts' hrun
  have hlength := congrArg List.length hts
  have hpos : 0 < w.length := List.length_pos_iff.2 fun heq => hA (heq ▸ hw)
  simp only [kinds, List.length_map, List.length_append] at hlength
  omega

theorem Agree.bind (hx : Agree cx cx' n x y) (hsound : Sound x A)
    (hf : ∀ v, Agree cx cx' n (f v) (g v)) : Agree cx cx' n (x >>= f) (y >>= g) := by
  intro ts hts
  obtain ⟨hsame, hbounded⟩ := hx ts hts
  rw [run_bind, run_bind, ← hsame]
  cases hrun : (x.run cx).run ts with
  | error e =>
    refine ⟨rfl, fun fault heq => ?_⟩
    cases heq
    exact hbounded fault hrun
  | ok r => exact hf r.1 r.2 ((hsound.length_le hrun).trans hts)

/-- After a reader that consumes something there are fewer tokens. -/
theorem Agree.bind_lt (hx : Agree cx cx' n x y) (hsound : Sound x A) (hA : [] ∉ A)
    (hf : ∀ m < n, ∀ v, Agree cx cx' m (f v) (g v)) : Agree cx cx' n (x >>= f) (y >>= g) := by
  intro ts hts
  obtain ⟨hsame, hbounded⟩ := hx ts hts
  rw [run_bind, run_bind, ← hsame]
  cases hrun : (x.run cx).run ts with
  | error e =>
    refine ⟨rfl, fun fault heq => ?_⟩
    cases heq
    exact hbounded fault hrun
  | ok r => exact hf r.2.length ((hsound.length_lt hA hrun).trans_le hts) r.1 r.2 (Nat.le_refl _)

theorem Agree.ite {c : Prop} [Decidable c] {x' y' : ParseM α} (h : Agree cx cx' n x y)
    (h' : Agree cx cx' n x' y') : Agree cx cx' n (if c then x else x') (if c then y else y') := by
  split <;> assumption

theorem agree_get_bind {f g : List Token → ParseM β} (hf : ∀ ts, Agree cx cx' n (f ts) (g ts)) :
    Agree cx cx' n (get >>= f) (get >>= g) := fun ts hts => hf ts ts hts

theorem agree_read_bind {f g : Context → ParseM β} (hf : Agree cx cx' n (f cx) (g cx')) :
    Agree cx cx' n (read >>= f) (read >>= g) := fun ts hts => hf ts hts

theorem agree_ahead_bind {f g : Option TokenKind → ParseM β} {distance : Nat}
    (hf : ∀ k, Agree cx cx' n (f k) (g k)) :
    Agree cx cx' n (ahead distance >>= f) (ahead distance >>= g) := by
  intro ts hts
  rw [run_bind, run_bind, run_ahead, run_ahead]
  exact hf _ ts hts

/-- The next token decides. -/
theorem agree_peek_bind {f g : Option TokenKind → ParseM β}
    (hsome : ∀ k, AgreeAt cx cx' n (f (some k)) (g (some k)))
    (hnone : Agree cx cx' n (f none) (g none)) :
    Agree cx cx' n (ahead 0 >>= f) (ahead 0 >>= g) := by
  intro ts hts
  cases ts with
  | nil => exact hnone [] hts
  | cons t ts => exact hsome t.kind t ts hts

theorem agree_next_bind {f g : Bool → ParseM β} {s : Punctuator}
    (hf : ∀ b, Agree cx cx' n (f b) (g b)) : Agree cx cx' n (next s >>= f) (next s >>= g) := by
  intro ts hts
  rw [run_bind, run_bind, run_next, run_next]
  exact hf _ ts hts

theorem agreeAt_advance_bind {f g : Unit → ParseM β}
    (hf : ∀ m < n, Agree cx cx' m (f ()) (g ())) :
    AgreeAt cx cx' n (advance >>= f) (advance >>= g) :=
  fun _ ts hts => hf ts.length hts ts (Nat.le_refl _)

theorem agree_accept_bind {f g : Bool → ParseM β} {s : Punctuator}
    (hthere : ∀ m < n, Agree cx cx' m (f true) (g true))
    (hmissing : Agree cx cx' n (f false) (g false)) :
    Agree cx cx' n (accept s >>= f) (accept s >>= g) := by
  intro ts hts
  rw [run_bind, run_bind, run_accept, run_accept]
  split
  · next hhead =>
    cases ts with
    | nil => cases hhead
    | cons t ts => exact hthere ts.length hts ts (Nat.le_refl _)
  · exact hmissing ts hts

section

variable (hlast : cx.last = cx'.last)

include hlast

theorem agree_atEnd : Agree cx cx' n (atEnd : ParseM α) atEnd := by
  refine agree_read_bind ?_
  rw [hlast]
  exact .throw _

theorem agree_current_bind {f g : Token → ParseM β} (hf : ∀ t, AgreeAt cx cx' n (f t) (g t)) :
    Agree cx cx' n (current >>= f) (current >>= g) := by
  intro ts hts
  cases ts with
  | nil =>
    have hend : Agree cx cx' 0 (atEnd : ParseM β) atEnd := agree_atEnd hlast
    exact hend [] (Nat.le_refl 0)
  | cons t ts => exact hf t t ts hts

theorem agree_unexpected (expected : String) :
    Agree cx cx' n (unexpected expected : ParseM α) (unexpected expected) :=
  agree_current_bind hlast fun _ => (Agree.throw _).at

theorem agree_expect (s : Punctuator) : Agree cx cx' n (expect s) (expect s) := by
  refine agree_current_bind hlast fun t => ?_
  split
  · exact agreeAt_advance_bind fun _ _ => .pure _
  · exact (agree_unexpected hlast _).at

theorem agree_name : Agree cx cx' n name name := by
  refine agree_current_bind hlast fun ⟨kind, span⟩ => ?_
  cases kind with
  | identifier text => exact agreeAt_advance_bind fun _ _ => .pure _
  | _ => exact (agree_unexpected hlast _).at

end

/-! ### Loops -/

theorem agree_manyWhile {more : ParseM Bool} {item item' : ParseM α}
    (hmore : ∀ m ≤ n, Agree cx cx' m more more) (hone : Sound more 1)
    (hitem : ∀ m ≤ n, Agree cx cx' m item item') (hsound : Sound item A) (hA : [] ∉ A)
    {limit limit' : Nat} (hlimit : n < limit) (hlimit' : n < limit') :
    Agree cx cx' n (manyWhile more item limit) (manyWhile more item' limit') := by
  induction limit generalizing limit' n with
  | zero => cases hlimit
  | succ limit ih =>
    obtain ⟨limit', rfl⟩ := Nat.exists_eq_add_one.2 (Nat.zero_lt_of_lt hlimit')
    refine (hmore n (Nat.le_refl n)).bind hone fun b => Agree.ite ?_ (.pure _)
    refine (hitem n (Nat.le_refl n)).bind_lt hsound hA fun m hm first => ?_
    refine Agree.bind (ih (fun k hk => hmore k (by omega)) (fun k hk => hitem k (by omega))
      (by omega)
      (by omega)) (sound_manyWhile hone hsound limit) fun _ => .pure _

theorem agree_commaSeparated {item item' : ParseM α} (hitem : ∀ m ≤ n, Agree cx cx' m item item')
    (hsound : Sound item A) {limit limit' : Nat} (hlimit : n < limit) (hlimit' : n < limit') :
    Agree cx cx' n (commaSeparated item limit) (commaSeparated item' limit') := by
  induction limit generalizing limit' n with
  | zero => cases hlimit
  | succ limit ih =>
    obtain ⟨limit', rfl⟩ := Nat.exists_eq_add_one.2 (Nat.zero_lt_of_lt hlimit')
    refine (hitem n (Nat.le_refl n)).bind hsound fun first => ?_
    refine agree_accept_bind (fun m hm => ?_) (.pure _)
    exact (ih (fun k hk => hitem k (by omega)) (by omega) (by omega)).bind
      (sound_commaSeparated hsound limit) fun _ => .pure _

section

variable (hlast : cx.last = cx'.last) (hlimit : n < cx.limit) (hlimit' : n < cx'.limit)

include hlast hlimit hlimit'

omit hlast in
theorem agree_untilBrace {item item' : ParseM α} (hitem : ∀ m ≤ n, Agree cx cx' m item item')
    (hsound : Sound item A) (hA : [] ∉ A) :
    Agree cx cx' n (untilBrace item) (untilBrace item') :=
  agree_read_bind (agree_manyWhile (fun _ _ => agree_next_bind fun _ => .pure _)
    ((sound_next _).after fun _ => .pure _) hitem hsound hA hlimit hlimit')

theorem agree_parenthesised {item item' : ParseM α} (hitem : ∀ m ≤ n, Agree cx cx' m item item')
    (hsound : Sound item A) : Agree cx cx' n (parenthesised item) (parenthesised item') := by
  refine (agree_expect hlast _).bind (sound_expect _) fun _ => agree_next_bind fun _ =>
    Agree.ite ?_ ?_
  · exact (agree_expect hlast _).bind (sound_expect _) fun _ => .pure _
  · exact agree_read_bind ((agree_commaSeparated hitem hsound hlimit hlimit').bind
      (sound_commaSeparated hsound _) fun _ =>
        (agree_expect hlast _).bind (sound_expect _) fun _ => .pure _)

/-! ### Expressions -/

section

variable {e e' : ParseM Expr} {E : Language TokenKind} (he : ∀ m < n, Agree cx cx' m e e')
  (hsound : Sound e E)

include he hsound

theorem agree_call : Agree cx cx' n (call e) (call e') := by
  refine (agree_name hlast).bind_lt sound_name (by simp) fun m hm callee => ?_
  exact (agree_parenthesised hlast (by omega) (by omega) (fun k hk => he k (by omega)) hsound).bind
    (sound_parenthesised hsound) fun _ => .pure _

omit hlimit hlimit' in
theorem agree_accesses {limit limit' : Nat} (hlimit : n < limit) (hlimit' : n < limit')
    (base : Expr) :
    Agree cx cx' n (accesses e limit base) (accesses e' limit' base) := by
  induction limit generalizing limit' n base with
  | zero => cases hlimit
  | succ limit ih =>
    obtain ⟨limit', rfl⟩ := Nat.exists_eq_add_one.2 (Nat.zero_lt_of_lt hlimit')
    refine agree_accept_bind (fun m hm => ?_) (agree_accept_bind (fun m hm => ?_) (.pure _))
    · exact (agree_name hlast).bind sound_name fun _ =>
        ih (fun k hk => he k (by omega)) (by omega) (by omega) _
    · exact (he m hm).bind hsound fun _ => (agree_expect hlast _).bind (sound_expect _) fun _ =>
        ih (fun k hk => he k (by omega)) (by omega) (by omega) _

theorem agree_place : Agree cx cx' n (place e) (place e') :=
  (agree_name hlast).bind sound_name fun _ =>
    agree_read_bind (agree_accesses hlast he hsound hlimit hlimit' _)

theorem agree_primary : Agree cx cx' n (primary e) (primary e') := by
  refine agree_current_bind hlast fun ⟨kind, span⟩ => ?_
  cases kind with
  | integer value => exact agreeAt_advance_bind fun _ _ => .pure _
  | text value => exact agreeAt_advance_bind fun _ _ => .pure _
  | keyword word =>
    cases word with
    | true | false => exact agreeAt_advance_bind fun _ _ => .pure _
    | _ => exact (agree_unexpected hlast _).at
  | punctuator s =>
    cases s with
    | leftParen =>
      exact agreeAt_advance_bind fun m hm => (he m hm).bind hsound fun _ =>
        (agree_expect hlast _).bind (sound_expect _) fun _ => .pure _
    | _ => exact (agree_unexpected hlast _).at
  | identifier text =>
    exact (agree_ahead_bind fun _ => Agree.ite (agree_call hlast hlimit hlimit' he hsound)
      (agree_place hlast hlimit hlimit' he hsound)).at

end

section

variable {expression expression' : Nat → ParseM Expr} {E : Language TokenKind}
  (he : ∀ bound, ∀ m < n, Agree cx cx' m (expression bound) (expression' bound))
  (hsound : ∀ bound, Sound (expression bound) (Grammar.level E bound))

include he hsound

theorem agree_operand (hclosed : Grammar.level E 0 ≤ E) :
    Agree cx cx' n (operand expression) (operand expression') := by
  refine agree_current_bind hlast fun t => ?_
  cases leadingOp? t.kind with
  | some op =>
    exact agreeAt_advance_bind fun m hm => (he _ m hm).bind (hsound _) fun _ => .pure _
  | none =>
    have hzero : Sound (expression 0) E := (hsound 0).mono hclosed
    refine ((agree_primary hlast hlimit hlimit' (he 0) hzero).bind (sound_primary hzero)
      fun inner => ?_).at
    refine agree_get_bind fun ts => ?_
    cases ts.head? with
    | none => exact .pure _
    | some t =>
      simp only
      cases trailingOp? t.kind with
      | none => exact .pure _
      | some op => exact fun ts _ => ⟨rfl, by nofun⟩

omit hlast hlimit hlimit' in
theorem agree_operators (bound : Nat) {limit limit' : Nat} (hlimit : n < limit)
    (hlimit' : n < limit') (left : Expr) : Agree cx cx' n (operators expression bound limit left)
      (operators expression' bound limit' left) := by
  induction limit generalizing limit' n left with
  | zero => cases hlimit
  | succ limit ih =>
    obtain ⟨limit', rfl⟩ := Nat.exists_eq_add_one.2 (Nat.zero_lt_of_lt hlimit')
    refine agree_peek_bind (fun k => ?_) (.pure _)
    simp only [Option.bind_some]
    cases binaryOp? k with
    | none => exact (Agree.pure _).at
    | some op =>
      simp only
      split
      · refine agreeAt_advance_bind fun m hm => (he _ m hm).bind (hsound _) fun _ => ?_
        exact ih (fun bound k hk => he bound k (by omega)) (by omega) (by omega) _
      · exact (Agree.pure _).at

end

omit hlimit hlimit' in
theorem agree_expressionAt {depth depth' : Nat} (hdepth : n < depth) (hdepth' : n < depth')
    (hlimit : n < cx.limit) (hlimit' : n < cx'.limit) (bound : Nat) :
    Agree cx cx' n (expressionAt depth bound) (expressionAt depth' bound) := by
  induction depth generalizing depth' n bound with
  | zero => cases hdepth
  | succ depth ih =>
    obtain ⟨depth', rfl⟩ := Nat.exists_eq_add_one.2 (Nat.zero_lt_of_lt hdepth')
    have he : ∀ bound, ∀ m < n, Agree cx cx' m (expressionAt depth bound)
        (expressionAt depth' bound) :=
      fun bound m hm => ih (by omega) (by omega) (by omega) (by omega) bound
    refine (agree_operand hlast hlimit hlimit' he (sound_expressionAt depth)
      Grammar.expression_eq.le).bind (sound_operand Grammar.expression_eq.le
        (sound_expressionAt depth))
      fun left => agree_read_bind ?_
    exact agree_operators he (sound_expressionAt depth) bound hlimit hlimit' left

theorem agree_expression : Agree cx cx' n expression expression :=
  agree_read_bind (agree_expressionAt hlast hlimit hlimit' hlimit hlimit' 0)

/-! ### Types and declarations -/

omit hlimit hlimit' in
theorem agree_brackets {limit limit' : Nat} (hlimit : n < limit) (hlimit' : n < limit') (ty : Ty) :
    Agree cx cx' n (brackets limit ty) (brackets limit' ty) := by
  induction limit generalizing limit' n ty with
  | zero => cases hlimit
  | succ limit ih =>
    obtain ⟨limit', rfl⟩ := Nat.exists_eq_add_one.2 (Nat.zero_lt_of_lt hlimit')
    refine agree_accept_bind (fun m hm => ?_) (.pure _)
    exact (agree_expect hlast _).bind (sound_expect _) fun _ => ih (by omega) (by omega) _

theorem agree_type : Agree cx cx' n type type := by
  refine agree_current_bind hlast fun t => ?_
  cases typeOf? t.kind with
  | some ty =>
    exact agreeAt_advance_bind fun m hm =>
      agree_read_bind (agree_brackets hlast (by omega) (by omega) ty)
  | none => exact (agree_unexpected hlast _).at

omit hlimit hlimit' in
theorem agree_declarationRest (ty : Ty) (start : Span) :
    Agree cx cx' n (declarationRest ty start) (declarationRest ty start) :=
  (agree_name hlast).bind sound_name fun _ =>
    (agree_expect hlast _).bind (sound_expect _) fun _ => .pure _

theorem agree_declaration : Agree cx cx' n declaration declaration :=
  agree_current_bind hlast fun _ => ((agree_type hlast hlimit hlimit').bind sound_type fun _ =>
    agree_declarationRest hlast _ _).at

theorem agree_parameter : Agree cx cx' n parameter parameter := by
  refine agree_current_bind hlast fun _ => Agree.at ?_
  refine (agree_type hlast hlimit hlimit').bind sound_type fun _ =>
    agree_accept_bind (fun m hm => ?_) ?_
  · exact (agree_name hlast).bind sound_name fun _ => .pure _
  · exact (agree_name hlast).bind sound_name fun _ => .pure _

omit hlast hlimit hlimit' in
theorem agree_startsDeclaration : Agree cx cx' n startsDeclaration startsDeclaration := by
  refine agree_ahead_bind fun first => ?_
  split
  · exact .pure _
  · exact .pure _
  · exact .pure _
  · refine agree_ahead_bind fun second => ?_
    split
    · exact .pure _
    · exact agree_ahead_bind fun _ => .pure _
    · exact .pure _
  · exact .pure _

theorem agree_declarations : Agree cx cx' n declarations declarations :=
  agree_read_bind (agree_manyWhile (fun _ _ => agree_startsDeclaration) sound_startsDeclaration
    (fun m hm => agree_declaration hlast (by omega) (by omega)) sound_declaration
    (fun h => declaration_ne_nil h rfl) hlimit hlimit')

/-! ### Statements -/

section

variable {s s' : ParseM Statement} (hs : ∀ m < n, Agree cx cx' m s s')
  (hsound : Sound s Grammar.statement)

include hs hsound

theorem agree_block : Agree cx cx' n (block s) (block s') := by
  refine (agree_expect hlast _).bind_lt (sound_expect _) (by simp) fun m hm _ => ?_
  refine Agree.bind (agree_untilBrace (by omega) (by omega) (fun k hk => hs k (by omega)) hsound
    statement_ne_nil) (sound_untilBrace hsound) fun _ => ?_
  exact (agree_expect hlast _).bind (sound_expect _) fun _ => .pure _

end

theorem agree_body {s s' : ParseM Statement} (hs : ∀ m ≤ n, Agree cx cx' m s s')
    (hsound : Sound s Grammar.statement) : Agree cx cx' n (body s) (body s') :=
  agree_next_bind fun _ => Agree.ite
    (agree_block hlast hlimit hlimit' (fun m hm => hs m (Nat.le_of_lt hm)) hsound)
    ((hs n (Nat.le_refl n)).bind hsound fun _ => .pure _)

theorem agree_condition : Agree cx cx' n condition condition :=
  (agree_expect hlast _).bind (sound_expect _) fun _ =>
    (agree_expression hlast hlimit hlimit').bind sound_expression fun _ =>
      (agree_expect hlast _).bind (sound_expect _) fun _ => .pure _

theorem agree_alternative {s s' : ParseM Statement} (hs : ∀ m ≤ n, Agree cx cx' m s s')
    (hsound : Sound s Grammar.statement) : Agree cx cx' n (alternative s) (alternative s') := by
  refine agree_peek_bind (fun k => ?_) (.pure _)
  split
  · exact agreeAt_advance_bind fun m hm => (agree_body hlast (by omega) (by omega)
      (fun k hk => hs k (by omega)) hsound).bind (sound_body hsound block_le_statement)
        fun _ => .pure _
  · exact (Agree.pure _).at

theorem agree_assignment : Agree cx cx' n assignment assignment :=
  have he : ∀ m ≤ n, Agree cx cx' m expression expression := fun m hm =>
    agree_expression hlast (by omega) (by omega)
  (agree_place hlast hlimit hlimit' (fun m hm => he m (Nat.le_of_lt hm)) sound_expression).bind
    (sound_place sound_expression) fun _ => (agree_expect hlast _).bind (sound_expect _) fun _ =>
      (he n (Nat.le_refl n)).bind sound_expression fun _ =>
        (agree_expect hlast _).bind (sound_expect _) fun _ => .pure _

theorem agree_returned : Agree cx cx' n returned returned :=
  agree_next_bind fun _ => Agree.ite (.pure _)
    ((agree_expression hlast hlimit hlimit').bind sound_expression fun _ => .pure _)

omit hlimit hlimit' in
theorem agree_statementAt {depth depth' : Nat} (hdepth : n < depth) (hdepth' : n < depth')
    (hlimit : n < cx.limit) (hlimit' : n < cx'.limit) :
    Agree cx cx' n (statementAt depth) (statementAt depth') := by
  induction depth generalizing depth' n with
  | zero => cases hdepth
  | succ depth ih =>
    obtain ⟨depth', rfl⟩ := Nat.exists_eq_add_one.2 (Nat.zero_lt_of_lt hdepth')
    have hs : ∀ m < n, Agree cx cx' m (statementAt depth) (statementAt depth') := fun m hm =>
      ih (by omega) (by omega) (by omega) (by omega)
    have hsound := sound_statementAt depth
    have hbody : ∀ m < n, Agree cx cx' m (body (statementAt depth)) (body (statementAt depth')) :=
      fun m hm => agree_body hlast (by omega) (by omega) (fun k hk => hs k (by omega)) hsound
    have hbodySound := sound_body hsound block_le_statement
    have hcondition : ∀ m < n, Agree cx cx' m condition condition := fun m hm =>
      agree_condition hlast (by omega) (by omega)
    refine agree_current_bind hlast fun ⟨kind, span⟩ => ?_
    cases kind with
    | punctuator s =>
      cases s with
      | leftBrace => exact (agree_block hlast hlimit hlimit' hs hsound).at
      | semicolon => exact agreeAt_advance_bind fun _ _ => .pure _
      | _ => exact (agree_unexpected hlast _).at
    | keyword word =>
      cases word with
      | «if» =>
        refine agreeAt_advance_bind fun m hm => (hcondition m hm).bind sound_condition fun _ =>
          (hbody m hm).bind hbodySound fun _ => ?_
        exact (agree_alternative hlast (by omega) (by omega) (fun k hk => hs k (by omega))
          hsound).bind
          (sound_alternative hsound block_le_statement) fun _ => .pure _
      | «while» =>
        exact agreeAt_advance_bind fun m hm => (hcondition m hm).bind sound_condition fun _ =>
          (hbody m hm).bind hbodySound fun _ => .pure _
      | «return» =>
        exact agreeAt_advance_bind fun m hm => (agree_returned hlast (by omega) (by omega)).bind
          sound_returned fun _ => (agree_expect hlast _).bind (sound_expect _) fun _ => .pure _
      | _ => exact (agree_unexpected hlast _).at
    | identifier text =>
      refine (agree_ahead_bind fun _ => Agree.ite ?_ (agree_assignment hlast hlimit hlimit')).at
      exact (agree_call hlast hlimit hlimit' (fun m hm => agree_expression hlast (by omega)
        (by omega))
        sound_expression).bind (sound_call sound_expression) fun _ =>
          (agree_expect hlast _).bind (sound_expect _) fun _ => .pure _
    | _ => exact (agree_unexpected hlast _).at

theorem agree_statement : Agree cx cx' n statement statement :=
  agree_read_bind (agree_statementAt hlast hlimit hlimit' hlimit hlimit')

/-! ### Programs -/

theorem agree_recordRest (start : Span) : Agree cx cx' n (recordRest start) (recordRest start) :=
  (agree_name hlast).bind sound_name fun _ => (agree_expect hlast _).bind (sound_expect _) fun _ =>
    (agree_untilBrace hlimit hlimit' (fun m hm => agree_declaration hlast (by omega) (by omega))
      sound_declaration (fun h => declaration_ne_nil h rfl)).bind
        (sound_untilBrace sound_declaration) fun _ =>
      (agree_expect hlast _).bind (sound_expect _) fun _ => .pure _

theorem agree_functionRest (ty : Ty) (start : Span) :
    Agree cx cx' n (functionRest ty start) (functionRest ty start) := by
  refine (agree_name hlast).bind sound_name fun _ => ?_
  refine (agree_parenthesised hlast hlimit hlimit' (fun m hm =>
    agree_parameter hlast (by omega) (by omega)) sound_parameter).bind
      (sound_parenthesised sound_parameter) fun _ => ?_
  refine (agree_declarations hlast hlimit hlimit').bind sound_declarations fun _ => ?_
  refine (agree_expect hlast _).bind (sound_expect _) fun _ => ?_
  refine (agree_declarations hlast hlimit hlimit').bind sound_declarations fun _ => ?_
  refine (agree_untilBrace hlimit hlimit' (fun m hm => agree_statement hlast (by omega) (by omega))
    sound_statement statement_ne_nil).bind (sound_untilBrace sound_statement) fun _ => ?_
  exact (agree_expect hlast _).bind (sound_expect _) fun _ => .pure _

theorem agree_member : Agree cx cx' n member member := by
  refine agree_current_bind hlast fun ⟨kind, span⟩ => ?_
  have htyped : Agree cx cx' n (do
      let ty ← type
      if (← ahead 1) == some (.punctuator .leftParen) then
        return some (Member.function (← functionRest ty span))
      else
        return some (Member.global (← declarationRest ty span))) (do
      let ty ← type
      if (← ahead 1) == some (.punctuator .leftParen) then
        return some (Member.function (← functionRest ty span))
      else
        return some (Member.global (← declarationRest ty span))) := by
    refine (agree_type hlast hlimit hlimit').bind sound_type fun _ => agree_ahead_bind fun _ =>
      Agree.ite ?_ ?_
    · exact (agree_functionRest hlast hlimit hlimit' _ _).bind (sound_functionRest _ _)
        fun _ => .pure _
    · exact (agree_declarationRest hlast _ _).bind (sound_declarationRest _ _) fun _ => .pure _
  cases kind with
  | punctuator s =>
    cases s with
    | semicolon => exact agreeAt_advance_bind fun _ _ => .pure _
    | _ => exact (agree_unexpected hlast _).at
  | keyword word =>
    cases word with
    | record =>
      exact agreeAt_advance_bind fun m hm => (agree_recordRest hlast (by omega) (by omega) _).bind
        (sound_recordRest _) fun _ => .pure _
    | void =>
      exact agreeAt_advance_bind fun m hm => (agree_functionRest hlast (by omega) (by omega)
        _ _).bind
        (sound_functionRest _ _) fun _ => .pure _
    | int | bool | text => exact htyped.at
    | _ => exact (agree_unexpected hlast _).at
  | identifier text => exact htyped.at
  | _ => exact (agree_unexpected hlast _).at

/-- The limit is not reached and does not matter. -/
theorem agree_members : Agree cx cx' n members members :=
  agree_read_bind ((agree_manyWhile (fun _ _ => agree_get_bind fun _ => .pure _)
    (sound_get.after fun _ => .pure _) (fun m hm => agree_member hlast (by omega) (by omega))
    sound_member (fun h => member_ne_nil h rfl) hlimit hlimit').bind
      (sound_manyWhile (sound_get.after fun _ => .pure _) sound_member _) fun _ => .pure _)

end

/-- The reader for programs leaves nothing. -/
theorem manyWhile_rest {item : ParseM α} {limit : Nat} {ts ts' : List Token} {v : List α}
    (h : ((manyWhile (return !(← get).isEmpty) item limit).run cx).run ts = .ok (v, ts')) :
    ts' = [] := by
  induction limit generalizing ts v with
  | zero => cases h
  | succ limit ih =>
    cases ts with
    | nil =>
      cases h
      rfl
    | cons t ts =>
      change ((item >>= fun first => manyWhile _ item limit >>= fun rest =>
        pure (first :: rest)).run
        cx).run (t :: ts) = _ at h
      rw [run_bind] at h
      obtain ⟨⟨first, ts₁⟩, -, h⟩ := Outcome.bind_eq_ok.1 h
      rw [run_bind] at h
      obtain ⟨⟨rest, ts₂⟩, hrest, h⟩ := Outcome.bind_eq_ok.1 h
      cases h
      exact ih hrest

/-- The tokens that the reader for programs accepts. -/
theorem members_iff {ts : List Token} (hlimit : ts.length < cx.limit) :
    (∃ r, (members.run cx).run ts = .ok r) ↔ kinds ts ∈ Grammar.program := by
  constructor
  · rintro ⟨⟨found, rest⟩, hrun⟩
    obtain ⟨w, hw, hkinds⟩ := sound_members cx ts found rest hrun
    -- nothing is left, so what was consumed is everything
    change ((manyWhile (return !(← get).isEmpty) member cx.limit >>=
      fun found => pure (found.filterMap id)).run cx).run ts = _ at hrun
    rw [run_bind] at hrun
    obtain ⟨⟨all, rest'⟩, hall, hpure⟩ := Outcome.bind_eq_ok.1 hrun
    cases hpure
    rw [manyWhile_rest hall, kinds_nil, List.append_nil] at hkinds
    rwa [hkinds]
  · intro hw
    obtain ⟨found, rest, hrun, -⟩ := takes_members hw (by simpa [kinds] using hlimit) ts rfl
    exact ⟨(found, rest), hrun⟩

end Parser

/-- Reading a program never fails but with an error of the program. -/
theorem Program.parse_ne_fault (tokens : List Token) (fault : Fault) :
    Program.parse tokens ≠ .error (.fault fault) := by
  let cx : Parser.Context := ⟨(tokens.getLast?.map (·.span)).getD Span.empty, tokens.length + 1⟩
  have hlimit : tokens.length < cx.limit := Nat.lt_succ_self tokens.length
  have hmembers : Parser.Agree cx cx tokens.length Parser.members Parser.members :=
    Parser.agree_members rfl hlimit hlimit
  intro hparse
  change ((Parser.members.run cx).run tokens >>= fun r =>
    pure (⟨Token.extent tokens, r.1⟩ : Program)) = _ at hparse
  cases hrun : (Parser.members.run cx).run tokens with
  | ok r =>
    rw [hrun] at hparse
    cases hparse
  | error failure =>
    rw [hrun] at hparse
    cases hparse
    exact (hmembers tokens (Nat.le_refl _)).2 fault hrun

/-- A program parses if and only if its tokens are a word of the grammar. The loops of the parser
end by themselves, whatever the tokens: none goes beyond its limit, and a larger limit changes
nothing. -/
theorem Program.parse_iff (tokens : List Token) :
    ((∃ p, Program.parse tokens = .ok p) ↔ tokens.map (·.kind) ∈ Grammar.program) ∧
    (∀ fault, Program.parse tokens ≠ .error (.fault fault)) ∧
    ∀ last more,
      (Parser.members.run ⟨last, tokens.length + 1 + more⟩).run tokens =
        (Parser.members.run ⟨last, tokens.length + 1⟩).run tokens ∧
      ∀ fault, (Parser.members.run ⟨last, tokens.length + 1 + more⟩).run tokens ≠
        .error (.fault fault) := by
  refine ⟨?_, Program.parse_ne_fault tokens, fun last more => ?_⟩
  · let cx : Parser.Context := ⟨(tokens.getLast?.map (·.span)).getD Span.empty, tokens.length + 1⟩
    have hlimit : tokens.length < cx.limit := Nat.lt_succ_self tokens.length
    refine Iff.trans ⟨?_, ?_⟩ (Parser.members_iff hlimit)
    · rintro ⟨p, hp⟩
      obtain ⟨r, hr, -⟩ := Outcome.bind_eq_ok.1 hp
      exact ⟨r, hr⟩
    · rintro ⟨r, hr⟩
      exact ⟨⟨Token.extent tokens, r.1⟩, Outcome.bind_eq_ok.2 ⟨r, hr, rfl⟩⟩
  · let cx : Parser.Context := ⟨last, tokens.length + 1 + more⟩
    let cx' : Parser.Context := ⟨last, tokens.length + 1⟩
    have hlimit : tokens.length < cx.limit :=
      Nat.lt_of_lt_of_le (Nat.lt_succ_self _) (Nat.le_add_right _ _)
    have hlimit' : tokens.length < cx'.limit := Nat.lt_succ_self tokens.length
    have hlast : cx.last = cx'.last := rfl
    exact Parser.agree_members hlast hlimit hlimit' tokens (Nat.le_refl _)

end MiniJ
