import MiniJ.Proofs.Tree.Acceptance

/-!
# Words that the readers for statements and programs accept

Two tokens of lookahead tell declarations from statements, functions from variables, and calls from
assignments. An `else` belongs to the nearest `if` that can take it: every statement has a
derivation in which no `if` without an alternative stands in front of an `else`.

## Main statements

* `Parser.exists_settled` — every statement has such a derivation.
* `Parser.takes_members` — the reader for programs succeeds on every program.
-/
namespace MiniJ

namespace Parser

open scoped Computability

variable {α : Type} {cx : Context} {k : TokenKind} {w ks rest : List TokenKind}

/-! ### Types and declarations -/

theorem takes_brackets {L : List (List TokenKind)}
    (hL : ∀ v ∈ L, v ∈ Grammar.sign .leftBracket * Grammar.sign .rightBracket)
    (hrest : rest.head? ≠ some (.punctuator .leftBracket)) {limit : Nat} (hlimit : L.length < limit)
    (ty : Ty) : Takes cx (brackets limit ty) (L.flatten ++ rest) rest := by
  induction L generalizing limit ty with
  | nil =>
    obtain ⟨limit, rfl⟩ := Nat.exists_eq_add_one.2 (Nat.zero_lt_of_lt hlimit)
    exact takes_skip_bind hrest (.pure _)
  | cons v L ih =>
    obtain ⟨limit, rfl⟩ := Nat.exists_eq_add_one.2 (Nat.zero_lt_of_lt hlimit)
    obtain ⟨_, rfl, _, rfl, rfl⟩ := hL v (by simp)
    refine takes_accept_bind (takes_expect.bind fun _ => ?_)
    exact ih (fun u hu => hL u (by simp [hu])) (by simpa using hlimit) _

theorem takes_type (hw : w ∈ Grammar.type) (hlimit : w.length < cx.limit)
    (hrest : rest.head? ≠ some (.punctuator .leftBracket)) : Takes cx type (w ++ rest) rest := by
  obtain ⟨first, hfirst, _, ⟨L, rfl, hL⟩, rfl⟩ := hw
  obtain ⟨k, rfl, hty⟩ : ∃ k, first = [k] ∧ (typeOf? k).isSome := by
    rcases hfirst with ((rfl | rfl) | rfl) | ⟨text, rfl⟩ <;> exact ⟨_, rfl, rfl⟩
  obtain ⟨ty, hty⟩ := Option.isSome_iff_exists.1 hty
  have hcount : L.length ≤ L.flatten.length := length_le_flatten fun v hv => by
    obtain ⟨_, rfl, v, -, rfl⟩ := hL v hv
    simp
  simp only [List.cons_append, List.nil_append, List.length_cons] at hlimit ⊢
  refine takes_current_bind fun span => ?_
  simp only [hty]
  exact takes_advance.bind fun _ => answers_read.bind (takes_brackets hL hrest (by omega) ty)

theorem takes_declarationRest {text : String} (ty : Ty) (start : Span) :
    Takes cx (declarationRest ty start)
      (.identifier text :: .punctuator .semicolon :: rest) rest :=
  takes_name.bind fun _ => takes_expect.finish fun _ => .pure _

/-- Tokens that begin a type. -/
theorem type_cases (hw : w ∈ Grammar.type) : ∃ k v, w = k :: v ∧ k.isTypeStart ∧
    ((∃ text, k = .identifier text) → v = [] ∨
      ∃ u, v = .punctuator .leftBracket :: .punctuator .rightBracket :: u) := by
  obtain ⟨first, hfirst, _, ⟨L, rfl, hL⟩, rfl⟩ := hw
  have hrest : L.flatten = [] ∨
      ∃ u, L.flatten = .punctuator .leftBracket :: .punctuator .rightBracket :: u := by
    cases L with
    | nil => exact .inl rfl
    | cons v L =>
      obtain ⟨_, rfl, _, rfl, rfl⟩ := hL v (by simp)
      exact .inr ⟨L.flatten, rfl⟩
  rcases hfirst with ((rfl | rfl) | rfl) | ⟨text, rfl⟩ <;> exact ⟨_, _, rfl, rfl, fun _ => hrest⟩

theorem takes_declaration (hw : w ∈ Grammar.declaration) (hlimit : w.length < cx.limit) :
    Takes cx declaration (w ++ rest) rest := by
  rw [Grammar.declaration, mul_assoc] at hw
  obtain ⟨u, hu, _, ⟨_, ⟨text, rfl⟩, _, rfl, rfl⟩, rfl⟩ := hw
  have htype : Takes cx type (u ++ .identifier text :: .punctuator .semicolon :: rest)
      (.identifier text :: .punctuator .semicolon :: rest) :=
    takes_type hu (by simp at hlimit; omega) (by simp)
  obtain ⟨k, v, rfl, -⟩ := type_cases hu
  simp only [List.cons_append, List.nil_append, List.append_assoc] at htype ⊢
  exact takes_current_bind fun _ => htype.bind fun _ => takes_declarationRest _ _

theorem takes_parameter (hw : w ∈ Grammar.parameter) (hlimit : w.length < cx.limit) :
    Takes cx parameter (w ++ rest) rest := by
  rw [Grammar.parameter, mul_assoc, add_mul, one_mul] at hw
  obtain ⟨u, hu, v, hv, rfl⟩ := hw
  have htype : ∀ after : List TokenKind, after.head? ≠ some (.punctuator .leftBracket) →
      Takes cx type (u ++ after) after := fun after hafter =>
    takes_type hu (by simp at hlimit; omega) hafter
  obtain ⟨k, u, rfl, -⟩ := type_cases hu
  rw [List.append_assoc]
  refine takes_current_bind fun _ => Takes.bind (htype (v ++ rest) ?_) fun _ => ?_
  · rcases hv with ⟨text, rfl⟩ | ⟨_, rfl, _, -, rfl⟩ <;> simp
  · rcases hv with ⟨text, rfl⟩ | ⟨_, rfl, _, ⟨text, rfl⟩, rfl⟩
    · exact takes_skip_bind (by simp) (takes_name.finish fun _ => .pure _)
    · exact takes_accept_bind (takes_name.finish fun _ => .pure _)

/-- A declaration is told by its first tokens. -/
theorem answers_startsDeclaration (hw : w ∈ Grammar.declaration) :
    Answers cx startsDeclaration (w ++ rest) true := by
  rw [Grammar.declaration, mul_assoc] at hw
  obtain ⟨u, hu, _, ⟨_, ⟨text, rfl⟩, _, rfl, rfl⟩, rfl⟩ := hw
  obtain ⟨k, v, rfl, hstart, hnext⟩ := type_cases hu
  refine (answers_ahead 0).trans ?_
  cases k with
  | identifier name =>
    refine (answers_ahead 1).trans ?_
    rcases hnext ⟨name, rfl⟩ with rfl | ⟨u, rfl⟩
    · exact .pure _
    · exact (answers_ahead 2).trans (.pure _)
  | keyword word =>
    cases word with
    | int | bool | text => exact .pure _
    | _ => cases hstart
  | _ => cases hstart

theorem declaration_ne_nil (hw : w ∈ Grammar.declaration) : w ≠ [] := by
  rw [Grammar.declaration, mul_assoc] at hw
  obtain ⟨u, hu, v, -, rfl⟩ := hw
  obtain ⟨k, u, rfl, -⟩ := type_cases hu
  simp

theorem takes_declarations (hw : w ∈ Grammar.declaration∗) (hlimit : w.length < cx.limit)
    (hrest : Answers cx startsDeclaration rest false) : Takes cx declarations (w ++ rest) rest := by
  obtain ⟨L, rfl, hL⟩ := hw
  have hcount := length_le_flatten fun v hv => declaration_ne_nil (hL v hv)
  refine answers_read.bind (takes_manyWhile (F := fun _ => True)
    (fun v hv _ => answers_startsDeclaration (hL v hv)) hrest (fun v hv _ _ => ?_)
    (fun _ _ _ => trivial) trivial (by omega))
  have hlength := (List.sublist_flatten_of_mem hv).length_le
  exact takes_declaration (hL v hv) (by omega)

/-- Items up to a brace. -/
theorem takes_untilBrace {item : ParseM α} {L : List (List TokenKind)}
    {F : List TokenKind → Prop}
    (hitem : ∀ w ∈ L, ∀ after, F after → Takes cx item (w ++ after) after)
    (hstart : ∀ w ∈ L, ∃ k v, w = k :: v ∧ k ≠ .punctuator .rightBrace)
    (hfollow : ∀ w ∈ L, ∀ after, F (w ++ after)) (hbrace : F (.punctuator .rightBrace :: rest))
    (hlimit : L.flatten.length < cx.limit) :
    Takes cx (untilBrace item) (L.flatten ++ .punctuator .rightBrace :: rest)
      (.punctuator .rightBrace :: rest) := by
  have hcount : L.length ≤ L.flatten.length := length_le_flatten fun w hw => by
    obtain ⟨k, v, rfl, -⟩ := hstart w hw
    simp
  refine answers_read.bind (takes_manyWhile (fun w hw after => ?_) ?_ hitem hfollow hbrace
    (by omega))
  · obtain ⟨k, v, rfl, hk⟩ := hstart w hw
    refine (answers_next _).trans ?_
    rw [decide_eq_false (by simpa using hk)]
    exact .pure _
  · exact (answers_next _).trans (.pure _)

/-! ### Statements -/

/-- Statements in which every `else` belongs to the nearest `if` that can take it. The flag tells
whether an `else` behind the statement would belong to it. -/
inductive Settled : Bool → List TokenKind → Prop
  | simple {w : List TokenKind} (h : w ∈ Grammar.simple) : Settled false w
  | block {L : List (List TokenKind)} (takesElse : List TokenKind → Bool)
      (h : ∀ w ∈ L, Settled (takesElse w) w) :
      Settled false (.punctuator .leftBrace :: (L.flatten ++ [.punctuator .rightBrace]))
  | branch {b : Bool} {c w : List TokenKind} (test : c ∈ Grammar.condition) (onTrue : Settled b w) :
      Settled true (.keyword .if :: (c ++ w))
  | branchElse {b : Bool} {c w v : List TokenKind} (test : c ∈ Grammar.condition)
      (onTrue : Settled false w) (onFalse : Settled b v) :
      Settled b (.keyword .if :: (c ++ (w ++ .keyword .else :: v)))
  | loop {b : Bool} {c w : List TokenKind} (test : c ∈ Grammar.condition) (body : Settled b w) :
      Settled b (.keyword .while :: (c ++ w))

/-- An `else` behind a statement that takes it. -/
theorem Settled.append_else {b : Bool} {v : List TokenKind} (hw : Settled true w)
    (hv : Settled b v) : ∃ b', Settled b' (w ++ .keyword .else :: v) := by
  generalize htakes : true = t at hw
  induction hw with
  | simple | block => cases htakes
  | @branch b' c w test onTrue ih =>
    cases b' with
    | false => exact ⟨b, by simpa using Settled.branchElse test onTrue hv⟩
    | true =>
      obtain ⟨b', hwhole⟩ := ih rfl
      exact ⟨true, by simpa using Settled.branch test hwhole⟩
  | branchElse test onTrue onFalse _ ih =>
    obtain ⟨b', hwhole⟩ := ih htakes
    exact ⟨b', by simpa using Settled.branchElse test onTrue hwhole⟩
  | loop test body ih =>
    obtain ⟨b', hwhole⟩ := ih htakes
    exact ⟨b', by simpa using Settled.loop test hwhole⟩

theorem exists_settled (hw : w ∈ Grammar.statement) : ∃ b, Settled b w := by
  induction hn : w.length using Nat.strong_induction_on generalizing w with
  | _ n ih =>
    subst hn
    rw [← Grammar.statement_eq, Grammar.statementOf, Grammar.branch, Grammar.loop,
      Grammar.block] at hw
    simp only [mul_assoc] at hw
    rcases hw with ((hsimple | hbranch) | hloop) | hblock
    · exact ⟨false, .simple hsimple⟩
    · obtain ⟨_, rfl, _, ⟨c, hc, _, ⟨u, hu, v, hv, rfl⟩, rfl⟩, rfl⟩ := hbranch
      obtain ⟨b, hsettled⟩ := ih u.length (by simp; omega) hu rfl
      rcases hv with rfl | ⟨_, rfl, v, hv, rfl⟩
      · exact ⟨true, by simpa using Settled.branch hc hsettled⟩
      · obtain ⟨b', hsettled'⟩ := ih v.length (by simp; omega) hv rfl
        cases b with
        | false => exact ⟨b', by simpa using Settled.branchElse hc hsettled hsettled'⟩
        | true =>
          -- the branch takes the `else` itself
          obtain ⟨_, hwhole⟩ := hsettled.append_else hsettled'
          exact ⟨true, by simpa using Settled.branch hc hwhole⟩
    · obtain ⟨_, rfl, _, ⟨c, hc, u, hu, rfl⟩, rfl⟩ := hloop
      obtain ⟨b, hsettled⟩ := ih u.length
        (by simp only [List.length_append, List.length_singleton]; omega) hu rfl
      exact ⟨b, by simpa using Settled.loop hc hsettled⟩
    · obtain ⟨_, rfl, _, ⟨_, ⟨L, rfl, hL⟩, _, rfl, rfl⟩, rfl⟩ := hblock
      have hparts : ∀ u, ∃ b, u ∈ L → Settled b u := fun u => by
        by_cases hu : u ∈ L
        · have hlength := (List.sublist_flatten_of_mem hu).length_le
          obtain ⟨b, hsettled⟩ := ih u.length (by simp at hlength ⊢; omega) (hL u hu) rfl
          exact ⟨b, fun _ => hsettled⟩
        · exact ⟨false, fun h => absurd h hu⟩
      choose takesElse hsettled using hparts
      exact ⟨false, .block takesElse hsettled⟩

/-- Tokens that begin a statement. -/
def Begins (ks : List TokenKind) : Prop :=
  ∃ k v, ks = k :: v ∧ k ≠ .punctuator .rightBrace ∧ k ≠ .keyword .else ∧
    ∀ cx : Context, Answers cx startsDeclaration ks false

theorem begins_of_kind (hbrace : k ≠ .punctuator .rightBrace) (helse : k ≠ .keyword .else)
    (htype : k.isTypeStart = false) (ks : List TokenKind) : Begins (k :: ks) := by
  refine ⟨k, ks, rfl, hbrace, helse, fun cx => (answers_ahead 0).trans ?_⟩
  cases k with
  | identifier => cases htype
  | keyword word =>
    cases word with
    | int | bool | text => cases htype
    | _ => exact .pure _
  | _ => exact .pure _

theorem begins_of_identifier {text : String} {k : TokenKind} (hk : ∀ name, k ≠ .identifier name)
    (hbracket : k = .punctuator .leftBracket → ks.head? ≠ some (.punctuator .rightBracket)) :
    Begins (.identifier text :: k :: ks) := by
  refine ⟨_, _,
    rfl, by simp, by simp, fun cx => (answers_ahead 0).trans ((answers_ahead 1).trans ?_)⟩
  cases k with
  | identifier name => exact absurd rfl (hk name)
  | punctuator s =>
    cases s with
    | leftBracket =>
      have hne := hbracket rfl
      refine (answers_ahead 2).trans ?_
      rw [beq_eq_false_iff_ne.2 (by simpa [List.head?_eq_getElem?] using hne)]
      exact .pure _
    | _ => exact .pure _
  | _ => exact .pure _

theorem Settled.begins {b : Bool} (h : Settled b w) (after : List TokenKind) :
    Begins (w ++ after) := by
  cases h with
  | block | branch | branchElse | loop => exact begins_of_kind (by simp) (by simp) rfl _
  | simple h =>
    rw [Grammar.simple, Grammar.assignment, Grammar.callStatement, Grammar.returned] at h
    simp only [mul_assoc] at h
    rcases h with ((⟨u, hu, _, ⟨_, rfl, v, -, rfl⟩, rfl⟩ | ⟨u, hu, v, -, rfl⟩) |
      ⟨_, rfl, v, -, rfl⟩) | rfl
    · obtain ⟨text, rfl | ⟨v, rfl⟩ | ⟨i, hi, v, rfl⟩⟩ := place_cases hu
      · exact begins_of_identifier (by simp) (by simp)
      · exact begins_of_identifier (by simp) (by simp)
      · refine begins_of_identifier (by simp) fun _ => ?_
        obtain ⟨k, i, rfl, hk⟩ := opens_expression hi
        simpa using hk _ (by simp)
    · obtain ⟨text, v, rfl⟩ := call_cases hu
      exact begins_of_identifier (by simp) (by simp)
    · exact begins_of_kind (by simp) (by simp) rfl _
    · exact begins_of_kind (by simp) (by simp) rfl _

theorem statement_ne_nil : [] ∉ Grammar.statement := by
  intro h
  obtain ⟨b, hb⟩ := exists_settled h
  obtain ⟨k, v, heq, -⟩ := hb.begins []
  cases heq

theorem takes_condition (hw : w ∈ Grammar.condition) (hlimit : w.length < cx.limit) :
    Takes cx condition (w ++ rest) rest := by
  rw [Grammar.condition, mul_assoc] at hw
  obtain ⟨_, rfl, _, ⟨u, hu, _, rfl, rfl⟩, rfl⟩ := hw
  simp only [List.cons_append, List.nil_append, List.append_assoc, List.length_cons,
    List.length_append] at hlimit ⊢
  refine takes_expect.bind fun _ => ?_
  exact (reads_expression (n := u.length) (by omega) u hu (Nat.le_refl _) _
    (closed_sign (by simp) 0 _)).bind fun _ => takes_expect.finish fun _ => .pure _

theorem takes_assignment (hw : w ∈ Grammar.assignment) (hlimit : w.length < cx.limit) :
    Takes cx assignment (w ++ rest) rest := by
  rw [Grammar.assignment, mul_assoc, mul_assoc] at hw
  obtain ⟨p, hp, _, ⟨_, rfl, _, ⟨u, hu, _, rfl, rfl⟩, rfl⟩, rfl⟩ := hw
  simp only [List.cons_append, List.nil_append, List.append_assoc, List.length_cons,
    List.length_append] at hlimit ⊢
  have he : Reads cx expression Grammar.expression (p.length + u.length) :=
    reads_expression (by omega)
  refine (takes_place he hp (by omega) (by omega) (closed_sign (by simp) 0 _).whole).bind fun _ =>
    takes_expect.bind fun _ => ?_
  exact (he u hu (by omega) _ (closed_sign (by simp) 0 _)).bind fun _ =>
    takes_expect.finish fun _ => .pure _

theorem takes_simple (hw : w ∈ Grammar.simple) (hlimit : w.length < cx.limit) (depth : Nat) :
    Takes cx (statementAt (depth + 1)) (w ++ rest) rest := by
  rcases hw with ((hassign | hcall) | hreturn) | rfl
  · have htakes : Takes cx assignment (w ++ rest) rest := takes_assignment hassign hlimit
    rw [Grammar.assignment, mul_assoc, mul_assoc] at hassign
    obtain ⟨p, hp, _, ⟨_, rfl, v, -, rfl⟩, rfl⟩ := hassign
    have hwhole : Whole (.punctuator .assign :: (v ++ rest)) := (closed_sign (by simp) 0 _).whole
    obtain ⟨text, u, rfl, hsecond⟩ := place_second hp hwhole
    simp only [List.cons_append, List.nil_append, List.append_assoc] at htakes ⊢
    refine takes_current_bind fun _ => (answers_ahead 1).bind ?_
    rw [if_neg (by simpa [List.head?_eq_getElem?] using hsecond)]
    exact htakes
  · obtain ⟨u, hu, _, rfl, rfl⟩ := hcall
    have htakes : Takes cx (call expression) (u ++ .punctuator .semicolon :: rest)
        (.punctuator .semicolon :: rest) :=
      takes_call (reads_expression (n := u.length) (by simp at hlimit; omega))
        (fun _ => opens_expression) hu (by omega) (by simp at hlimit; omega)
    obtain ⟨text, v, rfl⟩ := call_cases hu
    simp only [List.cons_append, List.nil_append, List.append_assoc] at htakes ⊢
    exact takes_current_bind fun _ => (answers_ahead 1).bind
      (htakes.bind fun _ => takes_expect.finish fun _ => .pure _)
  · rw [Grammar.returned, mul_assoc] at hreturn
    obtain ⟨_, rfl, _, ⟨u, hu, _, rfl, rfl⟩, rfl⟩ := hreturn
    simp only [List.cons_append, List.nil_append, List.append_assoc, List.length_cons,
      List.length_append] at hlimit ⊢
    have hreturned : Takes cx returned (u ++ .punctuator .semicolon :: rest)
        (.punctuator .semicolon :: rest) := by
      refine (answers_next _).bind ?_
      rcases hu with rfl | hu
      · exact .pure _
      · have htakes : Takes cx expression (u ++ .punctuator .semicolon :: rest)
            (.punctuator .semicolon :: rest) :=
          reads_expression (n := u.length) (by omega) u hu (Nat.le_refl _) _
            (closed_sign (by simp) 0 rest)
        obtain ⟨k, u, rfl, hk⟩ := opens_expression hu
        rw [decide_eq_false (by simpa using hk _ (by simp))]
        exact htakes.finish fun _ => .pure _
    exact takes_current_bind fun _ => takes_advance.bind fun _ => hreturned.bind fun _ =>
      takes_expect.finish fun _ => .pure _
  · exact takes_current_bind fun _ => takes_advance.finish fun _ => .pure _

theorem simple_cases (hw : w ∈ Grammar.simple) :
    ∃ k v, w = k :: v ∧ k ≠ .punctuator .leftBrace := by
  rw [Grammar.simple, Grammar.assignment, Grammar.callStatement, Grammar.returned] at hw
  simp only [mul_assoc] at hw
  rcases hw with ((⟨u, hu, v, -, rfl⟩ | ⟨u, hu, v, -, rfl⟩) | ⟨_, rfl, v, -, rfl⟩) | rfl
  · obtain ⟨text, rfl | ⟨u, rfl⟩ | ⟨i, -, u, rfl⟩⟩ := place_cases hu <;> exact ⟨_, _, rfl, by simp⟩
  · obtain ⟨text, u, rfl⟩ := call_cases hu
    exact ⟨_, _, rfl, by simp⟩
  · exact ⟨_, _, rfl, by simp⟩
  · exact ⟨_, _, rfl, by simp⟩

section

variable {s : ParseM Statement}

/-- A body that is no block is a statement. -/
theorem takes_body (hk : k ≠ .punctuator .leftBrace) (h : Takes cx s (k :: ks) rest) :
    Takes cx s (k :: ks) rest ∧ Takes cx (body s) (k :: ks) rest := by
  refine ⟨h, (answers_next _).bind ?_⟩
  rw [decide_eq_false (by simpa using hk)]
  exact h.finish fun _ => .pure _

/-- Statements up to a brace. -/
theorem takes_statements {L : List (List TokenKind)}
    (hitem : ∀ w ∈ L, ∀ after : List TokenKind, after.head? ≠ some (.keyword .else) →
      Takes cx s (w ++ after) after)
    (hbegins : ∀ w ∈ L, ∀ after, Begins (w ++ after)) (hlimit : L.flatten.length < cx.limit) :
    Takes cx (untilBrace s) (L.flatten ++ .punctuator .rightBrace :: rest)
      (.punctuator .rightBrace :: rest) := by
  refine takes_untilBrace hitem (fun w hw => ?_) (fun w hw after => ?_) (by simp) hlimit
  · obtain ⟨k, v, heq, hk, -⟩ := hbegins w hw []
    exact ⟨k, v, by simpa using heq, hk⟩
  · obtain ⟨k, v, heq, -, hk, -⟩ := hbegins w hw after
    simpa [heq] using hk

end

/-- The reader for statements succeeds on every statement, alone or as a body. -/
theorem Settled.takes {b : Bool} {depth : Nat} (h : Settled b w) (hdepth : w.length ≤ depth)
    (hlimit : w.length < cx.limit) (hrest : b = true → rest.head? ≠ some (.keyword .else)) :
    Takes cx (statementAt depth) (w ++ rest) rest ∧
      Takes cx (body (statementAt depth)) (w ++ rest) rest := by
  induction h generalizing depth rest with
  | simple hsimple =>
    obtain ⟨k, v, rfl, hk⟩ := simple_cases hsimple
    obtain ⟨depth, rfl⟩ := Nat.exists_eq_add_one.2 (Nat.zero_lt_of_lt hdepth)
    have htakes : Takes cx _ (_ ++ rest) rest := takes_simple hsimple hlimit depth
    exact takes_body hk htakes
  | @block L takesElse h ih =>
    obtain ⟨depth, rfl⟩ := Nat.exists_eq_add_one.2 (Nat.zero_lt_of_lt hdepth)
    simp only [List.cons_append, List.nil_append, List.append_assoc, List.length_cons,
      List.length_append] at hdepth hlimit ⊢
    have htakes : ∀ d, L.flatten.length ≤ d → Takes cx (Parser.block (statementAt d))
        (.punctuator .leftBrace :: (L.flatten ++ .punctuator .rightBrace :: rest)) rest := by
      intro d hd
      refine takes_expect.bind fun _ => Takes.bind (takes_statements (fun w hw after hafter => ?_)
        (fun w hw => (h w hw).begins) (by omega)) fun _ => takes_expect.finish fun _ => .pure _
      have hlength := (List.sublist_flatten_of_mem hw).length_le
      exact (ih w hw (by omega) (by omega) fun _ => hafter).1
    exact ⟨takes_current_bind fun _ => htakes depth (by omega),
      (answers_next _).bind (htakes (depth + 1) (by omega))⟩
  | branch test onTrue ih =>
    obtain ⟨depth, rfl⟩ := Nat.exists_eq_add_one.2 (Nat.zero_lt_of_lt hdepth)
    simp only [List.cons_append, List.append_assoc, List.length_cons, List.length_append]
      at hdepth hlimit ⊢
    refine takes_body (by simp) (takes_current_bind fun _ => takes_advance.bind fun _ => ?_)
    refine (takes_condition test (by omega)).bind fun _ => ?_
    refine (ih (by omega) (by omega) fun _ => hrest rfl).2.bind fun _ => ?_
    refine Takes.finish ((answers_ahead 0).bind ?_) fun _ => .pure _
    rw [if_neg (by simpa [List.head?_eq_getElem?] using hrest rfl)]
    exact .pure _
  | branchElse test onTrue onFalse ih ih' =>
    obtain ⟨depth, rfl⟩ := Nat.exists_eq_add_one.2 (Nat.zero_lt_of_lt hdepth)
    simp only [List.cons_append, List.append_assoc, List.length_cons, List.length_append]
      at hdepth hlimit ⊢
    refine takes_body (by simp) (takes_current_bind fun _ => takes_advance.bind fun _ => ?_)
    refine (takes_condition test (by omega)).bind fun _ => ?_
    refine (ih (by omega) (by omega) (by simp)).2.bind fun _ => ?_
    refine Takes.finish ((answers_ahead 0).bind (takes_advance.bind fun _ => ?_)) fun _ => .pure _
    exact (ih' (by omega) (by omega) hrest).2.finish fun _ => .pure _
  | loop test body ih =>
    obtain ⟨depth, rfl⟩ := Nat.exists_eq_add_one.2 (Nat.zero_lt_of_lt hdepth)
    simp only [List.cons_append, List.append_assoc, List.length_cons, List.length_append]
      at hdepth hlimit ⊢
    refine takes_body (by simp) (takes_current_bind fun _ => takes_advance.bind fun _ => ?_)
    refine (takes_condition test (by omega)).bind fun _ => ?_
    exact (ih (by omega) (by omega) hrest).2.finish fun _ => .pure _

/-! ### Programs -/

theorem answers_startsDeclaration_sign {s : Punctuator} :
    Answers cx startsDeclaration (.punctuator s :: rest) false := (answers_ahead 0).trans (.pure _)

theorem takes_functionRest (hw : w ∈ functionTail) (hlimit : w.length < cx.limit) (ty : Ty)
    (start : Span) : Takes cx (functionRest ty start) (w ++ rest) rest := by
  rw [functionTail, mul_assoc, mul_assoc] at hw
  obtain ⟨_, ⟨text, rfl⟩, _,
    ⟨_, rfl, _, ⟨params, hparams, _, ⟨_, rfl, _, ⟨outer, houter, _, ⟨_, rfl, _,
    ⟨inner, hinner, _, ⟨_, ⟨L, rfl, hL⟩, _, rfl, rfl⟩, rfl⟩, rfl⟩, rfl⟩, rfl⟩, rfl⟩, rfl⟩, rfl⟩ :=
      hw
  simp only [List.cons_append, List.nil_append, List.append_assoc, List.length_cons,
    List.length_append] at hlimit ⊢
  have hsettled := fun w hw => exists_settled (hL w hw)
  have hstatement : ∀ w ∈ L, ∀ after : List TokenKind, after.head? ≠ some (.keyword .else) →
      Takes cx statement (w ++ after) after := by
    intro w hw after hafter
    have hlength := (List.sublist_flatten_of_mem hw).length_le
    obtain ⟨b, hb⟩ := hsettled w hw
    exact answers_read.bind (hb.takes (by omega) (by omega) fun _ => hafter).1
  have hbegins : ∀ w ∈ L, ∀ after, Begins (w ++ after) := fun w hw after =>
    (hsettled w hw).elim fun b hb => hb.begins after
  have hstart : Answers cx startsDeclaration (L.flatten ++ .punctuator .rightBrace ::
      rest) false := by
    cases L with
    | nil => exact answers_startsDeclaration_sign
    | cons w L =>
      obtain ⟨k, v, -, -, -, hanswers⟩ := hbegins w (by simp) (L.flatten ++
        .punctuator .rightBrace :: rest)
      rw [List.flatten_cons, List.append_assoc]
      exact hanswers cx
  refine takes_name.bind fun _ => ?_
  refine (takes_parenthesised (n := params.length) (F := fun _ => True)
    (fun w hw hlength _ _ => takes_parameter hw (by omega)) (fun w hw => ?_) (fun _ => trivial)
    (fun _ => trivial) hparams (Nat.le_refl _) (by omega)).bind fun _ => ?_
  · rw [Grammar.parameter, mul_assoc] at hw
    obtain ⟨u, hu, v, -, rfl⟩ := hw
    obtain ⟨k, u, rfl, hk, -⟩ := type_cases hu
    exact ⟨k, u ++ v, rfl, by rintro rfl; cases hk⟩
  refine (takes_declarations houter (by omega) answers_startsDeclaration_sign).bind fun _ => ?_
  refine takes_expect.bind fun _ => ?_
  refine (takes_declarations hinner (by omega) hstart).bind fun _ => ?_
  exact (takes_statements hstatement hbegins (by omega)).bind fun _ =>
    takes_expect.finish fun _ => .pure _

theorem takes_recordRest {text : String} (hw : w ∈ Grammar.declaration∗)
    (hlimit : w.length < cx.limit)
    (start : Span) : Takes cx (recordRest start) (.identifier text :: .punctuator .leftBrace ::
      (w ++ .punctuator .rightBrace :: rest)) rest := by
  obtain ⟨L, rfl, hL⟩ := hw
  refine takes_name.bind fun _ => takes_expect.bind fun _ => ?_
  refine (takes_untilBrace (F := fun _ => True) (fun w hw _ _ => ?_) (fun w hw => ?_)
    (fun _ _ _ => trivial) trivial hlimit).bind fun _ => takes_expect.finish fun _ => .pure _
  · have hlength := (List.sublist_flatten_of_mem hw).length_le
    exact takes_declaration (hL w hw) (by omega)
  · have hd := hL w hw
    rw [Grammar.declaration, mul_assoc] at hd
    obtain ⟨u, hu, v, -, rfl⟩ := hd
    obtain ⟨k, u, rfl, hk, -⟩ := type_cases hu
    exact ⟨k, u ++ v, rfl, by rintro rfl; cases hk⟩

/-- A member that begins with a type. -/
theorem takes_typed {u v : List TokenKind} (hu : u ∈ Grammar.type) (hlimit : u.length < cx.limit)
    (hbracket : v.head? ≠ some (.punctuator .leftBracket))
    (hfunction : v[1]? = some (.punctuator .leftParen) →
      ∀ ty start, Takes cx (functionRest ty start) v rest)
    (hglobal : v[1]? ≠ some (.punctuator .leftParen) →
      ∀ ty start, Takes cx (declarationRest ty start) v rest) : Takes cx member (u ++ v) rest := by
  have htype := takes_type hu hlimit hbracket
  obtain ⟨k, u, rfl, hk, -⟩ := type_cases hu
  refine takes_current_bind fun span => ?_
  have htyped : Takes cx (do
      let ty ← type
      if (← ahead 1) == some (.punctuator .leftParen) then
        return some (Member.function (← functionRest ty span))
      else
        return some (Member.global (← declarationRest ty span))) (k :: u ++ v) rest := by
    refine htype.bind fun ty => (answers_ahead 1).bind ?_
    by_cases hparen : v[1]? = some (TokenKind.punctuator .leftParen)
    · rw [if_pos (beq_iff_eq.2 hparen)]
      exact (hfunction hparen ty span).finish fun _ => .pure _
    · rw [if_neg (by simpa using hparen)]
      exact (hglobal hparen ty span).finish fun _ => .pure _
  cases k with
  | identifier text => exact htyped
  | keyword word =>
    cases word with
    | int | bool | text => exact htyped
    | _ => cases hk
  | _ => cases hk

theorem takes_member (hw : w ∈ Grammar.member) (hlimit : w.length < cx.limit) :
    Takes cx member (w ++ rest) rest := by
  rw [Grammar.member, Grammar.declaration, Grammar.record, function_eq, add_mul] at hw
  simp only [mul_assoc] at hw
  rcases hw with ((hdeclaration | hrecord) | (hvoid | hfunction)) | rfl
  · obtain ⟨u, hu, _, ⟨_, ⟨text, rfl⟩, _, rfl, rfl⟩, rfl⟩ := hdeclaration
    simp only [List.cons_append, List.nil_append, List.append_assoc, List.length_append] at hlimit ⊢
    exact takes_typed hu (by omega) (by simp) (by simp) fun _ ty start =>
      takes_declarationRest ty start
  · obtain ⟨_, rfl, _, ⟨_, ⟨text, rfl⟩, _, ⟨_, rfl, _, ⟨v, hv, _, rfl, rfl⟩, rfl⟩, rfl⟩, rfl⟩ :=
      hrecord
    simp only [List.cons_append, List.nil_append, List.append_assoc, List.length_cons,
      List.length_append] at hlimit ⊢
    exact takes_current_bind fun _ => takes_advance.bind fun _ =>
      (takes_recordRest hv (by omega) _).finish fun _ => .pure _
  · obtain ⟨_, rfl, v, hv, rfl⟩ := hvoid
    simp only [List.cons_append, List.nil_append, List.length_cons] at hlimit ⊢
    exact takes_current_bind fun _ => takes_advance.bind fun _ =>
      (takes_functionRest hv (by omega) _ _).finish fun _ => .pure _
  · obtain ⟨u, hu, v, hv, rfl⟩ := hfunction
    simp only [List.append_assoc, List.length_append] at hlimit ⊢
    have htakes : ∀ ty start, Takes cx (functionRest ty start) (v ++ rest) rest :=
      takes_functionRest hv (by omega)
    rw [functionTail, mul_assoc, mul_assoc] at hv
    obtain ⟨_, ⟨text, rfl⟩, _, ⟨_, rfl, v, -, rfl⟩, rfl⟩ := hv
    exact takes_typed hu (by omega) (by simp) (fun _ => htakes) (by simp)
  · exact takes_current_bind fun _ => takes_advance.finish fun _ => .pure _

theorem member_ne_nil (hw : w ∈ Grammar.member) : w ≠ [] := by
  rw [Grammar.member, Grammar.record, function_eq, add_mul] at hw
  simp only [mul_assoc] at hw
  rcases hw with ((hdeclaration | ⟨_, rfl, v, -, rfl⟩) | (⟨_, rfl, v, -, rfl⟩ | ⟨u, hu, v, -,
    rfl⟩)) | rfl
  · exact declaration_ne_nil hdeclaration
  · simp
  · simp
  · obtain ⟨k, u, rfl, -⟩ := type_cases hu
    simp
  · simp

/-- There are more members while there are tokens. -/
theorem answers_more : Answers cx (return !(← get).isEmpty) ks (!ks.isEmpty) := by
  intro ts hts
  have hempty : ks.isEmpty = ts.isEmpty := by
    rw [← hts, kinds, List.isEmpty_map]
  rw [hempty]
  rfl

/-- The reader for programs succeeds on every program. -/
theorem takes_members (hw : w ∈ Grammar.program) (hlimit : w.length < cx.limit) :
    Takes cx members w [] := by
  obtain ⟨L, rfl, hL⟩ := hw
  have hcount := length_le_flatten fun v hv => member_ne_nil (hL v hv)
  have htakes : Takes cx (manyWhile (return !(← get).isEmpty) member cx.limit) (L.flatten ++
      []) [] := by
    refine takes_manyWhile (F := fun _ => True) (fun v hv after => ?_) answers_more
      (fun v hv _ _ => ?_) (fun _ _ _ => trivial) trivial (by omega)
    · have hanswers : Answers cx _ (v ++ after) _ := answers_more
      rwa [List.isEmpty_eq_false_iff.2 (by simp [member_ne_nil (hL v hv)])] at hanswers
    · have hlength := (List.sublist_flatten_of_mem hv).length_le
      exact takes_member (hL v hv) (by omega)
  rw [List.append_nil] at htakes
  exact answers_read.bind (htakes.finish fun _ => .pure _)

end Parser

end MiniJ
