import MiniJ.Proofs.Tree.Inversion
import MiniJ.Proofs.Tree.ProgramAcceptance
import MiniJ.Token.Lexer

/-!
# Printed programs parse

Reading the tokens of a printed program gives the program back: the same members in the same order,
with the same names, types, statements, operators and grouping. Only spans may differ.

## Main statements

* `Parser.gives_statementAt` — the reader for statements gives back a printed statement.
* `Program.parse_print` — the parser gives back a printed program.
-/
namespace MiniJ

namespace Parser

open scoped Computability

variable {α β : Type} {cx : Context} {rest rest' : List TokenKind} {n : Nat}

/-! ### Types and declarations -/

theorem print_mem_type {ty : Ty} (h : ty.Declarable) : ty.print ∈ Grammar.type := by
  induction ty with
  | void => exact absurd rfl h
  | bool => exact ⟨_, .inl (.inl (.inr rfl)), [], Language.nil_mem_kstar _, rfl⟩
  | int => exact ⟨_, .inl (.inl (.inl rfl)), [], Language.nil_mem_kstar _, rfl⟩
  | text => exact ⟨_, .inl (.inr rfl), [], Language.nil_mem_kstar _, rfl⟩
  | record name => exact ⟨_, .inr ⟨name, rfl⟩, [], Language.nil_mem_kstar _, rfl⟩
  | array element ih =>
    obtain ⟨first, hfirst, _, ⟨L, rfl, hL⟩, heq⟩ := ih h
    refine ⟨first, hfirst, _,
      ⟨L ++ [[TokenKind.punctuator .leftBracket, .punctuator .rightBracket]], rfl,
      fun v hv => ?_⟩, ?_⟩
    · rcases List.mem_append.1 hv with hv | hv
      · exact hL v hv
      · rw [List.mem_singleton.1 hv]
        exact ⟨_, rfl, _, rfl, rfl⟩
    · rw [Ty.print, ← heq]
      simp

/-- After a type the loop has built the same type. -/
theorem gives_brackets {ty : Ty} (h : ty.Declarable) {T : Ty → Prop} {m : Nat}
    (hm : m + ty.print.length ≤ cx.limit)
    (hnext : ∀ k, m ≤ k → Gives cx (brackets k ty) rest T rest') :
    Gives cx type (ty.print ++ rest) T rest' := by
  induction ty generalizing rest m with
  | void => exact absurd rfl h
  | bool | int | text | record =>
    exact gives_current_bind fun _ => takes_advance.next fun _ =>
      answers_read.next (hnext _ (by omega))
  | array element ih =>
    simp only [Ty.print, List.length_append, List.length_cons, List.append_assoc] at hm ⊢
    refine ih h (m := m + 1) (by omega) fun k hk => ?_
    obtain ⟨k, rfl⟩ := Nat.exists_eq_add_one.2 (Nat.zero_lt_of_lt hk)
    exact gives_accept_bind (takes_expect.next fun _ => hnext k (by omega))

theorem gives_type {ty : Ty} (h : ty.Declarable) (hlimit : ty.print.length < cx.limit)
    (hrest : rest.head? ≠ some (.punctuator .leftBracket)) :
    Gives cx type (ty.print ++ rest) (· = ty) rest := by
  refine gives_brackets h (m := 1) (by omega) fun k hk => ?_
  obtain ⟨k, rfl⟩ := Nat.exists_eq_add_one.2 hk
  exact gives_skip_bind hrest (.pure rfl)

section

variable {d : Declaration}

theorem gives_declarationRest (hd : d.isReference = false) (start : Span) :
    Gives cx (declarationRest d.ty start) (.identifier d.name :: .punctuator .semicolon :: rest)
      (·.bare = d.bare) rest := by
  refine gives_name.bind fun head hhead => takes_expect.next fun _ => .pure ?_
  simp only [Declaration.bare, hhead, hd]

theorem gives_declaration (hd : d.Shaped ∧ d.isReference = false)
    (hlimit : d.print.length < cx.limit) :
    Gives cx declaration (d.print ++ rest) (·.bare = d.bare) rest := by
  simp only [Declaration.print, List.length_append, List.length_cons, List.append_assoc,
    List.cons_append, List.nil_append] at hlimit ⊢
  have htype : Gives cx type (d.ty.print ++ .identifier d.name :: .punctuator .semicolon :: rest)
      (· = d.ty) (.identifier d.name :: .punctuator .semicolon :: rest) :=
    gives_type hd.1 (by omega) (by simp)
  obtain ⟨k, v, heq, -⟩ := type_cases (print_mem_type hd.1)
  rw [heq] at htype ⊢
  refine gives_current_bind fun _ => htype.bind fun ty hty => ?_
  rw [hty]
  exact gives_declarationRest hd.2 _

theorem gives_parameter (hd : d.Shaped) (hlimit : d.printParameter.length < cx.limit) :
    Gives cx parameter (d.printParameter ++ rest) (·.bare = d.bare) rest := by
  simp only [Declaration.printParameter, List.length_append, List.append_assoc] at hlimit ⊢
  generalize hafter : (if d.isReference then [TokenKind.punctuator .ampersand] else []) ++
    ([TokenKind.identifier d.name] ++ rest) = after
  have hbracket : after.head? ≠ some (.punctuator .leftBracket) := by
    rw [← hafter]
    split <;> simp
  have htype : Gives cx type (d.ty.print ++ after) (· = d.ty) after :=
    gives_type hd (by omega) hbracket
  obtain ⟨k, v, heq, -⟩ := type_cases (print_mem_type hd)
  rw [heq] at htype ⊢
  refine gives_current_bind fun _ => htype.bind fun ty hty => ?_
  rw [← hafter]
  cases href : d.isReference with
  | true =>
    refine gives_accept_bind (gives_name.bind fun head hhead => .pure ?_)
    simp only [Declaration.bare, hty, hhead, href]
  | false =>
    refine gives_skip_bind (by simp) (gives_name.bind fun head hhead => .pure ?_)
    simp only [Declaration.bare, hty, hhead, href]

theorem print_mem_declaration (hd : d.Shaped) : d.print ∈ Grammar.declaration := by
  rw [Grammar.declaration, mul_assoc]
  exact Language.append_mem_mul (print_mem_type hd) ⟨_, ⟨d.name, rfl⟩, _, rfl, rfl⟩

end

/-- A word is no longer than all words together. -/
theorem length_le_flatten_map (print : β → List TokenKind) {b : β} {l : List β} (hb : b ∈ l) :
    (print b).length ≤ (l.map print).flatten.length :=
  (List.sublist_flatten_of_mem (List.mem_map_of_mem hb)).length_le

theorem gives_declarations {l : List Declaration} (hl : ∀ d ∈ l, d.Shaped ∧ d.isReference = false)
    (hlimit : (l.map Declaration.print).flatten.length < cx.limit)
    (hrest : Answers cx startsDeclaration rest false) :
    Gives cx declarations ((l.map Declaration.print).flatten ++ rest)
      (·.map Declaration.bare = l.map Declaration.bare) rest := by
  have hcount : l.length ≤ (l.map Declaration.print).flatten.length := by
    rw [← List.length_map (f := Declaration.print)]
    refine length_le_flatten fun w hw => ?_
    obtain ⟨d, hd, rfl⟩ := List.mem_map.1 hw
    exact declaration_ne_nil (print_mem_declaration (hl d hd).1)
  refine answers_read.next ((gives_manyWhile (R := fun v d => v.bare = d.bare) (F := fun _ => True)
    (fun d hd _ => answers_startsDeclaration (print_mem_declaration (hl d hd).1)) hrest
    (fun d hd _ _ => ?_) (fun _ _ _ => trivial) trivial (by omega)).mono fun v => map_eq_map)
  have hle := length_le_flatten_map Declaration.print hd
  exact gives_declaration (hl d hd) (by omega)

/-- Items up to a brace. -/
theorem gives_untilBrace {item : ParseM α} {f : α → α} {print : α → List TokenKind} {l : List α}
    {F : List TokenKind → Prop}
    (hitem : ∀ b ∈ l, ∀ after, F after → Gives cx item (print b ++ after) (f · = f b) after)
    (hstart : ∀ b ∈ l, ∃ k v, print b = k :: v ∧ k ≠ .punctuator .rightBrace)
    (hfollow : ∀ b ∈ l, ∀ after, F (print b ++ after))
    (hbrace : F (.punctuator .rightBrace :: rest))
    (hlimit : (l.map print).flatten.length < cx.limit) :
    Gives cx (untilBrace item) ((l.map print).flatten ++ .punctuator .rightBrace :: rest)
      (·.map f = l.map f) (.punctuator .rightBrace :: rest) := by
  have hcount : l.length ≤ (l.map print).flatten.length := by
    rw [← List.length_map (f := print)]
    refine length_le_flatten fun w hw => ?_
    obtain ⟨b, hb, rfl⟩ := List.mem_map.1 hw
    obtain ⟨k, v, heq, -⟩ := hstart b hb
    simp [heq]
  refine answers_read.next ((gives_manyWhile (R := fun v b => f v = f b) (fun b hb after => ?_) ?_
    hitem hfollow hbrace (by omega)).mono fun v => map_eq_map)
  · obtain ⟨k, v, heq, hk⟩ := hstart b hb
    refine (answers_next _).trans ?_
    rw [heq, decide_eq_false (by simpa using hk)]
    exact .pure _
  · exact (answers_next _).trans (.pure _)

/-! ### Statements -/

theorem inverts_expression (hn : n < cx.limit) :
    Inverts cx (fun bound => do expressionAt (← read).limit bound) n :=
  fun e hs c _ bound hc hlength rest hrest =>
    answers_read.next (inverts_expressionAt hn.le hn e hs c bound hc hlength rest hrest)

section

variable {e : Expr}

theorem gives_expression (hs : e.Shaped) (hlimit : e.print.length < cx.limit)
    (hrest : Closed 0 rest) :
    Gives cx expression (e.print ++ rest) (·.bare = e.bare) rest :=
  (inverts_expression hlimit).print hs (Nat.le_refl _) hrest

theorem gives_condition (hs : e.Shaped) (hlimit : e.printCondition.length < cx.limit) :
    Gives cx condition (e.printCondition ++ rest) (·.bare = e.bare) rest := by
  simp only [Expr.printCondition, List.length_cons, List.length_append, List.cons_append,
    List.append_assoc, List.nil_append] at hlimit ⊢
  refine takes_expect.next fun _ => ?_
  exact (gives_expression hs (by omega) (closed_sign (by simp) 0 _)).bind fun v hv =>
    takes_expect.next fun _ => .pure hv

theorem gives_returned {value : Option Expr} (hs : ∀ e ∈ value, e.Shaped)
    (hlimit : ((value.map Expr.print).getD []).length < cx.limit) :
    Gives cx returned ((value.map Expr.print).getD [] ++ .punctuator .semicolon :: rest)
      (·.map Expr.bare = value.map Expr.bare) (.punctuator .semicolon :: rest) := by
  refine (answers_next _).next ?_
  cases value with
  | none => exact .pure rfl
  | some e =>
    obtain ⟨k, v, heq, hk⟩ := opens_print (hs e rfl)
    have hne : (e.print ++ .punctuator .semicolon :: rest).head? ≠
        some (.punctuator .semicolon) := by
      simpa [heq] using hk _ (by simp)
    rw [Option.map_some, Option.getD_some, decide_eq_false hne]
    exact (gives_expression (hs e rfl) hlimit (closed_sign (by simp) 0 _)).bind fun v hv =>
      .pure (by rw [Option.map_some, Option.map_some, hv])

end

theorem gives_assignment {target value : Expr} (hplace : target.IsPlace) (htarget : target.Shaped)
    (hvalue : value.Shaped) {span : Span}
    (hlimit : (Statement.assign span target value).print.length < cx.limit) :
    Gives cx assignment ((Statement.assign span target value).print ++ rest)
      (·.bare = (Statement.assign span target value).bare) rest := by
  simp only [Statement.print, List.length_cons, List.length_append, List.cons_append,
    List.append_assoc, List.nil_append] at hlimit ⊢
  have htarget' : Gives cx (place expression)
      (target.print ++ TokenKind.punctuator .assign :: _) _ _ :=
    gives_place (inverts_expression (n := target.print.length) (by omega)) hplace htarget (by omega)
      (by omega) (closed_sign (by simp) 0 (value.print ++ .punctuator .semicolon :: rest)).whole
  refine htarget'.bind fun t ht => takes_expect.next fun _ => ?_
  refine (gives_expression hvalue (by omega) (closed_sign (by simp) 0 _)).bind fun v hv =>
    takes_expect.next fun _ => .pure ?_
  simp only [Statement.bare, ht, hv]

theorem gives_assign {target value : Expr} (hplace : target.IsPlace) (htarget : target.Shaped)
    (hvalue : value.Shaped) {span : Span}
    (hlimit : (Statement.assign span target value).print.length < cx.limit) (depth : Nat) :
    Gives cx (statementAt (depth + 1)) ((Statement.assign span target value).print ++ rest)
      (·.bare = (Statement.assign span target value).bare) rest := by
  have hgives : Gives cx assignment ((Statement.assign span target value).print ++ rest) _ rest :=
    gives_assignment hplace htarget hvalue hlimit
  obtain ⟨text, v, heq, hv⟩ := place_print hplace htarget
  have hsecond :
      (v ++ .punctuator .assign :: (value.print ++ .punctuator .semicolon :: rest)).head? ≠
        some (.punctuator .leftParen) := by
    rcases hv with rfl | ⟨u, rfl⟩ | ⟨k, u, rfl, -⟩ <;> simp
  simp only [Statement.print, heq, List.cons_append, List.append_assoc, List.nil_append]
    at hgives ⊢
  refine gives_current_bind fun _ => (answers_ahead 1).next ?_
  rw [if_neg (by simpa [List.head?_eq_getElem?] using hsecond)]
  exact hgives

theorem gives_callStatement {span inner : Span} {callee : String} {args : List Expr}
    (hs : ∀ e ∈ args, e.Shaped)
    (hlimit : (Statement.call span (.call inner callee args)).print.length < cx.limit)
    (depth : Nat) :
    Gives cx (statementAt (depth + 1)) ((Statement.call span (.call inner callee args)).print ++
      rest) (·.bare = (Statement.call span (.call inner callee args)).bare) rest := by
  simp only [Statement.print, List.length_append, List.append_assoc, List.cons_append,
    List.nil_append, List.length_cons] at hlimit ⊢
  have hgives : Gives cx (call expression) ((Expr.call inner callee args).print ++
      .punctuator .semicolon :: rest) (·.bare = (Expr.call inner callee args).bare) _ :=
    gives_call (inverts_expression (n := (Expr.call inner callee args).print.length) (by omega)) hs
      (by omega) (by omega)
  refine gives_current_bind fun _ => (answers_ahead 1).next ?_
  refine hgives.bind fun v hv => takes_expect.next fun _ => .pure ?_
  rw [Statement.bare, hv, Statement.bare]

theorem gives_ret {span : Span} {value : Option Expr} (hs : ∀ e ∈ value, e.Shaped)
    (hlimit : (Statement.ret span value).print.length < cx.limit) (depth : Nat) :
    Gives cx (statementAt (depth + 1)) ((Statement.ret span value).print ++ rest)
      (·.bare = (Statement.ret span value).bare) rest := by
  simp only [Statement.print, List.length_append, List.append_assoc, List.cons_append,
    List.nil_append, List.length_cons] at hlimit ⊢
  refine gives_current_bind fun _ => takes_advance.next fun _ => ?_
  refine (gives_returned hs (by omega)).bind fun v hv => takes_expect.next fun _ => .pure ?_
  rw [Statement.bare, hv, Statement.bare]

theorem begins_print {s : Statement} (hs : s.Shaped) (after : List TokenKind) :
    Begins (s.print ++ after) := by
  cases hs with
  | block | branch | loop | ret | empty => exact begins_of_kind (by simp) (by simp) rfl _
  | call => exact begins_of_identifier (by simp) (by simp)
  | assign _ hplace htarget =>
    obtain ⟨text, v, heq, hv⟩ := place_print hplace htarget
    rw [Statement.print, heq]
    rcases hv with rfl | ⟨u, rfl⟩ | ⟨k, u, rfl, hk⟩
    · exact begins_of_identifier (by simp) (by simp)
    · exact begins_of_identifier (by simp) (by simp)
    · exact begins_of_identifier (by simp) fun _ => by simpa using hk _ (by simp)

/-- Statements up to a brace. -/
theorem gives_statements {statement : ParseM Statement} {body : List Statement}
    (hs : ∀ s ∈ body, s.Shaped)
    (hitem : ∀ s ∈ body, ∀ after : List TokenKind, after.head? ≠ some (.keyword .else) →
      Gives cx statement (s.print ++ after) (·.bare = s.bare) after)
    (hlimit : (body.map Statement.print).flatten.length < cx.limit) :
    Gives cx (untilBrace statement)
      ((body.map Statement.print).flatten ++ .punctuator .rightBrace :: rest)
      (·.map Statement.bare = body.map Statement.bare) (.punctuator .rightBrace :: rest) := by
  refine gives_untilBrace hitem (fun s hmem => ?_) (fun s hmem after => ?_) (by simp) hlimit
  · obtain ⟨k, v, heq, hk, -⟩ := begins_print (hs s hmem) []
    exact ⟨k, v, by simpa using heq, hk⟩
  · obtain ⟨k, v, heq, -, hk, -⟩ := begins_print (hs s hmem) after
    simpa [heq] using hk

theorem gives_block {statement : ParseM Statement} {span : Span} {body : List Statement}
    (hs : ∀ s ∈ body, s.Shaped)
    (hitem : ∀ s ∈ body, ∀ after : List TokenKind, after.head? ≠ some (.keyword .else) →
      Gives cx statement (s.print ++ after) (·.bare = s.bare) after)
    (hlimit : (Statement.block span body).print.length < cx.limit) :
    Gives cx (block statement) ((Statement.block span body).print ++ rest)
      (·.bare = (Statement.block span body).bare) rest := by
  simp only [Statement.print, Statement.printAll_eq_map, List.length_cons, List.length_append,
    List.cons_append, List.append_assoc, List.nil_append] at hlimit ⊢
  refine takes_expect.next fun _ => (gives_statements hs hitem (by omega)).bind fun v hv =>
    takes_expect.next fun _ => .pure ?_
  simp only [Statement.bare, Statement.bareAll_eq_map, hv]

theorem gives_alternative {statement : ParseM Statement} {onFalse : Option Statement}
    (hnone : onFalse = none → rest.head? ≠ some (.keyword .else))
    (hsome : ∀ s ∈ onFalse, Gives cx (body statement) (s.print ++ rest) (·.bare = s.bare) rest) :
    Gives cx (alternative statement) (Statement.printElse onFalse ++ rest)
      (Statement.bare? · = Statement.bare? onFalse) rest := by
  refine (answers_ahead 0).next ?_
  cases onFalse with
  | none =>
    rw [if_neg (by simpa [Statement.printElse, List.head?_eq_getElem?] using hnone)]
    exact .pure rfl
  | some s =>
    refine takes_advance.next fun _ => (hsome s rfl).bind fun v hv => .pure ?_
    rw [Statement.bare?, Statement.bare?, hv]

/-- The reader for statements gives back a printed statement; an `else` may follow a block. -/
theorem gives_statementAt {s : Statement} (hs : s.Shaped) (hb : s.Braced) {depth : Nat}
    (hdepth : s.print.length ≤ depth) (hlimit : s.print.length < cx.limit)
    (hrest : s.IsBlock ∨ rest.head? ≠ some (.keyword .else)) :
    Gives cx (statementAt depth) (s.print ++ rest) (·.bare = s.bare) rest ∧
      (s.IsBlock → Gives cx (body (statementAt depth)) (s.print ++ rest)
        (·.bare = s.bare) rest) := by
  induction hs generalizing depth rest with
  | @block span body hbody ih =>
    cases hb with
    | block _ hbraced =>
      obtain ⟨depth, rfl⟩ := Nat.exists_eq_add_one.2 (Nat.zero_lt_of_lt hdepth)
      have hblock : ∀ d, depth ≤ d → Gives cx (block (statementAt d))
          ((Statement.block span body).print ++ rest) (·.bare = (Statement.block span body).bare)
          rest := by
        intro d hd
        refine gives_block hbody (fun s hmem after hafter => ?_) hlimit
        have hle := length_le_flatten_map Statement.print hmem
        simp only [Statement.print, Statement.printAll_eq_map, List.length_cons, List.length_append]
          at hdepth hlimit
        exact (ih s hmem (hbraced s hmem) (by omega) (by omega) (.inr hafter)).1
      exact ⟨gives_current_bind fun _ => hblock depth (Nat.le_refl _),
        fun _ => (answers_next _).next (hblock (depth + 1) (Nat.le_succ _))⟩
  | assign _ hplace htarget hvalue =>
    have hpos : 0 < depth := by
      simp only [Statement.print, List.length_append, List.length_cons] at hdepth
      omega
    obtain ⟨depth, rfl⟩ := Nat.exists_eq_add_one.2 hpos
    exact ⟨gives_assign hplace htarget hvalue hlimit depth, False.elim⟩
  | call _ _ _ hcall =>
    obtain ⟨depth, rfl⟩ := Nat.exists_eq_add_one.2 (Nat.zero_lt_of_lt hdepth)
    cases hcall with
    | call _ _ hargs => exact ⟨gives_callStatement hargs hlimit depth, False.elim⟩
  | branch _ hcondition _ _ ihTrue ihFalse =>
    obtain ⟨depth, rfl⟩ := Nat.exists_eq_add_one.2 (Nat.zero_lt_of_lt hdepth)
    refine ⟨?_, False.elim⟩
    cases hb with
    | branch _ _ hblock hbraced hotherBlock hotherBraced =>
      simp only [Statement.print, List.length_append, List.append_assoc, List.cons_append,
        List.length_cons] at hdepth hlimit ⊢
      refine gives_current_bind fun _ => takes_advance.next fun _ => ?_
      refine (gives_condition hcondition (by omega)).bind fun c hc => ?_
      refine ((ihTrue hbraced (by omega) (by omega) (.inl hblock)).2 hblock).bind fun t ht => ?_
      refine (gives_alternative (fun _ => hrest.resolve_left fun h => h) fun s hs => ?_).bind
        fun o ho => .pure (by rw [Statement.bare, hc, ht, ho, Statement.bare])
      obtain rfl := hs
      rw [Statement.printElse, List.length_cons] at hdepth hlimit
      have hother := hotherBlock s rfl
      exact (ihFalse s rfl (hotherBraced s rfl) (by omega) (by omega) (.inl hother)).2 hother
  | loop _ hcondition _ ih =>
    obtain ⟨depth, rfl⟩ := Nat.exists_eq_add_one.2 (Nat.zero_lt_of_lt hdepth)
    refine ⟨?_, False.elim⟩
    cases hb with
    | loop _ _ hblock hbraced =>
      simp only [Statement.print, List.length_append, List.append_assoc, List.cons_append,
        List.length_cons] at hdepth hlimit ⊢
      refine gives_current_bind fun _ => takes_advance.next fun _ => ?_
      refine (gives_condition hcondition (by omega)).bind fun c hc => ?_
      refine ((ih hbraced (by omega) (by omega) (.inl hblock)).2 hblock).bind fun t ht => .pure ?_
      rw [Statement.bare, hc, ht, Statement.bare]
  | ret _ hvalue =>
    obtain ⟨depth, rfl⟩ := Nat.exists_eq_add_one.2 (Nat.zero_lt_of_lt hdepth)
    exact ⟨gives_ret hvalue hlimit depth, False.elim⟩
  | empty =>
    obtain ⟨depth, rfl⟩ := Nat.exists_eq_add_one.2 (Nat.zero_lt_of_lt hdepth)
    exact ⟨gives_current_bind fun _ => takes_advance.next fun _ => .pure rfl, False.elim⟩

/-! ### Programs -/

theorem gives_recordRest {r : RecordDef} (hs : ∀ d ∈ r.fields, d.Shaped ∧ d.isReference = false)
    (hlimit : (r.fields.map Declaration.print).flatten.length < cx.limit) (start : Span) :
    Gives cx (recordRest start) (.identifier r.name :: .punctuator .leftBrace ::
      ((r.fields.map Declaration.print).flatten ++ .punctuator .rightBrace :: rest))
      (·.bare = r.bare) rest := by
  refine gives_name.bind fun head hhead => takes_expect.next fun _ => ?_
  refine (gives_untilBrace (f := Declaration.bare) (F := fun _ => True) (fun d hd _ _ => ?_)
    (fun d hd => ?_) (fun _ _ _ => trivial) trivial hlimit).bind fun v hv =>
      takes_expect.next fun _ => .pure ?_
  · have hle := length_le_flatten_map Declaration.print hd
    exact gives_declaration (hs d hd) (by omega)
  · obtain ⟨k, v, heq, hk, -⟩ := type_cases (print_mem_type (hs d hd).1)
    exact ⟨k, _, by rw [Declaration.print, heq, List.cons_append], by rintro rfl; cases hk⟩
  · simp only [RecordDef.bare, hhead, hv]

theorem gives_functionRest {f : FunctionDef} (hs : f.Shaped) (hb : ∀ s ∈ f.body, s.Braced)
    (hlimit : f.printRest.length < cx.limit) (start : Span) :
    Gives cx (functionRest f.returnType start) (f.printRest ++ rest) (·.bare = f.bare) rest := by
  simp only [FunctionDef.printRest, List.length_cons, List.length_append, List.cons_append,
    List.append_assoc, List.nil_append] at hlimit ⊢
  have hcount := length_words_le (f.params.map Declaration.printParameter)
  rw [List.length_map] at hcount
  have hstart : Answers cx startsDeclaration
      ((f.body.map Statement.print).flatten ++ .punctuator .rightBrace :: rest) false := by
    cases hbody : f.body with
    | nil => exact answers_startsDeclaration_sign
    | cons s body =>
      rw [List.map_cons, List.flatten_cons, List.append_assoc]
      obtain ⟨k, v, -, -, -, hanswers⟩ := begins_print (hs.body s (by simp [hbody]))
        ((body.map Statement.print).flatten ++ .punctuator .rightBrace :: rest)
      exact hanswers cx
  refine gives_name.bind fun head hhead => ?_
  refine (gives_parenthesised (R := fun v d => v.bare = d.bare) (F := fun _ => True)
    (fun d hd _ _ => ?_) (fun d hd => ?_) (fun _ => trivial) (fun _ => trivial) (by omega)).bind
    fun params hparams => ?_
  · have hle := length_le_listed (List.mem_map_of_mem (f := Declaration.printParameter) hd)
    exact gives_parameter (hs.params d hd) (by omega)
  · obtain ⟨k, v, heq, hk, -⟩ := type_cases (print_mem_type (hs.params d hd))
    exact ⟨k, _, by rw [Declaration.printParameter, heq, List.append_assoc, List.cons_append],
      by rintro rfl; cases hk⟩
  refine (gives_declarations (l := []) (by simp) (Nat.zero_lt_of_lt hlimit)
    answers_startsDeclaration_sign).bind fun outer houter => takes_expect.next fun _ => ?_
  refine (gives_declarations hs.locals (by omega) hstart).bind fun inner hinner => ?_
  refine (gives_statements hs.body (fun s hmem after hafter => ?_) (by omega)).bind
    fun body hbody => takes_expect.next fun _ => .pure ?_
  · have hle := length_le_flatten_map Statement.print hmem
    exact answers_read.next
      (gives_statementAt (hs.body s hmem) (hb s hmem) (by omega) (by omega) (.inr hafter)).1
  · simp only [FunctionDef.bare, hhead, map_eq_map hparams, List.map_append, houter, hinner, hbody,
      List.map_nil, List.nil_append]

/-- A member that begins with a type. -/
theorem gives_typed {ty : Ty} {w : List TokenKind} {T : Option Member → Prop} (hty : ty.Declarable)
    (hlimit : ty.print.length < cx.limit) (hbracket : w.head? ≠ some (.punctuator .leftBracket))
    (hnext : ∀ span, Gives cx (do
      if (← ahead 1) == some (.punctuator .leftParen) then
        return some (Member.function (← functionRest ty span))
      else
        return some (Member.global (← declarationRest ty span))) w T rest) :
    Gives cx member (ty.print ++ w) T rest := by
  have htype := gives_type hty hlimit hbracket
  obtain ⟨k, u, heq, hk, -⟩ := type_cases (print_mem_type hty)
  rw [heq] at htype ⊢
  refine gives_current_bind fun span => ?_
  have htyped := htype.bind fun ty' (hty' : ty' = ty) => hty' ▸ hnext span
  cases k with
  | identifier text => exact htyped
  | keyword word =>
    cases word with
    | int | bool | text => exact htyped
    | _ => cases hk
  | _ => cases hk

theorem gives_member {m : Member} (hs : m.Shaped) (hp : m.Plain)
    (hlimit : m.print.length < cx.limit) :
    Gives cx member (m.print ++ rest) (fun o => o.map Member.bare = some m.bare) rest := by
  cases m with
  | global d =>
    simp only [Member.print, Declaration.print, List.length_append, List.append_assoc] at hlimit ⊢
    refine gives_typed hs (by omega) (by simp) fun span => (answers_ahead 1).next ?_
    exact (gives_declarationRest hp span).bind fun v hv => .pure (by simp [Member.bare, hv])
  | record r =>
    simp only [Member.print, RecordDef.print, List.length_cons, List.length_append,
      List.cons_append, List.append_assoc, List.nil_append] at hlimit ⊢
    refine gives_current_bind fun span => takes_advance.next fun _ => ?_
    exact (gives_recordRest (fun d hd => ⟨hs d hd, hp d hd⟩) (by omega) span).bind fun v hv =>
      .pure (by simp [Member.bare, hv])
  | function f =>
    have hprint : (Member.function f).print = f.returnType.print ++ f.printRest := rfl
    rw [hprint, List.length_append] at hlimit
    rw [hprint, List.append_assoc]
    have hrest : ∀ span, Gives cx (functionRest f.returnType span) (f.printRest ++ rest)
        (·.bare = f.bare) rest := gives_functionRest hs hp (by omega)
    rcases FunctionDef.Shaped.returnType hs with hvoid | hty
    · rw [hvoid] at hrest ⊢
      refine gives_current_bind fun span => takes_advance.next fun _ => ?_
      exact (hrest span).bind fun v hv => .pure (by simp [Member.bare, hv])
    · refine gives_typed hty (by omega) (by simp [FunctionDef.printRest]) fun span =>
        (answers_ahead 1).next ?_
      exact (hrest span).bind fun v hv => .pure (by simp [Member.bare, hv])

theorem member_print_ne_nil {m : Member} (hs : m.Shaped) : m.print ≠ [] := by
  cases m with
  | global d => exact declaration_ne_nil (print_mem_declaration hs)
  | record r => simp [Member.print, RecordDef.print]
  | function f => simp [Member.print, FunctionDef.print, FunctionDef.printRest]

/-- Nothing but members was read. -/
theorem map_filterMap {found : List (Option Member)} {l : List Member}
    (h : List.Forall₂ (fun o m => o.map Member.bare = some m.bare) found l) :
    (found.filterMap id).map Member.bare = l.map Member.bare := by
  induction h with
  | nil => rfl
  | @cons o m found l ho _ ih =>
    obtain ⟨v, rfl, hv⟩ := Option.map_eq_some_iff.1 ho
    rw [List.filterMap_cons_some (f := id) rfl, List.map_cons, List.map_cons, hv, ih]

theorem gives_members {p : Program} (hp : p.Printable) (hlimit : p.print.length < cx.limit) :
    Gives cx members p.print (·.map Member.bare = p.members.map Member.bare) [] := by
  have hcount : p.members.length ≤ p.print.length := by
    rw [← List.length_map (f := Member.print)]
    refine length_le_flatten fun w hw => ?_
    obtain ⟨m, hm, rfl⟩ := List.mem_map.1 hw
    exact member_print_ne_nil (hp.shaped m hm)
  have hgives : Gives cx (manyWhile (return !(← get).isEmpty) member cx.limit)
      ((p.members.map Member.print).flatten ++ [])
      (List.Forall₂ (fun o m => o.map Member.bare = some m.bare) · p.members) [] := by
    refine gives_manyWhile (F := fun _ => True) (fun m hm after => ?_) answers_more
      (fun m hm _ _ => ?_) (fun _ _ _ => trivial) trivial (by omega)
    · have hanswers : Answers cx _ (m.print ++ after) _ := answers_more
      rwa [List.isEmpty_eq_false_iff.2 (by simp [member_print_ne_nil (hp.shaped m hm)])] at hanswers
    · have hle := length_le_flatten_map Member.print hm
      exact gives_member (hp.shaped m hm) (hp.plain m hm) (Nat.lt_of_le_of_lt hle hlimit)
  rw [List.append_nil] at hgives
  exact answers_read.next (hgives.bind fun found hfound => .pure (map_filterMap hfound))

end Parser

/-- Tokens that spell a printed program parse to the same program, up to spans. -/
theorem Program.parse_print {p : Program} (hp : p.Printable) {tokens : List Token}
    (htokens : tokens.map (·.kind) = p.print) :
    ∃ q, Program.parse tokens = .ok q ∧ q.bare = p.bare := by
  let cx : Parser.Context := ⟨(tokens.getLast?.map (·.span)).getD Span.empty, tokens.length + 1⟩
  have hlimit : p.print.length < cx.limit := by
    rw [← htokens, List.length_map]
    exact Nat.lt_succ_self _
  obtain ⟨members, rest, hrun, hsame, -⟩ := Parser.gives_members hp hlimit tokens htokens
  refine ⟨⟨Token.extent tokens, members⟩, Outcome.bind_eq_ok.2 ⟨(members, rest), hrun, rfl⟩, ?_⟩
  rw [Program.bare, hsame, Program.bare]

namespace Grouping

/-- Operands that need parentheses and operands that do not. -/
def words : List String :=
  ["int", "[", "]", "xs", ";", "record", "Pair", "\x7b", "int", "x", ";", "\x7d",
    "int", "pick", "(", "int", "&", "a", ",", "Pair", "p", ")", "\x7b", "int", "y", ";",
    "if", "(", "a", "-", "(", "a", "-", "y", ")", "-", "1", "<", "p", ".", "x", "*", "(", "y", "+",
      "xs", "[", "-", "a", "]", ")", ")", "\x7b", "y", "=", "(", "-", "a", ")", "++", ";", "\x7d",
    "else", "\x7b", ";", "\x7d",
    "while", "(", "!", "(", "a", "==", "y", ")", "||", "true", ")",
      "\x7b", "pick", "(", "y", ",", "p", ")", ";", "\x7d",
    "return", "-", "-", "a", "*", "y", "--", ";", "\x7d"]

def bytes : List UInt8 := words.flatMap fun w => w.toList.map (fun c => UInt8.ofNat c.toNat) ++ [32]

def tokens : List Token := (Token.scan 2 bytes).toOption.get (by decide +kernel)

def program : Program := (Program.parse tokens).toOption.get (by decide +kernel)

theorem printable : program.Printable := by
  have hparse : Program.parse tokens = .ok program := Outcome.ok_get_toOption _
  exact Program.printable_of_parse hparse

/-- No parentheses are missing, and none are left over. -/
theorem print_program : tokens.map (·.kind) = program.print := by decide +kernel

end Grouping

theorem Grouping.parses_back : program.Printable ∧ tokens.map (·.kind) = program.print ∧
    ∃ q, Program.parse tokens = .ok q ∧ q.bare = program.bare :=
  ⟨printable, print_program, Program.parse_print printable print_program⟩

end MiniJ
