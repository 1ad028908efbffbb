import OnePass.Proofs.Parsing.Expression

/-!
# Programs that have been read

The tokens of a successful analysis, from statements up to a whole program, are those of a grouped tree (`analyze_reads`). As in
an expression (`Parses.parts`), with a depth of four for each token ahead no part runs out of it, so the depth that a whole
analysis starts with is always enough (`analyze_ne_tooDeep`).
-/

namespace OnePass

namespace Analysis

open AnalysisState

variable {σ α : Type}
variable {s s' : AnalysisState σ} {d : Nat} {returns : ValueType} {t : Token}

/-! ## Parts that take no tokens -/

namespace Still

theorem here : Still (here : Analysis σ Nat) := get_bind fun _ => pure _

theorem emitOpenBranch : Still (emitOpenBranch : Analysis σ Nat) := bind here fun _ => bind (emit _ _) fun _ => pure _

theorem emitBranchTo (target : Nat) : Still (emitBranchTo target : Analysis σ Unit) := bind here fun _ => emit _ _

/-- A branch is patched in the stream of code. -/
theorem patch (handle : Nat) : Still (patch handle : Analysis σ Unit) := by
  refine get_bind fun s => ?_
  split
  · exact modify fun _ => rfl
  · exact breach (by simp)

/-- What reads nothing for one reads nothing for all. -/
theorem forM {β : Type} {f : β → Analysis σ Unit} (hf : ∀ b, Still (f b)) : ∀ l : List β, Still (l.forM f)
  | [] => pure _
  | b :: l => bind (hf b) fun _ => forM hf l

/-- A symbol is declared from a token already taken. -/
theorem declare (name : Token) (kind : SymbolKind) (type : ValueType) (const : Bool) (storage : Storage) :
    Still (declare name kind type const storage : Analysis σ Nat) := by
  refine get_bind fun s => ?_
  split
  · exact bind (modify fun _ => rfl) fun _ => pure _
  · exact fail _ _

theorem updateSymbol (place : Nat) (f : Symbol → Symbol) : Still (updateSymbol place f : Analysis σ Unit) := modify fun _ => rfl

theorem enterScope : Still (enterScope : Analysis σ Unit) := modify fun _ => rfl

/-- A scope is closed by the table alone. -/
theorem exitScope : Still (exitScope : Analysis σ Unit) := by
  refine get_bind fun s => ?_
  split
  · exact modify fun _ => rfl
  · exact breach (by simp)

theorem declarationPlace : Still (declarationPlace : Analysis σ (Section × Storage)) :=
  get_bind fun _ => ite (pure _) (pure _)

/-- Declaring a variable fills the table and the pool. -/
theorem declareVariable (const : Bool) (name : Token) (type : ValueType) :
    Still (declareVariable const name type : Analysis σ (Section × Nat)) :=
  bind declarationPlace fun _ => bind (declare _ _ _ _ _) fun _ =>
    ite (bind (symbolAt _) fun _ => bind (addGlobal _ _) fun _ => pure _) (pure _)

/-- The loop is found among those noted. -/
theorem innermostLoop (pos : Pos) (fault : Fault) : Still (innermostLoop pos fault : Analysis σ Loop) := by
  refine get_bind fun s => ?_
  split
  · exact pure _
  · exact fail _ _

/-- A branch is noted with its loop. -/
theorem noteBreak (handle : Nat) : Still (noteBreak handle : Analysis σ Unit) := by
  refine modify fun s => ?_
  split <;> rfl

theorem dropFrom (handle : Nat) : Still (dropFrom handle : Analysis σ Unit) := modify fun _ => rfl

theorem openBlock (inner : Bool) : Still (openBlock inner : Analysis σ Unit) := ite enterScope (pure _)

/-- Closing a block drops code and names. -/
theorem closeBlock (inner : Bool) (dead : Option Nat) : Still (closeBlock inner dead : Analysis σ Unit) := by
  refine bind ?_ fun _ => ite exitScope (pure _)
  cases dead with
  | none => exact pure _
  | some handle => exact dropFrom handle

theorem openLoop (first : Nat) : Still (openLoop first : Analysis σ Unit) := modify fun _ => rfl

/-- The loop is taken off the list. -/
theorem closeLoop : Still (closeLoop : Analysis σ (List Nat)) := by
  refine modifyGet fun s => ?_
  split <;> rfl

/-- The branches of a loop are patched. -/
theorem endLoop (first exit : Nat) (body : Flow) : Still (endLoop first exit body : Analysis σ Unit) := by
  refine bind closeLoop fun breaks => ite (bind (emitBranchTo first) fun _ => ?_) ?_
  all_goals exact bind (patch exit) fun _ => forM patch breaks

/-- A function begins with its symbol, its global and its marker. -/
theorem openFunction (name : Token) : Still (openFunction name : Analysis σ (Nat × Nat)) :=
  bind (declare _ _ _ _ _) fun _ => bind (modifyGet fun _ => rfl) fun _ => bind (updateSymbol _ _) fun _ =>
    bind (symbolAt _) fun _ => bind (addGlobal _ _) fun _ => bind here fun _ => bind (emit _ _) fun _ =>
      bind (modify fun _ => rfl) fun _ => pure _

theorem noteReturns (place : Nat) (returns : ValueType) : Still (noteReturns place returns : Analysis σ Unit) :=
  bind (updateSymbol _ _) fun _ => ite (modify fun _ => rfl) (pure _)

theorem endBody (name : Token) (returns : ValueType) (flow : Flow) : Still (endBody name returns flow : Analysis σ Unit) :=
  ite (ite (fail _ _) (emit _ _)) (pure _)

/-- A function ends with its header. -/
theorem closeFunction (place marker : Nat) (returns : ValueType) : Still (closeFunction place marker returns : Analysis σ Unit) :=
  bind (symbolAt _) fun _ => bind (modify fun _ => rfl) fun _ => bind exitScope fun _ => modify fun _ => rfl

/-- The entry routine begins before any token. -/
theorem openEntry : Still (openEntry : Analysis σ Unit) :=
  bind (modifyGet fun _ => rfl) fun _ => bind (addGlobal _ _) fun _ => bind (emit _ _) fun _ => modify fun _ => rfl

/-- The main function is looked up. -/
theorem mainFunction (stop : Pos) : Still (mainFunction stop : Analysis σ Symbol) := by
  refine get_bind fun s => ?_
  split
  · exact fail _ _
  · exact bind (symbolAt _) fun _ => ite (fail _ _) (ite (fail _ _) (pure _))

/-- The entry routine ends with its call. -/
theorem closeEntry (stop : Pos) : Still (closeEntry stop : Analysis σ Unit) :=
  bind (mainFunction stop) fun _ => bind (emit _ _) fun _ => bind (emit _ _) fun _ => ite (emit _ _) (pure _)

/-- The streams are cut into functions. -/
theorem assemble : Still (assemble : Analysis σ Program) := by
  refine get_bind fun s => ?_
  split
  · exact pure _
  · exact breach (by simp)

end Still

/-! ## Parts that read -/

variable [TokenSource σ] [Supply σ]

namespace Parses

variable {β : Type} {deep : Prop} {f : α → Analysis σ β} {a : α}
  {Q : α → List Terminal → AnalysisState σ → Prop} {R : β → List Terminal → AnalysisState σ → Prop}

/-- The end of a statement. -/
theorem stop (h : ∀ s', Q a [.mark .semicolon] s') : Parses deep (Analysis.expect .semicolon >>= fun _ => Pure.pure a) s Q :=
  mark_bind fun _ s' _ => pure (h s')

/-! ## Statements without parts -/

/-- An expression reads a grouped tree. -/
theorem expression (out : Section) (hd : deep → 4 * s.ahead.length + 2 ≤ d) :
    Parses deep (expression out d) s fun _ ys _ => ∃ e : Expr, e.Grouped ∧ ys = e.yield := by
  refine (reads_expression out hd).imp ?_
  rintro _ _ _ ⟨e, hg, -, rfl, -⟩
  exact ⟨e, hg, rfl⟩

/-- So does an initial value. -/
theorem initialValue (out : Section) (name : Token) (place : Nat) (type : ValueType) (hd : deep → 4 * s.ahead.length + 2 ≤ d) :
    Parses deep (initialValue out name place type d) s fun _ ys _ => ∃ e : Expr, e.Grouped ∧ ys = e.yield := by
  refine still_bind (.symbolAt place) fun symbol s1 _ h1 => still_bind (.emitAddress out symbol) fun _ s2 _ h2 => ?_
  refine peek_bind fun first s3 _ h3 => bind (expression out (by grind)) ?_
  rintro value _ s4 ⟨e, hg, rfl⟩ -
  exact of_still (.ite (.fail _ _) (.bind (.emit _ _) fun _ => .markAssigned _)) fun _ _ _ => ⟨e, hg, List.append_nil _⟩

/-- The `=` is read where a value follows. -/
theorem takesValue_bind (const : Bool) {f : Bool → Analysis σ β} (ht : ∀ s', s'.ahead.length + 1 = s.ahead.length →
      Parses deep (f true) s' fun b zs => R b (.mark .assign :: zs))
    (hf : const = false → ∀ s', s'.ahead.length = s.ahead.length → Parses deep (f false) s' R) :
    Parses deep (takesValue const >>= f) s R := by
  cases const with
  | true =>
    rw [takesValue, if_pos rfl, bind_assoc]
    exact mark_bind fun _ s' h => ht s' h
  | false => exact accept_bind ht (hf rfl)

/-- A declaration, whose first word is known. -/
theorem declaration (ht : s.front = .ok t) (hk : t.kind = .let ∨ t.kind = .const) (hd : deep → 4 * s.ahead.length ≤ d + 2) :
    Parses deep (declaration d) s fun _ ys _ => ∃ D : Declaration, D.Grouped ∧ ys = D.yield := by
  refine next_bind ht (by rcases hk with hk | hk <;> simp [hk]) fun s1 h1 => name_bind fun name s2 h2 =>
    mark_bind fun _ s3 h3 => ?_
  refine typeName_bind fun typeToken type s4 h4 => ite (fun _ => fail _ _) fun _ =>
    still_bind (.declareVariable _ _ _) fun r s5 _ h5 => ?_
  refine takesValue_bind _ (fun s6 h6 => ?_) fun hconst s6 h6 => stop fun _ => ?_
  · refine bind (initialValue r.1 name r.2 type.type (by grind)) ?_
    rintro _ _ s7 ⟨e, hg, rfl⟩ -
    refine stop fun _ => ?_
    rcases hk with hk | hk
    · exact ⟨.variable name.lexeme type (some e), fun e' h' => by cases h'; exact hg, by rw [Token.terminal, hk]; rfl⟩
    · exact ⟨.constant name.lexeme type e, fun e' h' => by cases h'; exact hg, by rw [Token.terminal, hk]; rfl⟩
  · have hk : t.kind = .let := hk.resolve_right fun hk => by simp [hk] at hconst
    exact ⟨.variable name.lexeme type none, by rintro _ ⟨⟩, by rw [Token.terminal, hk]; rfl⟩

/-- A condition reads an expression. -/
theorem condition (hd : deep → 4 * s.ahead.length + 2 ≤ d) :
    Parses deep (condition d) s fun _ ys _ => ∃ e : Expr, e.Grouped ∧ ys = e.yield := by
  refine peek_bind fun first s1 _ h1 => bind (expression .body fun hdeep => h1 ▸ hd hdeep) ?_
  rintro type _ s2 ⟨e, hg, rfl⟩ -
  exact of_still (.ite (.fail _ _) (.bind (.emit _ _) fun _ => .emitOpenBranch)) fun _ _ _ => ⟨e, hg, List.append_nil _⟩

/-- A `break` reads its word and the semicolon. -/
theorem breakStatement : Parses deep breakStatement s fun _ ys _ => ys = Stmt.break.yield := by
  refine mark_bind fun _ s1 _ => still_bind (.innermostLoop _ _) fun _ s2 _ _ =>
    still_bind .emitOpenBranch fun handle s3 _ _ => ?_
  exact still_bind (.noteBreak handle) fun _ s4 _ _ => stop fun _ => rfl

/-- So does a `continue`. -/
theorem continueStatement : Parses deep continueStatement s fun _ ys _ => ys = Stmt.continue.yield :=
  mark_bind fun _ s1 _ => still_bind (.innermostLoop _ _) fun loop s2 _ _ => still_bind (.emitBranchTo loop.first) fun _ s3 _ _ =>
    stop fun _ => rfl

/-- A `return` reads its value, if it has one. -/
theorem returnStatement (hd : deep → 4 * s.ahead.length + 2 ≤ d) : Parses deep (returnStatement returns d) s fun _ ys _ =>
    ∃ value : Option Expr, (Stmt.return value).Grouped ∧ ys = (Stmt.return value).yield := by
  refine mark_bind fun _ s1 h1 => peek_bind fun first s2 _ h2 => ite (fun _ => ite (fun _ => fail _ _) fun _ => ?_) fun _ => ?_
  · exact still_bind (.emit _ _) fun _ s3 _ _ => stop fun _ => ⟨none, trivial, rfl⟩
  · refine ite (fun _ => fail _ _) fun _ => still_bind (.emit _ _) fun _ s3 _ h3 => ?_
    refine bind (expression .body (by grind)) ?_
    rintro type _ s4 ⟨e, hg, rfl⟩ -
    refine ite (fun _ => fail _ _) fun _ => still_bind (.emit _ _) fun _ s5 _ _ => still_bind (.emit _ _) fun _ s6 _ _ =>
      stop fun _ => ?_
    exact ⟨some e, hg, rfl⟩

/-- A statement can be an expression. -/
theorem expressionStatement (hd : deep → 4 * s.ahead.length + 2 ≤ d) :
    Parses deep (expressionStatement d) s fun _ ys _ => ∃ e : Expr, e.Grouped ∧ ys = (Stmt.effect e).yield := by
  refine bind (expression .body hd) ?_
  rintro type _ s1 ⟨e, hg, rfl⟩ -
  exact ite (fun _ => still_bind (.emit _ _) fun _ s2 _ _ => stop fun _ => ⟨e, hg, rfl⟩) fun _ => stop fun _ => ⟨e, hg, rfl⟩

/-! ## Statements with parts -/

/-- The parts of a statement read the parts of a tree. The statements of a block are read up to the closing brace. -/
structure Statements (σ : Type) [TokenSource σ] [Supply σ] (returns : ValueType) (d : Nat) : Prop where
  statement {deep : Prop} {s : AnalysisState σ} (hd : deep → 4 * s.ahead.length + 3 ≤ d) :
    Parses deep (statement returns d) s fun _ ys _ => ∃ st : Stmt, st.Grouped ∧ ys = st.yield
  block {deep : Prop} {s : AnalysisState σ} (inner : Bool) (hd : deep → 4 * s.ahead.length + 1 ≤ d) :
    Parses deep (block returns inner d) s fun _ ys _ => ∃ b : Block, b.Grouped ∧ ys = .mark .lbrace :: b.yield
  statements {deep : Prop} {s : AnalysisState σ} (flow : Flow) (dead : Option Nat) (hd : deep → 4 * s.ahead.length + 4 ≤ d) :
    Parses deep (statements returns d flow dead) s fun _ ys s' =>
      ∃ b : Block, b.Grouped ∧ b.yield = ys ++ [.mark .rbrace] ∧ ∃ t, s'.front = .ok t ∧ t.kind = .rbrace
  ifArms {deep : Prop} {s : AnalysisState σ} (arms : Arms) (hd : deep → 4 * s.ahead.length + 3 ≤ d) :
    Parses deep (ifArms returns d arms) s fun _ ys _ => ∃ b : Branches, b.Grouped ∧ ys = b.yield
  whileStatement {deep : Prop} {s : AnalysisState σ} (hd : deep → 4 * s.ahead.length + 1 ≤ d) :
    Parses deep (whileStatement returns d) s fun _ ys _ => ∃ st : Stmt, st.Grouped ∧ ys = st.yield

/-- One more level of depth. -/
theorem Statements.succ (ih : Statements σ returns d) : Statements σ returns (d + 1) where
  statement {deep s} hd := by
    refine peek_bind fun t s1 ht h1 => ?_
    have hd : deep → 4 * s1.ahead.length + 2 ≤ d := by grind
    have hd1 : deep → 4 * s1.ahead.length + 1 ≤ d := fun hdeep => Nat.le_of_succ_le (hd hdeep)
    have hdeclaration (hk : t.kind = .let ∨ t.kind = .const) :
      Parses deep (Analysis.declaration d >>= fun _ => (Pure.pure {} : Analysis σ Flow)) s1
        fun _ ys _ => ∃ st : Stmt, st.Grouped ∧ ys = st.yield := by
      refine bind (declaration ht hk (by grind)) ?_
      rintro _ _ s2 ⟨D, hg, rfl⟩ -
      exact pure ⟨.declare D, hg, List.append_nil _⟩
    split
    · exact hdeclaration (.inl ‹_›)
    · exact hdeclaration (.inr ‹_›)
    · refine mark_bind fun _ s2 h2 => bind (ih.ifArms {} (by grind)) ?_
      rintro arms _ s3 ⟨b, hg, rfl⟩ -
      exact of_still (.bind (.forM .patch _) fun _ => .pure _) fun _ _ _ => ⟨.branch b, hg, by simp [Stmt.yield]⟩
    · exact ih.whileStatement hd1
    · exact breakStatement.imp fun _ _ _ h => ⟨.break, trivial, h⟩
    · exact continueStatement.imp fun _ _ _ h => ⟨.continue, trivial, h⟩
    · refine (returnStatement hd).imp ?_
      rintro _ _ _ ⟨value, hg, h⟩
      exact ⟨.return value, hg, h⟩
    · refine (ih.block true hd1).imp ?_
      rintro _ _ _ ⟨b, hg, h⟩
      exact ⟨.block b, hg, h⟩
    · rename_i hk
      refine next_bind ht (by simp [hk]) fun s2 _ => pure ⟨.empty, trivial, ?_⟩
      rw [Token.terminal, hk]
      rfl
    · refine bind (expressionStatement hd) ?_
      rintro _ _ s2 ⟨e, hg, rfl⟩ -
      exact pure ⟨.effect e, hg, List.append_nil _⟩
  block {deep s} inner hd := by
    refine mark_bind fun _ s1 h1 => still_bind (.openBlock inner) fun _ s2 _ h2 => ?_
    refine bind (ih.statements {} none (by grind)) ?_
    -- the statements end before the closing brace, so the token taken is not the end token
    rintro ⟨flow, dead⟩ ys s3 ⟨b, hg, hy, t, ht, hk⟩ -
    refine next_bind ht (by simp [hk]) fun s4 _ => of_still (.bind (.closeBlock inner dead) fun _ => .pure _)
      fun _ _ _ => ⟨b, hg, ?_⟩
    rw [hy, Token.terminal, hk]
  statements {deep s} flow dead hd := by
    refine peek_bind fun t s1 ht h1 => ?_
    split
    · exact pure ⟨.nil, trivial, rfl, t, ht, ‹_›⟩
    · exact fail _ _
    · refine bind (ih.statement (by grind)) ?_
      rintro f _ s2 ⟨st, hg, rfl⟩ h2
      have hpos := List.length_pos_iff.2 st.yield_ne_nil
      -- the statements after this one, wherever the code ends
      have rest (flow : Flow) (dead : Option Nat) {u : AnalysisState σ} (hu : u.ahead.length = s2.ahead.length) :
          Parses deep (Analysis.statements returns d flow dead) u fun _ ys s' => ∃ b : Block, b.Grouped ∧
            b.yield = st.yield ++ ys ++ [.mark .rbrace] ∧ ∃ t, s'.front = .ok t ∧ t.kind = .rbrace := by
        refine (ih.statements flow dead (by grind)).imp ?_
        rintro _ ys _ ⟨b, hgb, hy, hend⟩
        exact ⟨.cons st b, ⟨hg, hgb⟩, by simp [Block.yield, hy], hend⟩
      exact ite (fun _ => still_bind .here fun handle u _ hu => rest f handle hu) fun _ => rest flow dead rfl
  ifArms {deep s} arms hd := by
    refine bind (condition (by grind)) ?_
    rintro skip _ s1 ⟨e, hge, rfl⟩ h1
    refine bind (ih.block true (by grind)) ?_
    rintro f _ s2 ⟨b, hgb, rfl⟩ h2
    refine still_bind .emitOpenBranch fun handle s3 _ h3 => still_bind (.patch skip) fun _ s4 _ h4 => ?_
    refine accept_bind (fun s5 h5 => accept_bind (fun s6 h6 => ?_) fun s6 h6 => ?_) fun s5 _ => ?_
    · refine (ih.ifArms _ (by grind)).imp ?_
      rintro _ _ _ ⟨rest, hgr, rfl⟩
      exact ⟨.orIf e b rest, ⟨hge, hgb, hgr⟩, by simp [Branches.yield]⟩
    · refine bind (ih.block true (by grind)) ?_
      rintro _ _ s7 ⟨other, hgo, rfl⟩ -
      exact pure ⟨.orElse e b other, ⟨hge, hgb, hgo⟩, by simp [Branches.yield]⟩
    · exact pure ⟨.only e b, ⟨hge, hgb⟩, by simp [Branches.yield]⟩
  whileStatement {deep s} hd := by
    refine mark_bind fun _ s1 h1 => still_bind .here fun first s2 _ h2 => bind (condition (by grind)) ?_
    rintro exit _ s3 ⟨e, hge, rfl⟩ h3
    refine still_bind (.openLoop first) fun _ s4 _ h4 => bind (ih.block true (by grind)) ?_
    rintro f _ s5 ⟨b, hgb, rfl⟩ -
    exact of_still (.bind (.endLoop first exit f) fun _ => .pure _) fun _ _ _ => ⟨.loop e b, ⟨hge, hgb⟩, by simp [Stmt.yield]⟩

/-- At every depth. -/
theorem all_statements (returns : ValueType) : ∀ d, Statements σ returns d
  | 0 => by constructor <;> intros <;> exact tooDeep fun hdeep => by simp_all
  | d + 1 => (all_statements returns d).succ

/-! ## Definitions -/

/-- A parameter reads its name and its type. -/
theorem parameter (function : Nat) : Parses deep (parameter function) s fun _ ys _ => ∃ p : Param, ys = p.yield := by
  refine accept_bind (fun s1 _ => ?_) fun s1 _ => ?_
  all_goals
    refine name_bind fun name s2 _ => mark_bind fun _ s3 _ => typeName_bind fun typeToken n s4 _ =>
      of_still (.ite (.fail _ _) ?_) ?_
    · exact .bind (.declare _ _ _ _ _) fun _ => .bind (.markAssigned _) fun _ => .updateSymbol _ _
  · exact fun _ _ _ => ⟨⟨true, name.lexeme, n⟩, rfl⟩
  · exact fun _ _ _ => ⟨⟨false, name.lexeme, n⟩, rfl⟩

/-- Parameters are read up to the closing parenthesis. -/
theorem parameters (function : Nat) : ∀ {d : Nat} {s : AnalysisState σ}, (deep → s.ahead.length + 1 ≤ d) →
    Parses deep (parameters function d) s fun _ ys _ =>
      ∃ (p : Param) (ps : List Param), p.yield ++ Param.more ps = ys ++ [.mark .rparen]
  | 0, _, hd => tooDeep fun hdeep => by simpa using hd hdeep
  | d + 1, s, hd => by
    refine bind (parameter function) ?_
    rintro _ _ s1 ⟨p, rfl⟩ h1
    have hpos : 0 < p.yield.length := List.length_pos_iff.2 (by simp [Param.yield])
    refine accept_bind (fun s2 h2 => (parameters function (by grind)).imp ?_) fun s2 _ => ?_
    · rintro _ ys _ ⟨q, qs, hy⟩
      exact ⟨p, q :: qs, by simp [Param.more, hy]⟩
    · exact pure ⟨p, [], by simp [Param.more]⟩

/-- A list of parameters, which may be empty. -/
theorem parameterList (function : Nat) (hd : deep → s.ahead.length + 1 ≤ d) :
    Parses deep (parameterList function d) s fun _ ys _ => ∃ ps : List Param, ys = .mark .lparen :: Param.yields ps := by
  refine mark_bind fun _ s1 h1 => accept_bind (fun s2 _ => pure ⟨[], rfl⟩) fun s2 h2 => ?_
  refine bind (parameters function (by grind)) ?_
  rintro _ ys s3 ⟨p, ps, hy⟩ -
  exact mark_bind fun _ _ _ => pure ⟨p :: ps, by rw [Param.yields, hy]⟩

/-- A function reads a definition. -/
theorem function (hd : deep → 4 * s.ahead.length + 1 ≤ d) :
    Parses deep (function d) s fun _ ys _ => ∃ D : Definition, D.Grouped ∧ ys = D.yield := by
  refine mark_bind fun _ s1 h1 => name_bind fun name s2 h2 => still_bind (.openFunction name) fun p s3 _ h3 => ?_
  refine bind (parameterList p.1 (by grind)) ?_
  rintro _ _ s4 ⟨ps, rfl⟩ h4
  refine mark_bind fun _ s5 h5 => typeName_bind fun _ n s6 h6 => still_bind (.noteReturns p.1 n.type) fun _ s7 _ h7 => ?_
  refine bind ((all_statements n.type d).block false (by grind)) ?_
  rintro flow _ s8 ⟨b, hg, rfl⟩ -
  exact of_still (.bind (.endBody name n.type flow) fun _ => .closeFunction _ _ _) fun _ _ _ =>
    ⟨.function name.lexeme ps n b, hg, by simp [Definition.yield]⟩

/-- The definitions end at the end token, so every token ahead can be read. -/
theorem definitions : ∀ {d : Nat} {s : AnalysisState σ}, (deep → 4 * s.ahead.length + 2 ≤ d) →
    Parses deep (definitions d) s fun t ys s' => ∃ p : Source, p.Grouped ∧ ys = p.yield ∧ s'.front = .ok t ∧ t.kind = .eof
  | 0, _, hd => tooDeep fun hdeep => by simpa using hd hdeep
  | d + 1, s, hd => by
    refine peek_bind fun t s1 ht h1 => ?_
    have hd : deep → 4 * s1.ahead.length + 1 ≤ d := by grind
    have more {m : Analysis σ Unit} (hm : Parses deep m s1 fun _ ys _ => ∃ D : Definition, D.Grouped ∧ ys = D.yield) :
        Parses deep (m >>= fun _ => Analysis.definitions d) s1
          fun t ys s' => ∃ p : Source, p.Grouped ∧ ys = p.yield ∧ s'.front = .ok t ∧ t.kind = .eof := by
      refine bind hm ?_
      rintro _ _ s2 ⟨D, hg, rfl⟩ h2
      have hpos := List.length_pos_iff.2 D.yield_ne_nil
      refine (definitions (by grind)).imp ?_
      rintro t _ s' ⟨p, hgp, rfl, hend⟩
      exact ⟨D :: p, List.forall_mem_cons.2 ⟨hg, hgp⟩, rfl, hend⟩
    have global (hk : t.kind = .let ∨ t.kind = .const) :
        Parses deep (Analysis.declaration d) s1 fun _ ys _ => ∃ D : Definition, D.Grouped ∧ ys = D.yield := by
      refine (declaration ht hk (by grind)).imp ?_
      rintro _ _ _ ⟨D, hg, h⟩
      exact ⟨.global D, hg, h⟩
    split
    · exact more (function hd)
    · exact more (global (.inl ‹_›))
    · exact more (global (.inr ‹_›))
    · exact pure ⟨[], nofun, rfl, ht, ‹_›⟩
    · exact fail _ _

/-- A program reads all definitions up to the end token. -/
theorem program (hd : deep → 4 * s.ahead.length + 2 ≤ d) : Parses deep (program d) s fun _ ys s' =>
    ∃ p : Source, p.Grouped ∧ ys = p.yield ∧ ∃ t, s'.front = .ok t ∧ t.kind = .eof := by
  refine still_bind .openEntry fun _ s1 _ h1 => bind (definitions (by grind)) ?_
  rintro t _ s2 ⟨p, hg, rfl, ht, hk⟩ -
  refine of_still (.bind (.closeEntry t.pos) fun _ => .assemble) fun _ s3 hsource => ⟨p, hg, List.append_nil _, t, ?_, hk⟩
  rw [front, hsource]
  exact ht

end Parses

end Analysis

/-- Where an analysis succeeds, every token can be read and the tokens are those of a grouped program. -/
theorem analyze_reads {σ : Type} [TokenSource σ] [Supply σ] {source : σ} {program : Program} (h : analyze source = .ok program) :
    ∃ p : Source, p.Grouped ∧ (Supply.ahead source).map Token.terminal = p.yield ∧ ∃ t, Supply.stop source = .ok t := by
  obtain ⟨s', hr⟩ := Analysis.run'_ok_iff.1 h
  obtain ⟨_, hall, p, hg, rfl, t, ht, hk⟩ := (Analysis.Parses.program False.elim).exists_takes hr
  have hend := AnalysisState.ahead_eq_nil_of_front ht hk
  have hterminals := hall.terminals
  rw [AnalysisState.terminals, AnalysisState.terminals, hend, List.map_nil, List.append_nil] at hterminals
  refine ⟨p, hg, hterminals, t, ?_⟩
  rw [AnalysisState.front_eq, hend] at ht
  exact hall.stop ▸ ht

/-- An analysis that starts with the bound on the depth or with more never runs out of depth. -/
theorem Analysis.run'_program_ne_tooDeep {σ : Type} [TokenSource σ] [Supply σ] {source : σ} {d : Nat}
    (hd : depthBound (TokenSource.remaining source) ≤ d) : (program d).run' { source } ≠ .error (.breach .tooDeep) := by
  have hlength := Supply.length_ahead source
  intro hdeep
  refine (Parses.program (s := { source }) (d := d) fun _ => ?_).ne_tooDeep trivial ?_
  · change 4 * (Supply.ahead source).length + 2 ≤ _
    unfold depthBound at hd
    omega
  change ((program d).run { source }).map Prod.fst = _ at hdeep
  cases hrun : (program d).run { source } with
  | ok r =>
    rw [hrun] at hdeep
    cases hdeep
  | error e =>
    rw [hrun] at hdeep
    cases hdeep
    rfl

/-- The depth that an analysis is given is enough. -/
theorem analyze_ne_tooDeep {σ : Type} [TokenSource σ] [Supply σ] (source : σ) : analyze source ≠ .error (.breach .tooDeep) :=
  Analysis.run'_program_ne_tooDeep (Nat.le_refl _)

end OnePass
