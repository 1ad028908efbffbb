import OnePass.Proofs.Agreement.Basic
import OnePass.Proofs.Emission.Changes

/-!
# Expressions, analysed and translated

Where the tokens ahead are those of a grouped expression, compiling them is translating it (`expression_follows`). The pending
stacks are followed through the tree: the operators that wait when a part of it begins are of a lower class, so they wait until it
ends.
-/

namespace OnePass

namespace Analysis

open AnalysisState Translation
open Descent (waiting rightOperand Settled run_operators_shift run_operators_reduce)

variable {σ α β γ : Type}
variable {c : Context} {s s' : AnalysisState σ} {e : Expr} {rest ys : List Terminal} {out : Section} {code : List Instruction}
  {home : Home} {name : Token}

/-- What a family comes to, by what a translation comes to: it fails where that fails, and else it comes to what another family,
at another state, comes to. -/
def Continues (f : Nat → Analysis σ α) (s : AnalysisState σ) (r : Option (β × Context))
    (good : β → Context → (Nat → Analysis σ α) → AnalysisState σ → Prop) : Prop :=
  match r with
  | none => ∃ e, Ends f s (.error e)
  | some (b, c) => ∃ g s', good b c g s' ∧ ∀ r, Ends g s' r → Ends f s r

namespace Continues

variable {f : Nat → Analysis σ α} {s : AnalysisState σ}
variable {good : β → Context → (Nat → Analysis σ α) → AnalysisState σ → Prop} {r : Option (β × Context)}

theorem bind {m : Translation β} {k : β → Translation γ} {good' : γ → Context → (Nat → Analysis σ α) → AnalysisState σ → Prop}
    (hf : Continues f s (m.run c) good) (hg : ∀ b c' g s', good b c' g s' → Continues g s' ((k b).run c') good') :
    Continues f s ((m >>= k).run c) good' := by
  rw [StateT.run_bind]
  cases hm : m.run c with
  | none =>
    rw [hm] at hf
    exact hf
  | some p =>
    rw [hm] at hf
    obtain ⟨g, s', hgood, hr⟩ := hf
    have hk := hg p.1 p.2 g s' hgood
    change Continues f s ((k p.1).run p.2) good'
    cases hq : (k p.1).run p.2 with
    | none =>
      rw [hq] at hk
      obtain ⟨e, he⟩ := hk
      exact ⟨e, hr _ he⟩
    | some q =>
      rw [hq] at hk
      obtain ⟨g', s'', hgood', hr'⟩ := hk
      exact ⟨g', s'', hgood', fun r h => hr r (hr' r h)⟩

/-- A family that comes to what another one comes to. -/
theorem of_ends {g : Nat → Analysis σ α} (h : Continues g s' r good) (hends : ∀ r, Ends g s' r → Ends f s r) :
    Continues f s r good := by
  cases r with
  | none =>
    obtain ⟨e, he⟩ := h
    exact ⟨e, hends _ he⟩
  | some p =>
    obtain ⟨g', s'', hgood, hr⟩ := h
    exact ⟨g', s'', hgood, fun r h => hends r (hr r h)⟩

/-- A part that follows the translation, and what comes after it. -/
theorem of_follows {f : Nat → Analysis σ γ} {g : Nat → γ → Analysis σ α} {good : β → Context → γ → AnalysisState σ → Prop}
    {good' : β → Context → (Nat → Analysis σ α) → AnalysisState σ → Prop} (h : Follows f s r good)
    (hgood : ∀ b c a s', good b c a s' → good' b c (fun d => g d a) s') : Continues (fun d => f d >>= g d) s r good' := by
  cases r with
  | none =>
    obtain ⟨e, he⟩ := h
    exact ⟨e, .bind_of_error he⟩
  | some p =>
    obtain ⟨a, s', ha, hg⟩ := h
    exact ⟨_, s', hgood _ _ _ _ hg, fun r hr => .bind_of_ok ha hr⟩

end Continues

/-! ## Names and the pool -/

theorem run_emitAddress {symbol : Symbol} (h : home.Of symbol) (out : Section) (s : AnalysisState σ) :
    (emitAddress out symbol).run s = .ok ((), s.append out [home.address]) := by
  unfold emitAddress
  cases home <;> rw [h.1] <;> simp [Home.address, h.2]

/-- The place of a variable, with the symbol that shows it. -/
theorem run_variablePlace_ok (h : s.Knows c) {type : ValueType} {const assigned : Bool}
    (hx : c.scopes.find? name.lexeme = some (.variable type const assigned home)) :
    ∃ place symbol, s.table.resolve name.lexeme = .ok place ∧ (variablePlace name).run s = .ok (place, s) ∧
      (symbolAt place).run s = .ok (symbol, s) ∧ symbol.Shows (.variable type const assigned home) := by
  obtain ⟨place, symbol, hr, hs, hshow, -⟩ := h.table.resolve_of_some hx
  refine ⟨place, symbol, hr, ?_, run_symbolAt hs, hshow⟩
  rw [variablePlace, run_get_bind, hr]
  dsimp only
  rw [run_bind_of_ok (run_symbolAt hs), if_neg hshow.1]
  rfl

theorem run_variablePlace_error (h : s.Knows c)
    (hx : ∀ type const assigned home, c.scopes.find? name.lexeme ≠ some (.variable type const assigned home)) :
    ∃ e, (variablePlace name).run s = .error e := by
  cases hf : c.scopes.find? name.lexeme with
  | none =>
    refine ⟨.diagnostic ⟨name.pos, .undeclared name.lexeme⟩, ?_⟩
    rw [variablePlace, run_get_bind, h.table.resolve_of_none hf]
    rfl
  | some entry =>
    cases entry with
    | «variable» type const assigned home => exact absurd hf (hx type const assigned home)
    | function params returns number slot =>
      obtain ⟨place, symbol, hr, hs, hshow, -⟩ := h.table.resolve_of_some hf
      refine ⟨.diagnostic ⟨name.pos, .functionAsValue name.lexeme⟩, ?_⟩
      rw [variablePlace, run_get_bind, hr]
      dsimp only
      rw [run_bind_of_ok (run_symbolAt hs), if_pos hshow.1]
      rfl

variable [TokenSource σ] [Supply σ]

/-- The map of the entries of one form, brought up to date. -/
theorem getElem?_insert_idxOf? {map : Std.TreeMap Bytes Nat} {pool : List PoolEntry} {entry : Bytes → PoolEntry} {x : Bytes}
    (hmap : ∀ x, map[x]? = pool.idxOf? (entry x)) (hentry : ∀ y, entry x = entry y ↔ x = y)
    (hx : pool.idxOf? (entry x) = none) (y : Bytes) :
    (map.insert x pool.length)[y]? = (pool ++ [entry x]).idxOf? (entry y) := by
  rw [idxOf?_concat, Std.TreeMap.getElem?_insert, hmap]
  by_cases hxy : x = y
  · simp [← hxy, hx]
  · simp [hxy, hentry]

theorem literalSlot_follows (h : s.Knows c) (out : Section) (x : Bytes) :
    Follows (fun _ => literalSlot x) s ((slotOf (.literal x)).run c) fun slot c' a s' => a = slot ∧ After out s [] [] c' s' := by
  have hx := h.literals x
  cases hi : c.pool.idxOf? (.literal x) with
  | some slot =>
    rw [run_slotOf_of_some hi]
    refine .of_ok (show (literalSlot x).run s = .ok (slot, s) from ?_) ⟨rfl, .refl h out⟩
    rw [literalSlot, run_get_bind, hx, hi]
    rfl
  | none =>
    have hn (y) : s.natives[y]? = (c.pool ++ [PoolEntry.literal x]).idxOf? (.primitive y) := by simp [idxOf?_concat, h.natives]
    have hknows := h.addEntry (.literal x) (getElem?_insert_idxOf? h.literals (by simp) hi) hn
    rw [run_slotOf_of_none hi]
    refine .of_ok (m := literalSlot x) ?_ ⟨rfl, .of_knows (s := s) hknows rfl rfl rfl rfl out⟩
    rw [literalSlot, run_get_bind, hx, hi]
    rw [← h.pool_size]
    exact run_new_global (h.nextGlobal.trans h.pool_size.symm) _ fun slot s => { s with literals := s.literals.insert x slot }

theorem nativeSlot_follows (h : s.Knows c) (out : Section) (x : Bytes) :
    Follows (fun _ => nativeSlot x) s ((slotOf (.primitive x)).run c) fun slot c' a s' => a = slot ∧ After out s [] [] c' s' := by
  have hx := h.natives x
  cases hi : c.pool.idxOf? (.primitive x) with
  | some slot =>
    rw [run_slotOf_of_some hi]
    refine .of_ok (show (nativeSlot x).run s = .ok (slot, s) from ?_) ⟨rfl, .refl h out⟩
    rw [nativeSlot, run_get_bind, hx, hi]
    rfl
  | none =>
    have hl (y) : s.literals[y]? = (c.pool ++ [PoolEntry.primitive x]).idxOf? (.literal y) := by simp [idxOf?_concat, h.literals]
    have hknows := h.addEntry (.primitive x) hl (getElem?_insert_idxOf? h.natives (by simp) hi)
    rw [run_slotOf_of_none hi]
    refine .of_ok (m := nativeSlot x) ?_ ⟨rfl, .of_knows (s := s) hknows rfl rfl rfl rfl out⟩
    rw [nativeSlot, run_get_bind, hx, hi]
    rw [← h.pool_size]
    exact run_new_global (h.nextGlobal.trans h.pool_size.symm) _ fun slot s => { s with natives := s.natives.insert x slot }

theorem run_find? (x : Bytes) (c : Context) : (Translation.find? x).run c = some (c.scopes.find? x, c) := rfl

/-- What a part of an expression gives, its type or the number of its arguments, is the same on both sides, and so is its code. -/
def Same (out : Section) (s : AnalysisState σ) (ys : List Terminal) (r : α × List Instruction) (c : Context) (a : α)
    (s' : AnalysisState σ) : Prop :=
  a = r.1 ∧ After out s ys r.2 c s'

theorem load_follows (h : s.Knows c) (out : Section) (name : Token) :
    Follows (fun _ => load out name) s ((Expr.name name.lexeme).translate.run c) (Same out s []) := by
  rw [Expr.translate]
  refine .translate (run_find? _ _) ?_
  by_cases hv : ∃ type const assigned home, c.scopes.find? name.lexeme = some (.variable type const assigned home)
  · obtain ⟨type, const, assigned, home, hf⟩ := hv
    obtain ⟨place, symbol, -, hp, hs, hshow⟩ := run_variablePlace_ok h hf
    obtain ⟨-, htype, -, hassigned, hhome⟩ := hshow
    refine .step hp (.step hs ?_)
    rw [hf, hassigned]
    cases assigned with
    | false => exact .of_error rfl
    | true =>
      refine .step (run_emitAddress hhome out s) (.step (run_emit out _ _) ?_)
      refine .of_ok rfl ⟨htype, ?_⟩
      exact (After.append h out [home.address]).trans (After.append (h.append out _) out [{ op := .load }])
  · obtain ⟨e, he⟩ := run_variablePlace_error h fun type const assigned home hf => hv ⟨type, const, assigned, home, hf⟩
    split
    · rename_i type const home hf
      exact absurd ⟨type, const, true, home, hf⟩ hv
    · exact .step_error he

/-- A value is stored in a variable that was found before the value was compiled, and is still at its place. -/
theorem After.store {s s' : AnalysisState σ} {c c' : Context} {out : Section} {ys : List Terminal} {code : List Instruction}
    {x : Bytes} {place : Nat} {type : ValueType} {const assigned : Bool} {home : Home} (h : s.Knows c)
    (hplace : s.table.resolve x = .ok place) (hx : c.scopes.find? x = some (.variable type const assigned home))
    (hc : c.Extends c') (hafter : After out s ys code c' s') :
    ∃ s'', (emit out { op := .store } >>= fun _ => markAssigned place).run s' = .ok ((), s'') ∧
      After out s ys (code ++ [{ op := .store }]) { c' with scopes := c'.scopes.assign x } s'' := by
  obtain ⟨assigned', hx'⟩ := hc.find?_variable hx
  obtain ⟨place', symbol, hplace', -, -, hassigned⟩ := hafter.knows.table.resolve_of_some hx'
  -- the names are the same as before the value
  rw [h.table.resolve_congr hafter.knows.table hc.map_fst_flatten, hplace] at hplace'
  cases hplace'
  rw [← table_append s' out [{ op := .store }]] at hassigned
  have hstored := hafter.trans (.append hafter.knows out [{ op := .store }])
  have hmarked := hstored.trans (.of_table hstored.knows hassigned rfl rfl out)
  exact ⟨_, run_bind_of_ok (run_emit out _ s'), by simpa using hmarked⟩

/-- An assignment, whose value is compiled and translated by parts that agree. -/
theorem assignment_follows (out : Section) (name : Token) (e : Expr) {value : Nat → Analysis σ ValueType}
    (h : s.Faces c (e.yield ++ rest))
    (hvalue : ∀ s' : AnalysisState σ, s'.Faces c (e.yield ++ rest) → Follows value s' (e.translate.run c) (Same out s' e.yield)) :
    Follows (fun d => assignment out name (value d)) s ((Expr.assign name.lexeme e).translate.run c) (Same out s e.yield) := by
  rw [Expr.translate]
  refine .translate (run_find? _ _) ?_
  by_cases hv : ∃ type const assigned home, c.scopes.find? name.lexeme = some (.variable type const assigned home)
  · obtain ⟨type, const, assigned, home, hf⟩ := hv
    obtain ⟨place, symbol, hres, hp, hsymbol, hshow⟩ := run_variablePlace_ok h.knows hf
    obtain ⟨-, htype, hconst, -, hhome⟩ := hshow
    refine .step hp (.step hsymbol ?_)
    rw [hf]
    cases const with
    | true => exact .ite_pos hconst (.step_error (run_fail _ _ s))
    | false =>
      refine .ite_neg (by simp [hconst]) ?_
      refine .step (run_emitAddress hhome out s) (.peek (h.append out _) fun t _ => ?_)
      refine .bind (hvalue _ (h.append out _).looked) ?_
      rintro ⟨_, code⟩ c' τ s' hrun ⟨rfl, hafter⟩
      have hbefore := (After.append h.knows out [home.address]).trans (After.looked (h.append out _).knows out)
      refine .require (by simp [htype]) (run_fail _ _ s') fun hτ => ?_
      obtain ⟨s'', hstore, hstored⟩ := After.store h.knows hres hf (e.extending_translate c _ c' hrun) (hbefore.trans hafter)
      rw [← bind_assoc]
      refine .step hstore (.of_ok rfl ⟨rfl, by simpa using hstored⟩)
  · obtain ⟨e, he⟩ := run_variablePlace_error h.knows fun type const assigned home hf => hv ⟨type, const, assigned, home, hf⟩
    split
    · rename_i type const home hf
      exact absurd ⟨type, _, _, home, hf⟩ hv
    · exact .step_error he

/-! ## Calls -/

theorem callee_follows (h : s.Knows c) (out : Section) (name : Token) :
    Follows (fun _ => callee name) s ((Translation.callee name.lexeme).run c) fun r c' a s' =>
      a = r ∧ After out s [] [] c' s' := by
  refine .translate (run_find? _ _) ?_
  cases hf : c.scopes.find? name.lexeme with
  | none =>
    have hres := h.table.resolve_of_none hf
    cases hp : Primitive.ofName? name.lexeme with
    | none =>
      refine .of_error (e := .diagnostic ⟨name.pos, .noFunction name.lexeme⟩) ?_
      rw [callee, run_get_bind, hres]
      dsimp only
      rw [hp]
      rfl
    | some primitive =>
      have hcallee : (callee name).run s = (do
          let slot ← nativeSlot name.lexeme
          return ⟨primitive.signature, .callName, slot⟩ : Analysis σ Callee).run s := by
        rw [callee, run_get_bind, hres]
        dsimp only
        rw [hp]
      refine .of_run_eq hcallee (.bind (nativeSlot_follows h out name.lexeme) ?_)
      rintro slot c' _ s' - ⟨rfl, hafter⟩
      exact .of_ok rfl ⟨rfl, hafter⟩
  | some binding =>
    obtain ⟨place, symbol, hres, hsymbol, hshow, -⟩ := h.table.resolve_of_some hf
    have hcallee : (callee name).run s =
        (if symbol.kind = .function then return ⟨⟨symbol.params, symbol.type⟩, .call, symbol.place⟩
        else fail name.pos (.notFunction name.lexeme) : Analysis σ Callee).run s := by
      rw [callee, run_get_bind, hres]
      dsimp only
      rw [run_bind_of_ok (run_symbolAt hsymbol)]
    cases binding with
    | «variable» type const assigned home =>
      rw [if_neg hshow.1] at hcallee
      exact .of_error hcallee
    | function params returns number slot =>
      obtain ⟨hkind, rfl, rfl, rfl, -⟩ := hshow
      rw [if_pos hkind] at hcallee
      exact .of_ok hcallee ⟨rfl, .refl h out⟩

theorem endCall_follows (out : Section) (name : Token) (target : Callee) (count : Nat) (h : After out s ys code c s') :
    Follows (fun _ => endCall out name target count) s'
      ((do
        Translation.require (count = target.signature.params.length)
        return (target.signature.returns, code ++ [.withNat target.op target.operand]) : Translation _).run c)
      (Same out s ys) := by
  refine .require Iff.rfl (run_fail _ _ s') fun _ => ?_
  refine .step (run_emit out _ s') (.of_ok rfl ⟨rfl, ?_⟩)
  simpa using h.trans (.append h.knows out [.withNat target.op target.operand])

/-- A call, whose arguments are compiled and translated by parts that agree. -/
theorem call_follows (out : Section) (name : Token) (args : Args) {arguments : Nat → List ValueType → Analysis σ Nat}
    (h : s.Faces c (.mark .lparen :: (args.yield ++ rest)))
    (hargs : ∀ (s' : AnalysisState σ) (c' : Context) (params : List ValueType), args ≠ .nil → s'.Faces c' (args.yield ++ rest) →
      Follows (fun d => arguments d params) s' ((args.translate params).run c') (Same out s' args.yield)) :
    Follows (fun d => call out name (arguments d)) s ((Expr.call name.lexeme args).translate.run c)
      (Same out s (.mark .lparen :: args.yield)) := by
  rw [Expr.translate]
  refine .bind (callee_follows h.knows out name) ?_
  rintro _ c1 target s1 - ⟨rfl, hcallee⟩
  have halloc := hcallee.trans (.append hcallee.knows out [.withNat .stackAlloc target.signature.returns.slots])
  refine .step (run_emit out _ s1) (.expect (halloc.faces h) rfl fun t _ hopened htake => ?_)
  have hopen := halloc.trans (htake out)
  cases args with
  | nil =>
    rw [Args.translate]
    refine .accept hopened rfl fun _ hclose => .ite_pos rfl ?_
    exact endCall_follows out name target 0 (by simpa [Args.yield] using hopen.trans (hclose out))
  | cons first more =>
    have hne : frontKind ((Args.cons first more).yield ++ rest) ≠ .rparen := by
      have hopens := first.opensExpr_yield (more.more ++ rest)
      rw [← List.append_assoc, ← Args.yield] at hopens
      intro hkind
      rw [hkind] at hopens
      cases hopens
    refine .refuse hopened hne (.ite_neg (by simp) ?_)
    refine .bind (hargs _ _ _ (by simp) hopened.looked) ?_
    rintro ⟨_, code⟩ c2 count s2 - ⟨rfl, hafter⟩
    have hlooked := hopen.trans (.looked hopen.knows out)
    exact endCall_follows out name target count (by simpa using hlooked.trans hafter)

theorem negate_follows (out : Section) (minus : Token) (type : ValueType) (h : After out s ys code c s') :
    Follows (fun _ => negate out minus type) s'
      ((do
        let (type, more) ← negation type
        return (type, code ++ more) : Translation _).run c)
      (Same out s ys) := by
  cases type with
  | int => exact .step (run_emit out _ s') (.of_ok rfl ⟨rfl, by simpa using h.trans (.append h.knows out _)⟩)
  | double => exact .step (run_emit out _ s') (.of_ok rfl ⟨rfl, by simpa using h.trans (.append h.knows out _)⟩)
  | _ => exact .of_error rfl

/-! ## The pending stacks -/

/-- What comes next does not go on with an expression: it is neither a call nor an assignment of a name at its end, nor an
operator of class `k` or above. -/
def Stops (k : Nat) (rest : List Terminal) : Prop :=
  frontKind rest ≠ .lparen ∧ frontKind rest ≠ .assign ∧ ∀ op, Operator.ofKind? (frontKind rest) = some op → op.level < k

theorem Stops.mono {k k' : Nat} (h : Stops k rest) (hk : k ≤ k') : Stops k' rest :=
  ⟨h.1, h.2.1, fun op hop => Nat.lt_of_lt_of_le (h.2.2 op hop) hk⟩

theorem stops_semicolon (rest : List Terminal) : Stops 0 (.mark .semicolon :: rest) := ⟨nofun, nofun, nofun⟩

theorem stops_lbrace (rest : List Terminal) : Stops 0 (.mark .lbrace :: rest) := ⟨nofun, nofun, nofun⟩

theorem stops_rparen (rest : List Terminal) : Stops 0 (.mark .rparen :: rest) := ⟨nofun, nofun, nofun⟩

theorem stops_comma (rest : List Terminal) : Stops 0 (.mark .comma :: rest) := ⟨nofun, nofun, nofun⟩

/-! ## Operands -/

/-- Where the tokens of an operand are ahead, compiling them is translating it. -/
def OperandAgrees (σ : Type) [TokenSource σ] [Supply σ] (out : Section) (e : Expr) : Prop :=
  ∀ (s : AnalysisState σ) (c : Context) (rest : List Terminal), s.Faces c (e.yield ++ rest) → frontKind rest ≠ .lparen →
    frontKind rest ≠ .assign → (e.endsOpen = true → Stops 0 rest) →
    Follows (operand out) s (e.translate.run c) (Same out s e.yield)

/-- Where the tokens of an expression are ahead, compiling them is translating it: with operators of lower classes waiting, up to
where these go on. -/
def ExprAgrees (σ : Type) [TokenSource σ] [Supply σ] (out : Section) (e : Expr) : Prop :=
  ∀ (s : AnalysisState σ) (c : Context) (rest : List Terminal) (ops : List Waiting) (types : List ValueType),
    s.Faces c (e.yield ++ rest) → Stops (e.level + 1) rest → (e.endsOpen = true → Stops 0 rest) →
    (∀ w ∈ ops, w.op.level < e.level) →
    Continues (fun d => operand out d >>= fun type => waiting out ops types type d) s (e.translate.run c)
      fun r c' g s' => g = waiting out ops types r.1 ∧ After out s e.yield r.2 c' s'

theorem OperandAgrees.exprAgrees (h : OperandAgrees σ out e) : ExprAgrees σ out e := by
  intro s c rest ops types hs hstops hopen _
  refine .of_follows (h s c rest hs hstops.1 hstops.2.1 hopen) ?_
  rintro ⟨_, code⟩ c' type s' ⟨rfl, hafter⟩
  exact ⟨rfl, hafter⟩

/-- An expression that nothing goes on with, from the first operand on. -/
theorem ExprAgrees.expression_follows (h : ExprAgrees σ out e) (hs : s.Faces c (e.yield ++ rest)) (hrest : Stops 0 rest) :
    Follows (expression out) s (e.translate.run c) (Same out s e.yield) := by
  refine .of_succ ?_ fun d => by rw [expression]
  have hgo := h s c rest [] [] hs (hrest.mono (Nat.zero_le _)) (fun _ => hrest) (by simp)
  cases hr : e.translate.run c with
  | none =>
    rw [hr] at hgo
    exact hgo
  | some p =>
    rw [hr] at hgo
    obtain ⟨_, s', ⟨rfl, hafter⟩, hends⟩ := hgo
    refine ⟨p.1.1, s'.looked, hends _ ⟨1, fun d hd => ?_⟩, rfl, ?_⟩
    · obtain ⟨d, rfl⟩ : ∃ d', d = d' + 1 := ⟨d - 1, by omega⟩
      obtain ⟨t, ht, hk⟩ := (hafter.faces hs).front
      have hop : Operator.ofKind? t.kind = none := by
        rw [hk]
        cases hop : Operator.ofKind? (frontKind rest) with
        | none => rfl
        | some op => exact absurd (hrest.2.2 op hop) (by simp)
      rw [waiting, operators, run_bind_of_ok (run_peek_ok ht), hop]
      cases out <;> rfl
    · simpa using hafter.trans (.looked hafter.knows out)

/-- The first token of an operand is taken, and the rest of it is left to a part that depends on its kind. -/
theorem operandAgrees_of_taken {y : Terminal} (hy : e.yield = y :: ys)
    (h : ∀ (t : Token) (s : AnalysisState σ) (c : Context) (rest : List Terminal), t.terminal = y → t.kind = y.kind →
      s.Faces c (ys ++ rest) → frontKind rest ≠ .lparen → frontKind rest ≠ .assign → (e.endsOpen = true → Stops 0 rest) →
      Follows (fun d => operandFrom out (expression out d) (operand out d) (fun name params => arguments out name d 0 params) t) s
      (e.translate.run c) (Same out s ys)) : OperandAgrees σ out e := by
  intro s c rest hs hcall hassign hopen
  rw [hy] at hs ⊢
  refine .of_succ (.next hs fun t ht hk hfaces htake => ?_) fun d => by rw [operand]; rfl
  refine (h t s.taken c rest ht hk hfaces hcall hassign hopen).imp ?_
  rintro r c' a s' ⟨rfl, hafter⟩
  exact ⟨rfl, (htake out).trans hafter⟩

theorem operandAgrees_int (out : Section) (value : Int64) : OperandAgrees σ out (.int value) := by
  refine operandAgrees_of_taken rfl fun t s c rest ht hk hs _ _ _ => ?_
  unfold operandFrom
  rw [hk, Token.int_of_int ht]
  exact .step (run_emit out _ s) (.of_ok rfl ⟨rfl, .append hs.knows out _⟩)

theorem operandAgrees_double (out : Section) (bits : UInt64) : OperandAgrees σ out (.double bits) := by
  refine operandAgrees_of_taken rfl fun t s c rest ht hk hs _ _ _ => ?_
  unfold operandFrom
  rw [hk, Token.bits_of_double ht]
  exact .step (run_emit out _ s) (.of_ok rfl ⟨rfl, .append hs.knows out _⟩)

theorem operandAgrees_text (out : Section) (quote : Quote) (content : Bytes) : OperandAgrees σ out (.text quote content) := by
  refine operandAgrees_of_taken rfl fun t s c rest ht hk hs _ _ _ => ?_
  have hliteral : Follows (fun _ => do
      emit out (.withNat .push (← literalSlot t.lexeme))
      return .int : Nat → Analysis σ ValueType) s ((Expr.text quote content).translate.run c) (Same out s []) := by
    rw [Expr.translate, Token.lexeme_of_text ht]
    refine .bind (literalSlot_follows hs.knows out content) ?_
    rintro _ c' slot s' - ⟨rfl, hafter⟩
    exact .step (run_emit out _ s') (.of_ok rfl ⟨rfl, by simpa using hafter.trans (.append hafter.knows out _)⟩)
  unfold operandFrom
  rw [hk]
  cases quote <;> exact hliteral

theorem operandAgrees_name (out : Section) (x : Bytes) : OperandAgrees σ out (.name x) := by
  refine operandAgrees_of_taken rfl fun t s c rest ht hk hs hcall hassign _ => ?_
  unfold operandFrom
  rw [hk]
  refine .peek hs fun t' hk' => ?_
  rw [← Token.lexeme_of_name ht]
  have hload := (load_follows hs.looked.knows out t).imp fun r c' a s' h =>
    (⟨h.1, (After.looked hs.knows out).trans h.2⟩ : Same out s [] r c' a s')
  rw [List.nil_append] at hk'
  rw [← hk'] at hcall hassign
  split
  · rename_i h
    exact absurd h hassign
  · rename_i h
    exact absurd h hcall
  · exact hload

theorem operandAgrees_assign (out : Section) (x : Bytes) {value : Expr} (h : ExprAgrees σ out value) :
    OperandAgrees σ out (.assign x value) := by
  refine operandAgrees_of_taken rfl fun t s c rest ht hk hs _ _ hopen => ?_
  unfold operandFrom
  rw [hk]
  refine .peek hs fun t' hk' => ?_
  rw [hk', ← Token.lexeme_of_name ht]
  refine .next hs.looked fun _ _ _ hfaces htake => ?_
  refine (assignment_follows out t value hfaces fun s' hs' => h.expression_follows hs' (hopen rfl)).imp ?_
  rintro r c' a s' ⟨rfl, hafter⟩
  exact ⟨rfl, (After.looked hs.knows out).trans ((htake out).trans hafter)⟩

/-- Where the tokens of the arguments of a call are ahead, compiling them is translating them. -/
def ArgsAgree (σ : Type) [TokenSource σ] [Supply σ] (out : Section) (args : Args) : Prop :=
  ∀ (s : AnalysisState σ) (c : Context) (rest : List Terminal) (name : Token) (count : Nat) (params : List ValueType),
    args ≠ .nil → s.Faces c (args.yield ++ rest) →
    Follows (fun d => arguments out name d count params) s ((args.translate (params.drop count)).run c)
      fun r c' a s' => Same out s args.yield (count + r.1, r.2) c' a s'

theorem operandAgrees_call (out : Section) (f : Bytes) {args : Args} (h : ArgsAgree σ out args) :
    OperandAgrees σ out (.call f args) := by
  refine operandAgrees_of_taken rfl fun t s c rest ht hk hs _ _ _ => ?_
  unfold operandFrom
  rw [hk]
  refine .peek hs fun t' hk' => ?_
  rw [hk', ← Token.lexeme_of_name ht]
  refine (call_follows out t args hs.looked fun s' c' params hne hs' => ?_).imp ?_
  · simpa using h s' c' rest t 0 params hne hs'
  · rintro r c' a s' ⟨rfl, hafter⟩
    exact ⟨rfl, (After.looked hs.knows out).trans hafter⟩

theorem operandAgrees_paren (out : Section) (h : ExprAgrees σ out e) : OperandAgrees σ out (.paren e) := by
  refine operandAgrees_of_taken rfl fun t s c rest ht hk hs _ _ _ => ?_
  unfold operandFrom
  rw [hk, Expr.translate, ← bind_pure e.translate]
  rw [List.append_assoc] at hs
  refine .bind (h.expression_follows hs (stops_rparen rest)) ?_
  rintro ⟨_, code⟩ c' τ s' - ⟨rfl, hafter⟩
  refine .expect (hafter.faces hs) rfl fun _ _ _ htake => .of_ok rfl ⟨rfl, ?_⟩
  simpa using hafter.trans (htake out)

theorem operandAgrees_neg (out : Section) (h : OperandAgrees σ out e) : OperandAgrees σ out (.neg e) := by
  refine operandAgrees_of_taken rfl fun t s c rest ht hk hs hcall hassign hopen => ?_
  unfold operandFrom
  rw [hk, Expr.translate]
  refine .bind (h s c rest hs hcall hassign hopen) ?_
  rintro ⟨_, code⟩ c' τ s' - ⟨rfl, hafter⟩
  exact negate_follows out t τ hafter

/-! ## Operators -/

/-- A waiting operator is applied where nothing goes on with its right operand. -/
theorem operation_continues {w : Waiting} {ops : List Waiting} {types : List ValueType} (left right : ValueType)
    (h : After out s ys code c s') (hs : s'.Faces c rest) (hrest : Stops (w.op.level + 1) rest) :
    Continues (waiting out (w :: ops) (left :: types) right) s'
      ((do
        let (more, type) ← operation w.op left right
        return (type, code ++ more) : Translation _).run c)
      fun r c' g s'' => g = waiting out ops types r.1 ∧ After out s ys r.2 c' s'' := by
  obtain ⟨t, hf, hk⟩ := hs.front
  have hsettled : Settled (w.op.level + 1) s' := ⟨t, hf, by rw [hk]; exact hrest.2.2⟩
  have hreduce (d : Nat) := run_operators_reduce out d w ops left right types hsettled
  unfold operation
  cases hcode : w.op.code left right with
  | error fault =>
    refine ⟨.diagnostic ⟨w.pos, fault⟩, 1, fun d hd => ?_⟩
    obtain _ | d := d
    · omega
    rw [waiting, hreduce, run_bind_of_error (Descent.apply_error hcode w.pos s')]
  | ok r =>
    obtain ⟨more, type⟩ := r
    have happlied := h.trans (.append h.knows out more)
    refine ⟨_, s'.append out more, ⟨rfl, by simpa using happlied⟩, fun r hr => hr.congr_succ fun d => ?_⟩
    rw [waiting, hreduce, run_bind_of_ok (Descent.apply_ok hcode w.pos s')]
    rfl

theorem exprAgrees_binary (out : Section) {op : Operator} {left right : Expr} (hop : op ≠ .cast)
    (hl : op.level ≤ left.level) (hr : op.level < right.level) (hclosed : left.endsOpen = false)
    (hleft : ExprAgrees σ out left) (hright : ExprAgrees σ out right) : ExprAgrees σ out (.binary op left right) := by
  intro s c rest ops types hs hstops hopen hops
  rw [Expr.yield, List.append_assoc] at hs
  rw [Expr.translate]
  have hnext : frontKind (.mark op.kind :: right.yield ++ rest) = op.kind := rfl
  have hshift : Stops (left.level + 1) (.mark op.kind :: right.yield ++ rest) := by
    rw [Stops, hnext, op.ofKind?_kind]
    refine ⟨by cases op <;> simp [Operator.kind], by cases op <;> simp [Operator.kind], fun op' h => ?_⟩
    cases h
    omega
  refine .bind (hleft s c _ ops types hs hshift (by simp [hclosed]) fun w hw => Nat.lt_of_lt_of_le (hops w hw) hl) ?_
  rintro ⟨τ1, code1⟩ c1 _ s1 ⟨rfl, hafter1⟩
  obtain ⟨t, hf, -, hk, htake, hfaces⟩ := (hafter1.faces hs).front_cons
  -- the operator joins those that wait, and the right operand comes before them all
  have hends (r) (h : Ends (fun d => operand out d >>= fun type =>
    waiting out (⟨op, t.pos⟩ :: ops) (τ1 :: types) type d) s1.taken r) :
      Ends (waiting out ops types τ1) s1 r := by
    refine h.of_succ fun d => ?_
    rw [waiting, run_operators_shift out d hf (by rw [hk]; exact op.ofKind?_kind) hops, rightOperand, if_neg hop]
    rfl
  have hlower : ∀ w ∈ (⟨op, t.pos⟩ :: ops : List Waiting), w.op.level < right.level := by
    intro w hw
    rcases List.mem_cons.1 hw with rfl | hw
    · exact hr
    · exact Nat.lt_trans (hops w hw) hr
  refine .of_ends ?_ hends
  refine .bind (hright s1.taken c1 rest _ _ hfaces (hstops.mono (Nat.succ_le_succ (Nat.le_of_lt hr))) hopen hlower) ?_
  rintro ⟨τ2, code2⟩ c2 _ s2 ⟨rfl, hafter2⟩
  have hafter := hafter1.trans ((After.taken hafter1.knows out htake).trans hafter2)
  exact operation_continues τ1 τ2 (w := ⟨op, t.pos⟩) (by simpa [Expr.yield] using hafter) (hafter2.faces hfaces) hstops

theorem exprAgrees_cast (out : Section) (target : TypeName) (hl : Operator.cast.level ≤ e.level) (hclosed : e.endsOpen = false)
    (h : ExprAgrees σ out e) : ExprAgrees σ out (.cast e target) := by
  intro s c rest ops types hs hstops hopen hops
  rw [Expr.yield, List.append_assoc] at hs
  rw [Expr.translate]
  have hshift : Stops (e.level + 1) (.mark .as :: .mark target.kind :: rest) := by
    refine ⟨nofun, nofun, fun op' h => ?_⟩
    cases h
    omega
  refine .bind (h s c _ ops types hs hshift (by simp [hclosed]) fun w hw => Nat.lt_of_lt_of_le (hops w hw) hl) ?_
  rintro ⟨τ, code⟩ c1 _ s1 ⟨rfl, hafter1⟩
  obtain ⟨t, hf, -, hk, htake, hfaces⟩ := (hafter1.faces hs).front_cons
  obtain ⟨t', hf', -, hk', htake', hfaces'⟩ := hfaces.front_cons
  have hends (r) (h : Ends (waiting out (⟨.cast, t.pos⟩ :: ops) (τ :: types) target.type) s1.taken.taken r) :
      Ends (waiting out ops types τ) s1 r := by
    refine h.of_succ fun d => ?_
    have htype : (rightOperand out .cast d).run s1.taken = .ok (target.type, s1.taken.taken) := by
      rw [rightOperand, if_pos rfl, map_eq_pure_bind]
      exact run_bind_of_ok (run_typeName_ok hf' (by rw [hk']; exact target.ofKind?_kind))
    rw [waiting, run_operators_shift out d hf (by rw [hk]; rfl) hops, run_bind_of_ok htype]
    rfl
  refine .of_ends ?_ hends
  have hafter := hafter1.trans ((After.taken hafter1.knows out htake).trans (After.taken hfaces.knows out htake'))
  exact operation_continues τ target.type (w := ⟨.cast, t.pos⟩) (by simpa [Expr.yield] using hafter) hfaces' hstops

/-! ## Whole expressions -/

omit [TokenSource σ] [Supply σ] in
theorem checkArgument_follows (pos : Pos) (name : Token) (params : List ValueType) (count : Nat) (type : ValueType) :
    Follows (fun _ => checkArgument pos name params count type) s
      ((Translation.require (∀ wanted ∈ (params.drop count).head?, type = wanted)).run c) fun _ c' _ s' => c' = c ∧ s' = s := by
  rw [List.head?_drop]
  unfold checkArgument Translation.require
  cases params[count]? with
  | none => exact .of_ok rfl ⟨rfl, rfl⟩
  | some wanted =>
    by_cases htype : type = wanted
    · simp only [Option.mem_some_iff, forall_eq', if_pos htype]
      exact .of_ok rfl ⟨rfl, rfl⟩
    · simp only [Option.mem_some_iff, forall_eq', if_neg htype]
      exact .of_error rfl

theorem argsAgree_cons (out : Section) {first : Expr} {more : Args} (hfirst : ExprAgrees σ out first)
    (hmore : ArgsAgree σ out more) : ArgsAgree σ out (.cons first more) := by
  intro s c rest name count params _ hs
  rw [Args.yield, List.append_assoc] at hs
  rw [Args.translate]
  refine .of_succ (.peek hs fun t _ => ?_) fun d => by rw [arguments]; rfl
  have hstops : Stops 0 (more.more ++ rest) := by
    cases more with
    | nil => exact stops_rparen rest
    | cons => exact stops_comma _
  refine .bind (hfirst.expression_follows hs.looked hstops) ?_
  rintro ⟨_, code⟩ c1 τ s1 - ⟨rfl, hafter⟩
  have hafter1 := (After.looked hs.knows out).trans hafter
  refine .bind (checkArgument_follows t.pos name params count τ) ?_
  rintro _ _ _ s2 - ⟨rfl, rfl⟩
  have hfaces := hafter1.faces hs
  cases more with
  | nil =>
    rw [Args.translate]
    refine .refuse hfaces (by nofun) (.ite_neg (by simp) ?_)
    refine .expect hfaces.looked rfl fun _ _ _ htake => .of_ok rfl ⟨rfl, ?_⟩
    simpa [Args.yield, Args.more] using hafter1.trans ((After.looked hafter1.knows out).trans (htake out))
  | cons second more =>
    refine .accept hfaces rfl fun hfaces' htake => .ite_pos rfl ?_
    rw [List.tail_drop]
    refine .map (hmore _ _ rest name (count + 1) params (by simp) hfaces') ?_
    rintro ⟨n, more⟩ c3 _ s3 ⟨rfl, hafter2⟩
    refine ⟨by simp only; omega, ?_⟩
    simpa [Args.yield, Args.more] using hafter1.trans ((htake out).trans hafter2)

mutual

/-- Every grouped expression is compiled as it is translated. -/
theorem exprAgrees (out : Section) : ∀ e : Expr, e.Grouped → (e.level = 4 → OperandAgrees σ out e) ∧ ExprAgrees σ out e
  | .int value, _ => ⟨fun _ => operandAgrees_int out value, (operandAgrees_int out value).exprAgrees⟩
  | .double bits, _ => ⟨fun _ => operandAgrees_double out bits, (operandAgrees_double out bits).exprAgrees⟩
  | .text quote content, _ => ⟨fun _ => operandAgrees_text out quote content, (operandAgrees_text out quote content).exprAgrees⟩
  | .name x, _ => ⟨fun _ => operandAgrees_name out x, (operandAgrees_name out x).exprAgrees⟩
  | .assign x value, h => by
    rw [Expr.Grouped] at h
    have hoperand := operandAgrees_assign out x (exprAgrees out value h).2
    exact ⟨fun _ => hoperand, hoperand.exprAgrees⟩
  | .call f args, h => by
    rw [Expr.Grouped] at h
    have hoperand := operandAgrees_call out f (argsAgree out args h)
    exact ⟨fun _ => hoperand, hoperand.exprAgrees⟩
  | .paren e, h => by
    rw [Expr.Grouped] at h
    have hoperand := operandAgrees_paren out (exprAgrees out e h).2
    exact ⟨fun _ => hoperand, hoperand.exprAgrees⟩
  | .neg e, h => by
    rw [Expr.Grouped] at h
    have hoperand := operandAgrees_neg out ((exprAgrees out e h.2).1 h.1)
    exact ⟨fun _ => hoperand, hoperand.exprAgrees⟩
  | .binary op left right, h => by
    rw [Expr.Grouped] at h
    obtain ⟨hop, hl, hr, hclosed, hleft, hright⟩ := h
    refine ⟨fun hlevel => ?_, exprAgrees_binary out hop hl hr hclosed (exprAgrees out left hleft).2
      (exprAgrees out right hright).2⟩
    exact absurd hlevel (by cases op <;> simp [Expr.level, Operator.level])
  | .cast e target, h => by
    rw [Expr.Grouped] at h
    obtain ⟨hl, hclosed, he⟩ := h
    exact ⟨fun hlevel => absurd hlevel (by simp [Expr.level, Operator.level]),
      exprAgrees_cast out target hl hclosed (exprAgrees out e he).2⟩

/-- Grouped arguments are compiled as they are translated. -/
theorem argsAgree (out : Section) : ∀ args : Args, args.Grouped → ArgsAgree σ out args
  | .nil, _ => fun _ _ _ _ _ _ hne => absurd rfl hne
  | .cons first more, h => by
    rw [Args.Grouped] at h
    exact argsAgree_cons out (exprAgrees out first h.1).2 (argsAgree out more h.2)

end

/-- Where the tokens of a grouped expression are ahead, and nothing goes on with it, compiling it is translating it. -/
theorem expression_follows (out : Section) {e : Expr} (he : e.Grouped) {s : AnalysisState σ} {c : Context} {rest : List Terminal}
    (hs : s.Faces c (e.yield ++ rest)) (hrest : Stops 0 rest) {d : Nat} (hd : 4 * s.ahead.length + 2 ≤ d) :
    Follows (fun _ => expression out d) s (e.translate.run c) (Same out s e.yield) := by
  refine ((exprAgrees out e he).2.expression_follows hs hrest).at_depth fun d' hd' => ?_
  exact (Refines.expression out hd').run_eq (((Parses.parts out d s).1 hd).ne_tooDeep trivial)

end Analysis

end OnePass
