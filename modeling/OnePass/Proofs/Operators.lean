import OnePass.Proofs.Precedence
import OnePass.Proofs.Shapes.Code
import OnePass.Proofs.Upkeep.Expression

/-!
# The loop over operators

How the pending stacks of an expression stand whenever the loop over its operators is at its head (`Analysis.AtHead`), as often as
the loop is passed and whatever the tokens are (`Analysis.operators_wait_in_order`). It is nowhere else
(`Analysis.run_expression_eq_of_passes`).
-/

namespace OnePass

namespace Pending

variable {p q : Pending} {op : Operator}

/-- From the bottom to the top the operators that wait are of strictly rising precedence. -/
def Rising (p : Pending) : Prop := p.ops.Pairwise fun above below => below.op.precedence < above.op.precedence

/-- There is a class for each operator that waits. -/
theorem Rising.length_lt (h : p.Rising) {n : Nat} (hlt : ∀ w ∈ p.ops, w.op.precedence < n) : p.ops.length ≤ n := by
  obtain ⟨ops, types⟩ := p
  rw [Rising] at h
  dsimp only at h hlt ⊢
  induction ops generalizing n with
  | nil => exact Nat.zero_le n
  | cons w ops ih =>
    obtain ⟨hw, hops⟩ := List.pairwise_cons.1 h
    exact Nat.lt_of_le_of_lt (ih hops hw) (hlt w List.mem_cons_self)

/-- Where an operator has come, those that still wait are of lower precedence. -/
theorem Rising.lower (h : q.Rising) (hops : q.ops = p.ops.dropWhile (·.op.yieldsTo op)) :
    ∀ w ∈ q.ops, w.op.precedence < op.precedence := by
  have hhead := List.head?_dropWhile_not (fun w : Waiting => w.op.yieldsTo op) p.ops
  rw [← hops] at hhead
  rw [Rising] at h
  cases hq : q.ops with
  | nil => simp
  | cons w ops =>
    rw [hq] at hhead h
    have hw : w.op.precedence < op.precedence := by simpa [Operator.yieldsTo] using hhead
    exact List.forall_mem_cons.2 ⟨hw, fun v hv => Nat.lt_trans ((List.pairwise_cons.1 h).1 v hv) hw⟩

end Pending

namespace Analysis

variable {σ : Type} {out : Section} {s0 s s' : AnalysisState σ} {depth d : Nat} {p q : Pending} {op : Operator} {type : ValueType}

theorem run_makeWay_ok_iff : (makeWay out p op).run s = .ok (q, s') ↔ ∃ code, p.makeWayFor op =
    .ok (q, code) ∧ s' = s.append out code := by
  cases hway : p.makeWayFor op with
  | error e =>
    have hrun : (makeWay out p op).run s = .error (.diagnostic e) := by rw [makeWay, hway]; rfl
    simp [hrun]
  | ok r =>
    have hrun : (makeWay out p op).run s = .ok (r.1, s.append out r.2) := by
      rw [makeWay, hway]
      exact run_emitAll_bind out r.2 (fun _ => pure r.1) s
    simp [hrun, Prod.ext_iff, and_assoc, eq_comm]

theorem run_bind_congr {α β : Type} {m : Analysis σ α} {f g : α → Analysis σ β}
    (h : ∀ a s', m.run s = .ok (a, s') → (f a).run s' = (g a).run s') : (m >>= f).run s = (m >>= g).run s := by
  cases hm : m.run s with
  | error e => rw [run_bind_of_error hm, run_bind_of_error hm]
  | ok r => rw [run_bind_of_ok hm, run_bind_of_ok hm, h _ _ hm]

variable [TokenSource σ]

/-- One pass of the loop over the operators, after which the loop goes on as `again` does. -/
def pass (out : Section) (depth : Nat) (again : Pending → Analysis σ ValueType) (p : Pending) : Analysis σ ValueType := do
  let token ← peek
  match Operator.ofKind? token.kind with
  | none => conclude out p
  | some op =>
    let q ← makeWay out p op
    let _ ← next
    let type ← Descent.rightOperand out op depth
    again (q.shift op token.pos type)

theorem operators_succ (out : Section) (d : Nat) (p : Pending) :
    (operators out (d + 1) p : Analysis σ ValueType) = pass out d (operators out d) p := by
  rw [operators]
  refine bind_congr fun token => ?_
  cases Operator.ofKind? token.kind with
  | none => rfl
  | some op =>
    refine bind_congr fun q => bind_congr fun _ => ?_
    rw [Descent.rightOperand]
    split <;> rfl

/-- In an expression that is compiled from the state `s0` on, the loop over the operators is at its head, with these operators and
types pending. -/
inductive AtHead (out : Section) (s0 : AnalysisState σ) (depth : Nat) : Nat → Pending → AnalysisState σ → Prop where
  | first {type : ValueType} {s : AnalysisState σ} (h : (operand out depth).run s0 = .ok (type, s)) :
      AtHead out s0 depth depth (.single type) s
  | again {d : Nat} {p q : Pending} {s s1 s2 s3 : AnalysisState σ} {token taken : Token} {op : Operator} {code : List Instruction}
    {type : ValueType} (h : AtHead out s0 depth (d + 1) p s) (hpeek : peek.run s = .ok (token, s1))
    (hop : Operator.ofKind? token.kind = some op) (hway : p.makeWayFor op = .ok (q, code))
    (hnext : next.run (s1.append out code) = .ok (taken, s2)) (hright : (Descent.rightOperand out op d).run s2 = .ok (type, s3)) :
    AtHead out s0 depth d (q.shift op token.pos type) s3

theorem eq_taken_of_run_next {t : Token} (h : next.run s = .ok (t, s')) : s' = s.taken := by
  change (orFail (TokenSource.next s.source).1 : Analysis σ Token).run s.taken = _ at h
  cases hnext : (TokenSource.next s.source).1 with
  | error e =>
    rw [hnext] at h
    cases h
  | ok t' =>
    rw [hnext] at h
    cases h
    rfl

/-- The target of a cast emits nothing. -/
theorem eq_taken_of_run_castTarget (h : (Descent.rightOperand out .cast d).run s = .ok (type, s')) : s' = s.taken := by
  rw [Descent.rightOperand, if_pos rfl, map_eq_pure_bind] at h
  obtain ⟨r, s1, htype, h⟩ := run_bind_ok_iff.1 h
  cases h
  obtain ⟨t, s1, hnext, h⟩ := run_bind_ok_iff.1 htype
  obtain rfl := eq_taken_of_run_next hnext
  split at h
  · cases h
    rfl
  · cases h

namespace AtHead

/-- At its head the loop does the rest of the expression. -/
theorem run_eq (h : AtHead out s0 depth d p s) : (expression out (depth + 1)).run s0 = (operators out d p).run s := by
  induction h with
  | first h => rw [expression, run_bind_of_ok h]
  | again _ hpeek hop hway hnext hright ih =>
    rw [ih, operators_succ, pass, run_bind_of_ok hpeek]
    simp only [hop]
    rw [run_bind_of_ok (run_makeWay_ok_iff.2 ⟨_, hway, rfl⟩), run_bind_of_ok hnext, run_bind_of_ok hright]

/-- A pass that begins at a head goes on at heads only. -/
theorem run_pass_congr (h : AtHead out s0 depth (d + 1) p s) {f g : Pending → Analysis σ ValueType}
    (hfg : ∀ q s', AtHead out s0 depth d q s' → (f q).run s' = (g q).run s') :
      (pass out d f p).run s = (pass out d g p).run s := by
  refine run_bind_congr fun token s1 hpeek => ?_
  cases hop : Operator.ofKind? token.kind with
  | none => rfl
  | some op =>
    refine run_bind_congr fun q s2 hrun => run_bind_congr fun taken s3 hnext => run_bind_congr fun type s4 hright => ?_
    obtain ⟨code, hway, rfl⟩ := run_makeWay_ok_iff.1 hrun
    exact hfg _ _ (h.again hpeek hop hway hnext hright)

theorem invariant (h : AtHead out s0 depth d p s) : p.Balanced ∧ p.Rising := by
  induction h with
  | first => exact ⟨rfl, .nil⟩
  | @again d p q s s1 s2 s3 token taken op code type _ _ _ hway _ _ ih =>
    have happly := ih.1.applyWhile (·.yieldsTo op)
    rw [show Pending.applyWhile (·.yieldsTo op) p.ops p.types = .ok (q, code) from hway] at happly
    obtain ⟨hbalanced, -, hops⟩ := happly
    have hrising : q.Rising := List.Pairwise.sublist (hops ▸ List.dropWhile_sublist _) ih.2
    exact ⟨hbalanced.shift, List.pairwise_cons.2 ⟨hrising.lower hops, hrising⟩⟩

/-- A loop that makes the passes where it is at a head, whatever it does elsewhere, does as the loop over the operators does. -/
theorem run_loop_eq {loop : Nat → Pending → Analysis σ ValueType} (hzero : ∀ p, loop 0 p = breach .tooDeep)
    (hpass : ∀ d p s, AtHead out s0 depth (d + 1) p s → (loop (d + 1) p).run s = (pass out d (loop d) p).run s)
    (h : AtHead out s0 depth d p s) : (loop d p).run s = (operators out d p).run s := by
  induction d generalizing p s with
  | zero => rw [hzero, operators]
  | succ d ih => rw [hpass d p s h, operators_succ, h.run_pass_congr fun q s' hq => ih hq]

end AtHead

/-- Every pass of the loop over the operators of an expression begins at a head: the expression is compiled just so by any loop
that makes the same passes at the heads, whatever it does elsewhere. -/
theorem run_expression_eq_of_passes {loop : Nat → Pending → Analysis σ ValueType} (hzero : ∀ p, loop 0 p = breach .tooDeep)
    (hpass : ∀ d p s, AtHead out s0 depth (d + 1) p s → (loop (d + 1) p).run s = (pass out d (loop d) p).run s) :
    (operand out depth >>= fun type => loop depth (.single type)).run s0 = (expression out (depth + 1)).run s0 := by
  rw [expression]
  exact run_bind_congr fun type s hrun => AtHead.run_loop_eq hzero hpass (.first hrun)

/-- Whenever the loop over the operators of an expression is at its head, there is one type more than there are operators, and
from the bottom to the top the operators are of strictly rising precedence. So at most four operators and five types are pending.
A cast that waits is on top. Since the code of the value below its target was complete only two tokens have been taken, and as any
operator and the end make it due, its code comes next, for the value on top of the operand stack. All operators together leave one
type, and never lack an operand. -/
theorem operators_wait_in_order (h : AtHead out s0 depth d p s) :
    (expression out (depth + 1)).run s0 = (operators out d p).run s ∧
    p.types.length = p.ops.length + 1 ∧ (p.ops.Pairwise fun above below => below.op.precedence < above.op.precedence) ∧
    p.ops.length ≤ 4 ∧ p.types.length ≤ 5 ∧
    (∀ w ∈ p.ops, w.op = .cast → ∃ ops target τ types, p.ops = w :: ops ∧ p.types = target :: τ :: types ∧
      (∃ q s1 s2 token code, AtHead out s0 depth (d + 1) q s1 ∧ peek.run s1 = .ok (token, s2) ∧
        q.makeWayFor .cast = .ok (⟨ops, τ :: types⟩, code) ∧ s = (s2.append out code).taken.taken) ∧
      (∀ op, Operator.cast.yieldsTo op = true) ∧
      (∀ due : Operator → Bool, due .cast = true → Pending.applyWhile due p.ops p.types =
        match castCode τ target with
        | .ok (code, type) => (Pending.applyWhile due ops (type :: types)).map fun r => (r.1, code ++ r.2)
        | .error fault => .error ⟨w.pos, fault⟩) ∧
      ∀ code type, castCode τ target = .ok (code, type) →
        ∀ D rest, Typed D false (plain code) (τ.kinds ++ rest) (some (type.kinds ++ rest))) ∧
    (match p.finish with
      | .ok (p', _) => p'.ops = [] ∧ p'.types.length = 1
      | .error d => ∀ op, d.fault ≠ .missingOperand op) := by
  obtain ⟨hbalanced, hrising⟩ := h.invariant
  have hfour : p.ops.length ≤ 4 := hrising.length_lt fun w _ => by cases w.op <;> decide
  refine ⟨h.run_eq, hbalanced, hrising, hfour, by rw [hbalanced]; omega, fun w hw hcast => ?_, ?_⟩
  · cases h with
    | first => cases hw
    | @again _ _ q _ _ _ _ token _ op _ type h hpeek hop hway hnext hright =>
      -- no operator is above a cast, so this one came last
      obtain rfl : w = ⟨op, token.pos⟩ := by
        refine (List.mem_cons.1 hw).resolve_right fun hbelow => ?_
        have hlt := (List.pairwise_cons.1 hrising).1 w hbelow
        rw [hcast] at hlt
        exact absurd hlt (by cases op <;> simp [Operator.precedence])
      obtain rfl : op = .cast := hcast
      obtain ⟨ops, _ | ⟨τ, types⟩⟩ := q
      · cases hbalanced
      obtain rfl := eq_taken_of_run_next hnext
      obtain rfl := eq_taken_of_run_castTarget hright
      refine ⟨ops, type, τ, types, rfl, rfl, ⟨_, _, _, _, _, h, hpeek, hway, rfl⟩,
        fun op => by cases op <;> rfl, fun due hdue => ?_, fun code type hcode D rest => ?_⟩
      · exact Descent.applyWhile_of_due hdue ops τ type types
      · exact .conversion hcode rest
  · have hfinish := hbalanced.applyWhile fun _ => true
    rw [Pending.finish]
    cases happly : Pending.applyWhile (fun _ => true) p.ops p.types with
    | error d =>
      rw [happly] at hfinish
      exact hfinish
    | ok r =>
      rw [happly] at hfinish
      obtain ⟨hlength, -, hops⟩ := hfinish
      have hnone : r.1.ops = [] := by rw [hops, List.dropWhile_eq_nil_iff]; simp
      exact ⟨hnone, hlength.trans (congrArg (·.length + 1) hnone)⟩

/-- In `1 + 2 as double` two operators wait in the end. -/
theorem operators_wait_in_order_sum :
    let s0 : AnalysisState Replay := { source := .ofTokens (([.uintLit, .plus, .uintLit, .as, .double] : List TokenKind).map
      fun kind => { kind, lexeme := [], pos := ⟨1, 1⟩ }) }
    ∃ p s, AtHead .entry s0 4 2 p s ∧ p.ops.map Waiting.op = [.cast, .add] ∧ p.types.length = p.ops.length + 1 := by
  intro s0
  have hfirst : AtHead .entry s0 4 4 (.single .int) _ := .first rfl
  have hcast := (hfirst.again rfl rfl rfl rfl rfl).again rfl rfl rfl rfl rfl
  exact ⟨_, _, hcast, rfl, (operators_wait_in_order hcast).2.1⟩

end Analysis

end OnePass
