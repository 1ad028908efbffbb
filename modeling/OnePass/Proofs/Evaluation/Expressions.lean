import OnePass.Proofs.Evaluation.Correspondence

/-!
# The code of expressions

The code of an expression puts on the stack what the expression gives (`Expr.simulates`), if calls do what they should
(`World.Fits`): it works on the variables just as the evaluation does, and fails where that fails.
-/

namespace OnePass

/-! ## Code in a function -/

/-- The function has this code from a place on. -/
def Function.HasCode (f : Function) (pc : Nat) (code : List Instruction) : Prop :=
  ∀ (j : Nat) (i : Instruction), code[j]? = some i → f.code[pc + j]? = some i

namespace Function.HasCode

variable {f : Function} {pc : Nat} {i : Instruction} {code more : List Instruction}

theorem head (h : f.HasCode pc (i :: code)) : f.code[pc]? = some i := h 0 i rfl

theorem tail (h : f.HasCode pc (i :: code)) : f.HasCode (pc + 1) code := by
  intro j i' hi
  rw [Nat.add_assoc, Nat.add_comm 1 j]
  exact h (j + 1) i' hi

theorem left (h : f.HasCode pc (code ++ more)) : f.HasCode pc code := by
  intro j i hi
  exact h j i (by rw [List.getElem?_append_left (List.getElem?_eq_some_iff.1 hi).1, hi])

theorem right (h : f.HasCode pc (code ++ more)) : f.HasCode (pc + code.length) more := by
  intro j i hi
  rw [Nat.add_assoc]
  exact h _ i (by rw [List.getElem?_append_right (Nat.le_add_right _ _), Nat.add_sub_cancel_left, hi])

end Function.HasCode

/-! ## What parts of code do -/

/-- On the stack stands now what goes with a datum of the type, above the operands that were there, and the memory is laid out. -/
def Setting.Gives (A : Source) (P : List PoolEntry) (s : Setting) (ops : List UInt64) (τ : ValueType) (pc : Nat)
    (a : Datum) (m : Memory) (v : View) : Prop := ∃ G slots, v = s.view m G (ops ++ slots) pc ∧ a.Shown τ slots ∧ s.Fits A P m G

/-- On the stack stand now the slots of data of these types. -/
def Setting.GivesAll (A : Source) (P : List PoolEntry) (s : Setting) (ops : List UInt64) (types : List ValueType)
    (pc : Nat) (as : List Datum)
    (m : Memory) (v : View) : Prop := ∃ G, v = s.view m G (ops ++ as.map Datum.slot) pc ∧ HaveTypes types as ∧ s.Fits A P m G

/-- The operands are the same as before, and the memory is laid out. -/
def Setting.Stands (A : Source) (P : List PoolEntry) (s : Setting) (ops : List UInt64) (pc : Nat) (m : Memory) (v : View) :
    Prop :=
  ∃ G, v = s.view m G ops pc ∧ s.Fits A P m G

/-- A machine on the program does with literals, texts and calls what the evaluation does. -/
structure World.Fits (A : Source) (P : List PoolEntry) (p : Program) (W : World) : Prop where
  globals : p.globals = (P.map PoolEntry.global).toArray
  limit : P.length < placeLimit
  distinct : DistinctVariables P
  literal {content : Bytes} {slot : Nat} (h : P.idxOf? (.literal content) = some slot) : W.literal content = Int64.ofNat slot
  text (n : UInt64) : W.text? n = p.globals[n.toNat]?.map Global.payload
  call {k number : Nat} {params : List ValueType} {returns : ValueType} (h : A.HasFunction k number params returns) {s : Setting}
    {f : Function} {pc : Nat} {ops : List UInt64} {m : Memory} {G : Array UInt64} {args : List Datum} (hs : s.Of p f)
    (hi : f.code[pc]? = some (.withNat .call number)) (hargs : HaveTypes params args) (hm : s.Fits A P m G) :
    (s.view m G (ops ++ List.replicate returns.slots 0 ++ args.map Datum.slot) pc).Evaluates A P p W.fuel
      (s.Gives A P ops returns (pc + 1)) ((W.call k args).run m)

section

variable {A : Source} {P : List PoolEntry} {p : Program} {W : World} {s : Setting} {f : Function} {pc : Nat} {m : Memory}
  {G : Array UInt64} {ops : List UInt64} {i : Instruction} {fuel : Nat} {α : Type} {post : α → Memory → View → Prop}
variable {τ τ1 : ValueType} {a : Datum} {op : Operator} {code : List Instruction} {slots : List UInt64}
  {home : Home} {data : List Datum} {r' : Referent}

  {r : Except Halt α × Memory}

namespace Setting

variable {x : UInt64}

theorem push {more : List UInt64} (hs : s.Of p f) (hi : f.code[pc]? = some i)
    (h : Exec.Leads.Pushes (Exec.execute (s.frame pc) f (pc + 1) i) p G (s.frame (pc + 1) :: s.callers) m.console more)
    (hv : (s.view m G (ops ++ more) (pc + 1)).Evaluates A P p fuel post r) :
    (s.view m G ops pc).Evaluates A P p fuel post r := by
  rw [Setting.view, ← List.append_assoc] at hv
  exact .push hs.function hi h hv

theorem step {ops' : List UInt64} {m' : Memory} {G' : Array UInt64} {pc' : Nat} (hs : s.Of p f) (hi : f.code[pc]? = some i)
    (h : Exec.Leads (Exec.execute (s.frame pc) f (pc + 1) i) p (s.view m G ops (pc + 1)) (.ok ()) (s.view m' G' ops' pc'))
    (hv : (s.view m' G' ops' pc').Evaluates A P p fuel post r) :
    (s.view m G ops pc).Evaluates A P p fuel post r := .step' hs.function hi h hv

theorem unary {g : UInt64 → UInt64} (hs : s.Of p f) (hi : f.code[pc]? = some i) (hop : i.op.unary? = some g)
    (hv : (s.view m G (ops ++ [g x]) (pc + 1)).Evaluates A P p fuel post r) :
    (s.view m G (ops ++ [x]) pc).Evaluates A P p fuel post r := by
  refine step hs hi ?_ hv
  simp only [Setting.view, ← List.append_assoc]
  exact .execute_unary hop

theorem binary {g : UInt64 → UInt64 → UInt64} {y : UInt64} (hs : s.Of p f) (hi : f.code[pc]? = some i)
    (hop : i.op.binary? = some g) (hv : (s.view m G (ops ++ [g x y]) (pc + 1)).Evaluates A P p fuel post r) :
    (s.view m G (ops ++ [x] ++ [y]) pc).Evaluates A P p fuel post r := by
  refine step hs hi ?_ hv
  simp only [Setting.view, ← List.append_assoc]
  exact .execute_binary hop

theorem gives (ha : a.Shown τ slots) (hm : s.Fits A P m G) :
    (s.view m G (ops ++ slots) pc).Evaluates A P p fuel (s.Gives A P ops τ pc) (.ok a, m) :=
  .ok ⟨G, slots, rfl, ha, hm⟩

end Setting

theorem Evaluation.run_lift (r : Except Halt α) (m : Memory) : (Evaluation.lift r).run m = (r, m) := by cases r <;> rfl

/-! ## Operators -/

namespace Operator

/-- What a comparison gives, if the left operand is less or greater, or else equal. -/
def test (less greater : Bool) : Operator → Bool
  | gt => !less && greater
  | lt => less
  | ge => !less
  | le => less || !greater
  | eq => !less && !greater
  | _ => less || greater

theorem onInts_eq_test (h : op.isComparison = true) (a b : Int64) : op.onInts a b = .ok (.bool (op.test (a < b) (b < a))) := by
  have hlt := Int64.lt_iff_toInt_lt (x := a) (y := b)
  have hgt := Int64.lt_iff_toInt_lt (x := b) (y := a)
  have hle := Int64.le_iff_toInt_le (x := a) (y := b)
  have hge := Int64.le_iff_toInt_le (x := b) (y := a)
  have heq := Int64.toInt_inj (x := a) (y := b)
  cases op with
  | lt => rfl
  | gt | ge | le | eq | ne =>
    simp only [onInts, test, Except.ok.injEq, Datum.bool.injEq]
    grind
  | _ => cases h

theorem onDoubles_eq_test (h : op.isComparison = true) (a b : UInt64) :
    op.onDoubles a b = .ok (.bool (op.test (Double.lt a b) (Double.lt b a))) := by
  have hgt : ∀ less greater, decide (order less greater = .gt) = test less greater gt := by decide
  have hlt : ∀ less greater, decide (order less greater = .lt) = test less greater lt := by decide
  have hge : ∀ less greater, decide (order less greater ≠ .lt) = test less greater ge := by decide
  have hle : ∀ less greater, decide (order less greater ≠ .gt) = test less greater le := by decide
  have heq : ∀ less greater, decide (order less greater = .eq) = test less greater eq := by decide
  have hne : ∀ less greater, decide (order less greater ≠ .eq) = test less greater ne := by decide
  cases op with
  | gt => rw [onDoubles, hgt]
  | lt => rw [onDoubles, hlt]
  | ge => rw [onDoubles, hge]
  | le => rw [onDoubles, hle]
  | eq => rw [onDoubles, heq]
  | ne => rw [onDoubles, hne]
  | _ => cases h

end Operator

/-- What makes a truth value out of an order. -/
theorem Setting.tests {less greater : Bool} (hs : s.Of p f) (hcode : f.HasCode pc (op.tests.map fun op => { op }))
    (hop : op.isComparison = true) (hm : s.Fits A P m G) :
    (s.view m G (ops ++ [Exec.order less greater]) pc).Evaluates A P p fuel
      (s.Gives A P ops .bool (pc + op.tests.length)) (.ok (.bool (op.test less greater)), m) := by
  have hshown (b : Bool) (x : UInt64) (h : b = true ↔ x ≠ 0) : Datum.Shown .bool (.bool b) [x] := .bool h
  cases op with
  | gt =>
    refine unary hs hcode.head rfl (gives (hshown _ _ ?_) hm)
    cases less <;> cases greater <;> decide
  | lt =>
    refine unary hs hcode.head rfl (gives (hshown _ _ ?_) hm)
    cases less <;> cases greater <;> decide
  | ge =>
    refine unary hs hcode.head rfl (unary hs hcode.tail.head rfl (gives (hshown _ _ ?_) hm))
    cases less <;> cases greater <;> decide
  | le =>
    refine unary hs hcode.head rfl (unary hs hcode.tail.head rfl (gives (hshown _ _ ?_) hm))
    cases less <;> cases greater <;> decide
  | eq =>
    refine unary hs hcode.head rfl (gives (hshown _ _ ?_) hm)
    cases less <;> cases greater <;> decide
  | ne =>
    refine gives (hshown _ _ ?_) hm
    cases less <;> cases greater <;> decide
  | _ => cases hop

/-- Dividing integers fails if the divisor is zero. -/
theorem Setting.divide {x y : Int64} (hs : s.Of p f) (hi : f.code[pc]? = some { op := .divI }) (hm : s.Fits A P m G) :
    (s.view m G (ops ++ [x.toUInt64] ++ [y.toUInt64]) pc).Evaluates A P p fuel (s.Gives A P ops .int (pc + 1))
      (Operator.div.onInts x y, m) := by
  rw [Operator.onInts]
  by_cases hy : y = 0
  · subst hy
    rw [if_pos rfl]
    have hfault : Exec.Leads (Exec.execute (s.frame pc) f (pc + 1) { op := .divI }) p
        ⟨G, s.lower ++ s.cells m ++ ops ++ [x.toUInt64] ++ [0], s.frame (pc + 1) :: s.callers, m.console⟩ (.error .divideByZero)
        ⟨G, s.lower ++ s.cells m ++ ops, s.frame (pc + 1) :: s.callers, m.console⟩ := .execute_divI_zero rfl
    simp only [Setting.view, ← List.append_assoc]
    exact .fault hs.function hi hfault nofun (List.cons_ne_nil _ _) hm.globals rfl
  · rw [if_neg hy]
    have hslot : y.toUInt64 ≠ 0 := fun h => hy (by rw [← Int64.toInt64_toUInt64 y, h]; rfl)
    refine step hs hi ?_ (gives (.int (x / y)) hm)
    rw [← Int64.toInt64_toUInt64 x, ← Int64.toInt64_toUInt64 y, UInt64.toUInt64_toInt64, UInt64.toUInt64_toInt64]
    simp only [Setting.view, ← List.append_assoc]
    exact .execute_divI rfl hslot

theorem Setting.operator {τ2 : ValueType} {b : Datum} {left right : List UInt64} (hs : s.Of p f) (hcode : f.HasCode pc code)
    (hop : op.code τ1 τ2 = .ok (code, τ)) (hcast : op ≠ .cast) (ha : a.Shown τ1 left) (hb : b.Shown τ2 right)
    (hm : s.Fits A P m G) :
    (s.view m G (ops ++ left ++ right) pc).Evaluates A P p fuel (s.Gives A P ops τ (pc + code.length))
      (op.apply a b, m) := by
  have hint (n : Int64) : n.toUInt64.toInt64 = n := Int64.toInt64_toUInt64 n
  rcases Operator.code_ok hop hcast with ⟨onInt, onDouble, hopcodes, h⟩ | ⟨hcmp, h⟩
  · rcases Operator.arithmetic_ok h with ⟨rfl, rfl, rfl, rfl⟩ | ⟨rfl, rfl, rfl, rfl⟩
    · cases ha with | int x => cases hb with | int y =>
      cases op with
      | add | sub | mul =>
        cases hopcodes
        refine binary hs hcode.head rfl (gives ?_ hm)
        rw [hint, hint]
        exact .int _
      | div =>
        cases hopcodes
        exact divide hs hcode.head hm
      | _ => cases hopcodes
    · cases ha with | double x => cases hb with | double y =>
      cases op with
      | add | sub | mul | div =>
        cases hopcodes
        exact binary hs hcode.head rfl (gives (.double _) hm)
      | _ => cases hopcodes
  · obtain ⟨hcases, rfl⟩ := Operator.comparison_ok h
    rcases hcases with ⟨rfl, rfl, rfl⟩ | ⟨rfl, rfl, rfl⟩
    · cases ha with | int x => cases hb with | int y =>
      rw [Operator.apply, Operator.onInts_eq_test hcmp, List.length_cons, List.length_map, Nat.add_comm op.tests.length,
        ← Nat.add_assoc]
      refine binary hs hcode.head rfl ?_
      rw [hint, hint]
      exact tests hs hcode.tail hcmp hm
    · cases ha with | double x => cases hb with | double y =>
      rw [Operator.apply, Operator.onDoubles_eq_test hcmp, List.length_cons, List.length_map, Nat.add_comm op.tests.length,
        ← Nat.add_assoc]
      exact binary hs hcode.head rfl (tests hs hcode.tail hcmp hm)

theorem Setting.conversion {target : TypeName} (hs : s.Of p f) (hcode : f.HasCode pc code)
    (hop : Operator.cast.code τ1 target.type = .ok (code, τ)) (ha : a.Shown τ1 slots) (hm : s.Fits A P m G) :
    (s.view m G (ops ++ slots) pc).Evaluates A P p fuel (s.Gives A P ops τ (pc + code.length))
      (a.convert target, m) := by
  obtain ⟨rfl, h⟩ := Operator.cast_ok hop
  rcases h with ⟨rfl, hnumber, rfl⟩ | ⟨rfl, htarget, rfl⟩ | ⟨rfl, htarget, rfl⟩
  · cases target with
    | int => cases ha with | int x => exact gives (.int x) hm
    | double => cases ha with | double x => exact gives (.double x) hm
    | void => simp [TypeName.type] at hnumber
  · cases target with
    | double =>
      cases ha with | int x =>
      refine unary hs hcode.head rfl (gives ?_ hm)
      rw [Int64.toInt64_toUInt64]
      exact .double _
    | _ => cases htarget
  · cases target with
    | int => cases ha with | double x => exact unary hs hcode.head rfl (gives (.int _) hm)
    | _ => cases htarget

/-! ## Primitives -/

theorem HaveTypes.eq_nil (h : HaveTypes [] data) : data = [] := List.length_eq_zero_iff.1 h.length

theorem HaveTypes.eq_singleton (h : HaveTypes [τ] data) : ∃ a, data = [a] ∧ a.HasType τ := by
  obtain ⟨a, rfl⟩ := List.length_eq_one_iff.1 h.length
  obtain ⟨a', ha', htype⟩ := h.get (i := 0) rfl
  cases ha'
  exact ⟨a, rfl, htype⟩

/-- What a primitive gives to the evaluation and to the machine. -/
structure Primitive.Alike (returns : ValueType) (r : Except Halt Datum × Console)
    (r' : Except MachineFault (List UInt64) × Console) : Prop where
  console : r.2 = r'.2
  result : (∃ a slots, r.1 = .ok a ∧ r'.1 = .ok slots ∧ a.Shown returns slots) ∨
    ∃ e, r.1 = .error (.fault e) ∧ r'.1 = .error e ∧ e ≠ .beyondStack

namespace Primitive

/-- A text that is printed, or the fault if there is none. -/
theorem alike_text (g : Option Global) (c : Console) (n : UInt64) :
    Alike .void
      (match g.map Global.payload with
        | some text => (.ok .void, c.write text)
        | none => (.error (.fault (.noText n)), c))
      (match g with
        | some g => (.ok [], c.write g.payload)
        | none => (.error (.noText n), c)) := by
  cases g with
  | none => exact ⟨rfl, .inr ⟨_, rfl, rfl, nofun⟩⟩
  | some g => exact ⟨rfl, .inl ⟨_, _, rfl, rfl, .void⟩⟩

theorem alike_perform {text? : UInt64 → Option Bytes} (htext : ∀ n, text? n = p.globals[n.toNat]?.map Global.payload)
    {primitive : Primitive} {args : List Datum} (hargs : HaveTypes primitive.signature.params args) (c : Console) :
    Alike primitive.signature.returns (primitive.perform text? c args) (primitive.respond p c (args.map Datum.slot)) := by
  cases primitive with
  | getint =>
    obtain rfl := hargs.eq_nil
    change Alike .int (getint.given c .int (Input.readInt c.input)) _
    rw [respond]
    rcases Input.readInt c.input with ⟨e | n, rest⟩
    · exact ⟨rfl, .inr ⟨_, rfl, rfl, by simp⟩⟩
    · exact ⟨rfl, .inl ⟨_, _, rfl, rfl, .int n⟩⟩
  | getchar =>
    obtain rfl := hargs.eq_nil
    change Alike .int (getchar.given c (fun b => .int b.toInt64) (Exec.readByte c.input)) _
    rw [respond]
    rcases Exec.readByte c.input with ⟨e | b, rest⟩
    · exact ⟨rfl, .inr ⟨_, rfl, rfl, by simp⟩⟩
    · have hshown : Datum.Shown .int (.int b.toInt64) [b] := by simpa using .int b.toInt64
      exact ⟨rfl, .inl ⟨_, _, rfl, rfl, hshown⟩⟩
  | getdouble =>
    obtain rfl := hargs.eq_nil
    change Alike .double (getdouble.given c .double (Input.readDouble c.input)) _
    rw [respond]
    rcases Input.readDouble c.input with ⟨e | x, rest⟩
    · exact ⟨rfl, .inr ⟨_, rfl, rfl, by simp⟩⟩
    · exact ⟨rfl, .inl ⟨_, _, rfl, rfl, .double x⟩⟩
  | putint =>
    obtain ⟨a, rfl, ha⟩ := hargs.eq_singleton
    cases ha with | int n =>
    have hint : n.toUInt64.toInt64 = n := Int64.toInt64_toUInt64 n
    refine ⟨?_, .inl ⟨_, _, rfl, rfl, .void⟩⟩
    change c.write (Bytes.ofInt n.toInt) = c.write (Bytes.ofInt n.toUInt64.toInt64.toInt)
    rw [hint]
  | putchar =>
    obtain ⟨a, rfl, ha⟩ := hargs.eq_singleton
    cases ha with | int n => exact ⟨rfl, .inl ⟨_, _, rfl, rfl, .void⟩⟩
  | putstr =>
    obtain ⟨a, rfl, ha⟩ := hargs.eq_singleton
    cases ha with | int n =>
    have halike := alike_text p.globals[n.toUInt64.toNat]? c n.toUInt64
    rw [← htext] at halike
    exact halike
  | putdouble =>
    obtain ⟨a, rfl, ha⟩ := hargs.eq_singleton
    cases ha with | double x => exact ⟨rfl, .inl ⟨_, _, rfl, rfl, .void⟩⟩
  | putln =>
    obtain rfl := hargs.eq_nil
    exact ⟨rfl, .inl ⟨_, _, rfl, rfl, .void⟩⟩

end Primitive

theorem Setting.primitive {x : Bytes} {primitive : Primitive} {slot : Nat} {args : List Datum} (hW : W.Fits A P p) (hs : s.Of p f)
    (hi : f.code[pc]? = some (.withNat .callName slot)) (hslot : P[slot]? = some (.primitive x))
    (hprimitive : Primitive.ofName? x = some primitive) (hargs : HaveTypes primitive.signature.params args)
    (hm : s.Fits A P m G) :
    (s.view m G (ops ++ List.replicate primitive.signature.returns.slots 0 ++ args.map Datum.slot) pc).Evaluates A P p fuel
      (s.Gives A P ops primitive.signature.returns (pc + 1)) ((Evaluation.perform W primitive args).run m) := by
  have hglobal : p.globals[slot]? = some (PoolEntry.primitive x).global := by
    rw [hW.globals, List.getElem?_toArray, List.getElem?_map, hslot]
    rfl
  have hoperand : (Instruction.withNat .callName slot).operand.toInt = slot :=
    toInt_withNat (Nat.lt_trans (List.getElem?_eq_some_iff.1 hslot).1 hW.limit)
  have hlength : (args.map Datum.slot).length = primitive.signature.params.length := by rw [List.length_map, hargs.length]
  have hbefore : (List.replicate primitive.signature.returns.slots (0 : UInt64)).length = primitive.signature.returns.slots :=
    List.length_replicate
  have hcall : Exec.Leads (Exec.execute (s.frame pc) f (pc + 1) (.withNat .callName slot)) p
      (s.view m G (ops ++ List.replicate primitive.signature.returns.slots 0 ++ args.map Datum.slot) (pc + 1))
      ((primitive.respond p m.console (args.map Datum.slot)).1.map fun _ => ())
      ⟨G, s.lower ++ s.cells m ++ ops ++ Exec.Leads.outcome (primitive.respond p m.console (args.map Datum.slot)).1
        (List.replicate primitive.signature.returns.slots 0), s.frame (pc + 1) :: s.callers,
        (primitive.respond p m.console (args.map Datum.slot)).2⟩ := by
    rw [Setting.view, ← List.append_assoc, ← List.append_assoc]
    exact .execute_callName rfl hoperand (.callPrimitive hglobal hprimitive hbefore hlength)
  have hrun : (Evaluation.perform W primitive args).run m =
      ((primitive.perform W.text? m.console args).1, { m with console := (primitive.perform W.text? m.console args).2 }) := by
    rw [Evaluation.perform, Evaluation.run_get_bind, Evaluation.run_bind]
    exact Evaluation.run_lift _ _
  have hglobals (c : Console) : ({ m with console := c } : Memory).InSlots A P G := hm.globals.of_globals_eq rfl
  obtain ⟨hconsole, ⟨a, slots, ha, hslots, hshown⟩ | ⟨e, he, hfault, hne⟩⟩ := Primitive.alike_perform hW.text hargs m.console
  · rw [hslots] at hcall
    rw [hrun, ha, hconsole]
    refine .step' hs.function hi hcall (.ok ⟨G, slots, ?_, hshown, hm.arguments, hm.locals, hglobals _⟩)
    simp only [Setting.view, ← List.append_assoc]
    rfl
  · rw [hfault] at hcall
    rw [hrun, he, hconsole]
    exact .fault hs.function hi hcall hne (List.cons_ne_nil _ _) (hglobals _) rfl

/-! ## Variables -/

theorem Referent.console_write (a : Datum) (m : Memory) (r : Referent) : (r.write a m).console = m.console := by cases r <;> rfl

theorem Evaluation.run_load {r : Referent} (h : r.read? m = some a) : (Evaluation.load r).run m = (.ok a, m) := by
  rw [Evaluation.load, Evaluation.run_get_bind, h]
  rfl

/-- Loading a variable. -/
theorem Setting.load {r : Referent} (hW : W.Fits A P p) (hs : s.Of p f) (hcode : f.HasCode pc [home.address, { op := .load }])
    (hr : home.Means A P s τ r) (hm : s.Fits A P m G) :
    (s.view m G ops pc).Evaluates A P p fuel (s.Gives A P ops τ (pc + 2)) ((Evaluation.load r).run m) := by
  obtain ⟨a, ha, htype, hread⟩ := hr.read (p := p) hm hW.limit
  rw [Evaluation.run_load ha]
  refine push hs hcode.head (hr.pushes hs hm.globals.size hW.limit pc (pc + 1)) (step hs hcode.tail.head ?_ (gives htype hm))
  simp only [Setting.view, ← List.append_assoc]
  exact .execute_load rfl (hread _ _ _)

/-- Storing a datum in a variable, whose address is beneath it. -/
theorem Setting.store (hW : W.Fits A P p) (hs : s.Of p f) (hi : f.code[pc]? = some { op := .store }) (hτ : τ.IsStored)
    (hr : home.Means A P s τ r') (ha : a.Shown τ slots) (hm : s.Fits A P m G)
    (hv : ∀ G', s.Fits A P (r'.write a m) G' → (s.view (r'.write a m) G' ops (pc + 1)).Evaluates A P p fuel post r) :
    (s.view m G (ops ++ [s.addressOf home] ++ slots) pc).Evaluates A P p fuel post r := by
  obtain ⟨htype, rfl⟩ := ha.hasType hτ
  obtain ⟨G', hm', hwrite⟩ := hr.write (p := p) hm hW.limit hW.distinct htype
  refine step hs hi ?_ (hv G' hm')
  simp only [Setting.view, ← List.append_assoc, Referent.console_write]
  exact .execute_store rfl (hwrite _ _ _)

/-- Giving a variable what a part of an evaluation gives. -/
theorem Setting.assign {x : Evaluation Datum} (hW : W.Fits A P p) (hs : s.Of p f)
    (hcode : f.HasCode pc (home.address :: code ++ [{ op := .store }])) (hτ : τ.IsStored) (hr : home.Means A P s τ r')
    (hm : s.Fits A P m G) (hx : (s.view m G (ops ++ [s.addressOf home]) (pc + 1)).Evaluates A P p W.fuel
      (s.Gives A P (ops ++ [s.addressOf home]) τ (pc + 1 + code.length)) (x.run m)) :
    (s.view m G ops pc).Evaluates A P p W.fuel (fun _ => s.Stands A P ops (pc + 1 + code.length + 1))
      ((x >>= Evaluation.store r').run m) := by
  have hstore : f.code[pc + 1 + code.length]? = some { op := .store } := by
    have := hcode.right.head
    rwa [List.length_cons, Nat.add_comm code.length, ← Nat.add_assoc] at this
  refine push hs hcode.head (hr.pushes hs hm.globals.size hW.limit pc (pc + 1))
    (hx.bind fun a m' v ⟨G', slots, hv, ha, hm'⟩ => ?_)
  subst hv
  exact store hW hs hstore hτ hr ha hm' fun G'' hm'' => .ok ⟨G'', rfl, hm''⟩

/-- A call, from the slot for its result on. -/
theorem Setting.call {x : Evaluation (List Datum)} {g : List Datum → Evaluation Datum} {params : List ValueType}
    {returns : ValueType} (hs : s.Of p f) (hcode : f.HasCode pc (.withNat .stackAlloc returns.slots :: code ++ [i]))
    (hx : (s.view m G (ops ++ List.replicate returns.slots 0) (pc + 1)).Evaluates A P p W.fuel
      (s.GivesAll A P (ops ++ List.replicate returns.slots 0) params (pc + 1 + code.length)) (x.run m))
    (hg : ∀ {args m G}, f.code[pc + 1 + code.length]? = some i → HaveTypes params args →
      s.Fits A P m G → (s.view m G (ops ++ List.replicate returns.slots 0 ++ args.map Datum.slot)
        (pc + 1 + code.length)).Evaluates A P p W.fuel
      (s.Gives A P ops returns (pc + 1 + code.length + 1)) ((g args).run m)) :
    (s.view m G ops pc).Evaluates A P p W.fuel
      (s.Gives A P ops returns (pc + (.withNat .stackAlloc returns.slots :: code ++ [i]).length)) ((x >>= g).run m) := by
  have hslots : returns.slots < placeLimit := Nat.lt_of_le_of_lt (by unfold ValueType.slots; split <;> decide)
    (show 1 < placeLimit by decide)
  have hi : f.code[pc + 1 + code.length]? = some i := by
    have := hcode.right.head
    rwa [List.length_cons, Nat.add_comm code.length, ← Nat.add_assoc] at this
  have hlength : pc + (.withNat .stackAlloc returns.slots :: code ++ [i]).length = pc + 1 + code.length + 1 := by
    simp only [List.length_append, List.length_cons, List.length_nil]
    omega
  rw [hlength]
  refine push hs hcode.head (Exec.Leads.pushes_execute_stackAlloc rfl (toInt_withNat hslots))
    (hx.bind fun as m' v ⟨G', hv, has, hm'⟩ => ?_)
  subst hv
  exact hg hi has hm'

/-! ## Expressions -/

theorem Evaluation.find_eq_pure {E : Environment} {x : Bytes} {r : Referent} (h : E.lookup x = some r) :
    Evaluation.find E x = pure r := by
  rw [Evaluation.find, h]

mutual

/-- The code of an expression does what evaluating it does, and leaves on the stack what it gives. -/
theorem Expr.simulates (hW : W.Fits A P p) (hs : s.Of p f) {N : Scope} {E : Environment} (hN : N.Means A P s E) :
    ∀ (e : Expr) {τ code}, e.Emits P N τ code →
      ∀ {pc ops m G}, f.HasCode pc code → s.Fits A P m G →
        (s.view m G ops pc).Evaluates A P p W.fuel (s.Gives A P ops τ (pc + code.length)) ((e.eval W E).run m)
  | .int n, _, _, .int _, pc, ops, m, G, hcode, hm => by
    rw [Expr.eval]
    exact Setting.push hs hcode.head (Exec.Leads.pushes_execute_push rfl) (Setting.gives (.int n) hm)
  | .double bits, _, _, .double _, pc, ops, m, G, hcode, hm => by
    have hshown : Datum.Shown .double (.double bits) [bits.toInt64.toUInt64] := by
      rw [UInt64.toUInt64_toInt64]
      exact .double bits
    rw [Expr.eval]
    exact Setting.push hs hcode.head (Exec.Leads.pushes_execute_push rfl) (Setting.gives hshown hm)
  | .text _ content, _, _, .text _ hslot, pc, ops, m, G, hcode, hm => by
    rw [Expr.eval, hW.literal hslot]
    exact Setting.push hs hcode.head (Exec.Leads.pushes_execute_push rfl) (Setting.gives (.int _) hm)
  | .name x, _, _, .name hx, pc, ops, m, G, hcode, hm => by
    obtain ⟨r, hr, -, hmeans⟩ := hN.lookup hx
    rw [Expr.eval, Evaluation.find_eq_pure hr, pure_bind]
    exact Setting.load hW hs hcode hmeans hm
  | .assign x value, _, _, .assign hx hvalue, pc, ops, m, G, hcode, hm => by
    obtain ⟨r, hr, hτ, hmeans⟩ := hN.lookup hx
    simp only [Expr.eval, Evaluation.find_eq_pure hr, pure_bind]
    rw [← bind_assoc]
    refine (Setting.assign hW hs hcode hτ hmeans hm (value.simulates hW hs hN hvalue hcode.left.tail hm)).bind
      fun _ m' v ⟨G', hv, hm'⟩ => .ok ⟨G', [], ?_, .void, hm'⟩
    rw [hv, List.append_nil]
    congr 1
    simp only [List.length_append, List.length_cons, List.length_nil]
    omega
  | .call f args, _, _, .function hf hargs, pc, ops, m, G, hcode, hm => by
    obtain ⟨r, hr, hfunction⟩ := hN.lookup hf
    cases r with
    | function k =>
      rw [Expr.eval]
      refine Setting.call hs hcode (args.simulates hW hs hN hargs hfunction.plain.1 hcode.left.tail hm) fun hi has hm' => ?_
      rw [Evaluation.invoke, hr]
      exact hW.call hfunction hs hi has hm'
    | _ => exact hfunction.elim
  | .call f args, _, _, .primitive hf hroutine hslot hargs, pc, ops, m, G, hcode, hm => by
    rw [Expr.eval]
    refine Setting.call hs hcode (args.simulates hW hs hN hargs (Primitive.isPlain_signature _).1 hcode.left.tail hm)
      fun hi has hm' => ?_
    rw [Evaluation.invoke, hN.lookup_none hf, hroutine]
    exact Setting.primitive hW hs hi (getElem?_of_idxOf? hslot) hroutine has hm'
  | .paren e, _, _, .paren he, pc, ops, m, G, hcode, hm => by
    rw [Expr.eval]
    exact e.simulates hW hs hN he hcode hm
  | .neg e, _, _, .negInt he, pc, ops, m, G, hcode, hm => by
    rw [Expr.eval]
    refine (e.simulates hW hs hN he hcode.left hm).bind fun a m' v ⟨G', slots, hv, ha, hm'⟩ => ?_
    subst hv
    cases ha with | int n =>
    rw [Evaluation.run_lift, List.length_append, ← Nat.add_assoc]
    refine Setting.unary hs hcode.right.head rfl (Setting.gives ?_ hm')
    rw [Int64.toInt64_toUInt64]
    exact .int (-n)
  | .neg e, _, _, .negDouble he, pc, ops, m, G, hcode, hm => by
    rw [Expr.eval]
    refine (e.simulates hW hs hN he hcode.left hm).bind fun a m' v ⟨G', slots, hv, ha, hm'⟩ => ?_
    subst hv
    cases ha with | double bits =>
    rw [Evaluation.run_lift, List.length_append, ← Nat.add_assoc]
    exact Setting.unary hs hcode.right.head rfl (Setting.gives (.double _) hm')
  | .binary op left right, _, _, .binary hcast hleft hright hop, pc, ops, m, G, hcode, hm => by
    rw [Expr.eval]
    refine (left.simulates hW hs hN hleft hcode.left.left hm).bind fun a m' v ⟨G', slots, hv, ha, hm'⟩ => ?_
    subst hv
    refine (right.simulates hW hs hN hright hcode.left.right hm').bind fun b m'' v ⟨G'', slots', hv, hb, hm''⟩ => ?_
    subst hv
    have hmore := hcode.right
    rw [List.length_append, ← Nat.add_assoc] at hmore
    rw [Evaluation.run_lift, List.length_append, List.length_append, ← Nat.add_assoc, ← Nat.add_assoc]
    exact Setting.operator hs hmore hop hcast ha hb hm''
  | .cast e target, _, _, .cast he hop, pc, ops, m, G, hcode, hm => by
    rw [Expr.eval]
    refine (e.simulates hW hs hN he hcode.left hm).bind fun a m' v ⟨G', slots, hv, ha, hm'⟩ => ?_
    subst hv
    rw [Evaluation.run_lift, List.length_append, ← Nat.add_assoc]
    exact Setting.conversion hs hcode.right hop ha hm'

/-- The code of arguments leaves them all on the stack. -/
theorem Args.simulates (hW : W.Fits A P p) (hs : s.Of p f) {N : Scope} {E : Environment} (hN : N.Means A P s E) :
    ∀ (args : Args) {params code}, args.Emits P N params code → (∀ τ ∈ params, τ.IsStored) →
      ∀ {pc ops m G}, f.HasCode pc code → s.Fits A P m G →
        (s.view m G ops pc).Evaluates A P p W.fuel (s.GivesAll A P ops params (pc + code.length))
          ((args.eval W E).run m)
  | .nil, _, _, .nil, _, pc, ops, m, G, hcode, hm => by
    rw [Args.eval]
    exact .ok ⟨G, by rw [List.map_nil, List.append_nil]; rfl, ⟨rfl, nofun⟩, hm⟩
  | .cons first rest, _, _, .cons hfirst hrest, hparams, pc, ops, m, G, hcode, hm => by
    obtain ⟨hτ, hparams⟩ := List.forall_mem_cons.1 hparams
    rw [Args.eval]
    refine (first.simulates hW hs hN hfirst hcode.left hm).bind fun a m' v ⟨G', slots, hv, ha, hm'⟩ => ?_
    subst hv
    obtain ⟨htype, rfl⟩ := ha.hasType hτ
    refine (rest.simulates hW hs hN hrest hparams hcode.right hm').bind fun as m'' v ⟨G'', hv, has, hm''⟩ => ?_
    subst hv
    refine .ok ⟨G'', ?_, has.cons htype, hm''⟩
    rw [List.length_append, Nat.add_assoc, List.append_assoc]
    rfl

end

end

end OnePass
