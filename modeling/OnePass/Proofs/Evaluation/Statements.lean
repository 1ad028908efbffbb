import OnePass.Proofs.Evaluation.Expressions

/-!
# The code of statements

The code of a statement does what carrying it out does (`Stmt.simulates`): it comes to the place behind it, to the start or the
end of the loop around it, or back to the caller, just as the statement is completed (`Setting.Ends`). A loop is followed round by
round, and each round takes the machine a step at least.
-/

namespace OnePass

variable {flow other : Flow} {code : List Instruction} {a : Datum} {slots : List UInt64} {pc : Nat} {τ : ValueType}

/-! ## Items in a function -/

@[simp] theorem length_testCode (code : List Instruction) : (testCode code).length = code.length + 1 := List.length_append

/-- A condition, the item that is skipped if it holds, and what follows. -/
theorem closedFrom_test (first stop place : Nat) (test : List Instruction) (item : Item) (items : List Item) :
    closedFrom first stop place (plain (testCode test) ++ item :: items) =
      testCode test ++ item.close first stop (place + test.length + 1) :: closedFrom first stop
        (place + test.length + 2) items := by
  rw [closedFrom_append, closedFrom_plain, closedFrom_cons, plain, List.length_map, length_testCode]
  rfl

theorem Function.HasCode.length_le {f : Function} (h : f.HasCode pc code) (hne : code ≠ []) : pc + code.length ≤ f.code.size := by
  have hlength := List.length_pos_iff.2 hne
  have hlast := h (code.length - 1) _ (List.getElem?_eq_getElem (by omega))
  have := (Array.getElem?_eq_some_iff.1 hlast).1
  omega

/-! ## What statements do -/

/-- The statement is completed like this: the machine stands behind its code, if there is a way there, or at the end or the start
of the loop around it, or it is back in the caller, with the result on the stack. -/
def Setting.Ends (A : Source) (P : List PoolEntry) (s : Setting) (inLoop : Bool) (first stop : Nat) (flow : Flow) (pc : Nat) :
    Completion → Memory → View → Prop
  | .normal, m, v => flow.leaves = false ∧ s.Stands A P [] pc m v
  | .break, m, v => inLoop = true ∧ s.Stands A P [] stop m v
  | .continue, m, v => inLoop = true ∧ s.Stands A P [] first m v
  | .return a, m, v => ∃ G slots, v = ⟨G, s.lower ++ slots, s.callers, m.console⟩ ∧ a.Shown s.returns slots ∧ m.InSlots A P G

/-- A function of the program is at work, called by another. -/
structure Setting.Runs (A : Source) (P : List PoolEntry) (p : Program) (W : World) (f : Function) (D : Declared) (s : Setting) :
    Prop where
  world : W.Fits A P p
  function : s.Of p f
  limit : f.code.size < placeLimit
  callers : s.callers ≠ []
  locals : D.locals = s.locals

theorem Flow.leaves_both_left (h : flow.leaves = false) : (flow.both other).leaves = false := by
  obtain ⟨hreturns, hbreaks⟩ := Bool.or_eq_false_iff.1 h
  simp [Flow.leaves, Flow.both, hreturns, hbreaks]

theorem Flow.leaves_both_right (h : other.leaves = false) : (flow.both other).leaves = false := by
  obtain ⟨hreturns, hbreaks⟩ := Bool.or_eq_false_iff.1 h
  simp [Flow.leaves, Flow.both, hreturns, hbreaks]

theorem Setting.Ends.mono {A : Source} {P : List PoolEntry} {s : Setting} {inLoop : Bool} {first stop : Nat} {flow' : Flow}
    {c : Completion} {m : Memory} {v : View} (h : s.Ends A P inLoop first stop flow pc c m v)
    (hflow : flow.leaves = false → flow'.leaves = false) : s.Ends A P inLoop first stop flow' pc c m v := by
  cases c with
  | normal => exact ⟨hflow h.1, h.2⟩
  | _ => exact h

theorem Datum.Shown.length_eq (h : a.Shown τ slots) : slots.length = τ.slots := by
  cases h <;> rfl

theorem Datum.Shown.holds (h : a.Shown τ slots) (hτ : τ ≠ .void) : ∃ x, slots = [x] ∧ a.holds? = some (x != 0) := by
  cases h with
  | void => exact absurd rfl hτ
  | int n =>
    refine ⟨_, rfl, congrArg some (Bool.eq_iff_iff.2 ?_)⟩
    rw [bne_iff_ne, bne_iff_ne]
    exact not_congr ⟨fun h => by rw [h]; rfl, fun h => by rw [← Int64.toInt64_toUInt64 n, h]; rfl⟩
  | double bits => exact ⟨_, rfl, rfl⟩
  | bool h => exact ⟨_, rfl, congrArg some (Bool.eq_iff_iff.2 (h.trans bne_iff_ne.symm))⟩

section

variable {A : Source} {P : List PoolEntry} {p : Program} {W : World} {s : Setting} {f : Function}
  {D : Declared} {pc first stop : Nat}
  {m : Memory} {G : Array UInt64} {ops : List UInt64} {fuel : Nat} {α : Type} {post : α → Memory → View → Prop}
variable {items : List Item}

  {r : Except Halt α × Memory} {N : Scope} {E : Environment} {τ : ValueType} {inLoop : Bool}

namespace Setting

variable {cond : Expr} {test : List Instruction} {body : Evaluation Completion}

/-- A branch to a place of the function, or to its end. -/
theorem jump {distance : Int} {target : Nat} (h : s.Runs A P p W f D) (hi : f.code[pc]? = some (branchBy distance))
    (hdistance : distance = target - (pc + 1)) (htarget : target ≤ f.code.size)
    (hv : (s.view m G ops target).Evaluates A P p fuel post r) :
    (s.view m G ops pc).Evaluates A P p fuel post r := by
  have hlimit := h.limit
  have hpc := (Array.getElem?_eq_some_iff.1 hi).1
  have hplace : (Int64.ofNat (pc + 1) + (branchBy distance).operand).toInt = target := by
    unfold placeLimit at hlimit
    rw [Int64.toInt_add, Int64.toInt_ofNat_of_lt (by omega), toInt_branchBy (by omega) (by omega), hdistance]
    exact (congrArg (Int.bmod · _) (by omega)).trans (Int.bmod_eq_of_le (by omega) (by omega))
  exact step h.function hi (.execute_br rfl hplace htarget) hv

/-- A condition and the instruction behind it, which a machine skips if the condition holds. -/
theorem condition {g : Bool → Evaluation α} {less : Nat} (h : s.Runs A P p W f D) (hN : N.Means A P s E)
    (hcond : cond.Emits P N τ test)
    (hτ : τ ≠ .void) (hcode : f.HasCode pc (testCode test)) (hsize : pc + test.length + 2 ≤ f.code.size) (hless : less ≤ W.fuel)
    (hfuel : less ≤ fuel + 1) (hm : s.Fits A P m G) (htrue : ∀ {m G}, s.Fits A P m G →
      (s.view m G [] (pc + test.length + 2)).Evaluates A P p fuel post ((g true).run m))
    (hfalse : ∀ {m G}, s.Fits A P m G →
      (s.view m G [] (pc + test.length + 1)).Evaluates A P p fuel post ((g false).run m)) :
    (s.view m G [] pc).Evaluates A P p less post ((cond.test W E >>= g).run m) := by
  have heval : (s.view m G [] pc).Evaluates A P p W.fuel (s.Gives A P [] τ (pc + test.length)) ((cond.eval W E).run m) :=
    cond.simulates h.world h.function hN hcond hcode.left hm
  rw [Expr.test, bind_assoc]
  refine (heval.mono hless fun _ _ _ h => h).bind fun a m' v ⟨G', slots, hv, ha, hm'⟩ => ?_
  obtain ⟨x, rfl, hholds⟩ := ha.holds hτ
  subst hv
  have hbr : f.code[pc + test.length]? = some { op := .brTrue, operand := 1 } := hcode.right.head
  have hlimit := h.limit
  have hplace : (Int64.ofNat (pc + test.length + 1) + ({ op := .brTrue, operand := 1 } : Instruction).operand).toInt =
      (pc + test.length + 2 : Nat) := by
    have hone : Int64.toInt 1 = 1 := by decide
    unfold placeLimit at hlimit
    rw [Int64.toInt_add, Int64.toInt_ofNat_of_lt (by omega), hone]
    exact Int.bmod_eq_of_le (by omega) (by omega)
  have hview (pc : Nat) : s.view m' G' [] pc = ⟨G', s.lower ++ s.cells m', s.frame pc :: s.callers, m'.console⟩ := by
    rw [Setting.view, List.append_nil]
  simp only [hholds, pure_bind]
  by_cases hx : x = 0
  · subst hx
    have hgo := hfalse hm'
    rw [hview] at hgo
    exact (View.Simulates.step h.function.function hbr (Exec.Leads.execute_brTrue_zero rfl) hgo).mono hfuel fun _ _ _ h => h
  · have hgo := htrue hm'
    rw [hview] at hgo
    have hskip : Exec.Leads (Exec.execute (s.frame (pc + test.length)) f (pc + test.length + 1) { op := .brTrue, operand := 1 }) p
        ⟨G', s.lower ++ s.cells m' ++ [x], s.frame (pc + test.length + 1) :: s.callers, m'.console⟩ (.ok ())
        ⟨G', s.lower ++ s.cells m', s.frame (pc + test.length + 2) :: s.callers, m'.console⟩ :=
      .execute_brTrue rfl hx hplace hsize
    rw [bne_iff_ne.2 hx]
    exact (View.Simulates.step h.function.function hbr hskip hgo).mono hfuel fun _ _ _ h => h

/-- A loop, so often as it may be repeated. -/
theorem loop {first' stop' : Nat} (h : s.Runs A P p W f D) (hN : N.Means A P s E) (hcond : cond.Emits P N τ test) (hτ : τ ≠ .void)
    (hcode : f.HasCode pc (closedLoop (loopItems (testCode test) items flow.breaks)))
    (hbody : ∀ {stop m G}, pc ≤ f.code.size ∧ stop ≤ f.code.size →
      f.HasCode (pc + test.length + 2) (closedFrom pc stop (pc + test.length + 2) items) → s.Fits A P m G →
      (s.view m G [] (pc + test.length + 2)).Evaluates A P p W.fuel
      (s.Ends A P true pc stop flow (pc + test.length + 2 + items.length)) (body.run m)) {k : Nat}
        (hk : k ≤ W.fuel) (hm : s.Fits A P m G) :
    (s.view m G [] pc).Evaluates A P p k
      (s.Ends A P inLoop first' stop' {} (pc + (loopItems (testCode test) items flow.breaks).length))
      ((Evaluation.iterate (cond.test W E) body k).run m) := by
  rw [closedLoop_eq pc] at hcode
  generalize hstop : pc + (loopItems (testCode test) items flow.breaks).length = stop at hcode ⊢
  rw [loopItems, closedFrom_test, closedFrom_append] at hcode
  have hexit : f.code[pc + test.length + 1]? = some (branchBy (stop - (pc + test.length + 1 + 1 : Nat))) := by
    have := hcode.right.head
    rwa [length_testCode] at this
  have hrest := hcode.right.tail
  rw [length_testCode] at hrest
  have hsize : stop ≤ f.code.size := by
    have := hcode.length_le (by simp)
    simp [loopItems] at this hstop
    omega
  have hlt : pc + test.length + 2 ≤ f.code.size := (Array.getElem?_eq_some_iff.1 hexit).1
  induction k generalizing m G with
  | zero => exact .timeout rfl
  | succ k ih =>
    refine condition h hN hcond hτ hcode.left hlt hk (Nat.le_refl _) hm (fun {m G} hm => ?_) fun {m G} hm => ?_
    · refine ((hbody ⟨by omega, hsize⟩ hrest.left hm).mono (Nat.le_of_succ_le hk) fun _ _ _ h => h).bind fun c m' v hc => ?_
      cases c with
      | normal =>
        obtain ⟨hleaves, G', rfl, hm'⟩ := hc
        have hback := hrest.right
        rw [(Bool.or_eq_false_iff.1 hleaves).2, length_closedFrom] at hback
        exact jump h hback.head rfl (by omega) (ih (Nat.le_of_succ_le hk) hm')
      | «break» =>
        obtain ⟨-, G', rfl, hm'⟩ := hc
        exact .ok ⟨rfl, G', rfl, hm'⟩
      | «continue» =>
        obtain ⟨-, G', rfl, hm'⟩ := hc
        exact ih (Nat.le_of_succ_le hk) hm'
      | «return» a => exact .ok hc
    · exact jump h hexit (by omega) hsize (.ok ⟨rfl, G, rfl, hm⟩)

/-- A branch of an `if`, before the others. -/
theorem arm {others : List Item} {flow1 flow2 : Flow} {rest : Evaluation Completion} (h : s.Runs A P p W f D)
    (hN : N.Means A P s E) (hcond : cond.Emits P N τ test) (hτ : τ ≠ .void)
    (hcode : f.HasCode pc (closedFrom first stop pc (armItems (testCode test) items others)))
    (hbody : ∀ {m G}, f.HasCode (pc + test.length + 2) (closedFrom first stop (pc + test.length + 2) items) →
      s.Fits A P m G → (s.view m G [] (pc + test.length + 2)).Evaluates A P p W.fuel
      (s.Ends A P inLoop first stop flow1 (pc + test.length + 2 + items.length)) (body.run m))
    (hrest : ∀ {q m G}, f.HasCode q (closedFrom first stop q others) →
      s.Fits A P m G → (s.view m G [] q).Evaluates A P p W.fuel
      (s.Ends A P inLoop first stop flow2 (q + others.length)) (rest.run m)) (hflow1 : flow1.leaves = false → flow.leaves = false)
    (hflow2 : flow2.leaves = false → flow.leaves = false) (hm : s.Fits A P m G) :
    (s.view m G [] pc).Evaluates A P p W.fuel
      (s.Ends A P inLoop first stop flow (pc + (armItems (testCode test) items others).length))
      ((cond.test W E >>= fun b => if b = true then body else rest).run m) := by
  have hlength : (armItems (testCode test) items others).length = test.length + 2 + items.length + 1 + others.length := by
    simp [armItems, armHead, plain]
    omega
  rw [armItems, armHead, List.append_assoc, List.cons_append, closedFrom_test, closedFrom_append] at hcode
  have hskip := hcode.right.head
  have hmore := hcode.right.tail
  rw [length_testCode] at hskip hmore
  have hover := hmore.right.head
  have hothers := hmore.right.tail
  rw [length_closedFrom] at hover hothers
  have hlt := (Array.getElem?_eq_some_iff.1 hover).1
  have hsize : pc + test.length + 2 + items.length + 1 + others.length ≤ f.code.size := by
    have := hmore.right.length_le (List.cons_ne_nil _ _)
    simp at this
    omega
  rw [hlength]
  refine condition h hN hcond hτ hcode.left (by omega) (Nat.le_refl _) (Nat.le_succ _) hm (fun {m G} hm => ?_) fun {m G} hm => ?_
  · rw [if_pos rfl, ← bind_pure body]
    refine (hbody hmore.left hm).bind fun c m' v hc => ?_
    cases c with
    | normal =>
      obtain ⟨hleaves, G', rfl, hm'⟩ := hc
      exact jump h hover (by omega) hsize (.ok ⟨hflow1 hleaves, G', by congr 1; omega, hm'⟩)
    | _ => exact .ok hc
  · rw [if_neg Bool.false_ne_true]
    refine jump h hskip (by omega) (by omega) ((hrest hothers hm).mono (Nat.le_refl _) fun c m' v hc => ?_)
    rw [show pc + (test.length + 2 + items.length + 1 + others.length) = pc +
      (test.length + 1) + 1 + items.length + 1 + others.length by omega]
    exact hc.mono hflow2

/-- Returning to the caller, with the slot for the result on the stack. -/
theorem leave {slots rest : List UInt64} {a : Datum} {flow : Flow} {q : Nat} (h : s.Runs A P p W f D)
    (hi : f.code[pc]? = some { op := .ret }) (ha : a.Shown s.returns slots) (hm : m.InSlots A P G) :
    View.Evaluates A P p ⟨G, s.lower ++ (slots ++ rest), s.frame pc :: s.callers, m.console⟩ fuel
      (s.Ends A P inLoop first stop flow q) (.ok (.return a), m) := by
  have hbase : (s.frame pc).argBase + f.header.returns.toNat = (s.lower ++ slots).length := by
    rw [List.length_append, ha.length_eq, h.function.returns]
    rfl
  have hleave : Exec.Leads (Exec.leave (s.frame pc) f) p
      ⟨G, s.lower ++ (slots ++ rest), s.frame (pc + 1) :: s.callers, m.console⟩ (.ok ())
        ⟨G, s.lower ++ slots, s.callers, m.console⟩ := by
    have hsize : (s.frame pc).argBase + f.header.returns.toNat ≤ (s.lower ++ slots ++ rest).length := by
      rw [hbase]
      simp
    have hgo : Exec.Leads (Exec.leave (s.frame pc) f) p ⟨G, s.lower ++ slots ++ rest, s.frame (pc + 1) :: s.callers, m.console⟩
      (.ok ())
        ⟨G, (s.lower ++ slots ++ rest).take ((s.frame pc).argBase + f.header.returns.toNat), s.callers, m.console⟩ :=
      .leave h.callers hsize
    rwa [hbase, List.take_left, List.append_assoc] at hgo
  exact .step' h.function.function hi (.execute_ret rfl hleave) (.ok ⟨G, slots, rfl, ha, hm⟩)

theorem cells_eq (s : Setting) (m : Memory) :
    s.cells m = List.replicate s.returns.slots 0 ++ (m.arguments.map Datum.slot ++ m.locals.map Datum.slot) :=
      List.append_assoc ..

/-- Returning a value, which is put into the slot for the result. -/
theorem return_value {value : Expr} {q : Nat} (h : s.Runs A P p W f D) (hN : N.Means A P s E)
    (hvalue : value.Emits P N s.returns code)
    (hreturns : s.returns ≠ .void) (hcode : f.HasCode pc ({ op := .argA } :: code ++ [{ op := .store }, { op := .ret }]))
    (hm : s.Fits A P m G) :
    (s.view m G [] pc).Evaluates A P p W.fuel (s.Ends A P inLoop first stop flow q)
      ((do return Completion.return (← value.eval W E) : Evaluation Completion).run m) := by
  have hslots : s.returns.slots = 1 := if_neg hreturns
  have hend := hcode.right
  rw [List.length_cons, Nat.add_comm code.length, ← Nat.add_assoc] at hend
  have haddress : Exec.Leads.Pushes (Exec.execute (s.frame pc) f (pc + 1) { op := .argA }) p G
    (s.frame (pc + 1) :: s.callers) m.console
      [Address.ofStack s.lower.length] := Exec.Leads.pushes_execute_argA (n := 0) rfl rfl
        (by rw [h.function.arguments, hslots]; omega)
  refine push h.function hcode.head haddress
    ((value.simulates h.world h.function hN hvalue hcode.left.tail hm).bind fun a m' v ⟨G', slots, hv, ha, hm'⟩ => ?_)
  obtain ⟨x, rfl, -⟩ := ha.holds hreturns
  subst hv
  have hcells (y : UInt64) : s.lower ++ ([y] ++ (m'.arguments.map Datum.slot ++ m'.locals.map Datum.slot)) =
      (s.lower ++ s.cells m').set s.lower.length y := by
    rw [cells_eq, hslots, List.set_append_right _ _ (Nat.le_refl _), Nat.sub_self]
    rfl
  have hwrite : Exec.Leads (Exec.write (Address.ofStack s.lower.length) x) p
      ⟨G', s.lower ++ s.cells m', s.frame (pc + 1 + code.length + 1) :: s.callers, m'.console⟩ (.ok ())
      ⟨G', s.lower ++ ([x] ++ (m'.arguments.map Datum.slot ++ m'.locals.map Datum.slot)),
        s.frame (pc + 1 + code.length + 1) :: s.callers, m'.console⟩ := by
    rw [hcells]
    refine .write_ofStack ?_
    rw [cells_eq, hslots]
    simp
  have hstore : Exec.Leads (Exec.execute (s.frame (pc + 1 + code.length)) f (pc + 1 + code.length + 1) { op := .store }) p
      ⟨G', s.lower ++ s.cells m' ++ [Address.ofStack s.lower.length] ++ [x],
        s.frame (pc + 1 + code.length + 1) :: s.callers, m'.console⟩
      (.ok ()) _ := .execute_store rfl hwrite
  rw [Setting.view, ← List.append_assoc]
  exact .step' h.function.function hend.head hstore (leave h hend.tail.head ha hm'.globals)

/-- The initial value of a variable. -/
theorem declaration {d : Declaration} {home : Home} {r' : Referent} (hW : W.Fits A P p) (hs : s.Of p f) (hN : N.Means A P s E)
    (hd : d.Emits P N home code) (hr : home.Means A P s d.type.type r') (hcode : f.HasCode pc code) (hm : s.Fits A P m G) :
    (s.view m G ops pc).Evaluates A P p W.fuel (fun _ => s.Stands A P ops (pc + code.length))
      ((d.exec W E r').run m) := by
  cases hd with
  | bare htype hvalue =>
    rw [Declaration.exec, hvalue]
    exact .ok ⟨G, rfl, hm⟩
  | @value e code htype hvalue he =>
    have hstored : d.type.type.IsStored := TypeName.isStored_type htype
    have hentry : Scope.Means A P s (d.entry home :: N) ((d.name, r') :: E) := ⟨rfl, ⟨hstored, hr⟩, hN⟩
    simp only [Declaration.exec, hvalue]
    refine (assign hW hs hcode hstored hr hm (e.simulates hW hs hentry he hcode.left.tail hm)).mono (Nat.le_refl _)
      fun _ m' v ⟨G', hv, hm'⟩ => ⟨G', ?_, hm'⟩
    rw [hv]
    congr 1
    simp only [List.length_append, List.length_cons, List.length_nil]
    omega

/-- Dropping what an expression gives, if that is not void. -/
theorem discard (h : s.Runs A P p W f D) (hcode : f.HasCode (pc + code.length) (if τ = .void then [] else [{ op := .pop }]))
    (ha : a.Shown τ slots) (hm : s.Fits A P m G) :
    (s.view m G ([] ++ slots) (pc + code.length)).Evaluates A P p fuel
      (s.Ends A P inLoop first stop {} (pc + (plain (code ++ if τ = .void then [] else [{ op := .pop }])).length))
        (.ok .normal, m) := by
  rw [Typed.length_plain, List.length_append, ← Nat.add_assoc]
  by_cases hτ : τ = .void
  · subst hτ
    cases ha
    exact .ok ⟨rfl, G, rfl, hm⟩
  · obtain ⟨x, rfl, -⟩ := ha.holds hτ
    rw [if_neg hτ] at hcode ⊢
    refine step h.function hcode.head ?_ (.ok ⟨rfl, G, rfl, hm⟩)
    rw [Setting.view, Setting.view, List.append_nil]
    exact .execute_pop rfl

end Setting

theorem Stmt.means_scope {st : Stmt} {returns : ValueType} {n : Nat} (hst : st.Emits P returns inLoop N n items)
    (hlocals : D.locals = s.locals) (hhas : D.Has n st.locals) (hN : N.Means A P s E) :
    Scope.Means A P s (st.scope n ++ N) (st.environment n ++ E) := by
  cases hst with
  | declare hd => exact ⟨rfl, ⟨TypeName.isStored_type hd.type_ne, rfl, hlocals ▸ hhas.fits_entry.2⟩, hN⟩
  | _ => exact hN

mutual

/-- The code of a statement does what carrying it out does, and comes to where that leads. -/
theorem Stmt.simulates (h : s.Runs A P p W f D) :
    ∀ (st : Stmt) {inLoop N n items}, st.Emits P s.returns inLoop N n items → D.Has n st.locals →
      ∀ {E pc first stop m G}, N.Means A P s E →
        f.HasCode pc (closedFrom first stop pc items) → (inLoop = true → first ≤ f.code.size ∧ stop ≤ f.code.size) →
          s.Fits A P m G →
        (s.view m G [] pc).Evaluates A P p W.fuel
          (s.Ends A P inLoop first stop st.flow (pc + items.length)) ((st.exec W E n).run m)
  | .declare d, _, _, n, _, .declare hd, hhas, E, pc, first, stop, m, G, hN, hcode, _, hm => by
    rw [closedFrom_plain] at hcode
    have hr : (Home.local n).Means A P s d.type.type (.local n) := ⟨rfl, h.locals ▸ hhas.fits_entry.2⟩
    rw [Stmt.exec, Typed.length_plain]
    exact (Setting.declaration h.world h.function hN hd hr hcode hm).bind fun _ m' v hv => .ok ⟨rfl, hv⟩
  | .branch branches, _, _, _, _, .branch hbranches, hhas, E, pc, first, stop, m, G, hN, hcode, hloop, hm => by
    rw [Stmt.exec]
    exact branches.simulates h hbranches hhas hN hcode hloop hm
  | .loop condition body, _, _, _, _, .loop hcondition htype hbody, hhas, E, pc, first, stop, m, G, hN, hcode, _, hm => by
    rw [closedFrom_plain] at hcode
    rw [Stmt.exec, Typed.length_plain, closedLoop, List.length_mapIdx]
    exact Setting.loop h hN hcondition htype hcode
      (fun hsize hcode hm => body.simulates h hbody hhas hN hcode (fun _ => hsize) hm) (Nat.le_refl _) hm
  | .break, _, _, _, _, .break, _, E, pc, first, stop, m, G, _, hcode, hloop, hm => by
    rw [Stmt.exec]
    exact Setting.jump h hcode.head rfl (hloop rfl).2 (.ok ⟨rfl, G, rfl, hm⟩)
  | .continue, _, _, _, _, .continue, _, E, pc, first, stop, m, G, _, hcode, hloop, hm => by
    rw [Stmt.exec]
    exact Setting.jump h hcode.head rfl (hloop rfl).1 (.ok ⟨rfl, G, rfl, hm⟩)
  | .return none, _, _, _, _, .leave hreturns, _, E, pc, first, stop, m, G, _, hcode, _, hm => by
    have hshown : Datum.Shown s.returns .void [] := hreturns ▸ .void
    rw [Stmt.exec, Setting.view, List.append_assoc]
    change View.Simulates _ _ ⟨_, s.lower ++ ([] ++ (s.cells m ++ [])), _, _⟩ _ _ _
    exact Setting.leave h hcode.head hshown hm.globals
  | .return (some value), _, _, _, _, .return hne hvalue, _, E, pc, first, stop, m, G, hN, hcode, _, hm => by
    rw [closedFrom_plain] at hcode
    rw [Stmt.exec]
    exact Setting.return_value h hN hvalue hne hcode hm
  | .block body, _, _, _, _, .block hbody, hhas, E, pc, first, stop, m, G, hN, hcode, hloop, hm => by
    rw [Stmt.exec]
    exact body.simulates h hbody hhas hN hcode hloop hm
  | .empty, _, _, _, _, .empty, _, E, pc, first, stop, m, G, _, _, _, hm => by
    rw [Stmt.exec]
    exact .ok ⟨rfl, G, rfl, hm⟩
  | .effect e, _, _, _, _, .effect he, _, E, pc, first, stop, m, G, hN, hcode, _, hm => by
    rw [closedFrom_plain] at hcode
    rw [Stmt.exec]
    refine (e.simulates h.world h.function hN he hcode.left hm).bind fun a m' v ⟨G', slots, hv, ha, hm'⟩ => ?_
    subst hv
    exact Setting.discard h hcode.right ha hm'

theorem Block.simulates (h : s.Runs A P p W f D) :
    ∀ (b : Block) {inLoop N n items}, b.Emits P s.returns inLoop N n items → D.Has n b.locals →
      ∀ {E pc first stop m G}, N.Means A P s E →
        f.HasCode pc (closedFrom first stop pc items) → (inLoop = true → first ≤ f.code.size ∧ stop ≤ f.code.size) →
          s.Fits A P m G →
        (s.view m G [] pc).Evaluates A P p W.fuel
          (s.Ends A P inLoop first stop b.flow (pc + items.length)) ((b.exec W E n).run m)
  | .nil, _, _, _, _, .nil, _, E, pc, first, stop, m, G, _, _, _, hm => by
    rw [Block.exec]
    exact .ok ⟨rfl, G, rfl, hm⟩
  | .cons first rest, _, _, _, _, .cons hfirst hrest, hhas, E, pc, start, stop, m, G, hN, hcode, hloop, hm => by
    obtain ⟨hhas, hhas'⟩ := hhas.of_append
    have hN' := Stmt.means_scope hfirst h.locals hhas hN
    rw [Block.exec, Block.flow]
    split at hcode
    · rename_i hleaves
      rw [if_pos hleaves, if_pos hleaves]
      refine (first.simulates h hfirst hhas hN hcode hloop hm).bind fun c m' v hc => ?_
      cases c with
      | normal => exact absurd hc.1 (by rw [hleaves]; nofun)
      | _ => exact .ok hc
    · rename_i hleaves
      rw [if_neg hleaves, if_neg hleaves, List.length_append, ← Nat.add_assoc]
      rw [closedFrom_append] at hcode
      have hmore := hcode.right
      rw [length_closedFrom] at hmore
      refine (first.simulates h hfirst hhas hN hcode.left hloop hm).bind fun c m' v hc => ?_
      cases c with
      | normal =>
        obtain ⟨-, G', rfl, hm'⟩ := hc
        exact rest.simulates h hrest hhas' hN' hmore hloop hm'
      | _ => exact .ok hc

theorem Branches.simulates (h : s.Runs A P p W f D) :
    ∀ (b : Branches) {inLoop N n items}, b.Emits P s.returns inLoop N n items → D.Has n b.locals →
      ∀ {E pc first stop m G}, N.Means A P s E →
        f.HasCode pc (closedFrom first stop pc items) → (inLoop = true → first ≤ f.code.size ∧ stop ≤ f.code.size) →
          s.Fits A P m G →
        (s.view m G [] pc).Evaluates A P p W.fuel
          (s.Ends A P inLoop first stop b.flow (pc + items.length)) ((b.exec W E n).run m)
  | .only condition body, _, _, _, _, .only hcondition htype hbody, hhas, E, pc, first, stop, m, G, hN, hcode, hloop, hm => by
    rw [Branches.exec]
    exact Setting.arm h hN hcondition htype hcode (fun hcode hm => body.simulates h hbody hhas hN hcode hloop hm)
      (fun _ hm => .ok ⟨rfl, _, rfl, hm⟩) (fun _ => rfl) (fun h => h) hm
  | .orElse condition body otherwise, _, _, _, _, .orElse hcondition htype hbody hotherwise, hhas, E, pc,
      first, stop, m, G, hN, hcode, hloop, hm => by
    obtain ⟨hhas, hhas'⟩ := hhas.of_append
    rw [Branches.exec]
    exact Setting.arm h hN hcondition htype hcode (fun hcode hm => body.simulates h hbody hhas hN hcode hloop hm)
      (fun hcode hm => otherwise.simulates h hotherwise hhas' hN hcode hloop hm) Flow.leaves_both_left Flow.leaves_both_right hm
  | .orIf condition body rest, _, _, _, _, .orIf hcondition htype hbody hrest, hhas, E, pc, first, stop, m,
      G, hN, hcode, hloop, hm => by
    obtain ⟨hhas, hhas'⟩ := hhas.of_append
    rw [Branches.exec]
    exact Setting.arm h hN hcondition htype hcode (fun hcode hm => body.simulates h hbody hhas hN hcode hloop hm)
      (fun hcode hm => rest.simulates h hrest hhas' hN hcode hloop hm) Flow.leaves_both_left Flow.leaves_both_right hm

end

end

end OnePass
