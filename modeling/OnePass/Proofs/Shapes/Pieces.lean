import OnePass.Proofs.Shapes.Kinds

/-!
# Typing code piece by piece

A piece of code is typed by shapes for its places (`Typed`): wherever it stands, if a function has these shapes there and the
right ones where the piece goes on, every instruction of the piece finds what it takes. Pieces are joined one after another, as
the branches of an `if` and as a loop.
-/

namespace OnePass

variable {first place stop : Nat} {shape : Nat → Option Shape} {D : Declared} {items more : List Item}
  {i : Instruction} {distance : Int} {k : Kind}

/-- The instruction takes the top of the shape of its place, and what it leaves is the shape of every place that follows. Where it
does not go on to the next place, it leaves the stack empty. -/
structure Instruction.Steps (D : Declared) (shape : Nat → Option Shape) (place : Nat) (i : Instruction)
    (takes gives rest : Shape) : Prop where
  acts : i.Acts D takes gives
  next {next : Nat} (h : i.Goes place next) : shape next = some (gives ++ rest)
  leaves (h : i.op = .ret ∨ i.op = .br ∨ i.op = .brTrue) : rest = []
  target (h : i.op = .br ∨ i.op = .brTrue) : ∃ target : Nat, (target : Int) = place + 1 + i.operand.toInt

/-- The instruction suits the shapes, if its place has one. -/
def Instruction.Suits (D : Declared) (shape : Nat → Option Shape) (place : Nat) (i : Instruction) : Prop :=
  ∀ σ, shape place = some σ → ∃ takes gives rest, σ = takes ++ rest ∧ i.Steps D shape place takes gives rest

/-- From a place on the shapes are these. -/
def Agrees (shape : Nat → Option Shape) : Nat → List (Option Shape) → Prop
  | _, [] => True
  | place, s :: shapes => shape place = s ∧ Agrees shape (place + 1) shapes

/-- Items from a place on suit the shapes, in a loop that starts and ends at these places. -/
def Checks (D : Declared) (shape : Nat → Option Shape) (first stop : Nat) : Nat → List Item → Prop
  | _, [] => True
  | place, item :: items => (item.close first stop place).Suits D shape place ∧ Checks D shape first stop (place + 1) items

@[simp] theorem agrees_append {shapes more : List (Option Shape)} :
    Agrees shape place (shapes ++ more) ↔ Agrees shape place shapes ∧ Agrees shape (place + shapes.length) more := by
  induction shapes generalizing place with
  | nil => simp [Agrees]
  | cons s shapes ih => simp [Agrees, ih, and_assoc, Nat.add_assoc, Nat.add_comm 1]

@[simp] theorem checks_append :
    Checks D shape first stop place (items ++ more) ↔
      Checks D shape first stop place items ∧ Checks D shape first stop (place + items.length) more := by
  induction items generalizing place with
  | nil => simp [Checks]
  | cons item items ih => simp [Checks, ih, and_assoc, Nat.add_assoc, Nat.add_comm 1]

/-- No place of a function is as far as this. -/
def placeLimit : Nat := 2 ^ 62

/-- The shapes around a piece of code: it ends before the limit; if it goes on after its end, this is the shape there; and a loop
around it starts and ends with nothing on the stack. -/
structure Around (shape : Nat → Option Shape) (inLoop : Bool) (first stop : Nat) (end_ : Nat) (e : Option Shape) : Prop where
  limit : end_ < placeLimit
  after {σ : Shape} (h : e = some σ) : shape end_ = some σ
  loop (h : inLoop = true) : (first < placeLimit ∧ shape first = some []) ∧ stop < placeLimit ∧ shape stop = some []

/-- The piece starts with the shape `σ`, and ends with `e` if it does not leave for good. -/
def Typed (D : Declared) (inLoop : Bool) (items : List Item) (σ : Shape) (e : Option Shape) : Prop :=
  ∃ shapes : List (Option Shape), shapes.length = items.length ∧ ∀ shape first stop place,
    Around shape inLoop first stop (place + items.length) e → Agrees shape place shapes →
      shape place = some σ ∧ Checks D shape first stop place items

/-- The operation goes on to the next instruction. -/
def Opcode.isOrdinary : Opcode → Bool
  | br | brTrue | brFalse | ret | abort => false
  | _ => true

theorem Instruction.goes_iff_of_isOrdinary (h : i.op.isOrdinary = true) {next : Nat} : i.Goes place next ↔ next = place + 1 := by
  unfold Instruction.Goes
  cases hop : i.op <;> rw [hop] at h <;> cases h

theorem toInt_branchBy (hlow : -2 ^ 62 ≤ distance) (hhigh : distance < 2 ^ 62) : (branchBy distance).operand.toInt = distance :=
  Int64.toInt_ofInt_of_le (by omega) (by omega)

/-- A branch from an empty stack to one. -/
theorem suits_branchBy {target : Nat} (hplace : place < placeLimit) (htarget : target < placeLimit)
    (hdistance : distance = target - (place + 1)) (hσ : ∀ σ, shape place = some σ → σ = []) (hshape : shape target = some []) :
    (branchBy distance).Suits D shape place := by
  intro σ hσ'
  obtain rfl := hσ σ hσ'
  have hoperand : (branchBy distance).operand.toInt = distance := by
    unfold placeLimit at hplace htarget
    exact toInt_branchBy (by omega) (by omega)
  refine ⟨[], [], [], rfl, .fixed rfl, fun {next} h => ?_, fun _ => rfl, fun _ => ⟨target, by omega⟩⟩
  have hnext : (next : Int) = place + 1 + (branchBy distance).operand.toInt := h
  obtain rfl : next = target := by omega
  exact hshape

/-- The end of a condition, of which the branch after it is skipped or not. -/
theorem suits_brTrue (hk : k.IsValue) (hplace : shape place = some [k]) (hnext : shape (place + 1) = some [])
    (hskip : shape (place + 1 + 1) = some []) : Instruction.Suits D shape place { op := .brTrue, operand := 1 } := by
  intro σ hσ
  rw [hplace] at hσ
  cases hσ
  refine ⟨[k], [], [], rfl, .brTrue rfl hk, fun {next} h => ?_, fun _ => rfl, fun _ => ⟨place + 1 + 1, rfl⟩⟩
  rcases h with rfl | h
  · exact hnext
  · obtain rfl : next = place + 1 + 1 := by
      have hone : (1 : Int64).toInt = 1 := rfl
      simp only [hone] at h
      omega
    exact hskip

@[simp] theorem Item.close_instr (first stop place : Nat) (i : Instruction) : (Item.instr i).close first stop place = i := rfl

/-- A closed loop suits the shapes wherever it stands, just if its items do there. -/
theorem checks_closedLoop :
    Checks D shape first stop place (plain (closedLoop items)) ↔ Checks D shape place (place + items.length) place items := by
  have hclose (n k : Nat) (rest : List Item) :
      Checks D shape first stop (place + k) (plain (rest.mapIdx fun j item => item.close 0 n (k + j))) ↔
        Checks D shape place (place + n) (place + k) rest := by
    induction rest generalizing k with
    | nil => rfl
    | cons item rest ih =>
      have hitem : item.close 0 n k = item.close place (place + n) (place + k) := by
        cases item with
        | instr i => rfl
        | exit => exact congrArg branchBy (by omega)
        | again => exact congrArg branchBy (by omega)
      have hrest := ih (k + 1)
      simp only [List.mapIdx_cons, plain, List.map_cons, Checks, Item.close_instr, Nat.add_zero, Nat.add_assoc,
        Nat.add_comm 1] at hrest ⊢
      rw [hrest, ← hitem]
  simpa [closedLoop] using hclose items.length 0 items

namespace Typed

variable {D : Declared} {inLoop : Bool}
variable {σ : Shape} {e : Option Shape}

theorem nil (σ : Shape) : Typed D inLoop [] σ (some σ) :=
  ⟨[], rfl, fun _ _ _ _ haround _ => ⟨haround.after rfl, trivial⟩⟩

/-- A piece that leaves for good may be followed by anything. -/
theorem weaken (h : Typed D inLoop items σ none) (e : Option Shape) : Typed D inLoop items σ e := by
  obtain ⟨shapes, hlength, htyped⟩ := h
  exact ⟨shapes, hlength, fun shape first stop place haround => htyped shape first stop place { haround with after := nofun }⟩

theorem append {σ' : Shape} (h : Typed D inLoop items σ (some σ')) (h' : Typed D inLoop more σ' e) :
    Typed D inLoop (items ++ more) σ e := by
  obtain ⟨shapes, hlength, htyped⟩ := h
  obtain ⟨shapes', hlength', htyped'⟩ := h'
  refine ⟨shapes ++ shapes', by simp [hlength, hlength'], fun shape first stop place haround hagrees => ?_⟩
  obtain ⟨hagrees, hagrees'⟩ := agrees_append.1 hagrees
  rw [hlength] at hagrees'
  rw [List.length_append, ← Nat.add_assoc] at haround
  obtain ⟨hstart', hchecks'⟩ := htyped' shape first stop _ haround hagrees'
  obtain ⟨hstart, hchecks⟩ := htyped shape first stop place
    { haround with limit := by have := haround.limit; omega, after := fun h => by cases h; exact hstart' } hagrees
  exact ⟨hstart, checks_append.2 ⟨hchecks, hchecks'⟩⟩

theorem instr {takes gives : Shape} (hacts : i.Acts D takes gives) (hop : i.op.isOrdinary = true) (σ : Shape) :
    Typed D inLoop (plain [i]) (takes ++ σ) (some (gives ++ σ)) := by
  refine ⟨[some (takes ++ σ)], rfl, fun shape first stop place haround hagrees => ⟨hagrees.1, fun σ' hσ' => ?_, trivial⟩⟩
  rw [hagrees.1] at hσ'
  cases hσ'
  refine ⟨takes, gives, σ, rfl, hacts, fun h => ?_, fun h => ?_, fun h => ?_⟩
  · obtain rfl := (Instruction.goes_iff_of_isOrdinary hop).1 h
    exact haround.after rfl
  · have hleaves : i.op = .ret ∨ i.op = .br ∨ i.op = .brTrue := h
    rcases hleaves with hleaves | hleaves | hleaves <;> rw [hleaves] at hop <;> cases hop
  · have hbranch : i.op = .br ∨ i.op = .brTrue := h
    rcases hbranch with hbranch | hbranch <;> rw [hbranch] at hop <;> cases hop

theorem ret (hentry : D.isEntry = false) : Typed D inLoop [.instr { op := .ret }] [] none := by
  refine ⟨[some []], rfl, fun shape first stop place haround hagrees => ⟨hagrees.1, fun σ' hσ' => ?_, trivial⟩⟩
  rw [hagrees.1] at hσ'
  cases hσ'
  exact ⟨[], [], [], rfl, .ret rfl hentry, nofun, fun _ => rfl, nofun⟩

theorem exit : Typed D true [.exit] [] none := by
  refine ⟨[some []], rfl, fun shape first stop place haround hagrees => ⟨hagrees.1, ?_, trivial⟩⟩
  obtain ⟨-, hstop, hshape⟩ := haround.loop rfl
  refine suits_branchBy (Nat.lt_of_succ_lt haround.limit) hstop rfl (fun σ hσ => ?_) hshape
  rw [hagrees.1] at hσ
  exact (Option.some.inj hσ).symm

theorem again : Typed D true [.again] [] none := by
  refine ⟨[some []], rfl, fun shape first stop place haround hagrees => ⟨hagrees.1, ?_, trivial⟩⟩
  obtain ⟨⟨hfirst, hshape⟩, -⟩ := haround.loop rfl
  refine suits_branchBy (Nat.lt_of_succ_lt haround.limit) hfirst rfl (fun σ hσ => ?_) hshape
  rw [hagrees.1] at hσ
  exact (Option.some.inj hσ).symm

@[simp] theorem length_plain (code : List Instruction) : (plain code).length = code.length := List.length_map ..

/-- A branch of an `if`, and those after it. -/
theorem arm {code : List Instruction} {body others : List Item} {e' : Option Shape} (hk : k.IsValue)
    (htest : Typed D inLoop (plain code) [] (some [k])) (hbody : Typed D inLoop body [] e) (hothers : Typed D inLoop others [] e')
    (he : e = none ∨ e = some [] ∧ e' = some []) : Typed D inLoop (armItems (testCode code) body others) [] e' := by
  obtain ⟨shapes1, hlength1, htyped1⟩ := htest
  obtain ⟨shapes2, hlength2, htyped2⟩ := hbody
  obtain ⟨shapes3, hlength3, htyped3⟩ := hothers
  have hitems : armItems (testCode code) body others = plain code ++ .instr { op := .brTrue, operand := 1 } ::
      .instr (branchBy (body.length + 1)) :: (body ++ .instr (branchBy others.length) :: others) := by
    simp [armItems, armHead, testCode, plain]
  rw [length_plain] at hlength1
  refine ⟨shapes1 ++ some [k] :: some [] :: (shapes2 ++ e :: shapes3), ?_, fun shape first stop place haround hagrees => ?_⟩
  · simp [hitems, hlength1, hlength2, hlength3]
  · simp only [agrees_append, Agrees, hlength1, hlength2] at hagrees
    obtain ⟨hagrees1, htest, hskip, hagrees2, hend, hagrees3⟩ := hagrees
    have hlength : (armItems (testCode code) body others).length = code.length + 1 + 1 + body.length + 1 + others.length := by
      simp [hitems]
      omega
    have hlimit := haround.limit
    rw [hlength] at hlimit
    obtain ⟨hstart3, hchecks3⟩ := htyped3 shape first stop (place + code.length + 1 + 1 + body.length + 1)
      { haround with limit := by omega, after := fun h => by rw [← haround.after h, hlength]; congr 1; omega } hagrees3
    obtain ⟨hstart2, hchecks2⟩ := htyped2 shape first stop (place + code.length + 1 + 1)
      { haround with limit := by omega, after := fun h => hend.trans h } hagrees2
    obtain ⟨hstart1, hchecks1⟩ := htyped1 shape first stop place
      { haround with limit := by simp; omega, after := fun h => by cases h; simpa using htest } hagrees1
    rw [hitems]
    simp only [checks_append, Checks, Item.close, length_plain]
    refine ⟨hstart1, hchecks1, suits_brTrue hk htest hskip hstart2, ?_, hchecks2, ?_, hchecks3⟩
    · refine suits_branchBy (by omega) (by omega) (by omega) (fun σ hσ => ?_) hstart3
      rw [hskip] at hσ
      exact (Option.some.inj hσ).symm
    · rcases he with rfl | ⟨rfl, he⟩
      · intro σ hσ
        rw [hend] at hσ
        cases hσ
      · refine suits_branchBy (by omega) (by omega) (by omega) (fun σ hσ => ?_) (haround.after he)
        · rw [hend] at hσ
          exact (Option.some.inj hσ).symm

/-- A loop; where its body does not leave, it goes back to the condition. -/
theorem loop {code : List Instruction} {body : List Item} {breaks : Bool} {k : Kind} {e : Option Shape} (hk : k.IsValue)
    (htest : Typed D false (plain code) [] (some [k])) (hbody : Typed D true body [] e) (he : e = none ∨ e = some []) :
    Typed D inLoop (plain (closedLoop (loopItems (testCode code) body breaks))) [] (some []) := by
  obtain ⟨shapes1, hlength1, htyped1⟩ := htest
  obtain ⟨shapes2, hlength2, htyped2⟩ := hbody
  have hitems : loopItems (testCode code) body breaks = plain code ++ .instr { op := .brTrue, operand := 1 } :: .exit ::
      (body ++ if breaks then [] else [.again]) := by
    simp [loopItems, testCode, plain]
  rw [length_plain] at hlength1
  refine ⟨shapes1 ++ some [k] :: some [] :: (shapes2 ++ if breaks then [] else [e]), ?_,
    fun shape first stop place haround hagrees => ?_⟩
  · cases breaks <;> simp [hitems, hlength1, hlength2, closedLoop]
  · rw [checks_closedLoop]
    have hclosed : (plain (closedLoop (loopItems (testCode code) body breaks))).length =
        (loopItems (testCode code) body breaks).length := by simp [closedLoop]
    rw [hclosed] at haround
    have hstop := haround.after rfl
    have hlimit := haround.limit
    generalize hend : place + (loopItems (testCode code) body breaks).length = stop' at hstop hlimit
    rw [hitems] at hend
    simp only [List.length_append, List.length_cons, length_plain] at hend
    simp only [agrees_append, Agrees, hlength1, hlength2] at hagrees
    obtain ⟨hagrees1, htest, hexit, hagrees2, hagrees3⟩ := hagrees
    obtain ⟨hstart1, hchecks1⟩ := htyped1 shape place stop' place
      { limit := by simp; omega, after := fun h => by cases h; simpa using htest, loop := fun h => absurd h Bool.false_ne_true }
        hagrees1
    -- what follows the body is the branch back or the end of the loop
    have hafter {σ : Shape} (h : e = some σ) : shape (place + code.length + 1 + 1 + body.length) = some σ := by
      cases breaks with
      | false => exact hagrees3.1.trans h
      | true =>
        rcases he with rfl | rfl
        · cases h
        · cases h
          rw [← hstop, ← hend]
          congr 1
          simp
          omega
    obtain ⟨hstart2, hchecks2⟩ := htyped2 shape place stop' (place + code.length + 1 + 1)
      { limit := by omega, after := hafter, loop := fun _ => ⟨⟨by omega, hstart1⟩, hlimit, hstop⟩ } hagrees2
    rw [hitems]
    simp only [checks_append, Checks, Item.close_instr, length_plain]
    refine ⟨hstart1, hchecks1, suits_brTrue hk htest hexit hstart2, ?_, hchecks2, ?_⟩
    · refine suits_branchBy (by omega) hlimit rfl (fun σ hσ => ?_) hstop
      rw [hexit] at hσ
      exact (Option.some.inj hσ).symm
    · cases breaks with
      | true => trivial
      | false =>
        refine ⟨suits_branchBy (by omega) (by omega) rfl (fun σ hσ => ?_) hstart1, trivial⟩
        rw [hagrees3.1] at hσ
        rcases he with rfl | rfl
        · cases hσ
        · exact (Option.some.inj hσ).symm

end Typed

end OnePass
