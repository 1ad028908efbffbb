import OnePass.Proofs.Emission.Outputs
import OnePass.Proofs.Globals.Accesses
import OnePass.Proofs.Shapes.Program
import OnePass.Proofs.Typing.Acceptance

/-!
# The order of initialization

The entry routine gives the globals their initial values one after another, in the order of the text (`Schedule`). A function is
called no earlier than from the place where it is defined, and from there on the globals that it reads have their values; code
writes to a constant in its initialization only. That the code of a program keeps to this order (`Program.Follows`) is read off
its instructions.
-/

namespace OnePass

variable {n place : Nat}

/-- The home is in this global. -/
def Home.IsGlobal (home : Home) (n : Nat) : Prop := home.address.op = .globA ∧ home.address.operand.toInt = n

/-- When the entry routine gives the globals their values. -/
structure Schedule where
  /-- The global is a constant. -/
  const : Nat → Prop
  /-- The entry routine gives the global its initial value between these two places: it pushes the address at the first one, and
  stores the value at the last one. -/
  inits : Nat → Nat → Nat → Prop
  /-- The place of the entry routine from which on the function with this number is known. -/
  opens : Nat → Nat

namespace Schedule

variable {S : Schedule}

/-- If the global has an initial value, it is stored before the entry routine gets to this place. -/
def Done (S : Schedule) (n place : Nat) : Prop := ∀ {start stop}, S.inits n start stop → stop < place

theorem Done.mono {later : Nat} (h : S.Done n place) (hle : place ≤ later) : S.Done n later :=
  fun hinits => Nat.lt_of_lt_of_le (h hinits) hle

/-- What the entry routine may do at a place that is not the first or the last one of an initialization. -/
def evaluation (S : Schedule) (place : Nat) : Access where
  reads home := ∀ n, home.IsGlobal n → S.Done n place
  writes _ := False
  calls n := n < placeLimit ∧ S.opens n ≤ place
  acts := False

/-- What the function with this number may do at a place. -/
def access (S : Schedule) : Nat → Nat → Access
  | 0, place => { S.evaluation place with
      writes home := ∀ n, home.IsGlobal n → ∃ stop, S.inits n place stop
      acts := ∃ n start, S.inits n start place }
  | k + 1, _ => {
      reads home := ∀ n, home.IsGlobal n → S.Done n (S.opens (k + 1))
      writes home := ∀ n, home.IsGlobal n → ¬ S.const n
      calls n := n < placeLimit ∧ S.opens n ≤ S.opens (k + 1)
      acts := True }

theorem owns_access (k place : Nat) : (S.access (k + 1) place).Owns := by
  have hown {home : Home} (h : ∀ slot, home ≠ .global slot) (n : Nat) : ¬ home.IsGlobal n := by
    rintro ⟨hop, -⟩
    cases home with
    | «global» slot => exact h slot rfl
    | «local» | argument => cases hop
  exact ⟨trivial, fun h n hn => absurd hn (hown h n), fun h n hn => absurd hn (hown h n)⟩

end Schedule

/-- The code of a program keeps to a schedule. -/
structure Program.Follows (p : Program) (S : Schedule) : Prop where
  does {k place : Nat} {f : Function} {i : Instruction} (hf : p.functions[k]? = some f) (hi : f.code[place]? = some i) :
    (S.access k place).Does (plain f.code.toList) place i
  /-- The entry routine never branches. -/
  ordinary {place : Nat} {f : Function} {i : Instruction} (hf : p.functions[0]? = some f) (hi : f.code[place]? = some i) :
    i.op.isOrdinary = true
  store {n start stop : Nat} (h : S.inits n start stop) :
    start < stop ∧ ∃ f i, p.functions[0]? = some f ∧ f.code[stop]? = some i ∧ i.op = .store
  /-- Nothing stands before an initialization but others. -/
  adjoins {n start stop : Nat} (h : S.inits n start stop) : start = 0 ∨ ∃ m first last, S.inits m first last ∧ start = last + 1
  /-- No initialization stands inside of another. -/
  apart {n start stop m first last : Nat} (h : S.inits n start stop) (h' : S.inits m first last)
    (hlt : first < stop) (hle : stop ≤ last) :
    m = n ∧ first = start ∧ last = stop
  /-- A global is initialized once. -/
  once {n start stop first last : Nat} (h : S.inits n start stop) (h' : S.inits n first last) : last = stop

/-! ## Instructions inside of code -/

namespace Access.Does

variable {R R' : Access} {items : List Item} {place : Nat} {i : Instruction}

theorem mono (h : R.Does items place i) (hreads : ∀ {home}, R.reads home → R'.reads home)
    (hwrites : ∀ {home}, R.writes home → R'.writes home)
    (hcalls : ∀ {n}, R.calls n → R'.calls n) (hacts : R.acts → R'.acts) : R'.Does items place i := by
  cases h with
  | load hop hplace hbefore hhome => exact .load hop hplace hbefore (hreads hhome)
  | read hi hnext hhome => exact .read hi hnext (hreads hhome)
  | alone hi =>
    cases hi with
    | address hhome => exact .alone (.address (hwrites hhome))
    | call hnumber => exact .alone (.call (hcalls hnumber))
    | act hop h => exact .alone (.act hop (hacts h))
    | silent hop => exact .alone (.silent hop)

/-- An instruction does the same in longer code. -/
theorem inside (h : R.Does items place i) (before after : List Item) :
    R.Does (before ++ (items ++ after)) (before.length + place) i := by
  have hget {j : Nat} {item : Item} (hj : items[j]? = some item) :
    (before ++ (items ++ after))[before.length + j]? = some item := by
    rw [List.getElem?_append_right (Nat.le_add_right ..), Nat.add_sub_cancel_left,
      List.getElem?_append_left (List.getElem?_eq_some_iff.1 hj).1, hj]
  cases h with
  | load hop hplace hbefore hhome => exact .load hop (by rw [hplace, Nat.add_assoc]) (hget hbefore) hhome
  | read hi hnext hhome => exact .read hi (hget hnext) hhome
  | alone hi => exact .alone hi

theorem isOrdinary (h : R.Does items place i) (hacts : ¬ R.acts) : i.op.isOrdinary = true := by
  have haddress (home : Home) : home.address.op.isOrdinary = true := by cases home <;> rfl
  cases h with
  | load hop => rw [hop]; rfl
  | read hi => exact hi ▸ haddress _
  | alone hi =>
    cases hi with
    | address => exact haddress _
    | call => rfl
    | act _ h => exact absurd h hacts
    | silent hop =>
      have hop : i.op.isSilent = true := hop
      unfold Opcode.isSilent at hop
      split at hop
      · cases hop
      · cases hop
      · cases hop
      · cases hop
      · cases hop
      · cases hop
      · exact hop

end Access.Does

/-! ## Outputs -/

/-- An element of two lists in a row is one of the second, or one of the first. -/
theorem split_of_append {α : Type} {l l' before after : List α} {a : α} (h : l ++ l' = before ++ a :: after) :
    (∃ more, before = l ++ more ∧ l' = more ++ a :: after) ∨ ∃ more, l = before ++ a :: more ∧ after = more ++ l' := by
  rcases List.append_eq_append_iff.1 h with hsecond | ⟨more, hl, hafter⟩
  · exact .inl hsecond
  · cases more with
    | nil => exact .inl ⟨[], by rw [hl, List.append_nil, List.append_nil], hafter.symm⟩
    | cons b more =>
      obtain ⟨rfl, rfl⟩ := List.cons.inj hafter
      exact .inr ⟨more, hl, rfl⟩

/-- Of two elements of a list, one stands before the other, if they are not the same. -/
theorem split_cases {α : Type} {before after before' after' : List α} {a a' : α}
    (h : before ++ a :: after = before' ++ a' :: after') :
    (before' = before ∧ a' = a ∧ after' = after) ∨ (∃ more, before' = before ++ a :: more ∧ after = more ++ a' :: after') ∨
      ∃ more, before = before' ++ a' :: more ∧ after' = more ++ a :: after := by
  rcases split_of_append h with ⟨more, rfl, hmore⟩ | hlater
  · cases more with
    | nil =>
      obtain ⟨rfl, rfl⟩ := List.cons.inj hmore
      exact .inl ⟨List.append_nil _, rfl, rfl⟩
    | cons b more =>
      obtain ⟨rfl, rfl⟩ := List.cons.inj hmore
      exact .inr (.inl ⟨more, rfl, rfl⟩)
  · exact .inr (.inr hlater)

/-- How much code the entry routine has before the function with this index. -/
def codeBefore : List Output → Nat → Nat
  | .entry code :: outputs, n => code.length + codeBefore outputs n
  | .function _ :: outputs, n + 1 => codeBefore outputs n
  | .function _ :: _, 0 | [], _ => 0

namespace Source

theorem codeBefore_functionsOf (before : List Output) (f : Function) (after : List Output) :
    codeBefore (before ++ .function f :: after) (functionsOf before).length = (entryOf before).length := by
  induction before with
  | nil => rfl
  | cons output before ih =>
    cases output with
    | function g => exact ih
    | entry code =>
      change code.length + codeBefore (before ++ .function f :: after) (functionsOf before).length = _
      rw [ih, entryOf_entry, List.length_append]

end Source

/-! ## Names -/

section

variable {P : List PoolEntry} {S : Schedule}
variable {N : Scope} {i : Instruction} {code : List Instruction} {first k last m number slot start stop : Nat}
  {entry : Bytes × Binding} {v : Declaration} {x : Bytes} {binding : Binding} {d : Definition} {ds post pre : Source} {e : Expr}

/-- What the name stands for is known where the entry routine has this much code: a function, or a global that has its slot and,
if it has an initial value, that value. -/
def Binding.Known (P : List PoolEntry) (S : Schedule) (place : Nat) (x : Bytes) : Binding → Prop
  | .variable _ const _ home => ∃ n, home = .global n ∧ P[n]? = some (.variable const x) ∧ S.Done n place
  | .function _ _ number _ => number < placeLimit ∧ S.opens number ≤ place

/-- All names are known. -/
def Scope.Known (P : List PoolEntry) (S : Schedule) (place : Nat) (N : Scope) :
    Prop := ∀ entry ∈ N, entry.2.Known P S place entry.1

theorem Scope.Known.of_lookup (h : N.Known P S place) (hx : N.lookup x = some binding) : binding.Known P S place x := by
  obtain ⟨before, after, rfl, -⟩ := List.lookup_eq_some_iff.1 hx
  exact h (x, binding) (by simp)

namespace Source

/-- The schedule of a program that is put together from these outputs. -/
def schedule (P : List PoolEntry) (outputs : List Output) : Schedule where
  const n := ∃ x, P[n]? = some (.variable true x)
  inits n start stop := ∃ before i code after, outputs = before ++ .entry (i :: code ++ [{ op := .store }]) :: after ∧
    i.operand.toInt = (n : Int) ∧ start = (entryOf before).length ∧ stop = start + code.length + 1
  opens k := codeBefore outputs (k - 1)

end Source

/-- Code of the entry routine is that of an initial value, if there is any. -/
theorem Definition.Emits.entry_cases (h : d.Emits P N number (.entry code) entry) :
    code = [] ∨ ∃ (v : Declaration) (slot : Nat) (e : Expr) (body : List Instruction),
      d = .global v ∧ v.value? = some e ∧ v.type.type ≠ .void ∧ P[slot]? = some (.variable v.isConst v.name) ∧
      entry = v.entry (.global slot) ∧ e.Emits P (v.entry (.global slot) :: N) v.type.type body ∧
      code = (Home.global slot).address :: body ++ [{ op := .store }] := by
  cases h with
  | @«global» v slot code hslot hd =>
    cases hd with
    | bare => exact .inl rfl
    | value htype hvalue he => exact .inr ⟨v, slot, _, _, rfl, hvalue, htype, hslot, rfl, he, rfl⟩

theorem toInt_operand_address (hn : n < placeLimit) : (Home.global n).address.operand.toInt = n :=
  Int64.toInt_ofInt_of_le (by omega) (by unfold placeLimit at hn; omega)

theorem Home.IsGlobal.eq (h : (Home.global n).IsGlobal m) (hn : n < placeLimit) : m = n :=
  Int.ofNat.inj (h.2.symm.trans (toInt_operand_address hn))

/-- The global of an initialization is the one that the definition declares. -/
theorem Definition.Emits.initialization (h : d.Emits P N number (.entry (i :: code ++ [{ op := .store }])) entry)
    (hP : P.length < placeLimit) :
    ∃ (v : Declaration) (slot : Nat), d = .global v ∧ P[slot]? = some (.variable v.isConst v.name) ∧ entry =
      v.entry (.global slot) ∧
      i.operand.toInt = slot := by
  rcases h.entry_cases with hnil | ⟨v, slot, e, body, rfl, -, -, hslot, rfl, -, hcode⟩
  · cases hnil
  · refine ⟨v, slot, rfl, hslot, rfl, ?_⟩
    rw [(List.cons.inj hcode).1]
    exact toInt_operand_address (Nat.lt_trans (List.getElem?_eq_some_iff.1 hslot).1 hP)

namespace Source.Emits

variable {N N' : Scope} {number : Nat} {ds : Source} {outputs before after : List Output}

theorem subset (h : ds.Emits P N number outputs N') : N ⊆ N' := by
  induction h with
  | nil => exact List.Subset.refl _
  | cons hd hnew hds ih => exact fun entry hentry => ih (List.mem_cons_of_mem _ hentry)

/-- Every name that definitions add is that of one of them. -/
theorem mem_cases (h : ds.Emits P N number outputs N') (hentry : entry ∈ N') :
    entry ∈ N ∨ ∃ before output after d N1 n, outputs = before ++ output :: after ∧ n = number + (functionsOf before).length ∧
      Definition.Emits P N1 n d output entry := by
  induction h with
  | nil => exact .inl hentry
  | @cons N N' number d ds output outputs entry' hd hnew hds ih =>
    rcases ih hentry with hmem | ⟨before, output', after, d', N1, n, rfl, rfl, hd'⟩
    · rcases List.mem_cons.1 hmem with rfl | hmem
      · exact .inr ⟨[], output, outputs, d, N, number, rfl, rfl, hd⟩
      · exact .inl hmem
    · refine .inr ⟨output :: before, output', after, d', N1, _, rfl, ?_, hd'⟩
      cases hd with
      | function =>
        change number + 1 + (functionsOf before).length = number + ((functionsOf before).length + 1)
        omega
      | «global» => rfl

/-- A global that has its name is not initialized any more. -/
theorem slot_ne (h : ds.Emits P N number (before ++ .entry (i :: code ++ [{ op := .store }]) :: after) N')
    (hP : P.length < placeLimit)
    {const : Bool} (hx : (x, binding) ∈ N) (hslot : P[n]? = some (.variable const x)) : i.operand.toInt ≠ n := by
  intro hn
  obtain ⟨pre, d, post, N1, entry, rfl, hpre, hd, hnew, -⟩ := h.split
  obtain ⟨v, slot, rfl, hslot', rfl, hi⟩ := hd.initialization hP
  obtain rfl : n = slot := Int.ofNat.inj (hn.symm.trans hi)
  rw [hslot] at hslot'
  cases hslot'
  exact absurd rfl (bne_iff_ne.1 (List.lookup_eq_none_iff.1 hnew (v.name, binding) (hpre.subset hx)))

/-- After definitions, their names are known. -/
theorem known {N1 : Scope} (hpre : pre.Emits P [] 1 before N1) (hpost : post.Emits P N1 number after N)
    (hP : P.length < placeLimit)
    (hlimit : pre.functions < placeLimit) : N1.Known P (schedule P (before ++ after)) (entryOf before).length := by
  rintro ⟨x, binding⟩ hentry
  rcases hpre.mem_cases hentry with hmem | ⟨b, output, a, d, N2, n, rfl, rfl, hd⟩
  · cases hmem
  · cases hd with
    | @function name params returns body slot items =>
      refine ⟨?_, ?_⟩
      · have hlength := hpre.length_functionsOf
        rw [functionsOf_append, List.length_append, functionsOf_function, List.length_cons] at hlength
        omega
      · change codeBefore _ (1 + (functionsOf b).length - 1) ≤ _
        rw [Nat.add_sub_cancel_left, List.append_assoc, List.cons_append, codeBefore_functionsOf,
          entryOf_append, List.length_append]
        exact Nat.le_add_right ..
    | @«global» v slot code hslot hv =>
      refine ⟨slot, rfl, hslot, fun {start stop} hinits => ?_⟩
      obtain ⟨b', i, code', a', houtputs, hi, rfl, rfl⟩ := hinits
      rcases split_of_append houtputs with ⟨more, rfl, rfl⟩ | ⟨more, hbefore, -⟩
      · exact absurd hi (hpost.slot_ne hP hentry hslot)
      · rw [hbefore]
        simp only [entryOf_append, entryOf_entry, List.length_append, List.length_cons]
        omega

end Source.Emits

/-! ## Code -/

/-- An initial value does not read the variable that it is for. -/
theorem Declaration.Valid.notMem_reads {Γ Γ' : Env} (h : v.Valid Γ Γ') (hvalue : v.value? = some e) (hpure : e.IsPure) :
    v.name ∉ e.reads := by
  cases h with
  | plain hnone =>
    rw [hnone] at hvalue
    cases hvalue
  | initial hsome htype hname htypes =>
    rw [hsome] at hvalue
    cases hvalue
    intro hmem
    obtain ⟨τ, const, hfind⟩ := (e.hasValue_of_reads htypes hpure).2 _ hmem
    cases hname
    simp [Env.find?] at hfind

theorem Source.Valid.exists_valid {names names' : OnePass.Names} (h : ds.Valid names names') (hv : Definition.global v ∈ ds) :
    ∃ Γ Γ', v.Valid Γ Γ' := by
  induction h with
  | nil => cases hv
  | cons hd hds ih =>
    rcases List.mem_cons.1 hv with rfl | hv
    · cases hd with
      | «global» hd => exact ⟨_, _, hd⟩
    · exact ih hv

/-- The code of an initial value reads and calls what is known before it, and does nothing else. -/
theorem Expr.accesses_evaluation {τ : ValueType} (he : e.Emits P (v.entry (.global slot) :: N) τ code) (hN : N.Known P S place)
    (hP : P.length < placeLimit) (hpure : e.IsPure) (hv : v.name ∉ e.reads) : Accesses (S.evaluation place) (plain code) := by
  refine e.accesses_of_emits (fun {f params returns number slot} hf => ?_) he
    (fun x hx type const assigned home hlookup => ?_) (.inl hpure)
  · rw [List.lookup_cons] at hf
    split at hf
    · cases hf
    · exact hN.of_lookup hf
  · rw [List.lookup_cons] at hlookup
    split at hlookup
    · rename_i hname
      have hname : x = v.name := beq_iff_eq.1 hname
      exact absurd (hname ▸ hx) hv
    · obtain ⟨n, rfl, hslot, hdone⟩ := hN.of_lookup hlookup
      intro m hm
      obtain rfl := hm.eq (Nat.lt_trans (List.getElem?_eq_some_iff.1 hslot).1 hP)
      exact hdone

/-- A function may do what the names that are known before it allow. -/
theorem Scope.Known.permits (h : N.Known P S (S.opens (k + 1))) (hP : P.length < placeLimit)
    (hconst : ∀ {n x}, P[n]? = some (.variable false x) → ¬ S.const n) : N.Permits (S.access (k + 1) place) := by
  intro entry hentry
  have hknown := h entry hentry
  rcases entry with ⟨x, ⟨_, const, _, home⟩ | _⟩
  · obtain ⟨n, rfl, hslot, hdone⟩ := hknown
    have hlimit := Nat.lt_trans (List.getElem?_eq_some_iff.1 hslot).1 hP
    refine ⟨fun m hm => ?_, fun hc m hm => ?_⟩
    · obtain rfl := hm.eq hlimit
      exact hdone
    · obtain rfl := hm.eq hlimit
      cases hc
      exact hconst hslot
  · exact hknown

/-- What the evaluation of an initial value does, at its place in the entry routine. -/
theorem Schedule.does_evaluation {j : Nat} {pre body post : List Instruction} (hbody : Accesses (S.evaluation first) (plain body))
    (hj : body[j]? = some i) (hpre : pre.length = first + 1) :
    (S.access 0 (first + (j + 1))).Does (plain (pre ++ body ++ post)) (first + (j + 1)) i ∧ i.op.isOrdinary = true := by
  have hitem : (plain body)[j]? = some (.instr i) := by rw [plain, List.getElem?_map, hj]; rfl
  have hdoes := hbody.does hitem
  have hplace : first + (j + 1) = (plain pre).length + j := by
    rw [plain, List.length_map]
    omega
  have hle : first ≤ first + (j + 1) := Nat.le_add_right ..
  refine ⟨?_, hdoes.isOrdinary id⟩
  rw [plain_append, plain_append, List.append_assoc, hplace]
  rw [hplace] at hle
  exact (hdoes.inside _ _).mono (fun hreads n hn => Schedule.Done.mono (hreads n hn) hle) False.elim
    (fun hcalls => ⟨hcalls.1, Nat.le_trans hcalls.2 hle⟩) False.elim

/-- The program of a tree is put together from these outputs. -/
structure Source.Lays (A : Source) (P : List PoolEntry) (outputs : List Output) (p : Program) : Prop where
  pool : P.Sublist A.entries
  small : A.Small P p
  wellFormed : A.WellFormed
  functions : ∃ N returns number slot, A.Emits P [] 1 outputs N ∧ N.lookup Analysis.mainName =
    some (.function [] returns number slot) ∧
    p.functions = (Source.table outputs (mainCode returns number)).toArray

namespace Source.Lays

variable {A : Source} {p : Program} {outputs before after : List Output}

theorem functions_lt (h : A.Lays P outputs p) : A.functions < placeLimit :=
  Nat.lt_of_le_of_lt A.functions_le (Nat.lt_trans h.small.yield (by decide))

theorem functions_lt_of_append (h : Source.Lays (pre ++ post) P outputs p) : pre.functions + post.functions < placeLimit := by
  rw [← Source.functions_append]
  exact h.functions_lt

/-- Code of the entry routine pushes an address, evaluates an initial value, and stores it. -/
theorem entry_code (h : A.Lays P (before ++ .entry code :: after) p) (hcode : code ≠ []) :
    ∃ slot body, code = (Home.global slot).address :: body ++ [{ op := .store }] ∧
      (Home.global slot).address.operand.toInt = slot ∧
      Accesses ((schedule P (before ++ .entry code :: after)).evaluation (entryOf before).length) (plain body) := by
  obtain ⟨N, returns, number, slot, hA, -, -⟩ := h.functions
  obtain ⟨names, -, hvalid, -⟩ := h.wellFormed
  obtain ⟨pre, d, post, N1, entry, hds, hpre, hd, hnew, hpost⟩ := hA.split
  subst hds
  have hlimit := h.functions_lt_of_append
  have hknown := hpre.known (.cons hd hnew hpost) h.small.pool (by omega)
  obtain ⟨hnames, -⟩ := Source.Declares.nil.of_emits hpre rfl h.small rfl
  have hyield := Nat.lt_trans h.small.yield (show 2 ^ 60 < placeLimit by decide)
  have hfits := hnames.fits_entry rfl hyield h.small.globals h.small.pool (Nat.add_comm ..) hd hnew 0
  rcases hd.entry_cases with rfl | ⟨v, slot, e, body, rfl, hvalue, htype, hslot, rfl, he, rfl⟩
  · exact absurd rfl hcode
  · have hpure := e.isPure_of_emits ((hnames.fits 0).cons hfits) he htype
    obtain ⟨Γ, Γ', hv⟩ := hvalid.exists_valid (List.mem_append_right _ List.mem_cons_self)
    exact ⟨slot, body, rfl, toInt_operand_address (Nat.lt_trans (List.getElem?_eq_some_iff.1 hslot).1 h.small.pool),
      Expr.accesses_evaluation he hknown h.small.pool hpure (hv.notMem_reads hvalue hpure)⟩

/-- What the entry routine does before it calls the main function. -/
theorem does_entryOf (h : A.Lays P outputs p) (more : List Instruction) (hi : (entryOf outputs)[place]? = some i) :
    ((schedule P outputs).access 0 place).Does (plain (entryOf outputs ++ more)) place i ∧ i.op.isOrdinary = true := by
  obtain ⟨before, code, after, j, rfl, hj, rfl⟩ := exists_entry hi
  obtain ⟨slot, body, rfl, hslot, hbody⟩ := h.entry_code (by rintro rfl; cases hj)
  have hinits : (schedule P (before ++ .entry ((Home.global slot).address :: body ++ [{ op := .store }]) :: after)).inits slot
      (entryOf before).length ((entryOf before).length + body.length + 1) := ⟨before, _, body, after, rfl, hslot, rfl, rfl⟩
  rcases j with _ | j
  · cases hj
    refine ⟨.alone (.address fun n hn => ?_), rfl⟩
    obtain rfl : slot = n := Int.ofNat.inj (hslot.symm.trans hn.2)
    exact ⟨_, hinits⟩
  · rw [List.cons_append, List.getElem?_cons_succ] at hj
    rcases Nat.lt_or_ge j body.length with hlt | hge
    · rw [List.getElem?_append_left hlt] at hj
      have hcode : entryOf (before ++ .entry ((Home.global slot).address :: body ++ [{ op := .store }]) :: after) ++ more =
          (entryOf before ++ [(Home.global slot).address]) ++ body ++ ([{ op := .store }] ++ entryOf after ++ more) := by simp
      rw [hcode]
      exact Schedule.does_evaluation hbody hj List.length_append
    · rw [List.getElem?_append_right hge] at hj
      obtain ⟨hzero, rfl⟩ : j - body.length = 0 ∧ i = { op := .store } := by
        rcases hn : j - body.length with _ | n <;> rw [hn] at hj <;> cases hj
        exact ⟨rfl, rfl⟩
      refine ⟨.alone (.act (.inl rfl) ⟨slot, (entryOf before).length, ?_⟩), rfl⟩
      rwa [show (entryOf before).length + (j + 1) = (entryOf before).length + body.length + 1 by omega]

/-- What the entry routine does where it calls the main function. -/
theorem does_mainCode (h : A.Lays P outputs p) {returns : ValueType} (hA : A.Emits P [] 1 outputs N)
    (hmain : N.lookup Analysis.mainName = some (.function [] returns number slot)) {items : List Item}
    (hplace : (entryOf outputs).length ≤ place) (hi : i ∈ mainCode returns number) :
    ((schedule P outputs).access 0 place).Does items place i ∧ i.op.isOrdinary = true := by
  have hend : Source.Emits P N 1 [] [] N := .nil
  have hknown := hA.known hend h.small.pool h.functions_lt
  rw [List.append_nil] at hknown
  have hopens : number < placeLimit ∧ (schedule P outputs).opens number ≤ (entryOf outputs).length := hknown.of_lookup hmain
  rcases List.mem_append.1 hi with hi | hi
  · rcases List.mem_cons.1 hi with rfl | hi
    · exact ⟨.alone (.silent rfl), rfl⟩
    · obtain rfl := List.mem_singleton.1 hi
      exact ⟨.alone (.call ⟨hopens.1, Nat.le_trans hopens.2 hplace⟩), rfl⟩
  · split at hi
    · cases hi
    · obtain rfl := List.mem_singleton.1 hi
      exact ⟨.alone (.silent rfl), rfl⟩

/-- What a function does. -/
theorem does_function (h : A.Lays P outputs p) {f : Function} (hf : (functionsOf outputs)[k]? = some f)
    (hi : f.code[place]? = some i) :
    ((schedule P outputs).access (k + 1) place).Does (plain f.code.toList) place i := by
  obtain ⟨before, after, rfl, rfl⟩ := exists_function hf
  obtain ⟨N, returns, number, slot, hA, -, -⟩ := h.functions
  obtain ⟨pre, d, post, N1, entry, rfl, hpre, hd, hnew, hpost⟩ := hA.split
  have hlimit := h.functions_lt_of_append
  have hknown := hpre.known (.cons hd hnew hpost) h.small.pool (by omega)
  have hopens : (schedule P (before ++ .function f :: after)).opens ((functionsOf before).length + 1) = (entryOf before).length :=
    codeBefore_functionsOf before f after
  rw [← hopens] at hknown
  have hpermits : N1.Permits ((schedule P (before ++ .function f :: after)).access ((functionsOf before).length + 1) place) :=
    hknown.permits h.small.pool fun {n x} hslot ⟨y, hconst⟩ => by
      rw [hslot] at hconst
      cases hconst
  have hfunctions : d.functions = 1 := by
    cases hd
    rfl
  rw [Source.functions, hfunctions] at hlimit
  have hcode := Definition.accesses_of_emits (Schedule.owns_access _ place) hd hpermits
    ⟨by omega, Nat.le_of_eq (by rw [hpre.length_functionsOf, Nat.add_comm])⟩
  refine hcode.does ?_
  rw [plain, List.getElem?_map, Array.getElem?_toList, hi]
  rfl

/-- No global is initialized a second time. -/
theorem operand_ne {i' : Instruction} {code' : List Instruction} {more : List Output}
    (h : A.Lays P (before ++ .entry (i :: code ++ [{ op := .store }]) ::
    (more ++ .entry (i' :: code' ++ [{ op := .store }]) :: after)) p) :
    i'.operand.toInt ≠ i.operand.toInt := by
  obtain ⟨N, returns, number, slot, hA, -, -⟩ := h.functions
  obtain ⟨pre, d, post, N1, entry, rfl, hpre, hd, hnew, hpost⟩ := hA.split
  obtain ⟨v, slot, rfl, hslot, rfl, hi⟩ := hd.initialization h.small.pool
  rw [hi]
  exact hpost.slot_ne h.small.pool List.mem_cons_self hslot

theorem once (h : A.Lays P outputs p) (hinits : (schedule P outputs).inits n start stop)
    (hinits' : (schedule P outputs).inits n first last) : last = stop := by
  obtain ⟨before, i, code, after, rfl, hi, rfl, rfl⟩ := hinits
  obtain ⟨before', i', code', after', houtputs, hi', rfl, rfl⟩ := hinits'
  rcases split_cases houtputs with ⟨rfl, hsame, rfl⟩ | ⟨more, rfl, rfl⟩ | ⟨more, rfl, rfl⟩
  · have hlength := congrArg List.length (Output.entry.inj hsame)
    simp only [List.length_append, List.length_cons] at hlength
    omega
  · exact absurd (hi'.trans hi.symm) h.operand_ne
  · rw [houtputs] at h
    exact absurd (hi.trans hi'.symm) h.operand_ne

end Source.Lays

namespace Source

variable {outputs : List Output}
variable {A : Source}

theorem apart (h : (schedule P outputs).inits n start stop) (h' : (schedule P outputs).inits m first last) (hlt : first < stop)
    (hle : stop ≤ last) : m = n ∧ first = start ∧ last = stop := by
  obtain ⟨before, i, code, after, rfl, hi, rfl, rfl⟩ := h
  obtain ⟨before', i', code', after', houtputs, hi', rfl, rfl⟩ := h'
  rcases split_cases houtputs with ⟨rfl, hsame, -⟩ | ⟨more, rfl, -⟩ | ⟨more, rfl, -⟩
  · obtain ⟨rfl, hcode⟩ := List.cons.inj (Output.entry.inj hsame)
    rw [List.append_cancel_right hcode]
    exact ⟨Int.ofNat.inj (hi'.symm.trans hi), rfl, rfl⟩
  · simp only [entryOf_append, entryOf_entry, List.length_append, List.length_cons] at hlt
    omega
  · simp only [entryOf_append, entryOf_entry, List.length_append, List.length_cons] at hle
    omega

/-- An initialization ends with a store. -/
theorem getElem?_store (h : (schedule P outputs).inits n start stop) (more : List Instruction) :
    start < stop ∧ (entryOf outputs ++ more)[stop]? = some { op := .store } := by
  obtain ⟨before, i, code, after, rfl, -, rfl, rfl⟩ := h
  have hcode : entryOf (before ++ .entry (i :: code ++ [{ op := .store }]) :: after) ++ more =
      (entryOf before ++ i :: code) ++ { op := .store } :: (entryOf after ++ more) := by simp
  have hlength : (entryOf before ++ i :: code).length = (entryOf before).length + code.length + 1 := by
    rw [List.length_append, List.length_cons, Nat.add_assoc]
  refine ⟨by omega, ?_⟩
  rw [hcode, ← hlength, List.getElem?_append_right (Nat.le_refl _), Nat.sub_self]
  rfl

/-- The code of the entry routine ends with an initialization, if there is any. -/
theorem Emits.entryOf_cases {N' : Scope} (h : ds.Emits P N number outputs N') :
    entryOf outputs = [] ∨ ∃ before slot body after,
      outputs = before ++ .entry ((Home.global slot).address :: body ++ [{ op := .store }]) :: after ∧ slot < P.length ∧
        entryOf after = [] := by
  induction h with
  | nil => exact .inl rfl
  | @cons N N' number d ds output outputs entry hd hnew hds ih =>
    rcases ih with hnil | ⟨before, slot, body, after, rfl, hslot, hafter⟩
    · cases output with
      | function f => exact .inl hnil
      | entry code =>
        rcases hd.entry_cases with rfl | ⟨v, slot, e, body, rfl, -, -, hslot, -, -, rfl⟩
        · exact .inl hnil
        · exact .inr ⟨[], slot, body, outputs, rfl, (List.getElem?_eq_some_iff.1 hslot).1, hnil⟩
    · exact .inr ⟨output :: before, slot, body, after, rfl, hslot, hafter⟩

/-- An initialization starts where the entry routine does, or right behind another one. -/
theorem Emits.adjoins (hA : A.Emits P [] 1 outputs N) (hP : P.length < placeLimit) (h : (schedule P outputs).inits n start stop) :
    start = 0 ∨ ∃ m first last, (schedule P outputs).inits m first last ∧ start = last + 1 := by
  obtain ⟨before, i, code, after, rfl, hi, rfl, rfl⟩ := h
  obtain ⟨pre, d, post, N1, entry, -, hpre, -⟩ := hA.split
  rcases hpre.entryOf_cases with hnil | ⟨b, slot, body, a, rfl, hslot, ha⟩
  · exact .inl (by rw [hnil]; rfl)
  · refine .inr ⟨slot, (entryOf b).length, (entryOf b).length + body.length + 1, ⟨b, (Home.global slot).address, body,
      a ++ .entry (i :: code ++ [{ op := .store }]) :: after, by simp, toInt_operand_address (Nat.lt_trans hslot hP), rfl, rfl⟩,
        ?_⟩
    simp only [entryOf_append, entryOf_entry, ha, List.length_append, List.length_cons, List.length_nil]
    omega

/-- The program of a tree keeps to the schedule of its outputs. -/
theorem Lays.follows {p : Program} (h : A.Lays P outputs p) : p.Follows (schedule P outputs) := by
  obtain ⟨N, returns, number, slot, hA, hmain, hp⟩ := h.functions
  have hentry : p.functions[0]? = some { header := {}, code := (entryOf outputs ++ mainCode returns number).toArray } := by
    rw [hp]
    rfl
  have hdoes {f : Function} (hf : p.functions[0]? = some f) {place : Nat} {i : Instruction} (hi : f.code[place]? = some i) :
      ((schedule P outputs).access 0 place).Does (plain f.code.toList) place i ∧ i.op.isOrdinary = true := by
    rw [hentry] at hf
    cases hf
    rw [List.getElem?_toArray] at hi
    rcases Nat.lt_or_ge place (entryOf outputs).length with hlt | hge
    · rw [List.getElem?_append_left hlt] at hi
      exact h.does_entryOf _ hi
    · rw [List.getElem?_append_right hge] at hi
      exact h.does_mainCode hA hmain hge (List.mem_of_getElem? hi)
  refine ⟨fun {k place f i} hf hi => ?_, fun hf hi => (hdoes hf hi).2, fun {n start stop} hinits => ?_,
    hA.adjoins h.small.pool, apart, h.once⟩
  · cases k with
    | zero => exact (hdoes hf hi).1
    | succ k =>
      rw [hp, List.getElem?_toArray, Source.table, List.getElem?_cons_succ] at hf
      exact h.does_function hf hi
  · obtain ⟨hlt, hstore⟩ := getElem?_store hinits (mainCode returns number)
    exact ⟨hlt, _, { op := .store }, hentry, by rw [List.getElem?_toArray]; exact hstore, rfl⟩

end Source

end

end OnePass
