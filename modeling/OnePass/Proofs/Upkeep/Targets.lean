import OnePass.Proofs.Agreement.Program
import OnePass.Proofs.Emission.Outputs
import OnePass.Proofs.Upkeep.Program

/-!
# Where branches go

Every branch of a function goes to one of its instructions or to its end, since every rule of emission keeps to that (`Inside`).
With the ledger of the watched analysis it is known where: to where the analysis stood when the branch was patched, from a `break`
to the first instruction after its loop, and from a `continue` to the first instruction of its loop (`analyze_patches_branches`).
-/

namespace OnePass

/-- The operations that branch. -/
def Opcode.isBranch : Opcode → Bool
  | br | brTrue | brFalse => true
  | _ => false

/-- A branch at a place of code of this length goes to one of its places or to its end. -/
def Instruction.Lands (i : Instruction) (length place : Nat) : Prop :=
  i.op.isBranch = true → ∃ target ≤ length, i.operand = Int64.ofInt (target - (place + 1))

/-- All branches among the items go to one of them or to their end. -/
def Inside (items : List Item) : Prop := ∀ k i, items[k]? = some (Item.instr i) → i.Lands items.length k

namespace Inside

variable {items more : List Item} {code : List Instruction} {i : Instruction}

theorem nil : Inside [] := nofun

theorem append (h : Inside items) (hmore : Inside more) : Inside (items ++ more) := by
  intro k i hi hop
  rw [List.length_append]
  by_cases hk : k < items.length
  · rw [List.getElem?_append_left hk] at hi
    obtain ⟨target, hle, htarget⟩ := h k i hi hop
    exact ⟨target, by omega, htarget⟩
  · rw [List.getElem?_append_right (by omega)] at hi
    obtain ⟨target, hle, htarget⟩ := hmore _ i hi hop
    exact ⟨items.length + target, by omega, htarget.trans (congrArg _ (by omega))⟩

theorem cons {item : Item} (hitem : ∀ i, item = .instr i → i.Lands (items.length + 1) 0) (h : Inside items) :
    Inside (item :: items) := by
  intro k i hi hop
  cases k with
  | zero => exact hitem i (Option.some.inj hi) hop
  | succ k =>
    obtain ⟨target, hle, htarget⟩ := h k i hi hop
    exact ⟨target + 1, Nat.succ_le_succ hle, htarget.trans (congrArg _ (by omega))⟩

/-- Code without branches. -/
theorem plain (h : ∀ i ∈ code, i.op.isBranch = false) : Inside (plain code) := by
  intro k i hi hop
  obtain ⟨j, hj, heq⟩ := List.mem_map.1 (List.mem_of_getElem? hi)
  cases heq
  simp [h i hj] at hop

theorem one (h : i.op.isBranch = false) : Inside (OnePass.plain [i]) := plain (List.forall_mem_singleton.2 h)

/-- A condition that does not hold goes on to the item after it, and one that holds past that. -/
theorem test {item : Item} (hcode : Inside (OnePass.plain code)) (hitem : ∀ i, item = .instr i → i.Lands (items.length + 1) 0)
    (h : Inside items) : Inside (OnePass.plain (testCode code) ++ item :: items) := by
  rw [testCode, OnePass.plain, List.map_append, List.append_assoc]
  refine hcode.append (cons ?_ (cons hitem h))
  rintro i ⟨⟩ -
  exact ⟨2, by simp, rfl⟩

/-- The branches that waited for a loop to be closed go to its start or to its end. -/
theorem close (h : Inside items) {first stop : Nat} (hfirst : first ≤ items.length) (hstop : stop ≤ items.length) :
    Inside (OnePass.plain (items.mapIdx (Item.close first stop))) := by
  intro k i hi hop
  rw [OnePass.plain, List.length_map, List.length_mapIdx]
  simp only [OnePass.plain, List.getElem?_map, List.getElem?_mapIdx, Option.map_map, Option.map_eq_some_iff] at hi
  obtain ⟨item, hitem, heq⟩ := hi
  obtain rfl := Item.instr.inj heq
  cases item with
  | instr i => exact h k i hitem hop
  | exit => exact ⟨stop, hstop, rfl⟩
  | again => exact ⟨first, hfirst, rfl⟩

end Inside

variable {P : List PoolEntry}

theorem CodeLaw.inside (N : Scope) : CodeLaw P N fun code => Inside (plain code) where
  nil := .nil
  append hcode hmore := by
    rw [plain, List.map_append]
    exact hcode.append hmore
  push _ := .one rfl
  address {_ _ _ _ home} _ := .one (by cases home <;> rfl)
  load := .one rfl
  store := .one rfl
  stackAlloc _ := .one rfl
  call _ := .one rfl
  callName _ := .one rfl
  negInt := .one rfl
  negDouble := .one rfl
  operation {op τ1 τ2 _ _} hop := .plain (by cases op <;> cases τ1 <;> cases τ2 <;> cases hop <;> decide)

theorem ItemLaw.inside {returns : ValueType} : ItemLaw P returns fun _ _ _ _ _ items => Inside items where
  nil := .nil
  cons _ hfirst hrest := by
    split
    · exact hfirst
    · exact hfirst.append hrest
  declare hd := (CodeLaw.inside _).declaration hd
  effect {_ N _ _ _ _} he := by
    have hlaw := CodeLaw.inside (P := P) N
    refine hlaw.append (hlaw.expr _ he) ?_
    split
    · exact .nil
    · exact .one rfl
  exit := .cons nofun .nil
  again := .cons nofun .nil
  leave _ := .one rfl
  result {_ N _ _ _} _ hvalue := by
    have hlaw := CodeLaw.inside (P := P) N
    exact hlaw.append (hlaw.append (.one rfl) (hlaw.expr _ hvalue)) (hlaw.append hlaw.store (.one rfl))
  loop {_ _ _ _ _ _ f _ _} hcondition _ hbody := by
    refine .close (.test ((CodeLaw.inside _).expr _ hcondition) (by nofun) (hbody.append ?_)) (Nat.zero_le _) (Nat.le_refl _)
    cases f.breaks
    · exact .cons nofun .nil
    · exact .nil
  arm {_ _ _ _ _ _ _ _ _ items others _} hcondition _ hbody hothers := by
    have hover : Inside (.instr (branchBy others.length) :: others) := by
      refine .cons ?_ hothers
      rintro i ⟨⟩ -
      exact ⟨others.length + 1, Nat.le_refl _, congrArg Int64.ofInt (by omega)⟩
    rw [armItems, armHead, List.append_assoc, List.cons_append]
    refine .test ((CodeLaw.inside _).expr _ hcondition) ?_ (hbody.append hover)
    rintro i ⟨⟩ -
    exact ⟨items.length + 2, by simp, congrArg Int64.ofInt (by omega)⟩

/-- Every branch of a function goes to one of its instructions or to its end. -/
theorem Source.Makes.lands {A : Source} {p : Program} (h : A.Makes P p) {n k : Nat} {f : Function} {i : Instruction}
    (hf : p.functions[n]? = some f) (hi : f.code[k]? = some i) : i.Lands f.code.size k := by
  have hinside : Inside (plain f.code.toList) := by
    refine h.law_code (T := fun code => Inside (plain code)) CodeLaw.inside (fun _ => .one rfl) (.one rfl) (fun hbody => ?_) hf
    exact (ItemLaw.inside.block _ hbody).close (Nat.zero_le _) (Nat.zero_le _)
  have := hinside k i (by simp [plain, hi])
  simpa [plain] using this

/-- Whatever the tokens are, their analysis does the same under watch. So whenever a statement begins or ends, each branch that an
open loop has noted and each that an open `if` or loop is still to patch is there, at a handle of its own, as it was emitted; an
open loop has noted the branches of its own `break`s, but for those that were dropped; and no other branch is ever patched. In the
program nothing waits any more and no loop is open. Each branch that was patched and has not been dropped goes to where it was
patched: that of a `break` to the first instruction after its innermost loop, and that of a `continue` to the first condition
instruction of that loop. And no branch of a function leaves it. -/
theorem analyze_patches_branches (tokens : List Token) :
    (Watched.analyze (Replay.ofTokens tokens)).map Prod.fst = analyze (Replay.ofTokens tokens) ∧
    ∀ p L, Watched.analyze (Replay.ofTokens tokens) = .ok (p, L) →
      L.waiting = [] ∧ L.around = [] ∧
      (∃ entry body : List Instruction, splitFunctions (entry ++ body) = .ok p.functions ∧
        (∀ handle target, (handle, target) ∈ L.settled → body[handle]? = some (branchBy (target - (handle + 1)))) ∧
        ∀ loop stop, (loop, stop) ∈ L.closed →
          (∀ handle ∈ loop.breaks, body[handle]? = some (branchBy (stop - (handle + 1)))) ∧
          ∀ handle ∈ loop.continues, body[handle]? = some (branchBy (loop.first - (handle + 1)))) ∧
      ∀ (n k : Nat) (f : Function) (i : Instruction), p.functions[n]? = some f → f.code[k]? = some i → i.Lands f.code.size k := by
  have hshadows := Watched.analyze_shadows (Replay.ofTokens tokens)
  cases hanalyze : analyze (Replay.ofTokens tokens) with
  | error e =>
    rw [hanalyze] at hshadows
    rw [hshadows.1]
    exact ⟨rfl, nofun⟩
  | ok p =>
    rw [hanalyze] at hshadows
    obtain ⟨L, hwatched, hwaiting, haround, htargets, entry, body, hsplit, hsettled⟩ := hshadows
    rw [hwatched]
    refine ⟨rfl, ?_⟩
    rintro _ _ ⟨⟩
    obtain ⟨A, hgrouped, hyield, hstop⟩ := analyze_reads hanalyze
    have htranslate := analyze_toOption hgrouped hyield hstop
    rw [hanalyze] at htranslate
    obtain ⟨P, hmakes⟩ := A.exists_makes hgrouped htranslate.symm
    have hbranch (j : Nat × Nat) (hj : j ∈ L.targets) := hsettled j (htargets j hj)
    refine ⟨hwaiting, haround, ⟨entry, body, hsplit, fun handle target hj => hsettled _ hj, fun loop stop hloop => ⟨?_, ?_⟩⟩,
      fun n k f i => hmakes.lands⟩
    · exact fun handle hhandle => hbranch (handle, stop) (L.mem_targets_of_closed hloop (.inl (List.mem_map_of_mem hhandle)))
    · exact fun handle hhandle => hbranch (handle, loop.first)
        (L.mem_targets_of_closed hloop (.inr (List.mem_map_of_mem hhandle)))

/-- The tokens of a program with a `continue`, and with a second `break` that is dropped. -/
def leftLoop : List Token := (lex (Bytes.ofString
  "fn main() -> void \x7b while 1 \x7b if 2 \x7b continue; \x7d break; break; \x7d \x7d")).1

/-- The `break` that is kept goes to the end of the loop, and the `continue` to its start. -/
theorem analyze_patches_branches_left_loop : ∃ p L, Watched.analyze (Replay.ofTokens leftLoop) = .ok (p, L) ∧
    L.closed = [({ first := 1, breaks := [9], continues := [7] }, 10)] ∧ L.waiting = [] ∧
    ∃ entry body : List Instruction, splitFunctions (entry ++ body) = .ok p.functions ∧
      body[9]? = some (branchBy (10 - (9 + 1))) ∧ body[7]? = some (branchBy (1 - (7 + 1))) := by
  have hclosed : (Watched.analyze (Replay.ofTokens leftLoop)).toOption.map (·.2.closed) =
      some [({ first := 1, breaks := [9], continues := [7] }, 10)] := by decide +kernel
  rcases hrun : Watched.analyze (Replay.ofTokens leftLoop) with e | ⟨p, L⟩
  · rw [hrun] at hclosed
    cases hclosed
  · rw [hrun] at hclosed
    have hclosed : L.closed = [({ first := 1, breaks := [9], continues := [7] }, 10)] := Option.some.inj hclosed
    obtain ⟨hwaiting, -, ⟨entry, body, hsplit, -, hloops⟩, -⟩ := (analyze_patches_branches leftLoop).2 p L hrun
    obtain ⟨hbreaks, hcontinues⟩ := hloops _ _ (hclosed ▸ List.mem_singleton_self _)
    exact ⟨p, L, rfl, hclosed, hwaiting, entry, body, hsplit, hbreaks 9 (by simp), hcontinues 7 (by simp)⟩

end OnePass
