import OnePass.Proofs.Contexts

/-!
# The entries of a pool

What a program needs a pool for can be read off its tree in the order of the text: an entry for each function and each global
variable where it is defined, for each literal text, and for each call of a primitive whose name nothing in scope has
(`Source.needs`). Of these, texts and primitives share their entries. So the pool starts with the entry routine, and each need
adds an entry unless it is met by a shared one (`Source.pool`). Code that is never reached has needs as any other.
-/

namespace OnePass

variable {entry : PoolEntry}

/-! ## Names -/

/-- What a name refers to, as far as the pool is concerned. -/
inductive NameKind where
  /-- A parameter or a local variable. -/
  | cell
  | global (const : Bool)
  | function
  deriving DecidableEq, Repr

/-- The names in scope with what they refer to, the latest first. -/
abbrev Sight := List (Bytes × NameKind)

/-- What is known of a name, reduced to what it refers to. -/
def Binding.kind : Binding → NameKind
  | .variable _ const _ (.global _) => .global const
  | .variable .. => .cell
  | .function .. => .function

@[simp] theorem Binding.kind_assign (b : Binding) : b.assign.kind = b.kind := by
  cases b with
  | «variable» type const assigned home => cases home <;> rfl
  | function => rfl

/-- The names of a scope with what they refer to. -/
def Scope.sight (scope : Scope) : Sight := scope.map fun (x, binding) => (x, binding.kind)

@[simp] theorem Scope.sight_append (scope scope' : Scope) :
    Scope.sight (scope ++ scope') = scope.sight ++ scope'.sight := List.map_append

theorem Scope.lookup_sight (x : Bytes) (scope : Scope) : scope.sight.lookup x = (scope.lookup x).map Binding.kind := by
  induction scope with
  | nil => rfl
  | cons entry scope ih =>
    obtain ⟨y, binding⟩ := entry
    simp only [Scope.sight, List.map_cons, List.lookup_cons] at ih ⊢
    split
    · rfl
    · exact ih

/-- The names in scope at a point of a program. -/
def Context.sight (c : Context) : Sight := c.names.sight

theorem Context.lookup_sight (c : Context) (x : Bytes) : c.sight.lookup x = (c.scopes.find? x).map Binding.kind := by
  rw [Context.sight, Scope.lookup_sight, c.lookup_names, Option.map_map]
  cases c.scopes.find? x with
  | none => rfl
  | some b => exact congrArg some b.kind_assign

/-! ## Needs -/

mutual

/-- The entries that an expression needs. -/
def Expr.needs (N : Sight) : Expr → List PoolEntry
  | .int _ | .double _ | .name _ => []
  | .text _ content => [.literal content]
  | .assign _ value => value.needs N
  | .call f args => (if (N.lookup f).isSome then [] else [.primitive f]) ++ args.needs N
  | .paren e | .neg e | .cast e _ => e.needs N
  | .binary _ left right => left.needs N ++ right.needs N

/-- The entries that arguments need. -/
def Args.needs (N : Sight) : Args → List PoolEntry
  | .nil => []
  | .cons first rest => first.needs N ++ rest.needs N

end

/-- The entries that the initial value of a declaration needs, in which its own name is in scope. -/
def Declaration.needs (N : Sight) (d : Declaration) (kind : NameKind) : List PoolEntry :=
  (d.value?.map fun value => value.needs ((d.name, kind) :: N)).getD []

/-- The names that a statement adds to those of its block. -/
def Stmt.sight : Stmt → Sight
  | .declare d => [(d.name, .cell)]
  | _ => []

mutual

/-- The entries that a statement needs. -/
def Stmt.needs (N : Sight) : Stmt → List PoolEntry
  | .declare d => d.needs N .cell
  | .branch branches => branches.needs N
  | .loop condition body => condition.needs N ++ body.needs N
  | .return (some value) => value.needs N
  | .block body => body.needs N
  | .effect e => e.needs N
  | .break | .continue | .return none | .empty => []

/-- The entries that a block needs, reached or not. -/
def Block.needs (N : Sight) : Block → List PoolEntry
  | .nil => []
  | .cons first rest => first.needs N ++ rest.needs (first.sight ++ N)

/-- The entries that the branches of an `if` need. -/
def Branches.needs (N : Sight) : Branches → List PoolEntry
  | .only condition body => condition.needs N ++ body.needs N
  | .orElse condition body otherwise => condition.needs N ++ (body.needs N ++ otherwise.needs N)
  | .orIf condition body rest => condition.needs N ++ (body.needs N ++ rest.needs N)

end

/-- The names of parameters, the latest first. -/
def Param.sight (params : List Param) : Sight := (params.map fun p => (p.name, .cell)).reverse

/-- The name that a definition gives. -/
def Definition.sight : Definition → Bytes × NameKind
  | .function name _ _ _ => (name, .function)
  | .global d => (d.name, .global d.isConst)

/-- The entries that a definition needs, its own first. -/
def Definition.needs (N : Sight) : Definition → List PoolEntry
  | .function name params _ body => .function name :: body.needs (Param.sight params ++ (name, .function) :: N)
  | .global d => .variable d.isConst d.name :: d.needs N (.global d.isConst)

/-- The entries that definitions need. -/
def Source.needs (N : Sight) : Source → List PoolEntry
  | [] => []
  | d :: ds => d.needs N ++ needs (d.sight :: N) ds

/-! ## Pools -/

/-- The entry is one for all uses of a text, or of a primitive. -/
def PoolEntry.isShared : PoolEntry → Bool
  | .literal _ | .primitive _ => true
  | .function _ | .variable _ _ => false

/-- The pool after an entry has been needed. -/
def PoolEntry.join (pool : List PoolEntry) (entry : PoolEntry) : List PoolEntry :=
  if entry.isShared = true ∧ entry ∈ pool then pool else pool ++ [entry]

/-- The pool of a program behind the entry routine. -/
def Source.ownPool (A : Source) : List PoolEntry := (A.needs []).foldl PoolEntry.join []

/-- The pool of a program. -/
def Source.pool (A : Source) : List PoolEntry := .function Analysis.entryName :: A.ownPool

/-- An entry that is not shared does not matter to later ones. -/
theorem PoolEntry.foldl_join_cons (h : entry.isShared = false) (needs pool : List PoolEntry) :
    needs.foldl join (entry :: pool) = entry :: needs.foldl join pool := by
  induction needs generalizing pool with
  | nil => rfl
  | cons need needs ih =>
    have hjoin : join (entry :: pool) need = entry :: join pool need := by
      have hmem : (need.isShared = true ∧ need ∈ entry :: pool) ↔ need.isShared = true ∧ need ∈ pool := by
        refine and_congr_right fun hneed => ⟨fun hmem => ?_, List.mem_cons_of_mem entry⟩
        rcases List.mem_cons.1 hmem with rfl | hmem
        · rw [h] at hneed
          cases hneed
        · exact hmem
      simp only [join, hmem]
      split <;> rfl
    rw [List.foldl_cons, List.foldl_cons, hjoin, ih]

theorem Source.pool_eq (A : Source) : A.pool = (A.needs []).foldl PoolEntry.join [.function Analysis.entryName] :=
  (PoolEntry.foldl_join_cons rfl _ []).symm

/-- Needs add to a pool some of their entries, in their order. -/
theorem PoolEntry.exists_foldl_join (needs pool : List PoolEntry) :
    ∃ more, needs.foldl join pool = pool ++ more ∧ more.Sublist needs := by
  induction needs generalizing pool with
  | nil => exact ⟨[], (List.append_nil _).symm, .slnil⟩
  | cons need needs ih =>
    obtain ⟨more, hmore, hsub⟩ := ih (join pool need)
    rw [List.foldl_cons, hmore, join]
    split
    · exact ⟨more, rfl, hsub.cons _⟩
    · exact ⟨need :: more, by simp, hsub.cons_cons _⟩

theorem PoolEntry.prefix_foldl_join (needs pool : List PoolEntry) : pool <+: needs.foldl join pool := by
  obtain ⟨more, hmore, -⟩ := exists_foldl_join needs pool
  rw [hmore]
  exact List.prefix_append ..

end OnePass
