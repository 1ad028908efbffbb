import OnePass.Proofs.Contexts

/-!
# What the pool of a program holds

What the terminals and the definitions of a tree may need a pool for: no pool of the tree holds anything else, so it is no longer
than the tree.
-/

namespace OnePass

/-- The pool entry that an expression with this terminal may need. -/
def Terminal.entry? : Terminal → Option PoolEntry
  | text _ content => some (.literal content)
  | name x => if (Primitive.ofName? x).isSome then some (.primitive x) else none
  | _ => none

/-- The pool entry of a definition. -/
def Definition.head : Definition → PoolEntry
  | function name _ _ _ => .function name
  | global d => .variable d.isConst d.name

/-- The pool entries of a definition: its own, and those that its terminals may need. -/
def Definition.entries (d : Definition) : List PoolEntry := d.head :: d.yield.filterMap Terminal.entry?

/-- The pool entries of a program, the entry routine first. -/
def Source.entries (A : Source) : List PoolEntry := .function Analysis.entryName :: A.flatMap Definition.entries

/-! ## Sizes -/

theorem Definition.length_entries_le (d : Definition) : d.entries.length ≤ d.yield.length := by
  -- the first terminal of a definition is a keyword, which needs no entry
  obtain ⟨kind, ts, hyield⟩ : ∃ kind ts, d.yield = .mark kind :: ts := by cases d <;> exact ⟨_, _, rfl⟩
  rw [Definition.entries, hyield, List.length_cons, List.length_cons]
  exact Nat.succ_le_succ (List.length_filterMap_le Terminal.entry? ts)

theorem Source.length_flatMap_entries_le : ∀ A : Source, (A.flatMap Definition.entries).length ≤ A.yield.length
  | [] => Nat.le_refl 0
  | d :: ds => by
    have := d.length_entries_le
    have := length_flatMap_entries_le ds
    simp only [Source.yield, List.flatMap_cons, List.length_append] at this ⊢
    omega

end OnePass
