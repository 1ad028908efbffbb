import OnePass.Proofs.Agreement.Program
import OnePass.Proofs.Upkeep.Expression

/-!
# Cutting a stream into functions

`splitFunctions` undoes writing functions one after another (`Function.stream`). What a step of it does to the table is said once
(`splitFrom_cons_ok`); by induction over the stream, the functions that come out are the ones that were written, in their order.
-/

namespace OnePass

variable {code : List Instruction} {i : Instruction} {place : Nat} {table fs : Array Function}

/-- The instruction without the operand that a marker may hold and that nothing reads. -/
def Instruction.bare (i : Instruction) : Instruction := if i.op = .marker then { i with operand := 0 } else i

@[simp] theorem Instruction.bare_of_ne (h : i.op ≠ .marker) : i.bare = i := if_neg h

theorem Instruction.bare_eq_start {header : Header} (hop : i.op = .marker) (hheader : i.header = some header) :
    i.bare = .start header := by
  simp [Instruction.bare, Instruction.start, hop, hheader]

theorem Instruction.bare_eq_self_iff : i.bare = i ↔ (i.op = .marker → i.operand = 0) := by
  by_cases hop : i.op = .marker
  · rw [Instruction.bare, if_pos hop, Instruction.mk.injEq]
    simp [hop, eq_comm]
  · simp [hop]

/-- A step of the cutting: a marker starts a function, and any other instruction goes to the function that was started last. -/
theorem splitFrom_cons_ok (h : splitFrom place table (i :: code) = .ok fs) :
    (∃ header, i.op = .marker ∧ i.header = some header ∧ splitFrom (place + 1) (table.push { header }) code = .ok fs) ∨
      ∃ (older : Array Function) (f : Function), i.op ≠ .marker ∧ table = older.push f ∧
        splitFrom (place + 1) (older.push { f with code := f.code.push i }) code = .ok fs := by
  rw [splitFrom] at h
  by_cases hop : i.op = .marker
  · rw [if_pos hop] at h
    cases hheader : i.header with
    | none => simp [hheader] at h
    | some header => exact .inl ⟨header, hop, rfl, by simpa [hheader] using h⟩
  · rw [if_neg hop] at h
    by_cases hempty : table.isEmpty
    · simp [hempty] at h
    · rw [if_neg hempty] at h
      obtain ⟨older, f, rfl⟩ := Array.eq_push_of_size_ne_zero (show table.size ≠ 0 by simpa [Array.isEmpty] using hempty)
      refine .inr ⟨older, f, hop, rfl, ?_⟩
      rwa [appendToLast_push] at h

theorem headed_of_splitFrom (h : splitFrom place table code = .ok fs) : Headed code := by
  induction code generalizing place table with
  | nil => simp [Headed]
  | cons i code ih =>
    rcases splitFrom_cons_ok h with ⟨header, -, hheader, hrest⟩ | ⟨older, f, hop, -, hrest⟩
    · exact List.forall_mem_cons.2 ⟨fun _ => by simp [hheader], ih hrest⟩
    · exact List.forall_mem_cons.2 ⟨fun hmarker => absurd hmarker hop, ih hrest⟩

/-- A stream falls into functions if and only if its markers have headers and nothing stands before the first of them. -/
theorem exists_splitFunctions_iff : (∃ fs, splitFunctions code = .ok fs) ↔ Headed code ∧ ∀ i ∈ code.head?, i.op = .marker := by
  constructor
  · rintro ⟨fs, h⟩
    refine ⟨headed_of_splitFrom h, fun i hi => ?_⟩
    obtain ⟨rest, rfl⟩ := List.head?_eq_some_iff.1 hi
    rcases splitFrom_cons_ok h with ⟨header, hop, -⟩ | ⟨older, f, -, hempty, -⟩
    · exact hop
    · exact absurd (congrArg Array.size hempty) (by simp)
  · rintro ⟨hheaded, hstart⟩
    exact hheaded.exists_splitFrom fun _ => hstart

/-- What is cut off is written back in front of the functions that come out. -/
theorem flatMap_stream_splitFrom (h : splitFrom place table code = .ok fs) :
    fs.toList.flatMap Function.stream = table.toList.flatMap Function.stream ++ code.map Instruction.bare := by
  induction code generalizing place table with
  | nil =>
    obtain rfl : table = fs := Except.ok.inj h
    simp
  | cons i code ih =>
    rcases splitFrom_cons_ok h with ⟨header, hop, hheader, hrest⟩ | ⟨older, f, hop, rfl, hrest⟩
    · simp [ih hrest, Function.stream, Instruction.bare_eq_start hop hheader]
    · simp [ih hrest, Function.stream, hop]

/-- No function holds a marker in its code. -/
theorem unmarked_splitFrom (h : splitFrom place table code = .ok fs) (htable : ∀ f ∈ table.toList, Unmarked f.code.toList) :
    ∀ f ∈ fs.toList, Unmarked f.code.toList := by
  induction code generalizing place table with
  | nil =>
    obtain rfl : table = fs := Except.ok.inj h
    exact htable
  | cons i code ih =>
    rcases splitFrom_cons_ok h with ⟨header, -, -, hrest⟩ | ⟨older, f, hop, rfl, hrest⟩
    · refine ih hrest fun f hf => ?_
      rcases (by simpa using hf : f ∈ table ∨ f = { header }) with hf | rfl
      · exact htable f (Array.mem_toList_iff.2 hf)
      · simp
    · refine ih hrest fun g hg => ?_
      rcases (by simpa using hg : g ∈ older ∨ g = { f with code := f.code.push i }) with hg | rfl
      · exact htable g (by simp [hg])
      · simpa [hop] using htable f (by simp)

theorem size_splitFrom (h : splitFrom place table code = .ok fs) : fs.size = table.size + code.countP (·.op = .marker) := by
  induction code generalizing place table with
  | nil =>
    obtain rfl : table = fs := Except.ok.inj h
    simp
  | cons i code ih =>
    rcases splitFrom_cons_ok h with ⟨header, hop, -, hrest⟩ | ⟨older, f, hop, rfl, hrest⟩
    · simp [ih hrest, hop]
      omega
    · simp [ih hrest, hop]

/-- The function that is open takes the code up to the next marker, and stays where it is. -/
theorem splitFrom_push_ok {older : Array Function} {f : Function} (h : splitFrom place (older.push f) code = .ok fs) :
    ∃ more, fs.toList =
      older.toList ++ { f with code := f.code ++ (code.takeWhile (·.op ≠ .marker)).toArray } :: more := by
  induction code generalizing place older f with
  | nil =>
    obtain rfl : older.push f = fs := Except.ok.inj h
    exact ⟨[], by simp⟩
  | cons i code ih =>
    rcases splitFrom_cons_ok h with ⟨header, hop, -, hrest⟩ | ⟨older', f', hop, hpush, hrest⟩
    · obtain ⟨more, hmore⟩ := ih hrest
      refine ⟨{ header, code := (code.takeWhile (·.op ≠ .marker)).toArray } :: more, ?_⟩
      rw [hmore]
      simp [hop]
    · obtain ⟨rfl, rfl⟩ := Array.push_eq_push.1 hpush
      obtain ⟨more, hmore⟩ := ih hrest
      refine ⟨more, ?_⟩
      rw [hmore]
      simp [hop]

/-- The function that a marker starts has its place after as many functions as there are markers before it. -/
theorem getElem?_splitFrom {before after : List Instruction} (h : splitFrom place table (before ++ i :: after) = .ok fs)
    (hop : i.op = .marker) :
    ∃ f, fs[table.size + before.countP (·.op = .marker)]? = some f ∧ i.header = some f.header ∧
      f.code.toList = after.takeWhile (·.op ≠ .marker) := by
  induction before generalizing place table with
  | nil =>
    rcases splitFrom_cons_ok h with ⟨header, -, hheader, hrest⟩ | ⟨_, _, hother, -⟩
    · obtain ⟨more, hmore⟩ := splitFrom_push_ok hrest
      refine ⟨{ header, code := (after.takeWhile (·.op ≠ .marker)).toArray }, ?_, hheader, by simp⟩
      rw [← Array.getElem?_toList, hmore]
      simp
    · exact absurd hop hother
  | cons j before ih =>
    rcases splitFrom_cons_ok h with ⟨header, hj, -, hrest⟩ | ⟨older, f, hj, rfl, hrest⟩
    · have hplace := ih hrest
      rwa [Array.size_push, Nat.add_assoc, Nat.add_comm 1, ← List.countP_cons_of_pos (a := j) (by simp [hj])] at hplace
    · have hplace := ih hrest
      rwa [Array.size_push, ← Array.size_push (v := f), ← List.countP_cons_of_neg (a := j) (by simp [hj])] at hplace

/-- Cutting a stream into functions undoes writing functions one after another. It comes to an end just for the streams whose
markers all have headers and in which nothing stands before the first marker. Then writing the functions back, each as its marker
and its code, gives the stream again (to the letter where no marker holds an operand, which no marker that is written does), and
the function that a marker starts, with the code up to the next marker, has as many functions before it as there are markers
before that one. And whatever functions are written one after another, with no marker in their code, are what comes out. -/
theorem splitFunctions_inverts_streams (code : List Instruction) :
    ((∃ fs, splitFunctions code = .ok fs) ↔
      (∀ i ∈ code, i.op = .marker → i.header.isSome) ∧ (code = [] ∨ ∃ i rest, code = i :: rest ∧ i.op = .marker)) ∧
    (∀ fs, splitFunctions code = .ok fs →
      fs.toList.flatMap Function.stream = code.map Instruction.bare ∧
      (fs.toList.flatMap Function.stream = code ↔ ∀ i ∈ code, i.op = .marker → i.operand = 0) ∧
      (∀ f ∈ fs.toList, Unmarked f.code.toList) ∧
      fs.size = code.countP (·.op = .marker) ∧
      ∀ before i after, code = before ++ i :: after → i.op = .marker →
        ∃ f, fs[before.countP (·.op = .marker)]? = some f ∧ i.header = some f.header ∧
          f.code.toList = after.takeWhile (·.op ≠ .marker)) ∧
    ∀ fs : List Function, (∀ f ∈ fs, Unmarked f.code.toList) → code = fs.flatMap Function.stream →
      splitFunctions code = .ok fs.toArray := by
  refine ⟨exists_splitFunctions_iff.trans (and_congr_right fun _ => ?_), fun fs h => ?_, fun fs hfs hcode => ?_⟩
  · cases code <;> simp
  · have hstream : fs.toList.flatMap Function.stream = code.map Instruction.bare := by
      simpa using flatMap_stream_splitFrom h
    refine ⟨hstream, ?_, unmarked_splitFrom h (by simp), by simpa using size_splitFrom h, ?_⟩
    · conv_lhs => rw [hstream, ← List.map_id code, List.map_map]
      simp only [List.map_inj_left, Function.comp_apply, id_eq, Instruction.bare_eq_self_iff]
    · rintro before i after rfl hop
      simpa using getElem?_splitFrom h hop
  · rw [hcode, splitFunctions, splitFrom_streams fs hfs]
    simp

/-- Two functions, the second without code, go into one stream and come out of it. -/
theorem splitFunctions_inverts_streams_pair : splitFunctions [.start { slot := 0 }, { op := .ret }, .start { slot := 1 }] =
      .ok #[{ header := { slot := 0 }, code := #[{ op := .ret }] }, { header := { slot := 1 } }] ∧
    ∃ f, (#[{ header := { slot := 0 }, code := #[{ op := .ret }] }, { header := { slot := 1 } }] : Array Function)[1]? = some f ∧
      f.header = { slot := 1 } := by
  have hall := splitFunctions_inverts_streams [.start { slot := 0 }, { op := .ret }, .start { slot := 1 }]
  have hsplit := hall.2.2 [{ header := { slot := 0 }, code := #[{ op := .ret }] }, { header := { slot := 1 } }] (by simp) rfl
  obtain ⟨f, hf, hheader, -⟩ := (hall.2.1 _ hsplit).2.2.2.2 [.start { slot := 0 }, { op := .ret }] _ [] rfl rfl
  exact ⟨hsplit, f, hf, (Option.some.inj hheader).symm⟩

/-- A stream whose marker was patched like a branch, and so holds an operand. -/
def patchedMarker : List Instruction := [{ op := .marker, operand := 1, header := some { slot := 3 } }, { op := .ret }]

/-- The operand of a marker is lost: the stream falls into one function, and that is written back without it. -/
theorem splitFunctions_loses_operand :
    (((Stream.empty.emit (.start { slot := 3 })).emit { op := .ret }).patch? 0).map (·.code.toList) = some patchedMarker ∧
      ∃ fs, splitFunctions patchedMarker = .ok fs ∧ fs.toList.flatMap Function.stream ≠ patchedMarker :=
  ⟨by decide, #[{ header := { slot := 3 }, code := #[{ op := .ret }] }], rfl, by decide⟩

end OnePass
