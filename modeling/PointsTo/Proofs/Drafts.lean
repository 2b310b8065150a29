import PointsTo.Jimple.Reader

/-!
Bodies in the making. A line declares names or adds one statement, and completing a body gives it
one parameter for each parameter type. Neither changes the method or the statements that were there.
-/
namespace PointsTo.Jimple.Draft

open PointsTo.Text

variable (d : Draft)

/-! ### Lines -/

theorem declare_frame {α : Type} (type : String) (name : α → String) (names : List α) :
    (names.foldl (fun d x => d.declare type (name x)) d).method = d.method ∧
      (names.foldl (fun d x => d.declare type (name x)) d).statements = d.statements := by
  induction names generalizing d with
  | nil => exact ⟨rfl, rfl⟩
  | cons x names ih => exact ih (d.declare type (name x))

theorem mention_frame (mentions : List Variable) :
    (mentions.foldl mention d).method = d.method ∧
      (mentions.foldl mention d).statements = d.statements := by
  induction mentions generalizing d with
  | nil => exact ⟨rfl, rfl⟩
  | cons v mentions ih => exact ih (d.mention v)

theorem record_spec (r : Reading) (line : Nat) :
    (d.record r line).method = d.method ∧
      (d.record r line).statements = d.statements ++ [⟨r.instruction, line⟩] := by
  obtain ⟨hmethod, hstatements⟩ := d.mention_frame r.mentions
  rw [← hmethod, ← hstatements, record]
  cases r.role with
  | none => exact ⟨rfl, rfl⟩
  | some role =>
    obtain ⟨role, v⟩ := role
    cases role <;> exact ⟨rfl, rfl⟩

variable {d}

/-- A line of a body is passed over, declares names, or is a statement and its semicolon. -/
theorem readLine_cases {d' : Draft} {s : List Char} {line : Nat} (h : d.readLine s line = .ok d') :
    d' = d ∨
      (∃ (type : String) (names : List String), endsWith ';' s = true ∧
        localDeclaration? (trim s.dropLast) = some (type, names) ∧
          d' = names.foldl (fun d name => d.declare type name) d) ∨
      ∃ r, endsWith ';' s = true ∧
        readStatement d.method.signature (trim s.dropLast) = .ok r ∧ d' = d.record r line := by
  unfold readLine at h
  dsimp only at h
  split at h
  · cases h
    exact .inl rfl
  split at h
  · cases h
  next ends =>
  split at h
  · cases h
    exact .inl rfl
  split at h
  · next declares =>
    cases h
    exact .inr (.inl ⟨_, _, by simpa using ends, declares, rfl⟩)
  split at h
  · next r hr =>
    cases h
    exact .inr (.inr ⟨r, by simpa using ends, hr, rfl⟩)
  · cases h

/-- A line of a body declares names, possibly none, or is a statement. -/
theorem of_readLine {d' : Draft} {s : List Char} {line : Nat} (h : d.readLine s line = .ok d') :
    (∃ (type : String) (names : List String),
        d' = names.foldl (fun d name => d.declare type name) d) ∨
      ∃ text r, readStatement d.method.signature text = .ok r ∧ d' = d.record r line := by
  obtain rfl | ⟨type, names, -, -, rfl⟩ | ⟨r, -, hr, rfl⟩ := readLine_cases h
  · exact .inl ⟨"", [], rfl⟩
  · exact .inl ⟨type, names, rfl⟩
  · exact .inr ⟨_, r, hr, rfl⟩

theorem method_readLine {d' : Draft} {s : List Char} {line : Nat}
    (h : d.readLine s line = .ok d') : d'.method = d.method := by
  obtain ⟨type, names, rfl⟩ | ⟨text, r, -, rfl⟩ := of_readLine h
  · exact (d.declare_frame type id names).1
  · exact (d.record_spec r line).1

variable (d)

/-! ### Completion -/

theorem completeParams_frame (index : Nat) (types : List String) :
    (d.completeParams index types).1.method = d.method ∧
      (d.completeParams index types).1.statements = d.statements := by
  induction types generalizing d index with
  | nil => exact ⟨rfl, rfl⟩
  | cons type types ih =>
    rw [completeParams]
    cases d.params.get? index with
    | some named => exact ih d (index + 1)
    | none => exact ih (d.synthesize ("@parameter" ++ toString index) type).1 (index + 1)

/-- There is one parameter for each parameter type, whichever of them were named. -/
theorem length_completeParams (index : Nat) (types : List String) :
    (d.completeParams index types).2.length = types.length := by
  induction types generalizing d index with
  | nil => rfl
  | cons type types ih =>
    rw [completeParams, List.length_cons]
    cases d.params.get? index with
    | some named => exact congrArg (· + 1) (ih d (index + 1))
    | none =>
      exact congrArg (· + 1) (ih (d.synthesize ("@parameter" ++ toString index) type).1 (index + 1))

theorem completeReceiver_frame : d.completeReceiver.1.method = d.method ∧
    d.completeReceiver.1.statements = d.statements := by
  rw [completeReceiver]
  cases d.receiver with
  | some receiver => exact ⟨rfl, rfl⟩
  | none =>
    dsimp only
    split <;> exact ⟨rfl, rfl⟩

theorem statements_completeReturned : d.completeReturned.1.statements = d.statements := by
  rw [completeReturned]
  split
  · rfl
  · split <;> rfl

/-- Finishing a body adds no statements. -/
theorem statements_finish : d.finish.statements = d.statements := by
  rw [finish]
  dsimp only
  rw [statements_completeReturned, (completeReceiver_frame _).2, (completeParams_frame _ _ _).2]

theorem length_params_finish : d.finish.params.length = d.method.paramTypes.length :=
  d.length_completeParams 0 d.method.paramTypes

end PointsTo.Jimple.Draft
