/-!
# Programs that end in any case

Edits and evaluations end with a result or with an exception, and in both cases with a state. `final` is
that state, `read?` looks at a result and its state, `fault?` is the exception, and the lemmas here work out a
program from its first step on.
-/

/-- The state a program leaves behind, whether it ends with a result or with an exception. -/
def EStateM.final {ε σ α : Type} (program : EStateM ε σ α) (s : σ) : σ :=
  match program s with
  | .ok _ t => t
  | .error _ t => t

/-- What is read off the result of a program and the state that it leaves behind, if there is a result. -/
def EStateM.read? {ε σ α β : Type} (program : EStateM ε σ α) (look : α → σ → β) (s : σ) : Option β :=
  match program s with
  | .ok a t => some (look a t)
  | .error _ _ => none

/-- The exception that a program ends with, if it ends with one. -/
def EStateM.fault? {ε σ α : Type} (program : EStateM ε σ α) (s : σ) : Option ε :=
  match program s with
  | .ok _ _ => none
  | .error e _ => some e

namespace PulseCircuit

namespace Running

variable {ε σ α β : Type} {s t : σ}

theorem final_of_ok {program : EStateM ε σ α} {a : α} (h : program s = .ok a t) :
    program.final s = t := by
  rw [EStateM.final, h]

theorem final_of_error {program : EStateM ε σ α} {e : ε} (h : program s = .error e t) :
    program.final s = t := by
  rw [EStateM.final, h]

theorem exists_of_read? {program : EStateM ε σ α} {look : α → σ → β} {b : β}
    (h : program.read? look s = some b) : ∃ a t, program s = .ok a t ∧ look a t = b := by
  cases hrun : program s with
  | ok a t =>
    rw [EStateM.read?, hrun] at h
    exact ⟨a, t, rfl, Option.some.inj h⟩
  | error e t =>
    rw [EStateM.read?, hrun] at h
    cases h

theorem fault?_of_ok {program : EStateM ε σ α} {a : α} (h : program s = .ok a t) :
    program.fault? s = none := by
  rw [EStateM.fault?, h]

theorem fault?_of_error {program : EStateM ε σ α} {e : ε} (h : program s = .error e t) :
    program.fault? s = some e := by
  rw [EStateM.fault?, h]

theorem exists_of_fault? {program : EStateM ε σ α} {e : ε} (h : program.fault? s = some e) :
    ∃ t, program s = .error e t := by
  cases hrun : program s with
  | ok a t =>
    rw [EStateM.fault?, hrun] at h
    cases h
  | error other t =>
    rw [EStateM.fault?, hrun] at h
    exact ⟨t, congrArg (EStateM.Result.error · t) (Option.some.inj h)⟩

theorem bind_of_ok {program : EStateM ε σ α} {a : α} (h : program s = .ok a t)
    (rest : α → EStateM ε σ β) : (program >>= rest) s = rest a t := by
  simp only [bind, EStateM.bind, h]

theorem bind_of_error {program : EStateM ε σ α} {e : ε} (h : program s = .error e t)
    (rest : α → EStateM ε σ β) : (program >>= rest) s = .error e t := by
  simp only [bind, EStateM.bind, h]

/-- A program with a result has one after its first step. -/
theorem exists_of_bind_run {program : EStateM ε σ α} {rest : α → EStateM ε σ β} {b : β}
    (h : (program >>= rest) s = .ok b t) : ∃ a u, program s = .ok a u ∧ rest a u = .ok b t := by
  cases hrun : program s with
  | ok a u =>
    rw [bind_of_ok hrun] at h
    exact ⟨a, u, rfl, h⟩
  | error e u =>
    rw [bind_of_error hrun] at h
    cases h

theorem get_run (s : σ) : (get : EStateM ε σ σ) s = .ok s s := rfl

theorem modify_run (change : σ → σ) (s : σ) :
    (modify change : EStateM ε σ Unit) s = .ok () (change s) := rfl

/-- Two programs with one outcome leave the same state behind. -/
theorem final_of_run {program other : EStateM ε σ α} (h : program s = other t) :
    program.final s = other.final t := by
  rw [EStateM.final, EStateM.final, h]

theorem final_bind_of_ok {program : EStateM ε σ α} {a : α} (h : program s = .ok a t)
    (rest : α → EStateM ε σ β) : (program >>= rest).final s = (rest a).final t :=
  final_of_run (bind_of_ok h rest)

theorem final_bind_of_error {program : EStateM ε σ α} {e : ε} (h : program s = .error e t)
    (rest : α → EStateM ε σ β) : (program >>= rest).final s = t :=
  final_of_error (bind_of_error h rest)

/-- What holds after a program holds after a longer one if the rest keeps it. -/
theorem final_bind {P : σ → Prop} {program : EStateM ε σ α} (h : P (program.final s))
    {rest : α → EStateM ε σ β}
    (hrest : ∀ a t, program s = .ok a t → P t → P ((rest a).final t)) :
    P ((program >>= rest).final s) := by
  cases hrun : program s with
  | ok a t =>
    rw [final_of_ok hrun] at h
    rw [final_bind_of_ok hrun]
    exact hrest a t hrun h
  | error e t =>
    rw [final_of_error hrun] at h
    rw [final_bind_of_error hrun]
    exact h

end Running

end PulseCircuit
