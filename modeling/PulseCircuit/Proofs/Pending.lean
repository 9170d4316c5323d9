import PulseCircuit.Proofs.Walk

/-!
# What walks restore

A walk leaves its own keys behind neither pending nor counted: however it ends, the keys that are pending
afterwards are those that were pending before, under the same depths (`Walk.restored`).
-/

namespace PulseCircuit

namespace Evaluator

/-! ## Entering and leaving -/

theorem get?_enter (e : Evaluator) (key other : MemoKey) :
    (e.enter key).memo.get? other =
      if other = key then some (.pending e.depth) else e.memo.get? other :=
  Table.get?_insert ..

theorem depth_leave (e : Evaluator) (key : MemoKey) (depth : Nat) (outer : Option Nat) (peak : Option Peak) :
    (e.leave key depth outer peak).depth = e.depth - 1 := rfl

theorem get?_leave (e : Evaluator) (key other : MemoKey) (depth : Nat) (outer : Option Nat)
    (peak : Option Peak) :
    (e.leave key depth outer peak).memo.get? other =
      if other = key then
        match peak, taint depth e.reentered with
        | some peak, none => some (.done peak)
        | _, _ => none
      else e.memo.get? other := by
  unfold leave
  cases peak with
  | none => exact Table.get?_erase e.memo key other
  | some peak =>
    cases htaint : taint depth e.reentered with
    | none => exact Table.get?_insert e.memo key other (.done peak)
    | some outer => exact Table.get?_erase e.memo key other

/-- The depth under which a key is pending, if it is. -/
def pendingDepth? (e : Evaluator) (key : MemoKey) : Option Nat :=
  match e.memo.get? key with
  | some (.pending depth) => some depth
  | _ => none

theorem pendingDepth?_enter (e : Evaluator) (key other : MemoKey) :
    (e.enter key).pendingDepth? other =
      if other = key then some e.depth else e.pendingDepth? other := by
  rw [pendingDepth?, get?_enter]
  by_cases hkey : other = key
  · simp [hkey]
  · simp [hkey, pendingDepth?]

/-- A key that is left is not pending, and nothing else changes about what is. -/
theorem pendingDepth?_leave (e : Evaluator) (key other : MemoKey) (depth : Nat) (outer : Option Nat)
    (peak : Option Peak) :
    (e.leave key depth outer peak).pendingDepth? other =
      if other = key then none else e.pendingDepth? other := by
  rw [pendingDepth?, get?_leave]
  by_cases hkey : other = key
  · rw [if_pos hkey, if_pos hkey]
    cases peak <;> cases taint depth e.reentered <;> rfl
  · rw [if_neg hkey, if_neg hkey]
    rfl

theorem pendingDepth?_of_new {e : Evaluator} {key : MemoKey} (h : e.memo.get? key = none) :
    e.pendingDepth? key = none := by
  rw [pendingDepth?, h]

/-! ## Restoring -/

/-- Two evaluators with the same keys pending. -/
structure Restored (e e' : Evaluator) : Prop where
  depth : e'.depth = e.depth
  validate : e'.validate = e.validate
  pending : ∀ key, e'.pendingDepth? key = e.pendingDepth? key

namespace Restored

theorem refl (e : Evaluator) : Restored e e := ⟨rfl, rfl, fun _ => rfl⟩

theorem trans {e e' e'' : Evaluator} (h : Restored e e') (h' : Restored e' e'') :
    Restored e e'' where
  depth := h'.depth.trans h.depth
  validate := h'.validate.trans h.validate
  pending key := (h'.pending key).trans (h.pending key)

/-- Inside a computation at least this one is going on. -/
theorem depth_pos {e e' : Evaluator} {key : MemoKey} (h : Restored (e.enter key) e') : 0 < e'.depth := by
  rw [h.depth]
  exact Nat.succ_pos e.depth

/-- A computation for a new key whose body restores what is pending restores it as well. -/
theorem leave {e e' : Evaluator} {key : MemoKey} (h : Restored (e.enter key) e') (hnew : e.memo.get? key = none)
    (depth : Nat) (outer : Option Nat) (peak : Option Peak) : Restored e (e'.leave key depth outer peak) where
  depth := by
    -- the beginning counted one more, the body ends with as many, and the end counts one less
    have hbody : e'.depth = e.depth + 1 := h.depth
    rw [depth_leave, hbody, Nat.add_sub_cancel]
  validate := h.validate
  pending other := by
    rw [pendingDepth?_leave]
    by_cases hkey : other = key
    · rw [if_pos hkey, hkey, pendingDepth?_of_new hnew]
    · rw [if_neg hkey, h.pending, pendingDepth?_enter, if_neg hkey]

end Restored

/-- However a walk ends, the same keys are pending before and after it. -/
theorem Walk.restored {fuel : Nat} {task : Task} {e e' : Evaluator} {answer : Except Fault Peak}
    (h : Walk fuel task e answer e') : Restored e e' := by
  induction h with
  | descend hnew _ ih => exact ih.leave hnew _ _ _
  | gather _ _ _ _ ih => exact ⟨ih.depth, ih.validate, ih.pending⟩
  | skip _ _ _ ih => exact ih
  | broken _ _ _ _ ih => exact ih
  | settle _ _ _ _ _ ih => exact ih
  | proceed _ _ _ _ _ _ ihlook ihrest => exact ihlook.trans ihrest
  | stay _ ih => exact ih
  | known _ _ _ _ ih => exact ih
  | imagine _ _ _ _ _ _ _ ih => exact ⟨ih.depth, ih.validate, ih.pending⟩
  | cut | reuse | again | frameless | absent | lost | stored | done | wireless | sourceless | deadEnd
  | adrift | unprojectable | stale => exact ⟨rfl, rfl, fun _ => rfl⟩

end Evaluator

end PulseCircuit
