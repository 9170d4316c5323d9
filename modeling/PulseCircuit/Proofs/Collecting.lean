/-!
# Collecting results that may fail

Going through a list with a function that may fail succeeds only if every call does, and then the
outcome is made of the results of the single calls.
-/

namespace PulseCircuit

variable {ε α β : Type}

/-! ## One call after another -/

theorem exists_of_bind {x : Except ε α} {f : α → Except ε β} {b : β} (h : x.bind f = .ok b) :
    ∃ a, x = .ok a ∧ f a = .ok b := by
  cases x with
  | error e => cases h
  | ok a => exact ⟨a, rfl, h⟩

theorem exists_of_map {x : Except ε α} {f : α → β} {b : β} (h : x.map f = .ok b) :
    ∃ a, x = .ok a ∧ f a = b := by
  cases x with
  | error e => cases h
  | ok a => exact ⟨a, rfl, Except.ok.inj h⟩

/-- What each successful step along a list keeps holds in the end. -/
theorem foldlM_keeps {P : β → Prop} {f : β → α → Except ε β} {xs : List α}
    (hstep : ∀ x ∈ xs, ∀ b b', f b x = .ok b' → P b → P b') {b b' : β} (h : xs.foldlM f b = .ok b')
    (hb : P b) : P b' := by
  induction xs generalizing b with
  | nil =>
    cases h
    exact hb
  | cons x xs ih =>
    rw [List.foldlM_cons] at h
    obtain ⟨next, hnext, hrest⟩ := exists_of_bind h
    exact ih (fun y hy => hstep y (List.mem_cons_of_mem _ hy)) hrest
      (hstep x List.mem_cons_self b next hnext hb)

/-! ## All calls of a list -/

theorem mapM_members {f : α → Except ε β} {xs : List α} {ys : List β}
    (h : xs.mapM f = .ok ys) :
    (∀ x ∈ xs, ∃ y ∈ ys, f x = .ok y) ∧ ∀ y ∈ ys, ∃ x ∈ xs, f x = .ok y := by
  induction xs generalizing ys with
  | nil =>
    cases h
    simp
  | cons x xs ih =>
    rw [List.mapM_cons] at h
    cases hx : f x with
    | error fault =>
      rw [hx] at h
      cases h
    | ok z =>
      cases hxs : xs.mapM f with
      | error fault =>
        rw [hx, hxs] at h
        cases h
      | ok zs =>
        rw [hx, hxs] at h
        cases h
        obtain ⟨hleft, hright⟩ := ih hxs
        constructor
        · intro a ha
          rcases List.mem_cons.mp ha with rfl | ha
          · exact ⟨z, List.mem_cons_self, hx⟩
          · obtain ⟨y, hy, hay⟩ := hleft a ha
            exact ⟨y, List.mem_cons_of_mem _ hy, hay⟩
        · intro y hy
          rcases List.mem_cons.mp hy with rfl | hy
          · exact ⟨x, List.mem_cons_self, hx⟩
          · obtain ⟨a, ha, hay⟩ := hright y hy
            exact ⟨a, List.mem_cons_of_mem _ ha, hay⟩

theorem filterAuxM_members {f : α → Except ε Bool} {xs acc ys : List α}
    (h : xs.filterAuxM f acc = .ok ys) :
    (∀ x ∈ xs, ∃ b, f x = .ok b) ∧ ∀ y, y ∈ ys ↔ y ∈ acc ∨ y ∈ xs ∧ f y = .ok true := by
  induction xs generalizing acc with
  | nil =>
    cases h
    simp
  | cons x xs ih =>
    rw [List.filterAuxM] at h
    cases hx : f x with
    | error e =>
      rw [hx] at h
      cases h
    | ok b =>
      rw [hx] at h
      obtain ⟨hall, hmem⟩ := ih h
      constructor
      · intro a ha
        rcases List.mem_cons.mp ha with rfl | ha
        · exact ⟨b, hx⟩
        · exact hall a ha
      · intro y
        rw [hmem]
        by_cases hy : y = x
        · subst hy
          cases b <;> simp [hx]
        · cases b <;> simp [hy]

/-- A list is filtered to the values for which the test succeeds with `true`. -/
theorem filterM_members {f : α → Except ε Bool} {xs ys : List α} (h : xs.filterM f = .ok ys) :
    (∀ x ∈ xs, ∃ b, f x = .ok b) ∧ ∀ y, y ∈ ys ↔ y ∈ xs ∧ f y = .ok true := by
  rw [List.filterM] at h
  cases hrev : xs.filterAuxM f [] with
  | error e =>
    rw [hrev] at h
    cases h
  | ok zs =>
    rw [hrev] at h
    cases h
    obtain ⟨hall, hmem⟩ := filterAuxM_members hrev
    refine ⟨hall, fun y => ?_⟩
    rw [List.mem_reverse, hmem]
    simp

/-- A list passes a check if each value does. -/
theorem forM_members {f : α → Except ε PUnit} {xs : List α} (h : xs.forM f = .ok ()) :
    ∀ x ∈ xs, f x = .ok () := by
  induction xs with
  | nil => simp
  | cons x xs ih =>
    change (f x >>= fun _ => xs.forM f) = .ok () at h
    cases hx : f x with
    | error e =>
      rw [hx] at h
      cases h
    | ok u =>
      rw [hx] at h
      intro a ha
      rcases List.mem_cons.mp ha with rfl | ha
      · exact hx
      · exact ih h a ha

/-! ## Failures -/

/-- If one of the calls of a list fails, it is the failure of the whole. -/
theorem mapM_error {f : α → Except ε β} {xs : List α} {e : ε} (h : xs.mapM f = .error e) :
    ∃ x ∈ xs, f x = .error e := by
  induction xs with
  | nil => cases h
  | cons x xs ih =>
    rw [List.mapM_cons] at h
    cases hx : f x with
    | error other =>
      rw [hx] at h
      cases h
      exact ⟨x, List.mem_cons_self, hx⟩
    | ok y =>
      cases hxs : xs.mapM f with
      | error other =>
        rw [hx, hxs] at h
        cases h
        obtain ⟨z, hz, hfail⟩ := ih hxs
        exact ⟨z, List.mem_cons_of_mem _ hz, hfail⟩
      | ok ys =>
        rw [hx, hxs] at h
        cases h

/-- If every call of a list succeeds, there are all the results. -/
theorem mapM_ok {f : α → Except ε β} {xs : List α} (h : ∀ x ∈ xs, ∃ y, f x = .ok y) :
    ∃ ys, xs.mapM f = .ok ys := by
  cases hrun : xs.mapM f with
  | ok ys => exact ⟨ys, rfl⟩
  | error e =>
    obtain ⟨x, hx, hfail⟩ := mapM_error hrun
    obtain ⟨y, hy⟩ := h x hx
    rw [hy] at hfail
    cases hfail

/-- If filtering fails, the test failed on some value. -/
theorem filterM_error {f : α → Except ε Bool} {xs : List α} {e : ε} (h : xs.filterM f = .error e) :
    ∃ x ∈ xs, f x = .error e := by
  -- the filter runs with a list of what was kept, which does not matter for a failure
  have haux : ∀ acc : List α, xs.filterAuxM f acc = .error e → ∃ x ∈ xs, f x = .error e := by
    clear h
    induction xs with
    | nil =>
      intro acc h
      cases h
    | cons x xs ih =>
      intro acc h
      rw [List.filterAuxM] at h
      cases hx : f x with
      | error other =>
        rw [hx] at h
        cases h
        exact ⟨x, List.mem_cons_self, hx⟩
      | ok b =>
        rw [hx] at h
        obtain ⟨y, hy, hfail⟩ := ih _ h
        exact ⟨y, List.mem_cons_of_mem _ hy, hfail⟩
  rw [List.filterM] at h
  cases hrev : xs.filterAuxM f [] with
  | error other =>
    rw [hrev] at h
    cases h
    exact haux [] hrev
  | ok ys =>
    rw [hrev] at h
    cases h

/-- If a check of a list fails, it failed on some value. -/
theorem forM_error {f : α → Except ε PUnit} {xs : List α} {e : ε} (h : xs.forM f = .error e) :
    ∃ x ∈ xs, f x = .error e := by
  induction xs with
  | nil => cases h
  | cons x xs ih =>
    change (f x >>= fun _ => xs.forM f) = .error e at h
    cases hx : f x with
    | error other =>
      rw [hx] at h
      cases h
      exact ⟨x, List.mem_cons_self, hx⟩
    | ok u =>
      rw [hx] at h
      obtain ⟨y, hy, hfail⟩ := ih h
      exact ⟨y, List.mem_cons_of_mem _ hy, hfail⟩

theorem forM_ok {f : α → Except ε PUnit} {xs : List α} (h : ∀ x ∈ xs, f x = .ok ()) :
    xs.forM f = .ok () := by
  cases hrun : xs.forM f with
  | ok u => rfl
  | error e =>
    obtain ⟨x, hx, hfail⟩ := forM_error hrun
    rw [h x hx] at hfail
    cases hfail

/-- If the test succeeds on every value, the filter does. -/
theorem filterM_ok {f : α → Except ε Bool} {xs : List α} (h : ∀ x ∈ xs, ∃ b, f x = .ok b) :
    ∃ ys, xs.filterM f = .ok ys := by
  cases hrun : xs.filterM f with
  | ok ys => exact ⟨ys, rfl⟩
  | error e =>
    obtain ⟨x, hx, hfail⟩ := filterM_error hrun
    obtain ⟨b, hb⟩ := h x hx
    rw [hb] at hfail
    cases hfail

end PulseCircuit
