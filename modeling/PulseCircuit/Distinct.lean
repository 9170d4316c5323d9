/-!
# Lists without repetition

Adding to a list only what is not listed yet. What counts as listed is the `==` of the type.
-/

namespace PulseCircuit

variable {α : Type} [BEq α]

/-- Adds a value at the end unless an equal one is listed. -/
def addNew (xs : List α) (x : α) : List α :=
  if xs.contains x then xs else xs ++ [x]

/-- Adds the values of the second list, one after the other. -/
def addAllNew (xs ys : List α) : List α := ys.foldl addNew xs

/-- What is added comes behind what was listed, in its order. -/
theorem exists_addAllNew_eq_append (xs ys : List α) :
    ∃ added, List.Sublist added ys ∧ addAllNew xs ys = xs ++ added := by
  induction ys generalizing xs with
  | nil => exact ⟨[], .refl _, (List.append_nil xs).symm⟩
  | cons y ys ih =>
    obtain ⟨added, hsub, hrest⟩ := ih (addNew xs y)
    have hcons : addAllNew xs (y :: ys) = addAllNew (addNew xs y) ys := rfl
    rw [hcons, hrest]
    by_cases hlisted : xs.contains y = true
    · exact ⟨added, hsub.cons y, by rw [addNew, if_pos hlisted]⟩
    · refine ⟨y :: added, hsub.cons_cons y, ?_⟩
      rw [addNew, if_neg hlisted, List.append_assoc, List.singleton_append]

theorem prefix_addAllNew (xs ys : List α) : xs <+: addAllNew xs ys := by
  obtain ⟨added, -, happend⟩ := exists_addAllNew_eq_append xs ys
  exact ⟨added, happend.symm⟩

/-- A value that equals itself and no other. -/
def Exact (x : α) : Prop := ∀ y, (x == y) = true ↔ x = y

theorem exact_of_lawful [LawfulBEq α] (x : α) : Exact x := fun _ => beq_iff_eq

theorem Exact.contains_iff {xs : List α} {x : α} (h : Exact x) : xs.contains x = true ↔ x ∈ xs := by
  rw [List.contains_iff_exists_mem_beq]
  constructor
  · rintro ⟨y, hy, hsame⟩
    rwa [(h y).mp hsame]
  · exact fun hx => ⟨x, hx, (h x).mpr rfl⟩

theorem Exact.mem_addNew {xs : List α} {x y : α} (h : Exact x) :
    y ∈ addNew xs x ↔ y ∈ xs ∨ y = x := by
  unfold addNew
  split
  next hlisted =>
    constructor
    · exact Or.inl
    · rintro (hy | rfl)
      · exact hy
      · exact h.contains_iff.mp hlisted
  next => simp

theorem mem_addAllNew_of_exact {xs ys : List α} (h : ∀ y ∈ ys, Exact y) {y : α} :
    y ∈ addAllNew xs ys ↔ y ∈ xs ∨ y ∈ ys := by
  induction ys generalizing xs with
  | nil => simp [addAllNew]
  | cons x ys ih =>
    have hrest : y ∈ addAllNew xs (x :: ys) ↔ y ∈ addNew xs x ∨ y ∈ ys :=
      ih fun z hz => h z (List.mem_cons_of_mem _ hz)
    rw [hrest, (h x List.mem_cons_self).mem_addNew, List.mem_cons, or_assoc]

theorem mem_addAllNew [LawfulBEq α] {xs ys : List α} {y : α} :
    y ∈ addAllNew xs ys ↔ y ∈ xs ∨ y ∈ ys :=
  mem_addAllNew_of_exact fun y _ => exact_of_lawful y

/-- What is listed was listed before or is added, even where `==` is not equality. -/
theorem mem_or_mem_of_mem_addAllNew {xs ys : List α} {y : α} (h : y ∈ addAllNew xs ys) :
    y ∈ xs ∨ y ∈ ys := by
  obtain ⟨added, hsub, happend⟩ := exists_addAllNew_eq_append xs ys
  rw [happend] at h
  exact (List.mem_append.mp h).imp_right fun hadded => hsub.subset hadded

theorem Exact.nodup_addNew {xs : List α} {x : α} (h : Exact x) (hxs : xs.Nodup) :
    (addNew xs x).Nodup := by
  unfold addNew
  split
  next => exact hxs
  next hx =>
    rw [List.nodup_append]
    refine ⟨hxs, by simp, ?_⟩
    rintro a ha b hb rfl
    rw [List.mem_singleton.mp hb] at ha
    exact hx (h.contains_iff.mpr ha)

theorem nodup_addAllNew_of_exact {xs ys : List α} (h : ∀ y ∈ ys, Exact y) (hxs : xs.Nodup) :
    (addAllNew xs ys).Nodup := by
  induction ys generalizing xs with
  | nil => exact hxs
  | cons y ys ih =>
    exact ih (fun z hz => h z (List.mem_cons_of_mem _ hz)) ((h y List.mem_cons_self).nodup_addNew hxs)

/-- What is not listed yet is added as it is. -/
theorem addAllNew_eq_append_of_exact {xs ys : List α} (hexact : ∀ y ∈ ys, Exact y) (h : (xs ++ ys).Nodup) :
    addAllNew xs ys = xs ++ ys := by
  induction ys generalizing xs with
  | nil => simp [addAllNew]
  | cons y ys ih =>
    have hnot : ¬ xs.contains y = true := by
      rw [(hexact y List.mem_cons_self).contains_iff]
      intro hin
      exact (List.nodup_append.mp h).2.2 y hin y List.mem_cons_self rfl
    have hnew : addNew xs y = xs ++ [y] := if_neg hnot
    show addAllNew (addNew xs y) ys = _
    rw [hnew, ih (fun z hz => hexact z (List.mem_cons_of_mem _ hz)) (by simpa using h), List.append_assoc,
      List.singleton_append]

theorem nodup_addAllNew [LawfulBEq α] {xs : List α} (h : xs.Nodup) (ys : List α) :
    (addAllNew xs ys).Nodup :=
  nodup_addAllNew_of_exact (fun y _ => exact_of_lawful y) h

end PulseCircuit
