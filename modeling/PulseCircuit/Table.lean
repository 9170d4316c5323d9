/-!
# Tables

A table holds one value for each of its keys and remembers the order in which the keys came. A
value put under a present key takes the place of the old one, and taking a row out leaves the others
in order.

* `get?_insert`, `get?_erase`, `get?_update`, `get?_map`: what each operation does to a look-up;
* `keys_insert_of_not_mem`, `keys_insert_of_mem`, `keys_erase`, `keys_update`, `keys_map`: what it
  does to the order.
-/

namespace PulseCircuit

structure Table (κ α : Type) where
  /-- The rows, oldest first. -/
  rows : List (κ × α)
  nodup : (rows.map Prod.fst).Nodup

namespace Table

variable {κ α β : Type}

instance [DecidableEq κ] [DecidableEq α] : DecidableEq (Table κ α) := fun s t =>
  if h : s.rows = t.rows then isTrue (by cases s; cases t; simp_all)
  else isFalse fun hst => h (hst ▸ rfl)

theorem ext {s t : Table κ α} (h : s.rows = t.rows) : s = t := by
  cases s; cases t; simp_all

def empty : Table κ α := ⟨[], .nil⟩

def keys (t : Table κ α) : List κ := t.rows.map Prod.fst

def values (t : Table κ α) : List α := t.rows.map Prod.snd

def size (t : Table κ α) : Nat := t.rows.length

/-- Puts values in the place of values, row by row. -/
def map (f : κ → α → β) (t : Table κ α) : Table κ β where
  rows := t.rows.map fun row => (row.1, f row.1 row.2)
  nodup := by simpa [List.map_map, Function.comp_def] using t.nodup

theorem keys_map (f : κ → α → β) (t : Table κ α) : (t.map f).keys = t.keys := by
  simp [keys, map, List.map_map, Function.comp_def]

theorem map_map {γ : Type} (f : κ → α → β) (g : κ → β → γ) (t : Table κ α) :
    (t.map f).map g = t.map fun k v => g k (f k v) :=
  ext (by simp [map, Function.comp_def])

theorem map_congr {f g : κ → α → β} {t : Table κ α} (h : ∀ row ∈ t.rows, f row.1 row.2 = g row.1 row.2) :
    t.map f = t.map g :=
  ext (List.map_congr_left fun row hrow => by rw [h row hrow])

theorem map_id (t : Table κ α) : (t.map fun _ v => v) = t := ext (List.map_id _)

variable [DecidableEq κ]

def get? (t : Table κ α) (k : κ) : Option α := t.rows.lookup k

def contains (t : Table κ α) (k : κ) : Bool := (t.get? k).isSome

/-- Changes the value under a key, if there is one. -/
def update (t : Table κ α) (k : κ) (f : α → α) : Table κ α :=
  t.map fun key value => if key = k then f value else value

theorem lookup_cons (k : κ) (row : κ × α) (rows : List (κ × α)) :
    List.lookup k (row :: rows) = if k = row.1 then some row.2 else List.lookup k rows := by
  obtain ⟨key, value⟩ := row
  by_cases h : k = key
  · simp [h]
  · have hb : (k == key) = false := by simpa using h
    simp [List.lookup_cons, hb, h]

theorem mem_keys_iff {t : Table κ α} {k : κ} : k ∈ t.keys ↔ (t.get? k).isSome = true := by
  unfold keys get?
  induction t.rows with
  | nil => simp
  | cons row rows ih =>
    rw [List.map_cons, List.mem_cons, lookup_cons]
    by_cases h : k = row.1
    · simp [h]
    · simp [h, ih]

theorem contains_iff {t : Table κ α} {k : κ} : t.contains k = true ↔ k ∈ t.keys :=
  mem_keys_iff.symm

theorem get?_eq_none_iff {t : Table κ α} {k : κ} : t.get? k = none ↔ k ∉ t.keys := by
  rw [mem_keys_iff]
  simp

/-- A new row behind the others. -/
def push (t : Table κ α) (k : κ) (v : α) (h : k ∉ t.keys) : Table κ α where
  rows := t.rows ++ [(k, v)]
  nodup := by
    rw [List.map_append, List.nodup_append]
    refine ⟨t.nodup, by simp, ?_⟩
    rintro a ha b hb rfl
    obtain rfl : a = k := by simpa using hb
    exact h ha

/-- Puts a value under a key: in the place of the old value, or behind all rows. -/
def insert (t : Table κ α) (k : κ) (v : α) : Table κ α :=
  if h : k ∈ t.keys then t.update k fun _ => v else t.push k v h

/-- Takes out the row of a key. -/
def erase (t : Table κ α) (k : κ) : Table κ α where
  rows := t.rows.filter fun row => row.1 ≠ k
  nodup := t.nodup.sublist (List.filter_sublist.map Prod.fst)

/-- The table of the given rows, a later row taking the place of an earlier one with its key. -/
def ofList (rows : List (κ × α)) : Table κ α :=
  rows.foldl (fun t row => t.insert row.1 row.2) empty

/-! ## Look-ups -/

@[simp] theorem get?_empty (k : κ) : (empty : Table κ α).get? k = none := rfl

theorem get?_map (f : κ → α → β) (t : Table κ α) (k : κ) :
    (t.map f).get? k = (t.get? k).map (f k) := by
  show List.lookup k (t.rows.map fun row => (row.1, f row.1 row.2)) =
    (List.lookup k t.rows).map (f k)
  induction t.rows with
  | nil => rfl
  | cons row rows ih =>
    rw [List.map_cons, lookup_cons, lookup_cons]
    by_cases h : k = row.1
    · simp [h]
    · simpa [h] using ih

theorem get?_update (t : Table κ α) (k key : κ) (f : α → α) :
    (t.update k f).get? key = if key = k then (t.get? key).map f else t.get? key := by
  rw [update, get?_map]
  by_cases h : key = k
  · simp [h]
  · simp only [h, if_false]
    cases t.get? key <;> rfl

theorem get?_push (t : Table κ α) (k key : κ) (v : α) (h : k ∉ t.keys) :
    (t.push k v h).get? key = if key = k then some v else t.get? key := by
  have hk : List.lookup k t.rows = none := get?_eq_none_iff.mpr h
  show List.lookup key (t.rows ++ [(k, v)]) = if key = k then some v else List.lookup key t.rows
  rw [List.lookup_append, lookup_cons]
  by_cases hkey : key = k
  · simp [hkey, hk]
  · simp [hkey]

theorem get?_insert (t : Table κ α) (k key : κ) (v : α) :
    (t.insert k v).get? key = if key = k then some v else t.get? key := by
  unfold insert
  split
  next h =>
    rw [get?_update]
    by_cases hkey : key = k
    · subst hkey
      obtain ⟨old, hold⟩ := Option.isSome_iff_exists.mp (mem_keys_iff.mp h)
      simp [hold]
    · simp [hkey]
  next h => exact get?_push t k key v h

theorem get?_erase (t : Table κ α) (k key : κ) :
    (t.erase k).get? key = if key = k then none else t.get? key := by
  show List.lookup key (t.rows.filter fun row => row.1 ≠ k) =
    if key = k then none else List.lookup key t.rows
  induction t.rows with
  | nil => simp
  | cons row rows ih =>
    by_cases h : row.1 = k
    · rw [List.filter_cons_of_neg (by simpa using h), ih, lookup_cons, h]
      by_cases hkey : key = k <;> simp [hkey]
    · rw [List.filter_cons_of_pos (by simpa using h), lookup_cons, lookup_cons, ih]
      by_cases hkey : key = row.1
      · simp [hkey, h]
      · simp [hkey]

theorem get?_eq_some_iff {t : Table κ α} {k : κ} {v : α} :
    t.get? k = some v ↔ (k, v) ∈ t.rows := by
  obtain ⟨rows, hnodup⟩ := t
  show List.lookup k rows = some v ↔ (k, v) ∈ rows
  induction rows with
  | nil => simp
  | cons row rows ih =>
    rw [List.map_cons, List.nodup_cons] at hnodup
    rw [lookup_cons, List.mem_cons]
    by_cases h : k = row.1
    · subst h
      have hnot : (row.1, v) ∉ rows := fun hmem =>
        hnodup.1 (List.mem_map.mpr ⟨(row.1, v), hmem, rfl⟩)
      simp [hnot, Prod.ext_iff, eq_comm]
    · have hne : (k, v) ≠ row := fun heq => h (congrArg Prod.fst heq)
      simp [h, hne, ih hnodup.2]

/-! ## Order -/

theorem keys_update (t : Table κ α) (k : κ) (f : α → α) : (t.update k f).keys = t.keys :=
  keys_map _ t

theorem keys_insert_of_mem {t : Table κ α} {k : κ} (v : α) (h : k ∈ t.keys) :
    (t.insert k v).keys = t.keys := by
  rw [insert, dif_pos h, keys_update]

theorem keys_insert_of_not_mem {t : Table κ α} {k : κ} (v : α) (h : k ∉ t.keys) :
    (t.insert k v).keys = t.keys ++ [k] := by
  rw [insert, dif_neg h]
  simp [keys, push]

theorem keys_erase (t : Table κ α) (k : κ) : (t.erase k).keys = t.keys.filter (· ≠ k) := by
  simp [keys, erase, List.filter_map, Function.comp_def]

/-! ## Rows one after the other -/

theorem rows_insert_of_not_mem {t : Table κ α} {k : κ} (v : α) (h : k ∉ t.keys) :
    (t.insert k v).rows = t.rows ++ [(k, v)] := by
  rw [insert, dif_neg h]
  rfl

theorem rows_foldl_insert {rows : List (κ × α)} (t : Table κ α)
    (h : (t.keys ++ rows.map Prod.fst).Nodup) :
    (rows.foldl (fun t row => t.insert row.1 row.2) t).rows = t.rows ++ rows := by
  induction rows generalizing t with
  | nil => simp
  | cons row rows ih =>
    have hnew : row.1 ∉ t.keys := by
      intro hmem
      exact (List.nodup_append.mp h).2.2 row.1 hmem row.1 (by simp) rfl
    rw [List.foldl_cons, ih _ (by simpa [keys_insert_of_not_mem _ hnew] using h),
      rows_insert_of_not_mem _ hnew]
    simp

theorem mem_of_mem_insert {t : Table κ α} {k : κ} {v : α} {row : κ × α} (h : row ∈ (t.insert k v).rows) :
    row ∈ t.rows ∨ row = (k, v) := by
  rcases row with ⟨key, value⟩
  rw [← get?_eq_some_iff, get?_insert] at h
  split at h
  next hkey =>
    subst hkey
    right
    rw [Option.some.inj h]
  next => exact .inl (get?_eq_some_iff.mp h)

theorem mem_of_mem_foldl_insert {rows : List (κ × α)} {t : Table κ α} {row : κ × α}
    (h : row ∈ (rows.foldl (fun t row => t.insert row.1 row.2) t).rows) : row ∈ t.rows ∨ row ∈ rows := by
  induction rows generalizing t with
  | nil => exact .inl h
  | cons first rows ih =>
    rcases ih h with hmem | hmem
    · rcases mem_of_mem_insert hmem with hmem | rfl
      · exact .inl hmem
      · exact .inr List.mem_cons_self
    · exact .inr (List.mem_cons_of_mem _ hmem)

/-- What a table made of rows holds is among them. -/
theorem mem_of_mem_ofList {rows : List (κ × α)} {row : κ × α} (h : row ∈ (ofList rows).rows) :
    row ∈ rows := by
  rcases mem_of_mem_foldl_insert h with hmem | hmem
  · cases hmem
  · exact hmem

/-- A table is the table of its rows. -/
theorem ofList_rows (t : Table κ α) : ofList t.rows = t := by
  have hrows := rows_foldl_insert empty (show (empty.keys ++ t.rows.map Prod.fst).Nodup from t.nodup)
  exact ext hrows

end Table

end PulseCircuit
