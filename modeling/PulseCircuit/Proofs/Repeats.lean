import PulseCircuit.Proofs.BeatEffect

/-!
# Operations that are wanted twice

A beat lists each operation at the place where it is first wanted. Carrying out every operation as often as
it is wanted comes to the same circuit with one exception. A slot in which the red and the blue pulse come to
rest with one kind and the green pulse with another gets the kind from blue, the last one, if the repetition
counts, and from green if it does not.

* `filterMap_addAllNew`: what is read off single operations is repeated as they are;
* `Finds.kinds`, `Harvested.kinds_wanted`: the kinds wanted for a cell are those of its three peaks;
* `Reachable.repeated`: how the two circuits differ, and when they do not.
-/

namespace PulseCircuit

open Circuit Evaluator Running

/-! ## Lists without repetitions -/

section Lists

variable {α β : Type} [BEq α] [BEq β] [LawfulBEq β]

/-- Leaving out repetitions first or last is the same if what is read off tells the values apart. -/
theorem filterMap_addAllNew {f : α → Option β} {P : α → Prop} (hexact : ∀ x, P x → Exact x)
    (hinj : ∀ x y b, P x → P y → f x = some b → f y = some b → x = y) {xs ys : List α}
    (hxs : ∀ x ∈ xs, P x) (hys : ∀ y ∈ ys, P y) :
    (addAllNew xs ys).filterMap f = addAllNew (xs.filterMap f) (ys.filterMap f) := by
  induction ys generalizing xs with
  | nil => rfl
  | cons y ys ih =>
    have hy := hys y List.mem_cons_self
    have hrest : ∀ x ∈ addNew xs y, P x := by
      intro x hx
      rcases (hexact y hy).mem_addNew.mp hx with hold | rfl
      · exact hxs x hold
      · exact hy
    have hstep : (addNew xs y).filterMap f = addAllNew (xs.filterMap f) ([y].filterMap f) := by
      cases hf : f y with
      | none =>
        rw [addNew]
        split <;> simp [hf, addAllNew]
      | some b =>
        have hlisted : (xs.filterMap f).contains b = xs.contains y := by
          rw [Bool.eq_iff_iff, List.contains_iff_mem, (hexact y hy).contains_iff, List.mem_filterMap]
          constructor
          · rintro ⟨x, hx, hfx⟩
            exact hinj x y b (hxs x hx) hy hfx hf ▸ hx
          · exact fun hmem => ⟨y, hmem, hf⟩
        simp only [addNew, List.filterMap_cons, hf, List.filterMap_nil, addAllNew, List.foldl_cons,
          List.foldl_nil, hlisted]
        split <;> simp [hf]
    have hsplit : (y :: ys).filterMap f = [y].filterMap f ++ ys.filterMap f := by
      rw [← List.filterMap_append, List.singleton_append]
    show (addAllNew (addNew xs y) ys).filterMap f = _
    rw [ih hrest fun z hz => hys z (List.mem_cons_of_mem _ hz), hstep, hsplit, addAllNew, addAllNew,
      addAllNew, List.foldl_append]

theorem getLast?_addAllNew (first second third : Option β) :
    (addAllNew [] (first.toList ++ (second.toList ++ third.toList))).getLast? =
        (first.toList ++ (second.toList ++ third.toList)).getLast? ∨
      ∃ outer inner, outer ≠ inner ∧ first = some outer ∧ second = some inner ∧ third = some outer := by
  rcases first with - | a <;> rcases second with - | b <;> rcases third with - | c
  case some.some.some =>
    by_cases hab : a = b
    · subst hab
      by_cases hac : c = a <;> simp_all [addAllNew, addNew]
    · by_cases hac : c = a
      · exact Or.inr ⟨a, b, hab, rfl, rfl, by rw [hac]⟩
      · by_cases hbc : c = b <;> simp_all [addAllNew, addNew, Ne.symm hab]
  case some.some.none => by_cases hab : b = a <;> simp_all [addAllNew, addNew]
  case some.none.some => by_cases hac : c = a <;> simp_all [addAllNew, addNew]
  case none.some.some => by_cases hbc : c = b <;> simp_all [addAllNew, addNew]
  all_goals exact Or.inl rfl

end Lists

/-! ## What operations do to one cell -/

namespace Operation

/-- The kind that the operation gives the cell, if it gives it one. -/
def kindAt? (id : CellId) : Operation → Option CellKind
  | .modify x fields => if x = id then fields.kind else none
  | _ => none

/-- The tag that the operation gives the cell, if it gives it one. -/
def tagAt? (id : CellId) : Operation → Option CellTag
  | .tag x key => if x = id then some key else none
  | _ => none

theorem kindAt?_eq_some_iff {id : CellId} {operation : Operation} (hgentle : operation.Gentle)
    {kind : CellKind} : operation.kindAt? id = some kind ↔ operation = .modify id (.ofKind kind) := by
  cases operation with
  | modify x fields =>
    obtain ⟨other, rfl⟩ := hgentle
    by_cases hx : x = id <;> simp [kindAt?, hx, CellPatch.ofKind, CellPatch.empty]
  | modifyWire | tag | pong => simp [kindAt?]

theorem tagAt?_eq_some_iff {id : CellId} {operation : Operation} {key : CellTag} :
    operation.tagAt? id = some key ↔ operation = .tag id key := by
  cases operation with
  | tag x other => by_cases hx : x = id <;> simp [tagAt?, hx]
  | modify | modifyWire | pong => simp [tagAt?]

theorem Gentle.exact {operation : Operation} (hgentle : operation.Gentle) : Exact operation := by
  cases operation with
  | modify id fields =>
    obtain ⟨kind, rfl⟩ := hgentle
    exact Machine.exact_modify id kind
  | tag id key => exact Machine.exact_tag id key
  | pong id => exact Machine.exact_pong id
  | modifyWire => exact hgentle.elim

end Operation

namespace Cell

variable (cell : Cell) {operations : List Operation}

/-- The cell is left with the last kind it is given. -/
theorem kind_foldl_after_eq (hgentle : ∀ operation ∈ operations, operation.Gentle) :
    (operations.foldl after cell).kind =
      (operations.filterMap (Operation.kindAt? cell.id)).getLast?.getD cell.kind := by
  induction operations generalizing cell with
  | nil => rfl
  | cons operation operations ih =>
    rw [List.foldl_cons, ih _ fun other hmem => hgentle other (List.mem_cons_of_mem _ hmem), id_after,
      List.filterMap_cons]
    have hfirst := hgentle operation List.mem_cons_self
    rcases cell.kind_after hfirst with ⟨hnone, hsame⟩ | ⟨kind, rfl, hkind⟩
    · have hnot : operation.kindAt? cell.id = none := by
        rw [Option.eq_none_iff_forall_ne_some]
        exact fun kind heq => hnone kind ((Operation.kindAt?_eq_some_iff hfirst).mp heq)
      rw [hnot, hsame]
    · rw [(Operation.kindAt?_eq_some_iff hfirst).mpr rfl, List.getLast?_cons, hkind]
      rfl

/-- The cell has the tags it is given, each of them once. -/
theorem tags_foldl_after (operations : List Operation) :
    (operations.foldl after cell).tags =
      addAllNew cell.tags (operations.filterMap (Operation.tagAt? cell.id)) := by
  induction operations generalizing cell with
  | nil => rfl
  | cons operation operations ih =>
    rw [List.foldl_cons, ih, id_after, List.filterMap_cons]
    cases operation with
    | tag x key =>
      by_cases hx : x = cell.id
      · simp only [after, hx, if_true, Operation.tagAt?]
        rfl
      · simp only [after, hx, if_false, Operation.tagAt?]
    | modify x fields =>
      have hsame : (cell.after (.modify x fields)).tags = cell.tags := by
        rw [after]
        split <;> rfl
      rw [hsame]
      rfl
    | modifyWire | pong => rfl

theorem outline_after {operation : Operation} (hgentle : operation.Gentle) :
    (cell.after operation).outline = cell.outline := by
  cases operation with
  | modify x fields =>
    obtain ⟨kind, rfl⟩ := hgentle
    rw [after]
    split <;> rfl
  | tag x key =>
    rw [after]
    split <;> rfl
  | modifyWire | pong => rfl

theorem outline_foldl_after (hgentle : ∀ operation ∈ operations, operation.Gentle) :
    (operations.foldl after cell).outline = cell.outline := by
  induction operations generalizing cell with
  | nil => rfl
  | cons operation operations ih =>
    rw [List.foldl_cons, ih _ fun other hmem => hgentle other (List.mem_cons_of_mem _ hmem)]
    exact cell.outline_after (hgentle operation List.mem_cons_self)

theorem eq_of_outline {cell other : Cell} (houtline : cell.outline = other.outline)
    (hkind : cell.kind = other.kind) (hfire : cell.fire = other.fire) (htags : cell.tags = other.tags) :
    cell = other := by
  cases cell
  cases other
  simp_all [outline]

/-- Leaving out repetitions changes at most the kind of a cell that has no tags yet. -/
theorem foldl_after_addAllNew (hgentle : ∀ operation ∈ operations, operation.Gentle)
    (hblank : cell.tags = []) :
    { (addAllNew [] operations).foldl after cell with kind := (operations.foldl after cell).kind } =
      operations.foldl after cell := by
  have hfew : ∀ operation ∈ addAllNew [] operations, operation.Gentle := fun operation hmem =>
    (mem_or_mem_of_mem_addAllNew hmem).elim (by simp) (hgentle operation)
  refine eq_of_outline ?_ rfl ?_ ?_
  · exact (cell.outline_foldl_after hfew).trans (cell.outline_foldl_after hgentle).symm
  · exact (cell.fire_foldl_after _).trans (cell.fire_foldl_after _).symm
  · have honce : (addAllNew [] operations).filterMap (Operation.tagAt? cell.id) =
        addAllNew [] (operations.filterMap (Operation.tagAt? cell.id)) :=
      filterMap_addAllNew (P := Operation.Gentle) (fun _ => Operation.Gentle.exact)
        (fun x y key _ _ hx hy => (Operation.tagAt?_eq_some_iff.mp hx).trans
          (Operation.tagAt?_eq_some_iff.mp hy).symm) (by simp) hgentle
    show ((addAllNew [] operations).foldl after cell).tags = (operations.foldl after cell).tags
    rw [tags_foldl_after, tags_foldl_after, hblank, honce]
    exact addAllNew_eq_append_of_exact (fun tag _ => exact_of_lawful tag) (nodup_addAllNew List.nodup_nil _)

/-- So is the kind, unless a first kind comes back after another one. -/
theorem kinds_addAllNew (id : CellId) (hgentle : ∀ operation ∈ operations, operation.Gentle) :
    (addAllNew [] operations).filterMap (Operation.kindAt? id) =
      addAllNew [] (operations.filterMap (Operation.kindAt? id)) :=
  filterMap_addAllNew (P := Operation.Gentle) (fun _ => Operation.Gentle.exact)
    (fun _ _ _ hx hy hfirst hother => ((Operation.kindAt?_eq_some_iff hx).mp hfirst).trans
      ((Operation.kindAt?_eq_some_iff hy).mp hother).symm) (by simp) hgentle

end Cell

/-! ## What the peaks of one cell want -/

namespace Machine

variable {m : Machine} {gathered : Harvest}

/-- The operations of all peaks that succeed, as often as they are wanted. -/
def wanted (m : Machine) : List Operation := (m.evaluator.answered m.questions).flatMap wantedBy

theorem Finds.kinds {id : CellId} {colour : Colour} {peak : Peak} (hfinds : m.Finds id colour peak)
    (h : m.Sound) :
    (wantedBy (⟨id, colour, .now⟩, .ok peak)).filterMap (Operation.kindAt? id) = peak.landed?.toList := by
  rcases hfinds.shaped h with rfl | ⟨cell, -, rfl, hshaped⟩
  · rfl
  · cases hshaped with
    | @stored pulse _ => rcases pulse with - | (- | -) | - | - <;> rfl
    | ping hanswers _ =>
      refine List.filterMap_eq_nil_iff.mpr fun operation hmem => ?_
      rcases List.mem_append.mp hmem with hbefore | hlast
      · obtain ⟨id, rfl⟩ := hanswers operation hbefore
        rfl
      · rw [List.mem_singleton.mp hlast]
        rfl
    | @creation template _ _ _ => cases template <;> rfl
    | filled => simp [wantedBy, Operation.kindAt?, Peak.landed?, CellPatch.ofKind]
    | emptied => simp [wantedBy, Operation.kindAt?, Peak.landed?, CellPatch.ofKind]
    | nothing | raw | destruction => rfl

/-- An answer about another cell gives this one no kind. -/
theorem kinds_elsewhere (h : m.Sound) (hharvest : m.Harvested gathered) {id : CellId}
    {answer : Query × Except Fault Peak} (hanswer : answer ∈ m.evaluator.answered m.questions)
    (hother : answer.1.id ≠ id) : (wantedBy answer).filterMap (Operation.kindAt? id) = [] := by
  obtain ⟨q, answer⟩ := answer
  obtain ⟨peak, rfl⟩ := hharvest.peaks _ hanswer
  refine List.filterMap_eq_nil_iff.mpr fun operation hmem => ?_
  obtain ⟨_, heq, -, hin⟩ := mem_wantedBy.mp hmem
  cases heq
  rw [query_of_mem_answered hanswer] at hanswer
  rcases Finds.operation_cases hanswer h hin with ⟨y, rfl⟩ | ⟨-, ⟨kind, rfl⟩ | rfl⟩
  · rfl
  · exact if_neg hother
  · rfl

theorem flatMap_filter_of_nil {α β : Type} {p : α → Bool} {f : α → List β} {xs : List α}
    (h : ∀ x ∈ xs, p x = false → f x = []) : (xs.filter p).flatMap f = xs.flatMap f := by
  induction xs with
  | nil => rfl
  | cons x xs ih =>
    have hrest := ih fun y hy => h y (List.mem_cons_of_mem _ hy)
    cases hx : p x with
    | true => rw [List.filter_cons_of_pos hx, List.flatMap_cons, List.flatMap_cons, hrest]
    | false =>
      rw [List.filter_cons_of_neg (by simp [hx]), List.flatMap_cons, h x List.mem_cons_self hx, hrest,
        List.nil_append]

theorem exists_of_map_fst {α β : Type} : ∀ {xs : List (α × β)} {x y z : α},
    xs.map Prod.fst = [x, y, z] → ∃ a b c, xs = [(x, a), (y, b), (z, c)]
  | [(_, a), (_, b), (_, c)], _, _, _, rfl => ⟨a, b, c, rfl⟩

/-- A cell is asked about once in each colour. -/
theorem filter_questionsOf {ids : List CellId} (hnodup : ids.Nodup) {id : CellId} (hid : id ∈ ids) :
    (questionsOf ids).filter (·.id = id) = Colour.all.map fun colour => ⟨id, colour, .now⟩ := by
  induction ids with
  | nil => cases hid
  | cons x ids ih =>
    rw [List.nodup_cons] at hnodup
    have hsplit : questionsOf (x :: ids) =
        (Colour.all.map fun colour => (⟨x, colour, .now⟩ : Query)) ++ questionsOf ids := by
      rw [questionsOf, List.flatMap_cons]
      rfl
    rw [hsplit, List.filter_append]
    by_cases hx : x = id
    · subst hx
      have hnone : (questionsOf ids).filter (·.id = x) = [] := by
        refine List.filter_eq_nil_iff.mpr fun q hq => ?_
        obtain ⟨y, hy, hcolour⟩ := List.mem_flatMap.mp hq
        obtain ⟨colour, -, rfl⟩ := List.mem_map.mp hcolour
        have hne : y ≠ x := fun heq => hnodup.1 (heq ▸ hy)
        simpa using hne
      rw [hnone, List.append_nil, List.filter_eq_self.mpr]
      simp
    · have hnone : (Colour.all.map fun colour => (⟨x, colour, .now⟩ : Query)).filter (·.id = id) = [] := by
        refine List.filter_eq_nil_iff.mpr fun q hq => ?_
        obtain ⟨colour, -, rfl⟩ := List.mem_map.mp hq
        simpa using hx
      rw [hnone, List.nil_append]
      exact ih hnodup.2 ((List.mem_cons.mp hid).resolve_left (Ne.symm hx))

/-- The kinds wanted for a cell are those of its peaks, red before green before blue. -/
theorem Harvested.kinds_wanted (hharvest : m.Harvested gathered) (h : m.Sound) {id : CellId} {old : Cell}
    (hold : m.circuit.cell? id = some old) :
    ∃ red green blue, m.Finds id .red red ∧ m.Finds id .green green ∧ m.Finds id .blue blue ∧
      m.wanted.filterMap (Operation.kindAt? id) =
        red.landed?.toList ++ (green.landed?.toList ++ blue.landed?.toList) := by
  have hkeyed := h.circuit.linked.keyed
  have hid : id ∈ m.circuit.cells.map (·.id) := by
    have hown := id_of_cell? hkeyed hold
    exact List.mem_map.mpr ⟨old, (mem_cells_iff hkeyed).mpr (hown.symm ▸ hold), hown⟩
  have hasked : ((m.evaluator.answered m.questions).filter (·.1.id = id)).map Prod.fst =
      [⟨id, .red, .now⟩, ⟨id, .green, .now⟩, ⟨id, .blue, .now⟩] := by
    calc ((m.evaluator.answered m.questions).filter (·.1.id = id)).map Prod.fst
      _ = ((m.evaluator.answered m.questions).map Prod.fst).filter (·.id = id) := by
        rw [List.filter_map]
        rfl
      _ = m.questions.filter (·.id = id) := by rw [map_fst_answered]
      _ = _ := filter_questionsOf hkeyed.nodup_cells hid
  -- the three answers about the cell, each of them a peak
  obtain ⟨first, second, third, hthree⟩ := exists_of_map_fst hasked
  have hin : ∀ answer ∈ [(⟨id, .red, .now⟩, first), (⟨id, .green, .now⟩, second),
      ((⟨id, .blue, .now⟩ : Query), third)], answer ∈ m.evaluator.answered m.questions :=
    fun answer hmem => List.mem_of_mem_filter (hthree ▸ hmem)
  simp only [List.forall_mem_cons, List.not_mem_nil, false_imp_iff, implies_true, and_true] at hin
  obtain ⟨hred, hgreen, hblue⟩ := hin
  obtain ⟨red, rfl⟩ := hharvest.peaks _ hred
  obtain ⟨green, rfl⟩ := hharvest.peaks _ hgreen
  obtain ⟨blue, rfl⟩ := hharvest.peaks _ hblue
  refine ⟨red, green, blue, hred, hgreen, hblue, ?_⟩
  calc m.wanted.filterMap (Operation.kindAt? id)
    _ = (m.evaluator.answered m.questions).flatMap fun answer =>
        (wantedBy answer).filterMap (Operation.kindAt? id) := List.filterMap_flatMap
    _ = ((m.evaluator.answered m.questions).filter (·.1.id = id)).flatMap fun answer =>
        (wantedBy answer).filterMap (Operation.kindAt? id) := by
      refine (flatMap_filter_of_nil fun answer hanswer helse => ?_).symm
      exact kinds_elsewhere h hharvest hanswer (by simpa using helse)
    _ = _ := by
      rw [hthree, List.flatMap_cons, List.flatMap_cons, List.flatMap_cons, List.flatMap_nil,
        Finds.kinds hred h, Finds.kinds hgreen h, Finds.kinds hblue h, List.append_nil]

/-! ## Two ways to carry them out -/

/-- The red and the blue pulse come to rest at the cell with templates of one kind, the green pulse with a
template of another. -/
structure Crossed (m : Machine) (id : CellId) (outer inner : CellKind) : Prop where
  ne : outer ≠ inner
  red : ∃ template operations,
    m.Finds id .red (.success (.creation (some template)) operations true) ∧ template.kind = outer
  green : ∃ template operations,
    m.Finds id .green (.success (.creation (some template)) operations true) ∧ template.kind = inner
  blue : ∃ template operations,
    m.Finds id .blue (.success (.creation (some template)) operations true) ∧ template.kind = outer

theorem isHalted_of_landed {peak : Peak} {kind : CellKind} (hlanded : peak.landed? = some kind) :
    peak.isHalted = true := by
  unfold Peak.landed? at hlanded
  split at hlanded
  · rfl
  · rfl
  · cases hlanded

/-- Two peaks of a cell that come to rest with different kinds both fill it. -/
theorem filled_of_landed (h : m.Sound) {id : CellId} {old : Cell} (hold : m.circuit.cell? id = some old)
    {colour another : Colour} {peak other : Peak} (hfinds : m.Finds id colour peak)
    (hother : m.Finds id another other) {kind kind' : CellKind} (hlanded : peak.landed? = some kind)
    (hlanded' : other.landed? = some kind') (hne : kind ≠ kind') :
    ∃ template operations, peak = .success (.creation (some template)) operations true ∧
      template.kind = kind := by
  rcases hfinds.halted_cases h hold (isHalted_of_landed hlanded) with ⟨template, rfl, -⟩ | ⟨rfl, hempties⟩
  · exact ⟨template, _, rfl, Option.some.inj hlanded⟩
  · rcases hother.halted_cases h hold (isHalted_of_landed hlanded') with ⟨template, -, hslot, -⟩ | ⟨rfl, -⟩
    · rw [hslot] at hempties
      cases hempties
    · exact absurd ((Option.some.inj hlanded).symm.trans (Option.some.inj hlanded')) hne

namespace Harvested

/-- Nothing that is wanted is lost. -/
theorem mem_of_wanted (hharvest : m.Harvested gathered) (h : m.Sound) {operation : Operation}
    (hmem : operation ∈ m.wanted) : operation ∈ gathered.operations := by
  rw [hharvest.operations, mem_addAllNew_of_exact h.exact_wanted]
  exact Or.inr hmem

theorem wanted_gentle (hharvest : m.Harvested gathered) (h : m.Sound) :
    ∀ operation ∈ m.wanted, operation.Gentle := fun operation hmem =>
  hharvest.gentle h operation (hharvest.mem_of_wanted h hmem)

theorem wanted_suits (hharvest : m.Harvested gathered) (h : m.Sound) :
    ∀ operation ∈ m.wanted, operation.Suits m.circuit := fun operation hmem =>
  hharvest.suits h operation (hharvest.mem_of_wanted h hmem)

variable {id : CellId} {old blank : Cell}

/-- The kinds that both ways leave a cell with, in terms of its three peaks. -/
theorem kinds_repeated (hharvest : m.Harvested gathered) (h : m.Sound)
    (hold : m.circuit.cell? id = some old) (hblank : blank.id = id) :
    ∃ red green blue, m.Finds id .red red ∧ m.Finds id .green green ∧ m.Finds id .blue blue ∧
      (gathered.operations.foldl Cell.after blank).kind = (addAllNew []
        (red.landed?.toList ++ (green.landed?.toList ++ blue.landed?.toList))).getLast?.getD blank.kind ∧
      (m.wanted.foldl Cell.after blank).kind =
        (red.landed?.toList ++ (green.landed?.toList ++ blue.landed?.toList)).getLast?.getD blank.kind := by
  obtain ⟨red, green, blue, hred, hgreen, hblue, hkinds⟩ := hharvest.kinds_wanted h hold
  have hgentle := hharvest.wanted_gentle h
  have honce : gathered.operations = addAllNew [] m.wanted := hharvest.operations
  refine ⟨red, green, blue, hred, hgreen, hblue, ?_, ?_⟩
  · rw [blank.kind_foldl_after_eq (hharvest.gentle h), honce, Cell.kinds_addAllNew blank.id hgentle, hblank,
      hkinds]
  · rw [blank.kind_foldl_after_eq hgentle, hblank, hkinds]

theorem kinds_of_crossed (hharvest : m.Harvested gathered) (h : m.Sound)
    (hold : m.circuit.cell? id = some old) (hblank : blank.id = id) {outer inner : CellKind}
    (hcrossed : m.Crossed id outer inner) :
    (gathered.operations.foldl Cell.after blank).kind = inner ∧
      (m.wanted.foldl Cell.after blank).kind = outer := by
  obtain ⟨red, green, blue, hred, hgreen, hblue, hfew, hall⟩ := hharvest.kinds_repeated h hold hblank
  rw [hfew, hall]
  -- each colour has one peak only
  obtain ⟨template, operations, hfinds, rfl⟩ := hcrossed.red
  obtain rfl := (hharvest.existsUnique_finds h hold .red).unique hred hfinds
  obtain ⟨template', operations', hfinds', rfl⟩ := hcrossed.green
  obtain rfl := (hharvest.existsUnique_finds h hold .green).unique hgreen hfinds'
  obtain ⟨template'', operations'', hfinds'', hsame⟩ := hcrossed.blue
  obtain rfl := (hharvest.existsUnique_finds h hold .blue).unique hblue hfinds''
  have hne := hcrossed.ne
  simp [Peak.landed?, hsame, addAllNew, addNew, hne, hne.symm]

theorem kind_of_not_crossed (hharvest : m.Harvested gathered) (h : m.Sound)
    (hold : m.circuit.cell? id = some old) (hblank : blank.id = id)
    (hnone : ∀ outer inner, ¬ m.Crossed id outer inner) :
    (gathered.operations.foldl Cell.after blank).kind = (m.wanted.foldl Cell.after blank).kind := by
  obtain ⟨red, green, blue, hred, hgreen, hblue, hfew, hall⟩ := hharvest.kinds_repeated h hold hblank
  rw [hfew, hall]
  rcases getLast?_addAllNew red.landed? green.landed? blue.landed? with hlast |
    ⟨outer, inner, hne, hfirst, hsecond, hthird⟩
  · rw [hlast]
  · refine absurd ⟨hne, ?_, ?_, ?_⟩ (hnone outer inner)
    · obtain ⟨template, operations, rfl, hkind⟩ := filled_of_landed h hold hred hgreen hfirst hsecond hne
      exact ⟨template, operations, hred, hkind⟩
    · obtain ⟨template, operations, rfl, hkind⟩ :=
        filled_of_landed h hold hgreen hred hsecond hfirst hne.symm
      exact ⟨template, operations, hgreen, hkind⟩
    · obtain ⟨template, operations, rfl, hkind⟩ := filled_of_landed h hold hblue hgreen hthird hsecond hne
      exact ⟨template, operations, hblue, hkind⟩

end Harvested

end Machine

/-- A table is known by its keys and its look-ups. -/
theorem Table.eq_of_lookups {κ α : Type} [DecidableEq κ] {t u : Table κ α} (hkeys : t.keys = u.keys)
    (hget : ∀ k, t.get? k = u.get? k) : t = u := by
  have hrows : ∀ t : Table κ α, t.rows.map (fun row => (row.1, some row.2)) =
      t.keys.map fun k => (k, t.get? k) := by
    intro t
    rw [Table.keys, List.map_map]
    refine List.map_congr_left fun row hrow => ?_
    rw [Function.comp, Table.get?_eq_some_iff.mpr hrow]
  refine Table.ext (List.map_injective_iff.mpr ?_ ((hrows t).trans (Eq.trans ?_ (hrows u).symm)))
  · rintro ⟨k, v⟩ ⟨k', v'⟩ heq
    simpa using heq
  · rw [hkeys]
    exact List.map_congr_left fun k _ => by rw [hget]

/-- Circuits of one layout are equal if their cells are. -/
theorem Circuit.SameLayout.eq_of_cells {c d : Circuit} (h : c.SameLayout d)
    (hcells : ∀ id, c.cell? id = d.cell? id) : c = d := by
  have hlive : c.live = d.live :=
    Table.eq_of_lookups h.keys.symm (get?_eq_of_lookups hcells fun id => (h.wire id).symm)
  obtain ⟨live, archive, ids⟩ := c
  obtain ⟨live', archive', ids'⟩ := d
  obtain rfl : live = live' := hlive
  obtain rfl : archive' = archive := h.archive
  obtain rfl : ids' = ids := h.ids
  rfl

namespace Machine

variable {m m' : Machine} {gathered : Harvest}

/-- How a circuit for which each operation was carried out once differs from one for which operations were
carried out as often as they are wanted. -/
structure Repeated (m : Machine) (few all : Circuit) : Prop where
  /-- Rows, wires, archive and ids are the same. -/
  layout : few.SameLayout all
  /-- A cell of the one is a cell of the other, and may only differ in its kind. -/
  cells : ∀ id cell, few.cell? id = some cell →
    ∃ kind, all.cell? id = some { cell with kind := kind }
  crossed : ∀ id cell outer inner, few.cell? id = some cell → m.Crossed id outer inner →
    cell.kind = inner ∧ all.cell? id = some { cell with kind := outer }
  kept : ∀ id, (∀ outer inner, ¬ m.Crossed id outer inner) → few.cell? id = all.cell? id

/-- Only live cells are crossed. -/
theorem Crossed.live {id : CellId} {outer inner : CellKind} (hcrossed : m.Crossed id outer inner)
    (h : m.Sound) : ∃ cell, m.circuit.cell? id = some cell := by
  obtain ⟨template, operations, hfinds, -⟩ := hcrossed.red
  rcases hfinds.shaped h with heq | ⟨cell, hcell, -⟩
  · cases heq
  · exact ⟨cell, hcell⟩

theorem Harvested.repeated_changed (hharvest : m.Harvested gathered) (h : m.Sound) :
    m.Repeated (m.changed gathered) (m.wanted.foldl Circuit.carriedOut m.circuit.withoutTags) := by
  have hgentle := hharvest.wanted_gentle h
  have hlinked := h.circuit.withoutTags.linked
  have honce : gathered.operations = addAllNew [] m.wanted := hharvest.operations
  have hall : ∀ id, (m.wanted.foldl Circuit.carriedOut m.circuit.withoutTags).cell? id =
      (m.circuit.cell? id).map fun cell => m.wanted.foldl Cell.after { cell with tags := [] } := by
    intro id
    have hmap : m.circuit.withoutTags = m.circuit.mapCells fun cell => { cell with tags := [] } := rfl
    rw [hlinked.cell?_foldl_carriedOut, hmap, cell?_mapCells, Option.map_map]
    rfl
  -- what both make of a cell of the machine's circuit
  have hcell : ∀ {id old}, m.circuit.cell? id = some old →
      (m.wanted.foldl Circuit.carriedOut m.circuit.withoutTags).cell? id =
        some { gathered.operations.foldl Cell.after { old with tags := [] } with
          kind := (m.wanted.foldl Cell.after { old with tags := [] }).kind } := by
    intro id old hold
    rw [hall, hold, Option.map_some, honce, Cell.foldl_after_addAllNew _ hgentle rfl]
  have hold : ∀ {id cell}, (m.changed gathered).cell? id = some cell → ∃ old,
      m.circuit.cell? id = some old ∧ gathered.operations.foldl Cell.after { old with tags := [] } = cell := by
    intro id cell hfew
    rw [h.cell?_changed] at hfew
    exact Option.map_eq_some_iff.mp hfew
  have hblank : ∀ {id old}, m.circuit.cell? id = some old → ({ old with tags := [] } : Cell).id = id := by
    intro id old hlive
    rw [← id_of_cell? h.circuit.linked.keyed hlive]
  constructor
  · have hback : m.circuit.withoutTags.SameLayout (m.changed gathered) :=
      .foldl_carriedOut _ (hharvest.gentle h)
    exact hback.symm.trans (.foldl_carriedOut _ hgentle)
  · intro id cell hfew
    obtain ⟨old, hlive, rfl⟩ := hold hfew
    exact ⟨_, hcell hlive⟩
  · intro id cell outer inner hfew hcrossed
    obtain ⟨old, hlive, rfl⟩ := hold hfew
    obtain ⟨hinner, houter⟩ := hharvest.kinds_of_crossed h hlive (hblank hlive) hcrossed
    exact ⟨hinner, houter ▸ hcell hlive⟩
  · intro id hnone
    rw [h.cell?_changed]
    cases hlive : m.circuit.cell? id with
    | none => rw [hall, hlive]; rfl
    | some old =>
      rw [hcell hlive, ← hharvest.kind_of_not_crossed h hlive (hblank hlive) hnone]
      rfl

/-- The two circuits are equal unless some cell is crossed. -/
theorem Repeated.eq_iff {few all : Circuit} (hrepeated : m.Repeated few all)
    (hlive : ∀ id, (∃ cell, m.circuit.cell? id = some cell) → ∃ cell, few.cell? id = some cell)
    (h : m.Sound) : few = all ↔ ∀ id outer inner, ¬ m.Crossed id outer inner := by
  constructor
  · rintro rfl id outer inner hcrossed
    obtain ⟨cell, hcell⟩ := hlive id (hcrossed.live h)
    obtain ⟨hinner, houter⟩ := hrepeated.crossed id cell outer inner hcell hcrossed
    rw [hcell, Option.some.injEq] at houter
    exact hcrossed.ne ((congrArg Cell.kind houter).symm.trans hinner)
  · exact fun hnone => hrepeated.layout.eq_of_cells fun id => hrepeated.kept id (hnone id)

/-- The number of beats has no say in what is gathered. -/
theorem harvestAll_of_beats {found : Harvest × EvalStats} (beats : Nat) (hrun : harvestAll m = .ok found m') :
    harvestAll { m with beats := beats } = .ok found { m' with beats := beats } := by
  have hsame : harvest (({ m with beats := beats } : Machine).circuit.cells.map (·.id)) ⟨[], []⟩
      ({ m with beats := beats } : Machine).evaluator =
        harvest (m.circuit.cells.map (·.id)) ⟨[], []⟩ m.evaluator := rfl
  rw [harvestAll, hsame]
  cases hasked : harvest (m.circuit.cells.map (·.id)) ⟨[], []⟩ m.evaluator with
  | error fault e =>
    rw [harvestAll, hasked] at hrun
    cases hrun
  | ok gathered e =>
    rw [harvestAll, hasked] at hrun
    cases hrun
    rfl

/-- Once the answers of a beat are gathered, its operations can be carried out both ways, and the circuits
differ exactly in the kinds of crossed cells. The beat goes on with the circuit for which each operation was
carried out once. -/
theorem Reachable.repeated (h : m.Reachable) {stats : EvalStats}
    (hrun : harvestAll m = .ok (gathered, stats) m') :
    ∃ once few each all projected,
      Circuit.applyAll m.validate gathered.operations m.circuit.withoutTags = .ok once few ∧
      Circuit.applyAll m.validate m.wanted m.circuit.withoutTags = .ok each all ∧
      m.Repeated few all ∧ (few = all ↔ ∀ id outer inner, ¬ m.Crossed id outer inner) ∧
      few.project m.validate = .ok projected ∧
      ∃ report m'', Machine.beat m = .ok report m'' ∧ m''.circuit = projected ∧
        report.operations = once.operations ∧ report.pongs = once.pongs := by
  obtain ⟨rfl, hharvest⟩ := harvestAll_of_ok hrun
  have hsound := h.sound
  have hcleared := hsound.circuit.withoutTags.linked
  have hrepeated := hharvest.repeated_changed hsound
  have hlive : ∀ id, (∃ cell, m'.circuit.cell? id = some cell) →
      ∃ cell, (m'.changed gathered).cell? id = some cell := by
    rintro id ⟨cell, hcell⟩
    exact ⟨_, by rw [hsound.cell?_changed, hcell, Option.map_some]⟩
  have hcount := harvestAll_of_beats (m'.beats + 1) hrun
  obtain ⟨projected, hproject, hbeat⟩ := hsound.beat_of_gathered hcount (hharvest.suits hsound)
  exact ⟨_, _, _, _, projected, hcleared.applyAll_run _ (suits_withoutTags (hharvest.suits hsound)),
    hcleared.applyAll_run _ (suits_withoutTags (hharvest.wanted_suits hsound)), hrepeated,
    hrepeated.eq_iff hlive hsound, hproject, _, _, hbeat, rfl, rfl, rfl⟩

/-- A relay before a slot. It holds a creation pulse of each colour, and the template of the green one is
another than that of the red and the blue one. -/
def crossing : Machine :=
  (ofCircuit true .initial).performAll
    [.edit true (.createCell .root .relay .origin), .edit true (.createCell .root .slot .origin),
      .edit true (.createWire ⟨1⟩ ⟨2⟩ .any .now),
      .edit true (.fire ⟨1⟩ .red (.creation (some ⟨.recording, .origin⟩))),
      .edit true (.fire ⟨1⟩ .green (.creation (some ⟨.stopper, .origin⟩))),
      .edit true (.fire ⟨1⟩ .blue (.creation (some ⟨.recording, .origin⟩)))]

/-- The kinds of the cells once some operations are carried out. -/
def kindsOnce (m : Machine) (operations : List Operation) : Option (List CellKind) :=
  (Circuit.applyAll m.validate operations).read? (fun _ c => c.cells.map (·.kind)) m.circuit.withoutTags

theorem kinds_crossing :
    harvestAll.read? (fun found _ => (crossing.kindsOnce found.1.operations, crossing.kindsOnce crossing.wanted))
      crossing = some (some [.relay, .relay, .stopper], some [.relay, .relay, .recording]) := by
  decide +kernel

theorem reachable_crossing : crossing.Reachable := .performAll (.new true) _

theorem kindsOnce_of_ok {operations : List Operation} {applied : Applied} {c : Circuit}
    (hrun : Circuit.applyAll m.validate operations m.circuit.withoutTags = .ok applied c) :
    m.kindsOnce operations = some (c.cells.map (·.kind)) := by
  rw [kindsOnce, EStateM.read?, hrun]

/-- Without the repetition the slot becomes a stopper, with it a recording cell. -/
theorem repeated_crossing :
    ∃ gathered stats m' once few each all, harvestAll crossing = .ok (gathered, stats) m' ∧
      Circuit.applyAll crossing.validate gathered.operations crossing.circuit.withoutTags = .ok once few ∧
      Circuit.applyAll crossing.validate crossing.wanted crossing.circuit.withoutTags = .ok each all ∧
      crossing.Repeated few all ∧ few.cells.map (·.kind) = [.relay, .relay, .stopper] ∧
      all.cells.map (·.kind) = [.relay, .relay, .recording] := by
  obtain ⟨⟨gathered, stats⟩, m', hrun, hkinds⟩ := exists_of_read? kinds_crossing
  obtain ⟨once, few, each, all, projected, honce, heach, hrepeated, -⟩ :=
    reachable_crossing.repeated hrun
  rw [kindsOnce_of_ok honce, kindsOnce_of_ok heach, Prod.mk.injEq, Option.some.injEq,
    Option.some.injEq] at hkinds
  exact ⟨gathered, stats, m', once, few, each, all, hrun, honce, heach, hrepeated, hkinds⟩

/-- So repetitions do matter. -/
theorem repetition_matters :
    ¬ ∀ (m m' : Machine) (gathered : Harvest) (stats : EvalStats) (once each : Applied) (few all : Circuit),
      m.Reachable → harvestAll m = .ok (gathered, stats) m' →
      Circuit.applyAll m.validate gathered.operations m.circuit.withoutTags = .ok once few →
      Circuit.applyAll m.validate m.wanted m.circuit.withoutTags = .ok each all → few = all := by
  intro hall
  obtain ⟨⟨gathered, stats⟩, m', hrun, hkinds⟩ := exists_of_read? kinds_crossing
  obtain ⟨hfew, heach⟩ := Prod.mk.inj hkinds
  obtain ⟨once, few, honce, hstopper⟩ := exists_of_read? hfew
  obtain ⟨each, all, hrest, hrecording⟩ := exists_of_read? heach
  have hsame := hall crossing m' gathered stats once each few all reachable_crossing hrun honce hrest
  rw [hsame, hrecording] at hstopper
  cases hstopper

end Machine

end PulseCircuit
