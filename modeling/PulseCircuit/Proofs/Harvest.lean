import PulseCircuit.Proofs.Beats

/-!
# What a beat gathers

A beat asks about every live cell in every colour, all with one evaluator. The answers come one after the
other (`Evaluator.answered`), and a beat goes on only if each of them is a peak. What it gathers can then be
read off the peaks: the cells with a peak that succeeds fire, and the operations wanted are those of the peaks
that succeed.

* `harvest_of_ok`: what is gathered, in terms of the answers;
* `Machine.Finds`: the peak a beat finds for a cell and a colour, one for each live cell and each colour
  (`Harvested.existsUnique_finds`);
* `Finds.shaped`: a peak that is found looks like a peak of its cell, so its operations suit the circuit
  (`Harvested.suits`) and each is listed once (`Harvested.nodup_operations`).
-/

namespace PulseCircuit

open Circuit Evaluator Running

/-! ## Answers in a row -/

namespace Evaluator

/-- The answers of an evaluator to queries, one after the other. -/
def answered : Evaluator → List Query → List (Query × Except Fault Peak)
  | _, [] => []
  | e, q :: queries => (q, e.reply q) :: (e.next q).answered queries

theorem answered_append (e : Evaluator) (queries rest : List Query) :
    e.answered (queries ++ rest) = e.answered queries ++ (e.asked queries).answered rest := by
  induction queries generalizing e with
  | nil => rfl
  | cons q queries ih =>
    rw [List.cons_append, answered, answered, ih, List.cons_append]
    rfl

theorem map_fst_answered (e : Evaluator) (queries : List Query) :
    (e.answered queries).map Prod.fst = queries := by
  induction queries generalizing e with
  | nil => rfl
  | cons q queries ih => rw [answered, List.map_cons, ih]

/-- An answer comes from what the evaluator is after some of the queries. -/
theorem exists_of_mem_answered {e : Evaluator} {queries : List Query} {q : Query}
    {answer : Except Fault Peak} (h : (q, answer) ∈ e.answered queries) :
    q ∈ queries ∧ ∃ before, (∀ other ∈ before, other ∈ queries) ∧ (e.asked before).reply q = answer := by
  induction queries generalizing e with
  | nil => cases h
  | cons other queries ih =>
    rcases List.mem_cons.mp h with heq | hrest
    · obtain ⟨rfl, rfl⟩ := Prod.mk.inj heq
      exact ⟨List.mem_cons_self, [], by simp, rfl⟩
    · obtain ⟨hq, before, hbefore, hreply⟩ := ih hrest
      refine ⟨List.mem_cons_of_mem _ hq, other :: before, fun x hx => ?_, hreply⟩
      rcases List.mem_cons.mp hx with rfl | hx
      · exact List.mem_cons_self
      · exact List.mem_cons_of_mem _ (hbefore x hx)

/-- Queries that are all different get one answer each. -/
theorem unique_answered {e : Evaluator} {queries : List Query} (hnodup : queries.Nodup) {q : Query}
    {answer other : Except Fault Peak} (h : (q, answer) ∈ e.answered queries)
    (h' : (q, other) ∈ e.answered queries) : answer = other := by
  have hdistinct : ((e.answered queries).map Prod.fst).Nodup := by
    rw [map_fst_answered]
    exact hnodup
  have hsame := List.inj_on_of_nodup_map hdistinct h h' rfl
  exact (Prod.mk.inj hsame).2

end Evaluator

/-- No two live cells have one id. -/
theorem Circuit.Keyed.nodup_cells {c : Circuit} (h : c.Keyed) : (c.cells.map (·.id)).Nodup := by
  have hrows : c.live.rows.Pairwise fun row other => row.1 ≠ other.1 := List.pairwise_map.mp c.live.nodup
  have hkey : ∀ row ∈ c.live.rows, row.2.id = row.1 := fun row hrow => h (Table.get?_eq_some_iff.mpr hrow)
  rw [List.Nodup, List.pairwise_map, Circuit.cells, Table.values, List.filterMap_map,
    List.pairwise_filterMap]
  refine hrows.imp_of_mem fun {row other} hrow hother hne cell hcell another hanother hsame => hne ?_
  obtain ⟨id, cell' | wire⟩ := row
  · obtain ⟨id', another' | wire'⟩ := other
    · cases hcell
      cases hanother
      rw [← hkey _ hrow, ← hkey _ hother]
      exact CellId.toId_inj.mpr hsame
    · cases hanother
  · cases hcell

namespace Machine

/-! ## Gathering -/

/-- The questions of a beat about some cells. -/
def questionsOf (ids : List CellId) : List Query :=
  ids.flatMap fun id => Colour.all.map fun colour => ⟨id, colour, .now⟩

/-- The questions of a beat. -/
def questions (m : Machine) : List Query := questionsOf (m.circuit.cells.map (·.id))

/-- The cell and the colour are asked about in a beat, and this peak is the answer. -/
def Finds (m : Machine) (id : CellId) (colour : Colour) (peak : Peak) : Prop :=
  (⟨id, colour, .now⟩, .ok peak) ∈ m.evaluator.answered m.questions

/-- The answer is a peak that succeeds. -/
def fires (answer : Query × Except Fault Peak) : Bool :=
  match answer.2 with
  | .ok peak => peak.isSuccess
  | .error _ => false

/-- The operations of an answer that is a peak that succeeds. -/
def wantedBy (answer : Query × Except Fault Peak) : List Operation :=
  match answer.2 with
  | .ok (.success _ operations _) => operations
  | _ => []

theorem fires_iff {answer : Query × Except Fault Peak} :
    fires answer = true ↔ ∃ peak, answer.2 = .ok peak ∧ peak.isSuccess = true := by
  rw [fires]
  split <;> simp_all

theorem addAllNew_append {α : Type} [BEq α] (xs ys zs : List α) :
    addAllNew xs (ys ++ zs) = addAllNew (addAllNew xs ys) zs := List.foldl_append

/-- Asking about a cell in some colours goes through the answers, which are all peaks. -/
theorem harvestCell_of_ok {id : CellId} {colours : List Colour} {fired : Bool}
    {operations : List Operation} {e e' : Evaluator} {found : Bool × List Operation}
    (h : harvestCell id colours fired operations e = .ok found e') :
    let queries := colours.map fun colour => (⟨id, colour, .now⟩ : Query)
    e' = e.asked queries ∧ (∀ answer ∈ e.answered queries, ∃ peak, answer.2 = .ok peak) ∧
      found = (fired || (e.answered queries).any fires,
        addAllNew operations ((e.answered queries).flatMap wantedBy)) := by
  induction colours generalizing e fired operations with
  | nil =>
    cases h
    simp [asked, answered, addAllNew]
  | cons colour colours ih =>
    rw [harvestCell] at h
    cases hreply : e.reply ⟨id, colour, .now⟩ with
    | error fault =>
      rw [bind_of_error (peak_of_error hreply)] at h
      cases h
    | ok peak =>
      rw [bind_of_ok (peak_of_ok hreply)] at h
      -- a peak that fails leaves both counts as they are, and is no different from one without operations
      have hrest : harvestCell id colours (fired || peak.isSuccess)
          (addAllNew operations (wantedBy (⟨id, colour, .now⟩, .ok peak))) (e.next ⟨id, colour, .now⟩) =
          .ok found e' := by
        rcases peak with wanted | ⟨pulse, wanted, halted⟩
        · rw [Peak.isSuccess, Bool.or_false]
          exact h
        · rw [Peak.isSuccess, Bool.or_true]
          exact h
      obtain ⟨hend, hpeaks, hfound⟩ := ih hrest
      refine ⟨hend, ?_, ?_⟩
      · intro answer hmem
        rw [List.map_cons, answered, hreply] at hmem
        rcases List.mem_cons.mp hmem with rfl | hmem
        · exact ⟨peak, rfl⟩
        · exact hpeaks answer hmem
      · rw [hfound, List.map_cons, answered, hreply, List.any_cons, List.flatMap_cons, addAllNew_append,
          Bool.or_assoc]
        rfl

/-- What is asked about one cell is answered about this cell, so it fires if one of the answers does. -/
theorem mem_fired_iff {e : Evaluator} {id other : CellId} {colours : List Colour} :
    other ∈ (if (e.answered (colours.map fun colour => ⟨id, colour, .now⟩)).any fires then [id] else []) ↔
      ∃ answer ∈ e.answered (colours.map fun colour => ⟨id, colour, .now⟩),
        answer.1.id = other ∧ fires answer = true := by
  have habout : ∀ answer ∈ e.answered (colours.map fun colour => ⟨id, colour, .now⟩),
      answer.1.id = id := by
    intro answer hanswer
    obtain ⟨colour, -, hquery⟩ := List.mem_map.mp (exists_of_mem_answered hanswer).1
    rw [← hquery]
  constructor
  · intro hin
    split at hin
    next hany =>
      obtain ⟨answer, hanswer, hfires⟩ := List.any_eq_true.mp hany
      exact ⟨answer, hanswer, (habout answer hanswer).trans (List.mem_singleton.mp hin).symm, hfires⟩
    next => cases hin
  · rintro ⟨answer, hanswer, rfl, hfires⟩
    rw [if_pos (List.any_eq_true.mpr ⟨answer, hanswer, hfires⟩), habout answer hanswer]
    exact List.mem_singleton_self id

/-- Asking about cells goes through the answers. The cells that fire are added in order. -/
theorem harvest_of_ok {ids : List CellId} {gathered found : Harvest} {e e' : Evaluator}
    (h : harvest ids gathered e = .ok found e') :
    (∀ answer ∈ e.answered (questionsOf ids), ∃ peak, answer.2 = .ok peak) ∧
      found.operations =
        addAllNew gathered.operations ((e.answered (questionsOf ids)).flatMap wantedBy) ∧
      ∃ firing, found.firing = gathered.firing ++ firing ∧ firing.Sublist ids ∧
        ∀ id, id ∈ firing ↔ ∃ answer ∈ e.answered (questionsOf ids), answer.1.id = id ∧ fires answer = true := by
  induction ids generalizing e gathered with
  | nil =>
    cases h
    exact ⟨by simp [questionsOf, answered], rfl, [], by simp, List.Sublist.slnil,
      by simp [questionsOf, answered]⟩
  | cons id ids ih =>
    rw [harvest] at h
    cases hrun : harvestCell id Colour.all false gathered.operations e with
    | error fault e₁ =>
      rw [bind_of_error hrun] at h
      cases h
    | ok one e₁ =>
      rw [bind_of_ok hrun] at h
      obtain ⟨hend, hpeaks, hone⟩ := harvestCell_of_ok hrun
      obtain ⟨hpeaks', hoperations, firing, hfiring, hsublist, hmem⟩ := ih h
      have hsplit : e.answered (questionsOf (id :: ids)) =
          e.answered (Colour.all.map fun colour => ⟨id, colour, .now⟩) ++
            e₁.answered (questionsOf ids) := by
        rw [hend, questionsOf, List.flatMap_cons, answered_append]
        rfl
      have hfired : one.1 = (e.answered (Colour.all.map fun colour => ⟨id, colour, .now⟩)).any fires := by
        rw [hone, Bool.false_or]
      rw [hsplit]
      refine ⟨?_, ?_, (if one.1 then [id] else []) ++ firing, ?_, ?_, ?_⟩
      · intro answer hanswer
        rcases List.mem_append.mp hanswer with hhere | hthere
        · exact hpeaks answer hhere
        · exact hpeaks' answer hthere
      · rw [hoperations, List.flatMap_append, addAllNew_append, hone]
      · rw [hfiring]
        cases one.1 <;> simp
      · cases one.1 with
        | false => exact hsublist.cons id
        | true => exact hsublist.cons_cons id
      · intro other
        rw [List.mem_append, hmem other]
        rw [hfired, mem_fired_iff]
        simp only [List.mem_append, or_and_right, exists_or]

/-- What one evaluator is asked in a beat, and what comes of it. -/
structure Harvested (m : Machine) (gathered : Harvest) : Prop where
  peaks : ∀ answer ∈ m.evaluator.answered m.questions, ∃ peak, answer.2 = .ok peak
  operations : gathered.operations = addAllNew [] ((m.evaluator.answered m.questions).flatMap wantedBy)
  sublist : gathered.firing.Sublist (m.circuit.cells.map (·.id))
  firing : ∀ id, id ∈ gathered.firing ↔
    ∃ answer ∈ m.evaluator.answered m.questions, answer.1.id = id ∧ fires answer = true

variable {m : Machine} {gathered : Harvest}

/-- A beat that goes on has gathered its answers, and nothing has changed so far. -/
theorem harvestAll_of_ok {stats : EvalStats} {m' : Machine}
    (h : harvestAll m = .ok (gathered, stats) m') : m' = m ∧ m.Harvested gathered := by
  rw [harvestAll] at h
  cases hrun : harvest (m.circuit.cells.map (·.id)) ⟨[], []⟩ m.evaluator with
  | error fault e' =>
    rw [hrun] at h
    cases h
  | ok found e' =>
    rw [hrun] at h
    cases h
    obtain ⟨hpeaks, hoperations, firing, hfiring, hsublist, hmem⟩ := harvest_of_ok hrun
    obtain rfl : gathered.firing = firing := hfiring
    exact ⟨rfl, hpeaks, hoperations, hsublist, hmem⟩

/-- Where all answers are peaks they can be gathered. -/
theorem exists_harvestCell {id : CellId} {colours : List Colour} (fired : Bool) (operations : List Operation)
    {e : Evaluator}
    (hpeaks : ∀ answer ∈ e.answered (colours.map fun colour => ⟨id, colour, .now⟩), ∃ peak, answer.2 = .ok peak) :
    ∃ found, harvestCell id colours fired operations e =
      .ok found (e.asked (colours.map fun colour => ⟨id, colour, .now⟩)) := by
  induction colours generalizing e fired operations with
  | nil => exact ⟨_, rfl⟩
  | cons colour colours ih =>
    obtain ⟨peak, hreply⟩ := hpeaks _ List.mem_cons_self
    have hrest : ∀ answer ∈ (e.next ⟨id, colour, .now⟩).answered (colours.map fun colour => ⟨id, colour, .now⟩),
        ∃ peak, answer.2 = .ok peak :=
      fun answer hmem => hpeaks answer (List.mem_cons_of_mem _ hmem)
    rw [harvestCell, bind_of_ok (peak_of_ok hreply)]
    split
    · exact ih _ _ hrest
    · exact ih _ _ hrest

theorem exists_harvest {ids : List CellId} (gathered : Harvest) {e : Evaluator}
    (hpeaks : ∀ answer ∈ e.answered (questionsOf ids), ∃ peak, answer.2 = .ok peak) :
    ∃ found e', harvest ids gathered e = .ok found e' := by
  induction ids generalizing e gathered with
  | nil => exact ⟨gathered, e, rfl⟩
  | cons id ids ih =>
    rw [questionsOf, List.flatMap_cons, answered_append] at hpeaks
    obtain ⟨one, hone⟩ := exists_harvestCell false gathered.operations fun answer hmem =>
      hpeaks answer (List.mem_append_left _ hmem)
    rw [harvest, bind_of_ok hone]
    exact ih _ fun answer hmem => hpeaks answer (List.mem_append_right _ hmem)

/-! ## The peaks that are found -/

theorem mem_questions {m : Machine} {id : CellId} {cell : Cell} (h : m.Sound)
    (hcell : m.circuit.cell? id = some cell) (colour : Colour) : ⟨id, colour, .now⟩ ∈ m.questions := by
  have hid := id_of_cell? h.circuit.linked.keyed hcell
  have hmem : cell ∈ m.circuit.cells := (mem_cells_iff h.circuit.linked.keyed).mpr (hid.symm ▸ hcell)
  exact List.mem_flatMap.mpr ⟨id, List.mem_map.mpr ⟨cell, hmem, hid⟩,
    List.mem_map.mpr ⟨colour, Colour.mem_all colour, rfl⟩⟩

theorem nodup_questions (h : m.Sound) : m.questions.Nodup := by
  rw [questions, questionsOf, List.nodup_flatMap]
  constructor
  · intro id _
    exact List.Nodup.map (fun colour other hsame => (Query.mk.inj hsame).2.1) (by decide)
  · refine h.circuit.linked.keyed.nodup_cells.imp fun {id other} hne q hq hq' => hne ?_
    obtain ⟨_, -, rfl⟩ := List.mem_map.mp hq
    obtain ⟨_, -, hsame⟩ := List.mem_map.mp hq'
    exact (Query.mk.inj hsame).1.symm

/-- A beat that goes on has found one peak for each live cell and each colour. -/
theorem Harvested.existsUnique_finds (hharvest : m.Harvested gathered) (h : m.Sound) {id : CellId}
    {cell : Cell} (hcell : m.circuit.cell? id = some cell) (colour : Colour) :
    ∃! peak, m.Finds id colour peak := by
  have hasked := mem_questions h hcell colour
  rw [← map_fst_answered m.evaluator m.questions] at hasked
  obtain ⟨⟨q, answer⟩, hanswer, rfl⟩ := List.mem_map.mp hasked
  obtain ⟨peak, rfl⟩ := hharvest.peaks _ hanswer
  refine ⟨peak, hanswer, fun other hother => ?_⟩
  exact Except.ok.inj (unique_answered (nodup_questions h) hother hanswer)

/-- A beat asks about the present only. -/
theorem query_of_mem_answered {q : Query} {answer : Except Fault Peak}
    (hanswer : (q, answer) ∈ m.evaluator.answered m.questions) :
    q = ⟨q.id, q.colour, .now⟩ := by
  obtain ⟨id, -, hq⟩ := List.mem_flatMap.mp (exists_of_mem_answered hanswer).1
  obtain ⟨colour, -, rfl⟩ := List.mem_map.mp hq
  rfl

theorem Harvested.mem_firing_iff (hharvest : m.Harvested gathered) {id : CellId} :
    id ∈ gathered.firing ↔ ∃ colour peak, m.Finds id colour peak ∧ peak.isSuccess = true := by
  rw [hharvest.firing]
  constructor
  · rintro ⟨⟨q, answer⟩, hanswer, rfl, hfires⟩
    obtain ⟨peak, rfl, hsuccess⟩ := fires_iff.mp hfires
    rw [query_of_mem_answered hanswer] at hanswer
    exact ⟨q.colour, peak, hanswer, hsuccess⟩
  · rintro ⟨colour, peak, hfinds, hsuccess⟩
    exact ⟨_, hfinds, rfl, fires_iff.mpr ⟨peak, rfl, hsuccess⟩⟩

theorem Sound.tidy (h : m.Sound) : Tidy m.evaluator := by
  refine tidy_ofHistory (fun c hc => ?_) m.validate
  rw [List.append_nil] at hc
  rcases List.mem_cons.mp hc with rfl | hc
  · exact h.circuit.linked.keyed
  · exact (h.history c hc).linked.keyed

/-- A peak that is found is nothing, or looks like a peak of its cell. -/
theorem Finds.shaped {id : CellId} {colour : Colour} {peak : Peak} (hfinds : m.Finds id colour peak)
    (h : m.Sound) :
    peak = .nothing ∨ ∃ cell, m.circuit.cell? id = some cell ∧ cell.id = id ∧
      Peak.Shaped cell (cell.fire.get colour) peak := by
  obtain ⟨-, before, -, hreply⟩ := exists_of_mem_answered hfinds
  have htidy : Tidy (m.evaluator.asked before) :=
    asked_invariant (fun hwalk htidy => (hwalk.tidy htidy trivial).1) h.tidy before
  have hgrows : Grows m.evaluator (m.evaluator.asked (before ++ [⟨id, colour, .now⟩])) :=
    asked_invariant (fun hwalk hgrows => hgrows.trans hwalk.grows) (.refl _) _
  rw [asked, List.foldl_append] at hgrows
  rcases htidy.reply hreply with hnothing | ⟨frame, cell, hframe, hcell, hid, hshaped⟩
  · exact Or.inl hnothing
  · -- the present is the machine's circuit, whatever ticks were imagined
    have hpresent := hgrows.frame 0 _ m.toHistory.present_frame
    cases hpresent.symm.trans hframe
    exact Or.inr ⟨cell, cell_ok_iff.mp hcell, hid, hshaped⟩

theorem Finds.operation_cases {id : CellId} {colour : Colour} {peak : Peak}
    (hfinds : m.Finds id colour peak) (h : m.Sound) {operation : Operation}
    (hmem : operation ∈ peak.operations) :
    (∃ y, operation = .pong y) ∨ ((∃ cell, m.circuit.cell? id = some cell) ∧
      ((∃ kind, operation = .modify id (.ofKind kind)) ∨ operation = .tag id .justCreated)) := by
  rcases hfinds.shaped h with rfl | ⟨cell, hcell, hid, hshaped⟩
  · cases hmem
  · rcases hshaped.operation_cases hmem with hpong | hother
    · exact Or.inl hpong
    · rw [hid] at hother
      exact Or.inr ⟨⟨cell, hcell⟩, hother⟩

/-! ## The operations that are gathered -/

theorem mem_wantedBy {q : Query} {answer : Except Fault Peak} {operation : Operation} :
    operation ∈ wantedBy (q, answer) ↔
      ∃ peak, answer = .ok peak ∧ peak.isSuccess = true ∧ operation ∈ peak.operations := by
  rcases answer with fault | (operations | ⟨pulse, operations, halted⟩) <;>
    simp [wantedBy, Peak.isSuccess, Peak.operations]

theorem mem_wanted_iff {operation : Operation} :
    operation ∈ (m.evaluator.answered m.questions).flatMap wantedBy ↔
      ∃ id colour peak, m.Finds id colour peak ∧ peak.isSuccess = true ∧ operation ∈ peak.operations := by
  rw [List.mem_flatMap]
  constructor
  · rintro ⟨⟨q, answer⟩, hanswer, hwanted⟩
    obtain ⟨peak, rfl, hsuccess, hmem⟩ := mem_wantedBy.mp hwanted
    rw [query_of_mem_answered hanswer] at hanswer
    exact ⟨q.id, q.colour, peak, hanswer, hsuccess, hmem⟩
  · rintro ⟨id, colour, peak, hfinds, hsuccess, hmem⟩
    exact ⟨_, hfinds, mem_wantedBy.mpr ⟨peak, rfl, hsuccess, hmem⟩⟩

theorem exact_pong (id : CellId) : Exact (Operation.pong id) := by
  intro other
  cases other <;> simp [BEq.beq, instBEqOperation.beq]

theorem exact_tag (id : CellId) (key : CellTag) : Exact (Operation.tag id key) := by
  intro other
  cases other <;> simp [BEq.beq, instBEqOperation.beq]

theorem beq_cellPatch (a b : CellPatch) :
    (a == b) = (a.kind == b.kind && (a.position == b.position && a.parent == b.parent)) := by
  cases a
  cases b
  rfl

/-- A change of kind has no position, which alone could be no number and so differ from itself. -/
theorem exact_modify (id : CellId) (kind : CellKind) : Exact (Operation.modify id (.ofKind kind)) := by
  intro other
  rcases other with ⟨id', kind', position', parent'⟩ | _ | _ | _
  · have hbeq : (Operation.modify id (.ofKind kind) == .modify id' ⟨kind', position', parent'⟩) =
        (id == id' && CellPatch.ofKind kind == ⟨kind', position', parent'⟩) := rfl
    rw [hbeq, beq_cellPatch]
    cases position' <;> simp [CellPatch.ofKind, CellPatch.empty]
  all_goals simp [BEq.beq, instBEqOperation.beq]

theorem Sound.exact_wanted (h : m.Sound) :
    ∀ operation ∈ (m.evaluator.answered m.questions).flatMap wantedBy, Exact operation := by
  intro operation hmem
  obtain ⟨id, colour, peak, hfinds, -, hin⟩ := mem_wanted_iff.mp hmem
  rcases hfinds.operation_cases h hin with ⟨y, rfl⟩ | ⟨-, ⟨kind, rfl⟩ | rfl⟩
  · exact exact_pong y
  · exact exact_modify id kind
  · exact exact_tag id .justCreated

/-- Where only one value of a list adds anything, this is all. -/
theorem flatMap_of_single {α β : Type} {f : α → List β} {a : α} {xs : List α} (hmem : a ∈ xs) (hnodup : xs.Nodup)
    (hrest : ∀ b ∈ xs, b ≠ a → f b = []) : xs.flatMap f = f a := by
  obtain ⟨before, after, rfl⟩ := List.append_of_mem hmem
  rw [List.nodup_append, List.nodup_cons] at hnodup
  obtain ⟨-, ⟨hafter, -⟩, hbefore⟩ := hnodup
  have hfirst : before.flatMap f = [] := by
    rw [List.flatMap_eq_nil_iff]
    intro b hb
    exact hrest b (List.mem_append_left _ hb) (hbefore b hb a List.mem_cons_self)
  have hlast : after.flatMap f = [] := by
    rw [List.flatMap_eq_nil_iff]
    intro b hb
    apply hrest b (List.mem_append_right _ (List.mem_cons_of_mem _ hb))
    rintro rfl
    exact hafter hb
  rw [List.flatMap_append, List.flatMap_cons, hfirst, hlast, List.nil_append, List.append_nil]

namespace Harvested

/-- What is gathered is what the peaks that succeed want. -/
theorem mem_operations_iff (hharvest : m.Harvested gathered) (h : m.Sound) {operation : Operation} :
    operation ∈ gathered.operations ↔
      ∃ id colour peak, m.Finds id colour peak ∧ peak.isSuccess = true ∧ operation ∈ peak.operations := by
  rw [hharvest.operations, mem_addAllNew_of_exact h.exact_wanted, mem_wanted_iff]
  simp

theorem nodup_operations (hharvest : m.Harvested gathered) (h : m.Sound) : gathered.operations.Nodup := by
  rw [hharvest.operations]
  exact nodup_addAllNew_of_exact h.exact_wanted List.nodup_nil

theorem operation_cases (hharvest : m.Harvested gathered) (h : m.Sound) {operation : Operation}
    (hmem : operation ∈ gathered.operations) :
    (∃ y, operation = .pong y) ∨ ∃ id, (∃ cell, m.circuit.cell? id = some cell) ∧
      ((∃ kind, operation = .modify id (.ofKind kind)) ∨ operation = .tag id .justCreated) := by
  obtain ⟨id, colour, peak, hfinds, -, hin⟩ := (hharvest.mem_operations_iff h).mp hmem
  exact (hfinds.operation_cases h hin).imp_right fun hother => ⟨id, hother⟩

theorem suits (hharvest : m.Harvested gathered) (h : m.Sound) :
    ∀ operation ∈ gathered.operations, operation.Suits m.circuit := by
  intro operation hmem
  rcases hharvest.operation_cases h hmem with ⟨y, rfl⟩ | ⟨id, hlive, ⟨kind, rfl⟩ | rfl⟩
  · trivial
  · exact ⟨rfl, hlive⟩
  · exact hlive

/-- Where at most one peak wants anything, this is what is gathered. -/
theorem operations_of_finds (hharvest : m.Harvested gathered) (h : m.Sound) {id : CellId} {colour : Colour}
    {peak : Peak} (hfinds : m.Finds id colour peak) (hsuccess : peak.isSuccess = true)
    (hnodup : peak.operations.Nodup)
    (honly : ∀ id' colour' peak', m.Finds id' colour' peak' → ¬ (id' = id ∧ colour' = colour) →
      peak'.operations = []) :
    gathered.operations = peak.operations := by
  have hdistinct : (m.evaluator.answered m.questions).Nodup := by
    refine List.Nodup.of_map Prod.fst ?_
    rw [map_fst_answered]
    exact nodup_questions h
  have hthis : wantedBy (⟨id, colour, .now⟩, .ok peak) = peak.operations := by
    cases peak with
    | fail operations => cases hsuccess
    | success pulse operations halted => rfl
  have hwanted : (m.evaluator.answered m.questions).flatMap wantedBy = peak.operations := by
    rw [← hthis]
    apply flatMap_of_single hfinds hdistinct
    rintro ⟨⟨id', colour', timing⟩, answer⟩ hmem hne
    obtain ⟨other, rfl⟩ := hharvest.peaks _ hmem
    obtain rfl : timing = .now := (Query.mk.inj (query_of_mem_answered hmem)).2.2
    have hnothing : other.operations = [] := by
      apply honly _ _ _ hmem
      rintro ⟨rfl, rfl⟩
      obtain rfl : other = peak := Except.ok.inj (unique_answered (nodup_questions h) hmem hfinds)
      exact hne rfl
    cases other with
    | fail operations => rfl
    | success pulse operations halted => exact hnothing
  have hexact := h.exact_wanted
  rw [hwanted] at hexact
  rw [hharvest.operations, hwanted]
  exact addAllNew_eq_append_of_exact hexact hnodup

end Harvested

/-- A beat is run if all its answers are peaks. -/
theorem Sound.beat_of_peaks (h : m.Sound)
    (hpeaks : ∀ answer ∈ m.evaluator.answered m.questions, ∃ peak, answer.2 = .ok peak) :
    ∃ gathered stats projected, m.Harvested gathered ∧
      (m.changed gathered).project m.validate = .ok projected ∧
      Machine.beat m = .ok (m.report gathered stats) (m.movedOn gathered projected) := by
  obtain ⟨gathered, e', hgathered⟩ := exists_harvest ⟨[], []⟩ hpeaks
  have hrun : ∀ beats, harvestAll { m with beats := beats } =
      .ok (gathered, e'.stats) { m with beats := beats } := by
    intro beats
    have hasked : harvest (m.circuit.cells.map (·.id)) ⟨[], []⟩ ({ m with beats := beats } : Machine).evaluator =
        .ok gathered e' := hgathered
    rw [harvestAll, hasked]
  have hharvest : m.Harvested gathered := (harvestAll_of_ok (hrun m.beats)).2
  obtain ⟨projected, hproject, hbeat⟩ := h.beat_of_gathered (hrun _) (hharvest.suits h)
  exact ⟨gathered, _, projected, hharvest, hproject, hbeat⟩

end Machine

end PulseCircuit
