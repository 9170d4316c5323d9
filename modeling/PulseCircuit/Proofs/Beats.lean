import PulseCircuit.Machine
import PulseCircuit.Proofs.Faults
import PulseCircuit.Proofs.Forgotten
import PulseCircuit.Proofs.Shapes

/-!
# Machines that run on

A machine is reachable if it comes from a new one by any calls: edits of its circuit, beats, and what else
can be asked of it, failed calls included. Its circuit and all it remembers are sound (`Reachable.sound`), so
a query fails only where it comes upon a cell the present has lost (`Forgotten`). What the answers of a beat
want changed is about live cells and can be carried out (`Linked.applyAll_run`), and the circuit can always be
projected, so a beat fails only for that reason, too (`Reachable.runs_on`).

The reason is a real one (`stuck_at_orphan`): the nearest remembered circuit may have a wire from a cell that
was removed since.
-/

namespace PulseCircuit

open Circuit Evaluator Running

/-! ## Operations that can be carried out -/

/-- The operation changes kind, position or tags of a live cell, or nothing. -/
def Operation.Suits (c : Circuit) : Operation → Prop
  | .modify id fields => fields.parent = none ∧ ∃ cell, c.cell? id = some cell
  | .tag id _ => ∃ cell, c.cell? id = some cell
  | .pong _ => True
  | .modifyWire _ _ => False

theorem Operation.Suits.mono {c d : Circuit} {operation : Operation} (hsuits : operation.Suits c)
    (hlive : ∀ id, (∃ cell, c.cell? id = some cell) → ∃ cell, d.cell? id = some cell) :
    operation.Suits d := by
  cases operation with
  | modify id fields => exact ⟨hsuits.1, hlive id hsuits.2⟩
  | tag id key => exact hlive id hsuits
  | pong id => trivial
  | modifyWire id fields => exact hsuits

/-- The account once an operation is carried out. -/
def Applied.add (applied : Applied) : Operation → Applied
  | .pong id => { applied with pongs := applied.pongs ++ [id] }
  | operation => { applied with operations := applied.operations ++ [operation] }

namespace Circuit

variable {c : Circuit}

namespace Sound

theorem apply (h : c.Sound) (validate : Bool) (applied : Applied) (operation : Operation) :
    ((Circuit.apply validate applied operation).final c).Sound := by
  cases operation with
  | modify id fields => exact final_bind (h.modifyCell validate id fields) fun _ _ _ hd => hd
  | modifyWire id fields => exact final_bind (h.modifyWire validate id fields) fun _ _ _ hd => hd
  | tag id key => exact final_bind (h.tagCell validate id key) fun _ _ _ hd => hd
  | pong id => exact h

/-- Operations that are carried out up to the first that fails leave a sound circuit behind. -/
theorem applyAll (h : c.Sound) (validate : Bool) (operations : List Operation) :
    ((Circuit.applyAll validate operations).final c).Sound := by
  rw [Circuit.applyAll]
  generalize Applied.nothing = applied
  induction operations generalizing c applied with
  | nil => exact h
  | cons operation operations ih =>
    rw [List.foldlM_cons]
    exact final_bind (h.apply validate applied operation) fun applied' d _ hd => ih hd applied'

end Sound

/-- The circuit once a suitable operation is carried out. -/
def carriedOut (c : Circuit) : Operation → Circuit
  | .modify id fields => c.changeCell id (·.restyle fields)
  | .tag id key => c.changeCell id (·.tag key)
  | .modifyWire _ _ | .pong _ => c

theorem live_carriedOut {id : CellId} (hlive : ∃ cell, c.cell? id = some cell) (operation : Operation) :
    ∃ cell, (c.carriedOut operation).cell? id = some cell := by
  cases operation with
  | modify | tag => exact live_changeCell hlive _ _
  | modifyWire | pong => exact hlive

namespace Linked

theorem carriedOut (h : c.Linked) (operation : Operation) : (c.carriedOut operation).Linked := by
  cases operation with
  | modify id fields => exact h.changeCell id fun _ => ⟨rfl, rfl, rfl, rfl, rfl⟩
  | tag id key => exact h.changeCell id fun _ => ⟨rfl, rfl, rfl, rfl, rfl⟩
  | modifyWire | pong => exact h

/-- A suitable operation is carried out. -/
theorem apply_run (h : c.Linked) (validate : Bool) (applied : Applied) {operation : Operation}
    (hsuits : operation.Suits c) :
    Circuit.apply validate applied operation c =
      .ok (applied.add operation) (c.carriedOut operation) := by
  cases operation with
  | modify id fields =>
    obtain ⟨hparent, cell, hcell⟩ := hsuits
    have hsame : ∀ cell : Cell, Cell.SameLinks (cell.restyle fields) cell :=
      fun _ => ⟨rfl, rfl, rfl, rfl, rfl⟩
    have hrun : Circuit.modifyCell validate id fields c =
        .ok () (c.changeCell id (·.restyle fields)) := by
      rw [modifyCell, hparent]
      exact h.onCell_validated_run hcell hsame validate [id.toId]
    exact bind_of_ok hrun _
  | tag id key =>
    obtain ⟨cell, hcell⟩ := hsuits
    have hsame : ∀ cell : Cell, Cell.SameLinks (cell.tag key) cell :=
      fun _ => ⟨rfl, rfl, rfl, rfl, rfl⟩
    have hrun : Circuit.tagCell validate id key c = .ok () (c.changeCell id (·.tag key)) :=
      h.onCell_validated_run hcell hsame validate [id.toId]
    exact bind_of_ok hrun _
  | pong id => rfl
  | modifyWire id fields => exact hsuits.elim

/-- Suitable operations are all carried out, one after the other. -/
theorem applyAll_run (h : c.Linked) (validate : Bool) {operations : List Operation}
    (hsuits : ∀ operation ∈ operations, operation.Suits c) :
    Circuit.applyAll validate operations c =
      .ok (operations.foldl Applied.add .nothing) (operations.foldl Circuit.carriedOut c) := by
  rw [Circuit.applyAll]
  generalize Applied.nothing = applied
  induction operations generalizing c applied with
  | nil => rfl
  | cons operation operations ih =>
    -- no cell is gone, so what is left to do still suits
    have hrest : ∀ other ∈ operations, other.Suits (c.carriedOut operation) := fun other hmem =>
      Operation.Suits.mono (hsuits other (List.mem_cons_of_mem _ hmem)) fun _ hlive =>
        live_carriedOut hlive operation
    rw [List.foldlM_cons, bind_of_ok (h.apply_run validate applied (hsuits operation List.mem_cons_self))]
    exact ih (h.carriedOut operation) hrest (applied.add operation)

theorem foldl_carriedOut (h : c.Linked) (operations : List Operation) :
    (operations.foldl Circuit.carriedOut c).Linked := by
  induction operations generalizing c with
  | nil => exact h
  | cons operation operations ih => exact ih (h.carriedOut operation)

end Linked

end Circuit

/-! ## Asking about many cells -/

namespace Evaluator

theorem peak_of_ok {e : Evaluator} {q : Query} {peak : Peak} (h : e.reply q = .ok peak) :
    Evaluator.peak q.id q.colour q.timing e = .ok peak (e.next q) := by
  rw [reply, Evaluation.answer] at h
  rw [Evaluator.next, EStateM.final]
  cases hrun : Evaluator.peak q.id q.colour q.timing e <;> simp_all

theorem peak_of_error {e : Evaluator} {q : Query} {fault : Fault} (h : e.reply q = .error fault) :
    Evaluator.peak q.id q.colour q.timing e = .error fault (e.next q) := by
  rw [reply, Evaluation.answer] at h
  rw [Evaluator.next, EStateM.final]
  cases hrun : Evaluator.peak q.id q.colour q.timing e <;> simp_all

theorem Tidy.next {e : Evaluator} (h : Tidy e) (q : Query) : Tidy (e.next q) := by
  rcases e.reply_cases q with ⟨hsame, -⟩ | ⟨_, _, -, -, hwalk⟩
  · rw [hsame]
    exact h
  · exact (hwalk.tidy h trivial).1

/-- What comes of questions about live cells: a result of which `P` holds, or the absence of a forgotten
cell. -/
def Comes {α : Type} (h : History) (P : α → Evaluator → Prop) (program : Evaluation α)
    (e : Evaluator) : Prop :=
  (∃ a e', program e = .ok a e' ∧ P a e') ∨
    ∃ id e', h.Forgotten id ∧ program e = .error (.notFound id.toId) e'

variable {h : History} {e : Evaluator} {α β : Type}

theorem Comes.bind {P : α → Evaluator → Prop} {Q : β → Evaluator → Prop} {program : Evaluation α}
    {rest : α → Evaluation β} (hfirst : Comes h P program e)
    (hrest : ∀ a e', P a e' → Comes h Q (rest a) e') : Comes h Q (program >>= rest) e := by
  rcases hfirst with ⟨a, e', hrun, ha⟩ | ⟨id, e', hforgotten, hrun⟩
  · rcases hrest a e' ha with ⟨b, e'', hnext, hb⟩ | ⟨id, e'', hforgotten, hnext⟩
    · exact Or.inl ⟨b, e'', (bind_of_ok hrun _).trans hnext, hb⟩
    · exact Or.inr ⟨id, e'', hforgotten, (bind_of_ok hrun _).trans hnext⟩
  · exact Or.inr ⟨id, e', hforgotten, bind_of_error hrun _⟩

/-- An evaluator for a machine's circuit, whatever it was asked. -/
structure Willing (h : History) (e : Evaluator) : Prop where
  serves : Serves h e
  tidy : Tidy e

theorem Willing.peak (hwilling : Willing h e) {id : CellId} {cell : Cell}
    (hcell : h.present.cell? id = some cell) (colour : Colour) (timing : Timing) :
    Comes h (fun peak e' => Willing h e' ∧ ∀ operation ∈ peak.operations, operation.Suits h.present)
      (Evaluator.peak id colour timing) e := by
  rcases hwilling.serves.reply (q := ⟨id, colour, timing⟩) hcell with ⟨peak, hreply⟩ |
    ⟨x, hforgotten, hreply⟩
  · refine Or.inl ⟨peak, _, peak_of_ok hreply, ⟨hwilling.serves.next _, hwilling.tidy.next _⟩, ?_⟩
    intro operation hmem
    rcases (hwilling.tidy.reply hreply).operation_cases hmem with ⟨y, rfl⟩ | ⟨kind, rfl⟩ | rfl
    · trivial
    · exact ⟨rfl, cell, hcell⟩
    · exact ⟨cell, hcell⟩
  · exact Or.inr ⟨x, _, hforgotten, peak_of_error hreply⟩

theorem Willing.firesInSome (hwilling : Willing h e) {id : CellId} {cell : Cell}
    (hcell : h.present.cell? id = some cell) (colours : List Colour) :
    Comes h (fun _ _ => True) (Evaluator.firesInSome id colours) e := by
  induction colours generalizing e with
  | nil => exact Or.inl ⟨false, e, rfl, trivial⟩
  | cons colour colours ih =>
    refine (hwilling.peak hcell colour .now).bind fun peak e' hpeak => ?_
    split
    · exact Or.inl ⟨true, e', rfl, trivial⟩
    · exact ih hpeak.1

end Evaluator

namespace Machine

variable {h : History} {e : Evaluator}

theorem comes_harvestCell (hwilling : Willing h e) {id : CellId} {cell : Cell}
    (hcell : h.present.cell? id = some cell) (colours : List Colour) (fired : Bool)
    {operations : List Operation} (hsuits : ∀ operation ∈ operations, operation.Suits h.present) :
    Comes h (fun gathered e' => Willing h e' ∧
      ∀ operation ∈ gathered.2, operation.Suits h.present)
      (harvestCell id colours fired operations) e := by
  induction colours generalizing e fired operations with
  | nil => exact Or.inl ⟨_, e, rfl, hwilling, hsuits⟩
  | cons colour colours ih =>
    refine (hwilling.peak hcell colour .now).bind fun peak e' hpeak => ?_
    split
    · refine ih hpeak.1 true fun operation hmem => ?_
      rcases mem_or_mem_of_mem_addAllNew hmem with hold | hnew
      · exact hsuits operation hold
      · exact hpeak.2 operation hnew
    · exact ih hpeak.1 fired hsuits

theorem comes_harvest (hwilling : Willing h e) {ids : List CellId}
    (hids : ∀ id ∈ ids, ∃ cell, h.present.cell? id = some cell) (gathered : Harvest)
    (hsuits : ∀ operation ∈ gathered.operations, operation.Suits h.present) :
    Comes h (fun gathered _ => ∀ operation ∈ gathered.operations, operation.Suits h.present)
      (harvest ids gathered) e := by
  induction ids generalizing e gathered with
  | nil => exact Or.inl ⟨gathered, e, rfl, hsuits⟩
  | cons id ids ih =>
    obtain ⟨cell, hcell⟩ := hids id List.mem_cons_self
    refine (comes_harvestCell hwilling hcell Colour.all false hsuits).bind fun found e' hfound => ?_
    exact ih hfound.1 (fun id hid => hids id (List.mem_cons_of_mem _ hid)) _ hfound.2

/-! ## Reachable machines -/

/-- One call with its arguments. -/
inductive Call where
  /-- An edit of the machine's circuit, which need not be validated as the machine does. -/
  | edit (validate : Bool) (action : Action)
  | fire (id : CellId) (colour : Colour)
  | setHistoryLimit (limit : Nat)
  | enableLedger
  | beat

/-- The machine a call leaves behind, whether it succeeds or fails. -/
def Call.perform : Call → Machine → Machine
  | .edit validate action, m => { m with circuit := action.perform validate m.circuit }
  | .fire id colour, m => (Machine.fire id colour).final m
  | .setHistoryLimit limit, m => m.setHistoryLimit limit
  | .enableLedger, m => m.enableLedger
  | .beat, m => Machine.beat.final m

/-- The machines that come from a new one by calls. -/
inductive Reachable : Machine → Prop where
  | new (validate : Bool) : Reachable (.ofCircuit validate .initial)
  | call {m : Machine} (h : Reachable m) (call : Call) : Reachable (call.perform m)

def performAll (calls : List Call) (m : Machine) : Machine :=
  calls.foldl (fun m call => call.perform m) m

theorem Reachable.performAll {m : Machine} (h : m.Reachable) (calls : List Call) :
    (m.performAll calls).Reachable := by
  induction calls generalizing m with
  | nil => exact h
  | cons call calls ih => exact ih (h.call call)

/-- The circuit is sound, and so is all that is remembered. -/
structure Sound (m : Machine) : Prop where
  circuit : m.circuit.Sound
  history : ∀ c ∈ m.history, c.Sound

variable {m : Machine}

theorem final_editing {α : Type} (edit : Edit α) (m : Machine) :
    (editing edit).final m = { m with circuit := edit.final m.circuit } := by
  rw [EStateM.final, EStateM.final, editing]
  cases edit m.circuit <;> rfl

theorem editing_of_ok {α : Type} {edit : Edit α} {a : α} {c : Circuit}
    (hrun : edit m.circuit = .ok a c) : editing edit m = .ok a { m with circuit := c } := by
  rw [editing, hrun]

theorem moveOn_of_ok {d : Circuit} (hproject : m.circuit.project m.validate = .ok d) :
    moveOn m = .ok () { m with
      circuit := d, history := (m.circuit :: m.history).take m.historyLimit } := by
  rw [moveOn, hproject]

namespace Sound

theorem editing {α : Type} {edit : Edit α} (h : m.Sound) (hedit : (edit.final m.circuit).Sound) :
    ((Machine.editing edit).final m).Sound := by
  rw [final_editing]
  exact ⟨hedit, h.history⟩

theorem fire (h : m.Sound) (id : CellId) (colour : Colour) :
    ((Machine.fire id colour).final m).Sound := by
  have hedit : ((Machine.editing (Circuit.fireCell m.validate id colour)).final m).Sound :=
    h.editing (h.circuit.setPulse m.validate id colour (some .raw))
  exact final_bind hedit fun _ _ _ hd => ⟨hd.circuit, hd.history⟩

theorem moveOn (h : m.Sound) : (Machine.moveOn.final m).Sound := by
  obtain ⟨d, hd⟩ := h.circuit.linked.project_ok m.validate
  rw [final_of_ok (moveOn_of_ok hd)]
  refine ⟨h.circuit.of_project hd, fun c hc => ?_⟩
  rcases List.mem_cons.mp (List.mem_of_mem_take hc) with rfl | hc
  · exact h.circuit
  · exact h.history c hc

theorem beat (h : m.Sound) : (Machine.beat.final m).Sound := by
  have hharvest : ∀ {m : Machine}, m.Sound → (harvestAll.final m).Sound := by
    intro m hm
    rw [EStateM.final, harvestAll]
    cases harvest (m.circuit.cells.map (·.id)) ⟨[], []⟩ m.evaluator <;> exact hm
  rw [Machine.beat]
  refine final_bind (P := Machine.Sound) ?_ fun _ m₁ _ h₁ => ?_
  · exact ⟨h.circuit, h.history⟩
  refine final_bind (hharvest h₁) fun gathered m₂ _ h₂ => ?_
  refine final_bind (P := Machine.Sound) ?_ fun _ m₃ _ h₃ => ?_
  · exact h₂.editing h₂.circuit.withoutTags
  refine final_bind (P := Machine.Sound) ?_ fun m₄ m₅ _ h₅ => ?_
  · exact h₃
  refine final_bind (h₅.editing (h₅.circuit.applyAll _ _)) fun applied m₆ _ h₆ => ?_
  refine final_bind (P := Machine.Sound) ?_ fun _ m₇ _ h₇ => ?_
  · exact ⟨h₆.circuit, h₆.history⟩
  refine final_bind h₇.moveOn fun _ m₈ _ h₈ => ?_
  exact h₈

theorem perform (h : m.Sound) (call : Call) : (call.perform m).Sound := by
  cases call with
  | edit validate action => exact ⟨h.circuit.perform validate action, h.history⟩
  | fire id colour => exact h.fire id colour
  | setHistoryLimit limit => exact ⟨h.circuit, fun c hc => h.history c (List.mem_of_mem_take hc)⟩
  | enableLedger => exact ⟨h.circuit, h.history⟩
  | beat => exact h.beat

end Sound

theorem Reachable.sound (h : m.Reachable) : m.Sound := by
  induction h with
  | new validate => exact ⟨sound_initial, fun c hc => by cases hc⟩
  | call _ call ih => exact ih.perform call

/-! ## Running on -/

/-- The machine's circuit does not have the cell, but the nearest remembered circuit has a wire that starts
there and leads from the past into the present. -/
def Forgotten (m : Machine) (id : CellId) : Prop :=
  (∀ cell, m.circuit.cell id ≠ .ok cell) ∧
    ∃ snapshot w wire, m.history.head? = some snapshot ∧ snapshot.wire w = .ok wire ∧
      wire.source = id ∧ wire.timing = .past

/-- What the machine's evaluator is made for. -/
def toHistory (m : Machine) : History := ⟨m.validate, m.circuit, m.history, []⟩

theorem forgotten_of_toHistory {id : CellId} (hforgotten : m.toHistory.Forgotten id) :
    m.Forgotten id := by
  obtain ⟨habsent, side, snapshot, w, wire, hhead, hwire, hsource, htiming⟩ := hforgotten
  -- there is nothing recorded but the past
  cases side with
  | past => exact ⟨habsent, snapshot, w, wire, hhead, hwire, hsource, htiming⟩
  | now | future => cases hhead

theorem Sound.willing (h : m.Sound) (hplaced : ∀ c ∈ m.circuit :: m.history, c.Placed) :
    Willing m.toHistory m.evaluator := by
  have hgiven : ∀ c ∈ m.circuit :: (m.history ++ []), c.Sound ∧ c.Placed := by
    intro c hc
    rw [List.append_nil] at hc
    refine ⟨?_, hplaced c hc⟩
    rcases List.mem_cons.mp hc with rfl | hc
    · exact h.circuit
    · exact h.history c hc
  exact ⟨Serves.fresh (h := m.toHistory) hgiven,
    tidy_ofHistory (fun c hc => (hgiven c hc).1.linked.keyed) m.validate⟩

/-- An answer to a question is found, or it fails for a forgotten cell. -/
theorem answer_of_comes {α : Type} {P : α → Evaluator → Prop} {question : Evaluation α}
    (hcomes : Comes m.toHistory P question m.evaluator) :
    (∃ a, question.answer m.evaluator = .ok a) ∨
      ∃ x, m.Forgotten x ∧ question.answer m.evaluator = .error (.notFound x.toId) := by
  rcases hcomes with ⟨a, e', hrun, -⟩ | ⟨x, e', hforgotten, hrun⟩
  · exact Or.inl ⟨a, by rw [Evaluation.answer, hrun]⟩
  · exact Or.inr ⟨x, forgotten_of_toHistory hforgotten, by rw [Evaluation.answer, hrun]⟩

theorem Sound.harvestAll_cases (h : m.Sound) (hplaced : ∀ c ∈ m.circuit :: m.history, c.Placed) :
    (∃ gathered stats, harvestAll m = .ok (gathered, stats) m ∧
      ∀ operation ∈ gathered.operations, operation.Suits m.circuit) ∨
    ∃ x, m.Forgotten x ∧ harvestAll m = .error (.notFound x.toId) m := by
  have hids : ∀ id ∈ m.circuit.cells.map (·.id), ∃ cell, m.circuit.cell? id = some cell := by
    intro id hid
    obtain ⟨cell, hcell, rfl⟩ := List.mem_map.mp hid
    exact ⟨cell, (mem_cells_iff h.circuit.linked.keyed).mp hcell⟩
  have hcomes := comes_harvest (h.willing hplaced) hids ⟨[], []⟩ (by simp)
  rcases hcomes with ⟨gathered, e', hrun, hsuits⟩ | ⟨x, e', hforgotten, hrun⟩
  · exact Or.inl ⟨gathered, e'.stats, by rw [harvestAll, hrun], hsuits⟩
  · exact Or.inr ⟨x, forgotten_of_toHistory hforgotten, by rw [harvestAll, hrun]⟩

/-- What is carried out of what the answers want. -/
def Harvest.applied (gathered : Harvest) : Applied := gathered.operations.foldl Applied.add .nothing

/-- The machine's circuit once the operations of the answers are carried out. -/
def changed (m : Machine) (gathered : Harvest) : Circuit :=
  gathered.operations.foldl Circuit.carriedOut m.circuit.withoutTags

/-- What a beat reports. -/
def report (m : Machine) (gathered : Harvest) (stats : EvalStats) : BeatReport :=
  ⟨m.beats + 1, gathered.firing, gathered.applied.operations, gathered.applied.pongs, stats⟩

/-- The machine after a beat. -/
def movedOn (m : Machine) (gathered : Harvest) (projected : Circuit) : Machine :=
  { m with
    beats := m.beats + 1
    circuit := projected
    history := (m.changed gathered :: m.history).take m.historyLimit
    ledger := (m.ledger.recordAll (m.beats + 1) (gathered.applied.operations.map .applied)).recordAll
      (m.beats + 1) (gathered.applied.pongs.map .pong) }

/-- Operations about live cells suit the circuit when its tags are cleared. -/
theorem suits_withoutTags {operations : List Operation}
    (hsuits : ∀ operation ∈ operations, operation.Suits m.circuit) :
    ∀ operation ∈ operations, operation.Suits m.circuit.withoutTags := by
  intro operation hmem
  refine Operation.Suits.mono (hsuits operation hmem) ?_
  rintro id ⟨cell, hcell⟩
  have hmap : m.circuit.withoutTags = m.circuit.mapCells fun cell => { cell with tags := [] } := rfl
  exact ⟨_, by rw [hmap, cell?_mapCells, hcell]; rfl⟩

/-- A beat is run once the answers are gathered: what they want is carried out, and what comes of it is
projected. -/
theorem Sound.beat_of_gathered (h : m.Sound) {gathered : Harvest} {stats : EvalStats}
    (hrun : harvestAll { m with beats := m.beats + 1 } =
      .ok (gathered, stats) { m with beats := m.beats + 1 })
    (hsuits : ∀ operation ∈ gathered.operations, operation.Suits m.circuit) :
    ∃ projected, (m.changed gathered).project m.validate = .ok projected ∧
      Machine.beat m = .ok (m.report gathered stats) (m.movedOn gathered projected) := by
  have hcleared := h.circuit.withoutTags.linked
  have happlied := hcleared.applyAll_run m.validate (suits_withoutTags hsuits)
  obtain ⟨projected, hproject⟩ := (hcleared.foldl_carriedOut gathered.operations).project_ok m.validate
  have htagless : Machine.editing Circuit.clearTags { m with beats := m.beats + 1 } =
      .ok () { m with beats := m.beats + 1, circuit := m.circuit.withoutTags } := rfl
  have hchanged : Machine.editing (Circuit.applyAll m.validate gathered.operations)
      { m with beats := m.beats + 1, circuit := m.circuit.withoutTags } =
      .ok gathered.applied { m with beats := m.beats + 1, circuit := m.changed gathered } :=
    editing_of_ok happlied
  have hmoved : Machine.moveOn { m with
        beats := m.beats + 1
        circuit := m.changed gathered
        ledger := (m.movedOn gathered projected).ledger } =
      .ok () (m.movedOn gathered projected) := moveOn_of_ok hproject
  refine ⟨projected, hproject, ?_⟩
  rw [Machine.beat, bind_of_ok (modify_run _ _), bind_of_ok hrun]
  simp only
  rw [bind_of_ok htagless, bind_of_ok (get_run _), bind_of_ok hchanged, bind_of_ok (modify_run _ _)]
  exact bind_of_ok hmoved _

/-- Once the answers are gathered nothing can go wrong in a beat. -/
theorem Sound.beat_cases (h : m.Sound) (hplaced : ∀ c ∈ m.circuit :: m.history, c.Placed) :
    (∃ report m', Machine.beat m = .ok report m') ∨
    ∃ x m', m.Forgotten x ∧ Machine.beat m = .error (.notFound x.toId) m' := by
  have hcounted : Machine.Sound { m with beats := m.beats + 1 } := ⟨h.circuit, h.history⟩
  rcases hcounted.harvestAll_cases hplaced with ⟨gathered, stats, hrun, hsuits⟩ |
    ⟨x, hforgotten, hrun⟩
  · obtain ⟨_, -, hbeat⟩ := h.beat_of_gathered hrun hsuits
    exact Or.inl ⟨_, _, hbeat⟩
  · exact Or.inr ⟨x, _, hforgotten, (bind_of_ok (modify_run _ _) _).trans (bind_of_error hrun _)⟩

/-- A machine answers what it is asked about its live cells, and beats on, unless it comes upon a cell it has
forgotten. -/
structure RunsOn (m : Machine) : Prop where
  peak : ∀ id cell, m.circuit.cell? id = some cell → ∀ colour timing,
    (∃ peak, m.peak id colour timing = .ok peak) ∨
      ∃ x, m.Forgotten x ∧ m.peak id colour timing = .error (.notFound x.toId)
  isFiring : ∀ id cell, m.circuit.cell? id = some cell →
    (∃ fires, m.isFiring id = .ok fires) ∨
      ∃ x, m.Forgotten x ∧ m.isFiring id = .error (.notFound x.toId)
  beat : (∃ report m', Machine.beat m = .ok report m') ∨
    ∃ x m', m.Forgotten x ∧ Machine.beat m = .error (.notFound x.toId) m'

/-- Whatever was called before, a machine runs on if the positions of its cells are numbers. -/
theorem Reachable.runs_on (h : m.Reachable) (hplaced : ∀ c ∈ m.circuit :: m.history, c.Placed) :
    m.RunsOn where
  peak _ _ hcell colour timing :=
    answer_of_comes ((h.sound.willing hplaced).peak hcell colour timing)
  isFiring _ _ hcell := answer_of_comes ((h.sound.willing hplaced).firesInSome hcell Colour.all)
  beat := h.sound.beat_cases hplaced

/-- A relay between a cell that feeds it from the past and one that it feeds. After a beat the first one is
deleted. -/
def orphaned : Machine :=
  (ofCircuit true .initial).performAll
    [.edit true (.createCell .root .relay .origin), .edit true (.createCell .root .relay .origin),
      .edit true (.createCell .root .relay .origin), .edit true (.createWire ⟨2⟩ ⟨1⟩ .any .past),
      .edit true (.createWire ⟨1⟩ ⟨3⟩ .any .future), .beat, .edit true (.deleteCell ⟨2⟩)]

theorem reachable_orphaned : orphaned.Reachable := .performAll (.new true) _

theorem placed_orphaned : ∀ c ∈ orphaned.circuit :: orphaned.history, c.Placed := by decide +kernel

theorem runs_on_orphaned :
    orphaned.RunsOn ∧ (∃ peak, orphaned.peak ⟨3⟩ .red .future = .ok peak) ∧
      orphaned.peak ⟨1⟩ .red .past = .error (.notFound ⟨2⟩) :=
  ⟨reachable_orphaned.runs_on placed_orphaned, ⟨.nothing, by decide +kernel⟩, by decide +kernel⟩

/-- It does get stuck: what was deleted is still found in the remembered circuit. -/
theorem stuck_at_orphan :
    ¬ ∀ m : Machine, m.Reachable → (∀ c ∈ m.circuit :: m.history, c.Placed) →
      (∀ id cell, m.circuit.cell? id = some cell → ∀ colour timing,
        ∃ peak, m.peak id colour timing = .ok peak) ∧ ∃ report m', Machine.beat m = .ok report m' := by
  intro hall
  obtain ⟨-, report, m', hbeat⟩ := hall orphaned reachable_orphaned placed_orphaned
  have hstuck : (Machine.beat orphaned matches .error ..) = true := by decide +kernel
  rw [hbeat] at hstuck
  cases hstuck

end Machine

end PulseCircuit
