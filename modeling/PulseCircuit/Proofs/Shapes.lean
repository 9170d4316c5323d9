import PulseCircuit.Proofs.Settling

/-!
# How peaks look

A peak says little more than which pulse reaches a cell. Its operations are about that cell alone, except for
the pongs a ping has gathered on its way, and only a pulse that has come to rest has any others
(`Peak.Shaped`). The reason is that no pulse takes its landing along: what comes over a wire has no operations
but pongs (`Peak.Travels`), so the operations of a landing are those of its last fold (`Shaped.fold`).

A walk finds and remembers only peaks of this shape (`Walk.tidy`), read off the cell in the tick where they
were computed, and so does every evaluator, whatever it is asked (`peaks_shaped`).
-/

namespace PulseCircuit

/-! ## Shapes -/

/-- The peaks a cell can have if it holds the given pulse in the colour in question. -/
inductive Peak.Shaped (cell : Cell) (held : Option Pulse) : Peak → Prop where
  | nothing : Shaped cell held .nothing
  | stored {pulse : Pulse} (hheld : held = some pulse) :
    Shaped cell held (.success pulse [] false)
  | raw : Shaped cell held (.success .raw [] false)
  /-- The cell answers last. -/
  | ping {answers : List Operation} (hanswers : ∀ operation ∈ answers, ∃ id, operation = .pong id)
      (hkind : cell.kind ≠ .stopper) :
    Shaped cell held (.success .ping (answers ++ [.pong cell.id]) false)
  | creation {template : Option Template} (hkind : cell.kind ≠ .slot)
      (htag : cell.hasTag .justCreated = false)
      (htemplate : cell.kind.isCloneable = true → template = some ⟨cell.kind, cell.position⟩) :
    Shaped cell held (.success (.creation template) [] false)
  | destruction (hkind : cell.kind.isDestroyable = false) :
    Shaped cell held (.success .destruction [] false)
  /-- A creation pulse comes to rest and fills the slot. -/
  | filled {template : Template} (hkind : cell.kind = .slot)
      (htag : cell.hasTag .justCreated = false) :
    Shaped cell held (.success (.creation (some template))
      [.modify cell.id (.ofKind template.kind), .tag cell.id .justCreated] true)
  /-- A destruction pulse comes to rest and empties the cell. -/
  | emptied (hkind : cell.kind.isDestroyable = true) :
    Shaped cell held (.success .destruction [.modify cell.id (.ofKind .slot)] true)

/-- What the peak carries over a wire: nothing, or a pulse without operations but pongs. -/
def Peak.Travels : Peak → Prop
  | .fail _ | .success _ _ true => True
  | .success .ping operations false => ∀ operation ∈ operations, ∃ id, operation = .pong id
  | .success _ operations false => operations = []

namespace Peak.Shaped

variable {cell : Cell} {held : Option Pulse} {peak next : Peak}

theorem ofPulse? (cell : Cell) (held : Option Pulse) : Shaped cell held (.ofPulse? held []) := by
  cases held with
  | none => exact .nothing
  | some pulse => exact .stored rfl

theorem of_start (hstart : peak = .nothing ∨ peak = .raw) : Shaped cell held peak := by
  rcases hstart with rfl | rfl
  · exact .nothing
  · exact .raw

/-- Unless it is final nothing has been gathered, or a raw pulse. -/
theorem start_of_not_final (h : Shaped cell held peak) (hfinal : peak.isFinal = false) :
    peak = .nothing ∨ peak = .raw := by
  cases h with
  | nothing => exact Or.inl rfl
  | raw => exact Or.inr rfl
  | @stored pulse _ =>
    cases pulse with
    | raw => exact Or.inr rfl
    | creation | destruction | ping => cases hfinal
  | ping | creation | destruction | filled | emptied => cases hfinal

theorem start_ofPulse? (hfinal : (Peak.ofPulse? held []).isFinal = false) :
    Peak.ofPulse? held [] = .nothing ∨ Peak.ofPulse? held [] = .raw := by
  rcases held with _ | (_ | _ | _ | _)
  · exact Or.inl rfl
  · exact Or.inr rfl
  · cases hfinal
  · cases hfinal
  · cases hfinal

theorem travels (h : Shaped cell held peak) : peak.Travels := by
  cases h with
  | @stored pulse _ => cases pulse <;> first | rfl | simp [Travels]
  | ping hanswers _ =>
    intro operation hmem
    rcases List.mem_append.mp hmem with hbefore | hlast
    · exact hanswers operation hbefore
    · exact ⟨cell.id, List.mem_singleton.mp hlast⟩
  | nothing | raw | creation | destruction | filled | emptied => simp [Travels, Peak.nothing]

/-- Apart from pongs the operations change the kind of the cell and tag it. -/
theorem operation_cases (h : Shaped cell held peak) {operation : Operation}
    (hmem : operation ∈ peak.operations) :
    (∃ id, operation = .pong id) ∨ (∃ kind, operation = .modify cell.id (.ofKind kind)) ∨
      operation = .tag cell.id .justCreated := by
  cases h with
  | ping hanswers _ =>
    rcases List.mem_append.mp hmem with hbefore | hlast
    · exact Or.inl (hanswers operation hbefore)
    · exact Or.inl ⟨cell.id, List.mem_singleton.mp hlast⟩
  | filled _ _ =>
    simp only [operations, List.mem_cons, List.not_mem_nil, or_false] at hmem
    rcases hmem with rfl | rfl
    · exact Or.inr (Or.inl ⟨_, rfl⟩)
    · exact Or.inr (Or.inr rfl)
  | emptied _ =>
    rw [operations, List.mem_singleton] at hmem
    exact Or.inr (Or.inl ⟨_, hmem⟩)
  | nothing | stored | raw | creation | destruction => simp [operations, Peak.nothing] at hmem

/-! ## Folding -/

theorem operations_eq_nil (hstart : peak = .nothing ∨ peak = .raw) : peak.operations = [] := by
  rcases hstart with rfl | rfl <;> rfl

theorem not_claims (hstart : peak = .nothing ∨ peak = .raw) (id : CellId) :
    peak.claims id = false := by
  rcases hstart with rfl | rfl <;> rfl

theorem fold_creation (hstart : peak = .nothing ∨ peak = .raw) (template : Option Template) :
    Shaped cell held (Folding.creation peak template [] cell) := by
  have hgather : Folding.gather peak [] = [] := operations_eq_nil hstart
  rw [Folding.creation, not_claims hstart, Bool.or_false, hgather]
  split
  next => exact of_start hstart
  next htag =>
    rw [Bool.not_eq_true] at htag
    split
    next hkind => exact .filled hkind htag
    next hkind =>
      refine .creation hkind htag fun hclone => ?_
      rw [if_pos hclone, Cell.template]

theorem fold_destruction (hstart : peak = .nothing ∨ peak = .raw) :
    Shaped cell held (Folding.destruction peak [] cell) := by
  have hgather : Folding.gather peak [] = [] := operations_eq_nil hstart
  rw [Folding.destruction, not_claims hstart, hgather]
  simp only [Bool.false_eq_true, if_false]
  split
  next hkind => exact .emptied hkind
  next hkind => exact .destruction (Bool.not_eq_true _ ▸ hkind)

theorem fold_ping (hstart : peak = .nothing ∨ peak = .raw) {operations : List Operation}
    (hpongs : ∀ operation ∈ operations, ∃ id, operation = .pong id) :
    Shaped cell held (Folding.ping peak operations cell) := by
  rw [Folding.ping]
  split
  next => exact of_start hstart
  next hkind =>
    refine .ping (fun operation hmem => ?_) hkind
    rw [Folding.gather, operations_eq_nil hstart] at hmem
    rcases mem_or_mem_of_mem_addAllNew hmem with hnone | hnew
    · cases hnone
    · exact hpongs operation hnew

/-- Folding something that travels gives a peak of the target's. -/
theorem fold (hstart : peak = .nothing ∨ peak = .raw) (hnext : next.Travels) (hop : Hop) :
    Shaped hop.target held (peak.fold next hop) := by
  rcases next with operations | ⟨pulse, operations, halted⟩
  · exact of_start hstart
  cases halted with
  | true =>
    rw [Peak.fold_halted]
    exact of_start hstart
  | false =>
  cases pulse with
  | raw =>
    obtain rfl : operations = [] := hnext
    have hgather : Folding.gather peak [] = [] := operations_eq_nil hstart
    show Shaped hop.target held (Folding.raw peak [] hop)
    rw [Folding.raw]
    split
    · exact fold_creation hstart none
    · exact fold_destruction hstart
    · rw [hgather]
      exact .raw
  | creation template =>
    obtain rfl : operations = [] := hnext
    exact fold_creation hstart template
  | destruction =>
    obtain rfl : operations = [] := hnext
    exact fold_destruction hstart
  | ping => exact fold_ping hstart hnext

theorem start_of_fold (hstart : peak = .nothing ∨ peak = .raw) (hnext : next.Travels) {hop : Hop}
    (hfinal : (peak.fold next hop).isFinal = false) :
    peak.fold next hop = .nothing ∨ peak.fold next hop = .raw :=
  start_of_not_final (fold hstart hnext hop : Shaped hop.target none _) hfinal

end Peak.Shaped

namespace Evaluator

/-! ## Shapes in walks -/

/-- The peak is one of the cell's in the given tick, or nothing. -/
def PeakFits (e : Evaluator) (offset : Int) (id : CellId) (colour : Colour) (peak : Peak) : Prop :=
  peak = .nothing ∨ ∃ frame cell, e.timeline.frame? offset = some frame ∧
    frame.circuit.cell id = .ok cell ∧ cell.id = id ∧ Peak.Shaped cell (cell.fire.get colour) peak

/-- Rows lie under their own ids in all ticks, and what is remembered fits its tick. -/
structure Tidy (e : Evaluator) : Prop where
  keyed : e.Throughout Circuit.Keyed
  memo : ∀ key peak, e.memo.get? key = some (.done peak) →
    e.PeakFits key.offset key.cell key.colour peak

namespace PeakFits

variable {e e' : Evaluator} {offset : Int} {id : CellId} {colour : Colour} {peak : Peak}

theorem grows (h : e.PeakFits offset id colour peak) (hgrows : Grows e e') :
    e'.PeakFits offset id colour peak := by
  rcases h with hnothing | ⟨frame, cell, hframe, hcell, hid, hshaped⟩
  · exact Or.inl hnothing
  · exact Or.inr ⟨frame, cell, hgrows.frame _ _ hframe, hcell, hid, hshaped⟩

theorem travels (h : e.PeakFits offset id colour peak) : peak.Travels := by
  rcases h with rfl | ⟨_, _, -, -, -, hshaped⟩
  · trivial
  · exact hshaped.travels

theorem operation_cases (h : e.PeakFits offset id colour peak) {operation : Operation}
    (hmem : operation ∈ peak.operations) :
    (∃ y, operation = .pong y) ∨ (∃ kind, operation = .modify id (.ofKind kind)) ∨
      operation = .tag id .justCreated := by
  rcases h with rfl | ⟨_, cell, -, -, hid, hshaped⟩
  · cases hmem
  · rw [← hid]
    exact hshaped.operation_cases hmem

theorem target_eq (h : e.PeakFits offset id colour peak) {operation : Operation}
    (hmem : operation ∈ peak.operations) :
    (∃ y, operation = .pong y) ∨ operation.target = id.toId := by
  rcases h.operation_cases hmem with hpong | ⟨kind, rfl⟩ | rfl
  · exact Or.inl hpong
  · exact Or.inr rfl
  · exact Or.inr rfl

end PeakFits

/-- The peak a task finds fits the cell the task is about. -/
def Task.Fits (e : Evaluator) : Task → Peak → Prop
  | .ask offset id colour, peak => e.PeakFits offset id colour peak
  | .compute offset id colour, peak => e.PeakFits offset id colour peak
  | .fold _ _ target colour _ _, peak => Peak.Shaped target (target.fire.get colour) peak
  | .look offset id colour timing, peak => e.PeakFits (offset + timing.step) id colour peak

/-- What is left to be folded starts with nothing or a raw pulse. -/
def Task.Starts : Task → Prop
  | .fold _ _ _ _ _ peak => peak = .nothing ∨ peak = .raw
  | _ => True

namespace Tidy

variable {e : Evaluator}

theorem enter (h : Tidy e) (key : MemoKey) : Tidy (e.enter key) where
  keyed := h.keyed
  memo := by
    intro other peak hdone
    rw [get?_enter] at hdone
    split at hdone
    next => cases hdone
    next => exact h.memo other peak hdone

theorem leave (h : Tidy e) {key : MemoKey} {depth : Nat} {outer : Option Nat}
    {answer : Except Fault Peak}
    (hanswer : ∀ peak, answer = .ok peak → e.PeakFits key.offset key.cell key.colour peak) :
    Tidy (e.leave key depth outer answer.toOption) where
  keyed := h.keyed
  memo := by
    intro other peak hdone
    rw [get?_leave] at hdone
    split at hdone
    next heq =>
      subst heq
      rcases answer with fault | found
      · cases hdone
      · cases htaint : taint depth e.reentered with
        | none =>
          simp only [Except.toOption, htaint, Option.some.injEq, Memo.done.injEq] at hdone
          exact hanswer peak (by rw [hdone])
        | some depth' => simp [Except.toOption, htaint] at hdone
    next => exact h.memo other peak hdone

theorem imagining (h : Tidy e) {tick : Int} (hnew : e.timeline.frame? tick = none) {c : Circuit}
    (hc : c.Keyed) : Tidy (e.imagining tick c) where
  keyed := h.keyed.imagining hc tick
  memo key peak hdone := (h.memo key peak hdone).grows (grows_imagining e hnew c)

end Tidy

/-- A walk in a tidy evaluator leaves it tidy, and what it finds has a shape of its task's. -/
theorem Walk.tidy {fuel : Nat} {task : Task} {e e' : Evaluator} {answer : Except Fault Peak}
    (h : Walk fuel task e answer e') (htidy : Tidy e) (hstarts : task.Starts) :
    Tidy e' ∧ ∀ peak, answer = .ok peak → task.Fits e' peak := by
  induction h with
  | reuse hdone =>
    refine ⟨⟨htidy.keyed, htidy.memo⟩, ?_⟩
    rintro peak ⟨⟩
    exact htidy.memo _ _ hdone
  | descend _ _ ih =>
    obtain ⟨hbody, hfits⟩ := ih (htidy.enter _) trivial
    exact ⟨hbody.leave hfits, hfits⟩
  | stored hframe hcell _ =>
    refine ⟨⟨htidy.keyed, htidy.memo⟩, ?_⟩
    rintro peak ⟨⟩
    exact Or.inr ⟨_, _, hframe, hcell, Circuit.id_of_cell? (htidy.keyed _ _ hframe)
      (Circuit.cell_ok_iff.mp hcell), .ofPulse? _ _⟩
  | gather hframe hcell hfinal hfold ih =>
    obtain ⟨hrest, hshaped⟩ := ih ⟨htidy.keyed, htidy.memo⟩
      (Peak.Shaped.start_ofPulse? hfinal)
    refine ⟨hrest, fun peak hanswer => Or.inr ⟨_, _, hfold.grows.frame _ _ hframe, hcell, ?_,
      hshaped peak hanswer⟩⟩
    exact Circuit.id_of_cell? (htidy.keyed _ _ hframe) (Circuit.cell_ok_iff.mp hcell)
  | done =>
    refine ⟨htidy, ?_⟩
    rintro peak ⟨⟩
    exact .of_start hstarts
  | skip _ _ _ ih => exact ih htidy hstarts
  | broken _ _ _ _ ih => exact ⟨(ih htidy trivial).1, by simp⟩
  | settle _ _ _ _ _ ih =>
    obtain ⟨hlook, hfits⟩ := ih htidy trivial
    refine ⟨hlook, ?_⟩
    rintro peak ⟨⟩
    exact Peak.Shaped.fold hstarts (hfits _ rfl).travels ⟨_, _, _⟩
  | proceed _ _ _ _ hfinal _ ihlook ihrest =>
    -- the folded peak is not final, so the rest starts as the whole did
    obtain ⟨hlook, hfits⟩ := ihlook htidy trivial
    exact ihrest hlook (Peak.Shaped.start_of_fold hstarts (hfits _ rfl).travels hfinal)
  | stay _ ih =>
    obtain ⟨hask, hfits⟩ := ih htidy trivial
    refine ⟨hask, fun peak hanswer => ?_⟩
    rw [Task.Fits, Timing.step, Int.add_zero]
    exact hfits peak hanswer
  | known _ _ _ _ ih => exact ih htidy trivial
  | imagine _ _ hnew hcurrent hproject _ _ ih =>
    obtain ⟨kept, -, rfl⟩ := Circuit.project_ok hproject
    exact ih (htidy.imagining hnew ((htidy.keyed _ _ hcurrent).keepPulses kept)) trivial
  | again | frameless | absent | deadEnd | adrift | stale =>
    refine ⟨⟨htidy.keyed, htidy.memo⟩, ?_⟩
    rintro peak ⟨⟩
    exact Or.inl rfl
  | cut | lost | wireless | sourceless | unprojectable => exact ⟨htidy, by simp⟩

theorem tidy_ofHistory {present : Circuit} {past future : List Circuit}
    (hkeyed : ∀ c ∈ present :: (past ++ future), c.Keyed) (validate : Bool) :
    Tidy (ofHistory validate present past future) where
  keyed := throughout_ofHistory hkeyed validate
  memo := by
    intro key peak hdone
    cases hdone

theorem Tidy.reply {e : Evaluator} (h : Tidy e) {q : Query} {peak : Peak}
    (hreply : e.reply q = .ok peak) : (e.next q).PeakFits q.timing.step q.id q.colour peak := by
  have hfits := ((walk_of_reply hreply).tidy h trivial).2 peak rfl
  rw [Task.Fits, Int.zero_add] at hfits
  exact hfits

/-- The peaks an evaluator answers with, and those it remembers, fit the ticks they were computed in. Apart
from pongs their operations are about the cell that was asked for. -/
structure PeaksShaped (e : Evaluator) : Prop where
  answer : ∀ q peak, e.reply q = .ok peak → (e.next q).PeakFits q.timing.step q.id q.colour peak
  answer_target : ∀ q peak, e.reply q = .ok peak → ∀ operation ∈ peak.operations,
    (∃ y, operation = .pong y) ∨ operation.target = q.id.toId
  memo : ∀ key peak, e.memo.get? key = some (.done peak) →
    e.PeakFits key.offset key.cell key.colour peak
  memo_target : ∀ key peak, e.memo.get? key = some (.done peak) → ∀ operation ∈ peak.operations,
    (∃ y, operation = .pong y) ∨ operation.target = key.cell.toId

/-- Whatever an evaluator is asked, its peaks are shaped, so long as the rows of the circuits it was given lie
under their own ids. -/
theorem peaks_shaped {present : Circuit} {past future : List Circuit}
    (hkeyed : ∀ c ∈ present :: (past ++ future), c.Keyed) (validate : Bool) (queries : List Query) :
    PeaksShaped ((ofHistory validate present past future).asked queries) := by
  have htidy : Tidy ((ofHistory validate present past future).asked queries) :=
    asked_invariant (fun hwalk htidy => (hwalk.tidy htidy trivial).1)
      (tidy_ofHistory hkeyed validate) queries
  exact {
    answer := fun _ _ => htidy.reply
    answer_target := fun _ _ hreply _ => (htidy.reply hreply).target_eq
    memo := htidy.memo
    memo_target := fun key peak hdone _ => (htidy.memo key peak hdone).target_eq }

/-- A lit creation cell beside a slot, with a wire to it, and a ping in the root, which comes to the slot a
tick later. -/
def workshop : Circuit :=
  Circuit.initial.performAll true
    [.createCell .root .creation .origin, .createCell .root .slot .origin,
      .createCell .root .relay .origin, .fireCell ⟨1⟩ .red, .fire .root .red .ping,
      .createWire ⟨1⟩ ⟨2⟩ .any .now, .createWire .root ⟨3⟩ .any .future,
      .createWire ⟨3⟩ ⟨2⟩ .any .now]

theorem peaks_shaped_workshop :
    PeaksShaped ((ofHistory true workshop [workshop, .initial] []).asked
        [⟨⟨3⟩, .red, .past⟩, ⟨⟨2⟩, .red, .now⟩]) ∧
      ((ofHistory true workshop [workshop, .initial] []).asked [⟨⟨3⟩, .red, .past⟩]).reply
          ⟨⟨2⟩, .red, .now⟩ =
        .ok (.success (.creation (some ⟨.recording, .origin⟩))
          [.modify ⟨2⟩ (.ofKind .recording), .tag ⟨2⟩ .justCreated] true) := by
  have hworkshop : workshop.Keyed :=
    (Circuit.Reachable.performAll .initial true _).sound.linked.keyed
  have hinitial : Circuit.initial.Keyed := Circuit.Reachable.initial.sound.linked.keyed
  refine ⟨peaks_shaped (fun c hc => ?_) true _, rfl⟩
  rcases List.mem_cons.mp hc with rfl | hc
  · exact hworkshop
  · rcases List.mem_pair.mp hc with rfl | rfl
    · exact hworkshop
    · exact hinitial

end Evaluator

end PulseCircuit
