import PulseCircuit.Proofs.Loops

/-!
# Queries under way

A query is a walk, and a walk is made of tasks that begin one after the other and inside each other.
`Stage.Calls` is one step from a task to another one that is begun on its behalf, and `ComesTo` says which stages
a query comes to. While it is under way the keys that are pending carry the depths below the present one, each
of them once (`Stacked`).

However a query ends, with an answer or with a fault from any depth, nothing of that is left: an evaluator
between queries is idle (`History.idle_between_requests`). Circuits that were read from files and do not agree
with themselves make no difference to this.
-/

namespace PulseCircuit

namespace Evaluator

open Running

/-! ## Stages -/

/-- A task that begins, in which evaluator, and how deep it may go. -/
structure Stage where
  fuel : Nat
  task : Task
  evaluator : Evaluator

/-- One task begins another one. What is behind an input begins when the look over the wire has ended. -/
inductive Stage.Calls : Stage → Stage → Prop where
  | compute {fuel e offset id colour} (hnew : e.memo.get? ⟨offset, id, colour⟩ = none) :
      Calls ⟨fuel + 1, .ask offset id colour, e⟩
        ⟨fuel, .compute offset id colour, e.enter ⟨offset, id, colour⟩⟩
  | gather {fuel e offset id colour frame target}
      (hframe : e.timeline.frame? offset = some frame)
      (hcell : frame.circuit.cell id = .ok target)
      (hfinal : (Peak.ofPulse? (target.fire.get colour) []).isFinal = false) :
      Calls ⟨fuel, .compute offset id colour, e⟩
        ⟨fuel, .fold frame.circuit offset target colour target.inputs
          (.ofPulse? (target.fire.get colour) []), e.counting⟩
  | skip {fuel e c offset target colour input inputs peak wire} (hwire : c.wire input = .ok wire)
      (hadmits : wire.colour.admits colour = false) :
      Calls ⟨fuel, .fold c offset target colour (input :: inputs) peak, e⟩
        ⟨fuel, .fold c offset target colour inputs peak, e⟩
  | look {fuel e c offset target colour input inputs peak wire source} (hwire : c.wire input = .ok wire)
      (hadmits : wire.colour.admits colour = true) (hsource : c.cell wire.source = .ok source) :
      Calls ⟨fuel, .fold c offset target colour (input :: inputs) peak, e⟩
        ⟨fuel, .look offset source.id colour wire.timing.flip, e⟩
  | proceed {fuel e e' c offset target colour input inputs peak wire source next}
      (hwire : c.wire input = .ok wire) (hadmits : wire.colour.admits colour = true)
      (hsource : c.cell wire.source = .ok source)
      (hlook : Walk fuel (.look offset source.id colour wire.timing.flip) e (.ok next) e')
      (hfinal : (peak.fold next ⟨source, target, wire⟩).isFinal = false) :
      Calls ⟨fuel, .fold c offset target colour (input :: inputs) peak, e⟩
        ⟨fuel, .fold c offset target colour inputs (peak.fold next ⟨source, target, wire⟩), e'⟩
  | stay {fuel e offset id colour} :
      Calls ⟨fuel, .look offset id colour .now, e⟩ ⟨fuel, .ask offset id colour, e⟩
  | known {fuel e offset id colour timing frame} (htiming : timing ≠ .now)
      (hdead : offset + timing.step ∉ e.deadEnds)
      (hframe : e.timeline.frame? (offset + timing.step) = some frame) :
      Calls ⟨fuel, .look offset id colour timing, e⟩ ⟨fuel, .ask (offset + timing.step) id colour, e⟩
  | imagine {fuel e offset id colour timing current projected} (htiming : timing ≠ .now)
      (hdead : offset + timing.step ∉ e.deadEnds)
      (hnew : e.timeline.frame? (offset + timing.step) = none)
      (hcurrent : e.timeline.frame? offset = some current)
      (hproject : current.circuit.project e.validate = .ok projected)
      (hfresh : e.isStale offset timing.step current.circuit projected = false) :
      Calls ⟨fuel, .look offset id colour timing, e⟩
        ⟨fuel, .ask (offset + timing.step) id colour, e.imagining (offset + timing.step) projected⟩

/-- The first task of a query. -/
def opening (e : Evaluator) (q : Query) : Stage := ⟨e.depthBound, .look 0 q.id q.colour q.timing, e⟩

/-- The query is about a live cell, and comes to the stage. -/
structure ComesTo (e : Evaluator) (q : Query) (s : Stage) : Prop where
  live : ∃ present cell, e.timeline.frame? 0 = some present ∧ present.circuit.cell q.id = .ok cell
  calls : Relation.ReflTransGen Stage.Calls (e.opening q) s

/-- The evaluator is the one in which some task of the query begins or ends. -/
inductive Sees (e : Evaluator) (q : Query) : Evaluator → Prop where
  | start {s} (hcomes : e.ComesTo q s) : Sees e q s.evaluator
  | stop {s answer d} (hcomes : e.ComesTo q s) (hwalk : Walk s.fuel s.task s.evaluator answer d) : Sees e q d

/-! ## Pending keys -/

/-- Nothing is going on, and nothing is left of what went on before. -/
structure Idle (e : Evaluator) : Prop where
  depth : e.depth = 0
  reentered : e.reentered = none
  pending : ∀ key, e.pendingDepth? key = none

/-- The keys that are pending carry the depths below the present one, each of them once. -/
structure Stacked (e : Evaluator) : Prop where
  layered : Layered e
  once : ∀ depth < e.depth, ∃! key, e.pendingDepth? key = some depth

theorem Idle.stacked {e : Evaluator} (h : e.Idle) : e.Stacked where
  layered key depth hpending := by
    rw [h.pending] at hpending
    cases hpending
  once depth hlt := by
    rw [h.depth] at hlt
    exact absurd hlt (Nat.not_lt_zero depth)

namespace Stacked

variable {e e' : Evaluator}

theorem enter (h : e.Stacked) {key : MemoKey} (hnew : e.memo.get? key = none) : (e.enter key).Stacked where
  layered := h.layered.enter key
  once depth hlt := by
    have hnot := pendingDepth?_of_new hnew
    simp only [pendingDepth?_enter]
    rcases Nat.lt_succ_iff_lt_or_eq.mp hlt with hless | rfl
    · obtain ⟨other, hother, hunique⟩ := h.once depth hless
      have hne : other ≠ key := by
        rintro rfl
        rw [hnot] at hother
        cases hother
      refine ⟨other, (if_neg hne).trans hother, fun another hanother => ?_⟩
      dsimp only at hanother
      split at hanother
      · cases hanother
        exact absurd hless (Nat.lt_irrefl _)
      · exact hunique another hanother
    · -- the new key is the only one this deep
      refine ⟨key, if_pos rfl, fun another hanother => ?_⟩
      dsimp only at hanother
      split at hanother
      next hsame => exact hsame
      next => exact absurd (h.layered another _ hanother) (Nat.lt_irrefl _)

/-- What is pending under the same depths is stacked in the same way. -/
theorem restored (h : e.Stacked) (hrestored : Restored e e') : e'.Stacked where
  layered := hrestored.layered h.layered
  once depth hlt := by
    rw [hrestored.depth] at hlt
    simpa only [hrestored.pending] using h.once depth hlt

end Stacked

/-- A task begins another one with its keys stacked. -/
theorem Stage.Calls.stacked {s t : Stage} (h : s.Calls t) (hstacked : s.evaluator.Stacked) :
    t.evaluator.Stacked := by
  cases h with
  | compute hnew => exact hstacked.enter hnew
  | proceed _ _ _ hlook _ => exact hstacked.restored hlook.restored
  | gather | imagine => exact ⟨hstacked.layered, hstacked.once⟩
  | skip | look | stay | known => exact hstacked

/-! ## Marks -/

theorem mem_outermost {a b : Option Nat} {low : Nat} (h : low ∈ outermost a b) : low ∈ a ∨ low ∈ b := by
  cases a with
  | none => exact Or.inr (by simpa [outermost] using h)
  | some a =>
    cases b with
    | none => exact Or.inl (by simpa [outermost] using h)
    | some b =>
      have hmin : min a b = low := by simpa [outermost] using h
      rcases Nat.le_total a b with hle | hle
      · exact Or.inl (by rw [← hmin, Nat.min_eq_left hle]; rfl)
      · exact Or.inr (by rw [← hmin, Nat.min_eq_right hle]; rfl)

/-- The mark of a key that was asked for again names a depth at which a key is pending. -/
def Marked (e : Evaluator) : Prop := ∀ low ∈ e.reentered, low < e.depth

/-- Walks mark only depths at which a key is pending. -/
theorem Walk.marked {fuel : Nat} {task : Task} {e e' : Evaluator} {answer : Except Fault Peak}
    (h : Walk fuel task e answer e') (hlayered : Layered e) (hmarked : e.Marked) : e'.Marked := by
  induction h with
  | again hpending =>
    intro low hlow
    rcases mem_outermost hlow with hold | hnew
    · exact hmarked low hold
    · cases hnew
      exact hlayered _ _ (by rw [pendingDepth?, hpending])
  | descend hfresh hbody =>
    intro low hlow
    rw [(hbody.restored.leave hfresh _ _ _).depth]
    rcases mem_outermost hlow with hold | hnew
    · exact hmarked low hold
    · -- only marks from further out are passed on
      exact of_decide_eq_true (Option.filter_eq_some_iff.mp hnew).2
  | gather _ _ _ _ ih => exact ih hlayered hmarked
  | skip _ _ _ ih => exact ih hlayered hmarked
  | broken _ _ _ _ ih => exact ih hlayered hmarked
  | settle _ _ _ _ _ ih => exact ih hlayered hmarked
  | proceed _ _ _ hlook _ _ ihlook ihrest =>
    exact ihrest (hlook.restored.layered hlayered) (ihlook hlayered hmarked)
  | stay _ ih => exact ih hlayered hmarked
  | known _ _ _ _ ih => exact ih hlayered hmarked
  | imagine _ _ _ _ _ _ _ ih => exact ih hlayered hmarked
  | cut | reuse | frameless | absent | lost | stored | done | wireless | sourceless | deadEnd | adrift
  | unprojectable | stale => exact hmarked

/-- However a walk ends that began in an idle evaluator, it leaves an idle one. -/
theorem Walk.idle {fuel : Nat} {task : Task} {e e' : Evaluator} {answer : Except Fault Peak}
    (h : Walk fuel task e answer e') (hidle : e.Idle) : e'.Idle := by
  have hdepth : e'.depth = 0 := h.restored.depth.trans hidle.depth
  have hmarked : e'.Marked := h.marked hidle.stacked.layered fun low hlow => by
    rw [hidle.reentered] at hlow
    cases hlow
  refine ⟨hdepth, Option.eq_none_iff_forall_not_mem.mpr fun low hlow => ?_, fun key => ?_⟩
  · exact absurd (hmarked low hlow) (by rw [hdepth]; exact Nat.not_lt_zero low)
  · rw [h.restored.pending, hidle.pending]

theorem idle_ofHistory (validate : Bool) (present : Circuit) (past future : List Circuit) :
    (ofHistory validate present past future).Idle := ⟨rfl, rfl, fun _ => rfl⟩

theorem idle_asked {e : Evaluator} (h : e.Idle) (queries : List Query) : (e.asked queries).Idle :=
  asked_invariant (fun hwalk hidle => hwalk.idle hidle) h queries

theorem ComesTo.stacked {e : Evaluator} {q : Query} {s : Stage} (h : e.ComesTo q s) (hstacked : e.Stacked) :
    s.evaluator.Stacked := by
  obtain ⟨-, hcalls⟩ := h
  induction hcalls with
  | refl => exact hstacked
  | tail _ hcall ih => exact hcall.stacked ih

theorem Sees.stacked {e d : Evaluator} {q : Query} (h : e.Sees q d) (hstacked : e.Stacked) : d.Stacked := by
  cases h with
  | start hcomes => exact hcomes.stacked hstacked
  | stop hcomes hwalk => exact (hcomes.stacked hstacked).restored hwalk.restored

/-! ## Requests -/

/-- What an evaluator can be asked. -/
inductive Request where
  | peak (q : Query)
  /-- Whether a cell fires in some colour. -/
  | firing (id : CellId)
deriving DecidableEq, Repr

/-- The evaluator after a request, answered or failed. -/
def serve (e : Evaluator) : Request → Evaluator
  | .peak q => e.next q
  | .firing id => (isFiring id).final e

/-- The evaluator after some requests, one after the other. -/
def served (e : Evaluator) (requests : List Request) : Evaluator := requests.foldl serve e

/-- Asking for some colours comes to as many queries. -/
theorem final_firesInSome (id : CellId) (colours : List Colour) (e : Evaluator) :
    ∃ queries, (firesInSome id colours).final e = e.asked queries := by
  induction colours generalizing e with
  | nil => exact ⟨[], rfl⟩
  | cons colour colours ih =>
    cases hrun : peak id colour .now e with
    | error fault e' =>
      have hnext : e.next ⟨id, colour, .now⟩ = e' := final_of_error hrun
      refine ⟨[⟨id, colour, .now⟩], ?_⟩
      rw [firesInSome, final_bind_of_error hrun, asked, List.foldl_cons, List.foldl_nil, hnext]
    | ok found e' =>
      have hnext : e.next ⟨id, colour, .now⟩ = e' := final_of_ok hrun
      rw [firesInSome, final_bind_of_ok hrun]
      cases hsuccess : found.isSuccess with
      | true =>
        refine ⟨[⟨id, colour, .now⟩], ?_⟩
        rw [asked, List.foldl_cons, List.foldl_nil, hnext]
        rfl
      | false =>
        obtain ⟨queries, hqueries⟩ := ih e'
        refine ⟨⟨id, colour, .now⟩ :: queries, ?_⟩
        rw [asked, List.foldl_cons, hnext]
        exact hqueries

/-- Requests come to queries. -/
theorem exists_asked_of_served (e : Evaluator) (requests : List Request) :
    ∃ queries, e.served requests = e.asked queries := by
  induction requests generalizing e with
  | nil => exact ⟨[], rfl⟩
  | cons request requests ih =>
    obtain ⟨queries, hqueries⟩ := ih (e.serve request)
    have hfirst : ∃ first, e.serve request = e.asked first := by
      cases request with
      | peak q => exact ⟨[q], rfl⟩
      | firing id => exact final_firesInSome id Colour.all e
    obtain ⟨first, hfirst⟩ := hfirst
    refine ⟨first ++ queries, ?_⟩
    have happend : e.asked (first ++ queries) = (e.asked first).asked queries := List.foldl_append
    rw [happend, ← hfirst]
    exact hqueries

end Evaluator

open Evaluator

/-- After any requests, answered or failed, an evaluator is idle, whatever its circuits hold. While the next query
is under way the pending keys carry the depths below the present one, each of them once. -/
theorem History.idle_between_requests (h : History) (requests : List Request) :
    (h.fresh.served requests).Idle ∧
      ∀ q d, (h.fresh.served requests).Sees q d → d.Stacked := by
  obtain ⟨queries, hqueries⟩ := exists_asked_of_served h.fresh requests
  have hidle : (h.fresh.served requests).Idle := by
    rw [hqueries]
    exact idle_asked (idle_ofHistory ..) queries
  exact ⟨hidle, fun q d hsees => hsees.stacked hidle.stacked⟩

/-- Cell 2 feeds cell 1, and lists an input that is not there. -/
def torn : Circuit where
  live := .ofList
    [(⟨1⟩, .cell { Cell.fresh ⟨1⟩ (some .root) .relay .origin with inputs := [⟨-1⟩] }),
      (⟨2⟩, .cell { Cell.fresh ⟨2⟩ (some .root) .relay .origin with inputs := [⟨-2⟩], outputs := [⟨-1⟩] }),
      (⟨-1⟩, .wire ⟨⟨-1⟩, ⟨2⟩, ⟨1⟩, .any, .now⟩)]
  archive := .empty
  ids := ⟨3, -2, [], [], []⟩

/-- A walk comes to cell 2, two keys deep, and fails there. -/
theorem idle_between_requests_torn :
    (History.mk false torn [torn] []).fresh.reply ⟨⟨1⟩, .red, .now⟩ = .error (.notFound (⟨-2⟩ : WireId)) ∧
    ((History.mk false torn [torn] []).fresh.served [.peak ⟨⟨1⟩, .red, .now⟩, .firing ⟨1⟩]).Idle ∧
    ∃ d, ((History.mk false torn [torn] []).fresh.served [.peak ⟨⟨1⟩, .red, .now⟩, .firing ⟨1⟩]).Sees
        ⟨⟨1⟩, .blue, .past⟩ d ∧ d.depth = 2 ∧ d.Stacked := by
  obtain ⟨hidle, hstacked⟩ := (History.mk false torn [torn] []).idle_between_requests
    [.peak ⟨⟨1⟩, .red, .now⟩, .firing ⟨1⟩]
  generalize hserved : (History.mk false torn [torn] []).fresh.served
    [.peak ⟨⟨1⟩, .red, .now⟩, .firing ⟨1⟩] = e at hidle hstacked ⊢
  have hcalls : Relation.ReflTransGen Stage.Calls (e.opening ⟨⟨1⟩, .blue, .past⟩)
      ⟨e.depthBound - 2, .compute (-1) ⟨2⟩ .blue,
        ((e.enter ⟨-1, ⟨1⟩, .blue⟩).counting).enter ⟨-1, ⟨2⟩, .blue⟩⟩ := by
    subst hserved
    refine .head (.known (by decide) (by decide) rfl) (.head (.compute rfl) (.head (.gather rfl rfl rfl)
      (.head (.look rfl rfl rfl) (.head .stay (.single (.compute rfl))))))
  have hsees := Sees.start ⟨⟨⟨.given, torn⟩, _, by subst hserved; rfl, by rfl⟩, hcalls⟩
  exact ⟨rfl, hidle, _, hsees, congrArg (· + 2) hidle.depth, hstacked _ _ hsees⟩

end PulseCircuit
