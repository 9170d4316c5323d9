import Mathlib.Data.List.Induction
import PulseCircuit.Proofs.Pending

/-!
# Journals

A journal of a walk lists the keys under which the walk computed a peak, one entry for each computation. Every walk
has one, and the evaluator's count of computed peaks is the number of its entries (`Journal.computed`).

* `Walk.kept`: what is pending or remembered before a walk is so after it;
* `Journal.new`: so nothing is computed that was remembered before;
* `Journals`: the keys that were computed for some queries, one after the other.
-/

namespace PulseCircuit

namespace Evaluator

/-! ## What is kept -/

/-- Memos that are there before a walk are there after it. -/
theorem Walk.kept {fuel : Nat} {task : Task} {e e' : Evaluator} {answer : Except Fault Peak}
    (h : Walk fuel task e answer e') {key : MemoKey} {memo : Memo} (hmemo : e.memo.get? key = some memo) :
    e'.memo.get? key = some memo := by
  induction h with
  | @descend _ e _ offset id colour _ hnew _ ih =>
    have hother : key ≠ ⟨offset, id, colour⟩ := by
      rintro rfl
      rw [hnew] at hmemo
      cases hmemo
    rw [get?_leave, if_neg hother]
    refine ih ?_
    rw [get?_enter, if_neg hother, hmemo]
  | gather _ _ _ _ ih => exact ih hmemo
  | skip _ _ _ ih => exact ih hmemo
  | broken _ _ _ _ ih => exact ih hmemo
  | settle _ _ _ _ _ ih => exact ih hmemo
  | proceed _ _ _ _ _ _ ihlook ihrest => exact ihrest (ihlook hmemo)
  | stay _ ih => exact ih hmemo
  | known _ _ _ _ ih => exact ih hmemo
  | imagine _ _ _ _ _ _ _ ih => exact ih hmemo
  | cut | reuse | again | frameless | absent | lost | stored | done | wireless | sourceless | deadEnd
  | adrift | unprojectable | stale => exact hmemo

/-! ## The journal of a walk -/

/-- A walk with the keys of the cells whose peaks it computed, in the order in which it began with them. -/
inductive Journal : Nat → Task → Evaluator → List MemoKey → Except Fault Peak → Evaluator → Prop where
  /-- Nothing was computed. -/
  | idle {fuel task e e' answer} (hwalk : Walk fuel task e answer e')
      (hcomputed : e'.stats.computed = e.stats.computed) : Journal fuel task e [] answer e'
  | descend {fuel e e' offset id colour keys answer}
      (hnew : e.memo.get? ⟨offset, id, colour⟩ = none)
      (hbody : Journal fuel (.compute offset id colour) (e.enter ⟨offset, id, colour⟩) keys answer e') :
      Journal (fuel + 1) (.ask offset id colour) e keys answer
        (e'.leave ⟨offset, id, colour⟩ e.depth e.reentered answer.toOption)
  | stored {fuel e offset id colour frame target}
      (hframe : e.timeline.frame? offset = some frame)
      (hcell : frame.circuit.cell id = .ok target)
      (hfinal : (Peak.ofPulse? (target.fire.get colour) []).isFinal = true) :
      Journal fuel (.compute offset id colour) e [⟨offset, id, colour⟩]
        (.ok (.ofPulse? (target.fire.get colour) [])) e.counting
  | gather {fuel e e' offset id colour frame target keys answer}
      (hframe : e.timeline.frame? offset = some frame)
      (hcell : frame.circuit.cell id = .ok target)
      (hfinal : (Peak.ofPulse? (target.fire.get colour) []).isFinal = false)
      (hfold : Journal fuel (.fold frame.circuit offset target colour target.inputs
        (.ofPulse? (target.fire.get colour) [])) e.counting keys answer e') :
      Journal fuel (.compute offset id colour) e (⟨offset, id, colour⟩ :: keys) answer e'
  | skip {fuel e e' c offset target colour input inputs peak wire keys answer}
      (hwire : c.wire input = .ok wire) (hadmits : wire.colour.admits colour = false)
      (hrest : Journal fuel (.fold c offset target colour inputs peak) e keys answer e') :
      Journal fuel (.fold c offset target colour (input :: inputs) peak) e keys answer e'
  | broken {fuel e e' c offset target colour input inputs peak wire source keys fault}
      (hwire : c.wire input = .ok wire) (hadmits : wire.colour.admits colour = true)
      (hsource : c.cell wire.source = .ok source)
      (hlook : Journal fuel (.look offset source.id colour wire.timing.flip) e keys (.error fault) e') :
      Journal fuel (.fold c offset target colour (input :: inputs) peak) e keys (.error fault) e'
  | settle {fuel e e' c offset target colour input inputs peak wire source next keys}
      (hwire : c.wire input = .ok wire) (hadmits : wire.colour.admits colour = true)
      (hsource : c.cell wire.source = .ok source)
      (hlook : Journal fuel (.look offset source.id colour wire.timing.flip) e keys (.ok next) e')
      (hfinal : (peak.fold next ⟨source, target, wire⟩).isFinal = true) :
      Journal fuel (.fold c offset target colour (input :: inputs) peak) e keys
        (.ok (peak.fold next ⟨source, target, wire⟩)) e'
  | proceed {fuel e e' e'' c offset target colour input inputs peak wire source next keys others answer}
      (hwire : c.wire input = .ok wire) (hadmits : wire.colour.admits colour = true)
      (hsource : c.cell wire.source = .ok source)
      (hlook : Journal fuel (.look offset source.id colour wire.timing.flip) e keys (.ok next) e')
      (hfinal : (peak.fold next ⟨source, target, wire⟩).isFinal = false)
      (hrest : Journal fuel (.fold c offset target colour inputs
        (peak.fold next ⟨source, target, wire⟩)) e' others answer e'') :
      Journal fuel (.fold c offset target colour (input :: inputs) peak) e (keys ++ others) answer e''
  | stay {fuel e e' offset id colour keys answer}
      (hask : Journal fuel (.ask offset id colour) e keys answer e') :
      Journal fuel (.look offset id colour .now) e keys answer e'
  | known {fuel e e' offset id colour timing frame keys answer} (htiming : timing ≠ .now)
      (hdead : offset + timing.step ∉ e.deadEnds)
      (hframe : e.timeline.frame? (offset + timing.step) = some frame)
      (hask : Journal fuel (.ask (offset + timing.step) id colour) e keys answer e') :
      Journal fuel (.look offset id colour timing) e keys answer e'
  | imagine {fuel e e' offset id colour timing current projected keys answer} (htiming : timing ≠ .now)
      (hdead : offset + timing.step ∉ e.deadEnds)
      (hnew : e.timeline.frame? (offset + timing.step) = none)
      (hcurrent : e.timeline.frame? offset = some current)
      (hproject : current.circuit.project e.validate = .ok projected)
      (hfresh : e.isStale offset timing.step current.circuit projected = false)
      (hask : Journal fuel (.ask (offset + timing.step) id colour)
        (e.imagining (offset + timing.step) projected) keys answer e') :
      Journal fuel (.look offset id colour timing) e keys answer e'

/-- What has a journal is a walk. -/
theorem Journal.walk {fuel : Nat} {task : Task} {e e' : Evaluator} {keys : List MemoKey}
    {answer : Except Fault Peak} (h : Journal fuel task e keys answer e') : Walk fuel task e answer e' := by
  induction h with
  | idle hwalk => exact hwalk
  | descend hnew _ ih => exact .descend hnew ih
  | stored hframe hcell hfinal => exact .stored hframe hcell hfinal
  | gather hframe hcell hfinal _ ih => exact .gather hframe hcell hfinal ih
  | skip hwire hadmits _ ih => exact .skip hwire hadmits ih
  | broken hwire hadmits hsource _ ih => exact .broken hwire hadmits hsource ih
  | settle hwire hadmits hsource _ hfinal ih => exact .settle hwire hadmits hsource ih hfinal
  | proceed hwire hadmits hsource _ hfinal _ ihlook ihrest =>
    exact .proceed hwire hadmits hsource ihlook hfinal ihrest
  | stay _ ih => exact .stay ih
  | known htiming hdead hframe _ ih => exact .known htiming hdead hframe ih
  | imagine htiming hdead hnew hcurrent hproject hfresh _ ih =>
    exact .imagine htiming hdead hnew hcurrent hproject hfresh ih

/-- Every walk has a journal. -/
theorem Walk.journal {fuel : Nat} {task : Task} {e e' : Evaluator} {answer : Except Fault Peak}
    (h : Walk fuel task e answer e') : ∃ keys, Journal fuel task e keys answer e' := by
  induction h with
  | descend hnew _ ih =>
    obtain ⟨keys, hkeys⟩ := ih
    exact ⟨keys, .descend hnew hkeys⟩
  | stored hframe hcell hfinal => exact ⟨_, .stored hframe hcell hfinal⟩
  | gather hframe hcell hfinal _ ih =>
    obtain ⟨keys, hkeys⟩ := ih
    exact ⟨_, .gather hframe hcell hfinal hkeys⟩
  | skip hwire hadmits _ ih =>
    obtain ⟨keys, hkeys⟩ := ih
    exact ⟨keys, .skip hwire hadmits hkeys⟩
  | broken hwire hadmits hsource _ ih =>
    obtain ⟨keys, hkeys⟩ := ih
    exact ⟨keys, .broken hwire hadmits hsource hkeys⟩
  | settle hwire hadmits hsource _ hfinal ih =>
    obtain ⟨keys, hkeys⟩ := ih
    exact ⟨keys, .settle hwire hadmits hsource hkeys hfinal⟩
  | proceed hwire hadmits hsource _ hfinal _ ihlook ihrest =>
    obtain ⟨keys, hkeys⟩ := ihlook
    obtain ⟨others, hothers⟩ := ihrest
    exact ⟨keys ++ others, .proceed hwire hadmits hsource hkeys hfinal hothers⟩
  | stay _ ih =>
    obtain ⟨keys, hkeys⟩ := ih
    exact ⟨keys, .stay hkeys⟩
  | known htiming hdead hframe _ ih =>
    obtain ⟨keys, hkeys⟩ := ih
    exact ⟨keys, .known htiming hdead hframe hkeys⟩
  | imagine htiming hdead hnew hcurrent hproject hfresh _ ih =>
    obtain ⟨keys, hkeys⟩ := ih
    exact ⟨keys, .imagine htiming hdead hnew hcurrent hproject hfresh hkeys⟩
  | cut => exact ⟨[], .idle .cut rfl⟩
  | reuse hdone => exact ⟨[], .idle (.reuse hdone) rfl⟩
  | again hpending => exact ⟨[], .idle (.again hpending) rfl⟩
  | frameless hframe => exact ⟨[], .idle (.frameless hframe) rfl⟩
  | absent hframe hcell hoffset => exact ⟨[], .idle (.absent hframe hcell hoffset) rfl⟩
  | lost hframe hcell hhere => exact ⟨[], .idle (.lost hframe hcell hhere) rfl⟩
  | done => exact ⟨[], .idle .done rfl⟩
  | wireless hwire => exact ⟨[], .idle (.wireless hwire) rfl⟩
  | sourceless hwire hadmits hsource => exact ⟨[], .idle (.sourceless hwire hadmits hsource) rfl⟩
  | deadEnd htiming hdead => exact ⟨[], .idle (.deadEnd htiming hdead) rfl⟩
  | adrift htiming hdead hnew hcurrent => exact ⟨[], .idle (.adrift htiming hdead hnew hcurrent) rfl⟩
  | unprojectable htiming hdead hnew hcurrent hproject =>
    exact ⟨[], .idle (.unprojectable htiming hdead hnew hcurrent hproject) rfl⟩
  | stale htiming hdead hnew hcurrent hproject hstale =>
    exact ⟨[], .idle (.stale htiming hdead hnew hcurrent hproject hstale) rfl⟩

namespace Journal

variable {fuel : Nat} {task : Task} {e e' : Evaluator} {keys : List MemoKey} {answer : Except Fault Peak}

/-- Each entry stands for one computation. -/
theorem computed (h : Journal fuel task e keys answer e') :
    e'.stats.computed = e.stats.computed + keys.length := by
  induction h with
  | idle _ hcomputed => exact hcomputed
  | descend _ _ ih => exact ih
  | stored => rfl
  | gather _ _ _ _ ih =>
    rw [ih, List.length_cons, Nat.add_comm _ 1, ← Nat.add_assoc]
    rfl
  | skip _ _ _ ih => exact ih
  | broken _ _ _ _ ih => exact ih
  | settle _ _ _ _ _ ih => exact ih
  | proceed _ _ _ _ _ _ ihlook ihrest => rw [ihrest, ihlook, List.length_append, Nat.add_assoc]
  | stay _ ih => exact ih
  | known _ _ _ _ ih => exact ih
  | imagine _ _ _ _ _ _ _ ih => exact ih

end Journal

/-- The key under which a task itself computes a peak. -/
def Task.own? : Task → Option MemoKey
  | .compute offset id colour => some ⟨offset, id, colour⟩
  | .ask .. | .fold .. | .look .. => none

/-- That key was entered. -/
def Task.Entered (task : Task) (e : Evaluator) : Prop := ∀ key ∈ task.own?, e.memo.get? key ≠ none

theorem Task.Entered.of_none {task : Task} {e : Evaluator} (h : task.own? = none) : task.Entered e := by
  intro key hkey
  rw [h] at hkey
  cases hkey

/-- Other keys are computed only where there is no memo for them. -/
theorem Journal.new {fuel : Nat} {task : Task} {e e' : Evaluator} {keys : List MemoKey}
    {answer : Except Fault Peak} (h : Journal fuel task e keys answer e') {key : MemoKey} (hkey : key ∈ keys) :
    task.own? = some key ∨ e.memo.get? key = none := by
  induction h with
  | idle => cases hkey
  | @descend _ e _ offset id colour _ _ hnew _ ih =>
    refine Or.inr ?_
    rcases ih hkey with hown | hinner
    · cases hown
      exact hnew
    · rw [get?_enter] at hinner
      split at hinner
      · cases hinner
      · exact hinner
  | stored =>
    cases List.mem_singleton.mp hkey
    exact Or.inl rfl
  | gather _ _ _ _ ih =>
    rcases List.mem_cons.mp hkey with rfl | hkey
    · exact Or.inl rfl
    · rcases ih hkey with hown | hinner
      · cases hown
      · exact Or.inr hinner
  | skip _ _ _ ih => exact ih hkey
  | broken _ _ _ _ ih => exact ih hkey
  | settle _ _ _ _ _ ih => exact ih hkey
  | @proceed _ e _ _ _ _ _ _ _ _ _ _ _ _ _ _ _ _ _ _ hlook _ _ ihlook ihrest =>
    rcases List.mem_append.mp hkey with hkey | hkey
    · exact ihlook hkey
    · -- a memo from before the look would be there after it
      refine (ihrest hkey).imp_right fun hlater => ?_
      cases hmemo : e.memo.get? key with
      | none => rfl
      | some memo => exact absurd (hlook.walk.kept hmemo) (by rw [hlater]; simp)
  | stay _ ih => exact ih hkey
  | known _ _ _ _ ih => exact ih hkey
  | imagine _ _ _ _ _ _ _ ih => exact ih hkey

/-! ## The journal of some queries -/

/-- The keys that are computed for a query. -/
inductive Logs (e : Evaluator) (q : Query) : List MemoKey → Prop where
  /-- There is nothing to walk to. -/
  | idle (hsame : e.next q = e) : Logs e q []
  | walk {keys} (h : Journal e.depthBound (.look 0 q.id q.colour q.timing) e keys (e.reply q) (e.next q)) :
      Logs e q keys

/-- The keys that are computed for some queries, from the first one on. -/
inductive Journals (e : Evaluator) : List Query → List MemoKey → Prop where
  | nil : Journals e [] []
  | snoc {queries q keys others} (h : Journals e queries keys) (hquery : (e.asked queries).Logs q others) :
      Journals e (queries ++ [q]) (keys ++ others)

theorem asked_concat (e : Evaluator) (queries : List Query) (q : Query) :
    e.asked (queries ++ [q]) = (e.asked queries).next q := by
  rw [asked, List.foldl_append, List.foldl_cons, List.foldl_nil]
  rfl

theorem exists_logs (e : Evaluator) (q : Query) : ∃ keys, e.Logs q keys := by
  rcases e.reply_cases q with ⟨hsame, -⟩ | ⟨_, _, -, -, hwalk⟩
  · exact ⟨[], .idle hsame⟩
  · obtain ⟨keys, hkeys⟩ := hwalk.journal
    exact ⟨keys, .walk hkeys⟩

theorem exists_journals (e : Evaluator) (queries : List Query) : ∃ keys, e.Journals queries keys := by
  induction queries using List.reverseRecOn with
  | nil => exact ⟨[], .nil⟩
  | append_singleton queries q ih =>
    obtain ⟨keys, hkeys⟩ := ih
    obtain ⟨others, hothers⟩ := (e.asked queries).exists_logs q
    exact ⟨keys ++ others, .snoc hkeys hothers⟩

theorem Logs.computed {e : Evaluator} {q : Query} {keys : List MemoKey} (h : e.Logs q keys) :
    (e.next q).stats.computed = e.stats.computed + keys.length := by
  cases h with
  | idle hsame => rw [hsame, List.length_nil, Nat.add_zero]
  | walk h => exact h.computed

theorem Journals.computed {e : Evaluator} {queries : List Query} {keys : List MemoKey}
    (h : e.Journals queries keys) : (e.asked queries).stats.computed = e.stats.computed + keys.length := by
  induction h with
  | nil => rfl
  | snoc _ hquery ih => rw [asked_concat, hquery.computed, ih, List.length_append, Nat.add_assoc]

end Evaluator

end PulseCircuit
