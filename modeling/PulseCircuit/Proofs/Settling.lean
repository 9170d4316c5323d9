import PulseCircuit.Proofs.Walk
import PulseCircuit.Proofs.Chart

/-!
# Answers without memory

`Settles` is the meaning of a question: the recursion of the walk over a chart, with nothing remembered and
nothing pending. Such a recursion has no end on a loop. The one kind of loop that has a meaning all the same
is one on which no pulse but raw ones move (`Calm`): raw pulses carry no operations, so there all that
matters is whether one of them gets through (`Carries`).

* `Settles.unique`: a task settles on one answer;
* `Weighed.proceed`: raw pulses are weighed one input after the other;
* `Settles.calm`: among calm keys what a task settles on is what raw pulses make of it.
-/

namespace PulseCircuit

/-- The peak of a raw pulse that nothing was added to. -/
def Peak.raw : Peak := .success .raw [] false

theorem Peak.fold_nothing (peak : Peak) (hop : Hop) : peak.fold .nothing hop = peak := rfl

/-- A raw pulse stays one where its source does not turn it into another one. -/
theorem Peak.fold_raw {peak : Peak} (hpeak : peak = .nothing ∨ peak = .raw) {hop : Hop}
    (hkind : hop.source.kind ≠ .creation ∧ hop.source.kind ≠ .destruction) :
    peak.fold .raw hop = .raw := by
  have hraw : peak.fold .raw hop = Folding.raw peak [] hop := rfl
  rw [hraw, Folding.raw]
  cases hsource : hop.source.kind with
  | creation => exact absurd hsource hkind.1
  | destruction => exact absurd hsource hkind.2
  | slot | relay | recording | stopper => rcases hpeak with rfl | rfl <;> rfl

namespace Evaluator

variable {T : Int → Prospect}

/-! ## Raw pulses -/

/-- A raw pulse gets to a task without passing a key that is to be avoided. -/
inductive Carries (T : Int → Prospect) (avoid : MemoKey → Prop) : Task → Prop where
  | ask {offset id colour} (hopen : ¬ avoid ⟨offset, id, colour⟩)
      (hbody : Carries T avoid (.compute offset id colour)) :
      Carries T avoid (.ask offset id colour)
  | gather {c offset id colour target} (hsight : T offset = .circuit c)
      (hcell : c.cell id = .ok target)
      (hfold : Carries T avoid (.fold c offset target colour target.inputs
        (.ofPulse? (target.fire.get colour) []))) :
      Carries T avoid (.compute offset id colour)
  | here {c offset target colour inputs} :
      Carries T avoid (.fold c offset target colour inputs .raw)
  | head {c offset target colour input inputs peak wire source} (hwire : c.wire input = .ok wire)
      (hadmits : wire.colour.admits colour = true) (hsource : c.cell wire.source = .ok source)
      (hlook : Carries T avoid (.look offset source.id colour wire.timing.flip)) :
      Carries T avoid (.fold c offset target colour (input :: inputs) peak)
  | tail {c offset target colour input inputs peak}
      (hrest : Carries T avoid (.fold c offset target colour inputs peak)) :
      Carries T avoid (.fold c offset target colour (input :: inputs) peak)
  | look {c offset id colour timing} (hsight : T (offset + timing.step) = .circuit c)
      (hask : Carries T avoid (.ask (offset + timing.step) id colour)) :
      Carries T avoid (.look offset id colour timing)

/-- Nothing is to be avoided. -/
def anywhere : MemoKey → Prop := fun _ => False

namespace Carries

variable {avoid : MemoKey → Prop}

theorem mono {other : MemoKey → Prop} (hle : ∀ key, other key → avoid key) {task : Task}
    (h : Carries T avoid task) : Carries T other task := by
  induction h with
  | ask hopen _ ih => exact .ask (fun hkey => hopen (hle _ hkey)) ih
  | gather hsight hcell _ ih => exact .gather hsight hcell ih
  | here => exact .here
  | head hwire hadmits hsource _ ih => exact .head hwire hadmits hsource ih
  | tail _ ih => exact .tail ih
  | look hsight _ ih => exact .look hsight ih

theorem unrestricted {task : Task} (h : Carries T avoid task) : Carries T anywhere task :=
  h.mono fun _ hkey => hkey.elim

/-- A pulse that passes a key has a way on from there that does not come back to it. -/
theorem avoiding_or (offset : Int) (id : CellId) (colour : Colour) {task : Task}
    (h : Carries T avoid task) :
    Carries T (fun key => key = ⟨offset, id, colour⟩ ∨ avoid key) task ∨
      Carries T (fun key => key = ⟨offset, id, colour⟩ ∨ avoid key) (.compute offset id colour) := by
  induction h with
  | ask hopen _ ih =>
    rcases ih with hbody | hlast
    · rename_i offset' id' colour' _
      -- when the key itself is passed, the way on from it is taken instead
      by_cases hkey : (⟨offset', id', colour'⟩ : MemoKey) = ⟨offset, id, colour⟩
      · cases hkey
        exact Or.inr hbody
      · refine Or.inl (.ask (fun havoid => ?_) hbody)
        rcases havoid with hsame | havoid
        · exact hkey hsame
        · exact hopen havoid
    · exact Or.inr hlast
  | gather hsight hcell _ ih => exact ih.imp_left (.gather hsight hcell)
  | here => exact Or.inl .here
  | head hwire hadmits hsource _ ih => exact ih.imp_left (.head hwire hadmits hsource)
  | tail _ ih => exact ih.imp_left .tail
  | look hsight _ ih => exact ih.imp_left (.look hsight)

theorem compute_of_ask {offset : Int} {id : CellId} {colour : Colour}
    (h : Carries T avoid (.ask offset id colour)) :
    Carries T (fun key => key = ⟨offset, id, colour⟩ ∨ avoid key) (.compute offset id colour) := by
  cases h with
  | ask hopen hbody => exact or_self_iff.mp (hbody.avoiding_or offset id colour)

section Reading

variable {c : Circuit} {offset : Int} {id : CellId} {target source : Cell} {colour : Colour}
  {input : WireId} {inputs : List WireId} {peak : Peak} {wire : Wire} {timing : Timing}

theorem anywhere_ask_iff : Carries T anywhere (.ask offset id colour) ↔
    Carries T anywhere (.compute offset id colour) := by
  constructor
  · intro h
    cases h with
    | ask _ hbody => exact hbody
  · exact .ask fun h => h

theorem compute_iff (hsight : T offset = .circuit c) (hcell : c.cell id = .ok target) :
    Carries T avoid (.compute offset id colour) ↔
      Carries T avoid (.fold c offset target colour target.inputs
        (.ofPulse? (target.fire.get colour) [])) := by
  constructor
  · intro h
    cases h with
    | gather hsight' hcell' hfold =>
      rw [hsight] at hsight'
      cases hsight'
      rw [hcell] at hcell'
      cases hcell'
      exact hfold
  · exact .gather hsight hcell

theorem not_compute (hsight : T offset = .circuit c) {fault : Fault}
    (hcell : c.cell id = .error fault) : ¬ Carries T avoid (.compute offset id colour) := by
  intro h
  cases h with
  | gather hsight' hcell' _ =>
    rw [hsight] at hsight'
    cases hsight'
    rw [hcell] at hcell'
    cases hcell'

theorem nil_iff : Carries T avoid (.fold c offset target colour [] peak) ↔ peak = .raw := by
  constructor
  · intro h
    cases h
    rfl
  · rintro rfl
    exact .here

theorem skip_iff (hwire : c.wire input = .ok wire) (hadmits : wire.colour.admits colour = false) :
    Carries T avoid (.fold c offset target colour (input :: inputs) peak) ↔
      Carries T avoid (.fold c offset target colour inputs peak) := by
  constructor
  · intro h
    cases h with
    | here => exact .here
    | head hwire' hadmits' _ _ =>
      rw [hwire] at hwire'
      cases hwire'
      rw [hadmits] at hadmits'
      cases hadmits'
    | tail hrest => exact hrest
  · exact .tail

theorem cons_iff (hwire : c.wire input = .ok wire) (hadmits : wire.colour.admits colour = true)
    (hsource : c.cell wire.source = .ok source) :
    Carries T avoid (.fold c offset target colour (input :: inputs) peak) ↔
      Carries T avoid (.look offset source.id colour wire.timing.flip) ∨
        Carries T avoid (.fold c offset target colour inputs peak) := by
  constructor
  · intro h
    cases h with
    | here => exact Or.inr .here
    | head hwire' _ hsource' hlook =>
      rw [hwire] at hwire'
      cases hwire'
      rw [hsource] at hsource'
      cases hsource'
      exact Or.inl hlook
    | tail hrest => exact Or.inr hrest
  · rintro (hlook | hrest)
    · exact .head hwire hadmits hsource hlook
    · exact .tail hrest

theorem look_iff (hsight : T (offset + timing.step) = .circuit c) :
    Carries T avoid (.look offset id colour timing) ↔
      Carries T avoid (.ask (offset + timing.step) id colour) := by
  constructor
  · intro h
    cases h with
    | look _ hask => exact hask
  · exact .look hsight

theorem not_look (hsight : T (offset + timing.step) = .deadEnd) :
    ¬ Carries T avoid (.look offset id colour timing) := by
  intro h
  cases h with
  | look hsight' _ =>
    rw [hsight] at hsight'
    cases hsight'

end Reading

end Carries

/-! ## Calm keys -/

/-- What an input looks at is a dead end or one of the keys, and no raw pulse comes from there over a source
that would turn it into another one. -/
def CalmInput (T : Int → Prospect) (keys : List MemoKey) (c : Circuit) (offset : Int)
    (colour : Colour) (input : WireId) : Prop :=
  ∃ wire, c.wire input = .ok wire ∧ (wire.colour.admits colour = true →
    ∃ source, c.cell wire.source = .ok source ∧
      (Carries T anywhere (.look offset source.id colour wire.timing.flip) →
        source.kind ≠ .creation ∧ source.kind ≠ .destruction) ∧
      (T (offset + wire.timing.flip.step) = .deadEnd ∨
        ∃ d, T (offset + wire.timing.flip.step) = .circuit d ∧
          ⟨offset + wire.timing.flip.step, source.id, colour⟩ ∈ keys))

/-- The task asks for nothing outside the keys, and meets no pulses but raw ones. -/
def CalmTask (T : Int → Prospect) (keys : List MemoKey) : Task → Prop
  | .ask offset id colour => ⟨offset, id, colour⟩ ∈ keys
  | .compute offset id colour => ⟨offset, id, colour⟩ ∈ keys
  | .fold c offset _ colour inputs peak =>
    (peak = .nothing ∨ peak = .raw) ∧ ∀ input ∈ inputs, CalmInput T keys c offset colour input
  | .look offset id colour timing =>
    T (offset + timing.step) = .deadEnd ∨
      ∃ d, T (offset + timing.step) = .circuit d ∧ ⟨offset + timing.step, id, colour⟩ ∈ keys

/-- From each of the keys only some of them are asked for, and only raw pulses are met. -/
def Calm (T : Int → Prospect) (keys : List MemoKey) : Prop :=
  ∀ key ∈ keys, ∃ c, T key.offset = .circuit c ∧
    ((key.offset ≠ 0 ∧ ∃ missing, c.cell key.cell = .error (.notFound missing)) ∨
      ∃ target, c.cell key.cell = .ok target ∧
        CalmTask T keys (.fold c key.offset target key.colour target.inputs
          (.ofPulse? (target.fire.get key.colour) [])))

section Calmness

variable {keys : List MemoKey} {c : Circuit} {offset : Int} {target source : Cell} {colour : Colour}
  {input : WireId} {inputs : List WireId} {peak : Peak} {wire : Wire}

theorem CalmInput.wire_ne_error (h : CalmInput T keys c offset colour input) {fault : Fault} :
    c.wire input ≠ .error fault := by
  rcases h with ⟨wire, hwire, -⟩
  rw [hwire]
  simp

theorem CalmInput.exists_source (h : CalmInput T keys c offset colour input)
    (hwire : c.wire input = .ok wire) (hadmits : wire.colour.admits colour = true) :
    ∃ source, c.cell wire.source = .ok source ∧
      (Carries T anywhere (.look offset source.id colour wire.timing.flip) →
        source.kind ≠ .creation ∧ source.kind ≠ .destruction) ∧
      CalmTask T keys (.look offset source.id colour wire.timing.flip) := by
  rcases h with ⟨wire', hwire', hsource⟩
  rw [hwire] at hwire'
  cases hwire'
  exact hsource hadmits

theorem CalmInput.source_ne_error (h : CalmInput T keys c offset colour input)
    (hwire : c.wire input = .ok wire) (hadmits : wire.colour.admits colour = true) {fault : Fault} :
    c.cell wire.source ≠ .error fault := by
  rcases h.exists_source hwire hadmits with ⟨source, hsource, -⟩
  rw [hsource]
  simp

/-- A calm input looks for something calm, and a raw pulse it finds stays one. -/
theorem CalmInput.look (h : CalmInput T keys c offset colour input) (hwire : c.wire input = .ok wire)
    (hadmits : wire.colour.admits colour = true) (hsource : c.cell wire.source = .ok source) :
    (Carries T anywhere (.look offset source.id colour wire.timing.flip) →
      source.kind ≠ .creation ∧ source.kind ≠ .destruction) ∧
      CalmTask T keys (.look offset source.id colour wire.timing.flip) := by
  rcases h.exists_source hwire hadmits with ⟨source', hsource', hlook⟩
  rw [hsource] at hsource'
  cases hsource'
  exact hlook

theorem isFinal_of_calm (hpeak : peak = .nothing ∨ peak = .raw) : peak.isFinal = false := by
  rcases hpeak with rfl | rfl <;> rfl

theorem CalmTask.tail (h : CalmTask T keys (.fold c offset target colour (input :: inputs) peak))
    {next : Peak} (hnext : next = .nothing ∨ next = .raw) :
    CalmTask T keys (.fold c offset target colour inputs next) :=
  ⟨hnext, fun other hother => h.2 other (List.mem_cons_of_mem _ hother)⟩

theorem CalmTask.head (h : CalmTask T keys (.fold c offset target colour (input :: inputs) peak)) :
    CalmInput T keys c offset colour input :=
  h.2 input List.mem_cons_self

section Look

variable {id : CellId} {timing : Timing}

/-- A calm look into a tick that can be seen finds one of the keys there. -/
theorem CalmTask.onward (h : CalmTask T keys (.look offset id colour timing))
    (hsight : T (offset + timing.step) = .circuit c ∨ T (offset + timing.step) = .unclear) :
    T (offset + timing.step) = .circuit c ∧ ⟨offset + timing.step, id, colour⟩ ∈ keys := by
  rcases h with hdead | ⟨d, hcircuit, hkey⟩
  · rcases hsight with hsight | hsight <;> rw [hdead] at hsight <;> cases hsight
  · rcases hsight with hsight | hsight
    · exact ⟨hsight, hkey⟩
    · rw [hcircuit] at hsight
      cases hsight

theorem CalmTask.deadEnd (h : CalmTask T keys (.look offset id colour timing))
    (hsight : T (offset + timing.step) = .deadEnd ∨ T (offset + timing.step) = .unclear) :
    T (offset + timing.step) = .deadEnd := by
  rcases h with hdead | ⟨d, hcircuit, -⟩
  · exact hdead
  · rcases hsight with hsight | hsight <;> rw [hcircuit] at hsight <;> cases hsight

theorem CalmTask.projectable (h : CalmTask T keys (.look offset id colour timing)) {fault : Fault} :
    ¬ (T (offset + timing.step) = .fault fault ∨ T (offset + timing.step) = .unclear) := by
  rintro (hsight | hsight) <;> rcases h with hdead | ⟨d, hcircuit, -⟩
  · rw [hsight] at hdead
    cases hdead
  · rw [hsight] at hcircuit
    cases hcircuit
  · rw [hsight] at hdead
    cases hdead
  · rw [hsight] at hcircuit
    cases hcircuit

end Look

/-- A calm key has its cell, with inputs that are calm as well, or is in a tick that lacks the cell. -/
theorem Calm.cell (hcalm : Calm T keys) {id : CellId} (hkey : ⟨offset, id, colour⟩ ∈ keys)
    (hsight : T offset = .circuit c) :
    (offset ≠ 0 ∧ ∃ missing, c.cell id = .error (.notFound missing)) ∨
      ∃ target, c.cell id = .ok target ∧
        CalmTask T keys (.fold c offset target colour target.inputs
          (.ofPulse? (target.fire.get colour) [])) := by
  rcases hcalm _ hkey with ⟨c', hsight', hcell⟩
  rw [hsight] at hsight'
  cases hsight'
  exact hcell

theorem Calm.fold (hcalm : Calm T keys) {id : CellId} (hkey : ⟨offset, id, colour⟩ ∈ keys)
    (hsight : T offset = .circuit c) (hcell : c.cell id = .ok target) :
    CalmTask T keys (.fold c offset target colour target.inputs
      (.ofPulse? (target.fire.get colour) [])) := by
  rcases hcalm.cell hkey hsight with ⟨-, missing, hmissing⟩ | ⟨other, hother, hfold⟩
  · rw [hcell] at hmissing
    cases hmissing
  · rw [hcell] at hother
    cases hother
    exact hfold

/-- The only thing that can be wrong with the cell of a calm key is that another tick lacks it. -/
theorem Calm.missing (hcalm : Calm T keys) {id : CellId} (hkey : ⟨offset, id, colour⟩ ∈ keys)
    (hsight : T offset = .circuit c) {fault : Fault} (hcell : c.cell id = .error fault) :
    offset ≠ 0 ∧ ∃ missing, fault = .notFound missing := by
  rcases hcalm.cell hkey hsight with ⟨hoffset, missing, hmissing⟩ | ⟨other, hother, -⟩
  · rw [hcell] at hmissing
    cases hmissing
    exact ⟨hoffset, missing, rfl⟩
  · rw [hcell] at hother
    cases hother

end Calmness

/-- Among calm keys it makes no difference to avoid other keys. -/
theorem Carries.avoiding {keys : List MemoKey} (hcalm : Calm T keys) {avoid : MemoKey → Prop}
    (hfree : ∀ key ∈ keys, ¬ avoid key) {task : Task} (h : Carries T anywhere task)
    (htask : CalmTask T keys task) : Carries T avoid task := by
  induction h with
  | ask _ _ ih => exact .ask (hfree _ htask) (ih htask)
  | gather hsight hcell _ ih => exact .gather hsight hcell (ih (hcalm.fold htask hsight hcell))
  | here => exact .here
  | head hwire hadmits hsource _ ih =>
    exact .head hwire hadmits hsource (ih (htask.head.look hwire hadmits hsource).2)
  | tail _ ih => exact .tail (ih (htask.tail htask.1))
  | look hsight _ ih => exact .look hsight (ih (htask.onward (Or.inl hsight)).2)

/-! ## Settling -/

/-- `Settles T n task answer`: over the chart `T` the task has this answer, found by asking no more than
`n` cells deep. -/
inductive Settles (T : Int → Prospect) : Nat → Task → Except Fault Peak → Prop where
  | carried {n keys offset id colour} (hcalm : Calm T keys) (hkey : ⟨offset, id, colour⟩ ∈ keys)
      (hn : keys.length < n) (hcarries : Carries T anywhere (.ask offset id colour)) :
      Settles T n (.ask offset id colour) (.ok .raw)
  | quiet {n keys offset id colour} (hcalm : Calm T keys) (hkey : ⟨offset, id, colour⟩ ∈ keys)
      (hn : keys.length < n) (hcarries : ¬ Carries T anywhere (.ask offset id colour)) :
      Settles T n (.ask offset id colour) (.ok .nothing)
  | descend {n offset id colour answer} (hbody : Settles T n (.compute offset id colour) answer) :
      Settles T (n + 1) (.ask offset id colour) answer
  | absent {n c offset id colour missing} (hsight : T offset = .circuit c)
      (hcell : c.cell id = .error (.notFound missing)) (hoffset : offset ≠ 0) :
      Settles T n (.compute offset id colour) (.ok .nothing)
  | lost {n c offset id colour fault} (hsight : T offset = .circuit c)
      (hcell : c.cell id = .error fault)
      (hhere : offset = 0 ∨ ∀ missing, fault ≠ .notFound missing) :
      Settles T n (.compute offset id colour) (.error fault)
  | stored {n c offset id colour target} (hsight : T offset = .circuit c)
      (hcell : c.cell id = .ok target)
      (hfinal : (Peak.ofPulse? (target.fire.get colour) []).isFinal = true) :
      Settles T n (.compute offset id colour) (.ok (.ofPulse? (target.fire.get colour) []))
  | gather {n c offset id colour target answer} (hsight : T offset = .circuit c)
      (hcell : c.cell id = .ok target)
      (hfinal : (Peak.ofPulse? (target.fire.get colour) []).isFinal = false)
      (hfold : Settles T n (.fold c offset target colour target.inputs
        (.ofPulse? (target.fire.get colour) [])) answer) :
      Settles T n (.compute offset id colour) answer
  | done {n c offset target colour peak} :
      Settles T n (.fold c offset target colour [] peak) (.ok peak)
  | wireless {n c offset target colour input inputs peak fault}
      (hwire : c.wire input = .error fault) :
      Settles T n (.fold c offset target colour (input :: inputs) peak) (.error fault)
  | skip {n c offset target colour input inputs peak wire answer} (hwire : c.wire input = .ok wire)
      (hadmits : wire.colour.admits colour = false)
      (hrest : Settles T n (.fold c offset target colour inputs peak) answer) :
      Settles T n (.fold c offset target colour (input :: inputs) peak) answer
  | sourceless {n c offset target colour input inputs peak wire fault}
      (hwire : c.wire input = .ok wire) (hadmits : wire.colour.admits colour = true)
      (hsource : c.cell wire.source = .error fault) :
      Settles T n (.fold c offset target colour (input :: inputs) peak) (.error fault)
  | broken {n c offset target colour input inputs peak wire source fault}
      (hwire : c.wire input = .ok wire) (hadmits : wire.colour.admits colour = true)
      (hsource : c.cell wire.source = .ok source)
      (hlook : Settles T n (.look offset source.id colour wire.timing.flip) (.error fault)) :
      Settles T n (.fold c offset target colour (input :: inputs) peak) (.error fault)
  | settle {n c offset target colour input inputs peak wire source next}
      (hwire : c.wire input = .ok wire) (hadmits : wire.colour.admits colour = true)
      (hsource : c.cell wire.source = .ok source)
      (hlook : Settles T n (.look offset source.id colour wire.timing.flip) (.ok next))
      (hfinal : (peak.fold next ⟨source, target, wire⟩).isFinal = true) :
      Settles T n (.fold c offset target colour (input :: inputs) peak)
        (.ok (peak.fold next ⟨source, target, wire⟩))
  | proceed {n c offset target colour input inputs peak wire source next answer}
      (hwire : c.wire input = .ok wire) (hadmits : wire.colour.admits colour = true)
      (hsource : c.cell wire.source = .ok source)
      (hlook : Settles T n (.look offset source.id colour wire.timing.flip) (.ok next))
      (hfinal : (peak.fold next ⟨source, target, wire⟩).isFinal = false)
      (hrest : Settles T n (.fold c offset target colour inputs
        (peak.fold next ⟨source, target, wire⟩)) answer) :
      Settles T n (.fold c offset target colour (input :: inputs) peak) answer
  | onward {n c offset id colour timing answer} (hsight : T (offset + timing.step) = .circuit c)
      (hask : Settles T n (.ask (offset + timing.step) id colour) answer) :
      Settles T n (.look offset id colour timing) answer
  | deadEnd {n offset id colour timing} (hsight : T (offset + timing.step) = .deadEnd) :
      Settles T n (.look offset id colour timing) (.ok .nothing)
  | unprojectable {n offset id colour timing fault}
      (hsight : T (offset + timing.step) = .fault fault) :
      Settles T n (.look offset id colour timing) (.error fault)

theorem Settles.succ {n : Nat} {task : Task} {answer : Except Fault Peak}
    (h : Settles T n task answer) : Settles T (n + 1) task answer := by
  induction h with
  | carried hcalm hkey hn hcarries => exact .carried hcalm hkey (Nat.lt_succ_of_lt hn) hcarries
  | quiet hcalm hkey hn hcarries => exact .quiet hcalm hkey (Nat.lt_succ_of_lt hn) hcarries
  | descend _ ih => exact .descend ih
  | absent hsight hcell hoffset => exact .absent hsight hcell hoffset
  | lost hsight hcell hhere => exact .lost hsight hcell hhere
  | stored hsight hcell hfinal => exact .stored hsight hcell hfinal
  | gather hsight hcell hfinal _ ih => exact .gather hsight hcell hfinal ih
  | done => exact .done
  | wireless hwire => exact .wireless hwire
  | skip hwire hadmits _ ih => exact .skip hwire hadmits ih
  | sourceless hwire hadmits hsource => exact .sourceless hwire hadmits hsource
  | broken hwire hadmits hsource _ ih => exact .broken hwire hadmits hsource ih
  | settle hwire hadmits hsource _ hfinal ih => exact .settle hwire hadmits hsource ih hfinal
  | proceed hwire hadmits hsource _ hfinal _ ihlook ihrest =>
    exact .proceed hwire hadmits hsource ihlook hfinal ihrest
  | onward hsight _ ih => exact .onward hsight ih
  | deadEnd hsight => exact .deadEnd hsight
  | unprojectable hsight => exact .unprojectable hsight

theorem Settles.mono {n m : Nat} {task : Task} {answer : Except Fault Peak}
    (h : Settles T n task answer) (hle : n ≤ m) : Settles T m task answer := by
  induction hle with
  | refl => exact h
  | step _ ih => exact ih.succ

/-- An input settles first, and the others with what it brings. -/
theorem Settles.cons_cases {n : Nat} {c : Circuit} {offset : Int} {target source : Cell}
    {colour : Colour} {input : WireId} {inputs : List WireId} {peak : Peak} {wire : Wire}
    {answer : Except Fault Peak} (hwire : c.wire input = .ok wire)
    (hadmits : wire.colour.admits colour = true) (hsource : c.cell wire.source = .ok source)
    (h : Settles T n (.fold c offset target colour (input :: inputs) peak) answer) :
    (∃ fault, Settles T n (.look offset source.id colour wire.timing.flip) (.error fault) ∧
      answer = .error fault) ∨
    ∃ next, Settles T n (.look offset source.id colour wire.timing.flip) (.ok next) ∧
      (((peak.fold next ⟨source, target, wire⟩).isFinal = true ∧
          answer = .ok (peak.fold next ⟨source, target, wire⟩)) ∨
        ((peak.fold next ⟨source, target, wire⟩).isFinal = false ∧
          Settles T n (.fold c offset target colour inputs (peak.fold next ⟨source, target, wire⟩))
            answer)) := by
  cases h <;> grind

theorem Settles.look_cases {n : Nat} {offset : Int} {id : CellId} {colour : Colour}
    {timing : Timing} {answer : Except Fault Peak}
    (h : Settles T n (.look offset id colour timing) answer) :
    (∃ c, T (offset + timing.step) = .circuit c ∧
      Settles T n (.ask (offset + timing.step) id colour) answer) ∨
    (T (offset + timing.step) = .deadEnd ∧ answer = .ok .nothing) ∨
    ∃ fault, T (offset + timing.step) = .fault fault ∧ answer = .error fault := by
  cases h with
  | onward hsight hask => exact Or.inl ⟨_, hsight, hask⟩
  | deadEnd hsight => exact Or.inr (Or.inl ⟨hsight, rfl⟩)
  | unprojectable hsight => exact Or.inr (Or.inr ⟨_, hsight, rfl⟩)

/-! ## One answer -/

/-- What raw pulses make of a task, if it is calm: a raw pulse gets there, or nothing does. -/
def Weighed (T : Int → Prospect) (avoid : MemoKey → Prop) (task : Task)
    (answer : Except Fault Peak) : Prop :=
  (answer = .ok .raw ∧ Carries T anywhere task) ∨ (answer = .ok .nothing ∧ ¬ Carries T avoid task)

section Inputs

variable {keys : List MemoKey} {avoid : MemoKey → Prop} {c : Circuit} {offset : Int}
  {target source : Cell} {colour : Colour} {input : WireId} {inputs : List WireId} {peak next : Peak}
  {wire : Wire} {answer : Except Fault Peak}

theorem Weighed.done (htask : CalmTask T keys (.fold c offset target colour [] peak)) :
    Weighed T avoid (.fold c offset target colour [] peak) (.ok peak) := by
  rw [Weighed, Carries.nil_iff, Carries.nil_iff]
  rcases htask.1 with rfl | rfl
  · exact Or.inr ⟨rfl, by simp [Peak.raw, Peak.nothing]⟩
  · exact Or.inl ⟨rfl, rfl⟩

/-- What the first input of a calm task leaves to the others: a raw pulse that got through, or what was there
before. -/
theorem Weighed.fold_cases (h : Weighed T avoid (.look offset source.id colour wire.timing.flip) (.ok next))
    (htask : CalmTask T keys (.fold c offset target colour (input :: inputs) peak))
    (hwire : c.wire input = .ok wire) (hadmits : wire.colour.admits colour = true)
    (hsource : c.cell wire.source = .ok source) :
    (peak.fold next ⟨source, target, wire⟩ = .raw ∧
        Carries T anywhere (.look offset source.id colour wire.timing.flip)) ∨
      (peak.fold next ⟨source, target, wire⟩ = peak ∧
        ¬ Carries T avoid (.look offset source.id colour wire.timing.flip)) := by
  rcases htask.head.look hwire hadmits hsource with ⟨hkind, -⟩
  rcases h with ⟨hnext, hcarries⟩ | ⟨hnext, hnot⟩
  · cases hnext
    exact Or.inl ⟨Peak.fold_raw htask.1 (hkind hcarries), hcarries⟩
  · cases hnext
    exact Or.inr ⟨Peak.fold_nothing .., hnot⟩

/-- After its first input a calm task is still calm. Raw pulses never end the folding of inputs. -/
theorem Weighed.rest (h : Weighed T avoid (.look offset source.id colour wire.timing.flip) (.ok next))
    (htask : CalmTask T keys (.fold c offset target colour (input :: inputs) peak))
    (hwire : c.wire input = .ok wire) (hadmits : wire.colour.admits colour = true)
    (hsource : c.cell wire.source = .ok source) :
    CalmTask T keys (.fold c offset target colour inputs (peak.fold next ⟨source, target, wire⟩)) := by
  rcases h.fold_cases htask hwire hadmits hsource with ⟨hfold, -⟩ | ⟨hfold, -⟩
  · exact htask.tail (Or.inr hfold)
  · rw [hfold]
    exact htask.tail htask.1

/-- Raw pulses make of all the inputs what they make of the first one and then of the others. In the meantime
there may be more to avoid. -/
theorem Weighed.proceed {avoid' : MemoKey → Prop}
    (h : Weighed T avoid (.look offset source.id colour wire.timing.flip) (.ok next))
    (htask : CalmTask T keys (.fold c offset target colour (input :: inputs) peak))
    (hwire : c.wire input = .ok wire) (hadmits : wire.colour.admits colour = true)
    (hsource : c.cell wire.source = .ok source) (hmore : ∀ key, avoid key → avoid' key)
    (hrest : Weighed T avoid' (.fold c offset target colour inputs
      (peak.fold next ⟨source, target, wire⟩)) answer) :
    Weighed T avoid' (.fold c offset target colour (input :: inputs) peak) answer := by
  rw [Weighed, Carries.cons_iff hwire hadmits hsource, Carries.cons_iff hwire hadmits hsource]
  rcases h.fold_cases htask hwire hadmits hsource with ⟨hfold, hcarries⟩ | ⟨hfold, hnot⟩
  · -- once a raw pulse is in, the inputs that are left keep it
    rw [hfold] at hrest
    rcases hrest with ⟨hanswer, -⟩ | ⟨-, hnever⟩
    · exact Or.inl ⟨hanswer, Or.inl hcarries⟩
    · exact absurd .here hnever
  · rw [hfold] at hrest
    rcases hrest with ⟨hanswer, hcarries⟩ | ⟨hanswer, hnot'⟩
    · exact Or.inl ⟨hanswer, Or.inr hcarries⟩
    · -- what held up the first input still does after the others
      have hlook : ¬ Carries T avoid' (.look offset source.id colour wire.timing.flip) :=
        fun hcarries => hnot (hcarries.mono hmore)
      exact Or.inr ⟨hanswer, fun hor => hor.elim hlook hnot'⟩

end Inputs

/-- A calm task settles on what raw pulses make of it. -/
theorem Settles.calm {keys : List MemoKey} (hcalm : Calm T keys) {n : Nat} {task : Task}
    {answer : Except Fault Peak} (h : Settles T n task answer) (htask : CalmTask T keys task) :
    Weighed T anywhere task answer := by
  induction h with
  | carried _ _ _ hcarries => exact Or.inl ⟨rfl, hcarries⟩
  | quiet _ _ _ hcarries => exact Or.inr ⟨rfl, hcarries⟩
  | descend _ ih =>
    rw [Weighed, Carries.anywhere_ask_iff]
    exact ih htask
  | absent hsight hcell _ => exact Or.inr ⟨rfl, Carries.not_compute hsight hcell⟩
  | lost hsight hcell hhere =>
    rcases hcalm.missing htask hsight hcell with ⟨hoffset, missing, hmissing⟩
    exact absurd hmissing (hhere.resolve_left hoffset missing)
  | stored hsight hcell hfinal =>
    rw [isFinal_of_calm (hcalm.fold htask hsight hcell).1] at hfinal
    cases hfinal
  | gather hsight hcell _ _ ih =>
    rw [Weighed, Carries.compute_iff hsight hcell]
    exact ih (hcalm.fold htask hsight hcell)
  | done => exact .done htask
  | wireless hwire => exact absurd hwire htask.head.wire_ne_error
  | skip hwire hadmits _ ih =>
    rw [Weighed, Carries.skip_iff hwire hadmits]
    exact ih (htask.tail htask.1)
  | sourceless hwire hadmits hsource =>
    exact absurd hsource (htask.head.source_ne_error hwire hadmits)
  | broken hwire hadmits hsource _ ih =>
    rcases htask.head.look hwire hadmits hsource with ⟨-, hlook⟩
    rcases ih hlook with ⟨hanswer, -⟩ | ⟨hanswer, -⟩ <;> cases hanswer
  | settle hwire hadmits hsource _ hfinal ih =>
    rcases htask.head.look hwire hadmits hsource with ⟨-, hlook⟩
    rw [isFinal_of_calm ((ih hlook).rest htask hwire hadmits hsource).1] at hfinal
    cases hfinal
  | proceed hwire hadmits hsource _ _ _ ihlook ihrest =>
    rcases htask.head.look hwire hadmits hsource with ⟨-, hlook⟩
    have hrest := ihrest ((ihlook hlook).rest htask hwire hadmits hsource)
    exact (ihlook hlook).proceed htask hwire hadmits hsource (fun _ hkey => hkey) hrest
  | onward hsight _ ih =>
    rw [Weighed, Carries.look_iff hsight]
    exact ih (htask.onward (Or.inl hsight)).2
  | deadEnd hsight => exact Or.inr ⟨rfl, Carries.not_look hsight⟩
  | unprojectable hsight => exact absurd (Or.inl hsight) htask.projectable

/-- A task settles on one answer. -/
theorem Settles.unique {n m : Nat} {task : Task} {answer other : Except Fault Peak}
    (h : Settles T n task answer) (h' : Settles T m task other) : answer = other := by
  induction h generalizing m other with
  | carried hcalm hkey _ hcarries =>
    rcases h'.calm hcalm hkey with ⟨rfl, -⟩ | ⟨-, hnot⟩
    · rfl
    · exact absurd hcarries hnot
  | quiet hcalm hkey _ hcarries =>
    -- whatever rule the other one ends with, calm keys leave it no choice
    rcases h'.calm hcalm hkey with ⟨-, hyes⟩ | ⟨rfl, -⟩
    · exact absurd hyes hcarries
    · rfl
  | descend hbody ih =>
    cases h' with
    | carried hcalm hkey hn hcarries =>
      rcases hbody.descend.calm hcalm hkey with ⟨rfl, -⟩ | ⟨-, hnot⟩
      · rfl
      · exact absurd hcarries hnot
    | quiet hcalm hkey hn hcarries =>
      rcases hbody.descend.calm hcalm hkey with ⟨-, hyes⟩ | ⟨rfl, -⟩
      · exact absurd hyes hcarries
      · rfl
    | descend hbody' => exact ih hbody'
  -- but for `ask` no two rules agree in their premises
  | absent | lost | stored | gather | done | wireless | skip | sourceless | broken | settle | proceed
  | onward | deadEnd | unprojectable => cases h' <;> grind

end Evaluator

end PulseCircuit
