import PulseCircuit.Proofs.Loops

/-!
# Walks find what settles

If a task settles, a walk finds its answer, whatever the evaluator remembers and whatever is pending, as
long as no pending key settles as early as the task does (`Waits`). This is what a walk passes on: when it
goes deeper the key it leaves pending is one that settles only with the task it is at, or not at all
(`Walk.settled`). A walk that starts with nothing pending therefore remembers only what is right.
-/

namespace PulseCircuit

namespace Evaluator

/-- No pending key settles `n` cells deep. -/
def Waits (T : Int → Prospect) (n : Nat) (e : Evaluator) : Prop :=
  ∀ key depth, e.pendingDepth? key = some depth →
    ∀ answer, ¬ Settles T n (.ask key.offset key.cell key.colour) answer

/-- The answer on which a task settles, or a walk that was cut off too early for it. -/
def SettledOrCut (fuel n : Nat) (answer other : Except Fault Peak) : Prop :=
  answer = other ∨ (fuel < n ∧ ∃ id, answer = .error (.endless id))

variable {T : Int → Prospect}

theorem Waits.anti {n m : Nat} {e : Evaluator} (h : Waits T n e) (hle : m ≤ n) : Waits T m e :=
  fun key depth hpending answer hsettles => h key depth hpending answer (hsettles.mono hle)

theorem Waits.enter {n : Nat} {e : Evaluator} (h : Waits T n e) {offset : Int} {id : CellId}
    {colour : Colour} (hkey : ∀ answer, ¬ Settles T n (.ask offset id colour) answer) :
    Waits T n (e.enter ⟨offset, id, colour⟩) := by
  intro key depth hpending answer hsettles
  rw [pendingDepth?_enter] at hpending
  split at hpending
  next heq =>
    subst heq
    exact hkey answer hsettles
  next => exact h key depth hpending answer hsettles

theorem Restored.waits {n : Nat} {e e' : Evaluator} (h : Restored e e') (hwaits : Waits T n e) :
    Waits T n e' := by
  intro key depth hpending
  rw [h.pending] at hpending
  exact hwaits key depth hpending

theorem Settles.pos {n : Nat} {offset : Int} {id : CellId} {colour : Colour}
    {answer : Except Fault Peak} (h : Settles T n (.ask offset id colour) answer) : 0 < n := by
  cases h with
  | carried _ _ hn _ | quiet _ _ hn _ => omega
  | descend _ => omega

/-- A key that settles does so at some least depth. -/
theorem Settles.least {n : Nat} {offset : Int} {id : CellId} {colour : Colour}
    {answer : Except Fault Peak} (h : Settles T n (.ask offset id colour) answer) :
    ∃ m, m ≤ n ∧ Settles T m (.ask offset id colour) answer ∧
      ∀ k < m, ∀ other, ¬ Settles T k (.ask offset id colour) other := by
  induction n using Nat.strongRecOn generalizing answer with
  | ind n ih =>
    -- at a smaller depth it settles on the same answer
    by_cases hless : ∃ k < n, ∃ other, Settles T k (.ask offset id colour) other
    · rcases hless with ⟨k, hk, other, hother⟩
      obtain rfl := h.unique hother
      rcases ih k hk hother with ⟨m, hm, hsettles, hleast⟩
      exact ⟨m, by omega, hsettles, hleast⟩
    · exact ⟨n, Nat.le_refl _, h, fun k hk other hother => hless ⟨k, hk, other, hother⟩⟩

section Remembering

variable {h : History} {sides : Timing → Bool}

/-- A walk among calm keys, none of them pending, finds what they settle on. -/
theorem Walk.settled_calm {keys : List MemoKey} (hcalm : Calm (h.chart sides) keys) {fuel n : Nat}
    {offset : Int} {id : CellId} {colour : Colour} {e e' : Evaluator}
    {answer other : Except Fault Peak} (hwalk : Walk fuel (.ask offset id colour) e answer e')
    (hkey : ⟨offset, id, colour⟩ ∈ keys) (hn : keys.length < n)
    (hframe : ∃ frame, e.timeline.frame? offset = some frame) (hhonest : Honest h sides e)
    (hstraight : Straight sides e') (hwaits : Waits (h.chart sides) n e)
    (hsettles : Settles (h.chart sides) n (.ask offset id colour) other) :
    SettledOrCut fuel n answer other ∧ Remembers (h.chart sides) e' := by
  rcases hwalk.calm hcalm hkey hframe hhonest hstraight with ⟨houtcome, hremembers⟩
  refine ⟨?_, hremembers⟩
  rcases houtcome with hweighed | ⟨hroom, hcut⟩
  · -- all calm keys settle together, so none of them is pending, and nothing held a pulse up
    have hfree : ∀ key ∈ keys, ¬ Suspect e' key := by
      rintro ⟨offset, id, colour⟩ hmem ⟨depth, outer, hpending, -, -⟩
      rw [hwalk.restored.pending] at hpending
      by_cases hcarries : Carries (h.chart sides) anywhere (.ask offset id colour)
      · exact hwaits _ depth hpending _ (.carried hcalm hmem hn hcarries)
      · exact hwaits _ depth hpending _ (.quiet hcalm hmem hn hcarries)
    have hweighed' : Weighed (h.chart sides) anywhere (.ask offset id colour) answer :=
      hweighed.imp_right fun hnothing =>
        ⟨hnothing.1, fun hcarries => hnothing.2 (hcarries.avoiding hcalm hfree hkey)⟩
    exact Or.inl (Weighed.unique hcalm hkey hweighed' hsettles).symm
  · have hle : room keys e ≤ keys.length := List.countP_le_length
    exact Or.inr ⟨by omega, hcut⟩

/-- What a walk finds and remembers: the answer of its task if that settles while no pending key does, and in
any case nothing wrong if no pending key ever settles. -/
def Right (T : Int → Prospect) (fuel : Nat) (task : Task) (e : Evaluator)
    (answer : Except Fault Peak) (e' : Evaluator) : Prop :=
  (∀ n other, Settles T n task other → Waits T n e →
    SettledOrCut fuel n answer other ∧ Remembers T e') ∧
  ((∀ n, Waits T n e) → Remembers T e')

/-- A walk that cannot be at anything but its answer. -/
theorem Right.of_remembers {fuel : Nat} {task : Task} {e e' : Evaluator}
    {answer : Except Fault Peak} (hremembers : Remembers T e')
    (hanswer : ∀ n other, Settles T n task other → answer = other) :
    Right T fuel task e answer e' :=
  ⟨fun n other hsettles _ => ⟨Or.inl (hanswer n other hsettles), hremembers⟩, fun _ => hremembers⟩

/-- A key that is computed is right if its computation is. -/
theorem Walk.right_descend {fuel : Nat} {e e' : Evaluator} {offset : Int} {id : CellId}
    {colour : Colour} {answer : Except Fault Peak}
    (hnew : e.memo.get? ⟨offset, id, colour⟩ = none)
    (hbody : Walk fuel (.compute offset id colour) (e.enter ⟨offset, id, colour⟩) answer e')
    (hframe : ∃ frame, e.timeline.frame? offset = some frame) (hhonest : Honest h sides e)
    (hstraight : Straight sides e')
    (hright : Right (h.chart sides) fuel (.compute offset id colour)
      (e.enter ⟨offset, id, colour⟩) answer e') :
    Right (h.chart sides) (fuel + 1) (.ask offset id colour) e answer
      (e'.leave ⟨offset, id, colour⟩ e.depth e.reentered answer.toOption) := by
  have hsettled : ∀ n other, Settles (h.chart sides) n (.ask offset id colour) other →
      Waits (h.chart sides) n e → SettledOrCut (fuel + 1) n answer other ∧
        Remembers (h.chart sides)
          (e'.leave ⟨offset, id, colour⟩ e.depth e.reentered answer.toOption) := by
    intro n other hsettles hwaits
    -- at its least depth the key does not settle before its computation does
    rcases hsettles.least with ⟨m, hm, hleast, hbefore⟩
    have hwaits' := hwaits.anti hm
    have hwalk := Walk.descend hnew hbody
    have hcalm : ∀ keys, Calm (h.chart sides) keys → ⟨offset, id, colour⟩ ∈ keys →
        keys.length < m → SettledOrCut (fuel + 1) n answer other ∧
          Remembers (h.chart sides)
            (e'.leave ⟨offset, id, colour⟩ e.depth e.reentered answer.toOption) := by
      intro keys hcalm hkey hlength
      rcases hwalk.settled_calm hcalm hkey hlength hframe hhonest hstraight hwaits' hleast with
        ⟨houtcome, hremembers⟩
      exact ⟨houtcome.imp_right fun hcut => ⟨by omega, hcut.2⟩, hremembers⟩
    cases hleast with
    | carried hcalm' hkey hlength _ => exact hcalm _ hcalm' hkey hlength
    | quiet hcalm' hkey hlength _ => exact hcalm _ hcalm' hkey hlength
    | @descend k _ _ _ _ hsettles' =>
      have hwaits'' : Waits (h.chart sides) k (e.enter ⟨offset, id, colour⟩) :=
        (hwaits'.anti (Nat.le_succ k)).enter (hbefore k (Nat.lt_succ_self k))
      rcases hright.1 k other hsettles' hwaits'' with ⟨houtcome, hremembers⟩
      refine ⟨houtcome.imp_right fun hcut => ⟨by omega, hcut.2⟩, hremembers.leave ?_⟩
      intro peak hpeak _ l found hfound
      rcases houtcome with rfl | ⟨-, x, hcut⟩
      · rw [← hpeak]
        exact hfound.unique hsettles
      · rw [hcut] at hpeak
        cases hpeak
  refine ⟨hsettled, fun hfree => ?_⟩
  -- a key that never settles may be remembered with any peak
  by_cases hever : ∃ n other, Settles (h.chart sides) n (.ask offset id colour) other
  · rcases hever with ⟨n, other, hsettles⟩
    exact (hsettled n other hsettles (hfree n)).2
  · have hnever : ∀ n answer, ¬ Settles (h.chart sides) n (.ask offset id colour) answer :=
      fun n answer hsettles => hever ⟨n, answer, hsettles⟩
    refine (hright.2 fun n => (hfree n).enter (hnever n)).leave ?_
    intro peak _ _ n other hsettles
    exact absurd hsettles (hnever n other)

/-- A task is right if it goes on as another one that settles where it does, with nothing more pending. -/
theorem Right.of_settles {fuel : Nat} {task sub : Task} {e e₀ e' : Evaluator} {answer : Except Fault Peak}
    (h : Right T fuel sub e₀ answer e') (hpending : ∀ key, e₀.pendingDepth? key = e.pendingDepth? key)
    (hsettles : ∀ n other, Settles T n task other → Settles T n sub other) : Right T fuel task e answer e' := by
  have hwaits : ∀ {n}, Waits T n e → Waits T n e₀ := by
    intro n hwaits key depth hdepth
    rw [hpending] at hdepth
    exact hwaits key depth hdepth
  constructor
  · exact fun n other hother hwait => h.1 n other (hsettles n other hother) (hwaits hwait)
  · exact fun hfree => h.2 fun n => hwaits (hfree n)

/-- A pending key that is asked for again would be answered wrongly only if it settled. -/
theorem Right.again {fuel : Nat} {offset : Int} {id : CellId} {colour : Colour} {depth : Nat} {e e' : Evaluator}
    {answer : Except Fault Peak} (hpending : e.memo.get? ⟨offset, id, colour⟩ = some (.pending depth))
    (hremembers : Remembers T e') : Right T fuel (.ask offset id colour) e answer e' := by
  refine ⟨fun n other hsettles hwaits => ?_, fun _ => hremembers⟩
  have hdepth : e.pendingDepth? ⟨offset, id, colour⟩ = some depth := by
    rw [pendingDepth?, hpending]
  exact absurd hsettles (hwaits ⟨offset, id, colour⟩ depth hdepth other)

section Inputs

variable {fuel : Nat} {offset : Int} {colour : Colour} {c : Circuit} {target source : Cell} {input : WireId}
  {inputs : List WireId} {wire : Wire} {peak next : Peak} {fault : Fault} {e e' e'' : Evaluator}
  {answer : Except Fault Peak}

theorem Right.broken (hwire : c.wire input = .ok wire) (hadmits : wire.colour.admits colour = true)
    (hsource : c.cell wire.source = .ok source)
    (h : Right T fuel (.look offset source.id colour wire.timing.flip) e (.error fault) e') :
    Right T fuel (.fold c offset target colour (input :: inputs) peak) e (.error fault) e' := by
  refine ⟨fun n other hsettles hwaits => ?_, h.2⟩
  rcases hsettles.cons_cases hwire hadmits hsource with ⟨fault, hlook, rfl⟩ | ⟨next, hlook, -⟩
  · exact h.1 n _ hlook hwaits
  · rcases h.1 n _ hlook hwaits with ⟨hsame | hcut, hremembers⟩
    · cases hsame
    · exact ⟨Or.inr hcut, hremembers⟩

/-- Where folding goes on from an input that was answered, the answer is what the input settles on, and the fold
settles as it does from there. -/
theorem Right.answered (hwire : c.wire input = .ok wire) (hadmits : wire.colour.admits colour = true)
    (hsource : c.cell wire.source = .ok source)
    (h : Right T fuel (.look offset source.id colour wire.timing.flip) e (.ok next) e') {n : Nat}
    {other : Except Fault Peak} (hwaits : Waits T n e)
    (hsettles : Settles T n (.fold c offset target colour (input :: inputs) peak) other) :
    Remembers T e' ∧
      (((peak.fold next ⟨source, target, wire⟩).isFinal = true ∧
          other = .ok (peak.fold next ⟨source, target, wire⟩)) ∨
        ((peak.fold next ⟨source, target, wire⟩).isFinal = false ∧
          Settles T n (.fold c offset target colour inputs (peak.fold next ⟨source, target, wire⟩)) other)) := by
  rcases hsettles.cons_cases hwire hadmits hsource with ⟨fault, hlook, -⟩ | ⟨found, hlook, hnext⟩
  · rcases h.1 n _ hlook hwaits with ⟨hsame | ⟨-, x, hcut⟩, -⟩
    · cases hsame
    · cases hcut
  · rcases h.1 n _ hlook hwaits with ⟨hsame | ⟨-, x, hcut⟩, hremembers⟩
    · cases hsame
      exact ⟨hremembers, hnext⟩
    · cases hcut

theorem Right.settle (hwire : c.wire input = .ok wire) (hadmits : wire.colour.admits colour = true)
    (hsource : c.cell wire.source = .ok source)
    (h : Right T fuel (.look offset source.id colour wire.timing.flip) e (.ok next) e')
    (hfinal : (peak.fold next ⟨source, target, wire⟩).isFinal = true) :
    Right T fuel (.fold c offset target colour (input :: inputs) peak) e
      (.ok (peak.fold next ⟨source, target, wire⟩)) e' := by
  refine ⟨fun n other hsettles hwaits => ?_, h.2⟩
  rcases h.answered hwire hadmits hsource hwaits hsettles with ⟨hremembers, ⟨-, rfl⟩ | ⟨hnot, -⟩⟩
  · exact ⟨Or.inl rfl, hremembers⟩
  · rw [hfinal] at hnot
    cases hnot

/-- The first input left nothing pending, so the others start as it did. -/
theorem Right.proceed (hwire : c.wire input = .ok wire) (hadmits : wire.colour.admits colour = true)
    (hsource : c.cell wire.source = .ok source)
    (h : Right T fuel (.look offset source.id colour wire.timing.flip) e (.ok next) e')
    (hfinal : (peak.fold next ⟨source, target, wire⟩).isFinal = false) (hrestored : Restored e e')
    (hrest : Remembers T e' →
      Right T fuel (.fold c offset target colour inputs (peak.fold next ⟨source, target, wire⟩)) e' answer e'') :
    Right T fuel (.fold c offset target colour (input :: inputs) peak) e answer e'' := by
  constructor
  · intro n other hsettles hwaits
    rcases h.answered hwire hadmits hsource hwaits hsettles with ⟨hremembers, ⟨hnot, -⟩ | ⟨-, hother⟩⟩
    · rw [hfinal] at hnot
      cases hnot
    · exact (hrest hremembers).1 n other hother (hrestored.waits hwaits)
  · intro hfree
    exact (hrest (h.2 hfree)).2 fun n => hrestored.waits (hfree n)

end Inputs

/-- What a walk finds and remembers is right. -/
theorem Walk.right {fuel : Nat} {task : Task} {e e' : Evaluator} {answer : Except Fault Peak}
    (hwalk : Walk fuel task e answer e')
    (hframe : ∃ frame, e.timeline.frame? task.tick = some frame) (hhonest : Honest h sides e)
    (hstraight : Straight sides e') : Right (h.chart sides) fuel task e answer e' := by
  induction hwalk with
  | cut =>
    refine ⟨fun n other hsettles _ => ?_, fun _ => hhonest.remembers⟩
    exact ⟨Or.inr ⟨hsettles.pos, _, rfl⟩, hhonest.remembers⟩
  | reuse hdone =>
    refine .of_remembers hhonest.remembers fun n other hsettles => ?_
    exact (hhonest.remembers _ _ _ _ hdone n other hsettles).symm
  | again hpending => exact .again hpending hhonest.remembers
  | descend hnew hbody ih =>
    exact hbody.right_descend hnew hframe hhonest hstraight (ih hframe (hhonest.enter _) hstraight)
  | frameless hnone => exact absurd hnone (Option.ne_none_iff_exists'.mpr hframe)
  | absent hsome hcell _ =>
    refine .of_remembers hhonest.remembers fun n other hsettles => ?_
    have hsame := fun c hsight => hhonest.circuit_eq (c := c) hsight hsome
    cases hsettles <;> grind
  | lost hsome hcell hhere =>
    refine .of_remembers hhonest.remembers fun n other hsettles => ?_
    have hsame := fun c hsight => hhonest.circuit_eq (c := c) hsight hsome
    cases hsettles <;> grind
  | stored hsome hcell hfinal =>
    refine .of_remembers hhonest.remembers fun n other hsettles => ?_
    have hsame := fun c hsight => hhonest.circuit_eq (c := c) hsight hsome
    cases hsettles <;> grind
  | gather hsome hcell hfinal _ ih =>
    refine (ih hframe hhonest.counting hstraight).of_settles (fun _ => rfl) fun n other hsettles => ?_
    have hsame := fun c hsight => hhonest.circuit_eq (c := c) hsight hsome
    cases hsettles <;> grind
  | done =>
    refine .of_remembers hhonest.remembers fun n other hsettles => ?_
    cases hsettles
    rfl
  | wireless hwire =>
    refine .of_remembers hhonest.remembers fun n other hsettles => ?_
    cases hsettles <;> grind
  | skip hwire hadmits _ ih =>
    refine (ih hframe hhonest hstraight).of_settles (fun _ => rfl) fun n other hsettles => ?_
    cases hsettles <;> grind
  | sourceless hwire hadmits hsource =>
    refine .of_remembers hhonest.remembers fun n other hsettles => ?_
    cases hsettles <;> grind
  | broken hwire hadmits hsource _ ih => exact .broken hwire hadmits hsource (ih hframe hhonest hstraight)
  | settle hwire hadmits hsource _ hfinal ih =>
    exact .settle hwire hadmits hsource (ih hframe hhonest hstraight) hfinal
  | proceed hwire hadmits hsource hlook hfinal hrest ihlook ihrest =>
    have hmiddle := hrest.grows.straight hstraight
    have hframe' := hframe.imp fun frame hsome => hlook.grows.frame _ frame hsome
    refine .proceed hwire hadmits hsource (ihlook hframe hhonest hmiddle) hfinal hlook.restored fun hremembers => ?_
    exact ihrest hframe' (hhonest.walk hlook hmiddle hremembers) hstraight
  | @stay _ _ _ offset id colour _ _ ih =>
    refine (ih hframe hhonest hstraight).of_settles (fun _ => rfl) fun n other hsettles => ?_
    rcases hframe with ⟨frame, hsome⟩
    have hchart := hhonest.follows.frame _ frame hsome
    have hstep : offset + Timing.now.step = offset := Int.add_zero offset
    have hlook := hsettles.look_cases
    rw [hstep] at hlook
    rw [Task.tick] at hchart
    grind
  | deadEnd _ hdead =>
    refine .of_remembers hhonest.remembers fun n other hsettles => ?_
    have hchart := hhonest.follows.dead _ hdead
    have hlook := hsettles.look_cases
    grind
  | known _ _ hsome _ ih =>
    refine (ih ⟨_, hsome⟩ hhonest hstraight).of_settles (fun _ => rfl) fun n other hsettles => ?_
    have hchart := hhonest.follows.frame _ _ hsome
    have hlook := hsettles.look_cases
    grind
  | adrift _ _ _ hnone => exact absurd hnone (Option.ne_none_iff_exists'.mpr hframe)
  | unprojectable htiming _ hnew hcurrent hproject =>
    refine .of_remembers hhonest.remembers fun n other hsettles => ?_
    have hchart := hhonest.follows.unprojectable htiming hcurrent hnew hproject
    have hlook := hsettles.look_cases
    grind
  | stale htiming _ hnew hcurrent hproject hstale =>
    refine .of_remembers hhonest.remembers fun n other hsettles => ?_
    have hchart := hhonest.follows.stale htiming hcurrent hnew hproject hstale hstraight
    have hlook := hsettles.look_cases
    grind
  | imagine htiming _ hnew hcurrent hproject hfresh _ ih =>
    have hchart := hhonest.follows.imagine htiming hcurrent hnew hproject hfresh
    have hhonest' := hhonest.imagining htiming hcurrent hnew hchart
    have hright := ih (exists_frame?_imagining _ _ _) hhonest' hstraight
    refine hright.of_settles (fun _ => rfl) fun n other hsettles => ?_
    have hlook := hsettles.look_cases
    grind

end Remembering

end Evaluator

end PulseCircuit
