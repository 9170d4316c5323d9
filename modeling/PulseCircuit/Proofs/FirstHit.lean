import PulseCircuit.Folding

/-!
# The first hit wins

Any number of candidates folded one after the other at a cell, with no early end (`Folding.foldAll`). What
was gathered first stays in front, and a pulse that is there is not lost. A candidate that comes to rest
changes the cell, and that change claims it: later candidates that would be folded as creation or destruction
do nothing there, so of all changes to the cell that are wanted only the first is gathered.

* `Candidate.rule?`, `Candidate.landing?`: the rule for a candidate, and the change with which it comes to
  rest at a cell that nothing claims;
* `filter_claims_fold`: what one candidate adds to the changes of the cell;
* `first_hit_wins`: what any number of them add.
-/

namespace PulseCircuit

namespace Folding

/-! ## Candidates -/

/-- A peak that arrives at a cell over a wire, with the source of the wire. -/
structure Candidate where
  peak : Peak
  source : Cell
  wire : Wire
deriving Repr

namespace Candidate

def hop (candidate : Candidate) (target : Cell) : Hop := ⟨candidate.source, target, candidate.wire⟩

/-- The rule by which a candidate is folded, if it carries anything over its wire. -/
def rule? (candidate : Candidate) : Option PulseKind :=
  match candidate.peak with
  | .success pulse _ false =>
    match pulse.kind, candidate.source.kind with
    | .raw, .creation => some .creation
    | .raw, .destruction => some .destruction
    | kind, _ => some kind
  | .success _ _ true | .fail _ => none

/-- The candidate is folded as a creation or a destruction pulse. -/
def Changes (candidate : Candidate) : Prop :=
  candidate.rule? = some .creation ∨ candidate.rule? = some .destruction

instance (candidate : Candidate) : Decidable candidate.Changes := inferInstanceAs (Decidable (_ ∨ _))

/-- The change with which a candidate comes to rest at a cell that nothing claims. -/
def landing? (target : Cell) (candidate : Candidate) : Option CellPatch :=
  match candidate.rule? with
  | some .creation =>
    if target.kind = .slot ∧ target.hasTag .justCreated = false then
      some (.ofTemplate ((candidate.peak.pulse?.bind Pulse.template?).getD (.fallback target.position)))
    else none
  | some .destruction => if target.kind.isDestroyable then some (.ofKind .slot) else none
  | some .raw | some .ping | none => none

end Candidate

/-- The peak after candidates are folded one after the other at a cell, none of them left out. -/
def foldAll (target : Cell) (start : Peak) (candidates : List Candidate) : Peak :=
  candidates.foldl (fun peak candidate => peak.fold candidate.peak (candidate.hop target)) start

/-- The changes of a cell that a peak asks for. -/
def changesOf (id : CellId) (peak : Peak) : List Operation := peak.operations.filter (Operation.claims id)

variable {target : Cell} {previous : Peak} {candidate : Candidate}

theorem foldAll_append (start : Peak) (earlier later : List Candidate) :
    foldAll target start (earlier ++ later) = foldAll target (foldAll target start earlier) later :=
  List.foldl_append

theorem claims_eq (id : CellId) (peak : Peak) : peak.claims id = !(changesOf id peak).isEmpty := by
  rw [Peak.claims, changesOf, Bool.eq_iff_iff]
  simp

theorem changesOf_eq_nil {id : CellId} (h : previous.claims id = false) : changesOf id previous = [] := by
  rw [claims_eq] at h
  simpa using h

theorem changesOf_ne_nil {id : CellId} (h : previous.claims id = true) : changesOf id previous ≠ [] := by
  rw [claims_eq] at h
  simpa using h

/-! ## One candidate -/

/-- The four rules, by what is folded. Nothing else is done to a peak. -/
theorem fold_cases (previous : Peak) (target : Cell) (candidate : Candidate) :
    (candidate.rule? = none ∧ previous.fold candidate.peak (candidate.hop target) = previous) ∨
    (candidate.rule? = some .raw ∧ previous.fold candidate.peak (candidate.hop target) =
      .success .raw (gather previous candidate.peak.operations) false) ∨
    (candidate.rule? = some .ping ∧ previous.fold candidate.peak (candidate.hop target) =
      ping previous candidate.peak.operations target) ∨
    (candidate.rule? = some .creation ∧ previous.fold candidate.peak (candidate.hop target) =
      creation previous (candidate.peak.pulse?.bind Pulse.template?) candidate.peak.operations target) ∨
    (candidate.rule? = some .destruction ∧ previous.fold candidate.peak (candidate.hop target) =
      destruction previous candidate.peak.operations target) := by
  obtain ⟨peak, source, wire⟩ := candidate
  rcases peak with operations | ⟨pulse, operations, halted⟩
  · exact Or.inl ⟨rfl, rfl⟩
  cases halted with
  | true => exact Or.inl ⟨rfl, Peak.fold_halted ..⟩
  | false =>
  cases pulse with
  | raw =>
    -- what becomes of a raw pulse is decided by its source
    cases hkind : source.kind with
    | creation =>
      refine Or.inr (Or.inr (Or.inr (Or.inl ⟨?_, ?_⟩)))
      · simp [Candidate.rule?, Pulse.kind, hkind]
      · simp [Peak.fold, raw, Candidate.hop, hkind, Peak.pulse?, Pulse.template?, Peak.operations]
    | destruction =>
      refine Or.inr (Or.inr (Or.inr (Or.inr ⟨?_, ?_⟩)))
      · simp [Candidate.rule?, Pulse.kind, hkind]
      · simp [Peak.fold, raw, Candidate.hop, hkind, Peak.operations]
    | slot | relay | recording | stopper =>
      refine Or.inr (Or.inl ⟨?_, ?_⟩)
      · simp [Candidate.rule?, Pulse.kind, hkind]
      · simp [Peak.fold, raw, Candidate.hop, hkind, Peak.operations]
  | creation template => exact Or.inr (Or.inr (Or.inr (Or.inl ⟨rfl, rfl⟩)))
  | destruction => exact Or.inr (Or.inr (Or.inr (Or.inr ⟨rfl, rfl⟩)))
  | ping => exact Or.inr (Or.inr (Or.inl ⟨rfl, rfl⟩))

/-- A candidate does nothing, or what it brings is gathered and something may land behind that. -/
theorem fold_eq_or_gathers (previous : Peak) (target : Cell) (candidate : Candidate) :
    previous.fold candidate.peak (candidate.hop target) = previous ∨
      ∃ pulse landed halted, previous.fold candidate.peak (candidate.hop target) =
        .success pulse (gather previous candidate.peak.operations ++ landed) halted := by
  rcases fold_cases previous target candidate with ⟨-, hfold⟩ | ⟨-, hfold⟩ | ⟨-, hfold⟩ | ⟨-, hfold⟩ | ⟨-, hfold⟩
  · exact Or.inl hfold
  · exact Or.inr ⟨_, [], _, by rw [hfold, List.append_nil]⟩
  · rw [hfold, ping]
    split
    · exact Or.inl rfl
    · exact Or.inr ⟨_, _, _, rfl⟩
  · rw [hfold, creation]
    split
    · exact Or.inl rfl
    · split
      · exact Or.inr ⟨_, _, _, rfl⟩
      · exact Or.inr ⟨_, [], _, by rw [List.append_nil]⟩
  · rw [hfold, destruction]
    split
    · exact Or.inl rfl
    · split
      · exact Or.inr ⟨_, _, _, rfl⟩
      · exact Or.inr ⟨_, [], _, by rw [List.append_nil]⟩

/-- What was gathered stays in front. -/
theorem prefix_fold (previous : Peak) (target : Cell) (candidate : Candidate) :
    previous.operations <+: (previous.fold candidate.peak (candidate.hop target)).operations := by
  rcases fold_eq_or_gathers previous target candidate with hfold | ⟨pulse, landed, halted, hfold⟩
  · rewrite [hfold]
    exact List.prefix_refl _
  · rewrite [hfold]
    exact (prefix_addAllNew ..).trans (List.prefix_append ..)

/-- A pulse that is there is not lost. -/
theorem isSuccess_fold (h : previous.isSuccess = true) (target : Cell) (candidate : Candidate) :
    (previous.fold candidate.peak (candidate.hop target)).isSuccess = true := by
  rcases fold_eq_or_gathers previous target candidate with hfold | ⟨pulse, landed, halted, hfold⟩
  · rw [hfold, h]
  · rw [hfold]
    rfl

/-- Candidates do nothing at a cell that is claimed, but for raw pulses that stay raw and pings. -/
theorem fold_of_claims (hclaims : previous.claims target.id = true) (hchanges : candidate.Changes) :
    previous.fold candidate.peak (candidate.hop target) = previous := by
  have hcases := fold_cases previous target candidate
  rcases hchanges with hrule | hrule
  · have hfold : previous.fold candidate.peak (candidate.hop target) =
        creation previous (candidate.peak.pulse?.bind Pulse.template?) candidate.peak.operations target := by
      simpa [hrule] using hcases
    rw [hfold, creation, hclaims, Bool.or_true, if_pos rfl]
  · have hfold : previous.fold candidate.peak (candidate.hop target) =
        destruction previous candidate.peak.operations target := by
      simpa [hrule] using hcases
    rw [hfold, destruction, if_pos hclaims]

/-- Operations that leave the cell alone are gathered without changing what is wanted of it. -/
theorem changesOf_gather {id : CellId} (previous : Peak) {operations : List Operation}
    (hfree : operations.any (Operation.claims id) = false) (pulse : Pulse) (landed : List Operation)
    (halted : Bool) :
    changesOf id (.success pulse (gather previous operations ++ landed) halted) =
      changesOf id previous ++ landed.filter (Operation.claims id) := by
  obtain ⟨added, hsub, hgather⟩ := exists_addAllNew_eq_append previous.operations operations
  have hnone : added.filter (Operation.claims id) = [] :=
    List.filter_eq_nil_iff.mpr fun operation hmem =>
      List.any_eq_false.mp hfree operation (hsub.subset hmem)
  rw [changesOf, Peak.operations, gather, hgather, List.filter_append, List.filter_append, hnone,
    List.append_nil, changesOf]

/-- What a candidate adds to the changes that are wanted of a cell: the one with which it comes to rest there,
unless the cell is claimed. -/
theorem changesOf_fold (previous : Peak) (hfree : candidate.peak.claims target.id = false) :
    changesOf target.id (previous.fold candidate.peak (candidate.hop target)) =
      changesOf target.id previous ++
        if previous.claims target.id then []
        else ((candidate.landing? target).map (Operation.modify target.id)).toList := by
  have hgather := changesOf_gather previous hfree
  -- the rules that land nothing add nothing behind what is gathered
  have hpass : ∀ pulse halted,
      changesOf target.id (.success pulse (gather previous candidate.peak.operations) halted) =
        changesOf target.id previous := by
    intro pulse halted
    simpa using hgather pulse [] halted
  rcases fold_cases previous target candidate with
    ⟨hrule, hfold⟩ | ⟨hrule, hfold⟩ | ⟨hrule, hfold⟩ | ⟨hrule, hfold⟩ | ⟨hrule, hfold⟩
  · simp [hfold, Candidate.landing?, hrule]
  · simp [hfold, Candidate.landing?, hrule, hpass]
  · rw [hfold, ping, Candidate.landing?, hrule]
    by_cases hkind : target.kind = .stopper
    · simp [hkind]
    · simp [hkind, hgather, Operation.claims]
  · rw [hfold, creation, Candidate.landing?, hrule]
    by_cases hclaims : previous.claims target.id = true
    · simp [hclaims]
    by_cases htag : target.hasTag .justCreated = true
    · simp [htag]
    by_cases hkind : target.kind = .slot
    · simp [hclaims, htag, hkind, hgather, Operation.claims]
    · simp [hclaims, htag, hkind, hpass]
  · rw [hfold, destruction, Candidate.landing?, hrule]
    by_cases hclaims : previous.claims target.id = true
    · simp [hclaims]
    by_cases hkind : target.kind.isDestroyable = true
    · simp [hclaims, hkind, hgather, Operation.claims]
    · simp [hclaims, hkind, hpass]

/-! ## Any number of candidates -/

theorem prefix_foldAll (target : Cell) (start : Peak) (candidates : List Candidate) :
    start.operations <+: (foldAll target start candidates).operations := by
  induction candidates generalizing start with
  | nil => exact List.prefix_refl _
  | cons candidate candidates ih => exact (prefix_fold start target candidate).trans (ih _)

theorem isSuccess_foldAll {start : Peak} (h : start.isSuccess = true) (target : Cell)
    (candidates : List Candidate) : (foldAll target start candidates).isSuccess = true := by
  induction candidates generalizing start with
  | nil => exact h
  | cons candidate candidates ih => exact ih (isSuccess_fold h target candidate)

/-- Candidates that ask for no changes of the cell themselves add the first landing to them, unless the cell is
claimed. -/
theorem changesOf_foldAll (start : Peak) {candidates : List Candidate}
    (hfree : ∀ candidate ∈ candidates, candidate.peak.claims target.id = false) :
    changesOf target.id (foldAll target start candidates) =
      changesOf target.id start ++
        if start.claims target.id then []
        else ((candidates.findSome? (·.landing? target)).map (Operation.modify target.id)).toList := by
  induction candidates generalizing start with
  | nil => simp [foldAll]
  | cons candidate candidates ih =>
    have hrest := ih (start.fold candidate.peak (candidate.hop target))
      fun other hother => hfree other (List.mem_cons_of_mem _ hother)
    have hfold := changesOf_fold start (hfree candidate List.mem_cons_self)
    show changesOf target.id (foldAll target (start.fold candidate.peak (candidate.hop target)) candidates) = _
    rw [hrest, claims_eq, hfold, List.findSome?_cons]
    cases hclaims : start.claims target.id with
    | true => simp [changesOf_ne_nil hclaims]
    | false =>
      rw [changesOf_eq_nil hclaims]
      cases hland : candidate.landing? target <;> simp

/-- A cell at which a candidate has come to rest is claimed. -/
theorem claims_foldAll (start : Peak) {candidates : List Candidate}
    (hfree : ∀ candidate ∈ candidates, candidate.peak.claims target.id = false)
    (hlanded : ∃ candidate ∈ candidates, (candidate.landing? target).isSome = true) :
    (foldAll target start candidates).claims target.id = true := by
  rw [claims_eq, changesOf_foldAll start hfree]
  cases hclaims : start.claims target.id with
  | true => simp [changesOf_ne_nil hclaims]
  | false =>
    obtain ⟨patch, hpatch⟩ := Option.isSome_iff_exists.mp (List.findSome?_isSome_iff.mpr hlanded)
    simp [hpatch]

/-- Folding keeps what was gathered first. If neither that nor the candidates change the cell, the only change
that is wanted of it afterwards is the one with which the first of them came to rest, and behind that one no
candidate that is folded as creation or destruction does anything. -/
theorem first_hit_wins (target : Cell) (start : Peak) (candidates : List Candidate) :
    start.operations <+: (foldAll target start candidates).operations ∧
    (start.isSuccess = true → (foldAll target start candidates).isSuccess = true) ∧
    (start.claims target.id = false → (∀ candidate ∈ candidates, candidate.peak.claims target.id = false) →
      changesOf target.id (foldAll target start candidates) =
        ((candidates.findSome? (·.landing? target)).map (Operation.modify target.id)).toList ∧
      ∀ earlier candidate later, candidates = earlier ++ candidate :: later →
        (∃ other ∈ earlier, (other.landing? target).isSome = true) → candidate.Changes →
        foldAll target start (earlier ++ [candidate]) = foldAll target start earlier) := by
  refine ⟨prefix_foldAll .., fun h => isSuccess_foldAll h .., fun hstart hfree => ⟨?_, ?_⟩⟩
  · rw [changesOf_foldAll start hfree, changesOf_eq_nil hstart, hstart]
    rfl
  · rintro earlier candidate later rfl hlanded hchanges
    have hclaims := claims_foldAll start (fun other hother => hfree other (List.mem_append_left _ hother)) hlanded
    rw [foldAll_append]
    exact fold_of_claims hclaims hchanges

/-- A slot far from the root. -/
def hole : Cell := .fresh ⟨2⟩ (some .root) .slot ⟨3, 4⟩

/-- A wire to it. -/
def entry : Wire := ⟨⟨-1⟩, ⟨1⟩, ⟨2⟩, .any, .now⟩

/-- A ping, a raw pulse from a creation cell, and behind these a creation pulse with a template, a destruction
pulse and a raw pulse from a destruction cell. -/
def arrivals : List Candidate :=
  [⟨.success .ping [.pong ⟨1⟩] false, .fresh ⟨1⟩ (some .root) .relay .origin, entry⟩,
    ⟨.success .raw [.tag ⟨5⟩ .justCreated] false, .fresh ⟨1⟩ (some .root) .creation .origin, entry⟩,
    ⟨.success (.creation (some ⟨.stopper, .origin⟩)) [] false, .fresh ⟨1⟩ (some .root) .stopper .origin, entry⟩,
    ⟨.success .destruction [] false, .fresh ⟨1⟩ (some .root) .relay .origin, entry⟩,
    ⟨.success .raw [] false, .fresh ⟨1⟩ (some .root) .destruction .origin, entry⟩]

/-- A raw pulse was there before them. -/
def earliest : Peak := .success .raw [.tag ⟨7⟩ .justCreated] false

theorem first_hit_wins_arrivals :
    (earliest.isSuccess = true ∧ earliest.claims hole.id = false ∧
      ∀ candidate ∈ arrivals, candidate.peak.claims hole.id = false) ∧
    (foldAll hole earliest arrivals).isSuccess = true ∧
    changesOf hole.id (foldAll hole earliest arrivals) = [.modify ⟨2⟩ (.ofKind .recording)] ∧
    foldAll hole earliest (arrivals.take 3) = foldAll hole earliest (arrivals.take 2) ∧
    foldAll hole earliest arrivals = foldAll hole earliest (arrivals.take 4) := by
  have hfree : ∀ candidate ∈ arrivals, candidate.peak.claims hole.id = false := by decide
  obtain ⟨-, hsuccess, hfirst⟩ := first_hit_wins hole earliest arrivals
  obtain ⟨hchanges, hlater⟩ := hfirst rfl hfree
  refine ⟨⟨rfl, rfl, hfree⟩, hsuccess rfl, hchanges, ?_, ?_⟩
  · exact hlater (arrivals.take 2) _ _ rfl (by decide) (by decide)
  · exact hlater (arrivals.take 4) _ _ rfl (by decide) (by decide)

end Folding

end PulseCircuit
