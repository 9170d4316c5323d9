import Mathlib.Data.List.Forall2
import PulseCircuit.Folding
import PulseCircuit.Proofs.Numeric

/-!
# Values that compare equal

Positions are compared as numbers are, so `==` is not equality on anything that holds a position: a position
need not equal itself, and `0.0` equals `-0.0`. It is symmetric and transitive everywhere though, and what a
pulse does at a cell depends on positions only up to `==`:

* `Matches`: to compare equal, with the instances that say that it goes both ways and can be chained;
* `float_beq_iff`: what numbers compare equal, which is where the instances start;
* `contains_congr`, `addAllNew_matches`: lists of values that compare equal;
* `Cell.Matching`: what equal cells have in common;
* `Peak.fold_matches`: equal peaks folded at equal cells give equal peaks.
-/

namespace PulseCircuit

/-- The two compare equal. They need not be the same, and a value need not compare equal to itself. -/
def Matches {α : Type} [BEq α] (a b : α) : Prop := (a == b) = true

instance {α : Type} [BEq α] (a b : α) : Decidable (Matches a b) := inferInstanceAs (Decidable (_ = _))

section Instances

variable {α β : Type} [BEq α] [BEq β]

theorem matches_iff_eq [LawfulBEq α] {a b : α} : Matches a b ↔ a = b := beq_iff_eq

/-- What is compared by something else is compared as well as that is. -/
theorem partialEquivBEq_of_map [PartialEquivBEq β] (f : α → β) (h : ∀ a b, (a == b) = (f a == f b)) :
    PartialEquivBEq α where
  symm := by
    intro a b hab
    rw [h] at hab ⊢
    exact BEq.symm hab
  trans := by
    intro a b c hab hbc
    rw [h] at hab hbc ⊢
    exact BEq.trans hab hbc

theorem matches_prod_iff {a a' : α} {b b' : β} : Matches (a, b) (a', b') ↔ Matches a a' ∧ Matches b b' :=
  Bool.and_eq_true_iff

instance partialEquivBEq_prod [PartialEquivBEq α] [PartialEquivBEq β] : PartialEquivBEq (α × β) where
  symm := by
    rintro ⟨a, b⟩ ⟨a', b'⟩ h
    have hboth := matches_prod_iff.mp h
    exact matches_prod_iff.mpr ⟨BEq.symm hboth.1, BEq.symm hboth.2⟩
  trans := by
    rintro ⟨a, b⟩ ⟨a', b'⟩ ⟨a'', b''⟩ h h'
    have hboth := matches_prod_iff.mp h
    have hboth' := matches_prod_iff.mp h'
    exact matches_prod_iff.mpr ⟨BEq.trans hboth.1 hboth'.1, BEq.trans hboth.2 hboth'.2⟩

theorem matches_option_iff {a b : Option α} : Matches a b ↔ Option.Rel Matches a b := by
  constructor
  · intro h
    rcases a with - | a <;> rcases b with - | b
    · exact .none
    · cases h
    · cases h
    · exact .some h
  · rintro (h | -)
    · exact h
    · rfl

instance partialEquivBEq_option [PartialEquivBEq α] : PartialEquivBEq (Option α) where
  symm := by
    intro a b h
    rcases matches_option_iff.mp h with hab | -
    · exact matches_option_iff.mpr (.some (BEq.symm hab))
    · rfl
  trans := by
    intro a b c h h'
    rcases matches_option_iff.mp h with hab | -
    · rcases matches_option_iff.mp h' with hbc | -
      exact matches_option_iff.mpr (.some (BEq.trans hab hbc))
    · exact h'

theorem matches_list_iff {xs ys : List α} : Matches xs ys ↔ List.Forall₂ Matches xs ys := by
  induction xs generalizing ys with
  | nil =>
    cases ys with
    | nil => exact iff_of_true rfl .nil
    | cons y ys => exact iff_of_false (by rintro ⟨⟩) (by rintro ⟨⟩)
  | cons x xs ih =>
    cases ys with
    | nil => exact iff_of_false (by rintro ⟨⟩) (by rintro ⟨⟩)
    | cons y ys =>
      rw [List.forall₂_cons, ← ih]
      exact Bool.and_eq_true_iff

end Instances

/-! ## Numbers -/

section Numbers

open Float.Model

/-- The two are the same number, where zeros of either sign are one. What is not a number is the same as nothing. -/
inductive SameNumber : UnpackedFloat → UnpackedFloat → Prop
  | infinity (sign : UnpackedFloat.Sign) : SameNumber (.infinity sign) (.infinity sign)
  | zero (sign sign' : UnpackedFloat.Sign) : SameNumber (.zero sign) (.zero sign')
  | finite (sign : UnpackedFloat.Sign) {mantissa : Nat} (exponent : Int) (hpos : 0 < mantissa) :
    SameNumber (.finite sign mantissa exponent hpos) (.finite sign mantissa exponent hpos)

/-- Finite numbers are compared by their exponents first and then by their mantissas. -/
theorem magnitude_eq_iff {mantissa mantissa' : Nat} {exponent exponent' : Int} :
    (compare exponent exponent').then (compare mantissa mantissa') = .eq ↔
      exponent = exponent' ∧ mantissa = mantissa' := by
  rw [Ordering.then_eq_eq, Std.compare_eq_iff_eq, Std.compare_eq_iff_eq]

theorem compare_eq_iff {x y : UnpackedFloat} : x.compare y = some .eq ↔ SameNumber x y := by
  constructor
  · intro h
    cases x with
    | notANumber => cases h
    | infinity sign =>
      cases y with
      | infinity sign' =>
        cases sign <;> cases sign'
        case negative.negative | positive.positive => exact .infinity _
        case negative.positive | positive.negative => cases h
      | notANumber | zero | finite => cases sign <;> cases h
    | zero sign =>
      cases y with
      | zero sign' => exact .zero sign sign'
      | notANumber => cases h
      | infinity sign' | finite sign' => cases sign' <;> cases h
    | finite sign mantissa exponent hpos =>
      cases y with
      | finite sign' mantissa' exponent' hpos' =>
        cases sign <;> cases sign'
        case negative.negative =>
          rcases magnitude_eq_iff.mp (Ordering.swap_eq_eq.mp (Option.some.inj h)) with ⟨rfl, rfl⟩
          exact .finite ..
        case positive.positive =>
          rcases magnitude_eq_iff.mp (Option.some.inj h) with ⟨rfl, rfl⟩
          exact .finite ..
        case negative.positive | positive.negative => cases h
      | notANumber | zero => cases sign <;> cases h
      | infinity sign' => cases sign <;> cases sign' <;> cases h
  · intro h
    cases h with
    | infinity sign => cases sign <;> rfl
    | zero sign sign' => cases sign <;> cases sign' <;> rfl
    | @finite sign mantissa exponent _ =>
      have hmagnitude := magnitude_eq_iff.mpr ⟨Eq.refl exponent, Eq.refl mantissa⟩
      cases sign with
      | positive => exact congrArg some hmagnitude
      | negative => exact congrArg some (Ordering.swap_eq_eq.mpr hmagnitude)

theorem float_beq_iff {x y : Float} : (x == y) = true ↔ SameNumber x.toModel.unpack y.toModel.unpack := by
  have hbeq : (x == y) = (x.toModel.unpack.compare y.toModel.unpack == some .eq) := rfl
  rw [hbeq, beq_iff_eq, compare_eq_iff]

theorem partialEquivBEq_float : PartialEquivBEq Float where
  symm := by
    intro x y h
    rw [float_beq_iff] at h ⊢
    generalize x.toModel.unpack = a, y.toModel.unpack = b at h
    cases h <;> constructor
  trans := by
    intro x y z h h'
    rw [float_beq_iff] at h h' ⊢
    generalize x.toModel.unpack = a, y.toModel.unpack = b, z.toModel.unpack = d at h h'
    cases h <;> cases h' <;> constructor

end Numbers

/-! ## What holds positions -/

instance : PartialEquivBEq Position :=
  have := partialEquivBEq_float
  partialEquivBEq_of_map (fun p => (p.x, p.y)) fun _ _ => rfl

instance : PartialEquivBEq Template :=
  partialEquivBEq_of_map (fun template => (template.kind, template.position)) fun _ _ => rfl

theorem Template.matches_iff {template other : Template} :
    Matches template other ↔ template.kind = other.kind ∧ Matches template.position other.position :=
  matches_prod_iff.trans (and_congr_left' matches_iff_eq)

/-- Pulses are compared by their kind and what they carry. -/
theorem Pulse.beq_eq (p q : Pulse) : (p == q) = ((p.kind, p.template?) == (q.kind, q.template?)) := by
  rcases p with - | (- | t) | - | - <;> rcases q with - | (- | u) | - | - <;> rfl

instance : PartialEquivBEq Pulse := partialEquivBEq_of_map (fun p => (p.kind, p.template?)) Pulse.beq_eq

theorem Pulse.matches_iff {p q : Pulse} : Matches p q ↔ p.kind = q.kind ∧ Matches p.template? q.template? := by
  rw [Matches, Pulse.beq_eq]
  exact matches_prod_iff.trans (and_congr_left' matches_iff_eq)

instance : PartialEquivBEq Fire :=
  partialEquivBEq_of_map (fun fire => (fire.red, fire.green, fire.blue)) fun _ _ => rfl

theorem Fire.matches_iff {fire other : Fire} :
    Matches fire other ↔ ∀ colour, Matches (fire.get colour) (other.get colour) := by
  have hparts : Matches fire other ↔
      Matches fire.red other.red ∧ Matches fire.green other.green ∧ Matches fire.blue other.blue :=
    matches_prod_iff.trans (and_congr_right' matches_prod_iff)
  rw [hparts]
  constructor
  · rintro ⟨hred, hgreen, hblue⟩ (- | - | -)
    · exact hred
    · exact hgreen
    · exact hblue
  · intro h
    exact ⟨h .red, h .green, h .blue⟩

instance : PartialEquivBEq CellPatch :=
  partialEquivBEq_of_map (fun patch => (patch.kind, patch.position, patch.parent)) fun _ _ => rfl

/-- Only operations that change a cell can compare equal without being the same. -/
theorem Operation.eq_or_modify_of_matches {operation other : Operation} (h : Matches operation other) :
    operation = other ∨ ∃ id fields fields', operation = .modify id fields ∧ other = .modify id fields' ∧
      Matches fields fields' := by
  cases operation with
  | modify id fields =>
    cases other with
    | modify id' fields' =>
      have hparts := Bool.and_eq_true_iff.mp h
      rcases matches_iff_eq.mp hparts.1
      exact .inr ⟨id, fields, fields', rfl, rfl, hparts.2⟩
    | modifyWire | tag | pong => cases h
  | modifyWire | tag | pong => cases other <;> simp_all [Matches, BEq.beq, instBEqOperation.beq]

theorem Operation.matches_modify_iff {id : CellId} {fields fields' : CellPatch} :
    Matches (Operation.modify id fields) (.modify id fields') ↔ Matches fields fields' := by
  have hparts : Matches (Operation.modify id fields) (.modify id fields') ↔
      Matches id id ∧ Matches fields fields' := Bool.and_eq_true_iff
  rw [hparts, and_iff_right (matches_iff_eq.mpr rfl)]

instance : PartialEquivBEq Operation where
  symm := by
    intro a b h
    rcases Operation.eq_or_modify_of_matches h with rfl | ⟨id, fields, fields', rfl, rfl, hfields⟩
    · exact h
    · exact Operation.matches_modify_iff.mpr (BEq.symm hfields)
  trans := by
    intro a b c h h'
    rcases Operation.eq_or_modify_of_matches h with rfl | ⟨id, fields, fields', rfl, rfl, hfields⟩
    · exact h'
    · rcases Operation.eq_or_modify_of_matches h' with rfl | ⟨id, _, fields'', hsame, rfl, hfields'⟩
      · exact h
      · cases hsame
        exact Operation.matches_modify_iff.mpr (BEq.trans hfields hfields')

theorem Operation.claims_congr {operation other : Operation} (h : Matches operation other) (id : CellId) :
    operation.claims id = other.claims id := by
  rcases Operation.eq_or_modify_of_matches h with rfl | ⟨_, fields, fields', rfl, rfl, -⟩
  · rfl
  · rfl

/-! ## Cells and rows -/

/-- What cells that compare equal have in common. -/
structure Cell.Matching (cell other : Cell) : Prop where
  id : other.id = cell.id
  parent : other.parent = cell.parent
  kind : other.kind = cell.kind
  position : Matches cell.position other.position
  children : other.children = cell.children
  inputs : other.inputs = cell.inputs
  outputs : other.outputs = cell.outputs
  fire : Matches cell.fire other.fire
  tags : other.tags = cell.tags

theorem Cell.matches_iff {cell other : Cell} : Matches cell other ↔ cell.Matching other := by
  have hbeq : (cell == other) = (cell.id == other.id && (cell.parent == other.parent &&
    (cell.kind == other.kind && (cell.position == other.position && (cell.children == other.children &&
      (cell.inputs == other.inputs && (cell.outputs == other.outputs &&
        (cell.fire == other.fire && cell.tags == other.tags)))))))) := rfl
  rw [Matches, hbeq]
  simp only [Bool.and_eq_true, beq_iff_eq]
  constructor
  · rintro ⟨hid, hparent, hkind, hposition, hchildren, hinputs, houtputs, hfire, htags⟩
    exact ⟨hid.symm, hparent.symm, hkind.symm, hposition, hchildren.symm, hinputs.symm, houtputs.symm, hfire,
      htags.symm⟩
  · rintro ⟨hid, hparent, hkind, hposition, hchildren, hinputs, houtputs, hfire, htags⟩
    exact ⟨hid.symm, hparent.symm, hkind.symm, hposition, hchildren.symm, hinputs.symm, houtputs.symm, hfire,
      htags.symm⟩

/-- Cells that compare equal still do once equal pulses are stored on them. -/
theorem Cell.Matching.store {cell other : Cell} (h : cell.Matching other) {fire fire' : Fire}
    (hfire : Matches fire fire') : Cell.Matching { cell with fire := fire } { other with fire := fire' } :=
  ⟨h.id, h.parent, h.kind, h.position, h.children, h.inputs, h.outputs, hfire, h.tags⟩

instance : PartialEquivBEq Cell :=
  partialEquivBEq_of_map (fun cell => (cell.id, cell.parent, cell.kind, cell.position, cell.children,
    cell.inputs, cell.outputs, cell.fire, cell.tags)) fun _ _ => rfl

def Row.cell? : Row → Option Cell
  | .cell c => some c
  | .wire _ => none

def Row.wire? : Row → Option Wire
  | .wire w => some w
  | .cell _ => none

theorem Row.beq_eq (row other : Row) :
    (row == other) = ((row.cell?, row.wire?) == (other.cell?, other.wire?)) := by
  rcases row with cell | wire <;> rcases other with cell' | wire'
  · exact (Bool.and_true _).symm
  · rfl
  · rfl
  · rfl

instance : PartialEquivBEq Row := partialEquivBEq_of_map (fun row => (row.cell?, row.wire?)) Row.beq_eq

/-! ## Lists -/

section Lists

variable {α : Type} [BEq α] [PartialEquivBEq α] {xs ys : List α} {x y : α}

theorem contains_congr (hlists : List.Forall₂ Matches xs ys) (h : Matches x y) :
    xs.contains x = ys.contains y := by
  induction hlists with
  | nil => rfl
  | @cons a b xs ys hab _ ih =>
    have hhead : (x == a) = (y == b) := (BEq.congr_left h).trans (BEq.congr_right hab)
    rw [List.contains_cons, List.contains_cons, hhead, ih]

theorem addNew_matches (hlists : List.Forall₂ Matches xs ys) (h : Matches x y) :
    List.Forall₂ Matches (addNew xs x) (addNew ys y) := by
  unfold addNew
  rw [contains_congr hlists h]
  split
  · exact hlists
  · exact List.rel_append hlists (.cons h .nil)

/-- Equal values are left out of equal lists. -/
theorem addAllNew_matches {us vs : List α} (hlists : List.Forall₂ Matches xs ys)
    (h : List.Forall₂ Matches us vs) : List.Forall₂ Matches (addAllNew xs us) (addAllNew ys vs) :=
  List.rel_foldl (P := List.Forall₂ Matches) (R := Matches)
    (fun _ _ hlists _ _ h => addNew_matches hlists h) hlists h

end Lists

/-! ## Peaks -/

namespace Peak

variable {peak other previous previous' next next' : Peak} {operations operations' : List Operation}

theorem matches_fail_iff : Matches (fail operations) (fail operations') ↔ Matches operations operations' :=
  Iff.rfl

theorem matches_success_iff {pulse pulse' : Pulse} {halted halted' : Bool} :
    Matches (success pulse operations halted) (success pulse' operations' halted') ↔
      Matches pulse pulse' ∧ Matches operations operations' ∧ halted = halted' :=
  matches_prod_iff.trans (and_congr_right' (matches_prod_iff.trans (and_congr_right' matches_iff_eq)))

theorem ofPulse?_matches {pulse pulse' : Option Pulse} (h : Matches pulse pulse') :
    Matches (ofPulse? pulse []) (ofPulse? pulse' []) := by
  rcases matches_option_iff.mp h with hsome | -
  · exact matches_success_iff.mpr ⟨hsome, rfl, rfl⟩
  · rfl

theorem operations_matches (h : Matches peak other) :
    List.Forall₂ Matches peak.operations other.operations := by
  cases peak with
  | fail =>
    cases other with
    | fail => exact matches_list_iff.mp (matches_fail_iff.mp h)
    | success => cases h
  | success =>
    cases other with
    | fail => cases h
    | success => exact matches_list_iff.mp (matches_success_iff.mp h).2.1

theorem claims_congr (h : Matches peak other) (id : CellId) : other.claims id = peak.claims id := by
  have hoperations := operations_matches h
  unfold claims
  generalize peak.operations = operations, other.operations = operations' at hoperations
  induction hoperations with
  | nil => rfl
  | cons hfirst _ ih => rw [List.any_cons, List.any_cons, Operation.claims_congr hfirst, ih]

theorem isFinal_congr (h : Matches peak other) : other.isFinal = peak.isFinal := by
  cases peak with
  | fail =>
    cases other with
    | fail => rfl
    | success => cases h
  | success =>
    cases other with
    | fail => cases h
    | success =>
      rcases matches_success_iff.mp h with ⟨hpulse, -, rfl⟩
      rw [isFinal, isFinal, (Pulse.matches_iff.mp hpulse).1]

end Peak

/-! ## Folds -/

theorem CellPatch.ofKind_matches (kind : CellKind) : Matches (CellPatch.ofKind kind) (.ofKind kind) :=
  Bool.and_eq_true_iff.mpr ⟨beq_self_eq_true (some kind), rfl⟩

namespace Folding

variable {previous previous' : Peak} {operations operations' : List Operation} {target target' : Cell}

theorem gather_matches (hprevious : Matches previous previous')
    (h : List.Forall₂ Matches operations operations') :
    List.Forall₂ Matches (gather previous operations) (gather previous' operations') :=
  addAllNew_matches (Peak.operations_matches hprevious) h

/-- Positions only get into the templates of creation pulses. -/
theorem creation_matches {template template' : Option Template} (hprevious : Matches previous previous')
    (htemplate : Matches template template') (h : List.Forall₂ Matches operations operations')
    (htarget : target.Matching target') :
    Matches (creation previous template operations target)
      (creation previous' template' operations' target') := by
  have htag : target'.hasTag .justCreated = target.hasTag .justCreated := by
    rw [Cell.hasTag, htarget.tags, Cell.hasTag]
  have hgathered := gather_matches hprevious h
  have hcarries : ∀ {t t' : Option Template}, Matches t t' → Matches (Pulse.creation t) (.creation t') :=
    fun ht => Pulse.matches_iff.mpr ⟨rfl, ht⟩
  unfold creation
  rw [htag, htarget.id, htarget.kind, Peak.claims_congr hprevious]
  split_ifs
  · exact hprevious
  · have hlanded : Matches (template.getD (.fallback target.position))
        (template'.getD (.fallback target'.position)) := by
      rcases matches_option_iff.mp htemplate with hsome | -
      · exact hsome
      · exact Template.matches_iff.mpr ⟨rfl, htarget.position⟩
    have hkind : (template'.getD (.fallback target'.position)).kind =
        (template.getD (.fallback target.position)).kind :=
      (Template.matches_iff.mp hlanded).1.symm
    have hmodify : Matches
        (Operation.modify target.id (.ofTemplate (template.getD (.fallback target.position))))
        (.modify target.id (.ofTemplate (template'.getD (.fallback target'.position)))) := by
      rw [CellPatch.ofTemplate, CellPatch.ofTemplate, hkind]
      exact Operation.matches_modify_iff.mpr (CellPatch.ofKind_matches _)
    have htagged : Matches (Operation.tag target.id .justCreated) (.tag target.id .justCreated) :=
      Bool.and_eq_true_iff.mpr ⟨beq_self_eq_true target.id, rfl⟩
    exact Peak.matches_success_iff.mpr ⟨hcarries (matches_option_iff.mpr (.some hlanded)),
      matches_list_iff.mpr (List.rel_append hgathered (.cons hmodify (.cons htagged .nil))), rfl⟩
  · have htaken : Matches target.template target'.template :=
      Template.matches_iff.mpr ⟨htarget.kind.symm, htarget.position⟩
    exact Peak.matches_success_iff.mpr ⟨hcarries (matches_option_iff.mpr (.some htaken)),
      matches_list_iff.mpr hgathered, rfl⟩
  · exact Peak.matches_success_iff.mpr ⟨hcarries htemplate, matches_list_iff.mpr hgathered, rfl⟩

theorem destruction_matches (hprevious : Matches previous previous')
    (h : List.Forall₂ Matches operations operations') (htarget : target.Matching target') :
    Matches (destruction previous operations target) (destruction previous' operations' target') := by
  have hgathered := gather_matches hprevious h
  unfold destruction
  rw [htarget.id, htarget.kind, Peak.claims_congr hprevious]
  split_ifs
  · exact hprevious
  · have hmodify : Matches (Operation.modify target.id (.ofKind .slot)) (.modify target.id (.ofKind .slot)) :=
      Operation.matches_modify_iff.mpr (CellPatch.ofKind_matches .slot)
    exact Peak.matches_success_iff.mpr ⟨rfl,
      matches_list_iff.mpr (List.rel_append hgathered (.cons hmodify .nil)), rfl⟩
  · exact Peak.matches_success_iff.mpr ⟨rfl, matches_list_iff.mpr hgathered, rfl⟩

theorem ping_matches (hprevious : Matches previous previous')
    (h : List.Forall₂ Matches operations operations') (htarget : target.Matching target') :
    Matches (ping previous operations target) (ping previous' operations' target') := by
  have hgathered := gather_matches hprevious h
  have hpong : Matches (Operation.pong target.id) (.pong target.id) := beq_self_eq_true target.id
  unfold ping
  rw [htarget.id, htarget.kind]
  split_ifs
  · exact hprevious
  · exact Peak.matches_success_iff.mpr ⟨rfl,
      matches_list_iff.mpr (List.rel_append hgathered (.cons hpong .nil)), rfl⟩

end Folding

/-- Equal peaks that come between equal cells are folded to equal peaks, whatever wire they come over. -/
theorem Peak.fold_matches {previous previous' next next' : Peak} {source source' target target' : Cell}
    (hprevious : Matches previous previous') (hnext : Matches next next') (hsource : source.Matching source')
    (htarget : target.Matching target') (wire wire' : Wire) :
    Matches (previous.fold next ⟨source, target, wire⟩) (previous'.fold next' ⟨source', target', wire'⟩) := by
  cases next with
  | fail operations =>
    cases next' with
    | fail operations' => exact hprevious
    | success => cases hnext
  | success pulse operations halted =>
    cases next' with
    | fail => cases hnext
    | success pulse' operations' halted' =>
      rcases Peak.matches_success_iff.mp hnext with ⟨hpulse, hlists, rfl⟩
      have hoperations := matches_list_iff.mp hlists
      have hkind := (Pulse.matches_iff.mp hpulse).1
      cases halted with
      | true =>
        rw [Peak.fold_halted, Peak.fold_halted]
        exact hprevious
      | false =>
        cases pulse with
        | raw =>
          cases pulse' with
          | raw =>
            have hraw : Matches (Folding.raw previous operations ⟨source, target, wire⟩)
                (Folding.raw previous' operations' ⟨source', target', wire'⟩) := by
              unfold Folding.raw
              dsimp only
              rw [hsource.kind]
              split
              · exact Folding.creation_matches hprevious rfl hoperations htarget
              · exact Folding.destruction_matches hprevious hoperations htarget
              · exact Peak.matches_success_iff.mpr
                  ⟨rfl, matches_list_iff.mpr (Folding.gather_matches hprevious hoperations), rfl⟩
            exact hraw
          | creation | destruction | ping => cases hkind
        | creation template =>
          cases pulse' with
          | creation template' =>
            exact Folding.creation_matches hprevious (Pulse.matches_iff.mp hpulse).2 hoperations htarget
          | raw | destruction | ping => cases hkind
        | destruction =>
          cases pulse' with
          | destruction => exact Folding.destruction_matches hprevious hoperations htarget
          | raw | creation | ping => cases hkind
        | ping =>
          cases pulse' with
          | ping => exact Folding.ping_matches hprevious hoperations htarget
          | raw | creation | destruction => cases hkind

end PulseCircuit
