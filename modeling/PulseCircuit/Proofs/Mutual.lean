import Mathlib.Logic.Function.Basic
import Mathlib.Logic.Relation
import Mathlib.Data.List.Nodup

/-!
# Links kept at both ends

A circuit keeps each link twice: a cell lists its children and every child names its parent, a cell
lists the wires that start at it and every wire names its source. `Mutual` says that the two agree.
It is stated for any two look-ups, since children, outputs and inputs are the same thing three
times.

* `Mutual.attach`, `Mutual.detach`: adding and taking out one link on both sides;
* `Mutual.drop`: taking out many places and items at once;
* `Climbs`: following the pointers upwards ends at the top, and `Climbs.acyclic`: so it meets no place twice;
* `Tree.acyclic`, `Tree.apart`: what lies below what in a tree;
* `Tree.graft`, `Tree.move`, `Tree.prune`: what an edit of the cells does to their tree.
-/

namespace PulseCircuit

/-! ## Lists and pointers -/

/-- The lists and the pointers say the same: an item is listed at a place exactly when it points
there, and no list has an item twice. -/
structure Mutual {α β : Type} (listed : α → Option (List β)) (target : β → Option α) : Prop where
  mem_iff : ∀ {a b}, (∃ bs, listed a = some bs ∧ b ∈ bs) ↔ target b = some a
  nodup : ∀ {a bs}, listed a = some bs → bs.Nodup

namespace Mutual

variable {α β : Type} {listed : α → Option (List β)} {target : β → Option α}

theorem mem_of_target (h : Mutual listed target) {a : α} {b : β} {bs : List β}
    (ha : listed a = some bs) (hb : target b = some a) : b ∈ bs := by
  obtain ⟨cs, hcs, hmem⟩ := h.mem_iff.mpr hb
  rw [ha] at hcs
  cases hcs
  exact hmem

theorem target_of_mem (h : Mutual listed target) {a : α} {b : β} {bs : List β}
    (ha : listed a = some bs) (hb : b ∈ bs) : target b = some a :=
  h.mem_iff.mp ⟨bs, ha, hb⟩

/-- Whatever is pointed at is a place. -/
theorem listed_of_target (h : Mutual listed target) {a : α} {b : β} (hb : target b = some a) :
    ∃ bs, listed a = some bs := by
  obtain ⟨bs, hbs, -⟩ := h.mem_iff.mpr hb
  exact ⟨bs, hbs⟩

/-- Taking out an item leaves the lists of other places as they are. -/
theorem filter_eq_self [DecidableEq β] (h : Mutual listed target) {a : α} {b : β} {bs : List β}
    (ha : listed a = some bs) (hb : target b ≠ some a) : bs.filter (· ≠ b) = bs := by
  refine List.filter_eq_self.mpr fun x hx => decide_eq_true ?_
  rintro rfl
  exact hb (h.target_of_mem ha hx)

/-- Once all the items of a place are gone, and nothing else was turned to it, it lists nothing. -/
theorem eq_nil_of_gone {listed' : α → Option (List β)} {target' : β → Option α}
    (h : Mutual listed target) (h' : Mutual listed' target') {gone : β → Prop} [DecidablePred gone]
    (hgone : ∀ b, target' b = if gone b then none else target b) {a : α} {bs bs' : List β}
    (ha : listed a = some bs) (hall : ∀ b ∈ bs, gone b) (ha' : listed' a = some bs') : bs' = [] := by
  rw [List.eq_nil_iff_forall_not_mem]
  intro b hb
  have hleft := h'.target_of_mem ha' hb
  rw [hgone] at hleft
  split at hleft
  next => cases hleft
  next hkept => exact hkept (hall b (h.mem_of_target ha hleft))

/-- A new place with an empty list. -/
theorem add [DecidableEq α] (h : Mutual listed target) {a : α} (ha : listed a = none) :
    Mutual (Function.update listed a (some [])) target where
  mem_iff := by
    intro x b
    by_cases hx : x = a
    · subst hx
      -- an item that points at `x` would make it a place already
      have hb : target b ≠ some x := by
        intro htarget
        obtain ⟨bs, hbs⟩ := h.listed_of_target htarget
        rw [ha] at hbs
        cases hbs
      simp [hb]
    · rw [Function.update_of_ne hx]
      exact h.mem_iff
  nodup := by
    intro x bs hbs
    by_cases hx : x = a
    · subst hx
      rw [Function.update_self] at hbs
      cases hbs
      exact List.nodup_nil
    · rw [Function.update_of_ne hx] at hbs
      exact h.nodup hbs

/-- An item that pointed nowhere is put last at a place. -/
theorem attach [DecidableEq α] [DecidableEq β] (h : Mutual listed target) {a : α} {b : β}
    {bs : List β} (hb : target b = none) (ha : listed a = some bs) :
    Mutual (Function.update listed a (some (bs ++ [b]))) (Function.update target b (some a)) where
  mem_iff := by
    intro x y
    by_cases hy : y = b
    · subst hy
      rw [Function.update_self]
      by_cases hx : x = a
      · subst hx
        simp
      · -- the new item is listed nowhere else, since it pointed nowhere
        rw [Function.update_of_ne hx, h.mem_iff, hb]
        simp [Ne.symm hx]
    · rw [Function.update_of_ne hy, ← h.mem_iff]
      by_cases hx : x = a
      · subst hx
        simp [ha, hy]
      · rw [Function.update_of_ne hx]
  nodup := by
    intro x ys hys
    by_cases hx : x = a
    · subst hx
      rw [Function.update_self] at hys
      cases hys
      have hnot : b ∉ bs := by
        intro hmem
        have htarget := h.target_of_mem ha hmem
        rw [hb] at htarget
        cases htarget
      refine List.Nodup.append (h.nodup ha) (List.nodup_singleton b) ?_
      simpa using hnot
    · rw [Function.update_of_ne hx] at hys
      exact h.nodup hys

/-- An item is taken out of the list it is in and points nowhere. -/
theorem detach [DecidableEq α] [DecidableEq β] (h : Mutual listed target) {a : α} {b : β}
    {bs : List β} (hb : target b = some a) (ha : listed a = some bs) :
    Mutual (Function.update listed a (some (bs.filter (· ≠ b))))
      (Function.update target b none) where
  mem_iff := by
    intro x y
    by_cases hy : y = b
    · subst hy
      rw [Function.update_self]
      by_cases hx : x = a
      · subst hx
        simp
      · -- the item was in one list only, so the others never had it
        rw [Function.update_of_ne hx, h.mem_iff, hb]
        simp [Ne.symm hx]
    · rw [Function.update_of_ne hy, ← h.mem_iff]
      by_cases hx : x = a
      · subst hx
        simp [ha, hy]
      · rw [Function.update_of_ne hx]
  nodup := by
    intro x ys hys
    by_cases hx : x = a
    · subst hx
      rw [Function.update_self] at hys
      cases hys
      exact (h.nodup ha).filter _
    · rw [Function.update_of_ne hx] at hys
      exact h.nodup hys

/-- An item goes from one place to the end of the list of another. -/
theorem move [DecidableEq α] [DecidableEq β] (h : Mutual listed target) {a a' : α} {b : β}
    {bs cs : List β} (hb : target b = some a) (ha : listed a = some bs) (ha' : listed a' = some cs)
    (hne : a ≠ a') :
    Mutual
      (Function.update (Function.update listed a (some (bs.filter (· ≠ b)))) a'
        (some (cs ++ [b])))
      (Function.update target b (some a')) := by
  -- in between the item points nowhere, which is what `attach` asks for
  have hback := (h.detach hb ha).attach (Function.update_self ..)
    (by rw [Function.update_of_ne (Ne.symm hne)]; exact ha')
  rwa [Function.update_idem] at hback

/-- Places and items are dropped, an item exactly when the place it points at is. -/
theorem drop (h : Mutual listed target) (goneAt : α → Prop) (gone : β → Prop)
    [DecidablePred goneAt] [DecidablePred gone]
    (hgone : ∀ a b, target b = some a → (goneAt a ↔ gone b)) :
    Mutual (fun a => if goneAt a then none else listed a)
      (fun b => if gone b then none else target b) where
  mem_iff := by
    intro a b
    by_cases htarget : target b = some a
    · -- the two ends of a link go together or stay together
      have hiff := hgone a b htarget
      by_cases hb : gone b
      · simp [hb, hiff.mpr hb]
      · simp only [hb, mt hiff.mp hb, if_false]
        exact h.mem_iff
    · constructor
      · rintro ⟨bs, hbs, hmem⟩
        by_cases ha : goneAt a
        · simp [ha] at hbs
        · rw [if_neg ha] at hbs
          exact absurd (h.target_of_mem hbs hmem) htarget
      · intro hb
        by_cases hg : gone b
        · simp [hg] at hb
        · rw [if_neg hg] at hb
          exact absurd hb htarget
  nodup := by
    intro a bs hbs
    by_cases ha : goneAt a
    · simp [ha] at hbs
    · rw [if_neg ha] at hbs
      exact h.nodup hbs

end Mutual

/-! ## Climbing -/

/-- Following `up` from a place leads to the top. -/
def Climbs {α : Type} (up : α → Option α) (top a : α) : Prop :=
  Relation.ReflTransGen (fun x y => up x = some y) a top

namespace Climbs

variable {α : Type} {up : α → Option α} {top : α}

theorem step {a b : α} (hup : up a = some b) (h : Climbs up top b) : Climbs up top a :=
  Relation.ReflTransGen.head hup h

/-- Pointers may be added where there were none. -/
theorem mono {up' : α → Option α} (hle : ∀ a b, up a = some b → up' a = some b) {a : α}
    (h : Climbs up top a) : Climbs up' top a :=
  Relation.ReflTransGen.mono hle _ _ h

/-- A place that does not lie below `a` climbs without the pointer of `a`. -/
theorem of_not_below {up' : α → Option α} {a : α} (hsame : ∀ x, x ≠ a → up' x = up x) {x : α}
    (h : Climbs up top x) (hnot : ¬ Climbs up a x) : Climbs up' top x := by
  induction h using Relation.ReflTransGen.head_induction_on with
  | refl => exact Relation.ReflTransGen.refl
  | @head x y hxy _ ih =>
    have hxa : x ≠ a := by
      rintro rfl
      exact hnot Relation.ReflTransGen.refl
    -- the path of `x` never comes to `a`, so it is still there
    have hy : ¬ Climbs up a y := fun hy => hnot (hy.step hxy)
    exact (ih hy).step (by rw [hsame x hxa]; exact hxy)

/-- The way up to a place that lies below `a` ends before the pointer of `a`. -/
theorem of_below {up' : α → Option α} {a : α} (hacyclic : ¬ Relation.TransGen (fun x y => up x = some y) a a)
    (hsame : ∀ x, x ≠ a → up' x = up x) {x y : α} (hx : Climbs up a x) (h : Climbs up x y) :
    Climbs up' x y := by
  induction h using Relation.ReflTransGen.head_induction_on with
  | refl => exact Relation.ReflTransGen.refl
  | @head y z hyz hz ih =>
    have hya : y ≠ a := by
      rintro rfl
      exact hacyclic (.head' hyz (Relation.ReflTransGen.trans hz hx))
    exact ih.step (by rw [hsame y hya]; exact hyz)

/-- If `a` lies on no cycle with its pointer moved either, then below it everything lies as before. -/
theorem below_iff {up' : α → Option α} {a : α} (hacyclic : ¬ Relation.TransGen (fun x y => up x = some y) a a)
    (hacyclic' : ¬ Relation.TransGen (fun x y => up' x = some y) a a) (hsame : ∀ x, x ≠ a → up' x = up x)
    {x y : α} (hx : Climbs up a x) : Climbs up' x y ↔ Climbs up x y := by
  have hx' : Climbs up' a x := of_below hacyclic hsame Relation.ReflTransGen.refl hx
  exact ⟨of_below hacyclic' (fun z hz => (hsame z hz).symm) hx', of_below hacyclic hsame hx⟩

/-- Everything still climbs to the top after `a` is moved to a place that does not lie below it. -/
theorem move {up' : α → Option α} {a b : α} (hsame : ∀ x, x ≠ a → up' x = up x)
    (ha : up' a = some b) (hb : Climbs up top b) (hnot : ¬ Climbs up a b) {x : α}
    (h : Climbs up top x) : Climbs up' top x := by
  have hnew : Climbs up' top a := (hb.of_not_below hsame hnot).step ha
  induction h using Relation.ReflTransGen.head_induction_on with
  | refl => exact Relation.ReflTransGen.refl
  | @head x y hxy _ ih =>
    by_cases hx : x = a
    · -- from `a` on, the path is the one of its new place
      rw [hx]
      exact hnew
    · exact ih.step (by rw [hsame x hx]; exact hxy)

/-- What is left climbs on when everything below a dropped place is dropped too. -/
theorem of_kept {up' : α → Option α} {gone : α → Prop}
    (hsame : ∀ x, ¬ gone x → up' x = up x) (hdown : ∀ x y, up x = some y → gone y → gone x)
    {x : α} (h : Climbs up top x) (hx : ¬ gone x) : Climbs up' top x := by
  induction h using Relation.ReflTransGen.head_induction_on with
  | refl => exact Relation.ReflTransGen.refl
  | @head x y hxy _ ih =>
    -- the path of what stays leads only over what stays
    have hy : ¬ gone y := fun hy => hx (hdown x y hxy hy)
    exact (ih hy).step (by rw [hsame x hx]; exact hxy)

/-- Where the top points nowhere, what climbs to it is on no cycle. -/
theorem acyclic (htop : up top = none) {a : α} (h : Climbs up top a) :
    ¬ Relation.TransGen (fun x y => up x = some y) a a := by
  intro hcycle
  -- the cycle can be pushed up along the climb, and at the top there is none
  induction h using Relation.ReflTransGen.head_induction_on with
  | refl =>
    obtain ⟨y, hy, -⟩ := Relation.TransGen.head'_iff.mp hcycle
    rw [htop] at hy
    cases hy
  | @head x y hxy _ ih =>
    obtain ⟨z, hxz, hback⟩ := Relation.TransGen.head'_iff.mp hcycle
    rw [hxy] at hxz
    cases hxz
    exact ih (Relation.TransGen.tail' hback hxy)

end Climbs

/-! ## Trees -/

/-- Children and parents agree, only the top has no parent, and everything climbs to the top. -/
structure Tree {α : Type} (top : α) (children : α → Option (List α)) (parent : α → Option α) :
    Prop where
  links : Mutual children parent
  top_mem : ∃ bs, children top = some bs
  parent_eq_none_iff : ∀ {a bs}, children a = some bs → (parent a = none ↔ a = top)
  climbs : ∀ {a bs}, children a = some bs → Climbs parent top a

namespace Tree

variable {α : Type} [DecidableEq α] {top : α} {children : α → Option (List α)}
  {parent : α → Option α}

omit [DecidableEq α] in
theorem parent_top (h : Tree top children parent) : parent top = none := by
  obtain ⟨bs, hbs⟩ := h.top_mem
  exact (h.parent_eq_none_iff hbs).mpr rfl

omit [DecidableEq α] in
/-- No place lies strictly below itself. -/
theorem acyclic (h : Tree top children parent) (a : α) :
    ¬ Relation.TransGen (fun x y => parent x = some y) a a := by
  intro hcycle
  -- a place on a cycle is pointed at, so it climbs to the top
  obtain ⟨x, -, hxa⟩ := Relation.TransGen.tail'_iff.mp hcycle
  obtain ⟨bs, hbs⟩ := h.links.listed_of_target hxa
  exact (h.climbs hbs).acyclic h.parent_top hcycle

omit [DecidableEq α] in
/-- Nothing lies below two places that hang below one. -/
theorem apart (h : Tree top children parent) {a b p : α} (ha : parent a = some p)
    (hb : parent b = some p) (hne : a ≠ b) {x : α} (hxa : Climbs parent a x) :
    ¬ Climbs parent b x := by
  intro hxb
  have hunique : Relator.RightUnique fun x y => parent x = some y := by
    intro x y z hxy hxz
    rw [hxy] at hxz
    exact Option.some.inj hxz
  -- of two places on one way up one lies below the other, and so below its own parent
  rcases Relation.ReflTransGen.total_of_right_unique hunique hxa hxb with hab | hba
  · rcases Relation.ReflTransGen.cases_head hab with heq | ⟨y, hay, hyb⟩
    · exact hne heq
    · rw [ha] at hay
      cases hay
      exact h.acyclic b (.head' hb hyb)
  · rcases Relation.ReflTransGen.cases_head hba with heq | ⟨y, hby, hya⟩
    · exact hne heq.symm
    · rw [hb] at hby
      cases hby
      exact h.acyclic a (.head' ha hya)

/-- A new leaf below `p`. -/
theorem graft (h : Tree top children parent) {a p : α} {bs : List α} (ha : children a = none)
    (hup : parent a = none) (hp : children p = some bs) :
    Tree top (Function.update (Function.update children a (some [])) p (some (bs ++ [a])))
      (Function.update parent a (some p)) := by
  have hne : p ≠ a := by
    rintro rfl
    rw [ha] at hp
    cases hp
  -- the leaf pointed nowhere before, so every old path avoids it
  have hclimb : ∀ {x}, Climbs parent top x → Climbs (Function.update parent a (some p)) top x := by
    intro x hx
    refine hx.mono fun y z hyz => ?_
    have hya : y ≠ a := by
      rintro rfl
      rw [hup] at hyz
      cases hyz
    rw [Function.update_of_ne hya]
    exact hyz
  -- what is a place now is the leaf or was one before
  have hold : ∀ {x xs}, x ≠ a →
      Function.update (Function.update children a (some [])) p (some (bs ++ [a])) x = some xs →
      ∃ ys, children x = some ys := by
    intro x xs hxa hxs
    by_cases hxp : x = p
    · exact ⟨bs, hxp ▸ hp⟩
    · rw [Function.update_of_ne hxp, Function.update_of_ne hxa] at hxs
      exact ⟨xs, hxs⟩
  have hta : top ≠ a := by
    rintro rfl
    obtain ⟨xs, hxs⟩ := h.top_mem
    rw [ha] at hxs
    cases hxs
  refine ⟨?_, ?_, ?_, ?_⟩
  · refine (h.links.add ha).attach hup ?_
    rw [Function.update_of_ne hne]
    exact hp
  · obtain ⟨xs, hxs⟩ := h.top_mem
    by_cases htp : top = p
    · exact ⟨bs ++ [a], by rw [htp, Function.update_self]⟩
    · exact ⟨xs, by rw [Function.update_of_ne htp, Function.update_of_ne hta, hxs]⟩
  · intro x xs hxs
    by_cases hxa : x = a
    · subst hxa
      simp [Ne.symm hta]
    · obtain ⟨ys, hys⟩ := hold hxa hxs
      rw [Function.update_of_ne hxa]
      exact h.parent_eq_none_iff hys
  · intro x xs hxs
    by_cases hxa : x = a
    · subst hxa
      exact (hclimb (h.climbs hp)).step (Function.update_self ..)
    · obtain ⟨ys, hys⟩ := hold hxa hxs
      exact hclimb (h.climbs hys)

/-- A place with all that lies below it comes to hang below `q`, which is not one of them. -/
theorem move (h : Tree top children parent) {a p q : α} {bs cs : List α}
    (hup : parent a = some p) (hp : children p = some bs) (hq : children q = some cs)
    (hpq : p ≠ q) (hnot : ¬ Climbs parent a q) :
    Tree top
      (Function.update (Function.update children p (some (bs.filter (· ≠ a)))) q
        (some (cs ++ [a])))
      (Function.update parent a (some q)) := by
  -- the lists change, but no place comes or goes
  have hlive : ∀ {x xs},
      Function.update (Function.update children p (some (bs.filter (· ≠ a)))) q
        (some (cs ++ [a])) x = some xs → ∃ ys, children x = some ys := by
    intro x xs hxs
    by_cases hxq : x = q
    · exact ⟨cs, hxq ▸ hq⟩
    · rw [Function.update_of_ne hxq] at hxs
      by_cases hxp : x = p
      · exact ⟨bs, hxp ▸ hp⟩
      · rw [Function.update_of_ne hxp] at hxs
        exact ⟨xs, hxs⟩
  have hta : top ≠ a := by
    rintro rfl
    rw [h.parent_top] at hup
    cases hup
  refine ⟨?_, ?_, ?_, ?_⟩
  · exact h.links.move hup hp hq hpq
  · obtain ⟨xs, hxs⟩ := h.top_mem
    by_cases htq : top = q
    · exact ⟨cs ++ [a], by rw [htq, Function.update_self]⟩
    · by_cases htp : top = p
      · exact ⟨bs.filter (· ≠ a), by rw [Function.update_of_ne htq, htp, Function.update_self]⟩
      · exact ⟨xs, by rw [Function.update_of_ne htq, Function.update_of_ne htp, hxs]⟩
  · intro x xs hxs
    obtain ⟨ys, hys⟩ := hlive hxs
    by_cases hxa : x = a
    · subst hxa
      simp [Ne.symm hta]
    · rw [Function.update_of_ne hxa]
      exact h.parent_eq_none_iff hys
  · intro x xs hxs
    obtain ⟨ys, hys⟩ := hlive hxs
    exact Climbs.move (fun y hy => Function.update_of_ne hy ..) (Function.update_self ..)
      (h.climbs hq) hnot (h.climbs hys)

/-- A place is cut off its parent `p` and dropped with all that lies below it. -/
theorem prune (h : Tree top children parent) {a p : α} {bs : List α} (gone : α → Prop)
    [DecidablePred gone] (hup : parent a = some p) (hp : children p = some bs)
    (hdown : ∀ x y, parent x = some y → gone y → gone x)
    (hgone : ∀ x y, parent x = some y → gone x → x = a ∨ gone y) (ha : gone a)
    (htop : ¬ gone top) :
    Tree top
      (fun x => if gone x then none else
        Function.update children p (some (bs.filter (· ≠ a))) x)
      (fun x => if gone x then none else parent x) := by
  -- what is detached is dropped as well, so its pointer may be kept or not
  have hcut : (fun x => if gone x then none else Function.update parent a none x) =
      fun x => if gone x then none else parent x := by
    funext x
    by_cases hx : gone x
    · simp [hx]
    · have hxa : x ≠ a := fun hxa => hx (hxa ▸ ha)
      rw [Function.update_of_ne hxa]
  have hlive : ∀ {x xs}, (if gone x then none else
      Function.update children p (some (bs.filter (· ≠ a))) x) = some xs →
      ¬ gone x ∧ ∃ ys, children x = some ys := by
    intro x xs hxs
    by_cases hx : gone x
    · simp [hx] at hxs
    · rw [if_neg hx] at hxs
      by_cases hxp : x = p
      · exact ⟨hx, bs, hxp ▸ hp⟩
      · rw [Function.update_of_ne hxp] at hxs
        exact ⟨hx, xs, hxs⟩
  refine ⟨?_, ?_, ?_, ?_⟩
  · rw [← hcut]
    refine (h.links.detach hup hp).drop gone gone fun x y hyx => ?_
    have hya : y ≠ a := by
      rintro rfl
      rw [Function.update_self] at hyx
      cases hyx
    rw [Function.update_of_ne hya] at hyx
    exact ⟨hdown y x hyx, fun hy => (hgone y x hyx hy).resolve_left hya⟩
  · obtain ⟨xs, hxs⟩ := h.top_mem
    by_cases htp : top = p
    · exact ⟨bs.filter (· ≠ a), by rw [if_neg htop, htp, Function.update_self]⟩
    · exact ⟨xs, by rw [if_neg htop, Function.update_of_ne htp, hxs]⟩
  · intro x xs hxs
    obtain ⟨hx, ys, hys⟩ := hlive hxs
    rw [if_neg hx]
    exact h.parent_eq_none_iff hys
  · intro x xs hxs
    obtain ⟨hx, ys, hys⟩ := hlive hxs
    exact (h.climbs hys).of_kept (fun y hy => if_neg hy) hdown hx

end Tree

end PulseCircuit
