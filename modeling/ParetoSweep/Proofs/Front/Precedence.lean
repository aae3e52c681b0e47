import ParetoSweep.Proofs.Front.Dominance

/-!
# Dominance as a strict order

Seen from the other side, a comparison comes out the other way round, whatever the candidates are
(`ofCandidates_swap`). Among comparable candidates, to dominate is to violate less or, violating equally much, to be
nowhere worse and somewhere better (`dominates_iff_better`), and this is a strict order (`dominates_trans`). Tied
candidates cannot be told apart by comparisons (`ofCandidates_congr_left`), since equal numbers have the same numbers
below and above them.
-/

namespace ParetoSweep

open Number

/-! ## The other side -/

namespace Dominance

/-- The result of a comparison as the other side sees it. -/
def swap : Dominance → Dominance
  | left => right
  | right => left
  | neither => neither

/-- Comparisons that agree on who dominates are the same. -/
theorem eq_of_iff {d e : Dominance} (hleft : d = left ↔ e = left) (hright : d = right ↔ e = right) : d = e := by
  cases d <;> cases e <;> simp at hleft hright <;> rfl

theorem swap_eq_left_iff {d : Dominance} : d.swap = left ↔ d = right := by cases d <;> simp [swap]

theorem swap_eq_right_iff {d : Dominance} : d.swap = right ↔ d = left := by cases d <;> simp [swap]

end Dominance

namespace Candidate

theorem ofCandidates_swap (a b : Candidate) : Dominance.ofCandidates b a = (Dominance.ofCandidates a b).swap :=
  Dominance.eq_of_iff ((ofCandidates_eq_right_iff a b).symm.trans Dominance.swap_eq_left_iff.symm)
    ((ofCandidates_eq_right_iff b a).trans Dominance.swap_eq_right_iff.symm)

end Candidate

/-! ## Better candidates -/

/-- The first list is nowhere larger than the second one, and smaller somewhere. -/
def Improves (xs ys : List Float) : Prop :=
  List.Forall₂ (fun x y => x ≤ y) xs ys ∧ ∃ pair ∈ xs.zip ys, pair.1 < pair.2

/-- The first candidate violates less than the second one, or equally much and improves on its objectives. -/
def Candidate.Better (a b : Candidate) : Prop :=
  a.measure < b.measure ∨ (a.measure == b.measure) = true ∧ Improves a.objectives b.objectives

section Improvements

variable {xs ys : List Float}

theorem below_iff_forall₂ (hx : ∀ x ∈ xs, x.isNaN = false) (hy : ∀ y ∈ ys, y.isNaN = false) :
    Below xs ys ↔ List.Forall₂ (fun x y => x ≤ y) xs ys := by
  rw [Below, List.forall₂_iff_zip, List.forall₂_iff_zip]
  refine and_congr_right fun _ => forall₂_congr fun x y => forall_congr' fun hmem => ?_
  obtain ⟨hx', hy'⟩ := List.of_mem_zip hmem
  exact (le_iff_rank (hx x hx') (hy y hy')).symm

/-- To be below and not above is to improve. -/
theorem improves_iff_below (hlen : xs.length = ys.length) (hx : ∀ x ∈ xs, x.isNaN = false)
    (hy : ∀ y ∈ ys, y.isNaN = false) : Improves xs ys ↔ Below xs ys ∧ ¬ Below ys xs := by
  rw [← not_any_lt_iff hlen hx hy, below_iff_forall₂ hx hy, Bool.not_eq_false, List.any_eq_true]
  simp only [Improves, decide_eq_true_iff]

end Improvements

namespace Candidate

section Comparable

variable {n : Nat} {a b c : Candidate}

/-- To dominate is to be better. -/
theorem dominates_iff_better (ha : a.Comparable n) (hb : b.Comparable n) :
    Dominance.ofCandidates a b = .left ↔ a.Better b := by
  have hlen := ha.length.trans hb.length.symm
  have himproves := improves_iff_below hlen ha.objectives hb.objectives
  have hobjectives := ofObjectives_eq_left_iff hlen ha.objectives hb.objectives
  rw [Better, lt_iff_rank ha.measure hb.measure, beq_iff_rank ha.measure hb.measure, himproves, ← hobjectives]
  rcases ofCandidates_cases ha hb with ⟨hlt, h⟩ | ⟨hgt, h⟩ | ⟨heq, h⟩
  · exact ⟨fun _ => Or.inl hlt, fun _ => h⟩
  · rw [h]
    refine ⟨nofun, fun hbetter => ?_⟩
    omega
  · rw [h, heq]
    simp

/-- No candidate dominates itself. -/
theorem not_dominates_refl (a : Candidate) : Dominance.ofCandidates a a ≠ .left := by
  intro h
  have hright := (ofCandidates_eq_right_iff a a).mpr h
  rw [h] at hright
  cases hright

/-- What a dominated candidate dominates is dominated. -/
theorem dominates_trans (ha : a.Comparable n) (hb : b.Comparable n) (hc : c.Comparable n)
    (hab : Dominance.ofCandidates a b = .left) (hbc : Dominance.ofCandidates b c = .left) :
    Dominance.ofCandidates a c = .left := by
  obtain ⟨hunder, hnot⟩ := (dominates_iff ha hb).mp hab
  obtain ⟨hunder', -⟩ := (dominates_iff hb hc).mp hbc
  exact (dominates_iff ha hc).mpr ⟨hunder.trans hunder', fun hca => hnot (hunder'.trans hca)⟩

theorem ties_refl (ha : a.Comparable n) : a.ties a = true := (ties_iff ha ha).mpr ⟨Under.refl a, Under.refl a⟩

end Comparable

end Candidate

/-! ## Ties -/

namespace Number

section Equal

variable {x y : Float} {xs ys : List Float}

theorem beq_comm (x y : Float) : (x == y) = (y == x) := by
  rw [Bool.eq_iff_iff, beq_iff_numbers, beq_iff_numbers]
  constructor <;> exact fun ⟨h, h', heq⟩ => ⟨h', h, heq.symm⟩

theorem beq_congr_left (h : (x == y) = true) (z : Float) : (x == z) = (y == z) := by
  obtain ⟨hx, hy, heq⟩ := beq_iff_numbers.mp h
  rw [Bool.eq_iff_iff]
  simp only [beq_iff_numbers, hx, hy, heq]

theorem lt_congr_left (h : (x == y) = true) (z : Float) : x < z ↔ y < z := by
  obtain ⟨hx, hy, heq⟩ := beq_iff_numbers.mp h
  simp only [lt_iff_numbers, hx, hy, heq]

theorem lt_congr_right (h : (x == y) = true) (z : Float) : z < x ↔ z < y := by
  obtain ⟨hx, hy, heq⟩ := beq_iff_numbers.mp h
  simp only [lt_iff_numbers, hx, hy, heq]

/-- Lists are equal if their numbers are. -/
theorem beq_iff_forall₂ : (xs == ys) = true ↔ List.Forall₂ (fun x y => (x == y) = true) xs ys := by
  induction xs generalizing ys with
  | nil => cases ys <;> simp
  | cons x xs ih =>
    cases ys with
    | nil => simp
    | cons y ys => rw [List.cons_beq_cons, Bool.and_eq_true, ih, List.forall₂_cons]

theorem beq_list_comm (xs ys : List Float) : (xs == ys) = (ys == xs) := by
  induction xs generalizing ys with
  | nil => cases ys <;> rfl
  | cons x xs ih =>
    cases ys with
    | nil => rfl
    | cons y ys => rw [List.cons_beq_cons, List.cons_beq_cons, beq_comm x y, ih ys]

theorem beq_list_congr_left (h : List.Forall₂ (fun x y => (x == y) = true) xs ys) (zs : List Float) :
    (xs == zs) = (ys == zs) := by
  induction h generalizing zs with
  | nil => rfl
  | cons hxy _ ih =>
    cases zs with
    | nil => rfl
    | cons z zs => rw [List.cons_beq_cons, List.cons_beq_cons, beq_congr_left hxy z, ih zs]

/-- A test of pairs that does not tell equal numbers apart does not tell equal lists apart. -/
theorem any_zip_congr (test : Float × Float → Bool)
    (htest : ∀ {x y : Float} (z : Float), (x == y) = true → test (x, z) = test (y, z))
    (h : List.Forall₂ (fun x y => (x == y) = true) xs ys) (zs : List Float) :
    (xs.zip zs).any test = (ys.zip zs).any test := by
  induction h generalizing zs with
  | nil => rfl
  | cons hxy _ ih =>
    cases zs with
    | nil => rfl
    | cons z zs =>
      rw [List.zip_cons_cons, List.zip_cons_cons, List.any_cons, List.any_cons, htest z hxy, ih zs]

end Equal

end Number

theorem Dominance.ofObjectives_congr_left {xs ys : List Float}
    (h : List.Forall₂ (fun x y => (x == y) = true) xs ys) (zs : List Float) :
    ofObjectives xs zs = ofObjectives ys zs := by
  unfold ofObjectives
  rw [any_zip_congr _ ?below h zs, any_zip_congr _ ?above h zs]
  case below =>
    intro x y z hxy
    simp only [lt_congr_left hxy z]
  case above =>
    intro x y z hxy
    simp only [lt_congr_right hxy z]

namespace Candidate

theorem ties_comm (a b : Candidate) : a.ties b = b.ties a := by
  unfold ties
  rw [Number.beq_comm, Number.beq_list_comm]

section Ties

variable {a b : Candidate}

/-- Tied candidates tie the same ones. -/
theorem ties_congr_left (h : a.ties b = true) (c : Candidate) : a.ties c = b.ties c := by
  obtain ⟨hmeasure, hobjectives⟩ := Bool.and_eq_true_iff.mp h
  rw [ties, ties, beq_congr_left hmeasure, beq_list_congr_left (beq_iff_forall₂.mp hobjectives)]

/-- Tied candidates compare alike with every candidate. -/
theorem ofCandidates_congr_left (h : a.ties b = true) (c : Candidate) :
    Dominance.ofCandidates a c = Dominance.ofCandidates b c := by
  obtain ⟨hmeasure, hobjectives⟩ := Bool.and_eq_true_iff.mp h
  unfold Dominance.ofCandidates
  simp only [lt_congr_left hmeasure, lt_congr_right hmeasure,
    Dominance.ofObjectives_congr_left (beq_iff_forall₂.mp hobjectives)]

theorem ofCandidates_congr_right (h : a.ties b = true) (c : Candidate) :
    Dominance.ofCandidates c a = Dominance.ofCandidates c b := by
  rw [ofCandidates_swap a c, ofCandidates_swap b c, ofCandidates_congr_left h c]

end Ties

/-- **Dominance is a strict order that does not tell tied candidates apart.** Who dominates does not depend on who comes
first, for any candidates at all, and none dominates itself. Comparable candidates dominate those that they are better
than, and dominance among them is transitive. Ties are an equivalence, and tied candidates compare alike with every
third one. -/
theorem dominance_strictOrder :
    (∀ a b : Candidate, Dominance.ofCandidates a b = .left ↔ Dominance.ofCandidates b a = .right) ∧
      (∀ a : Candidate, Dominance.ofCandidates a a ≠ .left) ∧
      (∀ (n : Nat) (a b : Candidate), a.Comparable n → b.Comparable n →
        (Dominance.ofCandidates a b = .left ↔ a.Better b)) ∧
      (∀ (n : Nat) (a b c : Candidate), a.Comparable n → b.Comparable n → c.Comparable n →
        Dominance.ofCandidates a b = .left → Dominance.ofCandidates b c = .left →
          Dominance.ofCandidates a c = .left) ∧
      (∀ (n : Nat) (a : Candidate), a.Comparable n → a.ties a = true) ∧
      (∀ a b : Candidate, a.ties b = b.ties a) ∧
      ∀ a b c : Candidate, a.ties b = true → a.ties c = b.ties c ∧
        Dominance.ofCandidates a c = Dominance.ofCandidates b c ∧
        Dominance.ofCandidates c a = Dominance.ofCandidates c b := by
  refine ⟨fun a b => (ofCandidates_eq_right_iff b a).symm, not_dominates_refl, ?_, ?_, ?_, ties_comm, ?_⟩
  · intro n a b ha hb
    exact dominates_iff_better ha hb
  · intro n a b c ha hb hc hab hbc
    exact dominates_trans ha hb hc hab hbc
  · intro n a ha
    exact ties_refl ha
  · intro a b c h
    exact ⟨ties_congr_left h c, ofCandidates_congr_left h c, ofCandidates_congr_right h c⟩

/-- The first of three candidates has no constraints, so its violation is minus zero and equals that of the second one,
which it betters in one objective. The third one is better in both but violates more. A tied candidate dominates it
too. -/
theorem dominance_strictOrder_signedZero :
    let free : Candidate := ⟨[.binary false], .scored ⟨[1.0, 2.0], []⟩⟩
    let bound : Candidate := ⟨[.binary true], .scored ⟨[1.0, 3.0], [0.0]⟩⟩
    let broken : Candidate := ⟨[.integer 3], .scored ⟨[-7.0, -8.0], [-0.5]⟩⟩
    let tied : Candidate := ⟨[.integer 4], .scored ⟨[1.0, 2.0], [0.0]⟩⟩
    free.Comparable 2 ∧ bound.Comparable 2 ∧ broken.Comparable 2 ∧ free.ties tied = true ∧
      (Dominance.ofCandidates free bound = .left ↔ free.Better bound) ∧
      Dominance.ofCandidates free broken = .left ∧
      Dominance.ofCandidates free broken = Dominance.ofCandidates tied broken := by
  intro free bound broken tied
  have hfree : free.Comparable 2 := ⟨by decide, by decide +kernel, by decide +kernel⟩
  have hbound : bound.Comparable 2 := ⟨by decide, by decide +kernel, by decide +kernel⟩
  have hbroken : broken.Comparable 2 := ⟨by decide, by decide +kernel, by decide +kernel⟩
  have hties : free.ties tied = true := by decide +kernel
  obtain ⟨-, -, hbetter, htrans, -, -, hcongr⟩ := dominance_strictOrder
  refine ⟨hfree, hbound, hbroken, hties, hbetter 2 free bound hfree hbound, ?_, (hcongr free tied broken hties).2.1⟩
  exact htrans 2 free bound broken hfree hbound hbroken (by decide +kernel) (by decide +kernel)

end Candidate
end ParetoSweep
