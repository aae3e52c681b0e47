import Mathlib.Data.Set.Card
import ParetoSweep.Proofs.Bind
import ParetoSweep.Proofs.Candidate.Randomness
import ParetoSweep.Proofs.Candidate.Scorer
import ParetoSweep.Proofs.Front.Optimal
import ParetoSweep.Proofs.Problem.Defect
import ParetoSweep.Proofs.Search.Cube
import ParetoSweep.Search.Run

/-!
# A search finds the optimal assignments

A search lists the whole space of a problem (`combine_of_listing`), in either strategy the first variable slowest. If no
formula draws random numbers, an assignment has one candidate (`evaluateAll_eq_map`), and the front of all candidates is
then what the space as such asks for: `run_exhausts`.
-/

namespace ParetoSweep

/-- The assignments that give every variable one of its points. -/
def Problem.space (p : Problem) : Set Assignment := {a | List.Forall₂ Variable.Point p.decisions a}

/-- The candidate that an assignment makes with a stream of random numbers. -/
def Problem.evaluated (p : Problem) (s : Stream) (a : Assignment) : Candidate :=
  (((Scorer.ofProblem p).evaluate a).run s).1

theorem assignment_evaluated (p : Problem) (s : Stream) (a : Assignment) : (p.evaluated s a).assignment = a := by
  have h : Always ((Scorer.ofProblem p).evaluate a) fun c => c.assignment = a := by
    refine always_bind (always_true _) fun r _ => always_pure ?_
    cases r <;> rfl
  exact h s

namespace Search

/-! ## What is listed -/

section Listing

variable {p : Problem} {c : Config} {host : Host} {as : List Assignment} {result : Result}

/-- The variables of a sound problem have positive increments. -/
theorem increment_pos (h : p.defect? = none) : ∀ v ∈ p.decisions, 0 < v.increment :=
  fun v hv => ((p.defect?_eq_none_iff.mp h).2.2 v hv).increment_pos

theorem decisions_eq_replicate (hall : p.allBinary = true) : p.decisions = List.replicate p.dimension .binary := by
  refine List.eq_replicate_iff.mpr ⟨rfl, fun v hv => ?_⟩
  have hkind := List.all_eq_true.mp hall v hv
  cases v with
  | binary => rfl
  | integer lower upper => cases hkind
  | real lower upper increment => cases hkind

/-- Both strategies list the combinations of the points of all domains. -/
theorem combine_of_listing (h : listing (Strategy.ofProblem p) p c host = .ok as) :
    Grid.combine 0 p.decisions = .ok as := by
  unfold Strategy.ofProblem at h
  cases hall : p.allBinary with
  | true =>
    rw [hall, if_pos rfl] at h
    rw [decisions_eq_replicate hall]
    exact Cube.combine_of_assignments h
  | false =>
    rw [hall, if_neg Bool.false_ne_true] at h
    obtain ⟨expected, -, h⟩ := bind_eq_ok.mp h
    split at h
    · cases h
    · exact h

theorem approve_of_config_defect {d : Config.Defect} (hconfig : c.defect? = some d) :
    approve p c = .error (.invalidConfig d) := by
  unfold approve
  rw [hconfig]
  rfl

theorem approve_of_problem_defect {d : Defect} (hconfig : c.defect? = none) (hproblem : p.defect? = some d) :
    approve p c = .error (.invalidProblem d) := by
  unfold approve
  rw [hconfig, hproblem]
  rfl

/-- A search whose configuration and problem are sound fails for its size only. -/
theorem approve_of_sound (hconfig : c.defect? = none) (hsound : p.defect? = none) :
    approve p c = (Strategy.ofProblem p).checkSize p.dimension c >>= fun _ => .ok (Strategy.ofProblem p) := by
  unfold approve
  rw [hconfig, hsound]
  rfl

/-- A search is approved if its configuration and its problem are sound and there are not too many variables. -/
theorem approve_eq_ok_iff {strategy : Strategy} : approve p c = .ok strategy ↔
    c.defect? = none ∧ p.defect? = none ∧ p.dimension < strategy.limit c ∧ strategy = Strategy.ofProblem p := by
  cases hconfig : c.defect? with
  | some defect => simp [approve_of_config_defect hconfig]
  | none =>
    cases hsound : p.defect? with
    | some defect => simp [approve_of_problem_defect hconfig hsound]
    | none =>
      rw [approve_of_sound hconfig hsound, Strategy.checkSize]
      split
      case isTrue hsize =>
        rw [ok_bind, Except.ok.injEq]
        constructor
        · rintro rfl
          exact ⟨rfl, rfl, hsize, rfl⟩
        · rintro ⟨-, -, -, rfl⟩
          rfl
      case isFalse hsize =>
        rw [error_bind]
        refine ⟨fun h => (nomatch h), ?_⟩
        rintro ⟨-, -, hsize', rfl⟩
        exact absurd hsize' hsize

/-- A search that succeeds has listed the combinations and takes the front of their candidates. -/
theorem run_eq_ok (h : run p c host = .ok result) :
    p.defect? = none ∧ ∃ as, Grid.combine 0 p.decisions = .ok as ∧
      result = ⟨Strategy.ofProblem p, as.length, .ofList (evaluateAll p c host as)⟩ := by
  obtain ⟨strategy, happrove, h⟩ := bind_eq_ok.mp h
  obtain ⟨-, hsound, -, rfl⟩ := approve_eq_ok_iff.mp happrove
  obtain ⟨-, -, h⟩ := bind_eq_ok.mp h
  obtain ⟨as, hlisting, h⟩ := bind_eq_ok.mp h
  cases h
  exact ⟨hsound, as, combine_of_listing hlisting, rfl⟩

/-- The stages at which a search fails. -/
theorem run_eq_error_iff {f : Failure} : run p c host = .error f ↔ approve p c = .error f ∨
    ∃ strategy, approve p c = .ok strategy ∧ (Grid.size p.decisions = .error f ∨
      ∃ n, Grid.size p.decisions = .ok n ∧ listing strategy p c host = .error f) := by
  have hlast : ∀ strategy, (listing strategy p c host >>= fun as =>
      (return ⟨strategy, as.length, .ofList (evaluateAll p c host as)⟩ : Except Failure Result)) = .error f ↔
        listing strategy p c host = .error f := by
    intro strategy
    rw [bind_eq_error]
    exact or_iff_left fun ⟨as, _, h⟩ => nomatch h
  unfold run
  simp only [bind_eq_error (x := approve p c), bind_eq_error (x := Grid.size p.decisions), hlast]

/-- There is one result for each item, and what holds of all results of the computation holds of them. -/
theorem forEach_of_always {α β : Type} {f : α → StateM Stream β} {P : β → Prop} {items : List α}
    (h : ∀ a ∈ items, Always (f a) P) (perItem : Bool) (seed : UInt64) :
    (forEach perItem seed f items).length = items.length ∧ ∀ b ∈ forEach perItem seed f items, P b := by
  cases perItem with
  | true =>
    refine ⟨by simp [forEach], fun b hb => ?_⟩
    obtain ⟨⟨a, i⟩, ha, rfl⟩ := List.mem_map.mp hb
    exact h a (List.fst_mem_of_mem_zipIdx ha) _
  | false => exact always_mapM h (.ofSeed seed)

/-- All candidates of a search compare. -/
theorem comparable_evaluateAll (p : Problem) (c : Config) (host : Host) (as : List Assignment) :
    (evaluateAll p c host as).length = as.length ∧
      ∀ d ∈ evaluateAll p c host as, d.Comparable p.objectives.length := by
  have hlen : (Scorer.ofProblem p).objectives.length = p.objectives.length := List.length_map ..
  exact hlen ▸ forEach_of_always (fun a _ => (Scorer.ofProblem p).comparable_evaluate a) _ _

/-- Without random numbers it does not matter how the stream is shared out. -/
theorem forEach_eq_map {α β : Type} {f : α → StateM Stream β} (hf : ∀ a, Steady (f a)) (perItem : Bool) (seed : UInt64)
    (items : List α) (s : Stream) : forEach perItem seed f items = items.map fun a => ((f a).run s).1 := by
  have hpure : f = fun a => pure ((f a).run s).1 := by
    funext a
    obtain ⟨b, hb⟩ := hf a
    rw [hb]
    rfl
  cases perItem with
  | true =>
    show items.zipIdx.map (fun item => ((f item.1).run (.ofSeed (seed + item.2.toUInt64))).1) = _
    rw [hpure]
    show items.zipIdx.map ((fun a => ((f a).run s).1) ∘ Prod.fst) = _
    rw [← List.map_map, List.zipIdx_map_fst]
    rfl
  | false =>
    show ((items.mapM f).run (.ofSeed seed)).1 = _
    rw [hpure, List.mapM_pure]
    rfl

theorem evaluateAll_eq_map (hfree : p.RandomFree) (c : Config) (host : Host) (as : List Assignment) (s : Stream) :
    evaluateAll p c host as = as.map (p.evaluated s) := forEach_eq_map (Scorer.steady_evaluate hfree) _ _ as s

end Listing

/-! ## What is found -/

/-- The result of a search is what the space of the problem asks for, given the candidate of each assignment. -/
structure Exhausts (p : Problem) (s : Stream) (result : Result) : Prop where
  /-- There are finitely many assignments. -/
  finite : p.space.Finite
  /-- Every assignment is counted once. -/
  candidates : result.candidates = p.space.ncard
  /-- The members of the front are candidates of assignments. -/
  evaluated : ∀ m ∈ result.front.members, ∃ a ∈ p.space, m = p.evaluated s a
  /-- No assignment makes a candidate that dominates a member. -/
  undominated : ∀ m ∈ result.front.members, ∀ a ∈ p.space, Dominance.ofCandidates (p.evaluated s a) m ≠ .left
  /-- Every candidate is dominated by a member or ties one. -/
  covered : ∀ a ∈ p.space, ∃ m ∈ result.front.members,
    Dominance.ofCandidates m (p.evaluated s a) = .left ∨ m.ties (p.evaluated s a) = true
  /-- Of tied candidates the first one is the member. -/
  first : ∀ m ∈ result.front.members, ∀ a ∈ p.space, m.ties (p.evaluated s a) = true →
    m.assignment = a ∨ m.assignment.Before a

section Found

variable {p : Problem} {c : Config} {host : Host} {as : List Assignment} {result : Result}

theorem mem_space_iff (hsound : p.defect? = none) (has : Grid.combine 0 p.decisions = .ok as) {a : Assignment} :
    a ∈ p.space ↔ a ∈ as := (Grid.mem_combine (increment_pos hsound) has).symm

theorem space_eq (hsound : p.defect? = none) (has : Grid.combine 0 p.decisions = .ok as) :
    p.space = (as.toFinset : Set Assignment) := by
  ext a
  rw [mem_space_iff hsound has, List.coe_toFinset, Set.mem_ofPred_eq]

theorem comparable_evaluated (p : Problem) (s : Stream) (a : Assignment) :
    (p.evaluated s a).Comparable p.objectives.length := by
  have h := (Scorer.ofProblem p).comparable_evaluate a s
  rwa [show (Scorer.ofProblem p).objectives.length = p.objectives.length from List.length_map ..] at h

/-- A tie is with a member that was met earlier. -/
theorem before_of_ties (has : as.Pairwise Assignment.Before) {s : Stream} {m : Candidate}
    (hm : m ∈ optimal (as.map (p.evaluated s))) {a : Assignment} (ha : a ∈ as)
    (hties : m.ties (p.evaluated s a) = true) : m.assignment = a ∨ m.assignment.Before a := by
  obtain ⟨i, hi, hearlier⟩ := getElem?_of_mem_optimal hm
  rw [List.getElem?_map] at hi
  obtain ⟨b, hb, rfl⟩ := Option.map_eq_some_iff.mp hi
  obtain ⟨j, hj⟩ := List.mem_iff_getElem?.mp ha
  rw [assignment_evaluated]
  rcases Nat.lt_trichotomy i j with hlt | rfl | hgt
  · refine Or.inr ?_
    obtain ⟨hi', rfl⟩ := List.getElem?_eq_some_iff.mp hb
    obtain ⟨hj', rfl⟩ := List.getElem?_eq_some_iff.mp hj
    exact List.pairwise_iff_getElem.mp has i j hi' hj' hlt
  · exact Or.inl (Option.some.inj (hb.symm.trans hj))
  · -- the assignment would be earlier, and its candidate would have kept the member out
    have hba := (Candidate.ties_iff (comparable_evaluated p s b) (comparable_evaluated p s a)).mp hties
    have hab := (Candidate.ties_iff (comparable_evaluated p s a) (comparable_evaluated p s b)).mpr hba.symm
    have hkept := hearlier j (p.evaluated s a) hgt (by rw [List.getElem?_map, hj]; rfl)
    rw [hab] at hkept
    cases hkept

/-- **A search of a problem without random numbers finds what its space asks for.** -/
theorem run_exhausts (hfree : p.RandomFree) (hrun : run p c host = .ok result) (s : Stream) : Exhausts p s result := by
  obtain ⟨hsound, as, has, rfl⟩ := run_eq_ok hrun
  have hspace : ∀ {a}, a ∈ p.space ↔ a ∈ as := mem_space_iff hsound has
  have hcomparable : ∀ d ∈ as.map (p.evaluated s), d.Comparable p.objectives.length := by
    intro d hd
    obtain ⟨a, -, rfl⟩ := List.mem_map.mp hd
    exact comparable_evaluated p s a
  have hkeeps := keeps_ofList hcomparable
  rw [evaluateAll_eq_map hfree c host as s]
  constructor
  case finite =>
    rw [space_eq hsound has]
    exact Finset.finite_toSet _
  case candidates =>
    rw [space_eq hsound has, Set.ncard_coe_finset, List.toFinset_card_of_nodup (Grid.nodup_combine has)]
  case evaluated =>
    intro m hm
    rw [hkeeps.members] at hm
    obtain ⟨a, ha, rfl⟩ := List.mem_map.mp (mem_of_mem_optimal hm)
    exact ⟨a, hspace.mpr ha, rfl⟩
  case undominated =>
    intro m hm a ha
    rw [hkeeps.members] at hm
    exact not_dominates_of_mem_optimal hm (List.mem_map_of_mem (hspace.mp ha))
  case covered =>
    intro a ha
    have hmem : p.evaluated s a ∈ as.map (p.evaluated s) := List.mem_map_of_mem (hspace.mp ha)
    obtain ⟨m, hm, hunder⟩ := hkeeps.covers _ hmem
    have hmcomp := hcomparable m (mem_of_mem_optimal (hkeeps.members ▸ hm))
    refine ⟨m, hm, ?_⟩
    rw [← Candidate.excludes_iff_dominates_or_ties hmcomp (comparable_evaluated p s a)]
    exact (Candidate.excludes_iff hmcomp (comparable_evaluated p s a)).mpr hunder
  case first =>
    intro m hm a ha hties
    rw [hkeeps.members] at hm
    exact before_of_ties (Grid.pairwise_combine has) hm (hspace.mp ha) hties

end Found

/-- An integer that shall be large and close to a real number. -/
def twoDistances : Problem where
  name := "distances"
  decisions := [.integer 0 2, .real 0.0 1.0 0.5]
  objectives := [⟨.minimize, "abs(x1-x2)"⟩, ⟨.maximize, "x1"⟩]
  constraints := [⟨"x1", .atMost, "x2+1"⟩]

theorem run_exhausts_twoDistances :
    ∃ result, run twoDistances .standard .standard = .ok result ∧ Exhausts twoDistances (.ofSeed 0) result := by
  have hok : (run twoDistances .standard .standard).isOk = true := by decide +kernel
  cases hrun : run twoDistances .standard .standard with
  | error fault => rw [hrun] at hok; cases hok
  | ok result => exact ⟨result, rfl, run_exhausts (by decide +kernel) hrun (.ofSeed 0)⟩

end Search
end ParetoSweep
