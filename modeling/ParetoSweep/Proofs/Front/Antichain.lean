import ParetoSweep.Proofs.Front.Optimal
import ParetoSweep.Proofs.Front.Precedence

/-!
# The members of a front stand apart

Candidates of different shapes or with NaN are compared by dominance too, but it is not transitive for them, so a front
need not hold the optimal ones. What is left rests on the symmetry of the comparison alone: who dominates, and whether
there is a tie, does not depend on who comes first. So a candidate that is admitted stands apart from every member that
stays, whatever the candidates are (`Gathers.insert`), and that holds in every state of a front (`gathers_ofMoves`).
-/

namespace ParetoSweep

/-! ## Candidates apart -/

namespace Candidate

/-- Neither of two candidates dominates the other one, and they do not tie. -/
structure Apart (a b : Candidate) : Prop where
  neither : Dominance.ofCandidates a b = .neither
  ties : a.ties b = false

namespace Apart

theorem symm {a b : Candidate} (h : a.Apart b) : b.Apart a :=
  ⟨by rw [ofCandidates_swap a b, h.neither, Dominance.swap], (ties_comm b a).trans h.ties⟩

/-- A candidate stands apart from one that it does not exclude and that does not dominate it. -/
theorem of_not_excludes {a b : Candidate} (hab : a.excludes b = false) (hba : Dominance.ofCandidates b a ≠ .left) :
    a.Apart b := by
  unfold excludes at hab
  cases h : Dominance.ofCandidates a b with
  | left => rw [h] at hab; cases hab
  | right => exact absurd ((ofCandidates_eq_right_iff a b).mp h) hba
  | neither =>
    rw [h] at hab
    exact ⟨h, hab⟩

end Apart

end Candidate

/-! ## One candidate after the other -/

namespace Front

/-- A front whose members stand apart from one another and are among the candidates offered so far, in their order. -/
structure Gathers (f : Front) (cs : List Candidate) : Prop where
  apart : f.members.Pairwise Candidate.Apart
  sublist : f.members.Sublist cs

section Gathers

variable {f : Front} {cs : List Candidate}

theorem gathers_empty : empty.Gathers [] := ⟨.nil, .slnil⟩

theorem Gathers.insert (h : f.Gathers cs) (c : Candidate) : (f.insert c).Gathers (cs ++ [c]) := by
  cases hadm : f.admits c with
  | false =>
    rw [insert_of_not_admits hadm]
    exact ⟨h.apart, h.sublist.trans (List.sublist_append_left cs [c])⟩
  | true =>
    have hstays : (f.members.filter fun m => Dominance.ofCandidates c m ≠ .left).Sublist f.members :=
      List.filter_sublist
    constructor
    · rw [members_insert_of_admits hadm, List.pairwise_append]
      refine ⟨h.apart.sublist hstays, List.pairwise_singleton .., fun m hm d hd => ?_⟩
      obtain ⟨hmem, hkept⟩ := List.mem_filter.mp hm
      rw [List.mem_singleton.mp hd]
      rw [admits, Bool.not_eq_true', List.any_eq_false] at hadm
      exact .of_not_excludes (Bool.of_not_eq_true (hadm m hmem)) (of_decide_eq_true hkept)
    · rw [members_insert_of_admits hadm]
      exact (hstays.trans h.sublist).append (.refl [c])

theorem Gathers.extend (h : f.Gathers cs) (ds : List Candidate) : (f.extend ds).Gathers (cs ++ ds) := by
  induction ds generalizing f cs with
  | nil => rwa [List.append_nil]
  | cons d ds ih =>
    rw [List.append_cons]
    exact ih (h.insert d)

theorem gathers_ofList (cs : List Candidate) : (ofList cs).Gathers cs := gathers_empty.extend cs

/-- The members at two places stand apart, whichever comes first. -/
theorem Gathers.apart_getElem (h : f.Gathers cs) {i j : Nat} (hi : i < f.members.length) (hj : j < f.members.length)
    (hij : i ≠ j) : f.members[i].Apart f.members[j] := by
  rcases Nat.lt_or_gt_of_ne hij with hlt | hgt
  · exact List.pairwise_iff_getElem.mp h.apart i j hi hj hlt
  · exact (List.pairwise_iff_getElem.mp h.apart j i hj hi hgt).symm

end Gathers

/-! ## The states of a front -/

/-- What happens to a front: it takes an offer, or the front of other candidates takes its place. -/
inductive Move where
  | offer (o : Offer)
  | renew (cs : List Candidate)

/-- A front, and the candidates that were offered to it since it was new. -/
structure History where
  front : Front
  offered : List Candidate

namespace History

/-- The state after one more move. -/
def step (h : History) : Move → History
  | .offer o => ⟨h.front.offer o, h.offered ++ o.candidates⟩
  | .renew cs => ⟨ofList cs, cs⟩

/-- The state that moves lead to from a front of nothing. -/
def ofMoves (moves : List Move) : History := moves.foldl step ⟨empty, []⟩

end History

theorem gathers_step {h : History} (hgathers : h.front.Gathers h.offered) (move : Move) :
    (h.step move).front.Gathers (h.step move).offered := by
  cases move with
  | renew cs => exact gathers_ofList cs
  | offer o =>
    cases o with
    | insert c => exact hgathers.insert c
    | extend cs => exact hgathers.extend cs

theorem gathers_ofMoves (moves : List Move) :
    (History.ofMoves moves).front.Gathers (History.ofMoves moves).offered := by
  have hrun : ∀ h : History, h.front.Gathers h.offered →
      (moves.foldl History.step h).front.Gathers (moves.foldl History.step h).offered := by
    induction moves with
    | nil => exact fun h hgathers => hgathers
    | cons move moves ih => exact fun h hgathers => ih (h.step move) (gathers_step hgathers move)
  exact hrun _ gathers_empty

/-- **The members of a front never dominate or tie one another**, whatever candidates are offered to it and however.
They are some of those offered since the front was new, in their order, and a candidate that is refused changes
nothing. -/
theorem members_ofMoves (moves : List Move) :
    let h := History.ofMoves moves
    (∀ (i j : Nat) (hi : i < h.front.members.length) (hj : j < h.front.members.length), i ≠ j →
      Dominance.ofCandidates h.front.members[i] h.front.members[j] = .neither ∧
        h.front.members[i].ties h.front.members[j] = false) ∧
    h.front.members.Sublist h.offered ∧
    ∀ c, h.front.admits c = false → (h.front.insert c).members = h.front.members := by
  have hgathers := gathers_ofMoves moves
  refine ⟨fun i j hi hj hij => ?_, hgathers.sublist, fun c hc => congrArg members (insert_of_not_admits hc)⟩
  have hapart := hgathers.apart_getElem hi hj hij
  exact ⟨hapart.neither, hapart.ties⟩

/-- A front that is renewed and then takes a candidate with an objective that is not a number, one with fewer objectives
and one that the first member dominates. -/
def oddMoves : List Move :=
  [.offer (.insert ⟨[.binary true], .scored ⟨[1.0], []⟩⟩), .renew [⟨[.integer 1], .scored ⟨[3.0, 1.0], [0.0]⟩⟩],
    .offer (.extend [⟨[.integer 2], .scored ⟨[Number.nan, 1.0], []⟩⟩, ⟨[.integer 3], .scored ⟨[3.0], []⟩⟩]),
    .offer (.insert ⟨[.integer 4], .scored ⟨[3.0, 2.0], []⟩⟩)]

theorem members_ofMoves_odd :
    let members := (History.ofMoves oddMoves).front.members
    members.map Candidate.assignment = [[.integer 1], [.integer 2], [.integer 3]] ∧
      ∀ (i j : Nat) (hi : i < members.length) (hj : j < members.length), i ≠ j →
        Dominance.ofCandidates members[i] members[j] = .neither ∧ members[i].ties members[j] = false :=
  ⟨by decide +kernel, (members_ofMoves oddMoves).1⟩

end Front
end ParetoSweep
