import ParetoSweep.Front.Dominance

/-!
# Fronts

A front keeps those of the candidates offered to it that none of the others dominates, in the order in which they came,
and of tied ones the first.
-/

namespace ParetoSweep

/-- Candidates of which none dominates or ties another. -/
structure Front where
  members : List Candidate

namespace Front

/-- The front of no candidates. -/
def empty : Front := ⟨[]⟩

/-- Whether no member excludes the candidate. -/
def admits (f : Front) (c : Candidate) : Bool := !f.members.any fun m => m.excludes c

/-- Offers a candidate. If it is admitted, the members that it dominates go and it comes last. -/
def insert (f : Front) (c : Candidate) : Front :=
  if f.admits c then ⟨f.members.filter (fun m => Dominance.ofCandidates c m ≠ .left) ++ [c]⟩ else f

/-- A candidate that is admitted becomes the last member. -/
theorem members_insert_of_admits {f : Front} {c : Candidate} (h : f.admits c = true) :
    (f.insert c).members = f.members.filter (fun m => Dominance.ofCandidates c m ≠ .left) ++ [c] := by
  rw [insert, if_pos h]

/-- A candidate that is not admitted leaves the front as it is. -/
theorem insert_of_not_admits {f : Front} {c : Candidate} (h : f.admits c = false) : f.insert c = f := by
  rw [insert, if_neg (by simp [h])]

/-- Offers candidates one after the other. -/
def extend (f : Front) (cs : List Candidate) : Front := cs.foldl insert f

/-- The front of a list of candidates. -/
def ofList (cs : List Candidate) : Front := empty.extend cs

/-- The number of members. -/
def size (f : Front) : Nat := f.members.length

/-- Whether there is no member. -/
def isEmpty (f : Front) : Bool := f.members.isEmpty

/-- The members that satisfy all constraints. -/
def feasible (f : Front) : List Candidate := f.members.filter Candidate.feasible

end Front
end ParetoSweep
