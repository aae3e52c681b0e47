import ParetoSweep.Proofs.Decision.Dyadic
import ParetoSweep.Proofs.Decision.Index
import ParetoSweep.Proofs.Search.Descent
import ParetoSweep.Proofs.Search.Size

/-!
# Grids on which nothing is rounded

A grid that is listed has as many assignments as the product of the numbers of points that the loops visit
(`length_combine`). Where the numbers of all real variables are multiples of powers of two with few enough digits, these
are the sizes of the domains (`length_points_of_dyadic`) and no loop stalls. So the grid is listed with as many
assignments as are counted.
-/

namespace ParetoSweep

open Number

namespace Grid

section Product

variable {v : Variable} {vs : List Variable} {host : Host} {as : List Assignment} {ns : List Nat} {index n : Nat}

/-- The assignments of a grid are counted by the points of its variables. -/
theorem length_combine (h : combine index vs = .ok as) :
    as.length = (vs.map fun v => (Walk.through v).points.length).prod := by
  induction vs generalizing index as with
  | nil =>
    cases h
    rfl
  | cons v vs ih =>
    rw [List.map_cons, List.prod_cons]
    obtain ⟨-, ⟨hnil, rfl⟩ | ⟨tails, htails, rfl⟩⟩ := combine_cons_eq_ok h
    · simp only [hnil, List.length_nil, Nat.zero_mul]
    · simp only [List.length_flatMap, List.length_map, List.map_const', List.sum_replicate, smul_eq_mul, ih htails]

/-- The points of a domain on which nothing is rounded are as many as are counted. -/
theorem length_points_of_dyadic (hd : v.Dyadic) (hsize : v.domainSize? = some n) :
    (Walk.through v).points.length = n := by
  cases v with
  | binary =>
    cases hsize
    rfl
  | integer lower upper => rw [Walk.through, Walk.length_integers, Variable.domainSize?_integer hsize]
  | real lower upper increment =>
    obtain ⟨a, b, c, p, hmul⟩ := hd
    exact hmul.length_points hsize

theorem map_length_points_of_dyadic (hd : ∀ v ∈ vs, v.Dyadic) (hsizes : Sizes vs ns) :
    vs.map (fun v => (Walk.through v).points.length) = ns := by
  induction hsizes with
  | nil => rfl
  | cons hn _ ih =>
    rw [List.forall_mem_cons] at hd
    rw [List.map_cons, length_points_of_dyadic hd.1 hn, ih hd.2]

/-- On a domain on which nothing is rounded no loop gets stuck. -/
theorem not_stuck_of_dyadic (hd : v.Dyadic) : (Walk.through v).stuck ≠ true := by
  rw [ne_eq, Walk.stuck_through_iff_stalled]
  cases v with
  | real lower upper increment =>
    obtain ⟨a, b, c, p, hmul⟩ := hd
    exact hmul.not_stalled
  | _ => exact id

theorem exists_combine_of_dyadic (hd : ∀ v ∈ vs, v.Dyadic) (index : Nat) : ∃ as, combine index vs = .ok as := by
  rcases combine_cases index vs with ⟨hok, -⟩ | ⟨i, v, hlast, -⟩
  · exact hok
  · exact absurd hlast.blocks.stuck (not_stuck_of_dyadic (hd v (List.mem_of_getElem? hlast.blocks.here)))

/-- **On a grid on which nothing is rounded, counting, listing and indexing agree.** If such a grid is counted and there
is room for it, it is listed, by a descent or not, with as many assignments as are counted. The number that the loop
through a real variable comes to after `i` steps is exactly `i` increments above the lower bound, and is the number with
index `i`. -/
theorem assignments_dyadic (hd : ∀ v ∈ vs, v.Dyadic) (hsize : size vs = .ok n) (hroom : n ≤ host.capacity) :
    (∃ as, assignments vs host = .ok as ∧ assignmentsByDescent vs host = .ok as ∧ as.length = n) ∧
    ∀ lower upper increment, Variable.real lower upper increment ∈ vs →
      ∀ i < (Walk.through (.real lower upper increment)).points.length,
        ∃ (index : UInt64) (y z : Float), index.toNat = i ∧
          (Walk.through (.real lower upper increment)).points[i]? = some (.real y) ∧
          y.isFinite = true ∧ units y = units lower + i * units increment ∧
          (Variable.real lower upper increment).valueAt? index = some (.real z) ∧ (y == z) = true := by
  constructor
  · obtain ⟨as, has⟩ := exists_combine_of_dyadic hd 0
    obtain ⟨ns, hsizes, -, rfl⟩ := size_eq_ok_iff.mp hsize
    have hlist := (assignments_eq_combine hsize hroom).trans has
    refine ⟨as, hlist, (assignmentsByDescent_eq vs host).trans hlist, ?_⟩
    rw [length_combine has, map_length_points_of_dyadic hd hsizes]
  · intro lower upper increment hmem i hi
    obtain ⟨a, b, c, p, hmul⟩ := hd _ hmem
    exact hmul.getElem?_points hi

/-- Both answers, three integers, and the numbers from zero to one that are three eighths apart. -/
def eighths : List Variable := [.binary, .integer (-1) 1, .real 0.0 1.0 0.375]

theorem multiples_eighths : Variable.Multiples 0.0 1.0 0.375 0 8 3 1071 where
  ordered := by decide +kernel
  increment_pos := by decide +kernel
  finite_lower := by decide +kernel
  finite_upper := by decide +kernel
  finite_increment := by decide +kernel
  units_lower := by decide +kernel
  units_upper := by decide +kernel
  units_increment := by decide +kernel
  place_le := by decide
  lower_lt := by decide
  upper_lt := by decide
  increment_lt := by decide
  width_lt := by decide
  beyond_lt := by decide

theorem assignments_dyadic_eighths : size eighths = .ok 18 ∧
    (∃ as, assignments eighths .standard = .ok as ∧ assignmentsByDescent eighths .standard = .ok as ∧ as.length = 18) ∧
    ∃ (index : UInt64) (y z : Float), index.toNat = 2 ∧
      (Walk.through (.real 0.0 1.0 0.375)).points[2]? = some (.real y) ∧
      y.isFinite = true ∧ units y = units 0.0 + 2 * units 0.375 ∧
      (Variable.real 0.0 1.0 0.375).valueAt? index = some (.real z) ∧ (y == z) = true := by
  have hd : ∀ v ∈ eighths, v.Dyadic := by
    rintro v (_ | ⟨_, _ | ⟨_, _ | ⟨_, ⟨⟩⟩⟩⟩)
    · trivial
    · trivial
    · exact ⟨0, 8, 3, 1071, multiples_eighths⟩
  have hsize : size eighths = .ok 18 := by decide +kernel
  have hroom : 18 ≤ Host.standard.capacity := by decide
  obtain ⟨hlist, hpoints⟩ := assignments_dyadic hd hsize hroom
  exact ⟨hsize, hlist, hpoints _ _ _ (by simp [eighths]) 2 (by decide +kernel)⟩

end Product

end Grid
end ParetoSweep
