import ParetoSweep.Proofs.Bind
import ParetoSweep.Proofs.Search.Workers
import ParetoSweep.Search.Splitter

/-!
# Splitting ranges leaves no gap

Wherever a range of words is split, its assignments are those of its block of patterns, and there is no outcome only if
the arithmetic leaves the word, which it never does (`range?_eq`). So the splitter lists the cube
(`assignments?_eq_cube`), and the assignment at each place is the place in binary (`assignments?_cases`).
-/

namespace ParetoSweep

/-! ## Words and numbers -/

namespace Word

variable {x y : UInt64} {i : Nat}

theorem two_pow_lt_size (h : i < 64) : 2 ^ i < UInt64.size :=
  (Nat.pow_lt_pow_right (by decide) h : 2 ^ i < 2 ^ 64)

theorem lt_size (h : i < 64) : i < UInt64.size := Nat.lt_trans Nat.lt_two_pow_self (two_pow_lt_size h)

theorem toUInt64_toNat (x : UInt64) : x.toNat.toUInt64 = x := by
  rw [Nat.toUInt64_eq, UInt64.ofNat_toNat]

theorem toNat_toUInt64 (h : i < UInt64.size) : i.toUInt64.toNat = i := by
  rw [Nat.toUInt64_eq, UInt64.toNat_ofNat', Nat.mod_eq_of_lt h]

/-- A difference of numbers that fit into words. -/
theorem sub?_toUInt64 (h : i ≤ x.toNat) : sub? x i.toUInt64 = some (x.toNat - i).toUInt64 := by
  have hlt : x.toNat < UInt64.size := x.toNat_lt
  have hi : i.toUInt64.toNat = i := toNat_toUInt64 (Nat.lt_of_le_of_lt h hlt)
  have hle : i.toUInt64 ≤ x := by rwa [UInt64.le_iff_toNat_le, hi]
  have hrest : (x.toNat - i).toUInt64.toNat = x.toNat - i := toNat_toUInt64 (Nat.lt_of_le_of_lt (Nat.sub_le _ _) hlt)
  rw [sub?_eq_some hle, Option.some_inj, ← UInt64.toNat_inj, UInt64.toNat_sub_of_le _ _ hle, hi, hrest]

theorem toNat_add_of_lt (h : x.toNat + y.toNat < UInt64.size) : (x + y).toNat = x.toNat + y.toNat := by
  rw [UInt64.toNat_add, Nat.mod_eq_of_lt h]

/-- A range of words that does not leave the word is counted up from its first word. -/
theorem range_add (h : x.toNat + y.toNat < UInt64.size) :
    range x (x + y) = (List.range y.toNat).map fun i => x + i.toUInt64 := by
  rw [range, toNat_add_of_lt h, Nat.add_sub_cancel_left]

theorem range_zero (y : UInt64) : range 0 y = (List.range y.toNat).map Nat.toUInt64 := by
  have hrange := range_add (x := 0) (y := y) (by rw [UInt64.toNat_zero, Nat.zero_add]; exact y.toNat_lt)
  simpa only [UInt64.zero_add] using hrange

end Word

namespace Splitter

section Ranges

variable {s : Splitter} {team : Team} {host : Host} {start half rest length : UInt64} {i : Nat}

/-! ## Ranges that are not split -/

theorem toNat_dimension_lt (hs : s.dimension < 63) : s.dimension.toNat < 63 := UInt64.lt_iff_toNat_lt.mp hs

theorem bit?_eq (hs : s.dimension < 63) (x : UInt64) (hi : i < s.dimension.toNat) :
    s.bit? x i.toUInt64 = some (.binary (x >>> (s.dimension.toNat - 1 - i).toUInt64 &&& 1 == 1)) := by
  have hdim := toNat_dimension_lt hs
  have hlast : Word.sub? s.dimension 1 = some (s.dimension.toNat - 1).toUInt64 :=
    Word.sub?_toUInt64 (i := 1) (by omega)
  have htop : (s.dimension.toNat - 1).toUInt64.toNat = s.dimension.toNat - 1 :=
    Word.toNat_toUInt64 (Word.lt_size (by omega))
  have hplace : Word.sub? (s.dimension.toNat - 1).toUInt64 i.toUInt64 = some (s.dimension.toNat - 1 - i).toUInt64 := by
    rw [Word.sub?_toUInt64 (by omega), htop]
  have hlt : (s.dimension.toNat - 1 - i).toUInt64 < 64 := by
    rw [UInt64.lt_iff_toNat_lt, Word.toNat_toUInt64 (Word.lt_size (by omega))]
    exact (by omega : s.dimension.toNat - 1 - i < 64)
  simp [bit?, hlast, hplace, Word.shiftRight?_eq_some hlt]

theorem decode?_eq (hs : s.dimension < 63) (x : UInt64) : s.decode? x = some (Cube.decode s.dimension.toNat x) := by
  have hbits : (List.range s.dimension.toNat).mapM (fun i => s.bit? x i.toUInt64) =
      pure (Cube.decode s.dimension.toNat x) := mapM_eq_pure fun i hi => bit?_eq hs x (List.mem_range.mp hi)
  rw [decode?, Word.range_zero, List.mapM_map]
  exact hbits

theorem size?_eq (hs : s.dimension < 63) : s.size? = some (1 <<< s.dimension) :=
  Word.shiftLeft?_eq_some (UInt64.lt_trans hs (by decide))

theorem toNat_size (hs : s.dimension < 63) : ((1 : UInt64) <<< s.dimension).toNat = 2 ^ s.dimension.toNat := by
  have hdim := toNat_dimension_lt hs
  have hpow : 2 ^ s.dimension.toNat < UInt64.size := Word.two_pow_lt_size (Nat.lt_succ_of_lt hdim)
  have hshift := Cube.one_shiftLeft_eq (k := s.dimension.toNat) (by omega)
  rw [Word.toUInt64_toNat] at hshift
  rw [hshift, Nat.one_shiftLeft, Word.toNat_toUInt64 hpow]

theorem exhausted?_eq (hs : s.dimension < 63) :
    s.exhausted? = some (.resourceExhausted (2 ^ s.dimension.toNat)) := by
  rw [exhausted?, size?_eq hs, ← toNat_size hs]
  rfl

/-- What a range amounts to: its block of patterns, if there is room for it. -/
def outcome (s : Splitter) (host : Host) (start length : UInt64) : Except Failure (List Assignment) :=
  if host.capacity < length.toNat then .error (.resourceExhausted (2 ^ s.dimension.toNat))
  else .ok (Cube.block s.dimension.toNat start length.toNat)

theorem block?_eq (hs : s.dimension < 63) (hfits : start.toNat + length.toNat < UInt64.size) :
    s.block? host start length = some (s.outcome host start length) := by
  have hblock : (Word.range start (start + length)).mapM s.decode? =
      some (Cube.block s.dimension.toNat start length.toNat) := by
    rw [mapM_eq_pure fun x _ => decode?_eq hs x, Word.range_add hfits, List.map_map]
    rfl
  unfold block? outcome
  split
  · rw [exhausted?_eq hs]
    rfl
  · rw [Word.add?_eq_some hfits]
    show ((Word.range start (start + length)).mapM s.decode? >>= fun as => pure (Except.ok as)) = _
    rw [hblock]
    rfl

/-! ## Ranges that are split -/

theorem outcome_of_lt (h : host.capacity < length.toNat) :
    s.outcome host start length = .error (.resourceExhausted (2 ^ s.dimension.toNat)) := if_pos h

theorem outcome_of_le (h : length.toNat ≤ host.capacity) :
    s.outcome host start length = .ok (Cube.block s.dimension.toNat start length.toNat) := if_neg (Nat.not_lt.mpr h)

/-- Two neighbouring ranges make up one range, also if there is no room for one of them or for both. -/
theorem merge?_eq (hs : s.dimension < 63) (hlength : half.toNat + rest.toNat = length.toNat) :
    s.merge? host (s.outcome host start half) (s.outcome host (start + half) rest) =
      some (s.outcome host start length) := by
  rcases Nat.lt_or_ge host.capacity half.toNat with hhalf | hhalf
  · have hlt : host.capacity < length.toNat := by omega
    rw [outcome_of_lt hhalf, outcome_of_lt hlt]
    rfl
  rcases Nat.lt_or_ge host.capacity rest.toNat with hrest | hrest
  · have hlt : host.capacity < length.toNat := by omega
    rw [outcome_of_le hhalf, outcome_of_lt hrest, outcome_of_lt hlt]
    rfl
  rw [outcome_of_le hhalf, outcome_of_le hrest, merge?, Cube.length_block, Cube.length_block, hlength]
  split
  case isTrue hlt =>
    rw [exhausted?_eq hs, outcome_of_lt hlt]
    rfl
  case isFalse hge =>
    rw [outcome_of_le (Nat.not_lt.mp hge), ← hlength, Cube.block_append, Word.toUInt64_toNat]
    rfl

/-- A range that is split has the outcome of its halves, whoever lists them. -/
theorem range?_of_not_lt (hlong : ¬ length < s.threshold) (hteam : team.Reliable)
    (hsub : Word.sub? length (length / 2) = some rest) (hadd : Word.add? start (length / 2) = some half) :
    s.range? team host start length = (do
      s.merge? host (← s.range? team host start (length / 2)) (← s.range? team host half rest)) := by
  have hjoin : ∀ {α : Type} (left right : Unit → α),
      (if s.parallel then team.join left right else (left (), right ())) = (left (), right ()) :=
    fun left right => by rw [hteam.join_eq, ite_self]
  rw [range?, dif_neg hlong]
  simp only [hjoin, hadd]
  congr 1
  funext first
  -- the recursion needs the equation for the rest to end, so the difference cannot be rewritten here
  split
  case h_1 hrest hmiddle =>
    cases hsub.symm.trans hrest
    cases hmiddle
    rfl
  case h_2 hnone => exact absurd rfl (hnone _ _ hsub)

/-- However a range is split, and whoever lists the halves in which order, its outcome is the one of the whole. -/
theorem range?_eq (hs : s.dimension < 63) (hteam : team.Reliable) (hfits : start.toNat + length.toNat < UInt64.size) :
    s.range? team host start length = some (s.outcome host start length) := by
  -- the halves need not be of equal length, so the induction is on the length and not on its logarithm
  induction hsize : length.toNat using Nat.strong_induction_on generalizing start length with
  | _ size ih =>
    subst hsize
    by_cases hlong : length < s.threshold
    case pos => rw [range?, dif_pos hlong, block?_eq hs hfits]
    case neg =>
      have hle : length / 2 ≤ length := UInt64.le_iff_toNat_le.mpr (Nat.le_of_lt (half_lt hlong))
      have hsub := Word.sub?_eq_some hle
      have hrest := Word.toNat_of_sub? hsub
      have hadd : start.toNat + (length / 2).toNat < UInt64.size := by omega
      have hright : (start + length / 2).toNat + (length - length / 2).toNat < UInt64.size := by
        rw [Word.toNat_add_of_lt hadd]
        omega
      rw [range?_of_not_lt hlong hteam hsub (Word.add?_eq_some hadd), ih _ (half_lt hlong) hadd rfl,
        ih _ (rest_lt hlong hsub) hright rfl]
      exact merge?_eq hs (by omega)

end Ranges

/-! ## All assignments -/

section Assignments

variable {s : Splitter} {team : Team} {host : Host}

theorem assignments?_of_le (hs : 63 ≤ s.dimension) (team : Team) (host : Host) :
    s.assignments? team host = some (.error (.resourceExhausted countLimit)) := by
  rw [assignments?, if_pos hs]
  rfl

theorem assignments?_of_lt (hs : s.dimension < 63) (hteam : team.Reliable) (host : Host) :
    s.assignments? team host = some (if host.capacity < 2 ^ s.dimension.toNat
      then .error (.resourceExhausted (2 ^ s.dimension.toNat)) else .ok (Cube.patterns s.dimension.toNat)) := by
  have hdim := toNat_dimension_lt hs
  have hpow : 2 ^ s.dimension.toNat < UInt64.size := Word.two_pow_lt_size (Nat.lt_succ_of_lt hdim)
  have hfits : (0 : UInt64).toNat + (1 <<< s.dimension : UInt64).toNat < UInt64.size := by
    rw [toNat_size hs, UInt64.toNat_zero, Nat.zero_add]
    exact hpow
  rw [assignments?, if_neg (UInt64.not_le.mpr hs), size?_eq hs]
  show s.range? team host 0 (1 <<< s.dimension) = _
  rw [range?_eq hs hteam hfits, outcome, toNat_size hs, Cube.block_zero (by omega)]

/-- A splitter lists what the cube of its decisions lists. -/
theorem assignments?_eq_cube (hteam : team.Reliable) (s : Splitter) (host : Host) :
    s.assignments? team host = some (Cube.assignments ⟨s.dimension.toNat, s.threshold.toNat⟩ host) := by
  unfold Cube.assignments
  by_cases hs : 63 ≤ s.dimension
  · have hdim : 63 ≤ s.dimension.toNat := UInt64.le_iff_toNat_le.mp hs
    simp [assignments?_of_le hs, hdim]
  · have hlt : s.dimension < 63 := UInt64.not_le.mp hs
    have hdim := toNat_dimension_lt hlt
    have hrange := Cube.range_zero ⟨s.dimension.toNat, s.threshold.toNat⟩ (Nat.lt_succ_of_lt hdim)
    dsimp only at hrange ⊢
    rw [assignments?_of_lt hlt hteam, if_neg (Nat.not_le.mpr hdim), Nat.one_shiftLeft, hrange]

theorem toNat_threshold (s : Splitter) (threshold : UInt64) :
    (s.withThreshold threshold).threshold.toNat = max threshold.toNat 2 := by
  by_cases h : threshold < 2
  case pos =>
    have hlt : threshold.toNat < 2 := UInt64.lt_iff_toNat_lt.mp h
    simp [withThreshold, h, Nat.max_eq_right (Nat.le_of_lt hlt)]
  case neg =>
    have hle : 2 ≤ threshold.toNat := UInt64.le_iff_toNat_le.mp (UInt64.not_lt.mp h)
    simp [withThreshold, h, Nat.max_eq_left hle]

/-- **Splitting loses no assignment and the arithmetic stays within the word**, whatever the threshold and whoever lists
the halves. There is an outcome for any number of decisions: a failure if a pattern could reach the topmost bit of its
word, and otherwise, if there is room, one assignment for each number, which gives its bits to the decisions, the
highest to the first. -/
theorem assignments?_cases (hteam : team.Reliable) (n threshold : UInt64) (parallel : Bool) (host : Host) :
    let s := ((ofDimension n).withThreshold threshold).withParallel parallel
    s.assignments? team host = some ((Cube.ofThreshold n.toNat threshold.toNat).assignments host) ∧
    (63 ≤ n → s.assignments? team host = some (.error (.resourceExhausted countLimit))) ∧
    (n < 63 → 2 ^ n.toNat ≤ host.capacity → ∃ as, s.assignments? team host = some (.ok as) ∧
      as.length = 2 ^ n.toNat ∧ ∀ k < 2 ^ n.toNat, ∃ a, as[k]? = some a ∧ a.length = n.toNat ∧
        ∀ j < n.toNat, a[j]? = some (.binary (k.testBit (n.toNat - 1 - j)))) := by
  intro s
  refine ⟨?_, fun hn => assignments?_of_le hn team host, fun hn hroom => ?_⟩
  · have hcube : Cube.mk s.dimension.toNat s.threshold.toNat = Cube.ofThreshold n.toNat threshold.toNat := by
      rw [Cube.ofThreshold, ← toNat_threshold (ofDimension n)]
      rfl
    rw [assignments?_eq_cube hteam, hcube]
  · refine ⟨Cube.patterns n.toNat, ?_, Cube.length_patterns _, fun k hk => ?_⟩
    · have hlt := assignments?_of_lt (s := s) hn hteam host
      rw [hlt]
      exact congrArg some (if_neg (Nat.not_lt.mpr hroom))
    · exact ⟨_, Cube.getElem?_patterns hk, Cube.length_bits _ _, fun j hj => Cube.getElem?_bits hj⟩

theorem assignments?_cases_threeBits :
    (((ofDimension 64).withThreshold 1).withParallel false).assignments? .lastFirst .standard =
      some (.error (.resourceExhausted countLimit)) ∧
    ∃ as, (((ofDimension 3).withThreshold 0).withParallel true).assignments? .lastFirst .standard = some (.ok as) ∧
      as.length = 8 ∧ ∃ a, as[6]? = some a ∧ a.length = 3 ∧ a[0]? = some (.binary true) ∧
        a[1]? = some (.binary true) ∧ a[2]? = some (.binary false) := by
  refine ⟨(assignments?_cases Team.reliable_lastFirst 64 1 false .standard).2.1 (by decide), ?_⟩
  obtain ⟨as, has, hlength, hbits⟩ :=
    (assignments?_cases Team.reliable_lastFirst 3 0 true .standard).2.2 (by decide) (by decide)
  obtain ⟨a, ha, hvalues, hvalue⟩ := hbits 6 (by decide)
  exact ⟨as, has, hlength, a, ha, hvalues, hvalue 0 (by decide), hvalue 1 (by decide), hvalue 2 (by decide)⟩

end Assignments

end Splitter
end ParetoSweep
