import Mathlib.Algebra.BigOperators.Group.List.Basic
import Mathlib.Data.List.Forall2
import ParetoSweep.Proofs.Bind
import ParetoSweep.Proofs.Decision.Empty
import ParetoSweep.Search.Grid

/-!
# Counting the combinations of a grid

The sizes of the domains are multiplied from the first to the last, and every product on the way must fit in a machine
word. So a grid is counted exactly if all domains have a size and the product of those in front of the first empty
domain fits (`size_eq_ok_iff`); what comes behind it is multiplied with zero. Where no domain is empty this is the
product of all sizes, which does not depend on the order. With an empty domain it does: behind domains that are too
large together it is found too late (`size_perm`).
-/

namespace ParetoSweep
namespace Grid

/-- The sizes of the domains, in order. -/
def Sizes (vs : List Variable) (ns : List Nat) : Prop := List.Forall₂ (fun v n => v.domainSize? = some n) vs ns

/-- The product of the sizes in front of the first empty domain. -/
def productInFront (ns : List Nat) : Nat := (ns.takeWhile (· ≠ 0)).prod

section ProductInFront

variable {n : Nat} {ns : List Nat}

@[simp] theorem productInFront_nil : productInFront [] = 1 := rfl

@[simp] theorem productInFront_cons_zero (ns : List Nat) : productInFront (0 :: ns) = 1 := rfl

theorem productInFront_cons (hn : n ≠ 0) : productInFront (n :: ns) = n * productInFront ns := by
  rw [productInFront, List.takeWhile_cons_of_pos (by simpa using hn), List.prod_cons, productInFront]

theorem one_le_productInFront (ns : List Nat) : 1 ≤ productInFront ns := by
  induction ns with
  | nil => exact Nat.le_refl 1
  | cons n ns ih =>
    by_cases hn : n = 0
    · rw [hn, productInFront_cons_zero]
    · rw [productInFront_cons hn]
      exact Nat.mul_pos (Nat.pos_of_ne_zero hn) ih

theorem productInFront_eq_prod (h : 0 ∉ ns) : productInFront ns = ns.prod := by
  rw [productInFront, List.takeWhile_eq_self_iff.mpr fun n hn => by simpa using ne_of_mem_of_not_mem hn h]

end ProductInFront

section Sizes

variable {v : Variable} {vs ws : List Variable} {ns ms : List Nat} {a p : Nat}

/-- Domains have their sizes only. -/
theorem Sizes.unique (h : Sizes vs ns) (h' : Sizes vs ms) : ns = ms :=
  List.right_unique_forall₂' (fun _ _ _ hn hm => Option.some.inj (hn.symm.trans hm)) h h'

/-- A size is zero where a domain is empty. -/
theorem Sizes.zero_mem_iff (h : Sizes vs ns) : 0 ∈ ns ↔ ∃ v ∈ vs, v.Empty := by
  induction h with
  | nil => simp
  | cons hn _ ih => simp [ih, Variable.Empty, hn, eq_comm]

/-- Domains in another order have their sizes in that order. -/
theorem Sizes.perm (h : Sizes vs ns) (hperm : vs.Perm ws) : ∃ ms, Sizes ws ms ∧ ms.Perm ns :=
  List.perm_comp_forall₂ hperm.symm h

/-! ## One domain more -/

theorem times_eq_ok_iff : times a v = .ok p ↔ ∃ n, v.domainSize? = some n ∧ a * n ≤ countLimit ∧ a * n = p := by
  unfold times
  cases v.domainSize? with
  | none => exact ⟨fun h => (nomatch h), fun ⟨_, h, _⟩ => nomatch h⟩
  | some n =>
    dsimp only
    split
    case isTrue hfits =>
      rw [Except.ok.injEq]
      exact ⟨fun h => ⟨n, rfl, hfits, h⟩, fun ⟨_, hn, _, h⟩ => by cases hn; exact h⟩
    case isFalse hlarge =>
      exact ⟨fun h => (nomatch h), fun ⟨_, hn, hfits, _⟩ => by cases hn; exact absurd hfits hlarge⟩

theorem times_eq_error {f : Failure} (h : times a v = .error f) : f = .resourceExhausted countLimit := by
  unfold times at h
  split at h
  · split at h <;> cases h
    rfl
  · cases h
    rfl

/-! ## All domains -/

/-- A product that fits is multiplied on as far as the sizes in front of the first empty domain fit. -/
theorem foldlM_times_eq_ok_iff (ha : a ≤ countLimit) : vs.foldlM times a = .ok p ↔
    ∃ ns, Sizes vs ns ∧ a * productInFront ns ≤ countLimit ∧ a * ns.prod = p := by
  induction vs generalizing a with
  | nil =>
    constructor
    · intro h
      cases h
      exact ⟨[], .nil, by rwa [productInFront_nil, Nat.mul_one], Nat.mul_one _⟩
    · rintro ⟨_, ⟨⟩, -, h⟩
      rw [← h, List.prod_nil, Nat.mul_one]
      rfl
  | cons v vs ih =>
    rw [List.foldlM_cons, bind_eq_ok]
    constructor
    · rintro ⟨b, hb, hrest⟩
      obtain ⟨n, hn, hfits, rfl⟩ := times_eq_ok_iff.mp hb
      obtain ⟨ns, hns, hfront, rfl⟩ := (ih hfits).mp hrest
      refine ⟨n :: ns, .cons hn hns, ?_, by rw [List.prod_cons, Nat.mul_assoc]⟩
      -- Behind an empty domain every product is zero, so what is behind does not count.
      by_cases hzero : n = 0
      · rwa [hzero, productInFront_cons_zero, Nat.mul_one]
      · rwa [productInFront_cons hzero, ← Nat.mul_assoc]
    · rintro ⟨_, _ | ⟨hn, hns⟩, hfront, rfl⟩
      rename_i n ns
      have hfits : a * n ≤ countLimit ∧ a * n * productInFront ns ≤ countLimit := by
        by_cases hzero : n = 0
        · simp [hzero]
        · rw [productInFront_cons hzero, ← Nat.mul_assoc] at hfront
          exact ⟨Nat.le_trans (Nat.le_mul_of_pos_right _ (one_le_productInFront ns)) hfront, hfront⟩
      refine ⟨a * n, times_eq_ok_iff.mpr ⟨n, hn, hfits.1, rfl⟩, (ih hfits.1).mpr ⟨ns, hns, hfits.2, ?_⟩⟩
      rw [List.prod_cons, Nat.mul_assoc]

theorem size_eq_ok_iff : size vs = .ok p ↔ ∃ ns, Sizes vs ns ∧ productInFront ns ≤ countLimit ∧ ns.prod = p := by
  have hone : 1 ≤ countLimit := by decide
  simp only [size, foldlM_times_eq_ok_iff hone, Nat.one_mul]

/-- A size that is not known is too large for a machine word. -/
theorem size_eq_error {f : Failure} (h : size vs = .error f) : f = .resourceExhausted countLimit := by
  unfold size at h
  generalize 1 = product at h
  induction vs generalizing product with
  | nil => cases h
  | cons v vs ih =>
    rw [List.foldlM_cons, bind_eq_error] at h
    rcases h with h | ⟨next, -, h⟩
    · exact times_eq_error h
    · exact ih next h

theorem size_ok_or_exhausted (vs : List Variable) :
    (∃ p, size vs = .ok p) ∨ size vs = .error (.resourceExhausted countLimit) := by
  cases h : size vs with
  | ok p => exact Or.inl ⟨p, rfl⟩
  | error f => exact Or.inr (by rw [size_eq_error h])

/-- Without an empty domain nothing but the product of all sizes has to fit. -/
theorem size_eq_ok_iff_of_not_empty (h : ∀ v ∈ vs, ¬ v.Empty) :
    size vs = .ok p ↔ ∃ ns, Sizes vs ns ∧ ns.prod ≤ countLimit ∧ ns.prod = p := by
  rw [size_eq_ok_iff]
  refine exists_congr fun ns => and_congr_right fun hns => ?_
  rw [productInFront_eq_prod fun hzero => ?_]
  obtain ⟨v, hv, hempty⟩ := hns.zero_mem_iff.mp hzero
  exact h v hv hempty

/-- As many yes/no decisions have two to that power assignments. -/
theorem size_replicate {n : Nat} (hn : 2 ^ n ≤ countLimit) : size (List.replicate n .binary) = .ok (2 ^ n) := by
  have hsizes : ∀ n, Sizes (List.replicate n .binary) (List.replicate n 2) := by
    intro n
    induction n with
    | zero => exact .nil
    | succ n ih => exact .cons rfl ih
  refine (size_eq_ok_iff_of_not_empty fun v hv => ?_).mpr ⟨_, hsizes n, ?_, List.prod_replicate ..⟩
  · rw [List.eq_of_mem_replicate hv]
    exact fun h => nomatch h
  · rwa [List.prod_replicate]

/-! ## Another order -/

/-- What is counted in one order is counted in every other, unless the product is zero. -/
theorem size_of_perm (hperm : vs.Perm ws) (h : size vs = .ok p) : size ws = .ok p ∨
    (∃ v ∈ vs, v.Empty) ∧ p = 0 ∧ size ws = .error (.resourceExhausted countLimit) := by
  obtain ⟨ns, hns, hfront, rfl⟩ := size_eq_ok_iff.mp h
  obtain ⟨ms, hms, hsame⟩ := hns.perm hperm
  by_cases hzero : 0 ∈ ns
  · rcases size_ok_or_exhausted ws with ⟨q, hq⟩ | hexhausted
    · obtain ⟨ls, hls, -, rfl⟩ := size_eq_ok_iff.mp hq
      rw [hls.unique hms, hsame.prod_eq] at hq
      exact Or.inl hq
    · exact Or.inr ⟨hns.zero_mem_iff.mp hzero, List.prod_eq_zero hzero, hexhausted⟩
  · left
    rw [productInFront_eq_prod hzero] at hfront
    rw [size_eq_ok_iff]
    refine ⟨ms, hms, ?_, hsame.prod_eq⟩
    rwa [productInFront_eq_prod fun h => hzero (hsame.mem_iff.mp h), hsame.prod_eq]

/-- Two orders are counted alike, or one of them is counted as empty and the other not at all. -/
theorem size_perm (hperm : vs.Perm ws) : size ws = size vs ∨ (∃ v ∈ vs, v.Empty) ∧
    (size vs = .ok 0 ∧ size ws = .error (.resourceExhausted countLimit) ∨
      size vs = .error (.resourceExhausted countLimit) ∧ size ws = .ok 0) := by
  rcases size_ok_or_exhausted vs with ⟨p, hp⟩ | hvs
  · rcases size_of_perm hperm hp with hq | ⟨hempty, rfl, hws⟩
    · exact Or.inl (hq.trans hp.symm)
    · exact Or.inr ⟨hempty, Or.inl ⟨hp, hws⟩⟩
  · rcases size_ok_or_exhausted ws with ⟨q, hq⟩ | hws
    · rcases size_of_perm hperm.symm hq with hp | ⟨⟨v, hv, hempty⟩, rfl, -⟩
      · exact Or.inl (hq.trans hp.symm)
      · exact Or.inr ⟨⟨v, hperm.mem_iff.mpr hv, hempty⟩, Or.inr ⟨hvs, hq⟩⟩
    · exact Or.inl (hws.trans hvs.symm)

/-- **A grid is counted exactly if every domain has a size and the sizes in front of the first empty domain have a
product that fits**, and is exhausted otherwise. So without an empty domain the product of all sizes is what has to fit.
The order of the domains only matters where one of them is empty, and then for whether the count is zero or missing. -/
theorem size_cases (vs : List Variable) :
    ((∃ p, size vs = .ok p) ∨ size vs = .error (.resourceExhausted countLimit)) ∧
    (∀ p, size vs = .ok p ↔ ∃ ns, Sizes vs ns ∧ productInFront ns ≤ countLimit ∧ ns.prod = p) ∧
    ((∀ v ∈ vs, ¬ v.Empty) → ∀ p, size vs = .ok p ↔ ∃ ns, Sizes vs ns ∧ ns.prod ≤ countLimit ∧ ns.prod = p) ∧
    (∀ ws, vs.Perm ws → size ws = size vs ∨ (∃ v ∈ vs, v.Empty) ∧
      (size vs = .ok 0 ∧ size ws = .error (.resourceExhausted countLimit) ∨
        size vs = .error (.resourceExhausted countLimit) ∧ size ws = .ok 0)) :=
  ⟨size_ok_or_exhausted vs, fun _ => size_eq_ok_iff, fun h _ => size_eq_ok_iff_of_not_empty h,
    fun _ hperm => size_perm hperm⟩

/-- Half of all words, twice, and no integer at all. -/
def emptyBehindWide : List Variable := [.integer 0 Int64.maxValue, .integer 0 Int64.maxValue, .integer 3 1]

/-- The same with the empty domain in front. -/
def emptyInFront : List Variable := [.integer 3 1, .integer 0 Int64.maxValue, .integer 0 Int64.maxValue]

theorem perm_emptyInFront : emptyBehindWide.Perm emptyInFront := by decide +kernel

theorem size_cases_binary : size [.binary, .integer 0 9] = .ok 20 ∧
    size emptyBehindWide = .error (.resourceExhausted countLimit) ∧ size emptyInFront = .ok 0 := by
  obtain ⟨-, -, hcounted, -⟩ := size_cases [.binary, .integer 0 9]
  obtain ⟨-, -, -, horder⟩ := size_cases emptyBehindWide
  have hsizes : Sizes [.binary, .integer 0 9] [2, 10] := .cons rfl (.cons (by decide) .nil)
  refine ⟨(hcounted (by decide) 20).mpr ⟨_, hsizes, by decide, rfl⟩, ?_⟩
  have hvs : size emptyBehindWide = .error (.resourceExhausted countLimit) := by decide +kernel
  rcases horder _ perm_emptyInFront with heq | ⟨-, ⟨hok, -⟩ | h⟩
  · exact absurd heq (by decide +kernel)
  · rw [hvs] at hok
    cases hok
  · exact h

/-- A product of sizes that fits need not be counted, and may be in another order. -/
theorem exists_size_eq_error : ∃ vs ws ns, vs.Perm ws ∧ Sizes vs ns ∧ ns.prod ≤ countLimit ∧
    size vs = .error (.resourceExhausted countLimit) ∧ size ws = .ok 0 :=
  ⟨emptyBehindWide, emptyInFront, [9223372036854775808, 9223372036854775808, 0], perm_emptyInFront,
    .cons (by decide +kernel) (.cons (by decide +kernel) (.cons (by decide) .nil)), by decide, by decide +kernel,
    by decide +kernel⟩

end Sizes

end Grid
end ParetoSweep
