import ParetoSweep.Front.Basic
import ParetoSweep.Proofs.Front.Dominance

/-!
# The members of a front are the optimal candidates

A front compares a candidate only with the members that are left, yet its members are those that `optimal` picks by
comparing every candidate with every other one. What carries this through evictions is that each candidate ever offered
is under some member (`Covers`): a member goes only if the one that takes its place is under it. `Keeps.insert` is one
step, `keeps_extend` a run, and `members_offerAll` the statement for any mix of ways to offer candidates.
-/

namespace ParetoSweep

open Candidate (Comparable Under)

/-! ## Optimal candidates -/

/-- The candidates of a list that no other one dominates and no earlier one ties. -/
def optimal (cs : List Candidate) : List Candidate :=
  (cs.zipIdx.filter fun (c, i) =>
    cs.all (fun d => Dominance.ofCandidates d c ≠ .left) && (cs.take i).all (fun d => !d.ties c)).map Prod.fst

section Optimal

variable {n : Nat} {cs : List Candidate} {c d : Candidate}

theorem mem_of_mem_optimal (h : c ∈ optimal cs) : c ∈ cs := by
  obtain ⟨⟨c', i⟩, hmem, rfl⟩ := List.mem_map.mp h
  exact List.fst_mem_of_mem_zipIdx (List.mem_filter.mp hmem).1

theorem not_dominates_of_mem_optimal (h : c ∈ optimal cs) (hd : d ∈ cs) : Dominance.ofCandidates d c ≠ .left := by
  obtain ⟨⟨c', i⟩, hmem, rfl⟩ := List.mem_map.mp h
  have hall := (List.mem_filter.mp hmem).2
  rw [Bool.and_eq_true] at hall
  exact of_decide_eq_true (List.all_eq_true.mp hall.1 d hd)

theorem getElem?_of_mem_optimal (h : c ∈ optimal cs) :
    ∃ i : Nat, cs[i]? = some c ∧ ∀ (j : Nat) (d : Candidate), j < i → cs[j]? = some d → d.ties c = false := by
  obtain ⟨⟨c', i⟩, hmem, rfl⟩ := List.mem_map.mp h
  obtain ⟨hmem, hall⟩ := List.mem_filter.mp hmem
  rw [Bool.and_eq_true] at hall
  refine ⟨i, List.mem_zipIdx_iff_getElem?.mp hmem, fun j d hj hd => ?_⟩
  have htake : (cs.take i)[j]? = some d := (List.getElem?_take_of_lt hj).trans hd
  exact (Bool.not_eq_true' _).mp (List.all_eq_true.mp hall.2 d (List.mem_of_getElem? htake))

theorem not_excludes_iff (hc : c.Comparable n) (hcs : ∀ d ∈ cs, d.Comparable n) :
    (∀ d ∈ cs, d.excludes c = false) ↔ ∀ d ∈ cs, Dominance.ofCandidates d c ≠ .left ∧ d.ties c = false := by
  refine forall₂_congr fun d hd => ?_
  rw [← Bool.not_eq_true, Candidate.excludes_iff_dominates_or_ties (hcs d hd) hc, not_or, Bool.not_eq_true]

theorem not_dominates_self (hc : c.Comparable n) : Dominance.ofCandidates c c ≠ .left :=
  fun h => ((Candidate.dominates_iff hc hc).mp h).2 (Under.refl c)

/-- One more candidate takes away those that it dominates, and comes last unless an earlier one excludes it. -/
theorem optimal_concat (hc : c.Comparable n) (hcs : ∀ d ∈ cs, d.Comparable n) :
    optimal (cs ++ [c]) = (optimal cs).filter (fun m => Dominance.ofCandidates c m ≠ .left) ++
      if ∀ d ∈ cs, d.excludes c = false then [c] else [] := by
  unfold optimal
  rw [List.zipIdx_append, List.filter_append, List.map_append, List.filter_map, List.filter_filter]
  congr 1
  · congr 1
    refine List.filter_congr fun ⟨m, i⟩ hm => ?_
    have hi := List.snd_lt_of_mem_zipIdx hm
    simp only [Function.comp_apply, List.all_append, List.all_cons, List.all_nil, Bool.and_true]
    rw [List.take_append_of_le_length (by omega), Bool.and_right_comm, Bool.and_comm]
  · rw [List.zipIdx_singleton]
    have hself := not_dominates_self hc
    by_cases hall : ∀ d ∈ cs, d.excludes c = false
    · have hiff := (not_excludes_iff hc hcs).mp hall
      rw [if_pos hall, List.filter_cons_of_pos]
      · rfl
      · simp only [Nat.zero_add, List.take_left', Bool.and_eq_true, List.all_eq_true]
        refine ⟨fun d hd => ?_, fun d hd => ?_⟩
        · rcases List.mem_append.mp hd with hd | hd
          · exact decide_eq_true (hiff d hd).1
          · cases List.mem_singleton.mp hd
            exact decide_eq_true hself
        · rw [(hiff d hd).2, Bool.not_false]
    · rw [if_neg hall, List.filter_cons_of_neg]
      · rfl
      · intro h
        simp only [Nat.zero_add, List.take_left', Bool.and_eq_true, List.all_eq_true] at h
        refine hall ((not_excludes_iff hc hcs).mpr fun d hd => ⟨?_, ?_⟩)
        · exact of_decide_eq_true (h.1 d (List.mem_append_left _ hd))
        · exact (Bool.not_eq_true' _).mp (h.2 d hd)

end Optimal

/-! ## One candidate after the other -/

/-- Every candidate is under some member. -/
def Front.Covers (f : Front) (cs : List Candidate) : Prop := ∀ c ∈ cs, ∃ m ∈ f.members, m.Under c

/-- A front that is in the state that the candidates offered so far ask for. -/
structure Front.Keeps (f : Front) (cs : List Candidate) : Prop where
  members : f.members = optimal cs
  covers : f.Covers cs

section Keeps

variable {n : Nat} {f : Front} {cs : List Candidate} {c : Candidate}

theorem keeps_empty : Front.empty.Keeps [] := ⟨rfl, fun _ h => nomatch h⟩

/-- The members decide like all candidates offered so far. -/
theorem Front.Keeps.admits_iff (h : f.Keeps cs) (hc : c.Comparable n) (hcs : ∀ d ∈ cs, d.Comparable n) :
    f.admits c = true ↔ ∀ d ∈ cs, d.excludes c = false := by
  unfold Front.admits
  rw [Bool.not_eq_true', List.any_eq_false]
  constructor
  · intro hnone d hd
    by_contra hexcl
    obtain ⟨m, hm, hmd⟩ := h.covers d hd
    have hdc := (Candidate.excludes_iff (hcs d hd) hc).mp (Bool.of_not_eq_false hexcl)
    have hmcs : m ∈ cs := mem_of_mem_optimal (h.members ▸ hm)
    exact hnone m hm ((Candidate.excludes_iff (hcs m hmcs) hc).mpr (hmd.trans hdc))
  · intro hnone m hm
    have hmcs : m ∈ cs := mem_of_mem_optimal (h.members ▸ hm)
    rw [hnone m hmcs]
    exact Bool.false_ne_true

theorem Front.Keeps.insert (h : f.Keeps cs) (hc : c.Comparable n) (hcs : ∀ d ∈ cs, d.Comparable n) :
    (f.insert c).Keeps (cs ++ [c]) := by
  have hadmits := h.admits_iff hc hcs
  have hconcat := optimal_concat hc hcs
  cases hadm : f.admits c with
  | true =>
    have hmembers := Front.members_insert_of_admits hadm
    refine ⟨?_, fun d hd => ?_⟩
    · rw [hmembers, hconcat, if_pos (hadmits.mp hadm), h.members]
    · rw [hmembers]
      rcases List.mem_append.mp hd with hd | hd
      · obtain ⟨m, hm, hmd⟩ := h.covers d hd
        by_cases hdom : Dominance.ofCandidates c m = .left
        · -- the member goes, and the new one covers what it covered
          have hmcs : m ∈ cs := mem_of_mem_optimal (h.members ▸ hm)
          have hcm := ((Candidate.dominates_iff hc (hcs m hmcs)).mp hdom).1
          exact ⟨c, by simp, hcm.trans hmd⟩
        · exact ⟨m, List.mem_append_left _ (List.mem_filter.mpr ⟨hm, decide_eq_true hdom⟩), hmd⟩
      · cases List.mem_singleton.mp hd
        exact ⟨c, by simp, Under.refl c⟩
  | false =>
    rw [hadm, Bool.false_eq_true, false_iff] at hadmits
    rw [Front.insert_of_not_admits hadm]
    obtain ⟨d, hd, hdc⟩ : ∃ d ∈ cs, d.excludes c = true := by
      by_contra hnone
      exact hadmits fun d hd => Bool.of_not_eq_true fun hdc => hnone ⟨d, hd, hdc⟩
    have hunder := (Candidate.excludes_iff (hcs d hd) hc).mp hdc
    refine ⟨?_, fun e he => ?_⟩
    · rw [hconcat, if_neg hadmits, List.append_nil, h.members, List.filter_eq_self.mpr]
      intro m hm
      refine decide_eq_true fun hdom => not_dominates_of_mem_optimal hm hd ?_
      have hmcs := mem_of_mem_optimal hm
      obtain ⟨hcm, hmc⟩ := (Candidate.dominates_iff hc (hcs m hmcs)).mp hdom
      exact (Candidate.dominates_iff (hcs d hd) (hcs m hmcs)).mpr ⟨hunder.trans hcm, fun hmd => hmc (hmd.trans hunder)⟩
    · rcases List.mem_append.mp he with he | he
      · exact h.covers e he
      · cases List.mem_singleton.mp he
        obtain ⟨m, hm, hmd⟩ := h.covers d hd
        exact ⟨m, hm, hmd.trans hunder⟩

theorem keeps_extend {ds : List Candidate} (h : f.Keeps cs) (hds : ∀ d ∈ cs ++ ds, d.Comparable n) :
    (f.extend ds).Keeps (cs ++ ds) := by
  induction ds generalizing f cs with
  | nil => rwa [List.append_nil]
  | cons d ds ih =>
    have hstep := h.insert (hds d (by simp)) fun e he => hds e (List.mem_append_left _ he)
    rw [List.append_cons]
    exact ih hstep (by simpa using hds)

theorem keeps_ofList (hcs : ∀ c ∈ cs, c.Comparable n) : (Front.ofList cs).Keeps cs := keeps_extend keeps_empty hcs

end Keeps

/-! ## Any mix of offers -/

/-- What is offered to a front at a time: one candidate or several. -/
inductive Offer where
  | insert (c : Candidate)
  | extend (cs : List Candidate)

/-- The candidates of an offer. -/
def Offer.candidates : Offer → List Candidate
  | .insert c => [c]
  | .extend cs => cs

namespace Front

/-- Takes an offer. -/
def offer (f : Front) : Offer → Front
  | .insert c => f.insert c
  | .extend cs => f.extend cs

/-- Takes offers one after the other. -/
def offerAll (f : Front) (os : List Offer) : Front := os.foldl offer f

theorem offerAll_eq_extend (f : Front) (os : List Offer) : f.offerAll os = f.extend (os.flatMap Offer.candidates) := by
  induction os generalizing f with
  | nil => rfl
  | cons o os ih =>
    have hstep : f.offer o = f.extend o.candidates := by cases o <;> rfl
    rw [List.flatMap_cons, extend, List.foldl_append]
    show (f.offer o).offerAll os = _
    rw [ih, hstep]
    rfl

/-- However comparable candidates are offered, the members are the optimal ones, and a candidate is admitted iff none
of those before it dominates or ties it, whether or not these are still members. -/
theorem members_offerAll (n : Nat) (os : List Offer) (hos : ∀ c ∈ os.flatMap Offer.candidates, c.Comparable n) :
    (empty.offerAll os).members = optimal (os.flatMap Offer.candidates) ∧
      (ofList (os.flatMap Offer.candidates)).members = optimal (os.flatMap Offer.candidates) ∧
      ∀ pre o post, os = pre ++ o :: post → ∀ as c bs, o.candidates = as ++ c :: bs →
        (((empty.offerAll pre).extend as).admits c = true ↔
          ∀ d ∈ pre.flatMap Offer.candidates ++ as, Dominance.ofCandidates d c ≠ .left ∧ d.ties c = false) := by
  have hmembers : (ofList (os.flatMap Offer.candidates)).members = optimal (os.flatMap Offer.candidates) :=
    (keeps_ofList hos).members
  refine ⟨(congrArg members (offerAll_eq_extend empty os)).trans hmembers, hmembers, ?_⟩
  rintro pre o post rfl as c bs ho
  have hearlier : ∀ d ∈ pre.flatMap Offer.candidates ++ as, d.Comparable n := by
    intro d hd
    refine hos d ?_
    simp only [List.flatMap_append, List.flatMap_cons, ho, List.mem_append] at hd ⊢
    tauto
  have hc : c.Comparable n := hos c (by simp [ho])
  have hkeeps : ((empty.offerAll pre).extend as).Keeps (pre.flatMap Offer.candidates ++ as) := by
    rw [offerAll_eq_extend, extend, extend, ← List.foldl_append]
    exact keeps_ofList hearlier
  rw [hkeeps.admits_iff hc hearlier, not_excludes_iff hc hearlier]

/-- A later candidate that is better in another objective joins the first one, and one that ties the first one does
not. -/
theorem members_offerAll_three :
    (empty.offerAll [.insert ⟨[.binary false], .scored ⟨[2.0, 1.0], []⟩⟩,
      .extend [⟨[.binary true], .scored ⟨[1.0, 2.0], []⟩⟩, ⟨[.integer 3], .scored ⟨[2.0, 1.0], [0.0]⟩⟩]]).members =
      [⟨[.binary false], .scored ⟨[2.0, 1.0], []⟩⟩, ⟨[.binary true], .scored ⟨[1.0, 2.0], []⟩⟩] := by
  have hmembers := members_offerAll 2 [.insert ⟨[.binary false], .scored ⟨[2.0, 1.0], []⟩⟩,
    .extend [⟨[.binary true], .scored ⟨[1.0, 2.0], []⟩⟩, ⟨[.integer 3], .scored ⟨[2.0, 1.0], [0.0]⟩⟩]] ?_
  · exact hmembers.1.trans (by decide +kernel)
  · intro c hc
    simp only [Offer.candidates, List.flatMap_cons, List.flatMap_nil, List.cons_append, List.nil_append,
      List.mem_cons, List.not_mem_nil, or_false] at hc
    rcases hc with rfl | rfl | rfl <;> exact ⟨by decide, by decide +kernel, by decide +kernel⟩

end Front
end ParetoSweep
