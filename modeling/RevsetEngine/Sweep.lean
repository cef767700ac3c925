import RevsetEngine.Evaluate

/-!
The ascending sweep of `DagRange`. Over candidates that are closed under parents and
visited in ascending position, a candidate is marked exactly when it descends from a
root, so the sweep computes the descendant closure of the roots within the candidates.
-/

namespace RevsetEngine

variable (index : CompositeIndex) (roots : List Nat)

/-- `x` is a root or descends from one through parent edges. -/
def DescendsFrom (x : Nat) : Prop :=
  ∃ r ∈ roots, index.IsAncestor r x

/-- The sweep state after the ascending prefix `pre`: its output is the part of `pre`
that descends from a root, and it has marked that output and the roots. -/
def SweepInv (pre : List Nat) (state : List Nat × List Nat) : Prop :=
  (∀ x, x ∈ state.2 ↔ x ∈ pre ∧ DescendsFrom index roots x) ∧
    ∀ x, x ∈ state.1 ↔ x ∈ state.2 ∨ x ∈ roots

theorem sweepInv_nil : SweepInv index roots [] (roots, []) :=
  ⟨fun _ => by simp, fun _ => by simp⟩

theorem descendsFrom_of_parent {roots : List Nat} {p c : Nat}
    (hp : p ∈ index.parentPositions c) (h : DescendsFrom index roots p) :
    DescendsFrom index roots c :=
  let ⟨r, hr, hrp⟩ := h
  ⟨r, hr, hrp.tail hp⟩

/-- One candidate, all of whose parents were visited before it. -/
theorem sweepInv_step {pre : List Nat} {state : List Nat × List Nat} {c : Nat}
    (hpre : ∀ p ∈ index.parentPositions c, p ∈ pre)
    (h : SweepInv index roots pre state) :
    SweepInv index roots (pre ++ [c]) (dagRangeStep index state c) := by
  obtain ⟨hout, hmarked⟩ := h
  have hroot : ∀ x, x ∈ state.1 → DescendsFrom index roots x := fun x hx =>
    ((hmarked x).mp hx).elim (fun h => ((hout x).mp h).2) fun h => ⟨x, h, .refl⟩
  have hreach : (decide (c ∈ state.1) || (index.parentPositions c).any (· ∈ state.1)) ↔
      DescendsFrom index roots c := by
    simp only [Bool.or_eq_true, decide_eq_true_eq, List.any_eq_true]
    constructor
    · rintro (hc | ⟨p, hp, hps⟩)
      · exact hroot c hc
      · exact descendsFrom_of_parent index hp (hroot p hps)
    · rintro ⟨r, hr, hrc⟩
      rcases Relation.ReflTransGen.cases_tail hrc with h | ⟨p, hrp, hp⟩
      · subst h
        exact Or.inl ((hmarked _).mpr (Or.inr hr))
      · exact Or.inr ⟨p, hp, (hmarked p).mpr (Or.inl ((hout p).mpr ⟨hpre p hp, r, hr, hrp⟩))⟩
  unfold dagRangeStep
  split
  · next hc =>
      refine ⟨fun x => ?_, fun x => ?_⟩
      · simp only [List.mem_append, List.mem_singleton, hout]
        constructor
        · rintro (h | rfl)
          · exact ⟨Or.inl h.1, h.2⟩
          · exact ⟨Or.inr rfl, hreach.mp hc⟩
        · rintro ⟨h | rfl, hx⟩
          · exact Or.inl ⟨h, hx⟩
          · exact Or.inr rfl
      · simp only [List.mem_cons, hmarked, List.mem_append, List.mem_singleton]
        tauto
  · next hc =>
      refine ⟨fun x => ?_, hmarked⟩
      simp only [hout, List.mem_append, List.mem_singleton]
      constructor
      · exact fun h => ⟨Or.inl h.1, h.2⟩
      · rintro ⟨h | rfl, hx⟩
        · exact ⟨h, hx⟩
        · exact absurd (hreach.mpr hx) hc

/-- The whole sweep over an ascending, parent-closed sequence. -/
theorem sweepInv_foldl (hbelow : index.ParentsBelow) :
    ∀ (post pre : List Nat) (state : List Nat × List Nat),
      (pre ++ post).Sorted (· < ·) →
      (∀ c ∈ pre ++ post, ∀ p ∈ index.parentPositions c, p ∈ pre ++ post) →
      SweepInv index roots pre state →
      SweepInv index roots (pre ++ post) (post.foldl (dagRangeStep index) state)
  | [], pre, state, _, _, h => by simpa using h
  | c :: post, pre, state, hsorted, hclosed, h => by
      have hpre : ∀ p ∈ index.parentPositions c, p ∈ pre := fun p hp => by
        have hmem := hclosed c (by simp) p hp
        have hpc := hbelow c p hp
        have hpost : ∀ q ∈ post, c < q :=
          (List.pairwise_cons.mp (List.pairwise_append.mp hsorted).2.1).1
        simp only [List.mem_append, List.mem_cons] at hmem
        rcases hmem with h | rfl | h
        · exact h
        · omega
        · have := hpost p h; omega
      have := sweepInv_foldl hbelow post (pre ++ [c]) (dagRangeStep index state c)
        (by simpa using hsorted) (by simpa using hclosed) (sweepInv_step index roots hpre h)
      simpa using this

theorem foldl_dagRangeStep_snd :
    ∀ (l : List Nat) (state : List Nat × List Nat),
      ∃ sub, sub.Sublist l ∧ (l.foldl (dagRangeStep index) state).2 = state.2 ++ sub
  | [], state => ⟨[], List.nil_sublist _, by simp⟩
  | c :: l, state => by
      obtain ⟨sub, hsub, heq⟩ := foldl_dagRangeStep_snd l (dagRangeStep index state c)
      by_cases hc : (decide (c ∈ state.1) || (index.parentPositions c).any (· ∈ state.1)) = true
      · refine ⟨c :: sub, hsub.cons₂ c, ?_⟩
        rw [List.foldl_cons, heq, dagRangeStep, if_pos hc]
        simp
      · refine ⟨sub, hsub.cons c, ?_⟩
        rw [List.foldl_cons, heq, dagRangeStep, if_neg hc]

/-- The sweep keeps a subsequence of the candidates, so their order. -/
theorem dagRangeSweep_sublist (candidates : List Nat) :
    (dagRangeSweep index roots candidates).Sublist candidates := by
  obtain ⟨sub, hsub, heq⟩ := foldl_dagRangeStep_snd index candidates.reverse (roots, [])
  rw [dagRangeSweep, heq, List.nil_append, ← List.reverse_reverse candidates]
  exact hsub.reverse

/-! The roots stay marked through the whole sweep, so a candidate with a parent among
them is kept wherever it comes. Neither the order of the candidates nor parents below
their children is needed for this. -/

theorem childrenIter_dagRangeStep {state : List Nat × List Nat}
    (hroots : ∀ r ∈ roots, r ∈ state.1) (c : Nat) :
    childrenIter index roots (dagRangeStep index state c).2 =
      childrenIter index roots state.2 ++ childrenIter index roots [c] := by
  unfold dagRangeStep
  split
  · exact List.filter_append _ _
  · next hc =>
      have hnone : (index.parentPositions c).any (· ∈ roots) = false := by
        simp only [Bool.or_eq_true, decide_eq_true_eq, List.any_eq_true, not_or] at hc
        simpa using fun p hp hr => hc.2 ⟨p, hp, hroots p hr⟩
      simp [childrenIter, hnone]

theorem childrenIter_foldl_dagRangeStep :
    ∀ (l : List Nat) (state : List Nat × List Nat), (∀ r ∈ roots, r ∈ state.1) →
      childrenIter index roots (l.foldl (dagRangeStep index) state).2 =
        childrenIter index roots state.2 ++ childrenIter index roots l
  | [], state, _ => by simp [childrenIter]
  | c :: l, state, hroots => by
      have hmarked : ∀ r ∈ roots, r ∈ (dagRangeStep index state c).1 := fun r hr => by
        unfold dagRangeStep
        split
        · exact List.mem_cons_of_mem _ (hroots r hr)
        · exact hroots r hr
      rw [List.foldl_cons, childrenIter_foldl_dagRangeStep l _ hmarked,
        childrenIter_dagRangeStep index roots hroots, List.append_assoc]
      exact congrArg _ (List.filter_append [c] l).symm

/-- The children of the roots among the sweep's output are their children among all the
candidates: the sweep drops no candidate that has a parent among the roots. -/
theorem childrenIter_dagRangeSweep (candidates : List Nat) :
    childrenIter index roots (dagRangeSweep index roots candidates) =
      childrenIter index roots candidates := by
  have h := childrenIter_foldl_dagRangeStep index roots candidates.reverse (roots, [])
    fun _ => id
  simp only [childrenIter, List.filter_nil, List.nil_append, List.filter_reverse] at h
  rw [dagRangeSweep, childrenIter, List.filter_reverse, h, List.reverse_reverse, childrenIter]

/-- Over strictly descending candidates closed under parents, the sweep keeps exactly
the candidates that descend from a root. -/
theorem mem_dagRangeSweep (hbelow : index.ParentsBelow) {candidates : List Nat}
    (hsorted : candidates.Sorted (· > ·))
    (hclosed : ∀ c ∈ candidates, ∀ p ∈ index.parentPositions c, p ∈ candidates) (x : Nat) :
    x ∈ dagRangeSweep index roots candidates ↔
      x ∈ candidates ∧ DescendsFrom index roots x := by
  have h := sweepInv_foldl index roots hbelow candidates.reverse [] (roots, [])
    (by simpa [List.Sorted, List.pairwise_reverse] using hsorted)
    (by simpa using hclosed) (sweepInv_nil index roots)
  simp only [dagRangeSweep, List.mem_reverse, h.1 x, List.nil_append]

end RevsetEngine
