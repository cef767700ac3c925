import RevsetEngine.Probe

/-!
What each set kind yields. On strictly descending inputs the union and difference merges
and the filter yield strictly descending sequences with the expected members, and the
probe of a well-formed set, one whose eager and walk sequences descend, accepts exactly
what its iterator yields.
-/

namespace RevsetEngine

theorem le_of_mem_sorted_cons {a b : Nat} {l : List Nat} (h : (a :: l).Sorted (· > ·))
    (hb : b ∈ a :: l) : b ≤ a := by
  rcases List.mem_cons.mp hb with rfl | hb
  · exact le_refl b
  · exact Nat.le_of_lt (List.rel_of_sorted_cons h b hb)

/-! ### `UnionRevsetIterator` -/

theorem mem_unionIter {xs ys : List Nat} {z : Nat} :
    z ∈ unionIter xs ys ↔ z ∈ xs ∨ z ∈ ys := by
  induction xs, ys using unionIter.induct with
  | case1 ys => simp [unionIter]
  | case2 x xs => simp [unionIter]
  | case3 x xs y ys hlt ih =>
      rw [unionIter, if_pos hlt, List.mem_cons, ih, @List.mem_cons _ y ys z]
      exact or_left_comm
  | case4 xs y ys _ ih =>
      rw [unionIter, if_neg (Nat.lt_irrefl y), if_pos rfl, List.mem_cons, ih, List.mem_cons,
        List.mem_cons]
      exact or_or_distrib_left
  | case5 x xs y ys hlt hne ih =>
      rw [unionIter, if_neg hlt, if_neg hne, List.mem_cons, ih, @List.mem_cons _ x xs z]
      exact or_assoc.symm

theorem unionIter_sorted {xs ys : List Nat} (hx : xs.Sorted (· > ·)) (hy : ys.Sorted (· > ·)) :
    (unionIter xs ys).Sorted (· > ·) := by
  induction xs, ys using unionIter.induct with
  | case1 ys => rwa [unionIter]
  | case2 x xs => rwa [unionIter]
  | case3 x xs y ys hlt ih =>
      rw [unionIter, if_pos hlt, List.sorted_cons]
      refine ⟨fun b hb => ?_, ih hx (List.sorted_cons.mp hy).2⟩
      rcases mem_unionIter.mp hb with hb | hb
      · have := le_of_mem_sorted_cons hx hb; omega
      · exact List.rel_of_sorted_cons hy b hb
  | case4 xs y ys _ ih =>
      rw [unionIter, if_neg (Nat.lt_irrefl y), if_pos rfl, List.sorted_cons]
      refine ⟨fun b hb => ?_, ih (List.sorted_cons.mp hx).2 (List.sorted_cons.mp hy).2⟩
      rcases mem_unionIter.mp hb with hb | hb
      · exact List.rel_of_sorted_cons hx b hb
      · exact List.rel_of_sorted_cons hy b hb
  | case5 x xs y ys hlt hne ih =>
      rw [unionIter, if_neg hlt, if_neg hne, List.sorted_cons]
      refine ⟨fun b hb => ?_, ih (List.sorted_cons.mp hx).2 hy⟩
      rcases mem_unionIter.mp hb with hb | hb
      · exact List.rel_of_sorted_cons hx b hb
      · have := le_of_mem_sorted_cons hy hb; omega

/-! ### `DifferenceRevsetIterator` -/

theorem differenceIter_sublist (xs ys : List Nat) : (differenceIter xs ys).Sublist xs := by
  induction xs, ys using differenceIter.induct with
  | case1 ys => simp [differenceIter]
  | case2 x xs => simp [differenceIter]
  | case3 x xs y ys hlt ih => rwa [differenceIter, if_pos hlt]
  | case4 xs y ys _ ih =>
      rw [differenceIter, if_neg (Nat.lt_irrefl y), if_pos rfl]
      exact ih.cons y
  | case5 x xs y ys hlt hne ih =>
      rw [differenceIter, if_neg hlt, if_neg hne]
      exact ih.cons₂ x

theorem mem_differenceIter {xs ys : List Nat} (hx : xs.Sorted (· > ·))
    (hy : ys.Sorted (· > ·)) {z : Nat} : z ∈ differenceIter xs ys ↔ z ∈ xs ∧ z ∉ ys := by
  induction xs, ys using differenceIter.induct with
  | case1 ys => simp [differenceIter]
  | case2 x xs => simp [differenceIter]
  | case3 x xs y ys hlt ih =>
      rw [differenceIter, if_pos hlt, ih hx (List.sorted_cons.mp hy).2, @List.mem_cons _ y ys z]
      have hne : z ∈ x :: xs → z ≠ y := fun hz => by have := le_of_mem_sorted_cons hx hz; omega
      rw [not_or]
      exact and_congr_right fun hz => ⟨fun h => ⟨hne hz, h⟩, And.right⟩
  | case4 xs y ys _ ih =>
      rw [differenceIter, if_neg (Nat.lt_irrefl y), if_pos rfl,
        ih (List.sorted_cons.mp hx).2 (List.sorted_cons.mp hy).2, List.mem_cons, List.mem_cons]
      have hne : z ∈ xs → z ≠ y := fun hz => Nat.ne_of_lt (List.rel_of_sorted_cons hx z hz)
      rw [not_or]
      exact ⟨fun ⟨hz, hzy⟩ => ⟨Or.inr hz, hne hz, hzy⟩,
        fun ⟨hz, hzy, hys⟩ => ⟨hz.resolve_left hzy, hys⟩⟩
  | case5 x xs y ys hlt hne ih =>
      rw [differenceIter, if_neg hlt, if_neg hne, List.mem_cons, ih (List.sorted_cons.mp hx).2 hy,
        @List.mem_cons _ x xs z]
      have : x ∉ y :: ys := fun hm => by have := le_of_mem_sorted_cons hy hm; omega
      constructor
      · rintro (rfl | ⟨hz, hzy⟩)
        · exact ⟨Or.inl rfl, this⟩
        · exact ⟨Or.inr hz, hzy⟩
      · rintro ⟨rfl | hz, hzy⟩
        · exact Or.inl rfl
        · exact Or.inr ⟨hz, hzy⟩

/-! ### `FilterRevsetIterator` -/

theorem filterRevsetIter_sublist (l : List Nat) (p : PredicateFn) :
    (filterRevsetIter l p).Sublist l := by
  induction l generalizing p with
  | nil => exact List.Sublist.slnil
  | cons e l ih =>
      simp only [filterRevsetIter]
      split
      · exact (ih _).cons₂ e
      · exact (ih _).cons e
      · exact List.nil_sublist _

/-- Streaming descending candidates against a probe stops at its first `NeverAgain`,
and loses nothing by it: the result is the candidates the probe accepts. -/
theorem mem_filterRevsetIter {l : List Nat} {p : PredicateFn} (hl : l.Sorted (· > ·))
    (hp : p.Valid) {x : Nat} : x ∈ filterRevsetIter l p ↔ x ∈ l ∧ p.Accepts x := by
  induction l generalizing p with
  | nil => simp [filterRevsetIter]
  | cons e l ih =>
      have hl' := List.sorted_cons.mp hl
      have ih' := ih hl'.2 (PredicateFn.call_valid hp e)
      have hbelow : x ∈ l → ((p.call e).2.Accepts x ↔ p.Accepts x) := fun hx =>
        PredicateFn.call_accepts_of_lt hp (hl'.1 x hx)
      simp only [filterRevsetIter]
      split
      · next h =>
          have he := (PredicateFn.call_eq_match_iff hp e).mp h
          rw [List.mem_cons, ih', List.mem_cons]
          constructor
          · rintro (rfl | ⟨hx, ha⟩)
            · exact ⟨Or.inl rfl, he⟩
            · exact ⟨Or.inr hx, (hbelow hx).mp ha⟩
          · rintro ⟨rfl | hx, ha⟩
            · exact Or.inl rfl
            · exact Or.inr ⟨hx, (hbelow hx).mpr ha⟩
      · next h =>
          have he : ¬p.Accepts e := fun he =>
            by rw [(PredicateFn.call_eq_match_iff hp e).mpr he] at h; cases h
          rw [ih', List.mem_cons]
          constructor
          · rintro ⟨hx, ha⟩
            exact ⟨Or.inr hx, (hbelow hx).mp ha⟩
          · rintro ⟨rfl | hx, ha⟩
            · exact absurd ha he
            · exact ⟨hx, (hbelow hx).mpr ha⟩
      · next h =>
          refine iff_of_false (List.not_mem_nil x) fun ⟨hx, ha⟩ => ?_
          have := PredicateFn.lt_of_call_eq_neverAgain hp h ha
          have := le_of_mem_sorted_cons hl hx
          omega

/-! ### The set kinds -/

namespace InternalRevset

variable (index : CompositeIndex)

/-- The eager and walk sequences descend strictly; the rest of the engine's order follows. -/
def WellFormed : InternalRevset → Prop
  | .eager indexEntries => indexEntries.Sorted (· > ·)
  | .revWalk walk => walk.Sorted (· > ·)
  | .filterPure candidates _ => candidates.WellFormed
  | .children s1 s2 | .filter s1 s2 | .union s1 s2 | .difference s1 s2 =>
      s1.WellFormed ∧ s2.WellFormed

theorem childrenIter_sorted {roots candidates : List Nat}
    (h : candidates.Sorted (· > ·)) : (childrenIter index roots candidates).Sorted (· > ·) :=
  h.filter _

theorem mem_childrenIter {roots candidates : List Nat} {x : Nat} :
    x ∈ childrenIter index roots candidates ↔
      x ∈ candidates ∧ ∃ p ∈ index.parentPositions x, p ∈ roots := by
  simp [childrenIter]

/-- A well-formed set yields a strictly descending sequence, and its probe is valid and
accepts exactly the yielded entries. -/
theorem WellFormed.spec {S : InternalRevset} (h : S.WellFormed) :
    (S.iter index).Sorted (· > ·) ∧ (S.toPredicateFn index).Valid ∧
      ∀ x, (S.toPredicateFn index).Accepts x ↔ x ∈ S.iter index := by
  induction S with
  | eager indexEntries => exact ⟨h, h, fun _ => Iff.rfl⟩
  | revWalk walk => exact ⟨h, h, fun _ => Iff.rfl⟩
  | children rootSet candidateSet _ ih2 =>
      have hs := @childrenIter_sorted index (rootSet.iter index) _ (ih2 h.2).1
      exact ⟨hs, hs, fun _ => Iff.rfl⟩
  | filter candidates predicate ih1 ih2 =>
      obtain ⟨hs1, hv1, ha1⟩ := ih1 h.1
      obtain ⟨_, hv2, ha2⟩ := ih2 h.2
      refine ⟨hs1.sublist (filterRevsetIter_sublist _ _), ⟨hv1, hv2⟩, fun x => ?_⟩
      simp only [iter, toPredicateFn, PredicateFn.Accepts, mem_filterRevsetIter hs1 hv2, ha1]
  | filterPure candidates predicate ih =>
      obtain ⟨hs1, hv1, ha1⟩ := ih h
      refine ⟨hs1.sublist (filterRevsetIter_sublist _ _), ⟨hv1, trivial⟩, fun x => ?_⟩
      simp only [iter, toPredicateFn, PredicateFn.Accepts,
        mem_filterRevsetIter hs1 (PredicateFn.valid_pure predicate), ha1]
  | union set1 set2 ih1 ih2 =>
      obtain ⟨hs1, hv1, ha1⟩ := ih1 h.1
      obtain ⟨hs2, hv2, ha2⟩ := ih2 h.2
      refine ⟨unionIter_sorted hs1 hs2, ⟨hv1, hv2⟩, fun x => ?_⟩
      simp only [iter, toPredicateFn, PredicateFn.Accepts, mem_unionIter, ha1, ha2]
  | difference set1 set2 ih1 ih2 =>
      obtain ⟨hs1, hv1, ha1⟩ := ih1 h.1
      obtain ⟨hs2, hv2, ha2⟩ := ih2 h.2
      refine ⟨hs1.sublist (differenceIter_sublist _ _), ⟨hv1, hv2⟩, fun x => ?_⟩
      simp only [iter, toPredicateFn, PredicateFn.Accepts, mem_differenceIter hs1 hs2, ha1, ha2]

/-- Every set's probe consumes its queries: at its base is a `predicate_fn_from_iter`. -/
theorem toPredicateFn_consumes (S : InternalRevset) : (S.toPredicateFn index).Consumes := by
  induction S with
  | eager | revWalk | children => trivial
  | filter _ _ ih _ | filterPure _ _ ih => exact Or.inl ih
  | union _ _ ih1 ih2 => exact ⟨ih1, ih2⟩
  | difference _ _ ih _ => exact ih

theorem WellFormed.sorted {S : InternalRevset} (h : S.WellFormed) :
    (S.iter index).Sorted (· > ·) :=
  (h.spec index).1

theorem WellFormed.mem_iter_filter {c p : InternalRevset} (hc : c.WellFormed)
    (hp : p.WellFormed) {x : Nat} :
    x ∈ (filter c p).iter index ↔ x ∈ c.iter index ∧ x ∈ p.iter index := by
  have := (hp.spec index).2
  simp only [iter, mem_filterRevsetIter (hc.sorted index) this.1, this.2]

theorem WellFormed.mem_iter_filterPure {c : InternalRevset} (hc : c.WellFormed)
    (f : PurePredicateFn) {x : Nat} :
    x ∈ (filterPure c f).iter index ↔ x ∈ c.iter index ∧ f.call x = .match := by
  simp only [iter, mem_filterRevsetIter (hc.sorted index) (PredicateFn.valid_pure f),
    PredicateFn.Accepts]

theorem WellFormed.mem_iter_difference {s1 s2 : InternalRevset} (h1 : s1.WellFormed)
    (h2 : s2.WellFormed) {x : Nat} :
    x ∈ (difference s1 s2).iter index ↔ x ∈ s1.iter index ∧ x ∉ s2.iter index := by
  simp only [iter, mem_differenceIter (h1.sorted index) (h2.sorted index)]

theorem mem_iter_union {s1 s2 : InternalRevset} {x : Nat} :
    x ∈ (union s1 s2).iter index ↔ x ∈ s1.iter index ∨ x ∈ s2.iter index := by
  simp only [iter, mem_unionIter]

end InternalRevset

end RevsetEngine
