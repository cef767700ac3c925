import RevsetEngine.Revset

/-!
What a probe answers. A probe state accepts a set of positions; called at a position it
answers `Match` exactly on an accepted one, answers `NeverAgain` only when nothing at or
below the position is accepted, and keeps accepting the same positions below it. So over
descending queries a probe answers as membership in what it accepts. A probe that
consumes its queries answers non-increasing ones as membership minus what was queried
before. Independently of the order of queries, `NeverAgain` is absorbing.
-/

namespace RevsetEngine
namespace PredicateFn

/-- Every `fromIter` rest is strictly descending, as the iterators feeding it are. -/
def Valid : PredicateFn → Prop
  | .fromIter rest => rest.Sorted (· > ·)
  | .pure _ => True
  | .and p1 p2 | .or p1 p2 | .andNot p1 p2 => p1.Valid ∧ p2.Valid

/-- The positions at which a probe state still answers `Match`. -/
def Accepts : PredicateFn → Nat → Prop
  | .fromIter rest, x => x ∈ rest
  | .pure f, x => f.call x = .match
  | .and p1 p2, x => p1.Accepts x ∧ p2.Accepts x
  | .or p1 p2, x => p1.Accepts x ∨ p2.Accepts x
  | .andNot p1 p2, x => p1.Accepts x ∧ ¬p2.Accepts x

/-- A probe state that answers `NeverAgain` from now on. -/
def Exhausted : PredicateFn → Prop
  | .fromIter rest => rest = []
  | .pure _ => False
  | .and p1 p2 => p1.Exhausted ∨ p2.Exhausted
  | .or p1 p2 => p1.Exhausted ∧ p2.Exhausted
  | .andNot p1 _ => p1.Exhausted

/-- A probe state that consumes its query: called at `q`, it no longer accepts `q`.
A `predicate_fn_from_iter` probe takes a matched entry off its iterator; a
`PurePredicateFn` keeps no state. -/
def Consumes : PredicateFn → Prop
  | .fromIter _ => True
  | .pure _ => False
  | .and p1 p2 => p1.Consumes ∨ p2.Consumes
  | .or p1 p2 => p1.Consumes ∧ p2.Consumes
  | .andNot p1 _ => p1.Consumes

theorem valid_pure (f : PurePredicateFn) : (PredicateFn.pure f).Valid := trivial

@[simp] theorem call_fst_and (p1 p2 : PredicateFn) (q : Nat) :
    ((p1.and p2).call q).1 = (p1.call q).1.and (p2.call q).1 := rfl

@[simp] theorem call_fst_or (p1 p2 : PredicateFn) (q : Nat) :
    ((p1.or p2).call q).1 = (p1.call q).1.or (p2.call q).1 := rfl

@[simp] theorem call_fst_andNot (p1 p2 : PredicateFn) (q : Nat) :
    ((p1.andNot p2).call q).1 = (p1.call q).1.andNot (p2.call q).1 := rfl

@[simp] theorem call_snd_and (p1 p2 : PredicateFn) (q : Nat) :
    ((p1.and p2).call q).2 = .and (p1.call q).2 (p2.call q).2 := rfl

@[simp] theorem call_snd_or (p1 p2 : PredicateFn) (q : Nat) :
    ((p1.or p2).call q).2 = .or (p1.call q).2 (p2.call q).2 := rfl

@[simp] theorem call_snd_andNot (p1 p2 : PredicateFn) (q : Nat) :
    ((p1.andNot p2).call q).2 = .andNot (p1.call q).2 (p2.call q).2 := rfl

@[simp] theorem call_pure (f : PurePredicateFn) (q : Nat) :
    (PredicateFn.pure f).call q = (f.call q, .pure f) := rfl

/-! ### `predicate_fn_from_iter` on a descending iterator -/

/-- On a descending sequence, skipping what is above `q` keeps what is at most `q`. -/
theorem dropWhile_lt_eq_filter {rest : List Nat} (h : rest.Sorted (· > ·))
    (q : Nat) : rest.dropWhile (q < ·) = rest.filter (· ≤ q) := by
  rw [dropWhile_eq_filter
    (h.imp fun hab hb => decide_eq_true (lt_trans (of_decide_eq_true hb) hab))]
  simp only [← decide_not, Nat.not_lt]

/-- The call of a `fromIter` probe, with what is left at most `q` named `rest'`. -/
theorem call_fromIter {rest : List Nat} (h : rest.Sorted (· > ·))
    (q : Nat) :
    (PredicateFn.fromIter rest).call q =
      match rest.filter (· ≤ q) with
      | e :: rest' => if e = q then (.match, .fromIter rest') else
          (.notThisOne, .fromIter (e :: rest'))
      | [] => (.neverAgain, .fromIter []) := by
  rw [← dropWhile_lt_eq_filter h]
  rfl

theorem sorted_filter_le {rest : List Nat} (h : rest.Sorted (· > ·))
    (q : Nat) : (rest.filter (· ≤ q)).Sorted (· > ·) :=
  h.sublist (List.filter_sublist _)

theorem mem_filter_le {rest : List Nat} {x q : Nat} :
    x ∈ rest.filter (· ≤ q) ↔ x ∈ rest ∧ x ≤ q := by
  simp

/-- The first of the entries at most `q` is `q` itself when `q` is one of them. -/
theorem head_eq_of_mem {rest rest' : List Nat} {e q : Nat}
    (h : rest.Sorted (· > ·)) (hd : rest.filter (· ≤ q) = e :: rest') (hq : q ∈ rest) :
    e = q := by
  have hs := hd ▸ sorted_filter_le h q
  have he : e ≤ q := (mem_filter_le.mp (hd ▸ List.mem_cons_self e rest')).2
  have hq' : q ∈ e :: rest' := hd ▸ mem_filter_le.mpr ⟨hq, le_refl q⟩
  rcases List.mem_cons.mp hq' with rfl | hq'
  · rfl
  · have := List.rel_of_sorted_cons hs q hq'; omega

/-! ### One call -/

theorem call_valid {p : PredicateFn} (hp : p.Valid) (q : Nat) :
    (p.call q).2.Valid := by
  induction p with
  | fromIter rest =>
      rw [call_fromIter hp]
      have hs := sorted_filter_le hp q
      split
      · next rest' hd =>
          rw [hd] at hs
          split
          · exact (List.sorted_cons.mp hs).2
          · exact hs
      · exact List.sorted_nil
  | pure f => trivial
  | and p1 p2 ih1 ih2 | or p1 p2 ih1 ih2 | andNot p1 p2 ih1 ih2 =>
      exact ⟨ih1 hp.1, ih2 hp.2⟩

theorem call_eq_match_iff {p : PredicateFn} (hp : p.Valid) (q : Nat) :
    (p.call q).1 = .match ↔ p.Accepts q := by
  induction p with
  | fromIter rest =>
      rw [call_fromIter hp]
      split
      · next e rest' hd =>
          split
          · next he =>
              subst he
              exact iff_of_true rfl (mem_filter_le.mp (hd ▸ List.mem_cons_self e rest')).1
          · next he => exact iff_of_false (by simp) fun hq => he (head_eq_of_mem hp hd hq)
      · next hd =>
          refine iff_of_false (by simp) fun hq => ?_
          have : q ∈ rest.filter (· ≤ q) := mem_filter_le.mpr ⟨hq, le_refl q⟩
          simp [hd] at this
  | pure f => rfl
  | and p1 p2 ih1 ih2 => simp [Accepts, ih1 hp.1, ih2 hp.2]
  | or p1 p2 ih1 ih2 => simp [Accepts, ih1 hp.1, ih2 hp.2]
  | andNot p1 p2 ih1 ih2 => simp [Accepts, ih1 hp.1, ih2 hp.2]

theorem lt_of_call_eq_neverAgain {p : PredicateFn} (hp : p.Valid) {q x : Nat}
    (hn : (p.call q).1 = .neverAgain) (hx : p.Accepts x) : q < x := by
  induction p with
  | fromIter rest =>
      rw [call_fromIter hp] at hn
      split at hn
      · split at hn <;> cases hn
      · next hd =>
          refine Nat.lt_of_not_le fun hle => ?_
          have : x ∈ rest.filter (· ≤ q) := mem_filter_le.mpr ⟨hx, hle⟩
          simp [hd] at this
  | pure f => exact absurd hn (f.ne_neverAgain q)
  | and p1 p2 ih1 ih2 =>
      rcases (PredicateMatch.and_eq_neverAgain _ _).mp hn with h | h
      · exact ih1 hp.1 h hx.1
      · exact ih2 hp.2 h hx.2
  | or p1 p2 ih1 ih2 =>
      have h := (PredicateMatch.or_eq_neverAgain _ _).mp hn
      rcases hx with hx | hx
      · exact ih1 hp.1 h.1 hx
      · exact ih2 hp.2 h.2 hx
  | andNot p1 p2 ih1 _ =>
      exact ih1 hp.1 ((PredicateMatch.andNot_eq_neverAgain _ _).mp hn) hx.1

theorem call_accepts_of_lt {p : PredicateFn} (hp : p.Valid) {q x : Nat}
    (hx : x < q) : (p.call q).2.Accepts x ↔ p.Accepts x := by
  induction p with
  | fromIter rest =>
      rw [call_fromIter hp]
      have hmem : x ∈ rest.filter (· ≤ q) ↔ x ∈ rest := by
        rw [mem_filter_le]; exact ⟨And.left, fun h => ⟨h, Nat.le_of_lt hx⟩⟩
      split
      · next e rest' hd =>
          rw [hd] at hmem
          split
          · next he =>
              simp only [Accepts]
              rw [← hmem, List.mem_cons]
              exact ⟨Or.inr, fun h => h.resolve_left (by omega)⟩
          · exact hmem
      · next hd =>
          rw [hd] at hmem
          exact hmem
  | pure f => rfl
  | and p1 p2 ih1 ih2 | or p1 p2 ih1 ih2 | andNot p1 p2 ih1 ih2 =>
      simp only [Accepts, call_snd_and, call_snd_or, call_snd_andNot, ih1 hp.1, ih2 hp.2]

/-! ### Runs over descending queries -/

/-- A probe accepting `M` at and below the first query answers every query of a strictly
descending sequence as membership in `M`, and `NeverAgain` only past all of `M`. -/
theorem run_sound {p : PredicateFn} {M : Nat → Prop} {qs : List Nat}
    (hqs : qs.Sorted (· > ·)) (hp : p.Valid)
    (hM : ∀ x, (∃ q ∈ qs, x ≤ q) → (p.Accepts x ↔ M x)) :
    List.Forall₂ (fun q r => (r = .match ↔ M q) ∧ (r = .neverAgain → ∀ x, M x → q < x))
      qs (p.run qs) := by
  induction qs generalizing p with
  | nil => exact List.Forall₂.nil
  | cons q qs ih =>
      have hq := List.sorted_cons.mp hqs
      refine List.Forall₂.cons ⟨?_, fun hn x hx => ?_⟩ (ih hq.2 (call_valid hp q) fun x hx => ?_)
      · rw [call_eq_match_iff hp, hM q ⟨q, List.mem_cons_self q qs, le_refl q⟩]
      · by_contra hle
        exact hle (lt_of_call_eq_neverAgain hp hn
          ((hM x ⟨q, List.mem_cons_self q qs, by omega⟩).mpr hx))
      · obtain ⟨q', hq', hle⟩ := hx
        have hlt : x < q := Nat.lt_of_le_of_lt hle (hq.1 q' hq')
        rw [call_accepts_of_lt hp hlt]
        exact hM x ⟨q, List.mem_cons_self q qs, Nat.le_of_lt hlt⟩

/-! ### Repeated queries

A probe that consumes its queries answers a non-increasing sequence as membership in
what it accepted minus what was queried before, so a repeated query never answers
`Match`. -/

theorem call_consumes {p : PredicateFn} (hc : p.Consumes) (q : Nat) :
    (p.call q).2.Consumes := by
  induction p with
  | fromIter rest =>
      unfold call
      split
      · split <;> trivial
      · trivial
  | pure f => exact hc.elim
  | and p1 p2 ih1 ih2 => exact hc.imp ih1 ih2
  | or p1 p2 ih1 ih2 => exact ⟨ih1 hc.1, ih2 hc.2⟩
  | andNot p1 p2 ih1 _ => exact ih1 hc

theorem not_accepts_call_self {p : PredicateFn} (hp : p.Valid) (hc : p.Consumes) (q : Nat) :
    ¬(p.call q).2.Accepts q := by
  induction p with
  | fromIter rest =>
      rw [call_fromIter hp]
      split
      · next e rest' hd =>
          split
          · next he =>
              have hs := hd ▸ sorted_filter_le hp q
              exact fun hq => absurd (List.rel_of_sorted_cons hs q hq) (by omega)
          · next he =>
              exact fun hq => he (head_eq_of_mem hp hd (mem_filter_le.mp (hd ▸ hq)).1)
      · exact List.not_mem_nil q
  | pure f => exact hc.elim
  | and p1 p2 ih1 ih2 =>
      exact fun h => hc.elim (fun hc1 => ih1 hp.1 hc1 h.1) fun hc2 => ih2 hp.2 hc2 h.2
  | or p1 p2 ih1 ih2 => exact fun h => h.elim (ih1 hp.1 hc.1) (ih2 hp.2 hc.2)
  | andNot p1 p2 ih1 _ => exact fun h => ih1 hp.1 hc h.1

/-- Called at `q`, a consuming probe keeps accepting what it accepted below `q` and drops
`q`. -/
theorem call_accepts_of_le {p : PredicateFn} (hp : p.Valid) (hc : p.Consumes) {q x : Nat}
    (hx : x ≤ q) : (p.call q).2.Accepts x ↔ p.Accepts x ∧ x ≠ q := by
  rcases Nat.lt_or_eq_of_le hx with hlt | rfl
  · rw [call_accepts_of_lt hp hlt, and_iff_left hlt.ne]
  · exact iff_of_false (not_accepts_call_self hp hc x) fun h => h.2 rfl

/-- A consuming probe accepting `M` minus the earlier queries `pre`, at and below the
first query, answers the `i`-th query of a non-increasing sequence `Match` exactly when
it is in `M` and not among the queries before it, and `NeverAgain` only when everything
of `M` at or below it is among them. -/
theorem run_getElem?_of_consumes {M : Nat → Prop} {qs : List Nat} (hqs : qs.Sorted (· ≥ ·)) :
    ∀ {p : PredicateFn} (pre : List Nat), p.Valid → p.Consumes →
      (∀ x, (∃ q ∈ qs, x ≤ q) → (p.Accepts x ↔ M x ∧ x ∉ pre)) →
      ∀ (i : Nat) (hi : i < qs.length),
        ((p.run qs)[i]? = some .match ↔ M qs[i] ∧ qs[i] ∉ pre ++ qs.take i) ∧
          ((p.run qs)[i]? = some .neverAgain →
            ∀ x, M x → x ≤ qs[i] → x ∈ pre ++ qs.take i) := by
  induction qs with
  | nil => exact fun _ _ _ _ i hi => absurd hi (Nat.not_lt_zero i)
  | cons q qs ih =>
      intro p pre hp hc hM i hi
      have hq := List.sorted_cons.mp hqs
      have hMq : ∀ x ≤ q, (p.Accepts x ↔ M x ∧ x ∉ pre) := fun x hx =>
        hM x ⟨q, List.mem_cons_self q qs, hx⟩
      cases i with
      | zero =>
          simp only [run, List.getElem?_cons_zero, Option.some.injEq, List.getElem_cons_zero,
            List.take_zero, List.append_nil]
          refine ⟨by rw [call_eq_match_iff hp, hMq q le_rfl], fun hn x hx hle => ?_⟩
          by_contra hpre
          have := lt_of_call_eq_neverAgain hp hn ((hMq x hle).mpr ⟨hx, hpre⟩)
          omega
      | succ i =>
          have h := ih hq.2 (pre ++ [q]) (call_valid hp q) (call_consumes hc q)
            (fun x ⟨q', hq', hle⟩ => ?_) i (Nat.lt_of_succ_lt_succ hi)
          · simpa only [run, List.getElem?_cons_succ, List.getElem_cons_succ,
              List.take_succ_cons, List.append_assoc, List.singleton_append] using h
          · have hxq : x ≤ q := le_trans hle (hq.1 q' hq')
            rw [call_accepts_of_le hp hc hxq, hMq x hxq]
            simp only [List.mem_append, List.mem_singleton, not_or, and_assoc]

/-! ### `NeverAgain` is absorbing -/

theorem call_exhausted {p : PredicateFn} (hp : p.Exhausted) (q : Nat) :
    (p.call q).1 = .neverAgain ∧ (p.call q).2.Exhausted := by
  induction p with
  | fromIter rest => subst hp; exact ⟨rfl, rfl⟩
  | pure f => exact hp.elim
  | and p1 p2 ih1 ih2 =>
      rcases hp with h | h
      · exact ⟨by simp [(ih1 h).1], Or.inl (ih1 h).2⟩
      · exact ⟨by simp [(ih2 h).1], Or.inr (ih2 h).2⟩
  | or p1 p2 ih1 ih2 =>
      exact ⟨by simp [(ih1 hp.1).1, (ih2 hp.2).1], (ih1 hp.1).2, (ih2 hp.2).2⟩
  | andNot p1 p2 ih1 _ => exact ⟨by simp [(ih1 hp).1], (ih1 hp).2⟩

theorem exhausted_of_call_eq_neverAgain {p : PredicateFn} {q : Nat}
    (hn : (p.call q).1 = .neverAgain) : (p.call q).2.Exhausted := by
  induction p with
  | fromIter rest =>
      simp only [call] at hn ⊢
      split at hn
      · split at hn <;> cases hn
      · rfl
  | pure f => exact absurd hn (f.ne_neverAgain q)
  | and p1 p2 ih1 ih2 =>
      rcases (PredicateMatch.and_eq_neverAgain _ _).mp hn with h | h
      · exact Or.inl (ih1 h)
      · exact Or.inr (ih2 h)
  | or p1 p2 ih1 ih2 =>
      have h := (PredicateMatch.or_eq_neverAgain _ _).mp hn
      exact ⟨ih1 h.1, ih2 h.2⟩
  | andNot p1 p2 ih1 _ => exact ih1 ((PredicateMatch.andNot_eq_neverAgain _ _).mp hn)

theorem run_of_exhausted {p : PredicateFn} (hp : p.Exhausted) (qs : List Nat) :
    ∀ r ∈ p.run qs, r = .neverAgain := by
  induction qs generalizing p with
  | nil => simp [run]
  | cons q qs ih =>
      simp only [run, List.mem_cons, forall_eq_or_imp]
      exact ⟨(call_exhausted hp q).1, ih (call_exhausted hp q).2⟩

/-- Once a probe has answered `NeverAgain`, it answers `NeverAgain` at every later
query, whatever the queries. -/
theorem run_neverAgain_absorbing (p : PredicateFn) (qs : List Nat)
    (pre post : List PredicateMatch) (h : p.run qs = pre ++ .neverAgain :: post) :
    ∀ r ∈ post, r = .neverAgain := by
  induction qs generalizing p pre with
  | nil => simp [run] at h
  | cons q qs ih =>
      rcases pre with _ | ⟨r, pre⟩
      · simp only [run, List.nil_append, List.cons.injEq] at h
        exact h.2 ▸ run_of_exhausted (exhausted_of_call_eq_neverAgain h.1) qs
      · simp only [run, List.cons_append, List.cons.injEq] at h
        exact ih _ pre h.2

theorem filterRevsetIter_of_exhausted {p : PredicateFn} (hp : p.Exhausted)
    (l : List Nat) : filterRevsetIter l p = [] := by
  cases l with
  | nil => rfl
  | cons e l => simp [filterRevsetIter, (call_exhausted hp e).1]

end PredicateFn
end RevsetEngine
