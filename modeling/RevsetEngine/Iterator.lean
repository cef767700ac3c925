import RevsetEngine.SetAlgebra

/-!
The iterators and probe closures as the code runs them: boxed state machines whose
`next()` and calls may be repeated after `None` and `NeverAgain`. Each `Peekable` keeps its
cache, each `Fuse` its flag, and the loops of `FilterRevsetIterator::next`,
`DifferenceRevsetIterator::next` and `predicate_fn_from_iter` are unfolded one step of
fuel at a time. The list model of `Revset` is what these machines yield before their
first `None`: every step is simulated by it, with enough fuel every step returns, and a
run from a fresh iterator yields the list model and then `None` for ever.
-/

namespace RevsetEngine

mutual
/-- The state of an iterator `InternalRevset::iter` returns. -/
inductive IterState where
  /-- `index_entries.iter().cloned()`, or the index walk: the entries still to come. -/
  | slice (rest : List Nat)
  /-- The `Filter` of `ChildrenRevset::iter`, with the collected root positions. -/
  | children (roots : List Nat) (candidates : IterState)
  /-- `FilterRevsetIterator`: the candidates behind a `Fuse` (`done` once it has seen
  `None`) and the predicate closure. -/
  | filter (candidates : IterState) (done : Bool) (predicate : PredicateState)
  /-- `UnionRevsetIterator`: two `Peekable`s, each a cache and an inner iterator. -/
  | union (peeked1 : Option (Option Nat)) (iter1 : IterState)
      (peeked2 : Option (Option Nat)) (iter2 : IterState)
  /-- `DifferenceRevsetIterator`, with the same two `Peekable`s. -/
  | difference (peeked1 : Option (Option Nat)) (iter1 : IterState)
      (peeked2 : Option (Option Nat)) (iter2 : IterState)

/-- The state of a closure `to_predicate_fn` returns. -/
inductive PredicateState where
  /-- `predicate_fn_from_iter`: `iter.fuse().peekable()`. -/
  | fromIter (peeked : Option (Option Nat)) (iter : IterState) (done : Bool)
  | pure (f : PurePredicateFn)
  | and (p1 p2 : PredicateState)
  | or (p1 p2 : PredicateState)
  | andNot (p1 p2 : PredicateState)
end

/-- `Peekable::peek`: the cached item, or the next one pulled from the inner iterator
(the caller caches it). -/
def peekWith (next : IterState → Option (Option Nat × IterState)) :
    Option (Option Nat) → IterState → Option (Option Nat × IterState)
  | some item, iter => some (item, iter)
  | none, iter => next iter

/-- `Fuse::next`: once the inner iterator has returned `None` it is not called again. -/
def fuseNextWith (next : IterState → Option (Option Nat × IterState)) (iter : IterState)
    (done : Bool) : Option (Option Nat × IterState × Bool) :=
  if done then some (none, iter, true)
  else (next iter).map fun r => (r.1, r.2, r.1.isNone)

/-- `Peekable<Fuse<_>>::next`: the cached item if there is one, else the fused pull. -/
def fusedNextWith (next : IterState → Option (Option Nat × IterState)) :
    Option (Option Nat) → IterState → Bool → Option (Option Nat × IterState × Bool)
  | some item, iter, done => some (item, iter, done)
  | none, iter, done => fuseNextWith next iter done

section Machine

variable (index : CompositeIndex)

mutual
/-- `next()`, with `fuel` bounding the unfolding of its loops and of the calls it
makes. `none` means the fuel ran out. -/
def IterState.next : Nat → IterState → Option (Option Nat × IterState)
  | 0, _ => none
  | _ + 1, .slice [] => some (none, .slice [])
  | _ + 1, .slice (e :: rest) => some (some e, .slice rest)
  | fuel + 1, .children roots candidates => do
      let (item, candidates) ← IterState.next fuel candidates
      match item with
      | none => pure (none, .children roots candidates)
      | some e =>
          if (index.parentPositions e).any (· ∈ roots) then
            pure (some e, .children roots candidates)
          else IterState.next fuel (.children roots candidates)
  | fuel + 1, .filter candidates done predicate => do
      let (item, candidates, done) ← fuseNextWith (IterState.next fuel) candidates done
      match item with
      | none => pure (none, .filter candidates done predicate)
      | some e =>
          let (answer, predicate) ← PredicateState.call fuel predicate e
          match answer with
          | .match => pure (some e, .filter candidates done predicate)
          | .notThisOne => IterState.next fuel (.filter candidates done predicate)
          | .neverAgain => pure (none, .filter candidates done predicate)
  | fuel + 1, .union peeked1 iter1 peeked2 iter2 => do
      let (item1, iter1) ← peekWith (IterState.next fuel) peeked1 iter1
      let (item2, iter2) ← peekWith (IterState.next fuel) peeked2 iter2
      match item1, item2 with
      | none, _ => pure (item2, .union (some item1) iter1 none iter2)
      | some _, none => pure (item1, .union none iter1 (some item2) iter2)
      | some e1, some e2 =>
          if e1 < e2 then pure (item2, .union (some item1) iter1 none iter2)
          else if e1 = e2 then pure (item2, .union none iter1 none iter2)
          else pure (item1, .union none iter1 (some item2) iter2)
  | fuel + 1, .difference peeked1 iter1 peeked2 iter2 => do
      let (item1, iter1) ← peekWith (IterState.next fuel) peeked1 iter1
      let (item2, iter2) ← peekWith (IterState.next fuel) peeked2 iter2
      match item1, item2 with
      | none, _ => pure (none, .difference (some item1) iter1 (some item2) iter2)
      | some _, none => pure (item1, .difference none iter1 (some item2) iter2)
      | some e1, some e2 =>
          if e1 < e2 then IterState.next fuel (.difference (some item1) iter1 none iter2)
          else if e1 = e2 then IterState.next fuel (.difference none iter1 none iter2)
          else pure (item1, .difference none iter1 (some item2) iter2)

/-- One call of a probe closure at `entry`. -/
def PredicateState.call : Nat → PredicateState → Nat → Option (PredicateMatch × PredicateState)
  | 0, _, _ => none
  | fuel + 1, .fromIter peeked iter done, entry => do
      let (peeked, iter, done) ← skipAbove fuel peeked iter done entry
      let (item, iter, done) ← fusedNextWith (IterState.next fuel) peeked iter done
      match item with
      | some e =>
          if e = entry then pure (.match, .fromIter none iter done)
          else pure (.notThisOne, .fromIter (some item) iter done)
      | none => pure (.neverAgain, .fromIter (some item) iter done)
  | _ + 1, .pure f, entry => some (f.call entry, .pure f)
  | fuel + 1, .and p1 p2, entry => do
      let (answer1, p1) ← PredicateState.call fuel p1 entry
      let (answer2, p2) ← PredicateState.call fuel p2 entry
      pure (answer1.and answer2, .and p1 p2)
  | fuel + 1, .or p1 p2, entry => do
      let (answer1, p1) ← PredicateState.call fuel p1 entry
      let (answer2, p2) ← PredicateState.call fuel p2 entry
      pure (answer1.or answer2, .or p1 p2)
  | fuel + 1, .andNot p1 p2, entry => do
      let (answer1, p1) ← PredicateState.call fuel p1 entry
      let (answer2, p2) ← PredicateState.call fuel p2 entry
      pure (answer1.andNot answer2, .andNot p1 p2)

/-- `while iter.next_if(|e| e.position() > entry.position()).is_some() {}`: a pulled
entry that is not above `entry` goes back to the cache. -/
def skipAbove : Nat → Option (Option Nat) → IterState → Bool → Nat →
    Option (Option (Option Nat) × IterState × Bool)
  | 0, _, _, _, _ => none
  | fuel + 1, peeked, iter, done, entry => do
      let (item, iter, done) ← fusedNextWith (IterState.next fuel) peeked iter done
      match item with
      | some e =>
          if entry < e then skipAbove fuel none iter done entry
          else pure (some item, iter, done)
      | none => pure (some item, iter, done)
end

/-! ### What a state has left to yield -/

/-- What a `Peekable` yields before its first `None`: the cached item, then what its
inner iterator yields. -/
def cachedPending : Option (Option Nat) → List Nat → List Nat
  | some (some e), rest => e :: rest
  | some none, _ => []
  | none, rest => rest

/-- What a `Fuse` yields: nothing once it has seen `None`. -/
def fusedPending (done : Bool) (rest : List Nat) : List Nat :=
  if done then [] else rest

mutual
/-- The entries a state yields before its first `None`, in the list model. -/
def IterState.pending : IterState → List Nat
  | .slice rest => rest
  | .children roots candidates => childrenIter index roots candidates.pending
  | .filter candidates done predicate =>
      filterRevsetIter (fusedPending done candidates.pending) predicate.abstract
  | .union peeked1 iter1 peeked2 iter2 =>
      unionIter (cachedPending peeked1 iter1.pending) (cachedPending peeked2 iter2.pending)
  | .difference peeked1 iter1 peeked2 iter2 =>
      differenceIter (cachedPending peeked1 iter1.pending) (cachedPending peeked2 iter2.pending)

/-- The probe of the list model a closure state stands for. -/
def PredicateState.abstract : PredicateState → PredicateFn
  | .fromIter peeked iter done => .fromIter (cachedPending peeked (fusedPending done iter.pending))
  | .pure f => .pure f
  | .and p1 p2 => .and p1.abstract p2.abstract
  | .or p1 p2 => .or p1.abstract p2.abstract
  | .andNot p1 p2 => .andNot p1.abstract p2.abstract
end

/-- A cached `None` of a plain `Peekable` stands for an inner iterator with nothing left,
so that pulling from it again yields `None`. -/
def CacheInv (peeked : Option (Option Nat)) (rest : List Nat) : Prop :=
  peeked = some none → rest = []

mutual
def IterState.Inv : IterState → Prop
  | .slice _ => True
  | .children _ candidates => candidates.Inv
  | .filter candidates _ predicate => candidates.Inv ∧ predicate.Inv
  | .union peeked1 iter1 peeked2 iter2 | .difference peeked1 iter1 peeked2 iter2 =>
      (CacheInv peeked1 (iter1.pending index) ∧ iter1.Inv) ∧
        (CacheInv peeked2 (iter2.pending index) ∧ iter2.Inv)

def PredicateState.Inv : PredicateState → Prop
  | .fromIter _ iter _ => iter.Inv
  | .pure _ => True
  | .and p1 p2 | .or p1 p2 | .andNot p1 p2 => p1.Inv ∧ p2.Inv
end

/-- One `next()` seen through `pending`: it returns the head, drops it, and keeps the
invariant. -/
def IterState.StepSpec (s : IterState) (item : Option Nat) (s' : IterState) : Prop :=
  item = (s.pending index).head? ∧ s'.pending index = (s.pending index).tail ∧ s'.Inv index

end Machine

theorem head?_cachedPending_some (item : Option Nat) (rest : List Nat) :
    (cachedPending (some item) rest).head? = item := by
  cases item <;> rfl

theorem cachedPending_some_of_head? {item : Option Nat} {l rest : List Nat}
    (hhead : item = l.head?) (htail : rest = l.tail) : cachedPending (some item) rest = l := by
  subst hhead htail
  cases l <;> rfl

theorem unionIter_nil_right (xs : List Nat) : unionIter xs [] = xs := by
  cases xs <;> simp [unionIter]

theorem differenceIter_nil_right (xs : List Nat) : differenceIter xs [] = xs := by
  cases xs <;> simp [differenceIter]

/-! ### Simulation by the list model -/

section Simulation

variable (index : CompositeIndex) (fuel : Nat)

/-- `next` at this fuel steps as `pending` says. -/
def NextSound : Prop :=
  ∀ (s : IterState) item s', s.Inv index → s.next index fuel = some (item, s') →
    s.StepSpec index item s'

/-- A closure call at this fuel answers as the list model's probe does. -/
def CallSound : Prop :=
  ∀ (p : PredicateState) entry answer p', p.Inv index →
    p.call index fuel entry = some (answer, p') →
    (p.abstract index).call entry = (answer, p'.abstract index) ∧ p'.Inv index

/-- The skip loop at this fuel drops what lies above the entry and leaves it cached. -/
def SkipSound : Prop :=
  ∀ peeked (iter : IterState) done entry peeked' (iter' : IterState) done', iter.Inv index →
    skipAbove index fuel peeked iter done entry = some (peeked', iter', done') →
    cachedPending peeked' (fusedPending done' (iter'.pending index)) =
        (cachedPending peeked (fusedPending done (iter.pending index))).dropWhile (entry < ·) ∧
      peeked'.isSome ∧ iter'.Inv index

variable {index fuel}

theorem peekWith_spec (hN : NextSound index fuel) {peeked : Option (Option Nat)}
    {iter iter' : IterState} {item : Option Nat} (hc : CacheInv peeked (iter.pending index))
    (hi : iter.Inv index)
    (h : peekWith (IterState.next index fuel) peeked iter = some (item, iter')) :
    cachedPending (some item) (iter'.pending index) = cachedPending peeked (iter.pending index) ∧
      CacheInv (some item) (iter'.pending index) ∧ iter'.Inv index := by
  cases peeked with
  | none =>
      obtain ⟨hh, ht, hi'⟩ := hN _ _ _ hi h
      refine ⟨cachedPending_some_of_head? hh ht, fun hn => ?_, hi'⟩
      cases hn
      rw [ht, List.head?_eq_none_iff.mp hh.symm]
      rfl
  | some o =>
      cases h
      exact ⟨rfl, hc, hi⟩

theorem fuseNextWith_spec (hN : NextSound index fuel) {iter iter' : IterState}
    {done done' : Bool} {item : Option Nat} (hi : iter.Inv index)
    (h : fuseNextWith (IterState.next index fuel) iter done = some (item, iter', done')) :
    item = (fusedPending done (iter.pending index)).head? ∧
      fusedPending done' (iter'.pending index) = (fusedPending done (iter.pending index)).tail ∧
      iter'.Inv index := by
  cases done with
  | true =>
      cases h
      exact ⟨rfl, rfl, hi⟩
  | false =>
      obtain ⟨⟨o, it⟩, hn, he⟩ := Option.map_eq_some'.mp h
      cases he
      obtain ⟨hh, ht, hi'⟩ := hN _ _ _ hi hn
      refine ⟨hh, ?_, hi'⟩
      cases o with
      | none => simp [fusedPending, List.head?_eq_none_iff.mp hh.symm]
      | some e => exact ht

theorem fusedNextWith_spec (hN : NextSound index fuel) {peeked : Option (Option Nat)}
    {iter iter' : IterState} {done done' : Bool} {item : Option Nat} (hi : iter.Inv index)
    (h : fusedNextWith (IterState.next index fuel) peeked iter done = some (item, iter', done')) :
    item = (cachedPending peeked (fusedPending done (iter.pending index))).head? ∧
      (item.isSome → fusedPending done' (iter'.pending index) =
        (cachedPending peeked (fusedPending done (iter.pending index))).tail) ∧
      iter'.Inv index := by
  cases peeked with
  | none =>
      obtain ⟨hh, ht, hi'⟩ := fuseNextWith_spec hN hi h
      exact ⟨hh, fun _ => ht, hi'⟩
  | some o =>
      cases h
      refine ⟨(head?_cachedPending_some _ _).symm, fun ho => ?_, hi⟩
      obtain ⟨e, rfl⟩ := Option.isSome_iff_exists.mp ho
      rfl

theorem stepSpec_of_pending_eq {s t s' : IterState} {item : Option Nat}
    (heq : s.pending index = t.pending index) (h : t.StepSpec index item s') :
    s.StepSpec index item s' := by
  rwa [IterState.StepSpec, heq]

theorem stepSpec_of_cons {s s' : IterState} {e : Nat}
    (hs : s.pending index = e :: s'.pending index) (hi : s'.Inv index) :
    s.StepSpec index (some e) s' :=
  ⟨by rw [hs]; rfl, by rw [hs]; rfl, hi⟩

theorem stepSpec_of_nil {s s' : IterState} (hs : s.pending index = [])
    (hs' : s'.pending index = []) (hi : s'.Inv index) : s.StepSpec index none s' :=
  ⟨by rw [hs]; rfl, by rw [hs, hs']; rfl, hi⟩

theorem next_children_spec (hN : NextSound index fuel) {roots : List Nat}
    {c s' : IterState} {item : Option Nat} (hi : (IterState.children roots c).Inv index)
    (h : (IterState.children roots c).next index (fuel + 1) = some (item, s')) :
    (IterState.children roots c).StepSpec index item s' := by
  simp only [IterState.next, Option.bind_eq_bind, Option.bind_eq_some] at h
  obtain ⟨⟨o, c'⟩, hc, h⟩ := h
  obtain ⟨hh, ht, hi'⟩ := hN c _ _ hi hc
  have hP := cachedPending_some_of_head? hh ht
  cases o with
  | none =>
      cases h
      have hnil : c.pending index = [] := hP.symm
      exact stepSpec_of_nil (by simp [IterState.pending, hnil, childrenIter])
        (by simp [IterState.pending, ht, hnil, childrenIter]) hi'
  | some e =>
      simp only at h
      have hpend : (IterState.children roots c).pending index =
          childrenIter index roots (e :: c'.pending index) := by
        rw [IterState.pending, ← hP]
        rfl
      split at h
      · next hkeep =>
          cases h
          exact stepSpec_of_cons (by rw [hpend]; simp [childrenIter, hkeep, IterState.pending]) hi'
      · next hkeep =>
          refine stepSpec_of_pending_eq ?_ (hN (.children roots c') _ _ hi' h)
          rw [hpend]
          simp [childrenIter, List.filter_cons, hkeep, IterState.pending]

theorem next_filter_spec (hN : NextSound index fuel) (hC : CallSound index fuel)
    {c s' : IterState} {done : Bool} {p : PredicateState} {item : Option Nat}
    (hi : (IterState.filter c done p).Inv index)
    (h : (IterState.filter c done p).next index (fuel + 1) = some (item, s')) :
    (IterState.filter c done p).StepSpec index item s' := by
  simp only [IterState.next, Option.bind_eq_bind, Option.bind_eq_some] at h
  obtain ⟨⟨o, c', done'⟩, hc, h⟩ := h
  obtain ⟨hh, ht, hi'⟩ := fuseNextWith_spec hN hi.1 hc
  have hF := cachedPending_some_of_head? hh ht
  cases o with
  | none =>
      cases h
      have hnil : fusedPending done (c.pending index) = [] := hF.symm
      exact stepSpec_of_nil (by simp [IterState.pending, hnil, filterRevsetIter])
        (by simp [IterState.pending, ht, hnil, filterRevsetIter]) ⟨hi', hi.2⟩
  | some e =>
      simp only [Option.bind_eq_some] at h
      obtain ⟨⟨answer, p'⟩, hp, h⟩ := h
      obtain ⟨hcall, hip'⟩ := hC _ _ _ _ hi.2 hp
      have hpend : (IterState.filter c done p).pending index =
          filterRevsetIter (e :: fusedPending done' (c'.pending index)) (p.abstract index) := by
        rw [IterState.pending, ← hF]
        rfl
      rw [filterRevsetIter, hcall] at hpend
      cases answer with
      | «match» =>
          cases h
          exact stepSpec_of_cons hpend ⟨hi', hip'⟩
      | notThisOne =>
          refine stepSpec_of_pending_eq ?_ (hN (.filter c' done' p') _ _ ⟨hi', hip'⟩ h)
          exact hpend
      | neverAgain =>
          cases h
          have hex : (p'.abstract index).Exhausted := by
            simpa [hcall] using PredicateFn.exhausted_of_call_eq_neverAgain
              (show ((p.abstract index).call e).1 = .neverAgain by rw [hcall])
          exact stepSpec_of_nil hpend
            (by rw [IterState.pending, PredicateFn.filterRevsetIter_of_exhausted hex]) ⟨hi', hip'⟩

theorem next_union_spec (hN : NextSound index fuel) {peeked1 peeked2 : Option (Option Nat)}
    {iter1 iter2 s' : IterState} {item : Option Nat}
    (hi : (IterState.union peeked1 iter1 peeked2 iter2).Inv index)
    (h : (IterState.union peeked1 iter1 peeked2 iter2).next index (fuel + 1) = some (item, s')) :
    (IterState.union peeked1 iter1 peeked2 iter2).StepSpec index item s' := by
  simp only [IterState.next, Option.bind_eq_bind, Option.bind_eq_some] at h
  obtain ⟨⟨o1, i1⟩, h1, ⟨o2, i2⟩, h2, h⟩ := h
  obtain ⟨hX, hc1, hi1⟩ := peekWith_spec hN hi.1.1 hi.1.2 h1
  obtain ⟨hY, hc2, hi2⟩ := peekWith_spec hN hi.2.1 hi.2.2 h2
  have hpend : (IterState.union peeked1 iter1 peeked2 iter2).pending index =
      unionIter (cachedPending (some o1) (i1.pending index))
        (cachedPending (some o2) (i2.pending index)) := by
    rw [IterState.pending, hX, hY]
  rcases o1 with _ | e1 <;> rcases o2 with _ | e2 <;> simp only at h
  · cases h
    exact stepSpec_of_nil (by rw [hpend]; simp [cachedPending, unionIter])
      (by simp [IterState.pending, hc2 rfl, cachedPending, unionIter]) ⟨⟨hc1, hi1⟩, nofun, hi2⟩
  · cases h
    exact stepSpec_of_cons (by rw [hpend]; simp [cachedPending, unionIter, IterState.pending])
      ⟨⟨hc1, hi1⟩, nofun, hi2⟩
  · cases h
    exact stepSpec_of_cons (by
      rw [hpend]; simp [cachedPending, unionIter_nil_right, IterState.pending])
      ⟨⟨nofun, hi1⟩, hc2, hi2⟩
  · split_ifs at h with hlt heq <;> cases h
    · exact stepSpec_of_cons (by
        rw [hpend]; simp [cachedPending, unionIter, hlt, IterState.pending])
        ⟨⟨nofun, hi1⟩, nofun, hi2⟩
    · exact stepSpec_of_cons (by
        rw [hpend]; simp [cachedPending, unionIter, heq, IterState.pending])
        ⟨⟨nofun, hi1⟩, nofun, hi2⟩
    · exact stepSpec_of_cons (by
        rw [hpend]; simp [cachedPending, unionIter, hlt, heq, IterState.pending])
        ⟨⟨nofun, hi1⟩, nofun, hi2⟩

theorem next_difference_spec (hN : NextSound index fuel)
    {peeked1 peeked2 : Option (Option Nat)} {iter1 iter2 s' : IterState} {item : Option Nat}
    (hi : (IterState.difference peeked1 iter1 peeked2 iter2).Inv index)
    (h : (IterState.difference peeked1 iter1 peeked2 iter2).next index (fuel + 1) =
      some (item, s')) :
    (IterState.difference peeked1 iter1 peeked2 iter2).StepSpec index item s' := by
  simp only [IterState.next, Option.bind_eq_bind, Option.bind_eq_some] at h
  obtain ⟨⟨o1, i1⟩, h1, ⟨o2, i2⟩, h2, h⟩ := h
  obtain ⟨hX, hc1, hi1⟩ := peekWith_spec hN hi.1.1 hi.1.2 h1
  obtain ⟨hY, hc2, hi2⟩ := peekWith_spec hN hi.2.1 hi.2.2 h2
  have hpend : (IterState.difference peeked1 iter1 peeked2 iter2).pending index =
      differenceIter (cachedPending (some o1) (i1.pending index))
        (cachedPending (some o2) (i2.pending index)) := by
    rw [IterState.pending, hX, hY]
  rcases o1 with _ | e1
  · cases h
    exact stepSpec_of_nil (by rw [hpend]; simp [cachedPending, differenceIter])
      (by simp [IterState.pending, cachedPending, differenceIter]) ⟨⟨hc1, hi1⟩, hc2, hi2⟩
  rcases o2 with _ | e2 <;> simp only at h
  · cases h
    exact stepSpec_of_cons
      (by rw [hpend]; simp [cachedPending, differenceIter_nil_right, IterState.pending])
      ⟨⟨nofun, hi1⟩, hc2, hi2⟩
  · split_ifs at h with hlt heq
    · refine stepSpec_of_pending_eq ?_
        (hN (.difference (some (some e1)) i1 none i2) _ _ ⟨⟨nofun, hi1⟩, nofun, hi2⟩ h)
      rw [hpend]
      simp [cachedPending, differenceIter, hlt, IterState.pending]
    · refine stepSpec_of_pending_eq ?_
        (hN (.difference none i1 none i2) _ _ ⟨⟨nofun, hi1⟩, nofun, hi2⟩ h)
      rw [hpend]
      simp [cachedPending, differenceIter, heq, IterState.pending]
    · cases h
      exact stepSpec_of_cons
        (by rw [hpend]; simp [cachedPending, differenceIter, hlt, heq, IterState.pending])
        ⟨⟨nofun, hi1⟩, nofun, hi2⟩

theorem skipAbove_spec (hN : NextSound index fuel) (hK : SkipSound index fuel)
    {peeked peeked' : Option (Option Nat)} {iter iter' : IterState} {done done' : Bool}
    {entry : Nat} (hi : iter.Inv index)
    (h : skipAbove index (fuel + 1) peeked iter done entry = some (peeked', iter', done')) :
    cachedPending peeked' (fusedPending done' (iter'.pending index)) =
        (cachedPending peeked (fusedPending done (iter.pending index))).dropWhile (entry < ·) ∧
      peeked'.isSome ∧ iter'.Inv index := by
  simp only [skipAbove, Option.bind_eq_bind, Option.bind_eq_some] at h
  obtain ⟨⟨item, it1, done1⟩, hn, h⟩ := h
  obtain ⟨hh, ht, hi1⟩ := fusedNextWith_spec hN hi hn
  rcases item with _ | e
  · cases h
    rw [List.head?_eq_none_iff.mp hh.symm]
    exact ⟨rfl, rfl, hi1⟩
  · have hL := cachedPending_some_of_head? hh (ht rfl)
    simp only at h
    split_ifs at h with hlt
    · obtain ⟨hD, hs, hi'⟩ := hK _ _ _ _ _ _ _ hi1 h
      refine ⟨?_, hs, hi'⟩
      rw [hD, ← hL]
      simp [cachedPending, List.dropWhile, hlt]
    · cases h
      refine ⟨?_, rfl, hi1⟩
      rw [← hL]
      simp [cachedPending, List.dropWhile, hlt]

theorem call_fromIter_spec (hK : SkipSound index fuel) {peeked : Option (Option Nat)}
    {iter : IterState} {done : Bool} {entry : Nat} {answer : PredicateMatch}
    {p' : PredicateState} (hi : (PredicateState.fromIter peeked iter done).Inv index)
    (h : (PredicateState.fromIter peeked iter done).call index (fuel + 1) entry =
      some (answer, p')) :
    ((PredicateState.fromIter peeked iter done).abstract index).call entry =
      (answer, p'.abstract index) ∧ p'.Inv index := by
  simp only [PredicateState.call, Option.bind_eq_bind, Option.bind_eq_some] at h
  obtain ⟨⟨pk1, it1, done1⟩, hk, ⟨item, it2, done2⟩, hn, h⟩ := h
  obtain ⟨hD, hsome, hi1⟩ := hK _ _ _ _ _ _ _ hi hk
  obtain ⟨o1, rfl⟩ := Option.isSome_iff_exists.mp hsome
  simp only [fusedNextWith, Option.some.injEq, Prod.mk.injEq] at hn
  obtain ⟨h1, h2, h3⟩ := hn
  subst h1 h2 h3
  simp only [PredicateState.abstract, PredicateFn.call, ← hD]
  rcases o1 with _ | e
  · cases h
    exact ⟨rfl, hi1⟩
  · simp only at h
    split_ifs at h with he <;> cases h
    · simp [cachedPending, he, PredicateState.abstract]
      exact hi1
    · simp [cachedPending, he, PredicateState.abstract]
      exact hi1

/-- Every step of the machines is simulated by the list model, at every fuel. -/
theorem simulation : ∀ fuel, NextSound index fuel ∧ CallSound index fuel ∧ SkipSound index fuel
  | 0 => ⟨fun _ _ _ _ h => (by cases h), fun _ _ _ _ _ h => (by cases h),
      fun _ _ _ _ _ _ _ _ h => (by cases h)⟩
  | fuel + 1 =>
      have ⟨hN, hC, hK⟩ := simulation fuel
      ⟨fun s item s' hi h => by
        cases s with
        | slice rest => cases rest <;> cases h <;> exact ⟨rfl, rfl, trivial⟩
        | children roots c => exact next_children_spec hN hi h
        | filter c done p => exact next_filter_spec hN hC hi h
        | union => exact next_union_spec hN hi h
        | difference => exact next_difference_spec hN hi h,
      fun p entry answer p' hi h => by
        cases p with
        | fromIter => exact call_fromIter_spec hK hi h
        | pure f =>
            cases h
            exact ⟨rfl, trivial⟩
        | and p1 p2 | or p1 p2 | andNot p1 p2 =>
            simp only [PredicateState.call, Option.bind_eq_bind, Option.bind_eq_some] at h
            obtain ⟨⟨a1, q1⟩, h1, ⟨a2, q2⟩, h2, h⟩ := h
            obtain ⟨hc1, hq1⟩ := hC _ _ _ _ hi.1 h1
            obtain ⟨hc2, hq2⟩ := hC _ _ _ _ hi.2 h2
            cases h
            exact ⟨by simp [PredicateState.abstract, PredicateFn.call, hc1, hc2], hq1, hq2⟩,
      fun _ _ _ _ _ _ _ hi h => skipAbove_spec hN hK hi h⟩

end Simulation

/-! ### More fuel gives the same answer -/

section Monotone

variable (index : CompositeIndex) (fuel : Nat)

def NextMono : Prop :=
  ∀ (s : IterState) r, s.next index fuel = some r → s.next index (fuel + 1) = some r

def CallMono : Prop :=
  ∀ (p : PredicateState) entry r, p.call index fuel entry = some r →
    p.call index (fuel + 1) entry = some r

def SkipMono : Prop :=
  ∀ peeked (iter : IterState) done entry r, skipAbove index fuel peeked iter done entry = some r →
    skipAbove index (fuel + 1) peeked iter done entry = some r

variable {index fuel}

theorem bind_some_mono {α β : Type} {x x' : Option α} {f f' : α → Option β} {r : β}
    (hx : ∀ a, x = some a → x' = some a) (hf : ∀ a, f a = some r → f' a = some r)
    (h : (x >>= f) = some r) : (x' >>= f') = some r := by
  obtain ⟨a, ha, hfa⟩ := Option.bind_eq_some.mp h
  exact Option.bind_eq_some.mpr ⟨a, hx a ha, hf a hfa⟩

theorem peekWith_mono (hN : NextMono index fuel) (peeked : Option (Option Nat))
    (iter : IterState) (r : Option Nat × IterState)
    (h : peekWith (IterState.next index fuel) peeked iter = some r) :
    peekWith (IterState.next index (fuel + 1)) peeked iter = some r := by
  cases peeked with
  | none => exact hN _ _ h
  | some _ => exact h

theorem fuseNextWith_mono (hN : NextMono index fuel) (iter : IterState) (done : Bool)
    (r : Option Nat × IterState × Bool)
    (h : fuseNextWith (IterState.next index fuel) iter done = some r) :
    fuseNextWith (IterState.next index (fuel + 1)) iter done = some r := by
  cases done with
  | true => exact h
  | false =>
      obtain ⟨a, ha, rfl⟩ := Option.map_eq_some'.mp h
      exact Option.map_eq_some'.mpr ⟨a, hN _ _ ha, rfl⟩

theorem fusedNextWith_mono (hN : NextMono index fuel) (peeked : Option (Option Nat))
    (iter : IterState) (done : Bool) (r : Option Nat × IterState × Bool)
    (h : fusedNextWith (IterState.next index fuel) peeked iter done = some r) :
    fusedNextWith (IterState.next index (fuel + 1)) peeked iter done = some r := by
  cases peeked with
  | some _ => exact h
  | none => exact fuseNextWith_mono hN iter done r h

theorem next_mono (hN : NextMono index fuel) (hC : CallMono index fuel) (s : IterState)
    (r : Option Nat × IterState) (h : s.next index (fuel + 1) = some r) :
    s.next index (fuel + 2) = some r := by
  cases s with
  | slice rest => cases rest <;> exact h
  | children roots c =>
      refine bind_some_mono (hN c) (fun ⟨o, c'⟩ h => ?_) h
      cases o with
      | none => exact h
      | some e =>
          simp only at h ⊢
          split_ifs at h ⊢
          · exact h
          · exact hN _ _ h
  | filter c done p =>
      refine bind_some_mono (fuseNextWith_mono hN c done) (fun ⟨o, c', d⟩ h => ?_) h
      cases o with
      | none => exact h
      | some e =>
          refine bind_some_mono (hC p e) (fun ⟨answer, p'⟩ h => ?_) h
          cases answer with
          | notThisOne => exact hN _ _ h
          | _ => exact h
  | union peeked1 iter1 peeked2 iter2 =>
      exact bind_some_mono (peekWith_mono hN peeked1 iter1)
        (fun _ h => bind_some_mono (peekWith_mono hN peeked2 iter2) (fun _ h => h) h) h
  | difference peeked1 iter1 peeked2 iter2 =>
      refine bind_some_mono (peekWith_mono hN peeked1 iter1) (fun ⟨o1, i1⟩ h =>
        bind_some_mono (peekWith_mono hN peeked2 iter2) (fun ⟨o2, i2⟩ h => ?_) h) h
      rcases o1 with _ | e1
      · exact h
      rcases o2 with _ | e2
      · exact h
      simp only at h ⊢
      split_ifs at h ⊢
      · exact hN _ _ h
      · exact hN _ _ h
      · exact h

theorem call_mono (hN : NextMono index fuel) (hC : CallMono index fuel)
    (hK : SkipMono index fuel) (p : PredicateState) (entry : Nat)
    (r : PredicateMatch × PredicateState) (h : p.call index (fuel + 1) entry = some r) :
    p.call index (fuel + 2) entry = some r := by
  cases p with
  | fromIter peeked iter done =>
      exact bind_some_mono (hK peeked iter done entry) (fun ⟨pk, it, d⟩ h =>
        bind_some_mono (fusedNextWith_mono hN pk it d) (fun _ h => h) h) h
  | pure f => exact h
  | and p1 p2 | or p1 p2 | andNot p1 p2 =>
      exact bind_some_mono (hC p1 entry)
        (fun _ h => bind_some_mono (hC p2 entry) (fun _ h => h) h) h

theorem skipAbove_mono (hN : NextMono index fuel) (hK : SkipMono index fuel)
    (peeked : Option (Option Nat)) (iter : IterState) (done : Bool) (entry : Nat)
    (r : Option (Option Nat) × IterState × Bool)
    (h : skipAbove index (fuel + 1) peeked iter done entry = some r) :
    skipAbove index (fuel + 2) peeked iter done entry = some r := by
  refine bind_some_mono (fusedNextWith_mono hN peeked iter done) (fun ⟨o, it, d⟩ h => ?_) h
  rcases o with _ | e
  · exact h
  · simp only at h ⊢
    split_ifs at h ⊢
    · exact hK _ _ _ _ _ h
    · exact h

theorem monotone : ∀ fuel, NextMono index fuel ∧ CallMono index fuel ∧ SkipMono index fuel
  | 0 => ⟨fun _ _ h => (by cases h), fun _ _ _ h => (by cases h),
      fun _ _ _ _ _ h => (by cases h)⟩
  | fuel + 1 =>
      have ⟨hN, hC, hK⟩ := monotone fuel
      ⟨next_mono hN hC, call_mono hN hC hK, skipAbove_mono hN hK⟩

theorem next_of_le {fuel fuel' : Nat} (hle : fuel ≤ fuel') {s : IterState}
    {r : Option Nat × IterState} (h : s.next index fuel = some r) :
    s.next index fuel' = some r := by
  induction hle with
  | refl => exact h
  | step _ ih => exact (monotone _).1 _ _ ih

theorem call_of_le {fuel fuel' : Nat} (hle : fuel ≤ fuel') {p : PredicateState} {entry : Nat}
    {r : PredicateMatch × PredicateState} (h : p.call index fuel entry = some r) :
    p.call index fuel' entry = some r := by
  induction hle with
  | refl => exact h
  | step _ ih => exact (monotone _).2.1 _ _ _ ih

theorem skipAbove_of_le {fuel fuel' : Nat} (hle : fuel ≤ fuel') {peeked : Option (Option Nat)}
    {iter : IterState} {done : Bool} {entry : Nat} {r : Option (Option Nat) × IterState × Bool}
    (h : skipAbove index fuel peeked iter done entry = some r) :
    skipAbove index fuel' peeked iter done entry = some r := by
  induction hle with
  | refl => exact h
  | step _ ih => exact (monotone _).2.2 _ _ _ _ _ ih

theorem peekWith_of_le {fuel fuel' : Nat} (hle : fuel ≤ fuel') {peeked : Option (Option Nat)}
    {iter : IterState} {r : Option Nat × IterState}
    (h : peekWith (IterState.next index fuel) peeked iter = some r) :
    peekWith (IterState.next index fuel') peeked iter = some r := by
  cases peeked with
  | none => exact next_of_le hle h
  | some _ => exact h

theorem fusedNextWith_of_le {fuel fuel' : Nat} (hle : fuel ≤ fuel')
    {peeked : Option (Option Nat)} {iter : IterState} {done : Bool}
    {r : Option Nat × IterState × Bool}
    (h : fusedNextWith (IterState.next index fuel) peeked iter done = some r) :
    fusedNextWith (IterState.next index fuel') peeked iter done = some r := by
  induction hle with
  | refl => exact h
  | step _ ih => exact fusedNextWith_mono ((monotone _).1) _ _ _ _ ih

end Monotone

/-! ### With enough fuel every step returns -/

mutual
/-- The number of iterator and closure nodes; no step changes it. -/
def IterState.size : IterState → Nat
  | .slice _ => 0
  | .children _ candidates => candidates.size + 1
  | .filter candidates _ predicate => candidates.size + predicate.size + 1
  | .union _ iter1 _ iter2 | .difference _ iter1 _ iter2 => iter1.size + iter2.size + 1

def PredicateState.size : PredicateState → Nat
  | .fromIter _ iter _ => iter.size + 1
  | .pure _ => 0
  | .and p1 p2 | .or p1 p2 | .andNot p1 p2 => p1.size + p2.size + 1
end

section Total

variable (index : CompositeIndex)

/-- Some fuel makes `next()` return, in a state of the same shape. -/
def NextTotal (s : IterState) : Prop :=
  ∃ fuel item s', s.next index fuel = some (item, s') ∧ s'.size = s.size

/-- Some fuel makes every call return, in a state of the same shape. -/
def CallTotal (p : PredicateState) : Prop :=
  ∀ entry, ∃ fuel answer p', p.call index fuel entry = some (answer, p') ∧ p'.size = p.size

variable {index}

theorem NextTotal.spec {s : IterState} (hi : s.Inv index) (h : NextTotal index s) :
    ∃ fuel item s', s.next index fuel = some (item, s') ∧ s'.size = s.size ∧
      s.StepSpec index item s' :=
  let ⟨fuel, item, s', hn, hs⟩ := h
  ⟨fuel, item, s', hn, hs, (simulation fuel).1 _ _ _ hi hn⟩

theorem length_tail_lt {l : List Nat} {e : Nat} (h : some e = l.head?) :
    l.tail.length < l.length := by
  cases l with
  | nil => cases h
  | cons => simp

/-- The step of a children iterator once the candidates have stepped. -/
theorem next_children_of_next {fuel : Nat} {roots : List Nat} {c c' : IterState}
    {o : Option Nat} (hc : c.next index fuel = some (o, c')) :
    (IterState.children roots c).next index (fuel + 1) =
      match o with
      | none => some (none, .children roots c')
      | some e =>
          if (index.parentPositions e).any (· ∈ roots) then some (some e, .children roots c')
          else (IterState.children roots c').next index fuel := by
  simp only [IterState.next, hc, Option.bind_eq_bind, Option.some_bind]
  rcases o with _ | e <;> rfl

/-- The step of an unfused filter once the candidates have stepped. -/
theorem next_filter_of_next {fuel : Nat} {c c' : IterState} {p : PredicateState}
    {o : Option Nat} (hc : c.next index fuel = some (o, c')) :
    (IterState.filter c false p).next index (fuel + 1) =
      match o with
      | none => some (none, .filter c' true p)
      | some e => (p.call index fuel e).bind fun r =>
          match r.1 with
          | .match => some (some e, .filter c' false r.2)
          | .notThisOne => (IterState.filter c' false r.2).next index fuel
          | .neverAgain => some (none, .filter c' false r.2) := by
  simp only [IterState.next, fuseNextWith, hc, Bool.false_eq_true, if_false, Option.map_some',
    Option.bind_eq_bind, Option.some_bind]
  rcases o with _ | e <;> rfl

/-- The step of a difference once both sides are peeked. -/
theorem next_difference_of_peeks {fuel : Nat} {peeked1 peeked2 : Option (Option Nat)}
    {iter1 iter2 i1 i2 : IterState} {o1 o2 : Option Nat}
    (h1 : peekWith (IterState.next index fuel) peeked1 iter1 = some (o1, i1))
    (h2 : peekWith (IterState.next index fuel) peeked2 iter2 = some (o2, i2)) :
    (IterState.difference peeked1 iter1 peeked2 iter2).next index (fuel + 1) =
      match o1, o2 with
      | none, _ => some (none, .difference (some o1) i1 (some o2) i2)
      | some _, none => some (o1, .difference none i1 (some o2) i2)
      | some e1, some e2 =>
          if e1 < e2 then (IterState.difference (some o1) i1 none i2).next index fuel
          else if e1 = e2 then (IterState.difference none i1 none i2).next index fuel
          else some (o1, .difference none i1 (some o2) i2) := by
  simp only [IterState.next, h1, h2, Option.bind_eq_bind, Option.some_bind]
  rcases o1 with _ | e1 <;> rcases o2 with _ | e2 <;> rfl

variable {n : Nat} (hT : ∀ t : IterState, t.size ≤ n → t.Inv index → NextTotal index t)
include hT

theorem children_total (roots : List Nat) :
    ∀ k (c : IterState), (c.pending index).length < k → c.size ≤ n → c.Inv index →
      NextTotal index (.children roots c)
  | 0, _, hk, _, _ => absurd hk (Nat.not_lt_zero _)
  | k + 1, c, hk, hn, hi => by
      obtain ⟨f1, o, c', hc, hsz, hh, ht, hi'⟩ := (hT c hn hi).spec hi
      cases o with
      | none =>
          exact ⟨f1 + 1, none, .children roots c', next_children_of_next hc,
            by simp [IterState.size, hsz]⟩
      | some e =>
          by_cases hkeep : (index.parentPositions e).any (· ∈ roots) = true
          · exact ⟨f1 + 1, some e, .children roots c',
              (next_children_of_next hc).trans (if_pos hkeep), by simp [IterState.size, hsz]⟩
          · have hlen : (c'.pending index).length < k := by
              have := length_tail_lt hh
              rw [← ht] at this
              omega
            obtain ⟨f2, o2, s2, h2, hs2⟩ :=
              children_total roots k c' hlen (hsz ▸ hn) hi'
            exact ⟨max f1 f2 + 1, o2, s2,
              (next_children_of_next (next_of_le (le_max_left f1 f2) hc)).trans
                ((if_neg hkeep).trans (next_of_le (le_max_right f1 f2) h2)),
              by rw [hs2]; simp [IterState.size, hsz]⟩

theorem filter_total
    (hP : ∀ q : PredicateState, q.size ≤ n → q.Inv index → CallTotal index q) :
    ∀ k (c : IterState) (done : Bool) (p : PredicateState),
      (fusedPending done (c.pending index)).length < k → c.size ≤ n → p.size ≤ n →
      c.Inv index → p.Inv index → NextTotal index (.filter c done p)
  | 0, _, _, _, hk, _, _, _, _ => absurd hk (Nat.not_lt_zero _)
  | _ + 1, c, true, p, _, _, _, _, _ => ⟨1, none, .filter c true p, rfl, rfl⟩
  | k + 1, c, false, p, hk, hc, hp, hic, hip => by
      obtain ⟨f1, o, c', hn, hsz, hh, ht, hi'⟩ := (hT c hc hic).spec hic
      cases o with
      | none =>
          exact ⟨f1 + 1, none, .filter c' true p, next_filter_of_next hn,
            by simp [IterState.size, hsz]⟩
      | some e =>
          obtain ⟨f2, answer, p', hcall, hpsz⟩ := hP p hp hip e
          have hip' := ((simulation f2).2.1 _ _ _ _ hip hcall).2
          have hn' := next_of_le (le_max_left f1 f2) hn
          have hcall' := call_of_le (le_max_right f1 f2) hcall
          cases answer with
          | «match» =>
              exact ⟨max f1 f2 + 1, some e, .filter c' false p',
                by simp only [next_filter_of_next hn', hcall', Option.some_bind],
                by simp [IterState.size, hsz, hpsz]⟩
          | neverAgain =>
              exact ⟨max f1 f2 + 1, none, .filter c' false p',
                by simp only [next_filter_of_next hn', hcall', Option.some_bind],
                by simp [IterState.size, hsz, hpsz]⟩
          | notThisOne =>
              have hlen : (fusedPending false (c'.pending index)).length < k := by
                have := length_tail_lt hh
                simp only [fusedPending, Bool.false_eq_true, if_false] at hk ⊢
                rw [ht]
                omega
              obtain ⟨f3, o3, s3, h3, hs3⟩ :=
                filter_total hP k c' false p' hlen (hsz ▸ hc) (hpsz ▸ hp) hi' hip'
              refine ⟨max (max f1 f2) f3 + 1, o3, s3, ?_,
                by rw [hs3]; simp [IterState.size, hsz, hpsz]⟩
              simp only [next_filter_of_next (next_of_le (le_max_left _ f3) hn'),
                call_of_le (le_max_left _ f3) hcall', Option.some_bind,
                next_of_le (le_max_right _ f3) h3]

theorem peekWith_total {peeked : Option (Option Nat)} {iter : IterState} (hs : iter.size ≤ n)
    (hi : iter.Inv index) (hc : CacheInv peeked (iter.pending index)) :
    ∃ fuel item iter', peekWith (IterState.next index fuel) peeked iter = some (item, iter') ∧
      iter'.size = iter.size ∧
      cachedPending (some item) (iter'.pending index) = cachedPending peeked (iter.pending index) ∧
      CacheInv (some item) (iter'.pending index) ∧ iter'.Inv index := by
  cases peeked with
  | some o => exact ⟨0, o, iter, rfl, rfl, rfl, hc, hi⟩
  | none =>
      obtain ⟨f, o, it', hn, hsz⟩ := hT iter hs hi
      exact ⟨f, o, it', hn, hsz, peekWith_spec ((simulation f).1) hc hi hn⟩

theorem union_total {peeked1 peeked2 : Option (Option Nat)} {iter1 iter2 : IterState}
    (hs1 : iter1.size ≤ n) (hs2 : iter2.size ≤ n)
    (hi : (IterState.union peeked1 iter1 peeked2 iter2).Inv index) :
    NextTotal index (.union peeked1 iter1 peeked2 iter2) := by
  obtain ⟨f1, o1, i1, h1, hsz1, -⟩ := peekWith_total hT hs1 hi.1.2 hi.1.1
  obtain ⟨f2, o2, i2, h2, hsz2, -⟩ := peekWith_total hT hs2 hi.2.2 hi.2.1
  refine ⟨max f1 f2 + 1, ?_⟩
  simp only [IterState.next, peekWith_of_le (le_max_left f1 f2) h1,
    peekWith_of_le (le_max_right f1 f2) h2, Option.bind_eq_bind, Option.some_bind]
  rcases o1 with _ | e1 <;> rcases o2 with _ | e2 <;> simp only
  all_goals first
    | exact ⟨_, _, rfl, by simp [IterState.size, hsz1, hsz2]⟩
    | split_ifs <;> exact ⟨_, _, rfl, by simp [IterState.size, hsz1, hsz2]⟩

theorem difference_total :
    ∀ k (peeked1 : Option (Option Nat)) (iter1 : IterState) (peeked2 : Option (Option Nat))
      (iter2 : IterState),
      (cachedPending peeked1 (iter1.pending index)).length +
        (cachedPending peeked2 (iter2.pending index)).length < k →
      iter1.size ≤ n → iter2.size ≤ n →
      (IterState.difference peeked1 iter1 peeked2 iter2).Inv index →
      NextTotal index (.difference peeked1 iter1 peeked2 iter2)
  | 0, _, _, _, _, hk, _, _, _ => absurd hk (Nat.not_lt_zero _)
  | k + 1, peeked1, iter1, peeked2, iter2, hk, hs1, hs2, hi => by
      obtain ⟨f1, o1, i1, h1, hsz1, hX, hc1, hi1⟩ := peekWith_total hT hs1 hi.1.2 hi.1.1
      obtain ⟨f2, o2, i2, h2, hsz2, hY, hc2, hi2⟩ := peekWith_total hT hs2 hi.2.2 hi.2.1
      have hp1 := peekWith_of_le (le_max_left f1 f2) h1
      have hp2 := peekWith_of_le (le_max_right f1 f2) h2
      have hstep := next_difference_of_peeks hp1 hp2
      rcases o1 with _ | e1
      · exact ⟨_, _, _, hstep, by simp [IterState.size, hsz1, hsz2]⟩
      rcases o2 with _ | e2
      · exact ⟨_, _, _, hstep, by simp [IterState.size, hsz1, hsz2]⟩
      have hlen : (i1.pending index).length + 1 + ((i2.pending index).length + 1) < k + 1 := by
        rw [← hX, ← hY] at hk
        exact hk
      have hstep' := fun f3 => next_difference_of_peeks
        (peekWith_of_le (le_max_left _ f3) hp1) (peekWith_of_le (le_max_left _ f3) hp2)
      rcases lt_trichotomy e1 e2 with hlt | heq | hgt
      · obtain ⟨f3, o3, s3, h3, hs3⟩ := difference_total k (some (some e1)) i1 none i2
          (by simp only [cachedPending, List.length_cons]; omega) (hsz1 ▸ hs1) (hsz2 ▸ hs2)
          ⟨⟨nofun, hi1⟩, nofun, hi2⟩
        refine ⟨max (max f1 f2) f3 + 1, o3, s3, ?_,
          by rw [hs3]; simp [IterState.size, hsz1, hsz2]⟩
        rw [hstep' f3]
        simp only [if_pos hlt, next_of_le (le_max_right _ f3) h3]
      · obtain ⟨f3, o3, s3, h3, hs3⟩ := difference_total k none i1 none i2
          (by simp only [cachedPending]; omega) (hsz1 ▸ hs1) (hsz2 ▸ hs2)
          ⟨⟨nofun, hi1⟩, nofun, hi2⟩
        refine ⟨max (max f1 f2) f3 + 1, o3, s3, ?_,
          by rw [hs3]; simp [IterState.size, hsz1, hsz2]⟩
        rw [hstep' f3]
        simp only [heq, lt_irrefl, if_false, if_true, next_of_le (le_max_right _ f3) h3]
      · refine ⟨_, some e1, .difference none i1 (some (some e2)) i2, hstep.trans ?_,
          by simp [IterState.size, hsz1, hsz2]⟩
        simp only [if_neg (not_lt_of_gt hgt), if_neg hgt.ne']

theorem fusedNextWith_total (peeked : Option (Option Nat)) {iter : IterState} (done : Bool)
    (hs : iter.size ≤ n) (hi : iter.Inv index) :
    ∃ fuel item iter' done',
      fusedNextWith (IterState.next index fuel) peeked iter done = some (item, iter', done') ∧
        iter'.size = iter.size := by
  cases peeked with
  | some o => exact ⟨0, o, iter, done, rfl, rfl⟩
  | none =>
      cases done with
      | true => exact ⟨0, none, iter, true, rfl, rfl⟩
      | false =>
          obtain ⟨f, o, it', hn, hsz⟩ := hT iter hs hi
          exact ⟨f, o, it', o.isNone, by simp [fusedNextWith, fuseNextWith, hn], hsz⟩

theorem skipAbove_total (entry : Nat) :
    ∀ k (peeked : Option (Option Nat)) (iter : IterState) (done : Bool),
      (cachedPending peeked (fusedPending done (iter.pending index))).length < k →
      iter.size ≤ n → iter.Inv index →
      ∃ fuel peeked' iter' done',
        skipAbove index fuel peeked iter done entry = some (peeked', iter', done') ∧
          iter'.size = iter.size
  | 0, _, _, _, hk, _, _ => absurd hk (Nat.not_lt_zero _)
  | k + 1, peeked, iter, done, hk, hs, hi => by
      obtain ⟨f1, o, it1, d1, hn, hsz⟩ := fusedNextWith_total hT peeked done hs hi
      obtain ⟨hh, ht, hi1⟩ := fusedNextWith_spec ((simulation f1).1) hi hn
      rcases o with _ | e
      · exact ⟨f1 + 1, some none, it1, d1, by simp [skipAbove, hn], hsz⟩
      by_cases hlt : entry < e
      · have hlen : (cachedPending none (fusedPending d1 (it1.pending index))).length < k := by
          have := length_tail_lt hh
          simp only [cachedPending]
          rw [ht rfl]
          omega
        obtain ⟨f2, pk2, it2, d2, h2, hs2⟩ :=
          skipAbove_total entry k none it1 d1 hlen (hsz ▸ hs) hi1
        exact ⟨max f1 f2 + 1, pk2, it2, d2, by
          simp [skipAbove, fusedNextWith_of_le (le_max_left f1 f2) hn, hlt,
            skipAbove_of_le (le_max_right f1 f2) h2], hs2.trans hsz⟩
      · exact ⟨f1 + 1, some (some e), it1, d1, by simp [skipAbove, hn, hlt], hsz⟩

theorem fromIter_total {peeked : Option (Option Nat)} {iter : IterState} {done : Bool}
    (hs : iter.size ≤ n) (hi : iter.Inv index) :
    CallTotal index (.fromIter peeked iter done) := fun entry => by
  obtain ⟨f1, pk1, it1, d1, hk, hsz⟩ :=
    skipAbove_total hT entry _ peeked iter done (Nat.lt_succ_self _) hs hi
  obtain ⟨-, hsome, -⟩ := (simulation f1).2.2 _ _ _ _ _ _ _ hi hk
  obtain ⟨o1, rfl⟩ := Option.isSome_iff_exists.mp hsome
  refine ⟨f1 + 1, ?_⟩
  simp only [PredicateState.call, hk, Option.bind_eq_bind, Option.some_bind, fusedNextWith]
  rcases o1 with _ | e
  · exact ⟨_, _, rfl, by simp [PredicateState.size, hsz]⟩
  · simp only
    split_ifs <;> exact ⟨_, _, rfl, by simp [PredicateState.size, hsz]⟩

end Total

theorem slice_total (rest : List Nat) : NextTotal index (.slice rest) := by
  cases rest with
  | nil => exact ⟨1, none, .slice [], rfl, rfl⟩
  | cons e rest => exact ⟨1, some e, .slice rest, rfl, rfl⟩

/-- Every state that keeps the invariant steps and answers with enough fuel. -/
theorem total (index : CompositeIndex) :
    ∀ n, (∀ s : IterState, s.size ≤ n → s.Inv index → NextTotal index s) ∧
    (∀ p : PredicateState, p.size ≤ n → p.Inv index → CallTotal index p)
  | 0 => ⟨fun s hs _ => by
      cases s with
      | slice rest => exact slice_total rest
      | _ => simp [IterState.size] at hs,
    fun p hp _ => by
      cases p with
      | pure f => exact fun entry => ⟨1, _, .pure f, rfl, rfl⟩
      | _ => simp [PredicateState.size] at hp⟩
  | n + 1 =>
      have ⟨hT, hP⟩ := total index n
      ⟨fun s hs hi => by
        cases s with
        | slice rest => exact slice_total rest
        | children roots c =>
            exact children_total hT roots _ c (Nat.lt_succ_self _)
              (by simp [IterState.size] at hs; omega) hi
        | filter c done p =>
            simp only [IterState.size] at hs
            exact filter_total hT hP _ c done p (Nat.lt_succ_self _) (by omega) (by omega) hi.1 hi.2
        | union =>
            simp only [IterState.size] at hs
            exact union_total hT (by omega) (by omega) hi
        | difference =>
            simp only [IterState.size] at hs
            exact difference_total hT _ _ _ _ _ (Nat.lt_succ_self _) (by omega) (by omega) hi,
      fun p hp hi => by
        cases p with
        | fromIter =>
            exact fromIter_total hT (by simp [PredicateState.size] at hp; omega) hi
        | pure f => exact fun entry => ⟨1, _, .pure f, rfl, rfl⟩
        | and p1 p2 | or p1 p2 | andNot p1 p2 =>
            intro entry
            simp only [PredicateState.size] at hp
            obtain ⟨f1, a1, q1, hc1, hs1⟩ := hP p1 (by omega) hi.1 entry
            obtain ⟨f2, a2, q2, hc2, hs2⟩ := hP p2 (by omega) hi.2 entry
            refine ⟨max f1 f2 + 1, ?_⟩
            simp only [PredicateState.call, call_of_le (le_max_left f1 f2) hc1,
              call_of_le (le_max_right f1 f2) hc2, Option.bind_eq_bind, Option.some_bind]
            exact ⟨_, _, rfl, by simp [PredicateState.size, hs1, hs2]⟩⟩

/-! ### Runs from a fresh iterator and a fresh probe -/

namespace InternalRevset

variable (index : CompositeIndex)

mutual
/-- The iterator `iter()` builds: empty caches, fuses not yet tripped, and for children
the positions its `HashSet` collects from the roots. -/
def iterInit : InternalRevset → IterState
  | .eager indexEntries => .slice indexEntries
  | .revWalk walk => .slice walk
  | .children rootSet candidateSet => .children (rootSet.iter index) candidateSet.iterInit
  | .filter candidates predicate => .filter candidates.iterInit false predicate.predicateInit
  | .filterPure candidates predicate => .filter candidates.iterInit false (.pure predicate)
  | .union set1 set2 => .union none set1.iterInit none set2.iterInit
  | .difference set1 set2 => .difference none set1.iterInit none set2.iterInit

/-- The closure `to_predicate_fn()` builds. -/
def predicateInit : InternalRevset → PredicateState
  | .eager indexEntries => .fromIter none (.slice indexEntries) false
  | .revWalk walk => .fromIter none (.slice walk) false
  | .children rootSet candidateSet =>
      .fromIter none (.children (rootSet.iter index) candidateSet.iterInit) false
  | .filter candidates predicate => .and candidates.predicateInit predicate.predicateInit
  | .filterPure candidates predicate => .and candidates.predicateInit (.pure predicate)
  | .union set1 set2 => .or set1.predicateInit set2.predicateInit
  | .difference set1 set2 => .andNot set1.predicateInit set2.predicateInit
end

/-- A fresh iterator and a fresh probe stand for the list model and keep the invariant. -/
theorem init_spec (S : InternalRevset) :
    (S.iterInit index).pending index = S.iter index ∧
      (S.predicateInit index).abstract index = S.toPredicateFn index ∧
      (S.iterInit index).Inv index ∧ (S.predicateInit index).Inv index := by
  induction S with
  | eager | revWalk => exact ⟨rfl, rfl, trivial, trivial⟩
  | children rootSet candidateSet _ ih =>
      have hp : (IterState.children (rootSet.iter index) (candidateSet.iterInit index)).pending
          index = childrenIter index (rootSet.iter index) (candidateSet.iter index) := by
        rw [IterState.pending, ih.1]
      exact ⟨hp, by simp [predicateInit, PredicateState.abstract, hp, cachedPending,
        fusedPending, toPredicateFn], ih.2.2.1, ih.2.2.1⟩
  | filter candidates predicate ih1 ih2 =>
      exact ⟨by simp [iterInit, IterState.pending, ih1.1, ih2.2.1, fusedPending, iter],
        by simp [predicateInit, PredicateState.abstract, ih1.2.1, ih2.2.1, toPredicateFn],
        ⟨ih1.2.2.1, ih2.2.2.2⟩, ⟨ih1.2.2.2, ih2.2.2.2⟩⟩
  | filterPure candidates predicate ih =>
      exact ⟨by simp [iterInit, IterState.pending, ih.1, fusedPending, iter,
          PredicateState.abstract],
        by simp [predicateInit, PredicateState.abstract, ih.2.1, toPredicateFn],
        ⟨ih.2.2.1, trivial⟩, ⟨ih.2.2.2, trivial⟩⟩
  | union set1 set2 ih1 ih2 | difference set1 set2 ih1 ih2 =>
      exact ⟨by simp [iterInit, IterState.pending, ih1.1, ih2.1, cachedPending, iter],
        by simp [predicateInit, PredicateState.abstract, ih1.2.1, ih2.2.1, toPredicateFn],
        ⟨⟨nofun, ih1.2.2.1⟩, nofun, ih2.2.2.1⟩, ⟨ih1.2.2.2, ih2.2.2.2⟩⟩

end InternalRevset

/-- Successive `next()` calls, each given enough fuel, return `items` and leave `s'`. -/
inductive Runs (index : CompositeIndex) : IterState → List (Option Nat) → IterState → Prop
  | nil (s : IterState) : Runs index s [] s
  | cons {s s₁ s' : IterState} {item : Option Nat} {items : List (Option Nat)} (fuel : Nat) :
      s.next index fuel = some (item, s₁) → Runs index s₁ items s' →
      Runs index s (item :: items) s'

/-- Successive calls of a probe at `entries`, each given enough fuel, answer `answers`. -/
inductive PredicateRuns (index : CompositeIndex) :
    PredicateState → List Nat → List PredicateMatch → PredicateState → Prop
  | nil (p : PredicateState) : PredicateRuns index p [] [] p
  | cons {p p₁ p' : PredicateState} {entry : Nat} {entries : List Nat} {answer : PredicateMatch}
      {answers : List PredicateMatch} (fuel : Nat) :
      p.call index fuel entry = some (answer, p₁) → PredicateRuns index p₁ entries answers p' →
      PredicateRuns index p (entry :: entries) (answer :: answers) p'

variable {index : CompositeIndex}

/-- A run returns the entries the list model has left, then `None` for ever. -/
theorem Runs.items_eq {s s' : IterState} {items : List (Option Nat)} (hi : s.Inv index)
    (h : Runs index s items s') :
    items = (List.range items.length).map fun i => (s.pending index)[i]? := by
  induction h with
  | nil => rfl
  | cons fuel hn _ ih =>
      obtain ⟨hh, ht, hi₁⟩ := (simulation fuel).1 _ _ _ hi hn
      rw [ih hi₁, ht, hh, List.length_cons, List.range_succ_eq_map]
      simp [List.getElem?_tail, List.head?_eq_getElem?]

theorem Runs.exists {s : IterState} (hi : s.Inv index) :
    ∀ k, ∃ items s', Runs index s items s' ∧ items.length = k
  | 0 => ⟨[], s, .nil s, rfl⟩
  | k + 1 => by
      obtain ⟨fuel, item, s₁, hn, -⟩ := (total index _).1 s le_rfl hi
      obtain ⟨-, -, hi₁⟩ := (simulation fuel).1 _ _ _ hi hn
      obtain ⟨items, s', hr, hlen⟩ := Runs.exists hi₁ k
      exact ⟨item :: items, s', .cons fuel hn hr, by simp [hlen]⟩

/-- A probe run answers as the list model's probe does. -/
theorem PredicateRuns.answers_eq {p p' : PredicateState} {entries : List Nat}
    {answers : List PredicateMatch} (hi : p.Inv index)
    (h : PredicateRuns index p entries answers p') :
    answers = (p.abstract index).run entries := by
  induction h with
  | nil => rfl
  | cons fuel hc _ ih =>
      obtain ⟨hcall, hi₁⟩ := (simulation fuel).2.1 _ _ _ _ hi hc
      rw [PredicateFn.run, hcall, ih hi₁]

theorem PredicateRuns.exists {p : PredicateState} (hi : p.Inv index) :
    ∀ entries, ∃ answers p', PredicateRuns index p entries answers p'
  | [] => ⟨[], p, .nil p⟩
  | entry :: entries => by
      obtain ⟨fuel, answer, p₁, hc, -⟩ := (total index _).2 p le_rfl hi entry
      obtain ⟨-, hi₁⟩ := (simulation fuel).2.1 _ _ _ _ hi hc
      obtain ⟨answers, p', hr⟩ := PredicateRuns.exists hi₁ entries
      exact ⟨answer :: answers, p', .cons fuel hc hr⟩

/-- Every set's probe and iterator stay exhausted. Each call of a fresh probe returns, and
after it has answered `NeverAgain` it answers nothing else; each `next()` of a fresh
iterator returns, the `k`-th one the `k`-th entry of the list model, so `None` for ever
after its first `None`, although `Filter` and `Union` poll their inputs again. -/
theorem InternalRevset.iter_fused (index : CompositeIndex) (S : InternalRevset) :
    (∀ entries answers p', PredicateRuns index (S.predicateInit index) entries answers p' →
      ∀ pre post, answers = pre ++ .neverAgain :: post → ∀ r ∈ post, r = .neverAgain) ∧
    (∀ entries, ∃ answers p', PredicateRuns index (S.predicateInit index) entries answers p') ∧
    (∀ k, ∃ items s', Runs index (S.iterInit index) items s' ∧ items.length = k) ∧
    (∀ items s', Runs index (S.iterInit index) items s' →
      items = (List.range items.length).map fun i => (S.iter index)[i]?) := by
  obtain ⟨hp, ha, hiI, hiP⟩ := S.init_spec index
  refine ⟨fun entries answers p' h pre post heq => ?_, PredicateRuns.exists hiP,
    Runs.exists hiI, fun items s' h => hp ▸ Runs.items_eq hiI h⟩
  rw [PredicateRuns.answers_eq hiP h, ha] at heq
  exact PredicateFn.run_neverAgain_absorbing _ entries pre post heq

end RevsetEngine
