import RevsetEngine.Index

/-!
The internal sets of the engine and their two forms. `InternalRevset.iter` is the entry
sequence `iter()` yields up to its first `None`, each iterator's `next` loop run to
exhaustion over the sequences of its inputs. `InternalRevset.toPredicateFn` is the probe
`to_predicate_fn()` returns; a `predicate_fn_from_iter` probe keeps what is left of its
fused, peekable iterator, which is a suffix of that sequence. `Iterator` gives the
iterators with their `Peekable` and `Fuse` state and shows they yield exactly `iter`.
-/

namespace RevsetEngine

inductive PredicateMatch where
  | «match»
  | notThisOne
  | neverAgain
  deriving DecidableEq, Repr

namespace PredicateMatch

def fromBoolean (b : Bool) : PredicateMatch :=
  if b then .match else .notThisOne

def and : PredicateMatch → PredicateMatch → PredicateMatch
  | .match, .match => .match
  | .neverAgain, _ => .neverAgain
  | _, .neverAgain => .neverAgain
  | _, _ => .notThisOne

def or : PredicateMatch → PredicateMatch → PredicateMatch
  | .neverAgain, .neverAgain => .neverAgain
  | .match, _ => .match
  | _, .match => .match
  | _, _ => .notThisOne

def andNot : PredicateMatch → PredicateMatch → PredicateMatch
  | .neverAgain, _ => .neverAgain
  | _, .match => .notThisOne
  | .match, _ => .match
  | _, _ => .notThisOne

@[simp] theorem fromBoolean_ne_neverAgain (b : Bool) : fromBoolean b ≠ .neverAgain := by
  cases b <;> simp [fromBoolean]

@[simp] theorem fromBoolean_eq_match (b : Bool) : fromBoolean b = .match ↔ b = true := by
  cases b <;> simp [fromBoolean]

@[simp] theorem and_eq_match (a b : PredicateMatch) :
    a.and b = .match ↔ a = .match ∧ b = .match := by
  cases a <;> cases b <;> decide

@[simp] theorem and_eq_neverAgain (a b : PredicateMatch) :
    a.and b = .neverAgain ↔ a = .neverAgain ∨ b = .neverAgain := by
  cases a <;> cases b <;> decide

@[simp] theorem or_eq_match (a b : PredicateMatch) :
    a.or b = .match ↔ (a = .match ∨ b = .match) := by
  cases a <;> cases b <;> decide

@[simp] theorem or_eq_neverAgain (a b : PredicateMatch) :
    a.or b = .neverAgain ↔ a = .neverAgain ∧ b = .neverAgain := by
  cases a <;> cases b <;> decide

@[simp] theorem andNot_eq_match (a b : PredicateMatch) :
    a.andNot b = .match ↔ a = .match ∧ b ≠ .match := by
  cases a <;> cases b <;> decide

@[simp] theorem andNot_eq_neverAgain (a b : PredicateMatch) :
    a.andNot b = .neverAgain ↔ a = .neverAgain := by
  cases a <;> cases b <;> decide

end PredicateMatch

/-- A `PurePredicateFn` as `build_predicate_fn` makes it: every answer comes from
`from_boolean`, so none is `NeverAgain`. -/
structure PurePredicateFn where
  call : Nat → PredicateMatch
  ne_neverAgain : ∀ pos, call pos ≠ .neverAgain

/-- The state of a boxed probe closure. `fromIter rest` is `predicate_fn_from_iter`
with `rest` still to come from its iterator; `and`, `or` and `andNot` are the closures
of `FilterRevset`, `UnionRevset` and `DifferenceRevset`. -/
inductive PredicateFn where
  | fromIter (rest : List Nat)
  | pure (f : PurePredicateFn)
  | and (p1 p2 : PredicateFn)
  | or (p1 p2 : PredicateFn)
  | andNot (p1 p2 : PredicateFn)

/-- One call of a probe closure: its answer at `entry` and its next state. -/
def PredicateFn.call : PredicateFn → Nat → PredicateMatch × PredicateFn
  | .fromIter rest, entry =>
      match rest.dropWhile (entry < ·) with
      | e :: rest' =>
          if e = entry then (.match, .fromIter rest') else (.notThisOne, .fromIter (e :: rest'))
      | [] => (.neverAgain, .fromIter [])
  | .pure f, entry => (f.call entry, .pure f)
  | .and p1 p2, entry =>
      ((p1.call entry).1.and (p2.call entry).1, .and (p1.call entry).2 (p2.call entry).2)
  | .or p1 p2, entry =>
      ((p1.call entry).1.or (p2.call entry).1, .or (p1.call entry).2 (p2.call entry).2)
  | .andNot p1 p2, entry =>
      ((p1.call entry).1.andNot (p2.call entry).1, .andNot (p1.call entry).2 (p2.call entry).2)

/-- The answers of a probe called on `entries` in order. -/
def PredicateFn.run : PredicateFn → List Nat → List PredicateMatch
  | _, [] => []
  | p, e :: es => (p.call e).1 :: (p.call e).2.run es

/-- `FilterRevsetIterator::next` to exhaustion: keep a candidate on `Match`, skip it on
`NotThisOne`, stop on `NeverAgain`. -/
def filterRevsetIter : List Nat → PredicateFn → List Nat
  | [], _ => []
  | e :: rest, p =>
      match (p.call e).1 with
      | .match => e :: filterRevsetIter rest (p.call e).2
      | .notThisOne => filterRevsetIter rest (p.call e).2
      | .neverAgain => []

/-- `UnionRevsetIterator::next` to exhaustion: the descending merge, once on ties. -/
def unionIter : List Nat → List Nat → List Nat
  | [], ys => ys
  | x :: xs, [] => x :: xs
  | x :: xs, y :: ys =>
      if x < y then y :: unionIter (x :: xs) ys
      else if x = y then y :: unionIter xs ys
      else x :: unionIter xs (y :: ys)
termination_by xs ys => xs.length + ys.length

/-- `DifferenceRevsetIterator::next` to exhaustion. -/
def differenceIter : List Nat → List Nat → List Nat
  | [], _ => []
  | x :: xs, [] => x :: xs
  | x :: xs, y :: ys =>
      if x < y then differenceIter (x :: xs) ys
      else if x = y then differenceIter xs ys
      else x :: differenceIter xs (y :: ys)
termination_by xs ys => xs.length + ys.length

/-- The candidates `ChildrenRevset::iter` keeps: those with a parent among the roots. -/
def childrenIter (index : CompositeIndex) (roots candidates : List Nat) :
    List Nat :=
  candidates.filter fun c => (index.parentPositions c).any (· ∈ roots)

/-- The set kinds. `filter` is a `FilterRevset` whose predicate is another set (the
intersection), `filterPure` one whose predicate is a `PurePredicateFn`. -/
inductive InternalRevset where
  | eager (indexEntries : List Nat)
  | revWalk (walk : List Nat)
  | children (rootSet candidateSet : InternalRevset)
  | filter (candidates predicate : InternalRevset)
  | filterPure (candidates : InternalRevset) (predicate : PurePredicateFn)
  | union (set1 set2 : InternalRevset)
  | difference (set1 set2 : InternalRevset)

namespace InternalRevset

variable (index : CompositeIndex)

mutual
def iter : InternalRevset → List Nat
  | .eager indexEntries => indexEntries
  | .revWalk walk => walk
  | .children rootSet candidateSet => childrenIter index rootSet.iter candidateSet.iter
  | .filter candidates predicate => filterRevsetIter candidates.iter predicate.toPredicateFn
  | .filterPure candidates predicate => filterRevsetIter candidates.iter (.pure predicate)
  | .union set1 set2 => unionIter set1.iter set2.iter
  | .difference set1 set2 => differenceIter set1.iter set2.iter

def toPredicateFn : InternalRevset → PredicateFn
  | .eager indexEntries => .fromIter indexEntries
  | .revWalk walk => .fromIter walk
  | .children rootSet candidateSet =>
      .fromIter (childrenIter index rootSet.iter candidateSet.iter)
  | .filter candidates predicate => .and candidates.toPredicateFn predicate.toPredicateFn
  | .filterPure candidates predicate => .and candidates.toPredicateFn (.pure predicate)
  | .union set1 set2 => .or set1.toPredicateFn set2.toPredicateFn
  | .difference set1 set2 => .andNot set1.toPredicateFn set2.toPredicateFn
end

end InternalRevset

end RevsetEngine
