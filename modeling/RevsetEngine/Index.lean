import Mathlib.Data.List.Infix
import Mathlib.Data.List.Lex
import Mathlib.Data.List.Sort
import Mathlib.Logic.Relation

/-!
The collaborators the revset engine reads: index positions, commit and change ids, the
composite index with its walker, and the commit store. An `IndexEntry` is identified by
its position, as its equality is, so entries are their positions, natural numbers (the
`IndexPosition` the engine orders by), and their data is read from the index.
-/

namespace RevsetEngine

/-- `CommitId(Vec<u8>)`, ordered as its bytes are. -/
abbrev CommitId := List (Fin 256)

/-- `ChangeId(Vec<u8>)`, ordered as its bytes are. -/
abbrev ChangeId := List (Fin 256)

/-- `TreeId`, only passed between the store's operations. -/
abbrev TreeId := List (Fin 256)

abbrev RepoPath := String

abbrev MillisSinceEpoch := Int

/-- A half-open `Range` `start..end` (`Range<u32>`, `Range<u64>`). -/
structure Range where
  start : Nat
  stop : Nat
  deriving DecidableEq, Repr

def Range.contains (r : Range) (n : Nat) : Bool :=
  decide (r.start ≤ n) && decide (n < r.stop)

/-- `GENERATION_RANGE_FULL`, that is `0..u64::MAX`. -/
def generationRangeFull : Range := ⟨0, 18446744073709551615⟩

/-- The `CompositeIndex` operations the engine calls. `walkRevs heads roots` is the
entry sequence `walk_revs` enumerates, and `filterByGeneration heads roots g` the one
left after `filter_by_generation(g)` on that walk. -/
structure CompositeIndex where
  parentPositions : Nat → List Nat
  commitId : Nat → CommitId
  changeId : Nat → ChangeId
  entryById : CommitId → Option Nat
  walkRevs : List CommitId → List CommitId → List Nat
  filterByGeneration : List CommitId → List CommitId → Range → List Nat
  heads : List CommitId → List CommitId

namespace CompositeIndex

variable (index : CompositeIndex)

def numParents (pos : Nat) : Nat :=
  (index.parentPositions pos).length

/-- `a` is an ancestor of `c`, or `c` itself. -/
def IsAncestor : Nat → Nat → Prop :=
  Relation.ReflTransGen fun p c => p ∈ index.parentPositions c

/-- The walker's contract: every walk enumerates strictly descending positions. -/
def WalksDescending : Prop :=
  (∀ heads roots, (index.walkRevs heads roots).Sorted (· > ·)) ∧
    ∀ heads roots g, (index.filterByGeneration heads roots g).Sorted (· > ·)

/-- Every parent is older than its child, so it has a lower position. -/
def ParentsBelow : Prop :=
  ∀ c p, p ∈ index.parentPositions c → p < c

end CompositeIndex

structure Signature where
  name : String
  email : String
  timestamp : MillisSinceEpoch

structure Commit where
  parents : List CommitId
  tree : TreeId
  description : String
  author : Signature
  committer : Signature

/-- The two matchers the `File` predicate builds: `EverythingMatcher` and
`PrefixMatcher::new(paths)`. -/
inductive Matcher where
  | everything
  | prefixMatcher (paths : List RepoPath)

/-- The commit store. `get_commit` returns a `Result`, here `none` for its error;
`mergeCommitTrees` is `merge_commit_trees_without_repo`, and `diff a b m` lists the
paths where the trees differ under the matcher. -/
structure Store where
  getCommit : CommitId → Option Commit
  mergeCommitTrees : List CommitId → TreeId
  diff : TreeId → TreeId → Matcher → List RepoPath

/-- The store holds the commit of every id the index finds. The engine `unwrap`s
`get_commit` on indexed ids, and the spec takes this for granted: a commit the store
lacks is a fatal precondition breach. -/
def Store.Holds (store : Store) (index : CompositeIndex) : Prop :=
  ∀ id pos, index.entryById id = some pos → (store.getCommit id).isSome

/-- `str::contains` with a string needle. -/
def strContains (haystack needle : String) : Bool :=
  decide (needle.data <:+: haystack.data)

/-! ### Runs of a list

A predicate closed downwards along a list holds on a leading run of it. Both the probe's
skip over entries above a query and the id index's partition point read such runs. -/

section Runs

variable {α : Type}

theorem takeWhile_eq_filter {p : α → Bool} :
    ∀ {l : List α}, l.Pairwise (fun a b => p b → p a) → l.takeWhile p = l.filter p
  | [], _ => rfl
  | a :: l, h => by
      rw [List.pairwise_cons] at h
      by_cases ha : p a
      · simp [List.takeWhile_cons, List.filter_cons, ha, takeWhile_eq_filter h.2]
      · have hnil : l.filter p = [] :=
          List.filter_eq_nil_iff.mpr fun b hb hpb => ha (h.1 b hb hpb)
        simp [List.takeWhile_cons, List.filter_cons, ha, hnil]

theorem dropWhile_eq_filter {p : α → Bool} :
    ∀ {l : List α}, l.Pairwise (fun a b => p b → p a) → l.dropWhile p = l.filter fun a => !p a
  | [], _ => rfl
  | a :: l, h => by
      rw [List.pairwise_cons] at h
      by_cases ha : p a
      · simp [List.dropWhile_cons, List.filter_cons, ha, dropWhile_eq_filter h.2]
      · have hall : l.filter (fun a => !p a) = l :=
          List.filter_eq_self.mpr fun b hb => by simpa using fun hpb => ha (h.1 b hb hpb)
        simp [List.dropWhile_cons, List.filter_cons, ha, hall]

end Runs

end RevsetEngine
