import Mathlib.Data.Prod.Lex
import RevsetEngine.Revset

/-!
The expression compiler `EvaluationContext::evaluate` and the eager constructions it
runs: `revset_for_commit_ids`, the `DagRange` sweep, `Roots`, `take_latest_revset`, and
the content predicates of `build_predicate_fn`. Evaluation is in `Eval`: a `RevsetError`
or a panic, the latter for an unresolved symbol and for the `unwrap`s and the `assert!`
on the way.
-/

namespace RevsetEngine

inductive RevsetError where
  | noSuchRevision (name : String)
  | ambiguousIdPrefix (hexPrefix : String)
  | storeError (message : String)

/-- Evaluation: `none` is a panic, `some (.error e)` an `Err(e)`. -/
abbrev Eval := ExceptT RevsetError Option

inductive RevsetFilterPredicate where
  | parentCount (range : Range)
  | description (needle : String)
  | author (needle : String)
  | committer (needle : String)
  | file (paths : Option (List RepoPath))

inductive RevsetExpression where
  | none
  | all
  | commits (commitIds : List CommitId)
  | symbol (name : String)
  | children (roots : RevsetExpression)
  | ancestors (heads : RevsetExpression) (generation : Range)
  | range (roots heads : RevsetExpression) (generation : Range)
  | dagRange (roots heads : RevsetExpression)
  | heads (candidates : RevsetExpression)
  | roots (candidates : RevsetExpression)
  | visibleHeads
  | branches (needle : String)
  | remoteBranches (branchNeedle remoteNeedle : String)
  | tags
  | gitRefs
  | gitHead
  | latest (candidates : RevsetExpression) (count : Nat)
  | filter (predicate : RevsetFilterPredicate)
  | asFilter (candidates : RevsetExpression)
  | present (candidates : RevsetExpression)
  | notIn (complement : RevsetExpression)
  | union (expression1 expression2 : RevsetExpression)
  | intersection (expression1 expression2 : RevsetExpression)
  | difference (expression1 expression2 : RevsetExpression)

namespace RevsetExpression

/-- Modelled from the spec: `heads.ancestors()` is
`Ancestors { heads, generation: GENERATION_RANGE_FULL }`. -/
def ancestorsFull (heads : RevsetExpression) : RevsetExpression :=
  .ancestors heads generationRangeFull

/-- Modelled from the spec: `roots.descendants()` is
`DagRange { roots, heads: VisibleHeads }`. -/
def descendants (roots : RevsetExpression) : RevsetExpression :=
  .dagRange roots .visibleHeads

/-- Modelled from the spec: `candidates.connected()` is
`DagRange { roots: candidates, heads: candidates }`. -/
def connected (candidates : RevsetExpression) : RevsetExpression :=
  .dagRange candidates candidates

/-- A size that every expression `evaluate` recurses into, its own sub-expressions and
those it builds (`ancestors()`, `descendants()`, `connected()`, `All`), is below. -/
def weight : RevsetExpression → Nat
  | .all => 5
  | .children r => r.weight + 7
  | .ancestors h _ => h.weight + 3
  | .range r h _ => r.weight + h.weight + 1
  | .dagRange r h => r.weight + h.weight + 5
  | .heads c | .latest c _ | .asFilter c | .present c => c.weight + 1
  | .roots c => 2 * c.weight + 6
  | .filter _ => 6
  | .notIn c => c.weight + 6
  | .union e1 e2 | .intersection e1 e2 | .difference e1 e2 => e1.weight + e2.weight + 1
  | _ => 1

end RevsetExpression

section Predicates

variable (store : Store) (index : CompositeIndex)

/-- A closure's test of the commit of `entry`, read by `get_commit(..).unwrap()`. The
iteration model has no panic: on a commit the store lacks, where the `unwrap` panics, the
test fails. Results that iterate a `Filter` assume `Store.Holds`, under which every
commit is read. -/
def testCommit (entry : Nat) (test : Commit → Bool) : Bool :=
  (store.getCommit (index.commitId entry)).elim false test

def hasDiffFromParent (entry : Nat) (matcher : Matcher) : Bool :=
  testCommit store index entry fun commit =>
    let fromTree := store.mergeCommitTrees commit.parents
    !(store.diff fromTree commit.tree matcher).isEmpty

/-- The condition each closure of `build_predicate_fn` passes to `from_boolean`. -/
def RevsetFilterPredicate.test : RevsetFilterPredicate → Nat → Bool
  | .parentCount parentCountRange, entry => parentCountRange.contains (index.numParents entry)
  | .description needle, entry =>
      testCommit store index entry fun commit => strContains commit.description needle
  | .author needle, entry =>
      testCommit store index entry fun commit =>
        strContains commit.author.name needle || strContains commit.author.email needle
  | .committer needle, entry =>
      testCommit store index entry fun commit =>
        strContains commit.committer.name needle || strContains commit.committer.email needle
  | .file paths, entry =>
      hasDiffFromParent store index entry (match paths with
        | some paths => .prefixMatcher paths
        | none => .everything)

def buildPredicateFn (predicate : RevsetFilterPredicate) : PurePredicateFn where
  call entry := .fromBoolean (predicate.test store index entry)
  ne_neverAgain _ := PredicateMatch.fromBoolean_ne_neverAgain _

end Predicates

/-- `Item` of `take_latest_revset`, ordered as derived: by timestamp, then position. -/
structure Item where
  timestamp : MillisSinceEpoch
  entry : Nat
  deriving DecidableEq

def Item.key (item : Item) : MillisSinceEpoch ×ₗ Nat :=
  toLex (item.timestamp, item.entry)

theorem Item.key_injective : Function.Injective Item.key := by
  rintro ⟨t, e⟩ ⟨t', e'⟩ h
  simpa [Item.key] using h

instance : LinearOrder Item := LinearOrder.lift' Item.key Item.key_injective

/-- The ascending sweep of `DagRange`, one candidate: it is reachable when it is a root
or one of its parents is reachable already. The state is `(reachable, result)`. -/
def dagRangeStep (index : CompositeIndex) (state : List Nat × List Nat)
    (candidate : Nat) : List Nat × List Nat :=
  if decide (candidate ∈ state.1) || (index.parentPositions candidate).any (· ∈ state.1) then
    (candidate :: state.1, state.2 ++ [candidate])
  else state

/-- The `DagRange` result: the sweep over the candidates in reverse, then reversed. -/
def dagRangeSweep (index : CompositeIndex) (roots candidates : List Nat) :
    List Nat :=
  (candidates.reverse.foldl (dagRangeStep index) (roots, [])).2.reverse

/-- `EvaluationContext`. The `&dyn Index` it also holds serves only the tree merge of the
`File` predicate, which the store's `mergeCommitTrees` stands for. -/
structure EvaluationContext where
  store : Store
  compositeIndex : CompositeIndex
  visibleHeads : List CommitId

/-- The panic on an unresolved symbol. -/
def unresolved : Eval InternalRevset := ExceptT.lift none

namespace EvaluationContext

variable (ctx : EvaluationContext)

/-- `entry_by_id(id).unwrap()` for each id, sorted by descending position, deduplicated. -/
def revsetForCommitIds (commitIds : List CommitId) : Option InternalRevset := do
  let indexEntries ← commitIds.mapM ctx.compositeIndex.entryById
  pure (.eager ((indexEntries.mergeSort fun a b => decide (b ≤ a)).destutter (· ≠ ·)))

/-- `make_rev_item`: the entry with its commit's committer timestamp. The
`get_commit(..).unwrap()` panics on a commit the store lacks. -/
def makeRevItem (entry : Nat) : Option Item := do
  let commit ← ctx.store.getCommit (ctx.compositeIndex.commitId entry)
  pure ⟨commit.committer.timestamp, entry⟩

/-- One candidate past the first `count` ones: `peek_mut().unwrap()` reaches a least
item of the `BinaryHeap<Reverse<Item>>`, replaced by the candidate if it is greater. -/
def replaceEarliest (latestItems : List Item) (item : Item) : Option (List Item) := do
  let earliest ← latestItems.min?
  pure (if earliest < item then item :: latestItems.erase earliest else latestItems)

/-- `take_latest_revset`. Past a zero count every candidate is made an item, the first
`count` fill the heap and the rest go through the replacement loop. -/
def takeLatestRevset (candidateSet : InternalRevset) (count : Nat) : Option InternalRevset :=
  if count = 0 then some (.eager []) else do
    let candidateItems ← (candidateSet.iter ctx.compositeIndex).mapM ctx.makeRevItem
    let latestItems ← (candidateItems.drop count).foldlM replaceEarliest
      (candidateItems.take count)
    if latestItems.length ≤ count then
      pure (.eager ((latestItems.map Item.entry).mergeSort fun a b => decide (b ≤ a)))
    else none

def evaluate : RevsetExpression → Eval InternalRevset
  | .symbol _ | .branches _ | .remoteBranches _ _ | .tags | .gitRefs | .gitHead =>
      unresolved
  | .none => pure (.eager [])
  | .all => evaluate RevsetExpression.visibleHeads.ancestorsFull
  | .commits commitIds => ExceptT.lift (ctx.revsetForCommitIds commitIds)
  | .children roots => do
      let rootSet ← evaluate roots
      let candidateSet ← evaluate roots.descendants
      pure (.children rootSet candidateSet)
  | .ancestors heads generation => evaluate (.range .none heads generation)
  | .range roots heads generation => do
      let rootSet ← evaluate roots
      let rootIds := (rootSet.iter ctx.compositeIndex).map ctx.compositeIndex.commitId
      let headSet ← evaluate heads
      let headIds := (headSet.iter ctx.compositeIndex).map ctx.compositeIndex.commitId
      if generation = generationRangeFull then
        pure (.revWalk (ctx.compositeIndex.walkRevs headIds rootIds))
      else
        pure (.revWalk (ctx.compositeIndex.filterByGeneration headIds rootIds generation))
  | .dagRange roots heads => do
      let rootSet ← evaluate roots
      let candidateSet ← evaluate heads.ancestorsFull
      pure (.eager (dagRangeSweep ctx.compositeIndex (rootSet.iter ctx.compositeIndex)
        (candidateSet.iter ctx.compositeIndex)))
  | .visibleHeads => ExceptT.lift (ctx.revsetForCommitIds ctx.visibleHeads)
  | .heads candidates => do
      let candidateSet ← evaluate candidates
      let candidateIds := (candidateSet.iter ctx.compositeIndex).map ctx.compositeIndex.commitId
      ExceptT.lift (ctx.revsetForCommitIds (ctx.compositeIndex.heads candidateIds))
  | .roots candidates => do
      let connectedSet ← evaluate candidates.connected
      let filled := connectedSet.iter ctx.compositeIndex
      let candidateSet ← evaluate candidates
      pure (.eager ((candidateSet.iter ctx.compositeIndex).filter fun candidate =>
        !(ctx.compositeIndex.parentPositions candidate).any (· ∈ filled)))
  | .latest candidates count => do
      let candidateSet ← evaluate candidates
      ExceptT.lift (ctx.takeLatestRevset candidateSet count)
  | .filter predicate => do
      let candidates ← evaluate .all
      pure (.filterPure candidates (buildPredicateFn ctx.store ctx.compositeIndex predicate))
  | .asFilter candidates => evaluate candidates
  | .present candidates =>
      tryCatch (evaluate candidates) fun
        | .noSuchRevision _ => pure (.eager [])
        | e => throw e
  | .notIn complement => do
      let set1 ← evaluate .all
      let set2 ← evaluate complement
      pure (.difference set1 set2)
  | .union expression1 expression2 => do
      let set1 ← evaluate expression1
      let set2 ← evaluate expression2
      pure (.union set1 set2)
  | .intersection expression1 expression2 => do
      let candidates ← evaluate expression1
      let predicate ← evaluate expression2
      pure (.filter candidates predicate)
  | .difference expression1 expression2 => do
      let set1 ← evaluate expression1
      let set2 ← evaluate expression2
      pure (.difference set1 set2)
termination_by e => e.weight
decreasing_by
  all_goals simp_wf
  all_goals dsimp only [RevsetExpression.weight, RevsetExpression.ancestorsFull,
    RevsetExpression.descendants, RevsetExpression.connected]
  all_goals omega

section Combine

variable (a b : RevsetExpression)

/-! The branches that evaluate two operands and combine their sets. -/

theorem evaluate_notIn : ctx.evaluate (.notIn a) =
    ctx.evaluate .all >>= fun S₁ => ctx.evaluate a >>= fun S₂ => pure (.difference S₁ S₂) := by
  conv_lhs => rw [evaluate]

theorem evaluate_union : ctx.evaluate (.union a b) =
    ctx.evaluate a >>= fun S₁ => ctx.evaluate b >>= fun S₂ => pure (.union S₁ S₂) := by
  rw [evaluate]

theorem evaluate_intersection : ctx.evaluate (.intersection a b) =
    ctx.evaluate a >>= fun S₁ => ctx.evaluate b >>= fun S₂ => pure (.filter S₁ S₂) := by
  rw [evaluate]

theorem evaluate_difference : ctx.evaluate (.difference a b) =
    ctx.evaluate a >>= fun S₁ => ctx.evaluate b >>= fun S₂ => pure (.difference S₁ S₂) := by
  rw [evaluate]

end Combine

/-! The branches that read their operands' sets only through the sequences they yield. -/

theorem evaluate_all :
    ctx.evaluate .all = ctx.evaluate RevsetExpression.visibleHeads.ancestorsFull := by
  rw [evaluate]

theorem evaluate_children (a : RevsetExpression) : ctx.evaluate (.children a) =
    ctx.evaluate a >>= fun A => ctx.evaluate a.descendants >>= fun C => pure (.children A C) := by
  rw [evaluate]

theorem evaluate_ancestors (a : RevsetExpression) (generation : Range) :
    ctx.evaluate (.ancestors a generation) = ctx.evaluate (.range .none a generation) := by
  rw [evaluate]

theorem evaluate_range (a b : RevsetExpression) (generation : Range) :
    ctx.evaluate (.range a b generation) = ctx.evaluate a >>= fun A => ctx.evaluate b >>= fun B =>
      let rootIds := (A.iter ctx.compositeIndex).map ctx.compositeIndex.commitId
      let headIds := (B.iter ctx.compositeIndex).map ctx.compositeIndex.commitId
      if generation = generationRangeFull then
        pure (.revWalk (ctx.compositeIndex.walkRevs headIds rootIds))
      else
        pure (.revWalk (ctx.compositeIndex.filterByGeneration headIds rootIds generation)) := by
  rw [evaluate]

theorem evaluate_dagRange (a b : RevsetExpression) : ctx.evaluate (.dagRange a b) =
    ctx.evaluate a >>= fun A => ctx.evaluate b.ancestorsFull >>= fun B =>
      pure (.eager (dagRangeSweep ctx.compositeIndex (A.iter ctx.compositeIndex)
        (B.iter ctx.compositeIndex))) := by
  rw [evaluate]

theorem evaluate_roots (a : RevsetExpression) : ctx.evaluate (.roots a) =
    ctx.evaluate a.connected >>= fun C => ctx.evaluate a >>= fun A =>
      pure (.eager ((A.iter ctx.compositeIndex).filter fun candidate =>
        !(ctx.compositeIndex.parentPositions candidate).any (· ∈ C.iter ctx.compositeIndex))) := by
  rw [evaluate]

theorem evaluate_heads (a : RevsetExpression) : ctx.evaluate (.heads a) =
    ctx.evaluate a >>= fun A => ExceptT.lift (ctx.revsetForCommitIds (ctx.compositeIndex.heads
      ((A.iter ctx.compositeIndex).map ctx.compositeIndex.commitId))) := by
  rw [evaluate]

theorem evaluate_latest (a : RevsetExpression) (count : Nat) : ctx.evaluate (.latest a count) =
    ctx.evaluate a >>= fun A =>
      ExceptT.lift (ctx.takeLatestRevset (.eager (A.iter ctx.compositeIndex)) count) := by
  rw [evaluate]
  rfl

end EvaluationContext

/-! ### A five-commit history

The linear history `0 ← 1 ← 2 ← 3 ← 4` the engine's tests build, with one-byte commit and
change ids equal to the position, a walker that enumerates ancestors, and committer
timestamps that repeat every three commits. -/

def chainIndex : CompositeIndex where
  parentPositions pos := if pos = 0 then [] else [pos - 1]
  commitId pos := [Fin.ofNat pos]
  changeId pos := [Fin.ofNat pos]
  entryById id := match id with
    | [b] => if b.val < 5 then some b.val else none
    | _ => none
  walkRevs heads roots := (List.range 5).reverse.filter fun pos =>
    heads.any (fun h => decide (pos ≤ (h.headD 0).val)) &&
      roots.all fun r => decide ((r.headD 0).val < pos)
  filterByGeneration heads roots generation := (List.range 5).reverse.filter fun pos =>
    heads.any (fun h => decide (pos ≤ (h.headD 0).val) &&
      generation.contains ((h.headD 0).val - pos)) &&
      roots.all fun r => decide ((r.headD 0).val < pos)
  heads ids := ids.filter fun id => ids.all fun id' => (id'.headD 0).val ≤ (id.headD 0).val

/-- The store of the chain: the five commits, commit `b` committed at `b % 3`. -/
def chainStore : Store where
  getCommit id := match id with
    | [b] => if b.val < 5 then
        some { parents := if b.val = 0 then [] else [[Fin.ofNat (b.val - 1)]]
               tree := id
               description := ""
               author := ⟨"", "", 0⟩
               committer := ⟨"", "", (b.val % 3 : Nat)⟩ }
      else none
    | _ => none
  mergeCommitTrees _ := []
  diff fromTree toTree _ := if fromTree = toTree then [] else [""]

def chainContext : EvaluationContext := ⟨chainStore, chainIndex, [[4]]⟩

end RevsetEngine
