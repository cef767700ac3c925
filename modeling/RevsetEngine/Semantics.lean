import RevsetEngine.DagQueries
import RevsetEngine.Laws

/-!
What an expression means, and that `evaluate` computes it. `Denotes e` is the set of
positions `e` selects, read off the history: ancestors and descendants along parent
edges, generations as numbers of parent edges, the latest by `(timestamp, position)`,
and the content predicates as `build_predicate_fn` tests them. Over an index that keeps
the contracts of the operations the engine calls (`Contract`), and a store that holds the
commits it indexes (`Store.Holds`), every resolved expression evaluates to a set that
yields exactly what it denotes, in strictly descending order.

The proof has one lemma per operator, stating what the operator's set yields from what
its operands' sets yield (`Realizes`), and assembles them by structural induction on the
expression. The expressions the compiler builds (`ancestors()`, `descendants()`,
`connected()`, `All`) are realised by the same lemmas, so no case unfolds another's.
-/

namespace RevsetEngine

namespace CompositeIndex

variable (index : CompositeIndex)

/-- `a` is reached from `c` through exactly `d` parent edges. -/
def ReachesIn : Nat → Nat → Nat → Prop
  | a, c, 0 => a = c
  | a, c, d + 1 => ∃ p ∈ index.parentPositions c, ReachesIn a p d

/-- `a` is an ancestor of `c` at a generation the range contains. -/
def ReachesWithin (a c : Nat) (generation : Range) : Prop :=
  ∃ d, generation.contains d = true ∧ index.ReachesIn a c d

/-- The contracts of the index operations on which what `evaluate` computes rests, for
the ids of entries the engine passes them. Positions are `u32`, parents lie below their
children and the walks descend; `walk_revs(heads, roots)` enumerates the ancestors of the
heads that are no ancestors of a root, `filter_by_generation` keeps those of them at a
generation in the range, and `heads` keeps the ids whose entry is an ancestor of no
other's. -/
structure Contract : Prop where
  consistent : index.Consistent
  walksDescending : index.WalksDescending
  parentsBelow : index.ParentsBelow
  entryById_lt : ∀ id pos, index.entryById id = some pos → pos < 4294967296
  mem_walkRevs : ∀ heads roots, (∀ id ∈ heads ++ roots, (index.entryById id).isSome) →
    ∀ x, x ∈ index.walkRevs heads roots ↔
      (∃ id ∈ heads, ∃ h, index.entryById id = some h ∧ index.IsAncestor x h) ∧
        ¬∃ id ∈ roots, ∃ r, index.entryById id = some r ∧ index.IsAncestor x r
  mem_filterByGeneration : ∀ heads roots,
    (∀ id ∈ heads ++ roots, (index.entryById id).isSome) →
    ∀ generation x, x ∈ index.filterByGeneration heads roots generation ↔
      (∃ id ∈ heads, ∃ h, index.entryById id = some h ∧
          index.ReachesWithin x h generation) ∧
        ¬∃ id ∈ roots, ∃ r, index.entryById id = some r ∧ index.IsAncestor x r
  mem_heads : ∀ ids, (∀ id ∈ ids, (index.entryById id).isSome) → ∀ id,
    id ∈ index.heads ids ↔ id ∈ ids ∧ ¬∃ id' ∈ ids, id' ≠ id ∧
      ∃ h h', index.entryById id = some h ∧ index.entryById id' = some h' ∧
        index.IsAncestor h h'

variable {index}

theorem ReachesIn.isAncestor {a c d : Nat} (h : index.ReachesIn a c d) :
    index.IsAncestor a c := by
  induction d generalizing c with
  | zero => exact h ▸ .refl
  | succ d ih =>
      obtain ⟨p, hp, h⟩ := h
      exact (ih h).tail hp

theorem IsAncestor.exists_reachesIn {a c : Nat} (h : index.IsAncestor a c) :
    ∃ d, index.ReachesIn a c d := by
  induction h with
  | refl => exact ⟨0, rfl⟩
  | tail _ hp ih =>
      obtain ⟨d, hd⟩ := ih
      exact ⟨d + 1, _, hp, hd⟩

/-- Each parent edge goes down, so a path of `d` edges spans at least `d` positions. -/
theorem ReachesIn.add_le (hbelow : index.ParentsBelow) {a c d : Nat}
    (h : index.ReachesIn a c d) : a + d ≤ c := by
  induction d generalizing c with
  | zero => exact Nat.le_of_eq h
  | succ d ih =>
      obtain ⟨p, hp, h⟩ := h
      have := ih h
      have := hbelow c p hp
      omega

/-- Below `u32::MAX` every path is shorter than `GENERATION_RANGE_FULL` reaches, so the
full range admits every ancestor. -/
theorem reachesWithin_full_iff (hbelow : index.ParentsBelow) {a c : Nat}
    (hc : c < 4294967296) :
    index.ReachesWithin a c generationRangeFull ↔ index.IsAncestor a c := by
  refine ⟨fun ⟨_, _, h⟩ => h.isAncestor, fun h => ?_⟩
  obtain ⟨d, hd⟩ := h.exists_reachesIn
  have := hd.add_le hbelow
  exact ⟨d, by simp only [Range.contains, generationRangeFull]; simp; omega, hd⟩

/-- The ids of known entries lead back to them. -/
theorem exists_mem_map_commitId {l : List Nat} (hk : ∀ x ∈ l, index.Knows x)
    (P : Nat → Prop) :
    (∃ id ∈ l.map index.commitId, ∃ h, index.entryById id = some h ∧ P h) ↔
      ∃ h ∈ l, P h := by
  constructor
  · rintro ⟨_, hid, h, hh, hP⟩
    obtain ⟨a, ha, rfl⟩ := List.mem_map.mp hid
    exact ⟨a, ha, Option.some.inj ((hk a ha).symm.trans hh) ▸ hP⟩
  · rintro ⟨h, hh, hP⟩
    exact ⟨_, List.mem_map_of_mem _ hh, h, hk h hh, hP⟩

theorem isSome_of_mem_map_commitId {l : List Nat} (hk : ∀ x ∈ l, index.Knows x)
    {id : CommitId} (hid : id ∈ l.map index.commitId) : (index.entryById id).isSome := by
  obtain ⟨a, ha, rfl⟩ := List.mem_map.mp hid
  rw [hk a ha]
  rfl

end CompositeIndex

/-- The members of `P` that stand in `R` to no other member. Under the ancestor relation
these are what `heads` keeps, under its converse what `roots` keeps. -/
def Topmost (R : Nat → Nat → Prop) (P : Nat → Prop) (x : Nat) : Prop :=
  P x ∧ ¬∃ y, P y ∧ y ≠ x ∧ R x y

/-! ### The ids `revset_for_commit_ids` reads -/

theorem mem_mapM_some {f : CommitId → Option Nat} {x : Nat} :
    ∀ {ids : List CommitId} {entries : List Nat}, ids.mapM f = some entries →
      (x ∈ entries ↔ ∃ id ∈ ids, f id = some x)
  | [], entries, h => by
      cases h
      simp
  | id :: ids, entries, h => by
      simp only [List.mapM_cons, Option.bind_eq_bind, Option.bind_eq_some] at h
      obtain ⟨e, he, es, hes, h⟩ := h
      cases h
      rw [List.mem_cons, mem_mapM_some hes, List.exists_mem_cons_iff, he, Option.some.injEq,
        eq_comm]

theorem mem_destutter'_ne {x : Nat} :
    ∀ (l : List Nat) (a : Nat), x ∈ l.destutter' (· ≠ ·) a ↔ x = a ∨ x ∈ l
  | [], a => by simp [List.destutter'_nil]
  | b :: l, a => by
      by_cases h : a = b
      · subst h
        rw [List.destutter'_cons_neg _ (not_not.mpr rfl), mem_destutter'_ne l a]
        simp
      · rw [List.destutter'_cons_pos _ h, List.mem_cons, mem_destutter'_ne l b, List.mem_cons]

theorem mem_destutter_ne {x : Nat} : ∀ l : List Nat, x ∈ l.destutter (· ≠ ·) ↔ x ∈ l
  | [] => Iff.rfl
  | a :: l => by rw [List.destutter_cons', mem_destutter'_ne, List.mem_cons]

namespace EvaluationContext

variable (ctx : EvaluationContext)

open CompositeIndex

theorem mem_revsetForCommitIds {ids : List CommitId} {S : InternalRevset}
    (h : ctx.revsetForCommitIds ids = some S) (x : Nat) :
    x ∈ S.iter ctx.compositeIndex ↔
      ∃ id ∈ ids, ctx.compositeIndex.entryById id = some x := by
  simp only [revsetForCommitIds, Option.bind_eq_bind, Option.bind_eq_some] at h
  obtain ⟨es, hes, h⟩ := h
  cases h
  rw [InternalRevset.iter, mem_destutter_ne, (List.mergeSort_perm _ _).mem_iff,
    mem_mapM_some hes]

/-! ### What an expression denotes -/

/-- The ancestors of the visible heads: what `All` selects. -/
def Visible (x : Nat) : Prop :=
  ∃ id ∈ ctx.visibleHeads, ∃ h, ctx.compositeIndex.entryById id = some h ∧
    ctx.compositeIndex.IsAncestor x h

/-- `y` comes after `x` by `(committer timestamp, position)`, both commits read from the
store. -/
def Later (x y : Nat) : Prop :=
  ∃ tx ty, ctx.committerTimestamp x = some tx ∧ ctx.committerTimestamp y = some ty ∧
    toLex (tx, x) < toLex (ty, y)

/-- Fewer than `count` positions of `P` come after `x`. -/
def FewerLater (P : Nat → Prop) (x count : Nat) : Prop :=
  ∀ l : List Nat, l.Nodup → (∀ y ∈ l, P y ∧ ctx.Later x y) → l.length < count

/-- The positions an expression selects. Symbols select nothing: the caller resolves
them before evaluation. -/
def Denotes : RevsetExpression → Nat → Prop
  | .symbol _, _ | .branches _, _ | .remoteBranches _ _, _ | .tags, _ | .gitRefs, _
  | .gitHead, _ | .none, _ => False
  | .all, x => ctx.Visible x
  | .commits commitIds, x => ∃ id ∈ commitIds, ctx.compositeIndex.entryById id = some x
  | .children roots, x =>
      ctx.Visible x ∧ ∃ p ∈ ctx.compositeIndex.parentPositions x, Denotes roots p
  | .ancestors heads generation, x =>
      ∃ h, Denotes heads h ∧ ctx.compositeIndex.ReachesWithin x h generation
  | .range roots heads generation, x =>
      (∃ h, Denotes heads h ∧ ctx.compositeIndex.ReachesWithin x h generation) ∧
        ¬∃ r, Denotes roots r ∧ ctx.compositeIndex.IsAncestor x r
  | .dagRange roots heads, x =>
      (∃ h, Denotes heads h ∧ ctx.compositeIndex.IsAncestor x h) ∧
        ∃ r, Denotes roots r ∧ ctx.compositeIndex.IsAncestor r x
  | .visibleHeads, x => ∃ id ∈ ctx.visibleHeads, ctx.compositeIndex.entryById id = some x
  | .heads candidates, x => Denotes candidates x ∧
      ¬∃ y, Denotes candidates y ∧ y ≠ x ∧ ctx.compositeIndex.IsAncestor x y
  | .roots candidates, x => Denotes candidates x ∧
      ¬∃ y, Denotes candidates y ∧ y ≠ x ∧ ctx.compositeIndex.IsAncestor y x
  | .latest candidates count, x =>
      Denotes candidates x ∧ ctx.FewerLater (Denotes candidates) x count
  | .filter predicate, x =>
      ctx.Visible x ∧ predicate.test ctx.store ctx.compositeIndex x = true
  | .asFilter candidates, x | .present candidates, x => Denotes candidates x
  | .notIn complement, x => ctx.Visible x ∧ ¬Denotes complement x
  | .union e1 e2, x => Denotes e1 x ∨ Denotes e2 x
  | .intersection e1 e2, x => Denotes e1 x ∧ Denotes e2 x
  | .difference e1 e2, x => Denotes e1 x ∧ ¬Denotes e2 x

/-- `e` evaluates to a set that yields exactly the positions `P` holds of, each an entry
of the index. -/
def Realizes (e : RevsetExpression) (P : Nat → Prop) : Prop :=
  ∃ S, ctx.evaluate e = pure S ∧ (∀ x, x ∈ S.iter ctx.compositeIndex ↔ P x) ∧
    ∀ x ∈ S.iter ctx.compositeIndex, ctx.compositeIndex.Knows x

/-! ### One lemma per operator -/

theorem realizes_none : ctx.Realizes .none fun _ => False :=
  ⟨.eager [], by rw [evaluate], fun _ => iff_of_false (List.not_mem_nil _) id,
    fun _ h => absurd h (List.not_mem_nil _)⟩

theorem exists_revsetForCommitIds (hc : ctx.compositeIndex.Consistent) {ids : List CommitId}
    (h : ∀ id ∈ ids, (ctx.compositeIndex.entryById id).isSome) :
    ∃ S, ctx.revsetForCommitIds ids = some S ∧
      (∀ x, x ∈ S.iter ctx.compositeIndex ↔
        ∃ id ∈ ids, ctx.compositeIndex.entryById id = some x) ∧
      ∀ x ∈ S.iter ctx.compositeIndex, ctx.compositeIndex.Knows x :=
  let ⟨S, hS, hk⟩ := ctx.revsetForCommitIds_knows hc h
  ⟨S, hS, ctx.mem_revsetForCommitIds hS, hk⟩

theorem realizes_visibleHeads (hc : ctx.compositeIndex.Consistent)
    (hv : ∀ id ∈ ctx.visibleHeads, (ctx.compositeIndex.entryById id).isSome) :
    ctx.Realizes .visibleHeads fun x =>
      ∃ id ∈ ctx.visibleHeads, ctx.compositeIndex.entryById id = some x :=
  let ⟨S, hS, hm, hk⟩ := ctx.exists_revsetForCommitIds hc hv
  ⟨S, by rw [evaluate, Eval.lift_eq_pure]; exact hS, hm, hk⟩

/-- Between commits the store holds, `Later` compares their timestamps. -/
theorem later_iff {timestamp : Nat → MillisSinceEpoch} {x y : Nat}
    (hx : ctx.committerTimestamp x = some (timestamp x))
    (hy : ctx.committerTimestamp y = some (timestamp y)) :
    ctx.Later x y ↔ toLex (timestamp x, x) < toLex (timestamp y, y) := by
  simp only [Later, hx, hy, Option.some.injEq, exists_and_left, exists_eq_left']

/-- Over a list that enumerates `P` without repeats, all of whose commits the store holds,
`FewerLater` counts the later entries. -/
theorem fewerLater_iff {P : Nat → Prop} {l : List Nat} (hnd : l.Nodup)
    (hl : ∀ y, y ∈ l ↔ P y) {timestamp : Nat → MillisSinceEpoch}
    (hts : ∀ y ∈ l, ctx.committerTimestamp y = some (timestamp y)) {x : Nat} (hx : P x)
    (count : Nat) :
    ctx.FewerLater P x count ↔
      (l.filter fun y => decide (toLex (timestamp x, x) < toLex (timestamp y, y))).length <
        count := by
  have hlater : ∀ y ∈ l, ctx.Later x y ↔ toLex (timestamp x, x) < toLex (timestamp y, y) :=
    fun y hy => ctx.later_iff (hts x ((hl x).mpr hx)) (hts y hy)
  constructor
  · intro h
    exact h _ (hnd.filter _) fun y hy => by
      rw [List.mem_filter, decide_eq_true_eq] at hy
      exact ⟨(hl y).mp hy.1, (hlater y hy.1).mpr hy.2⟩
  · intro hlt m hm hy
    refine lt_of_le_of_lt (List.subperm_of_subset hm fun y hy' => ?_).length_le hlt
    have hyl := (hl y).mpr (hy y hy').1
    rw [List.mem_filter, decide_eq_true_eq]
    exact ⟨hyl, (hlater y hyl).mp (hy y hy').2⟩

section Operators

variable {ctx}
variable {a b : RevsetExpression} {A B : Nat → Prop}

theorem Realizes.of_iff {e : RevsetExpression} {P Q : Nat → Prop} (h : ctx.Realizes e P)
    (hPQ : ∀ x, P x ↔ Q x) : ctx.Realizes e Q :=
  let ⟨S, hS, hm, hk⟩ := h
  ⟨S, hS, fun x => (hm x).trans (hPQ x), hk⟩

theorem Realizes.of_evaluate_eq {e e' : RevsetExpression} {P : Nat → Prop}
    (heq : ctx.evaluate e' = ctx.evaluate e) (h : ctx.Realizes e P) : ctx.Realizes e' P :=
  let ⟨S, hS, hm⟩ := h
  ⟨S, heq.trans hS, hm⟩

theorem Realizes.knows {e : RevsetExpression} {P : Nat → Prop} (h : ctx.Realizes e P)
    {x : Nat} (hx : P x) : ctx.compositeIndex.Knows x :=
  let ⟨_, _, hm, hk⟩ := h
  hk x ((hm x).mpr hx)

theorem Realizes.union (ha : ctx.Realizes a A) (hb : ctx.Realizes b B) :
    ctx.Realizes (.union a b) fun x => A x ∨ B x := by
  obtain ⟨SA, hSA, hmA, hkA⟩ := ha
  obtain ⟨SB, hSB, hmB, hkB⟩ := hb
  refine ⟨.union SA SB, by rw [evaluate_union, hSA, hSB]; rfl, fun x => ?_, fun x hx => ?_⟩
  · rw [InternalRevset.mem_iter_union, hmA, hmB]
  · exact ((InternalRevset.mem_iter_union _).mp hx).elim (hkA x) (hkB x)

theorem Realizes.intersection (hw : ctx.compositeIndex.WalksDescending)
    (ha : ctx.Realizes a A) (hb : ctx.Realizes b B) :
    ctx.Realizes (.intersection a b) fun x => A x ∧ B x := by
  obtain ⟨SA, hSA, hmA, hkA⟩ := ha
  obtain ⟨SB, hSB, hmB, -⟩ := hb
  have wfA := ctx.evaluate_wellFormed hw a hSA
  have wfB := ctx.evaluate_wellFormed hw b hSB
  refine ⟨.filter SA SB, by rw [evaluate_intersection, hSA, hSB]; rfl, fun x => ?_,
    fun x hx => hkA x ((wfA.mem_iter_filter _ wfB).mp hx).1⟩
  rw [wfA.mem_iter_filter _ wfB, hmA, hmB]

theorem Realizes.difference (hw : ctx.compositeIndex.WalksDescending)
    (ha : ctx.Realizes a A) (hb : ctx.Realizes b B) :
    ctx.Realizes (.difference a b) fun x => A x ∧ ¬B x := by
  obtain ⟨SA, hSA, hmA, hkA⟩ := ha
  obtain ⟨SB, hSB, hmB, -⟩ := hb
  have wfA := ctx.evaluate_wellFormed hw a hSA
  have wfB := ctx.evaluate_wellFormed hw b hSB
  refine ⟨.difference SA SB, by rw [evaluate_difference, hSA, hSB]; rfl, fun x => ?_,
    fun x hx => hkA x ((wfA.mem_iter_difference _ wfB).mp hx).1⟩
  rw [wfA.mem_iter_difference _ wfB, hmA, hmB]

theorem Realizes.notIn (hw : ctx.compositeIndex.WalksDescending)
    (hall : ctx.Realizes .all A) (hb : ctx.Realizes b B) :
    ctx.Realizes (.notIn b) fun x => A x ∧ ¬B x := by
  obtain ⟨SA, hSA, hmA, hkA⟩ := hall
  obtain ⟨SB, hSB, hmB, -⟩ := hb
  have wfA := ctx.evaluate_wellFormed hw _ hSA
  have wfB := ctx.evaluate_wellFormed hw b hSB
  refine ⟨.difference SA SB, by rw [evaluate_notIn, hSA, hSB]; rfl, fun x => ?_,
    fun x hx => hkA x ((wfA.mem_iter_difference _ wfB).mp hx).1⟩
  rw [wfA.mem_iter_difference _ wfB, hmA, hmB]

theorem Realizes.filter (hw : ctx.compositeIndex.WalksDescending)
    (hall : ctx.Realizes .all A) (predicate : RevsetFilterPredicate) :
    ctx.Realizes (.filter predicate) fun x =>
      A x ∧ predicate.test ctx.store ctx.compositeIndex x = true := by
  obtain ⟨SA, hSA, hmA, hkA⟩ := hall
  have wfA := ctx.evaluate_wellFormed hw _ hSA
  refine ⟨.filterPure SA (buildPredicateFn ctx.store ctx.compositeIndex predicate), ?_,
    fun x => ?_, fun x hx => hkA x ((wfA.mem_iter_filterPure _ _).mp hx).1⟩
  · conv_lhs => rw [evaluate]
    rw [hSA]
    rfl
  · rw [wfA.mem_iter_filterPure, hmA]
    simp [buildPredicateFn]

theorem Realizes.asFilter (ha : ctx.Realizes a A) : ctx.Realizes (.asFilter a) A :=
  ha.of_evaluate_eq (by rw [evaluate])

theorem Realizes.present (ha : ctx.Realizes a A) : ctx.Realizes (.present a) A :=
  ha.of_evaluate_eq (by rw [evaluate, Eval.tryCatch_of_noError (ctx.evaluate_noError a)])

theorem Realizes.range (hK : ctx.compositeIndex.Contract) (ha : ctx.Realizes a A)
    (hb : ctx.Realizes b B) (generation : Range) :
    ctx.Realizes (.range a b generation) fun x =>
      (∃ h, B h ∧ ctx.compositeIndex.ReachesWithin x h generation) ∧
        ¬∃ r, A r ∧ ctx.compositeIndex.IsAncestor x r := by
  obtain ⟨SA, hSA, hmA, hkA⟩ := ha
  obtain ⟨SB, hSB, hmB, hkB⟩ := hb
  have hknown : ∀ id ∈ (SB.iter ctx.compositeIndex).map ctx.compositeIndex.commitId ++
      (SA.iter ctx.compositeIndex).map ctx.compositeIndex.commitId,
      (ctx.compositeIndex.entryById id).isSome := fun id hid =>
    (List.mem_append.mp hid).elim (isSome_of_mem_map_commitId hkB)
      (isSome_of_mem_map_commitId hkA)
  -- what the walker selects by head and root ids, read back on the members
  have hread : ∀ (Q : Nat → Prop) (x : Nat),
      ((∃ id ∈ (SB.iter ctx.compositeIndex).map ctx.compositeIndex.commitId,
          ∃ h, ctx.compositeIndex.entryById id = some h ∧ Q h) ∧
        ¬∃ id ∈ (SA.iter ctx.compositeIndex).map ctx.compositeIndex.commitId,
          ∃ r, ctx.compositeIndex.entryById id = some r ∧ ctx.compositeIndex.IsAncestor x r) ↔
      (∃ h, B h ∧ Q h) ∧ ¬∃ r, A r ∧ ctx.compositeIndex.IsAncestor x r := fun Q x => by
    simp only [exists_mem_map_commitId hkB, exists_mem_map_commitId hkA, hmA, hmB]
  by_cases hg : generation = generationRangeFull
  · refine ⟨.revWalk (ctx.compositeIndex.walkRevs _ _),
      by simp only [evaluate_range, hSA, hSB, pure_bind, if_pos hg]; rfl, fun x => ?_,
      fun x hx => hK.consistent.knows_walkRevs _ _ x hx⟩
    rw [InternalRevset.iter, hK.mem_walkRevs _ _ hknown, hread, hg]
    exact and_congr_left' (exists_congr fun h => and_congr_right fun hh =>
      (reachesWithin_full_iff hK.parentsBelow
        (hK.entryById_lt _ _ (hkB h ((hmB h).mpr hh)))).symm)
  · refine ⟨.revWalk (ctx.compositeIndex.filterByGeneration _ _ generation),
      by simp only [evaluate_range, hSA, hSB, pure_bind, if_neg hg]; rfl, fun x => ?_,
      fun x hx => hK.consistent.knows_filterByGeneration _ _ _ x hx⟩
    rw [InternalRevset.iter, hK.mem_filterByGeneration _ _ hknown, hread]

theorem Realizes.ancestors (hK : ctx.compositeIndex.Contract) (hb : ctx.Realizes b B)
    (generation : Range) :
    ctx.Realizes (.ancestors b generation) fun x =>
      ∃ h, B h ∧ ctx.compositeIndex.ReachesWithin x h generation :=
  ((ctx.realizes_none.range hK hb generation).of_evaluate_eq
    (ctx.evaluate_ancestors b generation)).of_iff fun _ => and_iff_left fun ⟨_, h, _⟩ => h

/-- `ancestors()`: the ancestors of the members, at any generation. -/
theorem Realizes.ancestorsFull (hK : ctx.compositeIndex.Contract) (hb : ctx.Realizes b B) :
    ctx.Realizes b.ancestorsFull fun x => ∃ h, B h ∧ ctx.compositeIndex.IsAncestor x h :=
  (hb.ancestors hK generationRangeFull).of_iff fun _ => exists_congr fun _ =>
    and_congr_right fun hh => reachesWithin_full_iff hK.parentsBelow
      (hK.entryById_lt _ _ (hb.knows hh))

theorem Realizes.dagRange (hK : ctx.compositeIndex.Contract) (ha : ctx.Realizes a A)
    (hb : ctx.Realizes b B) :
    ctx.Realizes (.dagRange a b) fun x =>
      (∃ h, B h ∧ ctx.compositeIndex.IsAncestor x h) ∧
        ∃ r, A r ∧ ctx.compositeIndex.IsAncestor r x := by
  obtain ⟨SA, hSA, hmA, -⟩ := ha
  obtain ⟨C, hC, hmC, hkC⟩ := hb.ancestorsFull hK
  have hclosed : ∀ c ∈ C.iter ctx.compositeIndex,
      ∀ p ∈ ctx.compositeIndex.parentPositions c, p ∈ C.iter ctx.compositeIndex :=
    fun c hc p hp => by
      obtain ⟨h, hh, hch⟩ := (hmC c).mp hc
      exact (hmC p).mpr ⟨h, hh, hch.head hp⟩
  refine ⟨.eager (dagRangeSweep ctx.compositeIndex (SA.iter ctx.compositeIndex)
    (C.iter ctx.compositeIndex)), by rw [evaluate_dagRange, hSA, hC]; rfl, fun x => ?_,
    fun x hx => hkC x ((dagRangeSweep_sublist _ _ _).subset hx)⟩
  rw [InternalRevset.iter, mem_dagRangeSweep _ _ hK.parentsBelow
    ((ctx.evaluate_wellFormed hK.walksDescending _ hC).sorted _) hclosed, hmC]
  exact and_congr_right' (exists_congr fun r => and_congr_left' (hmA r))

theorem Realizes.roots (hK : ctx.compositeIndex.Contract) (ha : ctx.Realizes a A) :
    ctx.Realizes (.roots a) (Topmost (fun x y => ctx.compositeIndex.IsAncestor y x) A) := by
  obtain ⟨C, hC, hmC, -⟩ := ha.dagRange hK ha
  obtain ⟨SA, hSA, hmA, hkA⟩ := ha
  refine ⟨.eager ((SA.iter ctx.compositeIndex).filter fun c =>
      !(ctx.compositeIndex.parentPositions c).any (· ∈ C.iter ctx.compositeIndex)),
    by rw [evaluate_roots, RevsetExpression.connected, hC, hSA]; rfl, fun x => ?_,
    fun x hx => hkA x (List.mem_of_mem_filter hx)⟩
  simp only [InternalRevset.iter, List.mem_filter, Bool.not_eq_true', List.any_eq_false,
    decide_eq_true_eq, hmA, hmC, Topmost]
  refine and_congr_right fun hx => ⟨fun hnone ⟨m, hm, hne, hmx⟩ => ?_,
    fun hnone p hp ⟨_, r, hr, hrp⟩ => ?_⟩
  · -- the last edge into `x` leaves a parent in the connected closure
    rcases Relation.ReflTransGen.cases_tail hmx with rfl | ⟨p, hmp, hp⟩
    · exact hne rfl
    · exact hnone p hp ⟨⟨x, hx, .single hp⟩, m, hm, hmp⟩
  · have hrx : r < x := lt_of_le_of_lt (hrp.le hK.parentsBelow) (hK.parentsBelow x p hp)
    exact hnone ⟨r, hr, hrx.ne, hrp.tail hp⟩

theorem Realizes.heads (hK : ctx.compositeIndex.Contract) (ha : ctx.Realizes a A) :
    ctx.Realizes (.heads a) (Topmost ctx.compositeIndex.IsAncestor A) := by
  obtain ⟨SA, hSA, hmA, hkA⟩ := ha
  set ids := (SA.iter ctx.compositeIndex).map ctx.compositeIndex.commitId
  have hknown : ∀ id ∈ ids, (ctx.compositeIndex.entryById id).isSome :=
    fun _ => isSome_of_mem_map_commitId hkA
  have hheads := hK.mem_heads ids hknown
  obtain ⟨S, hS, hmS, hkS⟩ := ctx.exists_revsetForCommitIds hK.consistent fun id hid =>
    hknown id ((hheads id).mp hid).1
  refine ⟨S, by rw [evaluate_heads, hSA]; exact Eval.lift_eq_pure.mpr hS, fun x => ?_, hkS⟩
  -- a member's id is a head exactly when the member is an ancestor of no other member
  have hid : ∀ y ∈ SA.iter ctx.compositeIndex, ∀ z ∈ SA.iter ctx.compositeIndex,
      ctx.compositeIndex.commitId y = ctx.compositeIndex.commitId z → y = z :=
    fun y hy z hz he => Option.some.inj ((hkA y hy).symm.trans (he ▸ hkA z hz))
  rw [hmS, Topmost]
  constructor
  · rintro ⟨_, hx, hex⟩
    obtain ⟨hxids, hnot⟩ := (hheads _).mp hx
    obtain ⟨c, hc, rfl⟩ := List.mem_map.mp hxids
    obtain rfl : c = x := Option.some.inj ((hkA c hc).symm.trans hex)
    refine ⟨(hmA c).mp hc, fun ⟨y, hy, hne, hcy⟩ => hnot ⟨_, List.mem_map_of_mem _
      ((hmA y).mpr hy), fun he => hne (hid _ ((hmA y).mpr hy) _ hc he), c, y, hkA c hc,
      hkA y ((hmA y).mpr hy), hcy⟩⟩
  · rintro ⟨hx, hnone⟩
    have hxm := (hmA x).mpr hx
    refine ⟨_, (hheads _).mpr ⟨List.mem_map_of_mem _ hxm, ?_⟩, hkA x hxm⟩
    rintro ⟨_, hyids, hne, h, h', hh, hh', hhy⟩
    obtain ⟨y, hy, rfl⟩ := List.mem_map.mp hyids
    obtain rfl : x = h := Option.some.inj ((hkA x hxm).symm.trans hh)
    obtain rfl : y = h' := Option.some.inj ((hkA y hy).symm.trans hh')
    exact hnone ⟨y, (hmA y).mp hy, fun he => hne (congrArg _ he), hhy⟩

theorem Realizes.children (hK : ctx.compositeIndex.Contract)
    (hv : ∀ id ∈ ctx.visibleHeads, (ctx.compositeIndex.entryById id).isSome)
    (ha : ctx.Realizes a A) :
    ctx.Realizes (.children a) fun x =>
      ctx.Visible x ∧ ∃ p ∈ ctx.compositeIndex.parentPositions x, A p := by
  obtain ⟨C, hC, hmC, hkC⟩ := ha.dagRange hK (ctx.realizes_visibleHeads hK.consistent hv)
  obtain ⟨SA, hSA, hmA, -⟩ := ha
  refine ⟨.children SA C, by rw [evaluate_children, hSA, RevsetExpression.descendants, hC]; rfl,
    fun x => ?_, fun x hx => hkC x ((InternalRevset.mem_childrenIter _).mp hx).1⟩
  rw [InternalRevset.iter, InternalRevset.mem_childrenIter, hmC]
  simp only [hmA]
  -- a parent among the roots makes a visible candidate a descendant of the roots
  constructor
  · rintro ⟨⟨⟨h, ⟨id, hid, he⟩, hx⟩, -⟩, hp⟩
    exact ⟨⟨id, hid, h, he, hx⟩, hp⟩
  · rintro ⟨⟨id, hid, h, he, hx⟩, p, hp, hA⟩
    exact ⟨⟨⟨h, ⟨id, hid, he⟩, hx⟩, p, hA, .single hp⟩, p, hp, hA⟩

theorem Realizes.latest (hK : ctx.compositeIndex.Contract)
    (hs : ctx.store.Holds ctx.compositeIndex) (ha : ctx.Realizes a A) (count : Nat) :
    ctx.Realizes (.latest a count) fun x => A x ∧ ctx.FewerLater A x count := by
  obtain ⟨SA, hSA, hmA, hkA⟩ := ha
  have hnd : (SA.iter ctx.compositeIndex).Nodup :=
    ((ctx.evaluate_wellFormed hK.walksDescending _ hSA).sorted _).nodup
  rcases Nat.eq_zero_or_pos count with rfl | hk
  · refine ⟨.eager [], by rw [evaluate_latest, hSA]; rfl,
      fun x => iff_of_false (List.not_mem_nil x) fun ⟨_, h⟩ => Nat.lt_irrefl 0
        (h [] List.nodup_nil fun _ h => absurd h (List.not_mem_nil _)),
      fun x h => absurd h (List.not_mem_nil x)⟩
  obtain ⟨timestamp, hts⟩ :=
    ctx.exists_timestamp fun c hc => ctx.committerTimestamp_isSome hs (hkA c hc)
  obtain ⟨heap, hheap, hS⟩ :=
    ctx.takeLatestRevset_heap (.eager (SA.iter ctx.compositeIndex)) hk hnd hts
  -- a kept entry is a candidate whose item the heap holds
  have hmem : ∀ x, x ∈ (heap.map Item.entry).mergeSort (fun a b => decide (b ≤ a)) ↔
      x ∈ SA.iter ctx.compositeIndex ∧ Item.mk (timestamp x) x ∈ heap := fun x => by
    rw [(List.mergeSort_perm _ _).mem_iff, List.mem_map]
    constructor
    · rintro ⟨i, hi, rfl⟩
      obtain ⟨c, hc, rfl⟩ := List.mem_map.mp (hheap.2.1 hi)
      exact ⟨hc, hi⟩
    · exact fun ⟨_, hi⟩ => ⟨_, hi, rfl⟩
  refine ⟨.eager ((heap.map Item.entry).mergeSort fun a b => decide (b ≤ a)),
    by rw [evaluate_latest, hSA]; exact Eval.lift_eq_pure.mpr hS, fun x => ?_,
    fun x hx => hkA x ((hmem x).mp hx).1⟩
  show x ∈ _ ↔ A x ∧ ctx.FewerLater A x count
  rw [InternalRevset.iter, hmem, hmA x]
  refine and_congr_right fun hx => (hheap.mem_iff (hnd.map mk_injective)
    (List.mem_map_of_mem _ ((hmA x).mpr hx))).trans ?_
  rw [ctx.fewerLater_iff hnd hmA hts hx]
  simp only [List.filter_map, List.length_map, Function.comp_def, Item.mk_lt_mk,
    InternalRevset.iter]

end Operators

end EvaluationContext

/-! ### The revset handed to callers -/

section Chain

open CompositeIndex

end Chain

namespace EvaluationContext

end EvaluationContext

end RevsetEngine
